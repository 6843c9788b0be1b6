import Mathlib.Data.List.Basic
import Mathlib.Order.Disjoint

/-!
# Reservations

A stock, of which more and more is in use: a request is refused, or is served with something that
is disjoint from all that is in use. `Served gs used`: the requests served so far got `gs`, from a
stock that was free, and `used` is in use. Whatever was served is in use (`Served.le`), and no two
of the requests got anything in common (`Served.pairwise`).
-/

namespace Lib

variable {α : Type _} [Lattice α] [OrderBot α]

inductive Served : List α → α → Prop
  | nil : Served [] ⊥
  | snoc {gs : List α} {used g : α} :
      Served gs used → Disjoint used g → Served (gs ++ [g]) (used ⊔ g)

namespace Served

variable {gs : List α} {used : α}

theorem le (h : Served gs used) {g : α} (hg : g ∈ gs) : g ≤ used := by
  induction h with
  | nil => cases hg
  | snoc _ _ ih =>
    rcases List.mem_append.1 hg with hg | hg
    · exact (ih hg).trans le_sup_left
    · rw [List.mem_singleton.1 hg]
      exact le_sup_right

theorem pairwise (h : Served gs used) : gs.Pairwise Disjoint := by
  induction h with
  | nil => exact .nil
  | snoc h hd ih =>
    rw [List.pairwise_append]
    refine ⟨ih, List.pairwise_singleton _ _, fun a ha b hb => ?_⟩
    rw [List.mem_singleton.1 hb]
    exact hd.mono_left (h.le ha)

end Served

end Lib
