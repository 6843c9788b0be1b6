import IdmtRelay.Lib.Store
import Mathlib.Logic.Function.Iterate

/-!
# Stores whose contents move

A machine that, with every operation, also moves the content of cell `f i` to cell `i`. After a list
of operations a cell reads as the latest operation left it where its content then was (`drift`,
`after_eq_drift`). A cell that stays in place is an exact store (`drift_of_fixed`).
-/

namespace Lib.Store

variable {ι β ω σ : Type _} {w : ω → ι → Option β} {f : ι → ι}

/-- The cells after `ops`: the `k`-th operation from the end last found the content of cell `i` in
cell `f^[k] i`. -/
def drift (w : ω → ι → Option β) (f : ι → ι) (m : ι → β) (ops : List ω) : ι → β := fun i =>
  ((ops.reverse.zipIdx 1).findSome? fun p => w p.1 (f^[p.2] i)).getD (m (f^[ops.length] i))

@[simp] theorem drift_nil (m : ι → β) : drift w f m [] = m := rfl

theorem drift_snoc (m : ι → β) (ops : List ω) (op : ω) (i : ι) :
    drift w f m (ops ++ [op]) i = overwrite w op (drift w f m ops) (f i) := by
  unfold drift overwrite
  rw [List.reverse_append, List.reverse_singleton, List.singleton_append, List.zipIdx_cons,
    List.findSome?_cons, List.length_append, List.length_singleton]
  cases h : w op (f^[1] i) with
  | some b =>
    have h : w op (f i) = some b := h
    rw [h]
    rfl
  | none =>
    have h : w op (f i) = none := h
    rw [h, List.zipIdx_succ, List.findSome?_map]
    rfl

/-- **The moving machine computes the drift.** -/
theorem after_eq_drift {exec : ω → σ → σ} {Inv : σ → Prop} {view : σ → ι → β}
    (hinv : ∀ op s, Inv s → Inv (exec op s))
    (hview : ∀ op s, Inv s → ∀ i, view (exec op s) i = overwrite w op (view s) (f i)) {s : σ}
    (h : Inv s) (ops : List ω) : view (after exec s ops) = drift w f (view s) ops := by
  induction ops using List.reverseRecOn with
  | nil => rfl
  | append_singleton ops op ih =>
    funext i
    rw [after_snoc, hview op _ (after_inv hinv h ops), ih, drift_snoc]

/-- **A cell that stays in place is an exact store.** -/
theorem drift_of_fixed (m : ι → β) (ops : List ω) {i : ι} (h : f i = i) :
    drift w f m ops i = reads w m ops i := by
  induction ops using List.reverseRecOn with
  | nil => rfl
  | append_singleton ops op ih =>
    rw [drift_snoc, reads_snoc, h]
    unfold overwrite
    rw [ih]

/-- Cells that no operation touches only move. -/
theorem drift_of_untouched (m : ι → β) (ops : List ω) {i : ι}
    (h : ∀ op ∈ ops, ∀ k, w op (f^[k] i) = none) :
    drift w f m ops i = m (f^[ops.length] i) := by
  unfold drift
  rw [List.findSome?_eq_none_iff.2, Option.getD_none]
  intro p hp
  exact h p.1 (List.mem_reverse.1 (List.fst_mem_of_mem_zipIdx hp)) p.2

end Lib.Store
