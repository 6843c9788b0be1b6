import Mathlib.Data.List.Basic
import Mathlib.Logic.Function.Iterate

/-!
# Ring buffers

A buffer `buf : ι → α` whose cells are visited in the order `i, next i, next (next i), …`, which
comes back to a cell only after `cap` steps (`Cyclic`). `contents buf i n` are the `n` elements that
start at `i`. Writing the cell after the last element appends it (`contents_push`), stepping the
start drops the oldest one (`contents_succ`); both hold for every index arithmetic with a `next`.
-/

namespace Lib.Ring

variable {ι α : Type _}

/-- The `n` elements from `i` on, oldest first. -/
def contents (next : ι → ι) (buf : ι → α) : ι → Nat → List α
  | _, 0 => []
  | i, n + 1 => buf i :: contents next buf (next i) n

/-- `next` returns to no cell before `cap` steps. -/
def Cyclic (next : ι → ι) (cap : Nat) : Prop := ∀ i, ∀ k < cap, 0 < k → next^[k] i ≠ i

variable {next : ι → ι} {buf : ι → α}

@[simp] theorem contents_zero (i : ι) : contents next buf i 0 = [] := rfl

theorem contents_succ (i : ι) (n : Nat) :
    contents next buf i (n + 1) = buf i :: contents next buf (next i) n := rfl

@[simp] theorem contents_length (i : ι) (n : Nat) : (contents next buf i n).length = n := by
  induction n generalizing i with
  | zero => rfl
  | succ n ih => simp [contents_succ, ih]

theorem contents_snoc (i : ι) (n : Nat) :
    contents next buf i (n + 1) = contents next buf i n ++ [buf (next^[n] i)] := by
  induction n generalizing i with
  | zero => rfl
  | succ n ih => rw [contents_succ, ih (next i), contents_succ]; rfl

/-- Only the visited cells matter. -/
theorem contents_congr {buf' : ι → α} {i : ι} {n : Nat}
    (h : ∀ k < n, buf (next^[k] i) = buf' (next^[k] i)) :
    contents next buf i n = contents next buf' i n := by
  induction n generalizing i with
  | zero => rfl
  | succ n ih =>
    have h0 : buf i = buf' i := h 0 (Nat.succ_pos n)
    rw [contents_succ, contents_succ, h0, ih fun k hk => h (k + 1) (Nat.succ_lt_succ hk)]

theorem Cyclic.iterate_ne {cap : Nat} (hc : Cyclic next cap) {i : ι} {k n : Nat} (hk : k < n)
    (hn : n < cap) : next^[n] i ≠ next^[k] i := by
  obtain ⟨d, rfl⟩ : ∃ d, n = d + k := ⟨n - k, by omega⟩
  rw [Function.iterate_add_apply]
  exact hc _ d (by omega) (by omega)

/-- **Writing the first free cell appends.** -/
theorem contents_push [DecidableEq ι] {cap : Nat} (hc : Cyclic next cap) (buf : ι → α) {i : ι}
    {n : Nat} (hn : n < cap) (v : α) :
    contents next (Function.update buf (next^[n] i) v) i (n + 1) =
      contents next buf i n ++ [v] := by
  rw [contents_snoc, Function.update_self]
  congr 1
  exact contents_congr fun k hk => Function.update_of_ne (hc.iterate_ne hk hn).symm _ _

end Lib.Ring
