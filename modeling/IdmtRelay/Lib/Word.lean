import Mathlib.Data.BitVec

/-!
# Words as pairs of halves

A `2n`-bit word and its two `n`-bit halves (`lo`, `hi`, `join`), the little-endian reading of the
unions of an integer with a struct of its parts.
-/

namespace Lib.Word

variable {n : Nat}

def join (lo hi : BitVec n) : BitVec (n + n) := hi ++ lo

def lo (x : BitVec (n + n)) : BitVec n := x.extractLsb' 0 n

def hi (x : BitVec (n + n)) : BitVec n := x.extractLsb' n n

@[simp] theorem lo_join (a b : BitVec n) : lo (join a b) = a := by
  unfold lo join
  exact BitVec.extractLsb'_append_eq_right

@[simp] theorem hi_join (a b : BitVec n) : hi (join a b) = b := by
  unfold hi join
  exact BitVec.extractLsb'_append_eq_left

theorem join_lo_hi (x : BitVec (n + n)) : join (lo x) (hi x) = x :=
  BitVec.extractLsb'_append_extractLsb'

/-- A word is determined by its halves. -/
theorem join_eq_iff {a b : BitVec n} {x : BitVec (n + n)} :
    join a b = x ↔ a = lo x ∧ b = hi x := by
  constructor
  · rintro rfl
    exact ⟨(lo_join a b).symm, (hi_join a b).symm⟩
  · rintro ⟨rfl, rfl⟩
    exact join_lo_hi x

end Lib.Word
