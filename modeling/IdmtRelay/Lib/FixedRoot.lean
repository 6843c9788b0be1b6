import Mathlib.Data.Nat.Sqrt
import Mathlib.Tactic.Linarith
import Mathlib.Tactic.Ring

/-!
# Square roots in a row, in fixed point

A number `x` stands for `x / u`. `floorRoot u` is the square root rounded down, `squareUp u` the
square rounded up; one is the adjoint of the other, and so are the `k`-th iterates
(`squareUp_iterate_le`).

`k` roots in a row, each exact up to rounding, approximate a root of index `2 ^ k`: if `v x` bounds
`x` such that one step halves the exponent of `v`, then the `k` steps divide it by `2 ^ k`
(`iterate_pow_le`, `le_iterate_pow`). `pow_le_of_pow_le` and `le_pow_of_le_pow` go from this index
to another one.
-/

namespace Lib.FixedRoot

/-- The square root of `x / u`, rounded down. -/
def floorRoot (u x : Nat) : Nat := (x * u).sqrt

/-- The square of `q / u`, rounded up. -/
def squareUp (u q : Nat) : Nat := (q * q + (u - 1)) / u

section
variable {u q x : Nat}

theorem squareUp_le (hu : 0 < u) : squareUp u q ≤ x ↔ q ≤ floorRoot u x := by
  have hmul : u * x + u - 1 = u * x + (u - 1) := by omega
  unfold squareUp floorRoot
  rw [Nat.le_sqrt, Nat.div_le_iff_le_mul_add_pred hu, Nat.mul_comm x u]
  omega

/-- **`k` roots in a row reach `q` exactly if `k` squares in a row from `q` stay below.** -/
theorem squareUp_iterate_le (hu : 0 < u) {k : Nat} :
    (squareUp u)^[k] q ≤ x ↔ q ≤ (floorRoot u)^[k] x := by
  induction k generalizing x with
  | zero => rfl
  | succ k ih => rw [Function.iterate_succ_apply', squareUp_le hu, ih, Function.iterate_succ_apply]

theorem floorRoot_mono {y : Nat} (h : x ≤ y) : floorRoot u x ≤ floorRoot u y :=
  Nat.sqrt_le_sqrt (Nat.mul_le_mul_right u h)

end

section
variable {α : Type _} {S : α → Prop} {f : α → α} {v : α → Nat} {u : Nat}

/-- A step that halves the exponent of a lower bound. -/
theorem iterate_pow_le (hS : ∀ x, S x → S (f x)) (hf : ∀ x, S x → v (f x) ^ 2 ≤ v x * u) {x : α}
    (hx : S x) (k : Nat) : v (f^[k] x) ^ 2 ^ k * u ≤ v x * u ^ 2 ^ k := by
  induction k generalizing x with
  | zero => simp
  | succ k ih =>
    rcases Nat.eq_zero_or_pos u with rfl | hu
    · simp
    · rw [Function.iterate_succ_apply]
      refine Nat.le_of_mul_le_mul_right (c := u) ?_ hu
      calc v (f^[k] (f x)) ^ 2 ^ (k + 1) * u * u
        _ = (v (f^[k] (f x)) ^ 2 ^ k * u) ^ 2 := by ring
        _ ≤ (v (f x) * u ^ 2 ^ k) ^ 2 := Nat.pow_le_pow_left (ih (hS x hx)) 2
        _ = v (f x) ^ 2 * u ^ 2 ^ (k + 1) := by ring
        _ ≤ v x * u * u ^ 2 ^ (k + 1) := Nat.mul_le_mul_right _ (hf x hx)
        _ = v x * u ^ 2 ^ (k + 1) * u := by ring

/-- A step that halves the exponent of an upper bound. -/
theorem le_iterate_pow (hS : ∀ x, S x → S (f x)) (hf : ∀ x, S x → v x * u ≤ v (f x) ^ 2) {x : α}
    (hx : S x) (k : Nat) : v x * u ^ 2 ^ k ≤ v (f^[k] x) ^ 2 ^ k * u := by
  induction k generalizing x with
  | zero => simp
  | succ k ih =>
    rcases Nat.eq_zero_or_pos u with rfl | hu
    · simp
    · rw [Function.iterate_succ_apply]
      refine Nat.le_of_mul_le_mul_right (c := u) ?_ hu
      calc v x * u ^ 2 ^ (k + 1) * u
        _ = v x * u * u ^ 2 ^ (k + 1) := by ring
        _ ≤ v (f x) ^ 2 * u ^ 2 ^ (k + 1) := Nat.mul_le_mul_right _ (hf x hx)
        _ = (v (f x) * u ^ 2 ^ k) ^ 2 := by ring
        _ ≤ (v (f^[k] (f x)) ^ 2 ^ k * u) ^ 2 := Nat.pow_le_pow_left (ih (hS x hx)) 2
        _ = v (f^[k] (f x)) ^ 2 ^ (k + 1) * u * u := by ring

end

section
variable {a b u m e : Nat}

/-- Below a power with a larger exponent, hence below that with a smaller one. -/
theorem pow_le_of_pow_le (hu : 0 < u) (hb : u ≤ b) (he : e ≤ m) (h : a ^ m * u ≤ b * u ^ m) :
    a ^ e * u ≤ b * u ^ e := by
  rcases Nat.le_total a u with hau | hua
  · rw [Nat.mul_comm]
    exact Nat.mul_le_mul hb (Nat.pow_le_pow_left hau e)
  · refine Nat.le_of_mul_le_mul_right (c := u ^ (m - e)) ?_ (Nat.pow_pos hu)
    calc a ^ e * u * u ^ (m - e)
      _ ≤ a ^ e * u * a ^ (m - e) := Nat.mul_le_mul_left _ (Nat.pow_le_pow_left hua _)
      _ = a ^ (e + (m - e)) * u := by rw [Nat.pow_add]; ring
      _ = a ^ m * u := by rw [Nat.add_sub_cancel' he]
      _ ≤ b * u ^ m := h
      _ = b * u ^ (e + (m - e)) := by rw [Nat.add_sub_cancel' he]
      _ = b * u ^ e * u ^ (m - e) := by rw [Nat.pow_add]; ring

/-- Above a power with a smaller exponent, hence above that with a larger one. -/
theorem le_pow_of_le_pow (hua : u ≤ a) (he : m ≤ e) (h : b * u ^ m ≤ a ^ m * u) :
    b * u ^ e ≤ a ^ e * u := calc
  b * u ^ e = b * u ^ (m + (e - m)) := by rw [Nat.add_sub_cancel' he]
  _ = b * u ^ m * u ^ (e - m) := by rw [Nat.pow_add]; ring
  _ ≤ a ^ m * u * a ^ (e - m) := Nat.mul_le_mul h (Nat.pow_le_pow_left hua _)
  _ = a ^ (m + (e - m)) * u := by rw [Nat.pow_add]; ring
  _ = a ^ e * u := by rw [Nat.add_sub_cancel' he]

end

end Lib.FixedRoot
