import IdmtRelay.Measure.Proof.SquareRoot

/-!
# The accuracy of the square root

The first pass leaves a value of at most three times the root over the operating range
(`first_le_three`), and of at most 5/3 of it from 1.0 on (`first_le_five_thirds`). The convergence
of `Lib.Newton` then leaves the root and its successor after six passes (`squareRoot_accurate`), and
from 1.0 on already after five: there the last pass gives the root itself unless the radicand is
one below a square (`root_of_one_le`). So the computed root is monotone (`root_mono`).
-/

namespace Measure

open Lib Lib.Newton

/-! ## The first pass -/

/-- The value after the first pass. -/
def first (base : Nat) : Nat := step (base * 65536) (base / 2)

theorem root_first (base : Nat) : root base = iter (base * 65536) 5 (first base) := by
  unfold root NB_ITERATIONS first
  exact iter_succ _ _ _

theorem root_last (base : Nat) :
    root base = step (base * 65536) (iter (base * 65536) 4 (first base)) := rfl

section
variable {base : Nat}

theorem sqrt_le_first (h : 2 ≤ base) : (base * 65536).sqrt ≤ first base :=
  sqrt_le_step (by omega)

/-- The mean of about 2.0 and half the base; `e` is what an odd base adds. -/
theorem first_le {e : Nat} (h : 2 ≤ base) (he : 131072 ≤ e * (base - 1)) :
    4 * first base ≤ 262144 + 2 * e + base := by
  have hdiv : base * 65536 / (base / 2) ≤ 131072 + e := by
    apply Nat.div_le_of_le_mul
    have : e * (base - 1) ≤ e * (2 * (base / 2)) := Nat.mul_le_mul_left e (by omega)
    nlinarith [Nat.div_add_mod base 2, Nat.mod_lt base (show 0 < 2 by decide)]
  unfold first step
  omega

theorem first_le_three (hlo : 8192 ≤ base) (hhi : base ≤ 2097152) :
    first base ≤ 3 * ((base * 65536).sqrt + 1) := by
  have hfirst := first_le (show 2 ≤ base by omega) (show 131072 ≤ 17 * (base - 1) by omega)
  have hN : base * 65536 < ((base * 65536).sqrt + 1) ^ 2 := Nat.lt_succ_sqrt' _
  by_contra hgt
  have hsq : 144 * (base * 65536) < (262178 + base) ^ 2 := calc
    144 * (base * 65536) < 144 * ((base * 65536).sqrt + 1) ^ 2 := by omega
    _ = (12 * ((base * 65536).sqrt + 1)) ^ 2 := by ring
    _ ≤ (262178 + base) ^ 2 := Nat.pow_le_pow_left (by omega) 2
  nlinarith

theorem first_le_five_thirds (hlo : 65536 ≤ base) (hhi : base ≤ 2097152) :
    3 * first base ≤ 5 * ((base * 65536).sqrt + 1) := by
  have hfirst := first_le (show 2 ≤ base by omega) (show 131072 ≤ 3 * (base - 1) by omega)
  have hN : base * 65536 < ((base * 65536).sqrt + 1) ^ 2 := Nat.lt_succ_sqrt' _
  by_contra hgt
  have hsq : 400 * (base * 65536) < (3 * (262150 + base)) ^ 2 := calc
    400 * (base * 65536) < 400 * ((base * 65536).sqrt + 1) ^ 2 := by omega
    _ = (20 * ((base * 65536).sqrt + 1)) ^ 2 := by ring
    _ ≤ (3 * (262150 + base)) ^ 2 := Nat.pow_le_pow_left (by omega) 2
  nlinarith

theorem sqrt_lt (h : base ≤ 2097152) : (base * 65536).sqrt < 370728 := by
  rw [Nat.sqrt_lt']
  omega

/-! ## Six passes -/

/-- Over the operating range six passes give the root or its successor. -/
theorem root_near (hlo : 8192 ≤ base) (hhi : base ≤ 2097152) :
    (base * 65536).sqrt ≤ root base ∧ root base ≤ (base * 65536).sqrt + 1 := by
  have h2 : 2 ≤ base := by omega
  have hgain : gain^[5] 1 = 4294967295 := by decide
  have hthree := first_le_three hlo hhi
  have hlt := sqrt_lt hhi
  rw [root_first]
  exact ⟨sqrt_le_iter (by omega) (sqrt_le_first h2),
    iter_le_succ (k := 1) (by omega) (sqrt_le_first h2) (by omega) (by omega)⟩

/-- **The square root is accurate over the operating range**: `SquareRoot` gives the integer root or
its successor. -/
theorem squareRoot_accurate (base : uint32_t) (hlo : 8192 ≤ base.toNat)
    (hhi : base.toNat ≤ 2097152) : ∃ r, squareRoot base = .ok r ∧
      (base.toNat * 65536).sqrt ≤ r.toNat ∧ r.toNat ≤ (base.toNat * 65536).sqrt + 1 := by
  obtain ⟨h1, h2⟩ := root_near hlo hhi
  have hlt := sqrt_lt hhi
  have hr : (BitVec.ofNat 32 (root base.toNat)).toNat = root base.toNat :=
    Base.toNat_ofNat_of_lt (by omega)
  refine ⟨_, squareRoot_eq (by omega), ?_, ?_⟩
  · rw [hr]
    exact h1
  · rw [hr]
    exact h2

theorem squareRoot_accurate_8192 : ∃ r, squareRoot 8192#32 = .ok r ∧
    ((8192#32).toNat * 65536).sqrt ≤ r.toNat ∧ r.toNat ≤ ((8192#32).toNat * 65536).sqrt + 1 :=
  squareRoot_accurate 8192#32 (by decide) (by decide)

/-! ## From 1.0 on -/

/-- From 1.0 on the last pass starts from the root or its successor. -/
theorem root_of_one_le (hlo : 65536 ≤ base) (hhi : base ≤ 2097152) :
    root base = (base * 65536).sqrt ∨
      root base = (base * 65536).sqrt + 1 ∧ base * 65536 + 1 = ((base * 65536).sqrt + 1) ^ 2 := by
  have h2 : 2 ≤ base := by omega
  have hgain : gain^[4] 3 = 4294967295 := by decide
  have hfirst := first_le_five_thirds hlo hhi
  have hlt := sqrt_lt hhi
  have hpos : 0 < (base * 65536).sqrt := Nat.sqrt_pos.2 (by omega)
  have hge : (base * 65536).sqrt ≤ iter (base * 65536) 4 (first base) :=
    sqrt_le_iter (by omega) (sqrt_le_first h2)
  rw [root_last]
  exact step_of_near (by omega) hge
    (iter_le_succ (k := 3) (by omega) (sqrt_le_first h2) (by omega) (by omega))

/-- **The computed root is monotone from 1.0 on.** -/
theorem root_mono {b c : Nat} (hlo : 65536 ≤ b) (hbc : b ≤ c) (hhi : c ≤ 2097152) :
    root b ≤ root c := by
  rcases Nat.eq_or_lt_of_le hbc with rfl | hlt
  · exact Nat.le_refl _
  · have hc := sqrt_le_root (show 2 ≤ c by omega)
    refine Nat.le_trans ?_ hc
    rcases root_of_one_le hlo (by omega) with h | ⟨h, hsq⟩
    · rw [h]
      exact Nat.sqrt_le_sqrt (by omega)
    · rw [h, Nat.le_sqrt', ← hsq]
      omega

theorem root_one : root 65536 = 65536 := by decide

theorem root_bounds (hlo : 65536 ≤ base) (hhi : base ≤ 2097152) :
    65536 ≤ root base ∧ root base ≤ 2097152 := by
  have h1 := root_mono (Nat.le_refl 65536) hlo hhi
  obtain ⟨-, h2⟩ := root_near (by omega) hhi
  have := sqrt_lt hhi
  rw [root_one] at h1
  omega

theorem roots_bounds {n : Nat} (hlo : 65536 ≤ base) (hhi : base ≤ 2097152) :
    65536 ≤ root^[n] base ∧ root^[n] base ≤ 2097152 := by
  induction n generalizing base with
  | zero => exact ⟨hlo, hhi⟩
  | succ n ih =>
    obtain ⟨h1, h2⟩ := root_bounds hlo hhi
    rw [Function.iterate_succ_apply]
    exact ih h1 h2

theorem roots_mono {n b c : Nat} (hlo : 65536 ≤ b) (hbc : b ≤ c) (hhi : c ≤ 2097152) :
    root^[n] b ≤ root^[n] c := by
  induction n generalizing b c with
  | zero => exact hbc
  | succ n ih =>
    rw [Function.iterate_succ_apply, Function.iterate_succ_apply]
    exact ih (root_bounds hlo (by omega)).1 (root_mono hlo hbc hhi) (root_bounds (by omega) hhi).2

end

end Measure
