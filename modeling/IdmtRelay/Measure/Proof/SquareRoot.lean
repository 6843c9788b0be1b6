import IdmtRelay.Measure.FixPoint

/-!
# The square root

For a base of at least 2, the values of `result` are those of `iterate`, Newton steps from half the
base: from the first pass on they are not below the root (`sqrt_le_iterate`), from the second on
they do not rise above it again (`iterate_le`), and no intermediate leaves its type
(`squareRootPass_iterate`). `SquareRoot` computes `root`, the sixth (`squareRoot_eq`); below 2 its
first division is by zero (`squareRoot_fault`).
-/

namespace Measure

open Lib

theorem half_shift (n : Nat) : (n * oneHalf) >>> 16 = n / 2 := by
  rw [Nat.shiftRight_eq_div_pow]
  unfold oneHalf
  omega

/-- The sum that a pass halves. -/
theorem pass_sum_lt (base : uint32_t) {result : uint32_t} (h : 0 < result.toNat) :
    base.toNat * 65536 / result.toNat + result.toNat < 2 ^ 48 := by
  have hbase := base.isLt
  have hresult := result.isLt
  rcases Nat.lt_or_ge result.toNat 2 with h1 | h2
  · obtain h1 : result.toNat = 1 := by omega
    rw [h1, Nat.div_one]
    omega
  · have := Nat.div_le_div_left h2 (by omega) (a := base.toNat * 65536)
    omega

theorem squareRootPass_eq {base result : uint32_t} (h : 0 < result.toNat) :
    squareRootPass base result =
      .ok (BitVec.ofNat 32 (Newton.step (base.toNat * 65536) result.toNat)) := by
  have hsum := pass_sum_lt base h
  unfold squareRootPass Newton.step
  rw [Nat.shiftLeft_eq, show (2 ^ 16 : Nat) = 65536 from rfl, Base.div_ok (by omega),
    Base.ok_bind]
  rw [Base.int64_ok (by unfold oneHalf; omega), Base.ok_bind, half_shift]
  rfl

/-! ## The iterates -/

/-- The value of `result` after `n` passes, over the naturals. -/
def iterate (base n : Nat) : Nat := Newton.iter (base * 65536) n (base / 2)

section
variable {base : Nat}

/-- The value after the first pass. -/
theorem first_step_le (h : 2 ≤ base) :
    Newton.step (base * 65536) (base / 2) ≤ (196608 + base / 2) / 2 := by
  have h3 : base * 65536 / (base / 2) ≤ 196608 := by
    apply Nat.div_le_of_le_mul
    omega
  unfold Newton.step
  omega

theorem iterate_succ (base n : Nat) :
    iterate base (n + 1) = Newton.step (base * 65536) (iterate base n) := Newton.iter_succ' _ _ _

theorem iterate_pos (h : 2 ≤ base) (n : Nat) : 0 < iterate base n := by
  induction n with
  | zero => exact Nat.div_pos h (by decide)
  | succ n ih =>
    have hroot : 0 < (base * 65536).sqrt := Nat.sqrt_pos.2 (by omega)
    rw [iterate_succ]
    exact Nat.lt_of_lt_of_le hroot (Newton.sqrt_le_step ih)

/-- From the first pass on no value is below the root. -/
theorem sqrt_le_iterate (h : 2 ≤ base) (n : Nat) :
    (base * 65536).sqrt ≤ iterate base (n + 1) := by
  rw [iterate_succ]
  exact Newton.sqrt_le_step (iterate_pos h n)

/-- From the second pass on no value exceeds both the one before and the root's successor. -/
theorem iterate_le (h : 2 ≤ base) (n : Nat) :
    iterate base (n + 2) ≤ max (iterate base (n + 1)) ((base * 65536).sqrt + 1) := by
  rw [iterate_succ base (n + 1)]
  exact Newton.step_le (iterate_pos h (n + 1)) (sqrt_le_iterate h n)

theorem iterate_lt (h : 2 ≤ base) (hlt : base < 2 ^ 32) (n : Nat) : iterate base n < 2 ^ 32 := by
  have hsqrt : (base * 65536).sqrt < 2 ^ 24 := by
    rw [Nat.sqrt_lt']
    omega
  have hfirst := first_step_le h
  induction n with
  | zero => exact Nat.lt_of_le_of_lt (Nat.div_le_self base 2) hlt
  | succ n ih =>
    cases n with
    | zero =>
      rw [iterate_succ]
      exact Nat.lt_of_le_of_lt hfirst (by omega)
    | succ n =>
      exact Nat.lt_of_le_of_lt (iterate_le h n) (by omega)

end

/-! ## The loop -/

section
variable {base : uint32_t}

theorem iterate_toNat (h : 2 ≤ base.toNat) (n : Nat) :
    (BitVec.ofNat 32 (iterate base.toNat n)).toNat = iterate base.toNat n :=
  Base.toNat_ofNat_of_lt (iterate_lt h base.isLt n)

/-- Every pass is a Newton step. -/
theorem squareRootPass_iterate (h : 2 ≤ base.toNat) (n : Nat) :
    squareRootPass base (BitVec.ofNat 32 (iterate base.toNat n)) =
      .ok (BitVec.ofNat 32 (iterate base.toNat (n + 1))) := by
  have hn := iterate_toNat h n
  have hpos := iterate_pos h n
  rw [squareRootPass_eq (by omega), hn, iterate_succ]

theorem squareRootLoop_iterate (h : 2 ≤ base.toNat) (k n : Nat) :
    squareRootLoop base n (BitVec.ofNat 32 (iterate base.toNat k)) =
      .ok (BitVec.ofNat 32 (iterate base.toNat (k + n))) := by
  induction n generalizing k with
  | zero => rfl
  | succ n ih =>
    rw [squareRootLoop, squareRootPass_iterate h, Base.ok_bind, ih, Nat.succ_add_eq_add_succ]

end

/-- What `SquareRoot` computes, over the naturals. -/
def root (base : Nat) : Nat := Newton.iter (base * 65536) NB_ITERATIONS (base / 2)

theorem squareRoot_eq {base : uint32_t} (h : 2 ≤ base.toNat) :
    squareRoot base = .ok (BitVec.ofNat 32 (root base.toNat)) := by
  have hloop := squareRootLoop_iterate h 0 NB_ITERATIONS
  rw [Nat.zero_add] at hloop
  unfold squareRoot
  rw [half_shift]
  exact hloop

theorem squareRoot_fault {base : uint32_t} (h : base.toNat < 2) :
    squareRoot base = .error .divByZero := by
  unfold squareRoot NB_ITERATIONS
  rw [half_shift, show base.toNat / 2 = 0 by omega]
  rfl

theorem sqrt_le_root {base : Nat} (h : 2 ≤ base) : (base * 65536).sqrt ≤ root base :=
  sqrt_le_iterate h 5

theorem root_le {base : Nat} (h : 2 ≤ base) :
    root base ≤ max ((196608 + base / 2) / 2) ((base * 65536).sqrt + 1) := by
  have hfirst := first_step_le h
  have hiter := Newton.iter_le (n := 5) (N := base * 65536) (by omega)
    (Newton.sqrt_le_step (r := base / 2) (by omega))
  unfold root NB_ITERATIONS
  rw [Newton.iter_succ]
  omega

/-- **Newton iterates never fall below the root**, and every pass is exact: no division by zero, no
overflow of the 64-bit product, no truncation. -/
theorem squareRoot_iterates (base : uint32_t) (h : 2 ≤ base.toNat) : ∃ result : Nat → uint32_t,
    (result 0).toNat = (base.toNat * oneHalf) >>> 16 ∧ base.toNat * oneHalf < 2 ^ 63 ∧
    squareRoot base = .ok (result NB_ITERATIONS) ∧
    ∀ n,
      0 < (result n).toNat ∧
      squareRootPass base (result n) = .ok (result (n + 1)) ∧
      ((base.toNat <<< 16) / (result n).toNat + (result n).toNat) * oneHalf < 2 ^ 63 ∧
      (result (n + 1)).toNat =
        (((base.toNat <<< 16) / (result n).toNat + (result n).toNat) * oneHalf) >>> 16 ∧
      (base.toNat * 65536).sqrt ≤ (result (n + 1)).toNat ∧
      (result (n + 2)).toNat ≤ max (result (n + 1)).toNat ((base.toNat * 65536).sqrt + 1) := by
  have hbase := base.isLt
  have hr := iterate_toNat h
  have hshift : base.toNat <<< 16 = base.toNat * 65536 := Nat.shiftLeft_eq base.toNat 16
  refine ⟨fun n => BitVec.ofNat 32 (iterate base.toNat n), ?_, ?_, squareRoot_eq h, ?_⟩
  · rw [hr, half_shift]
    rfl
  · unfold oneHalf
    omega
  · intro n
    have hpos := iterate_pos h n
    rw [← hr] at hpos
    have hsum := pass_sum_lt base hpos
    simp only [hr, hshift] at hpos hsum ⊢
    refine ⟨hpos, squareRootPass_iterate h n, ?_, ?_, sqrt_le_iterate h n, iterate_le h n⟩
    · unfold oneHalf
      omega
    · rw [half_shift, iterate_succ]
      rfl

/-- The smallest base: the first guess is 1. -/
theorem squareRoot_iterates_two : ∃ result : Nat → uint32_t, (result 0).toNat = 1 ∧
    squareRoot 2#32 = .ok (result 6) ∧ ∀ n, 362 ≤ (result (n + 1)).toNat := by
  obtain ⟨result, h0, -, hroot, hn⟩ := squareRoot_iterates 2#32 (by decide)
  refine ⟨result, h0, hroot, fun n => ?_⟩
  have hsqrt : 362 ≤ ((2#32).toNat * 65536).sqrt := Nat.le_sqrt.2 (by decide)
  exact hsqrt.trans (hn n).2.2.2.2.1

end Measure
