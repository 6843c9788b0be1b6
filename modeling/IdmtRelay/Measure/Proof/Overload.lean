import IdmtRelay.Measure.Proof.SquareRoot

/-!
# When a measured fault is seen as an overload

`GetVoltageRMS` adds the squares in a `uint16_t`: `squareSum`, the exact sum, reaches the rest of
the computation modulo 2^16 (`getCurrent_eq`). From there on the measured current exceeds `OVERLOAD`
exactly for sums from 333 (`overload_iff`), and a window 20% above pick-up has an exact sum of at
least 333 (`le_squareSum`): its overload is missed exactly when the sum wraps to less than that
(`getCurrent_overload_iff`).
-/

namespace Measure

open Lib

/-! ## The sum of the squares -/

/-- A sample squared in Q7, exactly. -/
def sampleSquare (x : int16_t) : Nat := ((20 * x.toInt / 512) ^ 2 / 128).toNat

/-- The sum that `GetVoltageRMS` is to compute, exactly. -/
def squareSum (xs : List int16_t) : Nat := (xs.map sampleSquare).sum

theorem scaled_bounds (x : int16_t) : -1280 ≤ 20 * x.toInt / 512 ∧ 20 * x.toInt / 512 ≤ 1280 := by
  have h1 := BitVec.le_toInt x
  have h2 := BitVec.toInt_lt (x := x)
  omega

theorem scaled_sq_le (x : int16_t) : (20 * x.toInt / 512) ^ 2 ≤ 1280 ^ 2 := by
  obtain ⟨h1, h2⟩ := scaled_bounds x
  nlinarith

theorem sampleSquare_le (x : int16_t) : sampleSquare x ≤ 12800 := by
  have := scaled_sq_le x
  unfold sampleSquare
  omega

theorem squareQ7_sampleVolts (x : int16_t) :
    squareQ7 (sampleVolts x) = .ok (BitVec.ofNat 16 (sampleSquare x)) := by
  have hle := scaled_sq_le x
  have h0 := sq_nonneg (20 * x.toInt / 512)
  have hdiv : 0 ≤ (20 * x.toInt / 512) ^ 2 / 128 := Int.ediv_nonneg h0 (by decide)
  have hs : (20 * x.toInt) >>> (9 : Nat) = 20 * x.toInt / 512 := Int.shiftRight_eq_div_pow _ _
  simp only [squareQ7, toInt_sampleVolts, hs, ← sq]
  rw [Base.int32_ok (by omega), Base.ok_bind, Base.pure_eq_ok, Int.shiftRight_eq_div_pow,
    ← BitVec.ofInt_natCast, sampleSquare, Int.toNat_of_nonneg hdiv]
  rfl

theorem sumSquares_eq (xs : List int16_t) (sum : uint16_t) :
    sumSquares (xs.map sampleVolts) sum = .ok (sum + BitVec.ofNat 16 (squareSum xs)) := by
  induction xs generalizing sum with
  | nil => simp [sumSquares, squareSum]
  | cons x xs ih =>
    rw [List.map_cons, sumSquares, squareQ7_sampleVolts, Base.ok_bind, ih]
    simp only [squareSum, List.map_cons, List.sum_cons, BitVec.ofNat_add, BitVec.add_assoc]

/-! ## From the sum to the current -/

/-- The mean square of a window of 20 samples. -/
def meanOf (sum : Nat) : Nat := sum * 512 / 20

/-- The current for a sum over 20 samples, in 16Q11. -/
def currentOf (sum : Nat) : Nat := root (meanOf sum) * 65536 / ratio / 32

theorem two_le_meanOf {sum : Nat} (h : 0 < sum) : 2 ≤ meanOf sum := by
  unfold meanOf
  omega

theorem root_meanOf_lt {sum : Nat} (h : 0 < sum) (hlt : sum < 65536) :
    root (meanOf sum) < 600000 := by
  have hroot := root_le (two_le_meanOf h)
  have hmean : meanOf sum ≤ 1677696 := by
    unfold meanOf
    omega
  have hsqrt : (meanOf sum * 65536).sqrt < 400000 := by
    rw [Nat.sqrt_lt']
    omega
  omega

theorem currentOf_lt {sum : Nat} (h : 0 < sum) (hlt : sum < 65536) : currentOf sum < 65536 := by
  have := root_meanOf_lt h hlt
  unfold currentOf ratio
  omega

theorem overload_of_le {sum : Nat} (h : 333 ≤ sum) : 2109 < currentOf sum := by
  have hmean : 8524 ≤ meanOf sum := by
    unfold meanOf
    omega
  have hsqrt : 23635 ≤ (meanOf sum * 65536).sqrt := by
    rw [Nat.le_sqrt']
    omega
  have hroot := sqrt_le_root (show 2 ≤ meanOf sum by omega)
  unfold currentOf ratio
  omega

theorem no_overload_of_lt {sum : Nat} (h : sum < 333) : currentOf sum ≤ 2109 := by
  have hall : (List.range 333).all (fun s => Nat.ble (currentOf s) 2109) = true := by
    decide +kernel
  exact Nat.le_of_ble_eq_true (List.all_eq_true.1 hall sum (List.mem_range.2 h))

/-- **The overload threshold in terms of the sum.** -/
theorem overload_iff (sum : Nat) : 2109 < currentOf sum ↔ 333 ≤ sum := by
  constructor
  · intro h
    by_contra hlt
    have := no_overload_of_lt (show sum < 333 by omega)
    omega
  · exact overload_of_le

theorem meanSquare_eq (sum : uint16_t) :
    meanSquare sum 20#8 = .ok (BitVec.ofNat 32 (meanOf sum.toNat)) := by
  have hlt := sum.isLt
  have h1 : (BitVec.ofNat 32 (sum.toNat * 2 ^ 9)).toNat = sum.toNat * 512 :=
    Base.toNat_ofNat_of_lt (by omega)
  have h2 : sum.toNat * 512 * 2 ^ 16 / (20 * 65536) = sum.toNat * 512 / 20 := by omega
  simp only [meanSquare, Nat.shiftLeft_eq, h1]
  rw [show (20#8).toNat = 20 from rfl, Base.div_ok (by decide), Base.ok_bind, h2]
  rfl

theorem sumSquares_toNat (xs : List int16_t) :
    (0#16 + BitVec.ofNat 16 (squareSum xs)).toNat = squareSum xs % 65536 := by simp

section
variable {a : Analog} {xs : List int16_t}

theorem getVoltageRMS_eq (hlen : xs.length = 20) (hbuf : a.inputSignal = xs.map sampleVolts)
    (h : 0 < squareSum xs % 65536) :
    getVoltageRMS a = .ok (BitVec.ofNat 32 (root (meanOf (squareSum xs % 65536))),
      { a with inputSignal := [] }) := by
  have hmean : (BitVec.ofNat 32 (meanOf (squareSum xs % 65536))).toNat =
      meanOf (squareSum xs % 65536) := Base.toNat_ofNat_of_lt (by unfold meanOf; omega)
  unfold getVoltageRMS
  rw [hbuf, sumSquares_eq, List.length_map, hlen, Base.ok_bind, meanSquare_eq, Base.ok_bind,
    sumSquares_toNat, squareRoot_eq (by rw [hmean]; exact two_le_meanOf h), hmean, Base.ok_bind]
  rfl

theorem getVoltageRMS_fault (hlen : xs.length = 20) (hbuf : a.inputSignal = xs.map sampleVolts)
    (h : squareSum xs % 65536 = 0) : getVoltageRMS a = .error .divByZero := by
  unfold getVoltageRMS
  rw [hbuf, sumSquares_eq, List.length_map, hlen, Base.ok_bind, meanSquare_eq, Base.ok_bind,
    sumSquares_toNat, h, squareRoot_fault (by decide)]
  rfl

/-- **`GetCurrent` for a full window**: the current for the wrapped sum. -/
theorem getCurrent_eq (hlen : xs.length = 20) (hbuf : a.inputSignal = xs.map sampleVolts)
    (h : 0 < squareSum xs % 65536) :
    getCurrent a = .ok (BitVec.ofNat 16 (currentOf (squareSum xs % 65536)),
      { a with inputSignal := [] }) := by
  have hroot := root_meanOf_lt h (Nat.mod_lt _ (by decide))
  have hv : (BitVec.ofNat 32 (root (meanOf (squareSum xs % 65536)))).toNat =
      root (meanOf (squareSum xs % 65536)) := Base.toNat_ofNat_of_lt (by omega)
  have hc : (BitVec.ofNat 32 (root (meanOf (squareSum xs % 65536)) * 65536 / ratio)).toNat =
      root (meanOf (squareSum xs % 65536)) * 65536 / ratio :=
    Base.toNat_ofNat_of_lt (by unfold ratio; omega)
  unfold getCurrent getCurrentRMS currentOf
  rw [getVoltageRMS_eq hlen hbuf h, Base.ok_bind]
  simp only [Base.pure_eq_ok, Base.ok_bind, hv, Nat.shiftLeft_eq, hc, Nat.shiftRight_eq_div_pow,
    show (2 ^ 16 : Nat) = 65536 from rfl, show (2 ^ 5 : Nat) = 32 from rfl]

theorem getCurrent_overload (hlen : xs.length = 20) (hbuf : a.inputSignal = xs.map sampleVolts) :
    (∃ c a', getCurrent a = .ok (c, a') ∧ OVERLOAD < c) ↔ 333 ≤ squareSum xs % 65536 := by
  rcases Nat.eq_zero_or_pos (squareSum xs % 65536) with h | h
  · have hf : getCurrent a = .error .divByZero := by
      unfold getCurrent getCurrentRMS
      rw [getVoltageRMS_fault hlen hbuf h]
      rfl
    rw [hf, h]
    simp
  · have hlt := currentOf_lt h (Nat.mod_lt _ (by decide))
    have hc : (BitVec.ofNat 16 (currentOf (squareSum xs % 65536))).toNat =
        currentOf (squareSum xs % 65536) := Base.toNat_ofNat_of_lt hlt
    have hover : OVERLOAD < BitVec.ofNat 16 (currentOf (squareSum xs % 65536)) ↔
        2109 < currentOf (squareSum xs % 65536) := by
      rw [BitVec.lt_def, hc, show OVERLOAD.toNat = 2109 from rfl]
    rw [getCurrent_eq hlen hbuf h, ← overload_iff, ← hover]
    constructor
    · intro ⟨c, a', hca, ho⟩
      cases hca
      exact ho
    · exact fun ho => ⟨_, _, rfl, ho⟩

end

/-! ## Windows above pick-up -/

theorem sampleSquare_cast (x : int16_t) :
    (sampleSquare x : Int) = (20 * x.toInt / 512) ^ 2 / 128 :=
  Int.toNat_of_nonneg (Int.ediv_nonneg (sq_nonneg _) (by decide))

/-- A linear bound between the true square of a sample and its square in the sum holds of windows,
when it holds of every sample. -/
theorem bound_of_samples {a b c : Int}
    (h : ∀ x : int16_t, a * (20 * x.toInt) ^ 2 + b * (sampleSquare x : Int) ≤ c)
    (xs : List int16_t) :
    a * (xs.map fun x => (20 * x.toInt) ^ 2).sum + b * (squareSum xs : Int) ≤ c * xs.length := by
  induction xs with
  | nil => simp [squareSum]
  | cons x xs ih =>
    have hx := h x
    simp only [squareSum, List.map_cons, List.sum_cons, List.length_cons] at ih ⊢
    push_cast at ih ⊢
    linarith

/-- What a sample loses to the two shifts of its square. -/
theorem sq_volts_le (x : int16_t) :
    9 * (20 * x.toInt) ^ 2 ≤ 2621440 * (128 * (sampleSquare x : Int) + 136) := by
  have h0 := sq_nonneg (20 * x.toInt / 512)
  have hs := sampleSquare_cast x
  have h128 : (20 * x.toInt / 512) ^ 2 ≤ 128 * (sampleSquare x : Int) + 127 := by omega
  obtain ⟨r, hr0, hr1, hv⟩ :
      ∃ r, 0 ≤ r ∧ r ≤ 511 ∧ 20 * x.toInt = 512 * (20 * x.toInt / 512) + r :=
    ⟨20 * x.toInt % 512, by omega, by omega, by omega⟩
  generalize 20 * x.toInt / 512 = u at h0 h128 hv
  rw [hv]
  nlinarith [sq_nonneg (512 * u - 9 * r)]

/-- **A window 20% above pick-up has an exact sum from 333.** -/
theorem le_squareSum {xs : List int16_t} (hlen : xs.length = 20)
    (hrms : 20 * 27526 ^ 2 ≤ (xs.map fun x => (20 * x.toInt) ^ 2).sum) : 333 ≤ squareSum xs := by
  have hx : ∀ x : int16_t, 9 * (20 * x.toInt) ^ 2 + -335544320 * (sampleSquare x : Int) ≤
      356515840 := by
    intro x
    linarith [sq_volts_le x]
  have h := bound_of_samples hx xs
  rw [hlen] at h
  push_cast at h
  omega

theorem squareSum_le (xs : List int16_t) : squareSum xs ≤ 12800 * xs.length := by
  induction xs with
  | nil => simp [squareSum]
  | cons x xs ih =>
    have := sampleSquare_le x
    simp only [squareSum, List.map_cons, List.sum_cons, List.length_cons] at ih ⊢
    omega

/-- **A fault 20% above pick-up is seen exactly when the sum of its squares does not wrap to less
than 333.** -/
theorem getCurrent_overload_iff (a : Analog) (xs : List int16_t) (hlen : xs.length = 20)
    (hbuf : a.inputSignal = xs.map sampleVolts)
    (hrms : 20 * 27526 ^ 2 ≤ (xs.map fun x => (20 * x.toInt) ^ 2).sum) :
    (∃ c a', getCurrent a = .ok (c, a') ∧ OVERLOAD < c) ↔
      ∀ k, 1 ≤ k → k ≤ 3 → ¬ (65536 * k ≤ squareSum xs ∧ squareSum xs < 65536 * k + 333) := by
  have hle := le_squareSum hlen hrms
  have hge := squareSum_le xs
  rw [hlen] at hge
  rw [getCurrent_overload hlen hbuf]
  constructor
  · intro h k _ _ hk
    omega
  · intro h
    have h1 := h 1 (by decide) (by decide)
    have h2 := h 2 (by decide) (by decide)
    have h3 := h 3 (by decide) (by decide)
    omega

theorem getCurrent_overload_iff_20000 : ∃ c a',
    getCurrent { Analog.init with inputSignal := (List.replicate 20 20000#16).map sampleVolts } =
      .ok (c, a') ∧ OVERLOAD < c :=
  (getCurrent_overload_iff _ (List.replicate 20 20000#16) rfl rfl (by decide)).2 (by
    intro k h1 h3
    have : squareSum (List.replicate 20 20000#16) = 95300 := by decide
    omega)

/-- Twenty readings of 16600: 10 times pick-up, and a sum of 65600, which wraps to 64. -/
theorem getCurrent_16600 :
    20 * 27526 ^ 2 ≤ ((List.replicate 20 16600#16).map fun x => (20 * x.toInt) ^ 2).sum ∧
    getCurrent { Analog.init with inputSignal := (List.replicate 20 16600#16).map sampleVolts } =
      .ok (925#16, Analog.init) ∧ ¬ OVERLOAD < 925#16 := by
  decide +kernel

end Measure
