import IdmtRelay.Measure.Proof.Overload

/-!
# No pick-up at rated current

The shift of a negative sample rounds away from zero, so its square in Q7 can exceed the true one:
by a share of 1/45 and a constant (`sampleSquare_le_volts`). Over a window of true RMS current at
most 1.0 the excess stays below the overload threshold of the sum (`squareSum_le_of_rated`), so
`GetCurrent` reports no overload (`getCurrent_rated`).
-/

namespace Measure

/-- What the shifts can add to a square: with `20 * x = 512 * y + r`, twice the product of the two
parts is at most `(20 * x) ^ 2 / 45 + 45 * r ^ 2`. -/
theorem sampleSquare_le_volts (x : int16_t) :
    45 * 262144 * (128 * (sampleSquare x : Int)) ≤ 46 * (20 * x.toInt) ^ 2 + 2070 * 261121 := by
  have h0 := sq_nonneg (20 * x.toInt / 512)
  have hs := sampleSquare_cast x
  have h128 : 128 * (sampleSquare x : Int) ≤ (20 * x.toInt / 512) ^ 2 := by omega
  obtain ⟨r, hr0, hr1, hv⟩ :
      ∃ r, 0 ≤ r ∧ r ≤ 511 ∧ 20 * x.toInt = 512 * (20 * x.toInt / 512) + r :=
    ⟨20 * x.toInt % 512, by omega, by omega, by omega⟩
  generalize 20 * x.toInt / 512 = y at h128 hv
  have hr : r ^ 2 ≤ 261121 := by nlinarith
  have key : 45 * (512 * y) ^ 2 + (512 * y + r + 45 * r) ^ 2 =
      46 * (512 * y + r) ^ 2 + 2070 * r ^ 2 := by ring
  have hsq := sq_nonneg (512 * y + r + 45 * r)
  rw [hv]
  linarith

/-- **A window at rated current has a sum below the overload threshold.** -/
theorem squareSum_le_of_rated {xs : List int16_t} (hlen : xs.length = 20)
    (hrms : (xs.map fun x => (20 * x.toInt) ^ 2).sum ≤ 20 * 22937 ^ 2) : squareSum xs ≤ 327 := by
  have hx : ∀ x : int16_t, -46 * (20 * x.toInt) ^ 2 + 1509949440 * (sampleSquare x : Int) ≤
      540520470 := by
    intro x
    linarith [sampleSquare_le_volts x]
  have h := bound_of_samples hx xs
  rw [hlen] at h
  push_cast at h
  omega

/-- **No false pick-up**: a window of true RMS current at most 1.0 whose accumulated sum is not 0 is
measured as no overload. -/
theorem getCurrent_rated (a : Analog) (xs : List int16_t) (sum : uint16_t) (hlen : xs.length = 20)
    (hbuf : a.inputSignal = xs.map sampleVolts)
    (hrms : (xs.map fun x => (20 * x.toInt) ^ 2).sum ≤ 20 * 22937 ^ 2)
    (hsum : sumSquares a.inputSignal 0#16 = .ok sum) (hne : sum ≠ 0#16) :
    ∃ c a', getCurrent a = .ok (c, a') ∧ c ≤ OVERLOAD := by
  have hle := squareSum_le_of_rated hlen hrms
  have hmod : squareSum xs % 65536 = squareSum xs := Nat.mod_eq_of_lt (by omega)
  have hpos : 0 < squareSum xs % 65536 := by
    rw [hbuf, sumSquares_eq, Except.ok.injEq] at hsum
    rw [← sumSquares_toNat, hsum]
    exact Nat.pos_of_ne_zero fun h => hne (BitVec.eq_of_toNat_eq h)
  have hcur : currentOf (squareSum xs % 65536) ≤ 2109 := no_overload_of_lt (by omega)
  refine ⟨_, _, getCurrent_eq hlen hbuf hpos, ?_⟩
  rw [BitVec.le_def, Base.toNat_ofNat_of_lt (by omega)]
  exact hcur

/-- Twenty readings of -1146: 0.35 V, rounded up in size to 0.3516 V. -/
theorem getCurrent_rated_1146 : ∃ c a',
    getCurrent { Analog.init with inputSignal := (List.replicate 20 (-1146#16)).map sampleVolts } =
      .ok (c, a') ∧ c ≤ OVERLOAD :=
  getCurrent_rated _ (List.replicate 20 (-1146#16)) 300#16 rfl rfl (by decide) (by decide +kernel)
    (by decide)

end Measure
