import IdmtRelay.Measure.Proof.Accuracy
import IdmtRelay.Trip.Proof.TripTime

/-!
# The inverse-time characteristics

For an overload current every operation of `GetTripTime` is exact (`getTripTime_safe`), and a larger
current trips no later (`getTripTime_antitone`): on each curve the power of the current is monotone
(`power_mono`), on the inverse one because every root in a row is.
-/

namespace Trip

open Lib Measure

section
variable (setting : uint8_t) {c : uint16_t}

theorem power_bounds (hc : OVERLOAD < c) : 65565 ≤ power setting (c.toNat * 32) ∧
    power setting (c.toNat * 32) ≤ 2 ^ 26 := by
  obtain ⟨hlo, hhi⟩ := rms_range hc
  unfold power
  split
  · omega
  · split
    · have hlo' := Nat.mul_le_mul hlo hlo
      have hhi' := Nat.mul_le_mul hhi hhi
      omega
    · have hroots := (roots_range (n := 6) (show 2 ≤ c.toNat * 32 by omega) hhi).2
      exact ⟨le_roots_pickup hlo, by omega⟩

theorem curveK_le : curveK setting ≤ 5242880 := by
  unfold curveK
  split
  · decide
  · split <;> decide

/-- **The arithmetic of `GetTripTime` is safe for an overload current**: no division by zero and no
overflow, the difference that it divides by is positive and exact, and so is the quotient. -/
theorem getTripTime_safe (hc : OVERLOAD < c) (i : IDMT) : ∃ i',
    i.getTripTime setting c = .ok (i'.time, i') ∧
    i'.currentRMS.toNat = power setting (c.toNat * 32) ∧
    65536 < i'.currentRMS.toNat ∧
    (i'.currentRMS - 65536#32).toNat = i'.currentRMS.toNat - 65536 ∧
    curveK setting * 65536 < 2 ^ 63 ∧
    i'.time.toNat = curveK setting * 65536 / (i'.currentRMS.toNat - 65536) := by
  obtain ⟨hlo, hhi⟩ := power_bounds setting hc
  have hK := curveK_le setting
  have htime := (tripTime_range setting hc).2
  have hrms : (timed (curveK setting) (power setting (c.toNat * 32))).currentRMS.toNat =
      power setting (c.toNat * 32) := Base.toNat_ofNat_of_lt (by omega)
  refine ⟨_, getTripTime_eq setting hc i, hrms, by omega, ?_, by omega, ?_⟩
  · rw [BitVec.toNat_sub, hrms]
    simp only [BitVec.toNat_ofNat]
    omega
  · rw [hrms]
    exact Base.toNat_ofNat_of_lt (Nat.lt_of_lt_of_le htime (by decide))

/-- The slowest trip: the lowest overload current on the inverse curve. -/
theorem getTripTime_safe_2110 : ∃ i', IDMT.getTripTime 0#8 2110#16 ⟨0#32, 0#32⟩ =
      .ok (i'.time, i') ∧
    i'.currentRMS.toNat = power 0#8 ((2110#16).toNat * 32) ∧
    65536 < i'.currentRMS.toNat ∧
    (i'.currentRMS - 65536#32).toNat = i'.currentRMS.toNat - 65536 ∧
    curveK 0#8 * 65536 < 2 ^ 63 ∧
    i'.time.toNat = curveK 0#8 * 65536 / (i'.currentRMS.toNat - 65536) :=
  getTripTime_safe 0#8 (by decide) ⟨0#32, 0#32⟩

theorem power_mono {a b : Nat} (hlo : 65536 ≤ a) (hab : a ≤ b) (hhi : b ≤ 2097152) :
    power setting a ≤ power setting b := by
  unfold power
  split
  · exact hab
  · split
    · exact Nat.div_le_div_right (Nat.mul_le_mul hab hab)
    · exact roots_mono hlo hab hhi

theorem tripTime_antitone {d : uint16_t} (hc : OVERLOAD < c) (hcd : c ≤ d) :
    tripTime setting d ≤ tripTime setting c := by
  have hle : c.toNat ≤ d.toNat := hcd
  have hd := d.isLt
  obtain ⟨hlo, -⟩ := rms_range hc
  obtain ⟨hpos, -⟩ := power_bounds setting hc
  have hmono := power_mono setting (a := c.toNat * 32) (b := d.toNat * 32) (by omega) (by omega)
    (by omega)
  exact Nat.div_le_div_left (by omega) (by omega)

/-- **A larger overload current trips no later**, on every curve. -/
theorem getTripTime_antitone {d : uint16_t} (hc : OVERLOAD < c) (hcd : c ≤ d) (i j : IDMT) :
    ∃ t i' u j', i.getTripTime setting c = .ok (t, i') ∧ j.getTripTime setting d = .ok (u, j') ∧
      u ≤ t := by
  have hd : OVERLOAD < d := Nat.lt_of_lt_of_le hc hcd
  have hct := (tripTime_range setting hc).2
  have hdt := (tripTime_range setting hd).2
  refine ⟨_, _, _, _, getTripTime_eq setting hc i, getTripTime_eq setting hd j, ?_⟩
  rw [BitVec.le_def, Base.toNat_ofNat_of_lt (by omega), Base.toNat_ofNat_of_lt (by omega)]
  exact tripTime_antitone setting hc hcd

theorem getTripTime_antitone_2110 : ∃ t i' u j',
    IDMT.getTripTime 0#8 2110#16 ⟨0#32, 0#32⟩ = .ok (t, i') ∧
    IDMT.getTripTime 0#8 2111#16 ⟨0#32, 0#32⟩ = .ok (u, j') ∧ u ≤ t :=
  getTripTime_antitone 0#8 (by decide) (by decide) ⟨0#32, 0#32⟩ ⟨0#32, 0#32⟩

end

end Trip
