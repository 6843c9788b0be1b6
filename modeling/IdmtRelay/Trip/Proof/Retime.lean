import IdmtRelay.Trip.Proof.Countdown
import Mathlib.Algebra.Order.Field.Rat
import Mathlib.Tactic.FieldSimp
import Mathlib.Tactic.Linarith

/-!
# What retiming leaves of the remaining time

`GetInverTime` is to scale the remaining time by the fraction of the new trip time to the old one,
but `TimeR << 16 / Time` shifts by `16 / Time`, which is 0 for every trip time: it scales by the new
trip time in seconds, as if the old one were a second, and modulo 2^32. It keeps the remaining
fraction where that makes no difference (`getInverTime_keeps`); otherwise the division that is
missing must not matter (`getInverTime_second`), or the remaining time is about a second at most
(`getInverTime_brief`).
-/

namespace Trip.Relay

open Measure (OVERLOAD)

/-! ## The exact value and the one without the division -/

/-- The trip time of the new current in whole milliseconds. -/
def tripMs (tripTime : uint32_t) : ℕ := tripTime.toNat * 1000 / 65536

/-- The remaining time that keeps the fraction of the old trip time. -/
def remaining (counter time tripTime : uint32_t) : ℚ :=
  counter.toNat * tripTime.toNat / time.toNat

/-- The remaining time as if the old trip time were a second. -/
def perSecond (counter tripTime : uint32_t) : ℚ := counter.toNat * tripTime.toNat / 65536

/-- The result `n` of a retiming is within the rounding error of the remaining time. -/
def KeepsFraction (counter time tripTime n : uint32_t) : Prop :=
  |(n.toNat : ℚ) - remaining counter time tripTime| ≤ 2 + 2 * (tripMs tripTime : ℚ) / 65536

/-- The 32-bit product of `GetInverTime` does not wrap. -/
def Fits (counter tripTime : uint32_t) : Prop :=
  counter.toNat * 65536 / 1000 * tripTime.toNat < 2 ^ 32

section
variable {counter time tripTime n : uint32_t}

/-! ## The value of GetInverTime -/

theorem getInverTime_toNat (ht : 16 < time.toNat)
    (hn : getInverTime counter time tripTime = .ok n) :
    n.toNat = counter.toNat * 65536 / 1000 * tripTime.toNat % 2 ^ 32 / 65536 * 1000 / 65536 := by
  rw [getInverTime_eq ht] at hn
  cases hn
  exact Base.toNat_ofNat_of_lt (by omega)

theorem scaled_lt (p : ℕ) : p % 2 ^ 32 / 65536 * 1000 / 65536 < 1000 := by omega

/-- A retimed countdown is shorter than a second. -/
theorem getInverTime_lt (ht : 16 < time.toNat) (hn : getInverTime counter time tripTime = .ok n) :
    n.toNat < 1000 := by
  rw [getInverTime_toNat ht hn]
  exact scaled_lt _

/-- The conversions of `GetInverTime` without a wrap: `Counter * tripTime / 65536`, rounded down. -/
theorem scaled_bounds {counter tripTime r : ℕ} (hr : counter * 65536 / 1000 = r) :
    r * tripTime / 65536 * 1000 / 65536 * 65536 ≤ counter * tripTime ∧
      counter * tripTime * 65536 <
        (r * tripTime / 65536 * 1000 / 65536 + 1) * 2 ^ 32 + 1000 * 65536 + 1000 * tripTime := by
  have hlo : r * 1000 ≤ counter * 65536 := hr ▸ Nat.div_mul_le_self _ _
  have hhi : counter * 65536 ≤ 1000 * (r + 1) := hr ▸ (Nat.lt_mul_div_succ _ (by omega)).le
  have hlo' := calc r * tripTime * 1000
    _ = r * 1000 * tripTime := Nat.mul_right_comm _ _ _
    _ ≤ counter * 65536 * tripTime := Nat.mul_le_mul_right tripTime hlo
    _ = counter * tripTime * 65536 := Nat.mul_right_comm _ _ _
  have hhi' := calc counter * tripTime * 65536
    _ = counter * 65536 * tripTime := Nat.mul_right_comm _ _ _
    _ ≤ 1000 * (r + 1) * tripTime := Nat.mul_le_mul_right tripTime hhi
    _ = 1000 * (r * tripTime + tripTime) := by rw [Nat.mul_assoc, Nat.add_mul, Nat.one_mul]
  generalize r * tripTime = p at hlo' hhi' ⊢
  generalize counter * tripTime = q at hlo' hhi' ⊢
  omega

/-- The rounding error of `GetInverTime` against the value per second. -/
theorem perSecond_sub (ht : 16 < time.toNat) (hfit : Fits counter tripTime)
    (hn : getInverTime counter time tripTime = .ok n) :
    0 ≤ perSecond counter tripTime - n.toNat ∧
      perSecond counter tripTime - n.toNat < 51 / 50 + (tripMs tripTime : ℚ) / 65536 := by
  have hnat := getInverTime_toNat ht hn
  rw [Nat.mod_eq_of_lt hfit] at hnat
  obtain ⟨hlo, hhi⟩ := scaled_bounds rfl
  rw [← hnat] at hlo hhi
  have hms : tripTime.toNat * 1000 < (tripMs tripTime + 1) * 65536 :=
    (Nat.lt_mul_div_succ _ (by omega)).trans_eq (Nat.mul_comm _ _)
  have hlo' : (n.toNat : ℚ) * 65536 ≤ counter.toNat * tripTime.toNat := by exact_mod_cast hlo
  have hhi' : (counter.toNat : ℚ) * tripTime.toNat * 65536 <
      (n.toNat + 1) * 2 ^ 32 + 1000 * 65536 + 1000 * tripTime.toNat := by exact_mod_cast hhi
  have hms' : (tripTime.toNat : ℚ) * 1000 < (tripMs tripTime + 1) * 65536 := by exact_mod_cast hms
  unfold perSecond
  constructor <;> linarith

/-! ## When the fraction is kept -/

/-- **Retiming keeps the remaining fraction** where the product fits and the division by `Time`
would make no difference to it. -/
theorem getInverTime_keeps {setting : uint8_t} {c : uint16_t} {i i' : IDMT} (hc : OVERLOAD < c)
    (htime : i.getTripTime setting c = .ok (time, i')) (hfit : Fits counter tripTime)
    (hnear : |perSecond counter tripTime - remaining counter time tripTime| ≤
      49 / 50 + (tripMs tripTime : ℚ) / 65536) :
    ∃ n, getInverTime counter time tripTime = .ok n ∧ KeepsFraction counter time tripTime n := by
  have ht : 66 ≤ time.toNat := by
    rw [getTripTime_eq setting hc] at htime
    cases htime
    exact (armed_pos setting hc).1
  have hn : getInverTime counter time tripTime = .ok _ := getInverTime_eq (by omega)
  obtain ⟨hlo, hhi⟩ := perSecond_sub (by omega) hfit hn
  obtain ⟨hleft, hright⟩ := abs_le.mp hnear
  have hms : (0 : ℚ) ≤ tripMs tripTime := Nat.cast_nonneg _
  refine ⟨_, hn, abs_le.mpr ⟨?_, ?_⟩⟩ <;> linarith

/-- A retiming that keeps the fraction without a wrap is one where the division would not matter. -/
theorem getInverTime_second (ht : 16 < time.toNat) (hfit : Fits counter tripTime)
    (hn : getInverTime counter time tripTime = .ok n) (hk : KeepsFraction counter time tripTime n) :
    |perSecond counter tripTime - remaining counter time tripTime| ≤
      151 / 50 + 3 * (tripMs tripTime : ℚ) / 65536 := by
  obtain ⟨hlo, hhi⟩ := perSecond_sub ht hfit hn
  obtain ⟨hleft, hright⟩ := abs_le.mp hk
  have hms : (0 : ℚ) ≤ tripMs tripTime := Nat.cast_nonneg _
  refine abs_le.mpr ⟨?_, ?_⟩ <;> linarith

/-- With or without a wrap, a retiming can keep only a remaining time of about a second. -/
theorem getInverTime_brief (ht : 16 < time.toNat)
    (hn : getInverTime counter time tripTime = .ok n) (hk : KeepsFraction counter time tripTime n) :
    remaining counter time tripTime < 1002 + 2 * (tripMs tripTime : ℚ) / 65536 := by
  have hlt : (n.toNat : ℚ) < 1000 := by exact_mod_cast getInverTime_lt ht hn
  have hleft := (abs_le.mp hk).1
  linarith

end

/-- An old trip time of 996 ms, of which 500 are left, and a new one of 386 ms. -/
theorem getInverTime_keeps_500 : ∃ n, getInverTime 500#32 65290#32 25306#32 = .ok n ∧
    KeepsFraction 500#32 65290#32 25306#32 n := by
  have htime : IDMT.getTripTime 1#8 29800#16 ⟨0#32, 0#32⟩ =
      .ok (65290#32, ⟨65290#32, 953600#32⟩) := by decide +kernel
  have hfit : Fits 500#32 25306#32 := show _ < _ by decide +kernel
  exact getInverTime_keeps (by decide) htime hfit (by norm_num [perSecond, remaining, tripMs])

/-- An overload that falls from 14 A to 5.5 A with 366 ms of 386 ms left: 2588 of 2731 ms are to
remain, and 999 do. -/
theorem getInverTime_forgets : ∃ i i', IDMT.getTripTime 2#8 29549#16 ⟨0#32, 0#32⟩ =
      .ok (25306#32, i) ∧
    IDMT.getTripTime 2#8 11272#16 ⟨0#32, 0#32⟩ = .ok (178980#32, i') ∧
    366 ≤ (25306#32).toNat * 1000 / 65536 ∧
    getInverTime 366#32 25306#32 178980#32 = .ok 999#32 ∧
    ¬ KeepsFraction 366#32 25306#32 178980#32 999#32 := by
  have hmoved : ¬ KeepsFraction 366#32 25306#32 178980#32 999#32 := by
    norm_num [KeepsFraction, remaining, tripMs, abs_of_nonpos]
  exact ⟨⟨25306#32, 13642865#32⟩, ⟨178980#32, 1985281#32⟩, by decide +kernel, by decide +kernel,
    by decide, by decide +kernel, hmoved⟩

end Trip.Relay
