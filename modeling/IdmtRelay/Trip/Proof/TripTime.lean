import IdmtRelay.Measure.Proof.SquareRoot
import IdmtRelay.Trip.IDMT

/-!
# The trip time of an overload current

For a current above `OVERLOAD`, `GetTripTime` neither faults nor wraps: it returns `tripTime`
(`getTripTime_eq`), between 66 and 2^27. The number of milliseconds that the relay loads from it
wraps for slow trips, but is never 0 (`load_pos`).
-/

namespace Trip

open Lib Measure

/-! ## The loop of `Exp` -/

/-- The fuel does not matter, once it covers the exponent. -/
theorem expLoop_fuel {f g e : Nat} (hf : e < 2 ^ f) (hg : e < 2 ^ g) (temp : uint32_t) :
    expLoop f e temp = expLoop g e temp := by
  induction f generalizing g e temp with
  | zero =>
    obtain rfl : e = 0 := by omega
    cases g <;> rfl
  | succ f ih =>
    cases g with
    | zero =>
      obtain rfl : e = 0 := by omega
      rfl
    | succ g =>
      unfold expLoop
      split
      · rfl
      · rw [Nat.pow_succ] at hf hg
        exact bind_congr fun r => ih (by omega) (by omega) r

/-- **`Exp` is the loop of the source**: a root for every halving of the exponent to 0. -/
theorem exp_eq (base : uint32_t) (e : uint8_t) :
    exp base e = if e.toNat = 0 then .ok base
      else squareRoot base >>= fun temp => exp temp (BitVec.ofNat 8 (e.toNat / 2)) := by
  have he := e.isLt
  have h2 : (BitVec.ofNat 8 (e.toNat / 2)).toNat = e.toNat / 2 :=
    Base.toNat_ofNat_of_lt (by omega)
  unfold exp
  rw [h2]
  conv => lhs; unfold expLoop
  split
  · rfl
  · exact bind_congr fun r => expLoop_fuel (by omega) (by omega) r

/-! ## Roots in a row -/

theorem le_root_of_le {b x y : Nat} (hb : y ≤ b) (hy : 2 ≤ y) (h : x ^ 2 ≤ y * 65536) :
    x ≤ root b :=
  (Nat.le_sqrt'.2 (h.trans (Nat.mul_le_mul_right _ hb))).trans (sqrt_le_root (hy.trans hb))

theorem root_range {b : Nat} (h : 2 ≤ b) (hle : b ≤ 2 ^ 21) : 2 ≤ root b ∧ root b ≤ 2 ^ 21 := by
  have hsqrt : (b * 65536).sqrt < 2 ^ 19 := by
    rw [Nat.sqrt_lt']
    omega
  have := root_le h
  exact ⟨le_root_of_le h (by decide) (by decide), by omega⟩

theorem roots_range {n b : Nat} (h : 2 ≤ b) (hle : b ≤ 2 ^ 21) :
    2 ≤ root^[n] b ∧ root^[n] b ≤ 2 ^ 21 := by
  induction n generalizing b with
  | zero => exact ⟨h, hle⟩
  | succ n ih =>
    obtain ⟨h1, h2⟩ := root_range h hle
    rw [Function.iterate_succ_apply]
    exact ih h1 h2

theorem exp_root {b : Nat} {e : uint8_t} (he : e.toNat ≠ 0) (h : 2 ≤ b) (hle : b ≤ 2 ^ 21) :
    exp (BitVec.ofNat 32 b) e =
      exp (BitVec.ofNat 32 (root b)) (BitVec.ofNat 8 (e.toNat / 2)) := by
  have hb : (BitVec.ofNat 32 b).toNat = b := Base.toNat_ofNat_of_lt (by omega)
  rw [exp_eq, if_neg he, squareRoot_eq (by omega), hb, Base.ok_bind]

/-- `Exp` takes as many roots as its exponent has binary digits. -/
theorem exp_roots {n b : Nat} {e : uint8_t} (hn : 2 ^ n ≤ e.toNat) (hn' : e.toNat < 2 ^ (n + 1))
    (h : 2 ≤ b) (hle : b ≤ 2 ^ 21) :
    exp (BitVec.ofNat 32 b) e = .ok (BitVec.ofNat 32 (root^[n + 1] b)) := by
  induction n generalizing b e with
  | zero =>
    have he : e.toNat = 1 := by omega
    rw [exp_root (by omega) h hle, he, exp_eq, if_pos (by decide), Function.iterate_one]
  | succ n ih =>
    have hlt := e.isLt
    have he : (BitVec.ofNat 8 (e.toNat / 2)).toNat = e.toNat / 2 :=
      Base.toNat_ofNat_of_lt (by omega)
    have hpow : 2 ^ (n + 1) = 2 * 2 ^ n := by rw [Nat.pow_succ, Nat.mul_comm]
    have hpow' : 2 ^ (n + 1 + 1) = 2 * 2 ^ (n + 1) := by rw [Nat.pow_succ, Nat.mul_comm]
    obtain ⟨h1, h2⟩ := root_range h hle
    rw [exp_root (by omega) h hle, Function.iterate_succ_apply]
    exact ih (by omega) (by omega) h1 h2

/-- A chain of lower bounds, each at most a root of the one before, bounds the roots in a row. -/
theorem le_roots_of_chain {l : List Nat} {y b : Nat}
    (h : List.IsChain (fun y x => 2 ≤ y ∧ x ^ 2 ≤ y * 65536) (y :: l)) (hb : y ≤ b) :
    l.getLastD y ≤ root^[l.length] b := by
  induction l generalizing y b with
  | nil => exact hb
  | cons x l ih =>
    obtain ⟨⟨hy, hx⟩, h⟩ := List.isChain_cons_cons.1 h
    rw [List.getLastD_cons, List.length_cons, Function.iterate_succ_apply]
    exact ih h (le_root_of_le hb hy hx)

/-- The lowest overload current: a chain of squares below 2110 * 32. -/
theorem le_roots_pickup {b : Nat} (h : 67520 ≤ b) : 65565 ≤ root^[6] b :=
  le_roots_of_chain (y := 67520) (l := [66520, 66026, 65780, 65657, 65596, 65565]) (by decide) h

/-- The same from 3052 * 32, where no trip time wraps in milliseconds. -/
theorem le_roots_fast {b : Nat} (h : 97664 ≤ b) : 65945 ≤ root^[6] b :=
  le_roots_of_chain (y := 97664) (l := [80003, 72409, 68886, 67190, 66357, 65945]) (by decide) h

/-! ## The three curves -/

/-- The constant of the curve. -/
def curveK (setting : uint8_t) : Nat :=
  if setting = 1#8 then 884736 else if setting = 2#8 then 5242880 else 9175

/-- The current raised to the exponent of the curve, in Q16. -/
def power (setting : uint8_t) (rms : Nat) : Nat :=
  if setting = 1#8 then rms else if setting = 2#8 then rms * rms / 65536 else root^[6] rms

/-- The trip time for a current, in seconds in Q16. -/
def tripTime (setting : uint8_t) (current : uint16_t) : Nat :=
  curveK setting * 65536 / (power setting (current.toNat * 32) - 65536)

/-- The result of `GetTripTime` for the power `p` of the current and the constant `K`. -/
def timed (K p : Nat) : IDMT :=
  { time := BitVec.ofNat 32 (K * 65536 / (p - 65536)), currentRMS := BitVec.ofNat 32 p }

section
variable {i : IDMT} {p : Nat}

theorem setTime_eq (K : uint32_t) (hi : i.currentRMS = BitVec.ofNat 32 p) (hp : 65565 ≤ p)
    (hle : p ≤ 2 ^ 26) : IDMT.setTime K i = .ok (timed K.toNat p) := by
  have hsub : (i.currentRMS - 65536#32).toNat = p - 65536 := by
    have hp32 : (BitVec.ofNat 32 p).toNat = p := Base.toNat_ofNat_of_lt (by omega)
    rw [hi, BitVec.toNat_sub, hp32]
    simp only [BitVec.toNat_ofNat]
    omega
  unfold IDMT.setTime timed
  rw [hsub, Base.div_ok (by omega), Base.ok_bind, Nat.shiftLeft_eq, ← hi]
  rfl

theorem inverse_eq (hi : i.currentRMS = BitVec.ofNat 32 p) (hp : 67520 ≤ p) (hle : p ≤ 2 ^ 21) :
    i.inverse = .ok (timed 9175 (root^[6] p)) := by
  have hroots := exp_roots (n := 5) (e := 50#8) (by decide) (by decide) (by omega) hle
  obtain ⟨-, hhi⟩ := roots_range (n := 6) (show 2 ≤ p by omega) hle
  unfold IDMT.inverse
  rw [hi, hroots, Base.ok_bind, setTime_eq KI rfl (le_roots_pickup hp) (by omega)]
  rfl

theorem extremelyInverse_eq (hi : i.currentRMS = BitVec.ofNat 32 p) (hp : 67520 ≤ p)
    (hle : p ≤ 2 ^ 21) : i.extremelyInverse = .ok (timed 5242880 (p * p / 65536)) := by
  have hlo := Nat.mul_le_mul hp hp
  have hhi := Nat.mul_le_mul hle hle
  have h32 : (BitVec.ofNat 32 p).toNat = p := Base.toNat_ofNat_of_lt (by omega)
  unfold IDMT.extremelyInverse
  rw [hi, h32, Base.int64_ok (by omega), Base.ok_bind, Nat.shiftRight_eq_div_pow,
    setTime_eq (p := p * p / 65536) KEI rfl (by omega) (by omega)]
  rfl

end

section
variable (setting : uint8_t) {c : uint16_t}

theorem rms_range (hc : OVERLOAD < c) : 67520 ≤ c.toNat * 32 ∧ c.toNat * 32 ≤ 2 ^ 21 := by
  have hlt := c.isLt
  have h : 2109 < c.toNat := hc
  omega

/-- **`GetTripTime` for an overload current.** -/
theorem getTripTime_eq (hc : OVERLOAD < c) (i : IDMT) :
    i.getTripTime setting c = .ok (BitVec.ofNat 32 (tripTime setting c),
      timed (curveK setting) (power setting (c.toNat * 32))) := by
  obtain ⟨hlo, hhi⟩ := rms_range hc
  have hrms : BitVec.ofNat 32 (c.toNat <<< 5) = BitVec.ofNat 32 (c.toNat * 32) := by
    rw [Nat.shiftLeft_eq]
  have h01 : 0#8 ≠ 1#8 := by decide
  have h02 : 0#8 ≠ 2#8 := by decide
  unfold IDMT.getTripTime tripTime curveK power
  by_cases h1 : setting = 1#8
  · have hv : IDMT.veryInverse { i with currentRMS := BitVec.ofNat 32 (c.toNat * 32) } =
        .ok (timed 884736 (c.toNat * 32)) := setTime_eq KVI rfl (by omega) (by omega)
    simp only [h1, hrms, if_neg h01.symm, if_true, hv, Base.ok_bind]
    rfl
  · by_cases h2 : setting = 2#8
    · have he := extremelyInverse_eq
        (i := { i with currentRMS := BitVec.ofNat 32 (c.toNat * 32) }) rfl hlo hhi
      simp only [h2, hrms, if_neg h02.symm, if_neg (show ¬ 2#8 = 1#8 by decide), if_true, he,
        Base.ok_bind]
      rfl
    · have hn := inverse_eq
        (i := { i with currentRMS := BitVec.ofNat 32 (c.toNat * 32) }) rfl hlo hhi
      simp only [h1, h2, hrms, if_false, ite_self, hn, Base.ok_bind]
      rfl

theorem div_range {a d lo hi : Nat} (hlo : lo * d ≤ a) (hhi : a < hi * d) :
    lo ≤ a / d ∧ a / d < hi := by
  have hd : 0 < d := by
    rcases Nat.eq_zero_or_pos d with rfl | h
    · omega
    · exact h
  exact ⟨(Nat.le_div_iff_mul_le hd).2 hlo, (Nat.div_lt_iff_lt_mul hd).2 hhi⟩

theorem tripTime_range (hc : OVERLOAD < c) :
    66 ≤ tripTime setting c ∧ tripTime setting c < 2 ^ 27 := by
  obtain ⟨hlo, hhi⟩ := rms_range hc
  unfold tripTime curveK power
  split
  · exact div_range (by omega) (by omega)
  · split
    · have hlo' := Nat.mul_le_mul hlo hlo
      have hhi' := Nat.mul_le_mul hhi hhi
      exact div_range (by omega) (by omega)
    · have hlo' := le_roots_pickup hlo
      have hhi' := (roots_range (n := 6) (show 2 ≤ c.toNat * 32 by omega) hhi).2
      exact div_range (by omega) (by omega)

/-- From 3052 on, the trip time in milliseconds is computed without a wrap. -/
theorem tripTime_fast (hc : 3052 ≤ c.toNat) : tripTime setting c * 1000 < 2 ^ 32 := by
  have hlt := c.isLt
  have hlo : 97664 ≤ c.toNat * 32 := by omega
  have h : tripTime setting c < 4294967 := by
    unfold tripTime curveK power
    split
    · exact Nat.div_lt_of_lt_mul (by omega)
    · split
      · have hlo' := Nat.mul_le_mul hlo hlo
        exact Nat.div_lt_of_lt_mul (by omega)
      · have hlo' := le_roots_fast hlo
        exact Nat.div_lt_of_lt_mul (by omega)
  generalize tripTime setting c = n at h ⊢
  omega

/-- The slower currents one by one, on the three curves. -/
theorem load_pos_slow : (List.range 942).all (fun k => [0#8, 1#8, 2#8].all fun setting =>
    Nat.ble 65536 (tripTime setting (BitVec.ofNat 16 (2110 + k)) * 1000 % 2 ^ 32)) = true := by
  decide +kernel

theorem tripTime_default (h1 : setting ≠ 1#8) (h2 : setting ≠ 2#8) :
    tripTime setting c = tripTime 0#8 c := by
  have h01 : 0#8 ≠ 1#8 := by decide
  have h02 : 0#8 ≠ 2#8 := by decide
  unfold tripTime curveK power
  rw [if_neg h1, if_neg h1, if_neg h2, if_neg h2, if_neg h01, if_neg h01, if_neg h02, if_neg h02]

/-- **The milliseconds loaded for an overload current are never 0**, wrapped or not. -/
theorem load_pos (hc : OVERLOAD < c) : 0 < tripTime setting c * 1000 % 2 ^ 32 / 65536 := by
  have hc' : 2109 < c.toNat := hc
  rcases Nat.lt_or_ge c.toNat 3052 with hslow | hfast
  · have hall : ∀ s ∈ [0#8, 1#8, 2#8], 65536 ≤ tripTime s c * 1000 % 2 ^ 32 := by
      intro s hs
      have h := List.all_eq_true.1 load_pos_slow (c.toNat - 2110) (List.mem_range.2 (by omega))
      have h := Nat.le_of_ble_eq_true (List.all_eq_true.1 h s hs)
      rw [show 2110 + (c.toNat - 2110) = c.toNat by omega, BitVec.ofNat_toNat,
        BitVec.setWidth_eq] at h
      exact h
    have h : 65536 ≤ tripTime setting c * 1000 % 2 ^ 32 := by
      by_cases h1 : setting = 1#8
      · exact hall _ (by simp [h1])
      · by_cases h2 : setting = 2#8
        · exact hall _ (by simp [h2])
        · rw [tripTime_default setting h1 h2]
          exact hall _ (by simp)
    omega
  · have hlo := (tripTime_range setting hc).1
    rw [Nat.mod_eq_of_lt (tripTime_fast setting hfast)]
    omega

end

end Trip
