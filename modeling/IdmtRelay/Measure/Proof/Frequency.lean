import IdmtRelay.Measure.Acquire

/-!
# The frequency

`Metered` counts the samples since the last reset exactly, beside the 16-bit `period`. The counter
and `zeroPoint` agree with it in every reachable state (`Counts`), so the call of `GetFrequency` is
that after `n` samples, at least one: it divides by 16 times `n`, modulo 2^16, and then by 16 once
more (`getSignal_measures`). The frequency is `1000 / n` exactly for some of those `n` for which it
is 0 (`getFrequency_iff`), and `n` takes all values from 2 on (`exists_measures`).
-/

namespace Measure

namespace Analog

/-- The front end when `GetSignal` has looked for a crossing. -/
def noted (a : Analog) (x : int16_t) : Analog := { a with adcReading := x }.countCrossing

/-- `GetSignal` calls `GetFrequency` on this reading. -/
def Measures (a : Analog) (x : int16_t) : Prop := ¬ (a.noted x).zeroPoint < 2#8

instance (a : Analog) (x : int16_t) : Decidable (a.Measures x) := inferInstanceAs (Decidable (¬ _))

end Analog

/-- The front end, and the samples that it has counted since the last reset. -/
structure Metered where
  analog : Analog
  samples : Nat

namespace Metered

/-- Power-up. -/
def init : Metered := { analog := .init, samples := 0 }

def step (reading : Option int16_t) (m : Metered) :
    Except Undef (Option (List int32_t) × Metered) := do
  let (w, a) ← m.analog.window reading
  let samples := match reading with
    | some x => if m.analog.Measures x then 0 else m.samples + 1
    | none => m.samples
  return (w, { analog := a, samples := samples })

abbrev Step : Metered → Option int16_t × Option (List int32_t) → Metered → Prop := Lib.StepOf step

end Metered

namespace Analog

/-! ## One call -/

/-- The counters of the front end agree with the number of samples since the last reset. -/
structure Counts (a : Analog) (n : Nat) : Prop where
  period : a.period = BitVec.ofNat 16 n
  zeroPoint : a.zeroPoint < 2#8
  reset : n = 0 → a.zeroPoint = 0#8

theorem counts_init : Counts init 0 := ⟨rfl, by decide, fun _ => rfl⟩

variable {a a' : Analog} {n : Nat}

/-- Only the two counters matter. -/
theorem Counts.congr (h : Counts a n) (hp : a'.period = a.period)
    (hz : a'.zeroPoint = a.zeroPoint) : Counts a' n :=
  ⟨hp.trans h.period, hz ▸ h.zeroPoint, fun h0 => hz.trans (h.reset h0)⟩

theorem noted_counts (a : Analog) (x : int16_t) : (a.noted x).period = a.period ∧
    ((a.noted x).zeroPoint = a.zeroPoint ∨ (a.noted x).zeroPoint = a.zeroPoint + 1#8) := by
  unfold noted countCrossing zeroCrossDetector
  split
  rename_i cross b h
  split at h
  · cases h
    exact ⟨rfl, .inl rfl⟩
  · split at h
    · cases h
      exact ⟨rfl, .inr rfl⟩
    · cases h
      exact ⟨rfl, .inl rfl⟩

/-- `GetSignal` after the period is counted. -/
def buffer (b : Analog) : Bool × Analog :=
  if b.inputSignal.length < NB_Sample then
    (false, { b with inputSignal := b.inputSignal ++ [sampleVolts b.adcReading] })
  else (true, b)

theorem getSignal_eq (a : Analog) (x : int16_t) :
    a.getSignal (some x) = (a.noted x).countPeriod >>= fun b => .ok b.buffer := by
  have h : ∀ b : Analog, (if b.inputSignal.length < NB_Sample then
      .ok (false, { b with inputSignal := b.inputSignal ++ [sampleVolts b.adcReading] })
      else .ok (true, b) : Except Undef (Bool × Analog)) = .ok b.buffer := by
    intro b
    unfold buffer
    split <;> rfl
  exact bind_congr h

theorem getSignal_of_ok {x : int16_t} {b : Analog} (h : (a.noted x).countPeriod = .ok b) :
    a.getSignal (some x) = .ok b.buffer := by
  rw [getSignal_eq, h, Base.ok_bind]

theorem Counts.buffer {b : Analog} (h : Counts b n) : Counts b.buffer.2 n := by
  unfold Analog.buffer
  split <;> exact ⟨h.period, h.zeroPoint, h.reset⟩

theorem buffer_frame (b : Analog) : b.buffer.2.frequency = b.frequency ∧
    b.buffer.2.prevSample = b.prevSample ∧ b.buffer.2.zeroPoint = b.zeroPoint := by
  unfold buffer
  split <;> exact ⟨rfl, rfl, rfl⟩

theorem getFrequency_eq {b : Analog} (h : b.period = BitVec.ofNat 16 n) :
    b.getFrequency = if n % 4096 = 0 then .error .divByZero
      else .ok (BitVec.ofNat 16 (1000 / (16 * (n % 4096))),
        { b with period := 0#16, zeroPoint := 0#8 }) := by
  have hperiod : (BitVec.ofNat 16 (b.period.toNat * 16)).toNat = 16 * (n % 4096) := by
    rw [h]
    simp only [BitVec.toNat_ofNat]
    omega
  unfold getFrequency
  simp only [hperiod]
  split
  · rename_i h0
    rw [h0]
    rfl
  · -- of the two factors of 16 one cancels and the other stays
    have hdiv : 1000 * 16 / (16 * (n % 4096)) = 1000 / (n % 4096) :=
      Nat.mul_comm 1000 16 ▸ Nat.mul_div_mul_left 1000 _ (show 0 < 16 by decide)
    have hshift : (1000 / (n % 4096)) >>> 4 = 1000 / (16 * (n % 4096)) := by
      rw [Nat.shiftRight_eq_div_pow, Nat.div_div_eq_div_mul, Nat.mul_comm]
    rw [Base.div_ok (by omega), Base.ok_bind, hdiv, hshift]
    rfl

/-- The front end when a reading has only been counted. -/
def counted (a : Analog) (x : int16_t) : Analog :=
  { a.noted x with period := (a.noted x).period + 1#16 }

theorem getSignal_counted {x : int16_t} (hm : ¬ a.Measures x) :
    a.getSignal (some x) = .ok (a.counted x).buffer :=
  getSignal_of_ok (if_pos (Decidable.not_not.1 hm))

theorem getSignal_counts {x : int16_t} (hc : Counts a n) (hm : ¬ a.Measures x) :
    ∃ b : Analog, a.getSignal (some x) = .ok b.buffer ∧ Counts b (n + 1) := by
  refine ⟨_, getSignal_counted hm, ?_, Decidable.not_not.1 hm,
    fun h0 => absurd h0 (Nat.succ_ne_zero n)⟩
  show (a.noted x).period + 1#16 = _
  rw [(noted_counts a x).1, hc.period, BitVec.ofNat_add]

/-- The call of `GetFrequency` comes after at least one sample: a reset leaves `zeroPoint` at 0. -/
theorem samples_pos {x : int16_t} (hc : Counts a n) (hm : a.Measures x) : 1 ≤ n := by
  rcases Nat.eq_zero_or_pos n with rfl | h
  · refine absurd ?_ hm
    rcases (noted_counts a x).2 with hz | hz
    · rw [hz]
      exact hc.zeroPoint
    · rw [hz, hc.reset rfl]
      decide
  · exact h

/-- **A call of `GetFrequency`** after `n` samples. -/
theorem getSignal_measures {x : int16_t} (hc : Counts a n) (hm : a.Measures x) :
    if n % 4096 = 0 then a.getSignal (some x) = .error .divByZero
    else ∃ b : Analog, a.getSignal (some x) = .ok b.buffer ∧
      b.frequency.toNat = 1000 / (16 * (n % 4096)) ∧ Counts b 0 := by
  have hf := getFrequency_eq ((noted_counts a x).1.trans hc.period)
  have hcount : (a.noted x).countPeriod =
      ((a.noted x).getFrequency >>= fun r => .ok { r.2 with frequency := r.1 }) := if_neg hm
  rw [hf] at hcount
  split
  · rename_i h0
    rw [getSignal_eq, hcount, if_pos h0, Base.error_bind, Base.error_bind]
  · rename_i h0
    have hle := Nat.div_le_self 1000 (16 * (n % 4096))
    rw [if_neg h0, Base.ok_bind] at hcount
    exact ⟨_, getSignal_of_ok hcount, Base.toNat_ofNat_of_lt (by omega), rfl,
      show 0#8 < 2#8 by decide, fun _ => rfl⟩

/-! ## The stored frequency -/

theorem countCrossing_frequency (a : Analog) : a.countCrossing.frequency = a.frequency := by
  unfold countCrossing zeroCrossDetector
  split
  rename_i cross b h
  split at h
  · cases h
    rfl
  · split at h <;> cases h <;> rfl

/-- The quotient is 16 times too small: at most 62 where the sampling rate is 1000. -/
theorem countPeriod_frequency {b : Analog} (h : a.countPeriod = .ok b) :
    b.frequency = a.frequency ∨ b.frequency.toNat ≤ 62 := by
  unfold countPeriod at h
  split at h
  · cases h
    exact .inl rfl
  · obtain ⟨r, hf, h⟩ := Base.bind_ok h
    have hperiod : a.period = BitVec.ofNat 16 a.period.toNat := by
      rw [BitVec.ofNat_toNat, BitVec.setWidth_eq]
    rw [getFrequency_eq hperiod] at hf
    cases h
    split at hf
    · cases hf
    · rename_i h0
      cases hf
      have hle : 1000 / (16 * (a.period.toNat % 4096)) ≤ 1000 / 16 :=
        Nat.div_le_div_left (by omega) (by decide)
      refine .inr ?_
      rw [Base.toNat_ofNat_of_lt (by omega)]
      exact hle

/-- A call of `GetSignal` keeps the stored frequency or stores at most 62. -/
theorem getSignal_frequency {b : Analog} {reading : Option int16_t} {full : Bool}
    (h : a.getSignal reading = .ok (full, b)) :
    b.frequency = a.frequency ∨ b.frequency.toNat ≤ 62 := by
  cases reading with
  | none =>
    cases h
    exact .inl rfl
  | some x =>
    rw [getSignal_eq] at h
    obtain ⟨b', hc, h⟩ := Base.bind_ok h
    have hb : b.frequency = b'.frequency := by
      rw [← (buffer_frame b').1, Except.ok.inj h]
    rw [hb, ← countCrossing_frequency { a with adcReading := x }]
    exact countPeriod_frequency hc

end Analog

/-! ## All calls -/

namespace Metered

open Analog

theorem step_counts {m m' : Metered} {l : Option int16_t × Option (List int32_t)}
    (hc : Counts m.analog m.samples) (h : Step m l m') : Counts m'.analog m'.samples := by
  obtain ⟨reading, w⟩ := l
  obtain ⟨⟨w', a⟩, hw, h⟩ := Base.bind_ok h
  cases h
  obtain ⟨⟨full, b⟩, hget, hw⟩ := Base.bind_ok hw
  have key : ∀ n, Counts b n → Counts a n := by
    intro n hb
    cases full with
    | true =>
      cases hw
      exact ⟨hb.period, hb.zeroPoint, hb.reset⟩
    | false =>
      cases hw
      exact hb
  cases reading with
  | none =>
    cases hget
    exact key _ hc
  | some x =>
    apply key
    show Counts b (if m.analog.Measures x then 0 else m.samples + 1)
    split
    · rename_i hm
      have hs := getSignal_measures hc hm
      split at hs
      · rw [hs] at hget
        cases hget
      · obtain ⟨b', hget', -, hcount⟩ := hs
        obtain rfl : b'.buffer.2 = b := congrArg Prod.snd (Except.ok.inj (hget'.symm.trans hget))
        exact hcount.buffer
    · rename_i hm
      obtain ⟨b', hget', hcount⟩ := getSignal_counts hc hm
      obtain rfl : b'.buffer.2 = b := congrArg Prod.snd (Except.ok.inj (hget'.symm.trans hget))
      exact hcount.buffer

theorem counts_of_trace {tr : List ((Option int16_t × Option (List int32_t)) × Metered)}
    {m : Metered} (h : Lib.Trace Step init tr m) : Counts m.analog m.samples :=
  h.inv (fun m => Counts m.analog m.samples) counts_init fun _ _ _ hc hst => step_counts hc hst

/-- The remaining factor of 16 does not matter where the quotient is 0 already. -/
theorem quotient_iff {n : Nat} (h : 1 ≤ n) (h0 : n % 4096 ≠ 0) :
    1000 / (16 * (n % 4096)) = 1000 / n ↔ 1000 < n ∧ 63 ≤ n % 4096 := by
  rcases Nat.lt_or_ge 1000 n with hlt | hge
  · rw [Nat.div_eq_of_lt hlt, Nat.div_eq_zero_iff]
    omega
  · have hmod : n % 4096 = n := Nat.mod_eq_of_lt (by omega)
    have hpos : 1 ≤ 1000 / n := (Nat.one_le_div_iff h).2 hge
    have hdiv : 1000 / (16 * n) = 1000 / n / 16 := by
      rw [Nat.div_div_eq_div_mul, Nat.mul_comm]
    rw [hmod, hdiv]
    omega

/-- **The frequency is `1000 / n` Hz** after `n` samples exactly if `n` is above 1000, so that it is
0, and its remainder modulo 4096 is not so small that the wrapped quotient is more. -/
theorem getFrequency_iff (tr : List ((Option int16_t × Option (List int32_t)) × Metered))
    (m : Metered) (h : Lib.Trace Step init tr m) (x : int16_t) (hm : m.analog.Measures x) :
    1 ≤ m.samples ∧
    ((∃ full a, m.analog.getSignal (some x) = .ok (full, a) ∧
      a.frequency.toNat = 1000 / m.samples) ↔ 1000 < m.samples ∧ 63 ≤ m.samples % 4096) := by
  have hc := counts_of_trace h
  have hpos := samples_pos hc hm
  refine ⟨hpos, ?_⟩
  have hs := getSignal_measures hc hm
  split at hs
  · rename_i h0
    rw [hs]
    refine iff_of_false ?_ fun hn => by omega
    intro ⟨full, a, hok, _⟩
    cases hok
  · rename_i h0
    obtain ⟨b, hget, hf, -⟩ := hs
    rw [← (buffer_frame b).1] at hf
    rw [← quotient_iff hpos h0, hget]
    constructor
    · intro ⟨full, a, hok, hf'⟩
      rw [← hf, ← hf', Except.ok.inj hok]
    · exact fun heq => ⟨_, _, rfl, hf.trans heq⟩

/-- A step with a reading that is only counted. -/
theorem step_counted {m : Metered} {x : int16_t} (hm : ¬ m.analog.Measures x) : ∃ w m',
    step (some x) m = .ok (w, m') ∧ m'.samples = m.samples + 1 ∧
      m'.analog.prevSample = (m.analog.noted x).prevSample ∧
      m'.analog.zeroPoint = (m.analog.noted x).zeroPoint := by
  obtain ⟨-, hp, hz⟩ := buffer_frame (m.analog.counted x)
  have hget := getSignal_counted hm
  generalize (m.analog.counted x).buffer = r at hp hz hget
  obtain ⟨full, b⟩ := r
  have hw := window_eq hget
  have hstep : ∀ w a, m.analog.window (some x) = .ok (w, a) →
      step (some x) m = .ok (w, ⟨a, m.samples + 1⟩) := by
    intro w a hw
    unfold step
    rw [hw, Base.ok_bind]
    simp only [if_neg hm, Base.pure_eq_ok]
  cases full with
  | true => exact ⟨_, _, hstep _ _ hw, rfl, hp, hz⟩
  | false => exact ⟨_, _, hstep _ _ hw, rfl, hp, hz⟩

theorem noted_same {a : Analog} (hp : a.prevSample = 0#16 ∨ a.prevSample = 5#16) :
    (a.noted 5#16).prevSample = 5#16 ∧ (a.noted 5#16).zeroPoint = a.zeroPoint := by
  unfold noted countCrossing zeroCrossDetector
  rcases hp with hp | hp <;> simp [hp]

theorem noted_other {a : Analog} (hp : a.prevSample = 5#16) :
    (a.noted (-5#16)).prevSample = 5#16 ∧ (a.noted (-5#16)).zeroPoint = a.zeroPoint + 1#8 := by
  unfold noted countCrossing zeroCrossDetector
  simp [hp]

/-- A signal that stays on one side. -/
theorem steady_step {m : Metered} (hp : m.analog.prevSample = 0#16 ∨ m.analog.prevSample = 5#16)
    (hz : m.analog.zeroPoint = 0#8) : ∃ w m', step (some 5#16) m = .ok (w, m') ∧
      m'.samples = m.samples + 1 ∧ m'.analog.prevSample = 5#16 ∧ m'.analog.zeroPoint = 0#8 := by
  obtain ⟨hp₁, hz₁⟩ := noted_same hp
  have hlt : (m.analog.noted 5#16).zeroPoint < 2#8 := by
    rw [hz₁, hz]
    decide
  obtain ⟨w, m', hst, hs, hp₂, hz₂⟩ := step_counted (not_not_intro hlt)
  exact ⟨w, m', hst, hs, hp₂.trans hp₁, hz₂.trans (hz₁.trans hz)⟩

theorem exists_steady (n : Nat) : ∃ tr m, Lib.Trace Step init tr m ∧ m.samples = n + 1 ∧
    m.analog.prevSample = 5#16 ∧ m.analog.zeroPoint = 0#8 := by
  induction n with
  | zero =>
    obtain ⟨w, m, hst, h⟩ := steady_step (m := init) (.inl rfl) rfl
    exact ⟨_, m, (Lib.Trace.nil init).snoc (l := (some 5#16, w)) hst, h⟩
  | succ n ih =>
    obtain ⟨tr, m, h, hn, hp, hz⟩ := ih
    obtain ⟨w, m', hst, hs, hp', hz'⟩ := steady_step (.inr hp) hz
    rw [hn] at hs
    exact ⟨_, m', h.snoc (l := (some 5#16, w)) hst, hs, hp', hz'⟩

/-- **A period may have any length** from two samples on: a signal that stays on one side, and two
readings on the other. -/
theorem exists_measures (n : Nat) : ∃ tr m, Lib.Trace Step init tr m ∧ m.samples = n + 2 ∧
    m.analog.Measures (-5#16) := by
  obtain ⟨tr, m, h, hn, hp, hz⟩ := exists_steady n
  obtain ⟨hp₁, hz₁⟩ := noted_other hp
  have hlt : (m.analog.noted (-5#16)).zeroPoint < 2#8 := by
    rw [hz₁, hz]
    decide
  obtain ⟨w, m', hst, hs, hp₂, hz₂⟩ := step_counted (not_not_intro hlt)
  refine ⟨_, m', h.snoc (l := (some (-5#16), w)) hst, by omega, ?_⟩
  unfold Measures
  rw [(noted_other (hp₂.trans hp₁)).2, hz₂, hz₁, hz]
  decide

/-- A signal that stays on one side for 1000 samples. -/
theorem getFrequency_iff_1001 : ∃ tr m full a, Lib.Trace Step init tr m ∧ m.samples = 1001 ∧
    m.analog.getSignal (some (-5#16)) = .ok (full, a) ∧ a.frequency.toNat = 1000 / m.samples := by
  obtain ⟨tr, m, h, hn, hm⟩ := exists_measures 999
  obtain ⟨full, a, hget, hf⟩ := (getFrequency_iff tr m h (-5#16) hm).2.2 (by omega)
  exact ⟨tr, m, full, a, h, hn, hget, hf⟩

/-- A period of 21 samples, 47 Hz, is stored as 2 Hz. -/
theorem getFrequency_47 : ∃ tr m full a,
    Lib.run step init (List.replicate 20 (some 5#16) ++ [some (-5#16)]) = .ok (tr, m) ∧
    m.analog.Measures (-5#16) ∧ m.samples = 21 ∧ 1000 / m.samples = 47 ∧
    m.analog.getSignal (some (-5#16)) = .ok (full, a) ∧ a.frequency = 2#16 := by
  obtain ⟨tr, m, h, hp⟩ := Lib.exists_run step init
    (List.replicate 20 (some 5#16) ++ [some (-5#16)])
    (fun _ m => decide (m.analog.Measures (-5#16) ∧ m.samples = 21 ∧
      (m.analog.getSignal (some (-5#16))).map (·.2.frequency) = .ok 2#16)) (by decide +kernel)
  obtain ⟨hm, hn, hf⟩ := of_decide_eq_true hp
  cases hget : m.analog.getSignal (some (-5#16)) with
  | error e =>
    rw [hget] at hf
    cases hf
  | ok r =>
    rw [hget] at hf
    exact ⟨tr, m, r.1, r.2, h, hm, hn, by rw [hn], hget, Except.ok.inj hf⟩

end Metered

end Measure
