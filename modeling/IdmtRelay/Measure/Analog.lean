import IdmtRelay.Base.Types

/-!
# The analog front end (`Analog.cpp`)

`GetSignal` takes one sample: it counts towards the period of the signal and goes into the buffer
`inputSignal` until that holds `NB_Sample` samples; the sample after them is dropped, and the call
returns true. The result of `Analog_Get` is an input: a reading, or `none` where the call fails.
-/

namespace Measure

def resolutionAD : Int := 20
def NB_Sample : Nat := 20

/-- `Analog_t`, with its static members. -/
structure Analog where
  adcReading : int16_t
  prevSample : int16_t
  period : uint16_t
  zeroPoint : uint8_t
  frequency : uint16_t
  inputSignal : List int32_t
  deriving DecidableEq, Repr

/-- A reading in volts, in 32Q16. -/
def sampleVolts (adcReading : int16_t) : int32_t :=
  let read : Int := adcReading.toInt * 65536
  BitVec.ofInt 32 ((read * resolutionAD) >>> (16 : Nat))

namespace Analog

/-- Power-up. -/
def init : Analog :=
  { adcReading := 0#16, prevSample := 0#16, period := 0#16, zeroPoint := 0#8, frequency := 0#16,
    inputSignal := [] }

/-- `Analog_t::GetSample`. -/
def getSample (a : Analog) (reading : Option int16_t) : Bool × Analog :=
  match reading with
  | some x => (true, { a with adcReading := x })
  | none => (false, a)

/-- `Analog_t::ZeroCrossDetector`. -/
def zeroCrossDetector (a : Analog) : Bool × Analog :=
  if a.prevSample = 0#16 then (false, { a with prevSample := a.adcReading })
  else if a.prevSample.toInt * a.adcReading.toInt < 0 then (true, a)
  else (false, { a with prevSample := a.adcReading })

/-- `Analog_t::GetFrequency`. -/
def getFrequency (a : Analog) : Except Undef (uint16_t × Analog) := do
  let period : uint16_t := BitVec.ofNat 16 (a.period.toNat * 16)
  let frequency ← Base.div (1000 * 16) period.toNat
  return (BitVec.ofNat 16 (frequency >>> 4), { a with period := 0#16, zeroPoint := 0#8 })

/-- `Analog_t::returnFrequency`. -/
def returnFrequency (a : Analog) : uint16_t := a.frequency

/-- `if (this->ZeroCrossDetector()) zeroPoint++`. -/
def countCrossing (a : Analog) : Analog :=
  let (cross, a) := a.zeroCrossDetector
  if cross then { a with zeroPoint := a.zeroPoint + 1#8 } else a

/-- The sample towards the period; at the second crossing the frequency is computed. -/
def countPeriod (a : Analog) : Except Undef Analog := do
  if a.zeroPoint < 2#8 then
    return { a with period := a.period + 1#16 }
  else
    let (frequency, a) ← a.getFrequency
    return { a with frequency := frequency }

/-- `Analog_t::GetSignal`. -/
def getSignal (a : Analog) (reading : Option int16_t) : Except Undef (Bool × Analog) := do
  match a.getSample reading with
  | (false, a) => return (false, a)
  | (true, a) =>
    let a ← a.countCrossing.countPeriod
    if a.inputSignal.length < NB_Sample then
      return (false, { a with inputSignal := a.inputSignal ++ [sampleVolts a.adcReading] })
    else
      return (true, a)

end Analog

/-! ## What the buffer holds -/

theorem toInt_sampleVolts (x : int16_t) : (sampleVolts x).toInt = 20 * x.toInt := by
  have h1 := BitVec.le_toInt x
  have h2 := BitVec.toInt_lt (x := x)
  have h : (x.toInt * 65536 * resolutionAD) >>> (16 : Nat) = 20 * x.toInt := by
    rw [Int.shiftRight_eq_div_pow]
    unfold resolutionAD
    omega
  unfold sampleVolts
  simp only [h, BitVec.toInt_ofInt]
  rw [Int.bmod_eq_of_le] <;> omega

namespace Analog

theorem zeroCrossDetector_frame (a : Analog) :
    a.zeroCrossDetector.2.inputSignal = a.inputSignal ∧
    a.zeroCrossDetector.2.adcReading = a.adcReading := by
  unfold zeroCrossDetector
  split
  · exact ⟨rfl, rfl⟩
  · split <;> exact ⟨rfl, rfl⟩

theorem countCrossing_frame (a : Analog) :
    a.countCrossing.inputSignal = a.inputSignal ∧ a.countCrossing.adcReading = a.adcReading := by
  have h := a.zeroCrossDetector_frame
  unfold countCrossing
  generalize a.zeroCrossDetector = r at h ⊢
  obtain ⟨cross, a₁⟩ := r
  cases cross <;> exact h

theorem countPeriod_frame {a a' : Analog} (h : a.countPeriod = .ok a') :
    a'.inputSignal = a.inputSignal ∧ a'.adcReading = a.adcReading := by
  unfold countPeriod at h
  split at h
  · cases h
    exact ⟨rfl, rfl⟩
  · obtain ⟨r, hf, h⟩ := Base.bind_ok h
    obtain ⟨q, -, hf⟩ := Base.bind_ok hf
    cases hf
    cases h
    exact ⟨rfl, rfl⟩

/-- **A window is the readings in order**: a call that gets a reading below `NB_Sample` samples
appends it, and one at `NB_Sample` samples leaves the buffer and returns true. -/
theorem getSignal_some {a a' : Analog} {x : int16_t} {b : Bool}
    (h : a.getSignal (some x) = .ok (b, a')) :
    if a.inputSignal.length < NB_Sample then
      b = false ∧ a'.inputSignal = a.inputSignal ++ [sampleVolts x]
    else b = true ∧ a'.inputSignal = a.inputSignal := by
  obtain ⟨a₁, ht, h⟩ := Base.bind_ok h
  obtain ⟨h1, h2⟩ := countPeriod_frame ht
  obtain ⟨h3, h4⟩ := countCrossing_frame { a with adcReading := x }
  have hs : a₁.inputSignal = a.inputSignal := h1.trans h3
  have hx : a₁.adcReading = x := h2.trans h4
  rw [hs] at h
  split at h
  · cases h
    rw [if_pos ‹_›, hx]
    exact ⟨rfl, rfl⟩
  · cases h
    rw [if_neg ‹_›]
    exact ⟨rfl, hs⟩

/-- From an empty buffer, at most `NB_Sample` readings in a row are buffered as they come. -/
theorem inputSignal_foldlM {xs : List int16_t} {a a' : Analog}
    (hlen : a.inputSignal.length + xs.length ≤ NB_Sample)
    (h : xs.foldlM (fun a x => do return (← getSignal a (some x)).2) a = .ok a') :
    a'.inputSignal = a.inputSignal ++ xs.map sampleVolts := by
  induction xs generalizing a with
  | nil =>
    cases h
    simp
  | cons x xs ih =>
    rw [List.foldlM_cons] at h
    obtain ⟨a₁, h1, h⟩ := Base.bind_ok h
    obtain ⟨⟨b, a₂⟩, hg, h2⟩ := Base.bind_ok h1
    cases h2
    have hs := getSignal_some hg
    rw [List.length_cons] at hlen
    rw [if_pos (by omega)] at hs
    have hl : a₂.inputSignal.length = a.inputSignal.length + 1 := by rw [hs.2]; simp
    have hi := ih (by simp only; omega) h
    rw [hi, hs.2]
    simp

end Analog

end Measure
