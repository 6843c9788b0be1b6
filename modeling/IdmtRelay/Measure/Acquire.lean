import IdmtRelay.Lib.Trace
import IdmtRelay.Measure.FixPoint

/-!
# The acquisition of windows

What a tick does with the front end (`main.cpp`): `GetSignal`, and `GetCurrent` exactly when it
returns true. `GetCurrent` clears the buffer whatever it computes (`getCurrent_clears`), so `window`
leaves its arithmetic out: a step gives the window that `GetVoltageRMS` processes, if there is one.
-/

namespace Measure.Analog

/-- `GetSignal`, and the window that is then processed and cleared. -/
def window (reading : Option int16_t) (a : Analog) :
    Except Undef (Option (List int32_t) × Analog) := do
  let (full, a) ← a.getSignal reading
  if full then return (some a.inputSignal, { a with inputSignal := [] }) else return (none, a)

abbrev Window : Analog → Option int16_t × Option (List int32_t) → Analog → Prop :=
  Lib.StepOf window

/-- The steps of a run, each with the state after it. -/
abbrev Windows := List ((Option int16_t × Option (List int32_t)) × Analog)

/-- The windows that were processed. -/
def processed (tr : Windows) : List (List int32_t) := tr.filterMap (·.1.2)

/-- The readings that were acquired. -/
def acquired (tr : Windows) : List int16_t := tr.filterMap (·.1.1)

theorem getCurrent_clears {a a' : Analog} {c : uint16_t} (h : getCurrent a = .ok (c, a')) :
    a' = { a with inputSignal := [] } := by
  obtain ⟨⟨v, a₁⟩, h1, h⟩ := Base.bind_ok h
  obtain ⟨⟨r, a₂⟩, h2, h1⟩ := Base.bind_ok h1
  obtain ⟨sum, -, h2⟩ := Base.bind_ok h2
  obtain ⟨mean, -, h2⟩ := Base.bind_ok h2
  obtain ⟨root, -, h2⟩ := Base.bind_ok h2
  cases h2
  cases h1
  cases h
  rfl

/-- The step of a window, when it goes through. -/
theorem window_eq {a a' : Analog} {reading : Option int16_t} {full : Bool}
    (h : a.getSignal reading = .ok (full, a')) : a.window reading =
      if full then .ok (some a'.inputSignal, { a' with inputSignal := [] })
      else .ok (none, a') := by
  unfold window
  rw [h]
  cases full <;> rfl

end Measure.Analog
