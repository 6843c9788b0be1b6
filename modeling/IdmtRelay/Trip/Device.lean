import IdmtRelay.Trip.Relay

/-!
# The tick with its acquisition

`Device` is the relay together with the analog front end: a tick takes one reading, and what
`GetCurrent` returns when a window is complete is what the relay measures. Every run of the device
is a run of the relay with these measurements (`relay_of_device`), so that what holds of every run
of the relay holds of every run of the device.
-/

namespace Trip

open Measure (Analog getCurrent)

structure Device where
  analog : Analog
  relay : Relay
  deriving DecidableEq, Repr

/-- What one tick of the device reads from outside. -/
structure DeviceIn where
  /-- The result of `Analog_Get`. -/
  reading : Option int16_t
  analogPut : uint8_t → int16_t → Bool
  setting : uint8_t

namespace Device

/-- Power-up. -/
def init : Device := { analog := .init, relay := .init }

/-- `if (AnalogIO.GetSignal()) Current.l = Idmt.GetCurrent()`, up to the assignment. -/
def acquire (a : Analog) (reading : Option int16_t) : Except Undef (Option uint16_t × Analog) := do
  let (full, a) ← a.getSignal reading
  if full then
    let (current, a) ← getCurrent a
    return (some current, a)
  else return (none, a)

/-- `CallBack::PIT`. -/
def pit (i : DeviceIn) (d : Device) : Except Undef (List Out × Device) := do
  let (measured, analog) ← acquire d.analog i.reading
  let (o, relay) ← Relay.pit ⟨measured, i.analogPut, i.setting⟩ d.relay
  return (o, { analog := analog, relay := relay })

abbrev Step : Device → DeviceIn × List Out → Device → Prop := Lib.StepOf pit

/-- A tick of the device is a tick of the relay. -/
theorem relay_step {d d' : Device} {l : DeviceIn × List Out} (h : Step d l d') :
    ∃ measured a, acquire d.analog l.1.reading = .ok (measured, a) ∧
      Relay.Step d.relay (⟨measured, l.1.analogPut, l.1.setting⟩, l.2) d'.relay := by
  obtain ⟨⟨measured, a⟩, ha, h⟩ := Base.bind_ok h
  obtain ⟨⟨o, r⟩, hr, h⟩ := Base.bind_ok h
  cases h
  exact ⟨measured, a, ha, hr⟩

/-- **Every run of the device is a run of the relay**, with the same outputs. -/
theorem relay_of_device {d d' : Device} {tr : List ((DeviceIn × List Out) × Device)}
    (h : Lib.Trace Step d tr d') : ∃ tr', Lib.Trace Relay.Step d.relay tr' d'.relay ∧
      tr'.map (fun p => (p.1.2, p.2)) = tr.map (fun p => (p.1.2, p.2.relay)) := by
  induction h with
  | nil => exact ⟨[], .nil _, rfl⟩
  | snoc _ hst ih =>
    obtain ⟨tr', htr, hmap⟩ := ih
    obtain ⟨measured, a, -, hr⟩ := relay_step hst
    refine ⟨_, .snoc htr hr, ?_⟩
    rw [List.map_append, List.map_append, hmap]
    rfl

end Device

end Trip
