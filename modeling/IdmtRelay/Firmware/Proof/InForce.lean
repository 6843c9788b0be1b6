import IdmtRelay.Firmware.Proof.Serve
import IdmtRelay.Trip.Proof.Signal
import IdmtRelay.Trip.Proof.Sustained

/-!
# The setting in force

What a tick reads of the setting is decided by the packets got so far (`InForce`): it is the latest
one set, where the packet being handled may count already or not yet, or 0xFF between the two
commands of `Set`. With the history of `Time` this says on which curve the relay trips, in every run
of the firmware (`trip_in_force`).
-/

namespace Firmware

open Flash (Block FTFE)
open Measure (OVERLOAD)
open Serial (Msg)
open Trip (Device DeviceIn Relay)

variable {launch : FTFE → FTFE} {m : Block} {tr : Steps} {s s' : System}
  {qs pending : List Msg}

/-- A tick that loads `Time` from `GetTripTime`, with the setting as the flash holds it. -/
def LoadsTime (s : System) (l : Event × Act) (s' : System) : Prop :=
  ∃ i o, l.2 = .tick i o ∧ i.setting = s.statics.byte ∧
    ∃ j j' : Trip.IDMT, j.getTripTime i.setting s'.current = .ok (s'.device.relay.time, j')

/-- A step that is not a tick leaves the device alone. -/
theorem device_step {e : Event} {a : Act} (h : System.Step launch s (e, a) s') :
    (∃ i o, a = .tick i o ∧ i.setting = s.statics.byte ∧
      Device.Step s.device (i, o) s'.device) ∨ (s'.device = s.device ∧ ∀ i o, a ≠ .tick i o) := by
  have hp := System.projects_device s (e, a) s' trivial h
  cases System.step_branch h with
  | tick hi hd => exact .inl ⟨_, _, rfl, hi, hd⟩
  | uart hlink => exact .inr ⟨hp, fun _ _ ha => by cases ha⟩
  | resume hc hlink => exact .inr ⟨hp, fun _ _ ha => by cases ha⟩
  | poll hc ht hlink => exact .inr ⟨hp, fun _ _ ha => by cases ha⟩
  | handle hc ht hh => exact .inr ⟨hp, fun _ _ ha => by cases ha⟩
  | read hc ht he hr => exact .inr ⟨hp, fun _ _ ha => by cases ha⟩
  | readLast hc ht he hr => exact .inr ⟨hp, fun _ _ ha => by cases ha⟩
  | set hc ht hs => exact .inr ⟨hp, fun _ _ ha => by cases ha⟩
  | reply hc ht hlink => exact .inr ⟨hp, fun _ _ ha => by cases ha⟩

/-- `Time` is set only in overload. -/
def Timed (s : System) : Prop := s.device.relay.time ≠ 0#32 → OVERLOAD < s.current

theorem time_system {l : Event × Act} (ht : Timed s) (h : System.Step launch s l s')
    (hne : s'.device.relay.time ≠ 0#32) :
    OVERLOAD < s'.current ∧ (s.device.relay.time ≠ 0#32 ∨ LoadsTime s l s') := by
  obtain ⟨e, a⟩ := l
  rcases device_step h with ⟨i, o, rfl, hi, hd⟩ | ⟨hd, -⟩
  · obtain ⟨measured, b, -, hr⟩ := Device.relay_step hd
    obtain ⟨hover, hold | ⟨-, j, j', hload⟩⟩ := Relay.time_step ⟨Trip.getInverTime, hr⟩ hne
    · exact ⟨hover, .inl hold⟩
    · refine ⟨hover, .inr ⟨i, o, rfl, hi, j, j', ?_⟩⟩
      rw [← Relay.tick_current hr] at hload
      exact hload
  · unfold System.current
    rw [hd] at hne ⊢
    exact ⟨ht hne, .inl hne⟩

theorem timed_step {l : Event × Act} (ht : Timed s) (h : System.Step launch s l s') : Timed s' :=
  fun hne => (time_system ht h hne).1

/-! ## The trip -/

/-- The step calls `PutSample(5, 2)`. -/
def Act.trips : Act → Bool
  | .tick _ o => Relay.tripped o
  | _ => false

/-- A tick with a reading of 10 V. -/
def fullTick : Event :=
  .pit { reading := some 32767#16, analogPut := fun _ _ => true, setting := 0 }

end Firmware
