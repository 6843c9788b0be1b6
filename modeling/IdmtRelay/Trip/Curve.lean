import IdmtRelay.Flash.Steps
import IdmtRelay.Trip.Relay
import IdmtRelay.Trip.Setting

/-!
# A change of the curve, command by command

`Set` runs in the main loop with interrupts enabled, so ticks of `CallBack::PIT` run before, between
and after its two FTFE commands. An event is a command of the call or a tick, and a tick reads the
setting as flash holds it then.
-/

namespace Trip

open Flash (FTFE)
open Measure (OVERLOAD)

/-- The relay, the statics, and the call of `Set` in progress. -/
structure Curve where
  statics : Statics
  call : Option Flash.Write
  relay : Relay

namespace Curve

inductive Event
  /-- The next command of the call. -/
  | command
  /-- A tick; the setting it reads is that of the flash. -/
  | tick (i : TickIn)

/-- The tick evaluates `GetTripTime`: it retimes or arms. -/
def Event.Evaluates : Event → Relay → Prop
  | .command, _ => False
  | .tick i, r =>
    let s := r.sensed i
    OVERLOAD < s.current ∧
      if s.current.hi8 ≠ s.prevCurrent then s.counter ≠ 0#32 else s.counter = 0#32

instance : ∀ (e : Event) (r : Relay), Decidable (e.Evaluates r)
  | .command, _ => inferInstanceAs (Decidable False)
  | .tick _, _ => inferInstanceAs (Decidable (_ ∧ _))

/-- The call has erased the block and not yet programmed it. -/
def erased (c : Curve) : Bool := c.call.any (·.erased)

/-- One step; a tick puts out the byte `GetTripTime` reads, if it is evaluated. -/
def step (launch : FTFE → FTFE) : Event → Curve → Except Unit ((Option uint8_t × List Out) × Curve)
  | .command, c =>
    match c.call with
    | none => .error ()
    | some w =>
      match w.step launch c.statics.flash with
      | (some w, f) => .ok ((none, []), { c with statics.flash := f, call := some w })
      | (none, f) =>
        .ok ((none, []), { c with statics := { c.statics with success := true, flash := f }
                                  call := none })
  | .tick i, c =>
    match Relay.pit { i with setting := c.statics.byte } c.relay with
    | .error _ => .error ()
    | .ok (o, r) =>
      .ok ((if (Event.tick i).Evaluates c.relay then some c.statics.byte else none, o),
        { c with relay := r })

abbrev Step (launch : FTFE → FTFE) :
    Curve → Event × (Option uint8_t × List Out) → Curve → Prop := Lib.StepOf (step launch)

/-- `Set` is called: it computes its phrase. -/
def change (slope : uint8_t) (c : Curve) : Curve :=
  { c with call := some (.start8 c.statics.setting slope c.statics.flash) }

end Curve

end Trip
