import IdmtRelay.Serial.Packet
import IdmtRelay.Trip.Relay

/-!
# The report of the current, byte by byte

`HandleCurrent` runs in the main loop with interrupts enabled; its critical section is commented
out. It reads the two bytes of `Current` for the arguments of `PacketPut`, in either order, as C++
leaves that open, and ticks of `CallBack::PIT` run before, between and after the two reads.
`Observed` keeps beside it what `Current.l` has held.
-/

namespace Trip

def CMD_DOR_CURRENT : uint8_t := 0x71#8

/-- `HandlePacket::HandleCurrent`: the packet it passes to `PacketPut`. -/
def handleCurrent (r : Relay) : Serial.Msg :=
  ⟨CMD_DOR_CURRENT, 0x02, r.current.lo8, r.current.hi8⟩

/-- The value in the last two parameters. -/
def reported (m : Serial.Msg) : uint16_t := uint16union m.parameter2 m.parameter3

/-- A call of `HandleCurrent` in progress, with the byte it has read. -/
inductive Call
  | idle
  | lo (Lo : uint8_t)
  | hi (Hi : uint8_t)
  deriving DecidableEq, Repr

/-- The relay and the call of `HandleCurrent`. -/
structure Report where
  relay : Relay
  call : Call
  deriving DecidableEq, Repr

namespace Report

inductive Event
  /-- The call reads `Current.s.Lo`. -/
  | readLo
  /-- The call reads `Current.s.Hi`. -/
  | readHi
  | tick (i : TickIn)

/-- One step; the second read puts out the packet. -/
def step : Event → Report → Except Unit ((Option Serial.Msg × List Out) × Report)
  | .readLo, c =>
    match c.call with
    | .idle => .ok ((none, []), { c with call := .lo c.relay.current.lo8 })
    | .lo _ => .error ()
    | .hi Hi =>
      .ok ((some ⟨CMD_DOR_CURRENT, 0x02, c.relay.current.lo8, Hi⟩, []), { c with call := .idle })
  | .readHi, c =>
    match c.call with
    | .idle => .ok ((none, []), { c with call := .hi c.relay.current.hi8 })
    | .lo Lo =>
      .ok ((some ⟨CMD_DOR_CURRENT, 0x02, Lo, c.relay.current.hi8⟩, []), { c with call := .idle })
    | .hi _ => .error ()
  | .tick i, c =>
    match Relay.pit i c.relay with
    | .error _ => .error ()
    | .ok (o, r) => .ok ((none, o), { c with relay := r })

end Report

/-- A report, with what `Current.l` has held so far, and what it held at the first read of the call
in progress. -/
structure Observed where
  report : Report
  held : List uint16_t
  seen : uint16_t

namespace Observed

open Report (Event)

def current (w : Observed) : uint16_t := w.report.relay.current

/-- No call is in progress. -/
def start (r : Relay) : Observed := { report := ⟨r, .idle⟩, held := [r.current], seen := r.current }

def step (e : Event) (w : Observed) :
    Except Unit ((Option Serial.Msg × List Out) × Observed) := do
  let (o, c) ← w.report.step e
  let seen := if w.report.call = .idle then w.current else w.seen
  return (o, { report := c, held := w.held ++ [c.relay.current], seen := seen })

/-- An event with the reply and the outputs of the tick. -/
abbrev Label := Event × (Option Serial.Msg × List Out)

abbrev Step : Observed → Label → Observed → Prop := Lib.StepOf step

abbrev Steps := List (Label × Observed)

end Observed

end Trip
