import IdmtRelay.Lib.Trace
import IdmtRelay.Trip.IDMT

/-!
# The protection tick (`CallBack::PIT` of `main.cpp`)

Once a millisecond the tick counts down, takes the measured current if a window is complete, and
then either protects (arm, retime or keep the countdown) or resets. Its inputs are the current that
`GetCurrent` returns in this tick, if it is called, the results of `Analog_Put`, and the setting
byte in flash. The function `GetInverTime` that converts a countdown to a new current is a parameter
of the tick; `pit` is the tick with the function of the source.
-/

namespace Trip

open Measure (OVERLOAD)

def resolutionDA : Int := 3277

/-- The static variables of `main.cpp` that the tick uses. -/
structure Relay where
  idmt : IDMT
  counter : uint32_t
  time : uint32_t
  current : uint16_t
  prevCurrent : uint8_t
  success : Bool
  flagTrip : Bool
  deriving DecidableEq, Repr

/-- What one tick reads from outside. -/
structure TickIn where
  /-- `GetSignal` returns true in this tick and `GetCurrent` returns this. -/
  measured : Option uint16_t
  /-- `Analog_Put`. -/
  analogPut : uint8_t → int16_t → Bool
  setting : uint8_t

/-- What one tick does to the outside. -/
inductive Out
  /-- `PutSample(value, channelNb)` returns `ok`. -/
  | putSample (value : int16_t) (channelNb : uint8_t) (ok : Bool)
  | ledOn
  | ledOff
  deriving DecidableEq, Repr

/-- `Analog_t::PutSample`. -/
def putSample (analogPut : uint8_t → int16_t → Bool) (value : int16_t) (channelNb : uint8_t) :
    Bool × Out :=
  let ok := analogPut channelNb (BitVec.ofInt 16 (value.toInt * resolutionDA))
  (ok, .putSample value channelNb ok)

/-- `GetInverTime`; the shift binds weaker than the division in `TimeR << 16 / Time`. -/
def getInverTime (counter time tripTime : uint32_t) : Except Undef uint32_t := do
  let timeR : uint32_t := BitVec.ofNat 32 (counter.toNat * 65536 / 1000)
  let shift ← Base.div 16 time.toNat
  let percent : uint32_t := BitVec.ofNat 32 (timeR.toNat <<< shift)
  let newTime : uint16_t := BitVec.setWidth 16 ((percent * tripTime) >>> 16)
  return BitVec.ofNat 32 (newTime.toNat * 1000 / 65536)

namespace Relay

/-- Power-up. -/
def init : Relay :=
  { idmt := ⟨0#32, 0#32⟩, counter := 0#32, time := 0#32, current := 0#16, prevCurrent := 0#8,
    success := false, flagTrip := false }

/-- The countdown, and the trip signal at its end. -/
def countdown (i : TickIn) (s : Relay) : List Out × Relay :=
  if s.time ≠ 0#32 then
    let s := { s with counter := s.counter - 1#32 }
    if s.counter = 0#32 then
      if !s.flagTrip then
        let (ok, o) := putSample i.analogPut 5#16 2#8
        ([o], { s with flagTrip := ok })
      else ([], s)
    else ([], s)
  else ([], s)

/-- `if (AnalogIO.GetSignal()) Current.l = Idmt.GetCurrent()`. -/
def measure (i : TickIn) (s : Relay) : Relay :=
  match i.measured with
  | some c => { s with current := c }
  | none => s

/-- The first tick initialises `PrevCurrent`. -/
def latch (s : Relay) : Relay :=
  if !s.success then { s with prevCurrent := s.current.hi8, success := true } else s

/-- `Time = Idmt.GetTripTime(Current.l)`, and the counter in ms from it. -/
def arm (i : TickIn) (s : Relay) : Except Undef Relay := do
  let (tripTime, idmt) ← s.idmt.getTripTime i.setting s.current
  return { s with
    idmt := idmt
    time := tripTime
    counter := tripTime * 1000#32 / 65536#32
    flagTrip := false }

section
variable (inverTime : uint32_t → uint32_t → uint32_t → Except Undef uint32_t)

/-- `Counter = GetInverTime(Idmt.GetTripTime(Current.l))`. -/
def retime (i : TickIn) (s : Relay) : Except Undef Relay := do
  let (tripTime, idmt) ← s.idmt.getTripTime i.setting s.current
  let counter ← inverTime s.counter s.time tripTime
  return { s with idmt := idmt, counter := counter }

/-- The state after the overload branch. -/
def protect (i : TickIn) (s : Relay) : Except Undef Relay :=
  if s.current.hi8 ≠ s.prevCurrent then do
    let s ← (if s.counter ≠ 0#32 then retime inverTime i s else .ok s : Except Undef Relay)
    return { s with prevCurrent := s.current.hi8, flagTrip := false }
  else if s.counter = 0#32 then arm i s
  else .ok s

end

/-- The branch without overload. -/
def reset (i : TickIn) (s : Relay) : List Out × Relay :=
  let (ok, o) := putSample i.analogPut 0#16 1#8
  (if ok then [.ledOff, o, (putSample i.analogPut 0#16 2#8).2] else [.ledOff, o],
    { s with time := 0#32 })

/-- The tick up to its last branch. -/
def sensed (i : TickIn) (s : Relay) : Relay := latch (measure i (countdown i s).2)

/-- `CallBack::PIT` over a function in the place of `GetInverTime`. -/
def tick (inverTime : uint32_t → uint32_t → uint32_t → Except Undef uint32_t) (i : TickIn)
    (s : Relay) : Except Undef (List Out × Relay) :=
  let (o, _) := countdown i s
  let s := sensed i s
  if OVERLOAD < s.current then do
    let s ← protect inverTime i s
    return (o ++ [.ledOn, (putSample i.analogPut 5#16 1#8).2], s)
  else
    let (o', s) := reset i s
    .ok (o ++ o', s)

/-- `CallBack::PIT`. -/
abbrev pit : TickIn → Relay → Except Undef (List Out × Relay) := tick getInverTime

abbrev Step : Relay → TickIn × List Out → Relay → Prop := Lib.StepOf pit

/-- The ticks of a run, each with the state after it. -/
abbrev Ticks := List ((TickIn × List Out) × Relay)

/-- `PutSample(5, 2)` is called. -/
def tripped (o : List Out) : Bool :=
  o.any fun
    | .putSample 5#16 2#8 _ => true
    | _ => false

/-- `PutSample(5, 2)` is called and returns true. -/
def signalled (o : List Out) : Bool :=
  o.any fun
    | .putSample 5#16 2#8 ok => ok
    | _ => false

/-- A tick in which `Analog_Put` succeeds. -/
def quietTick (setting : uint8_t) (measured : Option uint16_t) : TickIn :=
  { measured := measured, analogPut := fun _ _ => true, setting := setting }

/-- Ticks in which a window of samples completes every 21st time, with the given currents. -/
def windows (setting : uint8_t) (currents : List uint16_t) : List TickIn :=
  currents.flatMap fun c =>
    List.replicate 20 (quietTick setting none) ++ [quietTick setting (some c)]

end Relay

end Trip
