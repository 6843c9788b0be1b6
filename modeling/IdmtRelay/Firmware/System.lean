import IdmtRelay.Lib.Projection
import IdmtRelay.Serial.Link
import IdmtRelay.Trip.Curve
import IdmtRelay.Trip.Device
import IdmtRelay.Trip.Report

/-!
# The firmware (`main.cpp`)

The main loop polls `PacketGet` and handles every packet it gets; `UART_ISR` and `CallBack::PIT`
interrupt it at any point. The parts are those of the other modules: the serial link, the statics
behind the `IDMT_t` objects, and the device. `Task` is where the main loop is between two of its
atomic steps outside of `PacketGet` and `PacketPut`.

A handler takes one step for each access to something an interrupt handler writes or reads: the two
bytes of `Current`, the frequency, each command to the flash, and then the call of `PacketPut`.
-/

namespace Firmware

open Serial (Link Msg)
open Trip (CMD_DOR Call Curve Device DeviceIn Report Statics)
open Measure (Analog)
open Flash (FTFE)

/-! ## The handlers of `HandlePacket` -/

/-- `enum Command`: what `parameter1` of a packet asks for. -/
def IDMT : uint8_t := 0#8
def CURRENT : uint8_t := 0x01#8
def FREQUENCY : uint8_t := 0x02#8
def NB_TIME_TRIPPED : uint8_t := 0x03#8

/-- `HandlePacket::HandleNbTimeTripped`: the packet it passes to `PacketPut`. -/
def handleNbTimeTripped (s : Statics) : Msg :=
  ⟨CMD_DOR, 3, s.getNbTrip.lo8, s.getNbTrip.hi8⟩

/-- `HandlePacket::HandleFrequency`. -/
def handleFrequency (a : Analog) : Msg :=
  ⟨CMD_DOR, 0x01, a.returnFrequency.lo8, a.returnFrequency.hi8⟩

/-! ## The state -/

inductive Task
  /-- `PacketGet` is called next. -/
  | poll
  /-- `HandleCommandPacket` is called next. -/
  | handle (packet : Msg)
  /-- In `HandleCurrent`. -/
  | current (c : Call)
  /-- In `Set`, which `HandleIDMTCharacteristic` has called. -/
  | set (slope : uint8_t) (w : Flash.Write)
  /-- A handler calls `PacketPut` next. -/
  | reply (m : Msg)
  deriving DecidableEq, Repr

/-- After a command of `Set`: the call goes on, or the handler replies. -/
def Task.afterSet (slope : uint8_t) : Option Flash.Write → Task
  | some w => .set slope w
  | none => .reply ⟨CMD_DOR, 0, 1, slope⟩

structure System where
  link : Link
  task : Task
  statics : Statics
  device : Device

/-- After power-up, with the global objects constructed; `setting` and `nBTrip` point into the data
block. -/
structure PowerUp (flash : Flash.State) (s : System) : Prop where
  aligned : s.link.Aligned
  call : s.link.call = none
  txFIFO : s.link.uart.txFIFO.bytes = []
  task : s.task = .poll
  statics : (Statics.powerUp flash).construct = some s.statics
  device : s.device = .init

inductive Event
  /-- `UART_ISR`, with the two reads of the status register and the data register. -/
  | uart (s1Rx s1Tx UART2_D : uint8_t)
  /-- `CallBack::PIT`; the setting it reads is that of the flash. -/
  | pit (i : DeviceIn)
  /-- The next step of the main loop; `setting` is what the local of that name in
  `HandleIDMTCharacteristic` holds, if it is called. -/
  | main (setting : uint8_t)
  /-- `HandleCurrent` reads `Current.s.Lo`. -/
  | readLo
  /-- `HandleCurrent` reads `Current.s.Hi`. -/
  | readHi

/-- What moves in a step: a part, or the main loop alone. -/
inductive Act
  | link (e : Serial.Event) (o : List Serial.Out)
  | tick (i : DeviceIn) (o : List Trip.Out)
  | main

namespace System

/-- `HandlePacket::HandleCommandPacket`, up to the first step of the handler that others see. -/
def handleCommandPacket (setting : uint8_t) (packet : Msg) (s : System) : Option System :=
  if packet.command = CMD_DOR then
    if packet.parameter1 = IDMT then do
      let statics ← s.statics.construct
      if packet.parameter2 = 0x01#8 then
        return { s with
          statics := statics
          task := .reply ⟨CMD_DOR, 0, 1, statics.getSetting setting⟩ }
      else if statics.success then
        return { s with
          statics := statics
          task := .set packet.parameter3
            (.start8 statics.setting packet.parameter3 statics.flash) }
      else return { s with
        statics := statics
        task := .reply ⟨CMD_DOR, 0, 1, packet.parameter3⟩ }
    else if packet.parameter1 = FREQUENCY then
      some { s with task := .reply (handleFrequency s.device.analog) }
    else if packet.parameter1 = CURRENT then some { s with task := .current .idle }
    else if packet.parameter1 = NB_TIME_TRIPPED then
      some { s with task := .reply (handleNbTimeTripped s.statics) }
    -- `FAULT_TYPE` has no handler
    else some { s with task := .poll }
  else some { s with task := .poll }

/-- A step of the link, after which the main loop is at `task`. -/
def linkStep (e : Serial.Event) (task : List Serial.Out → Task) (s : System) :
    Except Unit (Act × System) :=
  match Link.step e s.link with
  | .error e => .error e
  | .ok (o, l) => .ok (.link e o, { s with link := l, task := task o })

/-- The main loop handles the packet of a successful `PacketGet`. -/
def polled (o : List Serial.Out) : Task :=
  match Link.got o with
  | [] => .poll
  | m :: _ => .handle m

/-- One of the two reads of `HandleCurrent`. -/
def readCurrent (e : Report.Event) (s : System) : Except Unit (Act × System) :=
  match s.link.call, s.task with
  | none, .current c =>
    match Report.step e ⟨s.device.relay, c⟩ with
    | .error e => .error e
    | .ok ((some m, _), _) => .ok (.main, { s with task := .reply m })
    | .ok ((none, _), r) => .ok (.main, { s with task := .current r.call })
  | _, _ => .error ()

/-- A step of the main loop between two calls of the packet layer. -/
def mainStep (launch : FTFE → FTFE) (setting : uint8_t) (s : System) : Except Unit (Act × System) :=
  match s.task with
  | .poll => linkStep .packetGet polled s
  | .handle packet =>
    match handleCommandPacket setting packet s with
    | none => .error ()
    | some s' => .ok (.main, s')
  | .current _ => .error ()
  | .set slope w =>
    match Curve.step launch .command ⟨s.statics, some w, s.device.relay⟩ with
    | .error e => .error e
    | .ok (_, c) => .ok (.main, { s with
        statics := c.statics
        task := .afterSet slope c.call })
  | .reply m => linkStep (.packetPut m) (fun _ => .poll) s

/-- One atomic step. -/
def step (launch : FTFE → FTFE) : Event → System → Except Unit (Act × System)
  | .uart s1Rx s1Tx d, s => linkStep (.isr s1Rx s1Tx d) (fun _ => s.task) s
  | .pit i, s =>
    match Device.pit { i with setting := s.statics.byte } s.device with
    | .error _ => .error ()
    | .ok (o, d) => .ok (.tick { i with setting := s.statics.byte } o, { s with device := d })
  | .main setting, s =>
    match s.link.call with
    | none => mainStep launch setting s
    | some _ => linkStep .resume (fun _ => s.task) s
  | .readLo, s => readCurrent .readLo s
  | .readHi, s => readCurrent .readHi s

abbrev Step (launch : FTFE → FTFE) : System → Event × Act → System → Prop :=
  Lib.StepOf (step launch)

end System

/-- The steps of a run, each with the state after it. -/
abbrev Steps := List ((Event × Act) × System)

/-! ## What a run shows -/

/-- The step of the serial link. -/
def Act.ofLink : Act → Option (Serial.Event × List Serial.Out)
  | .link e o => some (e, o)
  | _ => none

/-- The tick of the device. -/
def Act.ofDevice : Act → Option (DeviceIn × List Trip.Out)
  | .tick i o => some (i, o)
  | _ => none

/-- The link's share of a run. -/
def linkShare (tr : Steps) : List ((Serial.Event × List Serial.Out) × Link) :=
  Lib.share System.link (fun l => Act.ofLink l.2) tr

/-- The device's share of a run. -/
def deviceShare (tr : Steps) : List ((DeviceIn × List Trip.Out) × Device) :=
  Lib.share System.device (fun l => Act.ofDevice l.2) tr

end Firmware
