import IdmtRelay.Flash.Allocate
import IdmtRelay.Flash.Flash
import IdmtRelay.Serial.Packet
import IdmtRelay.Trip.IDMT

/-!
# The setting in flash (`IDMT.cpp`, `main.cpp`)

All `IDMT_t` objects share two pointers into the data block, the flash driver and the flag
`success`. The first constructor allocates the two variables; the objects that a request constructs
later find `success` set. `Set` writes the setting through the driver and stores the result in the
same flag.
-/

namespace Trip

open Flash (FTFE)

/-- The statics behind the `IDMT_t` objects. -/
structure Statics where
  success : Bool
  setting : uint32_t
  nBTrip : uint32_t
  FlashSector0 : Flash.Sector
  flash : Flash.State

namespace Statics

/-- Zero-initialised memory, with the driver and the controller as they are then. -/
def powerUp (flash : Flash.State) : Statics where
  success := false
  setting := 0
  nBTrip := 0
  FlashSector0 := fun _ => false
  flash := flash

/-- `IDMT_t::IDMT_t`. -/
def construct (s : Statics) : Option Statics :=
  if !s.success then do
    let (success, setting, FlashSector0) ← Flash.allocateVar s.setting 1 s.FlashSector0
    let s := { s with success := success, setting := setting, FlashSector0 := FlashSector0 }
    let (success, nBTrip, FlashSector0) ← Flash.allocateVar s.nBTrip 2 s.FlashSector0
    return { s with success := success, nBTrip := nBTrip, FlashSector0 := FlashSector0 }
  else return s

/-- `*setting`, which `GetSetting` and `GetTripTime` read. -/
def byte (s : Statics) : uint8_t := s.flash.FB s.setting

/-- `IDMT_t::Set`. -/
def set (launch : FTFE → FTFE) (slope : uint8_t) (s : Statics) : Statics :=
  if s.success then
    let (success, flash) := Flash.write8 launch s.setting slope s.flash
    { s with success := success, flash := flash }
  else s

/-- `IDMT_t::GetSetting`: the caller's variable afterwards. -/
def getSetting (slope : uint8_t) (s : Statics) : uint8_t := if s.success then s.byte else slope

/-- `IDMT_t::GetTripTime` of the object `i`: the byte it switches on is `*setting`. -/
def getTripTime (current : uint16_t) (i : IDMT) (s : Statics) : Except Undef (uint32_t × IDMT) :=
  i.getTripTime s.byte current

/-- `IDMT_t::GetNbTrip`: the caller's variable afterwards. The function flows off its end; its one
caller does not use a result. -/
def getNbTrip (s : Statics) : uint16_t := s.flash.FH s.nBTrip

end Statics

def CMD_DOR : uint8_t := 0x70#8

/-- A packet for `HandleIDMTCharacteristic`, and what its uninitialised local `setting` holds. -/
structure Request where
  packet : Serial.Msg
  setting : uint8_t

/-- The packet asks for the setting. -/
def Request.Get (r : Request) : Prop := r.packet.parameter2 = 0x01#8

instance (r : Request) : Decidable r.Get := inferInstanceAs (Decidable (_ = _))

/-- `HandlePacket::HandleIDMTCharacteristic`: the packet it passes to `PacketPut`. -/
def handleIDMTCharacteristic (launch : FTFE → FTFE) (r : Request) (s : Statics) :
    Except Unit (Serial.Msg × Statics) :=
  match s.construct with
  | none => .error ()
  | some s =>
    if r.Get then .ok (⟨CMD_DOR, 0, 1, s.getSetting r.setting⟩, s)
    else .ok (⟨CMD_DOR, 0, 1, r.packet.parameter3⟩, s.set launch r.packet.parameter3)

end Trip
