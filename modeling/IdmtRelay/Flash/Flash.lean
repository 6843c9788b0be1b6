import IdmtRelay.Flash.FTFE

/-!
# The flash driver (`Flash.cpp`)

The object's twelve command bytes and the controller are the state. A write goes through three
layers, each of which completes the value with its neighbour from flash, to `WritePhrase`, which
erases the sector and programs the phrase; `LaunchCommand` copies the command bytes to the `FCCOB`
registers and launches the command. Every launch is recorded beside the state (`launches`), for the
results about the commands of a call.
-/

namespace Flash

/-- `TFCCOB`. -/
structure TFCCOB where
  fccob0 : uint8_t
  fccob1 : uint8_t
  fccob2 : uint8_t
  fccob3 : uint8_t
  fccob4 : uint8_t
  fccob5 : uint8_t
  fccob6 : uint8_t
  fccob7 : uint8_t
  fccob8 : uint8_t
  fccob9 : uint8_t
  fccobA : uint8_t
  fccobB : uint8_t
  deriving DecidableEq, Repr

/-- A command that `LaunchCommand` has launched: the controller when it starts and when it ends. -/
structure Launch where
  start : FTFE
  stop : FTFE

/-- A `Flash` object and the controller it drives. -/
structure State where
  obj : TFCCOB
  ftfe : FTFE
  /-- The commands launched so far: a record that is not in the source; nothing depends on it. -/
  launches : List Launch := []

def State.block (s : State) : Block := s.ftfe.block

/-- `_FB`, `_FH` and `_FW`: a read of one, two or four bytes of flash. -/
def State.FB (s : State) (address : uint32_t) : uint8_t := s.ftfe.mem address

def State.FH (s : State) (address : uint32_t) : uint16_t :=
  uint16union (s.FB address) (s.FB (address + 1#32))

def State.FW (s : State) (address : uint32_t) : uint32_t :=
  uint32union (s.FH address) (s.FH (address + 2#32))

section
variable (launch : FTFE → FTFE)

/-- `TFCCOB::LaunchCommand`. -/
def launchCommand (s : State) : Bool × State :=
  let f := s.ftfe.awaitCCIF
  let f :=
    if f.Failed then f.writeFSTAT launch 0x30#8
    else { f with
      FCCOB0 := s.obj.fccob0
      FCCOB1 := s.obj.fccob1
      FCCOB2 := s.obj.fccob2
      FCCOB3 := s.obj.fccob3
      FCCOB4 := s.obj.fccobB
      FCCOB5 := s.obj.fccobA
      FCCOB6 := s.obj.fccob5
      FCCOB7 := s.obj.fccob4
      FCCOB8 := s.obj.fccob6
      FCCOB9 := s.obj.fccob7
      FCCOBA := s.obj.fccob8
      FCCOBB := s.obj.fccob9 }
  let stop := (f.writeFSTAT launch FTFE_FSTAT_CCIF_MASK).awaitCCIF
  (true, { s with ftfe := stop, launches := s.launches ++ [⟨f, stop⟩] })

/-- `TFCCOB::EraseSector`. -/
def eraseSector (address : uint32_t) (s : State) : Bool × State :=
  launchCommand launch { s with obj := { s.obj with
    fccob3 := address.lo16.lo8
    fccob2 := address.lo16.hi8
    fccob1 := address.hi16.lo8
    fccob0 := CMD_ERASEFLASHSECTOR } }

/-- `TFCCOB::WritePhrase`. -/
def writePhrase (address : uint32_t) (phrase : uint64_t) (s : State) : Bool × State :=
  let (ok, s) := eraseSector launch FLASH_DATA_START s
  if ok then
    let (_, s) := launchCommand launch { s with obj := {
      fccob3 := address.lo16.lo8
      fccob2 := address.lo16.hi8
      fccob1 := address.hi16.lo8
      fccob4 := phrase.lo32.lo16.lo8
      fccob5 := phrase.lo32.lo16.hi8
      fccob6 := phrase.lo32.hi16.lo8
      fccob7 := phrase.lo32.hi16.hi8
      fccob8 := phrase.hi32.lo16.lo8
      fccob9 := phrase.hi32.lo16.hi8
      fccobA := phrase.hi32.hi16.lo8
      fccobB := phrase.hi32.hi16.hi8
      fccob0 := CMD_PROGRAMPHRASE } }
    (true, s)
  else (true, s)

/-- `Flash::Write32`. -/
def write32 (address data : uint32_t) (s : State) : Bool × State :=
  if address.toNat % 8 = 0 then
    writePhrase launch address (uint64union data (s.FW (address + 4#32))) s
  else
    writePhrase launch (address - 4#32) (uint64union (s.FW (address - 4#32)) data) s

/-- `Flash::Write16`. -/
def write16 (address : uint32_t) (data : uint16_t) (s : State) : Bool × State :=
  if address.toNat % 4 = 0 then
    write32 launch address (uint32union data (s.FH (address + 2#32))) s
  else
    write32 launch (address - 2#32) (uint32union (s.FH (address - 2#32)) data) s

/-- `Flash::Write8`. -/
def write8 (address : uint32_t) (data : uint8_t) (s : State) : Bool × State :=
  if address.toNat % 2 = 0 then
    write16 launch address (uint16union data (s.FB (address + 1#32))) s
  else
    write16 launch (address - 1#32) (uint16union (s.FB (address - 1#32)) data) s

/-- `Flash::Erase`. -/
def erase (s : State) : Bool × State := eraseSector launch FLASH_DATA_START s

end

end Flash
