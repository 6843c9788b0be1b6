import IdmtRelay.Base.Types

/-!
# The flash controller (FTFE)

The registers the firmware uses and the memory behind them. What a launched command does belongs to
the hardware: it is a parameter `launch` of the model, which maps the controller when the command
starts to the controller when it ends. `Ideal launch` is the documented behaviour of the two
commands the firmware launches, in the absence of errors; `k70` is a controller that behaves so.
-/

namespace Flash

def FLASH_DATA_START : uint32_t := 0x00080000#32
def FLASH_DATA_END : uint32_t := 0x00080007#32

def FTFE_FSTAT_CCIF_MASK : uint8_t := 0x80#8
def FTFE_FSTAT_ACCERR_MASK : uint8_t := 0x20#8
def FTFE_FSTAT_FPVIOL_MASK : uint8_t := 0x10#8

def CMD_PROGRAMPHRASE : uint8_t := 0x07#8
def CMD_ERASEFLASHSECTOR : uint8_t := 0x09#8

structure FTFE where
  FSTAT : uint8_t
  FCCOB0 : uint8_t
  FCCOB1 : uint8_t
  FCCOB2 : uint8_t
  FCCOB3 : uint8_t
  FCCOB4 : uint8_t
  FCCOB5 : uint8_t
  FCCOB6 : uint8_t
  FCCOB7 : uint8_t
  FCCOB8 : uint8_t
  FCCOB9 : uint8_t
  FCCOBA : uint8_t
  FCCOBB : uint8_t
  mem : uint32_t → uint8_t

namespace FTFE

/-- The flash address in `FCCOB1..3`. -/
def address (f : FTFE) : uint32_t :=
  uint32union (uint16union f.FCCOB3 f.FCCOB2) (uint16union f.FCCOB1 0#8)

/-- Polling `FSTAT` until `CCIF` is set, which the hardware does when no command is running. -/
def awaitCCIF (f : FTFE) : FTFE := { f with FSTAT := f.FSTAT ||| FTFE_FSTAT_CCIF_MASK }

/-- A write to `FSTAT`: ones clear the error flags (bits 6..4), and a one in `CCIF` launches the
command in the `FCCOB` registers. -/
def writeFSTAT (launch : FTFE → FTFE) (v : uint8_t) (f : FTFE) : FTFE :=
  let f := { f with FSTAT := f.FSTAT &&& ~~~(v &&& 0x70#8) }
  if v &&& FTFE_FSTAT_CCIF_MASK ≠ 0 then launch f else f

/-- The error flags `LaunchCommand` looks at. -/
def Failed (f : FTFE) : Prop :=
  f.FSTAT &&& FTFE_FSTAT_ACCERR_MASK ≠ 0 ∨ f.FSTAT &&& FTFE_FSTAT_FPVIOL_MASK ≠ 0

instance (f : FTFE) : Decidable f.Failed := inferInstanceAs (Decidable (_ ∨ _))

theorem not_failed_of_CCIF {f : FTFE} (h : f.FSTAT = FTFE_FSTAT_CCIF_MASK) : ¬ f.Failed := by
  unfold Failed
  rw [h]
  decide

@[simp] theorem failed_awaitCCIF (f : FTFE) : f.awaitCCIF.Failed ↔ f.Failed := by
  have h : ∀ x : uint8_t, (x ||| FTFE_FSTAT_CCIF_MASK) &&& FTFE_FSTAT_ACCERR_MASK =
      x &&& FTFE_FSTAT_ACCERR_MASK ∧ (x ||| FTFE_FSTAT_CCIF_MASK) &&& FTFE_FSTAT_FPVIOL_MASK =
      x &&& FTFE_FSTAT_FPVIOL_MASK := by decide
  unfold Failed awaitCCIF
  simp only [h]

theorem writeFSTAT_CCIF (launch : FTFE → FTFE) (f : FTFE) :
    f.writeFSTAT launch FTFE_FSTAT_CCIF_MASK = launch f := by
  have h : ∀ x : uint8_t, x &&& ~~~(FTFE_FSTAT_CCIF_MASK &&& 0x70#8) = x := by decide
  unfold writeFSTAT
  rw [if_pos (by decide), h]

end FTFE

/-- The eight bytes of the data block. -/
abbrev Block := Fin 8 → uint8_t

def FTFE.block (f : FTFE) : Block := fun i => f.mem (FLASH_DATA_START + BitVec.ofNat 32 i)

/-- What Erase Sector and Program Phrase do to the data block: erased bytes read 0xFF, a phrase is
stored in an erased block with each longword big-endian in `FCCOB` order, and no error is
flagged. -/
structure Ideal (launch : FTFE → FTFE) : Prop where
  erase : ∀ f : FTFE, f.FCCOB0 = CMD_ERASEFLASHSECTOR → f.address = FLASH_DATA_START →
    ¬ f.Failed → (∀ i, (launch f).block i = 0xFF#8) ∧ ¬ (launch f).Failed
  program : ∀ f : FTFE, f.FCCOB0 = CMD_PROGRAMPHRASE → f.address = FLASH_DATA_START →
    ¬ f.Failed → (∀ i, f.block i = 0xFF#8) →
    (launch f).block 0 = f.FCCOB7 ∧ (launch f).block 1 = f.FCCOB6 ∧
    (launch f).block 2 = f.FCCOB5 ∧ (launch f).block 3 = f.FCCOB4 ∧
    (launch f).block 4 = f.FCCOBB ∧ (launch f).block 5 = f.FCCOBA ∧
    (launch f).block 6 = f.FCCOB9 ∧ (launch f).block 7 = f.FCCOB8 ∧ ¬ (launch f).Failed

/-- A controller that always succeeds, with 4 KB sectors. -/
def k70 (f : FTFE) : FTFE :=
  if f.FCCOB0 = CMD_ERASEFLASHSECTOR then
    { f with
      FSTAT := FTFE_FSTAT_CCIF_MASK
      mem := fun a => if a >>> 12 = f.address >>> 12 then 0xFF#8 else f.mem a }
  else if f.FCCOB0 = CMD_PROGRAMPHRASE then
    { f with
      FSTAT := FTFE_FSTAT_CCIF_MASK
      mem := fun a =>
        if a = f.address then f.FCCOB7
        else if a = f.address + 1#32 then f.FCCOB6
        else if a = f.address + 2#32 then f.FCCOB5
        else if a = f.address + 3#32 then f.FCCOB4
        else if a = f.address + 4#32 then f.FCCOBB
        else if a = f.address + 5#32 then f.FCCOBA
        else if a = f.address + 6#32 then f.FCCOB9
        else if a = f.address + 7#32 then f.FCCOB8
        else f.mem a }
  else { f with FSTAT := FTFE_FSTAT_CCIF_MASK ||| FTFE_FSTAT_ACCERR_MASK }

theorem k70_ideal : Ideal k70 where
  erase f h ha _ := by
    have he : k70 f = { f with
        FSTAT := FTFE_FSTAT_CCIF_MASK
        mem := fun a => if a >>> 12 = f.address >>> 12 then 0xFF#8 else f.mem a } := if_pos h
    rw [he, ha]
    refine ⟨fun i => if_pos ?_, FTFE.not_failed_of_CCIF rfl⟩
    revert i
    decide
  program f h ha _ _ := by
    have hne : f.FCCOB0 ≠ CMD_ERASEFLASHSECTOR := by rw [h]; decide
    unfold k70
    rw [if_neg hne, if_pos h, ha]
    exact ⟨rfl, rfl, rfl, rfl, rfl, rfl, rfl, rfl, FTFE.not_failed_of_CCIF rfl⟩

end Flash
