import IdmtRelay.Flash.Flash
import IdmtRelay.Lib.Store

/-!
# The flash block as a store

What the driver is for: eight cells that keep the byte last written to them. `Op` is a call of the
driver on an address of the block, aligned as `Flash.h` asks, and `Op.byte` the byte the call is to
leave in a cell; `exec` is the call itself.
-/

namespace Flash

/-- A call of `Erase`, `Write8`, `Write16` or `Write32`; the index counts units of the access. -/
inductive Op
  | erase
  | write8 (i : Fin 8) (v : uint8_t)
  | write16 (i : Fin 4) (v : uint16_t)
  | write32 (i : Fin 2) (v : uint32_t)

/-- The byte the call is to leave in cell `j`, if it touches the cell. -/
def Op.byte : Op → Fin 8 → Option uint8_t
  | .erase, _ => some 0xFF#8
  | .write8 i v, j => if j = i then some v else none
  | .write16 i v, j =>
    if j.val = 2 * i.val then some v.lo8
    else if j.val = 2 * i.val + 1 then some v.hi8
    else none
  | .write32 i v, j =>
    if j.val = 4 * i.val then some v.lo16.lo8
    else if j.val = 4 * i.val + 1 then some v.lo16.hi8
    else if j.val = 4 * i.val + 2 then some v.hi16.lo8
    else if j.val = 4 * i.val + 3 then some v.hi16.hi8
    else none

def exec (launch : FTFE → FTFE) : Op → State → State
  | .erase, s => (erase launch s).2
  | .write8 i v, s => (write8 launch (FLASH_DATA_START + BitVec.ofNat 32 i) v s).2
  | .write16 i v, s => (write16 launch (FLASH_DATA_START + BitVec.ofNat 32 (2 * i)) v s).2
  | .write32 i v, s => (write32 launch (FLASH_DATA_START + BitVec.ofNat 32 (4 * i)) v s).2

/-- Every cell reads as the byte last left in it, else as in `m`. -/
abbrev reads (m : Block) (ops : List Op) : Block := Lib.Store.reads Op.byte m ops

/-- The driver and the controller after a list of calls. -/
abbrev after (launch : FTFE → FTFE) (s : State) (ops : List Op) : State :=
  Lib.Store.after (exec launch) s ops

end Flash
