import IdmtRelay.Flash.FTFE
import IdmtRelay.Lib.Machine
import Mathlib.Data.List.FinRange
import Mathlib.Data.List.ReduceOption

/-!
# Allocation in the data block (`Flash.cpp`)

`FlashSector0` marks the bytes given to a variable. `AllocateVar` gives a variable of one byte the
first free byte, and a variable of two bytes the first free even one with its neighbour. When there
is none the loop runs off the end of a function that is to return a `bool`: there is no result.
`handedOut` collects what a sequence of calls gives to its callers.
-/

namespace Flash

abbrev NB_BYTES : Nat := 8

/-- The table of the bytes in use. -/
abbrev Sector := Fin NB_BYTES → Bool

/-- `FlashSector0[k] = 1`. -/
def Sector.mark (t : Sector) (k : Nat) : Sector := fun j => if j.val = k then true else t j

/-- `FlashAllocateByte`: the result, the pointer afterwards, the table afterwards. -/
def flashAllocateByte (FlashSector0 : Sector) : Option (Bool × uint32_t × Sector) :=
  match (List.finRange NB_BYTES).find? fun i => FlashSector0 i == false with
  | some i => some (true, FLASH_DATA_START + BitVec.ofNat 32 i, FlashSector0.mark i.val)
  | none => none

/-- `FlashAllocateHalfWord`; it does not look at the odd byte. -/
def flashAllocateHalfWord (FlashSector0 : Sector) : Option (Bool × uint32_t × Sector) :=
  match (List.finRange NB_BYTES).find? fun i => FlashSector0 i == false && i.val % 2 == 0 with
  | some i => some (true, FLASH_DATA_START + BitVec.ofNat 32 i,
      (FlashSector0.mark i.val).mark (i.val + 1))
  | none => none

/-- `Flash::AllocateVar`, for a pointer that holds `pointer`. -/
def allocateVar (pointer : uint32_t) (size : uint8_t) (FlashSector0 : Sector) :
    Option (Bool × uint32_t × Sector) :=
  if size = 1 then flashAllocateByte FlashSector0
  else if size = 2 then flashAllocateHalfWord FlashSector0
  else some (false, pointer, FlashSector0)

/-! ## Sequences of calls -/

/-- The table at power-up. -/
def Sector.free : Sector := fun _ => false

/-- A call of `AllocateVar`: what the caller's pointer holds, and the size it asks for. -/
structure Request where
  pointer : uint32_t
  size : uint8_t
  deriving DecidableEq, Repr

/-- The address range of a variable. -/
structure Variable where
  address : uint32_t
  size : uint8_t
  deriving DecidableEq, Repr

/-- A call, with the variable the caller has if it returns true. One that returns nothing has
written nothing. -/
def request (c : Request) (t : Sector) : Option Variable × Sector :=
  match allocateVar c.pointer c.size t with
  | some (true, pointer, t') => (some ⟨pointer, c.size⟩, t')
  | some (false, _, t') => (none, t')
  | none => (none, t)

/-- The table after the calls, from power-up. -/
def table (cs : List Request) : Sector := Lib.Machine.final request Sector.free cs

/-- The variables that the calls have handed out, in order. -/
def handedOut (cs : List Request) : List Variable :=
  (Lib.Machine.answers request Sector.free cs).reduceOption

end Flash
