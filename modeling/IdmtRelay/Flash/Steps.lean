import IdmtRelay.Flash.Flash

/-!
# The driver command by command

A write reads the neighbours of its value first; `phrase8`, `phrase16` and `phrase32` are the
address and the phrase it then passes to `WritePhrase` (`write8_eq`, `write16_eq`, `write32_eq`).
`WritePhrase` launches two commands, Erase Sector and Program Phrase. `Write` is a call of it in
progress, one command a step: other code runs between them.
-/

namespace Flash

/-- The address and the phrase `Write32` passes on. -/
def phrase32 (address data : uint32_t) (s : State) : uint32_t × uint64_t :=
  if address.toNat % 8 = 0 then (address, uint64union data (s.FW (address + 4#32)))
  else (address - 4#32, uint64union (s.FW (address - 4#32)) data)

/-- `Write16`, through `Write32`. -/
def phrase16 (address : uint32_t) (data : uint16_t) (s : State) : uint32_t × uint64_t :=
  if address.toNat % 4 = 0 then phrase32 address (uint32union data (s.FH (address + 2#32))) s
  else phrase32 (address - 2#32) (uint32union (s.FH (address - 2#32)) data) s

/-- `Write8`, through `Write16`. -/
def phrase8 (address : uint32_t) (data : uint8_t) (s : State) : uint32_t × uint64_t :=
  if address.toNat % 2 = 0 then phrase16 address (uint16union data (s.FB (address + 1#32))) s
  else phrase16 (address - 1#32) (uint16union (s.FB (address - 1#32)) data) s

/-- The object's bytes for Erase Sector; the data bytes keep what they were. -/
def TFCCOB.erase (o : TFCCOB) (address : uint32_t) : TFCCOB :=
  { o with
    fccob3 := address.lo16.lo8
    fccob2 := address.lo16.hi8
    fccob1 := address.hi16.lo8
    fccob0 := CMD_ERASEFLASHSECTOR }

/-- The object's bytes for Program Phrase. -/
def TFCCOB.program (address : uint32_t) (phrase : uint64_t) : TFCCOB where
  fccob3 := address.lo16.lo8
  fccob2 := address.lo16.hi8
  fccob1 := address.hi16.lo8
  fccob4 := phrase.lo32.lo16.lo8
  fccob5 := phrase.lo32.lo16.hi8
  fccob6 := phrase.lo32.hi16.lo8
  fccob7 := phrase.lo32.hi16.hi8
  fccob8 := phrase.hi32.lo16.lo8
  fccob9 := phrase.hi32.lo16.hi8
  fccobA := phrase.hi32.hi16.lo8
  fccobB := phrase.hi32.hi16.hi8
  fccob0 := CMD_PROGRAMPHRASE

section
variable (launch : FTFE → FTFE)

/-- The second command of `WritePhrase`. -/
def programPhrase (address : uint32_t) (phrase : uint64_t) (s : State) : State :=
  (launchCommand launch { s with obj := .program address phrase }).2

/-- `WritePhrase` ignores what both commands return, and so does every write. -/
theorem writePhrase_eq (address : uint32_t) (phrase : uint64_t) (s : State) :
    writePhrase launch address phrase s =
      (true, programPhrase launch address phrase (eraseSector launch FLASH_DATA_START s).2) := rfl

theorem write32_eq (address data : uint32_t) (s : State) : write32 launch address data s =
    writePhrase launch (phrase32 address data s).1 (phrase32 address data s).2 s := by
  unfold write32 phrase32
  split <;> rfl

theorem write16_eq (address : uint32_t) (data : uint16_t) (s : State) :
    write16 launch address data s =
      writePhrase launch (phrase16 address data s).1 (phrase16 address data s).2 s := by
  unfold write16 phrase16
  split <;> exact write32_eq launch _ _ s

theorem write8_eq (address : uint32_t) (data : uint8_t) (s : State) :
    write8 launch address data s =
      writePhrase launch (phrase8 address data s).1 (phrase8 address data s).2 s := by
  unfold write8 phrase8
  split <;> exact write16_eq launch _ _ s

/-- A call of `WritePhrase` in progress; `erased` when its first command has ended. -/
structure Write where
  address : uint32_t
  phrase : uint64_t
  erased : Bool
  deriving DecidableEq, Repr

/-- A call of `Write8` when it enters `WritePhrase`. -/
def Write.start8 (address : uint32_t) (data : uint8_t) (s : State) : Write :=
  ⟨(phrase8 address data s).1, (phrase8 address data s).2, false⟩

/-- The next command of the call. -/
def Write.step (w : Write) (s : State) : Option Write × State :=
  if w.erased then (none, programPhrase launch w.address w.phrase s)
  else (some { w with erased := true }, (eraseSector launch FLASH_DATA_START s).2)

/-- The two steps of a call are `Write8`. -/
theorem write8_steps (address : uint32_t) (data : uint8_t) (s : State) : ∃ w s₁,
    (Write.start8 address data s).step launch s = (some w, s₁) ∧
      w.step launch s₁ = (none, (write8 launch address data s).2) := by
  refine ⟨_, _, rfl, ?_⟩
  rw [write8_eq, writePhrase_eq]
  rfl

end

end Flash
