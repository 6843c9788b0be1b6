import IdmtRelay.Flash.Proof.Store
import IdmtRelay.Flash.Steps

/-!
# Which commands run, and what the driver reports

The record that `LaunchCommand` keeps says which commands a call has launched (`launchesOf`). A
command starts with the registers loaded from the object, or, when the flags of an earlier error are
set, with the registers as they were, because the branch that clears the flags replaces the one that
loads the registers (`launchCommand_launched`). So a new command is executed exactly when no error
is left over or the registers happen to hold it already (`commands_iff`).

No write and no erase ever returns false, so what they report is true exactly for aligned addresses
and a controller that ends every command without an error (`truthful_iff`).
-/

namespace Flash

/-! ## Commands -/

/-- A command of the controller with its arguments. -/
inductive Command
  | erase (address : uint32_t)
  | program (address : uint32_t) (data : Block)
  | other (code : uint8_t)

def Command.of (code : uint8_t) (address : uint32_t) (data : Block) : Command :=
  if code = CMD_ERASEFLASHSECTOR then .erase address
  else if code = CMD_PROGRAMPHRASE then .program address data
  else .other code

/-- The bytes in the data registers, in the order in which Program Phrase stores them. -/
def FTFE.data (f : FTFE) : Block
  | 0 => f.FCCOB7
  | 1 => f.FCCOB6
  | 2 => f.FCCOB5
  | 3 => f.FCCOB4
  | 4 => f.FCCOBB
  | 5 => f.FCCOBA
  | 6 => f.FCCOB9
  | 7 => f.FCCOB8

/-- The command in the registers. -/
def FTFE.command (f : FTFE) : Command := .of f.FCCOB0 f.address f.data

def TFCCOB.address (o : TFCCOB) : uint32_t :=
  uint32union (uint16union o.fccob3 o.fccob2) (uint16union o.fccob1 0#8)

/-- The command the object asks for. -/
def TFCCOB.command (o : TFCCOB) : Command := .of o.fccob0 o.address o.data

/-- The registers hold the code and the address of the object. -/
def FTFE.Carries (f : FTFE) (o : TFCCOB) : Prop :=
  f.FCCOB0 = o.fccob0 ∧ f.FCCOB1 = o.fccob1 ∧ f.FCCOB2 = o.fccob2 ∧ f.FCCOB3 = o.fccob3

/-- The three address bytes of a command hold the low 24 bits. -/
theorem address_bytes (a : uint32_t) :
    uint32union (uint16union a.lo16.lo8 a.lo16.hi8) (uint16union a.hi16.lo8 0#8) =
      a &&& 0x00FFFFFF#32 := by
  have hmask : ∀ i < 32, (0x00FFFFFF#32).getLsbD i = decide (i < 24) := by decide
  apply BitVec.eq_of_getLsbD_eq
  intro i hi
  rw [BitVec.getLsbD_and, hmask i hi]
  simp only [uint32union, uint16union, Lib.Word.join, BitVec.lo8, BitVec.hi8, BitVec.lo16,
    BitVec.hi16, Lib.Word.hi, Lib.Word.lo, BitVec.getLsbD_append, BitVec.getLsbD_extractLsb',
    BitVec.getLsbD_zero]
  grind

theorem erase_command (o : TFCCOB) (address : uint32_t) :
    (o.erase address).command = .erase (address &&& 0x00FFFFFF#32) := by
  rw [← address_bytes]
  rfl

theorem program_data (address : uint32_t) (phrase : uint64_t) :
    (TFCCOB.program address phrase).data = bytes phrase := by
  funext i
  match i with
  | 0 | 1 | 2 | 3 | 4 | 5 | 6 | 7 => rfl

theorem program_command (address : uint32_t) (phrase : uint64_t) :
    (TFCCOB.program address phrase).command =
      .program (address &&& 0x00FFFFFF#32) (bytes phrase) := by
  rw [← address_bytes, ← program_data address]
  rfl

/-! ## The command that is launched -/

/-- The commands launched between `s` and `s'`. -/
def launchesOf (s s' : State) : List Launch := s'.launches.drop s.launches.length

theorem launchesOf_eq {s s' : State} {ls : List Launch} (h : s'.launches = s.launches ++ ls) :
    launchesOf s s' = ls := by
  rw [launchesOf, h, List.drop_left]

/-- The controller when `LaunchCommand` starts it. -/
def launched (s : State) : FTFE :=
  if s.ftfe.Failed then { s.ftfe.awaitCCIF with FSTAT := s.ftfe.awaitCCIF.FSTAT &&& ~~~0x30#8 }
  else loaded s

/-- **What `LaunchCommand` does**, whatever the controller then does. -/
theorem launchCommand_launched (launch : FTFE → FTFE) (s : State) :
    launchCommand launch s = (true, { s with
      ftfe := (launch (launched s)).awaitCCIF
      launches := s.launches ++ [⟨launched s, (launch (launched s)).awaitCCIF⟩] }) := by
  by_cases h : s.ftfe.Failed
  · have hf : s.ftfe.awaitCCIF.Failed := (FTFE.failed_awaitCCIF _).2 h
    simp only [launchCommand, launched, if_pos hf, if_pos h, FTFE.writeFSTAT_CCIF]
    rfl
  · rw [launchCommand_eq h, launched, if_neg h]

/-- It launches one command. -/
theorem launchCommand_launches (launch : FTFE → FTFE) (s : State) :
    launchesOf s (launchCommand launch s).2 =
      [⟨launched s, (launch (launched s)).awaitCCIF⟩] :=
  launchesOf_eq (by rw [launchCommand_launched])

theorem launched_carries_iff (s : State) :
    (launched s).Carries s.obj ↔ ¬ s.ftfe.Failed ∨ s.ftfe.Carries s.obj := by
  by_cases h : s.ftfe.Failed
  · rw [launched, if_pos h, or_iff_right (not_not_intro h)]
    rfl
  · rw [launched, if_neg h]
    exact iff_of_true ⟨rfl, rfl, rfl, rfl⟩ (.inl h)

/-- After an error the command that the registers hold is launched. -/
theorem launched_stale {s : State} (h : s.ftfe.Failed) :
    (launched s).command = s.ftfe.command := by
  rw [launched, if_pos h]
  rfl

/-- Without an error it is the object's command, with the data bytes in the wrong order. -/
theorem launched_loaded {s : State} (h : ¬ s.ftfe.Failed) :
    (launched s).command = .of s.obj.fccob0 s.obj.address (permuted s.obj.data) := by
  have hdata : (loaded s).data = permuted s.obj.data := by
    funext i
    match i with
    | 0 | 1 | 2 | 3 | 4 | 5 | 6 | 7 => rfl
  rw [launched, if_neg h, FTFE.command, hdata]
  rfl

theorem Command.of_eq_iff {code : uint8_t} {address : uint32_t} {d d' : Block} :
    Command.of code address d = .of code address d' ↔ (code = CMD_PROGRAMPHRASE → d = d') := by
  unfold Command.of
  split
  · rename_i hc
    exact iff_of_true rfl fun hp => absurd (hc.symm.trans hp) (by decide)
  · split
    · rename_i hp
      simp [hp]
    · rename_i hp
      exact iff_of_true rfl fun h => absurd h hp

/-- **When the object's command is the one launched.** -/
theorem launched_command_iff (s : State) :
    (launched s).command = s.obj.command ↔
      if s.ftfe.Failed then s.ftfe.command = s.obj.command
      else s.obj.fccob0 = CMD_PROGRAMPHRASE → Fixed s.obj.data := by
  by_cases h : s.ftfe.Failed
  · rw [if_pos h, launched_stale h]
  · rw [if_neg h, launched_loaded h, TFCCOB.command, Command.of_eq_iff, permuted_eq_iff]

/-! ## The commands of a call -/

/-- The controller when the command of `EraseSector` starts. -/
def eraseStart (address : uint32_t) (s : State) : FTFE :=
  launched { s with obj := s.obj.erase address }

/-- The controller when the second command of `WritePhrase` starts, if the first ended with `f`. -/
def programStart (address : uint32_t) (phrase : uint64_t) (f : FTFE) : FTFE :=
  launched { obj := .program address phrase, ftfe := f.awaitCCIF }

theorem eraseStart_command_iff (address : uint32_t) (s : State) :
    (eraseStart address s).command = .erase (address &&& 0x00FFFFFF#32) ↔
      (s.ftfe.Failed → s.ftfe.command = .erase (address &&& 0x00FFFFFF#32)) := by
  have herase : (s.obj.erase address).fccob0 ≠ CMD_PROGRAMPHRASE := by
    show CMD_ERASEFLASHSECTOR ≠ CMD_PROGRAMPHRASE
    decide
  rw [← erase_command s.obj, eraseStart, launched_command_iff { s with obj := s.obj.erase address }]
  split
  · exact ⟨fun h _ => h, fun h => h ‹_›⟩
  · exact iff_of_true (fun h => absurd h herase) fun h => absurd h ‹_›

theorem programStart_command_iff (address : uint32_t) (phrase : uint64_t) (f : FTFE) :
    (programStart address phrase f).command =
        .program (address &&& 0x00FFFFFF#32) (bytes phrase) ↔
      if f.Failed then f.command = .program (address &&& 0x00FFFFFF#32) (bytes phrase)
      else Fixed (bytes phrase) := by
  have hprogram : (TFCCOB.program address phrase).fccob0 = CMD_PROGRAMPHRASE := rfl
  rw [← program_command, programStart,
    launched_command_iff { obj := .program address phrase, ftfe := f.awaitCCIF }]
  simp only [FTFE.failed_awaitCCIF, hprogram, program_data, true_implies]
  rfl

section
variable (launch : FTFE → FTFE)

theorem eraseSector_launches (address : uint32_t) (s : State) :
    launchesOf s (eraseSector launch address s).2 =
      [⟨eraseStart address s, (launch (eraseStart address s)).awaitCCIF⟩] :=
  launchCommand_launches launch { s with obj := s.obj.erase address }

/-- **`WritePhrase` launches two commands**, whatever becomes of the first. -/
theorem writePhrase_launches (address : uint32_t) (phrase : uint64_t) (s : State) :
    launchesOf s (writePhrase launch address phrase s).2 =
      let f := launch (eraseStart FLASH_DATA_START s)
      let g := launch (programStart address phrase f)
      [⟨eraseStart FLASH_DATA_START s, f.awaitCCIF⟩,
        ⟨programStart address phrase f, g.awaitCCIF⟩] := by
  apply launchesOf_eq
  rw [writePhrase_eq, programPhrase, launchCommand_launched, eraseSector, launchCommand_launched]
  exact List.append_assoc ..

/-- The commands `WritePhrase` is to run: an erase of the sector, and a program of the phrase. An
address has 24 bits in a command. -/
def requested (address : uint32_t) (phrase : uint64_t) : List Command :=
  [.erase FLASH_DATA_START, .program (address &&& 0x00FFFFFF#32) (bytes phrase)]

/-- The commands it runs. -/
def performed (address : uint32_t) (phrase : uint64_t) (s : State) : List Command :=
  (launchesOf s (writePhrase launch address phrase s).2).map (·.start.command)

/-- **A new command is the one executed** exactly where no error is left over or the registers hold
it already; the phrase programmed is the requested one where, besides, its bytes survive the order
in which `LaunchCommand` copies them. -/
theorem commands_iff :
    (∀ s, ∃ l, launchesOf s (launchCommand launch s).2 = [l] ∧
      (l.start.Carries s.obj ↔ ¬ s.ftfe.Failed ∨ s.ftfe.Carries s.obj)) ∧
    (∀ address s, (launchesOf s (eraseSector launch address s).2).map (·.start.command) =
        [.erase (address &&& 0x00FFFFFF#32)] ↔
      (s.ftfe.Failed → s.ftfe.command = .erase (address &&& 0x00FFFFFF#32))) ∧
    ∀ address phrase s, performed launch address phrase s = requested address phrase ↔
      (s.ftfe.Failed → s.ftfe.command = .erase FLASH_DATA_START) ∧
      let f := launch (eraseStart FLASH_DATA_START s)
      if f.Failed then f.command = .program (address &&& 0x00FFFFFF#32) (bytes phrase)
      else Fixed (bytes phrase) := by
  refine ⟨fun s => ⟨_, launchCommand_launches launch s, launched_carries_iff s⟩,
    fun address s => ?_, fun address phrase s => ?_⟩
  · rw [eraseSector_launches, List.map_singleton, List.singleton_inj]
    exact eraseStart_command_iff address s
  · have hstart : FLASH_DATA_START &&& 0x00FFFFFF#32 = FLASH_DATA_START := by decide
    have herase := eraseStart_command_iff FLASH_DATA_START s
    rw [hstart] at herase
    simp only [performed, requested, writePhrase_launches, List.map_cons, List.map_nil,
      List.cons.injEq, and_true]
    exact and_congr herase (programStart_command_iff address phrase _)

end

/-- A controller with `ACCERR` left over and Program Phrase in its registers, asked for an erase. -/
def afterError : State where
  obj := (idle fun _ => 0#8).obj.erase FLASH_DATA_START
  ftfe := { (idle fun _ => 0#8).ftfe with
    FSTAT := FTFE_FSTAT_CCIF_MASK ||| FTFE_FSTAT_ACCERR_MASK
    FCCOB0 := CMD_PROGRAMPHRASE
    FCCOB1 := 0x08#8 }

/-- The old program command runs in place of the erase, and the new phrase is programmed into a
block that was never erased. -/
theorem stale_command : afterError.obj.fccob0 = CMD_ERASEFLASHSECTOR ∧
    (∃ l, launchesOf afterError (launchCommand k70 afterError).2 = [l] ∧
      l.start.FCCOB0 = CMD_PROGRAMPHRASE ∧ ¬ l.start.Carries afterError.obj) ∧
    ∀ phrase, performed k70 FLASH_DATA_START phrase afterError ≠
      requested FLASH_DATA_START phrase := by
  refine ⟨rfl, ⟨_, rfl, rfl, fun h => absurd h.1 (by decide)⟩, fun phrase h => ?_⟩
  rw [performed, writePhrase_launches] at h
  have hhead : (eraseStart FLASH_DATA_START afterError).command = .erase FLASH_DATA_START :=
    (List.cons.inj h).1
  rw [eraseStart, launched_stale (by decide)] at hhead
  cases hhead

/-! ## What the driver reports -/

/-- A call of the driver with any address. -/
inductive Call
  | erase
  | write8 (address : uint32_t) (data : uint8_t)
  | write16 (address : uint32_t) (data : uint16_t)
  | write32 (address : uint32_t) (data : uint32_t)

/-- The address is aligned as `Flash.h` asks. -/
def Call.Aligned : Call → Prop
  | .erase | .write8 _ _ => True
  | .write16 address _ => address.toNat % 2 = 0
  | .write32 address _ => address.toNat % 4 = 0

/-- The address and the phrase that a write programs. -/
def Call.phrase : Call → State → Option (uint32_t × uint64_t)
  | .erase, _ => none
  | .write8 address data, s => some (phrase8 address data s)
  | .write16 address data, s => some (phrase16 address data s)
  | .write32 address data, s => some (phrase32 address data s)

section
variable (launch : FTFE → FTFE)

def Call.run : Call → State → Bool × State
  | .erase, s => Flash.erase launch s
  | .write8 address data, s => Flash.write8 launch address data s
  | .write16 address data, s => Flash.write16 launch address data s
  | .write32 address data, s => Flash.write32 launch address data s

/-- The commands that the call launches. -/
def Call.launches (c : Call) (s : State) : List Launch := launchesOf s (c.run launch s).2

/-- The result of the call is what `Flash.h` says: false and nothing written for an address that is
not aligned, and true only when no command of the call failed. -/
def Call.Truthful (c : Call) (s : State) : Prop :=
  (¬ c.Aligned → (c.run launch s).1 = false ∧ (c.run launch s).2.ftfe.mem = s.ftfe.mem) ∧
    ((c.run launch s).1 = true → ∀ l ∈ c.launches launch s, ¬ l.stop.Failed)

/-- The controller carries out the erase that it is started with, and for a write then the program
of the phrase. -/
def Call.Succeeds (c : Call) (s : State) : Prop :=
  let f := launch (eraseStart FLASH_DATA_START s)
  ¬ f.Failed ∧ ∀ address phrase, c.phrase s = some (address, phrase) →
    ¬ (launch (loaded { obj := .program address phrase, ftfe := f.awaitCCIF })).Failed

/-- A write is a call of `WritePhrase`. -/
theorem Call.run_phrase {c : Call} {s : State} {address : uint32_t} {phrase : uint64_t}
    (h : c.phrase s = some (address, phrase)) :
    c.run launch s = writePhrase launch address phrase s := by
  cases c with
  | erase => cases h
  | write8 a d => rw [Call.run, write8_eq, Option.some.inj h]
  | write16 a d => rw [Call.run, write16_eq, Option.some.inj h]
  | write32 a d => rw [Call.run, write32_eq, Option.some.inj h]

theorem Call.run_erase {c : Call} {s : State} (h : c.phrase s = none) :
    c.run launch s = eraseSector launch FLASH_DATA_START s := by
  cases c with
  | erase => rfl
  | write8 a d => cases h
  | write16 a d => cases h
  | write32 a d => cases h

/-- No call returns false. -/
theorem Call.run_true (c : Call) (s : State) : (c.run launch s).1 = true := by
  cases hp : c.phrase s with
  | none =>
    rw [c.run_erase launch hp, eraseSector, launchCommand_launched]
  | some p =>
    rw [c.run_phrase launch hp, writePhrase_eq]

/-- **The commands of a call end without an error** exactly if the controller carries them out. -/
theorem Call.ends_iff (c : Call) (s : State) :
    (∀ l ∈ c.launches launch s, ¬ l.stop.Failed) ↔ c.Succeeds launch s := by
  unfold Call.launches Call.Succeeds
  cases hp : c.phrase s with
  | none =>
    rw [c.run_erase launch hp, eraseSector_launches]
    simp
  | some p =>
    obtain ⟨address, phrase⟩ := p
    rw [c.run_phrase launch hp, writePhrase_launches]
    simp only [List.forall_mem_cons, FTFE.failed_awaitCCIF]
    refine and_congr_right fun hf => ?_
    have hstart : programStart address phrase _ = loaded _ :=
      if_neg (mt (FTFE.failed_awaitCCIF _).1 hf)
    rw [hstart]
    simp

/-- **The results are truthful exactly for aligned addresses and a controller that carries out the
commands.** -/
theorem Call.truthful_iff (c : Call) (s : State) :
    c.Truthful launch s ↔ c.Aligned ∧ c.Succeeds launch s := by
  have ht := c.run_true launch s
  have hends := c.ends_iff launch s
  constructor
  · intro ⟨hmis, hok⟩
    refine ⟨?_, hends.1 (hok ht)⟩
    by_contra ha
    exact absurd (ht.symm.trans (hmis ha).1) (by decide)
  · intro ⟨ha, hok⟩
    exact ⟨fun hmis => absurd ha hmis, fun _ => hends.2 hok⟩

end

/-- `Write16` at the odd address `FLASH_DATA_START + 1` returns true and has erased the trip count
in bytes 2 and 3; `Erase` returns true when the controller refuses the command. -/
theorem untruthful :
    ((Call.write16 0x80001#32 0x1234#16).run k70 (idle counted)).1 = true ∧
    (idle counted).block 2 = 0x05#8 ∧
    ((Call.write16 0x80001#32 0x1234#16).run k70 (idle counted)).2.block 2 = 0xFF#8 ∧
    ¬ (Call.write16 0x80001#32 0x1234#16).Truthful k70 (idle counted) ∧
    (Call.erase.run (fun f => { f with FSTAT := FTFE_FSTAT_ACCERR_MASK }) (idle counted)).1 = true ∧
    ¬ Call.erase.Truthful (fun f => { f with FSTAT := FTFE_FSTAT_ACCERR_MASK }) (idle counted) := by
  refine ⟨rfl, rfl, by decide, ?_, rfl, ?_⟩
  · have hodd : ¬ (0x80001#32).toNat % 2 = 0 := by decide
    exact fun h => absurd (h.1 hodd).1 (by decide)
  · exact fun h => absurd (h.2 rfl _ (List.mem_singleton_self _)) (by decide)

end Flash
