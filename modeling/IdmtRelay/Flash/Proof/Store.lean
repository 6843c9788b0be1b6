import IdmtRelay.Flash.Steps
import IdmtRelay.Flash.Store
import Mathlib.Tactic.FinCases

/-!
# What the flash block holds after a run of writes

The nested read-modify-write of `Write8`, `Write16` and `Write32` builds the intended phrase
(`phrase8_spec`, `phrase16_spec`, `phrase32_spec`), but `LaunchCommand` copies the upper six of its
bytes to the wrong `FCCOB` registers: what is programmed is `permuted` of the intended
block (`block_exec`). A run of calls reads back as written exactly as long as every intended content
is a fixed point of that permutation (`store_iff`).
-/

namespace Flash

open Lib.Store

/-- The eight bytes of a phrase. -/
def bytes (p : uint64_t) : Block
  | 0 => p.lo32.lo16.lo8
  | 1 => p.lo32.lo16.hi8
  | 2 => p.lo32.hi16.lo8
  | 3 => p.lo32.hi16.hi8
  | 4 => p.hi32.lo16.lo8
  | 5 => p.hi32.lo16.hi8
  | 6 => p.hi32.hi16.lo8
  | 7 => p.hi32.hi16.hi8

/-- What the block holds after `WritePhrase` of a phrase with the bytes `m`. -/
def permuted (m : Block) : Block
  | 0 => m 0
  | 1 => m 1
  | 2 => m 6
  | 3 => m 7
  | 4 => m 5
  | 5 => m 4
  | 6 => m 3
  | 7 => m 2

/-- A block that survives `WritePhrase`: bytes 2, 3, 6, 7 equal and bytes 4, 5 equal. -/
def Fixed (m : Block) : Prop := m 2 = m 3 ∧ m 3 = m 6 ∧ m 6 = m 7 ∧ m 4 = m 5

instance (m : Block) : Decidable (Fixed m) := inferInstanceAs (Decidable (_ ∧ _))

theorem permuted_eq_iff {m : Block} : permuted m = m ↔ Fixed m := by
  constructor
  · intro h
    have h2 : m 6 = m 2 := congrFun h 2
    have h3 : m 7 = m 3 := congrFun h 3
    have h4 : m 5 = m 4 := congrFun h 4
    have h6 : m 3 = m 6 := congrFun h 6
    have h23 : m 2 = m 3 := (h6.trans h2).symm
    exact ⟨h23, h6, (h2.trans h23).trans h3.symm, h4.symm⟩
  · intro ⟨h23, h36, h67, h45⟩
    funext i
    match i with
    | 0 => rfl
    | 1 => rfl
    | 2 => exact (h23.trans h36).symm
    | 3 => exact (h36.trans h67).symm
    | 4 => exact h45.symm
    | 5 => exact h45
    | 6 => exact h36
    | 7 => exact h23.trans (h36.trans h67)

theorem permuted_const (v : uint8_t) : permuted (fun _ => v) = fun _ => v :=
  permuted_eq_iff.2 ⟨rfl, rfl, rfl, rfl⟩

/-! ## Addresses of the block -/

theorem address_toNat {n : Nat} (h : n < 8) :
    (FLASH_DATA_START + BitVec.ofNat 32 n).toNat = 0x80000 + n := by
  rw [BitVec.toNat_add, Base.toNat_ofNat_of_lt (by omega)]
  simp only [FLASH_DATA_START, BitVec.toNat_ofNat]
  omega

theorem address_add (n d : Nat) : FLASH_DATA_START + BitVec.ofNat 32 n + BitVec.ofNat 32 d =
    FLASH_DATA_START + BitVec.ofNat 32 (n + d) := by
  rw [BitVec.ofNat_add, BitVec.add_assoc]

theorem address_sub (n d : Nat) : FLASH_DATA_START + BitVec.ofNat 32 (n + d) - BitVec.ofNat 32 d =
    FLASH_DATA_START + BitVec.ofNat 32 n := by
  rw [← address_add, BitVec.add_sub_cancel]

theorem State.FB_address (s : State) (j : Fin 8) {n : Nat} (h : j.val = n) :
    s.FB (FLASH_DATA_START + BitVec.ofNat 32 n) = s.block j := by
  rw [← h]
  rfl

theorem State.FH_address (s : State) (n : Nat) : s.FH (FLASH_DATA_START + BitVec.ofNat 32 n) =
    uint16union (s.FB (FLASH_DATA_START + BitVec.ofNat 32 n))
      (s.FB (FLASH_DATA_START + BitVec.ofNat 32 (n + 1))) := by
  rw [State.FH, ← address_add]

/-! ## The nested read-modify-write

Each layer passes the enclosing unit to the next, completed with the neighbour it reads from flash:
the wider write leaves the same block. -/

section
variable (s : State)

/-- **`Write32` builds the right phrase.** -/
theorem phrase32_spec (i : Fin 2) (v : uint32_t) : ∃ p,
    phrase32 (FLASH_DATA_START + BitVec.ofNat 32 (4 * i)) v s = (FLASH_DATA_START, p) ∧
    bytes p = overwrite Op.byte (.write32 i v) s.block := by
  match i with
  | 0 =>
    refine ⟨uint64union v (s.FW (FLASH_DATA_START + 4#32)), rfl, ?_⟩
    funext j
    fin_cases j <;> simp [bytes, overwrite, Op.byte, State.FW, State.FH, State.FB, State.block,
      FTFE.block, FLASH_DATA_START]
  | 1 =>
    refine ⟨uint64union (s.FW FLASH_DATA_START) v, rfl, ?_⟩
    funext j
    fin_cases j <;> simp [bytes, overwrite, Op.byte, State.FW, State.FH, State.FB, State.block,
      FTFE.block, FLASH_DATA_START]

theorem phrase16_phrase32 (i : Fin 4) (v : uint16_t) : ∃ k w,
    phrase16 (FLASH_DATA_START + BitVec.ofNat 32 (2 * i)) v s =
      phrase32 (FLASH_DATA_START + BitVec.ofNat 32 (4 * (k : Fin 2))) w s ∧
    overwrite Op.byte (.write32 k w) s.block = overwrite Op.byte (.write16 i v) s.block := by
  have ha := address_toNat (n := 2 * i) (by omega)
  have hread := fun (j : Fin 8) (n : Nat) => s.FB_address j (n := n)
  obtain ⟨k, hk | hk⟩ : ∃ k : Fin 2, 2 * i.val = 4 * k ∨ 2 * i.val = 4 * k + 2 :=
    ⟨⟨i / 2, by omega⟩, by show 2 * i.val = 4 * (i.val / 2) ∨ _ = 4 * (i.val / 2) + 2; omega⟩
  · refine ⟨k, uint32union v (s.FH (FLASH_DATA_START + BitVec.ofNat 32 (4 * k + 2))), ?_, ?_⟩
    · rw [phrase16, if_pos (by omega), hk, ← address_add]
    · apply overwrite_completed
      intro j
      simp only [Op.byte, State.FH_address, BitVec.lo8_uint16union, BitVec.hi8_uint16union,
        BitVec.lo16_uint32union, BitVec.hi16_uint32union]
      grind
  · refine ⟨k, uint32union (s.FH (FLASH_DATA_START + BitVec.ofNat 32 (4 * k))) v, ?_, ?_⟩
    · rw [phrase16, if_neg (by omega), hk, address_sub]
    · apply overwrite_completed
      intro j
      simp only [Op.byte, State.FH_address, BitVec.lo8_uint16union, BitVec.hi8_uint16union,
        BitVec.lo16_uint32union, BitVec.hi16_uint32union]
      grind

theorem phrase8_phrase16 (i : Fin 8) (v : uint8_t) : ∃ k w,
    phrase8 (FLASH_DATA_START + BitVec.ofNat 32 i) v s =
      phrase16 (FLASH_DATA_START + BitVec.ofNat 32 (2 * (k : Fin 4))) w s ∧
    overwrite Op.byte (.write16 k w) s.block = overwrite Op.byte (.write8 i v) s.block := by
  have ha := address_toNat i.isLt
  have hread := fun (j : Fin 8) (n : Nat) => s.FB_address j (n := n)
  obtain ⟨k, hk | hk⟩ : ∃ k : Fin 4, i.val = 2 * k ∨ i.val = 2 * k + 1 :=
    ⟨⟨i / 2, by omega⟩, by show i.val = 2 * (i.val / 2) ∨ _ = 2 * (i.val / 2) + 1; omega⟩
  · refine ⟨k, uint16union v (s.FB (FLASH_DATA_START + BitVec.ofNat 32 (2 * k + 1))), ?_, ?_⟩
    · rw [phrase8, if_pos (by omega), hk, ← address_add]
    · apply overwrite_completed
      intro j
      simp only [Op.byte, BitVec.lo8_uint16union, BitVec.hi8_uint16union]
      grind
  · refine ⟨k, uint16union (s.FB (FLASH_DATA_START + BitVec.ofNat 32 (2 * k))) v, ?_, ?_⟩
    · rw [phrase8, if_neg (by omega), hk, address_sub]
    · apply overwrite_completed
      intro j
      simp only [Op.byte, BitVec.lo8_uint16union, BitVec.hi8_uint16union]
      grind

/-- **`Write16` builds the right phrase.** -/
theorem phrase16_spec (i : Fin 4) (v : uint16_t) : ∃ p,
    phrase16 (FLASH_DATA_START + BitVec.ofNat 32 (2 * i)) v s = (FLASH_DATA_START, p) ∧
    bytes p = overwrite Op.byte (.write16 i v) s.block := by
  obtain ⟨k, w, h, hblock⟩ := phrase16_phrase32 s i v
  obtain ⟨p, hp, hb⟩ := phrase32_spec s k w
  exact ⟨p, h.trans hp, hb.trans hblock⟩

/-- **`Write8` builds the right phrase.** -/
theorem phrase8_spec (i : Fin 8) (v : uint8_t) : ∃ p,
    phrase8 (FLASH_DATA_START + BitVec.ofNat 32 i) v s = (FLASH_DATA_START, p) ∧
    bytes p = overwrite Op.byte (.write8 i v) s.block := by
  obtain ⟨k, w, h, hblock⟩ := phrase8_phrase16 s i v
  obtain ⟨p, hp, hb⟩ := phrase16_spec s k w
  exact ⟨p, h.trans hp, hb.trans hblock⟩

/-- **Every write is one call of `WritePhrase` with the intended block**, whatever the commands it
launches do. -/
theorem writes_writePhrase :
    (∀ (i : Fin 8) (v : uint8_t), ∃ p, bytes p = overwrite Op.byte (.write8 i v) s.block ∧
      ∀ launch, write8 launch (FLASH_DATA_START + BitVec.ofNat 32 i) v s =
        writePhrase launch FLASH_DATA_START p s) ∧
    (∀ (i : Fin 4) (v : uint16_t), ∃ p, bytes p = overwrite Op.byte (.write16 i v) s.block ∧
      ∀ launch, write16 launch (FLASH_DATA_START + BitVec.ofNat 32 (2 * i)) v s =
        writePhrase launch FLASH_DATA_START p s) ∧
    ∀ (i : Fin 2) (v : uint32_t), ∃ p, bytes p = overwrite Op.byte (.write32 i v) s.block ∧
      ∀ launch, write32 launch (FLASH_DATA_START + BitVec.ofNat 32 (4 * i)) v s =
        writePhrase launch FLASH_DATA_START p s := by
  refine ⟨fun i v => ?_, fun i v => ?_, fun i v => ?_⟩
  · obtain ⟨p, hp, hb⟩ := phrase8_spec s i v
    exact ⟨p, hb, fun launch => by rw [write8_eq, hp]⟩
  · obtain ⟨p, hp, hb⟩ := phrase16_spec s i v
    exact ⟨p, hb, fun launch => by rw [write16_eq, hp]⟩
  · obtain ⟨p, hp, hb⟩ := phrase32_spec s i v
    exact ⟨p, hb, fun launch => by rw [write32_eq, hp]⟩

end

/-! ## The commands -/

/-- The registers as `LaunchCommand` fills them. -/
def loaded (s : State) : FTFE :=
  { s.ftfe.awaitCCIF with
    FCCOB0 := s.obj.fccob0
    FCCOB1 := s.obj.fccob1
    FCCOB2 := s.obj.fccob2
    FCCOB3 := s.obj.fccob3
    FCCOB4 := s.obj.fccobB
    FCCOB5 := s.obj.fccobA
    FCCOB6 := s.obj.fccob5
    FCCOB7 := s.obj.fccob4
    FCCOB8 := s.obj.fccob6
    FCCOB9 := s.obj.fccob7
    FCCOBA := s.obj.fccob8
    FCCOBB := s.obj.fccob9 }

section
variable {launch : FTFE → FTFE}

theorem launchCommand_eq {s : State} (h : ¬ s.ftfe.Failed) :
    launchCommand launch s = (true, { s with
      ftfe := (launch (loaded s)).awaitCCIF
      launches := s.launches ++ [⟨loaded s, (launch (loaded s)).awaitCCIF⟩] }) := by
  have hf : ¬ s.ftfe.awaitCCIF.Failed := mt (FTFE.failed_awaitCCIF _).1 h
  simp only [launchCommand, if_neg hf, FTFE.writeFSTAT_CCIF]
  rfl

theorem launch_erase (hl : Ideal launch) {s : State} (h : ¬ s.ftfe.Failed)
    (hc : s.obj.fccob0 = CMD_ERASEFLASHSECTOR) (ha : (loaded s).address = FLASH_DATA_START) :
    (launchCommand launch s).1 = true ∧ (∀ i, (launchCommand launch s).2.block i = 0xFF#8) ∧
    ¬ (launchCommand launch s).2.ftfe.Failed := by
  rw [launchCommand_eq h]
  obtain ⟨hff, hok⟩ := hl.erase (loaded s) hc ha (mt (FTFE.failed_awaitCCIF _).1 h)
  exact ⟨rfl, hff, mt (FTFE.failed_awaitCCIF _).1 hok⟩

/-- The data bytes of the object in phrase order. -/
def TFCCOB.data (o : TFCCOB) : Block
  | 0 => o.fccob4
  | 1 => o.fccob5
  | 2 => o.fccob6
  | 3 => o.fccob7
  | 4 => o.fccob8
  | 5 => o.fccob9
  | 6 => o.fccobA
  | 7 => o.fccobB

theorem launch_program (hl : Ideal launch) {s : State} (h : ¬ s.ftfe.Failed)
    (hc : s.obj.fccob0 = CMD_PROGRAMPHRASE) (ha : (loaded s).address = FLASH_DATA_START)
    (hff : ∀ i, s.block i = 0xFF#8) :
    (launchCommand launch s).2.block = permuted s.obj.data ∧
    ¬ (launchCommand launch s).2.ftfe.Failed := by
  rw [launchCommand_eq h]
  obtain ⟨h0, h1, h2, h3, h4, h5, h6, h7, hok⟩ :=
    hl.program (loaded s) hc ha (mt (FTFE.failed_awaitCCIF _).1 h) hff
  refine ⟨?_, mt (FTFE.failed_awaitCCIF _).1 hok⟩
  funext i
  match i with
  | 0 => exact h0
  | 1 => exact h1
  | 2 => exact h2
  | 3 => exact h3
  | 4 => exact h4
  | 5 => exact h5
  | 6 => exact h6
  | 7 => exact h7

theorem address_data_start : uint32union
    (uint16union FLASH_DATA_START.lo16.lo8 FLASH_DATA_START.lo16.hi8)
    (uint16union FLASH_DATA_START.hi16.lo8 0#8) = FLASH_DATA_START := by decide

theorem eraseSector_spec (hl : Ideal launch) {s : State} (h : ¬ s.ftfe.Failed) :
    (eraseSector launch FLASH_DATA_START s).1 = true ∧
    (∀ i, (eraseSector launch FLASH_DATA_START s).2.block i = 0xFF#8) ∧
    ¬ (eraseSector launch FLASH_DATA_START s).2.ftfe.Failed :=
  launch_erase hl h rfl address_data_start

theorem writePhrase_spec (hl : Ideal launch) {s : State} (h : ¬ s.ftfe.Failed) (p : uint64_t) :
    (writePhrase launch FLASH_DATA_START p s).2.block = permuted (bytes p) ∧
    ¬ (writePhrase launch FLASH_DATA_START p s).2.ftfe.Failed := by
  obtain ⟨h1, hff, hok⟩ := eraseSector_spec hl h
  simp only [writePhrase, h1, if_true]
  exact launch_program hl hok rfl address_data_start hff

/-- The states the driver is used in: no error is flagged. -/
def Ready (s : State) : Prop := ¬ s.ftfe.Failed

/-- **Every call programs the intended block permuted.** -/
theorem block_exec (hl : Ideal launch) (op : Op) (s : State) (h : Ready s) :
    (exec launch op s).block = permuted (overwrite Op.byte op s.block) ∧
    Ready (exec launch op s) := by
  cases op with
  | erase =>
    obtain ⟨-, hff, hok⟩ := eraseSector_spec hl h
    exact ⟨(funext hff).trans (permuted_const _).symm, hok⟩
  | write8 i v =>
    obtain ⟨p, hp, hb⟩ := phrase8_spec s i v
    simp only [exec, write8_eq, hp]
    rw [← hb]
    exact writePhrase_spec hl h p
  | write16 i v =>
    obtain ⟨p, hp, hb⟩ := phrase16_spec s i v
    simp only [exec, write16_eq, hp]
    rw [← hb]
    exact writePhrase_spec hl h p
  | write32 i v =>
    obtain ⟨p, hp, hb⟩ := phrase32_spec s i v
    simp only [exec, write32_eq, hp]
    rw [← hb]
    exact writePhrase_spec hl h p

end

/-! ## Runs -/

/-- **The block reads back as written, call after call, exactly while every intended content is
unchanged by the permutation.** -/
theorem store_iff (launch : FTFE → FTFE) (hl : Ideal launch) (s : State) (h : ¬ s.ftfe.Failed)
    (ops : List Op) :
    (∀ pre, pre <+: ops → (after launch s pre).block = reads s.block pre) ↔
      ∀ pre op, pre ++ [op] <+: ops → Fixed (reads s.block (pre ++ [op])) := by
  simp only [← permuted_eq_iff]
  exact follows_iff (fun op s hs => (block_exec hl op s hs).2)
    (fun op s hs => (block_exec hl op s hs).1) h ops

/-- A controller at rest over a block with the given bytes. -/
def idle (m : Block) : State where
  obj := ⟨0#8, 0#8, 0#8, 0#8, 0#8, 0#8, 0#8, 0#8, 0#8, 0#8, 0#8, 0#8⟩
  ftfe := {
    FSTAT := FTFE_FSTAT_CCIF_MASK
    FCCOB0 := 0#8
    FCCOB1 := 0#8
    FCCOB2 := 0#8
    FCCOB3 := 0#8
    FCCOB4 := 0#8
    FCCOB5 := 0#8
    FCCOB6 := 0#8
    FCCOB7 := 0#8
    FCCOB8 := 0#8
    FCCOB9 := 0#8
    FCCOBA := 0#8
    FCCOBB := 0#8
    mem := fun a => m (Fin.ofNat 8 a.toNat) }

theorem not_failed_idle (m : Block) : ¬ (idle m).ftfe.Failed := FTFE.not_failed_of_CCIF rfl

theorem store_iff_idle : (after k70 (idle fun _ => 0x12#8) [.write8 0 0x34#8]).block =
    reads (idle fun _ => 0x12#8).block [.write8 0 0x34#8] := by
  refine (store_iff k70 k70_ideal _ (not_failed_idle _) [.write8 0 0x34#8]).2 ?_ _ List.prefix_rfl
  intro pre op ⟨t, ht⟩
  cases pre with
  | nil =>
    obtain ⟨rfl, -⟩ : op = .write8 0 0x34#8 ∧ t = [] := by simpa using ht
    exact ⟨rfl, rfl, rfl, rfl⟩
  | cons => simp at ht

/-- The content with the trip count 5 in bytes 2 and 3. -/
def counted : Block
  | 2 => 0x05#8
  | 3 => 0x00#8
  | _ => 0xFF#8

/-- Setting byte 0, the setting, changes byte 2, the trip count. -/
theorem write8_clobbers : Ideal k70 ∧ ¬ (idle counted).ftfe.Failed ∧
    reads (idle counted).block [.write8 0 0x01#8] 2 = 0x05#8 ∧
    (after k70 (idle counted) [.write8 0 0x01#8]).block 2 = 0xFF#8 :=
  ⟨k70_ideal, not_failed_idle _, by decide, by decide⟩

end Flash
