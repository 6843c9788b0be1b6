import IdmtRelay.Flash.Allocate
import IdmtRelay.Flash.Proof.Store
import IdmtRelay.Lib.Reserve
import Mathlib.Data.Set.Lattice
import Mathlib.Order.CompletePartialOrder
import Mathlib.Order.ConditionallyCompleteLattice.Basic
import Mathlib.Order.Interval.Set.Basic

/-!
# The variables of the data block

`AllocateVar` serves requests from the bytes of the block (`Lib.Served`): a variable of one or two
bytes gets an aligned range of bytes not in use. `FlashAllocateHalfWord` looks at the even byte
only. That is enough in every table it can find: bytes are given out first to last, so that the odd
byte of a pair is never in use when the even one is free (`Sector.Paired`, kept by both
allocators). What one call does is `allocateVar_serves`; the results are about every sequence of
calls, with any sizes, from power-up.
-/

namespace Flash

/-! ## Tables -/

/-- The addresses in use. -/
def Sector.used (t : Sector) : Set Nat := {a | ∃ k : Fin NB_BYTES, t k = true ∧ a = 0x80000 + k.val}

/-- Where an even byte is free, its odd neighbour is. -/
def Sector.Paired (t : Sector) : Prop :=
  ∀ j k : Fin NB_BYTES, j.val % 2 = 0 → k.val = j.val + 1 → t j = false → t k = false

/-- An aligned range of free bytes, at the index `i`. -/
def Sector.FreeAt (t : Sector) (size : uint8_t) (i : Fin NB_BYTES) : Prop :=
  size.toNat ∣ i.val ∧ i.val + size.toNat ≤ NB_BYTES ∧
    ∀ k : Fin NB_BYTES, i.val ≤ k.val → k.val < i.val + size.toNat → t k = false

instance (t : Sector) (size : uint8_t) (i : Fin NB_BYTES) : Decidable (t.FreeAt size i) :=
  inferInstanceAs (Decidable (_ ∧ _ ∧ _))

/-- The addresses of a variable. -/
def Variable.bytes (v : Variable) : Set Nat :=
  Set.Ico v.address.toNat (v.address.toNat + v.size.toNat)

theorem Sector.used_free : Sector.free.used = ⊥ := by
  apply Set.eq_empty_of_forall_notMem
  intro a ⟨k, hk, _⟩
  cases hk

theorem Sector.used_subset (t : Sector) :
    t.used ⊆ Set.Icc FLASH_DATA_START.toNat FLASH_DATA_END.toNat := by
  rintro a ⟨k, -, rfl⟩
  have hk : k.val < 8 := k.isLt
  simp only [FLASH_DATA_START, FLASH_DATA_END, BitVec.toNat_ofNat, Set.mem_Icc]
  omega

@[simp] theorem Sector.mark_eq_true {t : Sector} {n : Nat} {k : Fin NB_BYTES} :
    t.mark n k = true ↔ k.val = n ∨ t k = true := by
  unfold Sector.mark
  split <;> simp_all

theorem Sector.mark_eq_false {t : Sector} {n : Nat} {k : Fin NB_BYTES} :
    t.mark n k = false ↔ k.val ≠ n ∧ t k = false := by
  rw [← Bool.not_eq_true, Sector.mark_eq_true, not_or, Bool.not_eq_true]

theorem Sector.used_mark (t : Sector) {n : Nat} (h : n < NB_BYTES) :
    (t.mark n).used = t.used ∪ {0x80000 + n} := by
  ext a
  constructor
  · rintro ⟨k, hk, rfl⟩
    rcases Sector.mark_eq_true.1 hk with rfl | hk
    · exact .inr rfl
    · exact .inl ⟨k, hk, rfl⟩
  · rintro (⟨k, hk, rfl⟩ | rfl)
    · exact ⟨k, Sector.mark_eq_true.2 (.inr hk), rfl⟩
    · exact ⟨⟨n, h⟩, Sector.mark_eq_true.2 (.inl rfl), rfl⟩

/-- A free range is disjoint from what is in use. -/
theorem Sector.FreeAt.disjoint {t : Sector} {size : uint8_t} {i : Fin NB_BYTES}
    (h : t.FreeAt size i) :
    Disjoint t.used (Variable.bytes ⟨FLASH_DATA_START + BitVec.ofNat 32 i, size⟩) := by
  rw [Set.disjoint_left]
  rintro a ⟨k, hk, rfl⟩ ⟨h1, h2⟩
  simp only [address_toNat i.isLt] at h1 h2
  rw [h.2.2 k (by omega) (by omega)] at hk
  cases hk

/-- The bytes of a variable of one byte, and of two. -/
theorem bytes_one (i : Fin NB_BYTES) :
    Variable.bytes ⟨FLASH_DATA_START + BitVec.ofNat 32 i, 1#8⟩ = {0x80000 + i.val} := by
  ext a
  simp only [Variable.bytes, address_toNat i.isLt, Set.mem_Ico, Set.mem_singleton_iff]
  have h1 : (1#8).toNat = 1 := rfl
  omega

theorem bytes_two (i : Fin NB_BYTES) :
    Variable.bytes ⟨FLASH_DATA_START + BitVec.ofNat 32 i, 2#8⟩ =
      {0x80000 + i.val} ∪ {0x80000 + (i.val + 1)} := by
  ext a
  simp only [Variable.bytes, address_toNat i.isLt, Set.mem_Ico, Set.mem_union,
    Set.mem_singleton_iff]
  have h2 : (2#8).toNat = 2 := rfl
  omega

/-! ## One call -/

/-- The search of both allocators: the first index with `p`, or none. -/
theorem search_cases {n : Nat} (p : Fin n → Bool) :
    (∃ i, p i = true ∧ (∀ j < i, p j = false) ∧ (List.finRange n).find? p = some i) ∨
    ((∀ i, p i = false) ∧ (List.finRange n).find? p = none) := by
  rw [← Fin.find?_eq_find?_finRange]
  cases h : Fin.find? p with
  | none => exact .inr ⟨Fin.find?_eq_none_iff.1 h, rfl⟩
  | some i =>
    obtain ⟨hi, hlt⟩ := Fin.find?_eq_some_iff.1 h
    exact .inl ⟨i, hi, hlt, rfl⟩

theorem freeAt_one {t : Sector} {i : Fin NB_BYTES} : t.FreeAt 1#8 i ↔ t i = false := by
  have h1 : (1#8).toNat = 1 := rfl
  constructor
  · exact fun h => h.2.2 i (Nat.le_refl _) (by omega)
  · refine fun h => ⟨Nat.one_dvd _, i.isLt, fun k hk hk' => ?_⟩
    rwa [show k = i from Fin.ext (by omega)]

theorem freeAt_two {t : Sector} (ht : t.Paired) {i : Fin NB_BYTES} :
    t.FreeAt 2#8 i ↔ t i = false ∧ i.val % 2 = 0 := by
  have h2 : (2#8).toNat = 2 := rfl
  have hi : i.val < 8 := i.isLt
  constructor
  · exact fun h => ⟨h.2.2 i (Nat.le_refl _) (by omega), Nat.mod_eq_zero_of_dvd h.1⟩
  · intro ⟨hf, heven⟩
    have hle : i.val + 2 ≤ 8 := by omega
    refine ⟨Nat.dvd_of_mod_eq_zero heven, hle, fun k hk hk' => ?_⟩
    by_cases hki : k = i
    · rwa [hki]
    · have hne : k.val ≠ i.val := fun h => hki (Fin.ext h)
      exact ht i k heven (by omega) hf

/-- Given out first to last, the odd byte of a pair goes after the even one. -/
theorem Sector.Paired.mark_first {t : Sector} (ht : t.Paired) {i : Fin NB_BYTES}
    (hfirst : ∀ j < i, t j = true) : (t.mark i.val).Paired := by
  intro j k heven hk hj
  obtain ⟨hji, hj⟩ := Sector.mark_eq_false.1 hj
  refine Sector.mark_eq_false.2 ⟨fun hki => ?_, ht j k heven hk hj⟩
  rw [hfirst j (by omega)] at hj
  cases hj

theorem Sector.Paired.mark_pair {t : Sector} (ht : t.Paired) {i : Fin NB_BYTES}
    (hi : i.val % 2 = 0) : ((t.mark i.val).mark (i.val + 1)).Paired := by
  intro j k heven hk hj
  obtain ⟨hji', hj⟩ := Sector.mark_eq_false.1 hj
  obtain ⟨hji, hj⟩ := Sector.mark_eq_false.1 hj
  exact Sector.mark_eq_false.2 ⟨by omega, Sector.mark_eq_false.2 ⟨by omega, ht j k heven hk hj⟩⟩

/-- The variable gets an aligned range of free bytes, or there is none and the call returns
nothing. -/
def Serves (t : Sector) (size : uint8_t) (r : Option (Bool × uint32_t × Sector)) : Prop :=
  (∃ (i : Fin NB_BYTES) (t' : Sector), t.FreeAt size i ∧ t'.Paired ∧
    t'.used = t.used ∪ Variable.bytes ⟨FLASH_DATA_START + BitVec.ofNat 32 i, size⟩ ∧
    r = some (true, FLASH_DATA_START + BitVec.ofNat 32 i, t')) ∨
  (¬ ∃ i, t.FreeAt size i) ∧ r = none

theorem flashAllocateByte_serves {t : Sector} (ht : t.Paired) :
    Serves t 1#8 (flashAllocateByte t) := by
  unfold flashAllocateByte
  rcases search_cases fun i => t i == false with ⟨i, hi, hfirst, hfind⟩ | ⟨hall, hfind⟩
  · have hused : ∀ j < i, t j = true := fun j hj => by simpa using hfirst j hj
    refine .inl ⟨i, t.mark i.val, freeAt_one.2 (by simpa using hi), ht.mark_first hused, ?_, ?_⟩
    · rw [Sector.used_mark t i.isLt, bytes_one]
    · rw [hfind]
  · refine .inr ⟨?_, by rw [hfind]⟩
    intro ⟨i, hi⟩
    have hi' : t i = true := by simpa using hall i
    rw [freeAt_one.1 hi] at hi'
    cases hi'

theorem flashAllocateHalfWord_serves {t : Sector} (ht : t.Paired) :
    Serves t 2#8 (flashAllocateHalfWord t) := by
  unfold flashAllocateHalfWord
  rcases search_cases fun i : Fin NB_BYTES => t i == false && i.val % 2 == 0 with
    ⟨i, hi, -, hfind⟩ | ⟨hall, hfind⟩
  · have hfree : t i = false ∧ i.val % 2 = 0 := by simpa using hi
    have hlt : i.val + 1 < NB_BYTES := (freeAt_two ht).2 hfree |>.2.1
    refine .inl ⟨i, (t.mark i.val).mark (i.val + 1), (freeAt_two ht).2 hfree,
      ht.mark_pair hfree.2, ?_, ?_⟩
    · rw [Sector.used_mark _ hlt, Sector.used_mark t i.isLt, bytes_two, Set.union_assoc]
    · rw [hfind]
  · refine .inr ⟨?_, by rw [hfind]⟩
    intro ⟨i, hi⟩
    have hi' : t i = false → ¬ i.val % 2 = 0 := by simpa using hall i
    exact hi' ((freeAt_two ht).1 hi).1 ((freeAt_two ht).1 hi).2

theorem allocateVar_serves (pointer : uint32_t) {size : uint8_t} (hs : size = 1#8 ∨ size = 2#8)
    {t : Sector} (ht : t.Paired) : Serves t size (allocateVar pointer size t) := by
  rcases hs with rfl | rfl
  · exact flashAllocateByte_serves ht
  · exact flashAllocateHalfWord_serves ht

/-! ## Every sequence of calls -/

/-- What holds of the table and of the variables handed out. -/
structure Allocated (t : Sector) (vs : List Variable) : Prop where
  served : Lib.Served (vs.map Variable.bytes) t.used
  aligned : ∀ v ∈ vs, (v.size = 1#8 ∨ v.size = 2#8) ∧ v.size.toNat ∣ v.address.toNat
  paired : t.Paired

theorem allocated_free : Allocated Sector.free [] where
  served := by
    rw [Sector.used_free]
    exact .nil
  aligned := by simp
  paired := fun _ _ _ _ _ => rfl

/-- A size other than 1 and 2 is refused. -/
theorem allocateVar_other {size : uint8_t} (hs : ¬ (size = 1#8 ∨ size = 2#8))
    (pointer : uint32_t) (t : Sector) : allocateVar pointer size t = some (false, pointer, t) := by
  rw [not_or] at hs
  exact (if_neg hs.1).trans (if_neg hs.2)

/-- One call keeps it, with the variable it hands out. -/
theorem Allocated.request {t : Sector} {vs : List Variable} (h : Allocated t vs) (c : Request) :
    Allocated (request c t).2 (vs ++ (request c t).1.toList) := by
  unfold Flash.request
  by_cases hs : c.size = 1#8 ∨ c.size = 2#8
  · rcases allocateVar_serves c.pointer hs h.paired with
      ⟨i, t', hfree, hpaired, hused, heq⟩ | ⟨-, heq⟩
    · rw [heq]
      refine ⟨?_, ?_, hpaired⟩
      · rw [List.map_append, hused]
        exact h.served.snoc hfree.disjoint
      · intro v hv
        rcases List.mem_append.1 hv with hv | hv
        · exact h.aligned v hv
        · rw [List.mem_singleton.1 hv]
          refine ⟨hs, ?_⟩
          simp only [address_toNat i.isLt]
          refine Nat.dvd_add ?_ hfree.1
          rcases hs with hs | hs <;> rw [hs] <;> decide
    · rw [heq]
      simpa using h
  · rw [allocateVar_other hs]
    simpa using h

theorem allocated (cs : List Request) : Allocated (table cs) (handedOut cs) := by
  induction cs using List.reverseRecOn with
  | nil => exact allocated_free
  | append_singleton cs c ih =>
    have h := ih.request c
    unfold table handedOut at h ⊢
    rw [Lib.Machine.final_snoc, Lib.Machine.answers_snoc, List.reduceOption_append,
      List.reduceOption_singleton]
    exact h

/-- **Allocated variables never overlap**: the ranges handed out by a sequence of calls are
pairwise disjoint, inside the block and aligned to their size. -/
theorem handedOut_disjoint (cs : List Request) :
    ((handedOut cs).Pairwise fun v w => Disjoint v.bytes w.bytes) ∧
    ∀ v ∈ handedOut cs, (v.size = 1#8 ∨ v.size = 2#8) ∧
      v.bytes ⊆ Set.Icc FLASH_DATA_START.toNat FLASH_DATA_END.toNat ∧
      v.size.toNat ∣ v.address.toNat := by
  have h := allocated cs
  refine ⟨List.pairwise_map.1 h.served.pairwise, fun v hv => ?_⟩
  obtain ⟨hsize, hdvd⟩ := h.aligned v hv
  have hused : v.bytes ⊆ (table cs).used := h.served.le (List.mem_map_of_mem hv)
  exact ⟨hsize, hused.trans (table cs).used_subset, hdvd⟩

/-- **A failed allocation is reported** exactly if there is no failure: a call that finds an
aligned range of free bytes returns true, and one that finds none returns nothing at all. -/
theorem allocateVar_reports_iff (cs : List Request) (pointer : uint32_t) (size : uint8_t)
    (hs : size = 1#8 ∨ size = 2#8) :
    (∃ b pointer' t', allocateVar pointer size (table cs) = some (b, pointer', t') ∧
      (b = true ↔ ∃ i, (table cs).FreeAt size i) ∧
      (b = false → pointer' = pointer ∧ t' = table cs)) ↔
    ∃ i, (table cs).FreeAt size i := by
  rcases allocateVar_serves pointer hs (allocated cs).paired with
    ⟨i, t', hfree, -, -, heq⟩ | ⟨hnone, heq⟩
  · refine iff_of_true ⟨_, _, _, heq, iff_of_true rfl ⟨i, hfree⟩, fun h => by cases h⟩ ⟨i, hfree⟩
  · refine iff_of_false ?_ hnone
    intro ⟨b, pointer', t', h, _⟩
    rw [heq] at h
    cases h

/-- A half word after a byte. -/
theorem allocateVar_reports_halfWord : ∃ b pointer' t',
    allocateVar 0#32 2#8 (table [⟨0#32, 1#8⟩]) = some (b, pointer', t') ∧ b = true := by
  have hfree : ∃ i, (table [⟨0#32, 1#8⟩]).FreeAt 2#8 i := by decide +kernel
  obtain ⟨b, pointer', t', heq, hb, -⟩ :=
    (allocateVar_reports_iff [⟨0#32, 1#8⟩] 0#32 2#8 (.inr rfl)).2 hfree
  exact ⟨b, pointer', t', heq, hb.2 hfree⟩

/-- The ninth byte: the call returns nothing. -/
theorem allocateVar_exhausted :
    (¬ ∃ i, (table (List.replicate 8 ⟨0#32, 1#8⟩)).FreeAt 1#8 i) ∧
    allocateVar 0#32 1#8 (table (List.replicate 8 ⟨0#32, 1#8⟩)) = none :=
  ⟨by decide +kernel, Option.isNone_iff_eq_none.1 (by decide +kernel)⟩

end Flash
