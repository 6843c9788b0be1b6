import IdmtRelay.Base.Types
import IdmtRelay.Lib.Ring

/-!
# The byte FIFO (`FIFO.cpp`)

`TFIFO` is the class as it stands, `put` and `get` its methods; each runs in a critical section, so
it is one step. `Fifo` carries the invariant every reachable FIFO has (`TFIFO.WF`: at most
`FIFO_SIZE` bytes, `End` that far after `Start`), and its methods are the class's own. `bytes` reads
the queue off the buffer (`Lib.Ring`); what the rest of the development uses of the methods is
`put_of_lt`, `put_of_full`, `get_of_cons` and `get_of_nil`.
-/

namespace Serial

def FIFO_SIZE : Nat := 256

/-- `TFIFO`. The index of the 256-byte `Buffer` is the whole range of a `uint8_t`. -/
structure TFIFO where
  start : uint8_t
  end_ : uint8_t
  nbBytes : uint16_t
  buffer : uint8_t → uint8_t

namespace TFIFO

/-- The FIFO in zero-initialised memory. -/
def zero : TFIFO := { start := 0, end_ := 0, nbBytes := 0, buffer := fun _ => 0 }

/-- `TFIFO::Put`. -/
def put (f : TFIFO) (data : uint8_t) : Bool × TFIFO :=
  if f.nbBytes.toNat < FIFO_SIZE then
    (true, { f with
      nbBytes := f.nbBytes + 1#16
      buffer := Function.update f.buffer f.end_ data
      end_ := BitVec.ofNat 8 ((f.end_ + 1#8).toNat % FIFO_SIZE) })
  else (false, f)

/-- `TFIFO::Get`: the result, the byte in `dataRef` afterwards, the FIFO afterwards. -/
def get (f : TFIFO) (dataRef : uint8_t) : Bool × uint8_t × TFIFO :=
  if f.nbBytes ≠ 0 then
    (true, f.buffer f.start, { f with
      nbBytes := f.nbBytes - 1#16
      start := BitVec.ofNat 8 ((f.start + 1#8).toNat % FIFO_SIZE) })
  else (false, dataRef, f)

/-- The indices and the count agree. -/
structure WF (f : TFIFO) : Prop where
  le : f.nbBytes.toNat ≤ FIFO_SIZE
  end_eq : f.end_ = f.start + BitVec.ofNat 8 f.nbBytes.toNat

/-- The queued bytes, oldest first. -/
def bytes (f : TFIFO) : List uint8_t :=
  Lib.Ring.contents (· + 1#8) f.buffer f.start f.nbBytes.toNat

/-! ## Index arithmetic -/

/-- `%= FIFO_SIZE` changes no `uint8_t`. -/
theorem mod_fifoSize (i : uint8_t) : BitVec.ofNat 8 (i.toNat % FIFO_SIZE) = i := by
  apply BitVec.eq_of_toNat_eq
  have := i.isLt
  simp only [BitVec.toNat_ofNat, FIFO_SIZE]
  omega

theorem next_iterate (i : uint8_t) (k : Nat) : (· + 1#8)^[k] i = i + BitVec.ofNat 8 k := by
  induction k with
  | zero => simp
  | succ k ih =>
    rw [Function.iterate_succ_apply', ih]
    apply BitVec.eq_of_toNat_eq
    simp only [BitVec.toNat_add, BitVec.toNat_ofNat]
    omega

theorem cyclic : Lib.Ring.Cyclic (fun i : uint8_t => i + 1#8) FIFO_SIZE := by
  intro i k hk h0 he
  rw [next_iterate] at he
  have := congrArg BitVec.toNat he
  simp only [FIFO_SIZE] at hk
  simp only [BitVec.toNat_add, BitVec.toNat_ofNat] at this
  omega

theorem zero_wf : zero.WF := ⟨by decide, rfl⟩

theorem put_wf {f : TFIFO} (h : f.WF) (data : uint8_t) : (f.put data).2.WF := by
  obtain ⟨hle, he⟩ := h
  unfold put
  split
  · rename_i hlt
    simp only [FIFO_SIZE] at hlt
    have hn : (f.nbBytes + 1#16).toNat = f.nbBytes.toNat + 1 := by
      rw [BitVec.toNat_add, BitVec.toNat_ofNat]
      omega
    refine ⟨by rw [hn]; exact hlt, ?_⟩
    show BitVec.ofNat 8 ((f.end_ + 1#8).toNat % FIFO_SIZE) = _
    rw [mod_fifoSize, hn, he, BitVec.ofNat_add, BitVec.add_assoc]
  · exact ⟨hle, he⟩

theorem get_wf {f : TFIFO} (h : f.WF) (dataRef : uint8_t) : (f.get dataRef).2.2.WF := by
  obtain ⟨hle, he⟩ := h
  unfold get
  split
  · rename_i hne
    have h0 : f.nbBytes.toNat ≠ 0 := fun h0 => hne (BitVec.eq_of_toNat_eq h0)
    have hn : (f.nbBytes - 1#16).toNat = f.nbBytes.toNat - 1 := by
      have := f.nbBytes.isLt
      rw [BitVec.toNat_sub, BitVec.toNat_ofNat]
      omega
    refine ⟨by rw [hn]; exact (Nat.sub_le _ _).trans hle, ?_⟩
    show f.end_ = BitVec.ofNat 8 ((f.start + 1#8).toNat % FIFO_SIZE) + BitVec.ofNat 8 _
    rw [mod_fifoSize, hn, he, BitVec.add_assoc, ← BitVec.ofNat_add]
    congr 2
    omega
  · exact ⟨hle, he⟩

end TFIFO

/-! ## The FIFO with its invariant -/

/-- A FIFO in a reachable state. -/
structure Fifo extends TFIFO where
  wf : toTFIFO.WF

namespace Fifo

def zero : Fifo := ⟨TFIFO.zero, TFIFO.zero_wf⟩

def put (f : Fifo) (data : uint8_t) : Bool × Fifo :=
  ((f.toTFIFO.put data).1, ⟨(f.toTFIFO.put data).2, TFIFO.put_wf f.wf data⟩)

def get (f : Fifo) (dataRef : uint8_t) : Bool × uint8_t × Fifo :=
  ((f.toTFIFO.get dataRef).1, (f.toTFIFO.get dataRef).2.1,
    ⟨(f.toTFIFO.get dataRef).2.2, TFIFO.get_wf f.wf dataRef⟩)

@[simp] theorem bytes_zero : zero.bytes = [] := rfl

theorem bytes_length (f : Fifo) : f.bytes.length = f.nbBytes.toNat :=
  Lib.Ring.contents_length _ _

theorem length_le (f : Fifo) : f.bytes.length ≤ FIFO_SIZE := by
  rw [bytes_length]
  exact f.wf.le

/-- **`Put` appends to a queue that is not full.** -/
theorem put_of_lt {f : Fifo} (h : f.bytes.length < FIFO_SIZE) (data : uint8_t) :
    (f.put data).1 = true ∧ (f.put data).2.bytes = f.bytes ++ [data] := by
  rw [bytes_length] at h
  have hn : (f.nbBytes + 1#16).toNat = f.nbBytes.toNat + 1 := by
    simp only [FIFO_SIZE] at h
    rw [BitVec.toNat_add, BitVec.toNat_ofNat]
    omega
  have hpush := Lib.Ring.contents_push TFIFO.cyclic f.buffer (i := f.start) h data
  rw [TFIFO.next_iterate, ← f.wf.end_eq] at hpush
  simp only [put, TFIFO.put, if_pos h, TFIFO.bytes, hn]
  exact ⟨trivial, hpush⟩

/-- **`Put` leaves a full queue alone.** -/
theorem put_of_full {f : Fifo} (h : f.bytes.length = FIFO_SIZE) (data : uint8_t) :
    f.put data = (false, f) := by
  rw [bytes_length] at h
  simp [put, TFIFO.put, h]

/-- **`Get` takes the oldest byte.** -/
theorem get_of_cons {f : Fifo} {b : uint8_t} {bs : List uint8_t} (h : f.bytes = b :: bs)
    (dataRef : uint8_t) :
    (f.get dataRef).1 = true ∧ (f.get dataRef).2.1 = b ∧ (f.get dataRef).2.2.bytes = bs := by
  obtain ⟨n, hn⟩ : ∃ n, f.nbBytes.toNat = n + 1 := by
    refine ⟨bs.length, ?_⟩
    rw [← bytes_length, h, List.length_cons]
  have hne : f.nbBytes ≠ 0 := by
    intro h0
    simp [h0] at hn
  have hn' : (f.nbBytes - 1#16).toNat = n := by
    have := f.nbBytes.isLt
    rw [BitVec.toNat_sub, BitVec.toNat_ofNat]
    omega
  simp only [TFIFO.bytes, hn, Lib.Ring.contents_succ, List.cons.injEq] at h
  simp only [get, TFIFO.get, if_pos hne, TFIFO.bytes, hn', TFIFO.mod_fifoSize]
  exact ⟨trivial, h.1, h.2⟩

/-- **`Get` leaves an empty queue and the caller's byte alone.** -/
theorem get_of_nil {f : Fifo} (h : f.bytes = []) (dataRef : uint8_t) :
    f.get dataRef = (false, dataRef, f) := by
  have h0 : f.nbBytes = 0 := BitVec.eq_of_toNat_eq (by rw [← bytes_length, h]; rfl)
  simp [get, TFIFO.get, h0]

end Fifo

end Serial
