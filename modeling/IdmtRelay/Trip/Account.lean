import IdmtRelay.Measure.Proof.Overload
import IdmtRelay.Trip.Device

/-!
# The current as a function of the readings

What the relay is to have measured, without its state: the readings come in blocks of 21, of which
the first 20 are a window, and the current in force is that of the last complete block.
-/

namespace Trip.Account

open Measure

/-- The readings of a block: a window of `NB_Sample`, and the one that finds the buffer full. -/
def blockLength : Nat := NB_Sample + 1

/-- The complete blocks. -/
def blocks (xs : List int16_t) : Nat := xs.length / blockLength

/-- The window of block `k`. -/
def window (xs : List int16_t) (k : Nat) : List int16_t :=
  (xs.drop (blockLength * k)).take NB_Sample

/-- The readings after the last complete block. -/
def pending (xs : List int16_t) : List int16_t := xs.drop (blockLength * blocks xs)

/-- The current that is measured for a window. -/
def measured (window : List int16_t) : uint16_t :=
  BitVec.ofNat 16 (currentOf (squareSum window % 65536))

/-- The current in force after the readings. -/
def currentAfter (xs : List int16_t) : uint16_t :=
  if blocks xs = 0 then 0#16 else measured (window xs (blocks xs - 1))

/-! ## One more reading -/

section
variable {xs : List int16_t} {x : int16_t} {k : Nat}

theorem pending_length (xs : List int16_t) : (pending xs).length = xs.length % blockLength := by
  unfold pending blocks
  rw [List.length_drop]
  have := Nat.div_add_mod xs.length blockLength
  omega

theorem window_append (h : blockLength * k + NB_Sample ≤ xs.length) :
    window (xs ++ [x]) k = window xs k := by
  unfold window
  rw [List.drop_append_of_le_length (by omega),
    List.take_append_of_le_length (by rw [List.length_drop]; omega)]

theorem window_of_lt (h : k < blocks xs) : blockLength * k + NB_Sample ≤ xs.length := by
  have hle : blockLength * (k + 1) ≤ xs.length :=
    (Nat.mul_le_mul_left _ h).trans (Nat.mul_div_le ..)
  unfold blockLength NB_Sample at hle ⊢
  omega

/-- A reading into a buffer that is not full. -/
theorem blocks_buffered (h : (pending xs).length < NB_Sample) :
    blocks (xs ++ [x]) = blocks xs ∧ pending (xs ++ [x]) = pending xs ++ [x] := by
  have hblocks : blocks (xs ++ [x]) = blocks xs := by
    rw [pending_length] at h
    unfold blocks blockLength NB_Sample at *
    rw [List.length_append, List.length_singleton]
    omega
  refine ⟨hblocks, ?_⟩
  unfold pending
  rw [hblocks, List.drop_append_of_le_length]
  exact Nat.mul_div_le ..

/-- The reading that ends a block. -/
theorem blocks_full (h : (pending xs).length = NB_Sample) :
    blocks (xs ++ [x]) = blocks xs + 1 ∧ pending (xs ++ [x]) = [] ∧
    window (xs ++ [x]) (blocks xs) = pending xs := by
  have hlen := pending_length xs
  have hdiv := Nat.div_add_mod xs.length blockLength
  have hblocks : blocks (xs ++ [x]) = blocks xs + 1 := by
    unfold blocks blockLength NB_Sample at *
    rw [List.length_append, List.length_singleton]
    omega
  refine ⟨hblocks, ?_, ?_⟩
  · apply List.eq_nil_of_length_eq_zero
    rw [pending_length, List.length_append, List.length_singleton]
    unfold blockLength NB_Sample at *
    omega
  · rw [window_append (by unfold blocks; omega)]
    exact List.take_of_length_le (Nat.le_of_eq h)

/-- The complete blocks stay as more readings come. -/
theorem window_snoc (h : k < blocks xs) :
    k < blocks (xs ++ [x]) ∧ window (xs ++ [x]) k = window xs k := by
  refine ⟨h.trans_le ?_, window_append (window_of_lt h)⟩
  unfold blocks
  rw [List.length_append]
  exact Nat.div_le_div_right (Nat.le_add_right ..)

theorem window_length (h : k < blocks xs) : (window xs k).length = NB_Sample := by
  have hle := window_of_lt h
  unfold window
  rw [List.length_take, List.length_drop]
  omega

end

end Trip.Account
