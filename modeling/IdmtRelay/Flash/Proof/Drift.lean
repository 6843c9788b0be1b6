import IdmtRelay.Flash.Proof.Store
import IdmtRelay.Lib.Drift

/-!
# Where the bytes of the flash block go

Every call of the driver moves the bytes of the block by one permutation (`moved`), so after any
sequence of calls a byte is found where the calls since it was written have moved it. Bytes 0 and 1
stay in place: they are an exact store, and the setting is one of them. The others come back after
four calls (`after_block`).
-/

namespace Flash

open Lib.Store

/-- The cell whose byte a call moves to cell `i`. -/
def moved (i : Fin 8) : Fin 8 :=
  ⟨[0, 1, 6, 7, 5, 4, 3, 2].getD i.val 0, by revert i; decide⟩

theorem permuted_apply (m : Block) (i : Fin 8) : permuted m i = m (moved i) := by
  fin_cases i <;> rfl

theorem moved_period (i : Fin 8) : moved^[4] i = i := by
  revert i
  decide

theorem moved_mod (n : Nat) (i : Fin 8) : moved^[n] i = moved^[n % 4] i := by
  have hperiod : moved^[4] = id := funext moved_period
  rw [← Nat.mod_add_div n 4, Function.iterate_add_apply, Function.iterate_mul, hperiod,
    Function.iterate_id, Nat.add_mul_mod_self_left, Nat.mod_mod]
  rfl

/-- The bytes 2 to 7 move among themselves. -/
theorem moved_upper (n : Nat) {i : Fin 8} (h : 2 ≤ i.val) : 2 ≤ (moved^[n] i).val := by
  have hstep : ∀ i : Fin 8, 2 ≤ i.val → 2 ≤ (moved i).val := by decide
  induction n with
  | zero => exact h
  | succ n ih =>
    rw [Function.iterate_succ_apply']
    exact hstep _ ih

/-- **The block after any sequence of calls.** Every byte is where the calls since it was written
have moved it. The bytes 0 and 1 read as last written; the others, while only those two are written,
come back with every fourth call. -/
theorem after_block (launch : FTFE → FTFE) (hl : Ideal launch) (s : State) (h : ¬ s.ftfe.Failed)
    (ops : List Op) :
    (after launch s ops).block = drift Op.byte moved s.block ops ∧
    (∀ i : Fin 8, i.val < 2 → (after launch s ops).block i = reads s.block ops i) ∧
    ((∀ op ∈ ops, ∀ i : Fin 8, 2 ≤ i.val → op.byte i = none) →
      ∀ i : Fin 8, 2 ≤ i.val →
        (after launch s ops).block i = s.block (moved^[ops.length % 4] i)) := by
  have hafter : (after launch s ops).block = drift Op.byte moved s.block ops := by
    refine after_eq_drift (fun op s hs => (block_exec hl op s hs).2) ?_ h ops
    intro op s hs i
    rw [(block_exec hl op s hs).1, permuted_apply]
  refine ⟨hafter, fun i hi => ?_, fun hops i hi => ?_⟩
  · have hfixed : ∀ i : Fin 8, i.val < 2 → moved i = i := by decide
    rw [hafter, drift_of_fixed s.block ops (hfixed i hi)]
  · rw [hafter, drift_of_untouched s.block ops fun op hop k => hops op hop _ (moved_upper k hi),
      moved_mod]

/-- The trip count in bytes 2 and 3 is back after four settings, whatever they set. -/
theorem after_block_counted :
    (after k70 (idle counted) [.write8 0 0x01#8, .write8 0 0x02#8, .write8 0 0x00#8,
      .write8 0 0x01#8]).block 2 = 0x05#8 := by
  refine ((after_block k70 k70_ideal (idle counted) (not_failed_idle _) [.write8 0 0x01#8,
    .write8 0 0x02#8, .write8 0 0x00#8, .write8 0 0x01#8]).2.2 ?_ 2 (by decide)).trans rfl
  simp only [List.forall_mem_cons, Op.byte]
  decide

end Flash
