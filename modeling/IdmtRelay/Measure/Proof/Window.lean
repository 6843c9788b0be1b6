import IdmtRelay.Measure.Proof.Frequency
import Mathlib.Data.List.ReduceOption

/-!
# Which samples the windows hold

`Sampled` is the invariant of the acquisition: the readings are blocks of a window and one more
reading, followed by those in the buffer. The reading that ends a block is the one with which
`GetSignal` finds the buffer full: it is neither in the window nor in the next one. So no sample is
lost exactly as long as no window is processed (`samples_kept_iff`).
-/

namespace Measure.Analog

/-! ## Blocks of readings -/

/-- The readings after `tr`: `blocks` of a window and the reading lost after it, and then `xs`. -/
structure Sampled (tr : Windows) (a : Analog) (blocks : List (List int16_t × int16_t))
    (xs : List int16_t) : Prop where
  acquired : acquired tr = blocks.flatMap (fun b => b.1 ++ [b.2]) ++ xs
  processed : processed tr = blocks.map fun b => b.1.map sampleVolts
  window : ∀ b ∈ blocks, b.1.length = NB_Sample
  buffer : a.inputSignal = xs.map sampleVolts
  length : xs.length ≤ NB_Sample

variable {tr : Windows} {a a' : Analog} {blocks : List (List int16_t × int16_t)}
  {xs : List int16_t} {l : Option int16_t × Option (List int32_t)}

theorem acquired_snoc : acquired (tr ++ [(l, a')]) = acquired tr ++ l.1.toList := by
  unfold acquired
  rw [List.filterMap_append]
  cases h : l.1 <;> simp [h]

theorem processed_snoc : processed (tr ++ [(l, a')]) = processed tr ++ l.2.toList := by
  unfold processed
  rw [List.filterMap_append]
  cases h : l.2 <;> simp [h]

theorem sampled_init : Sampled [] init [] [] :=
  ⟨rfl, rfl, List.forall_mem_nil _, rfl, Nat.zero_le _⟩

/-- **One step**: a reading goes into the buffer, or ends a block when that is full. -/
theorem sampled_step (h : Sampled tr a blocks xs) (hst : Window a l a') :
    ∃ blocks' xs', Sampled (tr ++ [(l, a')]) a' blocks' xs' := by
  obtain ⟨reading, w⟩ := l
  obtain ⟨⟨full, b⟩, hget, hw⟩ := Base.bind_ok hst
  cases reading with
  | none =>
    cases hget
    cases hw
    refine ⟨blocks, xs, ?_, ?_, h.window, h.buffer, h.length⟩
    · rw [acquired_snoc, h.acquired, Option.toList_none, List.append_nil]
    · rw [processed_snoc, h.processed, Option.toList_none, List.append_nil]
  | some x =>
    have hs := getSignal_some hget
    have hlen : a.inputSignal.length = xs.length := by rw [h.buffer, List.length_map]
    rw [hlen] at hs
    split at hs
    · obtain ⟨rfl, hbuf⟩ := hs
      cases hw
      refine ⟨blocks, xs ++ [x], ?_, ?_, h.window, ?_, ?_⟩
      · rw [acquired_snoc, h.acquired, Option.toList_some, List.append_assoc]
      · rw [processed_snoc, h.processed, Option.toList_none, List.append_nil]
      · rw [hbuf, h.buffer, List.map_append, List.map_singleton]
      · rw [List.length_append, List.length_singleton]
        omega
    · obtain ⟨rfl, hbuf⟩ := hs
      cases hw
      have hle := h.length
      refine ⟨blocks ++ [(xs, x)], [], ?_, ?_, ?_, rfl, Nat.zero_le _⟩
      · rw [acquired_snoc, h.acquired, List.flatMap_append, List.flatMap_singleton,
          Option.toList_some, List.append_nil, List.append_assoc]
      · rw [processed_snoc, h.processed, hbuf, h.buffer, List.map_append, List.map_singleton,
          Option.toList_some]
      · refine List.forall_mem_append.2 ⟨h.window, List.forall_mem_singleton.2 ?_⟩
        show xs.length = NB_Sample
        omega

/-- **All steps**: the readings of a run are blocks of a window and a lost reading, and the
buffer. -/
theorem exists_sampled (h : Lib.Trace Window init tr a) : ∃ blocks xs, Sampled tr a blocks xs :=
  h.history (fun tr a => ∃ blocks xs, Sampled tr a blocks xs) ⟨[], [], sampled_init⟩
    fun _ _ _ _ ⟨_, _, hs⟩ hst => sampled_step hs hst

/-- Every block holds one reading more than its window. -/
theorem Sampled.lengths (h : Sampled tr a blocks xs) :
    (Analog.acquired tr).length =
      ((Analog.processed tr).flatten ++ a.inputSignal).length + blocks.length := by
  have hblocks : ∀ bs : List (List int16_t × int16_t),
      (bs.flatMap fun b => b.1 ++ [b.2]).length =
        (bs.map fun b => b.1.map sampleVolts).flatten.length + bs.length := by
    intro bs
    induction bs with
    | nil => rfl
    | cons b bs ih =>
      rw [List.flatMap_cons, List.length_append, ih, List.map_cons, List.flatten_cons]
      simp only [List.length_append, List.length_map, List.length_cons, List.length_nil]
      omega
  rw [h.acquired, h.processed, h.buffer, List.length_append, List.length_append, List.length_map,
    hblocks]
  omega

/-! ## When no sample is lost -/

/-- A step does not fault as long as the samples since the last reset are few. -/
theorem exists_run_of_few {n : Nat} (hc : Counts a n) {is : List (Option int16_t)}
    (h : n + is.reduceOption.length < 4096) : ∃ tr a', Lib.run window a is = .ok (tr, a') := by
  induction is generalizing a n with
  | nil => exact ⟨[], a, rfl⟩
  | cons reading is ih =>
    have key : ∀ {full : Bool} {b : Analog} {k : Nat}, a.getSignal reading = .ok (full, b) →
        Counts b k → k + is.reduceOption.length < 4096 →
        ∃ tr a', Lib.run window a (reading :: is) = .ok (tr, a') := by
      intro full b k hget hb hk
      have hw := window_eq hget
      cases full with
      | true =>
        obtain ⟨tr, a', hrun⟩ := ih (a := { b with inputSignal := [] })
          (hb.congr rfl rfl) hk
        exact ⟨_, a', Lib.run_cons hw hrun⟩
      | false =>
        obtain ⟨tr, a', hrun⟩ := ih hb hk
        exact ⟨_, a', Lib.run_cons hw hrun⟩
    cases reading with
    | none =>
      rw [List.reduceOption_cons_of_none] at h
      exact key rfl hc h
    | some x =>
      rw [List.reduceOption_cons_of_some, List.length_cons] at h
      by_cases hm : a.Measures x
      · have hpos := samples_pos hc hm
        have hs := getSignal_measures hc hm
        rw [if_neg (by omega)] at hs
        obtain ⟨b, hget, -, hb⟩ := hs
        exact key hget hb.buffer (by omega)
      · obtain ⟨b, hget, hb⟩ := getSignal_counts hc hm
        exact key hget hb.buffer (by omega)

theorem acquired_of_run {is : List (Option int16_t)} (h : Lib.run window init is = .ok (tr, a)) :
    Analog.acquired tr = is.reduceOption := by
  rw [← Lib.inputs_of_run h]
  unfold Analog.acquired List.reduceOption
  rw [List.filterMap_map]
  rfl

/-- **No acquired sample is lost** exactly as long as the readings fit into one buffer. -/
theorem samples_kept_iff (is : List (Option int16_t)) :
    (∃ tr a, Lib.run window init is = .ok (tr, a) ∧
      (∀ w ∈ processed tr, w.length = NB_Sample) ∧
      ((processed tr).flatten ++ a.inputSignal).map BitVec.toInt =
        is.reduceOption.map fun x => 20 * x.toInt) ↔ is.reduceOption.length ≤ NB_Sample := by
  constructor
  · intro ⟨tr, a, hrun, _, heq⟩
    obtain ⟨blocks, xs, hs⟩ := exists_sampled (Lib.trace_of_run hrun)
    have hlen := congrArg List.length heq
    have hblocks := hs.lengths
    rw [List.length_map, List.length_map] at hlen
    rw [acquired_of_run hrun, ← hlen] at hblocks
    obtain rfl : blocks = [] := List.length_eq_zero_iff.1 (by omega)
    have hacq := hs.acquired
    rw [acquired_of_run hrun, List.flatMap_nil, List.nil_append] at hacq
    rw [hacq]
    exact hs.length
  · intro hle
    have hfew : 0 + is.reduceOption.length < 4096 := by
      unfold NB_Sample at hle
      omega
    obtain ⟨tr, a, hrun⟩ := exists_run_of_few counts_init hfew
    obtain ⟨blocks, xs, hs⟩ := exists_sampled (Lib.trace_of_run hrun)
    have hacq := hs.acquired
    rw [acquired_of_run hrun] at hacq
    refine ⟨tr, a, hrun, ?_, ?_⟩
    · intro w hw
      rw [hs.processed] at hw
      obtain ⟨b, hb, rfl⟩ := List.mem_map.1 hw
      rw [List.length_map]
      exact hs.window b hb
    · -- a block alone has more readings than fit into the buffer
      have hnil : blocks = [] := by
        cases blocks with
        | nil => rfl
        | cons b bs =>
          have hb := hs.window b (List.mem_cons_self ..)
          rw [hacq, List.flatMap_cons] at hle
          simp only [List.length_append, List.length_singleton] at hle
          omega
      subst hnil
      have hproc : processed tr = [] := hs.processed
      rw [hacq, hproc, hs.buffer]
      simp only [List.flatten_nil, List.nil_append, List.flatMap_nil, List.map_map]
      exact List.map_congr_left fun x _ => toInt_sampleVolts x

/-- The readings 1 to 21: the last one is in no window. -/
theorem sample_lost : ∃ tr a,
    Lib.run window init ((List.range 21).map fun n => some (BitVec.ofNat 16 (n + 1))) =
      .ok (tr, a) ∧
    processed tr = [(List.range 20).map fun n => BitVec.ofNat 32 (20 * (n + 1))] ∧
    a.inputSignal = [] := by
  obtain ⟨tr, a, h, hp⟩ := Lib.exists_run window init
    ((List.range 21).map fun n => some (BitVec.ofNat 16 (n + 1)))
    (fun tr a => decide (processed tr =
      [(List.range 20).map fun n => BitVec.ofNat 32 (20 * (n + 1))] ∧ a.inputSignal = []))
    (by decide +kernel)
  exact ⟨tr, a, h, of_decide_eq_true hp⟩

end Measure.Analog
