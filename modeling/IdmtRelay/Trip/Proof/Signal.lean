import IdmtRelay.Trip.Proof.Timing

/-!
# How often the trip signal is sent

`Flag_Trip` is to let the signal be sent once in an overload. The tick that sends it clears the flag
again, unless its current ends the overload: so it is sent once in the runs in which every signal
ends its overload (`one_signal`), and in any other run it is sent again as long as the current stays
(`signal_repeats`).
-/

namespace Trip

open Measure (OVERLOAD)

namespace Relay

variable {inverTime : uint32_t → uint32_t → uint32_t → Except Undef uint32_t} {i : TickIn}
  {s s' : Relay} {o : List Out} {c : uint16_t}

theorem tick_current (h : tick inverTime i s = .ok (o, s')) : s'.current = held i s := by
  rw [← sensed_current]
  cases (tick_branch h).1 <;> rfl

/-- The number of calls `PutSample(5, 2)` that return true. -/
def signals (tr : Ticks) : Nat := tr.countP fun p => signalled p.1.2

/-- A countdown whose signal is sent ends in a tick without overload. -/
def EndsOverload (s : Relay) (l : TickIn × List Out) : Prop :=
  s.Expires → l.1.analogPut 2#8 16385#16 = true → ¬ OVERLOAD < held l.1 s

instance (s : Relay) (l : TickIn × List Out) : Decidable (EndsOverload s l) :=
  inferInstanceAs (Decidable (_ → _))

/-- **One signal per overload**, in a run in which every signal sent ends its overload: `seg` is any
stretch of ticks that all end in overload, with or without the tick after them. -/
theorem one_signal (tr : Ticks) (s : Relay)
    (h : Lib.Trace (Lib.Guarded EndsOverload Step) init tr s) (pre seg post : Ticks)
    (htr : tr = pre ++ seg ++ post) (hover : ∀ p ∈ seg.dropLast, OVERLOAD < p.2.current) :
    signals seg ≤ 1 := by
  have hquiet : ∀ p ∈ seg.dropLast, signalled p.1.2 = false := by
    intro p hp
    have hmem : p ∈ tr := by
      rw [htr]
      simp [List.mem_of_mem_dropLast hp]
    obtain ⟨s₀, hc, hst⟩ := h.step_of_mem hmem
    have ho := hover p hp
    rw [tick_current hst] at ho
    by_contra hs
    obtain ⟨⟨he, -⟩, hput⟩ := (signalled_iff hst).1 (by simpa using hs)
    exact hc he hput ho
  have hnone : signals seg.dropLast = 0 :=
    List.countP_eq_zero.2 fun p hp => by simp [hquiet p hp]
  rcases List.eq_nil_or_concat' seg with rfl | ⟨l, p, rfl⟩
  · exact Nat.zero_le _
  · rw [List.dropLast_concat] at hnone
    unfold signals at hnone ⊢
    rw [List.countP_append, hnone, Nat.zero_add]
    exact List.countP_le_length

/-- An overload that ends when its signal is sent. -/
theorem one_signal_29549 : ∃ tr : Ticks, (tr.drop 20).length = 388 ∧
    signals (tr.drop 20) ≠ 0 ∧ signals (tr.drop 20) ≤ 1 := by
  obtain ⟨tr, s, h, hp⟩ := Lib.exists_guarded_of_run EndsOverload .overflow pit init
    (windows 2#8 [29549#16] ++ List.replicate 386 (quietTick 2#8 none) ++
      [quietTick 2#8 (some 925#16)])
    (fun tr _ => decide ((tr.drop 20).length = 388 ∧ signals (tr.drop 20) ≠ 0 ∧
      ∀ p ∈ (tr.drop 20).dropLast, OVERLOAD < p.2.current))
    (by decide +kernel)
  obtain ⟨hlen, hne, hover⟩ := of_decide_eq_true hp
  exact ⟨tr, hlen, hne, one_signal tr s h (tr.take 20) (tr.drop 20) [] (by simp) hover⟩

/-- A constant overload of 14 A on the extremely inverse curve: the signal is sent twice. -/
theorem two_signals : ∃ (tr : Ticks) (s : Relay),
    Lib.run pit init (windows 2#8 [29549#16] ++ List.replicate 773 (quietTick 2#8 none)) =
      .ok (tr, s) ∧
    (∀ p ∈ tr.drop 20, p.2.current = 29549#16) ∧ signals (tr.drop 20) = 2 := by
  obtain ⟨tr, s, h, hp⟩ := Lib.exists_run pit init
    (windows 2#8 [29549#16] ++ List.replicate 773 (quietTick 2#8 none))
    (fun tr _ => decide ((∀ p ∈ tr.drop 20, p.2.current = 29549#16) ∧ signals (tr.drop 20) = 2))
    (by decide +kernel)
  exact ⟨tr, s, h, of_decide_eq_true hp⟩

/-! ## The signal repeats -/

theorem exists_tripped {tr : Ticks} {k : Nat} (h : firstTrip tr = some k) :
    ∃ p ∈ tr, tripped p.1.2 = true := by
  induction tr generalizing k with
  | nil => cases h
  | cons p tr ih =>
    unfold firstTrip at h
    split at h
    · exact ⟨p, by simp, ‹_›⟩
    · obtain ⟨j, hj, -⟩ := Option.map_eq_some_iff.1 h
      obtain ⟨q, hq, ht⟩ := ih hj
      exact ⟨q, by simp [hq], ht⟩

theorem arms_of_expires (he : s.Expires) (hover : OVERLOAD < held i s)
    (hhi : (held i s).hi8 = s.prevCurrent) (hs : s.success = true) : Arms i s := by
  refine ⟨hover, ?_, ?_⟩
  · rw [sensed_prevCurrent, hs, if_pos rfl, hhi]
  · rw [sensed_counter, if_neg he.1, he.2]
    rfl

/-- **A signal that does not end its overload is sent again**, if the current stays and the
converter accepts it. -/
theorem signal_repeats (h : pit i s = .ok (o, s')) (he : s.Expires) (hover : OVERLOAD < held i s)
    (hhi : (held i s).hi8 = s.prevCurrent) (hs : s.success = true) : ∃ k, ∀ is : List TickIn,
    (∀ j ∈ is, j.Holds (held i s)) → (∀ j ∈ is, j.analogPut 2#8 16385#16 = true) →
    k ≤ is.length → ∃ tr s'', Lib.run pit s' is = .ok (tr, s'') ∧
      (∀ p ∈ tr, p.2.current = held i s) ∧ 1 ≤ signals tr := by
  have hcount := counting_of_arms h (arms_of_expires he hover hhi hs)
  obtain ⟨k, hk⟩ := Nat.exists_eq_add_of_lt (load_pos i.setting hover)
  rw [hk, Nat.zero_add] at hcount
  refine ⟨k + 1, ?_⟩
  intro is his hput hlen
  obtain ⟨tr, s'', hr, hsteady⟩ := steady_run hcount.toSteady his
  obtain ⟨tr', s₁, hr', hfirst⟩ := firstTrip_run hcount his hlen
  rw [hr] at hr'
  cases hr'
  refine ⟨tr, s'', hr, fun p hp => (hsteady p hp).current, ?_⟩
  obtain ⟨p, hp, ht⟩ := exists_tripped hfirst
  obtain ⟨s₀, hst⟩ := (Lib.trace_of_run hr).step_of_mem hp
  have hmem : p.1.1 ∈ is := by
    rw [← Lib.inputs_of_run hr]
    exact List.mem_map_of_mem hp
  exact List.countP_pos_iff.2
    ⟨p, hp, (signalled_iff hst).2 ⟨(tripped_iff hst).1 ht, hput _ hmem⟩⟩

end Relay

end Trip
