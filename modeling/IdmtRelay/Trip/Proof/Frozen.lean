import IdmtRelay.Trip.Proof.Signal

/-!
# Which relays can still trip

A tick without overload in the middle of a countdown leaves `Counter` pending with `Time` at 0, and
no later tick changes either: the relay does not trip again, and the first change of the high byte
in an overload divides by `Time` (`frozen_forever`). Every other state trips, at the latest when the
counter has gone round once: so a sustained overload trips exactly the relays whose runs have no
such drop-out (`sustained_trips_iff`).
-/

namespace Trip

open Measure (OVERLOAD)

namespace Relay

variable {i : TickIn} {s s' : Relay} {o : List Out} {c : uint16_t} {tr : Ticks}

/-! ## A frozen countdown -/

/-- A countdown is pending that no tick decrements. -/
def Frozen (s : Relay) : Prop := s.time = 0#32 ∧ s.counter ≠ 0#32

instance (s : Relay) : Decidable s.Frozen := inferInstanceAs (Decidable (_ ∧ _))

theorem live_iff : Live s ↔ ¬ Frozen s := by
  unfold Live Frozen
  rw [not_and_not_right]

/-- The current in overload has another high byte than `PrevCurrent`. -/
def Changes (i : TickIn) (s : Relay) : Prop :=
  OVERLOAD < held i s ∧ (held i s).hi8 ≠ (sensed i s).prevCurrent

theorem getInverTime_zero (counter tripTime : uint32_t) :
    getInverTime counter 0#32 tripTime = .error .divByZero := rfl

theorem frozen_counter (hf : Frozen s) : (sensed i s).counter = s.counter := by
  rw [sensed_counter, if_pos hf.1]

theorem frozen_step (hf : Frozen s) (h : pit i s = .ok (o, s')) :
    s'.time = 0#32 ∧ s'.counter = s.counter ∧ tripped o = false := by
  have hcnt : (sensed i s).counter = s.counter := frozen_counter hf
  have hne : (sensed i s).counter ≠ 0#32 := hcnt ▸ hf.2
  have htime : (sensed i s).time = 0#32 := sensed_time.trans hf.1
  have htrip : tripped o = false := by
    rw [← Bool.not_eq_true, tripped_iff h]
    exact fun he => he.1.1 hf.1
  cases (tick_branch h).1 with
  | reset => exact ⟨rfl, hcnt, htrip⟩
  | follow _ _ h0 => exact absurd h0 hne
  | retime _ _ _ _ hn =>
    rw [htime, getInverTime_zero] at hn
    cases hn
  | arm _ _ h0 => exact absurd h0 hne
  | keep => exact ⟨htime, hcnt, htrip⟩

theorem frozen_ok (hc : ¬ Changes i s) : ∃ o s', pit i s = .ok (o, s') :=
  tick_ok fun hover _ hhi => absurd ⟨hover, hhi⟩ hc

/-- The retiming of a frozen countdown divides by `Time`. -/
theorem frozen_fault (hf : Frozen s) (hc : Changes i s) : pit i s = .error .divByZero := by
  obtain ⟨hover, hhi⟩ := hc
  rw [← sensed_current] at hover hhi
  have hne : (sensed i s).counter ≠ 0#32 := frozen_counter hf ▸ hf.2
  have htime : (sensed i s).time = 0#32 := sensed_time.trans hf.1
  have hretime : retime getInverTime i (sensed i s) = .error .divByZero := by
    unfold retime
    rw [getTripTime_eq i.setting hover, Base.ok_bind, htime]
    simp only [getInverTime_zero]
    rfl
  have hprotect : protect getInverTime i (sensed i s) = .error .divByZero := by
    unfold protect
    rw [if_pos hhi, if_pos hne, hretime]
    rfl
  unfold pit tick
  simp only [if_pos hover, hprotect]
  rfl

theorem frozen_fault_iff (hf : Frozen s) : pit i s = .error .divByZero ↔ Changes i s := by
  constructor
  · intro h
    by_contra hc
    obtain ⟨o, s', hok⟩ := frozen_ok hc
    rw [h] at hok
    cases hok
  · exact frozen_fault hf

/-- **A frozen countdown stays frozen for ever**: no tick after it trips, whatever the currents,
and the relay goes on exactly until the high byte of the current changes in an overload. -/
theorem frozen_forever (tr : Ticks) (s s' : Relay) (hf : Frozen s) (h : Lib.Trace Step s tr s') :
    (∀ p ∈ tr, tripped p.1.2 = false) ∧ s'.time = 0#32 ∧ s'.counter = s.counter ∧
    ∀ i, pit i s' = .error .divByZero ↔ Changes i s' := by
  have hstep : ∀ t l t', (t.time = 0#32 ∧ t.counter = s.counter) → Step t l t' →
      (t'.time = 0#32 ∧ t'.counter = s.counter) ∧ tripped l.2 = false := by
    intro t l t' ⟨ht, hc⟩ hst
    obtain ⟨ht', hc', htrip⟩ := frozen_step ⟨ht, hc ▸ hf.2⟩ hst
    exact ⟨⟨ht', hc'.trans hc⟩, htrip⟩
  obtain ⟨ht, hc⟩ := h.inv (fun t => t.time = 0#32 ∧ t.counter = s.counter) ⟨hf.1, rfl⟩
    fun t l t' hi hst => (hstep t l t' hi hst).1
  refine ⟨h.forall_steps _ (Q := fun p => tripped p.1.2 = false) ⟨hf.1, rfl⟩ hstep, ht, hc, ?_⟩
  intro i
  exact frozen_fault_iff ⟨ht, hc ▸ hf.2⟩

/-- The relay when an overload of 14 A has been interrupted by one window at 0.45 A. -/
def interrupted : Relay :=
  { seen 29549#16 with idmt := ⟨25306#32, 13642865#32⟩, counter := 366#32, current := 925#16 }

/-- The overload comes back, at the same current, for longer than the countdown. -/
theorem frozen_forever_29549 : ∃ (tr₀ tr : Ticks) (s : Relay),
    Lib.run pit init (windows 2#8 [29549#16, 925#16]) = .ok (tr₀, interrupted) ∧
    tr.length = 400 ∧ OVERLOAD < s.current ∧ (∀ p ∈ tr, tripped p.1.2 = false) ∧
    s.time = 0#32 ∧ s.counter = 366#32 ∧
    ∀ i, pit i s = .error .divByZero ↔ Changes i s := by
  obtain ⟨tr₀, s₀, h₀, hs₀⟩ := Lib.exists_run pit init (windows 2#8 [29549#16, 925#16])
    (fun _ s => decide (s = interrupted)) (by decide +kernel)
  obtain ⟨tr, s, h, hp⟩ := Lib.exists_trace_of_run pit interrupted
    (windows 2#8 [29549#16] ++ List.replicate 379 (quietTick 2#8 none))
    (fun tr s => decide (tr.length = 400 ∧ OVERLOAD < s.current)) (by decide +kernel)
  obtain rfl := of_decide_eq_true hs₀
  obtain ⟨hlen, hover⟩ := of_decide_eq_true hp
  exact ⟨tr₀, tr, s, h₀, hlen, hover, frozen_forever tr interrupted s (by decide) h⟩

/-! ## Every other relay -/

/-- While `Time` is set, the flag is not: the tick that sets the flag also resets or clears it. -/
def Unflagged (s : Relay) : Prop := s.time ≠ 0#32 → s.flagTrip = false

theorem unflagged_step (hu : Unflagged s) (h : pit i s = .ok (o, s')) : Unflagged s' := by
  intro ht
  cases (tick_branch h).1 with
  | reset => exact absurd rfl ht
  | follow => rfl
  | retime => rfl
  | arm => rfl
  | keep _ _ hne =>
    rw [sensed_time] at ht
    have hexp : ¬ s.Expires := by
      intro he
      rw [sensed_counter, if_neg ht, he.2] at hne
      exact hne rfl
    rw [sensed_flagTrip, if_neg fun he => hexp he.1]
    exact hu ht

/-- After a tick that holds the current `c` in overload its high byte has been seen. -/
theorem steady_of_held (hc : OVERLOAD < c) (hheld : held i s = c) (h : pit i s = .ok (o, s')) :
    Steady c s' := by
  have hcur : (sensed i s).current = c := sensed_current.trans hheld
  have hhi8 : (sensed i s).current.hi8 = c.hi8 := by rw [hcur]
  cases (tick_branch h).1 with
  | reset hlow => exact absurd (hcur ▸ hc) hlow
  | follow => exact ⟨hc, hcur, hhi8, sensed_success⟩
  | retime => exact ⟨hc, hcur, hhi8, sensed_success⟩
  | arm _ hhi => exact ⟨hc, hcur, hhi.symm.trans hhi8, sensed_success⟩
  | keep _ hhi => exact ⟨hc, hcur, hhi.symm.trans hhi8, sensed_success⟩

/-- The run trips. -/
def Trips (s : Relay) (is : List TickIn) : Prop :=
  ∃ tr s', Lib.run pit s is = .ok (tr, s') ∧ ∃ p ∈ tr, tripped p.1.2 = true

theorem Trips.cons {is : List TickIn} (h : pit i s = .ok (o, s')) (ht : Trips s' is) :
    Trips s (i :: is) := by
  obtain ⟨tr, s'', hr, p, hp, htrip⟩ := ht
  exact ⟨_, _, Lib.run_cons h hr, p, List.mem_cons_of_mem _ hp, htrip⟩

theorem trips_of_counting {k : Nat} {is : List TickIn} (hs : Counting c k s) (hpos : 0 < k)
    (his : ∀ j ∈ is, j.Holds c) (hlen : k ≤ is.length) : Trips s is := by
  obtain ⟨k, rfl⟩ := Nat.exists_eq_add_of_lt hpos
  rw [Nat.zero_add] at hs hlen
  obtain ⟨tr, s', hr, hfirst⟩ := firstTrip_run hs his hlen
  exact ⟨tr, s', hr, exists_tripped hfirst⟩

/-- A relay that is not frozen, with an overload current that it has seen: it counts down, is about
to arm, or its counter is about to go round. -/
theorem trips_of_steady {is : List TickIn} (hs : Steady c s) (hl : Live s) (hu : Unflagged s)
    (his : ∀ j ∈ is, j.Holds c) (hlen : 2 ^ 32 ≤ is.length) : Trips s is := by
  by_cases hpend : s.time ≠ 0#32 ∧ s.counter ≠ 0#32
  · obtain ⟨ht, hne⟩ := hpend
    have hpos : 0 < s.counter.toNat :=
      Nat.pos_of_ne_zero fun h0 => hne (BitVec.eq_of_toNat_eq h0)
    have hlt := s.counter.isLt
    exact trips_of_counting ⟨hs, ht, rfl, hu ht⟩ hpos his (by omega)
  · obtain ⟨i, is, rfl⟩ := List.exists_cons_of_length_pos (l := is) (by omega)
    obtain ⟨hi, his⟩ := List.forall_mem_cons.1 his
    obtain ⟨o, s', h, hs', hkeep⟩ := steady_tick hs hi
    have h0 : s.counter = 0#32 := by
      by_cases ht : s.time = 0#32
      · exact hl ht
      · by_contra hne
        exact hpend ⟨ht, hne⟩
    have hheld := held_of_holds hs.current hi
    rw [List.length_cons] at hlen
    by_cases ht : s.time = 0#32
    · have ha : Arms i s := by
        refine ⟨hheld ▸ hs.overload, ?_, ?_⟩
        · rw [sensed_prevCurrent, hs.success, if_pos rfl, hs.prevCurrent, hheld]
        · rw [sensed_counter, if_pos ht, h0]
      have hcount := counting_of_arms h ha
      have hpos := load_pos i.setting ha.1
      rw [hheld] at hcount hpos
      exact (trips_of_counting hcount hpos his (by omega)).cons h
    · -- the decrement wraps, and the tick keeps that countdown
      have hcnt : (sensed i s).counter = 0#32 - 1#32 := by
        rw [sensed_counter, if_neg ht, h0]
      have hexp : ¬ s.Expires := by
        intro he
        have h1 := he.2
        rw [h0] at h1
        exact absurd h1 (by decide)
      obtain rfl := hkeep (hcnt ▸ by decide)
      have hcount : Counting c 4294967295 (sensed i s) := by
        refine ⟨hs', ?_, ?_, ?_⟩
        · rwa [sensed_time]
        · rw [hcnt]
          rfl
        · rw [sensed_flagTrip, if_neg fun he => hexp he.1, hu ht]
      exact (trips_of_counting hcount (by decide) his (by omega)).cons h

/-! ## Which runs freeze the countdown -/

theorem live_step_iff (hl : Live s) (h : pit i s = .ok (o, s')) :
    Live s' ↔ NoDropOut s (i, o) := by
  constructor
  · intro hl' hlow
    have hcnt : (sensed i s).counter = 0#32 := by
      cases (tick_branch h).1 with
      | reset => exact hl' rfl
      | follow _ _ h0 => exact h0
      | retime hover => exact absurd (sensed_current (i := i) (s := s) ▸ hover) hlow
      | arm _ _ h0 => exact h0
      | keep hover => exact absurd (sensed_current (i := i) (s := s) ▸ hover) hlow
    rw [sensed_counter] at hcnt
    split at hcnt
    · rwa [if_pos ‹_›]
    · rw [if_neg ‹_›]
      exact (sub_one_eq_zero_iff _).1 hcnt
  · intro hc
    exact live_step hl hc h

/-- The countdown is not frozen exactly if no tick dropped out of it. -/
theorem live_iff_guarded (h : Lib.Trace Step init tr s) :
    Live s ↔ Lib.Trace (Lib.Guarded NoDropOut Step) init tr s := by
  have h0 : Live init := fun _ => rfl
  constructor
  · induction h with
    | nil => exact fun _ => .nil _
    | @snoc s s' tr l h hst ih =>
      intro hl'
      have hl : Live s := by
        rw [live_iff]
        intro hf
        obtain ⟨ht, hc, -⟩ := frozen_step hf hst
        exact hf.2 (hc ▸ hl' ht)
      exact .snoc (ih hl) ⟨(live_step_iff hl hst).1 hl', hst⟩
  · intro hg
    exact hg.inv Live h0 fun _ _ _ hl ⟨hc, hst⟩ => live_step hl hc hst

/-- **A sustained overload trips the relay exactly if no tick before it dropped out of a
countdown**, and then within one round of the counter. -/
theorem sustained_trips_iff (tr : Ticks) (s : Relay) (h : Lib.Trace Step init tr s)
    (c : uint16_t) (hc : OVERLOAD < c) :
    (∃ n ≤ 2 ^ 32, ∀ i is, i.measured = some c → (∀ j ∈ is, j.Holds c) → n ≤ is.length →
      Trips s (i :: is)) ↔ Lib.Trace (Lib.Guarded NoDropOut Step) init tr s := by
  rw [← live_iff_guarded h]
  constructor
  · intro ⟨n, _, hall⟩
    rw [live_iff]
    intro hf
    obtain ⟨tr', s', hr, p, hp, htrip⟩ :=
      hall (quietTick 0#8 (some c)) (List.replicate n (quietTick 0#8 none)) rfl
        (fun j hj => List.eq_of_mem_replicate hj ▸ quietTick_holds _ _)
        (Nat.le_of_eq (List.length_replicate).symm)
    have hnone := (frozen_forever tr' s s' hf (Lib.trace_of_run hr)).1 p hp
    rw [hnone] at htrip
    cases htrip
  · intro hl
    have hu : Unflagged s := h.inv Unflagged (fun _ => rfl) fun _ _ _ => unflagged_step
    refine ⟨2 ^ 32, Nat.le_refl _, ?_⟩
    intro i is hi his hlen
    obtain ⟨o, s', hst⟩ := pit_ok hl i
    have hheld : held i s = c := by
      unfold held
      rw [hi]
      rfl
    have hs := steady_of_held hc hheld hst
    have hl' : Live s' := (live_step_iff hl hst).2 fun hlow => absurd (hheld ▸ hc) hlow
    exact (trips_of_steady hs hl' (unflagged_step hu hst) his hlen).cons hst

/-- After two windows at 14 A, the second in the middle of the countdown; the retiming for 5.5 A
then comes to 0. -/
theorem sustained_trips_29549 : ∃ s : Relay, s.counter ≠ 0#32 ∧
    ∃ n ≤ 2 ^ 32, ∀ i is, i.measured = some 11267#16 → (∀ j ∈ is, j.Holds 11267#16) →
      n ≤ is.length → Trips s (i :: is) := by
  obtain ⟨tr, s, h, hp⟩ := Lib.exists_guarded_of_run NoDropOut .overflow pit init
    (windows 2#8 [29549#16, 29549#16]) (fun _ s => decide (s.counter ≠ 0#32)) (by decide +kernel)
  exact ⟨s, of_decide_eq_true hp, (sustained_trips_iff tr s (h.mono fun _ _ _ hst => hst.2)
    11267#16 (by decide)).2 h⟩

end Relay

end Trip
