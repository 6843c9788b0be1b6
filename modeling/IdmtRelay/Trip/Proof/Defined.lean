import IdmtRelay.Trip.Proof.Account
import IdmtRelay.Trip.Proof.Frozen

/-!
# When a tick is defined

A tick divides by the period at the second crossing, by the iterates of the root over a complete
window, and by `Time` when it retimes. Each division has its condition on the device before the
tick and on the readings so far, and a tick after any run is defined exactly if all three hold
(`pit_defined_iff`).
-/

namespace Trip

open Measure (OVERLOAD NB_Sample Analog getCurrent squareSum)
open Account

theorem Relay.tick_success {i : TickIn} {s s' : Relay} {o : List Out}
    (h : Relay.pit i s = .ok (o, s')) : s'.success = true := by
  cases (Relay.tick_branch h).1 <;> exact Relay.sensed_success

namespace Device

variable {tr : List ((DeviceIn × List Out) × Device)} {d d' : Device} {a : Analog} {x : int16_t}

/-! ## The three divisions -/

theorem getSignal_defined_iff :
    (∃ r, a.getSignal (some x) = .ok r) ↔ (a.Measures x → a.period.toNat % 4096 ≠ 0) := by
  have hperiod : (a.noted x).period = BitVec.ofNat 16 a.period.toNat := by
    rw [(Analog.noted_counts a x).1, BitVec.ofNat_toNat, BitVec.setWidth_eq]
  by_cases hm : a.Measures x
  · have hcount : (a.noted x).countPeriod =
        ((a.noted x).getFrequency >>= fun r => .ok { r.2 with frequency := r.1 }) := if_neg hm
    rw [Analog.getSignal_eq, hcount, Analog.getFrequency_eq hperiod]
    split
    · rename_i h0
      refine iff_of_false ?_ fun hne => hne hm h0
      intro ⟨r, hr⟩
      cases hr
    · rename_i h0
      exact iff_of_true ⟨_, rfl⟩ fun _ => h0
  · exact iff_of_true ⟨_, Analog.getSignal_counted hm⟩ fun h => absurd h hm

theorem relay_defined_iff {i : TickIn} {s : Relay} :
    (∃ o s', Relay.pit i s = .ok (o, s')) ↔ ¬ (s.Frozen ∧ Relay.Changes i s) := by
  by_cases hf : s.Frozen
  · by_cases hc : Relay.Changes i s
    · refine iff_of_false ?_ fun hn => hn ⟨hf, hc⟩
      intro ⟨o, s', hok⟩
      rw [Relay.frozen_fault hf hc] at hok
      cases hok
    · exact iff_of_true (Relay.frozen_ok hc) fun h => hc h.2
  · exact iff_of_true (Relay.pit_ok (Relay.live_iff.2 hf) i) fun h => hf h.1

/-- The acquisition of a tick, after the readings `xs`. -/
theorem acquire_defined_iff {xs : List int16_t} {current : uint16_t} {reading : Option int16_t}
    (hacc : Accounted xs a current) : (∃ r, acquire a reading = .ok r) ↔
      (∀ x, reading = some x → a.Measures x → a.period.toNat % 4096 ≠ 0) ∧
      ∀ k < blocks (xs ++ reading.toList),
        ¬ 65536 ∣ squareSum (window (xs ++ reading.toList) k) := by
  constructor
  · intro ⟨⟨c, a'⟩, h⟩
    refine ⟨?_, (accounted_acquire hacc h).defined⟩
    rintro x rfl
    obtain ⟨r, hget, -⟩ := Base.bind_ok h
    exact getSignal_defined_iff.1 ⟨r, hget⟩
  · intro ⟨hfreq, hdef⟩
    cases reading with
    | none => exact ⟨_, rfl⟩
    | some x =>
      obtain ⟨⟨full, b⟩, hget⟩ := getSignal_defined_iff.2 (hfreq x rfl)
      have hs := Analog.getSignal_some hget
      have hlen : a.inputSignal.length = (pending xs).length := by
        rw [hacc.buffer, List.length_map]
      unfold acquire
      rw [hget, Base.ok_bind]
      split at hs
      · obtain ⟨rfl, -⟩ := hs
        exact ⟨_, rfl⟩
      · obtain ⟨rfl, hbuf⟩ := hs
        have hfull : (pending xs).length = NB_Sample := pending_full (hlen ▸ ‹_›)
        obtain ⟨hblocks, -, hlast⟩ := blocks_full (x := x) hfull
        have hdvd := hdef (blocks xs) (by rw [Option.toList_some, hblocks]; omega)
        rw [Option.toList_some, hlast] at hdvd
        have hcur := getCurrent_window hfull (hbuf.trans hacc.buffer)
        rw [if_neg hdvd] at hcur
        obtain ⟨c, a', hcur⟩ := hcur
        simp only [if_true, hcur]
        exact ⟨_, rfl⟩

/-! ## A tick after any run -/

/-- The first tick initialises `PrevCurrent`, and no countdown is pending before it. -/
theorem success_of_pending (h : Lib.Trace Step init tr d) (hne : d.relay.counter ≠ 0#32) :
    d.relay.success = true := by
  refine h.inv (fun d => d.relay.counter ≠ 0#32 → d.relay.success = true)
    (fun h0 => absurd rfl h0) ?_ hne
  intro d l d' _ hst _
  obtain ⟨measured, a, -, hr⟩ := relay_step hst
  exact Relay.tick_success hr

/-- **A tick after any run is defined exactly if** no period ends in it that is a multiple of 4096
samples, no window ends in it whose sum of squares is 0 modulo 2^16, and it does not retime a frozen
countdown. -/
theorem pit_defined_iff (tr : List ((DeviceIn × List Out) × Device)) (d : Device)
    (h : Lib.Trace Step init tr d) (i : DeviceIn) (xs : List int16_t)
    (hxs : xs = readings tr ++ i.reading.toList) :
    (∃ o d', pit i d = .ok (o, d')) ↔
      (∀ x, i.reading = some x → d.analog.Measures x → d.analog.period.toNat % 4096 ≠ 0) ∧
      (∀ k < blocks xs, ¬ 65536 ∣ squareSum (window xs k)) ∧
      ¬ (d.relay.Frozen ∧ OVERLOAD < currentAfter xs ∧
        (currentAfter xs).hi8 ≠ d.relay.prevCurrent) := by
  subst hxs
  have hacc := accounted h
  rw [← and_assoc, ← acquire_defined_iff hacc]
  have hrelay : ∀ c a, acquire d.analog i.reading = .ok (c, a) →
      ((∃ o s', Relay.pit ⟨c, i.analogPut, i.setting⟩ d.relay = .ok (o, s')) ↔
        ¬ (d.relay.Frozen ∧ OVERLOAD < currentAfter (readings tr ++ i.reading.toList) ∧
          (currentAfter (readings tr ++ i.reading.toList)).hi8 ≠ d.relay.prevCurrent)) := by
    intro c a ha
    have hheld : Relay.held ⟨c, i.analogPut, i.setting⟩ d.relay =
        currentAfter (readings tr ++ i.reading.toList) := (accounted_acquire hacc ha).current
    rw [relay_defined_iff]
    refine not_congr (and_congr_right fun hf => ?_)
    unfold Relay.Changes
    rw [Relay.sensed_prevCurrent, success_of_pending h hf.2, if_pos rfl, hheld]
  constructor
  · intro ⟨o, d', hst⟩
    obtain ⟨⟨c, a⟩, ha, hst⟩ := Base.bind_ok hst
    obtain ⟨⟨o', r⟩, hr, -⟩ := Base.bind_ok hst
    exact ⟨⟨_, ha⟩, (hrelay c a ha).1 ⟨o', r, hr⟩⟩
  · intro ⟨⟨⟨c, a⟩, ha⟩, hn⟩
    obtain ⟨o, s', hr⟩ := (hrelay c a ha).2 hn
    unfold pit
    rw [ha, Base.ok_bind]
    simp only [hr, Base.ok_bind]
    exact ⟨_, _, rfl⟩

/-- An overload of 14.4 A interrupted by a window at 0.5 A, and one at 4.7 A: the reading that ends
its block is not defined. -/
theorem pit_defined_interrupted : ∃ (tr : List ((DeviceIn × List Out) × Device)) (d : Device),
    readings tr = List.replicate 42 16500#16 ++ List.replicate 21 573#16 ++
      List.replicate 20 5400#16 ∧
    ¬ ∃ o d', pit (tickOf 5400#16) d = .ok (o, d') := by
  obtain ⟨tr, d, h, hp⟩ := Lib.exists_trace_of_run pit init
    ((List.replicate 42 16500#16 ++ List.replicate 21 573#16 ++
      List.replicate 20 5400#16).map tickOf)
    (fun tr d => decide (readings tr = List.replicate 42 16500#16 ++ List.replicate 21 573#16 ++
      List.replicate 20 5400#16 ∧ d.relay.Frozen ∧ d.relay.prevCurrent = 0x72#8))
    (by decide +kernel)
  obtain ⟨hread, hf, hprev⟩ := of_decide_eq_true hp
  refine ⟨tr, d, hread, ?_⟩
  rw [pit_defined_iff tr d h (tickOf 5400#16) _ rfl]
  intro ⟨_, _, hn⟩
  refine hn ⟨hf, ?_⟩
  rw [hread, hprev]
  decide +kernel

end Device

end Trip
