import IdmtRelay.Trip.Proof.Account
import IdmtRelay.Trip.Proof.Periodic

/-!
# The response time of the device

From a device without a countdown, the first trip signal comes when the buffer has filled and the
countdown has run: one tick for each missing sample, one that measures, one more where the high byte
of the current is new, and the load of the counter (`response_time`). What the device has buffered
when the overload begins shortens it by at most a window.
-/

namespace Trip

open Measure (OVERLOAD NB_Sample)

namespace Relay

variable {i : TickIn} {s s' : Relay} {o : List Out} {c : uint16_t}

/-- No countdown, after the first tick. -/
structure Idle (s : Relay) : Prop where
  time : s.time = 0#32
  counter : s.counter = 0#32
  success : s.success = true

theorem idle_tripped (hs : Idle s) (h : pit i s = .ok (o, s')) : tripped o = false := by
  rw [← Bool.not_eq_true, tripped_iff h]
  exact fun he => he.1.1 hs.time

/-- A tick of an idle relay without overload. -/
theorem idle_low (hs : Idle s) (hlow : ¬ OVERLOAD < held i s) (h : pit i s = .ok (o, s')) :
    Idle s' ∧ s'.prevCurrent = s.prevCurrent := by
  have hcur : (sensed i s).current = held i s := sensed_current
  have hcnt : (sensed i s).counter = 0#32 := by rw [sensed_counter, if_pos hs.time, hs.counter]
  have hprev : (sensed i s).prevCurrent = s.prevCurrent := by
    rw [sensed_prevCurrent, if_pos hs.success]
  cases (tick_branch h).1 with
  | reset => exact ⟨⟨rfl, hcnt, sensed_success⟩, hprev⟩
  | follow hover => exact absurd (hcur ▸ hover) hlow
  | retime hover => exact absurd (hcur ▸ hover) hlow
  | arm hover => exact absurd (hcur ▸ hover) hlow
  | keep hover => exact absurd (hcur ▸ hover) hlow

/-- A tick of an idle relay in overload: it arms, or follows the high byte. -/
theorem idle_over (hs : Idle s) (hc : OVERLOAD < c) (hheld : held i s = c)
    (h : pit i s = .ok (o, s')) :
    if c.hi8 = s.prevCurrent then
      Counting c (tripTime i.setting c * 1000 % 2 ^ 32 / 65536) s'
    else Idle s' ∧ s'.prevCurrent = c.hi8 := by
  have hcur : (sensed i s).current = c := sensed_current.trans hheld
  have hcnt : (sensed i s).counter = 0#32 := by rw [sensed_counter, if_pos hs.time, hs.counter]
  have hprev : (sensed i s).prevCurrent = s.prevCurrent := by
    rw [sensed_prevCurrent, if_pos hs.success]
  split
  · rename_i hhi
    have ha : Arms i s := ⟨hheld ▸ hc, hheld ▸ hprev ▸ hhi, hcnt⟩
    exact hheld ▸ counting_of_arms h ha
  · rename_i hhi
    cases (tick_branch h).1 with
    | reset hlow => exact absurd (hcur ▸ hc) hlow
    | follow =>
      exact ⟨⟨sensed_time.trans hs.time, hcnt, sensed_success⟩, by rw [hcur]⟩
    | retime _ _ hne => exact absurd hcnt hne
    | arm _ hsame => exact absurd (hcur ▸ hsame.trans hprev) hhi
    | keep _ _ hne => exact absurd hcnt hne

end Relay

namespace Device

variable {tr : List ((DeviceIn × List Out) × Device)} {d d' : Device} {l : DeviceIn × List Out}
  {c : uint16_t}

/-- The ticks before the first trip signal. -/
def untilTrip (tr : List ((DeviceIn × List Out) × Device)) : Nat :=
  tr.findIdx fun p => Relay.tripped p.1.2

theorem untilTrip_cons {p : (DeviceIn × List Out) × Device} (h : Relay.tripped p.1.2 = false) :
    untilTrip (p :: tr) = untilTrip tr + 1 := by
  unfold untilTrip
  rw [List.findIdx_cons, h]
  rfl

theorem holds_of_held {i : TickIn} {s : Relay} (h : Relay.held i s = c) : i.Holds c := by
  unfold Relay.held at h
  cases hm : i.measured with
  | none => exact .inl hm
  | some x =>
    rw [hm] at h
    exact .inr (hm.trans (congrArg some h))

/-- A tick of a countdown that leaves the current as it is. -/
theorem counting_step {k : Nat} (hs : Relay.Counting c (k + 1) d.relay) (hst : Step d l d')
    (hcur : d'.relay.current = c) :
    if k = 0 then Relay.tripped l.2 = true
    else Relay.tripped l.2 = false ∧ Relay.Counting c k d'.relay := by
  obtain ⟨measured, a, -, hr⟩ := relay_step hst
  have hheld := (Relay.tick_current hr).symm.trans hcur
  obtain ⟨o, s', h, -, htrip⟩ := Relay.counting_tick hs (holds_of_held hheld)
  have hr' : Relay.pit ⟨measured, l.1.analogPut, l.1.setting⟩ d.relay = .ok (l.2, d'.relay) := hr
  rw [h] at hr'
  cases hr'
  exact htrip

/-- A countdown runs out while the current stays. -/
theorem untilTrip_counting {k : Nat} (hs : Relay.Counting c (k + 1) d.relay)
    (h : Lib.Trace Step d tr d') (hcur : ∀ p ∈ tr, p.2.relay.current = c) (hlen : k < tr.length) :
    untilTrip tr = k := by
  induction k generalizing d tr with
  | zero =>
    obtain ⟨p, tr, rfl⟩ := List.exists_cons_of_length_pos hlen
    have htrip := counting_step hs h.of_cons.1 (hcur p (List.mem_cons_self ..))
    rw [if_pos rfl] at htrip
    unfold untilTrip
    rw [List.findIdx_cons, htrip]
    rfl
  | succ k ih =>
    obtain ⟨p, tr, rfl⟩ := List.exists_cons_of_length_pos (Nat.zero_lt_of_lt hlen)
    obtain ⟨hp, htr⟩ := List.forall_mem_cons.1 hcur
    have htrip := counting_step hs h.of_cons.1 hp
    rw [if_neg (Nat.succ_ne_zero k)] at htrip
    rw [untilTrip_cons htrip.1, ih htrip.2 h.of_cons.2 htr (Nat.lt_of_succ_lt_succ hlen)]

/-- The ticks from the one that measures an overload to the trip signal: the load of the counter,
and one more where the high byte is new. -/
def ticksFor (t : uint32_t) (c : uint16_t) (prevCurrent : uint8_t) : Nat :=
  (if c.hi8 = prevCurrent then 0 else 1) + Relay.load t

variable {setting : uint8_t} {t : uint32_t} {j j' : IDMT}

/-- From an idle relay on whose current is in overload from now on; the setting is read in the first
tick or in the second. -/
theorem untilTrip_over (hs : d.relay.Idle) (hc : OVERLOAD < c)
    (ht : j.getTripTime setting c = .ok (t, j')) (h : Lib.Trace Step d tr d')
    (hset : ∀ p ∈ tr.take 2, p.1.1.setting = setting) (hcur : ∀ p ∈ tr, p.2.relay.current = c)
    (hlen : ticksFor t c d.relay.prevCurrent < tr.length) :
    untilTrip tr = ticksFor t c d.relay.prevCurrent := by
  have hload := Relay.load_eq hc ht
  obtain ⟨k, hk⟩ := Nat.exists_eq_add_of_lt (load_pos setting hc)
  rw [Nat.zero_add] at hk
  have hover : ∀ {d : Device} {p : (DeviceIn × List Out) × Device}
      {tr : List ((DeviceIn × List Out) × Device)}, d.relay.Idle →
      Lib.Trace Step d (p :: tr) d' → p.1.1.setting = setting → p.2.relay.current = c →
      Relay.tripped p.1.2 = false ∧ if c.hi8 = d.relay.prevCurrent then
          Relay.Counting c (k + 1) p.2.relay
        else p.2.relay.Idle ∧ p.2.relay.prevCurrent = c.hi8 := by
    intro d p tr hs h hset hcur
    obtain ⟨measured, a, -, hr⟩ := relay_step h.of_cons.1
    have hstep := Relay.idle_over hs hc ((Relay.tick_current hr).symm.trans hcur) hr
    rw [hset, hk] at hstep
    exact ⟨Relay.idle_tripped hs hr, hstep⟩
  unfold ticksFor at hlen ⊢
  rw [hload, hk] at hlen ⊢
  obtain ⟨p, tr, rfl⟩ := List.exists_cons_of_length_pos (Nat.zero_lt_of_lt hlen)
  obtain ⟨hset₀, hset⟩ := List.forall_mem_cons.1 hset
  obtain ⟨hcur₀, hcur⟩ := List.forall_mem_cons.1 hcur
  obtain ⟨hquiet, hnext⟩ := hover hs h hset₀ hcur₀
  rw [List.length_cons] at hlen
  rw [untilTrip_cons hquiet]
  split at hnext
  · rw [if_pos ‹_›] at hlen ⊢
    rw [untilTrip_counting hnext h.of_cons.2 hcur (by omega), Nat.zero_add]
  · rw [if_neg ‹_›] at hlen ⊢
    obtain ⟨hs', hprev⟩ := hnext
    obtain ⟨q, tr, rfl⟩ := List.exists_cons_of_length_pos (l := tr) (by omega)
    obtain ⟨hset₁, hset⟩ := List.forall_mem_cons.1 hset
    obtain ⟨hcur₁, hcur⟩ := List.forall_mem_cons.1 hcur
    obtain ⟨hquiet', hnext'⟩ := hover hs' h.of_cons.2 hset₁ hcur₁
    rw [List.length_cons] at hlen
    rw [if_pos hprev.symm] at hnext'
    rw [untilTrip_cons hquiet',
      untilTrip_counting hnext' h.of_cons.2.of_cons.2 hcur (by omega)]
    omega

/-- A tick that buffers its reading. -/
theorem buffering_step (hs : d.relay.Idle) (hlow : ¬ OVERLOAD < d.relay.current)
    (hst : Step d l d') (hread : l.1.reading.isSome)
    (hb : d.analog.inputSignal.length < NB_Sample) :
    d'.relay.Idle ∧ d'.relay.prevCurrent = d.relay.prevCurrent ∧
    d'.relay.current = d.relay.current ∧ Relay.tripped l.2 = false ∧
    d'.analog.inputSignal.length = d.analog.inputSignal.length + 1 := by
  obtain ⟨⟨m, a⟩, ha, h⟩ := Base.bind_ok hst
  obtain ⟨⟨o, r⟩, hr, h⟩ := Base.bind_ok h
  cases h
  obtain ⟨x, hx⟩ := Option.isSome_iff_exists.1 hread
  rw [hx] at ha
  have hbuf := acquire_some ha
  rw [if_pos hb] at hbuf
  obtain ⟨rfl, hbuf⟩ := hbuf
  have hheld : ¬ OVERLOAD < Relay.held ⟨none, l.1.analogPut, l.1.setting⟩ d.relay := hlow
  obtain ⟨hidle, hprev⟩ := Relay.idle_low hs hheld hr
  refine ⟨hidle, hprev, Relay.tick_current hr, Relay.idle_tripped hs hr, ?_⟩
  rw [hbuf, List.length_append, List.length_singleton]

/-- **The response time**: from an idle device without overload, if all its readings succeed, the
windows from the first that completes on are measured as the overload current `c`, and `setting` is
read in the tick that completes it and in the next one, the first trip signal comes after the
samples missing in the buffer and the ticks of the countdown. -/
theorem response_time (tr : List ((DeviceIn × List Out) × Device)) (d d' : Device) (n : Nat)
    (h : Lib.Trace Step d tr d') (hs : d.relay.Idle) (hlow : ¬ OVERLOAD < d.relay.current)
    (hn : d.analog.inputSignal.length + n = NB_Sample) (hread : ∀ p ∈ tr, p.1.1.reading.isSome)
    (setting : uint8_t) (hset : ∀ p ∈ (tr.drop n).take 2, p.1.1.setting = setting)
    (c : uint16_t) (hc : OVERLOAD < c) (hcur : ∀ p ∈ tr.drop n, p.2.relay.current = c)
    (j j' : IDMT) (t : uint32_t) (ht : j.getTripTime setting c = .ok (t, j'))
    (hlen : n + ticksFor t c d.relay.prevCurrent < tr.length) :
    untilTrip tr = n + ticksFor t c d.relay.prevCurrent := by
  induction n generalizing d tr with
  | zero =>
    rw [Nat.zero_add] at hlen ⊢
    exact untilTrip_over hs hc ht h hset hcur hlen
  | succ n ih =>
    obtain ⟨p, tr, rfl⟩ := List.exists_cons_of_length_pos (Nat.zero_lt_of_lt hlen)
    obtain ⟨hread₀, hread⟩ := List.forall_mem_cons.1 hread
    obtain ⟨hs', hprev, hsame, hquiet, hb⟩ := buffering_step hs hlow h.of_cons.1 hread₀ (by omega)
    rw [List.length_cons] at hlen
    rw [untilTrip_cons hquiet, ih tr p.2 h.of_cons.2 hs' (hsame ▸ hlow) (by omega) hread hset hcur
      (by rw [hprev]; omega), hprev]
    omega

end Device

instance (s : Relay) : Decidable s.Idle :=
  decidable_of_iff (s.time = 0#32 ∧ s.counter = 0#32 ∧ s.success = true)
    ⟨fun ⟨h1, h2, h3⟩ => ⟨h1, h2, h3⟩, fun h => ⟨h.time, h.counter, h.success⟩⟩

namespace Device

/-- Readings of 16500, 14.4 A, on the extremely inverse curve: 19 samples are missing after the
first tick, the high byte is new, and the counter is loaded with 389. -/
theorem response_time_16500 : ∃ (tr : List ((DeviceIn × List Out) × Device)) (d d' : Device),
    Lib.Trace Step d tr d' ∧ d.relay.Idle ∧ d.analog.inputSignal.length = 1 ∧
    tr.length = 412 ∧ untilTrip tr = 19 + (1 + 389) := by
  obtain ⟨tr, d', h, hp⟩ := Lib.exists_trace_of_run pit init
    (List.replicate 413 { tickOf 16500#16 with setting := 2#8 })
    (fun tr _ => match tr with
      | [] => false
      | p :: tr => decide (p.2.relay.Idle ∧ ¬ OVERLOAD < p.2.relay.current ∧
        p.2.relay.prevCurrent = 0#8 ∧ p.2.analog.inputSignal.length = 1 ∧ tr.length = 412 ∧
        (∀ q ∈ tr, q.1.1.reading.isSome) ∧
        (∀ q ∈ (tr.drop 19).take 2, q.1.1.setting = 2#8) ∧
        ∀ q ∈ tr.drop 19, q.2.relay.current = 29438#16)) (by decide +kernel)
  cases tr with
  | nil => cases hp
  | cons p tr =>
    obtain ⟨hs, hlow, hprev, hbuf, hlen, hread, hset, hcur⟩ := of_decide_eq_true hp
    have hticks : ticksFor 25498#32 29438#16 p.2.relay.prevCurrent = 1 + 389 := by
      rw [hprev]
      rfl
    have hfirst := response_time tr p.2 d' 19 h.of_cons.2 hs hlow (by rw [hbuf]; rfl) hread 2#8 hset
      29438#16 (by decide) hcur ⟨0#32, 0#32⟩ ⟨25498#32, 13540560#32⟩ 25498#32 (by decide +kernel)
      (by rw [hticks, hlen]; decide)
    rw [hticks] at hfirst
    exact ⟨tr, p.2, d', h.of_cons.2, hs, hbuf, hlen, hfirst⟩

end Device

end Trip
