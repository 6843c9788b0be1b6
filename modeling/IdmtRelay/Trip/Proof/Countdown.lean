import IdmtRelay.Trip.Proof.Tick

/-!
# The countdown over whole runs

Two ways in which the countdown goes wrong, and the runs in which it does not.

* A drop-out of the overload clears `Time` but not `Counter`: the next overload finds a countdown
  that nothing decrements. In the runs without a drop-out before the end of the countdown it never
  freezes (`countdown_live`).
* `Counter` can be 0 after a tick with `Time` still set, and the next tick decrements it to
  2^32 - 1: when the countdown ends in a tick whose current has a new high byte, and when
  `GetInverTime` rounds down to 0. In the other runs it never underflows (`countdown_running`).
-/

namespace Trip

open Measure (OVERLOAD)

namespace Relay

variable {inverTime : uint32_t → uint32_t → uint32_t → Except Undef uint32_t} {i : TickIn}
  {s s' : Relay} {o : List Out}

/-! ## The arithmetic of the counter -/

/-- The 32-bit product of `GetInverTime` shifted into `newTime`. -/
theorem toNat_newTime (a b : uint32_t) :
    (BitVec.setWidth 16 ((a * b) >>> 16) : uint16_t).toNat =
      a.toNat * b.toNat % 2 ^ 32 / 65536 := by
  have hlt : a.toNat * b.toNat % 2 ^ 32 / 65536 < 2 ^ 16 := by omega
  rw [BitVec.toNat_setWidth, BitVec.toNat_ushiftRight, BitVec.toNat_mul,
    Nat.shiftRight_eq_div_pow]
  exact Nat.mod_eq_of_lt hlt

/-- `GetInverTime` for a time from 17 on, where the shift is by 0. -/
theorem getInverTime_eq {counter time tripTime : uint32_t} (ht : 16 < time.toNat) :
    getInverTime counter time tripTime = .ok (BitVec.ofNat 32
      (counter.toNat * 65536 / 1000 * tripTime.toNat % 2 ^ 32 / 65536 * 1000 / 65536)) := by
  have hshift : Base.div 16 time.toNat = .ok 0 := by
    rw [Base.div_ok (by omega), Nat.div_eq_of_lt ht]
  unfold getInverTime
  rw [hshift]
  simp only [Base.ok_bind, Base.pure_eq_ok]
  rw [Nat.shiftLeft_zero]
  simp only [toNat_newTime, BitVec.toNat_ofNat, Nat.mod_mul_mod]

theorem getInverTime_ok {counter time tripTime : uint32_t} (ht : time ≠ 0#32) :
    ∃ n, getInverTime counter time tripTime = .ok n := by
  have h : time.toNat ≠ 0 := fun h => ht (BitVec.eq_of_toNat_eq h)
  unfold getInverTime
  rw [Base.div_ok h]
  exact ⟨_, rfl⟩

/-- The counter loaded from a trip time. -/
theorem load_toNat (setting : uint8_t) {c : uint16_t} (hc : OVERLOAD < c) :
    (BitVec.ofNat 32 (tripTime setting c) * 1000#32 / 65536#32).toNat =
      tripTime setting c * 1000 % 2 ^ 32 / 65536 := by
  have ht := (tripTime_range setting hc).2
  rw [BitVec.toNat_udiv, BitVec.toNat_mul, Base.toNat_ofNat_of_lt (by omega)]
  rfl

theorem ofNat_ne_zero {n : Nat} (h : 0 < n) (hlt : n < 2 ^ 32) : BitVec.ofNat 32 n ≠ 0#32 := by
  intro h0
  have := congrArg BitVec.toNat h0
  rw [Base.toNat_ofNat_of_lt hlt] at this
  simp only [BitVec.toNat_ofNat] at this
  omega

/-- An armed countdown: neither `Time` nor `Counter` is 0. -/
theorem armed_pos (setting : uint8_t) {c : uint16_t} (hc : OVERLOAD < c) :
    66 ≤ (BitVec.ofNat 32 (tripTime setting c)).toNat ∧
    BitVec.ofNat 32 (tripTime setting c) * 1000#32 / 65536#32 ≠ 0#32 := by
  obtain ⟨hlo, hhi⟩ := tripTime_range setting hc
  constructor
  · rw [Base.toNat_ofNat_of_lt (by omega)]
    exact hlo
  · intro h0
    have hload := load_toNat setting hc
    have hpos := load_pos setting hc
    rw [h0] at hload
    simp only [BitVec.toNat_ofNat] at hload
    omega

/-! ## A frozen countdown -/

/-- A countdown is pending only while `Time` is set. -/
def Live (s : Relay) : Prop := s.time = 0#32 → s.counter = 0#32

/-- A tick without overload finds no countdown pending, or its end. -/
def NoDropOut (s : Relay) (l : TickIn × List Out) : Prop :=
  ¬ OVERLOAD < held l.1 s → s.counter = if s.time = 0#32 then 0#32 else 1#32

theorem live_step (hl : Live s) (hc : NoDropOut s (i, o))
    (h : tick inverTime i s = .ok (o, s')) : Live s' := by
  have hcnt := sensed_counter (i := i) (s := s)
  have hlive : (sensed i s).counter ≠ 0#32 → s.time ≠ 0#32 := by
    intro hne ht
    rw [hcnt, if_pos ht] at hne
    exact hne (hl ht)
  intro ht
  cases (tick_branch h).1 with
  | reset hover =>
    rw [sensed_current] at hover
    have hcase := hc hover
    show (sensed i s).counter = 0#32
    rw [hcnt, hcase]
    split <;> rfl
  | follow hover hhi h0 => exact h0
  | retime hover hhi h0 =>
    exact absurd (sensed_time.symm.trans ht) (hlive h0)
  | arm hover hhi h0 htt =>
    rw [getTripTime_eq i.setting hover] at htt
    cases htt
    have hpos := (armed_pos i.setting hover).1
    have : BitVec.ofNat 32 (tripTime i.setting (sensed i s).current) = 0#32 := ht
    rw [this] at hpos
    simp at hpos
  | keep hover hhi h0 => exact absurd (sensed_time.symm.trans ht) (hlive h0)

/-- From a state without a frozen countdown no tick faults. -/
theorem pit_ok (hl : Live s) (i : TickIn) : ∃ o s', pit i s = .ok (o, s') := by
  refine tick_ok fun _ hcnt _ tripTime => getInverTime_ok fun ht => hcnt ?_
  rw [sensed_counter, if_pos ht]
  exact hl ht

/-- **Without a drop-out in the middle of a countdown, the countdown never freezes.** After every
tick that ends in overload a pending countdown is being decremented, and `GetInverTime` is never
called with `Time` 0. -/
theorem countdown_live (tr : Ticks) (s : Relay)
    (h : Lib.Trace (Lib.Guarded NoDropOut Step) init tr s) :
    (∀ p ∈ tr, OVERLOAD < p.2.current → p.2.counter ≠ 0#32 → p.2.time ≠ 0#32) ∧
    ∀ i, ∃ o s', pit i s = .ok (o, s') := by
  have hstep : ∀ s l s', Live s → Lib.Guarded NoDropOut Step s l s' → Live s' := by
    intro s ⟨i, o⟩ s' hl ⟨hc, hst⟩
    exact live_step hl hc hst
  have h0 : Live init := fun _ => rfl
  constructor
  · intro p hp _ hcnt ht
    exact hcnt (h.forall_post Live h0 hstep p hp ht)
  · exact pit_ok (h.inv Live h0 hstep)

instance (s : Relay) (l : TickIn × List Out) : Decidable (NoDropOut s l) :=
  inferInstanceAs (Decidable (_ → _))

theorem countdown_live_windows : ∃ (tr : Ticks) (s : Relay), tr.length = 42 ∧
    OVERLOAD < s.current ∧
    (∀ p ∈ tr, OVERLOAD < p.2.current → p.2.counter ≠ 0#32 → p.2.time ≠ 0#32) ∧
    ∀ i, ∃ o s', pit i s = .ok (o, s') := by
  obtain ⟨tr, s, h, hp⟩ := Lib.exists_guarded_of_run NoDropOut .overflow pit init
    (windows 2#8 [29549#16, 29549#16])
    (fun tr s => decide (tr.length = 42 ∧ OVERLOAD < s.current)) (by decide +kernel)
  obtain ⟨h42, hover⟩ := of_decide_eq_true hp
  exact ⟨tr, s, h42, hover, countdown_live tr s h⟩

/-- An overload of 14 A interrupted by one window at 0.45 A: its countdown is frozen. -/
theorem countdown_frozen : ∃ (tr : Ticks) (s : Relay),
    Lib.run pit init (windows 2#8 [29549#16, 925#16, 29549#16]) = .ok (tr, s) ∧
    OVERLOAD < s.current ∧ s.counter ≠ 0#32 ∧ s.time = 0#32 := by
  obtain ⟨tr, s, h, hp⟩ := Lib.exists_run pit init (windows 2#8 [29549#16, 925#16, 29549#16])
    (fun _ s => decide (OVERLOAD < s.current ∧ s.counter ≠ 0#32 ∧ s.time = 0#32))
    (by decide +kernel)
  exact ⟨tr, s, h, of_decide_eq_true hp⟩

/-! ## A counter that underflows -/

/-- The countdown does not end in a tick whose overload current has a new high byte, and a retiming
leaves at least a millisecond. -/
def NoUnderflow (s : Relay) (l : TickIn × List Out) : Prop :=
  s.time ≠ 0#32 → OVERLOAD < held l.1 s → (held l.1 s).hi8 ≠ s.prevCurrent →
    s.counter ≠ 1#32 ∧ 66 * 65536 ≤
      (s.counter.toNat - 1) * 65536 / 1000 * tripTime l.1.setting (held l.1 s) % 2 ^ 32

instance (s : Relay) (l : TickIn × List Out) : Decidable (NoUnderflow s l) :=
  inferInstanceAs (Decidable (_ → _))

/-- A running countdown: what arming establishes. -/
structure Running (s : Relay) : Prop where
  counter : s.time ≠ 0#32 → s.counter ≠ 0#32
  time : s.time ≠ 0#32 → 66 ≤ s.time.toNat
  success : s.time ≠ 0#32 → s.success = true

theorem pred_toNat {x : uint32_t} (h : x ≠ 0#32) : (x - 1#32).toNat = x.toNat - 1 := by
  have h0 : x.toNat ≠ 0 := fun h0 => h (BitVec.eq_of_toNat_eq h0)
  have hlt := x.isLt
  rw [BitVec.toNat_sub]
  simp only [BitVec.toNat_ofNat]
  omega

/-- A retiming that leaves at least a millisecond. -/
theorem getInverTime_ne_zero {counter time n : uint32_t} {setting : uint8_t} {c : uint16_t}
    (hc : OVERLOAD < c) (ht : 16 < time.toNat)
    (hle : 66 * 65536 ≤ counter.toNat * 65536 / 1000 * tripTime setting c % 2 ^ 32)
    (hn : getInverTime counter time (BitVec.ofNat 32 (tripTime setting c)) = .ok n) :
    n ≠ 0#32 := by
  have hrange := (tripTime_range setting hc).2
  rw [getInverTime_eq ht, Base.toNat_ofNat_of_lt (by omega)] at hn
  cases hn
  exact ofNat_ne_zero (by omega) (by omega)

theorem running_step (hr : Running s) (hc : NoUnderflow s (i, o))
    (h : pit i s = .ok (o, s')) : Running s' := by
  have hcnt := sensed_counter (i := i) (s := s)
  have hprev := sensed_prevCurrent (i := i) (s := s)
  have htime : (sensed i s).time = s.time := sensed_time
  have hnew : s.time ≠ 0#32 → (held i s).hi8 ≠ (sensed i s).prevCurrent →
      (held i s).hi8 ≠ s.prevCurrent := by
    intro ht hhi
    rwa [hprev, hr.success ht, if_pos rfl] at hhi
  cases (tick_branch h).1 with
  | reset => exact ⟨fun ht => absurd rfl ht, fun ht => absurd rfl ht, fun ht => absurd rfl ht⟩
  | follow hover hhi h0 =>
    rw [sensed_current] at hover hhi
    have ht : s.time = 0#32 := by
      by_contra ht
      rw [hcnt, if_neg ht, sub_one_eq_zero_iff] at h0
      exact (hc ht hover (hnew ht hhi)).1 h0
    have ht' : (sensed i s).time = 0#32 := sensed_time.trans ht
    exact ⟨fun hn => absurd ht' hn, fun hn => absurd ht' hn, fun hn => absurd ht' hn⟩
  | @retime tt n idmt hover hhi h0 htt hn =>
    refine ⟨?_, ?_, fun _ => sensed_success⟩
    · intro ht
      have hts : s.time ≠ 0#32 := htime ▸ ht
      have h66 := hr.time hts
      rw [getTripTime_eq i.setting hover, sensed_current] at htt
      rw [sensed_current] at hover hhi
      cases htt
      obtain ⟨-, hle⟩ := hc hts hover (hnew hts hhi)
      rw [← pred_toNat (hr.counter hts)] at hle
      rw [hcnt, if_neg hts, htime] at hn
      exact getInverTime_ne_zero hover (by omega) hle hn
    · intro ht
      show 66 ≤ (sensed i s).time.toNat
      rw [htime]
      exact hr.time (htime ▸ ht)
  | arm hover hhi h0 htt =>
    rw [getTripTime_eq i.setting hover] at htt
    cases htt
    obtain ⟨h66, hload⟩ := armed_pos i.setting hover
    exact ⟨fun _ => hload, fun _ => h66, fun _ => sensed_success⟩
  | keep hover hhi h0 =>
    refine ⟨fun _ => h0, ?_, fun _ => sensed_success⟩
    intro ht
    rw [htime] at ht ⊢
    exact hr.time ht

/-- **The counter never underflows** in a run in which no countdown ends in a tick whose overload
current has a new high byte, and every retiming leaves at least a millisecond. -/
theorem countdown_running (tr : Ticks) (s : Relay)
    (h : Lib.Trace (Lib.Guarded NoUnderflow Step) init tr s) :
    s.time ≠ 0#32 → s.counter ≠ 0#32 := by
  have hstep : ∀ s l s', Running s → Lib.Guarded NoUnderflow Step s l s' → Running s' := by
    intro s ⟨i, o⟩ s' hr ⟨hc, hst⟩
    exact running_step hr hc hst
  have h0 : Running init :=
    ⟨fun ht => absurd rfl ht, fun ht => absurd rfl ht, fun ht => absurd rfl ht⟩
  exact (h.inv Running h0 hstep).counter

theorem countdown_running_windows : ∃ (tr : Ticks) (s : Relay), tr.length = 63 ∧
    s.time ≠ 0#32 ∧ (s.time ≠ 0#32 → s.counter ≠ 0#32) := by
  obtain ⟨tr, s, h, hp⟩ := Lib.exists_guarded_of_run NoUnderflow .overflow pit init
    (windows 2#8 [29549#16, 29549#16, 29500#16])
    (fun tr s => decide (tr.length = 63 ∧ s.time ≠ 0#32)) (by decide +kernel)
  obtain ⟨h63, ht⟩ := of_decide_eq_true hp
  exact ⟨tr, s, h63, ht, countdown_running tr s h⟩

/-- An overload that falls from 14 A to 5.5 A: `GetInverTime` returns 0, and the next tick
decrements the counter to 2^32 - 1. -/
theorem countdown_underflow : ∃ (tr : Ticks) (s : Relay),
    Lib.run pit init (windows 2#8 [29549#16, 11267#16]) = .ok (tr, s) ∧
    s.time ≠ 0#32 ∧ s.counter = 0#32 := by
  obtain ⟨tr, s, h, hp⟩ := Lib.exists_run pit init (windows 2#8 [29549#16, 11267#16])
    (fun _ s => decide (s.time ≠ 0#32 ∧ s.counter = 0#32)) (by decide +kernel)
  exact ⟨tr, s, h, of_decide_eq_true hp⟩

end Relay

end Trip
