import IdmtRelay.Trip.Proof.Countdown

/-!
# The remaining time against the total

Arming sets `Time` and `Counter` together, but retiming sets `Counter` from the trip time of the new
current and leaves `Time` at that of the old one. So the remaining time can exceed the total, in the
tick of a retiming or of an underflow. `WithinTotal` is what keeps one step from doing so, exactly
(`bounded_step_iff`), and hence exact for whole runs (`counter_le_total_iff`).
-/

namespace Trip

open Measure (OVERLOAD)

namespace Relay

variable {i : TickIn} {s s' : Relay} {o : List Out}

/-- The remaining time is at most the total, in milliseconds. -/
def Bounded (s : Relay) : Prop :=
  s.time ≠ 0#32 → s.counter.toNat ≤ s.time.toNat * 1000 / 65536

instance (s : Relay) : Decidable s.Bounded := inferInstanceAs (Decidable (_ → _))

/-- What a tick in overload needs to keep the remaining time below the total: with the high byte of
`PrevCurrent`, a counter to decrement; with another one, a countdown that ends or whose retiming
comes to no more than the total, which bounds the 32-bit product of the remaining time and the new
trip time. -/
def WithinTotal (s : Relay) (l : TickIn × List Out) : Prop :=
  s.time ≠ 0#32 → OVERLOAD < held l.1 s →
    if (held l.1 s).hi8 = s.prevCurrent then s.counter ≠ 0#32
    else s.counter = 1#32 ∨
      (s.counter - 1#32).toNat * 65536 / 1000 * tripTime l.1.setting (held l.1 s) % 2 ^ 32 /
        65536 * 1000 < 65536 * (s.time.toNat * 1000 / 65536 + 1)

instance (s : Relay) (l : TickIn × List Out) : Decidable (WithinTotal s l) :=
  inferInstanceAs (Decidable (_ → _))

/-- What every tick keeps of a set `Time`: it is a trip time, and `PrevCurrent` is initialised. -/
structure Timed (s : Relay) : Prop where
  time : s.time ≠ 0#32 → 66 ≤ s.time.toNat
  success : s.time ≠ 0#32 → s.success = true

theorem timed_step (ht : Timed s) (h : pit i s = .ok (o, s')) : Timed s' := by
  have htime : (sensed i s).time = s.time := sensed_time
  have hkeep : (sensed i s).time ≠ 0#32 → 66 ≤ (sensed i s).time.toNat := by
    rw [htime]
    exact ht.time
  cases (tick_branch h).1 with
  | reset => exact ⟨fun h0 => absurd rfl h0, fun h0 => absurd rfl h0⟩
  | follow => exact ⟨hkeep, fun _ => sensed_success⟩
  | retime => exact ⟨hkeep, fun _ => sensed_success⟩
  | keep => exact ⟨hkeep, fun _ => sensed_success⟩
  | arm hover hhi h0 htt =>
    rw [getTripTime_eq i.setting hover] at htt
    cases htt
    exact ⟨fun _ => (armed_pos i.setting hover).1, fun _ => sensed_success⟩

/-- Arming loads no more than the total. -/
theorem load_le (setting : uint8_t) {c : uint16_t} (hc : OVERLOAD < c) :
    (BitVec.ofNat 32 (tripTime setting c) * 1000#32 / 65536#32).toNat ≤
      (BitVec.ofNat 32 (tripTime setting c)).toNat * 1000 / 65536 := by
  have hrange := (tripTime_range setting hc).2
  rw [load_toNat setting hc, Base.toNat_ofNat_of_lt (by omega)]
  exact Nat.div_le_div_right (Nat.mod_le _ _)

/-- The decremented counter stays below the total exactly if there was one to decrement. -/
theorem pred_le_iff {c : uint32_t} {n : Nat} (hn : n < 65536000) (hc : c.toNat ≤ n) :
    (c - 1#32).toNat ≤ n ↔ c ≠ 0#32 := by
  constructor
  · rintro hle rfl
    have h0 : (0#32 - 1#32).toNat = 4294967295 := rfl
    omega
  · intro h0
    rw [pred_toNat h0]
    omega

/-- **One step keeps the remaining time below the total exactly when it meets the condition.** -/
theorem bounded_step_iff (ht : Timed s) (hb : Bounded s) (h : pit i s = .ok (o, s')) :
    Bounded s' ↔ WithinTotal s (i, o) := by
  have htime : (sensed i s).time = s.time := sensed_time
  have hcnt : s.time ≠ 0#32 → (sensed i s).counter = s.counter - 1#32 := by
    intro h0
    rw [sensed_counter, if_neg h0]
  have hprev : s.time ≠ 0#32 → (sensed i s).prevCurrent = s.prevCurrent := by
    intro h0
    rw [sensed_prevCurrent, ht.success h0, if_pos rfl]
  cases (tick_branch h).1 with
  | reset hlow =>
    rw [sensed_current] at hlow
    exact iff_of_true (fun h0 => absurd rfl h0) fun _ hover => absurd hover hlow
  | follow hover hhi h0 =>
    rw [sensed_current] at hhi
    refine iff_of_true (fun _ => ?_) fun hne _ => ?_
    · show (sensed i s).counter.toNat ≤ _
      rw [h0]
      exact Nat.zero_le _
    · rw [hprev hne] at hhi
      rw [hcnt hne, sub_one_eq_zero_iff] at h0
      rw [if_neg hhi]
      exact .inl h0
  | @retime tt n idmt hover hhi h0 htt hn =>
    rw [getTripTime_eq i.setting hover] at htt
    cases htt
    rw [sensed_current] at hover hhi hn
    by_cases hne : s.time = 0#32
    · exact iff_of_true (fun hne' => absurd (htime.trans hne) hne') fun hne' => absurd hne hne'
    · have h66 := ht.time hne
      have hrange := (tripTime_range i.setting hover).2
      rw [hcnt hne] at h0 hn
      rw [htime, getInverTime_eq (by omega), Base.toNat_ofNat_of_lt (by omega)] at hn
      cases hn
      have h1 : s.counter ≠ 1#32 := mt (sub_one_eq_zero_iff _).2 h0
      rw [hprev hne] at hhi
      simp only [Bounded, WithinTotal, htime, hne, ne_eq, not_false_eq_true, true_implies, hover,
        hhi, if_false, h1, false_or]
      rw [Base.toNat_ofNat_of_lt (by omega), Nat.div_le_iff_le_mul_add_pred (by omega)]
      omega
  | arm hover hhi h0 htt =>
    rw [getTripTime_eq i.setting hover] at htt
    cases htt
    refine iff_of_true (fun _ => load_le i.setting hover) fun hne _ => ?_
    rw [sensed_current] at hhi
    rw [hprev hne] at hhi
    rw [hcnt hne] at h0
    rw [if_pos hhi]
    intro hzero
    rw [hzero] at h0
    exact absurd h0 (by decide)
  | keep hover hhi h0 =>
    rw [sensed_current] at hover hhi
    by_cases hne : s.time = 0#32
    · exact iff_of_true (fun hne' => absurd (htime.trans hne) hne') fun hne' => absurd hne hne'
    · have htot : s.time.toNat * 1000 / 65536 < 65536000 := by
        have := s.time.isLt
        omega
      rw [hprev hne] at hhi
      simp only [Bounded, WithinTotal, htime, hcnt hne, hne, ne_eq, not_false_eq_true,
        true_implies, hover, hhi, if_true]
      exact pred_le_iff htot (hb hne)

/-- **The remaining time never exceeds the total** in a run exactly when all its steps meet the
condition. -/
theorem counter_le_total_iff (tr : Ticks) (s : Relay) (h : Lib.Trace Step init tr s) :
    (∀ p ∈ tr, p.2.time ≠ 0#32 → p.2.counter.toNat ≤ p.2.time.toNat * 1000 / 65536) ↔
      Lib.Trace (Lib.Guarded WithinTotal Step) init tr s := by
  have hinit : Timed init := ⟨fun h0 => absurd rfl h0, fun h0 => absurd rfl h0⟩
  have hb : Bounded init := fun h0 => absurd rfl h0
  refine h.forall_post_iff (P := Bounded) hinit ?_ hb ?_
  · intro s ⟨i, o⟩ s' ht hst
    exact timed_step ht hst
  · intro s ⟨i, o⟩ s' ht hb hst
    exact bounded_step_iff ht hb hst

/-- An overload that rises from 14 A to 16 A: the remaining 366 ms become 113 ms of a total that
stays at 386 ms. -/
theorem counter_le_total_33000 : ∃ (tr : Ticks) (s : Relay), tr.length = 42 ∧
    s.counter = 113#32 ∧
    ∀ p ∈ tr, p.2.time ≠ 0#32 → p.2.counter.toNat ≤ p.2.time.toNat * 1000 / 65536 := by
  obtain ⟨tr, s, h, hp⟩ := Lib.exists_guarded_of_run WithinTotal .overflow pit init
    (windows 2#8 [29549#16, 33000#16])
    (fun tr s => decide (tr.length = 42 ∧ s.counter = 113#32)) (by decide +kernel)
  obtain ⟨h42, hc⟩ := of_decide_eq_true hp
  exact ⟨tr, s, h42, hc, (counter_le_total_iff tr s (h.mono fun _ _ _ hst => hst.2)).2 h⟩

/-- An overload that falls from 14 A to 5.5 A: `Counter` becomes 999 with `Time` at 386 ms. -/
theorem counter_exceeds_total : ∃ (tr : Ticks) (s : Relay),
    Lib.run pit init (windows 2#8 [29549#16, 11272#16]) = .ok (tr, s) ∧ s.time ≠ 0#32 ∧
    s.counter.toNat = 999 ∧ s.time.toNat * 1000 / 65536 = 386 := by
  obtain ⟨tr, s, h, hp⟩ := Lib.exists_run pit init (windows 2#8 [29549#16, 11272#16])
    (fun _ s => decide (s.time ≠ 0#32 ∧ s.counter.toNat = 999 ∧
      s.time.toNat * 1000 / 65536 = 386)) (by decide +kernel)
  exact ⟨tr, s, h, of_decide_eq_true hp⟩

end Relay

end Trip
