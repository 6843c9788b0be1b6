import IdmtRelay.Trip.Proof.TripTime
import IdmtRelay.Trip.Relay

/-!
# What one tick can do

`sensed` is the state in which a tick takes its last branch; its fields are those of the state
before, counted down and measured. `Branch` lists what the branch can then do (`tick_branch`), and
`tripped_iff` and `signalled_iff` say when a tick calls `PutSample(5, 2)` and when that call returns
true.
-/

namespace Trip

open Measure (OVERLOAD)

namespace Relay

variable {inverTime : uint32_t → uint32_t → uint32_t → Except Undef uint32_t} {i : TickIn}
  {s s' : Relay} {o : List Out}

/-! ## The state in which the branch is taken -/

/-- `Current.l` at the end of the tick. -/
def held (i : TickIn) (s : Relay) : uint16_t := i.measured.getD s.current

/-- The countdown of the tick ends. -/
def Expires (s : Relay) : Prop := s.time ≠ 0#32 ∧ s.counter = 1#32

instance (s : Relay) : Decidable s.Expires := inferInstanceAs (Decidable (_ ∧ _))

theorem sub_one_eq_zero_iff (x : uint32_t) : x - 1#32 = 0#32 ↔ x = 1#32 := by
  constructor
  · intro h
    rw [← BitVec.sub_add_cancel x 1#32, h]
    rfl
  · rintro rfl
    rfl

theorem countdown_expires (h : s.Expires) : countdown i s =
    if s.flagTrip then ([], { s with counter := 0#32 })
    else ([(putSample i.analogPut 5#16 2#8).2],
      { s with counter := 0#32, flagTrip := i.analogPut 2#8 16385#16 }) := by
  obtain ⟨ht, hc⟩ := h
  unfold countdown
  simp only [ne_eq, ht, not_false_eq_true, if_true, hc, BitVec.sub_self]
  cases s.flagTrip <;> rfl

theorem countdown_of_not_expires (h : ¬ s.Expires) : countdown i s =
    ([], { s with counter := if s.time = 0#32 then s.counter else s.counter - 1#32 }) := by
  unfold countdown
  by_cases ht : s.time = 0#32
  · rw [if_neg (not_not.2 ht), if_pos ht]
  · have hc : s.counter - 1#32 ≠ 0#32 := fun hc => h ⟨ht, (sub_one_eq_zero_iff _).1 hc⟩
    simp only [ne_eq, ht, not_false_eq_true, if_true, if_neg hc, if_false]

/-- What the countdown leaves alone, and the counter. -/
theorem countdown_frame : (countdown i s).2.time = s.time ∧
    (countdown i s).2.current = s.current ∧ (countdown i s).2.prevCurrent = s.prevCurrent ∧
    (countdown i s).2.success = s.success ∧
    (countdown i s).2.counter = if s.time = 0#32 then s.counter else s.counter - 1#32 := by
  by_cases h : s.Expires
  · rw [countdown_expires h, if_neg h.1, h.2]
    cases s.flagTrip <;> exact ⟨rfl, rfl, rfl, rfl, rfl⟩
  · rw [countdown_of_not_expires h]
    exact ⟨rfl, rfl, rfl, rfl, rfl⟩

theorem latch_measure_frame : (latch (measure i s)).time = s.time ∧
    (latch (measure i s)).counter = s.counter ∧ (latch (measure i s)).flagTrip = s.flagTrip ∧
    (latch (measure i s)).current = held i s ∧ (latch (measure i s)).success = true ∧
    (latch (measure i s)).prevCurrent = if s.success then s.prevCurrent else (held i s).hi8 := by
  unfold latch measure held
  cases i.measured <;> cases hs : s.success <;> simp [hs]

@[simp] theorem sensed_time : (sensed i s).time = s.time :=
  latch_measure_frame.1.trans countdown_frame.1

@[simp] theorem sensed_current : (sensed i s).current = held i s := by
  have h : held i (countdown i s).2 = held i s := by
    unfold held
    rw [countdown_frame.2.1]
  exact latch_measure_frame.2.2.2.1.trans h

@[simp] theorem sensed_success : (sensed i s).success = true :=
  latch_measure_frame.2.2.2.2.1

theorem sensed_prevCurrent :
    (sensed i s).prevCurrent = if s.success then s.prevCurrent else (held i s).hi8 := by
  obtain ⟨-, hc, hp, hs, -⟩ := countdown_frame (i := i) (s := s)
  have h : held i (countdown i s).2 = held i s := by
    unfold held
    rw [hc]
  rw [sensed, latch_measure_frame.2.2.2.2.2, hp, hs, h]

theorem sensed_counter :
    (sensed i s).counter = if s.time = 0#32 then s.counter else s.counter - 1#32 :=
  latch_measure_frame.2.1.trans countdown_frame.2.2.2.2

theorem sensed_flagTrip : (sensed i s).flagTrip =
    if s.Expires ∧ s.flagTrip = false then i.analogPut 2#8 16385#16 else s.flagTrip := by
  rw [sensed, latch_measure_frame.2.2.1]
  by_cases h : s.Expires
  · rw [countdown_expires h]
    cases hf : s.flagTrip <;> simp [h]
  · rw [countdown_of_not_expires h]
    simp [h]

/-! ## The branches -/

/-- From the state `b` in which the branch is taken to the state after the tick. -/
inductive Branch (inverTime : uint32_t → uint32_t → uint32_t → Except Undef uint32_t)
    (i : TickIn) (b : Relay) : Relay → Prop
  | reset : ¬ OVERLOAD < b.current → Branch inverTime i b { b with time := 0#32 }
  | follow : OVERLOAD < b.current → b.current.hi8 ≠ b.prevCurrent → b.counter = 0#32 →
      Branch inverTime i b { b with prevCurrent := b.current.hi8, flagTrip := false }
  | retime {tripTime counter : uint32_t} {idmt : IDMT} :
      OVERLOAD < b.current → b.current.hi8 ≠ b.prevCurrent → b.counter ≠ 0#32 →
      b.idmt.getTripTime i.setting b.current = .ok (tripTime, idmt) →
      inverTime b.counter b.time tripTime = .ok counter →
      Branch inverTime i b { b with
        idmt := idmt, counter := counter, prevCurrent := b.current.hi8, flagTrip := false }
  | arm {tripTime : uint32_t} {idmt : IDMT} :
      OVERLOAD < b.current → b.current.hi8 = b.prevCurrent → b.counter = 0#32 →
      b.idmt.getTripTime i.setting b.current = .ok (tripTime, idmt) →
      Branch inverTime i b { b with
        idmt := idmt, time := tripTime, counter := tripTime * 1000#32 / 65536#32,
        flagTrip := false }
  | keep : OVERLOAD < b.current → b.current.hi8 = b.prevCurrent → b.counter ≠ 0#32 →
      Branch inverTime i b b

theorem protect_branch {b : Relay} (hc : OVERLOAD < b.current)
    (h : protect inverTime i b = .ok s') : Branch inverTime i b s' := by
  unfold protect at h
  by_cases hhi : b.current.hi8 = b.prevCurrent
  · rw [if_neg (not_not.2 hhi)] at h
    by_cases hcnt : b.counter = 0#32
    · rw [if_pos hcnt] at h
      obtain ⟨⟨tripTime, idmt⟩, ht, h⟩ := Base.bind_ok h
      cases h
      exact .arm hc hhi hcnt ht
    · rw [if_neg hcnt] at h
      cases h
      exact .keep hc hhi hcnt
  · rw [if_pos hhi] at h
    by_cases hcnt : b.counter = 0#32
    · rw [if_neg (not_not.2 hcnt)] at h
      cases h
      exact .follow hc hhi hcnt
    · rw [if_pos hcnt] at h
      obtain ⟨b₁, h₁, h⟩ := Base.bind_ok h
      obtain ⟨⟨tripTime, idmt⟩, ht, h₁⟩ := Base.bind_ok h₁
      obtain ⟨counter, hn, h₁⟩ := Base.bind_ok h₁
      cases h₁
      cases h
      exact .retime hc hhi hcnt ht hn

/-- The outputs after the countdown: the timing signal or its end, never the trip signal. -/
def Quiet (o : List Out) : Prop := tripped o = false ∧ signalled o = false

theorem quiet_reset (b : Relay) : Quiet (reset i b).1 := by
  have h : ∀ ok : Bool, Quiet (if ok then
      [.ledOff, .putSample 0#16 1#8 ok, (putSample i.analogPut 0#16 2#8).2]
      else [.ledOff, .putSample 0#16 1#8 ok]) := by
    intro ok
    cases ok <;> exact ⟨rfl, rfl⟩
  exact h _

theorem tripped_append {o₁ o₂ : List Out} (h : Quiet o₂) :
    tripped (o₁ ++ o₂) = tripped o₁ ∧ signalled (o₁ ++ o₂) = signalled o₁ := by
  obtain ⟨h₁, h₂⟩ := h
  unfold tripped at h₁ ⊢
  unfold signalled at h₂ ⊢
  simp only [List.any_append, h₁, h₂, Bool.or_false, and_self]

/-- **What one tick can do.** -/
theorem tick_branch (h : tick inverTime i s = .ok (o, s')) :
    Branch inverTime i (sensed i s) s' ∧ tripped o = tripped (countdown i s).1 ∧
    signalled o = signalled (countdown i s).1 := by
  unfold tick at h
  by_cases hc : OVERLOAD < (sensed i s).current
  · simp only [if_pos hc] at h
    obtain ⟨s₁, h₁, h⟩ := Base.bind_ok h
    cases h
    exact ⟨protect_branch hc h₁, tripped_append ⟨rfl, rfl⟩⟩
  · simp only [if_neg hc] at h
    cases h
    exact ⟨.reset hc, tripped_append (quiet_reset _)⟩

/-! ## The trip signal -/

theorem tripped_iff (h : tick inverTime i s = .ok (o, s')) :
    tripped o = true ↔ s.Expires ∧ s.flagTrip = false := by
  rw [(tick_branch h).2.1]
  by_cases he : s.Expires
  · rw [countdown_expires he]
    cases hf : s.flagTrip <;> simp [he, tripped, putSample]
  · rw [countdown_of_not_expires he]
    simp [he, tripped]

theorem signalled_iff (h : tick inverTime i s = .ok (o, s')) : signalled o = true ↔
    (s.Expires ∧ s.flagTrip = false) ∧ i.analogPut 2#8 16385#16 = true := by
  rw [(tick_branch h).2.2]
  by_cases he : s.Expires
  · rw [countdown_expires he]
    cases hf : s.flagTrip <;> simp [he, signalled, putSample, resolutionDA]
  · rw [countdown_of_not_expires he]
    simp [he, signalled]

/-! ## Ticks that do not fault -/

theorem arm_eq {b : Relay} (hc : OVERLOAD < b.current) : arm i b = .ok { b with
    idmt := timed (curveK i.setting) (power i.setting (b.current.toNat * 32))
    time := BitVec.ofNat 32 (tripTime i.setting b.current)
    counter := BitVec.ofNat 32 (tripTime i.setting b.current) * 1000#32 / 65536#32
    flagTrip := false } := by
  unfold arm
  rw [getTripTime_eq i.setting hc, Base.ok_bind]
  rfl

/-- **A tick faults only in the function in the place of `GetInverTime`.** -/
theorem tick_ok (h : OVERLOAD < held i s → (sensed i s).counter ≠ 0#32 →
      (held i s).hi8 ≠ (sensed i s).prevCurrent → ∀ tripTime,
      ∃ n, inverTime (sensed i s).counter s.time tripTime = .ok n) :
    ∃ o s', tick inverTime i s = .ok (o, s') := by
  unfold tick
  by_cases hc : OVERLOAD < (sensed i s).current
  · suffices hp : ∃ s', protect inverTime i (sensed i s) = .ok s' by
      obtain ⟨s', hp⟩ := hp
      simp only [if_pos hc, hp, Base.ok_bind]
      exact ⟨_, _, rfl⟩
    unfold protect
    by_cases hhi : (sensed i s).current.hi8 = (sensed i s).prevCurrent
    · rw [if_neg (not_not.2 hhi), arm_eq hc]
      split <;> exact ⟨_, rfl⟩
    · rw [if_pos hhi]
      by_cases hcnt : (sensed i s).counter = 0#32
      · rw [if_neg (not_not.2 hcnt)]
        exact ⟨_, rfl⟩
      · rw [if_pos hcnt]
        unfold retime
        rw [getTripTime_eq i.setting hc]
        rw [sensed_current] at hc hhi
        obtain ⟨n, hn⟩ := h hc hcnt hhi (BitVec.ofNat 32 (tripTime i.setting (sensed i s).current))
        simp only [Base.ok_bind, sensed_time, hn]
        exact ⟨_, rfl⟩
  · simp only [if_neg hc]
    exact ⟨_, _, rfl⟩

end Relay

end Trip
