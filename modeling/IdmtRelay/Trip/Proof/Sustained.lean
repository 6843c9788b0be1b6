import IdmtRelay.Trip.Proof.Timing

/-!
# No trip without a sustained overload

`Time` is set by the tick that arms the countdown and is cleared by every tick that ends without
overload (`time_step`), so a tick that finds it set was preceded by an arming tick and by nothing
but ticks in overload since then (`trip_sustained`). Nothing is assumed of the values that
`GetInverTime` returns: `AnyStep` is a tick with any function in its place, another one in every
tick.
-/

namespace Trip

open Measure (OVERLOAD)

namespace Relay

/-- A tick of `CallBack::PIT` in which `GetInverTime` may return anything. -/
def AnyStep (s : Relay) (l : TickIn × List Out) (s' : Relay) : Prop :=
  ∃ inverTime, tick inverTime l.1 s = .ok (l.2, s')

/-- The tick executes `Time = Idmt.GetTripTime(Current.l)`. -/
def Loads (s : Relay) (l : TickIn × List Out) (s' : Relay) : Prop :=
  Arms l.1 s ∧ ∃ i j : IDMT, i.getTripTime l.1.setting (held l.1 s) = .ok (s'.time, j)

/-- After a tick `Time` is set only in overload, and it was set before or is loaded in the tick. -/
theorem time_step {s s' : Relay} {l : TickIn × List Out} (h : AnyStep s l s')
    (ht : s'.time ≠ 0#32) : OVERLOAD < s'.current ∧ (s.time ≠ 0#32 ∨ Loads s l s') := by
  obtain ⟨inverTime, h⟩ := h
  have htime : (sensed l.1 s).time = s.time := sensed_time
  cases (tick_branch h).1 with
  | reset => exact absurd rfl ht
  | follow hover => exact ⟨hover, .inl (htime ▸ ht)⟩
  | retime hover => exact ⟨hover, .inl (htime ▸ ht)⟩
  | keep hover => exact ⟨hover, .inl (htime ▸ ht)⟩
  | @arm tripTime idmt hover hhi h0 htt =>
    refine ⟨hover, .inr ⟨?_, (sensed l.1 s).idmt, idmt, ?_⟩⟩
    · rw [sensed_current] at hover hhi
      exact ⟨hover, hhi, h0⟩
    · rw [← sensed_current (i := l.1)]
      exact htt

/-- **No trip without a sustained overload.** A tick that calls `PutSample(5, 2)` was preceded by a
tick that loaded `Time` from `GetTripTime`, and that one and every tick between them ended in
overload. -/
theorem trip_sustained (tr : Ticks) (s : Relay) (h : Lib.Trace AnyStep init tr s)
    (pre post : Ticks) (p : (TickIn × List Out) × Relay) (htr : tr = pre ++ p :: post)
    (htrip : tripped p.1.2 = true) :
    ∃ (before : Ticks) (q : (TickIn × List Out) × Relay) (between : Ticks) (s₀ : Relay),
      pre = before ++ q :: between ∧ Lib.Trace AnyStep init before s₀ ∧ Loads s₀ q.1 q.2 ∧
      ∀ r ∈ q :: between, OVERLOAD < r.2.current := by
  rw [htr, List.append_cons] at h
  obtain ⟨s₂, h, -⟩ := h.split
  obtain ⟨s₁, hpre, ⟨inverTime, hst⟩, -⟩ := Lib.Trace.snoc_iff.1 h
  have ht : s₁.time ≠ 0#32 := ((tripped_iff hst).1 htrip).1.1
  exact hpre.since (A := fun s => s.time ≠ 0#32) (fun h0 => h0 rfl) (fun _ _ _ => time_step) ht

/-- A constant overload of 14 A that trips. -/
theorem trip_sustained_29549 : ∃ (pre : Ticks) (p : (TickIn × List Out) × Relay),
    tripped p.1.2 = true ∧
    ∃ (before : Ticks) (q : (TickIn × List Out) × Relay) (between : Ticks) (s₀ : Relay),
      pre = before ++ q :: between ∧ Lib.Trace AnyStep init before s₀ ∧ Loads s₀ q.1 q.2 ∧
      ∀ r ∈ q :: between, OVERLOAD < r.2.current := by
  obtain ⟨tr, s, h, hp⟩ := Lib.exists_trace_of_run pit init
    (windows 2#8 [29549#16] ++ List.replicate 387 (quietTick 2#8 none))
    (fun tr _ => tr.any fun p => tripped p.1.2) (by decide +kernel)
  obtain ⟨p, hmem, htrip⟩ := List.any_eq_true.1 hp
  obtain ⟨pre, post, htr⟩ := List.append_of_mem hmem
  exact ⟨pre, p, htrip, trip_sustained tr s (h.mono fun _ _ _ hst => ⟨getInverTime, hst⟩)
    pre post p htr htrip⟩

end Relay

end Trip
