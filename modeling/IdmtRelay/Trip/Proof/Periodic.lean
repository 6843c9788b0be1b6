import IdmtRelay.Trip.Proof.Frozen

/-!
# A constant overload is signalled again and again

The tick in which a countdown ends arms the next one, if its current has the high byte of the last:
so while the current and the setting stay, `PutSample(5, 2)` is called once in as many ticks as
arming loads, for ever (`signals_periodic`). The flag that is to prevent this is cleared by arming.
-/

namespace Trip

open Measure (OVERLOAD)

namespace Relay

variable {i : TickIn} {s s' : Relay} {o : List Out} {c : uint16_t}

/-- The calls `PutSample(5, 2)` of a run. -/
def calls (tr : Ticks) : Nat := tr.countP fun p => tripped p.1.2

/-- What arming loads into the counter. -/
def load (t : uint32_t) : Nat := (t * 1000#32 / 65536#32).toNat

theorem load_eq {setting : uint8_t} {t : uint32_t} {j j' : IDMT} (hc : OVERLOAD < c)
    (ht : j.getTripTime setting c = .ok (t, j')) :
    load t = tripTime setting c * 1000 % 2 ^ 32 / 65536 := by
  rw [getTripTime_eq setting hc] at ht
  cases ht
  exact load_toNat setting hc

/-- One tick of a countdown with `k + 1` ticks left: the last one calls for the signal and loads
the whole countdown again. -/
theorem counting_reload {k : Nat} {t : uint32_t} {j j' : IDMT}
    (hs : Counting c (k + 1) s) (hi : i.Holds c) (ht : j.getTripTime i.setting c = .ok (t, j')) :
    ∃ o s', pit i s = .ok (o, s') ∧
      if k = 0 then tripped o = true ∧ Counting c (load t) s'
      else tripped o = false ∧ Counting c k s' := by
  obtain ⟨o, s', h, -, htrip⟩ := counting_tick hs hi
  refine ⟨o, s', h, ?_⟩
  split at htrip
  · rw [if_pos ‹_›]
    have hheld := held_of_holds hs.current hi
    have he := ((tripped_iff h).1 htrip).1
    have ha := arms_of_expires he (hheld ▸ hs.overload) (hheld ▸ hs.prevCurrent.symm) hs.success
    have hcount := counting_of_arms h ha
    rw [hheld, ← load_eq hs.overload ht] at hcount
    exact ⟨htrip, hcount⟩
  · rw [if_neg ‹_›]
    exact htrip

/-- The calls of a run from within a countdown. -/
theorem calls_run {k : Nat} {t : uint32_t} {j j' : IDMT} {setting : uint8_t} {is : List TickIn}
    (hs : Counting c (k + 1) s) (hk : k < load t) (ht : j.getTripTime setting c = .ok (t, j'))
    (hi : ∀ i ∈ is, i.Holds c ∧ i.setting = setting) :
    ∃ tr s', Lib.run pit s is = .ok (tr, s') ∧
      calls tr = (is.length + (load t - (k + 1))) / load t := by
  induction is generalizing s k with
  | nil =>
    refine ⟨[], s, rfl, ?_⟩
    show 0 = _
    rw [List.length_nil, Nat.zero_add, Nat.div_eq_of_lt (by omega)]
  | cons i is ih =>
    obtain ⟨⟨hold, hset⟩, his⟩ := List.forall_mem_cons.1 hi
    obtain ⟨o, s₁, h, hnext⟩ := counting_reload hs hold (hset ▸ ht)
    split at hnext
    · rename_i h0
      obtain ⟨htrip, hcount⟩ := hnext
      obtain ⟨p, hp⟩ := Nat.exists_eq_add_of_lt (Nat.zero_lt_of_lt hk)
      rw [Nat.zero_add] at hp
      rw [hp] at hcount
      obtain ⟨tr, s', hr, hcalls⟩ := ih hcount (by omega) his
      refine ⟨_, s', Lib.run_cons h hr, ?_⟩
      unfold calls at hcalls ⊢
      rw [List.countP_cons, hcalls, htrip, List.length_cons, h0, hp, Nat.sub_self, Nat.add_zero,
        show is.length + 1 + (p + 1 - (0 + 1)) = is.length + (p + 1) by omega,
        Nat.add_div_right _ (Nat.succ_pos p)]
      rfl
    · rename_i h0
      obtain ⟨htrip, hcount⟩ := hnext
      obtain ⟨k, rfl⟩ := Nat.exists_eq_succ_of_ne_zero h0
      obtain ⟨tr, s', hr, hcalls⟩ := ih hcount (by omega) his
      refine ⟨_, s', Lib.run_cons h hr, ?_⟩
      unfold calls at hcalls ⊢
      rw [List.countP_cons, hcalls, htrip, List.length_cons,
        show is.length + 1 + (load t - (k + 1 + 1)) = is.length + (load t - (k + 1)) by omega]
      rfl

/-- **A constant overload is signalled once in every countdown, for ever**: in the ticks after the
one that arms, the `n`-th call comes after `n` times the load of the counter. -/
theorem signals_periodic (i₀ : TickIn) (s₀ s : Relay) (o₀ : List Out)
    (h : pit i₀ s₀ = .ok (o₀, s)) (ha : Arms i₀ s₀) (j j' : IDMT) (t : uint32_t)
    (ht : j.getTripTime i₀.setting (held i₀ s₀) = .ok (t, j')) (is : List TickIn)
    (hi : ∀ i ∈ is, i.Holds (held i₀ s₀) ∧ i.setting = i₀.setting) :
    ∃ tr s', Lib.run pit s is = .ok (tr, s') ∧ calls tr = is.length / load t := by
  have hcount := counting_of_arms h ha
  have hpos := load_pos i₀.setting ha.1
  rw [← load_eq ha.1 ht] at hcount hpos
  obtain ⟨k, hk⟩ := Nat.exists_eq_add_of_lt hpos
  rw [Nat.zero_add] at hk
  rw [hk] at hcount
  obtain ⟨tr, s', hr, hcalls⟩ := calls_run hcount (by omega) ht hi
  refine ⟨tr, s', hr, ?_⟩
  rw [hcalls, hk, Nat.sub_self, Nat.add_zero]

/-- 14 A on the extremely inverse curve for a second: two calls. -/
theorem signals_periodic_29549 : ∃ (o : List Out) (s : Relay),
    pit (quietTick 2#8 none) (seen 29549#16) = .ok (o, s) ∧
    ∃ tr s', Lib.run pit s (List.replicate 1000 (quietTick 2#8 none)) = .ok (tr, s') ∧
      calls tr = 2 := by
  have hs : Steady 29549#16 (seen 29549#16) := ⟨by decide, rfl, rfl, rfl⟩
  obtain ⟨o, s, h, -⟩ := steady_tick hs (quietTick_holds 2#8 29549#16)
  have hi : ∀ i ∈ List.replicate 1000 (quietTick 2#8 none),
      i.Holds 29549#16 ∧ i.setting = 2#8 := by
    intro i hi
    rw [List.eq_of_mem_replicate hi]
    exact ⟨quietTick_holds 2#8 29549#16, rfl⟩
  obtain ⟨tr, s', hr, hcalls⟩ := signals_periodic (quietTick 2#8 none) (seen 29549#16) s o h
    (by decide) ⟨0#32, 0#32⟩ (timed 5242880 13642865) 25306#32 (by decide +kernel)
    (List.replicate 1000 (quietTick 2#8 none)) hi
  exact ⟨o, s, h, tr, s', hr, hcalls.trans (by rw [List.length_replicate]; decide)⟩

end Relay

end Trip
