import IdmtRelay.Trip.Proof.Tick
import IdmtRelay.Trip.Proof.Countdown

/-!
# When the trip signal comes

While the current stays what it was when the countdown was armed, every tick decrements the counter
and the trip signal is called for when it reaches 0 (`firstTrip_run`): after as many ticks as arming
loaded. The load is computed in 32 bits, so that is the trip time in milliseconds exactly when that
product does not wrap (`trip_timing`).
-/

namespace Trip

open Measure (OVERLOAD)

/-- The tick measures nothing, or the current `c` again. -/
def TickIn.Holds (i : TickIn) (c : uint16_t) : Prop := i.measured = none ∨ i.measured = some c

namespace Relay

variable {inverTime : uint32_t → uint32_t → uint32_t → Except Undef uint32_t} {i : TickIn}
  {s s' : Relay} {o : List Out} {c : uint16_t}

/-- The number of the first tick, counted from 1, that calls `PutSample(5, 2)`. -/
def firstTrip : Ticks → Option Nat
  | [] => none
  | p :: tr => if tripped p.1.2 then some 1 else (firstTrip tr).map (· + 1)

/-- The tick arms the countdown. -/
def Arms (i : TickIn) (s : Relay) : Prop :=
  OVERLOAD < held i s ∧ (held i s).hi8 = (sensed i s).prevCurrent ∧ (sensed i s).counter = 0#32

/-! ## A constant overload current -/

/-- An overload with the current `c`, of which the high byte has been seen. -/
structure Steady (c : uint16_t) (s : Relay) : Prop where
  overload : OVERLOAD < c
  current : s.current = c
  prevCurrent : s.prevCurrent = c.hi8
  success : s.success = true

/-- Such an overload with `k` ticks left to the trip. -/
structure Counting (c : uint16_t) (k : Nat) (s : Relay) : Prop extends Steady c s where
  time : s.time ≠ 0#32
  counter : s.counter.toNat = k
  flagTrip : s.flagTrip = false

theorem held_of_holds (hs : s.current = c) (hi : i.Holds c) : held i s = c := by
  unfold held
  rcases hi with h | h
  · rw [h]
    exact hs
  · rw [h]
    rfl

/-- A tick that holds the current stays in the overload: it arms or keeps the countdown. -/
theorem steady_tick (hs : Steady c s) (hi : i.Holds c) : ∃ o s', pit i s = .ok (o, s') ∧
    Steady c s' ∧ ((sensed i s).counter ≠ 0#32 → s' = sensed i s) := by
  have hheld := held_of_holds hs.current hi
  have hprev : (sensed i s).prevCurrent = c.hi8 := by
    rw [sensed_prevCurrent, hs.success, if_pos rfl, hs.prevCurrent]
  obtain ⟨o, s', h⟩ : ∃ o s', pit i s = .ok (o, s') := by
    refine tick_ok fun _ _ hhi => absurd ?_ hhi
    rw [hheld, hprev]
  refine ⟨o, s', h, ?_⟩
  cases (tick_branch h).1 with
  | reset hover =>
    rw [sensed_current, hheld] at hover
    exact absurd hs.overload hover
  | follow hover hhi h0 =>
    rw [sensed_current, hheld, hprev] at hhi
    exact absurd rfl hhi
  | retime hover hhi h0 htt hn =>
    rw [sensed_current, hheld, hprev] at hhi
    exact absurd rfl hhi
  | arm hover hhi h0 htt =>
    exact ⟨⟨hs.overload, sensed_current.trans hheld, hprev, sensed_success⟩,
      fun hne => absurd h0 hne⟩
  | keep hover hhi h0 =>
    exact ⟨⟨hs.overload, sensed_current.trans hheld, hprev, sensed_success⟩, fun _ => rfl⟩

/-- A countdown with `k + 1` ticks left: the tick trips if it is the last, else `k` are left. -/
theorem counting_tick {k : Nat} (hs : Counting c (k + 1) s) (hi : i.Holds c) :
    ∃ o s', pit i s = .ok (o, s') ∧ Steady c s' ∧
      if k = 0 then tripped o = true else tripped o = false ∧ Counting c k s' := by
  obtain ⟨o, s', h, hsteady, hkeep⟩ := steady_tick hs.toSteady hi
  have hexp : s.Expires ↔ k = 0 := by
    have h1 : s.counter = 1#32 ↔ s.counter.toNat = 1 := by
      rw [← BitVec.toNat_inj]
      rfl
    rw [Expires, h1, hs.counter]
    exact ⟨fun he => by omega, fun hk => ⟨hs.time, by omega⟩⟩
  have htrip := tripped_iff h
  rw [hexp] at htrip
  refine ⟨o, s', h, hsteady, ?_⟩
  split
  · exact htrip.2 ⟨‹_›, hs.flagTrip⟩
  · rename_i hk
    have hcnt : (sensed i s).counter.toNat = k := by
      have hne : s.counter ≠ 0#32 := by
        intro h0
        have := hs.counter
        rw [h0] at this
        simp at this
      rw [sensed_counter, if_neg hs.time, pred_toNat hne, hs.counter]
      rfl
    have hs' : s' = sensed i s := hkeep fun h0 => by
      rw [h0] at hcnt
      exact hk hcnt.symm
    have hflag : (sensed i s).flagTrip = false := by
      rw [sensed_flagTrip, if_neg fun he => hk (hexp.1 he.1), hs.flagTrip]
    refine ⟨by simpa using fun ht => hk (htrip.1 ht).1, hsteady, ?_, ?_, ?_⟩
    · rw [hs', sensed_time]
      exact hs.time
    · rw [hs', hcnt]
    · rw [hs', hflag]

/-- While the current is held, no tick faults and every tick ends in the overload. -/
theorem steady_run {is : List TickIn} (hs : Steady c s) (hi : ∀ i ∈ is, i.Holds c) :
    ∃ tr s', Lib.run pit s is = .ok (tr, s') ∧ ∀ p ∈ tr, Steady c p.2 := by
  induction is generalizing s with
  | nil => exact ⟨[], s, rfl, by simp⟩
  | cons i is ih =>
    obtain ⟨hi₀, his⟩ := List.forall_mem_cons.1 hi
    obtain ⟨o, s₁, h, hs₁, -⟩ := steady_tick hs hi₀
    obtain ⟨tr, s', hr, hall⟩ := ih hs₁ his
    exact ⟨_, _, Lib.run_cons h hr, List.forall_mem_cons.2 ⟨hs₁, hall⟩⟩

/-- **The trip signal is called for when the countdown says.** -/
theorem firstTrip_run {k : Nat} {is : List TickIn} (hs : Counting c (k + 1) s)
    (hi : ∀ i ∈ is, i.Holds c) (hlen : k + 1 ≤ is.length) :
    ∃ tr s', Lib.run pit s is = .ok (tr, s') ∧ firstTrip tr = some (k + 1) := by
  induction k generalizing s is with
  | zero =>
    obtain ⟨i, is, rfl⟩ := List.exists_cons_of_length_pos (l := is) (by omega)
    obtain ⟨hi₀, his⟩ := List.forall_mem_cons.1 hi
    obtain ⟨o, s₁, h, hs₁, htrip⟩ := counting_tick hs hi₀
    obtain ⟨tr, s', hr, -⟩ := steady_run hs₁ his
    rw [if_pos rfl] at htrip
    refine ⟨_, _, Lib.run_cons h hr, ?_⟩
    rw [firstTrip, if_pos htrip]
  | succ k ih =>
    obtain ⟨i, is, rfl⟩ := List.exists_cons_of_length_pos (l := is) (by omega)
    obtain ⟨hi₀, his⟩ := List.forall_mem_cons.1 hi
    obtain ⟨o, s₁, h, -, htrip⟩ := counting_tick hs hi₀
    rw [if_neg (by omega)] at htrip
    rw [List.length_cons] at hlen
    obtain ⟨tr, s', hr, hfirst⟩ := ih htrip.2 his (by omega)
    refine ⟨_, _, Lib.run_cons h hr, ?_⟩
    rw [firstTrip, htrip.1, hfirst]
    rfl

/-! ## From arming on -/

/-- What arming leaves behind: a whole countdown. -/
theorem counting_of_arms (h : pit i s = .ok (o, s')) (ha : Arms i s) :
    Counting (held i s) (tripTime i.setting (held i s) * 1000 % 2 ^ 32 / 65536) s' := by
  obtain ⟨hover, hhi, h0⟩ := ha
  have hcur : (sensed i s).current = held i s := sensed_current
  cases (tick_branch h).1 with
  | reset hlow => exact absurd (hcur ▸ hover) hlow
  | follow _ hne => exact absurd (hcur ▸ hhi) hne
  | retime _ hne => exact absurd (hcur ▸ hhi) hne
  | keep _ _ hne => exact absurd h0 hne
  | arm _ _ _ htt =>
    rw [hcur, getTripTime_eq i.setting hover] at htt
    cases htt
    have hpos := armed_pos i.setting hover
    refine ⟨⟨hover, hcur, hhi.symm, sensed_success⟩, ?_, load_toNat i.setting hover, rfl⟩
    intro h0
    have h66 := hpos.1
    rw [show BitVec.ofNat 32 (tripTime i.setting (held i s)) = 0#32 from h0] at h66
    simp at h66

theorem wrap_div_lt {x : Nat} (h : 2 ^ 32 ≤ x) : x % 2 ^ 32 / 65536 < x / 65536 := by
  have h1 : x % 2 ^ 32 / 65536 < 65536 :=
    Nat.div_lt_of_lt_mul (Nat.mod_lt _ (by decide))
  have h2 : 65536 ≤ x / 65536 := (Nat.le_div_iff_mul_le (by decide)).2 h
  omega

theorem quietTick_holds (setting : uint8_t) (c : uint16_t) : (quietTick setting none).Holds c :=
  .inl rfl

/-- **The trip comes after the trip time exactly when its milliseconds fit 32 bits.** `t` is the
trip time of the current with which a tick arms the countdown; the current then stays. -/
theorem trip_timing (i₀ : TickIn) (s₀ s : Relay) (o₀ : List Out) (h : pit i₀ s₀ = .ok (o₀, s))
    (ha : Arms i₀ s₀) (j j' : IDMT) (t : uint32_t)
    (ht : j.getTripTime i₀.setting (held i₀ s₀) = .ok (t, j')) :
    (∀ is : List TickIn, (∀ i ∈ is, i.Holds (held i₀ s₀)) → t.toNat * 1000 / 65536 ≤ is.length →
      ∃ tr s', Lib.run pit s is = .ok (tr, s') ∧
        firstTrip tr = some (t.toNat * 1000 / 65536)) ↔
    t.toNat * 1000 < 2 ^ 32 := by
  have hover := ha.1
  have hcount := counting_of_arms h ha
  have hload := load_pos i₀.setting hover
  have htime : t.toNat = tripTime i₀.setting (held i₀ s₀) := by
    have hrange := (tripTime_range i₀.setting hover).2
    rw [getTripTime_eq i₀.setting hover] at ht
    cases ht
    exact Base.toNat_ofNat_of_lt (by omega)
  rw [← htime] at hcount hload
  generalize t.toNat * 1000 = x at hcount hload ⊢
  have hle : x % 2 ^ 32 / 65536 ≤ x / 65536 := Nat.div_le_div_right (Nat.mod_le _ _)
  obtain ⟨k, hk⟩ := Nat.exists_eq_add_of_lt hload
  rw [Nat.zero_add] at hk
  rw [hk] at hcount
  constructor
  · intro hall
    have his : ∀ i ∈ List.replicate (x / 65536) (quietTick 0#8 none), i.Holds (held i₀ s₀) :=
      fun i hi => List.eq_of_mem_replicate hi ▸ quietTick_holds _ _
    obtain ⟨tr, s', hr, hfirst⟩ := hall _ his (by simp)
    obtain ⟨tr', s'', hr', hfirst'⟩ :=
      firstTrip_run hcount his (by rw [List.length_replicate]; omega)
    rw [hr] at hr'
    cases hr'
    rw [hfirst, ← hk] at hfirst'
    by_contra hge
    have hlt := wrap_div_lt (Nat.le_of_not_lt hge)
    rw [← Option.some.inj hfirst'] at hlt
    exact Nat.lt_irrefl _ hlt
  · intro hlt is his hlen
    obtain ⟨tr, s', hr, hfirst⟩ := firstTrip_run hcount his (by omega)
    refine ⟨tr, s', hr, ?_⟩
    rw [hfirst, ← hk, Nat.mod_eq_of_lt hlt]

instance (i : TickIn) (s : Relay) : Decidable (Arms i s) := inferInstanceAs (Decidable (_ ∧ _))

/-- The relay when it has seen the current `c` once and not yet armed. -/
def seen (c : uint16_t) : Relay :=
  { init with current := c, prevCurrent := c.hi8, success := true }

theorem trip_timing_29549 : ∃ (o : List Out) (s : Relay),
    pit (quietTick 2#8 none) (seen 29549#16) = .ok (o, s) ∧
    ∀ is : List TickIn, (∀ i ∈ is, i.Holds 29549#16) → 386 ≤ is.length →
      ∃ tr s', Lib.run pit s is = .ok (tr, s') ∧ firstTrip tr = some 386 := by
  have hs : Steady 29549#16 (seen 29549#16) := ⟨by decide, rfl, rfl, rfl⟩
  obtain ⟨o, s, h, -⟩ := steady_tick hs (quietTick_holds 2#8 29549#16)
  exact ⟨o, s, h, (trip_timing (quietTick 2#8 none) (seen 29549#16) s o h (by decide)
    ⟨0#32, 0#32⟩ (timed 5242880 13642865) 25306#32 (by decide +kernel)).2 (by decide)⟩

/-- The relay when it has armed for the current 2469 on the very inverse curve. -/
def armed2469 : Relay :=
  { seen 2469#16 with idmt := ⟨4303893#32, 79008#32⟩, time := 4303893#32, counter := 136#32 }

/-- A current of 1.2 A on the very inverse curve: 65672 ms by `GetTripTime`, and the trip signal
after 136 ticks. -/
theorem trip_early : ∃ (tr₀ tr : Ticks) (o : List Out) (s : Relay),
    Lib.run pit init (windows 1#8 [2469#16]) = .ok (tr₀, seen 2469#16) ∧
    Arms (quietTick 1#8 none) (seen 2469#16) ∧
    pit (quietTick 1#8 none) (seen 2469#16) = .ok (o, armed2469) ∧
    IDMT.getTripTime 1#8 2469#16 ⟨0#32, 0#32⟩ = .ok (4303893#32, ⟨4303893#32, 79008#32⟩) ∧
    (4303893#32).toNat * 1000 / 65536 = 65672 ∧
    Lib.run pit armed2469 (List.replicate 136 (quietTick 1#8 none)) = .ok (tr, s) ∧
    firstTrip tr = some 136 := by
  obtain ⟨tr₀, s₀, h₀, hs₀⟩ := Lib.exists_run pit init (windows 1#8 [2469#16])
    (fun _ s => decide (s = seen 2469#16)) (by decide +kernel)
  obtain ⟨tr, s, h, hs⟩ := Lib.exists_run pit armed2469
    (List.replicate 136 (quietTick 1#8 none)) (fun tr _ => decide (firstTrip tr = some 136))
    (by decide +kernel)
  obtain rfl := of_decide_eq_true hs₀
  exact ⟨tr₀, tr, [.ledOn, .putSample 5#16 1#8 true], s, h₀, by decide, by decide +kernel,
    by decide +kernel, by decide, h, of_decide_eq_true hs⟩

end Relay

end Trip
