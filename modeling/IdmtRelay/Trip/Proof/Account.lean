import IdmtRelay.Measure.Proof.PickUp
import IdmtRelay.Trip.Account
import IdmtRelay.Trip.Proof.Measured
import IdmtRelay.Trip.Proof.Signal
import IdmtRelay.Trip.Proof.Sustained

/-!
# The relay measures what the readings say

`Accounted` relates a run of the device to the account of its readings: the buffer holds the
readings after the last block, and `Current` is that of the last block. So the current in force is a
function of the readings alone (`current_eq`), and readings at rated current never make the relay
count or trip (`rated_quiet`).
-/

namespace Trip.Device

open Measure Account

variable {tr : List ((DeviceIn × List Out) × Device)} {d d' : Device} {l : DeviceIn × List Out}

theorem acquire_none {a a' : Analog} {c : Option uint16_t}
    (h : acquire a none = .ok (c, a')) : c = none ∧ a' = a := by
  cases h
  exact ⟨rfl, rfl⟩

/-- What a tick does with a reading. -/
theorem acquire_some {a a' : Analog} {x : int16_t} {c : Option uint16_t}
    (h : acquire a (some x) = .ok (c, a')) :
    if a.inputSignal.length < NB_Sample then
      c = none ∧ a'.inputSignal = a.inputSignal ++ [sampleVolts x]
    else ∃ current b, c = some current ∧ getCurrent b = .ok (current, a') ∧
      b.inputSignal = a.inputSignal := by
  obtain ⟨⟨full, b⟩, hget, h⟩ := Base.bind_ok h
  have hs := Analog.getSignal_some hget
  split at hs
  · rw [if_pos ‹_›]
    obtain ⟨rfl, hbuf⟩ := hs
    cases h
    exact ⟨rfl, hbuf⟩
  · rw [if_neg ‹_›]
    obtain ⟨rfl, hbuf⟩ := hs
    obtain ⟨⟨current, a₁⟩, hcur, h⟩ := Base.bind_ok h
    cases h
    exact ⟨current, b, rfl, hcur, hbuf⟩

/-- The front end and the current in force after a run, against the account of its readings. -/
structure Accounted (xs : List int16_t) (a : Analog) (current : uint16_t) : Prop where
  buffer : a.inputSignal = (pending xs).map sampleVolts
  current : current = currentAfter xs
  defined : ∀ k < blocks xs, ¬ 65536 ∣ squareSum (window xs k)

theorem accounted_init : Accounted [] .init 0#16 :=
  ⟨rfl, rfl, fun _ hk => absurd hk (Nat.not_lt_zero _)⟩

section
variable {xs : List int16_t} {x : int16_t} {a a' : Analog} {current : uint16_t}

/-- A reading that is buffered. -/
theorem accounted_buffered (hacc : Accounted xs a current) (hlt : (pending xs).length < NB_Sample)
    (hbuf : a'.inputSignal = a.inputSignal ++ [sampleVolts x]) :
    Accounted (xs ++ [x]) a' current := by
  obtain ⟨hblocks, hpend⟩ := blocks_buffered (x := x) hlt
  refine ⟨?_, hacc.current.trans ?_, ?_⟩
  · rw [hbuf, hacc.buffer, hpend, List.map_append, List.map_singleton]
  · unfold currentAfter
    rw [hblocks]
    split
    · rfl
    · rw [(window_snoc (by omega)).2]
  · intro k hk
    rw [hblocks] at hk
    rw [(window_snoc hk).2]
    exact hacc.defined k hk

theorem pending_full (h : ¬ (pending xs).length < NB_Sample) : (pending xs).length = NB_Sample := by
  have hmod := pending_length xs
  unfold blockLength NB_Sample at *
  omega

/-- A reading that ends a block. -/
theorem accounted_full (hacc : Accounted xs a current) (hfull : (pending xs).length = NB_Sample)
    (hdvd : ¬ 65536 ∣ squareSum (pending xs)) (hbuf : a'.inputSignal = []) :
    Accounted (xs ++ [x]) a' (measured (pending xs)) := by
  obtain ⟨hblocks, hpend, hlast⟩ := blocks_full (x := x) hfull
  refine ⟨?_, ?_, ?_⟩
  · rw [hbuf, hpend, List.map_nil]
  · unfold currentAfter
    rw [hblocks, if_neg (Nat.succ_ne_zero _), Nat.add_sub_cancel, hlast]
  · intro k hk
    rw [hblocks] at hk
    rcases Nat.lt_succ_iff_lt_or_eq.1 hk with hk | rfl
    · rw [(window_snoc hk).2]
      exact hacc.defined k hk
    · rwa [hlast]

/-- **One tick** keeps the account: a reading is buffered, or it ends a block and the window of the
block is measured. -/
theorem accounted_acquire {reading : Option int16_t} {c : Option uint16_t}
    (hacc : Accounted xs a current) (h : acquire a reading = .ok (c, a')) :
    Accounted (xs ++ reading.toList) a' (c.getD current) := by
  have hlen : a.inputSignal.length = (pending xs).length := by rw [hacc.buffer, List.length_map]
  cases reading with
  | none =>
    obtain ⟨rfl, rfl⟩ := acquire_none h
    rw [Option.toList_none, List.append_nil]
    exact hacc
  | some x =>
    have hspec := acquire_some h
    rw [hlen] at hspec
    rw [Option.toList_some]
    split at hspec
    · obtain ⟨rfl, hbuf⟩ := hspec
      exact accounted_buffered hacc ‹_› hbuf
    · obtain ⟨current', b, rfl, hget, hbuf⟩ := hspec
      have hfull := pending_full ‹_›
      have hb := hbuf.trans hacc.buffer
      have hcurrent := getCurrent_window hfull hb
      split at hcurrent
      · rw [hcurrent] at hget
        cases hget
      · rename_i hdvd
        have hpos : 0 < squareSum (pending xs) % 65536 :=
          Nat.pos_of_ne_zero fun h0 => hdvd (Nat.dvd_of_mod_eq_zero h0)
        rw [getCurrent_eq hfull hb hpos] at hget
        cases hget
        exact accounted_full hacc hfull hdvd rfl

end

theorem readings_snoc : readings (tr ++ [(l, d')]) = readings tr ++ l.1.reading.toList := by
  unfold readings
  rw [List.filterMap_append]
  cases h : l.1.reading <;> simp [h]

theorem accounted (h : Lib.Trace Step init tr d) :
    Accounted (readings tr) d.analog d.relay.current := by
  refine h.history (fun tr d => Accounted (readings tr) d.analog d.relay.current) accounted_init ?_
  intro tr d l d' hacc hst
  obtain ⟨⟨c, a⟩, ha, h⟩ := Base.bind_ok hst
  obtain ⟨⟨o, r⟩, hr, h⟩ := Base.bind_ok h
  cases h
  have hcur : r.current = c.getD d.relay.current := Relay.tick_current hr
  rw [readings_snoc, hcur]
  exact accounted_acquire hacc ha

/-- **The current in force is a function of the readings**: after every run it is that of the last
complete block of them, and the sum of squares of no block was 0 modulo 2^16. -/
theorem current_eq (tr : List ((DeviceIn × List Out) × Device)) (d : Device)
    (h : Lib.Trace Step init tr d) : d.relay.current = currentAfter (readings tr) ∧
      ∀ k < blocks (readings tr), ¬ 65536 ∣ squareSum (window (readings tr) k) :=
  ⟨(accounted h).current, (accounted h).defined⟩

/-- A block of 20000, one of 16600, and one more reading. -/
theorem current_eq_16600 : ∃ (tr : List ((DeviceIn × List Out) × Device)) (d : Device),
    readings tr = List.replicate 21 20000#16 ++ List.replicate 22 16600#16 ∧
    d.relay.current = currentAfter (readings tr) ∧
    ∀ k < blocks (readings tr), ¬ 65536 ∣ squareSum (window (readings tr) k) := by
  obtain ⟨tr, d, h, hp⟩ := Lib.exists_trace_of_run pit init
    ((List.replicate 21 20000#16 ++ List.replicate 22 16600#16).map tickOf)
    (fun tr _ => decide (readings tr = List.replicate 21 20000#16 ++ List.replicate 22 16600#16))
    (by decide +kernel)
  exact ⟨tr, d, of_decide_eq_true hp, current_eq tr d h⟩

/-! ## Readings at rated current -/

/-- The true RMS current of the window is at most 1.0. -/
def Rated (window : List int16_t) : Prop :=
  (window.map fun x => (20 * x.toInt) ^ 2).sum ≤ 20 * 22937 ^ 2

theorem currentAfter_of_rated {xs : List int16_t} (h : ∀ k < blocks xs, Rated (window xs k)) :
    ¬ OVERLOAD < currentAfter xs := by
  unfold currentAfter
  split
  · decide
  · rename_i h0
    have hlast : blocks xs - 1 < blocks xs := by omega
    have hle := squareSum_le_of_rated (window_length hlast) (h _ hlast)
    have hcur : currentOf (squareSum (window xs (blocks xs - 1))) ≤ 2109 :=
      no_overload_of_lt (by omega)
    unfold measured
    rw [Nat.mod_eq_of_lt (by omega), BitVec.lt_def, Base.toNat_ofNat_of_lt (by omega)]
    exact Nat.not_lt.2 hcur

/-- **Readings at rated current never trip the relay**, nor start a countdown: whatever they are,
as long as every window has a true RMS current of at most 1.0. -/
theorem rated_quiet (tr : List ((DeviceIn × List Out) × Device)) (d : Device)
    (h : Lib.Trace Step init tr d)
    (hrated : ∀ k < blocks (readings tr), Rated (window (readings tr) k)) :
    ∀ p ∈ tr, ¬ OVERLOAD < p.2.relay.current ∧ p.2.relay.time = 0#32 ∧
      Relay.tripped p.1.2 = false := by
  have key : d.relay.time = 0#32 ∧ ∀ p ∈ tr, ¬ OVERLOAD < p.2.relay.current ∧
      p.2.relay.time = 0#32 ∧ Relay.tripped p.1.2 = false := by
    induction h with
    | nil => exact ⟨rfl, List.forall_mem_nil _⟩
    | @snoc d d' tr l h hst ih =>
      have hlow : ¬ OVERLOAD < d'.relay.current := by
        rw [(accounted (h.snoc hst)).current]
        exact currentAfter_of_rated hrated
      have hbefore : ∀ k < blocks (readings tr), Rated (window (readings tr) k) := by
        intro k hk
        rw [readings_snoc] at hrated
        cases hread : l.1.reading with
        | none =>
          rw [hread, Option.toList_none, List.append_nil] at hrated
          exact hrated k hk
        | some x =>
          rw [hread, Option.toList_some] at hrated
          obtain ⟨hk', hwin⟩ := window_snoc (x := x) hk
          exact hwin ▸ hrated k hk'
      obtain ⟨ht, hall⟩ := ih hbefore
      obtain ⟨measured, a, -, hr⟩ := relay_step hst
      have hquiet : Relay.tripped l.2 = false := by
        rw [← Bool.not_eq_true, Relay.tripped_iff hr]
        exact fun he => he.1.1 ht
      have ht' : d'.relay.time = 0#32 := by
        by_contra hne
        have hover := (Relay.time_step ⟨_, hr⟩ hne).1
        exact hlow hover
      exact ⟨ht', List.forall_mem_append.2
        ⟨hall, List.forall_mem_singleton.2 ⟨hlow, ht', hquiet⟩⟩⟩
  exact key.2

end Trip.Device
