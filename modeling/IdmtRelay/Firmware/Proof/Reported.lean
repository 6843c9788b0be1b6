import IdmtRelay.Firmware.Proof.InForce
import IdmtRelay.Trip.Proof.Account

/-!
# What the firmware reports of the readings

In every run of the firmware the device is that of its readings, whatever the link and the main loop
do in between. So a reply carries as the current what the readings until then were measured as, and
as the frequency at most 62 Hz (`replies_measured`); and readings at rated current do not trip the
relay, whatever packets it receives (`rated_never_trips`).
-/

namespace Firmware

open Flash (FTFE)
open Measure (Analog OVERLOAD)
open Trip (Device DeviceIn Relay)
open Trip.Account (blocks window currentAfter)

/-! ## The frequency -/

theorem acquire_frequency {a b : Analog} {reading : Option int16_t} {c : Option uint16_t}
    (ha : a.frequency.toNat ≤ 62) (h : Device.acquire a reading = .ok (c, b)) :
    b.frequency.toNat ≤ 62 := by
  obtain ⟨⟨full, a'⟩, hget, h⟩ := Base.bind_ok h
  have ha' : a'.frequency.toNat ≤ 62 := by
    rcases Analog.getSignal_frequency hget with heq | hle
    · rwa [heq]
    · exact hle
  cases full with
  | true =>
    obtain ⟨⟨current, a₁⟩, hcur, h⟩ := Base.bind_ok h
    cases h
    rw [Analog.getCurrent_clears hcur]
    exact ha'
  | false =>
    cases h
    exact ha'

/-- **The stored frequency never exceeds 62 Hz.** -/
theorem frequency_le {tr : List ((DeviceIn × List Trip.Out) × Device)} {d : Device}
    (h : Lib.Trace Device.Step .init tr d) : d.analog.frequency.toNat ≤ 62 := by
  refine h.inv (fun d => d.analog.frequency.toNat ≤ 62) (Nat.zero_le _) ?_
  intro d l d' hle hst
  obtain ⟨⟨c, a⟩, ha, hst⟩ := Base.bind_ok hst
  obtain ⟨⟨o, r⟩, -, hst⟩ := Base.bind_ok hst
  cases hst
  exact acquire_frequency hle ha

/-! ## The replies -/

variable {launch : FTFE → FTFE} {f : Flash.State} {s₀ s : System} {tr : Steps}

/-- The readings that the ticks of a run acquire. -/
def readings (tr : Steps) : List int16_t := Device.readings (deviceShare tr)

theorem init_trace (h0 : PowerUp f s₀) (h : Lib.Trace (System.Step launch) s₀ tr s) :
    Lib.Trace Device.Step .init (deviceShare tr) s.device := h0.device ▸ System.device_trace h

/-- The current that the readings acquired so far are measured as, at a time when `k` packets have
been got. -/
def MeasuredWith (tr : Steps) (k : Nat) (x : uint16_t) : Prop :=
  ∃ pre, pre <+: tr ∧ (requests pre).length = k ∧ x = currentAfter (readings pre)

theorem during_prefix {get : System → uint16_t} {k : Nat} {x : uint16_t}
    (h : Lib.Trace (System.Step launch) s₀ tr s) (hd : During get tr k x) :
    ∃ pre s', pre <+: tr ∧ Lib.Trace (System.Step launch) s₀ pre s' ∧
      (requests pre).length = k ∧ get s' = x := by
  obtain ⟨pre, p, ⟨post, rfl⟩, hk, hx⟩ := hd
  obtain ⟨s', hpre, -⟩ := h.split
  obtain ⟨s₁, -, -, rfl⟩ := Lib.Trace.snoc_iff.1 hpre
  exact ⟨_, p.2, List.prefix_append _ _, hpre, hk, hx⟩

/-- **What is reported was measured, whatever the schedule.** The replies are the server's, where
the two bytes of a current are of currents that the readings were measured as while the request was
handled, and a frequency is at most 62 Hz. -/
theorem replies_measured (launch : FTFE → FTFE) (hl : Flash.Ideal launch) (f : Flash.State)
    (hf : ¬ f.ftfe.Failed) (s₀ s : System) (h0 : PowerUp f s₀) (tr : Steps)
    (h : Lib.Trace (System.Step launch) s₀ tr s) :
    ∃ handled pending, requests tr = handled ++ pending ∧ pending.length ≤ 1 ∧
      Serves f.block (fun _ x => x.toNat ≤ 62) (MeasuredWith tr) handled (replies tr) := by
  obtain ⟨qs, pending, hs⟩ := served_run hl hf h0 h
  refine ⟨qs, pending, hs.requests, hs.serving.pending_le.1, hs.serves.mono ?_ ?_⟩
  · intro k x hd
    obtain ⟨pre, s', -, hpre, -, rfl⟩ := during_prefix h hd
    exact frequency_le (init_trace h0 hpre)
  · intro k x hd
    obtain ⟨pre, s', hle, hpre, hk, rfl⟩ := during_prefix h hd
    exact ⟨pre, hle, hk, (Device.accounted (init_trace h0 hpre)).current⟩

/-- The current is asked for after a window at 14 A, with a tick between the two reads. -/
theorem replies_measured_current : ∃ (tr : Steps) (handled pending : List Serial.Msg),
    requests tr = handled ++ pending ∧ pending.length ≤ 1 ∧ (replies tr).length = 1 ∧
      Serves (Flash.idle fun _ => 2#8).block (fun _ x => x.toNat ≤ 62) (MeasuredWith tr) handled
        (replies tr) := by
  obtain ⟨tr, s, h, hp⟩ := Lib.exists_trace_of_run (System.step Flash.k70) (started 2#8)
    (List.replicate 21 fullTick ++
      requested ⟨0x70, 1, 0, 0⟩ [.main 0, .readLo, fullTick, .readHi, .main 0])
    (fun tr _ => decide ((replies tr).length = 1)) (by decide +kernel)
  obtain ⟨handled, pending, hreq, hle, hserves⟩ := replies_measured Flash.k70 Flash.k70_ideal
    (Flash.idle fun _ => 2#8) (Flash.not_failed_idle _) _ s (started_powerUp 2#8) tr h
  exact ⟨tr, handled, pending, hreq, hle, of_decide_eq_true hp, hserves⟩

/-! ## Readings at rated current -/

/-- **No packet trips the relay at rated current.** In every run of the firmware in which every
window of readings has a true RMS current of at most 1.0, whatever it receives and whatever becomes
of its flash commands, no tick calls `PutSample(5, 2)`, and the run does not end in overload. -/
theorem rated_never_trips (launch : FTFE → FTFE) (f : Flash.State) (s₀ s : System)
    (h0 : PowerUp f s₀) (tr : Steps) (h : Lib.Trace (System.Step launch) s₀ tr s)
    (hrated : ∀ k < blocks (readings tr), Device.Rated (window (readings tr) k)) :
    (∀ p ∈ tr, p.1.2.trips = false) ∧ ¬ OVERLOAD < s.current := by
  have hdevice := init_trace h0 h
  constructor
  · intro ⟨⟨e, a⟩, s'⟩ hp
    cases a with
    | tick i o =>
      have hmem : ((i, o), s'.device) ∈ deviceShare tr := Lib.mem_share.2 ⟨_, hp, rfl, rfl⟩
      exact (Device.rated_quiet (deviceShare tr) s.device hdevice hrated _ hmem).2.2
    | link e o => rfl
    | main => rfl
  · have hcur : s.current = currentAfter (readings tr) := (Device.accounted hdevice).current
    rw [hcur]
    exact Device.currentAfter_of_rated hrated

/-- The curve is set to 2 over readings of -1146, which are 1.0 A. -/
theorem rated_never_trips_1146 : ∃ (tr : Steps) (s : System), (readings tr).length = 63 ∧
    s.current ≠ 0#16 ∧ (replies tr).length = 1 ∧
    (∀ p ∈ tr, p.1.2.trips = false) ∧ ¬ OVERLOAD < s.current := by
  obtain ⟨tr, s, h, hp⟩ := Lib.exists_trace_of_run (System.step Flash.k70) (started 0#8)
    (requested ⟨0x70, 0, 0, 2⟩ (List.replicate 10 (.main 0)) ++
      List.replicate 63 (.pit (Device.tickOf (-1146#16))))
    (fun tr s => decide (s.current ≠ 0#16 ∧ (replies tr).length = 1 ∧
      readings tr = List.replicate 63 (-1146#16))) (by decide +kernel)
  obtain ⟨hne, hlen, hread⟩ := of_decide_eq_true hp
  refine ⟨tr, s, by rw [hread]; rfl, hne, hlen, rated_never_trips Flash.k70 _ _ s
    (started_powerUp 0#8) tr h ?_⟩
  rw [hread]
  unfold Device.Rated
  decide +kernel

end Firmware
