import IdmtRelay.Measure.Proof.Overload
import IdmtRelay.Measure.Proof.Window
import IdmtRelay.Trip.Device

/-!
# When the measurement of a window is defined

Every run of the device acquires its windows like the front end alone (`windows_of_device`), so a
window that is measured holds the twenty readings before the one that finds the buffer full. The
divisions of `GetCurrent` are by the number of samples and by the iterates of `SquareRoot`; the
second are all positive unless the sum of the squares is 0 modulo 2^16, which makes the first one 0
(`getCurrent_defined_iff`).
-/

namespace Trip.Device

open Measure Measure.Analog

/-- The readings that a run acquires. -/
def readings (tr : List ((DeviceIn × List Out) × Device)) : List int16_t :=
  tr.filterMap (·.1.1.reading)

theorem window_of_acquire {a a' : Analog} {reading : Option int16_t} {c : Option uint16_t}
    (h : acquire a reading = .ok (c, a')) : ∃ w, a.window reading = .ok (w, a') := by
  obtain ⟨⟨full, b⟩, hget, h⟩ := Base.bind_ok h
  have hw := window_eq hget
  cases full with
  | true =>
    obtain ⟨⟨current, b'⟩, hcur, h⟩ := Base.bind_ok h
    cases h
    rw [getCurrent_clears hcur]
    exact ⟨_, hw⟩
  | false =>
    cases h
    exact ⟨none, hw⟩

/-- **Every run of the device acquires windows**, from the same readings. -/
theorem windows_of_device {tr : List ((DeviceIn × List Out) × Device)} {d : Device}
    (h : Lib.Trace Step init tr d) :
    ∃ tr', Lib.Trace Window .init tr' d.analog ∧ acquired tr' = readings tr := by
  refine h.history (fun tr d =>
    ∃ tr', Lib.Trace Window .init tr' d.analog ∧ acquired tr' = readings tr) ⟨[], .nil _, rfl⟩ ?_
  intro tr d ⟨i, o⟩ d' ⟨tr', ht, hr⟩ hst
  obtain ⟨⟨c, a⟩, ha, hst⟩ := Base.bind_ok hst
  obtain ⟨⟨o', r⟩, -, hst⟩ := Base.bind_ok hst
  cases hst
  obtain ⟨w, hw⟩ := window_of_acquire ha
  refine ⟨_, ht.snoc (l := (i.reading, w)) hw, ?_⟩
  rw [acquired_snoc, hr]
  unfold readings
  rw [List.filterMap_append]
  cases hi : i.reading <;> simp [hi]

/-- What `GetCurrent` does with a window. -/
theorem getCurrent_window {a : Analog} {xs : List int16_t} (hlen : xs.length = NB_Sample)
    (hbuf : a.inputSignal = xs.map sampleVolts) :
    if 65536 ∣ squareSum xs then getCurrent a = .error .divByZero
    else ∃ c a', getCurrent a = .ok (c, a') := by
  split
  · rename_i hdvd
    unfold getCurrent getCurrentRMS
    rw [getVoltageRMS_fault hlen hbuf (Nat.mod_eq_zero_of_dvd hdvd)]
    rfl
  · rename_i hdvd
    have hpos : 0 < squareSum xs % 65536 :=
      Nat.pos_of_ne_zero fun h0 => hdvd (Nat.dvd_of_mod_eq_zero h0)
    exact ⟨_, _, getCurrent_eq hlen hbuf hpos⟩

/-- **The measurement divides by zero** exactly if the sum of the squares of the twenty readings in
the window is a multiple of 2^16. -/
theorem getCurrent_defined_iff (tr : List ((DeviceIn × List Out) × Device)) (d : Device)
    (h : Lib.Trace Step init tr d) (reading : Option int16_t) (a : Analog)
    (hfull : d.analog.getSignal reading = .ok (true, a)) :
    ∃ xs, xs.length = NB_Sample ∧ xs <:+ readings tr ∧ a.inputSignal = xs.map sampleVolts ∧
      ((∃ c a', getCurrent a = .ok (c, a')) ↔ ¬ 65536 ∣ squareSum xs) ∧
      (getCurrent a = .error .divByZero ↔ 65536 ∣ squareSum xs) := by
  obtain ⟨tr', ht, hr⟩ := windows_of_device h
  obtain ⟨blocks, xs, hs⟩ := exists_sampled ht
  cases reading with
  | none => cases hfull
  | some x =>
    have hsig := getSignal_some hfull
    have hlen : d.analog.inputSignal.length = xs.length := by rw [hs.buffer, List.length_map]
    rw [hlen] at hsig
    split at hsig
    · cases hsig.1
    · have hxs : xs.length = NB_Sample := Nat.le_antisymm hs.length (by omega)
      have hbuf : a.inputSignal = xs.map sampleVolts := hsig.2.trans hs.buffer
      have hcur := getCurrent_window hxs hbuf
      refine ⟨xs, hxs, ?_, hbuf, ?_⟩
      · rw [← hr, hs.acquired]
        exact List.suffix_append _ xs
      · split at hcur
        · rename_i hdvd
          rw [hcur]
          exact ⟨iff_of_false (by intro ⟨c, a', h⟩; cases h) (not_not_intro hdvd),
            iff_of_true rfl hdvd⟩
        · rename_i hdvd
          obtain ⟨c, a', hok⟩ := hcur
          rw [hok]
          exact ⟨iff_of_true ⟨c, a', rfl⟩ hdvd, iff_of_false (fun h => by cases h) hdvd⟩

/-- A tick with the reading `x`. -/
def tickOf (x : int16_t) : DeviceIn :=
  { reading := some x, analogPut := fun _ _ => true, setting := 0#8 }

/-- A reading finds the buffer full, and the measurement passes the test. -/
def measures (x : int16_t) (p : Except Undef (uint16_t × Analog) → Bool) (a : Analog) : Bool :=
  match a.getSignal (some x) with
  | .ok (true, a') => p (getCurrent a')
  | _ => false

theorem measures_eq_true {x : int16_t} {p : Except Undef (uint16_t × Analog) → Bool} {a : Analog}
    (h : measures x p a = true) :
    ∃ a', a.getSignal (some x) = .ok (true, a') ∧ p (getCurrent a') = true := by
  unfold measures at h
  split at h
  · rename_i a' hget
    exact ⟨a', hget, h⟩
  · cases h

/-- Twenty readings of 20000. -/
theorem getCurrent_defined_20000 : ∃ tr d a xs, Lib.Trace Step init tr d ∧
    d.analog.getSignal (some 20000#16) = .ok (true, a) ∧ xs <:+ readings tr ∧
    a.inputSignal = xs.map sampleVolts ∧ ¬ 65536 ∣ squareSum xs := by
  obtain ⟨tr, d, h, hp⟩ := Lib.exists_trace_of_run pit init (List.replicate 20 (tickOf 20000#16))
    (fun _ d => measures 20000#16 (fun r => r matches .ok _) d.analog) (by decide +kernel)
  obtain ⟨a, hfull, hok⟩ := measures_eq_true hp
  obtain ⟨xs, -, hxs, hbuf, hdef, -⟩ := getCurrent_defined_iff tr d h (some 20000#16) a hfull
  refine ⟨tr, d, a, xs, h, hfull, hxs, hbuf, hdef.1 ?_⟩
  cases hc : getCurrent a with
  | error e =>
    rw [hc] at hok
    cases hok
  | ok r => exact ⟨r.1, r.2, rfl⟩

/-- Twenty readings of 0. -/
theorem getCurrent_quiet : ∃ tr d a,
    Lib.run pit init (List.replicate 20 (tickOf 0#16)) = .ok (tr, d) ∧
    d.analog.getSignal (some 0#16) = .ok (true, a) ∧ getCurrent a = .error .divByZero := by
  obtain ⟨tr, d, h, hp⟩ := Lib.exists_run pit init (List.replicate 20 (tickOf 0#16))
    (fun _ d => measures 0#16 (fun r => r matches .error .divByZero) d.analog) (by decide +kernel)
  obtain ⟨a, hfull, herr⟩ := measures_eq_true hp
  refine ⟨tr, d, a, h, hfull, ?_⟩
  split at herr
  · assumption
  · cases herr

end Trip.Device
