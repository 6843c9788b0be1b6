import IdmtRelay.Lib.Latch
import IdmtRelay.Trip.Board
import IdmtRelay.Trip.Proof.Signal

/-!
# What the board shows of a run

The orange LED is lit exactly when the last tick ended in overload, and no other LED ever is
(`led_iff`). The two channels are latches: a channel keeps its signal from the tick that puts it out
until a tick without overload takes it back (`outputs_latched`). That tick takes the trip signal
back only if the timing signal was taken back in it too.
-/

namespace Trip

open Measure (OVERLOAD)

namespace Relay

variable {i : TickIn} {s s' : Relay} {o : List Out} {pdor : uint32_t} {tr : Ticks} {b : Board}

/-! ## The outputs of a tick -/

/-- The outputs after the countdown. -/
def shown (i : TickIn) (s : Relay) : List Out :=
  if OVERLOAD < held i s then [.ledOn, (putSample i.analogPut 5#16 1#8).2]
  else (reset i (sensed i s)).1

theorem tick_out (h : pit i s = .ok (o, s')) : o = (countdown i s).1 ++ shown i s := by
  unfold shown
  unfold pit tick at h
  simp only [sensed_current] at h
  split at h
  · obtain ⟨s₁, -, h⟩ := Base.bind_ok h
    cases h
    rw [if_pos ‹_›]
  · cases h
    rw [if_neg ‹_›]

/-! ## The LEDs -/

theorem and_clear {m n : uint32_t} (h : m &&& n = 0#32) (x : uint32_t) :
    (x &&& ~~~m) &&& n = x &&& n := by
  have hn : (m ||| ~~~m) &&& n = n := by rw [BitVec.or_not_self, BitVec.allOnes_and]
  rw [BitVec.and_or_distrib_right, h, BitVec.zero_or] at hn
  rw [BitVec.and_assoc, hn]

theorem and_set {m n : uint32_t} (h : m &&& n = 0#32) (x : uint32_t) :
    (x ||| m) &&& n = x &&& n := by
  rw [BitVec.and_or_distrib_right, h, BitVec.or_zero]

/-- The LEDs after a tick that leaves the state `s`. -/
structure Shows (s : Relay) (l : LED) : Prop where
  color : l.m_color = ORANGE ∨ l.m_color = 0#32 ∧ ¬ l.Lit ORANGE
  orange : l.Lit ORANGE ↔ OVERLOAD < s.current
  dark : ∀ n ∈ [YELLOW, GREEN, BLUE], ¬ l.Lit n

theorem disjoint_orange : ∀ n ∈ [YELLOW, GREEN, BLUE], ORANGE &&& n = 0#32 := by
  simp [ORANGE, YELLOW, GREEN, BLUE]

theorem shows_init (pdor : uint32_t) : Shows init (LED.construct pdor) := by
  have hmask : ∀ n ∈ [ORANGE, YELLOW, GREEN, BLUE],
      (ORANGE ||| YELLOW ||| GREEN ||| BLUE) &&& n ≠ 0#32 := by
    simp [ORANGE, YELLOW, GREEN, BLUE]
  have hunlit : ∀ n ∈ [ORANGE, YELLOW, GREEN, BLUE], ¬ (LED.construct pdor).Lit n := by
    intro n hn hlit
    unfold LED.construct LED.Lit at hlit
    rw [BitVec.and_or_distrib_right, BitVec.or_eq_zero_iff] at hlit
    exact hmask n hn hlit.2
  obtain ⟨horange, hdark⟩ := List.forall_mem_cons.1 hunlit
  exact ⟨.inr ⟨rfl, horange⟩, iff_of_false horange (by decide), hdark⟩

theorem puts_countdown_led (b : Board) : (b.puts (countdown i s).1).led = b.led := by
  by_cases h : s.Expires
  · rw [countdown_expires h]
    cases s.flagTrip with
    | true => rfl
    | false => simp [putSample]
  · rw [countdown_of_not_expires h]
    rfl

theorem puts_shown_led (b : Board) : (b.puts (shown i s)).led =
    if OVERLOAD < held i s then (b.led.color ORANGE).on else b.led.off := by
  unfold shown
  split
  · simp [putSample]
  · unfold reset putSample
    cases i.analogPut 1#8 (BitVec.ofInt 16 ((0#16).toInt * resolutionDA)) <;> simp

theorem lit_on (l : LED) : (l.color ORANGE).on.Lit ORANGE := by
  show (l.pdor &&& ~~~ORANGE) &&& ORANGE = 0#32
  rw [BitVec.and_assoc, BitVec.not_and_self]
  exact BitVec.and_zero

theorem not_lit_off {l : LED} (h : l.m_color = ORANGE) : ¬ l.off.Lit ORANGE := by
  intro hlit
  have hset : (l.pdor ||| ORANGE) &&& ORANGE = 0#32 := h ▸ hlit
  rw [BitVec.and_or_distrib_right, BitVec.and_self, BitVec.or_eq_zero_iff] at hset
  exact absurd hset.2 (by simp [ORANGE])

theorem shows_step (hs : Shows s b.led) (h : pit i s = .ok (o, s')) : Shows s' (b.puts o).led := by
  have hcur : s'.current = held i s := tick_current h
  rw [tick_out h, Board.puts_append, puts_shown_led, puts_countdown_led]
  split
  · rename_i hover
    refine ⟨.inl rfl, iff_of_true (lit_on _) (hcur ▸ hover), ?_⟩
    intro n hn hlit
    exact hs.dark n hn ((and_clear (disjoint_orange n hn) _).symm.trans hlit)
  · rename_i hlow
    have hlow' : ¬ OVERLOAD < s'.current := hcur ▸ hlow
    rcases hs.color with hc | ⟨hc, hdark⟩
    · refine ⟨.inl hc, iff_of_false (not_lit_off hc) hlow', ?_⟩
      intro n hn hlit
      refine hs.dark n hn ((and_set (disjoint_orange n hn) _).symm.trans ?_)
      exact hc ▸ hlit
    · have hsame : b.led.off = b.led := by
        unfold LED.off
        rw [hc, BitVec.or_zero, ← hc]
      rw [hsame]
      exact ⟨.inr ⟨hc, hdark⟩, iff_of_false hdark hlow', hs.dark⟩

/-- **The LEDs show the overload**: the orange one is lit exactly when the last tick ended in
overload, whatever port A held before, and the others are never lit. -/
theorem led_iff (pdor : uint32_t) (tr : Ticks) (s : Relay) (h : Lib.Trace Step init tr s) :
    ((Board.after pdor tr).led.Lit ORANGE ↔ OVERLOAD < s.current) ∧
    ∀ n ∈ [YELLOW, GREEN, BLUE], ¬ (Board.after pdor tr).led.Lit n := by
  have hs : Shows s (Board.after pdor tr).led := by
    refine h.history (fun tr s => Shows s (Board.after pdor tr).led) (shows_init pdor) ?_
    intro tr s ⟨i, o⟩ s' hs hst
    rw [Board.after_snoc]
    exact shows_step hs hst
  exact ⟨hs.orange, hs.dark⟩

/-- A window at 14 A and one at 0.45 A: the LED is lit and put out again. -/
theorem led_iff_interrupted : ∃ (tr : Ticks) (s : Relay), tr.length = 42 ∧
    (∃ p ∈ tr, p.2.current = 29549#16) ∧ s.current = 925#16 ∧
    ((Board.after 0#32 tr).led.Lit ORANGE ↔ OVERLOAD < s.current) ∧
    ∀ n ∈ [YELLOW, GREEN, BLUE], ¬ (Board.after 0#32 tr).led.Lit n := by
  obtain ⟨tr, s, h, hp⟩ := Lib.exists_trace_of_run pit init (windows 2#8 [29549#16, 925#16])
    (fun tr s => decide (tr.length = 42 ∧
      (∃ p ∈ tr, p.2.current = 29549#16) ∧ s.current = 925#16))
    (by decide +kernel)
  obtain ⟨hlen, hany, hc⟩ := of_decide_eq_true hp
  exact ⟨tr, s, hlen, hany, hc, led_iff 0#32 tr s h⟩

/-! ## The channels -/

/-- The tick takes the timing signal back. -/
def Stops (p : (TickIn × List Out) × Relay) : Prop :=
  ¬ OVERLOAD < p.2.current ∧ p.1.1.analogPut 1#8 0#16 = true

/-- The tick takes the trip signal back. -/
def Releases (p : (TickIn × List Out) × Relay) : Prop :=
  Stops p ∧ p.1.1.analogPut 2#8 0#16 = true

/-- The tick puts the timing signal out. -/
def Warns (p : (TickIn × List Out) × Relay) : Prop :=
  OVERLOAD < p.2.current ∧ p.1.1.analogPut 1#8 16385#16 = true

instance (p : (TickIn × List Out) × Relay) : Decidable (Stops p) :=
  inferInstanceAs (Decidable (_ ∧ _))

instance (p : (TickIn × List Out) × Relay) : Decidable (Releases p) :=
  inferInstanceAs (Decidable (_ ∧ _))

instance (p : (TickIn × List Out) × Relay) : Decidable (Warns p) :=
  inferInstanceAs (Decidable (_ ∧ _))

theorem puts_countdown_dac (b : Board) (h : pit i s = .ok (o, s')) (c : uint8_t) :
    (b.puts (countdown i s).1).dac c =
      if signalled o = true ∧ c = 2#8 then 16385#16 else b.dac c := by
  rw [(tick_branch h).2.2]
  by_cases he : s.Expires
  · rw [countdown_expires he]
    cases s.flagTrip with
    | true => simp [signalled]
    | false => simp [signalled, putSample, Board.put_putSample_dac, resolutionDA]
  · rw [countdown_of_not_expires he]
    simp [signalled]

theorem puts_shown_dac (b : Board) (h : pit i s = .ok (o, s')) :
    (b.puts (shown i s)).dac 1#8 = (if Warns ((i, o), s') then 16385#16
      else if Stops ((i, o), s') then 0#16 else b.dac 1#8) ∧
    (b.puts (shown i s)).dac 2#8 = if Releases ((i, o), s') then 0#16 else b.dac 2#8 := by
  unfold Releases Warns Stops
  simp only [tick_current h]
  unfold shown
  by_cases hover : OVERLOAD < held i s
  · simp [hover, putSample, Board.put_putSample_dac, resolutionDA]
  · unfold reset
    cases h1 : i.analogPut 1#8 0#16 <;> cases h2 : i.analogPut 2#8 0#16 <;>
      simp [hover, putSample, h1, h2, Board.put_putSample_dac, resolutionDA]

/-- **One tick**: what it does to the two channels. -/
theorem puts_dac (b : Board) (h : pit i s = .ok (o, s')) :
    (b.puts o).dac 1#8 = (if Warns ((i, o), s') then 16385#16
      else if Stops ((i, o), s') then 0#16 else b.dac 1#8) ∧
    (b.puts o).dac 2#8 = if Releases ((i, o), s') then 0#16
      else if signalled o = true then 16385#16 else b.dac 2#8 := by
  have hcount := puts_countdown_dac b h
  obtain ⟨h1, h2⟩ := puts_shown_dac (b.puts (countdown i s).1) h
  rw [hcount] at h1 h2
  rw [← Board.puts_append, ← tick_out h] at h1 h2
  simpa using And.intro h1 h2

/-- **The channels latch their signals.** Channel 1 carries the timing signal since the last tick in
overload, and channel 2 the trip signal since the last tick that sent it, each until a tick without
overload takes it back. -/
theorem outputs_latched (pdor : uint32_t) (tr : Ticks) (s : Relay)
    (h : Lib.Trace Step init tr s) :
    ((Board.after pdor tr).dac 1#8 = 16385#16 ↔ Lib.Latched Warns Stops tr) ∧
    ((Board.after pdor tr).dac 2#8 = 16385#16 ↔
      Lib.Latched (fun p => signalled p.1.2 = true) Releases tr) := by
  have hoff : ¬ 0#16 = 16385#16 := by decide
  refine h.history (fun tr _ =>
    ((Board.after pdor tr).dac 1#8 = 16385#16 ↔ Lib.Latched Warns Stops tr) ∧
    ((Board.after pdor tr).dac 2#8 = 16385#16 ↔
      Lib.Latched (fun p => signalled p.1.2 = true) Releases tr)) ?_ ?_
  · exact ⟨iff_of_false hoff Lib.not_latched_nil, iff_of_false hoff Lib.not_latched_nil⟩
  · intro tr s ⟨i, o⟩ s' ⟨h1, h2⟩ hst
    obtain ⟨hs1, hs2⟩ := puts_dac (Board.after pdor tr) hst
    rw [Board.after_snoc, hs1, hs2, Lib.latched_snoc, Lib.latched_snoc, ← h1, ← h2]
    constructor
    · by_cases hw : Warns ((i, o), s')
      · have hstop : ¬ Stops ((i, o), s') := fun hstop => hstop.1 hw.1
        simp [hw, hstop]
      · by_cases hstop : Stops ((i, o), s')
        · simp [hw, hstop]
        · simp [hw, hstop]
    · by_cases hr : Releases ((i, o), s')
      · simp [hr]
      · by_cases hsig : signalled o = true
        · simp [hr, hsig]
        · simp [hr, hsig]

/-- An overload of 14 A that trips, and a window at 0.45 A in which `Analog_Put` fails: both
channels keep their signals. -/
theorem outputs_latched_29549 : ∃ (tr : Ticks) (s : Relay), s.current = 925#16 ∧
    Lib.Latched Warns Stops tr ∧
    Lib.Latched (fun p => signalled p.1.2 = true) Releases tr := by
  obtain ⟨tr, s, h, hp⟩ := Lib.exists_trace_of_run pit init
    (windows 2#8 [29549#16] ++ List.replicate 387 (quietTick 2#8 none) ++
      [⟨some 925#16, fun _ _ => false, 2#8⟩])
    (fun tr s => decide (s.current = 925#16 ∧ (Board.after 0#32 tr).dac 1#8 = 16385#16 ∧
      (Board.after 0#32 tr).dac 2#8 = 16385#16)) (by decide +kernel)
  obtain ⟨hc, h1, h2⟩ := of_decide_eq_true hp
  obtain ⟨h1', h2'⟩ := outputs_latched 0#32 tr s h
  exact ⟨tr, s, hc, h1'.1 h1, h2'.1 h2⟩

end Relay

end Trip
