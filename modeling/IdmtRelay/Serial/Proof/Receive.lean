import IdmtRelay.Serial.Link
import IdmtRelay.Serial.Scanner

/-!
# The receive path refines the reference scanner

`Packet.Holds p pending`: the byte counter is one more than the number of pending bytes and the
first fields are these bytes. `receive_scan` is the simulation step: a byte takes a parser that
holds the scanner's pending bytes to one that holds them after the byte, and `PacketGet` returns
true with a packet exactly when the scanner emits it. `Received` is the invariant of the whole link:
the received bytes are those consumed followed by those in `RxFIFO`, and the parser is where the
scanner is after the consumed ones.
-/

namespace Serial

namespace Packet

/-- The fields that hold a pending byte: one fewer than the counter. -/
def filled (p : Packet) : List uint8_t :=
  [p.command, p.parameter1, p.parameter2, p.parameter3].take (p.nbBytesPacket.toNat - 1)

/-- The four bytes a successful `PacketGet` leaves in the object. -/
def msg (p : Packet) : Msg := ⟨p.command, p.parameter1, p.parameter2, p.parameter3⟩

/-- The parser holds the pending bytes of the scanner. -/
structure Holds (p : Packet) (pending : List uint8_t) : Prop where
  counter : p.nbBytesPacket.toNat = pending.length + 1
  filled : p.filled = pending

theorem Holds.nbBytesPacket_eq {p : Packet} {pending : List uint8_t} (h : p.Holds pending) :
    p.nbBytesPacket = BitVec.ofNat 32 (pending.length + 1) := by
  rw [← h.counter]
  simp

/-- The checksum test is the XOR of all five bytes. -/
theorem checksum_iff (a b c d e : uint8_t) :
    e = a ^^^ b ^^^ c ^^^ d ↔ a ^^^ b ^^^ c ^^^ d ^^^ e = 0#8 := by
  rw [BitVec.xor_eq_zero_iff, eq_comm]

/-- **One byte keeps the parser and the scanner together.** -/
theorem receive_scan {p : Packet} {pending : List uint8_t} (h : p.Holds pending)
    (hlt : pending.length < 5) (b : uint8_t) :
    (scan (pending ++ [b])).1 = (if (p.receive b).1 then [(p.receive b).2.msg] else []) ∧
      (p.receive b).2.Holds (scan (pending ++ [b])).2 := by
  obtain ⟨c, p1, p2, p3, ck, n⟩ := p
  obtain rfl : n = BitVec.ofNat 32 (pending.length + 1) := h.nbBytesPacket_eq
  obtain ⟨-, hf⟩ := h
  match pending, hlt, hf with
  | [], _, _ => exact ⟨rfl, rfl, rfl⟩
  | [x1], _, hf =>
    obtain rfl : c = x1 := by simpa [filled] using hf
    exact ⟨rfl, rfl, rfl⟩
  | [x1, x2], _, hf =>
    obtain ⟨rfl, rfl⟩ : c = x1 ∧ p1 = x2 := by simpa [filled] using hf
    exact ⟨rfl, rfl, rfl⟩
  | [x1, x2, x3], _, hf =>
    obtain ⟨rfl, rfl, rfl⟩ : c = x1 ∧ p1 = x2 ∧ p2 = x3 := by simpa [filled] using hf
    exact ⟨rfl, rfl, rfl⟩
  | [x1, x2, x3, x4], _, hf =>
    obtain ⟨rfl, rfl, rfl, rfl⟩ : c = x1 ∧ p1 = x2 ∧ p2 = x3 ∧ p3 = x4 := by
      simpa [filled] using hf
    -- the fifth byte: the checksum passes, or the window slides by one and the counter stays
    by_cases hx : c ^^^ p1 ^^^ p2 ^^^ p3 ^^^ b = 0#8
    · have hr : receive ⟨c, p1, p2, p3, ck, 5#32⟩ b = (true, ⟨c, p1, p2, p3, b, 1⟩) := by
        simp [receive, makeChecksum, (checksum_iff c p1 p2 p3 b).2 hx]
      simp only [List.length_cons, List.length_nil, List.cons_append, List.nil_append, scan_pass hx,
        hr]
      exact ⟨rfl, rfl, rfl⟩
    · have hr : receive ⟨c, p1, p2, p3, ck, 5#32⟩ b = (false, ⟨p1, p2, p3, b, b, 5#32⟩) := by
        simp [receive, makeChecksum, switchPacket, mt (checksum_iff c p1 p2 p3 b).1 hx]
      simp only [List.length_cons, List.length_nil, List.cons_append, List.nil_append, scan_fail hx,
        hr]
      exact ⟨rfl, rfl, rfl⟩

end Packet

/-! ## The invariant of the link -/

namespace Link

/-- The received bytes are the consumed ones followed by the queued ones, and the parser has come as
far as the scanner on the consumed ones. -/
structure Received (os : List Out) (s : Link) (consumed : List uint8_t) : Prop where
  rie : s.uart.RIE
  rx : received os = consumed ++ s.uart.rxFIFO.bytes
  got : got os = (scan consumed).1
  holds : s.packet.Holds (scan consumed).2

theorem received_append (os os' : List Out) : received (os ++ os') = received os ++ received os' :=
  List.filterMap_append

theorem got_append (os os' : List Out) : got (os ++ os') = got os ++ got os' :=
  List.filterMap_append

/-- The transmitting half of the handler touches neither `RxFIFO` nor the receive interrupt. -/
theorem isrTx_frame {u : UART} (h : u.RIE) (s1 : uint8_t) :
    (u.isrTx s1).2.rxFIFO = u.rxFIFO ∧ (u.isrTx s1).2.RIE ∧ received (u.isrTx s1).1 = [] ∧
      got (u.isrTx s1).1 = [] := by
  rcases u.isrTx_cases s1 with he | ⟨b, bs, -, -, -, he⟩ | ⟨-, -, he⟩ <;> rw [he]
  · exact ⟨rfl, h, rfl, rfl⟩
  · exact ⟨rfl, h, rfl, rfl⟩
  · exact ⟨rfl, UART.disarm_RIE h, rfl, rfl⟩

/-- The receiving half, when the byte it receives finds room, appends it to `RxFIFO`. -/
theorem isrRx_frame {u : UART} (h : u.RIE) (s1 d : uint8_t) (hno : NoOverrun (u.isrRx s1 d).1) :
    (u.isrRx s1 d).2.rxFIFO.bytes = u.rxFIFO.bytes ++ received (u.isrRx s1 d).1 ∧
      (u.isrRx s1 d).2.RIE ∧ got (u.isrRx s1 d).1 = [] := by
  rcases u.isrRx_cases s1 d with he | he <;> rw [he] at hno ⊢
  · exact ⟨by simp [received], h, rfl⟩
  · rcases Nat.lt_or_ge u.rxFIFO.bytes.length FIFO_SIZE with hlt | hge
    · exact ⟨(Fifo.put_of_lt hlt d).2, h, rfl⟩
    · have hfull := Nat.le_antisymm u.rxFIFO.length_le hge
      rw [Fifo.put_of_full hfull] at hno
      exact absurd (hno _ (List.mem_singleton_self _)) (by simp [Out.lost])

theorem isr_received {os : List Out} {s : Link} {consumed : List uint8_t}
    (h : Received os s consumed) (s1Rx s1Tx d : uint8_t)
    (hno : NoOverrun (s.uart.isr s1Rx s1Tx d).1) :
    Received (os ++ (s.uart.isr s1Rx s1Tx d).1) { s with uart := (s.uart.isr s1Rx s1Tx d).2 }
      consumed := by
  rw [UART.isr_eq] at hno ⊢
  obtain ⟨hrx, hrie, hgot⟩ := isrRx_frame h.rie s1Rx d hno.of_append.1
  obtain ⟨hrx', hrie', hrec', hgot'⟩ := isrTx_frame hrie s1Tx
  refine ⟨hrie', ?_, ?_, h.holds⟩
  · rw [received_append, received_append, hrec', hrx', hrx, h.rx]
    simp
  · rw [got_append, got_append, hgot, hgot', h.got]
    simp

theorem packetGet_of_nil (p : Packet) {u : UART} (h : u.rxFIFO.bytes = []) :
    p.packetGet u = (false, p, u) := by
  simp only [Packet.packetGet, UART.inChar, Fifo.get_of_nil h]
  rfl

theorem packetGet_of_cons (p : Packet) {u : UART} {b : uint8_t} {bs : List uint8_t}
    (h : u.rxFIFO.bytes = b :: bs) :
    p.packetGet u = ((p.receive b).1, (p.receive b).2,
      { u with rxFIFO := (u.rxFIFO.get 0).2.2 }) := by
  obtain ⟨h1, h2, -⟩ := Fifo.get_of_cons h 0
  simp only [Packet.packetGet, UART.inChar, h1, h2]
  rfl

/-- What a poll of `PacketGet` puts out. -/
def gotOf (r : Bool × Packet × UART) : List Out :=
  if r.1 then [.got r.2.1.command r.2.1.parameter1 r.2.1.parameter2 r.2.1.parameter3] else []

theorem received_gotOf (r : Bool × Packet × UART) :
    received (gotOf r) = [] ∧ NoOverrun (gotOf r) := by
  unfold gotOf
  split
  · exact ⟨rfl, by simp [NoOverrun, Out.lost]⟩
  · exact ⟨rfl, by simp [NoOverrun]⟩

theorem packetGet_received {os : List Out} {s : Link} {consumed : List uint8_t}
    (h : Received os s consumed) :
    ∃ consumed', Received (os ++ gotOf (s.packet.packetGet s.uart))
      { s with
        packet := (s.packet.packetGet s.uart).2.1
        uart := (s.packet.packetGet s.uart).2.2 } consumed' := by
  cases hb : s.uart.rxFIFO.bytes with
  | nil =>
    refine ⟨consumed, ?_⟩
    rw [packetGet_of_nil s.packet hb]
    simpa [gotOf] using h
  | cons b bs =>
    have hrest := (Fifo.get_of_cons hb 0).2.2
    obtain ⟨hs1, hs2⟩ := Packet.receive_scan h.holds (scan_pending_lt consumed) b
    refine ⟨consumed ++ [b], ?_⟩
    rw [packetGet_of_cons s.packet hb]
    refine ⟨h.rie, ?_, ?_, ?_⟩
    · show received (os ++ _) = consumed ++ [b] ++ (s.uart.rxFIFO.get 0).2.2.bytes
      rw [received_append, (received_gotOf _).1, hrest, h.rx, hb]
      simp
    · rw [got_append, h.got, scan_append, hs1]
      congr 1
      unfold gotOf
      split <;> rfl
    · rw [scan_append]
      exact hs2

/-- A step of `PacketPut` leaves the receiver alone. -/
theorem put_step_frame (c : Put) {u : UART} (h : u.RIE) :
    (c.step u).2.rxFIFO = u.rxFIFO ∧ (c.step u).2.RIE := by
  obtain ⟨rest, success⟩ := c
  cases rest with
  | nil => exact ⟨rfl, UART.arm_RIE h⟩
  | cons it rest => cases success <;> exact ⟨rfl, h⟩

theorem put_received {os o : List Out} {s : Link} {consumed : List uint8_t} {c : Put}
    (h : Received os s consumed) (ho : received o = [] ∧ got o = []) (call : Option Put) :
    Received (os ++ o) { s with uart := (c.step s.uart).2, call := call } consumed := by
  obtain ⟨hrx, hrie⟩ := put_step_frame c h.rie
  refine ⟨hrie, ?_, ?_, h.holds⟩
  · rw [received_append, ho.1, List.append_nil, h.rx, ← hrx]
  · rw [got_append, ho.2, List.append_nil, h.got]

/-- **One step of the link keeps the invariant.** -/
theorem received_step {os : List Out} {s s' : Link} {l : Event × List Out}
    (h : ∃ consumed, Received os s consumed) (hst : Step s l s') (hno : NoOverrun l.2) :
    ∃ consumed, Received (os ++ l.2) s' consumed := by
  obtain ⟨consumed, h⟩ := h
  obtain ⟨e, o⟩ := l
  have hb : Branch s e o s' := step_branch hst
  cases hb with
  | isr s1Rx s1Tx d => exact ⟨consumed, isr_received h s1Rx s1Tx d hno⟩
  | packetGet => exact packetGet_received h
  | packetPut m => exact ⟨consumed, by simpa using ⟨h.rie, h.rx, h.got, h.holds⟩⟩
  | @resume c c' u _ hs =>
    have key := put_received (c := c) (o := []) h ⟨rfl, rfl⟩ (some c')
    rw [hs] at key
    exact ⟨consumed, key⟩
  | @ret c success u _ hs =>
    have key := put_received (c := c) (o := [.put success]) h ⟨rfl, rfl⟩ none
    rw [hs] at key
    exact ⟨consumed, key⟩

/-- Along a trace from an aligned state without overrun, the invariant holds. -/
theorem exists_received {s₀ s : Link} {tr : List ((Event × List Out) × Link)} (h0 : s₀.Aligned)
    (h : Trace s₀ tr s) (hno : NoOverrun (outs tr)) :
    ∃ consumed, Received (outs tr) s consumed := by
  have hnil : Received [] s₀ [] :=
    { rie := h0.rie
      rx := by simp [received, h0.rx]
      got := rfl
      holds := ⟨by simp [h0.counter, scan], by simp [Packet.filled, h0.counter, scan]⟩ }
  revert hno
  apply h.history fun tr s => NoOverrun (outs tr) → ∃ consumed, Received (outs tr) s consumed
  · intro _
    exact ⟨[], hnil⟩
  · intro tr s l s' ih hst hno
    rw [outs_snoc] at hno ⊢
    exact received_step (ih hno.of_append.1) hst hno.of_append.2

/-- **The receive path is the reference scanner, whatever the schedule.** Along every interleaving
of receptions, polls and transmissions in which no reception meets a full `RxFIFO`, the bytes
consumed so far are the received ones less those still queued, `PacketGet` has returned exactly the
packets the scanner finds in them, the counter is in 1..5 and the filled fields are the scanner's
pending bytes in order. -/
theorem packetGet_refines_scan {s₀ s : Link} {tr : List ((Event × List Out) × Link)}
    (h0 : s₀.Aligned) (h : Trace s₀ tr s) (hno : NoOverrun (outs tr)) :
    ∃ consumed, received (outs tr) = consumed ++ s.uart.rxFIFO.bytes ∧
      got (outs tr) = (scan consumed).1 ∧ s.packet.filled = (scan consumed).2 ∧
      1 ≤ s.packet.nbBytesPacket.toNat ∧ s.packet.nbBytesPacket.toNat ≤ 5 := by
  obtain ⟨consumed, hr⟩ := exists_received h0 h hno
  have hlt := scan_pending_lt consumed
  have hc := hr.holds.counter
  exact ⟨consumed, hr.rx, hr.got, hr.holds.filled, by omega, by omega⟩

/-- The bytes 1, 2, 3, 4, 4 with a poll after each, from power-up. -/
theorem packetGet_refines_scan_one : ∃ tr s, Trace ⟨.init, ⟨0, 0, 0, 0, 0, 1⟩, none⟩ tr s ∧
    got (outs tr) = [⟨1, 2, 3, 4⟩] ∧
    ∃ consumed, received (outs tr) = consumed ++ s.uart.rxFIFO.bytes ∧
      got (outs tr) = (scan consumed).1 ∧ s.packet.filled = (scan consumed).2 ∧
      1 ≤ s.packet.nbBytesPacket.toNat ∧ s.packet.nbBytesPacket.toNat ≤ 5 := by
  obtain ⟨tr, s, h, hp⟩ := Lib.exists_trace_of_run step ⟨.init, ⟨0, 0, 0, 0, 0, 1⟩, none⟩
    ([1, 2, 3, 4, 4].flatMap fun d => [.isr 0x20 0 d, .packetGet])
    (fun tr _ => decide (got (outs tr) = [⟨1, 2, 3, 4⟩] ∧
      NoOverrun (outs tr))) (by decide)
  obtain ⟨hg, hno⟩ := of_decide_eq_true hp
  exact ⟨tr, s, h, hg, packetGet_refines_scan ⟨rfl, by decide, rfl⟩ h hno⟩

end Link

end Serial
