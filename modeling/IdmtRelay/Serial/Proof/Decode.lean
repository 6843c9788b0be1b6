import IdmtRelay.Serial.Proof.Resync
import IdmtRelay.Serial.Proof.Transmit

/-!
# Decoding undoes encoding

What `PacketPut` queues for a packet is its five bytes (`packetPut_bytes`). A receiver that consumes
the stream of a list of packets from its aligned state returns just these packets and is aligned
again, whatever the schedule (`got_encode`). In particular it does so when it is fed byte by byte
with any number of empty polls in between (`decode_encode`), since every such run goes through
(`polls_run`).
-/

namespace Serial

/-- What `PacketPut` queues when there is room. -/
theorem packetPut_bytes (m : Msg) {u : UART} (h : u.txFIFO.bytes.length + 5 ≤ FIFO_SIZE) :
    (packetPut m u).1 = true ∧ (packetPut m u).2.txFIFO.bytes = u.txFIFO.bytes ++ m.bytes := by
  have hlen : m.bytes.length = 5 := rfl
  obtain ⟨hok, hbytes⟩ := putLoop_spec m.bytes u
  refine ⟨hok.2 (by rw [hlen]; exact h), hbytes.trans ?_⟩
  rw [List.take_of_length_le (by omega)]

namespace Link

/-- **A stream of packets is received as sent, whatever the schedule.** -/
theorem got_encode {ps : List Msg} {s₀ s : Link} {tr : List ((Event × List Out) × Link)}
    (h0 : s₀.Aligned) (h : Trace s₀ tr s) (hno : NoOverrun (outs tr))
    (hrec : received (outs tr) = encode ps) (hall : s.uart.rxFIFO.bytes = []) :
    got (outs tr) = ps ∧ s.Aligned := by
  obtain ⟨consumed, hr⟩ := exists_received h0 h hno
  have hc : consumed = encode ps := by rw [← hrec, hr.rx, hall, List.append_nil]
  have hs : scan consumed = (ps, []) := by
    have hs := scan_encode ps []
    rw [List.append_nil] at hs
    rw [hc, hs]
    simp [scan]
  have hcnt := hr.holds.counter
  rw [hs] at hcnt
  refine ⟨by rw [hr.got, hs], ?_⟩
  exact { rx := hall, rie := hr.rie, counter := BitVec.eq_of_toNat_eq hcnt }

/-! ## Feeding byte by byte -/

/-- A poll of `PacketGet`: an empty one, or one that finds the byte just received. -/
def poll : Option uint8_t → List Event
  | none => [.packetGet]
  | some b => [.isr UART_S1_RDRF_MASK 0#8 b, .packetGet]

/-- The main loop is between two polls and has consumed every byte. -/
structure Idle (s : Link) : Prop where
  call : s.call = none
  rx : s.uart.rxFIFO.bytes = []
  rie : s.uart.RIE

theorem outs_append (tr tr' : List ((Event × List Out) × Link)) :
    outs (tr ++ tr') = outs tr ++ outs tr' :=
  List.flatMap_append

theorem isr_one {u : UART} (h : u.RIE) (b : uint8_t) (hrx : u.rxFIFO.bytes = []) :
    u.isr UART_S1_RDRF_MASK 0#8 b =
      ([.received b true], { u with rxFIFO := (u.rxFIFO.put b).2 }) := by
  have hput := (Fifo.put_of_lt (f := u.rxFIFO) (by rw [hrx]; decide) b).1
  have hrdrf : UART_S1_RDRF_MASK &&& UART_S1_RDRF_MASK ≠ 0 := by decide
  have htx : ∀ v : UART, v.isrTx 0#8 = ([], v) := by
    intro v
    simp [UART.isrTx]
  rw [UART.isr_eq, htx, UART.isrRx, if_pos h, if_pos hrdrf]
  simp only [hput, List.append_nil]

theorem step_packetGet {s : Link} (hc : s.call = none) :
    step .packetGet s = .ok (gotOf (s.packet.packetGet s.uart),
      { s with
        packet := (s.packet.packetGet s.uart).2.1
        uart := (s.packet.packetGet s.uart).2.2 }) := by
  obtain ⟨u, p, c⟩ := s
  obtain rfl : c = none := hc
  rfl

theorem poll_run {s : Link} (h : s.Idle) (p : Option uint8_t) : ∃ tr s',
    Lib.run step s (poll p) = .ok (tr, s') ∧ s'.Idle ∧ received (outs tr) = p.toList ∧
      NoOverrun (outs tr) := by
  obtain ⟨hcall, hrx, hrie⟩ := h
  cases p with
  | none =>
    have hget := step_packetGet hcall
    rw [packetGet_of_nil s.packet hrx] at hget
    refine ⟨_, _, Lib.run_cons hget rfl, ⟨hcall, hrx, hrie⟩, rfl, ?_⟩
    exact (received_gotOf (false, s.packet, s.uart)).2
  | some b =>
    have hput := (Fifo.put_of_lt (f := s.uart.rxFIFO) (by rw [hrx]; decide) b).2
    rw [hrx, List.nil_append] at hput
    have hisr : step (.isr UART_S1_RDRF_MASK 0#8 b) s =
        .ok ([.received b true], { s with uart.rxFIFO := (s.uart.rxFIFO.put b).2 }) := by
      simp only [step, isr_one hrie b hrx]
    have hget := step_packetGet (s := { s with uart.rxFIFO := (s.uart.rxFIFO.put b).2 }) hcall
    rw [packetGet_of_cons s.packet hput] at hget
    have hempty := (Fifo.get_of_cons hput 0).2.2
    obtain ⟨hrec, hno⟩ := received_gotOf ((s.packet.receive b).1, (s.packet.receive b).2,
      { s.uart with rxFIFO := ((s.uart.rxFIFO.put b).2.get 0).2.2 })
    refine ⟨_, _, Lib.run_cons hisr (Lib.run_cons hget rfl), ⟨hcall, hempty, hrie⟩, ?_, ?_⟩
    · simp only [outs, List.flatMap_cons, List.flatMap_nil, List.append_nil]
      rw [received_append, hrec]
      rfl
    · simp only [outs, List.flatMap_cons, List.flatMap_nil, List.append_nil]
      exact List.forall_mem_append.2 ⟨List.forall_mem_singleton.2 rfl, hno⟩

/-- Every sequence of polls runs through and receives the bytes it is given. -/
theorem polls_run {s : Link} (h : s.Idle) (polls : List (Option uint8_t)) : ∃ tr s',
    Lib.run step s (polls.flatMap poll) = .ok (tr, s') ∧ s'.Idle ∧
      received (outs tr) = polls.reduceOption ∧ NoOverrun (outs tr) := by
  induction polls generalizing s with
  | nil => exact ⟨[], s, rfl, h, rfl, fun _ ho => by cases ho⟩
  | cons p polls ih =>
    obtain ⟨tr, s', hrun, hidle, hrec, hno⟩ := poll_run h p
    obtain ⟨tr', s'', hrun', hidle', hrec', hno'⟩ := ih hidle
    refine ⟨tr ++ tr', s'', ?_, hidle', ?_, ?_⟩
    · rw [List.flatMap_cons]
      exact Lib.run_append hrun hrun'
    · rw [outs_append, received_append, hrec, hrec']
      cases p <;> rfl
    · rw [outs_append]
      exact List.forall_mem_append.2 ⟨hno, hno'⟩

/-- **Decoding undoes encoding.** Whatever the packets and wherever the empty polls, `PacketGet`
returns true once for each packet, in order and with its four bytes, and ends aligned. -/
theorem decode_encode {s₀ : Link} (h0 : s₀.Aligned) (hc : s₀.call = none) (ps : List Msg)
    (polls : List (Option uint8_t)) (hp : polls.reduceOption = encode ps) : ∃ tr s,
    Lib.run step s₀ (polls.flatMap poll) = .ok (tr, s) ∧ got (outs tr) = ps ∧
      s.packet.nbBytesPacket = 1 := by
  obtain ⟨tr, s, hrun, hidle, hrec, hno⟩ := polls_run ⟨hc, h0.rx, h0.rie⟩ polls
  obtain ⟨hgot, hal⟩ := got_encode h0 (Lib.trace_of_run hrun) hno (hrec.trans hp) hidle.rx
  exact ⟨tr, s, hrun, hgot, hal.counter⟩

/-- Two packets with empty polls before, between and after their bytes. -/
theorem decode_encode_two : ∃ tr s,
    Lib.run step ⟨.init, ⟨0, 0, 0, 0, 0, 1⟩, none⟩ ([none, some 0x70, some 0, none, none, some 1,
      some 2, some 0x73, some 9, none, some 8, some 7, some 7, some 1, none].flatMap poll) =
      .ok (tr, s) ∧
    got (outs tr) = [⟨0x70, 0, 1, 2⟩, ⟨9, 8, 7, 7⟩] ∧ s.packet.nbBytesPacket = 1 :=
  decode_encode ⟨rfl, by decide, rfl⟩ rfl _ _ (by decide)

end Link

end Serial
