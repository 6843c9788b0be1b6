import IdmtRelay.Serial.Proof.Receive

/-!
# Reception with overruns

A byte received while `RxFIFO` is full leaves no trace in the state: the handler behaves as if it
had not been received (`isr_kept`). So without any assumption on the schedule the receive path is
the reference scan of the bytes that were accepted (`packetGet_scans_accepted`).
-/

namespace Serial.Link

/-- The outputs, less the bytes lost. -/
def kept (os : List Out) : List Out := os.filter fun o => !o.lost

/-- The bytes that went into `RxFIFO`. -/
def accepted (os : List Out) : List uint8_t := received (kept os)

theorem kept_append (os os' : List Out) : kept (os ++ os') = kept os ++ kept os' :=
  List.filter_append os os'

theorem kept_of_noOverrun {os : List Out} (h : NoOverrun os) : kept os = os :=
  List.filter_eq_self.2 fun o ho => by rw [h o ho]; rfl

theorem noOverrun_kept (os : List Out) : NoOverrun (kept os) := by
  intro o ho
  simpa using (List.mem_filter.1 ho).2

theorem got_kept (os : List Out) : got (kept os) = got os := by
  unfold got kept
  rw [List.filterMap_filter]
  congr 1
  funext o
  cases o with
  | received d ok => cases ok <;> rfl
  | transmitted d => rfl
  | got c p1 p2 p3 => rfl
  | put success => rfl

theorem isrTx_noOverrun (u : UART) (s1 : uint8_t) : NoOverrun (u.isrTx s1).1 := by
  rcases u.isrTx_cases s1 with he | ⟨b, bs, -, -, -, he⟩ | ⟨-, -, he⟩ <;> rw [he]
  · exact List.forall_mem_nil _
  · exact List.forall_mem_singleton.2 rfl
  · exact List.forall_mem_nil _

theorem isrRx_zero (u : UART) (d : uint8_t) : u.isrRx 0#8 d = ([], u) := by
  simp [UART.isrRx]

/-- **A lost byte is as if not received**, and one is lost only if `RxFIFO` is full. -/
theorem isr_kept (u : UART) (s1Rx s1Tx d : uint8_t) :
    (∃ s1, kept (u.isr s1Rx s1Tx d).1 = (u.isr s1 s1Tx d).1 ∧
      (u.isr s1Rx s1Tx d).2 = (u.isr s1 s1Tx d).2) ∧
    ((∃ o ∈ (u.isr s1Rx s1Tx d).1, o.lost = true) → u.rxFIFO.bytes.length = FIFO_SIZE ∧
      (u.isr s1Rx s1Tx d).2.rxFIFO.bytes = u.rxFIFO.bytes) := by
  have hno : ∀ {s1}, NoOverrun (u.isrRx s1 d).1 → NoOverrun (u.isr s1 s1Tx d).1 :=
    fun h o ho => (List.mem_append.1 ho).elim (h o) (isrTx_noOverrun _ s1Tx o)
  have hkeep : NoOverrun (u.isrRx s1Rx d).1 → (∃ s1, kept (u.isr s1Rx s1Tx d).1 =
      (u.isr s1 s1Tx d).1 ∧ (u.isr s1Rx s1Tx d).2 = (u.isr s1 s1Tx d).2) ∧
      ((∃ o ∈ (u.isr s1Rx s1Tx d).1, o.lost = true) → u.rxFIFO.bytes.length = FIFO_SIZE ∧
        (u.isr s1Rx s1Tx d).2.rxFIFO.bytes = u.rxFIFO.bytes) := by
    intro h
    refine ⟨⟨s1Rx, kept_of_noOverrun (hno h), rfl⟩, ?_⟩
    intro ⟨o, ho, hlost⟩
    rw [hno h o ho] at hlost
    cases hlost
  rcases u.isrRx_cases s1Rx d with he | he
  · refine hkeep ?_
    rw [he]
    exact List.forall_mem_nil _
  · rcases Nat.lt_or_ge u.rxFIFO.bytes.length FIFO_SIZE with hlt | hge
    · refine hkeep ?_
      rw [he, (Fifo.put_of_lt hlt d).1]
      exact List.forall_mem_singleton.2 rfl
    · have hfull := Nat.le_antisymm u.rxFIFO.length_le hge
      have he : u.isrRx s1Rx d = ([.received d false], u) := by rw [he, Fifo.put_of_full hfull]
      have hrx : (u.isrTx s1Tx).2.rxFIFO = u.rxFIFO := by
        rcases u.isrTx_cases s1Tx with ht | ⟨b, bs, -, -, -, ht⟩ | ⟨-, -, ht⟩ <;> rw [ht]
      rw [UART.isr_eq, he]
      refine ⟨⟨0#8, ?_, ?_⟩, fun _ => ⟨hfull, congrArg (·.bytes) hrx⟩⟩
      · rw [UART.isr_eq, isrRx_zero, kept_append, kept_of_noOverrun (isrTx_noOverrun u s1Tx)]
        rfl
      · rw [UART.isr_eq, isrRx_zero]

/-- Only the handler loses bytes. -/
theorem noOverrun_of_ne {s s' : Link} {e : Event} {o : List Out} (h : Step s (e, o) s')
    (he : ∀ s1Rx s1Tx d, e ≠ .isr s1Rx s1Tx d) : NoOverrun o := by
  have hb : Branch s e o s' := step_branch h
  cases hb with
  | isr s1Rx s1Tx d => exact absurd rfl (he s1Rx s1Tx d)
  | packetGet hc => exact (received_gotOf (s.packet.packetGet s.uart)).2
  | packetPut m hc => exact List.forall_mem_nil _
  | resume hc hs => exact List.forall_mem_nil _
  | ret hc hs => exact List.forall_mem_singleton.2 rfl

theorem accepted_step {os : List Out} {s s' : Link} {l : Event × List Out}
    (h : ∃ consumed, Received (kept os) s consumed) (hst : Step s l s') :
    ∃ consumed, Received (kept (os ++ l.2)) s' consumed := by
  obtain ⟨e, o⟩ := l
  rw [kept_append]
  by_cases he : ∃ s1Rx s1Tx d, e = .isr s1Rx s1Tx d
  · obtain ⟨s1Rx, s1Tx, d, rfl⟩ := he
    obtain ⟨consumed, h⟩ := h
    cases hst
    obtain ⟨⟨s1, hk, hu⟩, -⟩ := isr_kept s.uart s1Rx s1Tx d
    have hno := noOverrun_kept (s.uart.isr s1Rx s1Tx d).1
    rw [hk] at hno
    have key := isr_received h s1 s1Tx d hno
    rw [← hk, ← hu] at key
    exact ⟨consumed, key⟩
  · have hno := noOverrun_of_ne hst fun s1Rx s1Tx d hisr => he ⟨s1Rx, s1Tx, d, hisr⟩
    rw [kept_of_noOverrun hno]
    exact received_step h hst hno

/-- **The receive path is the reference scan of what was accepted, under every schedule.** Bytes are
lost only while 256 of them wait; those accepted are the ones consumed, followed by those that wait,
and `PacketGet` has returned just the packets that the scanner finds in the consumed ones. -/
theorem packetGet_scans_accepted (s₀ s : Link) (tr : List ((Event × List Out) × Link))
    (h0 : s₀.Aligned) (h : Trace s₀ tr s) :
    (∃ consumed, accepted (outs tr) = consumed ++ s.uart.rxFIFO.bytes ∧
      got (outs tr) = (scan consumed).1 ∧ s.packet.filled = (scan consumed).2) ∧
    ∀ p ∈ tr, (∃ o ∈ p.1.2, o.lost = true) → p.2.uart.rxFIFO.bytes.length = FIFO_SIZE := by
  constructor
  · have hnil : ∃ consumed, Received (kept (outs [])) s₀ consumed :=
      exists_received h0 (.nil s₀) (List.forall_mem_nil _)
    obtain ⟨consumed, hr⟩ := h.history
      (fun tr s => ∃ consumed, Received (kept (outs tr)) s consumed) hnil (by
        intro tr s l s' ih hst
        rw [outs_snoc]
        exact accepted_step ih hst)
    refine ⟨consumed, hr.rx, ?_, hr.holds.filled⟩
    rw [← got_kept]
    exact hr.got
  · intro p hp hlost
    obtain ⟨s₁, hst⟩ := h.step_of_mem hp
    obtain ⟨⟨e, o⟩, s₂⟩ := p
    by_cases he : ∃ s1Rx s1Tx d, e = .isr s1Rx s1Tx d
    · obtain ⟨s1Rx, s1Tx, d, rfl⟩ := he
      cases hst
      obtain ⟨hfull, hbytes⟩ := (isr_kept s₁.uart s1Rx s1Tx d).2 hlost
      exact (congrArg List.length hbytes).trans hfull
    · obtain ⟨out, hout, hl⟩ := hlost
      rw [noOverrun_of_ne hst (fun s1Rx s1Tx d hisr => he ⟨s1Rx, s1Tx, d, hisr⟩) out hout] at hl
      cases hl

/-- 257 bytes received with no poll: the last one is lost. -/
theorem packetGet_scans_accepted_full : ∃ tr s,
    Trace ⟨.init, ⟨0, 0, 0, 0, 0, 1⟩, none⟩ tr s ∧ ((outs tr).filter Out.lost).length = 1 ∧
    (∃ consumed, accepted (outs tr) = consumed ++ s.uart.rxFIFO.bytes ∧
      got (outs tr) = (scan consumed).1 ∧ s.packet.filled = (scan consumed).2) ∧
    ∀ p ∈ tr, (∃ o ∈ p.1.2, o.lost = true) → p.2.uart.rxFIFO.bytes.length = FIFO_SIZE := by
  obtain ⟨tr, s, h, hp⟩ := Lib.exists_trace_of_run step ⟨.init, ⟨0, 0, 0, 0, 0, 1⟩, none⟩
    (List.replicate 257 (.isr 0x20 0 7))
    (fun tr _ => decide (((outs tr).filter Out.lost).length = 1)) (by decide +kernel)
  exact ⟨tr, s, h, of_decide_eq_true hp,
    packetGet_scans_accepted _ s tr ⟨rfl, by decide, rfl⟩ h⟩

end Serial.Link
