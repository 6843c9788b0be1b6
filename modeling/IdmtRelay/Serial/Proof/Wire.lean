import IdmtRelay.Serial.Proof.Transmit
import IdmtRelay.Serial.Wire

/-!
# The wire carries what was put

The transmitted bytes followed by those in `TxFIFO` are the bytes queued so far, in order: the
handler only moves the oldest queued byte to the wire (`isr_wire`). A call of `PacketPut` in
progress has queued a prefix of its packet (`Queues`), and it is the whole packet exactly if the
call returns true. So along every interleaving the wire carries the calls' packets in order, each
whole or, where the call was refused, cut short (`wire_sent`).

Outside a call the transmitter is armed or has nothing to send, so the handler alone empties the
queue onto the wire (`wire_complete`). The handler only makes room, so a call that finds room for
its five bytes is never refused (`put_whole`).
-/

namespace Serial

namespace Link

/-- What a call of `PacketPut(m)` in progress has queued. -/
inductive Queues (m : Msg) : Put → List uint8_t → Prop
  | going {k : Nat} (hk : k ≤ m.bytes.length) : Queues m ⟨m.bytes.drop k, true⟩ (m.bytes.take k)
  | refused {rest : List uint8_t} {k : Nat} (hk : k < m.bytes.length) :
      Queues m ⟨rest, false⟩ (m.bytes.take k)

/-- The bytes that were queued: those on the wire and those in `TxFIFO`. -/
def queued (os : List Out) (u : UART) : List uint8_t := transmitted os ++ u.txFIFO.bytes

/-- What the wire carries before and during a call. -/
inductive Wired (tr : List ((Event × List Out) × Link)) (s : Link) : Prop
  | idle (hc : s.call = none)
      (h : Sent (calls tr) (results (outs tr)) (queued (outs tr) s.uart)) : Wired tr s
  | busy {c : Put} {ms : List Msg} {m : Msg} {xs ys : List uint8_t} (hc : s.call = some c)
      (hm : calls tr = ms ++ [m]) (h : Sent ms (results (outs tr)) xs) (hq : Queues m c ys)
      (hx : queued (outs tr) s.uart = xs ++ ys) : Wired tr s

/-! ## The handler -/

theorem isrRx_outs (u : UART) (s1 d : uint8_t) :
    transmitted (u.isrRx s1 d).1 = [] ∧ results (u.isrRx s1 d).1 = [] := by
  rcases u.isrRx_cases s1 d with he | he <;> rw [he] <;> exact ⟨rfl, rfl⟩

/-- **The handler keeps the order**: what it sends and what stays queued is what was queued. -/
theorem isr_wire (u : UART) (s1Rx s1Tx d : uint8_t) :
    transmitted (u.isr s1Rx s1Tx d).1 ++ (u.isr s1Rx s1Tx d).2.txFIFO.bytes = u.txFIFO.bytes ∧
      results (u.isr s1Rx s1Tx d).1 = [] := by
  rw [UART.isr_eq]
  obtain ⟨htx, -⟩ := isrRx_tx u s1Rx d
  obtain ⟨ht, hr⟩ := isrRx_outs u s1Rx d
  rw [transmitted_append, results_append, ht, hr, ← htx]
  generalize (u.isrRx s1Rx d).2 = u'
  rcases u'.isrTx_cases s1Tx with he | ⟨b, bs, -, hb, hbs, he⟩ | ⟨-, hb, he⟩
  · rw [he]
    exact ⟨rfl, rfl⟩
  · rw [he]
    refine ⟨?_, rfl⟩
    show [] ++ [b] ++ (u'.txFIFO.get 0).2.2.bytes = _
    rw [hbs, hb]
    rfl
  · rw [he]
    exact ⟨rfl, rfl⟩

theorem queued_isr (os : List Out) (u : UART) (s1Rx s1Tx d : uint8_t) :
    queued (os ++ (u.isr s1Rx s1Tx d).1) (u.isr s1Rx s1Tx d).2 = queued os u := by
  unfold queued
  rw [transmitted_append, List.append_assoc, (isr_wire u s1Rx s1Tx d).1]

/-! ## The call in progress -/

/-- The next step of the call queues its next byte, or is refused. -/
theorem queues_step {m : Msg} {c c' : Put} {u u' : UART} {ys : List uint8_t} (hq : Queues m c ys)
    (h : c.step u = (.inl c', u')) : ∃ zs, Queues m c' (ys ++ zs) ∧
      u'.txFIFO.bytes = u.txFIFO.bytes ++ zs := by
  cases hq with
  | @going k hk =>
    unfold Put.step at h
    split at h
    · rename_i it rest hrest
      have hrest : m.bytes.drop k = it :: rest := hrest
      have hlt : k < m.bytes.length := by
        by_contra hge
        rw [List.drop_of_length_le (Nat.le_of_not_lt hge)] at hrest
        cases hrest
      rw [List.drop_eq_getElem_cons hlt, List.cons.injEq] at hrest
      obtain ⟨rfl, rfl⟩ := hrest
      simp only [↓reduceIte, Prod.mk.injEq, Sum.inl.injEq] at h
      obtain ⟨rfl, rfl⟩ := h
      rcases Nat.lt_or_ge u.txFIFO.bytes.length FIFO_SIZE with hroom | hfull
      · obtain ⟨h1, h2⟩ := outChar_of_lt hroom m.bytes[k]
        refine ⟨[m.bytes[k]], ?_, h2⟩
        rw [h1, ← List.take_succ_eq_append_getElem hlt]
        exact .going hlt
      · have hfull := Nat.le_antisymm u.txFIFO.length_le hfull
        refine ⟨[], ?_, ?_⟩
        · rw [outChar_of_full hfull, List.append_nil]
          exact .refused hlt
        · rw [outChar_of_full hfull, List.append_nil]
    · cases h
  | @refused rest k hk =>
    unfold Put.step at h
    split at h
    · simp at h
    · cases h

/-- The call returns true exactly if it has queued the whole packet. -/
theorem queues_ret {m : Msg} {c : Put} {u u' : UART} {ys : List uint8_t} {success : Bool}
    (hq : Queues m c ys) (h : c.step u = (.inr success, u')) :
    u'.txFIFO.bytes = u.txFIFO.bytes ∧
      if success then ys = m.bytes else ∃ k, k < m.bytes.length ∧ ys = m.bytes.take k := by
  cases hq with
  | @going k hk =>
    unfold Put.step at h
    split at h
    · simp at h
    · rename_i hrest
      cases h
      have hk' : m.bytes.length ≤ k := List.drop_eq_nil_iff.1 hrest
      exact ⟨rfl, List.take_of_length_le hk'⟩
  | @refused rest k hk =>
    unfold Put.step at h
    split at h
    · simp only [Bool.false_eq_true, ↓reduceIte, Prod.mk.injEq, Sum.inr.injEq] at h
      obtain ⟨rfl, rfl⟩ := h
      exact ⟨rfl, k, hk, rfl⟩
    · cases h
      exact ⟨rfl, k, hk, rfl⟩

/-! ## Runs -/

theorem gotOf_outs (r : Bool × Packet × UART) :
    transmitted (if r.1 then
      let p := r.2.1
      [Out.got p.command p.parameter1 p.parameter2 p.parameter3] else []) = [] ∧
    results (if r.1 then
      let p := r.2.1
      [Out.got p.command p.parameter1 p.parameter2 p.parameter3] else []) = [] := by
  split <;> exact ⟨rfl, rfl⟩

theorem Wired.congr {tr tr' : List ((Event × List Out) × Link)} {s s' : Link} (h : Wired tr s)
    (hc : s'.call = s.call) (hm : calls tr' = calls tr)
    (hr : results (outs tr') = results (outs tr))
    (hq : queued (outs tr') s'.uart = queued (outs tr) s.uart) : Wired tr' s' := by
  cases h with
  | idle hc₀ h =>
    rw [← hm, ← hr, ← hq] at h
    exact .idle (hc.trans hc₀) h
  | busy hc₀ hm₀ h hq₀ hx =>
    rw [← hr] at h
    exact .busy (hc.trans hc₀) (hm.trans hm₀) h hq₀ (hq.trans hx)

/-- **One step of the link keeps the wire in order.** -/
theorem wired_step {tr : List ((Event × List Out) × Link)} {s s' : Link} {l : Event × List Out}
    (h : Wired tr s) (hst : Step s l s') : Wired (tr ++ [(l, s')]) s' := by
  obtain ⟨e, o⟩ := l
  have hb : Branch s e o s' := step_branch hst
  have houts := outs_snoc tr ((e, o), s')
  have hcalls := calls_snoc tr e o s'
  cases hb with
  | isr s1Rx s1Tx d =>
    obtain ⟨-, hr⟩ := isr_wire s.uart s1Rx s1Tx d
    rw [List.append_nil] at hcalls
    refine h.congr rfl hcalls ?_ ?_
    · rw [houts, results_append, hr, List.append_nil]
    · rw [houts]
      exact queued_isr (outs tr) s.uart s1Rx s1Tx d
  | packetGet hc =>
    obtain ⟨ht, hr⟩ := gotOf_outs (s.packet.packetGet s.uart)
    have htx := (packetGet_tx s.packet s.uart).1
    rw [List.append_nil] at hcalls
    refine h.congr rfl hcalls ?_ ?_
    · rw [houts, results_append, hr, List.append_nil]
    · unfold queued
      rw [houts, transmitted_append, ht, List.append_nil, htx]
  | packetPut m hc =>
    rw [List.append_nil] at houts
    cases h with
    | idle _ h =>
      refine .busy rfl hcalls (by rwa [houts]) (.going (Nat.zero_le _)) ?_
      rw [houts, List.take_zero, List.append_nil]
    | busy hc' =>
      rw [hc] at hc'
      cases hc'
  | @resume c c' u hc hs =>
    rw [List.append_nil] at houts hcalls
    cases h with
    | idle hc' =>
      rw [hc] at hc'
      cases hc'
    | @busy c₁ ms m xs ys hc' hm h hq hx =>
      obtain rfl : c = c₁ := Option.some.inj (hc.symm.trans hc')
      obtain ⟨zs, hq', htx⟩ := queues_step hq hs
      rw [← houts] at h
      refine .busy rfl (hcalls.trans hm) h hq' ?_
      unfold queued at hx ⊢
      rw [houts, htx, ← List.append_assoc, hx, List.append_assoc]
  | @ret c success u hc hs =>
    rw [List.append_nil] at hcalls
    cases h with
    | idle hc' =>
      rw [hc] at hc'
      cases hc'
    | @busy c₁ ms m xs ys hc' hm h hq hx =>
      obtain rfl : c = c₁ := Option.some.inj (hc.symm.trans hc')
      obtain ⟨htx, hret⟩ := queues_ret hq hs
      have hqueued : queued (outs tr ++ [.put success]) u = xs ++ ys := by
        unfold queued at hx ⊢
        rw [transmitted_append, htx, ← hx]
        simp [transmitted]
      refine .idle rfl ?_
      rw [houts, hcalls, hm, results_append, hqueued]
      cases success with
      | true =>
        obtain rfl : ys = m.bytes := hret
        exact .whole m h
      | false =>
        obtain ⟨k, hk, rfl⟩ := hret
        exact .part m h hk

theorem wired_run {s₀ s : Link} {tr : List ((Event × List Out) × Link)} (hc0 : s₀.call = none)
    (he0 : s₀.uart.txFIFO.bytes = []) (h : Trace s₀ tr s) : Wired tr s := by
  refine h.history Wired (.idle hc0 ?_) fun _ _ _ _ => wired_step
  unfold queued
  rw [he0]
  exact .nil

/-- **The wire carries what was put, in order.** Whatever calls of `PacketPut` the main loop makes
and wherever the handler runs between their steps, outside a call the bytes on the wire followed by
those in `TxFIFO` are, call by call, the five bytes of the packet if the call returned true and a
proper prefix of them if it returned false. -/
theorem wire_sent (s₀ s : Link) (tr : List ((Event × List Out) × Link)) (hc0 : s₀.call = none)
    (he0 : s₀.uart.txFIFO.bytes = []) (h : Trace s₀ tr s) (hc : s.call = none) :
    Sent (calls tr) (results (outs tr)) (transmitted (outs tr) ++ s.uart.txFIFO.bytes) := by
  cases wired_run hc0 he0 h with
  | idle _ h => exact h
  | busy hc' => rw [hc] at hc'; cases hc'

/-- A packet of which two bytes are on the wire when the call returns. -/
theorem wire_sent_one : ∃ tr s, Trace ⟨.init, ⟨0, 0, 0, 0, 0, 1⟩, none⟩ tr s ∧
    transmitted (outs tr) = [1, 2] ∧
    Sent (calls tr) (results (outs tr)) (transmitted (outs tr) ++ s.uart.txFIFO.bytes) := by
  obtain ⟨tr, s, h, hp⟩ := Lib.exists_trace_of_run step ⟨.init, ⟨0, 0, 0, 0, 0, 1⟩, none⟩
    ([.packetPut ⟨1, 2, 3, 4⟩, .resume, .resume, .resume, .resume, .resume, .resume, .isr 0 0x80 0,
      .isr 0 0x80 0])
    (fun tr s => s.call.isNone && decide (transmitted (outs tr) = [1, 2])) (by decide)
  simp only [Bool.and_eq_true, Option.isNone_iff_eq_none, decide_eq_true_eq] at hp
  exact ⟨tr, s, h, hp.2, wire_sent _ s tr rfl rfl h hp.1⟩

/-! ## The queue runs empty -/

/-- The transmitter is armed, or has nothing to send. -/
def Draining (u : UART) : Prop := u.TIE ∨ u.txFIFO.bytes = []

/-- A ready transmitter takes the oldest byte, and is disarmed only when there is none. -/
theorem isrTx_ready {u : UART} {s1 : uint8_t} (hs : s1 &&& UART_S1_TDRE_MASK ≠ 0)
    (h : Draining u) : transmitted (u.isrTx s1).1 = u.txFIFO.bytes.take 1 ∧
      (u.isrTx s1).2.txFIFO.bytes = u.txFIFO.bytes.drop 1 ∧ Draining (u.isrTx s1).2 := by
  by_cases ht : u.TIE
  · cases hb : u.txFIFO.bytes with
    | nil =>
      have he : u.isrTx s1 = ([], { u with C2 := u.C2 &&& ~~~UART_C2_TIE_MASK }) := by
        rw [UART.isrTx, if_pos ht, if_pos hs, Fifo.get_of_nil hb]
        rfl
      rw [he]
      exact ⟨rfl, hb, .inr hb⟩
    | cons b bs =>
      obtain ⟨h1, h2, h3⟩ := Fifo.get_of_cons hb 0
      have he : u.isrTx s1 = ([.transmitted b], { u with txFIFO := (u.txFIFO.get 0).2.2 }) := by
        rw [UART.isrTx, if_pos ht, if_pos hs]
        simp only [h1, h2, ↓reduceIte]
      rw [he]
      exact ⟨rfl, h3, .inl ht⟩
  · have hb : u.txFIFO.bytes = [] := h.resolve_left ht
    rw [UART.isrTx, if_neg ht, hb]
    exact ⟨rfl, rfl, .inr hb⟩

theorem ready_step {e : Event} {s : Link} (he : Ready e) (h : Draining s.uart) : ∃ o s',
    step e s = .ok (o, s') ∧ transmitted o = s.uart.txFIFO.bytes.take 1 ∧
      s'.uart.txFIFO.bytes = s.uart.txFIFO.bytes.drop 1 ∧ Draining s'.uart := by
  cases e with
  | isr s1Rx s1Tx d =>
    refine ⟨(s.uart.isr s1Rx s1Tx d).1, { s with uart := (s.uart.isr s1Rx s1Tx d).2 }, rfl, ?_⟩
    obtain ⟨htx, hC2⟩ := isrRx_tx s.uart s1Rx d
    have h' : Draining (s.uart.isrRx s1Rx d).2 := by
      unfold Draining UART.TIE at h ⊢
      rwa [htx, hC2]
    obtain ⟨h1, h2, h3⟩ := isrTx_ready he h'
    rw [htx] at h1 h2
    refine ⟨?_, h2, h3⟩
    rw [UART.isr_eq, transmitted_append, (isrRx_outs s.uart s1Rx d).1, h1, List.nil_append]
  | packetGet => cases he
  | packetPut m => cases he
  | resume => cases he

/-- Each run of the handler takes one byte from the queue to the wire. -/
theorem drain_run {is : List Event} {s : Link} (his : ∀ e ∈ is, Ready e) (h : Draining s.uart) :
    ∃ tr s', Lib.run step s is = .ok (tr, s') ∧
      transmitted (outs tr) = s.uart.txFIFO.bytes.take is.length ∧
      s'.uart.txFIFO.bytes = s.uart.txFIFO.bytes.drop is.length := by
  induction is generalizing s with
  | nil => exact ⟨[], s, rfl, rfl, rfl⟩
  | cons e is ih =>
    obtain ⟨he, his⟩ := List.forall_mem_cons.1 his
    obtain ⟨o, s₁, hst, ho, htx, h₁⟩ := ready_step he h
    obtain ⟨tr, s', hr, hw, hq⟩ := ih his h₁
    refine ⟨_, s', Lib.run_cons hst hr, ?_, ?_⟩
    · show transmitted (o ++ outs tr) = _
      rw [transmitted_append, ho, hw, htx, List.length_cons, Nat.add_comm, List.take_add]
    · rw [hq, htx, List.drop_drop, List.length_cons, Nat.add_comm]

/-- **Every queued byte reaches the wire.** In any state reached between two calls of `PacketPut`,
as many runs of the handler with the transmitter ready as there are bytes in `TxFIFO`, whatever they
receive, put the rest of the packets on the wire: it then carries just what the calls queued. -/
theorem wire_complete (s₀ s : Link) (tr : List ((Event × List Out) × Link)) (hc0 : s₀.call = none)
    (he0 : s₀.uart.txFIFO.bytes = []) (h : Trace s₀ tr s) (hc : s.call = none) (is : List Event)
    (his : ∀ e ∈ is, Ready e) (hlen : s.uart.txFIFO.bytes.length ≤ is.length) :
    ∃ tr' s', Lib.run step s is = .ok (tr', s') ∧ s'.uart.txFIFO.bytes = [] ∧
      Sent (calls tr) (results (outs tr)) (transmitted (outs tr ++ outs tr')) := by
  have hsafe : s.TxSafe := h.inv TxSafe ⟨by simp [left, hc0], .inr (by simp [left, hc0, he0])⟩
    fun _ _ _ => txSafe_step
  have hdrain : Draining s.uart := by
    refine hsafe.armed.imp_right fun hn => ?_
    simp only [left, hc] at hn
    exact List.eq_nil_of_length_eq_zero (by omega)
  obtain ⟨tr', s', hr, hw, hq⟩ := drain_run his hdrain
  refine ⟨tr', s', hr, ?_, ?_⟩
  · rw [hq, List.drop_of_length_le hlen]
  · rw [transmitted_append, hw, List.take_of_length_le hlen]
    cases wired_run hc0 he0 h with
    | idle _ h => exact h
    | busy hc' => rw [hc] at hc'; cases hc'

/-- A packet put while the handler does not run, and six runs of it afterwards. -/
theorem wire_complete_one : ∃ tr s tr' s', Trace ⟨.init, ⟨0, 0, 0, 0, 0, 1⟩, none⟩ tr s ∧
    Lib.run step s (List.replicate 6 (.isr 0 UART_S1_TDRE_MASK 0)) = .ok (tr', s') ∧
    Sent (calls tr) (results (outs tr)) (transmitted (outs tr ++ outs tr')) := by
  obtain ⟨tr, s, h, hp⟩ := Lib.exists_trace_of_run step ⟨.init, ⟨0, 0, 0, 0, 0, 1⟩, none⟩
    ([.packetPut ⟨1, 2, 3, 4⟩, .resume, .resume, .resume, .resume, .resume, .resume])
    (fun _ s => s.call.isNone && decide (s.uart.txFIFO.bytes.length ≤ 6)) (by decide)
  simp only [Bool.and_eq_true, Option.isNone_iff_eq_none, decide_eq_true_eq] at hp
  obtain ⟨tr', s', hr, -, hs⟩ := wire_complete _ s tr rfl rfl h hp.1
    (List.replicate 6 (.isr 0 UART_S1_TDRE_MASK 0)) (by decide) hp.2
  exact ⟨tr, s, tr', s', h, hr, hs⟩

/-! ## Room for a packet -/

/-- A call that has not failed, with `n` bytes still to queue and room for them. -/
def Roomy (n : Nat) (s : Link) : Prop :=
  ∃ rest, rest.length = n ∧ s.call = some ⟨rest, true⟩ ∧
    s.uart.txFIFO.bytes.length + n ≤ FIFO_SIZE

theorem isr_tx_le (u : UART) (s1Rx s1Tx d : uint8_t) :
    (u.isr s1Rx s1Tx d).2.txFIFO.bytes.length ≤ u.txFIFO.bytes.length := by
  have h := congrArg List.length (isr_wire u s1Rx s1Tx d).1
  rw [List.length_append] at h
  omega

/-- A step that is not the call's own: the handler only makes more room. -/
theorem roomy_other {n : Nat} {s s' : Link} {l : Event × List Out} (h : Roomy n s)
    (hst : Step s l s') (hne : l.1 ≠ .resume) : results l.2 = [] ∧ Roomy n s' := by
  obtain ⟨rest, hn, hc, hle⟩ := h
  obtain ⟨e, o⟩ := l
  have hb : Branch s e o s' := step_branch hst
  cases hb with
  | isr s1Rx s1Tx d =>
    have hlen := isr_tx_le s.uart s1Rx s1Tx d
    refine ⟨(isr_wire s.uart s1Rx s1Tx d).2, rest, hn, hc, ?_⟩
    exact (Nat.add_le_add_right hlen _).trans hle
  | packetGet hc' =>
    rw [hc] at hc'
    cases hc'
  | packetPut m hc' =>
    rw [hc] at hc'
    cases hc'
  | resume => exact absurd rfl hne
  | ret => exact absurd rfl hne

/-- **A step of the call** queues its next byte; after the last one it returns true. -/
theorem roomy_resume {n : Nat} {s s' : Link} {o : List Out} (h : Roomy n s)
    (hst : Step s (.resume, o) s') :
    if n = 0 then results o = [true] else results o = [] ∧ Roomy (n - 1) s' := by
  obtain ⟨rest, hn, hc, hle⟩ := h
  have hb : Branch s .resume o s' := step_branch hst
  cases hb with
  | @resume c c' u hc' hs =>
    obtain rfl : ⟨rest, true⟩ = c := Option.some.inj (hc.symm.trans hc')
    cases rest with
    | nil => cases hs
    | cons it rest =>
      rw [List.length_cons] at hn
      obtain ⟨h1, h2⟩ := outChar_of_lt (u := s.uart) (by omega) it
      simp only [Put.step, ↓reduceIte, h1] at hs
      cases hs
      rw [if_neg (by omega)]
      refine ⟨rfl, rest, by omega, rfl, ?_⟩
      show (s.uart.outChar it).2.txFIFO.bytes.length + (n - 1) ≤ FIFO_SIZE
      rw [h2, List.length_append, List.length_singleton]
      omega
  | @ret c success u hc' hs =>
    obtain rfl : ⟨rest, true⟩ = c := Option.some.inj (hc.symm.trans hc')
    cases rest with
    | nil =>
      cases hs
      rw [if_pos (show n = 0 from hn.symm)]
      rfl
    | cons it rest => cases hs

/-- The steps that the main loop takes in calls of `PacketPut`. -/
def resumes (tr : List ((Event × List Out) × Link)) : Nat :=
  tr.countP fun p => p.1.1 = .resume

theorem resumes_snoc (tr : List ((Event × List Out) × Link)) (p : (Event × List Out) × Link) :
    resumes (tr ++ [p]) = if p.1.1 = .resume then resumes tr + 1 else resumes tr := by
  by_cases h : p.1.1 = .resume <;> simp [resumes, h]

/-- **A packet that fits is put whole, wherever the handler runs.** If `TxFIFO` has room for five
bytes when `PacketPut` is called, the call can always take its next step, and with the sixth it
returns true. -/
theorem put_whole (s s' : Link) (tr : List ((Event × List Out) × Link)) (m : Msg)
    (hc : s.call = some (Put.start m)) (hroom : s.uart.txFIFO.bytes.length + 5 ≤ FIFO_SIZE)
    (h : Trace s tr s') :
    (results (outs tr)).head? = (if resumes tr < 6 then none else some true) ∧
      (resumes tr < 6 → ∃ o s'', Step s' (.resume, o) s'') := by
  have key : if resumes tr < 6 then results (outs tr) = [] ∧ Roomy (5 - resumes tr) s'
      else (results (outs tr)).head? = some true := by
    refine h.history (fun tr s => if resumes tr < 6 then
        results (outs tr) = [] ∧ Roomy (5 - resumes tr) s
      else (results (outs tr)).head? = some true) ⟨rfl, m.bytes, rfl, hc, hroom⟩ ?_
    intro tr s ⟨e, o⟩ s' ih hst
    rw [outs_snoc, results_append, resumes_snoc]
    split at ih
    · obtain ⟨hnil, hr⟩ := ih
      rw [hnil, List.nil_append]
      by_cases he : e = .resume
      · subst he
        have hnext := roomy_resume hr hst
        rw [if_pos rfl]
        split at hnext
        · rw [if_neg (by omega), hnext]
          rfl
        · rw [if_pos (by omega)]
          exact hnext
      · rw [if_neg he, if_pos ‹_›]
        exact roomy_other hr hst he
    · rw [if_neg (by split <;> omega), List.head?_append, ih]
      rfl
  split at key
  · obtain ⟨hnil, rest, -, hcall, -⟩ := key
    rw [hnil, if_pos ‹_›]
    exact ⟨rfl, fun _ => resume_enabled hcall⟩
  · rw [if_neg ‹_›]
    exact ⟨key, fun hlt => absurd hlt ‹_›⟩

/-- The state in which `PacketPut` has been called. -/
def putting (m : Msg) : Link := ⟨.init, ⟨0, 0, 0, 0, 0, 1⟩, some (Put.start m)⟩

/-- A call with the handler in between. -/
theorem put_whole_one : ∃ tr s, Trace (putting ⟨1, 2, 3, 4⟩) tr s ∧ tr.length = 7 ∧
    (results (outs tr)).head? = some true := by
  obtain ⟨tr, s, h, hp⟩ := Lib.exists_trace_of_run step (putting ⟨1, 2, 3, 4⟩)
    [.resume, .isr 0 0x80 0, .resume, .resume, .resume, .resume, .resume]
    (fun tr _ => decide (resumes tr = 6 ∧ tr.length = 7)) (by decide)
  obtain ⟨hsix, hlen⟩ := of_decide_eq_true hp
  have hret := (put_whole _ s tr ⟨1, 2, 3, 4⟩ rfl (by decide) h).1
  rw [hsix] at hret
  exact ⟨tr, s, h, hlen, hret⟩

end Link

end Serial
