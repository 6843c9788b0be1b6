import IdmtRelay.Serial.Link

/-!
# The transmit path

`putLoop_spec`: with no interrupt in between, `PacketPut` queues as many bytes of the packet as
`TxFIFO` has room for and reports whether these were all. A packet is therefore queued whole or not
at all except at the fill levels 252..255, where its first bytes stay queued.

`TxSafe`: while the transmit interrupt is disarmed, the queued bytes and those the call in progress
may still queue make at most one packet. So a full `TxFIFO` is never disarmed, an early return of
`PacketPut` leaves the interrupt armed or the queue empty, and no queued byte is stranded.
-/

namespace Serial

theorem outChar_of_lt {u : UART} (h : u.txFIFO.bytes.length < FIFO_SIZE) (b : uint8_t) :
    (u.outChar b).1 = true ∧ (u.outChar b).2.txFIFO.bytes = u.txFIFO.bytes ++ [b] :=
  Fifo.put_of_lt h b

theorem outChar_of_full {u : UART} (h : u.txFIFO.bytes.length = FIFO_SIZE) (b : uint8_t) :
    u.outChar b = (false, u) := by
  unfold UART.outChar
  rw [Fifo.put_of_full h]

/-- After a failed `OutChar` the loop changes nothing in `TxFIFO` and returns false. -/
theorem putLoop_failed (bytes : List uint8_t) (u : UART) :
    (putLoop bytes false u).1 = false ∧
      (putLoop bytes false u).2.txFIFO.bytes = u.txFIFO.bytes := by
  cases bytes <;> exact ⟨rfl, rfl⟩

/-- **The loop queues what there is room for** and returns true iff that is everything. -/
theorem putLoop_spec (bytes : List uint8_t) (u : UART) :
    ((putLoop bytes true u).1 = true ↔ u.txFIFO.bytes.length + bytes.length ≤ FIFO_SIZE) ∧
      (putLoop bytes true u).2.txFIFO.bytes =
        u.txFIFO.bytes ++ bytes.take (FIFO_SIZE - u.txFIFO.bytes.length) := by
  induction bytes generalizing u with
  | nil => exact ⟨⟨fun _ => u.txFIFO.length_le, fun _ => rfl⟩, by simp [putLoop, UART.arm]⟩
  | cons b bytes ih =>
    rcases Nat.lt_or_ge u.txFIFO.bytes.length FIFO_SIZE with hlt | hge
    · obtain ⟨h1, h2⟩ := outChar_of_lt hlt b
      have he : putLoop (b :: bytes) true u = putLoop bytes true (u.outChar b).2 := by
        simp only [putLoop, h1]
      obtain ⟨ih1, ih2⟩ := ih (u.outChar b).2
      rw [he, ih1, ih2, h2]
      obtain ⟨k, hk⟩ : ∃ k, FIFO_SIZE - u.txFIFO.bytes.length = k + 1 :=
        ⟨FIFO_SIZE - u.txFIFO.bytes.length - 1, by omega⟩
      refine ⟨by simp only [List.length_append, List.length_cons, List.length_nil]; omega, ?_⟩
      rw [hk, List.take_succ_cons, List.append_assoc, List.singleton_append]
      congr 3
      simp only [List.length_append, List.length_cons, List.length_nil]
      omega
    · have hfull := Nat.le_antisymm u.txFIFO.length_le hge
      have he : putLoop (b :: bytes) true u = putLoop bytes false u := by
        simp only [putLoop, outChar_of_full hfull]
      obtain ⟨hf1, hf2⟩ := putLoop_failed bytes u
      rw [he, hf1, hf2, hfull, List.length_cons]
      exact ⟨by simp, by simp⟩

/-- `PacketPut` queues the whole packet and returns true, or queues nothing and returns false. -/
def AllOrNothing (m : Msg) (u : UART) : Prop :=
  ((packetPut m u).1 = true → (packetPut m u).2.txFIFO.bytes = u.txFIFO.bytes ++ m.bytes) ∧
    ((packetPut m u).1 = false → (packetPut m u).2.txFIFO.bytes = u.txFIFO.bytes)

/-- **`PacketPut` is all-or-nothing exactly when the packet fits or `TxFIFO` is full.** -/
theorem packetPut_allOrNothing_iff (m : Msg) (u : UART) :
    AllOrNothing m u ↔ u.txFIFO.bytes.length ≤ 251 ∨ u.txFIFO.bytes.length = 256 := by
  obtain ⟨h1, h2⟩ := putLoop_spec m.bytes u
  have hle := u.txFIFO.length_le
  have hlen : m.bytes.length = 5 := rfl
  simp only [FIFO_SIZE, hlen] at h1 h2 hle
  unfold AllOrNothing packetPut
  rw [h2, List.append_right_inj, List.append_right_eq_self, List.take_eq_self_iff,
    List.take_eq_nil_iff, hlen, ← Bool.not_eq_true, h1]
  have hne : m.bytes ≠ [] := by simp [Msg.bytes]
  simp only [hne, or_false]
  omega

/-- The UART after `k` calls of `PacketPut` with no interrupt in between. -/
theorem packetPut_iterate_length (m : Msg) {k : Nat} (hk : k ≤ 51) :
    ((fun u => (packetPut m u).2)^[k] UART.init).txFIFO.bytes.length = 5 * k := by
  induction k with
  | zero => rfl
  | succ k ih =>
    have hlen : m.bytes.length = 5 := rfl
    have h := ih (by omega)
    rw [Function.iterate_succ_apply', packetPut, (putLoop_spec m.bytes _).2, List.length_append,
      List.length_take, hlen, h, FIFO_SIZE]
    omega

/-- After 51 calls `TxFIFO` holds 255 bytes; the next call queues its first byte and returns
false. -/
theorem packetPut_truncates :
    ∃ u, u = (fun u => (packetPut ⟨0x70, 0, 1, 2⟩ u).2)^[51] UART.init ∧
      (packetPut ⟨0x70, 0, 1, 2⟩ u).1 = false ∧
      (packetPut ⟨0x70, 0, 1, 2⟩ u).2.txFIFO.bytes = u.txFIFO.bytes ++ [0x70] ∧
      ¬ AllOrNothing ⟨0x70, 0, 1, 2⟩ u := by
  have hl := packetPut_iterate_length ⟨0x70, 0, 1, 2⟩ (Nat.le_refl 51)
  generalize (fun u => (packetPut ⟨0x70, 0, 1, 2⟩ u).2)^[51] UART.init = u at hl
  obtain ⟨h1, h2⟩ := putLoop_spec (Msg.bytes ⟨0x70, 0, 1, 2⟩) u
  have hf : (packetPut ⟨0x70, 0, 1, 2⟩ u).1 = false := by
    rw [← Bool.not_eq_true]
    exact fun h => absurd (h1.1 h) (by rw [hl]; decide)
  have hb : (packetPut ⟨0x70, 0, 1, 2⟩ u).2.txFIFO.bytes = u.txFIFO.bytes ++ [0x70] := by
    rw [packetPut, h2, hl]
    rfl
  refine ⟨u, rfl, hf, hb, ?_⟩
  intro h
  have := h.2 hf
  rw [hb] at this
  simp at this

/-! ## No stranded bytes -/

/-- The bytes that may still be queued before the transmitter is armed: those of the call in
progress, or, outside a call or after a failed `OutChar`, those of a whole packet to come. -/
def Link.left (s : Link) : Nat :=
  match s.call with
  | some ⟨rest, true⟩ => rest.length
  | some ⟨_, false⟩ => 5
  | none => 5

/-- While the transmitter is disarmed, at most one packet is queued or about to be. -/
structure Link.TxSafe (s : Link) : Prop where
  left_le : s.left ≤ 5
  armed : s.uart.TIE ∨ s.uart.txFIFO.bytes.length + s.left ≤ 5

namespace Link

theorem isrRx_tx (u : UART) (s1 d : uint8_t) :
    (u.isrRx s1 d).2.txFIFO = u.txFIFO ∧ (u.isrRx s1 d).2.C2 = u.C2 := by
  rcases u.isrRx_cases s1 d with he | he <;> rw [he] <;> exact ⟨rfl, rfl⟩

/-- The handler keeps the interrupt armed or has found the queue empty. -/
theorem isr_armed {u : UART} {n : Nat} (hn : n ≤ 5) (h : u.TIE ∨ u.txFIFO.bytes.length + n ≤ 5)
    (s1Rx s1Tx d : uint8_t) :
    (u.isr s1Rx s1Tx d).2.TIE ∨ (u.isr s1Rx s1Tx d).2.txFIFO.bytes.length + n ≤ 5 := by
  rw [UART.isr_eq]
  obtain ⟨htx, hC2⟩ := isrRx_tx u s1Rx d
  generalize (u.isrRx s1Rx d).2 = u' at htx hC2
  have h' : u'.TIE ∨ u'.txFIFO.bytes.length + n ≤ 5 := by
    unfold UART.TIE at h ⊢
    rwa [htx, hC2]
  rcases u'.isrTx_cases s1Tx with he | ⟨b, bs, ht, -, -, he⟩ | ⟨-, hb, he⟩
  · rwa [he]
  · rw [he]
    exact .inl ht
  · rw [he]
    refine .inr ?_
    show u'.txFIFO.bytes.length + n ≤ 5
    rw [hb, List.length_nil]
    omega

/-- A step of the call in progress keeps `TxSafe`: a failed `OutChar` means a full queue, which is
armed. -/
theorem put_step_safe {c : Put} {s : Link} (hc : s.call = some c) (h : s.TxSafe) :
    match c.step s.uart with
    | (.inl c', u) => TxSafe { s with uart := u, call := some c' }
    | (.inr _, u) => TxSafe { s with uart := u, call := none } := by
  obtain ⟨hle, harm⟩ := h
  obtain ⟨rest, success⟩ := c
  cases rest with
  | nil => exact ⟨Nat.le_refl _, .inl (UART.arm_TIE _)⟩
  | cons it rest =>
    cases success with
    | false =>
      simp only [left, hc] at harm
      exact ⟨Nat.le_refl _, harm⟩
    | true =>
      simp only [left, hc, List.length_cons] at hle harm
      simp only [Put.step, ↓reduceIte]
      rcases Nat.lt_or_ge s.uart.txFIFO.bytes.length FIFO_SIZE with hlt | hge
      · obtain ⟨h1, h2⟩ := outChar_of_lt hlt it
        rw [h1]
        refine ⟨by simp only [left]; omega, ?_⟩
        simp only [left, h2, List.length_append, List.length_cons, List.length_nil]
        rcases harm with ht | hn
        · exact .inl ht
        · exact .inr (by omega)
      · have hfull := Nat.le_antisymm s.uart.txFIFO.length_le hge
        rw [outChar_of_full hfull]
        refine ⟨Nat.le_refl _, .inl ?_⟩
        rcases harm with ht | hn
        · exact ht
        · simp only [FIFO_SIZE] at hfull
          omega

/-- `PacketGet` touches neither `TxFIFO` nor the control register. -/
theorem packetGet_tx (p : Packet) (u : UART) :
    (p.packetGet u).2.2.txFIFO = u.txFIFO ∧ (p.packetGet u).2.2.C2 = u.C2 := by
  unfold Packet.packetGet UART.inChar
  dsimp only
  split <;> exact ⟨rfl, rfl⟩

/-- **One step of the link keeps `TxSafe`.** -/
theorem txSafe_step {s s' : Link} {l : Event × List Out} (h : s.TxSafe) (hst : Step s l s') :
    s'.TxSafe := by
  obtain ⟨e, o⟩ := l
  have hb : Branch s e o s' := step_branch hst
  cases hb with
  | isr s1Rx s1Tx d => exact ⟨h.left_le, isr_armed h.left_le h.armed s1Rx s1Tx d⟩
  | packetGet =>
    refine ⟨h.left_le, ?_⟩
    have harm := h.armed
    unfold UART.TIE at harm ⊢
    simp only [packetGet_tx s.packet s.uart]
    exact harm
  | packetPut m hc =>
    have harm := h.armed
    simp only [left, hc] at harm
    exact ⟨Nat.le_refl _, harm⟩
  | resume hc hs =>
    have key := put_step_safe hc h
    rw [hs] at key
    exact key
  | ret hc hs =>
    have key := put_step_safe hc h
    rw [hs] at key
    exact key

/-- **No stranded transmit bytes.** Whatever calls of `PacketPut` the main loop makes and wherever
the handler runs between their steps, outside a call a non-empty `TxFIFO` has its interrupt armed,
also after calls that returned false. -/
theorem txFIFO_armed {s₀ s : Link} {tr : List ((Event × List Out) × Link)} (hc0 : s₀.call = none)
    (he0 : s₀.uart.txFIFO.bytes = []) (h : Trace s₀ tr s) (hc : s.call = none)
    (hne : s.uart.txFIFO.bytes ≠ []) : s.uart.TIE := by
  have key := h.inv TxSafe ⟨by simp [left, hc0], .inr (by simp [left, hc0, he0])⟩
    fun _ _ _ => txSafe_step
  rcases key.armed with ht | hn
  · exact ht
  · simp only [left, hc] at hn
    exact absurd (List.eq_nil_of_length_eq_zero (by omega)) hne

/-- One call of `PacketPut` run to its end, the handler in between. -/
theorem txFIFO_armed_one : ∃ tr s, Trace ⟨.init, ⟨0, 0, 0, 0, 0, 1⟩, none⟩ tr s ∧
    s.uart.txFIFO.bytes = [1, 2, 3, 4, 4] ∧ s.uart.TIE := by
  obtain ⟨tr, s, h, hp⟩ := Lib.exists_trace_of_run step ⟨.init, ⟨0, 0, 0, 0, 0, 1⟩, none⟩
    ([.packetPut ⟨1, 2, 3, 4⟩, .resume, .isr 0 0x80 0, .resume, .resume, .resume, .resume,
      .resume])
    (fun _ s => s.call.isNone && decide (s.uart.txFIFO.bytes = [1, 2, 3, 4, 4])) (by decide)
  simp only [Bool.and_eq_true, Option.isNone_iff_eq_none, decide_eq_true_eq] at hp
  exact ⟨tr, s, h, hp.2, txFIFO_armed rfl rfl h hp.1 (by rw [hp.2]; decide)⟩

end Link

end Serial
