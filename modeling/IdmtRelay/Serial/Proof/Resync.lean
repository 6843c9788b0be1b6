import IdmtRelay.Serial.Proof.Receive

/-!
# Resynchronisation after a lost byte

The scan of a stream arrives at an offset (`Arrives`): it starts at the first byte, a window that
fails moves it by one byte, a window that passes by five. In a concatenation of packets with one
byte deleted, the windows of the later packets pass, so from every packet the scan gets to the next
one (`arrives_next`), in step or out of step. It gets back in step exactly at a packet inside which
no window that it tests passes (`Clean`, `arrives_iff_clean`), and then it finds every later packet
(`resync`).

A passing window out of step is no rarity: five bytes of a repeated packet are a rotation of it, so
the scan of equal packets stays out of step for ever (`resync_fails`).
-/

namespace Serial

/-- The stream of a list of packets, as `PacketPut` encodes them. -/
def encode (ps : List Msg) : List uint8_t := ps.flatMap Msg.bytes

/-- The XOR of the five bytes from offset `q` on. -/
def windowXor (xs : List uint8_t) (q : Nat) : uint8_t := ((xs.drop q).take 5).foldl (· ^^^ ·) 0#8

@[simp] theorem encode_nil : encode [] = [] := rfl

theorem encode_cons (m : Msg) (ps : List Msg) : encode (m :: ps) = m.bytes ++ encode ps := rfl

@[simp] theorem encode_length (ps : List Msg) : (encode ps).length = 5 * ps.length := by
  induction ps with
  | nil => rfl
  | cons m ps ih =>
    rw [encode_cons, List.length_append, ih, List.length_cons]
    simp only [Msg.bytes, List.length_cons, List.length_nil]
    omega

theorem encode_drop (ps : List Msg) (k : Nat) : (encode ps).drop (5 * k) = encode (ps.drop k) := by
  induction k generalizing ps with
  | zero => rfl
  | succ k ih =>
    cases ps with
    | nil => simp
    | cons m ps => exact ih ps

theorem encode_take (ps : List Msg) (k : Nat) : (encode ps).take (5 * k) = encode (ps.take k) := by
  induction k generalizing ps with
  | zero => rfl
  | succ k ih =>
    cases ps with
    | nil => simp
    | cons m ps =>
      rw [List.take_succ_cons, encode_cons, encode_cons, ← ih ps,
        show 5 * (k + 1) = m.bytes.length + 5 * k from Nat.add_comm _ _,
        List.take_length_add_append]

/-- The window of a packet passes. -/
theorem windowXor_encode {ps : List Msg} {k : Nat} (h : k < ps.length) :
    windowXor (encode ps) (5 * k) = 0#8 := by
  rw [windowXor, encode_drop, List.drop_eq_getElem_cons h, encode_cons]
  simp [Msg.bytes]

theorem windowXor_congr {xs ys : List uint8_t} {q : Nat} (h : xs.take (q + 5) = ys.take (q + 5)) :
    windowXor xs q = windowXor ys q := by
  have hd := congrArg (List.drop q) h
  rw [List.drop_take, List.drop_take, Nat.add_sub_cancel_left] at hd
  rw [windowXor, hd, windowXor]

theorem bytes_xor (m : Msg) :
    m.command ^^^ m.parameter1 ^^^ m.parameter2 ^^^ m.parameter3 ^^^
      (m.command ^^^ m.parameter1 ^^^ m.parameter2 ^^^ m.parameter3) = 0#8 :=
  BitVec.xor_self

/-- The scanner finds a list of packets it starts in step with. -/
theorem scan_encode (ps : List Msg) (rest : List uint8_t) :
    scan (encode ps ++ rest) = (ps ++ (scan rest).1, (scan rest).2) := by
  induction ps with
  | nil => rfl
  | cons m ps ih =>
    have hp : scan (m.bytes ++ (encode ps ++ rest)) =
        (m :: (scan (encode ps ++ rest)).1, (scan (encode ps ++ rest)).2) :=
      scan_pass (bytes_xor m) _
    rw [encode_cons, List.append_assoc, hp, ih]
    rfl

/-! ## The offsets of a scan -/

/-- The offsets that the scan of `xs` arrives at: the start, the byte after the first one of a
window that fails, the byte after the last one of a window that passes. -/
inductive Arrives (xs : List uint8_t) : Nat → Prop
  | start : Arrives xs 0
  | fail {n : Nat} : Arrives xs n → n + 5 ≤ xs.length → windowXor xs n ≠ 0#8 → Arrives xs (n + 1)
  | pass {n : Nat} : Arrives xs n → n + 5 ≤ xs.length → windowXor xs n = 0#8 → Arrives xs (n + 5)

/-- The five bytes of a window. -/
theorem exists_window {xs : List uint8_t} {n : Nat} (h : n + 5 ≤ xs.length) :
    ∃ a b c d e, xs.drop n = a :: b :: c :: d :: e :: xs.drop (n + 5) ∧
      windowXor xs n = a ^^^ b ^^^ c ^^^ d ^^^ e := by
  have hd : ∀ i, i < xs.length → ∃ a, xs.drop i = a :: xs.drop (i + 1) := fun i hi =>
    ⟨xs[i], List.drop_eq_getElem_cons hi⟩
  obtain ⟨a, ha⟩ := hd n (by omega)
  obtain ⟨b, hb⟩ := hd (n + 1) (by omega)
  obtain ⟨c, hc⟩ := hd (n + 2) (by omega)
  obtain ⟨d, hd4⟩ := hd (n + 3) (by omega)
  obtain ⟨e, he⟩ := hd (n + 4) (by omega)
  have hall : xs.drop n = a :: b :: c :: d :: e :: xs.drop (n + 5) := by
    rw [ha, hb, hc, hd4, he]
  refine ⟨a, b, c, d, e, hall, ?_⟩
  rw [windowXor, hall]
  simp

/-- From there on the scan is that of the rest of the stream. -/
theorem Arrives.scan_eq {xs : List uint8_t} {n : Nat} (h : Arrives xs n) :
    ∃ es, scan xs = (es ++ (scan (xs.drop n)).1, (scan (xs.drop n)).2) := by
  induction h with
  | start => exact ⟨[], rfl⟩
  | @fail n _ hn hf ih =>
    obtain ⟨es, he⟩ := ih
    obtain ⟨a, b, c, d, e, hd, hx⟩ := exists_window hn
    refine ⟨es, ?_⟩
    have h1 : xs.drop (n + 1) = b :: c :: d :: e :: xs.drop (n + 5) := by
      rw [← List.drop_drop, hd]
      rfl
    rw [he, hd, scan_fail (by rwa [hx] at hf), h1]
  | @pass n _ hn hp ih =>
    obtain ⟨es, he⟩ := ih
    obtain ⟨a, b, c, d, e, hd, hx⟩ := exists_window hn
    refine ⟨es ++ [⟨a, b, c, d⟩], ?_⟩
    rw [he, hd, scan_pass (by rwa [hx] at hp)]
    simp

/-- Past a stretch in which every window the scan tests fails. -/
theorem Arrives.fails {xs : List uint8_t} {n m : Nat} (h : Arrives xs n) (hnm : n ≤ m)
    (hm : m + 4 ≤ xs.length)
    (hf : ∀ q, n ≤ q → q < m → Arrives xs q → windowXor xs q ≠ 0#8) : Arrives xs m := by
  induction m, hnm using Nat.le_induction with
  | base => exact h
  | succ m hnm ih =>
    have hm' := ih (by omega) fun q h1 h2 => hf q h1 (by omega)
    exact hm'.fail (by omega) (hf m hnm (Nat.lt_succ_self m) hm')

/-- The scan jumps over the bytes of a window that passes. -/
theorem Arrives.le_of_pass {xs : List uint8_t} {n m : Nat} (hm : Arrives xs m) (hn : Arrives xs n)
    (hnm : n < m) (hp : windowXor xs n = 0#8) : n + 5 ≤ m := by
  induction m using Nat.strong_induction_on generalizing n with
  | _ m ih =>
    cases hm with
    | start => omega
    | @fail m hm _ hf =>
      rcases Nat.lt_succ_iff_lt_or_eq.1 hnm with hlt | rfl
      · have hle := ih m (by omega) hm hn hlt hp
        omega
      · exact absurd hp hf
    | @pass m hm _ hp' =>
      rcases Nat.lt_trichotomy n m with hlt | rfl | hgt
      · have hle := ih m (by omega) hm hn hlt hp
        omega
      · exact Nat.le_refl _
      · -- the window at `m` would have jumped over `n`
        have hle := ih n hnm hn hm hgt hp'
        omega

/-- From one of the offsets `n..m`, where the window at `m` passes, to one of the five offsets
after `m`. -/
theorem Arrives.next {xs : List uint8_t} {n m : Nat} (h : Arrives xs n) (hnm : n ≤ m)
    (hmn : m ≤ n + 4) (hm : m + 5 ≤ xs.length) (hp : windowXor xs m = 0#8) :
    ∃ n', m + 1 ≤ n' ∧ n' ≤ m + 5 ∧ Arrives xs n' := by
  obtain ⟨d, rfl⟩ := Nat.exists_eq_add_of_le hnm
  induction d generalizing n with
  | zero => exact ⟨n + 5, by omega, by omega, h.pass hm hp⟩
  | succ d ih =>
    by_cases hx : windowXor xs n = 0#8
    · exact ⟨n + 5, by omega, by omega, h.pass (by omega) hx⟩
    · rw [show n + (d + 1) = n + 1 + d by omega] at hm hp hmn ⊢
      exact ih (h.fail (by omega) hx) (by omega) (by omega) hm hp

/-! ## A deleted byte -/

section
variable {ps : List Msg} {pos : Nat}

/-- Past the deleted byte the stream is shifted by one. -/
theorem eraseIdx_drop {n : Nat} (xs : List uint8_t) (h : pos ≤ n) (hpos : pos < xs.length) :
    (xs.eraseIdx pos).drop n = xs.drop (n + 1) := by
  obtain ⟨d, rfl⟩ := Nat.exists_eq_add_of_le h
  rw [List.eraseIdx_eq_take_drop_succ, List.drop_append, List.drop_of_length_le, List.nil_append,
    List.drop_drop, List.length_take]
  · congr 1
    omega
  · rw [List.length_take]
    omega

/-- The packets after the damaged one, in the damaged stream. -/
theorem damaged_drop {k : Nat} (hk : pos / 5 ≤ k) (hpos : pos < 5 * ps.length) :
    ((encode ps).eraseIdx pos).drop (5 * k + 4) = encode (ps.drop (k + 1)) := by
  rw [eraseIdx_drop _ (by omega) (by rwa [encode_length])]
  exact encode_drop ps (k + 1)

theorem damaged_length (hpos : pos < 5 * ps.length) :
    ((encode ps).eraseIdx pos).length = 5 * ps.length - 1 := by
  rw [List.length_eraseIdx, encode_length, if_pos hpos]

/-- The window of a packet after the damaged one passes. -/
theorem damaged_window {k : Nat} (hk : pos / 5 ≤ k) (hlt : k + 1 < ps.length) :
    windowXor ((encode ps).eraseIdx pos) (5 * k + 4) = 0#8 := by
  rw [windowXor, damaged_drop hk (by omega), ← encode_drop]
  exact windowXor_encode hlt

/-- The window of a packet before it passes. -/
theorem undamaged_window {k : Nat} (hk : k < pos / 5) (hpos : pos < 5 * ps.length) :
    windowXor ((encode ps).eraseIdx pos) (5 * k) = 0#8 := by
  have ht : ((encode ps).eraseIdx pos).take (5 * k + 5) = (encode ps).take (5 * k + 5) :=
    List.take_eraseIdx_eq_take_of_le _ _ _ (by omega)
  rw [windowXor_congr ht]
  exact windowXor_encode (by omega)

/-- The scan reaches the packets up to the damaged one in step. -/
theorem arrives_damaged {k : Nat} (hk : k ≤ pos / 5) (hpos : pos < 5 * ps.length) :
    Arrives ((encode ps).eraseIdx pos) (5 * k) := by
  induction k with
  | zero => exact .start
  | succ k ih =>
    have hlen := damaged_length hpos
    exact (ih (by omega)).pass (by omega) (undamaged_window (by omega) hpos)

/-- From the damaged packet on, the scan gets from every packet to the next. -/
theorem arrives_next {k : Nat} (hk : pos / 5 ≤ k) (hlt : k < ps.length)
    (hpos : pos < 5 * ps.length) :
    ∃ n, 5 * k ≤ n ∧ n ≤ 5 * k + 4 ∧ Arrives ((encode ps).eraseIdx pos) n := by
  induction k, hk using Nat.le_induction with
  | base => exact ⟨5 * (pos / 5), Nat.le_refl _, by omega, arrives_damaged le_rfl hpos⟩
  | succ k hk ih =>
    obtain ⟨n, h1, h2, hn⟩ := ih (by omega)
    have hlen := damaged_length hpos
    obtain ⟨n', h1', h2', hn'⟩ := hn.next h2 (by omega) (by omega) (damaged_window hk hlt)
    exact ⟨n', by omega, by omega, hn'⟩

/-- No window that the scan tests inside packet `k` passes. -/
def Clean (xs : List uint8_t) (k : Nat) : Prop :=
  ∀ q, 5 * k ≤ q → q < 5 * k + 4 → Arrives xs q → windowXor xs q ≠ 0#8

/-- **The scan is in step behind packet `j` exactly if some packet up to it, from the damaged one
on, is clean.** -/
theorem arrives_iff_clean {j : Nat} (hj : pos / 5 ≤ j) (hlt : j + 1 < ps.length)
    (hpos : pos < 5 * ps.length) :
    Arrives ((encode ps).eraseIdx pos) (5 * j + 4) ↔
      ∃ k, pos / 5 ≤ k ∧ k ≤ j ∧ Clean ((encode ps).eraseIdx pos) k := by
  have hlen := damaged_length hpos
  constructor
  · intro h
    refine ⟨j, hj, Nat.le_refl _, fun q h1 h2 hq hp => ?_⟩
    have hle := h.le_of_pass hq h2 hp
    omega
  · intro ⟨k, hk, hkj, hclean⟩
    induction j, hkj using Nat.le_induction with
    | base =>
      obtain ⟨n, h1, h2, hn⟩ := arrives_next hk (by omega) hpos
      exact hn.fails h2 (by omega) fun q h3 h4 => hclean q (by omega) h4
    | succ j hkj ih =>
      exact (ih (by omega) (by omega)).pass (by omega) (damaged_window (by omega) (by omega))

/-- In step behind packet `j` the scan finds every later packet. -/
theorem scan_damaged {j : Nat} (hj : pos / 5 ≤ j) (hpos : pos < 5 * ps.length)
    (h : Arrives ((encode ps).eraseIdx pos) (5 * j + 4)) :
    ∃ es, scan ((encode ps).eraseIdx pos) = (es ++ ps.drop (j + 1), []) := by
  obtain ⟨es, he⟩ := h.scan_eq
  refine ⟨es, ?_⟩
  have hs := scan_encode (ps.drop (j + 1)) []
  rw [List.append_nil] at hs
  rw [he, damaged_drop hj hpos, hs]
  simp [scan]

end

namespace Link

/-- **Resynchronisation.** One byte of a stream of packets is lost and the rest is received and
consumed from an aligned state, whatever the schedule. If some packet `k`, from the damaged one on,
is clean, then `PacketGet` returns every packet `j > k`, in order and last. -/
theorem resync {ps : List Msg} {pos j k : Nat} {s₀ s : Link}
    {tr : List ((Event × List Out) × Link)} (h0 : s₀.Aligned) (h : Trace s₀ tr s)
    (hno : NoOverrun (outs tr)) (hrec : received (outs tr) = (encode ps).eraseIdx pos)
    (hall : s.uart.rxFIFO.bytes = []) (hk : pos / 5 ≤ k) (hkj : k < j) (hj : j < ps.length)
    (hclean : Clean ((encode ps).eraseIdx pos) k) : ps.drop j <:+ got (outs tr) := by
  obtain ⟨consumed, hr⟩ := exists_received h0 h hno
  have hc : consumed = (encode ps).eraseIdx pos := by
    rw [← hrec, hr.rx, hall, List.append_nil]
  have hpos : pos < 5 * ps.length := by omega
  have harr := (arrives_iff_clean (j := k) hk (by omega) hpos).2 ⟨k, hk, Nat.le_refl _, hclean⟩
  obtain ⟨es, he⟩ := scan_damaged hk hpos harr
  rw [hr.got, hc, he]
  exact (List.drop_suffix_drop_left ps hkj).trans (List.suffix_append es _)

/-- Three packets, the second byte of the first one lost: the third packet is found. -/
theorem resync_two : ∃ tr s, Trace ⟨.init, ⟨0, 0, 0, 0, 0, 1⟩, none⟩ tr s ∧
    received (outs tr) = (encode [⟨1, 2, 3, 4⟩, ⟨5, 6, 7, 9⟩, ⟨9, 8, 7, 1⟩]).eraseIdx 1 ∧
    [⟨9, 8, 7, 1⟩] <:+ got (outs tr) := by
  obtain ⟨tr, s, h, hp⟩ := Lib.exists_trace_of_run step ⟨.init, ⟨0, 0, 0, 0, 0, 1⟩, none⟩
    (((encode [⟨1, 2, 3, 4⟩, ⟨5, 6, 7, 9⟩, ⟨9, 8, 7, 1⟩]).eraseIdx 1).flatMap
      fun d => [.isr 0x20 0 d, .packetGet])
    (fun tr s => decide (received (outs tr) =
        (encode [⟨1, 2, 3, 4⟩, ⟨5, 6, 7, 9⟩, ⟨9, 8, 7, 1⟩]).eraseIdx 1 ∧
      s.uart.rxFIFO.bytes = [] ∧ NoOverrun (outs tr))) (by decide)
  obtain ⟨hrec, hall, hno⟩ := of_decide_eq_true hp
  have hw : ∀ q, 5 * 1 ≤ q → q < 5 * 1 + 4 → windowXor ((encode [⟨1, 2, 3, 4⟩, ⟨5, 6, 7, 9⟩,
      ⟨9, 8, 7, 1⟩]).eraseIdx 1) q ≠ 0#8 := by decide
  exact ⟨tr, s, h, hrec, resync (k := 1) (j := 2) ⟨rfl, by decide, rfl⟩ h hno hrec hall (by decide)
    (by decide) (by decide) fun q h1 h2 _ => hw q h1 h2⟩

/-- Three equal packets, the first byte lost: `PacketGet` returns two rotations of the packet and
the packet itself never, not even the third one, whose first byte is ten bytes after the lost
one. -/
theorem resync_fails : ∃ tr s, Trace ⟨.init, ⟨0, 0, 0, 0, 0, 1⟩, none⟩ tr s ∧
    NoOverrun (outs tr) ∧ s.uart.rxFIFO.bytes = [] ∧
    received (outs tr) = (encode (List.replicate 3 ⟨1, 2, 3, 4⟩)).eraseIdx 0 ∧
    got (outs tr) = List.replicate 2 ⟨2, 3, 4, 4⟩ ∧ ⟨1, 2, 3, 4⟩ ∉ got (outs tr) := by
  obtain ⟨tr, s, h, hp⟩ := Lib.exists_trace_of_run step ⟨.init, ⟨0, 0, 0, 0, 0, 1⟩, none⟩
    (((encode (List.replicate 3 ⟨1, 2, 3, 4⟩)).eraseIdx 0).flatMap
      fun d => [.isr 0x20 0 d, .packetGet])
    (fun tr s => decide (NoOverrun (outs tr) ∧ s.uart.rxFIFO.bytes = [] ∧
      received (outs tr) = (encode (List.replicate 3 ⟨1, 2, 3, 4⟩)).eraseIdx 0 ∧
      got (outs tr) = List.replicate 2 ⟨2, 3, 4, 4⟩)) (by decide)
  obtain ⟨hno, hall, hrec, hgot⟩ := of_decide_eq_true hp
  exact ⟨tr, s, h, hno, hall, hrec, hgot, by rw [hgot]; decide⟩

end Link

end Serial
