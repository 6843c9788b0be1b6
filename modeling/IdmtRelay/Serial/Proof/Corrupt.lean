import IdmtRelay.Serial.Proof.Resync

/-!
# A corrupted byte

The checksum sees every change of a single byte: the window of the damaged packet fails
(`corrupt_window`). Where none of the windows that overlap the next packet passes by chance, the
receiver is in step again at that packet, so only the damaged one is lost (`corrupt_one`).
-/

namespace Serial

/-! ## The XOR of a list -/

theorem foldl_xor (xs : List uint8_t) (x : uint8_t) :
    xs.foldl (· ^^^ ·) x = x ^^^ xs.foldl (· ^^^ ·) 0#8 := by
  induction xs generalizing x with
  | nil => simp
  | cons y ys ih =>
    rw [List.foldl_cons, List.foldl_cons, ih, ih (0#8 ^^^ y), BitVec.zero_xor, BitVec.xor_assoc]

/-- One byte changed changes the XOR by the difference. -/
theorem foldl_xor_set (xs : List uint8_t) (r : Nat) (h : r < xs.length) (e : uint8_t) :
    (xs.set r e).foldl (· ^^^ ·) 0#8 = xs.foldl (· ^^^ ·) 0#8 ^^^ (xs[r] ^^^ e) := by
  induction xs generalizing r with
  | nil => cases h
  | cons y ys ih =>
    cases r with
    | zero =>
      rw [List.set_cons_zero, List.foldl_cons, List.foldl_cons, foldl_xor, foldl_xor ys (0#8 ^^^ y),
        List.getElem_cons_zero, BitVec.zero_xor, BitVec.zero_xor]
      have hcancel : y ^^^ ys.foldl (· ^^^ ·) 0#8 ^^^ (y ^^^ e) =
          e ^^^ ys.foldl (· ^^^ ·) 0#8 ^^^ (y ^^^ y) := by ac_rfl
      rw [hcancel, BitVec.xor_self, BitVec.xor_zero]
    | succ r =>
      rw [List.length_cons] at h
      rw [List.set_cons_succ, List.foldl_cons, List.foldl_cons, foldl_xor, foldl_xor ys (0#8 ^^^ y),
        List.getElem_cons_succ, ih r (by omega)]
      ac_rfl

theorem windowXor_set {xs : List uint8_t} {q pos : Nat} (hq : q ≤ pos) (hpos : pos < q + 5)
    (h : pos < xs.length) (e : uint8_t) :
    windowXor (xs.set pos e) q = windowXor xs q ^^^ (xs[pos] ^^^ e) := by
  unfold windowXor
  have hlen : pos - q < ((xs.drop q).take 5).length := by
    rw [List.length_take, List.length_drop]
    omega
  rw [List.drop_set, if_neg (by omega), List.take_set, foldl_xor_set _ _ hlen]
  congr 2
  rw [List.getElem_take, List.getElem_drop]
  congr 1
  omega

/-! ## The damaged packet -/

section
variable {ps : List Msg} {pos : Nat} {e : uint8_t}

/-- **The window of the damaged packet fails.** -/
theorem corrupt_window (hpos : pos < 5 * ps.length) (he : (encode ps)[pos]? ≠ some e) :
    windowXor ((encode ps).set pos e) (5 * (pos / 5)) ≠ 0#8 := by
  have hlen : pos < (encode ps).length := by rwa [encode_length]
  have hk : pos / 5 < ps.length := by omega
  have hpass : windowXor (encode ps) (5 * (pos / 5)) = 0#8 := windowXor_encode hk
  rw [windowXor_set (by omega) (by omega) hlen, hpass, BitVec.zero_xor, ne_eq,
    BitVec.xor_eq_zero_iff]
  intro heq
  rw [List.getElem?_eq_getElem hlen, heq] at he
  exact he rfl

/-- The windows of the packets before it pass. -/
theorem scan_before (ps : List Msg) (pos : Nat) (e : uint8_t) : scan ((encode ps).set pos e) =
    (ps.take (pos / 5) ++ (scan (((encode ps).set pos e).drop (5 * (pos / 5)))).1,
      (scan (((encode ps).set pos e).drop (5 * (pos / 5)))).2) := by
  have ht : ((encode ps).set pos e).take (5 * (pos / 5)) = encode (ps.take (pos / 5)) := by
    rw [← encode_take, List.take_set_of_le (by omega)]
  rw [← scan_encode, ← ht, List.take_append_drop]

/-- The packets after it are undamaged. -/
theorem corrupt_drop (ps : List Msg) (pos : Nat) (e : uint8_t) :
    ((encode ps).set pos e).drop (5 * (pos / 5) + 5) = encode (ps.drop (pos / 5 + 1)) := by
  rw [List.drop_set_of_lt (by omega), ← encode_drop]
  rfl

/-- Past windows that fail the scan finds nothing. -/
theorem scan_skips {xs : List uint8_t} {n m : Nat} (hnm : n ≤ m) (hm : m + 4 ≤ xs.length)
    (hf : ∀ q, n ≤ q → q < m → windowXor xs q ≠ 0#8) : scan (xs.drop n) = scan (xs.drop m) := by
  induction m, hnm using Nat.le_induction with
  | base => rfl
  | succ m hnm ih =>
    have hle : m + 5 ≤ xs.length := by omega
    obtain ⟨a, b, c, d, e, hd, hx⟩ := exists_window hle
    have hw := hf m hnm (Nat.lt_succ_self m)
    have h1 : xs.drop (m + 1) = b :: c :: d :: e :: xs.drop (m + 5) := by
      rw [← List.drop_drop, hd]
      rfl
    rw [ih (by omega) fun q h1 h2 => hf q h1 (by omega), hd, scan_fail (by rwa [hx] at hw), h1]

theorem scan_short {xs : List uint8_t} (h : xs.length < 5) : (scan xs).1 = [] := by
  match xs, h with
  | [], _ | [_], _ | [_, _], _ | [_, _, _], _ | [_, _, _, _], _ => rfl

/-- The scanner then finds all the other packets. -/
theorem scan_corrupt (hpos : pos < 5 * ps.length) (he : (encode ps)[pos]? ≠ some e)
    (hclean : ∀ q, 5 * (pos / 5) < q → q < 5 * (pos / 5) + 5 → q + 5 ≤ 5 * ps.length →
      windowXor ((encode ps).set pos e) q ≠ 0#8) :
    (scan ((encode ps).set pos e)).1 = ps.eraseIdx (pos / 5) := by
  have hlen : ((encode ps).set pos e).length = 5 * ps.length := by
    rw [List.length_set, encode_length]
  have hfirst := corrupt_window hpos he
  rw [scan_before, List.eraseIdx_eq_take_drop_succ]
  by_cases hlast : pos / 5 + 1 < ps.length
  · have hskip : scan (((encode ps).set pos e).drop (5 * (pos / 5))) =
        scan (((encode ps).set pos e).drop (5 * (pos / 5) + 5)) := by
      refine scan_skips (by omega) (by omega) fun q h1 h2 => ?_
      rcases Nat.eq_or_lt_of_le h1 with rfl | h1
      · exact hfirst
      · exact hclean q h1 h2 (by omega)
    have hs := scan_encode (ps.drop (pos / 5 + 1)) []
    rw [List.append_nil] at hs
    rw [hskip, corrupt_drop, hs]
    simp [scan]
  · -- after the last packet four bytes are left, too few for a window
    have hskip : scan (((encode ps).set pos e).drop (5 * (pos / 5))) =
        scan (((encode ps).set pos e).drop (5 * (pos / 5) + 1)) := by
      refine scan_skips (by omega) (by omega) fun q h1 h2 => ?_
      obtain rfl : q = 5 * (pos / 5) := by omega
      exact hfirst
    have hfour : (((encode ps).set pos e).drop (5 * (pos / 5) + 1)).length = 4 := by
      rw [List.length_drop, hlen]
      omega
    have hnil : ps.drop (pos / 5 + 1) = [] := List.drop_eq_nil_of_le (by omega)
    rw [hskip, hnil, scan_short (by omega)]

end

/-- **A corrupted byte costs its packet only.** One byte of a stream of packets is changed and all
of it is received and consumed from an aligned state, whatever the schedule. If none of the windows
that begin inside the damaged packet passes, `PacketGet` returns all the other packets, in order. -/
theorem Link.corrupt_one (ps : List Msg) (pos : Nat) (e : uint8_t) (s₀ s : Link)
    (tr : List ((Event × List Out) × Link)) (h0 : s₀.Aligned) (h : Link.Trace s₀ tr s)
    (hno : NoOverrun (outs tr)) (hpos : pos < 5 * ps.length) (he : (encode ps)[pos]? ≠ some e)
    (hrec : received (outs tr) = (encode ps).set pos e) (hall : s.uart.rxFIFO.bytes = [])
    (hclean : ∀ q, 5 * (pos / 5) < q → q < 5 * (pos / 5) + 5 → q + 5 ≤ 5 * ps.length →
      windowXor ((encode ps).set pos e) q ≠ 0#8) : got (outs tr) = ps.eraseIdx (pos / 5) := by
  obtain ⟨consumed, hr⟩ := exists_received h0 h hno
  have hc : consumed = (encode ps).set pos e := by
    rw [← hrec, hr.rx, hall, List.append_nil]
  rw [hr.got, hc]
  exact scan_corrupt hpos he hclean

/-- Three packets, the second byte of the second one changed. -/
theorem Link.corrupt_one_of_three : ∃ tr s,
    Link.Trace ⟨.init, ⟨0, 0, 0, 0, 0, 1⟩, none⟩ tr s ∧
    received (outs tr) = (encode [⟨1, 2, 3, 4⟩, ⟨5, 6, 7, 9⟩, ⟨9, 8, 7, 1⟩]).set 6 0x46 ∧
    got (outs tr) = [⟨1, 2, 3, 4⟩, ⟨9, 8, 7, 1⟩] := by
  obtain ⟨tr, s, h, hp⟩ := Lib.exists_trace_of_run step ⟨.init, ⟨0, 0, 0, 0, 0, 1⟩, none⟩
    (((encode [⟨1, 2, 3, 4⟩, ⟨5, 6, 7, 9⟩, ⟨9, 8, 7, 1⟩]).set 6 0x46).flatMap
      fun d => [.isr 0x20 0 d, .packetGet])
    (fun tr s => decide (received (outs tr) =
        (encode [⟨1, 2, 3, 4⟩, ⟨5, 6, 7, 9⟩, ⟨9, 8, 7, 1⟩]).set 6 0x46 ∧
      s.uart.rxFIFO.bytes = [] ∧ NoOverrun (outs tr))) (by decide)
  obtain ⟨hrec, hall, hno⟩ := of_decide_eq_true hp
  have hw : ∀ q, 6 ≤ q → q < 10 → windowXor ((encode [⟨1, 2, 3, 4⟩, ⟨5, 6, 7, 9⟩,
      ⟨9, 8, 7, 1⟩]).set 6 0x46) q ≠ 0#8 := by decide
  exact ⟨tr, s, h, hrec, corrupt_one [⟨1, 2, 3, 4⟩, ⟨5, 6, 7, 9⟩, ⟨9, 8, 7, 1⟩] 6 0x46 _ s tr
    ⟨rfl, by decide, rfl⟩ h hno (by decide) (by decide) hrec hall fun q h1 h2 _ => hw q h1 h2⟩

end Serial
