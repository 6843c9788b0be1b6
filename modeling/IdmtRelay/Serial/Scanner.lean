import IdmtRelay.Serial.Packet

/-!
# The reference scanner

What the receiver is for: a scan of the byte stream for five consecutive bytes whose XOR is zero.
With fewer than five pending bytes it waits; five bytes that pass are a packet; of five that do not,
the first is dropped. `scan_append` is its law of composition: what is pending after a first part of
the stream is all that the rest of the scan depends on.
-/

namespace Serial

/-- The packets in a byte stream, and the bytes still pending at its end. -/
def scan : List uint8_t → List Msg × List uint8_t
  | a :: b :: c :: d :: e :: rest =>
    if a ^^^ b ^^^ c ^^^ d ^^^ e = 0#8 then (⟨a, b, c, d⟩ :: (scan rest).1, (scan rest).2)
    else scan (b :: c :: d :: e :: rest)
  | pending => ([], pending)

theorem scan_pass {a b c d e : uint8_t} (h : a ^^^ b ^^^ c ^^^ d ^^^ e = 0#8)
    (rest : List uint8_t) :
    scan (a :: b :: c :: d :: e :: rest) = (⟨a, b, c, d⟩ :: (scan rest).1, (scan rest).2) := by
  rw [scan, if_pos h]

theorem scan_fail {a b c d e : uint8_t} (h : a ^^^ b ^^^ c ^^^ d ^^^ e ≠ 0#8)
    (rest : List uint8_t) :
    scan (a :: b :: c :: d :: e :: rest) = scan (b :: c :: d :: e :: rest) := by
  rw [scan, if_neg h]

/-- Fewer than five bytes stay pending. -/
theorem scan_pending_lt (xs : List uint8_t) : (scan xs).2.length < 5 := by
  fun_induction scan xs with
  | case1 a b c d e rest h ih => exact ih
  | case2 a b c d e rest h ih => exact ih
  | case3 xs hne =>
    match xs, hne with
    | [], _ | [_], _ | [_, _], _ | [_, _, _], _ | [_, _, _, _], _ => simp
    | a :: b :: c :: d :: e :: rest, hne => exact absurd rfl (hne a b c d e rest)

/-- **The scan of a stream continues from what is pending.** -/
theorem scan_append (xs ys : List uint8_t) :
    scan (xs ++ ys) =
      ((scan xs).1 ++ (scan ((scan xs).2 ++ ys)).1, (scan ((scan xs).2 ++ ys)).2) := by
  fun_induction scan xs with
  | case1 a b c d e rest h ih =>
    simp only [List.cons_append]
    rw [scan_pass h, ih]
  | case2 a b c d e rest h ih =>
    rw [← ih]
    simp only [List.cons_append]
    rw [scan_fail h]
  | case3 => rfl

end Serial
