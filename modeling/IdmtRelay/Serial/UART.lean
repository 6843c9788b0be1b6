import IdmtRelay.Serial.FIFO

/-!
# The UART (`UART.cpp`)

The two FIFOs and the control register `UART2_C2` are the state. The interrupt handler reads the
status register `UART2_S1` once for each direction and, when it receives, the data register
`UART2_D`: these reads are its inputs. What it hands to `RxFIFO` and what it writes to `UART2_D` are
its outputs.
-/

namespace Serial

def UART_C2_TIE_MASK : uint8_t := 0x80#8
def UART_C2_RIE_MASK : uint8_t := 0x20#8
def UART_C2_TE_MASK : uint8_t := 0x08#8
def UART_C2_RE_MASK : uint8_t := 0x04#8
def UART_S1_TDRE_MASK : uint8_t := 0x80#8
def UART_S1_RDRF_MASK : uint8_t := 0x20#8

structure UART where
  rxFIFO : Fifo
  txFIFO : Fifo
  C2 : uint8_t

/-- What the handler and the packet layer do that is visible from outside. -/
inductive Out
  /-- The handler puts a received byte into `RxFIFO`; `ok` is the result of `Put`. -/
  | received (d : uint8_t) (ok : Bool)
  /-- The handler writes a byte to the data register. -/
  | transmitted (d : uint8_t)
  /-- `PacketGet` returns true with these four bytes in the packet object. -/
  | got (command parameter1 parameter2 parameter3 : uint8_t)
  /-- `PacketPut` returns. -/
  | put (success : Bool)
  deriving DecidableEq, Repr

/-- A received byte found no room. -/
def Out.lost : Out → Bool
  | .received _ ok => !ok
  | _ => false

namespace UART

/-- The transmit interrupt is enabled. -/
def TIE (u : UART) : Prop := u.C2 &&& UART_C2_TIE_MASK ≠ 0

/-- The receive interrupt is enabled. -/
def RIE (u : UART) : Prop := u.C2 &&& UART_C2_RIE_MASK ≠ 0

instance (u : UART) : Decidable u.TIE := inferInstanceAs (Decidable (_ ≠ _))

instance (u : UART) : Decidable u.RIE := inferInstanceAs (Decidable (_ ≠ _))

/-- What `Init` leaves in zero-initialised memory: receiver and transmitter on, receive interrupt
armed. -/
def init : UART :=
  { rxFIFO := .zero, txFIFO := .zero,
    C2 := (UART_C2_RE_MASK ||| UART_C2_TE_MASK) ||| UART_C2_RIE_MASK }

/-- `UART_t::InChar`. -/
def inChar (u : UART) (rxData : uint8_t) : Bool × uint8_t × UART :=
  let (ok, d, f) := u.rxFIFO.get rxData
  (ok, d, { u with rxFIFO := f })

/-- `UART_t::OutChar`. -/
def outChar (u : UART) (txData : uint8_t) : Bool × UART :=
  let (ok, f) := u.txFIFO.put txData
  (ok, { u with txFIFO := f })

/-- `UART2_C2 |= UART_C2_TIE_MASK`, in its critical section. -/
def arm (u : UART) : UART := { u with C2 := u.C2 ||| UART_C2_TIE_MASK }

/-- The receiving half of `UART_ISR`. -/
def isrRx (u : UART) (UART2_S1 UART2_D : uint8_t) : List Out × UART :=
  if u.RIE then
    if UART2_S1 &&& UART_S1_RDRF_MASK ≠ 0 then
      let (ok, f) := u.rxFIFO.put UART2_D
      ([.received UART2_D ok], { u with rxFIFO := f })
    else ([], u)
  else ([], u)

/-- The transmitting half of `UART_ISR`: a byte goes out, or the interrupt is disarmed. -/
def isrTx (u : UART) (UART2_S1 : uint8_t) : List Out × UART :=
  if u.TIE then
    if UART2_S1 &&& UART_S1_TDRE_MASK ≠ 0 then
      let (ok, data, f) := u.txFIFO.get 0
      let u := { u with txFIFO := f }
      if ok then ([.transmitted data], u)
      else ([], { u with C2 := u.C2 &&& ~~~UART_C2_TIE_MASK })
    else ([], u)
  else ([], u)

/-- `UART_ISR`, which the main loop cannot interrupt. -/
def isr (u : UART) (s1Rx s1Tx UART2_D : uint8_t) : List Out × UART :=
  let (o1, u) := u.isrRx s1Rx UART2_D
  let (o2, u) := u.isrTx s1Tx
  (o1 ++ o2, u)

/-! ## The registers -/

theorem arm_TIE (u : UART) : u.arm.TIE := by
  have : ∀ c : uint8_t, (c ||| UART_C2_TIE_MASK) &&& UART_C2_TIE_MASK ≠ 0 := by decide
  exact this u.C2

theorem arm_RIE {u : UART} (h : u.RIE) : u.arm.RIE := by
  have : ∀ c : uint8_t, c &&& UART_C2_RIE_MASK ≠ 0 →
      (c ||| UART_C2_TIE_MASK) &&& UART_C2_RIE_MASK ≠ 0 := by decide
  exact this u.C2 h

/-- Disarming the transmitter leaves the receive interrupt alone. -/
theorem disarm_RIE {c : uint8_t} (h : c &&& UART_C2_RIE_MASK ≠ 0) :
    c &&& ~~~UART_C2_TIE_MASK &&& UART_C2_RIE_MASK ≠ 0 := by
  have : ∀ c : uint8_t, c &&& UART_C2_RIE_MASK ≠ 0 →
      c &&& ~~~UART_C2_TIE_MASK &&& UART_C2_RIE_MASK ≠ 0 := by decide
  exact this c h

/-! ## What the handler does -/

theorem isr_eq (u : UART) (s1Rx s1Tx d : uint8_t) :
    u.isr s1Rx s1Tx d =
      ((u.isrRx s1Rx d).1 ++ ((u.isrRx s1Rx d).2.isrTx s1Tx).1,
        ((u.isrRx s1Rx d).2.isrTx s1Tx).2) := rfl

/-- The receiving half puts a byte into `RxFIFO` or does nothing. -/
theorem isrRx_cases (u : UART) (s1 d : uint8_t) :
    u.isrRx s1 d = ([], u) ∨
      u.isrRx s1 d =
        ([.received d (u.rxFIFO.put d).1], { u with rxFIFO := (u.rxFIFO.put d).2 }) := by
  unfold isrRx
  split
  · split
    · exact .inr rfl
    · exact .inl rfl
  · exact .inl rfl

/-- The transmitting half does nothing, takes the oldest byte of `TxFIFO`, or, with `TIE` set and
the queue empty, disarms the interrupt. -/
theorem isrTx_cases (u : UART) (s1 : uint8_t) :
    u.isrTx s1 = ([], u) ∨
    (∃ b bs, u.TIE ∧ u.txFIFO.bytes = b :: bs ∧ (u.txFIFO.get 0).2.2.bytes = bs ∧
      u.isrTx s1 = ([.transmitted b], { u with txFIFO := (u.txFIFO.get 0).2.2 })) ∨
    (u.TIE ∧ u.txFIFO.bytes = [] ∧
      u.isrTx s1 = ([], { u with C2 := u.C2 &&& ~~~UART_C2_TIE_MASK })) := by
  by_cases ht : u.TIE
  · by_cases hs : s1 &&& UART_S1_TDRE_MASK ≠ 0
    · unfold isrTx
      rw [if_pos ht, if_pos hs]
      cases hb : u.txFIFO.bytes with
      | nil =>
        refine .inr (.inr ⟨ht, rfl, ?_⟩)
        rw [Fifo.get_of_nil hb]
        rfl
      | cons b bs =>
        obtain ⟨h1, h2, h3⟩ := Fifo.get_of_cons hb 0
        refine .inr (.inl ⟨b, bs, ht, rfl, h3, ?_⟩)
        simp only [h1, h2, ↓reduceIte]
    · exact .inl (by rw [isrTx, if_pos ht, if_neg hs])
  · exact .inl (by rw [isrTx, if_neg ht])

end UART

end Serial
