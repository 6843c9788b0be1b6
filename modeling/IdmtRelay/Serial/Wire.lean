import IdmtRelay.Serial.Link

/-!
# What goes out on the wire

The reference for the transmit path: the calls of `PacketPut`, in order, each put a packet on the
wire, the whole of it if they return true and a proper prefix of it if they return false (`Sent`).
-/

namespace Serial

namespace Link

/-- The bytes the handler wrote to the data register. -/
def transmitted (os : List Out) : List uint8_t :=
  os.filterMap fun | .transmitted d => some d | _ => none

/-- The results of `PacketPut`. -/
def results (os : List Out) : List Bool :=
  os.filterMap fun | .put success => some success | _ => none

/-- The packets `PacketPut` was called with. -/
def calls (tr : List ((Event × List Out) × Link)) : List Msg :=
  tr.filterMap fun p => match p.1.1 with | .packetPut m => some m | _ => none

/-- The handler runs and finds the transmitter ready for a byte. -/
def Ready : Event → Prop
  | .isr _ s1Tx _ => s1Tx &&& UART_S1_TDRE_MASK ≠ 0
  | _ => False

instance : ∀ e : Event, Decidable (Ready e)
  | .isr _ _ _ => inferInstanceAs (Decidable (_ ≠ _))
  | .packetGet => inferInstanceAs (Decidable False)
  | .packetPut _ => inferInstanceAs (Decidable False)
  | .resume => inferInstanceAs (Decidable False)

theorem transmitted_append (os os' : List Out) :
    transmitted (os ++ os') = transmitted os ++ transmitted os' :=
  List.filterMap_append

theorem results_append (os os' : List Out) : results (os ++ os') = results os ++ results os' :=
  List.filterMap_append

theorem calls_snoc (tr : List ((Event × List Out) × Link)) (e : Event) (o : List Out) (s : Link) :
    calls (tr ++ [((e, o), s)]) =
      calls tr ++ match e with | .packetPut m => [m] | _ => [] := by
  unfold calls
  rw [List.filterMap_append]
  cases e <;> rfl

end Link

/-- Calls with their results, and the bytes they queue one after the other. -/
inductive Sent : List Msg → List Bool → List uint8_t → Prop
  | nil : Sent [] [] []
  | whole {ms : List Msg} {bs : List Bool} {xs : List uint8_t} (m : Msg) :
      Sent ms bs xs → Sent (ms ++ [m]) (bs ++ [true]) (xs ++ m.bytes)
  | part {ms : List Msg} {bs : List Bool} {xs : List uint8_t} (m : Msg) {k : Nat} :
      Sent ms bs xs → k < m.bytes.length → Sent (ms ++ [m]) (bs ++ [false]) (xs ++ m.bytes.take k)

namespace Sent

variable {ms : List Msg} {bs : List Bool} {xs : List uint8_t}

theorem length_eq (h : Sent ms bs xs) : bs.length = ms.length := by
  induction h with
  | nil => rfl
  | whole m _ ih => simp [ih]
  | part m _ _ ih => simp [ih]

/-- If no call is refused, the bytes are those of the packets. -/
theorem eq_flatMap (h : Sent ms bs xs) (hb : ∀ b ∈ bs, b = true) : xs = ms.flatMap Msg.bytes := by
  induction h with
  | nil => rfl
  | whole m _ ih =>
    rw [ih (List.forall_mem_append.1 hb).1]
    simp
  | part m _ _ _ => exact absurd (hb false (by simp)) (by simp)

end Sent

end Serial
