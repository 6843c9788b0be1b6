import IdmtRelay.Lib.Trace
import IdmtRelay.Serial.Packet

/-!
# The serial link as a transition system

The main loop polls `PacketGet` and calls `PacketPut`; the interrupt handler runs at any point in
between, also between the steps of a `PacketPut` in progress. An event is one such atomic step, and
every interleaving is a trace of `Link.Step`.
-/

namespace Serial

/-- The shared UART, the packet object of `main`, and the call of `PacketPut` in progress. -/
structure Link where
  uart : UART
  packet : Packet
  call : Option Put

inductive Event
  /-- `UART_ISR`, with the two reads of the status register and the data register. -/
  | isr (s1Rx s1Tx UART2_D : uint8_t)
  /-- The main loop polls `PacketGet`. -/
  | packetGet
  /-- The main loop calls `PacketPut`. -/
  | packetPut (m : Msg)
  /-- The call of `PacketPut` in progress takes its next step. -/
  | resume
  deriving DecidableEq, Repr

namespace Link

/-- One atomic step; the main loop is inside a call of `PacketPut` or outside of one. -/
def step : Event → Link → Except Unit (List Out × Link)
  | .isr s1Rx s1Tx d, s =>
    let (o, u) := s.uart.isr s1Rx s1Tx d
    .ok (o, { s with uart := u })
  | .packetGet, s =>
    match s.call with
    | none =>
      let (r, p, u) := s.packet.packetGet s.uart
      .ok (if r then [.got p.command p.parameter1 p.parameter2 p.parameter3] else [],
        { s with packet := p, uart := u })
    | some _ => .error ()
  | .packetPut m, s =>
    match s.call with
    | none => .ok ([], { s with call := some (Put.start m) })
    | some _ => .error ()
  | .resume, s =>
    match s.call with
    | none => .error ()
    | some c =>
      match c.step s.uart with
      | (.inl c', u) => .ok ([], { s with uart := u, call := some c' })
      | (.inr success, u) => .ok ([.put success], { s with uart := u, call := none })

abbrev Step : Link → Event × List Out → Link → Prop := Lib.StepOf step

abbrev Trace := Lib.Trace Step

/-- What one step can do. -/
inductive Branch (s : Link) : Event → List Out → Link → Prop
  | isr (s1Rx s1Tx d : uint8_t) : Branch s (.isr s1Rx s1Tx d) (s.uart.isr s1Rx s1Tx d).1
      { s with uart := (s.uart.isr s1Rx s1Tx d).2 }
  | packetGet (hc : s.call = none) : Branch s .packetGet
      (if (s.packet.packetGet s.uart).1 then
        let p := (s.packet.packetGet s.uart).2.1
        [.got p.command p.parameter1 p.parameter2 p.parameter3]
      else [])
      { s with
        packet := (s.packet.packetGet s.uart).2.1
        uart := (s.packet.packetGet s.uart).2.2 }
  | packetPut (m : Msg) (hc : s.call = none) :
      Branch s (.packetPut m) [] { s with call := some (Put.start m) }
  | resume {c c' : Put} {u : UART} (hc : s.call = some c) (hs : c.step s.uart = (.inl c', u)) :
      Branch s .resume [] { s with uart := u, call := some c' }
  | ret {c : Put} {success : Bool} {u : UART} (hc : s.call = some c)
      (hs : c.step s.uart = (.inr success, u)) :
      Branch s .resume [.put success] { s with uart := u, call := none }

theorem step_branch {s s' : Link} {l : Event × List Out} (h : Step s l s') :
    Branch s l.1 l.2 s' := by
  obtain ⟨e, o⟩ := l
  simp only [Step, Lib.StepOf, step] at h
  cases e with
  | isr s1Rx s1Tx d =>
    cases h
    exact .isr s1Rx s1Tx d
  | packetGet =>
    simp only at h
    split at h
    · rename_i hc
      cases h
      exact .packetGet hc
    · cases h
  | packetPut m =>
    simp only at h
    split at h
    · rename_i hc
      cases h
      exact .packetPut m hc
    · cases h
  | resume =>
    simp only at h
    split at h
    · cases h
    · rename_i c hc
      split at h
      · rename_i hs
        cases h
        exact .resume hc hs
      · rename_i hs
        cases h
        exact .ret hc hs

/-- A call in progress can take its next step. -/
theorem resume_enabled {s : Link} {c : Put} (hc : s.call = some c) :
    ∃ o s', step .resume s = .ok (o, s') := by
  simp only [step, hc]
  split <;> exact ⟨_, _, rfl⟩

/-- The states after `Init` in which the parser is at the start of a packet. -/
structure Aligned (s : Link) : Prop where
  rx : s.uart.rxFIFO.bytes = []
  rie : s.uart.RIE
  counter : s.packet.nbBytesPacket = 1

/-! ## What a trace shows -/

/-- The outputs of a trace, in order. -/
def outs (tr : List ((Event × List Out) × Link)) : List Out := tr.flatMap (·.1.2)

/-- The bytes the handler received. -/
def received (os : List Out) : List uint8_t :=
  os.filterMap fun | .received d _ => some d | _ => none

/-- The packets for which `PacketGet` returned true. -/
def got (os : List Out) : List Msg :=
  os.filterMap fun | .got c p1 p2 p3 => some ⟨c, p1, p2, p3⟩ | _ => none

/-- No reception met a full `RxFIFO`. -/
def NoOverrun (os : List Out) : Prop := ∀ o ∈ os, o.lost = false

instance (os : List Out) : Decidable (NoOverrun os) :=
  inferInstanceAs (Decidable (∀ o ∈ os, o.lost = false))

theorem outs_snoc (tr : List ((Event × List Out) × Link)) (p : (Event × List Out) × Link) :
    outs (tr ++ [p]) = outs tr ++ p.1.2 := by
  simp [outs]

theorem NoOverrun.of_append {os os' : List Out} (h : NoOverrun (os ++ os')) :
    NoOverrun os ∧ NoOverrun os' :=
  ⟨fun o ho => h o (List.mem_append_left _ ho), fun o ho => h o (List.mem_append_right _ ho)⟩

end Link

end Serial
