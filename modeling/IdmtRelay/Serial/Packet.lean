import IdmtRelay.Serial.UART

/-!
# The packet layer (`Packet.cpp`)

`PacketGet` assembles five bytes and checks that the last is the XOR of the others; on a mismatch
`SwitchPacket` discards the oldest byte and the byte counter stays at 5. `PacketPut` queues the five
bytes of a packet one by one and arms the transmit interrupt. Its loop is also given as single steps
(`Put`), since the interrupt handler runs between them.
-/

namespace Serial

/-- `Packet_t`, with the static byte counter of `PacketGet`. -/
structure Packet where
  command : uint8_t
  parameter1 : uint8_t
  parameter2 : uint8_t
  parameter3 : uint8_t
  checksum : uint8_t
  nbBytesPacket : uint32_t
  deriving DecidableEq, Repr

/-- The arguments of `PacketPut`, and what a successful `PacketGet` leaves in the object. -/
structure Msg where
  command : uint8_t
  parameter1 : uint8_t
  parameter2 : uint8_t
  parameter3 : uint8_t
  deriving DecidableEq, Repr

namespace Packet

/-- `Packet_t::MakeChecksum`. -/
def makeChecksum (p : Packet) : uint8_t :=
  p.command ^^^ p.parameter1 ^^^ p.parameter2 ^^^ p.parameter3

/-- `Packet_t::SwitchPacket`. -/
def switchPacket (p : Packet) : Packet :=
  { p with
    command := p.parameter1
    parameter1 := p.parameter2
    parameter2 := p.parameter3
    parameter3 := p.checksum }

/-- The `switch` of `PacketGet`, on a received byte. -/
def receive (p : Packet) (rxData : uint8_t) : Bool × Packet :=
  if p.nbBytesPacket = 1 then
    (false, { p with command := rxData, nbBytesPacket := p.nbBytesPacket + 1 })
  else if p.nbBytesPacket = 2 then
    (false, { p with parameter1 := rxData, nbBytesPacket := p.nbBytesPacket + 1 })
  else if p.nbBytesPacket = 3 then
    (false, { p with parameter2 := rxData, nbBytesPacket := p.nbBytesPacket + 1 })
  else if p.nbBytesPacket = 4 then
    (false, { p with parameter3 := rxData, nbBytesPacket := p.nbBytesPacket + 1 })
  else if p.nbBytesPacket = 5 then
    let p := { p with checksum := rxData }
    if p.checksum = p.makeChecksum then (true, { p with nbBytesPacket := 1 })
    else (false, p.switchPacket)
  else (false, p)

/-- `Packet_t::PacketGet`. -/
def packetGet (p : Packet) (u : UART) : Bool × Packet × UART :=
  let (ok, rxData, u) := u.inChar 0
  if ok then
    let (r, p) := p.receive rxData
    (r, p, u)
  else (false, p, u)

end Packet

/-! ## Sending -/

/-- The array `bytes` of `PacketPut`. -/
def Msg.bytes (m : Msg) : List uint8_t :=
  [m.command, m.parameter1, m.parameter2, m.parameter3,
    m.command ^^^ m.parameter1 ^^^ m.parameter2 ^^^ m.parameter3]

/-- A call of `PacketPut` in progress: the bytes still to queue and the local `success`. -/
structure Put where
  rest : List uint8_t
  success : Bool
  deriving DecidableEq, Repr

/-- The call as it starts. -/
def Put.start (m : Msg) : Put := ⟨m.bytes, true⟩

/-- One atomic step of `PacketPut`: queue a byte, return early, or arm the transmitter and
return. -/
def Put.step (c : Put) (u : UART) : (Put ⊕ Bool) × UART :=
  match c.rest with
  | it :: rest =>
    if c.success then
      let (ok, u) := u.outChar it
      (.inl ⟨rest, ok⟩, u)
    else (.inr false, u)
  | [] => (.inr c.success, u.arm)

/-- The loop of `PacketPut` run to its end. -/
def putLoop : List uint8_t → Bool → UART → Bool × UART
  | it :: rest, true, u =>
    let (ok, u) := u.outChar it
    putLoop rest ok u
  | _ :: _, false, u => (false, u)
  | [], success, u => (success, u.arm)

/-- `Packet_t::PacketPut`. -/
def packetPut (m : Msg) (u : UART) : Bool × UART := putLoop m.bytes true u

/-- The loop is its steps one after the other. -/
theorem putLoop_step (c : Put) (u : UART) :
    putLoop c.rest c.success u =
      match c.step u with
      | (.inl c', u') => putLoop c'.rest c'.success u'
      | (.inr success, u') => (success, u') := by
  obtain ⟨rest, success⟩ := c
  cases rest with
  | nil => rfl
  | cons it rest => cases success <;> rfl

end Serial
