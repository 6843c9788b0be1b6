import IdmtRelay.Trip.Relay

/-!
# What the board shows (`LEDs.cpp`, the channels of the converter)

The LEDs are on port A, lit by a 0 in its output register; `GPIOA_PSOR`, `GPIOA_PCOR` and
`GPIOA_PTOR` set, clear and toggle the bits that are 1 in the value written. The channels of the
digital-to-analog converter hold the values that `Analog_Put` accepted last.
-/

namespace Trip

/-- `LED_t::TLED`. -/
def ORANGE : uint32_t := 1#32 <<< 11
def YELLOW : uint32_t := 1#32 <<< 28
def GREEN : uint32_t := 1#32 <<< 29
def BLUE : uint32_t := 1#32 <<< 10

/-- `LED_t`, with the output register of port A. -/
structure LED where
  m_color : uint32_t
  pdor : uint32_t
  deriving DecidableEq, Repr

namespace LED

/-- The constructor, on a register that holds `pdor`; a static object starts with zeros. -/
def construct (pdor : uint32_t) : LED :=
  { m_color := 0#32, pdor := pdor ||| (ORANGE ||| YELLOW ||| GREEN ||| BLUE) }

/-- `LED_t::Color`. -/
def color (color : uint32_t) (l : LED) : LED := { l with m_color := color }

/-- `LED_t::On`. -/
def on (l : LED) : LED := { l with pdor := l.pdor &&& ~~~l.m_color }

/-- `LED_t::Off`. -/
def off (l : LED) : LED := { l with pdor := l.pdor ||| l.m_color }

/-- The LED at the bit `mask` is lit. -/
def Lit (mask : uint32_t) (l : LED) : Prop := l.pdor &&& mask = 0#32

instance (mask : uint32_t) (l : LED) : Decidable (l.Lit mask) := inferInstanceAs (Decidable (_ = _))

end LED

/-- The LEDs, and the value last accepted on each channel of the converter. -/
structure Board where
  led : LED
  dac : uint8_t → int16_t

namespace Board

/-- Power-up, on a register that holds `pdor`. -/
def init (pdor : uint32_t) : Board := { led := .construct pdor, dac := fun _ => 0#16 }

/-- One output of a tick. -/
def put (b : Board) : Out → Board
  | .putSample value channelNb ok =>
    if ok then
      { b with dac := fun c =>
          if c = channelNb then BitVec.ofInt 16 (value.toInt * resolutionDA) else b.dac c }
    else b
  | .ledOn => { b with led := (b.led.color ORANGE).on }
  | .ledOff => { b with led := b.led.off }

/-- The board after the outputs of one tick. -/
def puts (b : Board) (o : List Out) : Board := o.foldl put b

/-- The board after a run. -/
def after (pdor : uint32_t) (tr : Relay.Ticks) : Board :=
  tr.foldl (fun b p => b.puts p.1.2) (init pdor)

variable {b : Board} {o : List Out} {x : Out} {value : int16_t} {channelNb c : uint8_t} {ok : Bool}

@[simp] theorem puts_nil : b.puts [] = b := rfl

@[simp] theorem puts_cons : b.puts (x :: o) = (b.put x).puts o := rfl

theorem puts_append (b : Board) (o o' : List Out) : b.puts (o ++ o') = (b.puts o).puts o' :=
  List.foldl_append

@[simp] theorem put_ledOn_led : (b.put .ledOn).led = (b.led.color ORANGE).on := rfl

@[simp] theorem put_ledOff_led : (b.put .ledOff).led = b.led.off := rfl

@[simp] theorem put_ledOn_dac : (b.put .ledOn).dac = b.dac := rfl

@[simp] theorem put_ledOff_dac : (b.put .ledOff).dac = b.dac := rfl

@[simp] theorem put_putSample_led : (b.put (.putSample value channelNb ok)).led = b.led := by
  cases ok <;> rfl

theorem put_putSample_dac : (b.put (.putSample value channelNb ok)).dac c =
    if ok = true ∧ c = channelNb then BitVec.ofInt 16 (value.toInt * resolutionDA)
    else b.dac c := by
  cases ok with
  | true => simp [put]
  | false => simp [put]

theorem after_snoc (pdor : uint32_t) (tr : Relay.Ticks) (p : (TickIn × List Out) × Relay) :
    after pdor (tr ++ [p]) = (after pdor tr).puts p.1.2 :=
  List.foldl_concat ..

end Board

end Trip
