import IdmtRelay.Lib.Newton
import IdmtRelay.Measure.Analog

/-!
# Fixed-point arithmetic (`FixPoint32.cpp`) and the measured current

Values are 32Q16 unless the comment says otherwise. The root is six passes of Newton's iteration
(`squareRoot_eq`, which relates it to `Lib.Newton.iter`); it divides by zero for a base below 2.
-/

namespace Measure

def oneHalf : Nat := 32768
def NB_ITERATIONS : Nat := 6

/-- 0.35 V per A. -/
def ratio : Nat := 22938

/-- The current in 16Q11 above which the relay sees an overload (`main.cpp`). -/
def OVERLOAD : uint16_t := 2109#16

/-- One pass of the loop of `SquareRoot`. -/
def squareRootPass (base result : uint32_t) : Except Undef uint32_t := do
  let quotient ← Base.div (base.toNat <<< 16) result.toNat
  let product ← Base.int64 ((quotient + result.toNat) * oneHalf)
  return BitVec.ofNat 32 (product >>> 16)

/-- The loop of `SquareRoot`. -/
def squareRootLoop (base : uint32_t) : Nat → uint32_t → Except Undef uint32_t
  | 0, result => .ok result
  | i + 1, result => do squareRootLoop base i (← squareRootPass base result)

/-- `FixPoint::SquareRoot`. -/
def squareRoot (base : uint32_t) : Except Undef uint32_t :=
  squareRootLoop base NB_ITERATIONS (BitVec.ofNat 32 ((base.toNat * oneHalf) >>> 16))

/-- The loop of `Exp`; `fuel` bounds its passes. -/
def expLoop : Nat → Nat → uint32_t → Except Undef uint32_t
  | 0, _, temp => .ok temp
  | fuel + 1, exp, temp =>
    if exp = 0 then .ok temp else do expLoop fuel (exp / 2) (← squareRoot temp)

/-- `FixPoint::Exp`. An 8-bit exponent is 0 after at most eight halvings. -/
def exp (base : uint32_t) (exp : uint8_t) : Except Undef uint32_t := expLoop 8 exp.toNat base

/-- A sample squared, in 16Q7. -/
def squareQ7 (sample : int32_t) : Except Undef uint16_t := do
  let sample_16Q7 := sample.toInt >>> (9 : Nat)
  let square ← Base.int32 (sample_16Q7 * sample_16Q7)
  return BitVec.ofInt 16 (square >>> (7 : Nat))

/-- The loop of `GetVoltageRMS`. -/
def sumSquares : List int32_t → uint16_t → Except Undef uint16_t
  | [], sum => .ok sum
  | sample :: inputSignal, sum => do sumSquares inputSignal (sum + (← squareQ7 sample))

/-- The mean of the squares. -/
def meanSquare (sum : uint16_t) (num : uint8_t) : Except Undef uint32_t := do
  let rmsVoltage : uint32_t := BitVec.ofNat 32 (sum.toNat <<< 9)
  return BitVec.ofNat 32 (← Base.div (rmsVoltage.toNat <<< 16) (num.toNat * 65536))

/-- `FixPoint::GetVoltageRMS`. -/
def getVoltageRMS (a : Analog) : Except Undef (uint32_t × Analog) := do
  let sum ← sumSquares a.inputSignal 0#16
  let rmsVoltage ← meanSquare sum (BitVec.ofNat 8 a.inputSignal.length)
  return (← squareRoot rmsVoltage, { a with inputSignal := [] })

/-- `FixPoint::GetCurrentRMS`. -/
def getCurrentRMS (a : Analog) : Except Undef (uint32_t × Analog) := do
  let (voltage, a) ← getVoltageRMS a
  return (BitVec.ofNat 32 ((voltage.toNat <<< 16) / ratio), a)

/-- `IDMT_t::GetCurrent`. -/
def getCurrent (a : Analog) : Except Undef (uint16_t × Analog) := do
  let (tempData, a) ← getCurrentRMS a
  return (BitVec.ofNat 16 (tempData.toNat >>> 5), a)

end Measure
