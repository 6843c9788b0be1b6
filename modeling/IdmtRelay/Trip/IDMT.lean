import IdmtRelay.Measure.FixPoint

/-!
# Trip times (`IDMT.cpp`)

The inverse-time characteristics. Two floats and a `uint8_t` of `characteristic` are multiplied by
65536 and converted to `uint32_t`; `KI`, `KVI` and `KEI` are the results.
-/

namespace Trip

open Measure (exp)

/-- `0.14 * 65536`, converted. -/
def KI : uint32_t := 9175#32

/-- `13.5 * 65536`. -/
def KVI : uint32_t := 884736#32

/-- `80 * 65536`. -/
def KEI : uint32_t := 5242880#32

/-- The members of an `IDMT_t` object. -/
structure IDMT where
  time : uint32_t
  currentRMS : uint32_t
  deriving DecidableEq, Repr

namespace IDMT

/-- `time = ((int64_t) K << 16) / (currentRMS - 1 * 65536)`. -/
def setTime (K : uint32_t) (i : IDMT) : Except Undef IDMT := do
  let time ← Base.div (K.toNat <<< 16) (i.currentRMS - 65536#32).toNat
  return { i with time := BitVec.ofNat 32 time }

/-- `IDMT_t::Inverse`. -/
def inverse (i : IDMT) : Except Undef IDMT := do
  let currentRMS ← exp i.currentRMS 50#8
  setTime KI { i with currentRMS := currentRMS }

/-- `IDMT_t::VeryInverse`. -/
def veryInverse (i : IDMT) : Except Undef IDMT := setTime KVI i

/-- `IDMT_t::ExtremelyInverse`. -/
def extremelyInverse (i : IDMT) : Except Undef IDMT := do
  let square ← Base.int64 (i.currentRMS.toNat * i.currentRMS.toNat)
  setTime KEI { i with currentRMS := BitVec.ofNat 32 (square >>> 16) }

/-- `IDMT_t::GetTripTime`; `setting` is the byte the static pointer points to. -/
def getTripTime (setting : uint8_t) (current : uint16_t) (i : IDMT) :
    Except Undef (uint32_t × IDMT) := do
  let i := { i with currentRMS := BitVec.ofNat 32 (current.toNat <<< 5) }
  let i ←
    if setting = 0#8 then i.inverse
    else if setting = 1#8 then i.veryInverse
    else if setting = 2#8 then i.extremelyInverse
    else i.inverse
  return (i.time, i)

end IDMT

end Trip
