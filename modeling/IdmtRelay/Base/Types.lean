import IdmtRelay.Lib.Word

/-!
# The integer types of the firmware

The fixed-width types of `<stdint.h>` are bit vectors; an operation of the C++ code that promotes
to a wider type is computed in `Nat` or `Int` and converted where the code assigns the result.
What C++ leaves undefined is a fault (`Undef`): a division by zero, a signed intermediate outside
its type (`int32`, `int64`). The unions of `type_cpp.h` are words read through their halves
(`Lib.Word`); the target is little-endian.
-/

abbrev uint8_t := BitVec 8
abbrev uint16_t := BitVec 16
abbrev uint32_t := BitVec 32
abbrev uint64_t := BitVec 64
abbrev int16_t := BitVec 16
abbrev int32_t := BitVec 32

/-- What the C++ standard leaves undefined. -/
inductive Undef
  | divByZero
  | overflow
  deriving DecidableEq, Repr

namespace Base

variable {α β : Type _}

@[simp] theorem ok_bind (a : α) (f : α → Except Undef β) : (Except.ok a >>= f) = f a := rfl

@[simp] theorem error_bind (e : Undef) (f : α → Except Undef β) :
    (Except.error e >>= f) = Except.error e := rfl

@[simp] theorem pure_eq_ok (a : α) : (pure a : Except Undef α) = .ok a := rfl

@[simp] theorem throw_eq_error (e : Undef) : (throw e : Except Undef α) = .error e := rfl

theorem bind_ok {x : Except Undef α} {f : α → Except Undef β} {b : β} (h : x >>= f = .ok b) :
    ∃ a, x = .ok a ∧ f a = .ok b := by
  cases x with
  | error e => cases h
  | ok a => exact ⟨a, rfl, h⟩

/-- An `int` intermediate. -/
def int32 (z : Int) : Except Undef Int :=
  if -2 ^ 31 ≤ z ∧ z < 2 ^ 31 then .ok z else .error .overflow

/-- A non-negative `int64_t` intermediate. -/
def int64 (n : Nat) : Except Undef Nat := if n < 2 ^ 63 then .ok n else .error .overflow

theorem int32_ok {z : Int} (h : -2 ^ 31 ≤ z ∧ z < 2 ^ 31) : int32 z = .ok z := if_pos h

theorem int64_ok {n : Nat} (h : n < 2 ^ 63) : int64 n = .ok n := if_pos h

/-- A quotient of non-negative integers. -/
def div (a b : Nat) : Except Undef Nat := if b = 0 then .error .divByZero else .ok (a / b)

theorem div_ok {a b : Nat} (h : b ≠ 0) : div a b = .ok (a / b) := if_neg h

/-- A number that fits its type. -/
theorem toNat_ofNat_of_lt {w n : Nat} (h : n < 2 ^ w) : (BitVec.ofNat w n).toNat = n := by
  rw [BitVec.toNat_ofNat, Nat.mod_eq_of_lt h]

end Base

/-! ## The unions of `type_cpp.h` -/

/-- `uint16union_t`: `l` from `s.Lo` and `s.Hi`. -/
def uint16union (Lo Hi : uint8_t) : uint16_t := Lib.Word.join Lo Hi
def uint32union (Lo Hi : uint16_t) : uint32_t := Lib.Word.join Lo Hi
def uint64union (Lo Hi : uint32_t) : uint64_t := Lib.Word.join Lo Hi

namespace BitVec

/-- `s.Lo` and `s.Hi` of `uint16union_t`, `uint32union_t` and `uint64union_t`. -/
def lo8 (l : uint16_t) : uint8_t := Lib.Word.lo (n := 8) l
def hi8 (l : uint16_t) : uint8_t := Lib.Word.hi (n := 8) l
def lo16 (l : uint32_t) : uint16_t := Lib.Word.lo (n := 16) l
def hi16 (l : uint32_t) : uint16_t := Lib.Word.hi (n := 16) l
def lo32 (l : uint64_t) : uint32_t := Lib.Word.lo (n := 32) l
def hi32 (l : uint64_t) : uint32_t := Lib.Word.hi (n := 32) l

@[simp] theorem lo8_uint16union (a b : uint8_t) : (uint16union a b).lo8 = a := Lib.Word.lo_join a b
@[simp] theorem hi8_uint16union (a b : uint8_t) : (uint16union a b).hi8 = b := Lib.Word.hi_join a b
@[simp] theorem lo16_uint32union (a b : uint16_t) : (uint32union a b).lo16 = a :=
  Lib.Word.lo_join a b
@[simp] theorem hi16_uint32union (a b : uint16_t) : (uint32union a b).hi16 = b :=
  Lib.Word.hi_join a b
@[simp] theorem lo32_uint64union (a b : uint32_t) : (uint64union a b).lo32 = a :=
  Lib.Word.lo_join a b
@[simp] theorem hi32_uint64union (a b : uint32_t) : (uint64union a b).hi32 = b :=
  Lib.Word.hi_join a b

end BitVec
