import Mathlib.Tactic.Ring
import Mathlib.Algebra.Order.Ring.Int
import Mathlib.Tactic.Linarith
import ErbslandCore.Library.Except

namespace ErbslandCore.Math
open Library
set_option autoImplicit true

/-- A built-in integer type; the rank tells apart types of one size and signedness. -/
structure NativeInteger where
  isSigned : Bool
  size : Nat
  rank : Nat := 0
  size_valid : size = 1 ∨ size = 2 ∨ size = 4 ∨ size = 8 := by decide
  deriving DecidableEq

namespace NativeInteger

def int : NativeInteger := { isSigned := true, size := 4 }

def bits (T : NativeInteger) : Nat := T.size * 8

/-- Half the number of values of the type. -/
def half (T : NativeInteger) : Int := 2 ^ (T.bits - 1)

def minimum (T : NativeInteger) : Int := if T.isSigned then -T.half else 0

def maximum (T : NativeInteger) : Int := if T.isSigned then T.half - 1 else 2 * T.half - 1

def Represents (T : NativeInteger) (v : Int) : Prop := T.minimum ≤ v ∧ v ≤ T.maximum

instance (T : NativeInteger) (v : Int) : Decidable (T.Represents v) :=
  inferInstanceAs (Decidable (_ ∧ _))

/-- Types narrower than `int` are promoted before an operator is applied. -/
def promoted (T : NativeInteger) : NativeInteger := if T.size < 4 then int else T

def makeUnsigned (T : NativeInteger) : NativeInteger := { T with isSigned := false }

def sameSignedness (A B : NativeInteger) : Bool := A.isSigned == B.isSigned

/-- The wider type of a pair of one signedness. -/
def compatible (A B : NativeInteger) : NativeInteger := if A.size ≥ B.size then A else B

def secondHasGreaterPositiveRange (A B : NativeInteger) : Bool :=
  (A.size == B.size && A.isSigned && !B.isSigned) || decide (B.size > A.size)

theorem half_pos (T : NativeInteger) : 64 ≤ T.half := by
  rcases T.size_valid with h | h | h | h <;> simp [half, bits, h]

theorem half_eq (h : A.size = B.size) : half A = half B := by
  rw [half, half, bits, bits, h]

/-- A wider type has at least twice as many values. -/
theorem half_lt (h : A.size < B.size) : 2 * half A ≤ half B := by
  have hp : A.bits - 1 + 1 ≤ B.bits - 1 := by
    have := A.size_valid
    simp only [bits]
    omega
  calc 2 * half A = 2 ^ (A.bits - 1 + 1) := by rw [half, Int.pow_succ]; ring
    _ ≤ half B := pow_le_pow_right₀ (by omega) hp

theorem minimum_signed (h : T.isSigned = true) : minimum T = -T.half := if_pos h

theorem maximum_signed (h : T.isSigned = true) : maximum T = T.half - 1 := if_pos h

theorem minimum_unsigned (h : T.isSigned = false) : minimum T = 0 := by simp [minimum, h]

theorem maximum_unsigned (h : T.isSigned = false) : maximum T = 2 * T.half - 1 := by
  simp [maximum, h]

theorem maximum_sub_minimum (T : NativeInteger) : T.maximum - T.minimum = 2 * T.half - 1 := by
  cases h : T.isSigned with
  | true => rw [maximum_signed h, minimum_signed h]; omega
  | false => rw [maximum_unsigned h, minimum_unsigned h]; omega

theorem minimum_nonpos (T : NativeInteger) : T.minimum ≤ 0 := by
  have hp := T.half_pos
  cases h : T.isSigned with
  | true => rw [minimum_signed h]; omega
  | false => rw [minimum_unsigned h]

theorem maximum_pos (T : NativeInteger) : 63 ≤ T.maximum := by
  have hp := T.half_pos
  cases h : T.isSigned with
  | true => rw [maximum_signed h]; omega
  | false => rw [maximum_unsigned h]; omega

/-- The promoted type represents all values of a narrow type. -/
theorem Represents.promoted {T : NativeInteger} (h : T.Represents v) : T.promoted.Represents v := by
  unfold NativeInteger.promoted
  split
  case isFalse => exact h
  case isTrue hs =>
    have hh : 2 * T.half ≤ int.half := half_lt hs
    have hp := T.half_pos
    have hmin : int.minimum = -int.half := rfl
    have hmax : int.maximum = int.half - 1 := rfl
    obtain ⟨hl, hu⟩ := h
    refine ⟨?_, ?_⟩
    · cases hsign : T.isSigned with
      | true => rw [minimum_signed hsign] at hl; omega
      | false => rw [minimum_unsigned hsign] at hl; omega
    · cases hsign : T.isSigned with
      | true => rw [maximum_signed hsign] at hu; omega
      | false => rw [maximum_unsigned hsign] at hu; omega

end NativeInteger

/-- A value of a built-in integer type. -/
@[ext] structure Value (T : NativeInteger) where
  val : Int
  represents : T.Represents val

/-- The ends of an evaluation that yields no value. -/
inductive Fault where
  | signedOverflow
  | shiftTooWide
  | divisionByZero
  | terminate
  deriving DecidableEq

open NativeInteger

namespace Value

def lowest (T : NativeInteger) : Value T :=
  ⟨T.minimum, le_refl _, by have := T.minimum_nonpos; have := T.maximum_pos; omega⟩

def highest (T : NativeInteger) : Value T :=
  ⟨T.maximum, by have := T.minimum_nonpos; have := T.maximum_pos; omega, le_refl _⟩

/-- The conversion of a value to a type, modulo the number of values of the type. -/
def staticCast (T : NativeInteger) (v : Int) : Value T where
  val := (v - T.minimum) % (2 * T.half) + T.minimum
  represents := by
    have hp := T.half_pos
    have hd := T.maximum_sub_minimum
    have h₀ := Int.emod_nonneg (v - T.minimum) (show 2 * T.half ≠ 0 by omega)
    have h₁ := Int.emod_lt_of_pos (v - T.minimum) (show 0 < 2 * T.half by omega)
    constructor <;> omega

/-- The nearest value of the type. -/
def clamp (T : NativeInteger) (v : Int) : Value T where
  val := max T.minimum (min v T.maximum)
  represents := by
    have := T.minimum_nonpos
    have := T.maximum_pos
    constructor <;> omega

@[simp] theorem lowest_val (T : NativeInteger) : (lowest T).val = T.minimum := rfl

@[simp] theorem highest_val (T : NativeInteger) : (highest T).val = T.maximum := rfl

@[simp] theorem clamp_val (T : NativeInteger) (v : Int) :
    (clamp T v).val = max T.minimum (min v T.maximum) := rfl

theorem represents_zero (T : NativeInteger) : T.Represents 0 :=
  ⟨T.minimum_nonpos, by have := T.maximum_pos; omega⟩

theorem staticCast_val (h : T.Represents v) : (staticCast T v).val = v := by
  have hd := T.maximum_sub_minimum
  obtain ⟨hl, hu⟩ := h
  show (v - T.minimum) % (2 * T.half) + T.minimum = v
  rw [Int.emod_eq_of_lt (by omega) (by omega)]
  omega

theorem clamp_of_represents (h : T.Represents v) : (clamp T v).val = v := by
  rw [clamp_val, min_eq_left h.2, max_eq_right h.1]

theorem clamp_cases (T : NativeInteger) (v : Int) :
    v < T.minimum ∧ (clamp T v).val = T.minimum ∨
      T.Represents v ∧ (clamp T v).val = v ∨ T.maximum < v ∧ (clamp T v).val = T.maximum := by
  have hn := T.minimum_nonpos
  have hp := T.maximum_pos
  rcases lt_or_ge v T.minimum with hl | hl
  · exact .inl ⟨hl, max_eq_left (min_le_of_left_le hl.le)⟩
  · rcases lt_or_ge T.maximum v with hu | hu
    · refine .inr (.inr ⟨hu, ?_⟩)
      rw [clamp_val, min_eq_right hu.le, max_eq_right (by omega)]
    · exact .inr (.inl ⟨⟨hl, hu⟩, by rw [clamp_val, min_eq_left hu, max_eq_right hl]⟩)

/-- A value is the clamped result if it is where the exact result is. -/
theorem eq_clamp {x : Value T} (h : v < T.minimum ∧ x.val = T.minimum ∨ x.val = v ∨
    T.maximum < v ∧ x.val = T.maximum) : x = clamp T v := by
  obtain ⟨hl, hu⟩ := x.represents
  apply Value.ext
  rcases clamp_cases T v with ⟨h', e⟩ | ⟨⟨h', h''⟩, e⟩ | ⟨h', e⟩ <;> omega

end Value

/-- An operator on promoted operands: unsigned results wrap, signed overflow is undefined. -/
def arithmetic (T : NativeInteger) (exact : Int) : Except Fault (Value T) :=
  if T.isSigned ∧ ¬ T.Represents exact then .error .signedOverflow
  else .ok (Value.staticCast T exact)

/-- The value `1` of a type, shifted to the left. -/
def shiftOne (T : NativeInteger) (count : Nat) : Except Fault (Value T.promoted) :=
  if count < T.promoted.bits then .ok (Value.staticCast T.promoted (2 ^ count))
  else .error .shiftTooWide

def minus (first second : Value T) : Except Fault (Value T.promoted) :=
  arithmetic T.promoted (first.val - second.val)

def dividedBy (first second : Value T) : Except Fault (Value T.promoted) :=
  if second.val = 0 then .error .divisionByZero
  else arithmetic T.promoted (first.val.tdiv second.val)

/-- The remainder is undefined where the quotient is. -/
def remainder (first second : Value T) : Except Fault (Value T.promoted) := do
  let _ ← dividedBy first second
  arithmetic T.promoted (first.val.tmod second.val)

theorem arithmetic_of_represents (h : T.Represents v) :
    ∃ r, arithmetic T v = .ok r ∧ r.val = v := by
  refine ⟨Value.staticCast T v, ?_, Value.staticCast_val h⟩
  rw [arithmetic, if_neg (by tauto)]

theorem minus_eq {first second : Value T} (h : T.promoted.Represents (first.val - second.val)) :
    ∃ r, minus first second = .ok r ∧ r.val = first.val - second.val :=
  arithmetic_of_represents h

/-- A quotient is representable, up to the one that negates the minimum. -/
theorem tdiv_represents {first : Value T} {divisor : Int} (hz : divisor ≠ 0)
    (hd : T.isSigned = false → 0 ≤ divisor)
    (h : T.isSigned = true → divisor = -1 → first.val ≠ T.minimum) :
    T.Represents (first.val.tdiv divisor) := by
  obtain ⟨hl, hu⟩ := first.represents
  have habs := Int.natAbs_tdiv_le_natAbs first.val divisor
  cases hs : T.isSigned with
  | false =>
    rw [minimum_unsigned hs] at hl
    have hn := Int.tdiv_nonneg hl (hd hs)
    refine ⟨by rw [minimum_unsigned hs]; exact hn, ?_⟩
    omega
  | true =>
    rw [minimum_signed hs] at hl
    rw [maximum_signed hs] at hu
    by_cases hm : divisor = -1
    · have := h hs hm
      rw [minimum_signed hs] at this
      rw [hm, show (-1 : Int) = -(1 : Int) from rfl, Int.tdiv_neg, Int.tdiv_one]
      refine ⟨?_, ?_⟩
      · rw [minimum_signed hs]; omega
      · rw [maximum_signed hs]; omega
    · by_cases hone : divisor = 1
      · rw [hone, Int.tdiv_one]
        exact first.represents
      · -- A divisor of magnitude two or more at least halves the magnitude.
        have hle : first.val.natAbs / divisor.natAbs ≤ first.val.natAbs / 2 :=
          Nat.div_le_div_left (by omega) (by omega)
        have hq : (first.val.tdiv divisor).natAbs =
            first.val.natAbs / divisor.natAbs := Int.natAbs_tdiv _ _
        have hp := T.half_pos
        refine ⟨?_, ?_⟩
        · rw [minimum_signed hs]; omega
        · rw [maximum_signed hs]; omega

end ErbslandCore.Math
