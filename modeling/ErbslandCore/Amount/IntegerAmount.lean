import ErbslandCore.Math.SaturatingInteger

namespace ErbslandCore.Amount
open Math NativeInteger
set_option autoImplicit true

/-- The ratio of an amount to the base unit; its parts are numbers of the 64-bit type. -/
structure Ratio where
  num : Nat
  den : Nat
  positive : 0 < num ∧ 0 < den := by decide
  simple : num = 1 ∨ den = 1 := by decide
  bounded : num < 2 ^ 63 ∧ den < 2 ^ 63 := by decide

/-- The quotient of two ratios in lowest terms. -/
def ratioDivide (ratio target : Ratio) : Nat × Nat :=
  let num := ratio.num * target.den
  let den := ratio.den * target.num
  (num / Nat.gcd num den, den / Nat.gcd num den)

/-- A signed amount of a unit, scaled by a ratio. -/
@[ext] structure IntegerAmount (unit : Type) (ratio : Ratio) where
  value : SatInt64

namespace IntegerAmount
variable (amount other : IntegerAmount unit ratio)

def zero : IntegerAmount unit ratio := ⟨.zero int64⟩

def add : IntegerAmount unit ratio := ⟨amount.value.added other.value⟩

def subtract : IntegerAmount unit ratio := ⟨amount.value.subtracted other.value⟩

def negated : IntegerAmount unit ratio := ⟨amount.value.negated⟩

def isZero : Bool := amount.value.val = 0

def isPositive : Bool := amount.value.val > 0

def isNegative : Bool := amount.value.val < 0

def wouldAddSaturate : Bool := amount.value.wouldAddSaturate other.value

variable (target : Ratio)

/-- The parts of a conversion, as numbers of the 64-bit type. -/
def conversionNum (ratio target : Ratio) : SatInt64 := .clamp int64 (ratioDivide ratio target).1

def conversionDen (ratio target : Ratio) : SatInt64 := .clamp int64 (ratioDivide ratio target).2

theorem clamp_ne_zero {n : Nat} (h : 0 < n) : (Value.clamp int64 n).val ≠ 0 := by
  rw [Value.clamp_val, int64_minimum, int64_maximum]
  omega

theorem conversionNum_ne_zero (ratio target : Ratio) : (conversionNum ratio target).val ≠ 0 := by
  have hpos : 0 < ratio.num * target.den := Nat.mul_pos ratio.positive.1 target.positive.2
  apply clamp_ne_zero
  exact Nat.div_pos (Nat.gcd_le_left _ hpos) (Nat.gcd_pos_of_pos_left _ hpos)

theorem conversionDen_ne_zero (ratio target : Ratio) : (conversionDen ratio target).val ≠ 0 := by
  have hpos : 0 < ratio.den * target.num := Nat.mul_pos ratio.positive.2 target.positive.1
  apply clamp_ne_zero
  exact Nat.div_pos (Nat.gcd_le_right _ hpos) (Nat.gcd_pos_of_pos_right _ hpos)

/-- All amounts have the same 64-bit type, so only the multiplication can saturate. -/
def wouldConvertSaturate : Bool :=
  if (ratioDivide ratio target).1 ≠ 1 then
    amount.value.wouldMultiplySaturate (conversionNum ratio target)
  else false

def converted : IntegerAmount unit target :=
  let result :=
    if (ratioDivide ratio target).1 ≠ 1 then
      amount.value.multiplied (conversionNum ratio target)
    else amount.value
  ⟨if (ratioDivide ratio target).2 ≠ 1 then
    result.divided (conversionDen ratio target) (conversionDen_ne_zero ratio target)
  else result⟩

/-- The whole part in a larger unit, and the signed remainder in the unit of the amount. -/
def extract : IntegerAmount unit target × IntegerAmount unit ratio :=
  (⟨amount.value.divided (conversionNum target ratio) (conversionNum_ne_zero target ratio)⟩,
    ⟨amount.value.modulo (conversionNum target ratio) (conversionNum_ne_zero target ratio)⟩)

section conversions
variable {amount target}

/-- A conversion to a smaller unit multiplies. -/
theorem wouldConvertSaturate_eq_false (h : ratioDivide ratio target = (n, 1))
    (hnum : int64.Represents n) :
    amount.wouldConvertSaturate target = false ↔ int64.Represents (amount.value.val * n) := by
  simp only [wouldConvertSaturate, h]
  split_ifs with hone
  · rw [Value.wouldMultiplySaturate_eq_false, conversionNum, h, Value.clamp_of_represents hnum]
  · rw [not_not.mp hone, Nat.cast_one, Int.mul_one]
    exact ⟨fun _ => amount.value.represents, fun _ => rfl⟩

theorem converted_eq (h : ratioDivide ratio target = (n, 1)) (hnum : int64.Represents n) :
    (amount.converted target).value = .clamp int64 (amount.value.val * n) := by
  simp only [converted, h, ne_eq, not_true_eq_false, if_false]
  split_ifs with hone
  · rw [hone, Nat.cast_one, Int.mul_one]
    exact Value.ext (Value.clamp_of_represents amount.value.represents).symm
  · rw [Value.multiplied_eq, conversionNum, h, Value.clamp_of_represents hnum]

theorem converted_val (h : ratioDivide ratio target = (n, 1)) (hnum : int64.Represents n)
    (hfits : int64.Represents (amount.value.val * n)) :
    (amount.converted target).value.val = amount.value.val * n := by
  rw [converted_eq h hnum, Value.clamp_of_represents hfits]

variable (amount target) in
/-- Extraction splits an amount into whole parts and a remainder of the same sign. -/
theorem extract_eq (h : ratioDivide target ratio = (n, 1)) (hnum : int64.Represents n) :
    (amount.extract target).1.value.val = amount.value.val.tdiv n ∧
      (amount.extract target).2.value.val = amount.value.val.tmod n := by
  have hfactor : (conversionNum target ratio).val = n := by
    rw [conversionNum, h, Value.clamp_of_represents hnum]
  have hpos := conversionNum_ne_zero target ratio
  rw [hfactor] at hpos
  have hne : (n : Int) ≠ -1 := by omega
  simp only [extract, Value.divided, Value.modulo, hfactor]
  rw [Value.clamp_of_represents (tdiv_represents hpos (fun _ => Int.natCast_nonneg _)
    fun _ h => absurd h hne), Value.clamp_of_represents (tmod_represents _ _)]
  exact ⟨rfl, rfl⟩

end conversions
end IntegerAmount
end ErbslandCore.Amount
