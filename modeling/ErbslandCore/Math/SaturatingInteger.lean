import ErbslandCore.Math.SaturatingMathOneType

namespace ErbslandCore.Math
open NativeInteger
set_option autoImplicit true

namespace NativeInteger

def int64 : NativeInteger := { isSigned := true, size := 8 }

theorem int64_represents {v : Int} :
    int64.Represents v ↔ -9223372036854775808 ≤ v ∧ v ≤ 9223372036854775807 := Iff.rfl

theorem int64_minimum : int64.minimum = -9223372036854775808 := rfl

theorem int64_maximum : int64.maximum = 9223372036854775807 := rfl

theorem two_pow_bits (T : NativeInteger) : (2 : Int) ^ T.bits = 2 * T.half := by
  have hbits : T.bits = T.bits - 1 + 1 := by
    have hsize := T.size_valid
    rw [bits]
    omega
  rw [half, hbits, Int.pow_succ, mul_comm, Nat.add_sub_cancel]

end NativeInteger

/-- An integer whose operations saturate at the ends of its type. -/
abbrev SaturatingInteger (T : NativeInteger) := Value T

abbrev SatInt64 := SaturatingInteger int64

namespace Value

def zero (T : NativeInteger) : Value T := ⟨0, represents_zero T⟩

@[simp] theorem zero_val : (zero T).val = 0 := rfl

section operations
variable (first second : SaturatingInteger T)

def added : SaturatingInteger T := saturatingAdd₁ first second

def subtracted : SaturatingInteger T := saturatingSubtract₁ first second

def multiplied : SaturatingInteger T := saturatingMultiply₁ first second

def negated : SaturatingInteger T :=
  if !T.isSigned then zero T
  else if first.val = T.minimum then .highest T
  else .staticCast T (-first.val)

def wouldAddSaturate : Bool := willAddOverflow₁ first second

def wouldMultiplySaturate : Bool := willMultiplyOverflow₁ first second

/-- The quotient and the remainder by a divisor that is not zero. -/
def divided (_ : second.val ≠ 0) : SaturatingInteger T := .clamp T (first.val.tdiv second.val)

def modulo (_ : second.val ≠ 0) : SaturatingInteger T := .clamp T (first.val.tmod second.val)

theorem divided_eq (h : second.val ≠ 0) :
    saturatingDivide₁ first second = .ok (first.divided second h) := saturatingDivide₁_eq _ _ h

theorem modulo_eq (h : second.val ≠ 0) :
    saturatingModulo₁ first second = .ok (first.modulo second h) := saturatingModulo₁_eq _ _ h

theorem added_eq : first.added second = .clamp T (first.val + second.val) :=
  saturatingAdd₁_eq first second

theorem subtracted_eq : first.subtracted second = .clamp T (first.val - second.val) :=
  saturatingSubtract₁_eq first second

theorem multiplied_eq : first.multiplied second = .clamp T (first.val * second.val) :=
  saturatingMultiply₁_eq first second

theorem negated_eq : first.negated = .clamp T (-first.val) := by
  obtain ⟨hl, hu⟩ := first.represents
  have hp := T.half_pos
  rw [negated]
  rcases bounds T with ⟨ht, htl, htu⟩ | ⟨ht, htl, htu⟩
  · rw [if_neg (by simp [ht])]
    split_ifs with hminimum
    · apply eq_clamp
      exact .inr (.inr ⟨by omega, rfl⟩)
    · exact staticCast_eq_clamp ⟨by omega, by omega⟩
  · rw [if_pos (by simp [ht])]
    apply Value.ext
    rw [clamp_val, zero_val]
    omega

theorem wouldAddSaturate_eq_false :
    first.wouldAddSaturate second = false ↔ T.Represents (first.val + second.val) := by
  rw [wouldAddSaturate, willAddOverflow₁, builtinOverflow, Bool.not_eq_false', decide_eq_true_iff]

theorem wouldMultiplySaturate_eq_false :
    first.wouldMultiplySaturate second = false ↔ T.Represents (first.val * second.val) := by
  rw [wouldMultiplySaturate, willMultiplyOverflow₁, builtinOverflow, Bool.not_eq_false',
    decide_eq_true_iff]

theorem added_val (h : T.Represents (first.val + second.val)) :
    (first.added second).val = first.val + second.val := by
  rw [added_eq, clamp_of_represents h]

end operations

section wrapping
variable (value minimum maximum : SaturatingInteger T)

/-- The distance of two numbers, computed modulo the number of values of the unsigned type. -/
def integerAbsoluteDifference (first second : SaturatingInteger T) : Nat :=
  if T.isSigned ∧ ¬ (first.val < 0 ↔ second.val < 0) then
    (first.val.natAbs + second.val.natAbs) % 2 ^ T.bits
  else if first.val ≥ second.val then (first.val - second.val).toNat
  else (second.val - first.val).toNat

/-- The value wrapped into a range, and how often it had to be moved by the size of the range. -/
def wrappedAndCount : SaturatingInteger T × SatInt64 :=
  if minimum.val > maximum.val then (zero T, zero int64)
  else if minimum.val = T.minimum ∧ maximum.val = T.maximum then (value, zero int64)
  else
    let distance := integerAbsoluteDifference value minimum
    let valueCount := (integerAbsoluteDifference maximum minimum + 1) % 2 ^ T.bits
    let plainRemainder := distance % valueCount
    if value.val < minimum.val then
      let remainder := if plainRemainder = 0 then 0 else valueCount - plainRemainder
      let quotientMagnitude :=
        if plainRemainder ≠ 0 then distance / valueCount + 1 else distance / valueCount
      (.clamp T (minimum.val + remainder), .clamp int64 (0 - quotientMagnitude))
    else (.clamp T (minimum.val + plainRemainder), .clamp int64 (distance / valueCount : Nat))

theorem integerAbsoluteDifference_eq (first second : SaturatingInteger T) :
    integerAbsoluteDifference first second = (first.val - second.val).natAbs := by
  obtain ⟨hl, hu⟩ := first.represents
  obtain ⟨hl', hu'⟩ := second.represents
  have hpow := T.two_pow_bits
  rw [integerAbsoluteDifference]
  split_ifs with hsigns horder
  · have hrange := T.maximum_sub_minimum
    have hsum : first.val.natAbs + second.val.natAbs = (first.val - second.val).natAbs := by
      omega
    have hlt : (first.val - second.val).natAbs < 2 ^ T.bits := by
      have hcast : ((2 ^ T.bits : Nat) : Int) = 2 * T.half := by
        rw [← hpow]
        norm_cast
      omega
    rw [hsum, Nat.mod_eq_of_lt hlt]
  · omega
  · omega

/-- Where a number before the start of the range goes. -/
theorem wrap_below {d n : Nat} (hn : 0 < n) :
    (-d : Int) % n = ((if d % n = 0 then 0 else n - d % n : Nat) : Int) ∧
      (-d : Int) / n = 0 - ((if d % n ≠ 0 then d / n + 1 else d / n : Nat) : Int) := by
  have hlt := Nat.mod_lt d hn
  have hdiv := Nat.div_add_mod d n
  have hcast : (d : Int) = n * (d / n : Nat) + (d % n : Nat) := by exact_mod_cast hdiv.symm
  rw [and_comm, Int.ediv_emod_unique (by exact_mod_cast hn)]
  split_ifs with hz hnz
  · exact absurd hz hnz
  · rw [hcast, hz]
    refine ⟨?_, Int.le_refl _, by exact_mod_cast hn⟩
    push_cast
    ring
  · refine ⟨?_, Int.natCast_nonneg _, by omega⟩
    rw [Nat.cast_sub (Nat.le_of_lt hlt), hcast]
    push_cast
    ring

theorem wrappedAndCount_eq {n : Nat} (hn : (n : Int) = maximum.val - minimum.val + 1)
    (hpos : 0 < n) (hpart : ¬ (minimum.val = T.minimum ∧ maximum.val = T.maximum)) :
    (wrappedAndCount value minimum maximum).1.val =
        minimum.val + (value.val - minimum.val) % n ∧
      (wrappedAndCount value minimum maximum).2 =
        .clamp int64 ((value.val - minimum.val) / n) := by
  obtain ⟨hl, hu⟩ := minimum.represents
  obtain ⟨hl', hu'⟩ := maximum.represents
  have hcount : ((maximum.val - minimum.val).natAbs + 1) % 2 ^ T.bits = n := by
    have hcast : ((2 ^ T.bits : Nat) : Int) = 2 * T.half := by
      rw [← T.two_pow_bits]
      norm_cast
    have hrange := T.maximum_sub_minimum
    rw [Nat.mod_eq_of_lt] <;> omega
  have hclamp (v : Int) : (clamp T (minimum.val + v % n)).val = minimum.val + v % n := by
    have hnonneg := Int.emod_nonneg v (show (n : Int) ≠ 0 by omega)
    have hlt := Int.emod_lt_of_pos v (show 0 < (n : Int) by omega)
    apply clamp_of_represents
    constructor <;> omega
  rw [wrappedAndCount, if_neg (by omega), if_neg hpart]
  simp only [integerAbsoluteDifference_eq, hcount]
  by_cases hbelow : value.val < minimum.val
  · obtain ⟨hmod, hdiv⟩ := wrap_below (d := (value.val - minimum.val).natAbs) hpos
    have habs : -((value.val - minimum.val).natAbs : Int) = value.val - minimum.val := by omega
    rw [habs] at hmod hdiv
    rw [if_pos hbelow, hdiv, ← hmod]
    exact ⟨hclamp _, rfl⟩
  · have habs : ((value.val - minimum.val).natAbs : Int) = value.val - minimum.val := by omega
    rw [if_neg hbelow, Int.natCast_mod, Int.natCast_div, habs]
    exact ⟨hclamp _, rfl⟩

end wrapping
end Value
end ErbslandCore.Math
