import ErbslandCore.Math.SaturatingMathOneType

namespace ErbslandCore.Math
open Library NativeInteger
set_option autoImplicit true

/-- A sign and an unsigned magnitude of the width of the type; zero is positive. -/
structure SignedMagnitude (T : NativeInteger) where
  negative : Bool
  magnitude : Value T.makeUnsigned
  zero_positive : magnitude.val = 0 → negative = false

namespace SignedMagnitude

def zero (T : NativeInteger) : SignedMagnitude T where
  negative := false
  magnitude := ⟨0, Value.represents_zero _⟩
  zero_positive := fun _ => rfl

def fromSignAndMagnitude (negative : Bool) (magnitude : Value T.makeUnsigned) :
    SignedMagnitude T where
  negative := magnitude.val != 0 && negative
  magnitude := magnitude
  zero_positive := by
    intro h
    simp [h]

def fromValue (T : NativeInteger) (value : Value S) : Except Fault (SignedMagnitude T) :=
  if S.isSigned ∧ value.val < 0 then do
    let absolute ← toUnsignedAbsolute value
    return fromSignAndMagnitude true (.staticCast _ absolute.val)
  else return fromSignAndMagnitude false (.staticCast _ value.val)

variable (first second : SignedMagnitude T) (minimum maximum : Value T)

/-- The order of the represented integers. -/
def compare : Ordering :=
  if first.negative ≠ second.negative then if first.negative then .lt else .gt
  else if first.magnitude.val = second.magnitude.val then .eq
  else if first.negative then
    if first.magnitude.val < second.magnitude.val then .gt else .lt
  else if first.magnitude.val < second.magnitude.val then .lt else .gt

def isNegative : Bool := first.negative

def isZero : Bool := first.magnitude.val == 0

def negated : SignedMagnitude T := fromSignAndMagnitude (!first.negative) first.magnitude

def wouldSaturate : Except Fault Bool := do
  let lower ← fromValue T minimum
  if first.compare lower = .lt then return true
  else do
    let upper ← fromValue T maximum
    return first.compare upper = .gt

def toSaturatingValue : Except Fault (Value T) := do
  let lower ← fromValue T minimum
  if first.compare lower = .lt then return minimum
  else do
    let upper ← fromValue T maximum
    if first.compare upper = .gt then return maximum
    else if first.magnitude.val = 0 then return .staticCast T 0
    else if first.negative then
      if T.isSigned then do
        let minimumMagnitude ← shiftOne T.makeUnsigned (T.bits - 1)
        if first.magnitude.val = minimumMagnitude.val then return .lowest T
        else do
          let opposite ← arithmetic T.promoted (-(Value.staticCast T first.magnitude.val).val)
          return .staticCast T opposite.val
      else return minimum
    else return .staticCast T first.magnitude.val

/-- The flag of a magnitude overflow, and the result, which an overflow leaves as it was. -/
def addMagnitude (result : SignedMagnitude T) : Except Fault (Bool × SignedMagnitude T) :=
  if first.negative = second.negative then do
    let limit ← minus (.highest T.makeUnsigned) second.magnitude
    if first.magnitude.val > limit.val then return (true, result)
    else do
      let sum ← arithmetic T.makeUnsigned.promoted (first.magnitude.val + second.magnitude.val)
      return (false, fromSignAndMagnitude first.negative (.staticCast _ sum.val))
  else if first.magnitude.val ≥ second.magnitude.val then do
    let difference ← minus first.magnitude second.magnitude
    return (false, fromSignAndMagnitude first.negative (.staticCast _ difference.val))
  else do
    let difference ← minus second.magnitude first.magnitude
    return (false, fromSignAndMagnitude second.negative (.staticCast _ difference.val))

def multiplyMagnitude (result : SignedMagnitude T) : Except Fault (Bool × SignedMagnitude T) :=
  if first.magnitude.val = 0 ∨ second.magnitude.val = 0 then return (false, zero T)
  else do
    let limit ← dividedBy (.highest T.makeUnsigned) second.magnitude
    if first.magnitude.val > limit.val then return (true, result)
    else do
      let product ← arithmetic T.makeUnsigned.promoted (first.magnitude.val * second.magnitude.val)
      return (false, fromSignAndMagnitude (first.negative != second.negative)
        (.staticCast _ product.val))

def dividedMagnitude : Except Fault (SignedMagnitude T) :=
  if second.magnitude.val = 0 then .error .terminate
  else do
    let quotient ← dividedBy first.magnitude second.magnitude
    return fromSignAndMagnitude (first.negative != second.negative) (.staticCast _ quotient.val)

def moduloMagnitude : Except Fault (SignedMagnitude T) :=
  if second.magnitude.val = 0 then .error .terminate
  else do
    let rest ← remainder first.magnitude second.magnitude
    return fromSignAndMagnitude first.negative (.staticCast _ rest.val)

def saturatingAddBounded : Except Fault (Value T) := do
  let (overflow, result) ← first.addMagnitude second (zero T)
  if overflow then return if first.negative then minimum else maximum
  else result.toSaturatingValue minimum maximum

def wouldAddBoundedSaturate : Except Fault Bool := do
  let (overflow, result) ← first.addMagnitude second (zero T)
  if overflow then return true
  else result.wouldSaturate minimum maximum

def saturatingMultiplyBounded : Except Fault (Value T) := do
  let (overflow, result) ← first.multiplyMagnitude second (zero T)
  if overflow then return if first.negative != second.negative then minimum else maximum
  else result.toSaturatingValue minimum maximum

def wouldMultiplyBoundedSaturate : Except Fault Bool := do
  let (overflow, result) ← first.multiplyMagnitude second (zero T)
  if overflow then return true
  else result.wouldSaturate minimum maximum

/-- A difference is the sum with the negated operand. -/
def saturatingSubtractBounded : Except Fault (Value T) :=
  first.saturatingAddBounded second.negated minimum maximum

def willSubtractBoundedSaturate : Except Fault Bool :=
  first.wouldAddBoundedSaturate second.negated minimum maximum

def saturatingDivideBounded : Except Fault (Value T) := do
  let quotient ← first.dividedMagnitude second
  quotient.toSaturatingValue minimum maximum

def wouldDivideBoundedSaturate : Except Fault Bool := do
  let quotient ← first.dividedMagnitude second
  quotient.wouldSaturate minimum maximum

def saturatingModuloBounded : Except Fault (Value T) := do
  let rest ← first.moduloMagnitude second
  rest.toSaturatingValue minimum maximum

def wouldModuloBoundedSaturate : Except Fault Bool := do
  let rest ← first.moduloMagnitude second
  rest.wouldSaturate minimum maximum

/-- The represented integer. -/
def toInt : Int := if first.negative then -first.magnitude.val else first.magnitude.val

theorem unsigned_range (v : Value T.makeUnsigned) : 0 ≤ v.val ∧ v.val ≤ 2 * T.half - 1 := by
  have hmin := minimum_unsigned (T := T.makeUnsigned) rfl
  have hmax := maximum_unsigned (T := T.makeUnsigned) rfl
  rw [half_makeUnsigned] at hmax
  obtain ⟨hl, hu⟩ := v.represents
  exact ⟨by omega, by omega⟩

theorem unsigned_represents {v : Int} (hl : 0 ≤ v) (hu : v ≤ 2 * T.half - 1) :
    T.makeUnsigned.Represents v := by
  have hmin := minimum_unsigned (T := T.makeUnsigned) rfl
  have hmax := maximum_unsigned (T := T.makeUnsigned) rfl
  rw [half_makeUnsigned] at hmax
  exact ⟨by omega, by omega⟩

theorem highest_unsigned (T : NativeInteger) :
    (Value.highest T.makeUnsigned).val = 2 * T.half - 1 :=
  maximum_unsigned (T := T.makeUnsigned) rfl

theorem fromSignAndMagnitude_toInt (negative : Bool) (magnitude : Value T.makeUnsigned) :
    (fromSignAndMagnitude negative magnitude).toInt =
      if negative then -magnitude.val else magnitude.val := by
  cases negative with
  | false => simp [toInt, fromSignAndMagnitude]
  | true =>
    by_cases h : magnitude.val = 0
    · simp [toInt, fromSignAndMagnitude, h]
    · simp [toInt, fromSignAndMagnitude, h]

/-- A value is never a negated zero, so its sign is that of the integer. -/
theorem toInt_cases (a : SignedMagnitude T) :
    a.negative = true ∧ 0 < a.magnitude.val ∧ a.toInt = -a.magnitude.val ∨
      a.negative = false ∧ 0 ≤ a.magnitude.val ∧ a.toInt = a.magnitude.val := by
  have hr := unsigned_range a.magnitude
  have hz := a.zero_positive
  cases h : a.negative with
  | false => exact .inr ⟨rfl, hr.1, by simp [toInt, h]⟩
  | true =>
    refine .inl ⟨rfl, ?_, by simp [toInt, h]⟩
    rcases hr.1.lt_or_eq with hp | he
    · exact hp
    · rw [hz he.symm] at h
      cases h

theorem fromValue_eq {S T : NativeInteger} (h : S.size = T.size) (value : Value S) :
    ∃ a, fromValue T value = .ok a ∧ a.toInt = value.val := by
  have hh := half_eq h
  obtain ⟨hl, hu⟩ := value.represents
  unfold fromValue
  split
  case isTrue hn =>
    obtain ⟨absolute, he, ha⟩ := toUnsignedAbsolute_eq value
    have hmin := minimum_signed hn.1
    rw [abs_of_neg hn.2] at ha
    rw [he, ok_bind]
    refine ⟨_, rfl, ?_⟩
    rw [fromSignAndMagnitude_toInt, if_pos rfl, Value.staticCast_val, ha]
    · exact neg_neg _
    · exact unsigned_represents (by omega) (by have := T.half_pos; omega)
  case isFalse hn =>
    have hnonneg : 0 ≤ value.val := by
      cases hs : S.isSigned with
      | false => rw [minimum_unsigned hs] at hl; exact hl
      | true => exact not_lt.mp fun hlt => hn ⟨hs, hlt⟩
    have hle : value.val ≤ 2 * T.half - 1 := by
      have hp := S.half_pos
      rcases bounds S with ⟨_, _, hm⟩ | ⟨_, _, hm⟩ <;> omega
    refine ⟨_, rfl, ?_⟩
    rw [fromSignAndMagnitude_toInt, if_neg (by simp)]
    exact Value.staticCast_val (unsigned_represents hnonneg hle)

theorem compare_lt (a b : SignedMagnitude T) : a.compare b = .lt ↔ a.toInt < b.toInt := by
  unfold compare
  rcases toInt_cases a with ⟨ha, hpa, hea⟩ | ⟨ha, hpa, hea⟩ <;>
    rcases toInt_cases b with ⟨hb, hpb, heb⟩ | ⟨hb, hpb, heb⟩ <;>
    simp only [ha, hb, hea, heb] <;> grind

theorem compare_gt (a b : SignedMagnitude T) : a.compare b = .gt ↔ b.toInt < a.toInt := by
  unfold compare
  rcases toInt_cases a with ⟨ha, hpa, hea⟩ | ⟨ha, hpa, hea⟩ <;>
    rcases toInt_cases b with ⟨hb, hpb, heb⟩ | ⟨hb, hpb, heb⟩ <;>
    simp only [ha, hb, hea, heb] <;> grind

theorem negated_toInt (a : SignedMagnitude T) : a.negated.toInt = -a.toInt := by
  rw [negated, fromSignAndMagnitude_toInt]
  rcases toInt_cases a with ⟨ha, _, he⟩ | ⟨ha, _, he⟩ <;> simp [ha, he]

/-- The nearest value of a range of the type. -/
def clampBetween (minimum maximum : Value T) (v : Int) : Value T where
  val := max minimum.val (min v maximum.val)
  represents := by
    obtain ⟨hl, hu⟩ := minimum.represents
    obtain ⟨hl', hu'⟩ := maximum.represents
    constructor <;> omega

theorem clampBetween_below {minimum maximum : Value T} {v : Int} (h : v < minimum.val) :
    clampBetween minimum maximum v = minimum :=
  Value.ext (max_eq_left (min_le_of_left_le h.le))

theorem clampBetween_above {minimum maximum : Value T} {v : Int}
    (hr : minimum.val ≤ maximum.val) (h : maximum.val < v) :
    clampBetween minimum maximum v = maximum := by
  apply Value.ext
  show max minimum.val (min v maximum.val) = maximum.val
  rw [min_eq_right h.le, max_eq_right hr]

theorem clampBetween_within {minimum maximum : Value T} {v : Int} (hl : minimum.val ≤ v)
    (hu : v ≤ maximum.val) : (clampBetween minimum maximum v).val = v := by
  show max minimum.val (min v maximum.val) = v
  rw [min_eq_left hu, max_eq_right hl]

/-- Clamping changes exactly the integers outside the range. -/
theorem clampBetween_ne {minimum maximum : Value T} (hr : minimum.val ≤ maximum.val) (v : Int) :
    (clampBetween minimum maximum v).val ≠ v ↔ v < minimum.val ∨ maximum.val < v := by
  constructor
  · intro hne
    by_contra hn
    rw [not_or, not_lt, not_lt] at hn
    exact hne (clampBetween_within hn.1 hn.2)
  · rintro (h | h)
    · rw [clampBetween_below h]
      exact h.ne'
    · rw [clampBetween_above hr h]
      exact h.ne

theorem wouldSaturate_eq {minimum maximum : Value T} (hr : minimum.val ≤ maximum.val)
    (a : SignedMagnitude T) : a.wouldSaturate minimum maximum =
      .ok (decide ((clampBetween minimum maximum a.toInt).val ≠ a.toInt)) := by
  obtain ⟨lower, hlower, hl⟩ := fromValue_eq rfl minimum
  obtain ⟨upper, hupper, hu⟩ := fromValue_eq rfl maximum
  rw [decide_eq_decide.mpr (clampBetween_ne hr a.toInt)]
  simp only [wouldSaturate, hlower, hupper, ok_bind, compare_lt, compare_gt, hl, hu]
  split
  case isTrue h => rw [decide_eq_true (.inl h)]; rfl
  case isFalse h => exact congrArg Except.ok (decide_eq_decide.mpr (by tauto))

/-- The magnitude of the minimum of a signed type. -/
theorem minimumMagnitude_eq (T : NativeInteger) :
    ∃ m, shiftOne T.makeUnsigned (T.bits - 1) = .ok m ∧ m.val = T.half := by
  have hp := T.half_pos
  have hrep : T.makeUnsigned.Represents T.half := unsigned_represents (by omega) (by omega)
  have hbits : T.bits - 1 < T.makeUnsigned.promoted.bits := by
    have hs := T.size_valid
    unfold promoted
    split
    · show T.size * 8 - 1 < 32
      rename_i hlt
      have : T.size < 4 := hlt
      omega
    · show T.size * 8 - 1 < T.size * 8
      omega
  rw [shiftOne, if_pos hbits]
  exact ⟨_, rfl, Value.staticCast_val hrep.promoted⟩

/-- The conversion back into the type is exact within the range. -/
theorem toSaturatingValue_eq {minimum maximum : Value T} (hr : minimum.val ≤ maximum.val)
    (a : SignedMagnitude T) :
    a.toSaturatingValue minimum maximum = .ok (clampBetween minimum maximum a.toInt) := by
  obtain ⟨lower, hlower, hl⟩ := fromValue_eq rfl minimum
  obtain ⟨upper, hupper, hu⟩ := fromValue_eq rfl maximum
  obtain ⟨least, hleast, hm⟩ := minimumMagnitude_eq T
  have hmin := minimum.represents.1
  have hmax := maximum.represents.2
  have hp := T.half_pos
  simp only [toSaturatingValue, hlower, hupper, hleast, ok_bind, compare_lt, compare_gt, hl, hu]
  split
  case isTrue h => rw [clampBetween_below h]; rfl
  case isFalse hge =>
    split
    case isTrue h => rw [clampBetween_above hr h]; rfl
    case isFalse hle =>
      have hc : (clampBetween minimum maximum a.toInt).val = a.toInt :=
        clampBetween_within (not_lt.mp hge) (not_lt.mp hle)
      have hrep : T.Represents a.toInt := by
        rw [← hc]
        exact (clampBetween minimum maximum a.toInt).represents
      split
      case isTrue hz =>
        have h0 : a.toInt = 0 := by
          rcases toInt_cases a with ⟨_, _, he⟩ | ⟨_, _, he⟩ <;> omega
        refine congrArg Except.ok (Value.ext ?_)
        rw [hc, h0]
        exact Value.staticCast_val (Value.represents_zero T)
      case isFalse hz =>
        rcases toInt_cases a with ⟨hneg, hpos, he⟩ | ⟨hneg, hpos, he⟩
        · rw [if_pos hneg]
          -- An integer below zero lies only in the range of a signed type.
          rcases bounds T with ⟨hs, hl', hu'⟩ | ⟨hs, hl', hu'⟩
          · rw [if_pos hs]
            split
            case isTrue heq =>
              refine congrArg Except.ok (Value.ext ?_)
              rw [hc, Value.lowest_val]
              omega
            case isFalse hne =>
              obtain ⟨hrl, hru⟩ := hrep
              have hcast : (Value.staticCast T a.magnitude.val).val = a.magnitude.val :=
                Value.staticCast_val ⟨by omega, by omega⟩
              have hrep' : T.Represents (-a.magnitude.val) := ⟨by omega, by omega⟩
              obtain ⟨opposite, ho, hv⟩ := arithmetic_of_represents hrep'.promoted
              rw [hcast, ho]
              refine congrArg Except.ok (Value.ext ?_)
              rw [hc, he, hv]
              exact Value.staticCast_val hrep'
          · omega
        · rw [if_neg (by simp [hneg])]
          refine congrArg Except.ok (Value.ext ?_)
          rw [hc, ← he]
          exact Value.staticCast_val hrep

/-- What an operation on magnitudes leaves: the exact integer, or the side it overflows to. -/
def Exact (x : Except Fault (Bool × SignedMagnitude T)) (downward : Bool) (v : Int) : Prop :=
  (∃ r, x = .ok (false, r) ∧ r.toInt = v) ∨
    ∃ r, x = .ok (true, r) ∧ if downward then v < T.minimum else T.maximum < v

/-- A magnitude in the unsigned range, computed by an operator, with its sign. -/
theorem exact_of_arithmetic (negative : Bool) {v : Int} (hl : 0 ≤ v)
    (hu : v ≤ 2 * T.half - 1) : ∃ r, arithmetic T.makeUnsigned.promoted v = .ok r ∧
      (fromSignAndMagnitude (T := T) negative (.staticCast _ r.val)).toInt =
        if negative then -v else v := by
  have hrep : T.makeUnsigned.Represents v := unsigned_represents hl hu
  obtain ⟨r, he, hv⟩ := arithmetic_of_represents hrep.promoted
  refine ⟨r, he, ?_⟩
  rw [fromSignAndMagnitude_toInt, hv, Value.staticCast_val hrep]

theorem addMagnitude_exact (a b result : SignedMagnitude T) :
    Exact (a.addMagnitude b result) a.negative (a.toInt + b.toInt) := by
  obtain ⟨hal, hau⟩ := unsigned_range a.magnitude
  obtain ⟨hbl, hbu⟩ := unsigned_range b.magnitude
  have hh := highest_unsigned T
  have hp := T.half_pos
  unfold addMagnitude
  split
  case isTrue hs =>
    have hlimit : T.makeUnsigned.promoted.Represents
        ((Value.highest T.makeUnsigned).val - b.magnitude.val) :=
      (unsigned_represents (by omega) (by omega)).promoted
    obtain ⟨limit, he, hv⟩ := minus_eq hlimit
    rw [he, ok_bind]
    split
    case isTrue hgt =>
      refine .inr ⟨_, rfl, ?_⟩
      rcases toInt_cases a with ⟨ha, _, hea⟩ | ⟨ha, _, hea⟩ <;>
        rcases toInt_cases b with ⟨hb, _, heb⟩ | ⟨hb, _, heb⟩ <;>
        rcases bounds T with ⟨_, hl, hu⟩ | ⟨_, hl, hu⟩ <;>
        simp only [ha, hb, hea, heb, reduceCtorEq, if_true, if_false] at hs ⊢ <;> omega
    case isFalse hle =>
      obtain ⟨sum, hsum, hr⟩ := exact_of_arithmetic a.negative
        (T := T) (v := a.magnitude.val + b.magnitude.val) (by omega) (by omega)
      rw [hsum]
      refine .inl ⟨_, rfl, hr.trans ?_⟩
      simp only [toInt, ← hs]
      split <;> omega
  case isFalse hs =>
    have difference (negative : Bool) (x y : Value T.makeUnsigned) (h : y.val ≤ x.val) :
        ∃ r, minus x y = .ok r ∧
          (fromSignAndMagnitude (T := T) negative (.staticCast _ r.val)).toInt =
            if negative then -(x.val - y.val) else x.val - y.val :=
      exact_of_arithmetic negative (by omega)
        (by have := unsigned_range x; have := unsigned_range y; omega)
    split
    case isTrue hge =>
      obtain ⟨r, hd, hr⟩ := difference a.negative a.magnitude b.magnitude hge
      rw [hd]
      refine .inl ⟨_, rfl, hr.trans ?_⟩
      rcases toInt_cases a with ⟨ha, _, hea⟩ | ⟨ha, _, hea⟩ <;>
        rcases toInt_cases b with ⟨hb, _, heb⟩ | ⟨hb, _, heb⟩ <;>
        simp only [ha, hb, hea, heb, not_true, reduceCtorEq, if_true, if_false] at hs ⊢ <;>
        omega
    case isFalse hlt =>
      obtain ⟨r, hd, hr⟩ := difference b.negative b.magnitude a.magnitude (by omega)
      rw [hd]
      refine .inl ⟨_, rfl, hr.trans ?_⟩
      rcases toInt_cases a with ⟨ha, _, hea⟩ | ⟨ha, _, hea⟩ <;>
        rcases toInt_cases b with ⟨hb, _, heb⟩ | ⟨hb, _, heb⟩ <;>
        simp only [ha, hb, hea, heb, not_true, reduceCtorEq, if_true, if_false] at hs ⊢ <;>
        omega

theorem multiplyMagnitude_exact (a b result : SignedMagnitude T) :
    Exact (a.multiplyMagnitude b result) (a.negative != b.negative) (a.toInt * b.toInt) := by
  obtain ⟨hal, hau⟩ := unsigned_range a.magnitude
  obtain ⟨hbl, hbu⟩ := unsigned_range b.magnitude
  have hh := highest_unsigned T
  have hp := T.half_pos
  have hsign : a.toInt * b.toInt = if a.negative != b.negative then
      -(a.magnitude.val * b.magnitude.val) else a.magnitude.val * b.magnitude.val := by
    rcases toInt_cases a with ⟨ha, _, hea⟩ | ⟨ha, _, hea⟩ <;>
      rcases toInt_cases b with ⟨hb, _, heb⟩ | ⟨hb, _, heb⟩ <;>
      simp [ha, hb, hea, heb]
  unfold multiplyMagnitude
  split
  case isTrue hz =>
    refine .inl ⟨_, rfl, ?_⟩
    rw [hsign, mul_eq_zero.mpr hz, neg_zero, ite_self]
    rfl
  case isFalse hz =>
    rw [not_or] at hz
    have hb : 0 < b.magnitude.val := by omega
    obtain ⟨limit, he, hv⟩ := dividedBy_eq (.highest T.makeUnsigned) b.magnitude hz.2 nofun
    rw [hh, Int.tdiv_eq_ediv_of_nonneg (by omega)] at hv
    rw [he, ok_bind]
    split
    case isTrue hgt =>
      rw [hv] at hgt
      have hover := (Int.ediv_lt_iff_lt_mul hb).mp hgt
      refine .inr ⟨_, rfl, ?_⟩
      rw [hsign]
      rcases bounds T with ⟨_, hl, hu⟩ | ⟨_, hl, hu⟩ <;> split <;> omega
    case isFalse hle =>
      rw [hv, not_lt] at hle
      have hin := (Int.le_ediv_iff_mul_le hb).mp hle
      obtain ⟨product, hproduct, hr⟩ := exact_of_arithmetic (a.negative != b.negative)
        (T := T) (v := a.magnitude.val * b.magnitude.val) (by positivity) hin
      rw [hproduct]
      exact .inl ⟨_, rfl, hr.trans hsign.symm⟩

/-- An exact operation on magnitudes, converted back, is clamped to the range. -/
theorem Exact.saturating {x : Except Fault (Bool × SignedMagnitude T)} {v : Int}
    {minimum maximum : Value T} (hr : minimum.val ≤ maximum.val) (h : Exact x downward v) :
    (do let (overflow, result) ← x
        if overflow then return if downward then minimum else maximum
        else result.toSaturatingValue minimum maximum) =
      .ok (clampBetween minimum maximum v) := by
  have hmin := minimum.represents.1
  have hmax := maximum.represents.2
  obtain ⟨r, rfl, rfl⟩ | ⟨r, rfl, hv⟩ := h
  · exact toSaturatingValue_eq hr r
  · cases downward with
    | true =>
      have hv' : v < T.minimum := hv
      rw [clampBetween_below (by omega)]
      rfl
    | false =>
      have hv' : T.maximum < v := hv
      rw [clampBetween_above hr (by omega)]
      rfl

/-- Its predicate tells whether clamping changes the integer. -/
theorem Exact.saturates {x : Except Fault (Bool × SignedMagnitude T)} {v : Int}
    {minimum maximum : Value T} (hr : minimum.val ≤ maximum.val) (h : Exact x downward v) :
    (do let (overflow, result) ← x
        if overflow then return true
        else result.wouldSaturate minimum maximum) =
      .ok (decide ((clampBetween minimum maximum v).val ≠ v)) := by
  have hmin := minimum.represents.1
  have hmax := maximum.represents.2
  obtain ⟨r, rfl, rfl⟩ | ⟨r, rfl, hv⟩ := h
  · exact wouldSaturate_eq hr r
  · have hout : v < minimum.val ∨ maximum.val < v := by
      cases downward with
      | true => exact .inl (lt_of_lt_of_le hv hmin)
      | false => exact .inr (lt_of_le_of_lt hmax hv)
    rw [decide_eq_true ((clampBetween_ne hr v).mpr hout)]
    rfl

/-- Sums, differences and products are the exact integers, clamped to the range, and each
predicate tells whether clamping changes the integer. No evaluation has a fault. -/
theorem bounded_operations_exact (first second : SignedMagnitude T) (minimum maximum : Value T)
    (hr : minimum.val ≤ maximum.val) :
    (first.toInt = 0 → first.negative = false) ∧
    first.saturatingAddBounded second minimum maximum =
      .ok (clampBetween minimum maximum (first.toInt + second.toInt)) ∧
    first.wouldAddBoundedSaturate second minimum maximum =
      .ok (decide ((clampBetween minimum maximum (first.toInt + second.toInt)).val ≠
        first.toInt + second.toInt)) ∧
    first.saturatingSubtractBounded second minimum maximum =
      .ok (clampBetween minimum maximum (first.toInt - second.toInt)) ∧
    first.willSubtractBoundedSaturate second minimum maximum =
      .ok (decide ((clampBetween minimum maximum (first.toInt - second.toInt)).val ≠
        first.toInt - second.toInt)) ∧
    first.saturatingMultiplyBounded second minimum maximum =
      .ok (clampBetween minimum maximum (first.toInt * second.toInt)) ∧
    first.wouldMultiplyBoundedSaturate second minimum maximum =
      .ok (decide ((clampBetween minimum maximum (first.toInt * second.toInt)).val ≠
        first.toInt * second.toInt)) ∧
    first.toSaturatingValue minimum maximum = .ok (clampBetween minimum maximum first.toInt) ∧
    first.wouldSaturate minimum maximum =
      .ok (decide ((clampBetween minimum maximum first.toInt).val ≠ first.toInt)) := by
  have hadd := addMagnitude_exact first second (zero T)
  have hsub := addMagnitude_exact first second.negated (zero T)
  have hmul := multiplyMagnitude_exact first second (zero T)
  rw [negated_toInt, ← sub_eq_add_neg] at hsub
  refine ⟨?_, hadd.saturating hr, hadd.saturates hr, hsub.saturating hr, hsub.saturates hr,
    hmul.saturating hr, hmul.saturates hr, toSaturatingValue_eq hr first, wouldSaturate_eq hr first⟩
  intro h0
  rcases toInt_cases first with ⟨_, hp, he⟩ | ⟨hn, _, _⟩
  · omega
  · exact hn

/-- The minimum of a type of one byte is the product of two magnitudes of one sign each. -/
theorem bounded_operations_exact_minimum :
    (fromSignAndMagnitude true (Value.staticCast { isSigned := false, size := 1 } 16) :
      SignedMagnitude { isSigned := true, size := 1 }).saturatingMultiplyBounded
      (fromSignAndMagnitude false (Value.staticCast _ 8)) (.lowest _) (.highest _) =
        .ok (clampBetween (.lowest _) (.highest _) (-128)) :=
  (bounded_operations_exact (fromSignAndMagnitude true _) (fromSignAndMagnitude false _)
    (.lowest _) (.highest _) (by decide)).2.2.2.2.2.1

theorem magnitude_ne_zero {a : SignedMagnitude T} (hz : a.toInt ≠ 0) : a.magnitude.val ≠ 0 := by
  rcases toInt_cases a with ⟨_, _, he⟩ | ⟨_, _, he⟩ <;> omega

theorem dividedMagnitude_eq (first second : SignedMagnitude T) (hz : second.toInt ≠ 0) :
    ∃ r, first.dividedMagnitude second = .ok r ∧ r.toInt = first.toInt.tdiv second.toInt := by
  have hz' := magnitude_ne_zero hz
  obtain ⟨q, he, hv⟩ := dividedBy_eq first.magnitude second.magnitude hz' nofun
  have hrep : T.makeUnsigned.Represents (first.magnitude.val.tdiv second.magnitude.val) :=
    tdiv_represents hz' (fun _ => (unsigned_range second.magnitude).1) nofun
  rw [dividedMagnitude, if_neg hz', he]
  refine ⟨_, rfl, ?_⟩
  rw [fromSignAndMagnitude_toInt, Value.staticCast_val (hv ▸ hrep), hv]
  rcases toInt_cases first with ⟨ha, _, hea⟩ | ⟨ha, _, hea⟩ <;>
    rcases toInt_cases second with ⟨hb, _, heb⟩ | ⟨hb, _, heb⟩ <;>
    simp [ha, hb, hea, heb]

theorem moduloMagnitude_eq (first second : SignedMagnitude T) (hz : second.toInt ≠ 0) :
    ∃ r, first.moduloMagnitude second = .ok r ∧ r.toInt = first.toInt.tmod second.toInt := by
  have hz' := magnitude_ne_zero hz
  obtain ⟨q, he, -⟩ := dividedBy_eq first.magnitude second.magnitude hz' nofun
  have hrep := tmod_represents first.magnitude second.magnitude.val
  obtain ⟨m, hm, hv⟩ := arithmetic_of_represents hrep.promoted
  rw [moduloMagnitude, if_neg hz', remainder, he, ok_bind, hm]
  refine ⟨_, rfl, ?_⟩
  rw [fromSignAndMagnitude_toInt, Value.staticCast_val (hv ▸ hrep), hv]
  rcases toInt_cases first with ⟨ha, _, hea⟩ | ⟨ha, _, hea⟩ <;>
    rcases toInt_cases second with ⟨hb, _, heb⟩ | ⟨hb, _, heb⟩ <;>
    simp [ha, hea, heb]

/-- The quotient is truncated, and the remainder has the sign of the dividend. -/
theorem bounded_division_exact (first second : SignedMagnitude T) (minimum maximum : Value T)
    (hr : minimum.val ≤ maximum.val) (hz : second.toInt ≠ 0) :
    first.saturatingDivideBounded second minimum maximum =
      .ok (clampBetween minimum maximum (first.toInt.tdiv second.toInt)) ∧
    first.wouldDivideBoundedSaturate second minimum maximum =
      .ok (decide ((clampBetween minimum maximum (first.toInt.tdiv second.toInt)).val ≠
        first.toInt.tdiv second.toInt)) ∧
    first.saturatingModuloBounded second minimum maximum =
      .ok (clampBetween minimum maximum (first.toInt.tmod second.toInt)) ∧
    first.wouldModuloBoundedSaturate second minimum maximum =
      .ok (decide ((clampBetween minimum maximum (first.toInt.tmod second.toInt)).val ≠
        first.toInt.tmod second.toInt)) := by
  obtain ⟨q, hq, hqv⟩ := dividedMagnitude_eq first second hz
  obtain ⟨m, hm, hmv⟩ := moduloMagnitude_eq first second hz
  rw [saturatingDivideBounded, wouldDivideBoundedSaturate, saturatingModuloBounded,
    wouldModuloBoundedSaturate, hq, hm, ← hqv, ← hmv]
  exact ⟨toSaturatingValue_eq hr q, wouldSaturate_eq hr q, toSaturatingValue_eq hr m,
    wouldSaturate_eq hr m⟩

end SignedMagnitude
end ErbslandCore.Math
