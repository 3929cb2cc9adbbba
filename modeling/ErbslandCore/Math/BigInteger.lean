import ErbslandCore.Library.Except
import ErbslandCore.Math.BigUnsignedInteger

namespace ErbslandCore.Math
open Library Library.Positional
set_option autoImplicit true

/-- A sign and a magnitude, as the operations of a signed integer change them. -/
structure SignAndMagnitude where
  negative : Bool
  magnitude : BigUnsignedInteger
  deriving DecidableEq

namespace SignAndMagnitude

def normalizeSign (s : SignAndMagnitude) : SignAndMagnitude :=
  if s.magnitude.isZero then { s with negative := false } else s

def fromSignAndMagnitude (negative : Bool) (magnitude : BigUnsignedInteger) : SignAndMagnitude :=
  normalizeSign ⟨negative, magnitude⟩

def negated (s : SignAndMagnitude) : SignAndMagnitude :=
  fromSignAndMagnitude (!s.negative) s.magnitude

def compare (s t : SignAndMagnitude) : Ordering :=
  if s.negative ≠ t.negative then
    if s.negative then .lt else .gt
  else
    let magnitudeOrdering := s.magnitude.compare t.magnitude
    if ¬ s.negative ∨ magnitudeOrdering = .eq then magnitudeOrdering
    else if magnitudeOrdering = .lt then .gt else .lt

def addAssign (s t : SignAndMagnitude) : Except BigIntegerError SignAndMagnitude :=
  if s.negative = t.negative then .ok { s with magnitude := s.magnitude.add t.magnitude }
  else match s.magnitude.compare t.magnitude with
    | .eq => .ok ⟨false, .zero⟩
    | .gt => do return { s with magnitude := ← s.magnitude.subtract t.magnitude }
    | .lt => do return ⟨t.negative, ← t.magnitude.subtract s.magnitude⟩

def subtractAssign (s t : SignAndMagnitude) : Except BigIntegerError SignAndMagnitude :=
  s.addAssign t.negated

def multiplyAssign (s t : SignAndMagnitude) : SignAndMagnitude :=
  normalizeSign ⟨s.negative != t.negative, s.magnitude.multiply t.magnitude⟩

def toString (s : SignAndMagnitude) : List Nat :=
  if ¬ s.negative then s.magnitude.toString else 0x2D :: s.magnitude.toString

/-- The digits of the magnitude read, its sign, and whether there was a digit. -/
def parseLoop : List Nat → List Nat → Bool → Bool → Bool → Option (List Nat × Bool × Bool)
  | [], magnitude, negative, _, hasDigit => some (magnitude, negative, hasDigit)
  | character :: text, magnitude, negative, isFirst, hasDigit =>
    if isFirst ∧ (character = 0x2B ∨ character = 0x2D) then
      parseLoop text magnitude (character = 0x2D) false hasDigit
    else match Text.digitValue 10 character with
      | none => none
      | some digitValue =>
        parseLoop text (Digits.addSmall (Digits.multiplySmall magnitude 10) digitValue) negative
          false true

/-- Behind its first character the text of a signed integer is read as that of an unsigned one. -/
theorem parseLoop_eq {result : List Nat} (sign : Bool)
    (h : isFirst = true → text.head? ≠ some 0x2B ∧ text.head? ≠ some 0x2D) :
    parseLoop text result sign isFirst hasDigit =
      (Digits.parseLoop text result isFirst hasDigit).map fun read => (read.1, sign, read.2) := by
  induction text generalizing result isFirst hasDigit with
  | nil => rfl
  | cons character text ih =>
    have hnone : ∀ c : Nat, c = 0x2B ∨ c = 0x2D → ¬ (isFirst = true ∧ character = c) := by
      rintro c hc ⟨hfirst, rfl⟩
      obtain ⟨hplus, hminus⟩ := h hfirst
      rcases hc with rfl | rfl
      · exact hplus rfl
      · exact hminus rfl
    have hsign : ¬ (isFirst = true ∧ (character = 0x2B ∨ character = 0x2D)) := by
      rintro ⟨hfirst, hc⟩
      exact hnone character hc ⟨hfirst, rfl⟩
    rw [parseLoop, Digits.parseLoop, if_neg hsign, if_neg (hnone 0x2B (.inl rfl))]
    cases Text.digitValue 10 character with
    | none => rfl
    | some digit => exact ih (fun h => absurd h (by decide))

theorem parseLoop_canonical {result : List Nat} {sign : Bool}
    (h : parseLoop text result sign isFirst hasDigit = some (digits, last))
    (hm : Canonical cDigitBase result) : Canonical cDigitBase digits := by
  cases text with
  | nil =>
    rw [parseLoop, Option.some.injEq, Prod.mk.injEq] at h
    exact h.1 ▸ hm
  | cons character text =>
    by_cases hsign : isFirst = true ∧ (character = 0x2B ∨ character = 0x2D)
    · rw [parseLoop, if_pos hsign, parseLoop_eq _ (absurd · Bool.false_ne_true), Option.map_eq_some_iff] at h
      obtain ⟨read, hread, heq⟩ := h
      rw [Prod.mk.injEq] at heq
      exact heq.1 ▸ Digits.parseLoop_canonical hread hm
    · rw [parseLoop_eq, Option.map_eq_some_iff] at h
      · obtain ⟨read, hread, heq⟩ := h
        rw [Prod.mk.injEq] at heq
        exact heq.1 ▸ Digits.parseLoop_canonical hread hm
      · intro hfirst
        rw [List.head?_cons, ne_eq, ne_eq, Option.some.injEq, Option.some.injEq]
        exact not_or.mp fun hc => hsign ⟨hfirst, hc⟩

def fromString (text : List Nat) : Option SignAndMagnitude :=
  match h : parseLoop text [] false true false with
  | some (digits, negative, true) =>
    some (fromSignAndMagnitude negative ⟨digits, parseLoop_canonical h (canonical_nil _)⟩)
  | _ => none

/-- Zero has no sign. -/
def Normalized (s : SignAndMagnitude) : Prop := s.negative = true → s.magnitude.isZero = false

instance (s : SignAndMagnitude) : Decidable s.Normalized :=
  inferInstanceAs (Decidable (_ → _))

/-- The integer that a sign and a magnitude denote. -/
def toInt (s : SignAndMagnitude) : Int :=
  if s.negative then -(s.magnitude.toNat : Int) else s.magnitude.toNat

theorem normalizeSign_normalized (s : SignAndMagnitude) : s.normalizeSign.Normalized := by
  rw [normalizeSign]
  split
  case isTrue => nofun
  case isFalse hz => exact fun _ => Bool.eq_false_iff.mpr hz

theorem toInt_normalizeSign (s : SignAndMagnitude) : s.normalizeSign.toInt = s.toInt := by
  rw [normalizeSign]
  split
  case isTrue hz =>
    rw [toInt, toInt, BigUnsignedInteger.isZero_iff.mp hz, Nat.cast_zero, neg_zero, ite_self, ite_self]
  case isFalse => rfl

theorem normalizeSign_eq {s : SignAndMagnitude} (h : s.Normalized) : s.normalizeSign = s := by
  rw [normalizeSign]
  split
  case isTrue hz =>
    obtain ⟨negative, magnitude⟩ := s
    cases negative with
    | false => rfl
    | true => exact absurd hz (Bool.eq_false_iff.mp (h rfl))
  case isFalse => rfl

theorem toInt_negated (s : SignAndMagnitude) : s.negated.toInt = -s.toInt := by
  rw [negated, fromSignAndMagnitude, toInt_normalizeSign, toInt, toInt]
  cases s.negative with
  | false => rfl
  | true => exact (neg_neg _).symm

theorem toInt_nonneg {s : SignAndMagnitude} (h : s.negative = false) : 0 ≤ s.toInt := by
  rw [toInt, if_neg (Bool.eq_false_iff.mp h)]
  exact Int.natCast_nonneg _

theorem toInt_neg {s : SignAndMagnitude} (hs : s.Normalized) (h : s.negative = true) :
    s.toInt < 0 := by
  have hne : s.magnitude.toNat ≠ 0 :=
    fun hz => Bool.eq_false_iff.mp (hs h) (BigUnsignedInteger.isZero_iff.mpr hz)
  rw [toInt, if_pos h]
  omega

/-- The sign and the magnitude of a value are determined by the integer. -/
theorem ext_toInt {s t : SignAndMagnitude} (hs : s.Normalized) (ht : t.Normalized)
    (h : s.toInt = t.toInt) : s = t := by
  obtain ⟨sn, sm⟩ := s
  obtain ⟨tn, tm⟩ := t
  cases sn with
  | false =>
    cases tn with
    | false =>
      obtain rfl : sm = tm := BigUnsignedInteger.ext_toNat (Int.ofNat_inj.mp h)
      rfl
    | true => exact absurd (h ▸ toInt_nonneg rfl) (Int.not_le.mpr (toInt_neg ht rfl))
  | true =>
    cases tn with
    | false => exact absurd (h ▸ toInt_nonneg rfl) (Int.not_le.mpr (toInt_neg hs rfl))
    | true =>
      obtain rfl : sm = tm := BigUnsignedInteger.ext_toNat (Int.ofNat_inj.mp (neg_injective h))
      rfl

theorem compare_natCast (m n : Nat) : Ord.compare (m : Int) n = Ord.compare m n := by
  rcases Nat.lt_trichotomy m n with hlt | rfl | hlt
  · rw [Nat.compare_eq_lt.mpr hlt, compare_lt_iff_lt]
    exact Int.ofNat_lt.mpr hlt
  · rw [Nat.compare_eq_eq.mpr rfl, compare_eq_iff_eq]
  · rw [Nat.compare_eq_gt.mpr hlt, compare_gt_iff_gt]
    exact Int.ofNat_lt.mpr hlt

theorem compare_neg_natCast (m n : Nat) :
    Ord.compare (-(m : Int)) (-(n : Int)) = (Ord.compare m n).swap := by
  rcases Nat.lt_trichotomy m n with hlt | rfl | hlt
  · rw [Nat.compare_eq_lt.mpr hlt, Ordering.swap, compare_gt_iff_gt]
    omega
  · rw [Nat.compare_eq_eq.mpr rfl, Ordering.swap, compare_eq_iff_eq]
  · rw [Nat.compare_eq_gt.mpr hlt, Ordering.swap, compare_lt_iff_lt]
    omega

theorem compare_eq {s t : SignAndMagnitude} (hs : s.Normalized) (ht : t.Normalized) :
    s.compare t = Ord.compare s.toInt t.toInt := by
  rw [compare]
  cases hsn : s.negative with
  | false =>
    cases htn : t.negative with
    | false =>
      rw [if_neg (not_not.mpr rfl), BigUnsignedInteger.compare_eq, ← compare_natCast, toInt, toInt,
        hsn, htn]
      rfl
    | true =>
      have hlt := Int.lt_of_lt_of_le (toInt_neg ht htn) (toInt_nonneg hsn)
      rw [if_pos Bool.false_ne_true, compare_gt_iff_gt.mpr hlt]
      rfl
  | true =>
    cases htn : t.negative with
    | false =>
      have hlt := Int.lt_of_lt_of_le (toInt_neg hs hsn) (toInt_nonneg htn)
      rw [if_pos Bool.false_ne_true.symm, compare_lt_iff_lt.mpr hlt]
      rfl
    | true =>
      rw [if_neg (not_not.mpr rfl), BigUnsignedInteger.compare_eq, toInt, toInt, hsn, htn, if_pos rfl,
        if_pos rfl, compare_neg_natCast]
      cases Ord.compare s.magnitude.toNat t.magnitude.toNat <;> rfl

theorem addAssign_spec {s : SignAndMagnitude} (hs : s.Normalized) (t : SignAndMagnitude) :
    ∃ r, s.addAssign t = .ok r ∧ r.Normalized ∧ r.toInt = s.toInt + t.toInt := by
  rw [addAssign]
  by_cases hsign : s.negative = t.negative
  · rw [if_pos hsign]
    refine ⟨_, rfl, ?_, ?_⟩
    · intro hneg
      have hne : s.magnitude.toNat ≠ 0 :=
        fun hz => Bool.eq_false_iff.mp (hs hneg) (BigUnsignedInteger.isZero_iff.mpr hz)
      rw [Bool.eq_false_iff, ne_eq, BigUnsignedInteger.isZero_iff, BigUnsignedInteger.toNat_add]
      omega
    · rw [toInt, toInt, toInt, BigUnsignedInteger.toNat_add, ← hsign]
      cases s.negative with
      | false => exact Int.natCast_add _ _
      | true =>
        simp only [if_true, Nat.cast_add]
        omega
  · rw [if_neg hsign, BigUnsignedInteger.compare_eq]
    have hother : t.negative = !s.negative := by
      cases hsn : s.negative <;> cases htn : t.negative <;> simp_all
    rcases Nat.lt_trichotomy s.magnitude.toNat t.magnitude.toNat with hlt | heq | hlt
    · obtain ⟨z, hz, hvalue⟩ := BigUnsignedInteger.subtract_spec hlt.le
      rw [Nat.compare_eq_lt.mpr hlt]
      refine ⟨⟨t.negative, z⟩, ?_, ?_, ?_⟩
      · simp only [hz]
        rfl
      · intro _
        rw [Bool.eq_false_iff, ne_eq, BigUnsignedInteger.isZero_iff, hvalue]
        omega
      · rw [toInt, toInt, toInt, hvalue, hother]
        cases s.negative with
        | false =>
          simp only [Bool.not_false, if_true, Bool.false_eq_true, if_false]
          omega
        | true =>
          simp only [Bool.not_true, if_true, Bool.false_eq_true, if_false]
          omega
    · rw [Nat.compare_eq_eq.mpr heq]
      refine ⟨_, rfl, nofun, ?_⟩
      rw [toInt, toInt, toInt, heq, hother]
      cases s.negative with
      | false => exact (Int.add_right_neg _).symm
      | true => exact (Int.add_left_neg _).symm
    · obtain ⟨z, hz, hvalue⟩ := BigUnsignedInteger.subtract_spec hlt.le
      rw [Nat.compare_eq_gt.mpr hlt]
      refine ⟨⟨s.negative, z⟩, ?_, ?_, ?_⟩
      · simp only [hz]
        rfl
      · intro _
        rw [Bool.eq_false_iff, ne_eq, BigUnsignedInteger.isZero_iff, hvalue]
        omega
      · rw [toInt, toInt, toInt, hvalue, hother]
        cases s.negative with
        | false =>
          simp only [Bool.not_false, if_true, Bool.false_eq_true, if_false]
          omega
        | true =>
          simp only [Bool.not_true, if_true, Bool.false_eq_true, if_false]
          omega

theorem toInt_multiplyAssign (s t : SignAndMagnitude) :
    (s.multiplyAssign t).toInt = s.toInt * t.toInt := by
  rw [multiplyAssign, toInt_normalizeSign, toInt, toInt, toInt, BigUnsignedInteger.toNat_multiply]
  cases s.negative <;> cases t.negative <;> simp

theorem subtractAssign_spec {s : SignAndMagnitude} (hs : s.Normalized) (t : SignAndMagnitude) :
    ∃ r, s.subtractAssign t = .ok r ∧ r.Normalized ∧ r.toInt = s.toInt - t.toInt := by
  obtain ⟨r, hok, hnormalized, hvalue⟩ := addAssign_spec hs t.negated
  rw [toInt_negated] at hvalue
  exact ⟨r, hok, hnormalized, hvalue.trans (Int.sub_eq_add_neg ..).symm⟩

/-- The text of a magnitude does not begin with a sign. -/
theorem head?_toString (m : BigUnsignedInteger) :
    m.toString.head? ≠ some 0x2B ∧ m.toString.head? ≠ some 0x2D := by
  obtain ⟨decimals, hne, hlt, htext, -⟩ := Digits.toString_eq m.canonical.lt
  rw [BigUnsignedInteger.toString, htext]
  cases decimals with
  | nil => exact absurd rfl hne
  | cons digit decimals =>
    rw [List.map_cons, List.head?_cons, Digits.fromDigitValue]
    constructor
    · intro h
      rw [Option.some.injEq] at h
      omega
    · intro h
      rw [Option.some.injEq] at h
      omega

theorem parseLoop_toString (s : SignAndMagnitude) :
    parseLoop s.toString [] false true false = some (s.magnitude.digits, s.negative, true) := by
  obtain ⟨decimals, hne, hlt, htext, hvalue⟩ := Digits.toString_eq s.magnitude.canonical.lt
  -- The magnitude is read alike at the beginning of the text and behind a sign.
  have hread : ∀ first, Digits.parseLoop s.magnitude.toString [] first false =
      some (s.magnitude.digits, true) := by
    intro first
    obtain ⟨digits, hparse, hcanonical, hdigits⟩ :=
      @Digits.parseLoop_digits decimals [] first false hlt (canonical_nil _)
    rw [Nat.ofDigits_nil, hvalue] at hdigits
    rw [BigUnsignedInteger.toString, htext, hparse, decide_eq_true hne, Bool.or_true,
      hcanonical.ext one_lt_cDigitBase s.magnitude.canonical hdigits]
  rw [toString]
  cases s.negative with
  | false =>
    rw [if_pos Bool.false_ne_true, parseLoop_eq _ fun _ => head?_toString _, hread]
    rfl
  | true =>
    rw [if_neg (not_not.mpr rfl), parseLoop, if_pos ⟨rfl, .inr rfl⟩,
      parseLoop_eq _ (absurd · Bool.false_ne_true), hread]
    rfl

theorem fromString_toString {s : SignAndMagnitude} (hs : s.Normalized) :
    fromString s.toString = some s := by
  have hparse := parseLoop_toString s
  rw [fromString]
  split
  case h_1 digits negative h =>
    rw [hparse, Option.some.injEq, Prod.mk.injEq, Prod.mk.injEq] at h
    obtain ⟨rfl, rfl, -⟩ := h
    exact congrArg some (normalizeSign_eq hs)
  case h_2 hne => exact absurd hparse (hne _ _)

theorem fromString_normalized (h : fromString text = some s) : s.Normalized := by
  rw [fromString] at h
  split at h
  case h_1 =>
    rw [Option.some.injEq] at h
    exact h ▸ normalizeSign_normalized _
  case h_2 => cases h

end SignAndMagnitude

/-- A signed integer of any size. -/
structure BigInteger extends SignAndMagnitude where
  normalized : toSignAndMagnitude.Normalized
  deriving DecidableEq

namespace BigInteger

def fromSignAndMagnitude (negative : Bool) (magnitude : BigUnsignedInteger) : BigInteger where
  toSignAndMagnitude := .fromSignAndMagnitude negative magnitude
  normalized := SignAndMagnitude.normalizeSign_normalized _

/-- The integer, where an operation leaves a sign and a magnitude that are one. -/
def ofNormalized (result : Except BigIntegerError SignAndMagnitude)
    (h : ∀ s, result = .ok s → s.Normalized) : Except BigIntegerError BigInteger :=
  match result with
  | .error e => .error e
  | .ok s => .ok ⟨s, h s rfl⟩

variable (x y : BigInteger)

def toInt : Int := x.toSignAndMagnitude.toInt

def compare : Ordering := x.toSignAndMagnitude.compare y.toSignAndMagnitude

theorem addAssign_normalized (s : SignAndMagnitude)
    (h : x.toSignAndMagnitude.addAssign y.toSignAndMagnitude = .ok s) : s.Normalized := by
  obtain ⟨r, hok, hnormalized, -⟩ :=
    SignAndMagnitude.addAssign_spec x.normalized y.toSignAndMagnitude
  rw [hok, Except.ok.injEq] at h
  exact h ▸ hnormalized

theorem subtractAssign_normalized (s : SignAndMagnitude)
    (h : x.toSignAndMagnitude.subtractAssign y.toSignAndMagnitude = .ok s) : s.Normalized := by
  obtain ⟨r, hok, hnormalized, -⟩ :=
    SignAndMagnitude.subtractAssign_spec x.normalized y.toSignAndMagnitude
  rw [hok, Except.ok.injEq] at h
  exact h ▸ hnormalized

def add : Except BigIntegerError BigInteger :=
  ofNormalized (x.toSignAndMagnitude.addAssign y.toSignAndMagnitude) (x.addAssign_normalized y)

def subtract : Except BigIntegerError BigInteger :=
  ofNormalized (x.toSignAndMagnitude.subtractAssign y.toSignAndMagnitude)
    (x.subtractAssign_normalized y)

def multiply : BigInteger where
  toSignAndMagnitude := x.toSignAndMagnitude.multiplyAssign y.toSignAndMagnitude
  normalized := SignAndMagnitude.normalizeSign_normalized _

def toString : List Nat := x.toSignAndMagnitude.toString

def fromString (text : List Nat) : Option BigInteger :=
  match h : SignAndMagnitude.fromString text with
  | none => none
  | some s => some ⟨s, SignAndMagnitude.fromString_normalized h⟩

variable {x y : BigInteger}

theorem ext_toInt (h : x.toInt = y.toInt) : x = y := by
  obtain ⟨s, hs⟩ := x
  obtain ⟨t, ht⟩ := y
  obtain rfl : s = t := SignAndMagnitude.ext_toInt hs ht h
  rfl

theorem toInt_fromSignAndMagnitude (negative : Bool) (magnitude : BigUnsignedInteger) :
    (fromSignAndMagnitude negative magnitude).toInt =
      if negative then -(magnitude.toNat : Int) else magnitude.toNat :=
  SignAndMagnitude.toInt_normalizeSign _

theorem ofNormalized_ok {result : Except BigIntegerError SignAndMagnitude}
    (h : ∀ s, result = .ok s → s.Normalized) (hok : result = .ok r) :
    ∃ z, ofNormalized result h = .ok z ∧ z.toInt = r.toInt := by
  subst hok
  exact ⟨⟨r, h r rfl⟩, rfl, rfl⟩

theorem add_spec (x y : BigInteger) : ∃ z, x.add y = .ok z ∧ z.toInt = x.toInt + y.toInt := by
  obtain ⟨r, hok, -, hvalue⟩ := SignAndMagnitude.addAssign_spec x.normalized y.toSignAndMagnitude
  obtain ⟨z, hz, hr⟩ := ofNormalized_ok (x.addAssign_normalized y) hok
  exact ⟨z, hz, hr.trans hvalue⟩

theorem subtract_spec (x y : BigInteger) :
    ∃ z, x.subtract y = .ok z ∧ z.toInt = x.toInt - y.toInt := by
  obtain ⟨r, hok, -, hvalue⟩ :=
    SignAndMagnitude.subtractAssign_spec x.normalized y.toSignAndMagnitude
  obtain ⟨z, hz, hr⟩ := ofNormalized_ok (x.subtractAssign_normalized y) hok
  exact ⟨z, hz, hr.trans hvalue⟩

theorem fromString_toString (x : BigInteger) : fromString x.toString = some x := by
  have htext := SignAndMagnitude.fromString_toString x.normalized
  rw [fromString, toString]
  split
  case h_1 hnone =>
    rw [htext] at hnone
    cases hnone
  case h_2 s hsome =>
    rw [htext, Option.some.injEq] at hsome
    subst hsome
    rfl

end BigInteger

/-- The arithmetic of both types is that of the integers, with results that are canonical by their
types, and the text of a value is read back as the value. -/
theorem big_integers_exact :
    (∀ x y : BigUnsignedInteger,
      (x.add y).toNat = x.toNat + y.toNat ∧
      (y.toNat ≤ x.toNat → ∃ z, x.subtract y = .ok z ∧ z.toNat = x.toNat - y.toNat) ∧
      (x.toNat < y.toNat → x.subtract y = .error .subtractionUnderflow) ∧
      (x.multiply y).toNat = x.toNat * y.toNat ∧
      x.compare y = Ord.compare x.toNat y.toNat ∧
      (x = y ↔ x.toNat = y.toNat) ∧
      BigUnsignedInteger.fromString x.toString = some x) ∧
    (∀ x y : BigInteger,
      (∃ z, x.add y = .ok z ∧ z.toInt = x.toInt + y.toInt) ∧
      (∃ z, x.subtract y = .ok z ∧ z.toInt = x.toInt - y.toInt) ∧
      (x.multiply y).toInt = x.toInt * y.toInt ∧
      x.compare y = Ord.compare x.toInt y.toInt ∧
      (x = y ↔ x.toInt = y.toInt) ∧
      BigInteger.fromString x.toString = some x) := by
  constructor
  · intro x y
    refine ⟨BigUnsignedInteger.toNat_add x y, BigUnsignedInteger.subtract_spec,
      BigUnsignedInteger.subtract_underflow, BigUnsignedInteger.toNat_multiply x y,
      BigUnsignedInteger.compare_eq x y, ?_, BigUnsignedInteger.fromString_toString x⟩
    exact ⟨congrArg _, BigUnsignedInteger.ext_toNat⟩
  · intro x y
    refine ⟨BigInteger.add_spec x y, BigInteger.subtract_spec x y,
      SignAndMagnitude.toInt_multiplyAssign _ _, SignAndMagnitude.compare_eq x.normalized y.normalized,
      ?_, BigInteger.fromString_toString x⟩
    exact ⟨congrArg _, BigInteger.ext_toInt⟩

end ErbslandCore.Math
