import ErbslandCore.Library.LongDivision
import ErbslandCore.Math.BigUnsignedInteger

namespace ErbslandCore.Math
open Library Library.Positional
open Nat (ofDigits)
set_option autoImplicit true

namespace Digits

/-- The estimate is lowered while its product with the second divisor digit is too large. -/
def correctEstimate (top second third : Nat) : Nat → Nat → Nat
  | 0, _ => 0
  | estimatedDigit + 1, estimatedRemainder =>
    if estimatedRemainder < cDigitBase ∧
      toUInt64 (estimatedRemainder * cDigitBase + third) <
        toUInt64 ((estimatedDigit + 1 : Nat) * second) then
      correctEstimate top second third estimatedDigit (estimatedRemainder + top)
    else estimatedDigit + 1

/-- The estimate of a quotient digit from the leading digits. -/
def estimateDigit (top second high next third : Nat) : Nat :=
  let estimateSource := toUInt64 (high * cDigitBase + next)
  let estimatedDigit := estimateSource / top
  let estimatedRemainder := estimateSource % top
  if cDigitBase ≤ estimatedDigit then
    correctEstimate top second third (cDigitBase - 1) (estimatedRemainder + top)
  else correctEstimate top second third estimatedDigit estimatedRemainder

/-- The digits minus a multiple of the divisor, and the last carry. -/
def subtractProduct (estimatedDigit : Nat) : List Nat → List Nat → Int → List Nat × Int
  | digit :: digits, divisorDigit :: divisor, carry =>
    let difference : Int := digit - (toUInt64 (estimatedDigit * divisorDigit) : Nat) - carry
    let nextCarry : Int :=
      if difference < 0 then (-difference + cDigitBase - 1) / cDigitBase else 0
    let rest := subtractProduct estimatedDigit digits divisor nextCarry
    (toUInt32 (difference + nextCarry * cDigitBase) :: rest.1, rest.2)
  | digits, _, carry => (digits, carry)

/-- The digits with the divisor added back, and the last carry. -/
def addBack : List Nat → List Nat → Nat → List Nat × Nat
  | digit :: digits, divisorDigit :: divisor, carry =>
    let sum := toUInt64 (digit + divisorDigit + carry)
    let rest := addBack digits divisor (sum / cDigitBase)
    (toUInt32 (sum % cDigitBase : Nat) :: rest.1, rest.2)
  | digits, _, carry => (digits, carry)

/-- The quotient digit, the digits that remain in the place of the divisor, and the digit above. -/
def divideWindow (divisor window : List Nat) (high : Nat) : Nat × List Nat × Nat :=
  let divisorSize := divisor.length
  let estimatedDigit := estimateDigit (divisor.getD (divisorSize - 1) 0)
    (divisor.getD (divisorSize - 2) 0) high (window.getD (divisorSize - 1) 0)
    (window.getD (divisorSize - 2) 0)
  let (difference, carry) := subtractProduct estimatedDigit window divisor 0
  let highDifference : Int := high - carry
  if highDifference < 0 then
    let (sum, additionCarry) := addBack difference divisor 0
    (toUInt32 (toUInt64 (estimatedDigit - 1)), sum, toUInt32 (highDifference + additionCarry))
  else (toUInt32 estimatedDigit, difference, toUInt32 highDifference)

/-- The quotient digits from the highest place down, and the digits that are left. -/
def divideLoop (divisor : List Nat) : Nat → List Nat → List Nat → List Nat × List Nat
  | 0, dividend, quotient => (quotient, dividend)
  | quotientIndex + 1, dividend, quotient =>
    let rest := dividend.drop quotientIndex
    let (digit, window, high) :=
      divideWindow divisor (rest.take divisor.length) (rest.getD divisor.length 0)
    divideLoop divisor quotientIndex
      (dividend.take quotientIndex ++ window ++ high :: rest.drop (divisor.length + 1))
      (digit :: quotient)

/-- The factor that makes the leading divisor digit large. -/
def normalization (divisor : List Nat) : Nat :=
  toUInt32 (cDigitBase / (divisor.getLastD 0 + 1) : Nat)

/-- The digits of the quotient and of the remainder, unless the process is terminated. -/
def divideWithRemainder (dividend divisor : List Nat) : Option (List Nat × List Nat) :=
  if divisor = [] then none
  else if compare dividend divisor = .lt then some ([], dividend)
  else if divisor.length = 1 then
    let (smallRemainder, quotient) := divideSmall dividend (divisor.headD 0)
    some (quotient, assign smallRemainder)
  else
    let normalizedDividend := multiplySmall dividend (normalization divisor) ++ [0]
    let normalizedDivisor := multiplySmall divisor (normalization divisor)
    let divisorSize := normalizedDivisor.length
    let (quotient, digits) := divideLoop normalizedDivisor
      (normalizedDividend.length - divisorSize) normalizedDividend []
    let (fraction, remainder) := divideSmall (digits.take divisorSize) (normalization divisor)
    if fraction ≠ 0 then none else some (trim quotient, trim remainder)

section Estimate
variable {top second third high next quotient : Nat}

theorem leading_product_lt (hx : x < cDigitBase) (hy : y < cDigitBase) : x * y < 2 ^ 64 :=
  (Nat.mul_lt_mul'' hx hy).trans (by decide)

theorem leading_value_lt (hx : x < cDigitBase) (hy : y < cDigitBase) :
    x * cDigitBase + y < 2 ^ 64 := by
  have hle : x * cDigitBase ≤ (cDigitBase - 1) * cDigitBase :=
    Nat.mul_le_mul_right _ (Nat.le_pred_of_lt hx)
  have hsquare : (cDigitBase - 1) * cDigitBase + cDigitBase < 2 ^ 64 := by decide
  omega

/-- The test of the correction is about the product with the two leading divisor digits, as long as
the remainder belongs to the estimate. -/
theorem correction_iff (hr : q * top + r = s) :
    s * cDigitBase + third < q * (top * cDigitBase + second) ↔
      r * cDigitBase + third < q * second := by
  have hexpand : q * (top * cDigitBase + second) = q * top * cDigitBase + q * second := by ring
  rw [← hr, Nat.add_mul, hexpand, Nat.add_assoc, Nat.add_lt_add_iff_left]

theorem correctEstimate_spec (hsecond : second < cDigitBase) (hthird : third < cDigitBase)
    (hover : ∀ q, s * cDigitBase + third < q * (top * cDigitBase + second) → quotient < q)
    (hq : q < cDigitBase) (hr : q * top + r = s) (hle : quotient ≤ q) :
    quotient ≤ correctEstimate top second third q r ∧
      correctEstimate top second third q r ≤ q ∧
      correctEstimate top second third q r * (top * cDigitBase + second) ≤
        s * cDigitBase + third := by
  induction q generalizing r with
  | zero =>
    rw [correctEstimate, Nat.zero_mul]
    exact ⟨hle, Nat.le_refl 0, Nat.zero_le _⟩
  | succ q ih =>
    rw [correctEstimate]
    by_cases hsmall : r < cDigitBase
    · rw [← Nat.cast_mul, ← Nat.cast_mul, ← Nat.cast_add, toUInt64_of_lt (leading_value_lt hsmall hthird),
        toUInt64_of_lt (leading_product_lt hq hsecond)]
      by_cases htest : r * cDigitBase + third < (q + 1) * second
      · have hlt := hover (q + 1) ((correction_iff hr).mpr htest)
        have hnext : q * top + (r + top) = s := by
          rw [← hr]
          ring
        obtain ⟨hge, hle', hlead⟩ := ih (Nat.lt_of_succ_lt hq) hnext (Nat.le_of_lt_succ hlt)
        rw [if_pos ⟨hsmall, htest⟩]
        exact ⟨hge, Nat.le_succ_of_le hle', hlead⟩
      · rw [if_neg fun h => htest h.2]
        refine ⟨hle, Nat.le_refl _, Nat.not_lt.mp ?_⟩
        rwa [correction_iff hr]
    · rw [if_neg fun h => hsmall h.1]
      refine ⟨hle, Nat.le_refl _, Nat.not_lt.mp ?_⟩
      rw [correction_iff hr, Nat.not_lt]
      calc (q + 1) * second ≤ cDigitBase * cDigitBase :=
            Nat.mul_le_mul (Nat.le_of_lt hq) (Nat.le_of_lt hsecond)
        _ ≤ r * cDigitBase := Nat.mul_le_mul_right _ (Nat.not_lt.mp hsmall)
        _ ≤ r * cDigitBase + third := Nat.le_add_right _ _

/-- The estimate exceeds the base, and with the remainder of a digit that is one larger than the
estimate it is lowered. -/
def EstimateTooLow (top second s third : Nat) : Prop :=
  (cDigitBase + 1) * top ≤ s ∧
    (s - cDigitBase * top) * cDigitBase + third < (cDigitBase - 1) * second

instance (top second s third : Nat) : Decidable (EstimateTooLow top second s third) :=
  inferInstanceAs (Decidable (_ ∧ _))

/-- The leading digit of the dividend does not exceed that of the divisor, so that the estimate
exceeds the base by one at most. -/
theorem source_div_le (htop : cDigitBase ≤ 2 * top) (hhigh : high ≤ top)
    (hnext : next < cDigitBase) : (high * cDigitBase + next) / top < cDigitBase + 2 := by
  have hle : high * cDigitBase ≤ top * cDigitBase := Nat.mul_le_mul_right _ hhigh
  apply Nat.div_lt_of_lt_mul
  rw [Nat.mul_add]
  omega

theorem estimateDigit_spec (htop : cDigitBase ≤ 2 * top) (hsecond : second < cDigitBase)
    (hhigh : high ≤ top) (htoplt : top < cDigitBase) (hnext : next < cDigitBase)
    (hthird : third < cDigitBase) (hquotient : quotient < cDigitBase)
    (hover : ∀ q, (high * cDigitBase + next) * cDigitBase + third <
      q * (top * cDigitBase + second) → quotient < q)
    (hgood : ¬ EstimateTooLow top second (high * cDigitBase + next) third) :
    quotient ≤ estimateDigit top second high next third ∧
      estimateDigit top second high next third < cDigitBase ∧
      estimateDigit top second high next third * (top * cDigitBase + second) ≤
        (high * cDigitBase + next) * cDigitBase + third := by
  have hwide := leading_value_lt (hhigh.trans_lt htoplt) hnext
  have hlimit := source_div_le htop hhigh hnext
  have hpos : 0 < top := by
    rw [Nat.pos_iff_ne_zero]
    rintro rfl
    exact absurd htop (by decide)
  rw [estimateDigit]
  simp only [← Nat.cast_mul, ← Nat.cast_add, toUInt64_of_lt hwide]
  generalize hs : high * cDigitBase + next = s at *
  have hdiv := Nat.div_add_mod s top
  have hlast : cDigitBase - 1 < cDigitBase := by decide
  by_cases hbig : cDigitBase ≤ s / top
  · rw [if_pos hbig]
    have hle : quotient ≤ cDigitBase - 1 := Nat.le_pred_of_lt hquotient
    by_cases hover' : s / top = cDigitBase
    · have hr : (cDigitBase - 1) * top + (s % top + top) = s := by
        rw [hover'] at hdiv
        conv_rhs => rw [← hdiv]
        rw [Nat.sub_mul, Nat.one_mul, Nat.mul_comm top]
        have hle := Nat.le_mul_of_pos_left top (show 0 < cDigitBase by decide)
        omega
      obtain ⟨hge, hle', hlead⟩ := correctEstimate_spec hsecond hthird hover hlast hr hle
      exact ⟨hge, hle'.trans_lt hlast, hlead⟩
    · -- The remainder lacks one leading divisor digit.
      have hquot : s / top = cDigitBase + 1 := by omega
      rw [hquot, Nat.mul_add, Nat.mul_one, Nat.mul_comm top] at hdiv
      have hrem : s % top + top = s - cDigitBase * top := by omega
      have hlarge : (cDigitBase + 1) * top ≤ s := by
        rw [Nat.add_mul, Nat.one_mul]
        omega
      have htest : ¬ (s - cDigitBase * top) * cDigitBase + third < (cDigitBase - 1) * second :=
        fun h => hgood ⟨hlarge, h⟩
      have hkeep : correctEstimate top second third (cDigitBase - 1) (s % top + top) =
          cDigitBase - 1 := by
        rw [hrem, show cDigitBase - 1 = (cDigitBase - 2) + 1 by decide, correctEstimate]
        apply if_neg
        rintro ⟨hsmall, h⟩
        rw [← Nat.cast_mul, ← Nat.cast_mul, ← Nat.cast_add,
          toUInt64_of_lt (leading_value_lt hsmall hthird),
          toUInt64_of_lt (leading_product_lt (by decide) hsecond)] at h
        exact htest h
      rw [hkeep]
      refine ⟨hle, hlast, ?_⟩
      have hexpand : (cDigitBase - 1) * (top * cDigitBase + second) =
          (cDigitBase - 1) * top * cDigitBase + (cDigitBase - 1) * second := by ring
      have hsplit : s = cDigitBase * top + (s - cDigitBase * top) := by omega
      have hless : (cDigitBase - 1) * top * cDigitBase ≤ cDigitBase * top * cDigitBase :=
        Nat.mul_le_mul_right _ (Nat.mul_le_mul_right _ (Nat.sub_le _ _))
      have hsum : s * cDigitBase =
          cDigitBase * top * cDigitBase + (s - cDigitBase * top) * cDigitBase := by
        rw [← Nat.add_mul, ← hsplit]
      rw [hexpand, hsum]
      omega
  · rw [if_neg hbig]
    have hr : s / top * top + s % top = s := Nat.div_add_mod' s top
    have hle : quotient ≤ s / top := by
      apply Nat.le_of_lt_succ
      apply hover
      have hlt : s < (s / top + 1) * top := by
        rw [Nat.mul_comm]
        exact Nat.lt_mul_div_succ s hpos
      calc s * cDigitBase + third < (s + 1) * cDigitBase := by
            rw [Nat.succ_mul]
            exact Nat.add_lt_add_left hthird _
        _ ≤ (s / top + 1) * top * cDigitBase := Nat.mul_le_mul_right _ hlt
        _ ≤ (s / top + 1) * (top * cDigitBase + second) := by
            rw [Nat.mul_assoc]
            exact Nat.mul_le_mul_left _ (Nat.le_add_right _ _)
    obtain ⟨hge, hle', hlead⟩ :=
      correctEstimate_spec hsecond hthird hover (Nat.lt_of_not_le hbig) hr hle
    exact ⟨hge, hle'.trans_lt (Nat.lt_of_not_le hbig), hlead⟩

theorem estimateDigit_tooLow (htop : cDigitBase ≤ 2 * top) (hsecond : second < cDigitBase)
    (hhigh : high ≤ top) (htoplt : top < cDigitBase) (hnext : next < cDigitBase)
    (hthird : third < cDigitBase)
    (hbad : EstimateTooLow top second (high * cDigitBase + next) third) :
    estimateDigit top second high next third = cDigitBase - 2 := by
  have hwide := leading_value_lt (hhigh.trans_lt htoplt) hnext
  have hlimit := source_div_le htop hhigh hnext
  have hle : high * cDigitBase ≤ cDigitBase * top := by
    rw [Nat.mul_comm cDigitBase]
    exact Nat.mul_le_mul_right _ hhigh
  obtain ⟨hlarge, htest⟩ := hbad
  have hpos : 0 < top := by
    rw [Nat.pos_iff_ne_zero]
    rintro rfl
    exact absurd htop (by decide)
  rw [estimateDigit]
  simp only [← Nat.cast_mul, ← Nat.cast_add, toUInt64_of_lt hwide]
  have hsmall : high * cDigitBase + next - cDigitBase * top < cDigitBase := by omega
  generalize high * cDigitBase + next = s at *
  have hge : cDigitBase + 1 ≤ s / top := (Nat.le_div_iff_mul_le hpos).mpr hlarge
  have hdiv := Nat.div_add_mod s top
  have hquot : s / top = cDigitBase + 1 := by omega
  rw [hquot, Nat.mul_add, Nat.mul_one, Nat.mul_comm top] at hdiv
  have hrem : s % top + top = s - cDigitBase * top := by omega
  have hprod := leading_product_lt (show cDigitBase - 1 < cDigitBase by decide) hsecond
  have hpred : cDigitBase - 1 = cDigitBase - 2 + 1 := by decide
  rw [hpred] at htest hprod
  rw [if_pos (Nat.le_of_succ_le hge), hrem, hpred, correctEstimate, ← Nat.cast_mul, ← Nat.cast_mul,
    ← Nat.cast_add, toUInt64_of_lt (leading_value_lt hsmall hthird), toUInt64_of_lt hprod,
    if_pos ⟨hsmall, htest⟩]
  -- The remainder now exceeds the base and ends the correction.
  rw [show cDigitBase - 2 = (cDigitBase - 3) + 1 by decide, correctEstimate]
  apply if_neg
  rintro ⟨hsmall', -⟩
  rw [Nat.add_mul, Nat.one_mul] at hlarge
  omega

end Estimate

section Window

/-- The digit written and the carry make up for a difference below zero. -/
theorem difference_spec (hw : w < cDigitBase) (hc : carry < cDigitBase)
    (hp : p ≤ (cDigitBase - 1) * (cDigitBase - 1)) :
    ∃ out < cDigitBase, ∃ next < cDigitBase,
      (if (w : Int) - (p : Nat) - (carry : Nat) < 0 then
        (-((w : Int) - (p : Nat) - (carry : Nat)) + cDigitBase - 1) / cDigitBase else 0) =
        (next : Nat) ∧
      toUInt32 ((w : Int) - (p : Nat) - (carry : Nat) + (next : Nat) * cDigitBase) = out ∧
      out + p + carry = w + cDigitBase * next := by
  have hbase : cDigitBase = 1000000000 := rfl
  have hcast : (cDigitBase : Int) = 1000000000 := rfl
  have hsquare : (cDigitBase - 1) * (cDigitBase - 1) = 999999998000000001 := by decide
  by_cases hneg : (w : Int) - (p : Nat) - (carry : Nat) < 0
  · refine ⟨w + cDigitBase * ((p + carry - w + cDigitBase - 1) / cDigitBase) - p - carry, ?_,
      (p + carry - w + cDigitBase - 1) / cDigitBase, ?_, ?_, ?_, ?_⟩
    · rw [hbase]
      omega
    · rw [hbase]
      omega
    · rw [if_pos hneg, hcast, hbase]
      omega
    · have hout : (w : Int) - (p : Nat) - (carry : Nat) +
          ((p + carry - w + cDigitBase - 1) / cDigitBase : Nat) * (cDigitBase : Int) =
          (w + cDigitBase * ((p + carry - w + cDigitBase - 1) / cDigitBase) - p - carry : Nat) := by
        rw [hcast, hbase]
        omega
      rw [hout]
      apply toUInt32_of_lt
      rw [hbase]
      omega
    · rw [hbase]
      omega
  · refine ⟨w - p - carry, by omega, 0, by decide, ?_, ?_, by omega⟩
    · rw [if_neg hneg, Nat.cast_zero]
    · have hout : (w : Int) - (p : Nat) - (carry : Nat) + (0 : Nat) * (cDigitBase : Int) =
          (w - p - carry : Nat) := by
        rw [Nat.cast_zero, Int.zero_mul]
        omega
      rw [hout]
      exact toUInt32_of_lt (by omega)

theorem subtractProduct_spec (hw : InRange window) (hd : InRange divisor)
    (hlen : window.length = divisor.length) (he : estimated < cDigitBase)
    (hc : carry < cDigitBase) :
    InRange (subtractProduct estimated window divisor (carry : Nat)).1 ∧
      (subtractProduct estimated window divisor (carry : Nat)).1.length = divisor.length ∧
      ∃ last : Nat, (subtractProduct estimated window divisor (carry : Nat)).2 = last ∧
        ofDigits cDigitBase (subtractProduct estimated window divisor (carry : Nat)).1 +
            estimated * ofDigits cDigitBase divisor + carry =
          ofDigits cDigitBase window + cDigitBase ^ divisor.length * last := by
  induction window generalizing divisor carry with
  | nil =>
    obtain rfl := List.length_eq_zero_iff.mp hlen.symm
    refine ⟨inRange_nil, rfl, carry, rfl, ?_⟩
    simp only [subtractProduct, Nat.ofDigits_nil, List.length_nil, Nat.pow_zero, Nat.one_mul,
      Nat.mul_zero, Nat.zero_add]
  | cons w window ih =>
    cases divisor with
    | nil => cases hlen
    | cons v divisor =>
      rw [inRange_cons] at hw hd
      have hp : estimated * v ≤ (cDigitBase - 1) * (cDigitBase - 1) :=
        Nat.mul_le_mul (Nat.le_pred_of_lt he) (Nat.le_pred_of_lt hd.1)
      obtain ⟨out, hout, next, hnext, hcarry, hdigit, hsum⟩ := difference_spec hw.1 hc hp
      obtain ⟨hrange, hlength, last, hlast, hvalue⟩ :=
        ih hw.2 hd.2 (Nat.succ.inj hlen) hnext
      rw [subtractProduct, ← Nat.cast_mul, toUInt64_of_lt (leading_product_lt he hd.1)]
      simp only [hcarry, hdigit]
      refine ⟨inRange_cons.mpr ⟨hout, hrange⟩, ?_, last, hlast, ?_⟩
      · rw [List.length_cons, List.length_cons, hlength]
      · rw [Nat.ofDigits_cons, Nat.ofDigits_cons, Nat.ofDigits_cons, List.length_cons, Nat.pow_succ']
        have hscaled := congrArg (cDigitBase * ·) hvalue
        simp only [Nat.mul_add, ← Nat.mul_assoc, Nat.mul_comm cDigitBase estimated] at hscaled ⊢
        omega

theorem addBack_spec (hw : InRange window) (hd : InRange divisor)
    (hlen : window.length = divisor.length) (hc : carry ≤ 1) :
    InRange (addBack window divisor carry).1 ∧
      (addBack window divisor carry).1.length = divisor.length ∧
      ofDigits cDigitBase (addBack window divisor carry).1 +
          cDigitBase ^ divisor.length * (addBack window divisor carry).2 =
        ofDigits cDigitBase window + ofDigits cDigitBase divisor + carry := by
  induction window generalizing divisor carry with
  | nil =>
    obtain rfl := List.length_eq_zero_iff.mp hlen.symm
    refine ⟨inRange_nil, rfl, ?_⟩
    simp only [addBack, Nat.ofDigits_nil, List.length_nil, Nat.pow_zero, Nat.one_mul, Nat.zero_add]
  | cons w window ih =>
    cases divisor with
    | nil => cases hlen
    | cons v divisor =>
      rw [inRange_cons] at hw hd
      have hbase : cDigitBase = 1000000000 := rfl
      obtain ⟨hdigit, hcarry⟩ := carry_spec (show w + v + carry < 2 ^ 64 by omega)
      have hnext : (w + v + carry) / cDigitBase ≤ 1 :=
        Nat.le_of_lt_succ (Nat.div_lt_of_lt_mul (by omega))
      obtain ⟨hrange, hlength, hvalue⟩ := ih hw.2 hd.2 (Nat.succ.inj hlen) hnext
      rw [addBack, ← Nat.cast_add, ← Nat.cast_add]
      simp only [hdigit, hcarry]
      refine ⟨inRange_cons.mpr ⟨Nat.mod_lt _ (by decide), hrange⟩, ?_, ?_⟩
      · rw [List.length_cons, List.length_cons, hlength]
      · rw [Nat.ofDigits_cons, Nat.ofDigits_cons, Nat.ofDigits_cons, List.length_cons, Nat.pow_succ']
        have hscaled := congrArg (cDigitBase * ·) hvalue
        have hdiv := Nat.mod_add_div (w + v + carry) cDigitBase
        simp only [Nat.mul_add, ← Nat.mul_assoc] at hscaled ⊢
        omega

/-- A number by its two leading digits. -/
theorem ofDigits_leading (xs : List Nat) (x y : Nat) : ofDigits cDigitBase (xs ++ [x, y]) =
    (y * cDigitBase + x) * cDigitBase ^ xs.length + ofDigits cDigitBase xs := by
  rw [Nat.ofDigits_append, Nat.ofDigits_cons, Nat.ofDigits_singleton]
  ring

/-- A number by its three leading digits. -/
theorem ofDigits_leading_three (xs : List Nat) (x y z : Nat) :
    ofDigits cDigitBase ((xs ++ [x, y]) ++ [z]) =
      ((z * cDigitBase + y) * cDigitBase + x) * cDigitBase ^ xs.length +
        ofDigits cDigitBase xs := by
  rw [List.append_assoc, Nat.ofDigits_append, List.cons_append, List.cons_append, List.nil_append,
    Nat.ofDigits_cons, Nat.ofDigits_cons, Nat.ofDigits_singleton]
  ring

theorem high_le_top (hv : InRange (v₀ ++ [v₂, v₁])) (hlen : w₀.length = v₀.length)
    (hlt : ofDigits cDigitBase ((w₀ ++ [w₂, w₁]) ++ [high]) <
      cDigitBase * ofDigits cDigitBase (v₀ ++ [v₂, v₁])) : high ≤ v₁ := by
  have hlow := ofDigits_lt one_lt_cDigitBase fun digit hmem => hv digit (List.mem_append_left _ hmem)
  have hv₂ : v₂ < cDigitBase := hv v₂ (List.mem_append_right _ List.mem_cons_self)
  rw [ofDigits_leading_three, ofDigits_leading, hlen] at hlt
  have hle : (v₁ * cDigitBase + v₂) * cDigitBase ^ v₀.length + ofDigits cDigitBase v₀ <
      (v₁ + 1) * cDigitBase * cDigitBase ^ v₀.length :=
    calc (v₁ * cDigitBase + v₂) * cDigitBase ^ v₀.length + ofDigits cDigitBase v₀ <
          (v₁ * cDigitBase + v₂ + 1) * cDigitBase ^ v₀.length := by
          rw [Nat.succ_mul (v₁ * cDigitBase + v₂)]
          exact Nat.add_lt_add_left hlow _
      _ ≤ (v₁ + 1) * cDigitBase * cDigitBase ^ v₀.length := by
          apply Nat.mul_le_mul_right
          rw [Nat.add_mul, Nat.one_mul]
          omega
  apply Nat.le_of_lt_succ
  apply Nat.lt_of_mul_lt_mul_right (a := cDigitBase * cDigitBase * cDigitBase ^ v₀.length)
  calc high * (cDigitBase * cDigitBase * cDigitBase ^ v₀.length) ≤
        ((high * cDigitBase + w₁) * cDigitBase + w₂) * cDigitBase ^ v₀.length +
          ofDigits cDigitBase w₀ := by
        rw [← Nat.mul_assoc, ← Nat.mul_assoc]
        apply Nat.le_add_right_of_le
        apply Nat.mul_le_mul_right
        apply Nat.le_add_right_of_le
        exact Nat.mul_le_mul_right _ (Nat.le_add_right _ _)
    _ < cDigitBase * ((v₁ * cDigitBase + v₂) * cDigitBase ^ v₀.length + ofDigits cDigitBase v₀) := hlt
    _ ≤ cDigitBase * ((v₁ + 1) * cDigitBase * cDigitBase ^ v₀.length) :=
        Nat.mul_le_mul_left _ (Nat.le_of_lt hle)
    _ = (v₁ + 1) * (cDigitBase * cDigitBase * cDigitBase ^ v₀.length) := by ring

/-- A number has one quotient and one remainder at a power of the base. -/
theorem split_unique {m x y i j : Nat} (hx : x < m) (hy : y < m) (h : x + m * i = y + m * j) :
    i = j ∧ x = y := by
  have hpos : 0 < m := Nat.zero_lt_of_lt hx
  have hdiv := congrArg (· / m) h
  simp only [Nat.add_mul_div_left _ _ hpos, Nat.div_eq_of_lt hx, Nat.div_eq_of_lt hy,
    Nat.zero_add] at hdiv
  subst hdiv
  exact ⟨rfl, Nat.add_right_cancel h⟩

theorem getD_leading (xs : List Nat) (x y : Nat) :
    (xs ++ [x, y]).getD (xs.length + 2 - 1) 0 = y ∧ (xs ++ [x, y]).getD (xs.length + 2 - 2) 0 = x := by
  have hone : xs.length + 2 - 1 - xs.length = 1 := by omega
  have hzero : xs.length + 2 - 2 - xs.length = 0 := by omega
  constructor
  · rw [List.getD_eq_getElem?_getD, List.getElem?_append_right (by omega), hone]
    rfl
  · rw [List.getD_eq_getElem?_getD, List.getElem?_append_right (by omega), hzero]
    rfl

section Turn
variable {v₀ w₀ : List Nat} {v₁ v₂ w₁ w₂ high : Nat}

/-- The turn subtracts a multiple of the divisor from the window. -/
theorem subtractProduct_window (high : Nat) (hw : InRange (w₀ ++ [w₂, w₁])) (hv : InRange (v₀ ++ [v₂, v₁]))
    (hlen : w₀.length = v₀.length) (he : estimated < cDigitBase) :
    ∃ difference last, subtractProduct estimated (w₀ ++ [w₂, w₁]) (v₀ ++ [v₂, v₁]) 0 =
        (difference, ((last : Nat) : Int)) ∧
      InRange difference ∧ difference.length = (v₀ ++ [v₂, v₁]).length ∧
      ofDigits cDigitBase difference + estimated * ofDigits cDigitBase (v₀ ++ [v₂, v₁]) +
          cDigitBase ^ (v₀ ++ [v₂, v₁]).length * high =
        ofDigits cDigitBase ((w₀ ++ [w₂, w₁]) ++ [high]) +
          cDigitBase ^ (v₀ ++ [v₂, v₁]).length * last := by
  have hlen' : (w₀ ++ [w₂, w₁]).length = (v₀ ++ [v₂, v₁]).length := by
    rw [List.length_append, List.length_append, hlen]
    rfl
  obtain ⟨hrange, hlength, last, hlast, hvalue⟩ :=
    subtractProduct_spec hw hv hlen' he (show 0 < cDigitBase by decide)
  rw [Int.natCast_zero] at hrange hlength hlast hvalue
  refine ⟨(subtractProduct estimated (w₀ ++ [w₂, w₁]) (v₀ ++ [v₂, v₁]) 0).1, last,
    Prod.ext rfl hlast, hrange, hlength, ?_⟩
  rw [ofDigits_concat, hlen']
  omega

theorem divideWindow_good (hw : InRange (w₀ ++ [w₂, w₁])) (hv : InRange (v₀ ++ [v₂, v₁]))
    (hlen : w₀.length = v₀.length) (htop : cDigitBase ≤ 2 * v₁)
    (hlt : ofDigits cDigitBase ((w₀ ++ [w₂, w₁]) ++ [high]) <
      cDigitBase * ofDigits cDigitBase (v₀ ++ [v₂, v₁]))
    (hgood : ¬ EstimateTooLow v₁ v₂ (high * cDigitBase + w₁) w₂) :
    ∃ remainder, divideWindow (v₀ ++ [v₂, v₁]) (w₀ ++ [w₂, w₁]) high =
        (ofDigits cDigitBase ((w₀ ++ [w₂, w₁]) ++ [high]) /
          ofDigits cDigitBase (v₀ ++ [v₂, v₁]), remainder, 0) ∧
      InRange remainder ∧ remainder.length = (v₀ ++ [v₂, v₁]).length ∧
      ofDigits cDigitBase remainder = ofDigits cDigitBase ((w₀ ++ [w₂, w₁]) ++ [high]) %
        ofDigits cDigitBase (v₀ ++ [v₂, v₁]) := by
  have hhigh := high_le_top hv hlen hlt
  have hv₁ : v₁ < cDigitBase := hv v₁ (List.mem_append_right _ (.tail _ (.head _)))
  have hv₂ : v₂ < cDigitBase := hv v₂ (List.mem_append_right _ List.mem_cons_self)
  have hw₁ : w₁ < cDigitBase := hw w₁ (List.mem_append_right _ (.tail _ (.head _)))
  have hw₂ : w₂ < cDigitBase := hw w₂ (List.mem_append_right _ List.mem_cons_self)
  have hv₀ := ofDigits_lt one_lt_cDigitBase fun digit hmem => hv digit (List.mem_append_left _ hmem)
  have hw₀ := ofDigits_lt one_lt_cDigitBase fun digit hmem => hw digit (List.mem_append_left _ hmem)
  have hvlt : ofDigits cDigitBase (v₀ ++ [v₂, v₁]) < cDigitBase ^ (v₀ ++ [v₂, v₁]).length :=
    ofDigits_lt one_lt_cDigitBase hv
  have hpos : 0 < ofDigits cDigitBase (v₀ ++ [v₂, v₁]) := by
    rw [Nat.pos_iff_ne_zero]
    intro hz
    rw [hz, Nat.mul_zero] at hlt
    exact Nat.not_lt_zero _ hlt
  -- The estimate is the quotient or one more.
  have hover : ∀ q, (high * cDigitBase + w₁) * cDigitBase + w₂ < q * (v₁ * cDigitBase + v₂) →
      ofDigits cDigitBase ((w₀ ++ [w₂, w₁]) ++ [high]) /
        ofDigits cDigitBase (v₀ ++ [v₂, v₁]) < q := by
    intro q hq
    rw [hlen] at hw₀
    have hprod := LongDivision.lt_of_leading_lt (ofDigits cDigitBase v₀) hw₀ hq
    apply Nat.div_lt_of_lt_mul
    rwa [Nat.mul_comm, ofDigits_leading_three, ofDigits_leading, hlen]
  obtain ⟨hge, he, hlead⟩ := estimateDigit_spec htop hv₂ hhigh hv₁ hw₁ hw₂
    (Nat.div_lt_of_lt_mul (by rwa [Nat.mul_comm])) hover hgood
  have hpred : (estimateDigit v₁ v₂ high w₁ w₂ - 1) * ofDigits cDigitBase (v₀ ++ [v₂, v₁]) ≤
      ofDigits cDigitBase ((w₀ ++ [w₂, w₁]) ++ [high]) := by
    rw [ofDigits_leading_three, ofDigits_leading, hlen]
    apply LongDivision.pred_mul_le_of_leading_le hv₀ _ hlead
    have hle := Nat.le_mul_of_pos_right (cDigitBase) (show 0 < v₁ by omega)
    rw [Nat.mul_comm] at hle
    omega
  have hle : estimateDigit v₁ v₂ high w₁ w₂ - 1 ≤
      ofDigits cDigitBase ((w₀ ++ [w₂, w₁]) ++ [high]) / ofDigits cDigitBase (v₀ ++ [v₂, v₁]) :=
    (Nat.le_div_iff_mul_le hpos).mpr hpred
  obtain ⟨difference, last, hsub, hrange, hlength, hvalue⟩ :=
    subtractProduct_window high hw hv hlen he
  have hdiff : ofDigits cDigitBase difference < cDigitBase ^ (v₀ ++ [v₂, v₁]).length := by
    rw [← hlength]
    exact ofDigits_lt one_lt_cDigitBase hrange
  have hdiv := Nat.div_add_mod (ofDigits cDigitBase ((w₀ ++ [w₂, w₁]) ++ [high]))
    (ofDigits cDigitBase (v₀ ++ [v₂, v₁]))
  have hmod := Nat.mod_lt (ofDigits cDigitBase ((w₀ ++ [w₂, w₁]) ++ [high])) hpos
  have hsize : (v₀ ++ [v₂, v₁]).length = v₀.length + 2 := List.length_append
  obtain ⟨htop', hsecond'⟩ := getD_leading v₀ v₂ v₁
  obtain ⟨hnext', hthird'⟩ := getD_leading w₀ w₂ w₁
  rw [hlen] at hnext' hthird'
  rw [divideWindow, hsize]
  simp only [htop', hsecond', hnext', hthird', hsub]
  rw [← hsize]
  generalize hW : ofDigits cDigitBase ((w₀ ++ [w₂, w₁]) ++ [high]) = W at *
  generalize hV : ofDigits cDigitBase (v₀ ++ [v₂, v₁]) = V at *
  generalize hE : estimateDigit v₁ v₂ high w₁ w₂ = estimated at *
  generalize hB : cDigitBase ^ (v₀ ++ [v₂, v₁]).length = power at *
  rcases Nat.eq_or_lt_of_le hge with heq | hlt'
  · -- The estimate is the quotient.
    rw [← heq, Nat.mul_comm] at hvalue
    have hsplit : ofDigits cDigitBase difference + power * high = W % V + power * last := by omega
    obtain ⟨rfl, hrem⟩ := split_unique hdiff (hmod.trans hvlt) hsplit
    refine ⟨difference, ?_, hrange, hlength, hrem⟩
    rw [if_neg (by omega), Int.sub_self, heq, toUInt32_of_lt (he.trans (by decide))]
    rfl
  · -- The estimate is one more, and the divisor is added back.
    have heq : estimated = W / V + 1 := by omega
    rw [heq, Nat.add_mul, Nat.one_mul, Nat.mul_comm] at hvalue
    obtain ⟨hsumRange, hsumLength, hsum⟩ := addBack_spec hrange hv hlength (Nat.zero_le 1)
    rw [hB, hV, Nat.add_zero] at hsum
    have hsumlt : ofDigits cDigitBase (addBack difference (v₀ ++ [v₂, v₁]) 0).1 < power := by
      rw [← hB, ← hsumLength]
      exact ofDigits_lt one_lt_cDigitBase hsumRange
    generalize hback : addBack difference (v₀ ++ [v₂, v₁]) 0 = back at *
    have hsplit : ofDigits cDigitBase back.1 + power * (back.2 + high) =
        W % V + power * last := by
      rw [Nat.mul_add]
      omega
    obtain ⟨hlast, hrem⟩ := split_unique hsumlt (hmod.trans hvlt) hsplit
    have hone : back.2 = 1 := by
      have hpos' : back.2 ≠ 0 := by
        intro hz
        rw [hz, Nat.mul_zero] at hsum
        omega
      have hlt2 : power * back.2 < power * 2 := by omega
      have hlt3 := Nat.lt_of_mul_lt_mul_left hlt2
      omega
    refine ⟨back.1, ?_, hsumRange, hsumLength, hrem⟩
    have hneg : (high : Int) - (last : Nat) < 0 := by omega
    have hdigit : ((estimated : Nat) : Int) - 1 = (W / V : Nat) := by omega
    have hzero : (high : Int) - (last : Nat) + (back.2 : Nat) = 0 := by omega
    have hquot : W / V < cDigitBase := by omega
    rw [if_pos hneg, hdigit, hzero, toUInt64_of_lt (hquot.trans (by decide)),
      toUInt32_of_lt (hquot.trans (by decide))]
    rfl

theorem divideWindow_tooLow (hw : InRange (w₀ ++ [w₂, w₁])) (hv : InRange (v₀ ++ [v₂, v₁]))
    (hlen : w₀.length = v₀.length) (htop : cDigitBase ≤ 2 * v₁)
    (hlt : ofDigits cDigitBase ((w₀ ++ [w₂, w₁]) ++ [high]) <
      cDigitBase * ofDigits cDigitBase (v₀ ++ [v₂, v₁]))
    (hbad : EstimateTooLow v₁ v₂ (high * cDigitBase + w₁) w₂) :
    (divideWindow (v₀ ++ [v₂, v₁]) (w₀ ++ [w₂, w₁]) high).1 + 1 =
      ofDigits cDigitBase ((w₀ ++ [w₂, w₁]) ++ [high]) /
        ofDigits cDigitBase (v₀ ++ [v₂, v₁]) := by
  have hhigh := high_le_top hv hlen hlt
  have hv₁ : v₁ < cDigitBase := hv v₁ (List.mem_append_right _ (.tail _ (.head _)))
  have hv₂ : v₂ < cDigitBase := hv v₂ (List.mem_append_right _ List.mem_cons_self)
  have hw₁ : w₁ < cDigitBase := hw w₁ (List.mem_append_right _ (.tail _ (.head _)))
  have hw₂ : w₂ < cDigitBase := hw w₂ (List.mem_append_right _ List.mem_cons_self)
  have hv₀ := ofDigits_lt one_lt_cDigitBase fun digit hmem => hv digit (List.mem_append_left _ hmem)
  have hvlt : ofDigits cDigitBase (v₀ ++ [v₂, v₁]) < cDigitBase ^ (v₀ ++ [v₂, v₁]).length :=
    ofDigits_lt one_lt_cDigitBase hv
  have hestimate := estimateDigit_tooLow htop hv₂ hhigh hv₁ hw₁ hw₂ hbad
  have hpos : 0 < ofDigits cDigitBase (v₀ ++ [v₂, v₁]) := by
    rw [Nat.pos_iff_ne_zero]
    intro hz
    rw [hz, Nat.mul_zero] at hlt
    exact Nat.not_lt_zero _ hlt
  -- The leading digits make the quotient the largest digit.
  have hlarge : (cDigitBase - 1) * ofDigits cDigitBase (v₀ ++ [v₂, v₁]) ≤
      ofDigits cDigitBase ((w₀ ++ [w₂, w₁]) ++ [high]) := by
    have hvalue : ofDigits cDigitBase (v₀ ++ [v₂, v₁]) ≤
        (v₁ + 1) * cDigitBase * cDigitBase ^ v₀.length := by
      calc ofDigits cDigitBase (v₀ ++ [v₂, v₁]) =
            (v₁ * cDigitBase + v₂) * cDigitBase ^ v₀.length + ofDigits cDigitBase v₀ :=
            ofDigits_leading v₀ v₂ v₁
        _ ≤ (v₁ * cDigitBase + v₂) * cDigitBase ^ v₀.length + cDigitBase ^ v₀.length :=
            Nat.add_le_add_left (Nat.le_of_lt hv₀) _
        _ = (v₁ * cDigitBase + v₂ + 1) * cDigitBase ^ v₀.length := (Nat.succ_mul _ _).symm
        _ ≤ (v₁ + 1) * cDigitBase * cDigitBase ^ v₀.length := by
            apply Nat.mul_le_mul_right
            rw [Nat.add_mul, Nat.one_mul]
            omega
    have hfactor : (cDigitBase - 1) * (v₁ + 1) ≤ high * cDigitBase + w₁ := by
      have hexpand : (cDigitBase - 1) * (v₁ + 1) + (v₁ + 1) = cDigitBase * v₁ + cDigitBase := by
        rw [← Nat.succ_mul, Nat.succ_eq_add_one, Nat.sub_add_cancel (by decide), Nat.mul_add,
          Nat.mul_one]
      have hle := hbad.1
      rw [Nat.add_mul, Nat.one_mul] at hle
      omega
    calc (cDigitBase - 1) * ofDigits cDigitBase (v₀ ++ [v₂, v₁]) ≤
          (cDigitBase - 1) * ((v₁ + 1) * cDigitBase * cDigitBase ^ v₀.length) :=
          Nat.mul_le_mul_left _ hvalue
      _ = (cDigitBase - 1) * (v₁ + 1) * cDigitBase * cDigitBase ^ v₀.length := by
          rw [← Nat.mul_assoc, ← Nat.mul_assoc]
      _ ≤ (high * cDigitBase + w₁) * cDigitBase * cDigitBase ^ v₀.length :=
          Nat.mul_le_mul_right _ (Nat.mul_le_mul_right _ hfactor)
      _ ≤ ofDigits cDigitBase ((w₀ ++ [w₂, w₁]) ++ [high]) := by
          rw [ofDigits_leading_three, hlen]
          apply Nat.le_add_right_of_le
          exact Nat.mul_le_mul_right _ (Nat.le_add_right _ _)
  have hquot : ofDigits cDigitBase ((w₀ ++ [w₂, w₁]) ++ [high]) /
      ofDigits cDigitBase (v₀ ++ [v₂, v₁]) = cDigitBase - 1 := by
    apply Nat.le_antisymm
    · exact Nat.le_pred_of_lt (Nat.div_lt_of_lt_mul (by rwa [Nat.mul_comm]))
    · exact (Nat.le_div_iff_mul_le hpos).mpr hlarge
  obtain ⟨difference, last, hsub, hrange, hlength, hvalue⟩ :=
    subtractProduct_window high hw hv hlen (show cDigitBase - 2 < cDigitBase by decide)
  have hdiff : ofDigits cDigitBase difference < cDigitBase ^ (v₀ ++ [v₂, v₁]).length := by
    rw [← hlength]
    exact ofDigits_lt one_lt_cDigitBase hrange
  have hnonneg : ¬ (high : Int) - (last : Nat) < 0 := by
    intro hneg
    have hle : cDigitBase ^ (v₀ ++ [v₂, v₁]).length * (high + 1) ≤
        cDigitBase ^ (v₀ ++ [v₂, v₁]).length * last := Nat.mul_le_mul_left _ (by omega)
    have hsucc : (cDigitBase - 1) * ofDigits cDigitBase (v₀ ++ [v₂, v₁]) =
        (cDigitBase - 2) * ofDigits cDigitBase (v₀ ++ [v₂, v₁]) +
          ofDigits cDigitBase (v₀ ++ [v₂, v₁]) := by
      rw [← Nat.succ_mul]
      rfl
    rw [Nat.mul_add, Nat.mul_one] at hle
    omega
  have hsize : (v₀ ++ [v₂, v₁]).length = v₀.length + 2 := List.length_append
  obtain ⟨htop', hsecond'⟩ := getD_leading v₀ v₂ v₁
  obtain ⟨hnext', hthird'⟩ := getD_leading w₀ w₂ w₁
  rw [hlen] at hnext' hthird'
  rw [divideWindow, hsize, hquot]
  simp only [htop', hsecond', hnext', hthird', hestimate, hsub, if_neg hnonneg]
  rfl

end Turn

end Window

end Digits

end ErbslandCore.Math
