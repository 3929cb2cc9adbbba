import ErbslandCore.Library.Positional

namespace ErbslandCore.Math
open Library.Positional
open Nat (ofDigits)
set_option autoImplicit true

/-- The base of the digits. -/
def cDigitBase : Nat := 1000000000

def toUInt32 (value : Int) : Nat := (value % 2 ^ 32).toNat

def toUInt64 (value : Int) : Nat := (value % 2 ^ 64).toNat

/-- The errors that the operations throw. -/
inductive BigIntegerError where
  | subtractionUnderflow
  deriving DecidableEq

namespace Digits

/-- The order of two lists of digits with the most significant digit first. -/
def compareFrom : List Nat → List Nat → Ordering
  | digit :: digits, otherDigit :: other =>
    if digit ≠ otherDigit then
      if digit < otherDigit then .lt else .gt
    else compareFrom digits other
  | _, _ => .eq

def compare (digits other : List Nat) : Ordering :=
  if digits.length ≠ other.length then
    if digits.length < other.length then .lt else .gt
  else compareFrom digits.reverse other.reverse

/-- A last carry becomes one more digit. -/
def pushCarry (carry : Nat) : List Nat := if carry ≠ 0 then [toUInt32 carry] else []

/-- The sums of the digits; a digit that the other number does not have counts as zero. -/
def addLoop : List Nat → List Nat → Nat → List Nat
  | [], _, carry => pushCarry carry
  | digit :: digits, other, carry =>
    let sum := toUInt64 (digit + other.headD 0 + carry)
    toUInt32 (sum % cDigitBase : Nat) :: addLoop digits other.tail (sum / cDigitBase)

def addAssign (digits other : List Nat) : List Nat :=
  addLoop (digits.rightpad (max digits.length other.length) 0) other 0

/-- The differences of the digits. -/
def subtractLoop : List Nat → List Nat → Int → List Nat
  | [], _, _ => []
  | digit :: digits, other, borrow =>
    let difference : Int := digit - (other.headD 0 : Nat) - borrow
    if difference < 0 then
      toUInt32 (difference + cDigitBase) :: subtractLoop digits other.tail 1
    else toUInt32 difference :: subtractLoop digits other.tail 0

def subtractAssign (digits other : List Nat) : Except BigIntegerError (List Nat) :=
  if compare digits other = .lt then .error .subtractionUnderflow
  else .ok (trim (subtractLoop digits other 0))

/-- The digits after a row of products take up its carry. -/
def propagateCarry : List Nat → Nat → List Nat
  | [], _ => []
  | digit :: digits, carry =>
    if carry ≠ 0 then
      let sum := toUInt64 (digit + carry)
      toUInt32 (sum % cDigitBase : Nat) :: propagateCarry digits (sum / cDigitBase)
    else digit :: digits

/-- The products of one digit, added to the result from the place of the digit on. -/
def multiplyRow (digit : Nat) : List Nat → List Nat → Nat → List Nat
  | otherDigit :: other, resultDigit :: result, carry =>
    let product := toUInt64 (digit * otherDigit + resultDigit + carry)
    toUInt32 (product % cDigitBase : Nat) :: multiplyRow digit other result (product / cDigitBase)
  | _, result, carry => propagateCarry result carry

/-- The rows of all digits; after its row the lowest digit of the result is settled. -/
def multiplyRows (other : List Nat) : List Nat → List Nat → List Nat
  | [], result => result
  | digit :: digits, result =>
    match multiplyRow digit other result 0 with
    | [] => []
    | resultDigit :: rest => resultDigit :: multiplyRows other digits rest

def multiplyAssign (digits other : List Nat) : List Nat :=
  if digits = [] ∨ other = [] then []
  else trim (multiplyRows other digits (List.replicate (digits.length + other.length) 0))

def assign (value : Nat) : List Nat :=
  if value ≠ 0 then toUInt32 (value % cDigitBase : Nat) :: assign (value / cDigitBase) else []
termination_by value
decreasing_by exact Nat.div_lt_self (Nat.pos_of_ne_zero ‹_›) (by decide)

/-- The digits take up a small value until no carry is left. -/
def addSmall : List Nat → Nat → List Nat
  | [], carry => pushCarry carry
  | digit :: digits, carry =>
    if carry ≠ 0 then
      let sum := toUInt64 (digit + carry)
      toUInt32 (sum % cDigitBase : Nat) :: addSmall digits (sum / cDigitBase)
    else digit :: digits

def multiplySmallLoop (value : Nat) : List Nat → Nat → List Nat
  | [], carry => pushCarry carry
  | digit :: digits, carry =>
    let product := toUInt64 (digit * value + carry)
    toUInt32 (product % cDigitBase : Nat) :: multiplySmallLoop value digits (product / cDigitBase)

def multiplySmall (digits : List Nat) (value : Nat) : List Nat :=
  if value = 0 ∨ digits = [] then [] else multiplySmallLoop value digits 0

/-- The remainder and the digits of the quotient, computed from the most significant digit on. -/
def divideSmallLoop (divisor : Nat) : List Nat → Nat × List Nat
  | [] => (0, [])
  | digit :: digits =>
    let (remainder, quotient) := divideSmallLoop divisor digits
    let value := toUInt64 (remainder * cDigitBase + digit)
    (value % divisor, toUInt32 (value / divisor : Nat) :: quotient)

/-- The remainder and the quotient. -/
def divideSmall (digits : List Nat) (divisor : Nat) : Nat × List Nat :=
  let (remainder, quotient) := divideSmallLoop divisor digits
  (toUInt32 remainder, trim quotient)

end Digits

theorem toUInt32_of_lt (h : n < 2 ^ 32) : toUInt32 (n : Nat) = n := by
  rw [toUInt32, Int.emod_eq_of_lt (Int.natCast_nonneg n) (by omega), Int.toNat_natCast]

theorem toUInt64_of_lt (h : n < 2 ^ 64) : toUInt64 (n : Nat) = n := by
  rw [toUInt64, Int.emod_eq_of_lt (Int.natCast_nonneg n) (by omega), Int.toNat_natCast]

theorem toUInt32_digit (n : Nat) : toUInt32 (n % cDigitBase : Nat) = n % cDigitBase := by
  have hlt : n % cDigitBase < cDigitBase := Nat.mod_lt _ (by decide)
  exact toUInt32_of_lt (hlt.trans (by decide))

theorem one_lt_cDigitBase : 1 < cDigitBase := by decide

theorem two_mul_le_square : cDigitBase + cDigitBase ≤ cDigitBase * cDigitBase := by decide

namespace Digits

/-- Every digit is below the base. -/
def InRange (digits : List Nat) : Prop := ∀ digit ∈ digits, digit < cDigitBase

theorem inRange_nil : InRange [] := nofun

theorem inRange_cons : InRange (digit :: digits) ↔ digit < cDigitBase ∧ InRange digits :=
  List.forall_mem_cons

theorem InRange.tail (h : InRange digits) : InRange digits.tail :=
  fun digit hmem => h digit (List.mem_of_mem_tail hmem)

theorem InRange.headD_lt (h : InRange digits) : digits.headD 0 < cDigitBase := by
  cases digits with
  | nil => decide
  | cons digit digits => exact h digit List.mem_cons_self

theorem InRange.append (h : InRange xs) (h' : InRange ys) : InRange (xs ++ ys) := by
  intro digit hmem
  rcases List.mem_append.mp hmem with hmem | hmem
  · exact h digit hmem
  · exact h' digit hmem

theorem inRange_replicate_zero (n : Nat) : InRange (List.replicate n 0) := by
  intro digit hmem
  rw [List.eq_of_mem_replicate hmem]
  decide

/-- The digit written and the carry divide a sum below the square of the base. -/
theorem carry_spec (hlt : n < 2 ^ 64) :
    toUInt32 (toUInt64 (n : Nat) % cDigitBase : Nat) = n % cDigitBase ∧
      toUInt64 (n : Nat) / cDigitBase = n / cDigitBase := by
  rw [toUInt32_digit, toUInt64_of_lt hlt]
  exact ⟨rfl, rfl⟩

/-- A digit written together with the digits above it has the value of the sum it comes from. -/
theorem ofDigits_carry (n : Nat) (digits : List Nat) (h : ofDigits cDigitBase digits =
    rest + n / cDigitBase) :
    ofDigits cDigitBase (n % cDigitBase :: digits) = n + cDigitBase * rest := by
  rw [Nat.ofDigits_cons, h, Nat.mul_add]
  have hdiv := Nat.mod_add_div n cDigitBase
  omega

theorem pushCarry_value (h : carry < 2 ^ 32) : ofDigits cDigitBase (pushCarry carry) = carry := by
  rw [pushCarry]
  split
  case isTrue => rw [Nat.ofDigits_singleton, toUInt32_of_lt h]
  case isFalse hz => exact (Decidable.not_not.mp hz).symm

theorem pushCarry_canonical (h : carry < cDigitBase) : Canonical cDigitBase (pushCarry carry) := by
  rw [pushCarry]
  split
  case isTrue hne =>
    rw [toUInt32_of_lt (h.trans (by decide))]
    constructor
    · intro digit hmem
      rwa [List.mem_singleton.mp hmem]
    · intro _
      exact hne
  case isFalse => exact canonical_nil _

theorem ofDigits_headD_tail (digits : List Nat) :
    ofDigits cDigitBase digits = digits.headD 0 + cDigitBase * ofDigits cDigitBase digits.tail := by
  cases digits with
  | nil => rfl
  | cons digit digits => exact Nat.ofDigits_cons

theorem ofDigits_rightpad (n : Nat) (digits : List Nat) :
    ofDigits cDigitBase (digits.rightpad n 0) = ofDigits cDigitBase digits :=
  Nat.ofDigits_append_replicate_zero digits

theorem length_rightpad (n : Nat) (digits : List Nat) :
    (digits.rightpad n 0).length = max n digits.length := by
  rw [List.rightpad, List.length_append, List.length_replicate]
  omega

theorem InRange.rightpad (h : InRange digits) (n : Nat) : InRange (digits.rightpad n 0) :=
  h.append (inRange_replicate_zero _)

/-- Digits that end in a carry are canonical when the others reach their leading place. -/
theorem canonical_pushCarry (hlow : InRange low) (hc : carry < cDigitBase)
    (h : carry = 0 → low ≠ [] →
      cDigitBase ^ (low.length - 1) ≤ ofDigits cDigitBase (low ++ pushCarry carry)) :
    Canonical cDigitBase (low ++ pushCarry carry) := by
  by_cases hz : carry = 0
  · have hle := h hz
    rw [pushCarry, if_neg (not_not.mpr hz), List.append_nil] at hle ⊢
    exact canonical_of_pow_le one_lt_cDigitBase hlow hle
  · have hpush : pushCarry carry = [carry] := by
      rw [pushCarry, if_pos hz, toUInt32_of_lt (hc.trans (by decide))]
    rw [hpush]
    constructor
    · intro digit hmem
      rcases List.mem_append.mp hmem with hmem | hmem
      · exact hlow digit hmem
      · rwa [List.mem_singleton.mp hmem]
    · intro hne
      rwa [List.getLast_concat]

section Addition

theorem addLoop_spec (hd : InRange digits) (ho : InRange other)
    (hlen : other.length ≤ digits.length) (hc : carry ≤ 1) :
    ofDigits cDigitBase (addLoop digits other carry) =
        ofDigits cDigitBase digits + ofDigits cDigitBase other + carry ∧
      ∃ low last, addLoop digits other carry = low ++ pushCarry last ∧
        low.length = digits.length ∧ InRange low ∧ last ≤ 1 := by
  induction digits generalizing other carry with
  | nil =>
    rw [List.length_nil, Nat.le_zero, List.length_eq_zero_iff] at hlen
    subst hlen
    constructor
    · rw [addLoop, pushCarry_value (Nat.lt_of_le_of_lt hc (by decide)), Nat.ofDigits_nil]
      omega
    · exact ⟨[], carry, rfl, rfl, inRange_nil, hc⟩
  | cons digit digits ih =>
    rw [inRange_cons] at hd
    have hhead : other.headD 0 < cDigitBase := ho.headD_lt
    have hbase : cDigitBase = 1000000000 := rfl
    obtain ⟨hsum, hcarry⟩ := carry_spec
      (show digit + other.headD 0 + carry < 2 ^ 64 by omega)
    have hnext : (digit + other.headD 0 + carry) / cDigitBase ≤ 1 :=
      Nat.le_of_lt_succ (Nat.div_lt_of_lt_mul (by omega))
    have htail : other.tail.length ≤ digits.length := by
      rw [List.length_tail]
      rw [List.length_cons] at hlen
      omega
    obtain ⟨hvalue, low, last, heq, hlow, hrange, hlast⟩ := ih hd.2 ho.tail htail hnext
    rw [addLoop, ← Nat.cast_add, ← Nat.cast_add]
    simp only [hsum, hcarry]
    constructor
    · rw [ofDigits_carry _ _ hvalue, Nat.ofDigits_cons, ofDigits_headD_tail other]
      ring
    · refine ⟨(digit + other.headD 0 + carry) % cDigitBase :: low, last, ?_, ?_, ?_, hlast⟩
      · rw [heq, List.cons_append]
      · rw [List.length_cons, List.length_cons, hlow]
      · exact inRange_cons.mpr ⟨Nat.mod_lt _ (by decide), hrange⟩

theorem addAssign_value (hx : Canonical cDigitBase x) (hy : Canonical cDigitBase y) :
    ofDigits cDigitBase (addAssign x y) = ofDigits cDigitBase x + ofDigits cDigitBase y := by
  have hlen : y.length ≤ (x.rightpad (max x.length y.length) 0).length := by
    rw [length_rightpad]
    omega
  have hvalue := (addLoop_spec (InRange.rightpad hx.lt _) hy.lt hlen (Nat.zero_le 1)).1
  rw [ofDigits_rightpad, Nat.add_zero] at hvalue
  exact hvalue

theorem addAssign_canonical (hx : Canonical cDigitBase x) (hy : Canonical cDigitBase y) :
    Canonical cDigitBase (addAssign x y) := by
  have hlen : y.length ≤ (x.rightpad (max x.length y.length) 0).length := by
    rw [length_rightpad]
    omega
  have hvalue := addAssign_value hx hy
  obtain ⟨-, low, last, heq, hlow, hrange, hlast⟩ :=
    addLoop_spec (InRange.rightpad hx.lt (max x.length y.length)) hy.lt hlen (Nat.zero_le 1)
  rw [addAssign, heq] at hvalue ⊢
  rw [length_rightpad] at hlow
  apply canonical_pushCarry hrange (Nat.lt_of_le_of_lt hlast one_lt_cDigitBase)
  intro _ hne
  have hpos : 0 < low.length := List.length_pos_iff.mpr hne
  rw [hvalue]
  -- One of the numbers has as many digits as the sum.
  rcases Nat.le_total x.length y.length with hle | hle
  · have hlength : low.length = y.length := by omega
    rw [hlength] at hpos ⊢
    exact (hy.pow_le (List.length_pos_iff.mp hpos)).trans (Nat.le_add_left _ _)
  · have hlength : low.length = x.length := by omega
    rw [hlength] at hpos ⊢
    exact (hx.pow_le (List.length_pos_iff.mp hpos)).trans (Nat.le_add_right _ _)

end Addition

section Comparison

theorem compare_add_right (m n k : Nat) : Ord.compare (m + k) (n + k) = Ord.compare m n := by
  rcases Nat.lt_trichotomy m n with hlt | rfl | hlt
  · rw [Nat.compare_eq_lt.mpr hlt, Nat.compare_eq_lt.mpr (Nat.add_lt_add_right hlt k)]
  · rw [Nat.compare_eq_eq.mpr rfl, Nat.compare_eq_eq.mpr rfl]
  · rw [Nat.compare_eq_gt.mpr hlt, Nat.compare_eq_gt.mpr (Nat.add_lt_add_right hlt k)]

theorem compareFrom_spec (hx : InRange xs) (hy : InRange ys) (hlen : xs.length = ys.length) :
    compareFrom xs ys =
      Ord.compare (ofDigits cDigitBase xs.reverse) (ofDigits cDigitBase ys.reverse) := by
  induction xs generalizing ys with
  | nil =>
    obtain rfl := List.length_eq_zero_iff.mp hlen.symm
    rfl
  | cons x xs ih =>
    cases ys with
    | nil => cases hlen
    | cons y ys =>
      rw [inRange_cons] at hx hy
      rw [List.length_cons, List.length_cons, Nat.add_right_cancel_iff] at hlen
      have hrev : xs.reverse.length = ys.reverse.length := by
        rw [List.length_reverse, List.length_reverse, hlen]
      have hx' : ∀ digit ∈ xs.reverse, digit < cDigitBase :=
        fun digit hmem => hx.2 digit (List.mem_reverse.mp hmem)
      have hy' : ∀ digit ∈ ys.reverse, digit < cDigitBase :=
        fun digit hmem => hy.2 digit (List.mem_reverse.mp hmem)
      rw [compareFrom, List.reverse_cons, List.reverse_cons]
      rcases Nat.lt_trichotomy x y with hlt | rfl | hlt
      · have hvalue := ofDigits_concat_lt one_lt_cDigitBase hx' hrev hlt
        rw [if_pos (Nat.ne_of_lt hlt), if_pos hlt, Nat.compare_eq_lt.mpr hvalue]
      · rw [if_neg (not_not.mpr rfl), ih hx.2 hy.2 hlen, ofDigits_concat, ofDigits_concat, hrev,
          compare_add_right]
      · have hvalue := ofDigits_concat_lt one_lt_cDigitBase hy' hrev.symm hlt
        rw [if_pos (Nat.ne_of_gt hlt), if_neg (Nat.lt_asymm hlt), Nat.compare_eq_gt.mpr hvalue]

theorem value_lt_of_length (hx : Canonical cDigitBase x) (hy : Canonical cDigitBase y)
    (h : x.length < y.length) : ofDigits cDigitBase x < ofDigits cDigitBase y := by
  have hne : y ≠ [] := List.length_pos_iff.mp (Nat.zero_lt_of_lt h)
  calc ofDigits cDigitBase x < cDigitBase ^ x.length := ofDigits_lt one_lt_cDigitBase hx.lt
    _ ≤ cDigitBase ^ (y.length - 1) := Nat.pow_le_pow_right (by decide) (Nat.le_pred_of_lt h)
    _ ≤ ofDigits cDigitBase y := hy.pow_le hne

theorem length_le_of_value (hx : Canonical cDigitBase x) (hy : Canonical cDigitBase y)
    (h : ofDigits cDigitBase y ≤ ofDigits cDigitBase x) : y.length ≤ x.length := by
  by_contra hlt
  exact absurd (value_lt_of_length hx hy (Nat.lt_of_not_le hlt)) (Nat.not_lt.mpr h)

theorem compare_spec (hx : Canonical cDigitBase x) (hy : Canonical cDigitBase y) :
    compare x y = Ord.compare (ofDigits cDigitBase x) (ofDigits cDigitBase y) := by
  rw [compare]
  rcases Nat.lt_trichotomy x.length y.length with hlt | heq | hlt
  · rw [if_pos (Nat.ne_of_lt hlt), if_pos hlt, Nat.compare_eq_lt.mpr (value_lt_of_length hx hy hlt)]
  · have hx' : InRange x.reverse := fun digit hmem => hx.lt digit (List.mem_reverse.mp hmem)
    have hy' : InRange y.reverse := fun digit hmem => hy.lt digit (List.mem_reverse.mp hmem)
    have hlen : x.reverse.length = y.reverse.length := by
      rw [List.length_reverse, List.length_reverse, heq]
    rw [if_neg (not_not.mpr heq), compareFrom_spec hx' hy' hlen, List.reverse_reverse,
      List.reverse_reverse]
  · rw [if_pos (Nat.ne_of_gt hlt), if_neg (Nat.lt_asymm hlt),
      Nat.compare_eq_gt.mpr (value_lt_of_length hy hx hlt)]

end Comparison

section Subtraction

/-- The last borrow stands for the power of the base above the digits. -/
theorem subtractLoop_spec (hd : InRange digits) (ho : InRange other)
    (hlen : other.length ≤ digits.length) (hb : borrow ≤ 1) :
    InRange (subtractLoop digits other (borrow : Nat)) ∧
      (subtractLoop digits other (borrow : Nat)).length = digits.length ∧
      ∃ last, ofDigits cDigitBase (subtractLoop digits other (borrow : Nat)) +
          ofDigits cDigitBase other + borrow =
        ofDigits cDigitBase digits + cDigitBase ^ digits.length * last := by
  induction digits generalizing other borrow with
  | nil =>
    rw [List.length_nil, Nat.le_zero, List.length_eq_zero_iff] at hlen
    subst hlen
    refine ⟨inRange_nil, rfl, borrow, ?_⟩
    rw [subtractLoop, Nat.ofDigits_nil, List.length_nil, Nat.pow_zero]
    omega
  | cons digit digits ih =>
    rw [inRange_cons] at hd
    have hhead : other.headD 0 < cDigitBase := ho.headD_lt
    have hbase : cDigitBase = 1000000000 := rfl
    have htail : other.tail.length ≤ digits.length := by
      rw [List.length_tail]
      rw [List.length_cons] at hlen
      omega
    rw [subtractLoop, ofDigits_headD_tail other, List.length_cons, Nat.pow_succ']
    by_cases hneg : (digit : Int) - (other.headD 0 : Nat) - (borrow : Nat) < 0
    · obtain ⟨hrange, hlength, last, hvalue⟩ := ih hd.2 ho.tail htail (Nat.le_refl 1)
      rw [Nat.cast_one] at hrange hlength hvalue
      have hdigit : toUInt32 ((digit : Int) - (other.headD 0 : Nat) - (borrow : Nat) + cDigitBase) =
          digit + cDigitBase - other.headD 0 - borrow := by
        rw [show (digit : Int) - (other.headD 0 : Nat) - (borrow : Nat) + cDigitBase =
          (digit + cDigitBase - other.headD 0 - borrow : Nat) by omega]
        exact toUInt32_of_lt (by omega)
      simp only [if_pos hneg, hdigit]
      refine ⟨inRange_cons.mpr ⟨by omega, hrange⟩, by rw [List.length_cons, hlength], last, ?_⟩
      rw [Nat.ofDigits_cons, Nat.ofDigits_cons]
      have hscaled := congrArg (cDigitBase * ·) hvalue
      simp only [Nat.mul_add, Nat.mul_one, ← Nat.mul_assoc] at hscaled
      omega
    · obtain ⟨hrange, hlength, last, hvalue⟩ := ih hd.2 ho.tail htail (Nat.zero_le 1)
      rw [Nat.cast_zero] at hrange hlength hvalue
      have hdigit : toUInt32 ((digit : Int) - (other.headD 0 : Nat) - (borrow : Nat)) =
          digit - other.headD 0 - borrow := by
        rw [show (digit : Int) - (other.headD 0 : Nat) - (borrow : Nat) =
          (digit - other.headD 0 - borrow : Nat) by omega]
        exact toUInt32_of_lt (by omega)
      simp only [if_neg hneg, hdigit]
      refine ⟨inRange_cons.mpr ⟨by omega, hrange⟩, by rw [List.length_cons, hlength], last, ?_⟩
      rw [Nat.ofDigits_cons, Nat.ofDigits_cons]
      have hscaled := congrArg (cDigitBase * ·) hvalue
      simp only [Nat.mul_add, Nat.mul_zero, ← Nat.mul_assoc] at hscaled
      omega

theorem subtractAssign_underflow (hx : Canonical cDigitBase x) (hy : Canonical cDigitBase y)
    (h : ofDigits cDigitBase x < ofDigits cDigitBase y) :
    subtractAssign x y = .error .subtractionUnderflow := by
  rw [subtractAssign, compare_spec hx hy, Nat.compare_eq_lt.mpr h, if_pos rfl]

theorem subtractAssign_spec (hx : Canonical cDigitBase x) (hy : Canonical cDigitBase y)
    (h : ofDigits cDigitBase y ≤ ofDigits cDigitBase x) :
    ∃ digits, subtractAssign x y = .ok digits ∧ Canonical cDigitBase digits ∧
      ofDigits cDigitBase digits = ofDigits cDigitBase x - ofDigits cDigitBase y := by
  have hcompare : compare x y ≠ .lt := by
    rw [compare_spec hx hy]
    intro hlt
    exact absurd (Nat.compare_eq_lt.mp hlt) (Nat.not_lt.mpr h)
  have hlen := length_le_of_value hx hy h
  obtain ⟨hrange, hlength, last, hvalue⟩ := subtractLoop_spec hx.lt hy.lt hlen (Nat.zero_le 1)
  rw [Nat.cast_zero] at hrange hlength hvalue
  refine ⟨trim (subtractLoop x y 0), ?_, canonical_trim hrange, ?_⟩
  · rw [subtractAssign, if_neg hcompare]
  · rw [ofDigits_trim]
    -- A last borrow would make the difference larger than its digits can say.
    have hlt := ofDigits_lt one_lt_cDigitBase hrange
    rw [hlength] at hlt
    have hlast : last = 0 := by
      by_contra hne
      have hle := Nat.le_mul_of_pos_right (cDigitBase ^ x.length) (Nat.pos_of_ne_zero hne)
      omega
    rw [hlast, Nat.mul_zero] at hvalue
    omega

end Subtraction

section Multiplication

theorem propagateCarry_spec (hd : InRange digits) (hc : carry < cDigitBase)
    (hfits : ofDigits cDigitBase digits + carry < cDigitBase ^ digits.length) :
    InRange (propagateCarry digits carry) ∧ (propagateCarry digits carry).length = digits.length ∧
      ofDigits cDigitBase (propagateCarry digits carry) = ofDigits cDigitBase digits + carry := by
  induction digits generalizing carry with
  | nil =>
    rw [Nat.ofDigits_nil, List.length_nil, Nat.pow_zero] at hfits
    refine ⟨inRange_nil, rfl, ?_⟩
    rw [propagateCarry, Nat.ofDigits_nil]
    omega
  | cons digit digits ih =>
    rw [propagateCarry]
    split
    case isFalse hz =>
      rw [Decidable.not_not.mp hz]
      exact ⟨hd, rfl, rfl⟩
    case isTrue =>
      rw [inRange_cons] at hd
      have hbase : cDigitBase = 1000000000 := rfl
      obtain ⟨hsum, hcarry⟩ := carry_spec (show digit + carry < 2 ^ 64 by omega)
      have hnext : (digit + carry) / cDigitBase < cDigitBase :=
        Nat.div_lt_of_lt_mul ((Nat.add_lt_add hd.1 hc).trans_le two_mul_le_square)
      have hrest : ofDigits cDigitBase digits + (digit + carry) / cDigitBase <
          cDigitBase ^ digits.length := by
        rw [Nat.ofDigits_cons, List.length_cons, Nat.pow_succ'] at hfits
        apply Nat.lt_of_mul_lt_mul_left (a := cDigitBase)
        rw [Nat.mul_add]
        have hdiv := Nat.div_mul_le_self (digit + carry) cDigitBase
        rw [Nat.mul_comm] at hdiv
        omega
      obtain ⟨hrange, hlength, hvalue⟩ := ih hd.2 hnext hrest
      rw [← Nat.cast_add]
      simp only [hsum, hcarry]
      refine ⟨inRange_cons.mpr ⟨Nat.mod_lt _ (by decide), hrange⟩, ?_, ?_⟩
      · rw [List.length_cons, List.length_cons, hlength]
      · rw [ofDigits_carry _ _ hvalue, Nat.ofDigits_cons]
        ring

theorem product_lt (hx : x < cDigitBase) (hy : y < cDigitBase) (hz : z < cDigitBase)
    (hc : carry < cDigitBase) : x * y + z + carry < cDigitBase * cDigitBase := by
  have hle : x * y ≤ (cDigitBase - 1) * (cDigitBase - 1) :=
    Nat.mul_le_mul (Nat.le_pred_of_lt hx) (Nat.le_pred_of_lt hy)
  calc x * y + z + carry ≤ (cDigitBase - 1) * (cDigitBase - 1) + (cDigitBase - 1) +
        (cDigitBase - 1) :=
        Nat.add_le_add (Nat.add_le_add hle (Nat.le_pred_of_lt hz)) (Nat.le_pred_of_lt hc)
    _ < cDigitBase * cDigitBase := by decide

theorem multiplyRow_spec (hx : digit < cDigitBase) (ho : InRange other) (hr : InRange result)
    (hlen : other.length ≤ result.length) (hc : carry < cDigitBase)
    (hfits : ofDigits cDigitBase result + digit * ofDigits cDigitBase other + carry <
      cDigitBase ^ result.length) :
    InRange (multiplyRow digit other result carry) ∧
      (multiplyRow digit other result carry).length = result.length ∧
      ofDigits cDigitBase (multiplyRow digit other result carry) =
        ofDigits cDigitBase result + digit * ofDigits cDigitBase other + carry := by
  induction other generalizing result carry with
  | nil =>
    rw [Nat.ofDigits_nil, Nat.mul_zero, Nat.add_zero] at hfits ⊢
    have heq : multiplyRow digit [] result carry = propagateCarry result carry := by
      cases result <;> rfl
    rw [heq]
    exact propagateCarry_spec hr hc hfits
  | cons otherDigit other ih =>
    cases result with
    | nil => cases hlen
    | cons resultDigit result =>
      rw [inRange_cons] at ho hr
      have hproduct := product_lt hx ho.1 hr.1 hc
      have hbase : cDigitBase * cDigitBase < 2 ^ 64 := by decide
      obtain ⟨hdigit, hcarry⟩ := carry_spec (hproduct.trans hbase)
      have hnext : (digit * otherDigit + resultDigit + carry) / cDigitBase < cDigitBase :=
        Nat.div_lt_of_lt_mul hproduct
      have hdiv := Nat.mod_add_div (digit * otherDigit + resultDigit + carry) cDigitBase
      -- What the row adds above this digit fits below the rest of the result.
      have hrest : ofDigits cDigitBase result + digit * ofDigits cDigitBase other +
          (digit * otherDigit + resultDigit + carry) / cDigitBase < cDigitBase ^ result.length := by
        rw [Nat.ofDigits_cons, Nat.ofDigits_cons, List.length_cons, Nat.pow_succ', Nat.mul_add] at hfits
        apply Nat.lt_of_mul_lt_mul_left (a := cDigitBase)
        rw [Nat.mul_add, Nat.mul_add, Nat.mul_left_comm]
        omega
      obtain ⟨hrange, hlength, hvalue⟩ :=
        ih ho.2 hr.2 (Nat.le_of_succ_le_succ hlen) hnext hrest
      rw [multiplyRow, ← Nat.cast_mul, ← Nat.cast_add, ← Nat.cast_add]
      simp only [hdigit, hcarry]
      refine ⟨inRange_cons.mpr ⟨Nat.mod_lt _ (by decide), hrange⟩, ?_, ?_⟩
      · rw [List.length_cons, List.length_cons, hlength]
      · rw [ofDigits_carry _ _ hvalue, Nat.ofDigits_cons, Nat.ofDigits_cons]
        ring

theorem multiplyRows_spec (ho : InRange other) (hd : InRange digits) (hr : InRange result)
    (hlen : result.length = digits.length + other.length)
    (hfits : ofDigits cDigitBase result + ofDigits cDigitBase digits * ofDigits cDigitBase other <
      cDigitBase ^ result.length) :
    InRange (multiplyRows other digits result) ∧
      ofDigits cDigitBase (multiplyRows other digits result) =
        ofDigits cDigitBase result + ofDigits cDigitBase digits * ofDigits cDigitBase other := by
  induction digits generalizing result with
  | nil =>
    rw [multiplyRows, Nat.ofDigits_nil, Nat.zero_mul]
    exact ⟨hr, rfl⟩
  | cons digit digits ih =>
    rw [inRange_cons] at hd
    rw [List.length_cons] at hlen
    rw [Nat.ofDigits_cons, Nat.add_mul] at hfits
    have hrow := multiplyRow_spec hd.1 ho hr (by omega) (by decide : 0 < cDigitBase) (by omega)
    rw [multiplyRows]
    cases hmul : multiplyRow digit other result 0 with
    | nil =>
      rw [hmul, List.length_nil] at hrow
      omega
    | cons resultDigit rest =>
      rw [hmul, List.length_cons, inRange_cons, Nat.ofDigits_cons] at hrow
      obtain ⟨⟨hdigit, hrange⟩, hlength, hvalue⟩ := hrow
      rw [← hlength, Nat.pow_succ'] at hfits
      have hrest : ofDigits cDigitBase rest +
          ofDigits cDigitBase digits * ofDigits cDigitBase other < cDigitBase ^ rest.length := by
        apply Nat.lt_of_mul_lt_mul_left (a := cDigitBase)
        rw [Nat.mul_add, ← Nat.mul_assoc]
        omega
      obtain ⟨hrows, hsum⟩ := ih hd.2 hrange (by omega) hrest
      refine ⟨inRange_cons.mpr ⟨hdigit, hrows⟩, ?_⟩
      simp only [Nat.ofDigits_cons, Nat.add_mul, hsum, Nat.mul_add, ← Nat.mul_assoc]
      omega

theorem multiplyAssign_spec (hx : Canonical cDigitBase x) (hy : Canonical cDigitBase y) :
    Canonical cDigitBase (multiplyAssign x y) ∧
      ofDigits cDigitBase (multiplyAssign x y) =
        ofDigits cDigitBase x * ofDigits cDigitBase y := by
  rw [multiplyAssign]
  split
  case isTrue hz =>
    refine ⟨canonical_nil _, ?_⟩
    rcases hz with rfl | rfl
    · rw [Nat.ofDigits_nil, Nat.zero_mul]
    · rw [Nat.ofDigits_nil, Nat.mul_zero]
  case isFalse =>
    have hlen : (List.replicate (x.length + y.length) 0).length = x.length + y.length :=
      List.length_replicate
    have hfits : ofDigits cDigitBase x * ofDigits cDigitBase y <
        cDigitBase ^ (x.length + y.length) := by
      rw [Nat.pow_add]
      exact Nat.mul_lt_mul'' (ofDigits_lt one_lt_cDigitBase hx.lt) (ofDigits_lt one_lt_cDigitBase hy.lt)
    obtain ⟨hrange, hvalue⟩ := multiplyRows_spec hy.lt hx.lt
      (inRange_replicate_zero (x.length + y.length)) hlen
      (by rwa [Nat.ofDigits_replicate_zero, hlen, Nat.zero_add])
    rw [Nat.ofDigits_replicate_zero, Nat.zero_add] at hvalue
    refine ⟨canonical_trim hrange, ?_⟩
    rw [ofDigits_trim, hvalue]

end Multiplication

section SmallValues

theorem assign_eq (value : Nat) : assign value = Nat.digits cDigitBase value := by
  induction value using Nat.strongRecOn with
  | _ value ih =>
    rw [assign]
    split
    case isTrue hne =>
      have hpos : 0 < value := Nat.pos_of_ne_zero hne
      rw [toUInt32_digit, ih _ (Nat.div_lt_self hpos one_lt_cDigitBase),
        Nat.digits_def' one_lt_cDigitBase hpos]
    case isFalse hz => rw [Decidable.not_not.mp hz, Nat.digits_zero]

theorem assign_spec (value : Nat) :
    Canonical cDigitBase (assign value) ∧ ofDigits cDigitBase (assign value) = value := by
  rw [assign_eq, Nat.ofDigits_digits]
  refine ⟨⟨fun digit hmem => Nat.digits_lt_base one_lt_cDigitBase hmem, ?_⟩, rfl⟩
  intro hne
  exact Nat.getLast_digit_ne_zero _ (Nat.digits_ne_nil_iff_ne_zero.mp hne)

theorem addSmall_spec (hd : InRange digits) (hc : carry < cDigitBase) :
    ofDigits cDigitBase (addSmall digits carry) = ofDigits cDigitBase digits + carry ∧
      ∃ low last, addSmall digits carry = low ++ pushCarry last ∧
        low.length = digits.length ∧ InRange low ∧ last < cDigitBase := by
  induction digits generalizing carry with
  | nil =>
    rw [addSmall, pushCarry_value (hc.trans (by decide)), Nat.ofDigits_nil, Nat.zero_add]
    exact ⟨rfl, [], carry, rfl, rfl, inRange_nil, hc⟩
  | cons digit digits ih =>
    rw [addSmall]
    split
    case isFalse hz =>
      rw [Decidable.not_not.mp hz]
      exact ⟨rfl, digit :: digits, 0, (List.append_nil _).symm, rfl, hd, by decide⟩
    case isTrue =>
      rw [inRange_cons] at hd
      have hbase : cDigitBase = 1000000000 := rfl
      obtain ⟨hsum, hcarry⟩ := carry_spec (show digit + carry < 2 ^ 64 by omega)
      have hnext : (digit + carry) / cDigitBase < cDigitBase :=
        Nat.div_lt_of_lt_mul ((Nat.add_lt_add hd.1 hc).trans_le two_mul_le_square)
      obtain ⟨hvalue, low, last, heq, hlow, hrange, hlast⟩ := ih hd.2 hnext
      rw [← Nat.cast_add]
      simp only [hsum, hcarry]
      constructor
      · rw [ofDigits_carry _ _ hvalue, Nat.ofDigits_cons]
        ring
      · refine ⟨(digit + carry) % cDigitBase :: low, last, ?_, ?_, ?_, hlast⟩
        · rw [heq, List.cons_append]
        · rw [List.length_cons, List.length_cons, hlow]
        · exact inRange_cons.mpr ⟨Nat.mod_lt _ (by decide), hrange⟩

theorem addSmall_canonical (hd : Canonical cDigitBase digits) (hc : carry < cDigitBase) :
    Canonical cDigitBase (addSmall digits carry) := by
  obtain ⟨hvalue, low, last, heq, hlow, hrange, hlast⟩ := addSmall_spec hd.lt hc
  rw [heq] at hvalue ⊢
  apply canonical_pushCarry hrange hlast
  intro _ hne
  have hpos : 0 < low.length := List.length_pos_iff.mpr hne
  rw [hvalue, hlow]
  rw [hlow] at hpos
  exact (hd.pow_le (List.length_pos_iff.mp hpos)).trans (Nat.le_add_right _ _)

theorem multiplySmallLoop_spec (hv : value ≤ cDigitBase) (hd : InRange digits)
    (hc : carry < cDigitBase) :
    ofDigits cDigitBase (multiplySmallLoop value digits carry) =
        ofDigits cDigitBase digits * value + carry ∧
      ∃ low last, multiplySmallLoop value digits carry = low ++ pushCarry last ∧
        low.length = digits.length ∧ InRange low ∧ last < cDigitBase := by
  induction digits generalizing carry with
  | nil =>
    rw [multiplySmallLoop, pushCarry_value (hc.trans (by decide)), Nat.ofDigits_nil, Nat.zero_mul,
      Nat.zero_add]
    exact ⟨rfl, [], carry, rfl, rfl, inRange_nil, hc⟩
  | cons digit digits ih =>
    rw [inRange_cons] at hd
    have hproduct : digit * value + carry < cDigitBase * cDigitBase := by
      have hle : digit * value ≤ (cDigitBase - 1) * cDigitBase :=
        Nat.mul_le_mul (Nat.le_pred_of_lt hd.1) hv
      rw [Nat.sub_mul, Nat.one_mul] at hle
      have htwo := two_mul_le_square
      omega
    obtain ⟨hdigit, hcarry⟩ := carry_spec (hproduct.trans (by decide))
    obtain ⟨hvalue, low, last, heq, hlow, hrange, hlast⟩ :=
      ih hd.2 (Nat.div_lt_of_lt_mul hproduct)
    rw [multiplySmallLoop, ← Nat.cast_mul, ← Nat.cast_add]
    simp only [hdigit, hcarry]
    constructor
    · rw [ofDigits_carry _ _ hvalue, Nat.ofDigits_cons]
      ring
    · refine ⟨(digit * value + carry) % cDigitBase :: low, last, ?_, ?_, ?_, hlast⟩
      · rw [heq, List.cons_append]
      · rw [List.length_cons, List.length_cons, hlow]
      · exact inRange_cons.mpr ⟨Nat.mod_lt _ (by decide), hrange⟩

theorem multiplySmall_value (hd : InRange digits) (hv : value ≤ cDigitBase) :
    ofDigits cDigitBase (multiplySmall digits value) = ofDigits cDigitBase digits * value := by
  rw [multiplySmall]
  split
  case isTrue hz =>
    rcases hz with rfl | rfl
    · rfl
    · rw [Nat.ofDigits_nil, Nat.zero_mul]
  case isFalse => exact (multiplySmallLoop_spec hv hd (by decide)).1

theorem multiplySmall_canonical (hd : Canonical cDigitBase digits) (hv : value ≤ cDigitBase) :
    Canonical cDigitBase (multiplySmall digits value) := by
  have hvalue := multiplySmall_value hd.lt hv
  rw [multiplySmall] at hvalue ⊢
  split
  case isTrue => exact canonical_nil _
  case isFalse hz =>
    rw [if_neg hz] at hvalue
    rw [not_or] at hz
    obtain ⟨-, low, last, heq, hlow, hrange, hlast⟩ :=
      multiplySmallLoop_spec hv hd.lt (by decide : 0 < cDigitBase)
    rw [heq] at hvalue ⊢
    apply canonical_pushCarry hrange hlast
    intro _ _
    rw [hvalue, hlow]
    exact (hd.pow_le hz.2).trans (Nat.le_mul_of_pos_right _ (Nat.pos_of_ne_zero hz.1))

/-- The loop divides the number and leaves the remainder in the place of a digit. -/
theorem divideSmallLoop_spec (hpos : 0 < divisor) (hdiv : divisor ≤ cDigitBase)
    (hd : InRange digits) :
    (divideSmallLoop divisor digits).1 = ofDigits cDigitBase digits % divisor ∧
      InRange (divideSmallLoop divisor digits).2 ∧
      ofDigits cDigitBase (divideSmallLoop divisor digits).2 =
        ofDigits cDigitBase digits / divisor := by
  induction digits with
  | nil =>
    rw [divideSmallLoop, Nat.ofDigits_nil, Nat.zero_mod, Nat.zero_div]
    exact ⟨rfl, inRange_nil, rfl⟩
  | cons digit digits ih =>
    rw [inRange_cons] at hd
    obtain ⟨hrem, hrange, hquot⟩ := ih hd.2
    have hlt : ofDigits cDigitBase digits % divisor < divisor := Nat.mod_lt _ hpos
    have hvalue : ofDigits cDigitBase digits % divisor * cDigitBase + digit <
        divisor * cDigitBase := by
      have hle : ofDigits cDigitBase digits % divisor * cDigitBase ≤ (divisor - 1) * cDigitBase :=
        Nat.mul_le_mul_right _ (Nat.le_pred_of_lt hlt)
      rw [Nat.sub_mul, Nat.one_mul] at hle
      have hle' := Nat.le_mul_of_pos_left cDigitBase hpos
      omega
    have hwide : ofDigits cDigitBase digits % divisor * cDigitBase + digit < 2 ^ 64 :=
      hvalue.trans_le ((Nat.mul_le_mul_right _ hdiv).trans (by decide))
    have hdigit : (ofDigits cDigitBase digits % divisor * cDigitBase + digit) / divisor <
        cDigitBase := Nat.div_lt_of_lt_mul hvalue
    -- The number is the quotient so far, moved up by a digit, and the value of this turn.
    have hsplit : digit + cDigitBase * ofDigits cDigitBase digits =
        ofDigits cDigitBase digits % divisor * cDigitBase + digit +
          divisor * (cDigitBase * (ofDigits cDigitBase digits / divisor)) := by
      conv_lhs => rw [← Nat.mod_add_div (ofDigits cDigitBase digits) divisor]
      ring
    rw [divideSmallLoop]
    simp only [hrem, ← Nat.cast_mul, ← Nat.cast_add, toUInt64_of_lt hwide,
      toUInt32_of_lt (hdigit.trans (by decide))]
    rw [Nat.ofDigits_cons, Nat.ofDigits_cons, hquot, hsplit, Nat.add_mul_mod_self_left,
      Nat.add_mul_div_left _ _ hpos]
    exact ⟨rfl, inRange_cons.mpr ⟨hdigit, hrange⟩, rfl⟩

theorem divideSmall_spec (hpos : 0 < divisor) (hdiv : divisor ≤ cDigitBase)
    (hd : InRange digits) :
    (divideSmall digits divisor).1 = ofDigits cDigitBase digits % divisor ∧
      Canonical cDigitBase (divideSmall digits divisor).2 ∧
      ofDigits cDigitBase (divideSmall digits divisor).2 =
        ofDigits cDigitBase digits / divisor := by
  obtain ⟨hrem, hrange, hquot⟩ := divideSmallLoop_spec hpos hdiv hd
  have hlt : ofDigits cDigitBase digits % divisor < 2 ^ 32 :=
    (Nat.mod_lt _ hpos).trans_le (hdiv.trans (by decide))
  rw [divideSmall]
  simp only [hrem, toUInt32_of_lt hlt, ofDigits_trim, hquot]
  exact ⟨trivial, canonical_trim hrange, trivial⟩

end SmallValues

end Digits

end ErbslandCore.Math
