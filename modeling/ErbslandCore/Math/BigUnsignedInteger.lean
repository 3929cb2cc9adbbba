import ErbslandCore.Math.BigIntegerDigits
import ErbslandCore.Text.StringCharReader

namespace ErbslandCore.Math
open Library.Positional
open Nat (ofDigits)
set_option autoImplicit true

namespace Digits

/-- The decimal digits of an integer, the least significant first. -/
def integerDigits (value : Nat) : List Nat :=
  value % 10 :: if value / 10 ≠ 0 then integerDigits (value / 10) else []
termination_by value
decreasing_by omega

def fromDigitValue (digit : Nat) : Nat := 0x30 + digit

/-- The text of an integer without options. -/
def fromInteger (value : Nat) : List Nat := ((integerDigits value).map fromDigitValue).reverse

def isSign (character : Nat) : Bool := character = 0x2D || character = 0x2B || character = 0x20

def isBasePrefix (character : Nat) : Bool :=
  [0x78, 0x58, 0x62, 0x42, 0x6F, 0x4F].contains character

/-- The text of a number, filled up with zeros behind its sign and its base. -/
def zeroPaddedNumericText (text : List Nat) (width : Nat) : List Nat :=
  if width ≤ text.length then text
  else
    let signEnd := if text.head?.any isSign then 1 else 0
    let numberStart :=
      if signEnd + 2 ≤ text.length ∧ text[signEnd]? = some 0x30 ∧
        text[signEnd + 1]?.any isBasePrefix then signEnd + 2 else signEnd
    text.take numberStart ++ List.replicate (width - text.length) 0x30 ++ text.drop numberStart

/-- A group of nine characters. -/
def digitGroup (digit : Nat) : List Nat := zeroPaddedNumericText (fromInteger digit) 9

/-- The text of the digits, the most significant digit first and without leading zeros. -/
def toString (digits : List Nat) : List Nat :=
  match digits.reverse with
  | [] => [0x30]
  | leading :: digits => fromInteger leading ++ digits.flatMap digitGroup

/-- The digits of the number read, and whether there was a digit. -/
def parseLoop : List Nat → List Nat → Bool → Bool → Option (List Nat × Bool)
  | [], result, _, hasDigit => some (result, hasDigit)
  | character :: text, result, isFirst, hasDigit =>
    if isFirst ∧ character = 0x2B then parseLoop text result false hasDigit
    else match Text.digitValue 10 character with
      | none => none
      | some digitValue => parseLoop text (addSmall (multiplySmall result 10) digitValue) false true

def fromString (text : List Nat) : Option (List Nat) :=
  match parseLoop text [] true false with
  | some (result, true) => some result
  | _ => none

/-- The number that decimal digits denote after a number, the most significant digit first. -/
def appendDecimal (value : Nat) (decimals : List Nat) : Nat :=
  decimals.foldl (fun value digit => value * 10 + digit) value

theorem integerDigits_lt (value : Nat) : ∀ digit ∈ integerDigits value, digit < 10 := by
  induction value using integerDigits.induct with
  | case1 value ih =>
    rw [integerDigits]
    intro digit hmem
    rcases List.mem_cons.mp hmem with rfl | hmem
    · exact Nat.mod_lt _ (by decide)
    · by_cases hz : value / 10 ≠ 0
      · rw [if_pos hz] at hmem
        exact ih hz digit hmem
      · rw [if_neg hz] at hmem
        cases hmem

theorem length_integerDigits (h : value < 10 ^ (n + 1)) :
    (integerDigits value).length ≤ n + 1 := by
  induction n generalizing value with
  | zero =>
    have hz : ¬ value / 10 ≠ 0 := by omega
    rw [integerDigits, if_neg hz]
    exact Nat.le_refl 1
  | succ n ih =>
    rw [integerDigits]
    by_cases hz : value / 10 ≠ 0
    · rw [if_pos hz, List.length_cons]
      have hlt : value / 10 < 10 ^ (n + 1) := Nat.div_lt_of_lt_mul (by rwa [← Nat.pow_succ'])
      exact Nat.succ_le_succ (ih hlt)
    · rw [if_neg hz, List.length_singleton]
      exact Nat.succ_le_succ (Nat.zero_le _)

theorem appendDecimal_integerDigits (value v : Nat) :
    appendDecimal v (integerDigits value).reverse =
      v * 10 ^ (integerDigits value).length + value := by
  induction value using integerDigits.induct generalizing v with
  | case1 value ih =>
    rw [integerDigits, List.reverse_cons, appendDecimal, List.foldl_append, List.length_cons]
    by_cases hz : value / 10 ≠ 0
    · have hrest := ih hz v
      rw [appendDecimal] at hrest
      rw [if_pos hz, hrest, List.foldl_cons, List.foldl_nil, Nat.pow_succ]
      have hdiv := Nat.mod_add_div value 10
      rw [Nat.add_mul, Nat.mul_assoc]
      omega
    · rw [if_neg hz, List.reverse_nil, List.foldl_nil, List.foldl_cons, List.foldl_nil,
        List.length_nil]
      omega

theorem appendDecimal_replicate (n v : Nat) :
    appendDecimal v (List.replicate n 0) = v * 10 ^ n := by
  induction n generalizing v with
  | zero => exact (Nat.mul_one v).symm
  | succ n ih =>
    rw [List.replicate_succ, appendDecimal, List.foldl_cons, Nat.add_zero]
    have hrest := ih (v * 10)
    rw [appendDecimal] at hrest
    rw [hrest, Nat.mul_assoc, ← Nat.pow_succ']

theorem fromInteger_eq (value : Nat) :
    fromInteger value = (integerDigits value).reverse.map fromDigitValue := by
  rw [fromInteger, List.map_reverse]

/-- The characters of decimal digits are no sign and name no base. -/
theorem zeroPadded_digits (h : ∀ digit ∈ decimals, digit < 10) (hlen : decimals.length ≤ width) :
    zeroPaddedNumericText (decimals.map fromDigitValue) width =
      (List.replicate (width - decimals.length) 0 ++ decimals).map fromDigitValue := by
  have hsign : (decimals.map fromDigitValue).head?.any isSign = false := by
    cases decimals with
    | nil => rfl
    | cons digit decimals =>
      have hlt := h digit List.mem_cons_self
      rw [List.map_cons, List.head?_cons, Option.any_some, isSign, fromDigitValue]
      simp only [Bool.or_eq_false_iff, decide_eq_false_iff_not]
      omega
  have hbase : (decimals.map fromDigitValue)[0 + 1]?.any isBasePrefix = false := by
    rw [List.getElem?_map]
    cases hd : decimals[0 + 1]? with
    | none => rfl
    | some digit =>
      have hlt := h digit (List.mem_of_getElem? hd)
      rw [Option.map_some, Option.any_some, isBasePrefix, fromDigitValue]
      interval_cases digit <;> rfl
  rw [zeroPaddedNumericText, List.map_append, List.map_replicate]
  split
  case isTrue hle =>
    rw [List.length_map] at hle
    rw [Nat.le_antisymm hlen hle, Nat.sub_self]
    rfl
  case isFalse =>
    simp only [hsign, hbase, Bool.false_eq_true, if_false, and_false, List.take_zero,
      List.nil_append, List.drop_zero, List.length_map]
    rfl

theorem digitGroup_eq (h : digit < cDigitBase) : ∃ decimals, (∀ d ∈ decimals, d < 10) ∧
    digitGroup digit = decimals.map fromDigitValue ∧
    ∀ v, appendDecimal v decimals = v * cDigitBase + digit := by
  have hlen : (integerDigits digit).length ≤ 9 := length_integerDigits h
  have hlt : ∀ d ∈ (integerDigits digit).reverse, d < 10 :=
    fun d hmem => integerDigits_lt digit d (List.mem_reverse.mp hmem)
  refine ⟨List.replicate (9 - (integerDigits digit).length) 0 ++ (integerDigits digit).reverse,
    ?_, ?_, ?_⟩
  · intro d hmem
    rcases List.mem_append.mp hmem with hmem | hmem
    · rw [List.eq_of_mem_replicate hmem]
      decide
    · exact hlt d hmem
  · rw [digitGroup, fromInteger_eq, zeroPadded_digits hlt, List.length_reverse]
    rwa [List.length_reverse]
  · intro v
    have hzeros := appendDecimal_replicate (9 - (integerDigits digit).length) v
    have hdigits := appendDecimal_integerDigits digit
      (v * 10 ^ (9 - (integerDigits digit).length))
    rw [appendDecimal] at hzeros hdigits ⊢
    rw [List.foldl_append, hzeros, hdigits, Nat.mul_assoc, ← Nat.pow_add,
      Nat.sub_add_cancel hlen]
    rfl

theorem digitGroups_eq (h : InRange groups) : ∃ decimals, (∀ d ∈ decimals, d < 10) ∧
    groups.flatMap digitGroup = decimals.map fromDigitValue ∧
    ∀ v, appendDecimal v decimals =
      v * cDigitBase ^ groups.length + ofDigits cDigitBase groups.reverse := by
  induction groups with
  | nil => exact ⟨[], nofun, rfl, fun v => (Nat.mul_one v).symm⟩
  | cons digit groups ih =>
    rw [inRange_cons] at h
    obtain ⟨first, hfirst, htext, hvalue⟩ := digitGroup_eq h.1
    obtain ⟨rest, hrest, htexts, hvalues⟩ := ih h.2
    refine ⟨first ++ rest, ?_, ?_, ?_⟩
    · intro d hmem
      rcases List.mem_append.mp hmem with hmem | hmem
      · exact hfirst d hmem
      · exact hrest d hmem
    · rw [List.flatMap_cons, List.map_append, htext, htexts]
    · intro v
      have hhead := hvalue v
      have htail := hvalues (v * cDigitBase + digit)
      rw [appendDecimal] at hhead htail ⊢
      rw [List.foldl_append, hhead, htail, List.reverse_cons, ofDigits_concat,
        List.length_reverse, List.length_cons]
      ring

/-- The text is made of decimal digits that denote the number. -/
theorem toString_eq (h : InRange digits) : ∃ decimals, decimals ≠ [] ∧ (∀ d ∈ decimals, d < 10) ∧
    toString digits = decimals.map fromDigitValue ∧
    appendDecimal 0 decimals = ofDigits cDigitBase digits := by
  rw [toString]
  cases hrev : digits.reverse with
  | nil =>
    rw [List.reverse_eq_nil_iff] at hrev
    subst hrev
    exact ⟨[0], List.cons_ne_nil _ _, by decide, rfl, rfl⟩
  | cons leading groups =>
    have hdigits : digits = groups.reverse ++ [leading] := by
      rw [← List.reverse_reverse digits, hrev, List.reverse_cons]
    have hrange : InRange groups := by
      intro digit hmem
      apply h
      rw [hdigits]
      exact List.mem_append_left _ (List.mem_reverse.mpr hmem)
    obtain ⟨rest, hrest, htexts, hvalues⟩ := digitGroups_eq hrange
    refine ⟨(integerDigits leading).reverse ++ rest, ?_, ?_, ?_, ?_⟩
    · rw [integerDigits, List.reverse_cons]
      simp only [ne_eq, List.append_eq_nil_iff, List.cons_ne_nil, and_false, false_and,
        not_false_eq_true]
    · intro d hmem
      rcases List.mem_append.mp hmem with hmem | hmem
      · exact integerDigits_lt leading d (List.mem_reverse.mp hmem)
      · exact hrest d hmem
    · rw [List.map_append, ← fromInteger_eq, ← htexts]
    · have hhead := appendDecimal_integerDigits leading 0
      have htail := hvalues leading
      rw [Nat.zero_mul, Nat.zero_add, appendDecimal] at hhead
      rw [appendDecimal] at htail ⊢
      rw [List.foldl_append, hhead, htail, hdigits, ofDigits_concat, List.length_reverse]
      ring

theorem digitValue_fromDigitValue (h : digit < 10) :
    Text.digitValue 10 (fromDigitValue digit) = some digit := by
  interval_cases digit <;> rfl

theorem parseLoop_digits (h : ∀ digit ∈ decimals, digit < 10) (hr : Canonical cDigitBase result) :
    ∃ digits, parseLoop (decimals.map fromDigitValue) result isFirst hasDigit =
        some (digits, hasDigit || decimals ≠ []) ∧ Canonical cDigitBase digits ∧
      ofDigits cDigitBase digits = appendDecimal (ofDigits cDigitBase result) decimals := by
  induction decimals generalizing result isFirst hasDigit with
  | nil =>
    refine ⟨result, ?_, hr, rfl⟩
    rw [List.map_nil, parseLoop, decide_eq_false (not_not.mpr rfl), Bool.or_false]
  | cons digit decimals ih =>
    have hlt := h digit List.mem_cons_self
    have hbase : digit < cDigitBase := hlt.trans (by decide)
    have hten : 10 ≤ cDigitBase := by decide
    have hmul := multiplySmall_canonical hr hten
    obtain ⟨digits, hparse, hcanonical, hvalue⟩ := @ih _ false true
      (fun digit hmem => h digit (List.mem_cons_of_mem _ hmem)) (addSmall_canonical hmul hbase)
    have hplus : ¬ (isFirst = true ∧ fromDigitValue digit = 0x2B) := by
      rw [fromDigitValue]
      omega
    refine ⟨digits, ?_, hcanonical, ?_⟩
    · rw [List.map_cons, parseLoop, if_neg hplus, digitValue_fromDigitValue hlt]
      simp only [hparse, Bool.true_or, decide_eq_true (List.cons_ne_nil digit decimals),
        Bool.or_true]
    · rw [hvalue, (addSmall_spec hmul.lt hbase).1, multiplySmall_value hr.lt hten]
      rfl

theorem fromString_toString (h : Canonical cDigitBase digits) :
    fromString (toString digits) = some digits := by
  obtain ⟨decimals, hne, hlt, htext, hvalue⟩ := toString_eq h.lt
  obtain ⟨result, hparse, hcanonical, hresult⟩ := parseLoop_digits hlt (canonical_nil cDigitBase)
  rw [Nat.ofDigits_nil, hvalue] at hresult
  have hsame := hcanonical.ext one_lt_cDigitBase h hresult
  rw [fromString, htext, hparse, decide_eq_true hne, Bool.or_true, hsame]

theorem parseLoop_canonical (h : parseLoop text result isFirst hasDigit = some (digits, last))
    (hr : Canonical cDigitBase result) : Canonical cDigitBase digits := by
  induction text generalizing result isFirst hasDigit with
  | nil =>
    rw [parseLoop, Option.some.injEq, Prod.mk.injEq] at h
    exact h.1 ▸ hr
  | cons character text ih =>
    rw [parseLoop] at h
    split at h
    case isTrue => exact ih h hr
    case isFalse =>
      split at h
      case h_1 => cases h
      case h_2 digit hdigit =>
        apply ih h
        have hlt : digit < 10 := by
          rw [Text.digitValue, Option.filter_eq_some_iff] at hdigit
          exact of_decide_eq_true hdigit.2
        exact addSmall_canonical (multiplySmall_canonical hr (by decide)) (hlt.trans (by decide))

theorem fromString_canonical (h : fromString text = some digits) : Canonical cDigitBase digits := by
  rw [fromString] at h
  split at h
  case h_1 result hparse =>
    rw [Option.some.injEq] at h
    exact h ▸ parseLoop_canonical hparse (canonical_nil _)
  case h_2 => cases h

theorem subtractAssign_canonical (hx : Canonical cDigitBase x) (hy : Canonical cDigitBase y)
    (h : subtractAssign x y = .ok digits) : Canonical cDigitBase digits := by
  rcases Nat.lt_or_ge (ofDigits cDigitBase x) (ofDigits cDigitBase y) with hlt | hle
  · rw [subtractAssign_underflow hx hy hlt] at h
    cases h
  · obtain ⟨difference, hok, hcanonical, -⟩ := subtractAssign_spec hx hy hle
    rw [hok, Except.ok.injEq] at h
    exact h ▸ hcanonical

end Digits

/-- An unsigned integer of any size. -/
structure BigUnsignedInteger where
  digits : List Nat
  canonical : Canonical cDigitBase digits
  deriving DecidableEq

namespace BigUnsignedInteger

/-- The number that the digits denote. -/
def toNat (x : BigUnsignedInteger) : Nat := ofDigits cDigitBase x.digits

def zero : BigUnsignedInteger := ⟨[], canonical_nil _⟩

def isZero (x : BigUnsignedInteger) : Bool := x.digits.isEmpty

/-- The value of a native unsigned integer. -/
def assign (value : Nat) : BigUnsignedInteger := ⟨Digits.assign value, (Digits.assign_spec value).1⟩

variable (x y : BigUnsignedInteger)

def compare : Ordering := Digits.compare x.digits y.digits

def add : BigUnsignedInteger :=
  ⟨Digits.addAssign x.digits y.digits, Digits.addAssign_canonical x.canonical y.canonical⟩

def subtract : Except BigIntegerError BigUnsignedInteger :=
  match h : Digits.subtractAssign x.digits y.digits with
  | .error e => .error e
  | .ok digits => .ok ⟨digits, Digits.subtractAssign_canonical x.canonical y.canonical h⟩

def multiply : BigUnsignedInteger :=
  ⟨Digits.multiplyAssign x.digits y.digits, (Digits.multiplyAssign_spec x.canonical y.canonical).1⟩

def toString : List Nat := Digits.toString x.digits

def fromString (text : List Nat) : Option BigUnsignedInteger :=
  match h : Digits.fromString text with
  | none => none
  | some digits => some ⟨digits, Digits.fromString_canonical h⟩

variable {x y : BigUnsignedInteger}

theorem ext_toNat (h : x.toNat = y.toNat) : x = y := by
  obtain ⟨xs, hx⟩ := x
  obtain ⟨ys, hy⟩ := y
  obtain rfl : xs = ys := hx.ext one_lt_cDigitBase hy h
  rfl

theorem toNat_zero : zero.toNat = 0 := rfl

theorem toNat_assign (value : Nat) : (assign value).toNat = value := (Digits.assign_spec value).2

theorem isZero_iff : x.isZero = true ↔ x.toNat = 0 := by
  rw [isZero, List.isEmpty_iff]
  exact (x.canonical.ofDigits_eq_zero (by decide)).symm

theorem compare_eq (x y : BigUnsignedInteger) : x.compare y = Ord.compare x.toNat y.toNat :=
  Digits.compare_spec x.canonical y.canonical

theorem toNat_add (x y : BigUnsignedInteger) : (x.add y).toNat = x.toNat + y.toNat :=
  Digits.addAssign_value x.canonical y.canonical

theorem toNat_multiply (x y : BigUnsignedInteger) : (x.multiply y).toNat = x.toNat * y.toNat :=
  (Digits.multiplyAssign_spec x.canonical y.canonical).2

theorem subtract_underflow (h : x.toNat < y.toNat) :
    x.subtract y = .error .subtractionUnderflow := by
  have herror := Digits.subtractAssign_underflow x.canonical y.canonical h
  rw [subtract]
  split
  case h_1 => rfl
  case h_2 digits hok =>
    rw [herror] at hok
    cases hok

theorem subtract_spec (h : y.toNat ≤ x.toNat) :
    ∃ z, x.subtract y = .ok z ∧ z.toNat = x.toNat - y.toNat := by
  obtain ⟨difference, hdiff, hcanonical, hvalue⟩ :=
    Digits.subtractAssign_spec x.canonical y.canonical h
  refine ⟨⟨difference, hcanonical⟩, ?_, hvalue⟩
  rw [subtract]
  split
  case h_1 e he =>
    rw [hdiff] at he
    cases he
  case h_2 digits hok =>
    rw [hdiff, Except.ok.injEq] at hok
    subst hok
    rfl

theorem fromString_toString (x : BigUnsignedInteger) : fromString x.toString = some x := by
  have htext := Digits.fromString_toString x.canonical
  rw [fromString, toString]
  split
  case h_1 hnone =>
    rw [htext] at hnone
    cases hnone
  case h_2 digits hsome =>
    rw [htext, Option.some.injEq] at hsome
    subst hsome
    rfl

end BigUnsignedInteger

end ErbslandCore.Math
