import ErbslandCore.Text.U8String

namespace ErbslandCore.Text
open Library
set_option autoImplicit true

/-- The options of the integer parser, without its flags: no sign, no separator, no prefix. -/
structure IntegerParseOptions where
  fixedBase : Nat := 10
  minimumDigits : Nat := 0
  maximumDigits : Option Nat := none
  deriving DecidableEq

inductive ReadNumberStatus where
  | noDigits
  | tooFewDigits
  | tooManyDigits
  | overflow
  | parseError
  deriving DecidableEq

def digitValue (base c : Nat) : Option Nat :=
  let value :=
    if isAsciiDigit c then some (c - 0x30)
    else if 0x41 ≤ c ∧ c ≤ 0x5A then some (c - 0x41 + 10)
    else if 0x61 ≤ c ∧ c ≤ 0x7A then some (c - 0x61 + 10)
    else none
  value.filter (· < base)

/-- A character that introduces a base after a zero. -/
def isPrefixChar (c : Nat) : Bool :=
  c = 0x78 || c = 0x58 || c = 0x62 || c = 0x42 || c = 0x6F || c = 0x4F

namespace StringCharReader

/-- The value and the number of digits read, and the characters after them. -/
def scanDigits (options : IntegerParseOptions) :
    Nat → Nat → List Nat → Except ReadNumberStatus (Nat × Nat × List Nat)
  | result, digitCount, [] => .ok (result, digitCount, [])
  | result, digitCount, next :: rest =>
    match digitValue options.fixedBase next with
    | none => .ok (result, digitCount, next :: rest)
    | some digit =>
      if options.maximumDigits.any (· ≤ digitCount) then .error .tooManyDigits
      else if 2 ^ 64 ≤ result * options.fixedBase then .error .overflow
      else if 2 ^ 64 ≤ result * options.fixedBase + digit then .error .overflow
      else scanDigits options (result * options.fixedBase + digit) (digitCount + 1) rest

def scanInteger (options : IntegerParseOptions) (reader : List Nat) :
    Except ReadNumberStatus (Nat × List Nat) := do
  if reader.head? = some 0x2D ∨ reader.head? = some 0x2B then .error .parseError
  if reader.head? = some 0x30 ∧ (reader.tail.head?.any isPrefixChar) then .error .parseError
  let (result, digitCount, rest) ← scanDigits options 0 0 reader
  if digitCount = 0 then .error .noDigits
  if digitCount < options.minimumDigits then .error .tooFewDigits
  return (result, rest)

end StringCharReader

/-- The number that a whole text denotes. -/
def U8String.toIntegerOrThrow (options : IntegerParseOptions) (text : List Nat) :
    Except ReadNumberStatus Nat := do
  let (value, rest) ← StringCharReader.scanInteger options text
  if rest ≠ [] then .error .parseError
  return value

/-- The number that digits denote after a number, the most significant digit first. -/
def appendDigits (base : Nat) : Nat → List Nat → Option Nat
  | value, [] => some value
  | value, c :: digits => do appendDigits base (value * base + (← digitValue base c)) digits

/-- The number that digits denote. -/
def ofDigits (base : Nat) (digits : List Nat) : Option Nat := appendDigits base 0 digits

theorem StringCharReader.scanDigits_ok
    (h : scanDigits options result digitCount reader = .ok (value, count, rest)) :
    ∃ digits, reader = digits ++ rest ∧ count = digitCount + digits.length ∧
      appendDigits options.fixedBase result digits = some value := by
  induction reader generalizing result digitCount with
  | nil =>
    cases h
    exact ⟨[], rfl, rfl, rfl⟩
  | cons next reader ih =>
    rw [scanDigits] at h
    split at h
    case h_1 =>
      cases h
      exact ⟨[], rfl, rfl, rfl⟩
    case h_2 digit hdigit =>
      split_ifs at h
      obtain ⟨digits, rfl, rfl, hvalue⟩ := ih h
      refine ⟨next :: digits, rfl, by rw [List.length_cons]; omega, ?_⟩
      rw [appendDigits, hdigit]
      exact hvalue

theorem StringCharReader.scanInteger_ok (h : scanInteger options reader = .ok (value, rest)) :
    ∃ digits, reader = digits ++ rest ∧ digits ≠ [] ∧ ofDigits options.fixedBase digits = some value := by
  rw [scanInteger] at h
  by_cases hsign : reader.head? = some 0x2D ∨ reader.head? = some 0x2B
  · rw [if_pos hsign] at h
    cases h
  rw [if_neg hsign] at h
  by_cases hzero : reader.head? = some 0x30 ∧ reader.tail.head?.any isPrefixChar
  · rw [if_pos hzero] at h
    cases h
  rw [if_neg hzero] at h
  obtain ⟨⟨value', count, rest'⟩, hdigits, h⟩ := bind_eq_ok h
  obtain ⟨digits, hreader, hlength, hvalue⟩ := scanDigits_ok hdigits
  simp only at h
  by_cases hcount : count = 0
  · rw [if_pos hcount] at h
    cases h
  rw [if_neg hcount] at h
  by_cases hfew : count < options.minimumDigits
  · rw [if_pos hfew] at h
    cases h
  rw [if_neg hfew] at h
  cases h
  refine ⟨digits, hreader, fun hnil => hcount ?_, hvalue⟩
  rw [hlength, hnil]
  rfl

/-- A text that is parsed as a number has digits, and denotes the number. -/
theorem U8String.toIntegerOrThrow_ok (h : toIntegerOrThrow options text = .ok value) :
    text ≠ [] ∧ ofDigits options.fixedBase text = some value := by
  rw [toIntegerOrThrow] at h
  obtain ⟨⟨value', rest⟩, hscan, h⟩ := bind_eq_ok h
  simp only at h
  split_ifs at h with hrest
  · cases h
  cases h
  obtain ⟨digits, rfl, hne, hvalue⟩ := StringCharReader.scanInteger_ok hscan
  rw [not_not.mp hrest, List.append_nil]
  exact ⟨hne, hvalue⟩

/-- Digits after digits that were read. -/
theorem StringCharReader.scanDigits_append
    (h : scanDigits options result digitCount digits = .ok (value, count, [])) (rest : List Nat) :
    scanDigits options result digitCount (digits ++ rest) = scanDigits options value count rest := by
  induction digits generalizing result digitCount with
  | nil =>
    cases h
    rfl
  | cons next digits ih =>
    rw [scanDigits] at h
    rw [List.cons_append, scanDigits]
    split at h
    case h_1 => cases h
    case h_2 digit hdigit =>
      split_ifs at h with hmany hover hover'
      simp only [if_neg hmany, if_neg hover, if_neg hover']
      exact ih h

/-- A number without a sign and a base prefix is read whole. -/
theorem U8String.toIntegerOrThrow_digits (hsign : text.head? ≠ some 0x2D ∧ text.head? ≠ some 0x2B)
    (hzero : text.head? = some 0x30 → text.tail = [])
    (h : StringCharReader.scanDigits options 0 0 text = .ok (value, count, [])) (hcount : count ≠ 0)
    (hmin : options.minimumDigits ≤ count) : toIntegerOrThrow options text = .ok value := by
  have hprefix : ¬ (text.head? = some 0x30 ∧ text.tail.head?.any isPrefixChar) := by
    rintro ⟨hhead, hany⟩
    rw [hzero hhead] at hany
    cases hany
  rw [toIntegerOrThrow, StringCharReader.scanInteger, if_neg (not_or.mpr hsign), if_neg hprefix, h,
    ok_bind]
  simp only [if_neg hcount, if_neg (not_lt.mpr hmin)]
  rfl

end ErbslandCore.Text
