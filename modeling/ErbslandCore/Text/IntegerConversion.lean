import ErbslandCore.Math.SignedMagnitude
import ErbslandCore.Text.StringCharReader

namespace ErbslandCore.Text.IntegerConversion
open Library Math
set_option autoImplicit true

inductive LetterCase where
  | uppercase
  | lowercase
  deriving DecidableEq

inductive IntegerBase where
  | decimal
  | hexadecimal
  | binary
  | octal
  deriving DecidableEq

namespace IntegerBase

def baseFactor : IntegerBase → Nat
  | decimal => 10
  | hexadecimal => 16
  | binary => 2
  | octal => 8

def digitGroupSize (base : IntegerBase) : Nat :=
  if base = hexadecimal ∨ base = binary then 4 else 3

def fromPrefixChar (character : Nat) : Option IntegerBase :=
  if character = 0x78 ∨ character = 0x58 then some hexadecimal
  else if character = 0x62 ∨ character = 0x42 then some binary
  else if character = 0x6F ∨ character = 0x4F then some octal
  else none

/-- The character after the zero of a base prefix, for the bases that have one. -/
def prefixChar (base : IntegerBase) (letterCase : LetterCase) : Option Nat :=
  match base with
  | hexadecimal => some (if letterCase = .uppercase then 0x58 else 0x78)
  | binary => some (if letterCase = .uppercase then 0x42 else 0x62)
  | octal => some (if letterCase = .uppercase then 0x4F else 0x6F)
  | decimal => none

end IntegerBase

/-- The character of a digit, `Char::fromDigitValue`. -/
def fromDigitValue (digit : Nat) (letterCase : LetterCase) : Nat :=
  if digit < 10 then 0x30 + digit
  else (if letterCase = .uppercase then 0x41 else 0x61) + (digit - 10)

inductive IntegerSignMode where
  | negativeOnly
  | always
  | space
  deriving DecidableEq

structure IntegerFormat where
  base : IntegerBase := .decimal
  zeroFill : Bool := false
  separator : Bool := false
  basePrefix : Bool := false
  letterCase : LetterCase := .lowercase
  fieldWidth : Nat := 0
  precision : Option Nat := none
  signMode : IntegerSignMode := .negativeOnly
  deriving DecidableEq

/-- The digits of a magnitude, the lowest one first, in an array with some room. -/
def collectDigits (baseValue : Nat) : Nat → Nat → List Nat
  | 0, _ => []
  | room + 1, remainingMagnitude =>
    remainingMagnitude % baseValue ::
      if remainingMagnitude / baseValue = 0 then []
      else collectDigits baseValue room (remainingMagnitude / baseValue)

/-- A digit of the padded field, with the separator before it. -/
def fieldPiece (digits : List Nat) (zeroPadCount : Nat) (format : IntegerFormat) (index : Nat) :
    List Nat :=
  let groupSize := format.base.digitGroupSize
  let paddedDigitCount := digits.length + zeroPadCount
  let firstGroupSize :=
    if paddedDigitCount % groupSize = 0 then groupSize else paddedDigitCount % groupSize
  let digit :=
    if index < zeroPadCount then 0x30
    else digits[digits.length - 1 - (index - zeroPadCount)]?.getD 0
  if format.separator ∧ 0 < index ∧ firstGroupSize ≤ index ∧
      (index - firstGroupSize) % groupSize = 0 then [0x27, digit]
  else [digit]

def appendDigitField (digits : List Nat) (zeroPadCount : Nat) (format : IntegerFormat) : List Nat :=
  (List.range (digits.length + zeroPadCount)).flatMap (fieldPiece digits zeroPadCount format)

/-- The zeros before the digits, for the precision and for the field width. -/
def zeroPadding (digitCount : Nat) (format : IntegerFormat) : Nat :=
  let precisionZeroPadCount := format.precision.getD 0 - digitCount
  let missingDigits := format.fieldWidth - (digitCount + precisionZeroPadCount)
  precisionZeroPadCount + if format.zeroFill then missingDigits else 0

def spacePadding (digitCount : Nat) (format : IntegerFormat) : Nat :=
  let precisionZeroPadCount := format.precision.getD 0 - digitCount
  let missingDigits := format.fieldWidth - (digitCount + precisionZeroPadCount)
  if format.zeroFill then 0 else missingDigits

def signText (negative : Bool) (signMode : IntegerSignMode) : List Nat :=
  if negative then [0x2D]
  else match signMode with
    | .negativeOnly => []
    | .always => [0x2B]
    | .space => [0x20]

def prefixText (format : IntegerFormat) : List Nat :=
  if format.basePrefix then
    match format.base.prefixChar format.letterCase with
    | some character => [0x30, character]
    | none => []
  else []

/-- The text of an integer. -/
def appendInteger (value : Value T) (format : IntegerFormat) : Except Fault (List Nat) := do
  let magnitude ← SignedMagnitude.fromValue T value
  let digits := (collectDigits format.base.baseFactor (T.bits + 1) magnitude.magnitude.val.toNat).map
    (fromDigitValue · format.letterCase)
  return List.replicate (spacePadding digits.length format) 0x20 ++
    signText magnitude.isNegative format.signMode ++ prefixText format ++
    appendDigitField digits (zeroPadding digits.length format) format

structure IntegerParseOptions where
  fixedBase : Option IntegerBase := none
  allowSeparator : Bool := false
  acceptMinusSign : Bool := false
  ignorePlusSign : Bool := false
  stopAtMaximum : Bool := false
  minimumDigits : Nat := 0
  maximumDigits : Option Nat := none
  separator : Nat := 0x27
  deriving DecidableEq

inductive ReadNumberStatus where
  | success
  | noDigits
  | tooFewDigits
  | tooManyDigits
  | overflow
  | parseError
  deriving DecidableEq

structure ReadIntegerResult where
  value : Nat := 0
  digitCount : Nat := 0
  isNegative : Bool := false
  base : IntegerBase
  position : Nat
  status : ReadNumberStatus
  deriving DecidableEq

/-- A reader at a position of a text, with the characters from there on. -/
structure StringCharReader where
  position : Nat := 0
  remaining : List Nat
  deriving DecidableEq

namespace StringCharReader

/-- The next character; there is none at the end of the data. -/
def current (reader : StringCharReader) : Option Nat := reader.remaining.head?

def advance (reader : StringCharReader) : StringCharReader :=
  match reader.remaining with
  | [] => reader
  | _ :: rest => ⟨reader.position + 1, rest⟩

/-- Character values that are no code points but signals. -/
def isSignal (character : Nat) : Bool := 0xFFFFFF00 ≤ character

/-- The value, the number of digits, whether a separator was last, and the reader behind them. -/
abbrev Scanned := Nat × Nat × Bool × StringCharReader

/-- The loop over digits and separators, or the status and the position of a failure. -/
def scanDigits (options : IntegerParseOptions) (baseValue result digitCount : Nat)
    (lastWasSeparator : Bool) (position : Nat) :
    List Nat → Except (ReadNumberStatus × Nat) Scanned
  | [] => .ok (result, digitCount, lastWasSeparator, ⟨position, []⟩)
  | next :: rest =>
    if options.maximumDigits.any (· ≤ digitCount) ∧ options.stopAtMaximum then
      .ok (result, digitCount, lastWasSeparator, ⟨position, next :: rest⟩)
    else if isSignal next then .error (.parseError, position)
    else if options.allowSeparator ∧ next = options.separator then
      if digitCount = 0 ∨ lastWasSeparator then .error (.parseError, position)
      else scanDigits options baseValue result digitCount true (position + 1) rest
    else match digitValue baseValue next with
      | none =>
        if lastWasSeparator then .error (.parseError, position)
        else .ok (result, digitCount, lastWasSeparator, ⟨position, next :: rest⟩)
      | some digit =>
        if options.maximumDigits.any (· ≤ digitCount) then .error (.tooManyDigits, position)
        else if 2 ^ 64 ≤ result * baseValue then .error (.overflow, position)
        else if 2 ^ 64 ≤ result * baseValue + digit then .error (.overflow, position)
        else scanDigits options baseValue (result * baseValue + digit) (digitCount + 1) false
          (position + 1) rest

/-- The result of a failure, with the reader restored to a saved state. -/
def fail (state : StringCharReader) (base : IntegerBase) (errorPosition : Nat)
    (status : ReadNumberStatus) : ReadIntegerResult × StringCharReader :=
  ({ base, position := errorPosition, status }, state)

/-- The digits after the sign and the prefix, and the checks after them. -/
def scanMagnitude (options : IntegerParseOptions) (state : StringCharReader) (isNegative : Bool)
    (base : IntegerBase) (reader : StringCharReader) : ReadIntegerResult × StringCharReader :=
  match scanDigits options base.baseFactor 0 0 false reader.position reader.remaining with
  | .error (status, errorPosition) => fail state base errorPosition status
  | .ok (value, digitCount, lastWasSeparator, reader) =>
    if digitCount = 0 then fail state base reader.position .noDigits
    else if lastWasSeparator then fail state base reader.position .parseError
    else if digitCount < options.minimumDigits then fail state base reader.position .tooFewDigits
    else ({ value, digitCount, isNegative, base, position := state.position, status := .success },
      reader)

/-- The base of a prefix at the reader. -/
def prefixedBase (reader : StringCharReader) : Option IntegerBase :=
  if reader.current = some 0x30 then reader.advance.current.bind IntegerBase.fromPrefixChar
  else none

def scanUnsigned (options : IntegerParseOptions) (state : StringCharReader) (isNegative : Bool)
    (reader : StringCharReader) : ReadIntegerResult × StringCharReader :=
  match reader.prefixedBase with
  | some base =>
    if options.fixedBase.isSome then fail state .decimal reader.advance.position .parseError
    else scanMagnitude options state isNegative base reader.advance.advance
  | none => scanMagnitude options state isNegative (options.fixedBase.getD .decimal) reader

def scanInteger (options : IntegerParseOptions) (reader : StringCharReader) :
    ReadIntegerResult × StringCharReader :=
  if options.maximumDigits.any (· < options.minimumDigits) then
    fail reader .decimal reader.position .parseError
  else if reader.current = some 0x2D then
    if options.acceptMinusSign then scanUnsigned options reader true reader.advance
    else fail reader .decimal reader.position .parseError
  else if reader.current = some 0x2B then
    if options.ignorePlusSign then scanUnsigned options reader false reader.advance
    else fail reader .decimal reader.position .parseError
  else scanUnsigned options reader false reader

end StringCharReader

inductive ReadIntegerError where
  | parseNumber (reason : String) (status : ReadNumberStatus) (position : Option Nat)
  | overflow (reason : String)
  | fault (fault : Fault)
  deriving DecidableEq

namespace StringCharReader

def readError (status : ReadNumberStatus) (position : Nat) : ReadIntegerError :=
  match status with
  | .success => .parseNumber "Integer number was read successfully" status position
  | .noDigits => .parseNumber "Expected an integer number, got no digits" status position
  | .tooFewDigits => .parseNumber "Expected an integer number with more digits" status position
  | .tooManyDigits => .parseNumber "Integer number has too many digits" status position
  | .overflow => .overflow "Integer number exceeds the supported range"
  | .parseError => .parseNumber "Integer number has invalid syntax" status position

def exceedsRange : ReadIntegerError :=
  .parseNumber "Integer number exceeds the supported range" .overflow none

theorem eightBytes_valid : 8 = 1 ∨ 8 = 2 ∨ 8 = 4 ∨ 8 = 8 := by decide

def int64 : NativeInteger := { isSigned := true, size := 8, size_valid := eightBytes_valid }

def uint64 : NativeInteger := { isSigned := false, size := 8, size_valid := eightBytes_valid }

/-- The conversion of a scanned number to a signed type. -/
def toSigned (T : NativeInteger) (result : ReadIntegerResult) :
    Except ReadIntegerError (Value T) := do
  let magnitude : SignedMagnitude int64 :=
    .fromSignAndMagnitude result.isNegative (.staticCast _ result.value)
  let minimum := Value.staticCast int64 T.minimum
  let maximum := Value.staticCast int64 T.maximum
  if ← (magnitude.wouldSaturate minimum maximum).mapError .fault then .error exceedsRange
  else
    let value ← (magnitude.toSaturatingValue minimum maximum).mapError .fault
    .ok (.staticCast T value.val)

/-- The conversion of a scanned number to an unsigned type. -/
def toUnsigned (T : NativeInteger) (result : ReadIntegerResult) :
    Except ReadIntegerError (Value T) :=
  if result.isNegative then .error exceedsRange
  else if willCastOverflow T (Value.staticCast uint64 result.value) then .error exceedsRange
  else .ok (saturatingCast T (Value.staticCast uint64 result.value))

def readIntegerOrThrow (T : NativeInteger) (options : IntegerParseOptions)
    (reader : StringCharReader) : Except ReadIntegerError (Value T) × StringCharReader :=
  let (result, behind) := reader.scanInteger options
  if result.status ≠ .success then (.error (readError result.status result.position), behind)
  else match if T.isSigned then toSigned T result else toUnsigned T result with
    | .error error => (.error error, reader)
    | .ok value => (.ok value, behind)

end StringCharReader

end ErbslandCore.Text.IntegerConversion
