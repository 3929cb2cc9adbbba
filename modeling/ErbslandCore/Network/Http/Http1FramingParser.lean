import ErbslandCore.Network.Http.HttpValues

namespace ErbslandCore.Network
open Text
set_option autoImplicit true

inductive Http1TransferCoding where
  | none
  | chunked
  | unsupported
  deriving DecidableEq

/-- A parser reports malformed text, or runs out of the fuel of its recursion. -/
inductive ParseError where
  | parse (message : String)
  | outOfFuel
  deriving DecidableEq

/-- The framing fields that were read so far. -/
structure Http1FramingParser where
  contentLength : Option Nat := none
  transferCoding : Http1TransferCoding := .none
  codingCount : Nat := 0
  deriving DecidableEq

namespace Http1FramingParser

/-- The members of a list field, separated by commas and optional blanks, are visited in turn. -/
def parseList (name : String) (isMember : Nat → Bool)
    (visit : Http1FramingParser → List Nat → Except ParseError Http1FramingParser) :
    Nat → Http1FramingParser → List Nat → Except ParseError Http1FramingParser
  | 0, _, _ => .error .outOfFuel
  | fuel + 1, parser, reader => do
    let reader := reader.dropWhile isAsciiBlank
    let capture := reader.takeWhile isMember
    if capture = [] then .error (.parse (name ++ " has a malformed list value."))
    else
      let parser ← visit parser capture
      match (reader.dropWhile isMember).dropWhile isAsciiBlank with
      | [] => return parser
      | next :: reader =>
        if next ≠ 0x2C then .error (.parse (name ++ " has a malformed list delimiter."))
        else if reader = [] then .error (.parse (name ++ " has an empty list member."))
        else parseList name isMember visit fuel parser reader

/-- A length must agree with the one that was read before. -/
def visitLength (parser : Http1FramingParser) (digits : List Nat) :
    Except ParseError Http1FramingParser :=
  match U8String.toIntegerOrThrow { minimumDigits := 1 } digits with
  | .error .overflow => .error (.parse "Content-Length overflows its numeric range.")
  | .error _ => .error (.parse "Content-Length has a malformed numeric value.")
  | .ok value =>
    if parser.contentLength.any (· ≠ value) then .error (.parse "Content-Length values disagree.")
    else .ok { parser with contentLength := some value }

def visitCoding (parser : Http1FramingParser) (coding : List Nat) :
    Except ParseError Http1FramingParser :=
  .ok { parser with
    codingCount := parser.codingCount + 1
    transferCoding :=
      if coding.map toAsciiLowercase = Utf8.characters (U8String.ofLiteral "chunked") then .chunked
      else .unsupported }

def parseContentLength (parser : Http1FramingParser) (text : List UInt8) :
    Except ParseError Http1FramingParser :=
  if text = [] then .error (.parse "Content-Length must not be empty.")
  else parseList "Content-Length" isAsciiDigit visitLength (text.length + 1) parser
    (Utf8.characters text)

def parseTransferEncoding (parser : Http1FramingParser) (text : List UInt8) :
    Except ParseError Http1FramingParser :=
  if text = [] then .error (.parse "Transfer-Encoding must not be empty.")
  else parseList "Transfer-Encoding" isHttpToken visitCoding (text.length + 1) parser
    (Utf8.characters text)

def parseField (parser : Http1FramingParser) (field : HttpField) :
    Except ParseError Http1FramingParser :=
  if field.name.type = .contentLength then parser.parseContentLength field.value
  else if field.name.type = .transferEncoding then parser.parseTransferEncoding field.value
  else .ok parser

/-- Several codings are not supported. -/
def ofHeaders (fields : List HttpField) : Except ParseError Http1FramingParser := do
  let parser ← fields.foldlM parseField {}
  return if 1 < parser.codingCount then { parser with transferCoding := .unsupported } else parser

/-- The end of a quoted string, after its first quotation mark. -/
def skipQuoted : List Nat → Except ParseError (List Nat)
  | [] => .error (.parse "A quoted chunk extension is not terminated.")
  | character :: reader =>
    if character = 0x22 then .ok reader
    else if character = 0x5C then
      match reader with
      | [] => .error (.parse "A quoted chunk extension is not terminated.")
      | character :: reader =>
        if isAsciiControl character ∧ character ≠ 0x09 then
          .error (.parse "A chunk extension contains a prohibited control.")
        else skipQuoted reader
    else if isAsciiControl character ∧ character ≠ 0x09 then
      .error (.parse "A chunk extension contains a prohibited control.")
    else skipQuoted reader

/-- The value of a chunk extension, if it has one. -/
def skipExtensionValue (reader : List Nat) : Except ParseError (List Nat) :=
  match reader with
  | 0x3D :: reader =>
    match reader.dropWhile isAsciiBlank with
    | 0x22 :: reader => skipQuoted reader
    | reader =>
      if reader.takeWhile isHttpToken = [] then .error (.parse "A chunk extension value is missing.")
      else .ok (reader.dropWhile isHttpToken)
  | reader => .ok reader

def skipExtensions : Nat → List Nat → Except ParseError Unit
  | 0, _ => .error .outOfFuel
  | fuel + 1, reader =>
    if reader = [] then .ok ()
    else match reader.dropWhile isAsciiBlank with
    | 0x3B :: reader =>
      let reader := reader.dropWhile isAsciiBlank
      if reader.takeWhile isHttpToken = [] then .error (.parse "A chunk extension name is missing.")
      else do
        let reader ← skipExtensionValue ((reader.dropWhile isHttpToken).dropWhile isAsciiBlank)
        skipExtensions fuel (reader.dropWhile isAsciiBlank)
    | _ => .error (.parse "A chunk extension is malformed.")

/-- The size of a chunk; its extensions are checked and ignored. -/
def chunkSize (line : List UInt8) : Except ParseError Nat :=
  let reader := Utf8.characters line
  let digits := reader.takeWhile isAsciiHexDigit
  if digits = [] then .error (.parse "A chunk-size line requires hexadecimal digits.")
  else match U8String.toIntegerOrThrow { fixedBase := 16, minimumDigits := 1 } digits with
  | .error .overflow => .error (.parse "The chunk size overflows its numeric range.")
  | .error _ => .error (.parse "The chunk size is malformed.")
  | .ok result => do
    skipExtensions (line.length + 1) (reader.dropWhile isAsciiHexDigit)
    return result

end Http1FramingParser
end ErbslandCore.Network
