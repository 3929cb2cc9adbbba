import ErbslandCore.Data.Cbor.CborValue

namespace ErbslandCore.Data.Cbor
open Library Mem Text
set_option autoImplicit true

/-- The parser: its input reader, the scratch writer and the number of decoded values. -/
structure CborCodec where
  reader : ByteReader
  writer : List UInt8 := []
  valueCount : Nat := 0
  deriving DecidableEq

def cUInt64Max : Nat := 2 ^ 64 - 1

def cInt64Max : Nat := 2 ^ 63 - 1

def fail : Except DataError α := .error (.parse "Malformed or unsupported CBOR data.")

def CborCodec.readUIntOrThrow (s : CborCodec) (size : Nat) : Except DataError (Nat × CborCodec) := do
  let (value, reader) ← fromMem (s.reader.readUIntOrThrow size .big)
  return (value, { s with reader })

def CborCodec.readBytesOrThrow (s : CborCodec) (length : Nat) :
    Except DataError (List UInt8 × CborCodec) := do
  let (bytes, reader) ← fromMem (s.reader.readBytesOrThrow length)
  return (bytes, { s with reader })

/-- A base-128 number from the bits at `shift` on. -/
def readVarint (shift value : Nat) : List UInt8 → Option (Nat × List UInt8)
  | [] => none
  | octet :: data =>
    if shift ≥ 64 then none
    else if shift = 63 ∧ octet &&& 0x7F > 1 then none
    else
      let value := value ||| (octet &&& 0x7F).toNat <<< shift
      if octet &&& 0x80 = 0 then
        if shift ≠ 0 ∧ octet &&& 0x7F = 0 then none else some (value, data)
      else readVarint (shift + 7) value data

/-- The framing of a content identifier, of version 0 or 1. -/
def validCid (data : List UInt8) : Bool :=
  match data with
  | [] => false
  | first :: rest =>
    if first = 0x12 then data.length = 34 && rest.headD 0 = 0x20
    else
      let read := do
        let (version, data) ← readVarint 0 0 data
        let (codec, data) ← readVarint 0 0 data
        let (hashCode, data) ← readVarint 0 0 data
        let (digestLength, data) ← readVarint 0 0 data
        return version = 1 && codec ≠ 0 && hashCode ≠ 0 && digestLength = data.length
      read.getD false

/-- The bits of a double with the value of a narrower float. -/
def widenFloat (exponentBits mantissaBits : Nat) (nan : Nat) (bits : Nat) : UInt64 :=
  let sign := bits >>> (exponentBits + mantissaBits) % 2 <<< 63
  let exponent := bits >>> mantissaBits % 2 ^ exponentBits
  let mantissa := bits % 2 ^ mantissaBits
  let bias := 2 ^ (exponentBits - 1) - 1
  UInt64.ofNat <|
    if exponent = 2 ^ exponentBits - 1 then
      if mantissa = 0 then sign + 0x7FF <<< 52 else nan
    else if exponent = 0 then
      if mantissa = 0 then sign
      else
        let top := mantissa.log2
        sign + (1024 + top - bias - mantissaBits) <<< 52 + (mantissa - 2 ^ top) <<< (52 - top)
    else sign + (exponent + 1023 - bias) <<< 52 + mantissa <<< (52 - mantissaBits)

def halfToDouble (bits : Nat) : UInt64 := widenFloat 5 10 (0x7FF8 <<< 48) bits

/-- A single-precision number keeps the sign and the payload when it is not a number. -/
def singleToDouble (bits : Nat) : UInt64 :=
  widenFloat 8 23 (bits >>> 31 <<< 63 + 0x7FF <<< 52 + (bits % 2 ^ 22 + 2 ^ 22) <<< 29) bits

/-- The integer of an additional information from 24 on. -/
def CborCodec.readInteger (s : CborCodec) (additional : Nat) : Except DataError (Nat × CborCodec) :=
  if additional = 24 then s.readUIntOrThrow 1
  else if additional = 25 then s.readUIntOrThrow 2
  else if additional = 26 then s.readUIntOrThrow 4
  else if additional = 27 then s.readUIntOrThrow 8
  else fail

/-- The bits of a double that represents a float of an additional information. -/
def CborCodec.readFloat (s : CborCodec) (additional : Nat) :
    Except DataError (UInt64 × CborCodec) := do
  let (bits, s) ← s.readInteger additional
  return (if additional = 25 then halfToDouble bits
    else if additional = 26 then singleToDouble bits
    else UInt64.ofNat bits, s)

section parser
variable (clock : Clock) (o : CborParseOptions)

def readArgument (s : CborCodec) (additional : Nat) (allowIndefinite : Bool := false) :
    Except DataError (Nat × CborCodec) :=
  if additional < 24 then return (additional, s)
  else if additional = 31 ∧ allowIndefinite ∧ ¬ o.dagCbor then return (cUInt64Max, s)
  else do
    let (value, s) ← s.readInteger additional
    if o.dagCbor ∧ (additional = 24 ∧ value < 24 ∨ additional = 25 ∧ value ≤ 0xFF ∨
      additional = 26 ∧ value ≤ 0xFFFF ∨ additional = 27 ∧ value ≤ 0xFFFFFFFF) then fail
    else return (value, s)

/-- The parts of an indefinite sequence, appended to the scratch writer. -/
def readParts (major : Nat) : Nat → CborCodec → Except DataError CborCodec
  | 0, _ => .error .outOfFuel
  | fuel + 1, s =>
    if s.reader.isAtEnd then fail
    else if s.reader.peekByte = 0xFF then return { s with reader := s.reader.advance 1 }
    else do
      let (head, s) ← s.readUIntOrThrow 1
      if head >>> 5 ≠ major ∨ head &&& 31 = 31 then fail
      else do
        let (partLength, s) ← readArgument o s (head &&& 31)
        if partLength > o.maximumInputLength ∨ ¬ s.reader.canRead partLength then fail
        else do
          let (part, s) ← s.readBytesOrThrow partLength
          let s := { s with writer := s.writer ++ part }
          if s.writer.length > o.maximumInputLength then fail else readParts major fuel s

def readBytes (s : CborCodec) (additional major : Nat) :
    Except DataError (List UInt8 × CborCodec) := do
  let (length, s) ← readArgument o s additional true
  if length ≠ cUInt64Max then
    if length > o.maximumInputLength ∨ ¬ s.reader.canRead length then fail
    else s.readBytesOrThrow length
  else do
    let start := s.writer.length
    let s ← readParts o major (s.reader.unread.length + 1) s
    return (s.writer.drop start, s)

def readText (s : CborCodec) (additional : Nat) : Except DataError (List UInt8 × CborCodec) := do
  let (bytes, s) ← readBytes o s additional 3
  if bytes.length > o.maximumStringLength then fail
  else if o.dagCbor ∧ ¬ Utf8.isValid bytes then fail
  else return (bytes, s)

/-- A reader of one value, at a nesting depth. -/
abbrev ValueReader := CborCodec → Nat → Except DataError (CborValue clock.Timestamp × CborCodec)

variable {clock} (readValue : ValueReader clock)

def readItems (depth count : Nat) :
    Nat → CborCodec → Nat → Except DataError (List (CborValue clock.Timestamp) × CborCodec)
  | 0, _, _ => .error .outOfFuel
  | fuel + 1, s, i =>
    if ¬ (count = cUInt64Max ∨ i < count) then return ([], s)
    else if count = cUInt64Max ∧ s.reader.peekByte = 0xFF then
      return ([], { s with reader := s.reader.advance 1 })
    else if s.reader.isAtEnd then fail
    else do
      let (item, s) ← readValue s (depth + 1)
      let (items, s) ← readItems depth count fuel s (i + 1)
      return (item :: items, s)

def readArray (s : CborCodec) (additional depth : Nat) :
    Except DataError (CborValue clock.Timestamp × CborCodec) :=
  if depth ≥ o.maximumNesting then fail
  else do
    let (count, s) ← readArgument o s additional true
    if count ≠ cUInt64Max ∧ count > o.maximumValueCount then fail
    else do
      let (items, s) ← readItems readValue depth count (s.reader.unread.length + 1) s 0
      return (.array items, s)

def readEntries (depth count : Nat) :
    Nat → CborCodec → Nat → StringMap (CborValue clock.Timestamp) → List UInt8 →
      Except DataError (StringMap (CborValue clock.Timestamp) × CborCodec)
  | 0, _, _, _, _ => .error .outOfFuel
  | fuel + 1, s, i, map, previous =>
    if ¬ (count = cUInt64Max ∨ i < count) then return (map, s)
    else if count = cUInt64Max ∧ s.reader.peekByte = 0xFF then
      return (map, { s with reader := s.reader.advance 1 })
    else if s.reader.isAtEnd then fail
    else do
      let start := s.reader
      let (keyValue, s) ← readValue s (depth + 1)
      match keyValue with
      | .text key =>
        let encoded := start.sliceFrom s.reader
        if map.contains key then fail
        else if o.dagCbor ∧ previous ≠ [] ∧ ¬ previous < encoded then fail
        else do
          let (value, s) ← readValue s (depth + 1)
          readEntries depth count fuel s (i + 1) (map.set key value)
            (if o.dagCbor then encoded else previous)
      | _ => fail

def readMap (s : CborCodec) (additional depth : Nat) :
    Except DataError (CborValue clock.Timestamp × CborCodec) :=
  if depth ≥ o.maximumNesting then fail
  else do
    let (count, s) ← readArgument o s additional true
    if count ≠ cUInt64Max ∧ count > o.maximumValueCount then fail
    else do
      let (map, s) ← readEntries o readValue depth count (s.reader.unread.length + 1) s 0 [] []
      return (.map map, s)

/-- The seconds and nanoseconds of a number after the POSIX epoch. -/
def posixSeconds (value : CborValue clock.Timestamp) : Option (Int × Nat) :=
  match value with
  | .signed number => some (number.toInt, 0)
  | .unsigned number => if number.toNat ≤ cInt64Max then some (number.toNat, 0) else none
  | .float bits => clock.splitSeconds bits
  | _ => none

def readTag (s : CborCodec) (additional depth : Nat) :
    Except DataError (CborValue clock.Timestamp × CborCodec) := do
  let (tag, s) ← readArgument o s additional
  if tag = 42 then do
    let (value, s) ← readValue s depth
    match value with
    | .bytes (first :: cid) => if first ≠ 0 ∨ ¬ validCid cid then fail else return (.link cid, s)
    | _ => fail
  else if o.dagCbor then fail
  else if tag = 0 then do
    let (value, s) ← readValue s depth
    match value with
    | .text text => match clock.fromIsoString text with
      | some date => return (.dateTime date, s)
      | none => fail
    | _ => fail
  else if tag = 1 then do
    let (value, s) ← readValue s depth
    match posixSeconds value with
    | some (seconds, nanoseconds) =>
      if seconds < 0 ∧ seconds < -clock.epoch ∨ seconds > 0 ∧ clock.epoch > cInt64Max - seconds then
        fail
      else match clock.fromTicks (clock.epoch + seconds) nanoseconds with
        | some date => return (.dateTime date, s)
        | none => fail
    | none => fail
  else fail

def readSimple (s : CborCodec) (additional : Nat) :
    Except DataError (CborValue clock.Timestamp × CborCodec) :=
  if additional = 20 then return (.bool false, s)
  else if additional = 21 then return (.bool true, s)
  else if additional = 22 then return (.null, s)
  else if additional = 25 ∨ additional = 26 ∨ additional = 27 then
    if o.dagCbor ∧ additional ≠ 27 then fail
    else do
      let (value, s) ← s.readFloat additional
      if o.dagCbor ∧ (¬ isFinite value ∨ isZero value ∧ signbit value) then fail
      else return (.float value, s)
  else fail

/-- The value of a head of a major type. -/
def readMajor (s : CborCodec) (major additional depth : Nat) :
    Except DataError (CborValue clock.Timestamp × CborCodec) :=
  match major with
  | 0 => do
    let (value, s) ← readArgument o s additional
    return (.unsigned (UInt64.ofNat value), s)
  | 1 => do
    let (magnitude, s) ← readArgument o s additional
    if magnitude > cInt64Max then fail
    else return (.signed (Int64.ofInt (-1 - magnitude)), s)
  | 2 => do
    let (bytes, s) ← readBytes o s additional 2
    return (.bytes bytes, s)
  | 3 => do
    let (text, s) ← readText o s additional
    return (.text text, s)
  | 4 => readArray o readValue s additional depth
  | 5 => readMap o readValue s additional depth
  | 6 => readTag o readValue s additional depth
  | 7 => readSimple o s additional
  | _ => fail

end parser

variable (clock : Clock) (o : CborParseOptions)

/-- The fuel bounds the nesting of values; every value takes at least one byte. -/
def readValue : Nat → ValueReader clock
  | 0, _, _ => .error .outOfFuel
  | fuel + 1, s, depth =>
    if s.reader.isAtEnd ∨ s.valueCount ≥ o.maximumValueCount then fail
    else do
      let s := { s with valueCount := s.valueCount + 1 }
      let (head, s) ← s.readUIntOrThrow 1
      readMajor o (readValue fuel) s (head >>> 5) (head &&& 31) depth

def parse (block : ByteBlock) : Except DataError (CborValue clock.Timestamp) :=
  if block.bytes.length > o.maximumInputLength then fail
  else do
    let (value, s) ← readValue clock o (block.bytes.length + 1)
      { reader := { unread := block.bytes } } 0
    if s.reader.isAtEnd then return value else fail

/-- Every exception but a parse error is reported as one. -/
def decode (block : ByteBlock) : Except DataError (CborValue clock.Timestamp) :=
  match parse clock o block with
  | .error (.outOfRange _) => fail
  | .error (.parameter _ _) => fail
  | result => result

section writer
variable (format : CborFormatOptions)

def writeHead (major value : Nat) : List UInt8 :=
  let base := major <<< 5
  if value < 24 then [UInt8.ofNat (base ||| value)]
  else if value ≤ 0xFF then UInt8.ofNat (base ||| 24) :: toBigEndian 1 value
  else if value ≤ 0xFFFF then UInt8.ofNat (base ||| 25) :: toBigEndian 2 value
  else if value ≤ 0xFFFFFFFF then UInt8.ofNat (base ||| 26) :: toBigEndian 4 value
  else UInt8.ofNat (base ||| 27) :: toBigEndian 8 value

def writeBytes (value : List UInt8) : List UInt8 := writeHead 2 value.length ++ value

def writeText (value : List UInt8) : Except DataError (List UInt8) :=
  if format.dagCbor ∧ ¬ Utf8.isValid value then
    .error (.parameter "DAG-CBOR requires valid UTF-8." "value")
  else
    let bytes := Utf8.toStdString value
    return writeHead 3 bytes.length ++ bytes

/-- The order of DAG-CBOR: shorter keys first. -/
def keyLess (a b : List UInt8) : Bool :=
  if a.length ≠ b.length then a.length < b.length else Text.compare a b = .lt

/-- Entries in the order of their keys, each with the outcome of writing its value. -/
def sortEntries (entries : StringMap α) : StringMap α :=
  entries.mergeSort fun a b => !keyLess b.1 a.1

def writeEntries : StringMap (Except DataError (List UInt8)) → Except DataError (List UInt8)
  | [] => return []
  | (key, entry) :: entries => do
    let key ← writeText format key
    let entry ← entry
    let rest ← writeEntries entries
    return key ++ entry ++ rest

def writeFloat (number : UInt64) : Except DataError (List UInt8) :=
  if format.dagCbor ∧ ¬ isFinite number then
    .error (.parameter "DAG-CBOR requires a finite float." "value")
  else
    let number := if format.dagCbor ∧ isZero number then 0 else number
    return 0xFB :: toBigEndian 8 number.toNat

mutual

def writeValue : CborValue clock.Timestamp → Except DataError (List UInt8)
  | .null => return [0xF6]
  | .bool value => return [if value then 0xF5 else 0xF4]
  | .signed number =>
    if number.toInt ≥ 0 then return writeHead 0 number.toInt.toNat
    else return writeHead 1 (-(number.toInt + 1)).toNat
  | .unsigned number => return writeHead 0 number.toNat
  | .float number => writeFloat format number
  | .text value => writeText format value
  | .bytes value => return writeBytes value
  | .array items => do
    let items' ← writeItems items
    return writeHead 4 items.length ++ items'
  | .map entries => do
    let written := writtenEntries entries
    let entries' ← writeEntries format (if format.dagCbor then sortEntries written else written)
    return writeHead 5 entries.length ++ entries'
  | .dateTime date =>
    if format.dagCbor then .error (.parameter "DAG-CBOR does not support date/time tags." "value")
    else match clock.toIsoString date with
      | none => .error (.parameter "Invalid CBOR date/time." "value")
      | some text => do
        let text ← writeText format text
        return writeHead 6 0 ++ text
  | .link cid =>
    if ¬ validCid cid then
      .error (.parameter "A CID link must contain a valid binary CID." "value")
    else return writeHead 6 42 ++ writeHead 2 (cid.length + 1) ++ 0 :: cid

def writeItems : List (CborValue clock.Timestamp) → Except DataError (List UInt8)
  | [] => return []
  | item :: items => do
    let item ← writeValue item
    let rest ← writeItems items
    return item ++ rest

/-- The outcome of writing each value, next to its key. -/
def writtenEntries : List (List UInt8 × CborValue clock.Timestamp) →
    StringMap (Except DataError (List UInt8))
  | [] => []
  | (key, entry) :: entries => (key, writeValue entry) :: writtenEntries entries

end

def encode (value : CborValue clock.Timestamp) : Except DataError (List UInt8) :=
  writeValue clock format value

end writer
end ErbslandCore.Data.Cbor
