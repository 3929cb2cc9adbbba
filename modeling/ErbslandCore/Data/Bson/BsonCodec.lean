import ErbslandCore.Data.Bson.BsonValue

namespace ErbslandCore.Data.Bson
open Library Mem Text Time
set_option autoImplicit true

/-- The parser: its input reader and the number of decoded values. -/
structure BsonCodec where
  reader : ByteReader
  valueCount : Nat := 0
  deriving DecidableEq

def cInt32Max : Nat := 2 ^ 31 - 1

def fail : Except DataError α := .error (.parse "Malformed or unsupported BSON data.")

namespace BsonCodec

def readUIntOrThrow (s : BsonCodec) (size : Nat) : Except DataError (Nat × BsonCodec) := do
  let (value, reader) ← fromMem (s.reader.readUIntOrThrow size .little)
  return (value, { s with reader })

def readUInt8OrThrow (s : BsonCodec) : Except DataError (UInt8 × BsonCodec) := do
  let (value, s) ← s.readUIntOrThrow 1
  return (UInt8.ofNat value, s)

def readInt32OrThrow (s : BsonCodec) : Except DataError (Int32 × BsonCodec) := do
  let (value, s) ← s.readUIntOrThrow 4
  return ((UInt32.ofNat value).toInt32, s)

def readInt64OrThrow (s : BsonCodec) : Except DataError (Int64 × BsonCodec) := do
  let (value, s) ← s.readUIntOrThrow 8
  return ((UInt64.ofNat value).toInt64, s)

def readUInt64OrThrow (s : BsonCodec) : Except DataError (UInt64 × BsonCodec) := do
  let (value, s) ← s.readUIntOrThrow 8
  return (UInt64.ofNat value, s)

def readBytesOrThrow (s : BsonCodec) (length : Nat) : Except DataError (List UInt8 × BsonCodec) := do
  let (bytes, reader) ← fromMem (s.reader.readBytesOrThrow length)
  return (bytes, { s with reader })

/-- Skip bytes of a payload that is kept as it is. -/
def skip (s : BsonCodec) (length : Nat) : Except DataError BsonCodec :=
  if ¬ s.reader.canRead length then fail
  else return { s with reader := s.reader.advance length }

end BsonCodec

/-- The bytes before the terminator, after some that were read before. -/
def scanCString (maximum : Nat) : Nat → List UInt8 → Option (List UInt8)
  | _, [] => none
  | count, byte :: data =>
    if byte = 0 then some []
    else if count + 1 > maximum then none
    else (scanCString maximum (count + 1) data).map (byte :: ·)

section parser
variable (o : BsonParseOptions)

def readCString (s : BsonCodec) : Except DataError (List UInt8 × BsonCodec) :=
  match scanCString o.maximumStringLength 0 s.reader.unread with
  | some text => return (text, { s with reader := s.reader.advance (text.length + 1) })
  | none => fail

def readString (s : BsonCodec) : Except DataError (List UInt8 × BsonCodec) := do
  let (length, s) ← s.readInt32OrThrow
  let length := length.toInt
  if length < 1 ∨ length.toNat - 1 > o.maximumStringLength ∨ ¬ s.reader.canRead length.toNat then fail
  else do
    let (value, s) ← s.readBytesOrThrow (length.toNat - 1)
    let (terminator, s) ← s.readUInt8OrThrow
    if terminator ≠ 0 then fail else return (value, s)

/-- The milliseconds of the POSIX epoch. -/
def epochMilliseconds : Option Int := Timestamp.posixEpoch.toMilliseconds

def readDateTime (s : BsonCodec) : Except DataError (Timestamp × BsonCodec) := do
  let (milliseconds, s) ← s.readInt64OrThrow
  let milliseconds := milliseconds.toInt
  match epochMilliseconds with
  | none => .error (.outOfRange "Timestamp cannot be represented in these epoch ticks")
  | some core =>
    if milliseconds > 0 ∧ core > 2 ^ 63 - 1 - milliseconds ∨
      milliseconds < 0 ∧ core < -2 ^ 63 - milliseconds then fail
    else match Timestamp.fromMilliseconds (core + milliseconds) with
      | none => fail
      | some result => return (result, s)

def readBinary (s : BsonCodec) : Except DataError (BsonValue × BsonCodec) := do
  let (length, s) ← s.readInt32OrThrow
  let length := length.toInt
  if length < 0 ∨ length.toNat > o.maximumInputLength then fail
  else do
    let (subtype, s) ← s.readUInt8OrThrow
    if subtype = 2 then
      if length < 4 then fail
      else do
        let (actual, s) ← s.readInt32OrThrow
        if actual.toInt ≠ length - 4 then fail
        else do
          let (bytes, s) ← s.readBytesOrThrow actual.toInt.toNat
          return (.binary bytes subtype, s)
    else do
      let (bytes, s) ← s.readBytesOrThrow length.toNat
      return (.binary bytes subtype, s)

/-- A reader of one document or array, at a nesting depth. -/
abbrev ContainerReader := BsonCodec → Bool → Nat → Except DataError (BsonValue × BsonCodec)

variable (readContainer : ContainerReader)

/-- The end of a value without a representation of its own, after its start. -/
def readOpaque (s : BsonCodec) (code : UInt8) (depth : Nat) : Except DataError BsonCodec :=
  if code = 0x06 ∨ code = 0x7F ∨ code = 0xFF then return s
  else if code = 0x07 then s.skip 12
  else if code = 0x0B then do
    let (_, s) ← readCString o s
    let (_, s) ← readCString o s
    return s
  else if code = 0x0C then do
    let (_, s) ← readString o s
    s.skip 12
  else if code = 0x0D ∨ code = 0x0E then do
    let (_, s) ← readString o s
    return s
  else if code = 0x0F then do
    let start := s.reader.position
    let (total, s) ← s.readInt32OrThrow
    let total := total.toInt
    if total < 14 ∨ total.toNat > o.maximumInputLength then fail
    else do
      let (_, s) ← readString o s
      let (_, s) ← readContainer s false depth
      if s.reader.position - start ≠ total.toNat then fail else return s
  else if code = 0x11 then s.skip 8
  else if code = 0x13 then s.skip 16
  else fail

def readValue (s : BsonCodec) (code : UInt8) (depth : Nat) :
    Except DataError (BsonValue × BsonCodec) :=
  if code = 0x01 then do
    let (bits, s) ← s.readUInt64OrThrow
    return (.double bits, s)
  else if code = 0x02 then do
    let (value, s) ← readString o s
    return (.text value, s)
  else if code = 0x03 then readContainer s false depth
  else if code = 0x04 then readContainer s true depth
  else if code = 0x05 then readBinary o s
  else if code = 0x08 then do
    let (value, s) ← s.readUInt8OrThrow
    if value > 1 then fail else return (.bool (value = 1), s)
  else if code = 0x09 then do
    let (value, s) ← readDateTime s
    return (.dateTime value, s)
  else if code = 0x0A then return (.null, s)
  else if code = 0x10 then do
    let (value, s) ← s.readInt32OrThrow
    return (.int32 value, s)
  else if code = 0x12 then do
    let (value, s) ← s.readInt64OrThrow
    return (.int64 value, s)
  else do
    let start := s.reader
    let s ← readOpaque o readContainer s code depth
    return (.opaqueValue code (start.sliceFrom s.reader), s)

/-- The elements up to the position `finish`; every element takes at least one byte. -/
def readElements (array : Bool) (depth finish : Nat) :
    Nat → BsonCodec → StringMap BsonValue → List BsonValue →
      Except DataError ((StringMap BsonValue × List BsonValue) × BsonCodec)
  | 0, _, _, _ => .error .outOfFuel
  | fuel + 1, s, document, values =>
    if ¬ s.reader.position < finish then return ((document, values), s)
    else if s.valueCount ≥ o.maximumValueCount then fail
    else do
      let s := { s with valueCount := s.valueCount + 1 }
      let (typeCode, s) ← s.readUInt8OrThrow
      if typeCode = 0 then fail
      else do
        let (key, s) ← readCString o s
        if array then
          if Text.compare key (fromInteger values.length) ≠ .eq then fail
          else do
            let (value, s) ← readValue o readContainer s typeCode (depth + 1)
            if s.reader.position > finish then fail
            else readElements array depth finish fuel s document (values ++ [value])
        else if document.contains key then fail
        else do
          let (value, s) ← readValue o readContainer s typeCode (depth + 1)
          if s.reader.position > finish then fail
          else readElements array depth finish fuel s (document.set key value) values

/-- A container, with a reader for the containers in it. -/
def readContainerWith : ContainerReader := fun s array depth =>
  if depth ≥ o.maximumNesting then fail
  else do
    let start := s.reader
    let (length, s) ← s.readInt32OrThrow
    let length := length.toInt
    if length < 5 ∨ length.toNat > o.maximumInputLength ∨ length.toNat > start.unread.length then fail
    else do
      let finish := start.position + length.toNat - 1
      let ((document, values), s) ←
        readElements o readContainer array depth finish (s.reader.unread.length + 1) s [] []
      if s.reader.position ≠ finish then fail
      else do
        let (terminator, s) ← s.readUInt8OrThrow
        if terminator ≠ 0 then fail
        else return (if array then .array values else .document document, s)

end parser

variable (o : BsonParseOptions)

/-- The fuel bounds the nesting of containers. -/
def readContainer : Nat → ContainerReader
  | 0 => fun _ _ _ => .error .outOfFuel
  | fuel + 1 => readContainerWith o (readContainer fuel)

def parse (block : ByteBlock) : Except DataError BsonValue :=
  if block.bytes.length > o.maximumInputLength then fail
  else do
    let (value, s) ← readContainer o (o.maximumNesting + 1)
      { reader := { unread := block.bytes } } false 0
    if s.reader.isAtEnd then return value else fail

/-- Every exception but a parse error is reported as one. -/
def decode (block : ByteBlock) : Except DataError BsonValue :=
  match parse o block with
  | .error (.outOfRange _) => fail
  | .error (.parameter _ _) => fail
  | result => result

def typeCode : BsonValue → UInt8
  | .double _ => 0x01
  | .text _ => 0x02
  | .document _ => 0x03
  | .array _ => 0x04
  | .binary _ _ => 0x05
  | .bool _ => 0x08
  | .dateTime _ => 0x09
  | .null => 0x0A
  | .int32 _ => 0x10
  | .int64 _ => 0x12
  | .opaqueValue code _ => code

def writeCString (value : List UInt8) (w : ByteWriter) : Except DataError ByteWriter :=
  let bytes := Utf8.toStdString value
  if 0 ∈ bytes then .error (.parameter "BSON keys cannot contain NUL." "key")
  else return (w.writeBytes bytes).writeUInt8 0

def writeString (value : List UInt8) (w : ByteWriter) : Except DataError ByteWriter :=
  let bytes := Utf8.toStdString value
  if bytes.length ≥ cInt32Max then .error (.parameter "BSON string is too long." "value")
  else return ((w.writeInt32 (Int32.ofNat (bytes.length + 1))).writeBytes bytes).writeUInt8 0

def writeDateTime (value : Timestamp) (w : ByteWriter) : Except DataError ByteWriter :=
  if ¬ value.isValid ∨ value.nanosecondFraction.tmod 1000000 ≠ 0 then
    .error (.parameter "BSON datetime requires millisecond precision." "value")
  else match value.toMilliseconds, epochMilliseconds with
    | some millis, some epoch => return w.writeInt64 (Int64.ofInt (millis - epoch))
    | _, _ => .error (.outOfRange "Timestamp cannot be represented in these epoch ticks")

def writeBinary (bytes : List UInt8) (subtype : UInt8) (w : ByteWriter) :
    Except DataError ByteWriter :=
  let size := bytes.length
  if size > cInt32Max - 4 then .error (.parameter "BSON binary payload is too long." "value")
  else
    let w := w.writeInt32 (Int32.ofNat (size + if subtype = 2 then 4 else 0))
    let w := w.writeUInt8 subtype
    let w := if subtype = 2 then w.writeInt32 (Int32.ofNat size) else w
    return w.writeBytes bytes

/-- A container around its elements. The length is written at the start afterwards. -/
def writeContainer (writeElements : ByteWriter → Except DataError ByteWriter) (w : ByteWriter) :
    Except DataError ByteWriter := do
  let start := w.position
  let w := w.writeInt32 0
  let w ← writeElements w
  let w := w.writeUInt8 0
  let finish := w.position
  let length := finish - start
  if length > cInt32Max then .error (.parameter "BSON document is too long." "value")
  else return ((w.setPosition start).writeInt32 (Int32.ofNat length)).setPosition finish

mutual

def writeValue : BsonValue → ByteWriter → Except DataError ByteWriter
  | .null => fun w => return w
  | .bool value => fun w => return w.writeUInt8 (if value then 1 else 0)
  | .int32 value => fun w => return w.writeInt32 value
  | .int64 value => fun w => return w.writeInt64 value
  | .double bits => fun w => return w.writeUInt64 bits
  | .text value => writeString value
  | .binary bytes subtype => writeBinary bytes subtype
  | .dateTime value => writeDateTime value
  | .array values => writeContainer (writeValues 0 values)
  | .document entries => writeContainer (writeEntries entries)
  | .opaqueValue _ payload => fun w => return w.writeBytes payload

def writeValues : Nat → List BsonValue → ByteWriter → Except DataError ByteWriter
  | _, [] => fun w => return w
  | index, entry :: values => fun w => do
    let w := w.writeUInt8 (typeCode entry)
    let w ← writeCString (fromInteger index) w
    let w ← writeValue entry w
    writeValues (index + 1) values w

def writeEntries : List (List UInt8 × BsonValue) → ByteWriter → Except DataError ByteWriter
  | [] => fun w => return w
  | (key, entry) :: entries => fun w => do
    let w := w.writeUInt8 (typeCode entry)
    let w ← writeCString key w
    let w ← writeValue entry w
    writeEntries entries w

end

def encode (value : BsonValue) : Except DataError (List UInt8) :=
  match value with
  | .document entries => do
    let w ← writeContainer (writeEntries entries) {}
    return w.block
  | _ => .error (.parameter "A BSON root must be a document." "value")

end ErbslandCore.Data.Bson
