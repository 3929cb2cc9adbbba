import ErbslandCore.Data.Bson.BsonCodec

namespace ErbslandCore.Data.Bson
open Library Mem Text Time
set_option autoImplicit true

/-- The bytes of a length. -/
def int32Bytes (length : Nat) : List UInt8 := toLittleEndian 4 length

def stringBytes (value : List UInt8) : List UInt8 := int32Bytes (value.length + 1) ++ value ++ [0]

def cstringBytes (value : List UInt8) : List UInt8 := value ++ [0]

/-- The types with a payload of a fixed size that is kept as it is. -/
def fixedSizes : List (UInt8 × Nat) :=
  [(0x06, 0), (0x7F, 0), (0xFF, 0), (0x07, 12), (0x11, 8), (0x13, 16)]

section
variable (o : BsonParseOptions)

def IsCString (value : List UInt8) : Prop := 0 ∉ value ∧ value.length ≤ o.maximumStringLength

def IsString (value : List UInt8) : Prop :=
  value.length < cInt32Max ∧ value.length ≤ o.maximumStringLength

/-- A length is a positive 32-bit number within the limit of the input. -/
def IsLength (length : Nat) : Prop := length ≤ cInt32Max ∧ length ≤ o.maximumInputLength

/-- The instant of a number of milliseconds after the POSIX epoch. -/
def instantOf (milliseconds : Int64) : Option Timestamp :=
  epochMilliseconds.bind fun core => Timestamp.fromMilliseconds (core + milliseconds.toInt)

mutual

/-- The payload of a type code at a nesting depth, with the number of elements in it. -/
inductive IsValue : Nat → UInt8 → List UInt8 → Nat → BsonValue → Prop
  | double (bits : UInt64) : IsValue depth 0x01 (toLittleEndian 8 bits.toNat) 0 (.double bits)
  | text (h : IsString o value) : IsValue depth 0x02 (stringBytes value) 0 (.text value)
  | document (h : IsContainer false depth bytes count v) : IsValue depth 0x03 bytes count v
  | array (h : IsContainer true depth bytes count v) : IsValue depth 0x04 bytes count v
  | binary (hs : subtype ≠ 2) (h : IsLength o bytes.length) :
      IsValue depth 0x05 (int32Bytes bytes.length ++ subtype :: bytes) 0 (.binary bytes subtype)
  | oldBinary (h : IsLength o (bytes.length + 4)) :
      IsValue depth 0x05 (int32Bytes (bytes.length + 4) ++ 2 :: (int32Bytes bytes.length ++ bytes)) 0
        (.binary bytes 2)
  | bool (value : Bool) : IsValue depth 0x08 [if value then 1 else 0] 0 (.bool value)
  | dateTime (milliseconds : Int64) (h : instantOf milliseconds = some value) :
      IsValue depth 0x09 (toLittleEndian 8 milliseconds.toUInt64.toNat) 0 (.dateTime value)
  | null : IsValue depth 0x0A [] 0 .null
  | int32 (value : Int32) :
      IsValue depth 0x10 (toLittleEndian 4 value.toUInt32.toNat) 0 (.int32 value)
  | int64 (value : Int64) :
      IsValue depth 0x12 (toLittleEndian 8 value.toUInt64.toNat) 0 (.int64 value)
  | fixed (h : (code, payload.length) ∈ fixedSizes) :
      IsValue depth code payload 0 (.opaqueValue code payload)
  | regex (hp : IsCString o pattern) (ho : IsCString o options) :
      IsValue depth 0x0B (cstringBytes pattern ++ cstringBytes options) 0
        (.opaqueValue 0x0B (cstringBytes pattern ++ cstringBytes options))
  | pointer (h : IsString o value) (hi : identifier.length = 12) :
      IsValue depth 0x0C (stringBytes value ++ identifier) 0
        (.opaqueValue 0x0C (stringBytes value ++ identifier))
  | code (hc : code = 0x0D ∨ code = 0x0E) (h : IsString o value) :
      IsValue depth code (stringBytes value) 0 (.opaqueValue code (stringBytes value))
  | scope (h : IsString o value) (hc : IsContainer false depth bytes count v)
      (hl : IsLength o total) (ht : total = (stringBytes value).length + bytes.length + 4) :
      IsValue depth 0x0F (int32Bytes total ++ (stringBytes value ++ bytes)) count
        (.opaqueValue 0x0F (int32Bytes total ++ (stringBytes value ++ bytes)))

/-- The elements of a container, from an index on. Every element counts. -/
inductive IsElements : Bool → Nat → Nat → List UInt8 → Nat → List (List UInt8 × BsonValue) → Prop
  | nil : IsElements array depth index [] 0 []
  | cons (hc : code ≠ 0) (hk : IsCString o key) (hi : array = true → key = fromInteger index)
      (hv : IsValue (depth + 1) code bytes m v) (hr : IsElements array depth (index + 1) rest n es) :
      IsElements array depth index (code :: (cstringBytes key ++ (bytes ++ rest))) (1 + (m + n))
        ((key, v) :: es)

/-- A container is its own length, its elements and a terminator: all of its elements, and
thereby all containers in it, end before the last of as many bytes as it declares. -/
inductive IsContainer : Bool → Nat → List UInt8 → Nat → BsonValue → Prop
  | ofValues (hn : depth < o.maximumNesting) (hl : IsLength o (body.length + 5))
      (he : IsElements true depth 0 body count es) :
      IsContainer true depth (int32Bytes (body.length + 5) ++ (body ++ [0])) count
        (.array (es.map Prod.snd))
  | ofEntries (hn : depth < o.maximumNesting) (hl : IsLength o (body.length + 5))
      (he : IsElements false depth 0 body count es) (hd : StringMap.Distinct es) :
      IsContainer false depth (int32Bytes (body.length + 5) ++ (body ++ [0])) count
        (.document (StringMap.setAll [] es))

end
end

end ErbslandCore.Data.Bson
