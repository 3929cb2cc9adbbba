import ErbslandCore.Compression.Codec
import ErbslandCore.Library.RangeCoder

namespace ErbslandCore.Compression.Lzma
open Library RangeCoder
set_option autoImplicit true

def cInitialRange : Nat := 0xffffffff

/-- The range below which a coder is normalized. -/
def cTopValue : Nat := 1 <<< 24

def cProbabilityBits : Nat := 11

def cProbabilityTotal : Nat := 1 <<< cProbabilityBits

def cProbabilityMoveBits : Nat := 5

def cFinalByteCount : Nat := 5

/-- Below this value, the high byte of the low accumulator is stable. -/
def cStableLowLimit : Nat := 0xff000000

def cPendingByteValue : UInt8 := 0xff

def cInitialProbability : Nat := 1024

/-- Move a probability towards the coded bit. -/
def adapted (probability bit : Nat) : Nat :=
  if bit = 0 then
    (((probability : Int) + (((cProbabilityTotal : Int) - probability) >>> cProbabilityMoveBits)) %
      2 ^ 16).toNat
  else probability - (probability >>> cProbabilityMoveBits)

/-- The probability models that a coder uses as one tree. -/
structure Span where
  offset : Nat
  size : Nat
  deriving DecidableEq

/-- Validate that a probability span contains the complete requested tree. -/
def requireTreeSize (span : Span) (bitCount : Nat) : Except CodecError Unit :=
  if 32 ≤ bitCount then
    .error (.logic "The LZMA probability-tree bit count is too large.")
  else if span.size < 1 <<< bitCount then
    .error (.logic "The LZMA probability span is too small for the requested tree.")
  else .ok ()

/-- What a coder is asked to code: the models of one bit or of a tree, or bits without a model. -/
inductive Request where
  | bit (index : Nat)
  | tree (span : Span) (bitCount : Nat)
  | reverseTree (span : Span) (bitCount : Nat)
  | direct (bitCount : Nat)
  deriving DecidableEq

/-- The range encoder. The output holds the appended bytes, and at least one byte is delayed. -/
structure LzmaRangeEncoder where
  output : List UInt8 := []
  low : Nat := 0
  range : Nat := cInitialRange
  cache : UInt8 := 0
  cacheSize : Nat := 1
  cacheSize_pos : 0 < cacheSize := by decide

/-- Append the delayed bytes, each with the carry. -/
def appendDelayed (carry : Nat) (value : UInt8) : (count : Nat) → List UInt8 → List UInt8
  | 0, output => output
  | count + 1, output =>
    appendDelayed carry cPendingByteValue count (output ++ [UInt8.ofNat (value.toNat + carry)])

namespace LzmaRangeEncoder

/-- Flush stable high bytes from the low accumulator. -/
def shiftLow (e : LzmaRangeEncoder) : LzmaRangeEncoder :=
  let low32 := e.low % 2 ^ 32
  if low32 < cStableLowLimit ∨ (e.low >>> 32) % 2 ^ 32 ≠ 0 then
    let carry := (e.low >>> 32) % 2 ^ 8
    { e with
      output := appendDelayed carry e.cache e.cacheSize e.output
      cache := UInt8.ofNat (low32 >>> 24)
      cacheSize := 1
      cacheSize_pos := Nat.one_pos
      low := (low32 <<< 8) % 2 ^ 32 }
  else
    { e with
      cacheSize := e.cacheSize + 1
      cacheSize_pos := Nat.succ_pos _
      low := (low32 <<< 8) % 2 ^ 32 }

/-- Restore range precision after encoding a symbol. -/
def normalize (e : LzmaRangeEncoder) : LzmaRangeEncoder :=
  if e.range < cTopValue then shiftLow { e with range := (e.range <<< 8) % 2 ^ 32 } else e

/-- Encode one adaptive probability bit; the probability is updated. -/
def encodeBit (e : LzmaRangeEncoder) (probability bit : Nat) : LzmaRangeEncoder × Nat :=
  let bound := (e.range >>> cProbabilityBits) * probability % 2 ^ 32
  if bit = 0 then (normalize { e with range := bound }, adapted probability bit)
  else
    (normalize { e with
      low := (e.low + bound) % 2 ^ 64
      range := (e.range + 2 ^ 32 - bound) % 2 ^ 32 }, adapted probability bit)

/-- Encode one direct bit. -/
def encodeDirectBit (e : LzmaRangeEncoder) (bit : Nat) : LzmaRangeEncoder :=
  let range := e.range >>> 1
  if bit ≠ 0 then normalize { e with low := (e.low + range) % 2 ^ 64, range := range }
  else normalize { e with range := range }

/-- Encode bits without an adaptive probability model. -/
def encodeDirect (e : LzmaRangeEncoder) (value : Nat) : (bitCount : Nat) → LzmaRangeEncoder
  | 0 => e
  | index + 1 => encodeDirect (e.encodeDirectBit ((value >>> index) &&& 1)) value index

/-- Flush the range state. -/
def finalize (e : LzmaRangeEncoder) : LzmaRangeEncoder := Nat.iterate shiftLow cFinalByteCount e

end LzmaRangeEncoder

/-- Encode one bit with the model at an index. -/
def encodeAt (index bit : Nat) (s : LzmaRangeEncoder × List Nat) : LzmaRangeEncoder × List Nat :=
  let coded := s.1.encodeBit s.2[index]! bit
  (coded.1, s.2.set index coded.2)

def encodeTreeLoop (offset value : Nat) :
    (index symbol : Nat) → LzmaRangeEncoder × List Nat → LzmaRangeEncoder × List Nat
  | 0, _, s => s
  | index + 1, symbol, s =>
    let bit := (value >>> index) &&& 1
    encodeTreeLoop offset value index ((symbol <<< 1) ||| bit) (encodeAt (offset + symbol) bit s)

/-- Encode a most-significant-bit-first probability tree. -/
def encodeTree (span : Span) (bitCount value : Nat) (s : LzmaRangeEncoder × List Nat) :
    Except CodecError (LzmaRangeEncoder × List Nat) := do
  requireTreeSize span bitCount
  return encodeTreeLoop span.offset value bitCount 1 s

def encodeReverseTreeLoop (offset : Nat) : (left symbol value : Nat) →
    LzmaRangeEncoder × List Nat → LzmaRangeEncoder × List Nat
  | 0, _, _, s => s
  | left + 1, symbol, value, s =>
    let bit := value &&& 1
    encodeReverseTreeLoop offset left ((symbol <<< 1) ||| bit) (value >>> 1)
      (encodeAt (offset + symbol) bit s)

/-- Encode a least-significant-bit-first probability tree. -/
def encodeReverseTree (span : Span) (bitCount value : Nat) (s : LzmaRangeEncoder × List Nat) :
    Except CodecError (LzmaRangeEncoder × List Nat) := do
  requireTreeSize span bitCount
  return encodeReverseTreeLoop span.offset bitCount 1 value s

/-- Encode a value as a request says. -/
def encode (s : LzmaRangeEncoder × List Nat) :
    Request × Nat → Except CodecError (LzmaRangeEncoder × List Nat)
  | (.bit index, value) => .ok (encodeAt index value s)
  | (.tree span bitCount, value) => encodeTree span bitCount value s
  | (.reverseTree span bitCount, value) => encodeReverseTree span bitCount value s
  | (.direct bitCount, value) => .ok (s.1.encodeDirect value bitCount, s.2)

/-- Encode one value after the other. -/
def encodeAll (s : LzmaRangeEncoder × List Nat) :
    List (Request × Nat) → Except CodecError (LzmaRangeEncoder × List Nat)
  | [] => .ok s
  | coding :: codings => do encodeAll (← encode s coding) codings

end ErbslandCore.Compression.Lzma
