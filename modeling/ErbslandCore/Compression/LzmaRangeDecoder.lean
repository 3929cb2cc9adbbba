import ErbslandCore.Compression.ChunkedReads
import ErbslandCore.Compression.LzmaRangeEncoder

namespace ErbslandCore.Compression.Lzma
open Library
set_option autoImplicit true

def cCodeByteCount : Nat := 4

structure LzmaRangeDecoder where
  source : CodecReader
  range : Nat := cInitialRange
  code : Nat := 0

namespace LzmaRangeDecoder

/-- Read one encoded byte or reject truncated input. -/
def readByte (d : LzmaRangeDecoder) : Except CodecError (Nat × LzmaRangeDecoder) :=
  match d.source.byte with
  | (.error e, _) => .error e
  | (.ok byte, source) => .ok (byte.toNat, { d with source := source })

/-- Shift one encoded byte into the code. -/
def shiftCode (d : LzmaRangeDecoder) : Except CodecError LzmaRangeDecoder := do
  let (byte, d) ← d.readByte
  return { d with code := (d.code <<< 8) % 2 ^ 32 ||| byte }

def readCode : (count : Nat) → LzmaRangeDecoder → Except CodecError LzmaRangeDecoder
  | 0, d => .ok d
  | count + 1, d => do readCode count (← d.shiftCode)

/-- Create a streaming range decoder. -/
def create (input : CodecReader) : Except CodecError LzmaRangeDecoder := do
  let (byte, d) ← readByte { source := input }
  if byte ≠ 0 then throwMalformed "Invalid LZMA prefix."
  else readCode cCodeByteCount d

/-- Refill the range state when its precision becomes too small. -/
def normalize (d : LzmaRangeDecoder) : Except CodecError LzmaRangeDecoder :=
  if d.range < cTopValue then shiftCode { d with range := (d.range <<< 8) % 2 ^ 32 } else .ok d

/-- Decode one adaptive probability bit; the probability is updated. -/
def decodeBit (d : LzmaRangeDecoder) (probability : Nat) :
    Except CodecError (Nat × LzmaRangeDecoder × Nat) := do
  let bound := (d.range >>> cProbabilityBits) * probability % 2 ^ 32
  if d.code < bound then
    let d ← normalize { d with range := bound }
    return (0, d, adapted probability 0)
  else
    let d ← normalize { d with range := (d.range + 2 ^ 32 - bound) % 2 ^ 32, code := d.code - bound }
    return (1, d, adapted probability 1)

/-- Decode one direct bit. -/
def decodeDirectBit (d : LzmaRangeDecoder) : Except CodecError (Nat × LzmaRangeDecoder) := do
  let range := d.range >>> 1
  if range ≤ d.code then
    let d ← normalize { d with range := range, code := d.code - range }
    return (1, d)
  else
    let d ← normalize { d with range := range }
    return (0, d)

/-- Decode bits without an adaptive probability model. -/
def decodeDirect (result : Nat) :
    (bitCount : Nat) → LzmaRangeDecoder → Except CodecError (Nat × LzmaRangeDecoder)
  | 0, d => .ok (result, d)
  | left + 1, d => do
    let (bit, d) ← d.decodeDirectBit
    decodeDirect ((result <<< 1) % 2 ^ 32 ||| bit) left d

/-- Test whether the arithmetic code is in its canonical finished state. -/
def isFinished (d : LzmaRangeDecoder) : Bool := d.code == 0

end LzmaRangeDecoder

/-- Decode one bit with the model at an index. -/
def decodeAt (index : Nat) (s : LzmaRangeDecoder × List Nat) :
    Except CodecError (Nat × LzmaRangeDecoder × List Nat) := do
  let (bit, d, probability) ← s.1.decodeBit s.2[index]!
  return (bit, d, s.2.set index probability)

def decodeTreeLoop (offset : Nat) : (left symbol : Nat) → LzmaRangeDecoder × List Nat →
    Except CodecError (Nat × LzmaRangeDecoder × List Nat)
  | 0, symbol, s => .ok (symbol, s)
  | left + 1, symbol, s => do
    let (bit, s) ← decodeAt (offset + symbol) s
    decodeTreeLoop offset left ((symbol <<< 1) ||| bit) s

/-- Decode a most-significant-bit-first probability tree. -/
def decodeTree (span : Span) (bitCount : Nat) (s : LzmaRangeDecoder × List Nat) :
    Except CodecError (Nat × LzmaRangeDecoder × List Nat) := do
  requireTreeSize span bitCount
  let (symbol, s) ← decodeTreeLoop span.offset bitCount 1 s
  return (symbol - (1 <<< bitCount), s)

def decodeReverseTreeLoop (offset : Nat) : (left index symbol result : Nat) →
    LzmaRangeDecoder × List Nat → Except CodecError (Nat × LzmaRangeDecoder × List Nat)
  | 0, _, _, result, s => .ok (result, s)
  | left + 1, index, symbol, result, s => do
    let (bit, s) ← decodeAt (offset + symbol) s
    decodeReverseTreeLoop offset left (index + 1) ((symbol <<< 1) ||| bit)
      (result ||| (bit <<< index)) s

/-- Decode a least-significant-bit-first probability tree. -/
def decodeReverseTree (span : Span) (bitCount : Nat) (s : LzmaRangeDecoder × List Nat) :
    Except CodecError (Nat × LzmaRangeDecoder × List Nat) := do
  requireTreeSize span bitCount
  decodeReverseTreeLoop span.offset bitCount 0 1 0 s

/-- Decode what a request asks for. -/
def decode (s : LzmaRangeDecoder × List Nat) :
    Request → Except CodecError (Nat × LzmaRangeDecoder × List Nat)
  | .bit index => decodeAt index s
  | .tree span bitCount => decodeTree span bitCount s
  | .reverseTree span bitCount => decodeReverseTree span bitCount s
  | .direct bitCount => do
    let (value, d) ← LzmaRangeDecoder.decodeDirect 0 bitCount s.1
    return (value, d, s.2)

/-- Decode one value after the other. -/
def decodeAll (s : LzmaRangeDecoder × List Nat) :
    List Request → Except CodecError (List Nat × LzmaRangeDecoder × List Nat)
  | [] => .ok ([], s)
  | request :: requests => do
    let (value, s) ← decode s request
    let (values, s) ← decodeAll s requests
    return (value :: values, s)

end ErbslandCore.Compression.Lzma
