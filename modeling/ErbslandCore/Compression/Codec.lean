import ErbslandCore.Library.Except
import ErbslandCore.Mem.ByteModifyTools

namespace ErbslandCore.Compression
open Library Mem
set_option autoImplicit true

inductive CompressionErrorReason where
  | cancelled
  | timeout
  | malformedData
  | lengthMismatch
  | unsupportedAlgorithm
  | algorithmMismatch
  | unsupportedFeature
  | unsupportedEnvelopeVersion
  deriving DecidableEq

/-- The exceptions a codec can raise. -/
inductive CodecError where
  | compression (reason : CompressionErrorReason) (message : String)
  | outOfRange (message : String)
  | overflow (message : String)
  | logic (message : String)
  deriving DecidableEq

/-- An error of the byte containers passes through the codec. -/
def fromMem : Except MemError α → Except CodecError α
  | .ok a => .ok a
  | .error (.outOfRange message) => .error (.outOfRange message)

theorem fromMem_eq_ok {x : Except MemError α} (h : fromMem x = .ok a) : x = .ok a := by
  cases x with
  | error e => cases e; cases h
  | ok b => cases h; rfl

def throwMalformed (message : String) : Except CodecError α :=
  .error (.compression .malformedData message)

inductive CompressionLevel where
  | fastest
  | fast
  | default
  | high
  | highest
  deriving DecidableEq

/-- A byte length is a number of bytes or the infinite marker. -/
inductive ByteLength where
  | finite (value : Nat)
  | infinite
  deriving DecidableEq

def ByteLength.le : ByteLength → ByteLength → Bool
  | _, .infinite => true
  | .infinite, .finite _ => false
  | .finite a, .finite b => decide (a ≤ b)

/-- The largest finite byte length. -/
def cRawMaximum : Nat := 2 ^ 64 - 2

def ByteLength.addedOrThrow : ByteLength → ByteLength → Except CodecError ByteLength
  | .finite a, .finite b =>
    if a + b ≤ cRawMaximum then .ok (.finite (a + b))
    else .error (.overflow "Length addition would exceed finite length bounds")
  | _, _ => .error (.overflow "Length addition would exceed finite length bounds")

/-- The length limits that the decoders read. -/
structure DecompressionOptions where
  expectedOutputLength : Option ByteLength := none
  maximumOutputLength : ByteLength := .finite (256 * 1024 * 1024)
  deriving DecidableEq

def appendRepeatedOrThrow (data : List UInt8) (source sourceLength appendedLength : Nat) :
    Except CodecError (List UInt8) :=
  fromMem (appendRepeated data source sourceLength appendedLength)

/-- Copying a verified match from prior output restores the input up to the end of the match. -/
theorem appendRepeatedOrThrow_reference {data : List UInt8} (h : BackReference data p d n) :
    appendRepeatedOrThrow (data.take p) (p - d) d n = .ok (data.take (p + n)) := by
  have hp : (data.take p).length = p := by
    have := h.within
    simp; omega
  have hd := h.distance_le
  have hc : (((data.take p).drop (p - d)).take d) = (data.take p).drop (p - d) := by
    apply List.take_of_length_le
    simp; omega
  rw [appendRepeatedOrThrow, appendRepeated_eq_cycle _ h.distance_pos (by omega), hc]
  simp only [h.take_append_cycle, fromMem]

end ErbslandCore.Compression
