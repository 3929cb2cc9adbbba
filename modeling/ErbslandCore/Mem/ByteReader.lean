import ErbslandCore.Library.ByteOrder
import ErbslandCore.Library.Except
import ErbslandCore.Mem.ByteModifyTools

namespace ErbslandCore.Mem
open Library
set_option autoImplicit true

/-- The raw value that marks an infinite amount. -/
def cRawInfinite : Nat := 2 ^ 64 - 1

/-- The bytes of a block are fewer than the infinite amount. -/
structure ByteBlock where
  bytes : List UInt8
  length_lt : bytes.length < cRawInfinite

inductive Endianness where
  | little
  | big
  deriving DecidableEq

/-- The number that bytes denote in a byte order. -/
def Endianness.decode : Endianness → List UInt8 → Nat
  | .little => littleEndian
  | .big => bigEndian

def Endianness.encode : Endianness → Nat → Nat → List UInt8
  | .little => toLittleEndian
  | .big => toBigEndian

@[simp] theorem Endianness.encode_length (e : Endianness) (width n : Nat) :
    (e.encode width n).length = width := by
  cases e with
  | little => exact toLittleEndian_length width n
  | big => exact toBigEndian_length width n

theorem Endianness.decode_encode_of_lt (e : Endianness) (h : n < 256 ^ width) :
    e.decode (e.encode width n) = n := by
  cases e with
  | little => exact littleEndian_toLittleEndian_of_lt h
  | big => exact bigEndian_toBigEndian_of_lt h

theorem Endianness.encode_decode (e : Endianness) (bytes : List UInt8) :
    e.encode bytes.length (e.decode bytes) = bytes := by
  cases e with
  | little => exact toLittleEndian_littleEndian bytes
  | big => exact toBigEndian_bigEndian bytes

theorem Endianness.decode_lt (e : Endianness) (bytes : List UInt8) :
    e.decode bytes < 256 ^ bytes.length := by
  cases e with
  | little => exact littleEndian_lt bytes
  | big => exact bigEndian_lt bytes

/-- A reader holds the bytes from its position on. -/
structure ByteReader where
  position : Nat := 0
  unread : List UInt8
  deriving DecidableEq

namespace ByteReader

def isAtEnd (r : ByteReader) : Bool := r.unread.isEmpty

def canRead (r : ByteReader) (byteCount : Nat) : Bool := byteCount ≤ r.unread.length

/-- The next byte, or zero at the end. -/
def peekByte (r : ByteReader) : UInt8 := r.unread.headD 0

/-- A byte after the position, or zero after the end. -/
def peekByteAt (r : ByteReader) (offset : Nat) : UInt8 := r.unread[offset]?.getD 0

/-- The length of the whole block. -/
def length (r : ByteReader) : Nat := r.position + r.unread.length

/-- The position is clamped to the end. -/
def advance (r : ByteReader) (byteCount : Nat) : ByteReader where
  position := r.position + min byteCount r.unread.length
  unread := r.unread.drop byteCount

def readBytesOrThrow (r : ByteReader) (length : Nat) : Except MemError (List UInt8 × ByteReader) :=
  if r.canRead length then .ok (r.unread.take length, r.advance length)
  else .error (.outOfRange "Not enough bytes to read the requested byte block")

/-- The bytes of the block between the position of an earlier reader and the current one. -/
def sliceFrom (start r : ByteReader) : List UInt8 :=
  start.unread.take (r.position - start.position)

def readUIntOrThrow (r : ByteReader) (size : Nat) (endianness : Endianness) :
    Except MemError (Nat × ByteReader) :=
  if r.canRead size then .ok (endianness.decode (r.unread.take size), r.advance size)
  else .error (.outOfRange "Integer byte range out of range")

/-- A reader that has moved over some bytes. -/
structure Reads (r r' : ByteReader) (bytes : List UInt8) : Prop where
  unread : r.unread = bytes ++ r'.unread
  position : r'.position = r.position + bytes.length

theorem Reads.refl (r : ByteReader) : Reads r r [] := ⟨rfl, rfl⟩

theorem Reads.trans (h₁ : Reads r₁ r₂ xs) (h₂ : Reads r₂ r₃ ys) : Reads r₁ r₃ (xs ++ ys) where
  unread := by rw [h₁.unread, h₂.unread, List.append_assoc]
  position := by rw [h₂.position, h₁.position, List.length_append, Nat.add_assoc]

theorem Reads.sliceFrom (h : Reads r r' bytes) : sliceFrom r r' = bytes := by
  rw [ByteReader.sliceFrom, h.position, Nat.add_sub_cancel_left, h.unread, List.take_left]

theorem advance_reads (r : ByteReader) (n : Nat) : Reads r (r.advance n) (r.unread.take n) where
  unread := (List.take_append_drop n r.unread).symm
  position := by
    rw [List.length_take]
    rfl

variable {r r' : ByteReader}

theorem canRead_of_append (hr : r.unread = bytes ++ rest) : r.canRead bytes.length = true := by
  simp [canRead, hr]

theorem advance_append (hr : r.unread = bytes ++ rest) :
    r.advance bytes.length = ⟨r.position + bytes.length, rest⟩ := by
  rw [advance, hr, List.drop_left, List.length_append, Nat.min_eq_left (by omega)]

theorem readBytesOrThrow_eq (hr : r.unread = bytes ++ rest) :
    r.readBytesOrThrow bytes.length = .ok (bytes, ⟨r.position + bytes.length, rest⟩) := by
  rw [readBytesOrThrow, if_pos (canRead_of_append hr), advance_append hr, hr, List.take_left]

theorem readBytesOrThrow_reads (h : r.readBytesOrThrow n = .ok (bytes, r')) :
    Reads r r' bytes ∧ bytes.length = n := by
  rw [readBytesOrThrow] at h
  split at h
  case isTrue hc =>
    obtain ⟨rfl, rfl⟩ : r.unread.take n = bytes ∧ r.advance n = r' := by simpa using h
    refine ⟨advance_reads r n, ?_⟩
    rw [List.length_take]
    exact Nat.min_eq_left (by simpa [canRead] using hc)
  case isFalse => cases h

theorem readUIntOrThrow_eq (e : Endianness) (hr : r.unread = bytes ++ rest) :
    r.readUIntOrThrow bytes.length e =
      .ok (e.decode bytes, ⟨r.position + bytes.length, rest⟩) := by
  rw [readUIntOrThrow, if_pos (canRead_of_append hr), advance_append hr, hr, List.take_left]

theorem readUIntOrThrow_reads {e : Endianness} (h : r.readUIntOrThrow n e = .ok (v, r')) :
    ∃ bytes, Reads r r' bytes ∧ bytes.length = n ∧ v = e.decode bytes := by
  rw [readUIntOrThrow] at h
  split at h
  case isTrue hc =>
    obtain ⟨rfl, rfl⟩ : e.decode (r.unread.take n) = v ∧ r.advance n = r' := by simpa using h
    refine ⟨_, advance_reads r n, ?_, rfl⟩
    rw [List.length_take]
    exact Nat.min_eq_left (by simpa [canRead] using hc)
  case isFalse => cases h

end ByteReader
end ErbslandCore.Mem
