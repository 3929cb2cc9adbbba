import ErbslandCore.Mem.ByteReader

namespace ErbslandCore.Mem
open Library
set_option autoImplicit true

/-- The written bytes and the position of the next write. -/
structure ByteWriter where
  block : List UInt8 := []
  position : Nat := 0
  deriving DecidableEq

namespace ByteWriter

/-- The position is clamped to the end. -/
def setPosition (w : ByteWriter) (position : Nat) : ByteWriter :=
  { w with position := min position w.block.length }

/-- Bytes before the end are overwritten, the rest is appended. -/
def writeBytes (w : ByteWriter) (data : List UInt8) : ByteWriter :=
  let block :=
    if w.position ≥ w.block.length then w.block ++ data
    else
      let available := w.block.length - w.position
      let overwritten := w.block.take w.position ++ data.take available ++
        w.block.drop (w.position + data.length)
      if w.position + data.length > w.block.length then overwritten ++ data.drop available
      else overwritten
  setPosition { w with block := block } (w.position + data.length)

def writeUInt8 (w : ByteWriter) (value : UInt8) : ByteWriter := w.writeBytes [value]

def writeInt32 (w : ByteWriter) (value : Int32) : ByteWriter :=
  w.writeBytes (Endianness.little.encode 4 value.toUInt32.toNat)

def writeInt64 (w : ByteWriter) (value : Int64) : ByteWriter :=
  w.writeBytes (Endianness.little.encode 8 value.toUInt64.toNat)

def writeUInt64 (w : ByteWriter) (value : UInt64) : ByteWriter :=
  w.writeBytes (Endianness.little.encode 8 value.toNat)

/-- A writer at the end of its bytes. -/
def atEnd (block : List UInt8) : ByteWriter := ⟨block, block.length⟩

theorem writeBytes_atEnd (block data : List UInt8) :
    (atEnd block).writeBytes data = atEnd (block ++ data) := by
  simp [writeBytes, atEnd, setPosition]

/-- Bytes of the same number are replaced. -/
theorem writeBytes_overwrite (h : ys.length = data.length) (hne : data ≠ []) :
    writeBytes ⟨xs ++ ys ++ zs, xs.length⟩ data =
      ⟨xs ++ data ++ zs, xs.length + data.length⟩ := by
  have hpos := List.length_pos_iff.mpr hne
  have htake : (xs ++ ys ++ zs).take xs.length = xs := by
    rw [List.append_assoc, List.take_left]
  have hdata : data.take ((xs ++ ys ++ zs).length - xs.length) = data :=
    List.take_of_length_le (by simp only [List.length_append]; omega)
  have hdrop : (xs ++ ys ++ zs).drop (xs.length + data.length) = zs := by
    rw [← h, ← List.length_append, List.drop_left]
  have hend : ¬ xs.length ≥ (xs ++ ys ++ zs).length := by
    simp only [List.length_append]
    omega
  have hover : ¬ xs.length + data.length > (xs ++ ys ++ zs).length := by
    simp only [List.length_append]
    omega
  simp only [writeBytes, if_neg hend, if_neg hover, htake, hdata, hdrop, setPosition,
    ByteWriter.mk.injEq, true_and]
  simp only [List.length_append]
  omega

end ByteWriter
end ErbslandCore.Mem
