import ErbslandCore.Compression.DeflateEncoder
import ErbslandCore.Library.Except
import ErbslandCore.Mem.OrderedBits

namespace ErbslandCore.Compression
open Library Mem Deflate
set_option autoImplicit true

/-- What a codec does with its bit writer. -/
inductive BitOutputStep where
  | write (value : UInt64) (bitCount : Nat)
  | drain
  deriving DecidableEq

/-- The fields that a run writes, without its drains. -/
def fields : List BitOutputStep → List (UInt64 × Nat)
  | [] => []
  | .write value bitCount :: steps => (value, bitCount) :: fields steps
  | .drain :: steps => fields steps

/-- A bit writer and the pieces that were drained from it. -/
structure CodecBitOutput where
  writer : BitWriter
  drained : List (List UInt8) := []
  deriving DecidableEq

namespace CodecBitOutput

def step (o : CodecBitOutput) : BitOutputStep → Except MemError CodecBitOutput
  | .write value bitCount => do
    let writer ← o.writer.writeBits value.toNat bitCount
    return { o with writer := writer }
  | .drain => do
    let (piece, writer) ← Deflate.drain o.writer false
    return { writer := writer, drained := o.drained ++ [piece] }

def run (o : CodecBitOutput) (steps : List BitOutputStep) : Except MemError CodecBitOutput :=
  steps.foldlM step o

/-- The final drain. -/
def finish (o : CodecBitOutput) : Except MemError (List (List UInt8)) := do
  let (piece, _) ← Deflate.drain o.writer true
  return o.drained ++ [piece]

end CodecBitOutput

/-- The bits of a sequence of fields in the order in which they are transmitted. -/
def fieldsBits (order : BitOrder) (fields : List (UInt64 × Nat)) : List Bool :=
  fields.flatMap fun field => fieldBits order field.2 field.1.toNat

theorem fieldsBits_cons (order : BitOrder) (value : UInt64) (bitCount : Nat) (rest) :
    fieldsBits order ((value, bitCount) :: rest) =
      fieldBits order bitCount value.toNat ++ fieldsBits order rest := rfl

/-- The partial bits are the low ones after the shift of the bit order. -/
theorem drain_incomplete (w : BitWriter) (hr : w.bitCount % 8 ≠ 0) :
    drain w false = do
      let w' ← w.reset.writeBits (w.block[w.bitCount / 8]!.toNat >>>
        byteShift w.bitOrder 0 (w.bitCount % 8)) (w.bitCount % 8)
      return (w.block.take (w.bitCount / 8), w') := by
  rw [drain]
  simp only [BitWriter.takeByteBlockEditor, hr, Bool.false_eq_true, not_false_eq_true, ne_eq,
    and_self, ↓reduceIte]
  obtain ⟨order, block, bitCount, bitPosition⟩ := w
  cases order <;> rfl

/-- A drain takes the complete bytes and the writer keeps the bits after them. -/
theorem drain_wrote {w : BitWriter} (h : w.Wrote bits) :
    ∃ piece w', drain w false = .ok (piece, w') ∧ w'.bitOrder = w.bitOrder ∧
      orderedBits w.bitOrder piece = bits.take (8 * (bits.length / 8)) ∧
      w'.Wrote (bits.drop (8 * (bits.length / 8))) := by
  have hsize := h.block_length
  have hpiece : orderedBits w.bitOrder (w.block.take (bits.length / 8)) =
      bits.take (8 * (bits.length / 8)) := by
    rw [orderedBits_take, h.block_bits, List.take_append_of_le_length (by omega)]
  have hreset : w.reset.Wrote [] := .empty w.bitOrder
  by_cases hr : bits.length % 8 = 0
  · rw [drain]
    simp only [BitWriter.takeByteBlockEditor, h.count, hr, Bool.false_eq_true, ne_eq,
      not_true_eq_false, and_false, ↓reduceIte]
    refine ⟨_, _, rfl, rfl, hpiece, ?_⟩
    rw [List.drop_eq_nil_of_le (by omega)]
    exact hreset
  · -- The bits behind the last complete byte are the field that is written back.
    have hfield := orderedBits_field w.bitOrder w.block
      (show 8 * (bits.length / 8) / 8 < w.block.length by omega)
      (show 8 * (bits.length / 8) % 8 + bits.length % 8 ≤ 8 by omega)
    have hrest : ((bits ++ List.replicate ((8 - bits.length % 8) % 8) false).drop
        (8 * (bits.length / 8))).take (bits.length % 8) = bits.drop (8 * (bits.length / 8)) := by
      rw [List.drop_append_of_le_length (by omega), List.take_left']
      rw [List.length_drop]
      omega
    rw [h.block_bits, hrest, Nat.mul_div_cancel_left _ (by omega : 0 < 8), Nat.mul_mod_right]
      at hfield
    obtain ⟨w', hw', ho, hwrote⟩ := hreset.writeBits
      (w.block[bits.length / 8]!.toNat >>> byteShift w.bitOrder 0 (bits.length % 8))
      (show bits.length % 8 ≤ 64 by omega) (by
        rw [List.length_nil, cSizeMaximum]
        omega)
    rw [List.nil_append] at hwrote
    have ho' : w.reset.bitOrder = w.bitOrder := rfl
    rw [ho', ← hfield] at hwrote
    rw [drain_incomplete w (by rwa [h.count]), h.count, hw', ok_bind]
    exact ⟨_, w', rfl, ho, hpiece, hwrote⟩

theorem drain_last {w : BitWriter} (h : w.Wrote bits) :
    ∃ w', drain w true = .ok (w.block, w') := by
  refine ⟨w.reset, ?_⟩
  rw [drain]
  simp only [BitWriter.takeByteBlockEditor, not_true_eq_false, false_and, ↓reduceIte]
  rw [List.take_of_length_le]
  rw [h.block_length, h.count]

namespace CodecBitOutput

/-- The drained pieces and the bits in the writer are all the bits that were written. -/
def Sent (o : CodecBitOutput) (bits : List Bool) : Prop :=
  ∃ pending, o.writer.Wrote pending ∧
    orderedBits o.writer.bitOrder o.drained.flatten ++ pending = bits

theorem Sent.write {o : CodecBitOutput} (h : o.Sent bits) (value : UInt64) (hn : n ≤ 64)
    (hs : bits.length + n ≤ cSizeMaximum) :
    ∃ o', o.step (.write value n) = .ok o' ∧ o'.writer.bitOrder = o.writer.bitOrder ∧
      o'.Sent (bits ++ fieldBits o.writer.bitOrder n value.toNat) := by
  obtain ⟨pending, hw, rfl⟩ := h
  rw [List.length_append] at hs
  obtain ⟨w', hwrite, ho, hw'⟩ := hw.writeBits value.toNat hn (by omega)
  refine ⟨⟨w', o.drained⟩, ?_, ho, _, hw', ?_⟩
  · rw [step, hwrite, ok_bind]
    rfl
  · rw [ho, List.append_assoc]

theorem Sent.drain {o : CodecBitOutput} (h : o.Sent bits) :
    ∃ o', o.step .drain = .ok o' ∧ o'.writer.bitOrder = o.writer.bitOrder ∧ o'.Sent bits := by
  obtain ⟨pending, hw, rfl⟩ := h
  obtain ⟨piece, w', hdrain, ho, hpiece, hw'⟩ := drain_wrote hw
  refine ⟨⟨w', o.drained ++ [piece]⟩, ?_, ho, _, hw', ?_⟩
  · rw [step, hdrain, ok_bind]
    rfl
  · rw [ho, List.flatten_append, orderedBits_append, List.flatten_singleton, hpiece,
      List.append_assoc, List.take_append_drop]

theorem Sent.run {o : CodecBitOutput} (h : o.Sent bits)
    (hn : ∀ field ∈ fields steps, field.2 ≤ 64)
    (hs : bits.length + (fieldsBits o.writer.bitOrder (fields steps)).length ≤ cSizeMaximum) :
    ∃ o', o.run steps = .ok o' ∧ o'.writer.bitOrder = o.writer.bitOrder ∧
      o'.Sent (bits ++ fieldsBits o.writer.bitOrder (fields steps)) := by
  induction steps generalizing o bits with
  | nil =>
    refine ⟨o, rfl, rfl, ?_⟩
    rwa [fields, fieldsBits, List.flatMap_nil, List.append_nil]
  | cons action steps ih =>
    cases action with
    | write value bitCount =>
      rw [fields] at hn hs ⊢
      rw [fieldsBits_cons, List.length_append, fieldBits_length] at hs
      obtain ⟨o₁, h₁, ho₁, hsent⟩ := h.write value (hn _ (List.mem_cons_self ..)) (by omega)
      obtain ⟨o', h', ho', hsent'⟩ := ih hsent (fun f hf => hn f (List.mem_cons_of_mem _ hf)) (by
        rw [ho₁, List.length_append, fieldBits_length]
        omega)
      refine ⟨o', ?_, ho'.trans ho₁, ?_⟩
      · rw [CodecBitOutput.run, List.foldlM_cons, h₁, ok_bind]
        exact h'
      · rw [fieldsBits_cons, ← List.append_assoc]
        rwa [ho₁] at hsent'
    | drain =>
      obtain ⟨o₁, h₁, ho₁, hsent⟩ := h.drain
      obtain ⟨o', h', ho', hsent'⟩ := ih hsent hn (by rwa [ho₁])
      refine ⟨o', ?_, ho'.trans ho₁, ?_⟩
      · rw [CodecBitOutput.run, List.foldlM_cons, h₁, ok_bind]
        exact h'
      · rwa [fields, ← ho₁]

/-- The final drain pads the last byte with zero bits. -/
theorem Sent.finish {o : CodecBitOutput} (h : o.Sent bits) :
    ∃ pieces, o.finish = .ok pieces ∧ orderedBits o.writer.bitOrder pieces.flatten =
      bits ++ List.replicate ((8 - bits.length % 8) % 8) false := by
  obtain ⟨pending, hw, rfl⟩ := h
  obtain ⟨w', hlast⟩ := drain_last hw
  refine ⟨o.drained ++ [o.writer.block], ?_, ?_⟩
  · rw [CodecBitOutput.finish, hlast, ok_bind]
    rfl
  · rw [List.flatten_append, orderedBits_append, List.flatten_singleton, hw.block_bits,
      List.append_assoc, List.length_append, orderedBits_length, Nat.mul_add_mod]

end CodecBitOutput
end ErbslandCore.Compression
