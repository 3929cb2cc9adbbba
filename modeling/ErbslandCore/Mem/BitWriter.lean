import ErbslandCore.Mem.ByteModifyTools
import ErbslandCore.Mem.OrderedBits

namespace ErbslandCore.Mem
open Library
set_option autoImplicit true

/-- The bytes written so far, the logical bit count and the write cursor. -/
structure BitWriter where
  bitOrder : BitOrder
  block : List UInt8 := []
  bitCount : Nat := 0
  bitPosition : Nat := 0
  deriving DecidableEq

def byteCountForBits (bitCount : Nat) : Nat :=
  bitCount / 8 + if bitCount % 8 ≠ 0 then 1 else 0

def BitWriter.byteCount (w : BitWriter) : Nat := byteCountForBits w.bitCount

def BitWriter.isByteAligned (w : BitWriter) : Bool := w.bitPosition % 8 = 0

def BitWriter.reset (w : BitWriter) : BitWriter := { bitOrder := w.bitOrder }

/-- Replace `count` bits of a byte at `byteShift` by the bits of the value at `valueShift`. -/
def writeByteBits (byte : UInt8) (value valueShift byteShift count : Nat) : UInt8 :=
  let valueMask := UInt8.ofNat ((1 <<< count) - 1)
  let mask := UInt8.ofNat (valueMask.toNat <<< byteShift)
  let bits := UInt8.ofNat ((value >>> valueShift) &&& valueMask.toNat)
  (byte &&& ~~~mask) ||| UInt8.ofNat (bits.toNat <<< byteShift)

/-- The byte-wise loop of `writeBitsUnchecked`. -/
def writeBitsLoop (order : BitOrder) (value bitCountValue position written : Nat)
    (data : List UInt8) : List UInt8 :=
  if written < bitCountValue then
    let byteIndex := position / 8
    let bitOffset := position % 8
    let count := min (bitCountValue - written) (8 - bitOffset)
    let byte := match order with
      | .mostSignificantFirst => writeByteBits data[byteIndex]! value
          (bitCountValue - written - count) (8 - bitOffset - count) count
      | .leastSignificantFirst => writeByteBits data[byteIndex]! value written bitOffset count
    writeBitsLoop order value bitCountValue (position + count) (written + count)
      (data.set byteIndex byte)
  else data
termination_by bitCountValue - written

/-- Grow the block to hold a field at the cursor. -/
def BitWriter.prepareWrite (w : BitWriter) (bitCountValue : Nat) : Except MemError BitWriter :=
  if cSizeMaximum - w.bitPosition < bitCountValue then
    .error (.outOfRange "Bit write position overflow.")
  else
    let requiredByteCount := byteCountForBits (w.bitPosition + bitCountValue)
    .ok { w with block := w.block ++ List.replicate (requiredByteCount - w.block.length) 0 }

def BitWriter.writeBits (w : BitWriter) (value bitCountValue : Nat) : Except MemError BitWriter :=
  if 64 < bitCountValue then .error (.outOfRange "Bit write exceeds 64 bits.")
  else do
    let w ← w.prepareWrite bitCountValue
    let endPosition := w.bitPosition + bitCountValue
    return { w with
      block := writeBitsLoop w.bitOrder value bitCountValue w.bitPosition 0 w.block
      bitPosition := endPosition
      bitCount := max w.bitCount endPosition }

def BitWriter.alignToByte (w : BitWriter) : Except MemError BitWriter :=
  w.writeBits 0 ((8 - w.bitPosition % 8) % 8)

def BitWriter.writeBytes (w : BitWriter) (bytes : List UInt8) : Except MemError BitWriter :=
  if ¬ w.isByteAligned ∨ (cSizeMaximum - w.bitPosition) / 8 < bytes.length then
    .error (.outOfRange "Byte write requires alignment and an addressable bit position.")
  else
    let bytePosition := w.bitPosition / 8
    let bitPosition := w.bitPosition + bytes.length * 8
    .ok { w with
      block := w.block.take bytePosition ++ bytes ++ w.block.drop (bytePosition + bytes.length)
      bitPosition := bitPosition
      bitCount := max w.bitCount bitPosition }

/-- Transfer the written bytes and reset. -/
def BitWriter.takeByteBlockEditor (w : BitWriter) : List UInt8 × BitWriter :=
  (w.block, w.reset)

theorem testBit_compl_byte (h : i < 8) (b : UInt8) :
    (~~~b).toNat.testBit i = !b.toNat.testBit i := by
  have hb : UInt8.size - 1 - b.toNat = 2 ^ 8 - (b.toNat + 1) := by
    rw [UInt8.size]
    omega
  rw [UInt8.toNat_not, hb, Nat.testBit_two_pow_sub_succ b.toNat_lt]
  simp [h]

/-- A written byte holds the field between its shift and its end, and the old bits elsewhere. -/
theorem writeByteBits_testBit (byte : UInt8) (value shift : Nat) (hc : offset + count ≤ 8)
    (hi : i < 8) :
    (writeByteBits byte value shift offset count).toNat.testBit i =
      if offset ≤ i ∧ i < offset + count then value.testBit (shift + (i - offset))
      else byte.toNat.testBit i := by
  have hcount : count ≤ 8 := by omega
  have hpow : 2 ^ count ≤ 2 ^ 8 := Nat.pow_le_pow_right (by omega) hcount
  have hmask : (UInt8.ofNat ((1 <<< count) - 1)).toNat = 2 ^ count - 1 := by
    rw [UInt8.toNat_ofNat', Nat.one_shiftLeft, Nat.mod_eq_of_lt (by omega)]
  simp only [writeByteBits, hmask, UInt8.toNat_or, UInt8.toNat_and, Nat.testBit_or,
    Nat.testBit_and, testBit_compl_byte hi, UInt8.toNat_ofNat', Nat.testBit_mod_two_pow, hi,
    Nat.testBit_shiftLeft, Nat.testBit_two_pow_sub_one, Nat.testBit_shiftRight, decide_true,
    Bool.true_and]
  by_cases h₁ : offset ≤ i
  · by_cases h₂ : i < offset + count
    · simp [h₁, h₂, show i - offset < count by omega, show i - offset < 8 by omega]
    · simp [h₁, h₂, show ¬ i - offset < count by omega]
  · simp [h₁]

/-- The shift that brings the next bits of a field to its low end. -/
def valueShift (order : BitOrder) (n written count : Nat) : Nat :=
  match order with
  | .leastSignificantFirst => written
  | .mostSignificantFirst => n - written - count

section
variable (order : BitOrder)

/-- One byte takes the next bits of the field in place of its own. -/
theorem orderedBits_set (data : List UInt8) (value n written position count : Nat)
    (hp : position / 8 < data.length) (hc : position % 8 + count ≤ 8)
    (hn : written + count ≤ n) :
    orderedBits order (data.set (position / 8) (writeByteBits data[position / 8]! value
        (valueShift order n written count) (byteShift order (position % 8) count) count)) =
      (orderedBits order data).take position ++ ((fieldBits order n value).drop written).take count ++
        (orderedBits order data).drop (position + count) := by
  have hshift : byteShift order (position % 8) count + count ≤ 8 := by
    cases order <;> simp only [byteShift] <;> omega
  -- A bit of the byte is a bit of the field where the count covers it.
  have byte (j : Nat) (hj : j < 8) :
      (writeByteBits data[position / 8]! value (valueShift order n written count)
        (byteShift order (position % 8) count) count).toNat.testBit (bitIndex order 8 j) =
      if position % 8 ≤ j ∧ j < position % 8 + count then
        value.testBit (bitIndex order n (written + (j - position % 8)))
      else data[position / 8]!.toNat.testBit (bitIndex order 8 j) := by
    rw [writeByteBits_testBit _ _ _ hshift (by cases order <;> simp only [bitIndex] <;> omega)]
    cases order with
    | leastSignificantFirst => rfl
    | mostSignificantFirst =>
      by_cases hin : position % 8 ≤ j ∧ j < position % 8 + count
      · rw [if_pos hin, if_pos (by simp only [bitIndex, byteShift]; omega)]
        congr 1
        simp only [bitIndex, byteShift, valueShift]
        omega
      · rw [if_neg hin, if_neg (by simp only [bitIndex, byteShift]; omega)]
  generalize writeByteBits data[position / 8]! value (valueShift order n written count)
    (byteShift order (position % 8) count) count = new at byte
  have hold : data[position / 8]? = some data[position / 8]! := by
    rw [getElem!_pos data _ hp]
    exact List.getElem?_eq_getElem hp
  have hl : ((orderedBits order data).take position).length = position := by
    rw [List.length_take, orderedBits_length]
    omega
  have hf : (((fieldBits order n value).drop written).take count).length = count := by
    rw [List.length_take, List.length_drop, fieldBits_length]
    omega
  refine List.ext_getElem? fun i => ?_
  have hbit : (orderedBits order (data.set (position / 8) new))[i]? =
      if i / 8 = position / 8 then
        some (if position % 8 ≤ i % 8 ∧ i % 8 < position % 8 + count then
          value.testBit (bitIndex order n (written + (i % 8 - position % 8)))
        else data[position / 8]!.toNat.testBit (bitIndex order 8 (i % 8)))
      else (orderedBits order data)[i]? := by
    rw [orderedBits_getElem?]
    split
    case isTrue hb =>
      rw [hb, List.getElem?_set_self hp, Option.map_some, byte _ (Nat.mod_lt i (by omega))]
    case isFalse hb => rw [List.getElem?_set_ne (Ne.symm hb), orderedBits_getElem?]
  have hsame (hb : i / 8 = position / 8) : (orderedBits order data)[i]? =
      some (data[position / 8]!.toNat.testBit (bitIndex order 8 (i % 8))) := by
    rw [orderedBits_getElem?, hb, hold]
    rfl
  rw [hbit]
  by_cases hlow : i < position
  · rw [List.append_assoc, List.getElem?_append_left (by omega), List.getElem?_take_of_lt hlow]
    split
    case isTrue hb => rw [if_neg (by omega), hsame hb]
    case isFalse => rfl
  · obtain ⟨j, rfl⟩ := Nat.exists_eq_add_of_le (Nat.le_of_not_gt hlow)
    rw [List.append_assoc, List.getElem?_append_right (by omega), hl, Nat.add_sub_cancel_left]
    by_cases hj : j < count
    · rw [if_pos (by omega), if_pos (by omega), List.getElem?_append_left (by omega),
        List.getElem?_take_of_lt hj, List.getElem?_drop, fieldBits_getElem?, if_pos (by omega)]
      congr 3
      omega
    · rw [List.getElem?_append_right (by omega), hf, List.getElem?_drop,
        Nat.add_assoc, Nat.add_sub_cancel' (Nat.le_of_not_gt hj)]
      split
      case isTrue hb => rw [if_neg (by omega), hsame hb]
      case isFalse => rfl

theorem writeBitsLoop_step (value position : Nat) (data : List UInt8) (hw : written < n) :
    writeBitsLoop order value n position written data =
      writeBitsLoop order value n (position + min (n - written) (8 - position % 8))
        (written + min (n - written) (8 - position % 8))
        (data.set (position / 8) (writeByteBits data[position / 8]! value
          (valueShift order n written (min (n - written) (8 - position % 8)))
          (byteShift order (position % 8) (min (n - written) (8 - position % 8)))
          (min (n - written) (8 - position % 8)))) := by
  conv_lhs => rw [writeBitsLoop, if_pos hw]
  cases order with
  | leastSignificantFirst => rfl
  | mostSignificantFirst => rfl

/-- The loop replaces the bits at its position by the remaining bits of the field. -/
theorem writeBitsLoop_ordered (value position n written : Nat) (data : List UInt8)
    (h : position + (n - written) ≤ 8 * data.length) :
    orderedBits order (writeBitsLoop order value n position written data) =
      (orderedBits order data).take position ++ (fieldBits order n value).drop written ++
        (orderedBits order data).drop (position + (n - written)) := by
  induction hm : n - written using Nat.strong_induction_on
    generalizing data position written with
  | _ m ih =>
    by_cases hw : written < n
    · rw [writeBitsLoop_step order value position data hw]
      generalize hcount : min (n - written) (8 - position % 8) = count
      have hset := orderedBits_set order data value n written position count (by omega)
        (by omega) (by omega)
      rw [ih (n - (written + count)) (by omega) _ _ _ (by rw [List.length_set]; omega) rfl, hset]
      have htake : ((orderedBits order data).take position ++
          ((fieldBits order n value).drop written).take count).length = position + count := by
        rw [List.length_append, List.length_take, orderedBits_length, List.length_take,
          List.length_drop, fieldBits_length]
        omega
      have hdrop (tail : List Bool) : (((orderedBits order data).take position ++
          ((fieldBits order n value).drop written).take count) ++ tail).drop
            (position + count + (n - (written + count))) =
          tail.drop (n - (written + count)) := by
        rw [← List.drop_drop, List.drop_left' htake]
      rw [List.take_left' htake, hdrop, List.drop_drop, ← List.drop_drop (l := fieldBits order n value),
        List.append_assoc ((orderedBits order data).take position), List.take_append_drop]
      congr 2
      omega
    · rw [writeBitsLoop, if_neg hw, show m = 0 by omega,
        List.drop_eq_nil_of_le (by rw [fieldBits_length]; omega), List.append_nil, Nat.add_zero,
        List.take_append_drop]

end

/-- The loop replaces the bits at its position by the bits of the value. -/
theorem writeBitsLoop_bits (value position n : Nat) (data : List UInt8)
    (h : position + n ≤ 8 * data.length) :
    bitsOf (writeBitsLoop .leastSignificantFirst value n position 0 data) =
      (bitsOf data).take position ++ natBits n value ++ (bitsOf data).drop (position + n) :=
  writeBitsLoop_ordered .leastSignificantFirst value position n 0 data h

/-- The writer was only appended to and has written the given bits. -/
structure BitWriter.Holds (w : BitWriter) (bits : List Bool) : Prop where
  order : w.bitOrder = .leastSignificantFirst
  count : w.bitCount = bits.length
  position : w.bitPosition = bits.length
  size : w.block.length = byteCountForBits bits.length
  bits_eq : (bitsOf w.block).take bits.length = bits

theorem byteCountForBits_le (n : Nat) : n ≤ 8 * byteCountForBits n := by
  rw [byteCountForBits]
  split <;> omega

theorem byteCountForBits_eq (n : Nat) : byteCountForBits n = (n + 7) / 8 := by
  rw [byteCountForBits]
  split <;> omega

theorem BitWriter.Holds.reset (w : BitWriter) (h : w.bitOrder = .leastSignificantFirst) :
    w.reset.Holds [] := ⟨h, rfl, rfl, rfl, rfl⟩

/-- Writing a field appends its bits. -/
theorem BitWriter.Holds.writeBits {w : BitWriter} (h : w.Holds bits) (value : Nat) (hn : n ≤ 64)
    (hs : bits.length + n ≤ cSizeMaximum) :
    ∃ w', w.writeBits value n = .ok w' ∧ w'.Holds (bits ++ natBits n value) := by
  have hp := h.position
  have hsize := h.size
  have hge := byteCountForBits_le bits.length
  have hge' := byteCountForBits_le (bits.length + n)
  have hmono : byteCountForBits bits.length ≤ byteCountForBits (bits.length + n) := by
    rw [byteCountForBits_eq, byteCountForBits_eq]
    omega
  have hlen : (w.block ++ List.replicate
      (byteCountForBits (bits.length + n) - w.block.length) 0).length =
        byteCountForBits (bits.length + n) := by
    rw [List.length_append, List.length_replicate]
    omega
  simp only [BitWriter.writeBits, BitWriter.prepareWrite, if_neg (Nat.not_lt.mpr hn), hp,
    if_neg (show ¬ cSizeMaximum - bits.length < n by omega), bind, Except.bind, pure,
    Except.pure]
  refine ⟨_, rfl, ?_⟩
  have hloop := writeBitsLoop_bits value bits.length n (w.block ++ List.replicate
      (byteCountForBits (bits.length + n) - w.block.length) 0) (by omega)
  have hkept : (bitsOf (w.block ++ List.replicate
      (byteCountForBits (bits.length + n) - w.block.length) 0)).take bits.length = bits := by
    rw [bitsOf_append, List.take_append_of_le_length (by rw [bitsOf_length]; omega), h.bits_eq]
  have hbits : (bits ++ natBits n value).length = bits.length + n := by simp
  rw [hkept] at hloop
  refine ⟨h.order, ?_, hbits.symm, ?_, ?_⟩
  · rw [hbits, h.count]
    exact Nat.max_eq_right (by omega)
  · have hl := congrArg List.length hloop
    simp only [bitsOf_length, List.length_append, natBits_length, List.length_drop, hlen] at hl
    rw [hbits, h.order]
    simp only at hl ⊢
    omega
  · simp only [h.order]
    rw [hloop, List.take_left' rfl]

/-- Alignment appends zero bits up to the next byte boundary. -/
theorem BitWriter.Holds.alignToByte {w : BitWriter} (h : w.Holds bits)
    (hs : bits.length + 8 ≤ cSizeMaximum) :
    ∃ w', w.alignToByte = .ok w' ∧
      w'.Holds (bits ++ natBits ((8 - bits.length % 8) % 8) 0) := by
  rw [BitWriter.alignToByte, h.position]
  exact h.writeBits 0 (by omega) (by omega)

/-- Whole bytes are appended after an alignment. -/
theorem BitWriter.Holds.writeBytes {w : BitWriter} (h : w.Holds bits) (bytes : List UInt8)
    (ha : 8 ∣ bits.length) (hs : bits.length + 8 * bytes.length ≤ cSizeMaximum) :
    ∃ w', w.writeBytes bytes = .ok w' ∧ w'.Holds (bits ++ bitsOf bytes) := by
  have hsize : w.block.length = bits.length / 8 := by
    rw [h.size, byteCountForBits_eq]
    omega
  have hblock : bitsOf w.block = bits := by
    rw [← h.bits_eq, List.take_of_length_le]
    rw [bitsOf_length]
    omega
  rw [BitWriter.writeBytes, h.position, BitWriter.isByteAligned, h.position,
    if_neg (by simp; omega)]
  refine ⟨_, rfl, ?_⟩
  have hcat : w.block.take (bits.length / 8) ++ bytes ++
      w.block.drop (bits.length / 8 + bytes.length) = w.block ++ bytes := by
    rw [List.take_of_length_le (by omega), List.drop_eq_nil_of_le (by omega), List.append_nil]
  have hbits : (bits ++ bitsOf bytes).length = bits.length + bytes.length * 8 := by
    rw [List.length_append, bitsOf_length, Nat.mul_comm]
  refine ⟨h.order, ?_, hbits.symm, ?_, ?_⟩
  · rw [hbits, h.count]
    exact Nat.max_eq_right (by omega)
  · simp only [hcat]
    rw [List.length_append, hbits, byteCountForBits_eq]
    omega
  · simp only [hcat, bitsOf_append, hblock]
    exact List.take_length

/-- A writer that holds whole bytes has these bytes in its block. -/
theorem BitWriter.Holds.bitsOf_block {w : BitWriter} (h : w.Holds bits) (ha : 8 ∣ bits.length) :
    bitsOf w.block = bits := by
  rw [← h.bits_eq, List.take_of_length_le]
  rw [bitsOf_length, h.size, byteCountForBits_eq]
  omega

/-- Every block of a writer is its bits followed by padding within the last byte. -/
theorem BitWriter.Holds.exists_padding {w : BitWriter} (h : w.Holds bits) :
    ∃ padding, padding.length < 8 ∧ bitsOf w.block = bits ++ padding := by
  refine ⟨(bitsOf w.block).drop bits.length, ?_, ?_⟩
  · rw [List.length_drop, bitsOf_length, h.size, byteCountForBits_eq]
    omega
  · conv_lhs => rw [← List.take_append_drop bits.length (bitsOf w.block), h.bits_eq]

/-- A writer that was only appended to holds its bits and zero bits up to the next byte. -/
structure BitWriter.Wrote (w : BitWriter) (bits : List Bool) : Prop where
  count : w.bitCount = bits.length
  position : w.bitPosition = bits.length
  block_bits : orderedBits w.bitOrder w.block =
    bits ++ List.replicate ((8 - bits.length % 8) % 8) false

theorem BitWriter.Wrote.empty (order : BitOrder) : ({ bitOrder := order } : BitWriter).Wrote [] :=
  ⟨rfl, rfl, rfl⟩

theorem BitWriter.Wrote.block_length {w : BitWriter} (h : w.Wrote bits) :
    w.block.length = (bits.length + 7) / 8 := by
  have hl := congrArg List.length h.block_bits
  rw [orderedBits_length, List.length_append, List.length_replicate] at hl
  omega

/-- The bits that were written determine every byte of the block. -/
theorem BitWriter.Wrote.block_eq {w w' : BitWriter} (h : w.Wrote bits) (h' : w'.Wrote bits)
    (ho : w.bitOrder = w'.bitOrder) : w.block = w'.block := by
  apply orderedBits_injective w.bitOrder
  rw [h.block_bits, ho, h'.block_bits]

/-- Writing a field appends its bits. -/
theorem BitWriter.Wrote.writeBits {w : BitWriter} (h : w.Wrote bits) (value : Nat) (hn : n ≤ 64)
    (hs : bits.length + n ≤ cSizeMaximum) :
    ∃ w', w.writeBits value n = .ok w' ∧ w'.bitOrder = w.bitOrder ∧
      w'.Wrote (bits ++ fieldBits w.bitOrder n value) := by
  have hp := h.position
  have hsize := h.block_length
  simp only [BitWriter.writeBits, BitWriter.prepareWrite, if_neg (Nat.not_lt.mpr hn), hp,
    if_neg (show ¬ cSizeMaximum - bits.length < n by omega), bind, Except.bind, pure,
    Except.pure]
  refine ⟨_, rfl, rfl, ?_⟩
  have hbits : (bits ++ fieldBits w.bitOrder n value).length = bits.length + n := by
    rw [List.length_append, fieldBits_length]
  generalize hfill : byteCountForBits (bits.length + n) - w.block.length = fill
  rw [byteCountForBits_eq, hsize] at hfill
  have hzero : orderedBits w.bitOrder (List.replicate fill 0) = List.replicate (8 * fill) false := by
    clear hfill
    induction fill with
    | zero => rfl
    | succ fill ih =>
      have hbyte : fieldBits w.bitOrder 8 (0 : UInt8).toNat = List.replicate 8 false := by
        cases w.bitOrder <;> rfl
      rw [List.replicate_succ, orderedBits_cons, ih, hbyte, List.replicate_append_replicate]
      congr 1
      omega
  have hgrown : orderedBits w.bitOrder (w.block ++ List.replicate fill 0) =
      bits ++ List.replicate (n + (8 - (bits.length + n) % 8) % 8) false := by
    rw [orderedBits_append, h.block_bits, hzero, List.append_assoc,
      List.replicate_append_replicate]
    congr 2
    omega
  have hroom : 8 * (w.block ++ List.replicate fill 0).length =
      bits.length + (n + (8 - (bits.length + n) % 8) % 8) := by
    rw [← orderedBits_length w.bitOrder, hgrown, List.length_append, List.length_replicate]
  refine ⟨?_, hbits.symm, ?_⟩
  · rw [hbits, h.count]
    exact Nat.max_eq_right (by omega)
  · have hloop := writeBitsLoop_ordered w.bitOrder value bits.length n 0
      (w.block ++ List.replicate fill 0) (by omega)
    rw [hgrown, List.take_left' rfl, Nat.sub_zero, List.drop_zero, ← List.drop_drop,
      List.drop_left' rfl, List.drop_replicate, Nat.add_sub_cancel_left] at hloop
    rw [hbits]
    exact hloop

end ErbslandCore.Mem
