import ErbslandCore.Mem.BitWriter

namespace ErbslandCore.Mem
open Library
set_option autoImplicit true

/-- A sequential reader over a retained tail of earlier input followed by the current block. -/
structure BitReader where
  bitOrder : BitOrder
  prefixBytes : List UInt8 := []
  data : List UInt8 := []
  bitPosition : Nat := 0
  position_le : bitPosition ≤ (prefixBytes.length + data.length) * 8 := by simp

namespace BitReader

def byteCount (r : BitReader) : Nat := r.prefixBytes.length + r.data.length

def bitCount (r : BitReader) : Nat := r.byteCount * 8

def bytePosition (r : BitReader) : Nat := r.bitPosition / 8

def consumedByteCount (r : BitReader) : Nat := (r.bitPosition + 7) / 8

def remainingBitCount (r : BitReader) : Nat := r.bitCount - r.bitPosition

def isByteAligned (r : BitReader) : Bool := r.bitPosition % 8 = 0

def canRead (r : BitReader) (bitCountValue : Nat) : Bool := bitCountValue ≤ r.remainingBitCount

/-- Read a byte from the retained tail or the current block. -/
def byteAt (r : BitReader) (index : Nat) : UInt8 :=
  if index < r.prefixBytes.length then r.prefixBytes[index]!
  else r.data[index - r.prefixBytes.length]!

def setBitPosition (r : BitReader) (bitPosition : Nat) : BitReader :=
  { r with
    bitPosition := min bitPosition r.bitCount
    position_le := Nat.min_le_right _ _ }

def advance (r : BitReader) (bitCountValue : Nat) : BitReader :=
  { r with
    bitPosition := r.bitPosition + min bitCountValue r.remainingBitCount
    position_le := by
      have h := r.position_le
      rw [remainingBitCount, bitCount, byteCount]
      omega }

def alignToByte (r : BitReader) : BitReader := r.advance ((8 - r.bitPosition % 8) % 8)

/-- Replace consumed input and keep the unread tail. -/
def refill (r : BitReader) (data : List UInt8) : Except MemError BitReader :=
  if 64 < r.remainingBitCount then
    .error (.outOfRange "Bit reader refill requires at most 64 unread bits.")
  else .ok {
    bitOrder := r.bitOrder
    prefixBytes := (List.range (r.byteCount - r.bytePosition)).map fun i =>
      r.byteAt (r.bytePosition + i)
    data := data
    bitPosition := r.bitPosition % 8
    position_le := by
      have h := r.position_le
      rw [List.length_map, List.length_range, bytePosition, byteCount]
      omega }

/-- The byte-wise loop of `readBitsUnchecked`. -/
def readBitsLoop (r : BitReader) (result resultShift bitPosition remaining : Nat) : Nat :=
  if remaining ≠ 0 then
    let byteIndex := bitPosition / 8
    let bitOffset := bitPosition % 8
    let count := min remaining (8 - bitOffset)
    let mask := (UInt8.ofNat ((1 <<< count) - 1)).toNat
    match r.bitOrder with
    | .mostSignificantFirst =>
      let value := ((r.byteAt byteIndex).toNat >>> (8 - bitOffset - count)) &&& mask
      readBitsLoop r ((result <<< count) ||| value) resultShift (bitPosition + count)
        (remaining - count)
    | .leastSignificantFirst =>
      let value := ((r.byteAt byteIndex).toNat >>> bitOffset) &&& mask
      readBitsLoop r (result ||| (value <<< resultShift)) (resultShift + count)
        (bitPosition + count) (remaining - count)
  else result
termination_by remaining
decreasing_by all_goals omega

/-- Read a field, or return zero without advancing when it is unavailable. -/
def readBits (r : BitReader) (bitCountValue : Nat) : Nat × BitReader :=
  if h : bitCountValue ≤ 64 ∧ r.canRead bitCountValue then
    (readBitsLoop r 0 0 r.bitPosition bitCountValue,
      { r with
        bitPosition := r.bitPosition + bitCountValue
        position_le := by
          have hr := of_decide_eq_true h.2
          have hp := r.position_le
          rw [remainingBitCount, bitCount, byteCount] at hr
          omega })
  else (0, r)

def readBytesOrThrow (r : BitReader) (length : Nat) : Except MemError (List UInt8 × BitReader) :=
  if h : r.isByteAligned = false ∨ r.remainingBitCount / 8 < length then
    .error (.outOfRange "Byte read requires alignment and sufficient buffered input.")
  else
    let begin := r.bytePosition
    let result :=
      if r.prefixBytes.length ≤ begin then
        (r.data.drop (begin - r.prefixBytes.length)).take length
      else
        let prefixCount := min length (r.prefixBytes.length - begin)
        (r.prefixBytes.drop begin).take prefixCount ++ r.data.take (length - prefixCount)
    .ok (result, { r with
      bitPosition := r.bitPosition + length * 8
      position_le := by
        have hp := r.position_le
        rw [remainingBitCount, bitCount, byteCount] at h
        omega })

/-- The bits from the cursor to the end in the given order. -/
def bitsIn (r : BitReader) (order : BitOrder) : List Bool :=
  (orderedBits order (r.prefixBytes ++ r.data)).drop r.bitPosition

/-- The bits that were not read yet, in the order of the reader. -/
def unread (r : BitReader) : List Bool := r.bitsIn r.bitOrder

/-- The bits that were not read yet. -/
def bits (r : BitReader) : List Bool :=
  (bitsOf (r.prefixBytes ++ r.data)).drop r.bitPosition

@[simp] theorem bitsIn_length (r : BitReader) (order : BitOrder) :
    (r.bitsIn order).length = r.remainingBitCount := by
  simp only [bitsIn, List.length_drop, orderedBits_length, List.length_append, remainingBitCount,
    bitCount, byteCount]
  omega

@[simp] theorem unread_length (r : BitReader) : r.unread.length = r.remainingBitCount :=
  r.bitsIn_length _

@[simp] theorem bits_length (r : BitReader) : r.bits.length = r.remainingBitCount :=
  r.bitsIn_length .leastSignificantFirst

theorem byteAt_eq (r : BitReader) (index : Nat) :
    r.byteAt index = (r.prefixBytes ++ r.data)[index]! := by
  unfold byteAt
  split
  case isTrue h => exact (getElem!_append_left _ _ h).symm
  case isFalse h => exact (getElem!_append_right _ _ (Nat.le_of_not_gt h)).symm

theorem advance_bitsIn (r : BitReader) (order : BitOrder) (n : Nat) :
    (r.advance n).bitsIn order = (r.bitsIn order).drop n := by
  simp only [advance, bitsIn, List.drop_drop]
  by_cases h : n ≤ r.remainingBitCount
  · rw [Nat.min_eq_left h]
  · rw [Nat.min_eq_right (Nat.le_of_not_ge h)]
    simp only [remainingBitCount, bitCount, byteCount] at h ⊢
    rw [List.drop_eq_nil_of_le, List.drop_eq_nil_of_le]
    · rw [orderedBits_length, List.length_append]
      omega
    · rw [orderedBits_length, List.length_append]
      omega

theorem advance_unread (r : BitReader) (n : Nat) : (r.advance n).unread = r.unread.drop n :=
  r.advance_bitsIn _ n

theorem advance_bits (r : BitReader) (n : Nat) : (r.advance n).bits = r.bits.drop n :=
  r.advance_bitsIn .leastSignificantFirst n

/-- The distance to the next byte boundary is visible in the number of unread bits. -/
theorem align_eq (r : BitReader) : (8 - r.bitPosition % 8) % 8 = r.bits.length % 8 := by
  have h := r.position_le
  rw [bits_length, remainingBitCount, bitCount, byteCount]
  omega

theorem alignToByte_bits (r : BitReader) :
    r.alignToByte.bits = r.bits.drop (r.bits.length % 8) := by
  rw [alignToByte, advance_bits, align_eq]

theorem alignToByte_unread (r : BitReader) :
    r.alignToByte.unread = r.unread.drop (r.unread.length % 8) := by
  rw [alignToByte, advance_unread, align_eq, bits_length, unread_length]

/-- A refill appends the bits of the next block. -/
theorem refill_bitsIn (r : BitReader) (data : List UInt8) (h : r.remainingBitCount ≤ 64) :
    ∃ r', r.refill data = .ok r' ∧ r'.bitOrder = r.bitOrder ∧
      ∀ order, r'.bitsIn order = r.bitsIn order ++ orderedBits order data := by
  rw [refill, if_neg (by omega)]
  refine ⟨_, rfl, rfl, fun order => ?_⟩
  have hp := r.position_le
  have htail : ((List.range (r.byteCount - r.bytePosition)).map fun i =>
      r.byteAt (r.bytePosition + i)) = (r.prefixBytes ++ r.data).drop r.bytePosition := by
    apply ext_getElem!
    · simp [byteCount]
    intro i hi
    rw [List.length_map, List.length_range] at hi
    rw [getElem!_drop, ← byteAt_eq, getElem!_pos _ _ (by simpa)]
    simp
  simp only [bitsIn, htail, orderedBits_append _ _ data, orderedBits_drop]
  rw [bytePosition, List.drop_append_of_le_length, List.drop_drop]
  · congr 2
    omega
  · rw [List.length_drop, orderedBits_length, List.length_append]
    omega

theorem refill_unread (r : BitReader) (data : List UInt8) (h : r.unread.length ≤ 64) :
    ∃ r', r.refill data = .ok r' ∧ r'.unread = r.unread ++ orderedBits r.bitOrder data ∧
      r'.bitOrder = r.bitOrder := by
  obtain ⟨r', hr, ho, hb⟩ := r.refill_bitsIn data (r.unread_length ▸ h)
  exact ⟨r', hr, by rw [unread, ho, hb, unread], ho⟩

theorem refill_bits (r : BitReader) (data : List UInt8) (h : r.bits.length ≤ 64) :
    ∃ r', r.refill data = .ok r' ∧ r'.bits = r.bits ++ bitsOf data ∧
      r'.bitOrder = r.bitOrder := by
  obtain ⟨r', hr, ho, hb⟩ := r.refill_bitsIn data (r.bits_length ▸ h)
  exact ⟨r', hr, hb .leastSignificantFirst, ho⟩

/-- The loop collects the unread bits above the ones already in the result. -/
theorem readBitsLoop_eq (r : BitReader) (ho : r.bitOrder = .leastSignificantFirst)
    (hr : result < 2 ^ shift) (hn : position + n ≤ 8 * r.byteCount) :
    readBitsLoop r result shift position n = result + 2 ^ shift *
      bitsValue (((bitsOf (r.prefixBytes ++ r.data)).drop position).take n) := by
  induction n using Nat.strong_induction_on generalizing result shift position with
  | _ n ih =>
    rw [readBitsLoop]
    by_cases hz : n = 0
    · simp [hz]
    · simp only [if_pos hz, ho]
      generalize hcount : min n (8 - position % 8) = count
      have hc : count ≤ 8 := by omega
      have hindex : position / 8 < (r.prefixBytes ++ r.data).length := by
        rw [List.length_append]
        rw [byteCount] at hn
        omega
      have hmask : (UInt8.ofNat ((1 <<< count) - 1)).toNat = 2 ^ count - 1 := by
        have hpow : 2 ^ count ≤ 2 ^ 8 := Nat.pow_le_pow_right (by omega) hc
        rw [UInt8.toNat_ofNat', Nat.one_shiftLeft, Nat.mod_eq_of_lt (by omega)]
      have hfield : ((bitsOf (r.prefixBytes ++ r.data)).drop position).take count =
          natBits count ((r.byteAt (position / 8)).toNat >>> (position % 8)) := by
        apply List.ext_getElem?
        intro i
        rw [natBits_getElem?]
        split
        case isTrue hi =>
          rw [List.getElem?_take_of_lt hi, List.getElem?_drop, bitsOf_getElem?,
            show (position + i) / 8 = position / 8 by omega, List.getElem?_eq_getElem hindex,
            byteAt_eq, getElem!_pos (r.prefixBytes ++ r.data) _ hindex, Option.map_some, Nat.testBit_shiftRight]
          congr 2
          omega
        case isFalse hi =>
          rw [List.getElem?_eq_none (by rw [List.length_take]; omega)]
      have hvalue : bitsValue (((bitsOf (r.prefixBytes ++ r.data)).drop position).take count) =
          ((r.byteAt (position / 8)).toNat >>> (position % 8)) &&& (2 ^ count - 1) := by
        rw [hfield, bitsValue_natBits, Nat.and_two_pow_sub_one_eq_mod]
      have hvlt := bitsValue_lt (((bitsOf (r.prefixBytes ++ r.data)).drop position).take count)
      have hlen : (((bitsOf (r.prefixBytes ++ r.data)).drop position).take count).length =
          count := by
        rw [List.length_take, List.length_drop, bitsOf_length, List.length_append]
        rw [byteCount] at hn
        omega
      have hsplit : ((bitsOf (r.prefixBytes ++ r.data)).drop position).take n =
          ((bitsOf (r.prefixBytes ++ r.data)).drop position).take count ++
            ((bitsOf (r.prefixBytes ++ r.data)).drop (position + count)).take (n - count) := by
        conv_lhs => rw [show n = count + (n - count) by omega]
        rw [List.take_add, List.drop_drop]
      rw [hmask, ← hvalue, hsplit, bitsValue_append, hlen]
      rw [hlen] at hvlt
      generalize bitsValue (((bitsOf (r.prefixBytes ++ r.data)).drop position).take count) = v
        at *
      have hor : result ||| v <<< shift = result + 2 ^ shift * v := by
        rw [Nat.or_comm, ← Nat.shiftLeft_add_eq_or_of_lt hr, Nat.shiftLeft_eq, Nat.add_comm,
          Nat.mul_comm]
      have hres : result + 2 ^ shift * v < 2 ^ (shift + count) := by
        rw [Nat.pow_add]
        calc result + 2 ^ shift * v < 2 ^ shift * (v + 1) := by rw [Nat.mul_add]; omega
          _ ≤ 2 ^ shift * 2 ^ count := Nat.mul_le_mul_left _ hvlt
      rw [hor, ih (n - count) (by omega) hres (by omega), Nat.pow_add]
      ring

/-- The loop collects the unread bits below the ones already in the result. -/
theorem readBitsLoop_most (r : BitReader) (ho : r.bitOrder = .mostSignificantFirst)
    (result shift : Nat) (hn : position + n ≤ 8 * r.byteCount) :
    readBitsLoop r result shift position n = result * 2 ^ n + fieldValue .mostSignificantFirst
      (((orderedBits .mostSignificantFirst (r.prefixBytes ++ r.data)).drop position).take n) := by
  induction n using Nat.strong_induction_on generalizing result shift position with
  | _ n ih =>
    rw [readBitsLoop]
    by_cases hz : n = 0
    · simp [hz, fieldValue]
    · simp only [if_pos hz, ho]
      generalize hcount : min n (8 - position % 8) = count
      have hindex : position / 8 < (r.prefixBytes ++ r.data).length := by
        rw [List.length_append]
        rw [byteCount] at hn
        omega
      have hmask : (UInt8.ofNat ((1 <<< count) - 1)).toNat = 2 ^ count - 1 := by
        have hpow : 2 ^ count ≤ 2 ^ 8 := Nat.pow_le_pow_right (by omega) (by omega)
        rw [UInt8.toNat_ofNat', Nat.one_shiftLeft, Nat.mod_eq_of_lt (by omega)]
      have hfield := orderedBits_field .mostSignificantFirst (r.prefixBytes ++ r.data)
        hindex (show position % 8 + count ≤ 8 by omega)
      have hvalue := congrArg (fieldValue .mostSignificantFirst) hfield
      rw [fieldValue_fieldBits, byteShift, ← byteAt_eq] at hvalue
      have hsplit : ((orderedBits .mostSignificantFirst (r.prefixBytes ++ r.data)).drop
            position).take n =
          ((orderedBits .mostSignificantFirst (r.prefixBytes ++ r.data)).drop position).take count ++
            ((orderedBits .mostSignificantFirst (r.prefixBytes ++ r.data)).drop
              (position + count)).take (n - count) := by
        conv_lhs => rw [← Nat.add_sub_cancel' (show count ≤ n by omega)]
        rw [List.take_add, List.drop_drop]
      have hlen : (((orderedBits .mostSignificantFirst (r.prefixBytes ++ r.data)).drop
          (position + count)).take (n - count)).length = n - count := by
        rw [List.length_take, List.length_drop, orderedBits_length, List.length_append]
        rw [byteCount] at hn
        omega
      have hor (v : Nat) (hv : v < 2 ^ count) : (result <<< count) ||| v =
          result * 2 ^ count + v := by
        rw [← Nat.shiftLeft_add_eq_or_of_lt hv, Nat.shiftLeft_eq]
      rw [hmask, Nat.and_two_pow_sub_one_eq_mod, ← hvalue, hor _ (by
        rw [hvalue]
        exact Nat.mod_lt _ (Nat.two_pow_pos count)), ih (n - count) (by omega) _ _ (by omega),
        hsplit, fieldValue_append_most, hlen, Nat.add_mul, Nat.mul_assoc, ← Nat.pow_add,
        Nat.add_sub_cancel' (by omega), Nat.add_assoc]

/-- Reading an available field advances over its bits. -/
theorem readBits_advance (r : BitReader) (hn : n ≤ 64) (h : n ≤ r.bits.length) :
    (r.readBits n).2 = r.advance n := by
  rw [bits_length] at h
  rw [readBits, dif_pos ⟨hn, by simpa [canRead] using h⟩]
  simp only [advance, Nat.min_eq_left h]

/-- An available field is the number of its bits. -/
theorem readBits_unread (r : BitReader) (hn : n ≤ 64) (h : n ≤ r.unread.length) :
    r.readBits n = (fieldValue r.bitOrder (r.unread.take n), r.advance n) := by
  refine Prod.ext ?_ (r.readBits_advance hn (by rwa [bits_length, ← unread_length]))
  have hp := r.position_le
  rw [unread_length] at h
  have hr : r.remainingBitCount = (r.prefixBytes.length + r.data.length) * 8 - r.bitPosition := rfl
  rw [readBits, dif_pos ⟨hn, by simpa [canRead] using h⟩]
  cases ho : r.bitOrder with
  | mostSignificantFirst =>
    simp only [readBitsLoop_most r ho 0 0 (show r.bitPosition + n ≤ 8 * r.byteCount by
      rw [byteCount]; omega), Nat.zero_mul, Nat.zero_add, unread, bitsIn, ho]
  | leastSignificantFirst =>
    simp only [readBitsLoop_eq r ho (show 0 < 2 ^ 0 by simp)
      (show r.bitPosition + n ≤ 8 * r.byteCount by rw [byteCount]; omega), Nat.pow_zero,
      Nat.one_mul, Nat.zero_add, unread, bitsIn, ho, fieldValue, orderedBits_least]

theorem readBits_eq (r : BitReader) (ho : r.bitOrder = .leastSignificantFirst) (hn : n ≤ 64)
    (h : n ≤ r.bits.length) :
    r.readBits n = (bitsValue (r.bits.take n), r.advance n) := by
  have hu : r.unread = r.bits := by rw [unread, ho]; rfl
  rw [r.readBits_unread hn (hu ▸ h), hu, ho]
  rfl

/-- A field that is not available leaves the reader as it is. -/
theorem readBits_unavailable (r : BitReader) (h : ¬ (n ≤ 64 ∧ n ≤ r.unread.length)) :
    r.readBits n = (0, r) := by
  rw [unread_length] at h
  rw [readBits, dif_neg (by simpa [canRead] using h)]

theorem setBitPosition_advance (r : BitReader) (h : m ≤ r.bits.length) :
    (r.advance n).setBitPosition (r.bitPosition + m) = r.advance m := by
  have hp := r.position_le
  rw [bits_length] at h
  simp only [setBitPosition, advance, mk.injEq, true_and, bitCount, byteCount, remainingBitCount]
    at h ⊢
  omega

/-- Whether or not a field was read, the cursor can be set relative to its start. -/
theorem setBitPosition_readBits (r : BitReader) (n : Nat) (h : m ≤ r.bits.length) :
    (r.readBits n).2.setBitPosition (r.bitPosition + m) = r.advance m := by
  by_cases hc : n ≤ 64 ∧ n ≤ r.bits.length
  · rw [r.readBits_advance hc.1 hc.2, r.setBitPosition_advance h]
  · have hz : r.advance 0 = r := by simp [advance]
    rw [bits_length] at hc
    rw [readBits, dif_neg (by simpa [canRead] using hc)]
    conv_lhs => rw [show (0, r).2 = r.advance 0 from hz.symm]
    exact r.setBitPosition_advance h

/-- A byte field of an aligned reader is the next part of its unread bits. -/
theorem readBytesOrThrow_bitsIn (r : BitReader) (ha : 8 ∣ r.remainingBitCount)
    (h : n ≤ r.remainingBitCount / 8) :
    ∃ bytes r', r.readBytesOrThrow n = .ok (bytes, r') ∧ bytes.length = n ∧
      r'.bitOrder = r.bitOrder ∧
      ∀ order, r.bitsIn order = orderedBits order bytes ++ r'.bitsIn order := by
  have hp := r.position_le
  have hr : r.remainingBitCount = (r.prefixBytes.length + r.data.length) * 8 - r.bitPosition := rfl
  have halign : r.isByteAligned = true := by
    simp only [isByteAligned, decide_eq_true_eq]
    omega
  rw [readBytesOrThrow, dif_neg (by simp only [halign, Bool.true_eq_false, false_or]; omega)]
  have hbytes : (if r.prefixBytes.length ≤ r.bytePosition then
        (r.data.drop (r.bytePosition - r.prefixBytes.length)).take n
      else (r.prefixBytes.drop r.bytePosition).take
          (min n (r.prefixBytes.length - r.bytePosition)) ++
        r.data.take (n - min n (r.prefixBytes.length - r.bytePosition))) =
      ((r.prefixBytes ++ r.data).drop r.bytePosition).take n := by
    split
    case isTrue hb =>
      rw [List.drop_append, List.drop_eq_nil_of_le hb, List.nil_append]
    case isFalse hb =>
      rw [List.drop_append_of_le_length (by omega), List.take_append, List.length_drop]
      by_cases hm : n ≤ r.prefixBytes.length - r.bytePosition
      · rw [Nat.min_eq_left hm, Nat.sub_self, Nat.sub_eq_zero_of_le hm]
      · have hl : (r.prefixBytes.drop r.bytePosition).length =
            r.prefixBytes.length - r.bytePosition := List.length_drop
        have hn : (r.prefixBytes.drop r.bytePosition).take n =
            r.prefixBytes.drop r.bytePosition := List.take_of_length_le (by omega)
        rw [Nat.min_eq_right (by omega), List.take_of_length_le (Nat.le_of_eq hl), hn]
  refine ⟨_, _, rfl, ?_, rfl, fun order => ?_⟩
  · simp only [hbytes, List.length_take, List.length_drop, List.length_append]
    rw [bytePosition]
    omega
  · have hpos : r.bitPosition = 8 * r.bytePosition := by
      rw [bytePosition]
      omega
    simp only [hbytes, bitsIn]
    rw [hpos, orderedBits_take, orderedBits_drop, show 8 * r.bytePosition + n * 8 =
      8 * r.bytePosition + 8 * n by omega, ← List.drop_drop, List.take_append_drop]

theorem readBytesOrThrow_spec (r : BitReader) (ha : 8 ∣ r.bits.length)
    (h : n ≤ r.bits.length / 8) :
    ∃ bytes r', r.readBytesOrThrow n = .ok (bytes, r') ∧ bytes.length = n ∧
      r.bits = bitsOf bytes ++ r'.bits ∧ r'.bitOrder = r.bitOrder := by
  rw [bits_length] at h ha
  obtain ⟨bytes, r', hread, hl, ho, hb⟩ := r.readBytesOrThrow_bitsIn ha h
  exact ⟨bytes, r', hread, hl, hb .leastSignificantFirst, ho⟩

theorem readBytesOrThrow_length {r r' : BitReader} (h : r.readBytesOrThrow n = .ok (bytes, r')) :
    bytes.length = n := by
  by_cases hc : r.isByteAligned = false ∨ r.remainingBitCount / 8 < n
  · rw [readBytesOrThrow, dif_pos hc] at h
    cases h
  · have ha : 8 ∣ r.bits.length := by
      simp only [isByteAligned, decide_eq_false_iff_not, not_or, not_not] at hc
      have hp := r.position_le
      rw [bits_length, remainingBitCount, bitCount, byteCount]
      omega
    obtain ⟨bytes', r'', h', hl, _⟩ := r.readBytesOrThrow_spec (n := n) ha
      (by rw [bits_length]; omega)
    rw [h'] at h
    cases h
    exact hl

theorem readBytesOrThrow_bits_length {r r' : BitReader}
    (h : r.readBytesOrThrow n = .ok (bytes, r')) : r'.bits.length ≤ r.bits.length := by
  unfold readBytesOrThrow at h
  split at h
  case isTrue => cases h
  case isFalse =>
    cases h
    rw [bits_length, bits_length]
    simp only [remainingBitCount, bitCount, byteCount]
    omega

/-- Everything is consumed once less than a byte is left. -/
theorem consumedByteCount_eq (r : BitReader) (h : r.bits.length < 8) :
    r.consumedByteCount = r.byteCount := by
  have hp := r.position_le
  rw [bits_length, remainingBitCount, bitCount, byteCount] at h
  rw [consumedByteCount, byteCount]
  omega

end BitReader
end ErbslandCore.Mem
