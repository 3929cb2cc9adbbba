import ErbslandCore.Compression.CodecReader

namespace ErbslandCore.Compression
open Library Mem
set_option autoImplicit true

/-- A bit reader that is refilled from a chunked source. -/
structure CodecBitReader where
  reader : BitReader
  source : CodecReader

namespace CodecBitReader

def create (source : CodecReader) (order : BitOrder) : CodecBitReader :=
  { reader := { bitOrder := order }, source := source }

/-- The refill loop of `canRead`. -/
def refillLoop (input : CodecBitReader) (count : Nat) : Except CodecError CodecBitReader :=
  if input.reader.canRead count then .ok input
  else
    match _h : input.source.atEnd with
    | (true, source) => .ok { input with source := source }
    | (false, source) =>
      match fromMem (input.reader.refill source.take.1) with
      | .error e => .error e
      | .ok reader => refillLoop { reader := reader, source := source.take.2 } count
termination_by input.source.unread.length
decreasing_by
  obtain ⟨hn, hu⟩ := CodecReader.unread_of_not_atEnd _h
  rw [← hu] at hn ⊢
  exact CodecReader.take_progress hn

/-- Buffer a field, retaining partial bytes across input chunks. -/
def canRead (input : CodecBitReader) (count : Nat) : Except CodecError (Bool × CodecBitReader) :=
  if 64 < count then .ok (false, input)
  else do
    let input ← input.refillLoop count
    return (input.reader.canRead count, input)

/-- Buffer bits for a bounded Huffman lookahead. -/
def buffered (input : CodecBitReader) (count : Nat) : Except CodecError CodecBitReader := do
  let (_, input) ← input.canRead count
  return input

def readBits (input : CodecBitReader) (count : Nat) : Except CodecError (Nat × CodecBitReader) := do
  let (available, input) ← input.canRead count
  if available then
    let (value, reader) := input.reader.readBits count
    return (value, { input with reader := reader })
  else throwMalformed "Truncated codec bit field."

def readByte (input : CodecBitReader) : Except CodecError (UInt8 × CodecBitReader) := do
  let (value, input) ← input.readBits 8
  return (UInt8.ofNat value, input)

/-- Read a nonempty bounded portion of an aligned payload. -/
def readBytes (input : CodecBitReader) (maximum : Nat) :
    Except CodecError (List UInt8 × CodecBitReader) :=
  if maximum = 0 then .ok ([], input)
  else do
    let (available, input) ← input.canRead 8
    if available then
      let (bytes, reader) ← fromMem (input.reader.readBytesOrThrow
        (min maximum (input.reader.remainingBitCount / 8)))
      return (bytes, { input with reader := reader })
    else throwMalformed "Truncated codec byte field."

/-- Check a byte field; larger streamed fields are validated as they are read. -/
def canReadBytes (input : CodecBitReader) (count : Nat) :
    Except CodecError (Bool × CodecBitReader) :=
  if count ≤ 8 then input.canRead (count * 8) else .ok (true, input)

def alignToByte (input : CodecBitReader) : CodecBitReader :=
  { input with reader := input.reader.alignToByte }

def requireEnd (input : CodecBitReader) : Except CodecError CodecBitReader :=
  if input.reader.consumedByteCount ≠ input.reader.byteCount then
    throwMalformed "Trailing codec bytes."
  else do
    let source ← input.source.requireEnd
    return { input with source := source }

/-- The unread bits of the buffer and of the source in the given order. -/
def bitsIn (input : CodecBitReader) (order : BitOrder) : List Bool :=
  input.reader.bitsIn order ++ orderedBits order input.source.unread

/-- The unread bits in the order of the reader. -/
def unread (input : CodecBitReader) : List Bool := input.bitsIn input.reader.bitOrder

/-- The unread bits of the buffer and of the source. -/
def bits (input : CodecBitReader) : List Bool :=
  input.reader.bits ++ bitsOf input.source.unread

/-- The reader buffered what it can for a field of `count` bits. -/
def Buffered (input : CodecBitReader) (count : Nat) : Prop :=
  input.reader.bits.length < count → input.source.unread = []

theorem bitsIn_length (input : CodecBitReader) (order : BitOrder) :
    (input.bitsIn order).length = input.reader.remainingBitCount + 8 * input.source.unread.length := by
  rw [bitsIn, List.length_append, BitReader.bitsIn_length, orderedBits_length]

theorem bits_length (input : CodecBitReader) :
    input.bits.length = input.reader.remainingBitCount + 8 * input.source.unread.length :=
  input.bitsIn_length .leastSignificantFirst

theorem Buffered.le (h : Buffered input count) (hc : count ≤ input.bits.length) :
    count ≤ input.reader.bits.length := by
  by_contra hlt
  have hu := h (by omega)
  rw [bits, List.length_append, hu, bitsOf_nil, List.length_nil] at hc
  omega

/-- The refill loop neither loses nor duplicates a bit. -/
theorem refillLoop_bitsIn (input : CodecBitReader) (hc : count ≤ 64) :
    ∃ input', input.refillLoop count = .ok input' ∧
      input'.reader.bitOrder = input.reader.bitOrder ∧ input'.Buffered count ∧
      ∀ order, input'.bitsIn order = input.bitsIn order := by
  induction hn : input.source.unread.length using Nat.strong_induction_on generalizing input with
  | _ n ih =>
    rw [refillLoop]
    by_cases hr : input.reader.canRead count
    · rw [if_pos hr]
      refine ⟨input, rfl, rfl, fun hlt => ?_, fun _ => rfl⟩
      simp only [BitReader.canRead, ← BitReader.bits_length, decide_eq_true_eq] at hr
      omega
    · rw [if_neg hr]
      simp only [BitReader.canRead, decide_eq_true_eq] at hr
      split
      case h_1 source h =>
        obtain ⟨h₁, h₂⟩ := CodecReader.unread_of_atEnd h
        exact ⟨_, rfl, rfl, fun _ => h₂, fun _ => by simp only [bitsIn, h₁, h₂]⟩
      case h_2 source h =>
        obtain ⟨hne, hu⟩ := CodecReader.unread_of_not_atEnd h
        obtain ⟨reader, hre, hro, hrb⟩ :=
          input.reader.refill_bitsIn source.take.1 (by omega)
        have hp := CodecReader.take_progress (r := source) (hu ▸ hne)
        simp only [hre, fromMem]
        obtain ⟨input', hi, ho, hbuf, hb⟩ := ih _ (by rw [← hn, ← hu]; exact hp)
          { reader := reader, source := source.take.2 } rfl
        refine ⟨input', hi, ho.trans hro, hbuf, fun order => ?_⟩
        rw [hb, bitsIn, bitsIn, hrb, List.append_assoc, ← orderedBits_append, source.take_unread,
          hu]

/-- `canRead` tells whether the whole input still has a field of the given size. -/
theorem canRead_bitsIn (input : CodecBitReader) (count : Nat) (hc : count ≤ 64) :
    ∃ input', input.canRead count = .ok (decide (count ≤ input.bits.length), input') ∧
      input'.reader.bitOrder = input.reader.bitOrder ∧ input'.Buffered count ∧
      ∀ order, input'.bitsIn order = input.bitsIn order := by
  obtain ⟨input', h, ho, hbuf, hb⟩ := input.refillLoop_bitsIn hc
  refine ⟨input', ?_, ho, hbuf, hb⟩
  have hbits : input'.bits = input.bits := hb .leastSignificantFirst
  rw [canRead, if_neg (by omega), h]
  simp only [bind, Except.bind, pure, Except.pure, Except.ok.injEq, Prod.mk.injEq, and_true,
    BitReader.canRead, ← BitReader.bits_length, decide_eq_decide]
  rw [← hbits]
  refine ⟨fun hle => ?_, hbuf.le⟩
  rw [bits, List.length_append]
  omega

theorem canRead_spec (input : CodecBitReader) (count : Nat) (hc : count ≤ 64) :
    ∃ input', input.canRead count = .ok (decide (count ≤ input.bits.length), input') ∧
      input'.bits = input.bits ∧ input'.reader.bitOrder = input.reader.bitOrder ∧
        input'.Buffered count := by
  obtain ⟨input', h, ho, hbuf, hb⟩ := input.canRead_bitsIn count hc
  exact ⟨input', h, hb .leastSignificantFirst, ho, hbuf⟩

/-- The unread bits of a reader in Deflate's bit order. -/
structure Unread (input : CodecBitReader) (bits : List Bool) : Prop where
  order : input.reader.bitOrder = .leastSignificantFirst
  bits_eq : input.bits = bits

/-- Reading a field takes its value off the unread bits. -/
theorem Unread.readBits {input : CodecBitReader} (h : input.Unread (field ++ rest))
    (hn : field.length = n) (h64 : n ≤ 64) :
    ∃ input', input.readBits n = .ok (bitsValue field, input') ∧ input'.Unread rest := by
  obtain ⟨input', hr, hb, ho, hbuf⟩ := input.canRead_spec n h64
  have hlen : n ≤ input.bits.length := by
    rw [h.bits_eq, List.length_append]
    omega
  have hle := hbuf.le (hb ▸ hlen)
  have hsplit := hb.trans h.bits_eq
  rw [bits] at hsplit
  have hfield : input'.reader.bits.take n = field := by
    have := congrArg (List.take n) hsplit
    rwa [List.take_append_of_le_length hle, List.take_left' hn] at this
  have hrest : input'.reader.bits.drop n ++ bitsOf input'.source.unread = rest := by
    have := congrArg (List.drop n) hsplit
    rwa [List.drop_append_of_le_length hle, List.drop_left' hn] at this
  rw [CodecBitReader.readBits, hr]
  simp only [bind, Except.bind, hlen, decide_true, ↓reduceIte,
    BitReader.readBits_eq _ (ho.trans h.order) h64 hle, hfield, pure, Except.pure]
  refine ⟨_, rfl, ho.trans h.order, ?_⟩
  rw [bits, BitReader.advance_bits, hrest]

theorem Unread.readByte {input : CodecBitReader} {b : UInt8}
    (h : input.Unread (natBits 8 b.toNat ++ rest)) :
    ∃ input', input.readByte = .ok (b, input') ∧ input'.Unread rest := by
  obtain ⟨input', hr, hu⟩ := h.readBits (natBits_length _ _) (by omega)
  refine ⟨input', ?_, hu⟩
  rw [CodecBitReader.readByte, hr, bitsValue_natBits_of_lt b.toNat_lt]
  simp only [bind, Except.bind, pure, Except.pure, UInt8.ofNat_toNat]

/-- Every successful read shortens the input by its width. -/
theorem readBits_progress {input input' : CodecBitReader}
    (h : input.readBits n = .ok (value, input')) (hn : n ≤ 64) :
    input'.bits.length + n = input.bits.length := by
  obtain ⟨next, hr, hb, _, hbuf⟩ := input.canRead_spec n hn
  rw [readBits, hr] at h
  simp only [bind, Except.bind] at h
  split at h
  case isFalse => cases h
  case isTrue hle =>
    rw [decide_eq_true_eq, ← hb] at hle
    have hle' := hbuf.le hle
    simp only [pure, Except.pure, Except.ok.injEq, Prod.mk.injEq] at h
    obtain ⟨_, rfl⟩ := h
    rw [← hb]
    simp only [bits, BitReader.readBits_advance _ hn hle', BitReader.advance_bits,
      List.length_append, List.length_drop]
    omega

/-- Alignment drops the bits up to the next byte boundary of the input. -/
theorem Unread.alignToByte {input : CodecBitReader} (h : input.Unread (padding ++ rest))
    (hp : padding.length < 8) (hr : 8 ∣ rest.length) : input.alignToByte.Unread rest := by
  have hl := congrArg List.length h.bits_eq
  have hmod : input.reader.bits.length % 8 = padding.length := by
    rw [bits, List.length_append, List.length_append, bitsOf_length] at hl
    omega
  have hle : padding.length ≤ input.reader.bits.length := by omega
  refine ⟨h.order, ?_⟩
  have hsplit := congrArg (List.drop padding.length) h.bits_eq
  rw [bits, List.drop_append_of_le_length hle, List.drop_left' rfl] at hsplit
  simp only [bits, CodecBitReader.alignToByte, BitReader.alignToByte_bits, hmod, hsplit]

theorem Unread.canReadBytes {input : CodecBitReader} (h : input.Unread rest) (count : Nat)
    (hb : 8 * count ≤ rest.length) :
    ∃ input', input.canReadBytes count = .ok (true, input') ∧ input'.Unread rest := by
  rw [CodecBitReader.canReadBytes]
  split
  case isTrue hc =>
    obtain ⟨input', hr, hb', ho, _⟩ := input.canRead_spec (count * 8) (by omega)
    refine ⟨input', ?_, ho.trans h.order, hb'.trans h.bits_eq⟩
    rw [hr, h.bits_eq, decide_eq_true (by omega)]
  case isFalse hc => exact ⟨input, rfl, h⟩

/-- An aligned read returns a nonempty part of the requested bytes. -/
theorem Unread.readBytes {input : CodecBitReader} {bytes : List UInt8}
    (h : input.Unread (bitsOf bytes ++ rest)) (hr : 8 ∣ rest.length) (hb : bytes ≠ []) :
    ∃ n input', input.readBytes bytes.length = .ok (bytes.take n, input') ∧ 0 < n ∧
      n ≤ bytes.length ∧ input'.Unread (bitsOf (bytes.drop n) ++ rest) := by
  have hpos := List.length_pos_iff.mpr hb
  obtain ⟨next, hc, hnb, hno, hbuf⟩ := input.canRead_spec 8 (by omega)
  have hsplit := hnb.trans h.bits_eq
  have hlen : 8 ≤ input.bits.length := by
    rw [h.bits_eq, List.length_append, bitsOf_length]
    omega
  have hle := hbuf.le (hnb ▸ hlen)
  have hal : 8 ∣ next.reader.bits.length := by
    have hl := congrArg List.length hsplit
    rw [bits, List.length_append, List.length_append, bitsOf_length, bitsOf_length] at hl
    omega
  obtain ⟨part, reader, hread, hpl, hpb, hpo⟩ := next.reader.readBytesOrThrow_spec
    (n := min bytes.length (next.reader.remainingBitCount / 8)) hal
    (by rw [BitReader.bits_length]; exact Nat.min_le_right _ _)
  rw [BitReader.bits_length] at hle
  rw [CodecBitReader.readBytes, if_neg (by omega), hc]
  simp only [bind, Except.bind, hlen, decide_true, ↓reduceIte, hread, fromMem, pure, Except.pure]
  rw [bits, hpb, List.append_assoc] at hsplit
  have htake : bytes.take part.length = part := by
    have ht := congrArg (List.take (8 * part.length)) hsplit
    rw [List.take_left' (bitsOf_length part), List.take_append_of_le_length
      (by rw [bitsOf_length]; omega), ← bitsOf_take] at ht
    exact (bitsOf_injective ht).symm
  have hdrop : reader.bits ++ bitsOf next.source.unread =
      bitsOf (bytes.drop part.length) ++ rest := by
    have ht := congrArg (List.drop (8 * part.length)) hsplit
    rwa [List.drop_left' (bitsOf_length part), List.drop_append_of_le_length
      (by rw [bitsOf_length]; omega), ← bitsOf_drop] at ht
  refine ⟨part.length, _, by rw [htake], by omega, by omega, ?_, ?_⟩
  · exact hpo.trans (hno.trans h.order)
  · exact hdrop

/-- Every aligned read returns at least one byte. -/
theorem readBytes_progress {input input' : CodecBitReader} (hm : 0 < maximum)
    (h : input.readBytes maximum = .ok (bytes, input')) :
    0 < bytes.length ∧ bytes.length ≤ maximum := by
  rw [readBytes, if_neg (by omega)] at h
  obtain ⟨⟨available, next⟩, hc, h⟩ := bind_eq_ok h
  simp only at h
  split at h
  case isFalse => cases h
  case isTrue ha =>
    obtain ⟨⟨part, reader⟩, hr, h⟩ := bind_eq_ok h
    cases h
    have hle : 8 ≤ next.reader.remainingBitCount := by
      rw [canRead, if_neg (by omega)] at hc
      obtain ⟨_, _, hc⟩ := bind_eq_ok hc
      cases hc
      simpa [BitReader.canRead] using ha
    have hl := BitReader.readBytesOrThrow_length (fromMem_eq_ok hr)
    rw [hl]
    exact ⟨Nat.lt_min.mpr ⟨hm, by omega⟩, Nat.min_le_left _ _⟩

/-- The end is reached with less than one byte of padding left. -/
theorem Unread.requireEnd {input : CodecBitReader} (h : input.Unread padding)
    (hb : padding.length < 8) :
    ∃ source, input.requireEnd = .ok { input with source := source } ∧ source.unread = [] := by
  have hl := congrArg List.length h.bits_eq
  rw [CodecBitReader.bits, List.length_append, bitsOf_length] at hl
  have hs : input.source.unread = [] := List.length_eq_zero_iff.mp (by omega)
  have hr : input.reader.consumedByteCount = input.reader.byteCount :=
    input.reader.consumedByteCount_eq (by omega)
  rw [CodecBitReader.requireEnd, if_neg (by simp [hr]), CodecReader.requireEnd]
  split
  case h_1 source h' => exact ⟨source, rfl, (CodecReader.unread_of_atEnd h').2⟩
  case h_2 source h' => exact absurd hs (CodecReader.unread_of_not_atEnd h').1

end CodecBitReader
end ErbslandCore.Compression
