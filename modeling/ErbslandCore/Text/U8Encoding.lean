import ErbslandCore.Mem.ByteReader
import ErbslandCore.Text.Utf8

namespace ErbslandCore.Text.Utf8
open Library Mem
set_option autoImplicit true

/-- An error of a strict decoder, with the position that it is about. -/
inductive U8EncodingError where
  | outOfRange (message : String)
  | encoding (message : String) (position : Nat)
  deriving DecidableEq

/-- The bits of a continuation byte, after those read before. The buffer starts at a position. -/
def decodeContOrThrow (buffer : List UInt8) (position index unicodeValue : Nat) :
    Except U8EncodingError Nat :=
  match buffer[index]? with
  | none => .error (.encoding "Unexpected end of the data" (position + buffer.length))
  | some decodedByte =>
    if decodedByte &&& 0b11000000 ≠ 0b10000000 then
      .error (.encoding "Unexpected continuation byte" (position + index))
    else .ok (unicodeValue <<< 6 ||| (decodedByte &&& 0b00111111).toNat)

/-- The value and the size of a sequence, with a reader for the continuation byte at an index. -/
def decodeSequenceOrThrow (decodeCont : Nat → Nat → Except U8EncodingError Nat) (position : Nat)
    (decodedByte : UInt8) : Except U8EncodingError (Nat × Nat) :=
  if decodedByte &&& 0b11100000 = 0b11000000 ∧ decodedByte ≥ 0b11000010 then do
    let unicodeValue ← decodeCont 1 (decodedByte &&& 0b00011111).toNat
    return (unicodeValue, 2)
  else if decodedByte &&& 0b11110000 = 0b11100000 then do
    let unicodeValue ← decodeCont 1 (decodedByte &&& 0b00001111).toNat
    let unicodeValue ← decodeCont 2 unicodeValue
    if unicodeValue < 0x800 then .error (.encoding "Overlong encoding" position)
    else return (unicodeValue, 3)
  else if decodedByte &&& 0b11111000 = 0b11110000 ∧ decodedByte < 0b11110101 then do
    let unicodeValue ← decodeCont 1 (decodedByte &&& 0b00000111).toNat
    let unicodeValue ← decodeCont 2 unicodeValue
    let unicodeValue ← decodeCont 3 unicodeValue
    if unicodeValue < 0x10000 then .error (.encoding "Overlong encoding" position)
    else return (unicodeValue, 4)
  else .error (.encoding "Invalid or out-of-range start byte sequence" position)

/-- The next code point and the position after it. -/
def decodeCharOrThrow (buffer : List UInt8) (position : Nat) : Except U8EncodingError (Nat × Nat) :=
  match buffer with
  | [] => .error (.outOfRange "Read position out of range")
  | decodedByte :: _ =>
    if decodedByte < 0x80 then .ok (decodedByte.toNat, position + 1)
    else do
      let (unicodeValue, size) ←
        decodeSequenceOrThrow (decodeContOrThrow buffer position) position decodedByte
      if isValidUnicode unicodeValue then return (unicodeValue, position + size)
      else .error (.encoding "Invalid Unicode character" position)

/-- The next code point or its replacement, and the number of bytes to advance. -/
def decodeCharOrReplace : List UInt8 → Nat × Nat
  | [] => (0, 0)
  | decodedByte :: buffer =>
    if decodedByte < 0x80 then (decodedByte.toNat, 1)
    else match startOfSequence decodedByte with
      | none => (replacement, 1)
      | some (sequenceSize, bits) => match decodeCont (sequenceSize - 1) bits buffer with
        | none => (replacement, 1)
        | some unicodeValue =>
          if sequenceSize = 3 ∧ unicodeValue < 0x800 ∨
            sequenceSize = 4 ∧ unicodeValue < 0x10000 then (replacement, 1)
          else (if isValidUnicode unicodeValue then unicodeValue else replacement, sequenceSize)

/-- The number of bytes to advance, without decoding. -/
def fastAdvanceChar : List UInt8 → Nat
  | [] => 0
  | decodedByte :: buffer =>
    let isContinuationByte (delta : Nat) : Bool :=
      (buffer[delta - 1]?.map fun byte => decide (byte &&& 0b11000000 = 0b10000000)).getD false
    let byteAt (delta : Nat) : UInt8 := buffer[delta - 1]?.getD 0
    if decodedByte < 0x80 ∨ decodedByte &&& 0b11111000 = 0b11111000 then 1
    else if decodedByte &&& 0b11100000 = 0b11000000 then
      if decodedByte ≥ 0b11000010 ∧ isContinuationByte 1 then 2 else 1
    else if decodedByte &&& 0b11110000 = 0b11100000 then
      if isContinuationByte 1 ∧ isContinuationByte 2 ∧ (decodedByte ≠ 0xE0 ∨ byteAt 1 ≥ 0xA0) then 3
      else 1
    else if decodedByte &&& 0b11111000 = 0b11110000 then
      if decodedByte < 0b11110101 ∧ isContinuationByte 1 ∧ isContinuationByte 2 ∧
        isContinuationByte 3 ∧ (decodedByte ≠ 0xF0 ∨ byteAt 1 ≥ 0x90) then 4
      else 1
    else 1

namespace Reader

def decodeContOrThrow (reader : ByteReader) (offset unicodeValue : Nat) :
    Except U8EncodingError Nat :=
  if ¬ reader.canRead (offset + 1) then
    .error (.encoding "Unexpected end of the data" reader.length)
  else
    let decodedByte := reader.peekByteAt offset
    if decodedByte &&& 0b11000000 ≠ 0b10000000 then
      .error (.encoding "Unexpected continuation byte" (reader.position + offset))
    else .ok (unicodeValue <<< 6 ||| (decodedByte &&& 0b00111111).toNat)

def decodeCharOrThrow (reader : ByteReader) : Except U8EncodingError (Nat × ByteReader) :=
  if ¬ reader.canRead 1 then .error (.outOfRange "Read position out of range")
  else
    let decodedByte := reader.peekByte
    if decodedByte < 0x80 then .ok (decodedByte.toNat, reader.advance 1)
    else do
      let (unicodeValue, sequenceSize) ←
        decodeSequenceOrThrow (decodeContOrThrow reader) reader.position decodedByte
      if isValidUnicode unicodeValue then return (unicodeValue, reader.advance sequenceSize)
      else .error (.encoding "Invalid Unicode character" reader.position)

/-- The bits of `count` continuation bytes from an offset on. -/
def decodeCont (reader : ByteReader) : Nat → Nat → Nat → Option Nat
  | 0, _, unicodeValue => some unicodeValue
  | count + 1, i, unicodeValue =>
    if ¬ reader.canRead (i + 1) then none
    else
      let continuationByte := reader.peekByteAt i
      if continuationByte &&& 0b11000000 ≠ 0b10000000 then none
      else decodeCont reader count (i + 1)
        (unicodeValue <<< 6 ||| (continuationByte &&& 0b00111111).toNat)

def decodeCharOrReplace (reader : ByteReader) : Nat × ByteReader :=
  if ¬ reader.canRead 1 then (0, reader)
  else
    let decodedByte := reader.peekByte
    if decodedByte < 0x80 then (decodedByte.toNat, reader.advance 1)
    else match startOfSequence decodedByte with
      | none => (replacement, reader.advance 1)
      | some (sequenceSize, bits) => match decodeCont reader (sequenceSize - 1) 1 bits with
        | none => (replacement, reader.advance 1)
        | some unicodeValue =>
          if sequenceSize = 3 ∧ unicodeValue < 0x800 ∨
            sequenceSize = 4 ∧ unicodeValue < 0x10000 then (replacement, reader.advance 1)
          else if ¬ isValidUnicode unicodeValue then (replacement, reader.advance sequenceSize)
          else (unicodeValue, reader.advance sequenceSize)

def tryDecodeChar (reader : ByteReader) : Option Nat × ByteReader :=
  if ¬ reader.canRead 1 then (none, reader)
  else
    let decodedByte := reader.peekByte
    if decodedByte < 0x80 then (some decodedByte.toNat, reader.advance 1)
    else match startOfSequence decodedByte with
      | none => (none, reader.advance 1)
      | some (sequenceSize, bits) => match decodeCont reader (sequenceSize - 1) 1 bits with
        | none => (none, reader.advance 1)
        | some unicodeValue =>
          if sequenceSize = 3 ∧ unicodeValue < 0x800 ∨
            sequenceSize = 4 ∧ unicodeValue < 0x10000 then (none, reader.advance 1)
          else if ¬ isValidUnicode unicodeValue then (none, reader.advance sequenceSize)
          else (some unicodeValue, reader.advance sequenceSize)

end Reader

/-- The bytes that the writer adds for a character; an invalid one is ignored. -/
def writeChar (codePoint : Nat) : List UInt8 :=
  if ¬ isValidUnicode codePoint then []
  else if codePoint < 0x80 then [UInt8.ofNat codePoint]
  else if codePoint < 0x800 then
    [UInt8.ofNat (0xC0 ||| codePoint >>> 6 &&& 0x1F), UInt8.ofNat (0x80 ||| codePoint &&& 0x3F)]
  else if codePoint < 0x10000 then
    [UInt8.ofNat (0xE0 ||| codePoint >>> 12 &&& 0x0F),
      UInt8.ofNat (0x80 ||| codePoint >>> 6 &&& 0x3F), UInt8.ofNat (0x80 ||| codePoint &&& 0x3F)]
  else
    [UInt8.ofNat (0xF0 ||| codePoint >>> 18 &&& 0x07),
      UInt8.ofNat (0x80 ||| codePoint >>> 12 &&& 0x3F),
      UInt8.ofNat (0x80 ||| codePoint >>> 6 &&& 0x3F), UInt8.ofNat (0x80 ||| codePoint &&& 0x3F)]

/-- Decode all characters of a buffer; `skip` bytes belong to the step before. -/
def forEachOrThrow : Nat → Nat → List UInt8 → Except U8EncodingError (List Nat)
  | _, _, [] => .ok []
  | skip + 1, position, _ :: data => forEachOrThrow skip (position + 1) data
  | 0, position, byte :: data => do
    let (character, next) ← decodeCharOrThrow (byte :: data) position
    let characters ← forEachOrThrow (next - position - 1) (position + 1) data
    return character :: characters

/-- Decode all characters of a reader; every character takes at least one byte. -/
def Reader.forEachOrThrow : Nat → ByteReader → Except U8EncodingError (List Nat)
  | 0, _ => .ok []
  | fuel + 1, reader =>
    if reader.isAtEnd then .ok []
    else do
      let (character, reader) ← Reader.decodeCharOrThrow reader
      let characters ← forEachOrThrow fuel reader
      return character :: characters

theorem decodeContOrThrow_toOption (buffer : List UInt8) (position index v : Nat) :
    (decodeContOrThrow buffer position index v).toOption = decodeCont 1 v (buffer.drop index) := by
  rw [decodeContOrThrow, ← List.head?_drop]
  cases buffer.drop index with
  | nil => rfl
  | cons b t =>
    rw [decodeCont]
    simp only [List.head?_cons, ne_eq, ite_not]
    split
    · rfl
    · rfl

theorem decodeCont_succ (count v : Nat) (t : List UInt8) :
    decodeCont (count + 1) v t = (decodeCont 1 v t).bind fun w => decodeCont count w (t.drop 1) := by
  cases t with
  | nil => rfl
  | cons b t =>
    rw [decodeCont, decodeCont]
    split
    · rfl
    · rfl

/-- The strict decoder moves like the one that reports errors, and fails exactly where it does. -/
theorem decodeCharOrThrow_toOption (buffer : List UInt8) (position : Nat) :
    (decodeCharOrThrow buffer position).toOption = (tryDecodeChar buffer).1.map fun c =>
      (c, position + (tryDecodeChar buffer).2) := by
  have valid (size v : Nat) :
      (if isValidUnicode v = true then pure (v, position + size)
        else .error (.encoding "Invalid Unicode character" position) :
          Except U8EncodingError (Nat × Nat)).toOption =
      (if isValidUnicode v = true then (some v, size) else (none, size)).1.map fun c =>
        (c, position + (if isValidUnicode v = true then (some v, size) else (none, size)).2) := by
    split
    · rfl
    · rfl
  cases buffer with
  | nil => rfl
  | cons b t =>
    rw [decodeCharOrThrow, tryDecodeChar]
    split
    case isTrue => rfl
    case isFalse =>
    rw [toOption_bind]
    simp only [decodeSequenceOrThrow, startOfSequence]
    split_ifs with h₂ h₃ h₄
    · simp only [toOption_bind, decodeContOrThrow_toOption, List.drop_succ_cons, List.drop_zero,
        Nat.add_one_sub_one]
      cases decodeCont 1 (b &&& 0b00011111).toNat t with
      | none => rfl
      | some v => exact valid 2 v
    · simp only [toOption_bind, decodeContOrThrow_toOption, List.drop_succ_cons, List.drop_zero,
        Nat.reduceSub]
      rw [decodeCont_succ 1]
      cases decodeCont 1 (b &&& 0b00001111).toNat t with
      | none => rfl
      | some v =>
        simp only [Option.bind_some]
        cases decodeCont 1 v (t.drop 1) with
        | none => rfl
        | some w =>
          by_cases hw : w < 0x800
          · simp only [Option.bind_some, hw, and_self, true_or, if_true]
            rfl
          · simp only [Option.bind_some, hw, and_false, Nat.reduceEqDiff, false_and, or_self, if_false]
            exact valid 3 w
    · simp only [toOption_bind, decodeContOrThrow_toOption, List.drop_succ_cons, List.drop_zero,
        Nat.reduceSub]
      rw [decodeCont_succ 2]
      cases decodeCont 1 (b &&& 0b00000111).toNat t with
      | none => rfl
      | some v =>
        simp only [Option.bind_some]
        rw [decodeCont_succ 1, List.drop_drop]
        cases decodeCont 1 v (t.drop 1) with
        | none => rfl
        | some w =>
          simp only [Option.bind_some]
          cases decodeCont 1 w (t.drop 2) with
          | none => rfl
          | some x =>
            by_cases hx : x < 0x10000
            · simp only [Option.bind_some, hx, and_self, or_true, if_true]
              rfl
            · simp only [Option.bind_some, hx, and_false, Nat.reduceEqDiff, false_and, or_self,
                if_false]
              exact valid 4 x
    · rfl

theorem decodeCharOrReplace_eq (buffer : List UInt8) (h : buffer ≠ []) :
    decodeCharOrReplace buffer = ((tryDecodeChar buffer).1.getD replacement, (tryDecodeChar buffer).2) := by
  cases buffer with
  | nil => exact absurd rfl h
  | cons b t =>
    rw [decodeCharOrReplace, tryDecodeChar]
    split
    case isTrue => rfl
    case isFalse =>
    cases startOfSequence b with
    | none => rfl
    | some start =>
      simp only
      cases decodeCont (start.1 - 1) start.2 t with
      | none => rfl
      | some v =>
        simp only
        split
        · rfl
        · split <;> rfl

/-- The masks of the first byte that only the fast variant and the ranges below have, as ranges. -/
theorem firstByte_ranges (b : UInt8) :
    (b &&& 0b11111000 = 0b11111000 ↔ 0xF8 ≤ b.toNat) ∧
    (b &&& 0b11100000 = 0b11000000 ↔ 0xC0 ≤ b.toNat ∧ b.toNat < 0xE0) ∧
    (b &&& 0b11110000 = 0b11100000 ↔ 0xE0 ≤ b.toNat ∧ b.toNat < 0xF0) ∧
    (b &&& 0b11111000 = 0b11110000 ↔ 0xF0 ≤ b.toNat ∧ b.toNat < 0xF8) := by
  have all : ∀ n < 256,
      (UInt8.ofNat n &&& 0b11111000 = 0b11111000 ↔ 0xF8 ≤ n) ∧
      (UInt8.ofNat n &&& 0b11100000 = 0b11000000 ↔ 0xC0 ≤ n ∧ n < 0xE0) ∧
      (UInt8.ofNat n &&& 0b11110000 = 0b11100000 ↔ 0xE0 ≤ n ∧ n < 0xF0) ∧
      (UInt8.ofNat n &&& 0b11111000 = 0b11110000 ↔ 0xF0 ≤ n ∧ n < 0xF8) := by decide +kernel
  have hb := all b.toNat b.toNat_lt
  rwa [UInt8.ofNat_toNat] at hb

theorem tryDecodeChar_advance (h : 0x80 ≤ b.toNat) (hs : startOfSequence b = some (size, bits))
    (t : List UInt8) :
    (tryDecodeChar (b :: t)).2 = match decodeCont (size - 1) bits t with
      | none => 1
      | some v => if size = 3 ∧ v < 0x800 ∨ size = 4 ∧ v < 0x10000 then 1 else size := by
  rw [tryDecodeChar_sequence h, hs]
  simp only
  cases decodeCont (size - 1) bits t with
  | none => rfl
  | some v =>
    simp only
    split
    · rfl
    · split <;> rfl

theorem ge_iff (a : UInt8) (n : Nat) (hn : n < 256) : a ≥ UInt8.ofNat n ↔ n ≤ a.toNat := by
  rw [ge_iff_le, UInt8.le_iff_toNat_le, UInt8.toNat_ofNat_of_lt' hn]

/-- The comparisons of the first byte, as those of its value. -/
theorem firstByte_comparisons (b : UInt8) :
    (b < 0x80 ↔ b.toNat < 0x80) ∧ (b < 0b11110101 ↔ b.toNat < 0xF5) ∧
    (b ≥ 0b11000010 ↔ 0xC2 ≤ b.toNat) ∧ (b = 0xE0 ↔ b.toNat = 0xE0) ∧
    (b = 0xF0 ↔ b.toNat = 0xF0) := by
  have hlt (n : Nat) (hn : n < 256) : b < UInt8.ofNat n ↔ b.toNat < n := by
    rw [UInt8.lt_iff_toNat_lt, UInt8.toNat_ofNat_of_lt' hn]
  have hne (n : Nat) (hn : n < 256) : b = UInt8.ofNat n ↔ b.toNat = n := by
    rw [← UInt8.toNat_inj, UInt8.toNat_ofNat_of_lt' hn]
  exact ⟨hlt 0x80 (by decide), hlt 0xF5 (by decide), ge_iff b 0xC2 (by decide),
    hne 0xE0 (by decide), hne 0xF0 (by decide)⟩

theorem fastAdvanceChar_eq (buffer : List UInt8) :
    fastAdvanceChar buffer = (tryDecodeChar buffer).2 := by
  cases buffer with
  | nil => rfl
  | cons b t =>
    obtain ⟨h₅, h₂, h₃, h₄⟩ := firstByte_ranges b
    obtain ⟨h80, hF5, hC2, hE0, hF0⟩ := firstByte_comparisons b
    simp only [fastAdvanceChar, h80, h₅, h₂, hC2, h₃, h₄, hF5, ne_eq, hE0, hF0]
    by_cases hb : b.toNat < 0x80
    · rw [if_pos (.inl hb), tryDecodeChar_ascii hb]
    have hstart := startOfSequence_eq b
    have hb := not_lt.mp hb
    have hlead (c : UInt8) : (c ≥ 0xA0 ↔ 0xA0 ≤ c.toNat) ∧ (c ≥ 0x90 ↔ 0x90 ≤ c.toNat) :=
      ⟨ge_iff c 0xA0 (by decide), ge_iff c 0x90 (by decide)⟩
    split_ifs at hstart with r₂ r₃ r₄
    · rw [tryDecodeChar_advance hb hstart, if_neg (by omega), if_pos (by omega)]
      cases t with
      | nil => simp [decodeCont]
      | cons c t =>
        simp only [Nat.add_one_sub_one, decodeCont_cons, decodeCont]
        by_cases hc : 0x80 ≤ c.toNat ∧ c.toNat < 0xC0
        · simp [continuation_iff, hc, r₂.1]
        · simp [continuation_iff, hc]
    · rw [tryDecodeChar_advance hb hstart, if_neg (by omega), if_neg (by omega), if_pos (by omega)]
      simp only [Nat.reduceSub]
      cases t with
      | nil => simp [decodeCont]
      | cons c t =>
      by_cases hc : 0x80 ≤ c.toNat ∧ c.toNat < 0xC0
      case neg => simp [decodeCont_cons, continuation_iff, hc]
      cases t with
      | nil => simp [decodeCont]
      | cons d t =>
      by_cases hd : 0x80 ≤ d.toNat ∧ d.toNat < 0xC0
      case neg => simp [decodeCont_cons, continuation_iff, hd, hc]
      rw [decodeCont_cons, if_pos hc, decodeCont_cons, if_pos hd, decodeCont]
      simp only [List.getElem?_cons_zero, List.getElem?_cons_succ, Option.map_some,
        Option.getD_some, decide_eq_true_eq, continuation_iff, hc, hd, (hlead c).1, true_and,
        and_self]
      by_cases hl : ¬ b.toNat = 0xE0 ∨ 0xA0 ≤ c.toNat
      · rw [if_pos hl, if_neg (by omega)]
      · rw [if_neg hl, if_pos (by omega)]
    · rw [tryDecodeChar_advance hb hstart, if_neg (by omega), if_neg (by omega), if_neg (by omega),
        if_pos (by omega)]
      simp only [Nat.reduceSub]
      cases t with
      | nil => simp [decodeCont]
      | cons c t =>
      by_cases hc : 0x80 ≤ c.toNat ∧ c.toNat < 0xC0
      case neg => simp [decodeCont_cons, continuation_iff, hc]
      cases t with
      | nil => simp [decodeCont]
      | cons d t =>
      by_cases hd : 0x80 ≤ d.toNat ∧ d.toNat < 0xC0
      case neg => simp [decodeCont_cons, continuation_iff, hd, hc]
      cases t with
      | nil => simp [decodeCont]
      | cons e t =>
      by_cases he : 0x80 ≤ e.toNat ∧ e.toNat < 0xC0
      case neg => simp [decodeCont_cons, continuation_iff, hd, hc, he]
      rw [decodeCont_cons, if_pos hc, decodeCont_cons, if_pos hd, decodeCont_cons, if_pos he,
        decodeCont]
      simp only [List.getElem?_cons_zero, List.getElem?_cons_succ, Option.map_some,
        Option.getD_some, decide_eq_true_eq, continuation_iff, hc, hd, he, (hlead c).2, true_and,
        and_self, r₄.2]
      by_cases hl : ¬ b.toNat = 0xF0 ∨ 0x90 ≤ c.toNat
      · rw [if_pos hl, if_neg (by omega)]
      · rw [if_neg hl, if_pos (by omega)]
    · rw [tryDecodeChar_sequence hb, hstart]
      show _ = 1
      split_ifs <;> omega

theorem decodeCont_length (h : decodeCont count v t = some w) : count ≤ t.length := by
  induction count generalizing v t with
  | zero => exact Nat.zero_le _
  | succ count ih =>
    obtain ⟨b, t', rfl, -, -, h⟩ := decodeCont_some h
    exact Nat.succ_le_succ (ih h)

/-- Every step takes at least one byte and stays in the buffer. -/
theorem tryDecodeChar_bounds (h : buffer ≠ []) :
    1 ≤ (tryDecodeChar buffer).2 ∧ (tryDecodeChar buffer).2 ≤ buffer.length := by
  cases buffer with
  | nil => exact absurd rfl h
  | cons b t =>
    have one : 1 ≤ 1 ∧ 1 ≤ (b :: t).length := ⟨le_refl _, Nat.succ_pos _⟩
    by_cases hb : b.toNat < 0x80
    · rw [tryDecodeChar_ascii hb]
      exact one
    cases hs : startOfSequence b with
    | none =>
      rw [tryDecodeChar_sequence (not_lt.mp hb), hs]
      exact one
    | some start =>
      obtain ⟨size, bits⟩ := start
      rw [tryDecodeChar_advance (not_lt.mp hb) hs]
      have hsize : 1 ≤ size := by
        rw [startOfSequence_eq] at hs
        split_ifs at hs <;> (obtain ⟨rfl, -⟩ := Prod.mk.inj (Option.some.inj hs); decide)
      cases hd : decodeCont (size - 1) bits t with
      | none => exact one
      | some v =>
        have := decodeCont_length hd
        simp only
        split
        · exact one
        · exact ⟨hsize, by rw [List.length_cons]; omega⟩

namespace Reader

theorem decodeContOrThrow_eq (reader : ByteReader) (offset v : Nat) :
    decodeContOrThrow reader offset v =
      Utf8.decodeContOrThrow reader.unread reader.position offset v := by
  rw [decodeContOrThrow, Utf8.decodeContOrThrow, ByteReader.canRead, ByteReader.peekByteAt,
    ByteReader.length]
  by_cases h : offset < reader.unread.length
  · rw [if_neg (by simpa using h), List.getElem?_eq_getElem h]
    rfl
  · rw [if_pos (by simpa using h), List.getElem?_eq_none (not_lt.mp h)]

theorem decodeCharOrThrow_eq (reader : ByteReader) :
    decodeCharOrThrow reader = (Utf8.decodeCharOrThrow reader.unread reader.position).map fun r =>
      (r.1, reader.advance (r.2 - reader.position)) := by
  obtain ⟨position, unread⟩ := reader
  cases unread with
  | nil => rfl
  | cons b t =>
    have hread : ¬ ¬ (⟨position, b :: t⟩ : ByteReader).canRead 1 = true := by
      simp [ByteReader.canRead]
    rw [decodeCharOrThrow, if_neg hread, Utf8.decodeCharOrThrow]
    have move (x : Except U8EncodingError (Nat × Nat)) : (do
          let (v, size) ← x
          if isValidUnicode v then pure (v, (⟨position, b :: t⟩ : ByteReader).advance size)
          else .error (.encoding "Invalid Unicode character" position)) =
        (do
          let (v, size) ← x
          if isValidUnicode v then pure (v, position + size)
          else .error (.encoding "Invalid Unicode character" position)).map fun r : Nat × Nat =>
            (r.1, (⟨position, b :: t⟩ : ByteReader).advance (r.2 - position)) := by
      cases x with
      | error e => rfl
      | ok r =>
        rw [ok_bind, ok_bind]
        simp only
        split
        · simp only [pure, Except.pure, Except.map, Nat.add_sub_cancel_left]
        · rfl
    simp only [show (⟨position, b :: t⟩ : ByteReader).peekByte = b from rfl]
    split
    case isTrue => simp only [Except.map, Nat.add_sub_cancel_left]
    case isFalse =>
      have hcont : decodeContOrThrow ⟨position, b :: t⟩ =
          Utf8.decodeContOrThrow (b :: t) position := by
        funext offset v
        exact decodeContOrThrow_eq _ offset v
      rw [hcont]
      exact move _

theorem decodeCont_eq (reader : ByteReader) (count i v : Nat) :
    decodeCont reader count i v = Utf8.decodeCont count v (reader.unread.drop i) := by
  induction count generalizing i v with
  | zero => rfl
  | succ count ih =>
    rw [decodeCont, ByteReader.canRead, ByteReader.peekByteAt]
    by_cases h : i < reader.unread.length
    · rw [if_neg (by simpa using h), List.getElem?_eq_getElem h, List.drop_eq_getElem_cons h,
        Utf8.decodeCont]
      simp only [Option.getD_some, ne_eq, ite_not, ih]
    · rw [if_pos (by simpa using h), List.drop_eq_nil_of_le (not_lt.mp h)]
      rfl

/-- The reader has the results and the moves of the buffer after its position. -/
theorem tryDecodeChar_eq (reader : ByteReader) :
    tryDecodeChar reader = ((Utf8.tryDecodeChar reader.unread).1,
      reader.advance (Utf8.tryDecodeChar reader.unread).2) := by
  obtain ⟨position, unread⟩ := reader
  cases unread with
  | nil => rfl
  | cons b t =>
    have hread : ¬ ¬ (⟨position, b :: t⟩ : ByteReader).canRead 1 = true := by
      simp [ByteReader.canRead]
    rw [tryDecodeChar, if_neg hread, Utf8.tryDecodeChar]
    simp only [show (⟨position, b :: t⟩ : ByteReader).peekByte = b from rfl]
    split
    case isTrue => rfl
    case isFalse =>
    cases startOfSequence b with
    | none => rfl
    | some start =>
      simp only [decodeCont_eq, List.drop_succ_cons, List.drop_zero]
      cases Utf8.decodeCont (start.1 - 1) start.2 t with
      | none => rfl
      | some v =>
        simp only [ite_not]
        split
        · rfl
        · split <;> rfl

theorem decodeCharOrReplace_eq (reader : ByteReader) :
    decodeCharOrReplace reader = ((Utf8.decodeCharOrReplace reader.unread).1,
      reader.advance (Utf8.decodeCharOrReplace reader.unread).2) := by
  obtain ⟨position, unread⟩ := reader
  cases unread with
  | nil => rfl
  | cons b t =>
    have hread : ¬ ¬ (⟨position, b :: t⟩ : ByteReader).canRead 1 = true := by
      simp [ByteReader.canRead]
    rw [decodeCharOrReplace, if_neg hread, Utf8.decodeCharOrReplace]
    simp only [show (⟨position, b :: t⟩ : ByteReader).peekByte = b from rfl]
    split
    case isTrue => rfl
    case isFalse =>
    cases startOfSequence b with
    | none => rfl
    | some start =>
      simp only [decodeCont_eq, List.drop_succ_cons, List.drop_zero]
      cases Utf8.decodeCont (start.1 - 1) start.2 t with
      | none => rfl
      | some v =>
        simp only [ite_not]
        split
        · rfl
        · split <;> rfl

end Reader

theorem decodeCharOrThrow_some (h : (tryDecodeChar buffer).1 = some c) (position : Nat) :
    decodeCharOrThrow buffer position = .ok (c, position + (tryDecodeChar buffer).2) := by
  have := decodeCharOrThrow_toOption buffer position
  rw [h, Option.map_some] at this
  exact toOption_eq_some.mp this

theorem decodeCharOrThrow_none (h : (tryDecodeChar buffer).1 = none) (position : Nat) :
    ∃ e, decodeCharOrThrow buffer position = .error e := by
  have := decodeCharOrThrow_toOption buffer position
  rw [h] at this
  cases hd : decodeCharOrThrow buffer position with
  | error e => exact ⟨e, rfl⟩
  | ok r =>
    rw [hd] at this
    cases this

/-- The strict decoder has a result when all steps have one. -/
theorem forEachOrThrow_iff (skip position : Nat) (data : List UInt8) (cs : List Nat) :
    forEachOrThrow skip position data = .ok cs ↔ decodeFrom skip data = cs.map some := by
  induction data generalizing skip position cs with
  | nil =>
    rw [forEachOrThrow, decodeFrom, Except.ok.injEq, eq_comm (a := []), eq_comm (a := []),
      List.map_eq_nil_iff]
  | cons b t ih =>
    cases skip with
    | succ skip => exact ih skip (position + 1) cs
    | zero =>
      rw [forEachOrThrow, decodeFrom]
      cases hd : (tryDecodeChar (b :: t)).1 with
      | none =>
        obtain ⟨e, he⟩ := decodeCharOrThrow_none hd position
        rw [he]
        refine ⟨fun h => ?_, fun h => ?_⟩
        · cases h
        cases cs with
        | nil => cases h
        | cons c cs => cases h
      | some c =>
        have hnext : position + (tryDecodeChar (b :: t)).2 - position - 1 =
            (tryDecodeChar (b :: t)).2 - 1 := by omega
        rw [decodeCharOrThrow_some hd, ok_bind]
        simp only [hnext]
        constructor
        · intro h
          obtain ⟨rest, hrest, h⟩ := bind_eq_ok h
          obtain rfl := Except.ok.inj h
          rw [(ih _ _ rest).mp hrest, List.map_cons]
        · intro h
          cases cs with
          | nil => cases h
          | cons d cs =>
            rw [List.map_cons, List.cons.injEq] at h
            obtain ⟨hc, hrest⟩ := h
            obtain rfl := Option.some.inj hc
            rw [(ih _ _ cs).mpr hrest]
            rfl

theorem forEachOrThrow_drop (position : Nat) (h : skip ≤ data.length) :
    forEachOrThrow skip position data = forEachOrThrow 0 (position + skip) (data.drop skip) := by
  induction data generalizing skip position with
  | nil =>
    obtain rfl : skip = 0 := Nat.le_zero.mp h
    rfl
  | cons b t ih =>
    cases skip with
    | zero => rfl
    | succ skip =>
      rw [forEachOrThrow, ih (position + 1) (Nat.le_of_succ_le_succ h), List.drop_succ_cons]
      congr 1
      omega

/-- The reader decodes what is left of its block. -/
theorem reader_forEachOrThrow (h : reader.unread.length ≤ fuel) :
    Reader.forEachOrThrow fuel reader = forEachOrThrow 0 reader.position reader.unread := by
  induction fuel generalizing reader with
  | zero =>
    rw [List.eq_nil_of_length_eq_zero (Nat.le_zero.mp h)]
    rfl
  | succ fuel ih =>
    obtain ⟨position, unread⟩ := reader
    cases unread with
    | nil => rfl
    | cons b t =>
      obtain ⟨hl, hu⟩ := tryDecodeChar_bounds (List.cons_ne_nil b t)
      rw [Reader.forEachOrThrow, if_neg (by simp [ByteReader.isAtEnd]), forEachOrThrow,
        Reader.decodeCharOrThrow_eq]
      cases hd : (tryDecodeChar (b :: t)).1 with
      | none =>
        obtain ⟨e, he⟩ := decodeCharOrThrow_none hd position
        simp only [he]
        rfl
      | some c =>
        simp only [decodeCharOrThrow_some hd, Except.map, ok_bind, Nat.add_sub_cancel_left]
        obtain ⟨n, hn⟩ : ∃ n, (tryDecodeChar (b :: t)).2 = n + 1 :=
          ⟨(tryDecodeChar (b :: t)).2 - 1, by omega⟩
        rw [List.length_cons] at h hu
        have hnext : (⟨position, b :: t⟩ : ByteReader).advance (n + 1) =
            ⟨position + (n + 1), t.drop n⟩ := by
          rw [ByteReader.advance, List.length_cons, Nat.min_eq_left (by omega),
            List.drop_succ_cons]
        rw [hn, hnext, ih (by simp only [List.length_drop]; omega), Nat.add_sub_cancel,
          forEachOrThrow_drop (position + 1) (by omega)]
        simp only [show position + 1 + n = position + (n + 1) by omega]

theorem writeChar_eq (h : isValidUnicode c = true) : writeChar c = Library.Utf8.encode c := by
  have hv := (isValidUnicode_iff c).mp h
  have mask (b n k : Nat) (hb : b % 2 ^ k = 0) : b ||| n &&& (2 ^ k - 1) = b + n % 2 ^ k := by
    obtain ⟨m, rfl⟩ : ∃ m, b = m * 2 ^ k :=
      ⟨b / 2 ^ k, by rw [Nat.div_mul_cancel (Nat.dvd_of_mod_eq_zero hb)]⟩
    rw [Nat.and_two_pow_sub_one_eq_mod, ← Nat.shiftLeft_eq,
      ← Nat.shiftLeft_add_eq_or_of_lt (Nat.mod_lt _ (Nat.two_pow_pos k))]
  have continuation_eq (n : Nat) : UInt8.ofNat (0x80 ||| n &&& 0x3F) = Library.Utf8.continuation n :=
    congrArg UInt8.ofNat (mask 0x80 n 6 rfl)
  have lead₂ : 0xC0 ||| c >>> 6 &&& 0x1F = 0xC0 + c / 64 % 32 := by
    rw [Nat.shiftRight_eq_div_pow]
    exact mask 0xC0 (c / 64) 5 rfl
  have lead₃ : 0xE0 ||| c >>> 12 &&& 0x0F = 0xE0 + c / 4096 % 16 := by
    rw [Nat.shiftRight_eq_div_pow]
    exact mask 0xE0 (c / 4096) 4 rfl
  have lead₄ : 0xF0 ||| c >>> 18 &&& 0x07 = 0xF0 + c / 262144 % 8 := by
    rw [Nat.shiftRight_eq_div_pow]
    exact mask 0xF0 (c / 262144) 3 rfl
  rw [writeChar, if_neg (by simp [h]), Library.Utf8.encode, continuation_eq, continuation_eq,
    continuation_eq, lead₂, lead₃, lead₄]
  by_cases h₁ : c < 0x80
  · rw [if_pos h₁, if_pos (by omega)]
  rw [if_neg h₁, if_neg (by omega : ¬ c ≤ 0x7F)]
  by_cases h₂ : c < 0x800
  · rw [if_pos h₂, if_pos (by omega), Nat.mod_eq_of_lt (by omega)]
  rw [if_neg h₂, if_neg (by omega : ¬ c ≤ 0x7FF)]
  by_cases h₃ : c < 0x10000
  · rw [if_pos h₃, if_pos (by omega), Nat.mod_eq_of_lt (by omega), Nat.shiftRight_eq_div_pow]
  · rw [if_neg h₃, if_neg (by omega), Nat.mod_eq_of_lt (by omega), Nat.shiftRight_eq_div_pow,
      Nat.shiftRight_eq_div_pow]

/-- Scalar values that are text: the byte order mark is reserved. -/
def IsText (cs : List Nat) : Prop := ∀ c ∈ cs, Library.Utf8.IsScalar c ∧ c ≠ 0xFEFF

theorem isText_iff (cs : List Nat) : IsText cs ↔ ∀ c ∈ cs, isValidUnicode c = true := by
  refine forall₂_congr fun c _ => ?_
  rw [isValidUnicode_iff, Library.Utf8.IsScalar]
  tauto

/-- The positions that a decoder moves through, up to the end. -/
def positions (move : ByteReader → ByteReader) : Nat → ByteReader → List Nat
  | 0, _ => []
  | fuel + 1, reader =>
    if reader.isAtEnd then [] else reader.position :: positions move fuel (move reader)

/-- The positions of a strict decoder, up to the first error. -/
def strictPositions (decode : ByteReader → Except U8EncodingError (Nat × ByteReader)) :
    Nat → ByteReader → List Nat
  | 0, _ => []
  | fuel + 1, reader =>
    if reader.isAtEnd then []
    else reader.position :: match decode reader with
      | .error _ => []
      | .ok (_, reader) => strictPositions decode fuel reader

/-- A decoder of a buffer, at the position of a reader. -/
def onBuffer (advance : List UInt8 → Nat) (reader : ByteReader) : ByteReader :=
  reader.advance (advance reader.unread)

def strictOnBuffer (reader : ByteReader) : Except U8EncodingError (Nat × ByteReader) :=
  (decodeCharOrThrow reader.unread reader.position).map fun r =>
    (r.1, reader.advance (r.2 - reader.position))

theorem forEachOrThrow_ok_iff (position : Nat) (data : List UInt8) (cs : List Nat) :
    forEachOrThrow 0 position data = .ok cs ↔ IsText cs ∧ data = Library.Utf8.encodeAll cs := by
  rw [forEachOrThrow_iff, isText_iff]
  constructor
  · intro h
    have hvalid : isValid data = true := by
      rw [isValid, h, List.all_map, List.all_eq_true]
      exact fun _ _ => rfl
    obtain ⟨ds, hds, rfl⟩ := (isValid_iff data).mp hvalid
    rw [decodeFrom_encodeAll hds] at h
    obtain rfl := List.map_injective_iff.mpr (fun _ _ => Option.some.inj) h
    exact ⟨hds, rfl⟩
  · rintro ⟨hcs, rfl⟩
    exact decodeFrom_encodeAll hcs

theorem decodeCharOrReplace_advance : (fun buffer => (decodeCharOrReplace buffer).2) =
    fun buffer => (tryDecodeChar buffer).2 := by
  funext buffer
  cases buffer with
  | nil => rfl
  | cons b t => rw [decodeCharOrReplace_eq _ (List.cons_ne_nil b t)]

theorem strictPositions_prefix (fuel : Nat) (reader : ByteReader) :
    strictPositions strictOnBuffer fuel reader <+:
      positions (onBuffer fun buffer => (tryDecodeChar buffer).2) fuel reader := by
  induction fuel generalizing reader with
  | zero => exact List.prefix_refl _
  | succ fuel ih =>
    rw [strictPositions, positions]
    split
    case isTrue => exact List.prefix_refl _
    case isFalse =>
    refine (List.prefix_cons_inj _).mpr ?_
    rw [strictOnBuffer]
    cases hd : (tryDecodeChar reader.unread).1 with
    | none =>
      obtain ⟨e, he⟩ := decodeCharOrThrow_none hd reader.position
      rw [he]
      exact List.nil_prefix
    | some c =>
      rw [decodeCharOrThrow_some hd]
      simp only [Except.map, Nat.add_sub_cancel_left]
      exact ih _

/-- Strict decoding accepts exactly the encodings of text, and all decoders move alike. -/
theorem strict_decoding_and_moves :
    (∀ data cs, forEachOrThrow 0 0 data = .ok cs ↔ IsText cs ∧ data = Library.Utf8.encodeAll cs) ∧
    (∀ reader cs fuel, reader.unread.length ≤ fuel → (Reader.forEachOrThrow fuel reader = .ok cs ↔
      IsText cs ∧ reader.unread = Library.Utf8.encodeAll cs)) ∧
    (∀ cs, IsText cs → forEachOrThrow 0 0 (cs.flatMap writeChar) = .ok cs) ∧
    (∀ buffer, buffer ≠ [] →
      1 ≤ (tryDecodeChar buffer).2 ∧ (tryDecodeChar buffer).2 ≤ buffer.length) ∧
    ∀ fuel reader,
      let moves := positions (onBuffer fun buffer => (tryDecodeChar buffer).2) fuel reader
      positions (onBuffer fun buffer => (decodeCharOrReplace buffer).2) fuel reader = moves ∧
      positions (onBuffer fastAdvanceChar) fuel reader = moves ∧
      positions (fun reader => (Reader.tryDecodeChar reader).2) fuel reader = moves ∧
      positions (fun reader => (Reader.decodeCharOrReplace reader).2) fuel reader = moves ∧
      strictPositions strictOnBuffer fuel reader <+: moves ∧
      strictPositions Reader.decodeCharOrThrow fuel reader =
        strictPositions strictOnBuffer fuel reader := by
  have hfast : fastAdvanceChar = fun buffer => (tryDecodeChar buffer).2 := funext fastAdvanceChar_eq
  have htry : (fun reader => (Reader.tryDecodeChar reader).2) =
      onBuffer fun buffer => (tryDecodeChar buffer).2 := by
    funext reader
    rw [Reader.tryDecodeChar_eq]
    rfl
  have hreplace : (fun reader => (Reader.decodeCharOrReplace reader).2) =
      onBuffer fun buffer => (decodeCharOrReplace buffer).2 := by
    funext reader
    rw [Reader.decodeCharOrReplace_eq]
    rfl
  have hstrict : Reader.decodeCharOrThrow = strictOnBuffer := funext Reader.decodeCharOrThrow_eq
  refine ⟨forEachOrThrow_ok_iff 0, fun reader cs fuel h => ?_, fun cs h => ?_,
    fun buffer h => tryDecodeChar_bounds h, fun fuel reader => ?_⟩
  · rw [reader_forEachOrThrow h, forEachOrThrow_ok_iff]
  · refine (forEachOrThrow_ok_iff 0 _ cs).mpr ⟨h, ?_⟩
    exact List.flatMap_congr fun c hc => writeChar_eq ((isText_iff cs).mp h c hc)
  · rw [hfast, htry, hreplace, hstrict, decodeCharOrReplace_advance]
    exact ⟨rfl, rfl, rfl, rfl, strictPositions_prefix fuel reader, rfl⟩

/-- The byte order mark is a scalar value, and its encoding is rejected. -/
theorem byteOrderMark_rejected : Library.Utf8.IsScalar 0xFEFF ∧
    Library.Utf8.encodeAll [0xFEFF] = [0xEF, 0xBB, 0xBF] ∧
    forEachOrThrow 0 0 [0xEF, 0xBB, 0xBF] =
      .error (.encoding "Invalid Unicode character" 0) := by
  refine ⟨⟨by decide, .inr (by decide)⟩, rfl, rfl⟩

end ErbslandCore.Text.Utf8
