import ErbslandCore.Compression.CodecBitReader
import ErbslandCore.Library.ByteOrder
import ErbslandCore.Library.Machine

namespace ErbslandCore.Compression
open Library Mem Machine
set_option autoImplicit true

/-- The operations of a byte source. -/
inductive ByteRequest where
  | byte
  | block (maximum : Nat)
  | little (count : Nat)
  | atEnd
  | requireEnd
  deriving DecidableEq

inductive Response where
  | byte (value : UInt8)
  | bytes (value : List UInt8)
  | number (value : Nat)
  | flag (value : Bool)
  | done
  deriving DecidableEq

namespace CodecReader

/-- Read a byte, rejecting truncation. -/
def byte (r : CodecReader) : Except CodecError UInt8 × CodecReader :=
  match h : r.atEnd with
  | (true, r') => (throwMalformed "Compressed input is truncated.", r')
  | (false, r') => (.ok r'.data[r'.position]!, r'.consume 1 (by
      have hp := r.atEnd_position (by rw [h])
      rw [h] at hp
      exact hp))

def littleLoop (count : Nat) (index value : Nat) (r : CodecReader) :
    Except CodecError Nat × CodecReader :=
  match count with
  | 0 => (.ok value, r)
  | count + 1 =>
    match r.byte with
    | (.error e, r) => (.error e, r)
    | (.ok byte, r) => littleLoop count (index + 1) (value ||| (byte.toNat <<< (index * 8))) r

/-- Read an exact little-endian integer field. -/
def little (r : CodecReader) (count : Nat) : Except CodecError Nat × CodecReader :=
  if 8 < count then (.error (.outOfRange "Codec integer field exceeds 64 bits."), r)
  else littleLoop count 0 0 r

/-- One operation, with the reader that it leaves behind, also when it fails. -/
def perform (r : CodecReader) : ByteRequest → Except CodecError Response × CodecReader
  | .byte => (r.byte.1.map .byte, r.byte.2)
  | .block maximum => (.ok (.bytes (r.block maximum).1), (r.block maximum).2)
  | .little count => ((r.little count).1.map .number, (r.little count).2)
  | .atEnd => (.ok (.flag r.atEnd.1), r.atEnd.2)
  | .requireEnd => (r.requireEnd.map fun _ => .done, r.atEnd.2)

end CodecReader

/-- The operations on bytes that are there in one piece. -/
def performBytes (bytes : List UInt8) : ByteRequest → Except CodecError Response × List UInt8
  | .byte => match bytes with
    | [] => (throwMalformed "Compressed input is truncated.", [])
    | b :: rest => (.ok (.byte b), rest)
  | .block maximum => (.ok (.bytes (bytes.take maximum)), bytes.drop maximum)
  | .little count =>
    if 8 < count then (.error (.outOfRange "Codec integer field exceeds 64 bits."), bytes)
    else if bytes.length < count then (throwMalformed "Compressed input is truncated.", [])
    else (.ok (.number (littleEndian (bytes.take count))), bytes.drop count)
  | .atEnd => (.ok (.flag bytes.isEmpty), bytes)
  | .requireEnd =>
    (if bytes.isEmpty then .ok .done
      else throwMalformed "Compressed input has trailing data.", bytes)

namespace CodecReader

theorem byte_of_nil {r : CodecReader} (h : r.unread = []) :
    ∃ r', r.byte = (throwMalformed "Compressed input is truncated.", r') ∧ r'.unread = [] := by
  unfold byte
  split
  case h_1 r' hr => exact ⟨r', rfl, (unread_of_atEnd hr).2⟩
  case h_2 r' hr => exact absurd h (unread_of_not_atEnd hr).1

theorem byte_of_cons {r : CodecReader} (h : r.unread = b :: rest) :
    ∃ r', r.byte = (.ok b, r') ∧ r'.unread = rest := by
  unfold byte
  split
  case h_1 r' hr =>
    rw [(unread_of_atEnd hr).1] at h
    cases h
  case h_2 r' hr =>
    have hu := (unread_of_not_atEnd hr).2.trans h
    have hp := r.atEnd_position (by rw [hr])
    rw [hr] at hp
    refine ⟨r'.consume 1 hp, ?_, by rw [consume_unread, hu, List.drop_one, List.tail_cons]⟩
    have hb : r'.data[r'.position]? = some b := by
      have h₀ := congrArg (fun l : List UInt8 => l[0]?) hu
      rw [unread, List.getElem?_append_left (by rw [List.length_drop]; exact Nat.sub_pos_of_lt hp),
        List.getElem?_drop] at h₀
      exact h₀
    rw [List.getElem?_eq_getElem hp] at hb
    rw [getElem!_pos r'.data r'.position hp, Option.some.inj hb]

/-- The loop collects the bytes above the ones already in the value. -/
theorem littleLoop_spec (r : CodecReader) (hv : value < 256 ^ index)
    (hl : count ≤ r.unread.length) :
    ∃ r', littleLoop count index value r =
      (.ok (value + 256 ^ index * littleEndian (r.unread.take count)), r') ∧
        r'.unread = r.unread.drop count := by
  induction count generalizing r index value with
  | zero => exact ⟨r, rfl, rfl⟩
  | succ count ih =>
    cases hr : r.unread with
    | nil =>
      rw [hr] at hl
      cases hl
    | cons b rest =>
      obtain ⟨r₁, hbyte, hrest⟩ := byte_of_cons hr
      rw [hr, ← hrest, List.length_cons] at hl
      have hor : value ||| (b.toNat <<< (index * 8)) = value + 256 ^ index * b.toNat := by
        have hpow : 256 ^ index = 2 ^ (index * 8) := by rw [Nat.mul_comm, Nat.pow_mul]
        rw [hpow] at hv ⊢
        rw [Nat.or_comm, ← Nat.shiftLeft_add_eq_or_of_lt hv, Nat.shiftLeft_eq, Nat.add_comm,
          Nat.mul_comm]
      have hlt : value + 256 ^ index * b.toNat < 256 ^ (index + 1) := by
        have hb := b.toNat_lt
        calc value + 256 ^ index * b.toNat < 256 ^ index * (b.toNat + 1) := by
              rw [Nat.mul_add]; omega
          _ ≤ 256 ^ index * 256 := Nat.mul_le_mul_left _ hb
          _ = 256 ^ (index + 1) := (pow_succ 256 index).symm
      obtain ⟨r', hloop, hunread⟩ := ih r₁ hlt (by omega)
      refine ⟨r', ?_, ?_⟩
      · rw [littleLoop, hbyte]
        dsimp only
        rw [hor, hloop, hrest, List.take_succ_cons, littleEndian_cons, pow_succ]
        congr 2
        ring
      · rw [hunread, hrest, List.drop_succ_cons]

theorem littleLoop_truncated (r : CodecReader) (index value : Nat)
    (hl : r.unread.length < count) :
    ∃ r', littleLoop count index value r =
      (throwMalformed "Compressed input is truncated.", r') ∧ r'.unread = [] := by
  induction count generalizing r index value with
  | zero => cases hl
  | succ count ih =>
    rw [littleLoop]
    cases hr : r.unread with
    | nil =>
      obtain ⟨r₁, hbyte, hrest⟩ := byte_of_nil hr
      rw [hbyte]
      exact ⟨r₁, rfl, hrest⟩
    | cons b rest =>
      obtain ⟨r₁, hbyte, hrest⟩ := byte_of_cons hr
      rw [hr, ← hrest, List.length_cons] at hl
      rw [hbyte]
      exact ih r₁ _ _ (by omega)

/-- Each operation sees the unread bytes only, not the chunks that they come in. -/
theorem perform_unread (r : CodecReader) (request : ByteRequest) :
    (r.perform request).1 = (performBytes r.unread request).1 ∧
      (r.perform request).2.unread = (performBytes r.unread request).2 := by
  cases request with
  | byte =>
    cases hr : r.unread with
    | nil =>
      obtain ⟨r', hbyte, hrest⟩ := byte_of_nil hr
      rw [perform, hbyte]
      exact ⟨rfl, hrest⟩
    | cons b rest =>
      obtain ⟨r', hbyte, hrest⟩ := byte_of_cons hr
      rw [perform, hbyte]
      exact ⟨rfl, hrest⟩
  | block maximum =>
    obtain ⟨hbytes, hrest⟩ := r.block_spec maximum
    rw [perform, hbytes]
    exact ⟨rfl, hrest⟩
  | little count =>
    rw [perform, performBytes, little]
    by_cases hc : 8 < count
    · rw [if_pos hc, if_pos hc]
      exact ⟨rfl, rfl⟩
    · rw [if_neg hc, if_neg hc]
      by_cases hl : r.unread.length < count
      · obtain ⟨r', hloop, hrest⟩ := r.littleLoop_truncated 0 0 hl
        rw [if_pos hl, hloop]
        exact ⟨rfl, hrest⟩
      · obtain ⟨r', hloop, hrest⟩ := r.littleLoop_spec (show 0 < 256 ^ 0 from Nat.one_pos)
          (Nat.le_of_not_gt hl)
        rw [pow_zero, Nat.one_mul, Nat.zero_add] at hloop
        rw [if_neg hl, hloop]
        exact ⟨rfl, hrest⟩
  | atEnd =>
    refine ⟨?_, r.atEnd_unread⟩
    rw [perform, r.atEnd_fst]
    rfl
  | requireEnd =>
    refine ⟨?_, r.atEnd_unread⟩
    rw [perform, performBytes, ← r.atEnd_fst, requireEnd]
    cases r.atEnd with
    | mk ended r' => cases ended <;> rfl

end CodecReader

/-- The operations of a bit reader. A payload is read by its portions. -/
inductive BitRequest where
  | canRead (count : Nat)
  | buffered (count : Nat)
  | readBits (count : Nat)
  | readByte
  | canReadBytes (count : Nat)
  | payload (count : Nat)
  | alignToByte
  deriving DecidableEq

namespace CodecBitReader

/-- The reader that a failed operation leaves behind: it was refilled for its field. -/
def refilled (input : CodecBitReader) (count : Nat) : CodecBitReader :=
  match input.canRead count with
  | .ok (_, next) => next
  | .error _ => input

def settle (x : Except CodecError (α × CodecBitReader)) (failed : CodecBitReader) :
    Except CodecError α × CodecBitReader :=
  match x with
  | .ok (a, next) => (.ok a, next)
  | .error e => (.error e, failed)

/-- Read portions until the payload is complete. -/
def readPayload (input : CodecBitReader) (count : Nat) :
    Except CodecError (List UInt8) × CodecBitReader :=
  if _hc : count = 0 then (.ok [], input)
  else
    match _h : input.readBytes count with
    | .error e => (.error e, input.refilled 8)
    | .ok (part, next) =>
      let rest := readPayload next (count - part.length)
      (rest.1.map (part ++ ·), rest.2)
termination_by count
decreasing_by
  have hp := readBytes_progress (Nat.pos_of_ne_zero _hc) _h
  omega

/-- One operation, with the reader that it leaves behind, also when it fails. -/
def perform (input : CodecBitReader) : BitRequest → Except CodecError Response × CodecBitReader
  | .canRead count =>
    let r := settle (input.canRead count) input
    (r.1.map .flag, r.2)
  | .buffered count => (.ok .done, input.refilled count)
  | .readBits count =>
    let r := settle (input.readBits count) (input.refilled count)
    (r.1.map .number, r.2)
  | .readByte =>
    let r := settle input.readByte (input.refilled 8)
    (r.1.map .byte, r.2)
  | .canReadBytes count =>
    let r := settle (input.canReadBytes count) input
    (r.1.map .flag, r.2)
  | .payload count => ((input.readPayload count).1.map .bytes, (input.readPayload count).2)
  | .alignToByte => (.ok .done, input.alignToByte)

end CodecBitReader

/-- The bytes that bits are transmitted for. -/
def bytesIn (order : BitOrder) : Nat → List Bool → List UInt8
  | 0, _ => []
  | n + 1, bits => UInt8.ofNat (fieldValue order (bits.take 8)) :: bytesIn order n (bits.drop 8)

/-- Take whole bytes off the bits; a truncated payload is used up. -/
def takePayload (order : BitOrder) (count : Nat) (bits : List Bool) :
    Except CodecError (List UInt8) × List Bool :=
  if count = 0 then (.ok [], bits)
  else if bits.length < 8 then (throwMalformed "Truncated codec byte field.", bits)
  else if bits.length % 8 ≠ 0 then
    (.error (.outOfRange "Byte read requires alignment and sufficient buffered input."), bits)
  else if bits.length < 8 * count then (throwMalformed "Truncated codec byte field.", [])
  else (.ok (bytesIn order count bits), bits.drop (8 * count))

/-- Take a field off the bits. -/
def takeField (order : BitOrder) (count : Nat) (bits : List Bool) :
    Except CodecError Nat × List Bool :=
  if count ≤ 64 ∧ count ≤ bits.length then
    (.ok (fieldValue order (bits.take count)), bits.drop count)
  else (throwMalformed "Truncated codec bit field.", bits)

/-- The operations on bits that are there in one piece. -/
def performBits (order : BitOrder) (bits : List Bool) :
    BitRequest → Except CodecError Response × List Bool
  | .canRead count => (.ok (.flag (decide (count ≤ 64 ∧ count ≤ bits.length))), bits)
  | .buffered _ => (.ok .done, bits)
  | .readBits count => ((takeField order count bits).1.map .number, (takeField order count bits).2)
  | .readByte =>
    ((takeField order 8 bits).1.map fun value => .byte (UInt8.ofNat value),
      (takeField order 8 bits).2)
  | .canReadBytes count => (.ok (.flag (decide (count ≤ 8 → count * 8 ≤ bits.length))), bits)
  | .payload count =>
    ((takePayload order count bits).1.map .bytes, (takePayload order count bits).2)
  | .alignToByte => (.ok .done, bits.drop (bits.length % 8))

theorem bytesIn_append (order : BitOrder) (part : List UInt8) (n : Nat) (bits : List Bool) :
    bytesIn order (part.length + n) (orderedBits order part ++ bits) =
      part ++ bytesIn order n bits := by
  induction part with
  | nil => rw [List.length_nil, Nat.zero_add, orderedBits_nil, List.nil_append, List.nil_append]
  | cons b part ih =>
    rw [List.length_cons, Nat.succ_add, bytesIn, orderedBits_cons, List.append_assoc,
      List.take_left' (fieldBits_length ..), List.drop_left' (fieldBits_length ..), ih,
      fieldValue_fieldBits, Nat.mod_eq_of_lt b.toNat_lt, UInt8.ofNat_toNat, List.cons_append]

/-- A payload is a portion followed by the rest of the payload. -/
theorem takePayload_append (order : BitOrder) {part : List UInt8} {bits : List Bool}
    (hp : part ≠ []) (hl : part.length ≤ count) (ha : bits.length % 8 = 0) :
    takePayload order count (orderedBits order part ++ bits) =
      ((takePayload order (count - part.length) bits).1.map (part ++ ·),
        (takePayload order (count - part.length) bits).2) := by
  have hpos := List.length_pos_iff.mpr hp
  obtain ⟨n, rfl⟩ := Nat.exists_eq_add_of_le hl
  have hlen : (orderedBits order part ++ bits).length = 8 * part.length + bits.length := by
    rw [List.length_append, orderedBits_length]
  rw [takePayload, if_neg (by omega), if_neg (by omega), if_neg (by omega), hlen,
    Nat.add_sub_cancel_left, takePayload]
  by_cases hn : n = 0
  · rw [if_neg (by omega), if_pos hn, bytesIn_append, hn, bytesIn, Nat.add_zero,
      List.drop_left' (orderedBits_length ..)]
    rfl
  · rw [if_neg hn]
    by_cases hs : bits.length < 8
    · rw [if_pos (by omega), if_pos hs, List.length_eq_zero_iff.mp (show bits.length = 0 by omega)]
      rfl
    · rw [if_neg hs, if_neg (not_not.mpr ha)]
      by_cases ht : bits.length < 8 * n
      · rw [if_pos (by omega), if_pos ht]
        rfl
      · rw [if_neg (by omega), if_neg ht, bytesIn_append, Nat.mul_add, ← List.drop_drop,
          List.drop_left' (orderedBits_length ..)]
        rfl

theorem unaligned_readBytesOrThrow (r : BitReader) (ha : r.remainingBitCount % 8 ≠ 0) (n : Nat) :
    r.readBytesOrThrow n =
      .error (.outOfRange "Byte read requires alignment and sufficient buffered input.") := by
  have hp := r.position_le
  rw [BitReader.remainingBitCount, BitReader.bitCount, BitReader.byteCount] at ha
  have halign : r.isByteAligned = false := by
    simp only [BitReader.isByteAligned, decide_eq_false_iff_not]
    omega
  rw [BitReader.readBytesOrThrow, dif_pos (.inl halign)]

namespace CodecBitReader

theorem unread_length (input : CodecBitReader) : input.unread.length = input.bits.length :=
  (input.bitsIn_length _).trans input.bits_length.symm

theorem canRead_unread (input : CodecBitReader) (count : Nat) (hc : count ≤ 64) :
    ∃ next, input.canRead count = .ok (decide (count ≤ input.unread.length), next) ∧
      next.reader.bitOrder = input.reader.bitOrder ∧ next.unread = input.unread ∧
      (count ≤ input.unread.length → count ≤ next.reader.unread.length) := by
  obtain ⟨next, h, ho, hbuf, hb⟩ := input.canRead_bitsIn count hc
  have hu : next.unread = input.unread := by rw [unread, ho, hb, unread]
  refine ⟨next, input.unread_length ▸ h, ho, hu, fun hle => ?_⟩
  rw [BitReader.unread_length, ← BitReader.bits_length]
  apply hbuf.le
  rwa [← unread_length, hu]

theorem canRead_over (input : CodecBitReader) (hc : 64 < count) :
    input.canRead count = .ok (false, input) := by
  rw [canRead, if_pos hc]

theorem refilled_unread (input : CodecBitReader) (count : Nat) :
    (input.refilled count).reader.bitOrder = input.reader.bitOrder ∧
      (input.refilled count).unread = input.unread := by
  by_cases hc : count ≤ 64
  · obtain ⟨next, h, ho, hu, _⟩ := input.canRead_unread count hc
    rw [refilled, h]
    exact ⟨ho, hu⟩
  · rw [refilled, input.canRead_over (Nat.lt_of_not_ge hc)]
    exact ⟨rfl, rfl⟩

/-- What an operation answers and leaves unread, in terms of the bits that were unread before. -/
structure Yields (r : Except CodecError α × CodecBitReader) (order : BitOrder)
    (spec : Except CodecError α × List Bool) : Prop where
  answer : r.1 = spec.1
  order_eq : r.2.reader.bitOrder = order
  unread_eq : r.2.unread = spec.2

theorem Yields.map {r : Except CodecError α × CodecBitReader} (h : Yields r order spec)
    (f : α → β) : Yields (r.1.map f, r.2) order (spec.1.map f, spec.2) :=
  ⟨congrArg (Except.map f) h.answer, h.order_eq, h.unread_eq⟩

theorem canRead_yields (input : CodecBitReader) (count : Nat) :
    Yields (settle (input.canRead count) input) input.reader.bitOrder
      (.ok (decide (count ≤ 64 ∧ count ≤ input.unread.length)), input.unread) := by
  by_cases hc : count ≤ 64
  · obtain ⟨next, h, ho, hu, _⟩ := input.canRead_unread count hc
    rw [h]
    refine ⟨?_, ho, hu⟩
    simp only [settle, hc, true_and]
  · rw [input.canRead_over (Nat.lt_of_not_ge hc)]
    refine ⟨?_, rfl, rfl⟩
    simp only [settle, hc, false_and, decide_false]

theorem readBits_yields (input : CodecBitReader) (count : Nat) :
    Yields (settle (input.readBits count) (input.refilled count)) input.reader.bitOrder
      (takeField input.reader.bitOrder count input.unread) := by
  obtain ⟨hro, hru⟩ := input.refilled_unread count
  by_cases hc : count ≤ 64
  · obtain ⟨next, h, ho, hu, hle⟩ := input.canRead_unread count hc
    rw [readBits, h, ok_bind, takeField]
    by_cases hl : count ≤ input.unread.length
    · have hsplit : next.reader.unread ++ orderedBits input.reader.bitOrder next.source.unread =
          input.unread := by
        rw [← ho]
        exact hu
      rw [if_pos ⟨hc, hl⟩]
      simp only [hl, decide_true, ↓reduceIte, next.reader.readBits_unread hc (hle hl)]
      refine ⟨?_, ho, ?_⟩
      · rw [← hsplit, List.take_append_of_le_length (hle hl), ho]
        rfl
      · rw [← hsplit, List.drop_append_of_le_length (hle hl), ← BitReader.advance_unread, ← ho]
        rfl
    · rw [if_neg fun h => hl h.2]
      simp only [hl, decide_false, Bool.false_eq_true, ↓reduceIte]
      exact ⟨rfl, hro, hru⟩
  · rw [readBits, input.canRead_over (Nat.lt_of_not_ge hc), ok_bind, takeField,
      if_neg fun h => hc h.1]
    exact ⟨rfl, hro, hru⟩

/-- A portion of an aligned payload is a part of the unread bytes. -/
theorem readBytes_unread (input : CodecBitReader) (hm : 0 < maximum)
    (hl : 8 ≤ input.unread.length) (ha : input.unread.length % 8 = 0) :
    ∃ part next, input.readBytes maximum = .ok (part, next) ∧ part ≠ [] ∧
      part.length ≤ maximum ∧ next.reader.bitOrder = input.reader.bitOrder ∧
      input.unread = orderedBits input.reader.bitOrder part ++ next.unread := by
  obtain ⟨next, h, ho, hu, hle⟩ := input.canRead_unread 8 (by omega)
  have hlen := hle hl
  have hal : 8 ∣ next.reader.remainingBitCount := by
    have hb := next.bitsIn_length next.reader.bitOrder
    rw [← unread, hu] at hb
    omega
  rw [BitReader.unread_length] at hlen
  obtain ⟨part, reader, hread, hpl, hpo, hpb⟩ := next.reader.readBytesOrThrow_bitsIn
    (n := min maximum (next.reader.remainingBitCount / 8)) hal (Nat.min_le_right _ _)
  refine ⟨part, ⟨reader, next.source⟩, ?_, ?_, ?_, hpo.trans ho, ?_⟩
  · rw [readBytes, if_neg (by omega), h, ok_bind]
    simp only [hl, decide_true, ↓reduceIte, hread, fromMem]
    rfl
  · intro hnil
    rw [hnil, List.length_nil] at hpl
    omega
  · omega
  · rw [← hu, unread, bitsIn, hpb, ho, List.append_assoc, unread, bitsIn, hpo.trans ho]

theorem readBytes_fails (input : CodecBitReader) (hm : 0 < maximum)
    (h : input.unread.length < 8 ∨ input.unread.length % 8 ≠ 0) :
    input.readBytes maximum = if input.unread.length < 8
      then throwMalformed "Truncated codec byte field."
      else .error (.outOfRange "Byte read requires alignment and sufficient buffered input.") := by
  obtain ⟨next, hr, ho, hu, hle⟩ := input.canRead_unread 8 (by omega)
  rw [readBytes, if_neg (by omega), hr, ok_bind]
  by_cases hl : input.unread.length < 8
  · simp only [show ¬ 8 ≤ input.unread.length by omega, decide_false, Bool.false_eq_true,
      ↓reduceIte, hl]
  · have hal : next.reader.remainingBitCount % 8 ≠ 0 := by
      have hb := next.bitsIn_length next.reader.bitOrder
      rw [← unread, hu] at hb
      omega
    simp only [hl, Nat.le_of_not_gt hl, decide_true, ↓reduceIte, unaligned_readBytesOrThrow _ hal]
    rfl

/-- A payload does not depend on the portions in which it is read. -/
theorem readPayload_yields (input : CodecBitReader) (count : Nat) :
    Yields (input.readPayload count) input.reader.bitOrder
      (takePayload input.reader.bitOrder count input.unread) := by
  induction count using Nat.strong_induction_on generalizing input with
  | _ count ih =>
    obtain ⟨hro, hru⟩ := input.refilled_unread 8
    rw [readPayload]
    by_cases hc : count = 0
    · rw [dif_pos hc, takePayload, if_pos hc]
      exact ⟨rfl, rfl, rfl⟩
    · rw [dif_neg hc]
      by_cases hfail : input.unread.length < 8 ∨ input.unread.length % 8 ≠ 0
      · have hread := input.readBytes_fails (Nat.pos_of_ne_zero hc) hfail
        rw [takePayload, if_neg hc]
        by_cases hl : input.unread.length < 8
        · rw [if_pos hl] at hread ⊢
          rw [throwMalformed] at hread ⊢
          split
          case h_1 e he =>
            rw [hread] at he
            cases he
            exact ⟨rfl, hro, hru⟩
          case h_2 part next he =>
            rw [hread] at he
            cases he
        · rw [if_neg hl] at hread ⊢
          rw [if_pos (hfail.resolve_left hl)]
          split
          case h_1 e he =>
            rw [hread] at he
            cases he
            exact ⟨rfl, hro, hru⟩
          case h_2 part next he =>
            rw [hread] at he
            cases he
      · rw [not_or, not_not] at hfail
        obtain ⟨part, next, hread, hne, hpl, ho, hsplit⟩ := input.readBytes_unread
          (Nat.pos_of_ne_zero hc) (Nat.le_of_not_gt hfail.1) hfail.2
        have hpos := List.length_pos_iff.mpr hne
        have hal : next.unread.length % 8 = 0 := by
          have hlen := congrArg List.length hsplit
          rw [List.length_append, orderedBits_length] at hlen
          omega
        have hrest := (ih (count - part.length) (by omega) next).map (part ++ ·)
        rw [hsplit, takePayload_append _ hne hpl hal]
        split
        case h_1 e he =>
          rw [hread] at he
          cases he
        case h_2 part' next' he =>
          rw [hread] at he
          cases he
          rwa [ho] at hrest

theorem alignToByte_unread (input : CodecBitReader) :
    input.alignToByte.unread = input.unread.drop (input.unread.length % 8) := by
  have hl := input.bitsIn_length input.reader.bitOrder
  rw [← unread, ← BitReader.unread_length] at hl
  have hmod : input.reader.unread.length % 8 = input.unread.length % 8 := by omega
  have hle : input.unread.length % 8 ≤ input.reader.unread.length := by
    rw [← hmod]
    exact Nat.mod_le _ _
  have halign := input.reader.alignToByte_unread
  rw [hmod] at halign
  have hsplit : input.unread =
      input.reader.unread ++ orderedBits input.reader.bitOrder input.source.unread := rfl
  have hleft : input.alignToByte.unread =
      input.reader.alignToByte.unread ++ orderedBits input.reader.bitOrder input.source.unread := rfl
  rw [hleft, halign, ← List.drop_append_of_le_length hle, ← hsplit]

/-- Each operation sees the unread bits only, not the chunks that they come in. -/
theorem perform_yields (input : CodecBitReader) (request : BitRequest) :
    Yields (input.perform request) input.reader.bitOrder
      (performBits input.reader.bitOrder input.unread request) := by
  cases request with
  | canRead count => exact (input.canRead_yields count).map Response.flag
  | buffered count =>
    obtain ⟨ho, hu⟩ := input.refilled_unread count
    exact ⟨rfl, ho, hu⟩
  | readBits count => exact (input.readBits_yields count).map Response.number
  | readByte =>
    have h := (input.readBits_yields 8).map fun value => Response.byte (UInt8.ofNat value)
    rw [perform, readByte]
    cases hr : input.readBits 8 with
    | error e =>
      rw [hr] at h
      exact h
    | ok r =>
      rw [hr] at h
      exact h
  | canReadBytes count =>
    rw [perform, canReadBytes]
    by_cases hc : count ≤ 8
    · have h := (input.canRead_yields (count * 8)).map Response.flag
      rw [if_pos hc, performBits]
      simp only [show count * 8 ≤ 64 by omega, true_and] at h
      simp only [hc, true_implies]
      exact h
    · rw [if_neg hc, performBits]
      simp only [hc, false_implies, decide_true]
      exact ⟨rfl, rfl, rfl⟩
  | payload count => exact (input.readPayload_yields count).map Response.bytes
  | alignToByte => exact ⟨rfl, rfl, input.alignToByte_unread⟩

end CodecBitReader

/-- However the input is cut into nonempty chunks, all operations answer as on one piece. -/
theorem reads_are_chunk_independent (order : BitOrder) {chunks chunks' : List (List UInt8)}
    (h : ∀ chunk ∈ chunks, chunk ≠ []) (h' : ∀ chunk ∈ chunks', chunk ≠ [])
    (heq : chunks.flatten = chunks'.flatten) :
    (∀ requests,
      responses CodecBitReader.perform (.create { chunks := chunks } order) requests =
        responses (performBits order) (orderedBits order chunks.flatten) requests ∧
      responses CodecBitReader.perform (.create { chunks := chunks } order) requests =
        responses CodecBitReader.perform (.create { chunks := chunks' } order) requests) ∧
    (∀ requests,
      responses CodecReader.perform { chunks := chunks } requests =
        responses performBytes chunks.flatten requests ∧
      responses CodecReader.perform { chunks := chunks } requests =
        responses CodecReader.perform { chunks := chunks' } requests) := by
  have bitwise (chunks : List (List UInt8)) (h : ∀ chunk ∈ chunks, chunk ≠ []) (requests) :
      responses CodecBitReader.perform (.create { chunks := chunks } order) requests =
        responses (performBits order) (orderedBits order chunks.flatten) requests := by
    apply responses_simulation
      (R := fun input bits => input.reader.bitOrder = order ∧ input.unread = bits)
    · rintro input bits request ⟨rfl, rfl⟩
      have hy := input.perform_yields request
      exact ⟨hy.answer, hy.order_eq, hy.unread_eq⟩
    · refine ⟨rfl, ?_⟩
      rw [← CodecReader.unread_mk chunks h]
      rfl
  have bytewise (chunks : List (List UInt8)) (h : ∀ chunk ∈ chunks, chunk ≠ []) (requests) :
      responses CodecReader.perform { chunks := chunks } requests =
        responses performBytes chunks.flatten requests := by
    apply responses_simulation (R := fun r bytes => r.unread = bytes)
    · rintro r bytes request rfl
      exact r.perform_unread request
    · exact CodecReader.unread_mk chunks h
  refine ⟨fun requests => ⟨bitwise chunks h requests, ?_⟩,
    fun requests => ⟨bytewise chunks h requests, ?_⟩⟩
  · rw [bitwise chunks h, bitwise chunks' h', heq]
  · rw [bytewise chunks h, bytewise chunks' h', heq]

/-- Two bytes in one chunk and in two. -/
theorem reads_are_chunk_independent_split :
    responses CodecBitReader.perform (.create { chunks := [[0xa5], [0x3c]] } .mostSignificantFirst)
        [.readBits 3, .readBits 7, .alignToByte, .readByte] =
      responses CodecBitReader.perform (.create { chunks := [[0xa5, 0x3c]] } .mostSignificantFirst)
        [.readBits 3, .readBits 7, .alignToByte, .readByte] :=
  ((reads_are_chunk_independent .mostSignificantFirst
    (show ∀ chunk ∈ ([[0xa5], [0x3c]] : List (List UInt8)), chunk ≠ [] by decide)
    (show ∀ chunk ∈ ([[0xa5, 0x3c]] : List (List UInt8)), chunk ≠ [] by decide) rfl).1 _).2

/-- A single portion ends where its chunk ends. -/
theorem portions_follow_chunks :
    ((CodecBitReader.create { chunks := [[1], [2]] } .mostSignificantFirst).readBytes 2).map
        (·.1) = .ok [1] ∧
      ((CodecBitReader.create { chunks := [[1, 2]] } .mostSignificantFirst).readBytes 2).map
        (·.1) = .ok [1, 2] ∧
      ({ chunks := [[1], [2]] } : CodecReader).take.1 = [1] ∧
      ({ chunks := [[1, 2]] } : CodecReader).take.1 = [1, 2] := by
  decide +kernel

end ErbslandCore.Compression
