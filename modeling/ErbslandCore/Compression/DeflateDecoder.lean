import ErbslandCore.Compression.DeflateEncoder
import ErbslandCore.Compression.CodecOutput

namespace ErbslandCore.Compression.Deflate
open Library Mem
set_option autoImplicit true

def cFirstLengthSymbol : Nat := 257
def cLastLengthSymbol : Nat := 285
def cMaximumDistanceSymbol : Nat := 29
def cCodeLengthCount : Nat := 19
def cOrder : List Nat := [16, 17, 18, 0, 8, 7, 9, 6, 10, 5, 11, 4, 12, 3, 13, 2, 14, 1, 15]

/-- The state of the decoder: the compressed bits and the decoded output. -/
structure DeflateDecoder where
  reader : CodecBitReader
  output : CodecOutput

/-- Copy the payload of a stored block in the portions that the reader has buffered. -/
def copyStored (reader : CodecBitReader) (output : CodecOutput) (remaining : Nat) :
    Except CodecError DeflateDecoder :=
  if _hr : remaining ≠ 0 then
    match _h : reader.readBytes remaining with
    | .error e => .error e
    | .ok (bytes, reader) =>
      match output.appendSpan bytes with
      | .error e => .error e
      | .ok output => copyStored reader output (remaining - bytes.length)
  else .ok { reader := reader, output := output }
termination_by remaining
decreasing_by
  have := CodecBitReader.readBytes_progress (Nat.pos_of_ne_zero _hr) _h
  omega

/-- Decode an uncompressed block. -/
def decodeStored (d : DeflateDecoder) : Except CodecError DeflateDecoder := do
  let reader := d.reader.alignToByte
  let (available, reader) ← reader.canReadBytes 4
  if ¬ available then throwMalformed "Deflate stored header is truncated."
  else
    let (length₀, reader) ← reader.readByte
    let (length₁, reader) ← reader.readByte
    let length := length₀.toNat ||| (length₁.toNat <<< 8)
    let (inverse₀, reader) ← reader.readByte
    let (inverse₁, reader) ← reader.readByte
    let inverse := inverse₀.toNat ||| (inverse₁.toNat <<< 8)
    if length ^^^ 0xffff ≠ inverse then throwMalformed "Deflate stored length check failed."
    else
      let (available, reader) ← reader.canReadBytes length
      if ¬ available then throwMalformed "Deflate stored payload is truncated."
      else
        let total ← (ByteLength.finite d.output.length).addedOrThrow (.finite length)
        if total.le d.output.maximum then copyStored reader d.output length
        else .error (.outOfRange "Deflate output exceeds the configured maximum.")

/-- Read the distance of a match of known length and copy the match. -/
def decodeMatch (distanceTable : DeflateHuffmanTable) (reader : CodecBitReader)
    (output : CodecOutput) (length : Nat) : Except CodecError DeflateDecoder := do
  let (distanceSymbol, reader) ← distanceTable.decode reader
  if cMaximumDistanceSymbol < distanceSymbol then
    throwMalformed "Deflate distance symbol is invalid."
  else
    let (extra, reader) ← reader.readBits cDistanceExtra[distanceSymbol]!
    let distance := cDistanceBase[distanceSymbol]! + extra
    if distance = 0 ∨ output.length < distance then
      throwMalformed "Deflate distance exceeds prior output."
    else
      let output ← output.appendRepeated (output.length - distance) length
      return { reader := reader, output := output }

/-- Decode one symbol of a compressed block; the flag tells whether it ended the block. -/
def decodeSymbol (literalTable distanceTable : DeflateHuffmanTable) (d : DeflateDecoder) :
    Except CodecError (Bool × DeflateDecoder) := do
  let (symbol, reader) ← literalTable.decode d.reader
  if symbol < cEndOfBlockSymbol then
    let output ← d.output.append (UInt8.ofNat symbol)
    return (false, { reader := reader, output := output })
  else if symbol = cEndOfBlockSymbol then return (true, { d with reader := reader })
  else if symbol < cFirstLengthSymbol ∨ cLastLengthSymbol < symbol then
    throwMalformed "Deflate length symbol is invalid."
  else
    let lengthIndex := symbol - cFirstLengthSymbol
    let (extra, reader) ← reader.readBits cLengthExtra[lengthIndex]!
    let d ← decodeMatch distanceTable reader d.output (cLengthBase[lengthIndex]! + extra)
    return (false, d)

theorem readBits_le {input input' : CodecBitReader}
    (h : input.readBits n = .ok (value, input')) : input'.bits.length ≤ input.bits.length := by
  by_cases hn : n ≤ 64
  · have := CodecBitReader.readBits_progress h hn
    omega
  · rw [CodecBitReader.readBits, CodecBitReader.canRead, if_pos (by omega)] at h
    cases h

theorem decodeMatch_le {reader : CodecBitReader}
    (h : decodeMatch distanceTable reader output length = .ok d) :
    d.reader.bits.length ≤ reader.bits.length := by
  obtain ⟨⟨symbol, reader₁⟩, h₁, h⟩ := bind_eq_ok h
  simp only at h
  split at h
  case isTrue => cases h
  case isFalse =>
    obtain ⟨⟨extra, reader₂⟩, h₂, h⟩ := bind_eq_ok h
    simp only at h
    split at h
    case isTrue => cases h
    case isFalse =>
      obtain ⟨output', _, h⟩ := bind_eq_ok h
      cases h
      have hs := DeflateHuffmanTable.decode_progress h₁
      have hr := readBits_le h₂
      simp only
      omega

theorem decodeSymbol_progress (h : decodeSymbol literalTable distanceTable d = .ok (last, d')) :
    d'.reader.bits.length < d.reader.bits.length := by
  obtain ⟨⟨symbol, reader⟩, h₁, h⟩ := bind_eq_ok h
  have hs := DeflateHuffmanTable.decode_progress h₁
  simp only at h
  split at h
  case isTrue =>
    obtain ⟨output', _, h⟩ := bind_eq_ok h
    cases h
    exact hs
  case isFalse =>
    split at h
    case isTrue => cases h; exact hs
    case isFalse =>
      split at h
      case isTrue => cases h
      case isFalse =>
        obtain ⟨⟨extra, reader₂⟩, h₂, h⟩ := bind_eq_ok h
        obtain ⟨d₃, h₃, h⟩ := bind_eq_ok h
        cases h
        have hr := readBits_le h₂
        have hm := decodeMatch_le h₃
        simp only at hm
        omega

/-- Decode a block with the supplied literal and distance tables. -/
def decodeCompressed (literalTable distanceTable : DeflateHuffmanTable) (d : DeflateDecoder) :
    Except CodecError DeflateDecoder :=
  match _h : decodeSymbol literalTable distanceTable d with
  | .error e => .error e
  | .ok (true, d) => .ok d
  | .ok (false, d) => decodeCompressed literalTable distanceTable d
termination_by d.reader.bits.length
decreasing_by exact decodeSymbol_progress _h

def readCodeLengths (reader : CodecBitReader) (codeLengths : List Nat) :
    (order : List Nat) → Except CodecError (List Nat × CodecBitReader)
  | [] => .ok (codeLengths, reader)
  | index :: order => do
    let (length, reader) ← reader.readBits 3
    readCodeLengths reader (codeLengths.set index length) order

/-- The value and the number of repetitions of a repeating code-length symbol. -/
def decodeRepeat (symbol : Nat) (lengths : List Nat) (reader : CodecBitReader) :
    Except CodecError (Nat × Nat × CodecBitReader) :=
  if symbol = 16 then
    if lengths = [] then throwMalformed "Deflate repeat has no predecessor."
    else do
      let (repetitions, reader) ← reader.readBits 2
      return (lengths.getLast!, repetitions + 3, reader)
  else if symbol = 17 then do
    let (repetitions, reader) ← reader.readBits 3
    return (0, repetitions + 3, reader)
  else if symbol = 18 then do
    let (repetitions, reader) ← reader.readBits 7
    return (0, repetitions + 11, reader)
  else throwMalformed "Deflate code-length symbol is invalid."

/-- The code lengths that one code-length symbol adds. -/
def decodeLengths (codeTable : DeflateHuffmanTable) (count : Nat) (lengths : List Nat)
    (reader : CodecBitReader) : Except CodecError (List Nat × CodecBitReader) := do
  let (symbol, reader) ← codeTable.decode reader
  if symbol ≤ 15 then return (lengths ++ [symbol], reader)
  else
    let (value, repetitions, reader) ← decodeRepeat symbol lengths reader
    if count - lengths.length < repetitions then
      throwMalformed "Deflate code-length repeat is excessive."
    else return (lengths ++ List.replicate repetitions value, reader)

theorem decodeRepeat_le {reader : CodecBitReader}
    (h : decodeRepeat symbol lengths reader = .ok (value, repetitions, reader')) :
    reader'.bits.length ≤ reader.bits.length := by
  have hread : ∀ {n k v : Nat}, (do
      let (repetitions, reader) ← reader.readBits n
      return (v, repetitions + k, reader)) = Except.ok (value, repetitions, reader') →
      reader'.bits.length ≤ reader.bits.length := by
    intro n k v h
    obtain ⟨⟨r, reader₁⟩, h₁, h⟩ := bind_eq_ok h
    cases h
    exact readBits_le h₁
  unfold decodeRepeat at h
  split at h
  case isTrue =>
    split at h
    case isTrue => cases h
    case isFalse => exact hread h
  case isFalse =>
    split at h
    case isTrue => exact hread h
    case isFalse =>
      split at h
      case isTrue => exact hread h
      case isFalse => cases h

theorem decodeLengths_progress {reader : CodecBitReader}
    (h : decodeLengths codeTable count lengths reader = .ok (lengths', reader')) :
    reader'.bits.length < reader.bits.length := by
  obtain ⟨⟨symbol, reader₁⟩, h₁, h⟩ := bind_eq_ok h
  have hs := DeflateHuffmanTable.decode_progress h₁
  simp only at h
  split at h
  case isTrue => cases h; exact hs
  case isFalse =>
    obtain ⟨⟨value, repetitions, reader₂⟩, h₂, h⟩ := bind_eq_ok h
    have hr := decodeRepeat_le h₂
    simp only at h
    split at h
    case isTrue => cases h
    case isFalse =>
      cases h
      omega

def decodeLengthsLoop (codeTable : DeflateHuffmanTable) (count : Nat) (lengths : List Nat)
    (reader : CodecBitReader) : Except CodecError (List Nat × CodecBitReader) :=
  if lengths.length < count then
    match _h : decodeLengths codeTable count lengths reader with
    | .error e => .error e
    | .ok (lengths, reader) => decodeLengthsLoop codeTable count lengths reader
  else .ok (lengths, reader)
termination_by reader.bits.length
decreasing_by exact decodeLengths_progress _h

/-- Read the tables of a dynamic-Huffman block and decode it. -/
def decodeDynamic (d : DeflateDecoder) : Except CodecError DeflateDecoder := do
  let (literals, reader) ← d.reader.readBits 5
  let (distances, reader) ← reader.readBits 5
  let (codes, reader) ← reader.readBits 4
  let literalCount := literals + 257
  let distanceCount := distances + 1
  let (codeLengths, reader) ← readCodeLengths reader (List.replicate cCodeLengthCount 0)
    (cOrder.take (codes + 4))
  let codeTable ← DeflateHuffmanTable.create codeLengths
  let (lengths, reader) ← decodeLengthsLoop codeTable (literalCount + distanceCount) [] reader
  let literalLengths := lengths.take literalCount
  let distanceLengths := lengths.drop literalCount
  if literalLengths.length ≤ cEndOfBlockSymbol ∨ literalLengths[cEndOfBlockSymbol]! = 0 then
    throwMalformed "Deflate tree has no end-of-block code."
  else
    let distanceLengths :=
      if distanceLengths.all (· = 0) then distanceLengths.set 0 1 else distanceLengths
    let literalTable ← DeflateHuffmanTable.create literalLengths
    let distanceTable ← DeflateHuffmanTable.create distanceLengths
    decodeCompressed literalTable distanceTable { d with reader := reader }

theorem canRead_le {input input' : CodecBitReader} (h : input.canRead n = .ok (b, input')) :
    input'.bits.length = input.bits.length := by
  by_cases hn : n ≤ 64
  · obtain ⟨next, hr, hb, _⟩ := input.canRead_spec n hn
    rw [hr] at h
    cases h
    rw [hb]
  · rw [CodecBitReader.canRead, if_pos (by omega)] at h
    cases h
    rfl

theorem canReadBytes_le {input input' : CodecBitReader}
    (h : input.canReadBytes n = .ok (b, input')) : input'.bits.length = input.bits.length := by
  unfold CodecBitReader.canReadBytes at h
  split at h
  case isTrue => exact canRead_le h
  case isFalse => cases h; rfl

theorem readByte_le {input input' : CodecBitReader} (h : input.readByte = .ok (b, input')) :
    input'.bits.length ≤ input.bits.length := by
  obtain ⟨⟨value, next⟩, hr, h⟩ := bind_eq_ok h
  cases h
  exact readBits_le hr

theorem readBytes_le {input input' : CodecBitReader}
    (h : input.readBytes n = .ok (bytes, input')) : input'.bits.length ≤ input.bits.length := by
  unfold CodecBitReader.readBytes at h
  split at h
  case isTrue => cases h; exact Nat.le_refl _
  case isFalse =>
    obtain ⟨⟨available, next⟩, hc, h⟩ := bind_eq_ok h
    have hb := canRead_le hc
    simp only at h
    split at h
    case isFalse => cases h
    case isTrue =>
      obtain ⟨⟨part, reader⟩, hr, h⟩ := bind_eq_ok h
      cases h
      have hl := BitReader.readBytesOrThrow_bits_length (fromMem_eq_ok hr)
      rw [← hb]
      simp only [CodecBitReader.bits, List.length_append]
      omega

theorem alignToByte_le (input : CodecBitReader) :
    input.alignToByte.bits.length ≤ input.bits.length := by
  simp only [CodecBitReader.alignToByte, CodecBitReader.bits, BitReader.alignToByte_bits,
    List.length_append, List.length_drop]
  omega

theorem copyStored_le {reader : CodecBitReader} {remaining : Nat} (h : copyStored reader output remaining = .ok d) :
    d.reader.bits.length ≤ reader.bits.length := by
  induction hn : remaining using Nat.strong_induction_on generalizing reader output remaining with
  | _ n ih =>
    subst hn
    rw [copyStored] at h
    split at h
    case isFalse => cases h; exact Nat.le_refl _
    case isTrue hr =>
      split at h
      case h_1 => cases h
      case h_2 bytes reader' hb =>
        split at h
        case h_1 => cases h
        case h_2 output' _ =>
          have hp := CodecBitReader.readBytes_progress (Nat.pos_of_ne_zero hr) hb
          exact Nat.le_trans (ih _ (by omega) h rfl) (readBytes_le hb)

theorem decodeStored_le (h : decodeStored d = .ok d') :
    d'.reader.bits.length ≤ d.reader.bits.length := by
  obtain ⟨⟨a, r₀⟩, h₀, h⟩ := bind_eq_ok h
  simp only at h
  split at h
  case isTrue => cases h
  case isFalse =>
    obtain ⟨⟨l₀, r₁⟩, h₁, h⟩ := bind_eq_ok h
    obtain ⟨⟨l₁, r₂⟩, h₂, h⟩ := bind_eq_ok h
    obtain ⟨⟨i₀, r₃⟩, h₃, h⟩ := bind_eq_ok h
    obtain ⟨⟨i₁, r₄⟩, h₄, h⟩ := bind_eq_ok h
    simp only at h
    split at h
    case isTrue => cases h
    case isFalse =>
      obtain ⟨⟨a', r₅⟩, h₅, h⟩ := bind_eq_ok h
      simp only at h
      split at h
      case isTrue => cases h
      case isFalse =>
        obtain ⟨total, _, h⟩ := bind_eq_ok h
        split at h
        case isFalse => cases h
        case isTrue =>
          have ha := alignToByte_le d.reader
          have hc := copyStored_le h
          have e₀ := canReadBytes_le h₀
          have e₁ := readByte_le h₁
          have e₂ := readByte_le h₂
          have e₃ := readByte_le h₃
          have e₄ := readByte_le h₄
          have e₅ := canReadBytes_le h₅
          simp only at e₀ e₁ e₂ e₃ e₄ e₅
          omega

theorem decodeCompressed_le (h : decodeCompressed literalTable distanceTable d = .ok d') :
    d'.reader.bits.length ≤ d.reader.bits.length := by
  induction hn : d.reader.bits.length using Nat.strong_induction_on generalizing d with
  | _ n ih =>
    subst hn
    rw [decodeCompressed] at h
    split at h
    case h_1 => cases h
    case h_2 d₁ hs =>
      cases h
      exact Nat.le_of_lt (decodeSymbol_progress hs)
    case h_3 d₁ hs =>
      have hp := decodeSymbol_progress hs
      exact Nat.le_trans (ih _ hp h rfl) (Nat.le_of_lt hp)

theorem readCodeLengths_le {reader : CodecBitReader}
    (h : readCodeLengths reader codeLengths order = .ok (codeLengths', reader')) :
    reader'.bits.length ≤ reader.bits.length := by
  induction order generalizing reader codeLengths with
  | nil => cases h; exact Nat.le_refl _
  | cons index order ih =>
    obtain ⟨⟨length, reader₁⟩, h₁, h⟩ := bind_eq_ok h
    exact Nat.le_trans (ih h) (readBits_le h₁)

theorem decodeLengthsLoop_le {reader : CodecBitReader}
    (h : decodeLengthsLoop codeTable count lengths reader = .ok (lengths', reader')) :
    reader'.bits.length ≤ reader.bits.length := by
  induction hn : reader.bits.length using Nat.strong_induction_on generalizing reader lengths with
  | _ n ih =>
    subst hn
    rw [decodeLengthsLoop] at h
    split at h
    case isFalse => cases h; exact Nat.le_refl _
    case isTrue =>
      split at h
      case h_1 => cases h
      case h_2 lengths₁ reader₁ h₁ =>
        have hp := decodeLengths_progress h₁
        exact Nat.le_trans (ih _ hp h rfl) (Nat.le_of_lt hp)

theorem decodeDynamic_le (h : decodeDynamic d = .ok d') :
    d'.reader.bits.length ≤ d.reader.bits.length := by
  obtain ⟨⟨literals, r₁⟩, h₁, h⟩ := bind_eq_ok h
  obtain ⟨⟨distances, r₂⟩, h₂, h⟩ := bind_eq_ok h
  obtain ⟨⟨codes, r₃⟩, h₃, h⟩ := bind_eq_ok h
  obtain ⟨⟨codeLengths, r₄⟩, h₄, h⟩ := bind_eq_ok h
  obtain ⟨codeTable, _, h⟩ := bind_eq_ok h
  obtain ⟨⟨lengths, r₅⟩, h₅, h⟩ := bind_eq_ok h
  simp only at h
  split at h
  case isTrue => cases h
  case isFalse =>
    obtain ⟨literalTable, _, h⟩ := bind_eq_ok h
    obtain ⟨distanceTable, _, h⟩ := bind_eq_ok h
    have hc := decodeCompressed_le h
    have e₁ := readBits_le h₁
    have e₂ := readBits_le h₂
    have e₃ := readBits_le h₃
    have e₄ := readCodeLengths_le h₄
    have e₅ := decodeLengthsLoop_le h₅
    simp only at hc e₁ e₂ e₃ e₄ e₅
    omega

/-- Decode the body of a block of the given type. -/
def decodeBody (type : Nat) (d : DeflateDecoder) : Except CodecError DeflateDecoder :=
  if type = 0 then decodeStored d
  else if type = 1 then do
    let literalTable ← fixedLiteralTable
    let distanceTable ← fixedDistanceTable
    decodeCompressed literalTable distanceTable d
  else if type = 2 then decodeDynamic d
  else throwMalformed "Deflate block type is reserved."

/-- Decode one block; the flag tells whether it was the final one. -/
def decodeBlock (d : DeflateDecoder) : Except CodecError (Bool × DeflateDecoder) := do
  let (final, reader) ← d.reader.readBits 1
  let (type, reader) ← reader.readBits 2
  let d ← decodeBody type { d with reader := reader }
  return (final ≠ 0, d)

theorem decodeBody_le (h : decodeBody type d = .ok d') :
    d'.reader.bits.length ≤ d.reader.bits.length := by
  unfold decodeBody at h
  split at h
  case isTrue => exact decodeStored_le h
  case isFalse =>
    split at h
    case isTrue =>
      obtain ⟨literalTable, _, h⟩ := bind_eq_ok h
      obtain ⟨distanceTable, _, h⟩ := bind_eq_ok h
      exact decodeCompressed_le h
    case isFalse =>
      split at h
      case isTrue => exact decodeDynamic_le h
      case isFalse => cases h

theorem decodeBlock_progress (h : decodeBlock d = .ok (final, d')) :
    d'.reader.bits.length < d.reader.bits.length := by
  obtain ⟨⟨value, r₁⟩, h₁, h⟩ := bind_eq_ok h
  obtain ⟨⟨type, r₂⟩, h₂, h⟩ := bind_eq_ok h
  obtain ⟨d₃, h₃, h⟩ := bind_eq_ok h
  cases h
  have e₁ := CodecBitReader.readBits_progress h₁ (by omega)
  have e₂ := CodecBitReader.readBits_progress h₂ (by omega)
  have e₃ := decodeBody_le h₃
  simp only at e₂ e₃
  omega

def decodeBlocks (d : DeflateDecoder) : Except CodecError DeflateDecoder :=
  match _h : decodeBlock d with
  | .error e => .error e
  | .ok (true, d) => .ok d
  | .ok (false, d) => decodeBlocks d
termination_by d.reader.bits.length
decreasing_by exact decodeBlock_progress _h

/-- Decode and validate the complete payload. -/
def decode (source : CodecReader) (options : DecompressionOptions) :
    Except CodecError DeflateDecoder := do
  let d ← decodeBlocks {
    reader := CodecBitReader.create source .leastSignificantFirst
    output := CodecOutput.create 32768 options.maximumOutputLength }
  let reader ← d.reader.requireEnd
  if options.expectedOutputLength.any (· ≠ .finite d.output.length) then
    .error (.compression .lengthMismatch "Deflate output length does not match.")
  else return { reader := reader, output := d.output.flush }

end ErbslandCore.Compression.Deflate
