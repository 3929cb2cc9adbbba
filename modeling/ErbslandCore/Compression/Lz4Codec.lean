import ErbslandCore.Compression.Codec

namespace ErbslandCore.Compression.Lz4
open Library Mem
set_option autoImplicit true

def cMinimumMatchLength : Nat := 4
def cHashTableSize : Nat := 2 ^ 16
def cHashMultiplier : Nat := 2654435761
def cMaximumOffset : Nat := 65535
def cLengthNibbleMaximum : Nat := 15
def cLengthExtensionMaximum : Nat := 255
def cLastLiteralLength : Nat := 5
def cLastMatchStartDistance : Nat := 12

/-- Match-search depth for each compression level. -/
def searchDepth : CompressionLevel → Nat
  | .fastest => 1
  | .fast => 4
  | .default => 16
  | .high => 64
  | .highest => 256

/-- Levels from `High` on look one position ahead before they accept a match. -/
def looksAhead : CompressionLevel → Bool
  | .high => true
  | .highest => true
  | _ => false

def readUInt32 (data : List UInt8) (index : Nat) : Nat :=
  data[index]!.toNat ||| (data[index + 1]!.toNat <<< 8) |||
    (data[index + 2]!.toNat <<< 16) ||| (data[index + 3]!.toNat <<< 24)

def hashSequence (value : Nat) : Nat :=
  (value * cHashMultiplier % 2 ^ 32) >>> 16

def appendExtendedLength (output : List UInt8) (length : Nat) : List UInt8 :=
  if cLengthExtensionMaximum ≤ length then
    appendExtendedLength (output ++ [UInt8.ofNat cLengthExtensionMaximum])
      (length - cLengthExtensionMaximum)
  else output ++ [UInt8.ofNat length]
termination_by length
decreasing_by simp only [cLengthExtensionMaximum] at *; omega

def appendSequence (output input : List UInt8) (literalBegin literalLength matchOffset
    matchLength : Nat) (hasMatch : Bool) : List UInt8 :=
  let tokenIndex := output.length
  let output := output ++ [0]
  let literalToken := min literalLength cLengthNibbleMaximum
  let matchToken :=
    if hasMatch then min (matchLength - cMinimumMatchLength) cLengthNibbleMaximum else 0
  let output := output.set tokenIndex (UInt8.ofNat ((literalToken <<< 4) ||| matchToken))
  let output :=
    if cLengthNibbleMaximum ≤ literalLength then
      appendExtendedLength output (literalLength - cLengthNibbleMaximum)
    else output
  let output := output ++ (input.drop literalBegin).take literalLength
  if hasMatch then
    let output := output ++ [UInt8.ofNat matchOffset, UInt8.ofNat (matchOffset >>> 8)]
    if cLengthNibbleMaximum ≤ matchLength - cMinimumMatchLength then
      appendExtendedLength output (matchLength - cMinimumMatchLength - cLengthNibbleMaximum)
    else output
  else output

/-- Extend a match of known length while the next bytes agree. -/
def extendMatch (input : List UInt8) (candidate position matchLength maximumMatchLength : Nat) :
    Nat :=
  if matchLength < maximumMatchLength ∧
      input[candidate + matchLength]! = input[position + matchLength]! then
    extendMatch input candidate position (matchLength + 1) maximumMatchLength
  else matchLength
termination_by maximumMatchLength - matchLength

/-- Read the link of a position in the search chain, `none` for `cNoPosition`. -/
def chainIndex (previous : Array (Option Nat)) (position : Nat) : Nat :=
  if position < previous.size then position else position &&& cMaximumOffset

/-- Walk the chain for `attempts` candidates and keep the longest match and its offset. -/
def findMatchLoop (input : List UInt8) (position : Nat) (previous : Array (Option Nat))
    (bestLength bestOffset : Nat) : (attempts : Nat) → (candidate : Option Nat) → Nat × Nat
  | 0, _ => (bestLength, bestOffset)
  | _ + 1, none => (bestLength, bestOffset)
  | attempts + 1, some candidate =>
    if position ≤ candidate ∨ cMaximumOffset < position - candidate then (bestLength, bestOffset)
    else
      let next := previous[chainIndex previous candidate]!
      if candidate + cMinimumMatchLength ≤ input.length ∧
          readUInt32 input candidate = readUInt32 input position then
        let matchLength := extendMatch input candidate position cMinimumMatchLength
          (input.length - cLastLiteralLength - position)
        if bestLength < matchLength then
          findMatchLoop input position previous matchLength (position - candidate) attempts next
        else findMatchLoop input position previous bestLength bestOffset attempts next
      else findMatchLoop input position previous bestLength bestOffset attempts next

def findMatch (input : List UInt8) (position : Nat) (candidate : Option Nat)
    (previous : Array (Option Nat)) (depth : Nat) : Nat × Nat :=
  findMatchLoop input position previous 0 0 depth candidate

/-- The hash table of latest positions and the links to earlier positions of one hash. -/
structure SearchTables where
  table : Array (Option Nat)
  previous : Array (Option Nat)

def SearchTables.create (input : List UInt8) : SearchTables :=
  { table := Array.replicate cHashTableSize none
    previous := Array.replicate (min input.length (cMaximumOffset + 1)) none }

/-- The latest position with the hash of the four bytes at a position. -/
def SearchTables.candidate (search : SearchTables) (input : List UInt8) (position : Nat) :
    Option Nat :=
  search.table[hashSequence (readUInt32 input position)]!

/-- Enter a position into the hash table and the chain. -/
def SearchTables.insert (search : SearchTables) (input : List UInt8) (position : Nat) :
    SearchTables :=
  { table := search.table.set! (hashSequence (readUInt32 input position)) (some position)
    previous := search.previous.set! (chainIndex search.previous position)
      (search.candidate input position) }

/-- Whether the one-step look-ahead of the higher levels finds a match worth waiting for. -/
def prefersNext (level : CompressionLevel) (input : List UInt8) (search : SearchTables)
    (position bestLength : Nat) : Bool :=
  looksAhead level &&
    decide (position + 1 + cLastMatchStartDistance ≤ input.length) &&
      decide (bestLength + 1 < (findMatch input (position + 1)
        (search.candidate input (position + 1)) search.previous (searchDepth level)).1)

/-- The sequences up to the last match, with the position after it. -/
def compressLoop (level : CompressionLevel) (input : List UInt8) (search : SearchTables)
    (anchor position : Nat) (output : List UInt8) : Nat × List UInt8 :=
  if position + cLastMatchStartDistance ≤ input.length then
    let candidate := search.candidate input position
    let search := search.insert input position
    let best := findMatch input position candidate search.previous (searchDepth level)
    if best.1 < cMinimumMatchLength then
      compressLoop level input search anchor (position + 1) output
    else if prefersNext level input search position best.1 then
      compressLoop level input search anchor (position + 1) output
    else
      compressLoop level input search (position + best.1) (position + best.1)
        (appendSequence output input anchor (position - anchor) best.2 best.1 true)
  else (anchor, output)
termination_by input.length - position
decreasing_by
  all_goals simp only [cLastMatchStartDistance, cMinimumMatchLength] at *
  · omega
  · omega
  · change input.length - (position + best.1) < _
    omega

def compressBlock (level : CompressionLevel) (input : List UInt8) : List UInt8 :=
  let last := compressLoop level input (SearchTables.create input) 0 0 []
  appendSequence last.2 input last.1 (input.length - last.1) 0 0 false

def readExtendedLength (input : List UInt8) (position length : Nat) :
    Except CodecError (Nat × Nat) :=
  if h : position < input.length then
    let value := input[position].toNat
    if cSizeMaximum - value < length then
      throwMalformed "LZ4 length exceeds the supported range."
    else if value = cLengthExtensionMaximum then
      readExtendedLength input (position + 1) (length + value)
    else .ok (position + 1, length + value)
  else throwMalformed "LZ4 length extension is truncated."
termination_by input.length - position

/-- A length whose token nibble is full continues in extension bytes. -/
def readLength (input : List UInt8) (position nibble length : Nat) :
    Except CodecError (Nat × Nat) :=
  if nibble = cLengthNibbleMaximum then readExtendedLength input position length
  else .ok (position, length)

/-- The match half of one sequence: offset, length and the copy from prior output. -/
def decompressMatch (input : List UInt8) (outputSize token inputPosition : Nat)
    (output : List UInt8) : Except CodecError (Nat × List UInt8) :=
  if input.length - inputPosition < 2 then throwMalformed "LZ4 match offset is truncated."
  else
    let offset := input[inputPosition]!.toNat ||| (input[inputPosition + 1]!.toNat <<< 8)
    if offset = 0 ∨ output.length < offset then throwMalformed "LZ4 match offset is invalid."
    else do
      let (inputPosition, matchLength) ← readLength input (inputPosition + 2) (token &&& 0x0f)
        ((token &&& 0x0f) + cMinimumMatchLength)
      if outputSize - output.length < matchLength then
        throwMalformed "LZ4 match exceeds the expected output length."
      else do
        let output ← appendRepeatedOrThrow output (output.length - offset) offset matchLength
        return (inputPosition, output)

/-- One sequence of the block. The next input position is `none` after the final literals. -/
def decompressSequence (input : List UInt8) (outputSize inputPosition : Nat)
    (output : List UInt8) : Except CodecError (Option Nat × List UInt8) := do
  let token := input[inputPosition]!.toNat
  let (inputPosition, literalLength) ← readLength input (inputPosition + 1) (token >>> 4)
    (token >>> 4)
  if input.length - inputPosition < literalLength ∨
      outputSize - output.length < literalLength then
    throwMalformed "LZ4 literal sequence exceeds its input or output."
  else
    let output := output ++ (input.drop inputPosition).take literalLength
    let inputPosition := inputPosition + literalLength
    if inputPosition = input.length then
      if token &&& 0x0f ≠ 0 then throwMalformed "LZ4 final literal sequence has match bits."
      else return (none, output)
    else do
      let (inputPosition, output) ← decompressMatch input outputSize token inputPosition output
      return (some inputPosition, output)

theorem readExtendedLength_progress {input : List UInt8}
    (h : readExtendedLength input position length = .ok (position', length')) :
    position < position' := by
  fun_induction readExtendedLength input position length with
  | case1 => cases h
  | case2 position length hp value hv he ih => exact Nat.lt_of_succ_lt (ih h)
  | case3 => cases h; exact Nat.lt_succ_self _
  | case4 => cases h

theorem readLength_progress {input : List UInt8}
    (h : readLength input position nibble length = .ok (position', length')) :
    position ≤ position' := by
  unfold readLength at h
  split at h
  · exact Nat.le_of_lt (readExtendedLength_progress h)
  · cases h; exact Nat.le_refl _

theorem decompressMatch_progress {input output : List UInt8}
    (h : decompressMatch input outputSize token position output = .ok (position', output')) :
    position < position' := by
  unfold decompressMatch at h
  split at h
  · cases h
  · simp only at h
    split at h
    · cases h
    · obtain ⟨⟨p, l⟩, hr, h⟩ := bind_eq_ok h
      split at h
      · cases h
      · obtain ⟨out, _, h⟩ := bind_eq_ok h
        cases h
        have := readLength_progress hr
        omega

theorem decompressSequence_progress {input output : List UInt8}
    (h : decompressSequence input outputSize position output = .ok (some position', output')) :
    position < position' := by
  obtain ⟨⟨p, l⟩, hr, h⟩ := bind_eq_ok h
  simp only at h
  split at h
  · cases h
  · split at h
    · split at h <;> cases h
    · obtain ⟨⟨q, out⟩, hm, h⟩ := bind_eq_ok h
      cases h
      have h₁ := readLength_progress hr
      have h₂ := decompressMatch_progress hm
      omega

def decompressLoop (input : List UInt8) (outputSize inputPosition : Nat)
    (output : List UInt8) : Except CodecError (List UInt8) :=
  if inputPosition < input.length then
    match _h : decompressSequence input outputSize inputPosition output with
    | .error e => .error e
    | .ok (none, output) => .ok output
    | .ok (some inputPosition, output) => decompressLoop input outputSize inputPosition output
  else .ok output
termination_by input.length - inputPosition
decreasing_by
  have := decompressSequence_progress _h
  omega

def decompressBlock (input : List UInt8) (options : DecompressionOptions) :
    Except CodecError (List UInt8) :=
  match options.expectedOutputLength with
  | some (.finite outputSize) =>
    if input = [] then throwMalformed "LZ4 block is empty."
    else do
      let output ← decompressLoop input outputSize 0 []
      if output.length ≠ outputSize then
        .error (.compression .lengthMismatch
          "LZ4 output does not match the expected length.")
      else return output
  | _ => .error (.compression .lengthMismatch "Original length must be finite.")

end ErbslandCore.Compression.Lz4
