import ErbslandCore.Compression.DeflateHuffmanTable

namespace ErbslandCore.Compression.Deflate
open Library Mem
set_option autoImplicit true

/-- Base length for symbols 257 through 285. -/
def cLengthBase : List Nat :=
  [3, 4, 5, 6, 7, 8, 9, 10, 11, 13, 15, 17, 19, 23, 27, 31, 35, 43, 51, 59, 67, 83, 99, 115, 131,
    163, 195, 227, 258]

def cLengthExtra : List Nat :=
  [0, 0, 0, 0, 0, 0, 0, 0, 1, 1, 1, 1, 2, 2, 2, 2, 3, 3, 3, 3, 4, 4, 4, 4, 5, 5, 5, 5, 0]

/-- Base distance for symbols zero through 29. -/
def cDistanceBase : List Nat :=
  [1, 2, 3, 4, 5, 7, 9, 13, 17, 25, 33, 49, 65, 97, 129, 193, 257, 385, 513, 769, 1025, 1537, 2049,
    3073, 4097, 6145, 8193, 12289, 16385, 24577]

def cDistanceExtra : List Nat :=
  [0, 0, 0, 0, 1, 1, 2, 2, 3, 3, 4, 4, 5, 5, 6, 6, 7, 7, 8, 8, 9, 9, 10, 10, 11, 11, 12, 12, 13, 13]

def cMinimumMatchLength : Nat := 3
def cMaximumMatchLength : Nat := 258
def cMaximumMatchDistance : Nat := 32768
def cChainTableSize : Nat := 65536
def cHashTableSize : Nat := 32768
def cHashMultiplier : Nat := 2654435761
def cEndOfBlockSymbol : Nat := 256
def cMaximumStoredLength : Nat := 65535

/-- The canonical fixed code and length for a symbol. -/
def fixedCode (symbol : Nat) : Nat × Nat :=
  if symbol ≤ 143 then (0x30 + symbol, 8)
  else if symbol ≤ 255 then (0x190 + symbol - 144, 9)
  else if symbol ≤ 279 then (symbol - 256, 7)
  else (0xc0 + symbol - 280, 8)

def writeFixedSymbol (w : BitWriter) (symbol : Nat) : Except MemError BitWriter :=
  let code := fixedCode symbol
  w.writeBits (reverseBits code.1 code.2) code.2

/-- The match-chain search depth for each level. -/
def chainDepth : CompressionLevel → Nat
  | .fastest => 0
  | .fast => 4
  | .default => 16
  | .high => 64
  | .highest => 256

/-- Hash a three-byte sequence for match lookup. -/
def hash (input : List UInt8) (position : Nat) : Nat :=
  let value := (input[position]!.toNat <<< 16) ||| (input[position + 1]!.toNat <<< 8) |||
    input[position + 2]!.toNat
  (value * cHashMultiplier % 2 ^ 32) >>> 17

def writeLengthFrom (w : BitWriter) (length index : Nat) : Except MemError BitWriter :=
  if index < cLengthBase.length then
    let maximum :=
      if index + 1 < cLengthBase.length then cLengthBase[index + 1]! - 1 else cMaximumMatchLength
    if length ≤ maximum then do
      let w ← writeFixedSymbol w (257 + index)
      w.writeBits (length - cLengthBase[index]!) cLengthExtra[index]!
    else writeLengthFrom w length (index + 1)
  else .ok w
termination_by cLengthBase.length - index

/-- Write a length symbol and its extra bits. -/
def writeLength (w : BitWriter) (length : Nat) : Except MemError BitWriter :=
  writeLengthFrom w length 0

def writeDistanceFrom (w : BitWriter) (distance index : Nat) : Except MemError BitWriter :=
  if index < cDistanceBase.length then
    let maximum := cDistanceBase[index]! + ((1 <<< cDistanceExtra[index]!) - 1)
    if distance ≤ maximum then do
      let w ← w.writeBits (reverseBits index 5) 5
      w.writeBits (distance - cDistanceBase[index]!) cDistanceExtra[index]!
    else writeDistanceFrom w distance (index + 1)
  else .ok w
termination_by cDistanceBase.length - index

/-- Write a distance symbol and its extra bits. -/
def writeDistance (w : BitWriter) (distance : Nat) : Except MemError BitWriter :=
  writeDistanceFrom w distance 0

/-- The latest position of every hash and the circular table of links to earlier positions. -/
structure MatchTables where
  head : Array (Option Nat)
  previous : Array (Option Nat)

def MatchTables.create (input : List UInt8) : MatchTables :=
  { head := Array.replicate cHashTableSize none
    previous := Array.replicate (min input.length cChainTableSize) none }

/-- Link a position to the latest one with its hash. -/
def MatchTables.insert (tables : MatchTables) (input : List UInt8) (position : Nat) :
    MatchTables :=
  let h := hash input position
  { head := tables.head.set! h (some position)
    previous := tables.previous.set! (position &&& (cChainTableSize - 1)) tables.head[h]! }

/-- Link the positions from `first` on that lie before `last` and start a full hash. -/
def MatchTables.insertRange (tables : MatchTables) (input : List UInt8) (first last : Nat) :
    MatchTables :=
  if first < last ∧ first + cMinimumMatchLength ≤ input.length then
    (tables.insert input first).insertRange input (first + 1) last
  else tables
termination_by last - first

def matchLength (input : List UInt8) (candidate position length maximum : Nat) : Nat :=
  if length < maximum ∧ input[candidate + length]! = input[position + length]! then
    matchLength input candidate position (length + 1) maximum
  else length
termination_by maximum - length

/-- Walk the chain for `depth` candidates and keep the longest match and its distance. -/
def searchChain (input : List UInt8) (position : Nat) (previous : Array (Option Nat))
    (best : Nat × Nat) : (depth : Nat) → (candidate : Option Nat) → Nat × Nat
  | 0, _ => best
  | _ + 1, none => best
  | depth + 1, some candidate =>
    -- A later candidate would wrap the unsigned difference beyond the window.
    if position < candidate ∨ cMaximumMatchDistance < position - candidate then best
    else
      let maximum := min cMaximumMatchLength (input.length - position)
      let length := matchLength input candidate position 0 maximum
      let best :=
        if cMinimumMatchLength ≤ length ∧ best.1 < length then (length, position - candidate)
        else best
      searchChain input position previous best depth
        previous[candidate &&& (cChainTableSize - 1)]!

/-- The best match at a position, with the position entered into the tables. -/
def findMatch (level : CompressionLevel) (input : List UInt8) (position : Nat)
    (tables : MatchTables) : (Nat × Nat) × MatchTables :=
  if position + cMinimumMatchLength ≤ input.length then
    let candidate := tables.head[hash input position]!
    let tables := tables.insert input position
    (searchChain input position tables.previous (0, 0) (chainDepth level) candidate, tables)
  else ((0, 0), tables)

def encodeLoop (level : CompressionLevel) (input : List UInt8) (tables : MatchTables)
    (position : Nat) (w : BitWriter) : Except MemError BitWriter :=
  if position < input.length then
    let found := findMatch level input position tables
    if found.1.1 < cMinimumMatchLength then
      match writeFixedSymbol w input[position]!.toNat with
      | .error e => .error e
      | .ok w => encodeLoop level input found.2 (position + 1) w
    else
      match writeLength w found.1.1 with
      | .error e => .error e
      | .ok w =>
        match writeDistance w found.1.2 with
        | .error e => .error e
        | .ok w =>
          encodeLoop level input
            (found.2.insertRange input (position + 1) (position + found.1.1))
            (position + found.1.1) w
  else .ok w
termination_by input.length - position
decreasing_by
  · omega
  · rename_i h
    simp only [cMinimumMatchLength] at h
    change input.length - (position + found.1.1) < _
    omega

/-- Encode the input from `start` with fixed Huffman codes; the bytes before it are history. -/
def encodeFixed (level : CompressionLevel) (input : List UInt8) (start : Nat) (final : Bool)
    (w : BitWriter) : Except MemError BitWriter := do
  let w ← w.writeBits (if final then 1 else 0) 1
  let w ← w.writeBits 1 2
  let tables := (MatchTables.create input).insertRange input 0 start
  let w ← encodeLoop level input tables start w
  writeFixedSymbol w cEndOfBlockSymbol

/-- Write an empty stored block, which ends at a byte boundary. -/
def writeEmptyStored (final : Bool) (w : BitWriter) : Except MemError BitWriter := do
  let w ← w.writeBits (if final then 1 else 0) 3
  let w ← w.alignToByte
  let w ← w.writeBits 0 16
  w.writeBits 65535 16

def writeStored (block : List UInt8) (final : Bool) (w : BitWriter) :
    Except MemError BitWriter := do
  let w ← w.writeBits (if final then 1 else 0) 3
  let w ← w.alignToByte
  let w ← w.writeBits block.length 16
  let w ← w.writeBits (block.length ^^^ 65535) 16
  w.writeBytes block

/-- The compressed form of a block, ended at a byte boundary unless it is the final one. -/
def encodeCompressed (level : CompressionLevel) (input : List UInt8) (start : Nat) (final : Bool)
    (w : BitWriter) : Except MemError BitWriter :=
  if level = .fastest then .ok w
  else do
    let w ← encodeFixed level input start final w
    -- An empty stored block aligns the next bounded block without ending the stream.
    if final then return w else writeEmptyStored false w

/-- Encode one bounded block in the shorter of the two forms. -/
def encodeBlock (level : CompressionLevel) (input : List UInt8) (start : Nat)
    (block : List UInt8) (final : Bool) (w : BitWriter) : Except MemError BitWriter := do
  let w ← encodeCompressed level input start final w.reset
  if level = .fastest ∨ block.length + 5 < w.byteCount then writeStored block final w.reset
  else return w

/-- Take the complete bytes out of the writer and keep the partial bits. -/
def drain (w : BitWriter) (final : Bool) : Except MemError (List UInt8 × BitWriter) :=
  let bits := w.bitCount
  let (data, w) := w.takeByteBlockEditor
  let whole := bits / 8
  let remainder := bits % 8
  let output := data.take (if final then (bits + 7) / 8 else whole)
  if ¬ final ∧ remainder ≠ 0 then do
    let value := data[whole]!.toNat
    let value := match w.bitOrder with
      | .mostSignificantFirst => value >>> (8 - remainder)
      | .leastSignificantFirst => value
    let w ← w.writeBits value remainder
    return (output, w)
  else .ok (output, w)

def encodeStreamLoop (level : CompressionLevel) (input : CodecReader) (history : List UInt8)
    (w : BitWriter) (written : List (List UInt8)) : Except MemError (List (List UInt8)) :=
  match _h : input.atEnd with
  | (true, _) => do
    let w ← writeEmptyStored true w.reset
    let (output, _) ← drain w true
    return written ++ [output]
  | (false, input) =>
    let block := (input.block cMaximumStoredLength).1
    let next := (input.block cMaximumStoredLength).2.atEnd
    match encodeBlock level (history ++ block) history.length block next.1 w with
    | .error e => .error e
    | .ok w =>
      match drain w next.1 with
      | .error e => .error e
      | .ok (output, w) =>
        if next.1 then .ok (written ++ [output])
        else
          let history := history ++ block
          let removed := history.length - min history.length cMaximumMatchDistance
          encodeStreamLoop level next.2 (history.drop removed) w (written ++ [output])
termination_by input.unread.length
decreasing_by
  obtain ⟨hne, hu⟩ := CodecReader.unread_of_not_atEnd _h
  have hb := (input.block_spec cMaximumStoredLength).2
  have hp := List.length_pos_iff.mpr hne
  change next.2.unread.length < _
  rw [CodecReader.atEnd_unread, hb, List.length_drop, hu, cMaximumStoredLength]
  omega

/-- Encode one continuous stream; the result lists the spans given to the output. -/
def encodeStream (level : CompressionLevel) (input : CodecReader) :
    Except MemError (List (List UInt8)) :=
  encodeStreamLoop level input [] { bitOrder := .leastSignificantFirst } []

end ErbslandCore.Compression.Deflate
