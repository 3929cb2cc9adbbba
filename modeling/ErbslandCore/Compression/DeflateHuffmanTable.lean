import ErbslandCore.Compression.CodecBitReader

namespace ErbslandCore.Compression.Deflate
open Library Mem
set_option autoImplicit true

def cMaximumCodeLength : Nat := 15

structure DeflateHuffmanEntry where
  symbol : Nat := 0
  length : Nat := 0
  deriving DecidableEq, Inhabited

/-- A direct lookup table from the next input bits to a symbol and its code length. -/
structure DeflateHuffmanTable where
  entries : List DeflateHuffmanEntry
  maximumLength : Nat
  deriving DecidableEq

def reverseBitsLoop : (count value result : Nat) → Nat
  | 0, _, result => result
  | count + 1, value, result =>
    reverseBitsLoop count (value >>> 1) (((result <<< 1) ||| (value &&& 1)) % 2 ^ 16)

/-- Reverse the requested low-order bits. -/
def reverseBits (value count : Nat) : Nat := reverseBitsLoop count value 0

def countLengths (counts : List Nat) : (lengths : List Nat) → Except CodecError (List Nat)
  | [] => .ok counts
  | length :: lengths =>
    if cMaximumCodeLength < length then throwMalformed "Deflate code length is invalid."
    else if length ≠ 0 then
      countLengths (counts.set length ((counts[length]! + 1) % 2 ^ 16)) lengths
    else countLengths counts lengths

def checkAvailable (counts : List Nat) (available : Int) :
    (lengths : List Nat) → Except CodecError Unit
  | [] => .ok ()
  | length :: lengths =>
    let available := available * 2 - counts[length]!
    if available < 0 then throwMalformed "Deflate Huffman tree is oversubscribed."
    else checkAvailable counts available lengths

def assignNextCodes (counts : List Nat) (code : Nat) (nextCode : List Nat) :
    (bits : List Nat) → List Nat
  | [] => nextCode
  | bits :: rest =>
    let code := ((code + counts[bits - 1]!) <<< 1) % 2 ^ 16
    assignNextCodes counts code (nextCode.set bits code) rest

/-- Enter a code under every value of the bits that follow it. -/
def enterSymbol (entries : List DeflateHuffmanEntry) (reversed symbol length repetitions : Nat) :
    List DeflateHuffmanEntry :=
  (List.range repetitions).foldl (fun entries suffix =>
    entries.set (reversed ||| (suffix <<< length)) { symbol := symbol, length := length }) entries

def enterSymbols (maximumLength : Nat) (nextCode : List Nat) (entries : List DeflateHuffmanEntry)
    (symbol : Nat) : (lengths : List Nat) → List DeflateHuffmanEntry
  | [] => entries
  | length :: lengths =>
    if length = 0 then enterSymbols maximumLength nextCode entries (symbol + 1) lengths
    else
      let reversed := reverseBits nextCode[length]! length
      enterSymbols maximumLength (nextCode.set length ((nextCode[length]! + 1) % 2 ^ 16))
        (enterSymbol entries reversed (symbol % 2 ^ 16) length (1 <<< (maximumLength - length)))
        (symbol + 1) lengths

namespace DeflateHuffmanTable

/-- Build a canonical table from symbol code lengths. -/
def create (lengths : List Nat) : Except CodecError DeflateHuffmanTable := do
  let maximumLength := lengths.foldl max 0
  if maximumLength = 0 ∨ cMaximumCodeLength < maximumLength then
    throwMalformed "Deflate Huffman tree is empty or invalid."
  else
    let counts ← countLengths (List.replicate (cMaximumCodeLength + 1) 0) lengths
    checkAvailable counts 1 (List.range' 1 cMaximumCodeLength)
    let nextCode := assignNextCodes counts 0 (List.replicate (cMaximumCodeLength + 1) 0)
      (List.range' 1 cMaximumCodeLength)
    return {
      entries := enterSymbols maximumLength nextCode
        (List.replicate (1 <<< maximumLength) {}) 0 lengths
      maximumLength := maximumLength }

/-- Decode one symbol without reading past its final bit. -/
def decode (table : DeflateHuffmanTable) (input : CodecBitReader) :
    Except CodecError (Nat × CodecBitReader) := do
  let input ← input.buffered table.maximumLength
  let available := min table.maximumLength input.reader.remainingBitCount
  if available = 0 then throwMalformed "Deflate bit stream is truncated."
  else
    let position := input.reader.bitPosition
    let (value, reader) := input.reader.readBits available
    let entry := table.entries[value]!
    if entry.length ≠ 0 ∧ entry.length ≤ available then
      return (entry.symbol,
        { input with reader := reader.setBitPosition (position + entry.length) })
    else throwMalformed "Deflate Huffman code is invalid."

end DeflateHuffmanTable

def cFixedLiteralCount : Nat := 288
def cFixedDistanceCount : Nat := 32

def fill (values : List Nat) (first last value : Nat) : List Nat :=
  values.take first ++ List.replicate (last - first) value ++ values.drop last

def fixedLiteralLengths : List Nat :=
  let result := List.replicate cFixedLiteralCount 8
  let result := fill result 144 256 9
  let result := fill result 256 280 7
  fill result 280 cFixedLiteralCount 8

def fixedLiteralTable : Except CodecError DeflateHuffmanTable :=
  DeflateHuffmanTable.create fixedLiteralLengths

def fixedDistanceTable : Except CodecError DeflateHuffmanTable :=
  DeflateHuffmanTable.create (List.replicate cFixedDistanceCount 5)

/-- A code that a table enters for a symbol, with its bits in wire order. -/
structure Code where
  reversed : Nat
  symbol : Nat
  length : Nat
  deriving DecidableEq

def Code.entry (c : Code) : DeflateHuffmanEntry := { symbol := c.symbol, length := c.length }

/-- The canonical codes in symbol order. -/
def assignedCodes (nextCode : List Nat) (symbol : Nat) : (lengths : List Nat) → List Code
  | [] => []
  | length :: lengths =>
    if length = 0 then assignedCodes nextCode (symbol + 1) lengths
    else
      { reversed := reverseBits nextCode[length]! length
        symbol := symbol % 2 ^ 16
        length := length } ::
        assignedCodes (nextCode.set length ((nextCode[length]! + 1) % 2 ^ 16)) (symbol + 1) lengths

/-- The codes of a table never disagree on a lookup value, for which `f` gives the entry. -/
def Agree (maximumLength : Nat) (f : Nat → DeflateHuffmanEntry) (codes : List Code) : Prop :=
  ∀ c ∈ codes, c.reversed < 2 ^ c.length ∧ c.length ≤ maximumLength ∧
    ∀ suffix < 2 ^ (maximumLength - c.length), f (c.reversed + 2 ^ c.length * suffix) = c.entry

instance : Decidable (Agree maximumLength f codes) :=
  inferInstanceAs (Decidable (∀ c ∈ codes, c.reversed < 2 ^ c.length ∧ c.length ≤ maximumLength ∧
    ∀ suffix < 2 ^ (maximumLength - c.length), f (c.reversed + 2 ^ c.length * suffix) = c.entry))

@[simp] theorem enterSymbol_length (entries : List DeflateHuffmanEntry) :
    (enterSymbol entries reversed symbol length n).length = entries.length := by
  unfold enterSymbol
  induction n with
  | zero => rfl
  | succ n ih =>
    rw [List.range_succ, List.foldl_append]
    simpa using ih

theorem getElem!_set (entries : List DeflateHuffmanEntry) (hk : k < entries.length) :
    (entries.set i e)[k]! = if i = k then e else entries[k]! := by
  rw [getElem!_pos (entries.set i e) k (by simpa), getElem!_pos entries k hk, List.getElem_set]

/-- A symbol is entered exactly at the values that begin with its code. -/
theorem enterSymbol_getElem! (entries : List DeflateHuffmanEntry) (hr : reversed < 2 ^ length)
    (hv : v < entries.length) :
    (enterSymbol entries reversed symbol length n)[v]! =
      if v % 2 ^ length = reversed ∧ v / 2 ^ length < n then
        { symbol := symbol, length := length }
      else entries[v]! := by
  induction n with
  | zero => simp [enterSymbol]
  | succ n ih =>
    have hstep : enterSymbol entries reversed symbol length (n + 1) =
        (enterSymbol entries reversed symbol length n).set (reversed ||| (n <<< length))
          { symbol := symbol, length := length } := by
      rw [enterSymbol, List.range_succ, List.foldl_append]
      rfl
    have hindex : reversed ||| (n <<< length) = reversed + 2 ^ length * n := by
      rw [Nat.or_comm, ← Nat.shiftLeft_add_eq_or_of_lt hr, Nat.shiftLeft_eq, Nat.add_comm,
        Nat.mul_comm]
    have hiff : reversed + 2 ^ length * n = v ↔ v % 2 ^ length = reversed ∧ v / 2 ^ length = n := by
      constructor
      · rintro rfl
        rw [Nat.add_mul_mod_self_left, Nat.mod_eq_of_lt hr, Nat.add_mul_div_left _ _
          (Nat.two_pow_pos _), Nat.div_eq_of_lt hr, Nat.zero_add]
        exact ⟨rfl, rfl⟩
      · rintro ⟨rfl, rfl⟩
        exact Nat.mod_add_div _ _
    rw [hstep, getElem!_set _ (by simpa), hindex, ih]
    simp only [hiff]
    by_cases hm : v % 2 ^ length = reversed
    · by_cases hq : v / 2 ^ length = n
      · simp [hm, hq]
      · simp only [hm, hq, and_false, ↓reduceIte, true_and]
        congr 1
        simp only [eq_iff_iff]
        omega
    · simp [hm]

/-- A lookup value that begins with an assigned code finds the entry of this code. -/
theorem enterSymbols_getElem! {entries : List DeflateHuffmanEntry}
    (ha : Agree maximumLength f (assignedCodes nextCode symbol lengths))
    (he : entries.length = 2 ^ maximumLength) (hv : v < 2 ^ maximumLength)
    (hc : entries[v]! = f v ∨
      ∃ c ∈ assignedCodes nextCode symbol lengths, v % 2 ^ c.length = c.reversed) :
    (enterSymbols maximumLength nextCode entries symbol lengths)[v]! = f v := by
  induction lengths generalizing nextCode entries symbol with
  | nil =>
    rcases hc with hc | ⟨c, hmem, _⟩
    · exact hc
    · cases hmem
  | cons length lengths ih =>
    rw [enterSymbols]
    by_cases hz : length = 0
    · rw [if_pos hz]
      simp only [assignedCodes, hz, ↓reduceIte] at ha hc
      exact ih ha he hc
    · rw [if_neg hz]
      simp only [assignedCodes, hz, ↓reduceIte] at ha hc
      obtain ⟨hr, hl, hf⟩ := ha _ List.mem_cons_self
      simp only [Code.entry] at hr hl hf
      refine ih (fun c hmem => ha c (List.mem_cons_of_mem _ hmem)) (by simpa) ?_
      by_cases hm : v % 2 ^ length = reverseBits nextCode[length]! length
      · left
        have hq : v / 2 ^ length < 1 <<< (maximumLength - length) := by
          rw [Nat.one_shiftLeft, Nat.div_lt_iff_lt_mul (Nat.two_pow_pos _), ← Nat.pow_add,
            Nat.sub_add_cancel hl]
          exact hv
        rw [enterSymbol_getElem! _ hr (by omega), if_pos ⟨hm, hq⟩,
          ← hf _ (by rwa [Nat.one_shiftLeft] at hq), ← hm, Nat.mod_add_div]
      · rcases hc with hc | ⟨c, hmem, hcm⟩
        · left
          rw [enterSymbol_getElem! _ hr (by omega), if_neg (fun h => hm h.1), hc]
        · right
          rcases List.mem_cons.mp hmem with rfl | hmem
          · exact absurd hcm hm
          · exact ⟨c, hmem, hcm⟩

/-- The table resolves every input that begins with the given bits to the symbol. -/
structure Codeword (table : DeflateHuffmanTable) (bits : List Bool) (symbol : Nat) : Prop where
  length_pos : 0 < bits.length
  length_le : bits.length ≤ table.maximumLength
  maximum_le : table.maximumLength ≤ cMaximumCodeLength
  lookup : ∀ v < 2 ^ table.maximumLength, v % 2 ^ bits.length = bitsValue bits →
    table.entries[v]! = { symbol := symbol, length := bits.length }

/-- The assigned codes of an accepted table are codewords of their symbols. -/
theorem codeword_of_agree {codes : List Code}
    (hc : assignedCodes nextCode 0 lengths = codes) (ha : Agree maximumLength f codes)
    (hm : maximumLength ≤ cMaximumCodeLength) (hmem : c ∈ codes) (hpos : 0 < c.length) :
    Codeword ⟨enterSymbols maximumLength nextCode (List.replicate (1 <<< maximumLength) {}) 0
      lengths, maximumLength⟩ (natBits c.length c.reversed) c.symbol := by
  subst hc
  obtain ⟨hr, hl, hf⟩ := ha c hmem
  refine ⟨by simpa, by simpa, hm, fun v hv hmod => ?_⟩
  rw [natBits_length] at hmod ⊢
  rw [bitsValue_natBits_of_lt hr] at hmod
  rw [enterSymbols_getElem! ha (by rw [List.length_replicate, Nat.one_shiftLeft]) hv
    (.inr ⟨c, hmem, hmod⟩)]
  have hq : v / 2 ^ c.length < 2 ^ (maximumLength - c.length) := by
    rw [Nat.div_lt_iff_lt_mul (Nat.two_pow_pos _), ← Nat.pow_add, Nat.sub_add_cancel hl]
    exact hv
  have := hf _ hq
  rwa [← hmod, Nat.mod_add_div] at this

namespace DeflateHuffmanTable

/-- Decoding a codeword consumes exactly its bits. -/
theorem decode_codeword {table : DeflateHuffmanTable} {input : CodecBitReader}
    (hc : Codeword table bits symbol) (h : input.Unread (bits ++ rest)) :
    ∃ input', table.decode input = .ok (symbol, input') ∧ input'.Unread rest := by
  obtain ⟨hpos, hle, hmax, hlookup⟩ := hc
  simp only [cMaximumCodeLength] at hmax
  obtain ⟨next, hr, hb, ho, hbuf⟩ := input.canRead_spec table.maximumLength (by omega)
  have hsplit := hb.trans h.bits_eq
  generalize havail : min table.maximumLength next.reader.remainingBitCount = available
  have hl : bits.length ≤ next.reader.bits.length := by
    by_contra hlt
    have hu := hbuf (by omega)
    have hlen := congrArg List.length hsplit
    rw [CodecBitReader.bits, List.length_append, List.length_append, hu, bitsOf_nil,
      List.length_nil] at hlen
    omega
  have hrem := next.reader.bits_length
  have hread := next.reader.readBits_eq (ho.trans h.order) (n := available) (by omega) (by omega)
  have hfirst : next.reader.bits.take bits.length = bits := by
    have := congrArg (List.take bits.length) hsplit
    rwa [CodecBitReader.bits, List.take_append_of_le_length hl, List.take_left] at this
  have hvalue : bitsValue (next.reader.bits.take available) % 2 ^ bits.length =
      bitsValue bits := by
    have hcut : next.reader.bits.take available = bits ++
        (next.reader.bits.drop bits.length).take (available - bits.length) := by
      rw [← hfirst]
      conv_rhs => rw [List.length_take, Nat.min_eq_left hl]
      rw [← List.take_add]
      congr 1
      omega
    rw [hcut, bitsValue_append, Nat.add_mul_mod_self_left, Nat.mod_eq_of_lt (bitsValue_lt _)]
  have hvlt : bitsValue (next.reader.bits.take available) < 2 ^ table.maximumLength := by
    refine Nat.lt_of_lt_of_le (bitsValue_lt _) (Nat.pow_le_pow_right (by omega) ?_)
    rw [List.length_take]
    omega
  rw [decode, CodecBitReader.buffered, hr]
  simp only [bind, Except.bind, pure, Except.pure, havail]
  rw [if_neg (by omega), hread]
  simp only [hlookup _ hvlt hvalue]
  rw [if_pos ⟨by omega, by omega⟩]
  refine ⟨_, rfl, ho.trans h.order, ?_⟩
  rw [CodecBitReader.bits, BitReader.setBitPosition_advance _ hl, BitReader.advance_bits]
  have := congrArg (List.drop bits.length) hsplit
  rwa [CodecBitReader.bits, List.drop_append_of_le_length hl, List.drop_left] at this

/-- Every decoded symbol consumes at least one bit. -/
theorem decode_progress {table : DeflateHuffmanTable} {input input' : CodecBitReader}
    (h : table.decode input = .ok (symbol, input')) : input'.bits.length < input.bits.length := by
  obtain ⟨next, hb, h⟩ := bind_eq_ok h
  have hbits : next.bits = input.bits := by
    obtain ⟨⟨_, next'⟩, hc, hn⟩ := bind_eq_ok hb
    cases hn
    by_cases h64 : table.maximumLength ≤ 64
    · obtain ⟨next'', hr, hb', _⟩ := input.canRead_spec _ h64
      rw [hr] at hc
      cases hc
      exact hb'
    · rw [CodecBitReader.canRead, if_pos (by omega)] at hc
      cases hc
      rfl
  simp only at h
  split at h
  case isTrue => cases h
  case isFalse =>
    split at h
    case isFalse => cases h
    case isTrue he =>
      have hrem := next.reader.bits_length
      generalize hl : (table.entries[(next.reader.readBits
        (min table.maximumLength next.reader.remainingBitCount)).1]!).length = length at h he
      have hset := next.reader.setBitPosition_readBits
        (min table.maximumLength next.reader.remainingBitCount) (m := length) (by omega)
      cases h
      rw [← hbits]
      simp only [CodecBitReader.bits, hset, BitReader.advance_bits, List.length_append,
        List.length_drop]
      omega

end DeflateHuffmanTable
end ErbslandCore.Compression.Deflate
