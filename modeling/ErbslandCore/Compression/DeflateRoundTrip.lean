import ErbslandCore.Compression.DeflateTokens

namespace ErbslandCore.Compression.Deflate
open Library Mem
set_option autoImplicit true

def fixedCounts : List Nat := [0, 0, 0, 0, 0, 0, 0, 24, 152, 112, 0, 0, 0, 0, 0, 0]

/-- The entry of the fixed literal table, decoded from the bits of a lookup value. -/
def fixedEntry (value : Nat) : DeflateHuffmanEntry :=
  let code := reverseBits value 9
  if code >>> 2 < 24 then { symbol := 256 + (code >>> 2), length := 7 }
  else if code >>> 1 < 0xc0 then { symbol := (code >>> 1) - 0x30, length := 8 }
  else if code >>> 1 < 0xc8 then { symbol := 280 + (code >>> 1) - 0xc0, length := 8 }
  else { symbol := code - 0x190 + 144, length := 9 }

/-- The code that the encoder writes for a literal or length symbol. -/
def fixedSymbolCode (symbol : Nat) : Code :=
  { reversed := reverseBits (fixedCode symbol).1 (fixedCode symbol).2
    symbol := symbol
    length := (fixedCode symbol).2 }

def distanceCode (symbol : Nat) : Code :=
  { reversed := reverseBits symbol 5, symbol := symbol, length := 5 }

def fixedNextCodes : List Nat :=
  assignNextCodes fixedCounts 0 (List.replicate (cMaximumCodeLength + 1) 0)
    (List.range' 1 cMaximumCodeLength)

/-- The steps of building a table from code lengths, and the entries that its codes agree with. -/
def Assigns (maximumLength : Nat) (lengths counts nextCode : List Nat) (codes : List Code)
    (f : Nat → DeflateHuffmanEntry) : Prop :=
  lengths.foldl max 0 = maximumLength ∧
    countLengths (List.replicate (cMaximumCodeLength + 1) 0) lengths = .ok counts ∧
    checkAvailable counts 1 (List.range' 1 cMaximumCodeLength) = .ok () ∧
    assignNextCodes counts 0 (List.replicate (cMaximumCodeLength + 1) 0)
      (List.range' 1 cMaximumCodeLength) = nextCode ∧
    assignedCodes nextCode 0 lengths = codes ∧ Agree maximumLength f codes

instance : Decidable (Assigns maximumLength lengths counts nextCode codes f) :=
  inferInstanceAs (Decidable (_ ∧ _ ∧ _ ∧ _ ∧ _ ∧ _))

theorem Assigns.codeword (h : Assigns maximumLength lengths counts nextCode codes f)
    (hpos : maximumLength ≠ 0) (hm : maximumLength ≤ cMaximumCodeLength) :
    ∃ table, DeflateHuffmanTable.create lengths = .ok table ∧ ∀ c ∈ codes, 0 < c.length →
      Codeword table (natBits c.length c.reversed) c.symbol := by
  obtain ⟨hmax, hcounts, havailable, hnext, hcodes, hagree⟩ := h
  refine ⟨⟨enterSymbols maximumLength nextCode (List.replicate (1 <<< maximumLength) {}) 0 lengths,
    maximumLength⟩, ?_, fun c hc hlen => codeword_of_agree hcodes hagree hm hc hlen⟩
  rw [DeflateHuffmanTable.create]
  simp only [hmax, hcounts, havailable, hnext, bind, Except.bind]
  rw [if_neg (by omega)]
  rfl

theorem assigns_fixed : Assigns 9 fixedLiteralLengths fixedCounts fixedNextCodes
    ((List.range cFixedLiteralCount).map fixedSymbolCode) fixedEntry := by
  refine ⟨?_, ?_, ?_, rfl, ?_, ?_⟩
  · decide +kernel
  · decide +kernel
  · decide +kernel
  · decide +kernel
  · decide +kernel

/-- Every symbol that the encoder writes is a codeword of the decoder's fixed table. -/
theorem fixedLiteralTable_codeword : ∃ table, fixedLiteralTable = .ok table ∧
    ∀ symbol < cFixedLiteralCount, Codeword table
      (natBits (fixedSymbolCode symbol).length (fixedSymbolCode symbol).reversed) symbol := by
  obtain ⟨table, htable, hcodes⟩ := assigns_fixed.codeword (by decide) (by decide)
  refine ⟨table, htable, fun symbol hs => ?_⟩
  refine hcodes (fixedSymbolCode symbol) (List.mem_map_of_mem (List.mem_range.mpr hs)) ?_
  have := fixedCode_length symbol
  simp only [fixedSymbolCode]
  omega

def fixedDistanceCounts : List Nat := [0, 0, 0, 0, 0, 32, 0, 0, 0, 0, 0, 0, 0, 0, 0, 0]

def distanceNextCodes : List Nat :=
  assignNextCodes fixedDistanceCounts 0 (List.replicate (cMaximumCodeLength + 1) 0)
    (List.range' 1 cMaximumCodeLength)

theorem assigns_distance : Assigns 5 (List.replicate cFixedDistanceCount 5) fixedDistanceCounts
    distanceNextCodes ((List.range cFixedDistanceCount).map distanceCode)
    (fun value => { symbol := reverseBits value 5, length := 5 }) := by
  decide +kernel

theorem fixedDistanceTable_codeword : ∃ table, fixedDistanceTable = .ok table ∧
    ∀ symbol < cFixedDistanceCount, Codeword table (natBits 5 (reverseBits symbol 5)) symbol := by
  obtain ⟨table, htable, hcodes⟩ := assigns_distance.codeword (by decide) (by decide)
  exact ⟨table, htable, fun symbol hs => hcodes (distanceCode symbol)
    (List.mem_map_of_mem (List.mem_range.mpr hs)) (by simp [distanceCode])⟩

/-- A reader and an output of the decoder between two symbols. -/
structure DeflateDecoder.At (d : DeflateDecoder) (bits : List Bool) (out : List UInt8) : Prop where
  unread : d.reader.Unread bits
  holds : d.output.Holds out
  window : d.output.history.length = cMaximumMatchDistance

theorem lengthCode_symbol (h : LengthCode n e) : 257 + e.index < cFixedLiteralCount ∧
    257 + e.index ≤ cLastLengthSymbol := by
  have hi : e.index < 29 := h.index_lt
  simp only [cFixedLiteralCount, cLastLengthSymbol]
  omega

/-- The decoder reads a distance and copies the match that the encoder found. -/
theorem decodeMatch_reference {table : DeflateHuffmanTable} {reader : CodecBitReader}
    {data : List UInt8} (ht : ∀ symbol < cFixedDistanceCount,
      Codeword table (natBits 5 (reverseBits symbol 5)) symbol)
    (hf : DistanceCode distance f) (hr : BackReference data p distance n)
    (hd : distance ≤ cMaximumMatchDistance) (hu : reader.Unread (f.distanceBits ++ rest))
    (ho : output.Holds (data.take p)) (hw : output.history.length = cMaximumMatchDistance)
    (ha : output.Admits data.length) :
    ∃ d, decodeMatch table reader output n = .ok d ∧ d.At rest (data.take (p + n)) ∧
      CodecOutput.SameLimits output d.output := by
  have hwithin := hr.within
  have hle := hr.distance_le
  have hpos := hr.distance_pos
  have hlen : (data.take p).length = p := by
    rw [List.length_take]
    omega
  have hindex : f.index < 30 := hf.index_lt
  rw [Extra.distanceBits, List.append_assoc] at hu
  obtain ⟨r₁, h₁, hu₁⟩ := DeflateHuffmanTable.decode_codeword
    (ht f.index (by simp only [cFixedDistanceCount]; omega)) hu
  have hextra := (distance_ranges f.index hindex).1
  obtain ⟨r₂, h₂, hu₂⟩ := hu₁.readBits (natBits_length _ _) (by omega)
  rw [bitsValue_natBits_of_lt hf.value_lt] at h₂
  obtain ⟨o, h₃, ho₃, hs₃⟩ := ho.appendRepeated hpos (by omega) (by omega) n
    (ha.mono (by omega))
  rw [hlen] at h₃ ho₃
  rw [hr.take_append_cycle] at ho₃
  refine ⟨⟨r₂, o⟩, ?_, ⟨hu₂, ho₃, hs₃.2.trans hw⟩, hs₃⟩
  rw [decodeMatch, h₁]
  simp only [bind, Except.bind]
  rw [if_neg (by simp only [cMaximumDistanceSymbol]; omega), h₂]
  simp only [hf.restore, ho.length_eq, hlen]
  rw [if_neg (by omega), h₃]
  rfl

theorem decodeCompressed_last
    (h : decodeSymbol literalTable distanceTable d = .ok (true, d')) :
    decodeCompressed literalTable distanceTable d = .ok d' := by
  rw [decodeCompressed]
  split
  case h_1 e he => rw [h] at he; cases he
  case h_2 d₂ he => rw [h] at he; cases he; rfl
  case h_3 d₂ he => rw [h] at he; cases he

theorem decodeCompressed_next
    (h : decodeSymbol literalTable distanceTable d = .ok (false, d')) :
    decodeCompressed literalTable distanceTable d =
      decodeCompressed literalTable distanceTable d' := by
  rw [decodeCompressed]
  split
  case h_1 e he => rw [h] at he; cases he
  case h_2 d₂ he => rw [h] at he; cases he
  case h_3 d₂ he => rw [h] at he; cases he; rfl

/-- Decoding a parse's tokens restores the data it describes and stops at the end symbol. -/
theorem decodeCompressed_parse {literalTable distanceTable : DeflateHuffmanTable}
    {data : List UInt8} (hl : ∀ symbol < cFixedLiteralCount,
      Codeword literalTable (symbolBits symbol) symbol)
    (ht : ∀ symbol < cFixedDistanceCount,
      Codeword distanceTable (natBits 5 (reverseBits symbol 5)) symbol)
    (hp : Parse limits data p tokens q) (hb : TokensBits tokens tokenBits)
    (hd : d.At (tokenBits ++ symbolBits cEndOfBlockSymbol ++ rest) (data.take p))
    (ha : d.output.Admits data.length) :
    ∃ d', decodeCompressed literalTable distanceTable d = .ok d' ∧ d'.At rest (data.take q) ∧
      CodecOutput.SameLimits d.output d'.output := by
  induction hp generalizing d tokenBits with
  | nil =>
    cases hb
    obtain ⟨hu, ho, hw⟩ := hd
    rw [List.nil_append] at hu
    obtain ⟨r, hr, hu'⟩ := DeflateHuffmanTable.decode_codeword (hl cEndOfBlockSymbol (by decide)) hu
    refine ⟨{ d with reader := r }, ?_, ⟨hu', ho, hw⟩, rfl, rfl⟩
    apply decodeCompressed_last
    rw [decodeSymbol, hr]
    rfl
  | @literal p tokens q hlt htail ih =>
    cases hb with
    | cons hb htb =>
    cases hb
    obtain ⟨hu, ho, hw⟩ := hd
    simp only [List.append_assoc] at hu
    have hbyte : data[p]!.toNat < 256 := data[p]!.toNat_lt
    obtain ⟨r, hr, hu'⟩ := DeflateHuffmanTable.decode_codeword
      (hl data[p]!.toNat (by simp only [cFixedLiteralCount]; omega)) hu
    have hlen : (data.take p).length = p := by
      rw [List.length_take]
      omega
    obtain ⟨o, hap, ho', hs⟩ := ho.append data[p]! (ha.mono (by omega))
    rw [← take_succ_getElem! data hlt] at ho'
    obtain ⟨d', hd', hat, hs'⟩ := ih htb (d := { reader := r, output := o })
      ⟨by simpa only [List.append_assoc] using hu', ho', hs.2.trans hw⟩ (hs.admits ha)
    refine ⟨d', ?_, hat, hs.trans hs'⟩
    have hstep : decodeSymbol literalTable distanceTable d =
        .ok (false, { reader := r, output := o }) := by
      rw [decodeSymbol, hr]
      simp only [bind, Except.bind]
      rw [if_pos (show data[p]!.toNat < cEndOfBlockSymbol from hbyte), UInt8.ofNat_toNat, hap]
      rfl
    rw [decodeCompressed_next hstep, hd']
  | @reference p distance n tokens q href hmin hmax hdist htail ih =>
    cases hb with
    | cons hb htb =>
    cases hb with
    | @reference _ e _ f he hf =>
    obtain ⟨hu, ho, hw⟩ := hd
    simp only [Extra.lengthBits, List.append_assoc] at hu
    obtain ⟨hs₁, hs₂⟩ := lengthCode_symbol he
    obtain ⟨r₁, h₁, hu₁⟩ := DeflateHuffmanTable.decode_codeword (hl _ hs₁) hu
    have hx : ∀ i < 29, cLengthExtra[i]! ≤ 5 := by decide
    have hextra := hx e.index he.index_lt
    obtain ⟨r₂, h₂, hu₂⟩ := hu₁.readBits (natBits_length _ _) (by omega)
    rw [bitsValue_natBits_of_lt he.value_lt] at h₂
    obtain ⟨d₃, h₃, hat₃, hlim₃⟩ := decodeMatch_reference ht hf href hdist hu₂ ho hw ha
    obtain ⟨d', hd', hat, hs'⟩ := ih htb
      ⟨by simpa only [List.append_assoc] using hat₃.unread, hat₃.holds, hat₃.window⟩
      (hlim₃.admits ha)
    refine ⟨d', ?_, hat, hlim₃.trans hs'⟩
    have hstep : decodeSymbol literalTable distanceTable d = .ok (false, d₃) := by
      have hn₁ : ¬ 257 + e.index < cEndOfBlockSymbol := by
        simp only [cEndOfBlockSymbol]
        omega
      have hn₂ : 257 + e.index ≠ cEndOfBlockSymbol := by
        simp only [cEndOfBlockSymbol]
        omega
      have hn₃ : ¬ (257 + e.index < cFirstLengthSymbol ∨ cLastLengthSymbol < 257 + e.index) := by
        simp only [cFirstLengthSymbol]
        omega
      have hsub : 257 + e.index - cFirstLengthSymbol = e.index := Nat.add_sub_cancel_left ..
      rw [decodeSymbol, h₁]
      simp only [bind, Except.bind]
      rw [if_neg hn₁, if_neg hn₂, if_neg hn₃, hsub, h₂]
      simp only [he.restore, h₃]
      rfl
    rw [decodeCompressed_next hstep, hd']

/-- Any fixed block decodes to the bytes that its tokens describe. -/
theorem decodeBlock_fixed {data : List UInt8} (hp : Parse limits data p tokens q)
    (hb : TokensBits tokens tokenBits)
    (hd : d.At (natBits 1 (Bool.toNat final) ++ natBits 2 1 ++ tokenBits ++
      symbolBits cEndOfBlockSymbol ++ rest) (data.take p))
    (ha : d.output.Admits data.length) :
    ∃ d', decodeBlock d = .ok (final, d') ∧ d'.At rest (data.take q) ∧
      CodecOutput.SameLimits d.output d'.output := by
  obtain ⟨hu, ho, hw⟩ := hd
  simp only [List.append_assoc] at hu
  obtain ⟨r₁, h₁, hu₁⟩ := hu.readBits (natBits_length _ _) (by omega)
  obtain ⟨r₂, h₂, hu₂⟩ := hu₁.readBits (natBits_length _ _) (by omega)
  obtain ⟨literalTable, hlt, hl⟩ := fixedLiteralTable_codeword
  obtain ⟨distanceTable, hdt, ht⟩ := fixedDistanceTable_codeword
  obtain ⟨d', hd', hat, hs⟩ := decodeCompressed_parse (d := { d with reader := r₂ }) hl ht hp hb
    ⟨by simpa only [List.append_assoc] using hu₂, ho, hw⟩ ha
  refine ⟨d', ?_, hat, hs⟩
  rw [bitsValue_natBits_of_lt (by cases final <;> decide)] at h₁
  rw [bitsValue_natBits_of_lt (by decide)] at h₂
  rw [decodeBlock, h₁]
  simp only [bind, Except.bind, h₂, decodeBody, one_ne_zero, ↓reduceIte, hlt, hdt, hd', pure,
    Except.pure]
  cases final <;> rfl

theorem copyStored_bytes {reader : CodecBitReader} {bytes : List UInt8}
    (hu : reader.Unread (bitsOf bytes ++ rest)) (hr : 8 ∣ rest.length)
    (ho : output.Holds out) (hw : output.history.length = cMaximumMatchDistance)
    (ha : output.Admits (out.length + bytes.length)) :
    ∃ d, copyStored reader output bytes.length = .ok d ∧ d.At rest (out ++ bytes) ∧
      CodecOutput.SameLimits output d.output := by
  induction hn : bytes.length using Nat.strong_induction_on
    generalizing reader output out bytes with
  | _ k ih =>
    subst hn
    rw [copyStored]
    by_cases hb : bytes = []
    · subst hb
      refine ⟨⟨reader, output⟩, ?_, ⟨by simpa using hu, by simpa using ho, hw⟩, rfl, rfl⟩
      rw [dif_neg (by simp)]
    · have hpos := List.length_pos_iff.mpr hb
      obtain ⟨n, reader', hread, hn₀, hn₁, hu'⟩ := hu.readBytes hr hb
      have htake : (bytes.take n).length = n := by
        rw [List.length_take]
        omega
      obtain ⟨o, hap, ho', hs⟩ := ho.appendSpan (bytes.take n) (ha.mono (by omega))
      have hdrop : (bytes.drop n).length = bytes.length - n := List.length_drop
      obtain ⟨d, hd, hat, hs'⟩ := ih _ (by omega) hu' ho' (hs.2.trans hw)
        (hs.admits (ha.mono (by rw [List.length_append]; omega))) rfl
      rw [List.append_assoc, List.take_append_drop] at hat
      refine ⟨d, ?_, hat, hs.trans hs'⟩
      rw [dif_pos (by omega)]
      split
      case h_1 e he => rw [hread] at he; cases he
      case h_2 part r he =>
        rw [hread] at he
        cases he
        rw [hap]
        simp only
        rw [htake, ← hdrop]
        exact hd

/-- A sixteen-bit field is two bytes, the low one first. -/
theorem natBits_sixteen (n : Nat) : natBits 16 n =
    natBits 8 (UInt8.ofNat n).toNat ++ natBits 8 (UInt8.ofNat (n >>> 8)).toNat := by
  rw [show (16 : Nat) = 8 + 8 from rfl, natBits_add, UInt8.toNat_ofNat', UInt8.toNat_ofNat',
    natBits_mod, natBits_mod]

theorem sixteen_bytes (h : n < 2 ^ 16) :
    (UInt8.ofNat n).toNat ||| ((UInt8.ofNat (n >>> 8)).toNat <<< 8) = n := by
  rw [Nat.or_comm, ← Nat.shiftLeft_add_eq_or_of_lt (UInt8.toNat_lt _)]
  simp only [UInt8.toNat_ofNat', Nat.shiftLeft_eq, Nat.shiftRight_eq_div_pow]
  omega

/-- The bits of a stored block after `before` bits of the stream. -/
def storedBits (final : Bool) (padding : Nat) (block : List UInt8) : List Bool :=
  natBits 3 final.toNat ++ natBits padding 0 ++ natBits 16 block.length ++
    natBits 16 (block.length ^^^ 65535) ++ bitsOf block

/-- A stored block decodes to its payload. -/
theorem decodeBlock_stored (block : List UInt8) (hpad : padding < 8) (hr : 8 ∣ rest.length)
    (hblock : block.length ≤ cMaximumStoredLength)
    (hd : d.At (storedBits final padding block ++ rest) out)
    (ha : d.output.Admits (out.length + block.length)) :
    ∃ d', decodeBlock d = .ok (final, d') ∧ d'.At rest (out ++ block) ∧
      CodecOutput.SameLimits d.output d'.output := by
  obtain ⟨hu, ho, hw⟩ := hd
  simp only [cMaximumStoredLength] at hblock
  have hlen : block.length < 2 ^ 16 := by omega
  have hinv : block.length ^^^ 65535 < 2 ^ 16 := Nat.xor_lt_two_pow hlen (by decide)
  have hheader : natBits 3 final.toNat = natBits 1 final.toNat ++ natBits 2 0 := by
    cases final <;> rfl
  simp only [storedBits, hheader, natBits_sixteen, List.append_assoc] at hu
  obtain ⟨r₁, h₁, hu₁⟩ := hu.readBits (natBits_length _ _) (by omega)
  obtain ⟨r₂, h₂, hu₂⟩ := hu₁.readBits (natBits_length _ _) (by omega)
  have hu₃ := hu₂.alignToByte (by simpa) (by simp; omega)
  obtain ⟨r₄, h₄, hu₄⟩ := hu₃.canReadBytes 4 (by simp; omega)
  obtain ⟨r₅, h₅, hu₅⟩ := hu₄.readByte
  obtain ⟨r₆, h₆, hu₆⟩ := hu₅.readByte
  obtain ⟨r₇, h₇, hu₇⟩ := hu₆.readByte
  obtain ⟨r₈, h₈, hu₈⟩ := hu₇.readByte
  obtain ⟨r₉, h₉, hu₉⟩ := hu₈.canReadBytes block.length (by simp)
  obtain ⟨d', hd', hat, hs⟩ := copyStored_bytes hu₉ hr ho hw ha
  refine ⟨d', ?_, hat, hs⟩
  rw [bitsValue_natBits_of_lt (by cases final <;> decide)] at h₁
  rw [bitsValue_natBits_of_lt (by decide)] at h₂
  have hstored : decodeStored { d with reader := r₂ } = .ok d' := by
    rw [decodeStored]
    simp only [bind, Except.bind, h₄, h₅, h₆, h₇, h₈, sixteen_bytes hlen, sixteen_bytes hinv, h₉]
    rw [if_neg (by simp), if_neg (by simp), if_neg (by simp)]
    rw [ByteLength.addedOrThrow, ho.length_eq, if_pos ha.finite]
    simp only [ha.within, ↓reduceIte]
    exact hd'
  rw [decodeBlock, h₁]
  simp only [bind, Except.bind, h₂, decodeBody, ↓reduceIte, hstored, pure, Except.pure]
  cases final <;> rfl

/-- The padding that aligns a stored block header after `n` bits. -/
def headerPadding (n : Nat) : Nat := (8 - (n + 3) % 8) % 8

theorem headerPadding_lt (n : Nat) : headerPadding n < 8 := Nat.mod_lt _ (by omega)

theorem storedBits_length (final : Bool) (padding : Nat) (block : List UInt8) :
    (storedBits final padding block).length = 35 + padding + 8 * block.length := by
  simp only [storedBits, List.length_append, natBits_length, bitsOf_length]
  omega

theorem storedBits_aligned (n : Nat) (final : Bool) (block : List UInt8) :
    8 ∣ n + (storedBits final (headerPadding n) block).length := by
  rw [storedBits_length, headerPadding]
  omega

/-- The header of a stored block: type, alignment and the two length fields. -/
theorem writeHeader_holds {w : BitWriter} (h : w.Holds bits) (final : Bool) (length : Nat)
    (hs : bits.length + 64 ≤ cSizeMaximum) :
    ∃ w₁ w₂ w₃ w₄, w.writeBits (if final then 1 else 0) 3 = .ok w₁ ∧ w₁.alignToByte = .ok w₂ ∧
      w₂.writeBits length 16 = .ok w₃ ∧ w₃.writeBits (length ^^^ 65535) 16 = .ok w₄ ∧
      w₄.Holds (bits ++ (natBits 3 final.toNat ++ natBits (headerPadding bits.length) 0 ++
        natBits 16 length ++ natBits 16 (length ^^^ 65535))) := by
  have hpad := headerPadding_lt bits.length
  obtain ⟨w₁, h₁, hw₁⟩ := h.writeBits (if final then 1 else 0) (n := 3) (by omega) (by omega)
  obtain ⟨w₂, h₂, hw₂⟩ := hw₁.alignToByte
    (by simp only [List.length_append, natBits_length]; omega)
  have hpadding : (8 - (bits ++ natBits 3 (if final then 1 else 0)).length % 8) % 8 =
      headerPadding bits.length := by
    rw [List.length_append, natBits_length, headerPadding]
  rw [hpadding] at hw₂
  obtain ⟨w₃, h₃, hw₃⟩ := hw₂.writeBits length (n := 16) (by omega)
    (by simp only [List.length_append, natBits_length]; omega)
  obtain ⟨w₄, h₄, hw₄⟩ := hw₃.writeBits (length ^^^ 65535) (n := 16) (by omega)
    (by simp only [List.length_append, natBits_length]; omega)
  refine ⟨w₁, w₂, w₃, w₄, h₁, h₂, h₃, h₄, ?_⟩
  simp only [List.append_assoc] at hw₄ ⊢
  cases final <;> exact hw₄

theorem writeStored_holds {w : BitWriter} (h : w.Holds bits) (block : List UInt8) (final : Bool)
    (hs : bits.length + 64 + 8 * block.length ≤ cSizeMaximum) :
    ∃ w', writeStored block final w = .ok w' ∧
      w'.Holds (bits ++ storedBits final (headerPadding bits.length) block) := by
  have hpad := headerPadding_lt bits.length
  obtain ⟨w₁, w₂, w₃, w₄, h₁, h₂, h₃, h₄, hw₄⟩ := writeHeader_holds h final block.length (by omega)
  obtain ⟨w₅, h₅, hw₅⟩ := hw₄.writeBytes block
    (by
      simp only [List.length_append, natBits_length, headerPadding]
      omega)
    (by
      simp only [List.length_append, natBits_length]
      omega)
  refine ⟨w₅, ?_, ?_⟩
  · rw [writeStored, h₁]
    simp only [bind, Except.bind, h₂, h₃, h₄, h₅]
  · rwa [List.append_assoc] at hw₅

theorem writeEmptyStored_holds {w : BitWriter} (h : w.Holds bits) (final : Bool)
    (hs : bits.length + 64 ≤ cSizeMaximum) :
    ∃ w', writeEmptyStored final w = .ok w' ∧
      w'.Holds (bits ++ storedBits final (headerPadding bits.length) []) := by
  obtain ⟨w₁, w₂, w₃, w₄, h₁, h₂, h₃, h₄, hw₄⟩ := writeHeader_holds h final 0 hs
  refine ⟨w₄, ?_, ?_⟩
  · rw [writeEmptyStored, h₁]
    simp only [bind, Except.bind, h₂, h₃]
    exact h₄
  · rw [storedBits, bitsOf_nil, List.append_nil]
    exact hw₄

theorem decodeBlocks_step (h : decodeBlock d = .ok (final, d')) :
    decodeBlocks d = if final then .ok d' else decodeBlocks d' := by
  rw [decodeBlocks]
  split
  case h_1 e he => rw [h] at he; cases he
  case h_2 d₂ he => rw [h] at he; cases he; rfl
  case h_3 d₂ he => rw [h] at he; cases he; rfl

/-- The bits of an encoded block decode, after its history, to the bytes of the block. -/
structure BlockBits (bits : List Bool) (final : Bool) (history block : List UInt8) : Prop where
  aligned : final = false → 8 ∣ bits.length
  decodes : ∀ {earlier rest d} (later : List UInt8), d.At (bits ++ rest) (earlier ++ history) →
    d.output.Admits (earlier ++ history ++ block ++ later).length → 8 ∣ (bits ++ rest).length →
    ∃ d', decodeBlocks d = (if final then .ok d' else decodeBlocks d') ∧
      d'.At rest (earlier ++ history ++ block) ∧ CodecOutput.SameLimits d.output d'.output

theorem blockBits_stored (final : Bool) (history block : List UInt8)
    (hb : block.length ≤ cMaximumStoredLength) :
    BlockBits (storedBits final (headerPadding 0) block) final history block := by
  have hal := storedBits_aligned 0 final block
  rw [Nat.zero_add] at hal
  refine ⟨fun _ => hal, fun {earlier rest d} later hd ha hr => ?_⟩
  have hrest : 8 ∣ rest.length := by
    rw [List.length_append] at hr
    exact (Nat.dvd_add_right hal).mp hr
  obtain ⟨d', hd', hat, hs⟩ := decodeBlock_stored block (headerPadding_lt 0) hrest hb hd
    (ha.mono (by simp only [List.length_append]; omega))
  exact ⟨d', decodeBlocks_step hd', hat, hs⟩

/-- A fixed block, followed by an aligning empty block unless it is the last one. -/
theorem blockBits_fixed (final : Bool) {history block : List UInt8}
    (hp : Parse limits (history ++ block) history.length tokens (history ++ block).length)
    (hb : TokensBits tokens tokenBits)
    (hbits : bits = natBits 1 final.toNat ++ natBits 2 1 ++ tokenBits ++
      symbolBits cEndOfBlockSymbol) :
    BlockBits (if final then bits else bits ++ storedBits false (headerPadding bits.length) [])
      final history block := by
  have hdecode : ∀ {earlier rest d} (later : List UInt8), d.At (bits ++ rest) (earlier ++ history) →
      d.output.Admits (earlier ++ history ++ block ++ later).length →
      ∃ d', decodeBlock d = .ok (final, d') ∧ d'.At rest (earlier ++ history ++ block) ∧
        CodecOutput.SameLimits d.output d'.output := by
    intro earlier rest d later hd ha
    have hdata : earlier ++ (history ++ block) ++ later = earlier ++ history ++ block ++ later := by
      simp only [List.append_assoc]
    have hp' := hp.append earlier later
    rw [hdata] at hp'
    have hbefore : (earlier ++ history ++ block ++ later).take
        (earlier.length + history.length) = earlier ++ history := by
      rw [← List.length_append, List.append_assoc _ block, List.take_left]
    have hafter : (earlier ++ history ++ block ++ later).take
        (earlier.length + (history ++ block).length) = earlier ++ history ++ block := by
      rw [show earlier.length + (history ++ block).length = (earlier ++ history ++ block).length
        by simp only [List.length_append]; omega, List.take_left]
    rw [hbits, ← hbefore] at hd
    have := decodeBlock_fixed hp' hb hd ha
    rwa [hafter] at this
  cases final with
  | true =>
    refine ⟨fun h => absurd h (by simp), fun {earlier rest d} later hd ha _ => ?_⟩
    obtain ⟨d', hd', hat, hs⟩ := hdecode later hd ha
    exact ⟨d', decodeBlocks_step hd', hat, hs⟩
  | false =>
    have hal := storedBits_aligned bits.length false []
    rw [← List.length_append] at hal
    refine ⟨fun _ => hal, fun {earlier rest d} later hd ha hr => ?_⟩
    have hrest : 8 ∣ rest.length := by
      rw [List.length_append] at hr
      exact (Nat.dvd_add_right hal).mp hr
    simp only [Bool.false_eq_true, ↓reduceIte, List.append_assoc] at hd
    obtain ⟨d₁, hd₁, hat₁, hs₁⟩ := hdecode later (by simpa only [List.append_assoc] using hd) ha
    obtain ⟨d₂, hd₂, hat₂, hs₂⟩ := decodeBlock_stored [] (headerPadding_lt _) hrest
      (Nat.zero_le _) hat₁
      ((hs₁.admits ha).mono (by simp only [List.length_append, List.length_nil]; omega))
    rw [List.append_nil] at hat₂
    refine ⟨d₂, ?_, hat₂, hs₁.trans hs₂⟩
    rw [decodeBlocks_step hd₁, if_neg (by simp), decodeBlocks_step hd₂]

theorem encodeCompressed_bits {level : CompressionLevel} (history block : List UInt8)
    (final : Bool) {w : BitWriter} (h : w.Holds []) (hlevel : level ≠ .fastest)
    (hs : 32 * block.length + 128 ≤ cSizeMaximum) :
    ∃ w' bits, encodeCompressed level (history ++ block) history.length final w = .ok w' ∧
      w'.Holds bits ∧ BlockBits bits final history block := by
  have hlen : (history ++ block).length - history.length = block.length := by simp
  obtain ⟨tokens, tokenBits, wf, hwf, ht, hparse, hbl, hhf⟩ := encodeFixed_holds
    level final h
    (show history.length ≤ (history ++ block).length by simp) (by omega)
  have hel := fixedCode_length cEndOfBlockSymbol
  obtain ⟨we, hwe, hhe⟩ := writeEmptyStored_holds hhf false (by
    simp only [symbolBits, List.length_append, natBits_length]
    omega)
  have hbits := blockBits_fixed final hparse ht rfl
  rw [encodeCompressed, if_neg hlevel, hwf]
  cases final with
  | true => exact ⟨wf, _, rfl, hhf, hbits⟩
  | false => exact ⟨we, _, hwe, hhe, hbits⟩

/-- Whatever form the encoder chooses for a block, its bits decode to the block. -/
theorem encodeBlock_bits (level : CompressionLevel) (history : List UInt8) {block : List UInt8}
    (final : Bool) {w : BitWriter} (hw : w.bitOrder = .leastSignificantFirst)
    (hb : block.length ≤ cMaximumStoredLength) :
    ∃ w' bits, encodeBlock level (history ++ block) history.length block final w = .ok w' ∧
      w'.Holds bits ∧ BlockBits bits final history block := by
  have hreset := BitWriter.Holds.reset w hw
  have hb' : block.length ≤ 65535 := hb
  have hmax : cSizeMaximum = 2 ^ 64 - 1 := rfl
  obtain ⟨ws, hws, hhs⟩ := writeStored_holds hreset block final
    (by simp only [List.length_nil]; omega)
  rw [List.nil_append, List.length_nil] at hhs
  by_cases hlevel : level = .fastest
  · refine ⟨ws, _, ?_, hhs, blockBits_stored final history block hb⟩
    rw [encodeBlock, encodeCompressed, if_pos hlevel]
    simp only [bind, Except.bind]
    rw [if_pos (.inl hlevel)]
    exact hws
  · obtain ⟨w₁, bits₁, h₁, hh₁, hb₁⟩ := encodeCompressed_bits history block final hreset hlevel
      (by omega)
    rw [encodeBlock, h₁]
    simp only [bind, Except.bind]
    -- The stored form replaces the compressed one when it is shorter.
    by_cases hcount : block.length + 5 < w₁.byteCount
    · have horder : w₁.reset = w.reset := by
        simp only [BitWriter.reset, hh₁.order, hw]
      rw [if_pos (.inr hcount), horder]
      exact ⟨ws, _, hws, hhs, blockBits_stored final history block hb⟩
    · rw [if_neg (by simp [hlevel, hcount])]
      exact ⟨w₁, bits₁, rfl, hh₁, hb₁⟩

theorem drain_final {w : BitWriter} (h : w.Holds bits) :
    ∃ output w', drain w true = .ok (output, w') ∧
      ∃ padding, padding.length < 8 ∧ bitsOf output = bits ++ padding := by
  obtain ⟨padding, hp, hb⟩ := h.exists_padding
  have hsize : w.block.take ((w.bitCount + 7) / 8) = w.block := by
    apply List.take_of_length_le
    rw [h.size, h.count, byteCountForBits_eq]
  refine ⟨w.block, w.reset, ?_, padding, hp, hb⟩
  rw [drain]
  simp only [BitWriter.takeByteBlockEditor, ↓reduceIte, not_true_eq_false, false_and, hsize]

/-- Draining whole bytes leaves nothing behind. -/
theorem drain_aligned {w : BitWriter} (h : w.Holds bits) (ha : 8 ∣ bits.length) :
    ∃ output w', drain w false = .ok (output, w') ∧ bitsOf output = bits ∧
      w'.bitOrder = .leastSignificantFirst := by
  have hsize : w.block.take (w.bitCount / 8) = w.block := by
    apply List.take_of_length_le
    rw [h.size, h.count, byteCountForBits_eq]
    omega
  refine ⟨w.block, w.reset, ?_, h.bitsOf_block ha, h.order⟩
  rw [drain]
  simp only [BitWriter.takeByteBlockEditor, Bool.false_eq_true, ↓reduceIte, hsize]
  rw [if_neg]
  rw [h.count]
  omega

/-- The decoder restores the rest of the input after any part of the encoder's run. -/
theorem encodeStreamLoop_decodes (level : CompressionLevel) (input : CodecReader)
    (history : List UInt8) {w : BitWriter} (written : List (List UInt8))
    (hw : w.bitOrder = .leastSignificantFirst) :
    ∃ spans, encodeStreamLoop level input history w written = .ok (written ++ spans) ∧
      ∀ {earlier d}, d.At (bitsOf spans.flatten) (earlier ++ history) →
        d.output.Admits (earlier ++ history ++ input.unread).length →
        ∃ d' padding, decodeBlocks d = .ok d' ∧ padding.length < 8 ∧
          d'.At padding (earlier ++ history ++ input.unread) := by
  induction hn : input.unread.length using Nat.strong_induction_on
    generalizing input history w written with
  | _ n ih =>
    subst hn
    have hmax : cSizeMaximum = 2 ^ 64 - 1 := rfl
    rw [encodeStreamLoop]
    split
    case h_1 input' h =>
      obtain ⟨hempty, _⟩ := CodecReader.unread_of_atEnd h
      obtain ⟨w₁, h₁, hh₁⟩ := writeEmptyStored_holds (BitWriter.Holds.reset w hw) true
        (by simp only [List.length_nil]; omega)
      rw [List.nil_append, List.length_nil] at hh₁
      obtain ⟨output, w₂, h₂, padding, hpad, hbits⟩ := drain_final hh₁
      refine ⟨[output], ?_, fun {earlier d} hd ha => ?_⟩
      · rw [h₁]
        simp only [bind, Except.bind, h₂]
        rfl
      · rw [hempty, List.append_nil] at ha ⊢
        rw [List.flatten_singleton, hbits] at hd
        obtain ⟨d', hd', hat, _⟩ := (blockBits_stored true history []
          (Nat.zero_le _)).decodes [] hd (by simpa using ha)
          (by rw [← hbits, bitsOf_length]; omega)
        rw [List.append_nil] at hat
        exact ⟨d', padding, hd', hpad, hat⟩
    case h_2 input' h =>
      obtain ⟨hne, hu⟩ := CodecReader.unread_of_not_atEnd h
      obtain ⟨hblock, hnext⟩ := input'.block_spec cMaximumStoredLength
      simp only
      have hlast := (input'.block cMaximumStoredLength).2.atEnd_fst
      have hrest := (input'.block cMaximumStoredLength).2.atEnd_unread
      generalize (input'.block cMaximumStoredLength).2.atEnd = next at *
      generalize (input'.block cMaximumStoredLength).1 = block at *
      have hb : block.length ≤ cMaximumStoredLength := by
        rw [hblock, List.length_take]
        exact Nat.min_le_left _ _
      have hsplit : input.unread = block ++ next.2.unread := by
        rw [hrest, hnext, hblock, List.take_append_drop, hu]
      obtain ⟨w₁, bits, h₁, hh₁, hbits⟩ := encodeBlock_bits level history (w := w) next.1 hw hb
      rw [h₁]
      simp only
      cases hfinal : next.1 with
      | true =>
        rw [hfinal] at hbits
        obtain ⟨output, w₂, h₂, padding, hpad, hob⟩ := drain_final hh₁
        have hnil : next.2.unread = [] := by
          rw [hfinal, hnext] at hlast
          rw [hrest, hnext]
          exact List.isEmpty_iff.mp hlast.symm
        rw [h₂]
        refine ⟨[output], rfl, fun {earlier d} hd ha => ?_⟩
        rw [hsplit, hnil, List.append_nil] at ha ⊢
        rw [List.flatten_singleton, hob] at hd
        obtain ⟨d', hd', hat, _⟩ := hbits.decodes [] hd (by simpa using ha)
          (by rw [← hob, bitsOf_length]; omega)
        exact ⟨d', padding, hd', hpad, hat⟩
      | false =>
        rw [hfinal] at hbits
        obtain ⟨output, w₂, h₂, hob, ho₂⟩ := drain_aligned hh₁ (hbits.aligned rfl)
        rw [h₂]
        simp only [Bool.false_eq_true, ↓reduceIte]
        generalize hr : (history ++ block).length -
          min (history ++ block).length cMaximumMatchDistance = removed
        have hpos : 0 < block.length := by
          rw [hblock, List.length_take, hu]
          exact Nat.lt_min.mpr ⟨by decide, List.length_pos_iff.mpr (hu ▸ hne)⟩
        obtain ⟨spans, hs, hdec⟩ := ih next.2.unread.length
          (by rw [hsplit, List.length_append]; omega) next.2 ((history ++ block).drop removed)
          (written ++ [output]) ho₂ rfl
        refine ⟨output :: spans, ?_, fun {earlier d} hd ha => ?_⟩
        · rw [hs, List.append_assoc]
          rfl
        · rw [hsplit, ← List.append_assoc] at ha ⊢
          rw [List.flatten_cons, bitsOf_append, hob] at hd
          obtain ⟨d₁, hd₁, hat₁, hlim₁⟩ := hbits.decodes next.2.unread hd ha
            (by rw [← hob, ← bitsOf_append, bitsOf_length]; omega)
          -- The trimmed part of the history stays in front of the retained one.
          have htrim : earlier ++ history ++ block =
              (earlier ++ (history ++ block).take removed) ++ (history ++ block).drop removed := by
            rw [List.append_assoc, List.append_assoc, List.take_append_drop]
          rw [htrim] at hat₁ ha ⊢
          obtain ⟨d', padding, hd', hpad, hat⟩ := hdec hat₁ (hlim₁.admits ha)
          exact ⟨d', padding, hd₁.trans hd', hpad, hat⟩

theorem ByteLength.le_finite (h : (ByteLength.finite n).le maximum = true) :
    maximum = .infinite ∨ ∃ m, maximum = .finite m ∧ n ≤ m := by
  cases maximum with
  | infinite => exact .inl rfl
  | finite m => exact .inr ⟨m, rfl, of_decide_eq_true h⟩

/-- The decoder restores what the encoder was given, for any chunks on either side, and consumes
the whole stream. -/
theorem decode_encodeStream (level : CompressionLevel) (chunks : List (List UInt8))
    (hchunks : ∀ c ∈ chunks, c ≠ []) (options : DecompressionOptions)
    (hlength : chunks.flatten.length ≤ cRawMaximum)
    (hmaximum : (ByteLength.finite chunks.flatten.length).le options.maximumOutputLength)
    (hexpected : ∀ length, options.expectedOutputLength = some length →
      length = .finite chunks.flatten.length) :
    ∃ spans, encodeStream level { chunks := chunks } = .ok spans ∧
      ∀ encoded : List (List UInt8), (∀ c ∈ encoded, c ≠ []) → encoded.flatten = spans.flatten →
        ∃ d, decode { chunks := encoded } options = .ok d ∧
          d.output.written.flatten = chunks.flatten ∧
          d.reader.source.unread = [] ∧
          d.reader.reader.consumedByteCount = d.reader.reader.byteCount := by
  have hunread := CodecReader.unread_mk chunks hchunks
  obtain ⟨spans, hs, hdec⟩ := encodeStreamLoop_decodes level { chunks := chunks } []
    (w := { bitOrder := .leastSignificantFirst }) [] rfl
  refine ⟨spans, hs, fun encoded hencoded hflat => ?_⟩
  have hsource := CodecReader.unread_mk encoded hencoded
  have hat : DeflateDecoder.At {
      reader := CodecBitReader.create { chunks := encoded } .leastSignificantFirst
      output := CodecOutput.create 32768 options.maximumOutputLength }
      (bitsOf spans.flatten) ([] ++ []) := by
    refine ⟨⟨rfl, ?_⟩, CodecOutput.create_holds _ _, List.length_replicate⟩
    rw [CodecBitReader.bits, CodecBitReader.create, hsource, hflat]
    rfl
  obtain ⟨d, padding, hd, hpad, hu, ho, _⟩ := hdec hat
    (by rw [hunread]; exact ⟨hlength, hmaximum⟩)
  rw [hunread, List.append_nil, List.nil_append] at ho
  obtain ⟨source, hend, hsrc⟩ := hu.requireEnd hpad
  refine ⟨{ reader := { d.reader with source := source }, output := d.output.flush }, ?_, ho.flush,
    hsrc, ?_⟩
  · rw [decode, hd]
    simp only [bind, Except.bind, hend]
    rw [if_neg]
    · rfl
    · rw [ho.length_eq]
      cases hopt : options.expectedOutputLength with
      | none => simp
      | some length => simp [hexpected length hopt]
  · have hl := congrArg List.length hu.bits_eq
    rw [CodecBitReader.bits, List.length_append] at hl
    exact d.reader.reader.consumedByteCount_eq (by omega)

/-- Round trip of a stream given in three chunks and decoded from one-byte chunks. -/
theorem decode_encodeStream_chunks :
    ∃ spans, encodeStream .default { chunks := [[1, 2, 3, 1], [2, 3, 1, 2], [3]] } = .ok spans ∧
      ∀ encoded : List (List UInt8), (∀ c ∈ encoded, c ≠ []) → encoded.flatten = spans.flatten →
        ∃ d, decode { chunks := encoded } {} = .ok d ∧
          d.output.written.flatten = [1, 2, 3, 1, 2, 3, 1, 2, 3] ∧
          d.reader.source.unread = [] ∧
          d.reader.reader.consumedByteCount = d.reader.reader.byteCount :=
  decode_encodeStream .default [[1, 2, 3, 1], [2, 3, 1, 2], [3]] (by decide) {} (by decide)
    (by decide) (by simp)

end ErbslandCore.Compression.Deflate
