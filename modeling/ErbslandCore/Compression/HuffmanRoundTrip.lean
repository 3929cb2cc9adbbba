import ErbslandCore.Compression.Bzip2HuffmanTable

namespace ErbslandCore.Compression
open Library Mem CanonicalCode Deflate Bzip2
set_option autoImplicit true

/-- Decode a number of symbols one after the other. -/
def decodeSymbols (decode : CodecBitReader → Except CodecError (Nat × CodecBitReader)) :
    Nat → CodecBitReader → Except CodecError (List Nat × CodecBitReader)
  | 0, input => .ok ([], input)
  | count + 1, input => do
    let (symbol, input) ← decode input
    let (symbols, input) ← decodeSymbols decode count input
    return (symbol :: symbols, input)

/-- The unread bits of an input in a bit order. -/
def Waiting (order : BitOrder) (bits : List Bool) (input : CodecBitReader) : Prop :=
  input.reader.bitOrder = order ∧ input.unread = bits

/-- Any concatenation of canonical codes decodes to its symbols, and what follows stays unread. -/
def DecodesCodes (lengths : List Nat) (order : BitOrder)
    (decode : CodecBitReader → Except CodecError (Nat × CodecBitReader)) : Prop :=
  ∀ symbols, (∀ symbol ∈ symbols, Present lengths symbol) → ∀ rest input,
    Waiting order (symbols.flatMap (codeBits lengths) ++ rest) input →
      ∃ input', decodeSymbols decode symbols.length input = .ok (symbols, input') ∧
        Waiting order rest input'

/-- No canonical code begins another one. -/
def PrefixFree (lengths : List Nat) : Prop :=
  ∀ symbol other, Present lengths symbol → Present lengths other →
    codeBits lengths symbol <+: codeBits lengths other → symbol = other

theorem decodesCodes_of_each
    {decode : CodecBitReader → Except CodecError (Nat × CodecBitReader)}
    (h : ∀ symbol, Present lengths symbol → ∀ rest input,
      Waiting order (codeBits lengths symbol ++ rest) input →
        ∃ input', decode input = .ok (symbol, input') ∧ Waiting order rest input') :
    DecodesCodes lengths order decode := by
  intro symbols
  induction symbols with
  | nil => exact fun _ rest input hw => ⟨input, rfl, hw⟩
  | cons symbol symbols ih =>
    intro hall rest input hw
    rw [List.flatMap_cons, List.append_assoc] at hw
    obtain ⟨input₁, hfirst, hw₁⟩ := h symbol (hall symbol List.mem_cons_self) _ _ hw
    obtain ⟨input₂, hrest, hw₂⟩ := ih (fun s hs => hall s (List.mem_cons_of_mem _ hs)) rest _ hw₁
    refine ⟨input₂, ?_, hw₂⟩
    rw [List.length_cons, decodeSymbols, hfirst, ok_bind]
    simp only
    rw [hrest]
    rfl

theorem DeflateHuffmanTable.decodes {table : DeflateHuffmanTable}
    (h : ∀ symbol, Present lengths symbol → Codeword table (codeBits lengths symbol) symbol) :
    DecodesCodes lengths .leastSignificantFirst table.decode := by
  apply decodesCodes_of_each
  rintro symbol hp rest input ⟨ho, hu⟩
  have hbits : input.bits = codeBits lengths symbol ++ rest := by
    rw [← hu, CodecBitReader.unread, ho]
    rfl
  obtain ⟨input', hdecode, hunread⟩ := table.decode_codeword (h symbol hp) ⟨ho, hbits⟩
  refine ⟨input', hdecode, hunread.order, ?_⟩
  rw [CodecBitReader.unread, hunread.order]
  exact hunread.bits_eq

/-- Deflate accepts the length lists with a code in which no code is too long and all fit. -/
theorem DeflateHuffmanTable.accepts_iff {lengths : List Nat} (hs : lengths.length < 2 ^ 16) :
    (∃ table, DeflateHuffmanTable.create lengths = .ok table) ↔
      (∃ length ∈ lengths, length ≠ 0) ∧
        (∀ length ∈ lengths, length ≤ Deflate.cMaximumCodeLength) ∧
        ¬ Oversubscribed lengths Deflate.cMaximumCodeLength := by
  by_cases hne : ∃ length ∈ lengths, length ≠ 0
  · by_cases hall : ∀ length ∈ lengths, length ≤ Deflate.cMaximumCodeLength
    · have hspec := DeflateHuffmanTable.create_spec hs hne hall
      split at hspec
      case isTrue hover =>
        rw [hspec]
        exact ⟨nofun, fun h => absurd hover h.2.2⟩
      case isFalse hfits =>
        obtain ⟨table, htable, _⟩ := hspec
        exact ⟨fun _ => ⟨hne, hall, hfits⟩, fun _ => ⟨table, htable⟩⟩
    · have hbad : ∃ length ∈ lengths, Deflate.cMaximumCodeLength < length := by
        simpa using hall
      rw [DeflateHuffmanTable.create_of_invalid (.inr hbad)]
      exact ⟨nofun, fun h => absurd h.2.1 hall⟩
  · have hzero : ∀ length ∈ lengths, length = 0 := by simpa using hne
    rw [DeflateHuffmanTable.create_of_invalid (.inl hzero)]
    exact ⟨nofun, fun h => absurd h.1 hne⟩

/-- Bzip2 accepts the length lists in which every symbol has a code and all fit. -/
theorem Bzip2HuffmanTable.accepts_iff {lengths : List Nat} (hs : lengths.length < 2 ^ 16) :
    (∃ table, Bzip2HuffmanTable.create lengths = .ok table) ↔
      lengths ≠ [] ∧
        (∀ length ∈ lengths, 0 < length ∧ length ≤ Bzip2.cMaximumCodeLength) ∧
        ¬ Oversubscribed lengths Bzip2.cMaximumCodeLength := by
  by_cases hall : ∀ length ∈ lengths, 0 < length ∧ length ≤ Bzip2.cMaximumCodeLength
  · by_cases hne : lengths = []
    · rw [hne]
      exact ⟨nofun, fun h => absurd rfl h.1⟩
    · have hspec := Bzip2HuffmanTable.create_spec hs hne hall
      split at hspec
      case isTrue hover =>
        rw [hspec]
        exact ⟨nofun, fun h => absurd hover h.2.2⟩
      case isFalse hfits =>
        obtain ⟨table, htable, _⟩ := hspec
        exact ⟨fun _ => ⟨hne, hall, hfits⟩, fun _ => ⟨table, htable⟩⟩
  · have hbad : ∃ length ∈ lengths, length < 1 ∨ Bzip2.cMaximumCodeLength < length := by
      by_contra hno
      refine hall fun length hmem => ?_
      by_contra hl
      exact hno ⟨length, hmem, by omega⟩
    rw [Bzip2HuffmanTable.create_of_invalid hbad]
    exact ⟨nofun, fun h => absurd h.2.1 hall⟩

theorem fits_of_le (hf : ¬ Oversubscribed lengths limit) (h : length ≤ limit) :
    ¬ Oversubscribed lengths length := by
  rw [Oversubscribed, ← endCode_eq_weight]
  exact Nat.not_lt.mpr (endCode_le hf h)

theorem Bzip2HuffmanTable.decodes {table : Bzip2HuffmanTable}
    (h : Entered lengths table table.maximumLength)
    (h20 : table.maximumLength ≤ Bzip2.cMaximumCodeLength)
    (hf : ¬ Oversubscribed lengths Bzip2.cMaximumCodeLength)
    (hm : ∀ length ∈ lengths, length ≤ table.maximumLength) :
    DecodesCodes lengths .mostSignificantFirst table.decode := by
  apply decodesCodes_of_each
  rintro symbol hp rest input ⟨ho, hu⟩
  have hl : lengths[symbol]! ≤ table.maximumLength := by
    rw [getElem!_pos lengths symbol hp.1]
    exact hm _ (List.getElem_mem hp.1)
  exact Bzip2HuffmanTable.decode_codeBits h h20 (fits_of_le hf h20) hp hl ho hu

/-- What both tables accept is a prefix-free code that they decode, and they accept exactly the
valid length lists that fit into the code space. -/
theorem accepted_lengths_decode {lengths : List Nat} (hs : lengths.length < 2 ^ 16) :
    (∀ table, DeflateHuffmanTable.create lengths = .ok table →
      PrefixFree lengths ∧ DecodesCodes lengths .leastSignificantFirst table.decode) ∧
    ((∃ table, DeflateHuffmanTable.create lengths = .ok table) ↔
      (∃ length ∈ lengths, length ≠ 0) ∧
        (∀ length ∈ lengths, length ≤ Deflate.cMaximumCodeLength) ∧
        ¬ Oversubscribed lengths Deflate.cMaximumCodeLength) ∧
    (∀ table, Bzip2HuffmanTable.create lengths = .ok table →
      PrefixFree lengths ∧ DecodesCodes lengths .mostSignificantFirst table.decode) ∧
    ((∃ table, Bzip2HuffmanTable.create lengths = .ok table) ↔
      lengths ≠ [] ∧
        (∀ length ∈ lengths, 0 < length ∧ length ≤ Bzip2.cMaximumCodeLength) ∧
        ¬ Oversubscribed lengths Bzip2.cMaximumCodeLength) := by
  refine ⟨fun table htable => ?_, DeflateHuffmanTable.accepts_iff hs, fun table htable => ?_,
    Bzip2HuffmanTable.accepts_iff hs⟩
  · obtain ⟨hne, hall, hfits⟩ := (DeflateHuffmanTable.accepts_iff hs).mp ⟨table, htable⟩
    have hspec := DeflateHuffmanTable.create_spec hs hne hall
    rw [if_neg hfits] at hspec
    obtain ⟨table', htable', hwords⟩ := hspec
    rw [htable] at htable'
    cases htable'
    exact ⟨fun _ _ hp ho => prefix_free hfits hall hp ho, DeflateHuffmanTable.decodes hwords⟩
  · obtain ⟨hne, hall, hfits⟩ := (Bzip2HuffmanTable.accepts_iff hs).mp ⟨table, htable⟩
    have hspec := Bzip2HuffmanTable.create_spec hs hne hall
    rw [if_neg hfits] at hspec
    obtain ⟨table', htable', h20, hm, hentered⟩ := hspec
    rw [htable] at htable'
    cases htable'
    exact ⟨fun _ _ hp ho => prefix_free hfits (fun l hl => (hall l hl).2) hp ho,
      Bzip2HuffmanTable.decodes hentered h20 hfits hm⟩

/-- Three symbols that fill the code space. -/
theorem accepted_lengths_decode_three :
    ∃ table, DeflateHuffmanTable.create [1, 2, 2] = .ok table ∧
      DecodesCodes [1, 2, 2] .leastSignificantFirst table.decode :=
  have h := accepted_lengths_decode (show [1, 2, 2].length < 2 ^ 16 by decide)
  (h.2.1.mpr (by decide)).imp fun table htable => ⟨htable, (h.1 table htable).2⟩

theorem zero_counts {counts : List Nat} (hl : counts.length = n + 1)
    (h : ∀ k ≤ n, counts[k]! = 0) : counts = List.replicate (n + 1) 0 := by
  apply ext_getElem! (hl.trans List.length_replicate.symm)
  intro k hk
  rw [h k (by omega), getElem!_pos _ k (by rw [List.length_replicate]; omega),
    List.getElem_replicate]

theorem count_replicate_mod (k : Nat) : (List.replicate (2 ^ 16) 1).count k % 2 ^ 16 = 0 := by
  rw [List.count_replicate]
  split
  case isTrue => exact Nat.mod_self _
  case isFalse => exact Nat.zero_mod _

/-- The counter of a length wraps to zero at 65536 symbols, and the code space looks empty. -/
theorem wrapped_counters_accept :
    Oversubscribed (List.replicate (2 ^ 16) 1) Deflate.cMaximumCodeLength ∧
      (∃ table, DeflateHuffmanTable.create (List.replicate (2 ^ 16) 1) = .ok table) ∧
      (∃ table, Bzip2HuffmanTable.create (List.replicate (2 ^ 16) 1) = .ok table) := by
  have hmem : 1 ∈ List.replicate (2 ^ 16) 1 := List.mem_replicate.mpr ⟨by decide, rfl⟩
  have hone : ∀ length ∈ List.replicate (2 ^ 16) 1, length = 1 :=
    fun length h => (List.mem_replicate.mp h).2
  refine ⟨?_, ?_, ?_⟩
  · rw [Oversubscribed, weight, List.map_replicate, List.sum_replicate]
    decide
  · obtain ⟨counts, hl, hcounts, hcreate⟩ := DeflateHuffmanTable.create_counts
      ⟨1, hmem, Nat.one_ne_zero⟩ (fun l h => by rw [hone l h]; decide)
    have hzero : counts = List.replicate (Deflate.cMaximumCodeLength + 1) 0 := by
      refine zero_counts hl fun k hk => ?_
      rw [hcounts k hk, countOf]
      split
      case isTrue => rfl
      case isFalse => exact count_replicate_mod k
    have hcheck : checkAvailable (List.replicate (Deflate.cMaximumCodeLength + 1) 0) 1
        (List.range' 1 Deflate.cMaximumCodeLength) = .ok () := by decide
    rw [hcreate, hzero, hcheck]
    exact ⟨_, rfl⟩
  · obtain ⟨counts, hok, hl, hget⟩ := Bzip2.countLengths_eq
      (fun l h => by rw [hone l h]; decide) 0
      (List.length_replicate (n := Bzip2.cMaximumCodeLength + 1) (a := 0))
      (fun k => (Bzip2HuffmanTable.emptySlots_getElem! k).trans_lt (by decide))
    have hzero : counts = Bzip2HuffmanTable.emptySlots := by
      refine zero_counts hl fun k hk => ?_
      have hslot := Bzip2HuffmanTable.emptySlots_getElem! k
      rw [Bzip2HuffmanTable.emptySlots] at hslot
      rw [hget k hk, hslot, Nat.zero_add]
      exact count_replicate_mod k
    have hmax := (le_foldl_max (List.replicate (2 ^ 16) 1) 0).2 1 hmem
    have hassign : ∃ next, assignFirstCodes Bzip2HuffmanTable.emptySlots 0
        Bzip2HuffmanTable.emptySlots (List.range' 1 Bzip2.cMaximumCodeLength) = .ok next :=
      ⟨_, rfl⟩
    obtain ⟨next, hnext⟩ := hassign
    rw [Bzip2HuffmanTable.create, Bzip2HuffmanTable.emptySlots, hok, ok_bind]
    dsimp only
    rw [if_neg (by omega), hzero]
    rw [Bzip2HuffmanTable.emptySlots] at hnext ⊢
    rw [hnext]
    exact ⟨_, rfl⟩

end ErbslandCore.Compression
