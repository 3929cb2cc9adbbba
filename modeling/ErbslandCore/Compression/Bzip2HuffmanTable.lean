import ErbslandCore.Compression.ChunkedReads
import ErbslandCore.Compression.DeflateHuffmanCodes

namespace ErbslandCore.Compression.Bzip2
open Library Mem CanonicalCode
set_option autoImplicit true

def cMaximumCodeLength : Nat := 20

/-- A canonical code by its first code and its symbols for each length. -/
structure Bzip2HuffmanTable where
  firstCodes : List Nat
  firstSymbols : List Nat
  symbolCounts : List Nat
  symbols : List Nat
  maximumLength : Nat
  deriving DecidableEq

def countLengths (counts : List Nat) (maximumLength : Nat) :
    (lengths : List Nat) → Except CodecError (List Nat × Nat)
  | [] => .ok (counts, maximumLength)
  | length :: lengths =>
    if length < 1 ∨ cMaximumCodeLength < length then
      throwMalformed "Bzip2 Huffman length is invalid."
    else countLengths (counts.set length ((counts[length]! + 1) % 2 ^ 16))
      (max maximumLength length) lengths

def assignFirstCodes (counts : List Nat) (code : Nat) (next : List Nat) :
    (lengths : List Nat) → Except CodecError (List Nat)
  | [] => .ok next
  | length :: lengths =>
    let code := ((code + counts[length - 1]!) <<< 1) % 2 ^ 32
    if 1 <<< length < (code + counts[length]!) % 2 ^ 32 then
      throwMalformed "Bzip2 Huffman tree is oversubscribed."
    else assignFirstCodes counts code (next.set length code) lengths

/-- The symbols with a code of this length, in symbol order. -/
def symbolsOf (lengths : List Nat) (length : Nat) : List Nat :=
  ((List.range lengths.length).filter fun symbol => lengths[symbol]! = length).map (· % 2 ^ 16)

/-- Enter the symbols of the given code lengths. -/
def enterLengths (lengths counts next : List Nat) (table : Bzip2HuffmanTable) :
    (codeLengths : List Nat) → Bzip2HuffmanTable
  | [] => table
  | length :: codeLengths =>
    enterLengths lengths counts next {
      firstCodes := table.firstCodes.set length next[length]!
      firstSymbols := table.firstSymbols.set length (table.symbols.length % 2 ^ 16)
      symbolCounts := table.symbolCounts.set length counts[length]!
      symbols := table.symbols ++ symbolsOf lengths length
      maximumLength := table.maximumLength } codeLengths

namespace Bzip2HuffmanTable

def emptySlots : List Nat := List.replicate (cMaximumCodeLength + 1) 0

/-- Build a canonical table from symbol code lengths. -/
def create (lengths : List Nat) : Except CodecError Bzip2HuffmanTable := do
  let (counts, maximumLength) ← countLengths emptySlots 0 lengths
  if maximumLength = 0 then throwMalformed "Bzip2 Huffman tree is empty."
  else
    let next ← assignFirstCodes counts 0 emptySlots (List.range' 1 cMaximumCodeLength)
    return enterLengths lengths counts next
      { firstCodes := emptySlots
        firstSymbols := emptySlots
        symbolCounts := emptySlots
        symbols := []
        maximumLength := maximumLength } (List.range' 1 maximumLength)

/-- Try the code lengths one after the other. -/
def decodeLoop (table : Bzip2HuffmanTable) (bits available position : Nat)
    (input : CodecBitReader) : (codeLengths : List Nat) → Except CodecError (Nat × CodecBitReader)
  | [] => throwMalformed "Bzip2 Huffman code is invalid."
  | length :: codeLengths =>
    let code := bits >>> (available - length)
    let firstCode := table.firstCodes[length]!
    if firstCode ≤ code ∧ code - firstCode < table.symbolCounts[length]! then
      match table.symbols[table.firstSymbols[length]! + code - firstCode]? with
      | some symbol =>
        .ok (symbol, { input with reader := input.reader.setBitPosition (position + length) })
      | none => .error (.outOfRange "vector::at")
    else decodeLoop table bits available position input codeLengths

/-- Decode one symbol without reading past its final bit. -/
def decode (table : Bzip2HuffmanTable) (input : CodecBitReader) :
    Except CodecError (Nat × CodecBitReader) := do
  let input ← input.buffered table.maximumLength
  let available := min table.maximumLength input.reader.remainingBitCount
  if available = 0 then throwMalformed "Bzip2 bit stream is truncated."
  else
    let position := input.reader.bitPosition
    let (bits, reader) := input.reader.readBits available
    decodeLoop table bits available position { input with reader := reader }
      (List.range' 1 available)

end Bzip2HuffmanTable

theorem getElem!_set_ite (values : List Nat) (i value : Nat) (hk : k < values.length) :
    (values.set i value)[k]! = if i = k then value else values[k]! := by
  rw [getElem!_pos (values.set i value) k (by simpa), getElem!_pos values k hk, List.getElem_set]

/-- The counters wrap at sixteen bits. -/
theorem countLengths_eq {counts lengths : List Nat}
    (h : ∀ length ∈ lengths, 0 < length ∧ length ≤ cMaximumCodeLength) (maximumLength : Nat)
    (hc : counts.length = cMaximumCodeLength + 1) (hlt : ∀ k : Nat, counts[k]! < 2 ^ 16) :
    ∃ counts', countLengths counts maximumLength lengths =
        .ok (counts', lengths.foldl max maximumLength) ∧
      counts'.length = cMaximumCodeLength + 1 ∧
      ∀ k ≤ cMaximumCodeLength, counts'[k]! = (counts[k]! + lengths.count k) % 2 ^ 16 := by
  induction lengths generalizing counts maximumLength with
  | nil =>
    refine ⟨counts, rfl, hc, fun k _ => ?_⟩
    rw [List.count_nil, Nat.add_zero]
    exact (Nat.mod_eq_of_lt (hlt k)).symm
  | cons length lengths ih =>
    obtain ⟨hpos, hle⟩ := h length List.mem_cons_self
    have hset (k : Nat) (hk : k < counts.length) :
        (counts.set length ((counts[length]! + 1) % 2 ^ 16))[k]! =
          if length = k then (counts[k]! + 1) % 2 ^ 16 else counts[k]! := by
      rw [getElem!_set_ite _ _ _ hk]
      split
      case isTrue he => rw [he]
      case isFalse => rfl
    obtain ⟨counts', hok, hl, hget⟩ := ih (fun l hl => h l (List.mem_cons_of_mem _ hl))
      (max maximumLength length) ((List.length_set ..).trans hc) (fun k => by
        by_cases hk : k < counts.length
        · rw [hset k hk]
          split
          case isTrue => exact Nat.mod_lt _ (by decide)
          case isFalse => exact hlt k
        · have hk' : ¬ k < (counts.set length ((counts[length]! + 1) % 2 ^ 16)).length := by
            rwa [List.length_set]
          rw [getElem!_neg _ k hk']
          decide)
    refine ⟨counts', ?_, hl, fun k hk => ?_⟩
    · rw [countLengths, if_neg (by omega), hok]
      rfl
    · rw [hget k hk, hset k (by omega), List.count_cons]
      by_cases he : length = k
      · subst he
        rw [if_pos rfl, beq_self_eq_true, if_pos rfl, Nat.mod_add_mod]
        congr 1
        omega
      · rw [if_neg he, beq_false_of_ne he]
        rfl

theorem countLengths_invalid {counts lengths : List Nat} (maximumLength : Nat)
    (h : ∃ length ∈ lengths, length < 1 ∨ cMaximumCodeLength < length) :
    countLengths counts maximumLength lengths =
      throwMalformed "Bzip2 Huffman length is invalid." := by
  induction lengths generalizing counts maximumLength with
  | nil =>
    obtain ⟨_, hmem, _⟩ := h
    cases hmem
  | cons length lengths ih =>
    rw [countLengths]
    by_cases hl : length < 1 ∨ cMaximumCodeLength < length
    · rw [if_pos hl]
    · rw [if_neg hl]
      obtain ⟨l, hmem, hbad⟩ := h
      rcases List.mem_cons.mp hmem with rfl | hmem
      · exact absurd hbad hl
      · exact ih _ ⟨l, hmem, hbad⟩

theorem endCode_lt (hend : endCode lengths k ≤ 2 ^ k) (h : k ≤ cMaximumCodeLength) :
    2 * endCode lengths k < 2 ^ 31 := by
  have hpow : 2 ^ k ≤ 2 ^ cMaximumCodeLength := Nat.pow_le_pow_right (by decide) h
  have hmax : 2 ^ cMaximumCodeLength < 2 ^ 30 := by decide
  omega

/-- The loop stores the first code of each length as long as the codes fit. -/
theorem assignFirstCodes_eq {counts next : List Nat}
    (hc : ∀ k ≤ cMaximumCodeLength, counts[k]! = countOf lengths k)
    (hcl : ∀ k, countOf lengths k < 2 ^ 16) (hk : k + n ≤ cMaximumCodeLength)
    (hlen : next.length = cMaximumCodeLength + 1) (hend : endCode lengths k ≤ 2 ^ k) :
    if Oversubscribed lengths (k + n) then
      assignFirstCodes counts (firstCode lengths k) next (List.range' (k + 1) n) =
        throwMalformed "Bzip2 Huffman tree is oversubscribed."
    else ∃ next', assignFirstCodes counts (firstCode lengths k) next (List.range' (k + 1) n) =
        .ok next' ∧
      ∀ length ≤ cMaximumCodeLength, next'[length]! =
        if k < length ∧ length ≤ k + n then firstCode lengths length else next[length]! := by
  induction n generalizing k next with
  | zero =>
    have hf : ¬ Oversubscribed lengths (k + 0) := by
      rw [Nat.add_zero, Oversubscribed, ← endCode_eq_weight]
      exact Nat.not_lt.mpr hend
    rw [if_neg hf]
    refine ⟨next, rfl, fun length _ => ?_⟩
    rw [if_neg (by omega)]
  | succ n ih =>
    have hsmall := endCode_lt hend (by omega)
    have hcount := hcl (k + 1)
    have hfirst : firstCode lengths (k + 1) = 2 * endCode lengths k := rfl
    have hstep : ((firstCode lengths k + counts[k + 1 - 1]!) <<< 1) % 2 ^ 32 =
        firstCode lengths (k + 1) := by
      rw [Nat.add_sub_cancel, hc k (by omega), Nat.shiftLeft_eq, Nat.pow_one, Nat.mul_comm]
      exact Nat.mod_eq_of_lt (by rw [endCode] at hsmall; omega)
    have hnext : (firstCode lengths (k + 1) + counts[k + 1]!) % 2 ^ 32 =
        endCode lengths (k + 1) := by
      rw [hc _ (by omega), endCode]
      exact Nat.mod_eq_of_lt (by omega)
    rw [List.range'_succ, assignFirstCodes]
    simp only [hstep, hnext, Nat.one_shiftLeft]
    have hsum : k + 1 + n = k + (n + 1) := by omega
    by_cases hlt : 2 ^ (k + 1) < endCode lengths (k + 1)
    · have hover := oversubscribed_of_endCode (show k + 1 ≤ k + (n + 1) by omega) hlt
      rw [if_pos hover, if_pos hlt]
    · have hset : (next.set (k + 1) (firstCode lengths (k + 1))).length = next.length :=
        List.length_set ..
      have hrest := ih (by omega) (hset.trans hlen) (Nat.le_of_not_gt hlt)
      rw [hsum] at hrest
      rw [if_neg hlt]
      split at hrest
      case isTrue hover =>
        rw [if_pos hover]
        exact hrest
      case isFalse hover =>
        obtain ⟨next', hok, hget⟩ := hrest
        rw [if_neg hover]
        refine ⟨next', hok, fun length hl => ?_⟩
        rw [hget length hl, getElem!_set_ite _ _ _ (by omega)]
        by_cases h₁ : k + 1 < length ∧ length ≤ k + (n + 1)
        · rw [if_pos h₁, if_pos (by omega)]
        · rw [if_neg h₁]
          by_cases h₂ : k + 1 = length
          · rw [if_pos h₂, if_pos (by omega), h₂]
          · rw [if_neg h₂, if_neg (by omega)]

theorem filter_range_length (lengths : List Nat) (length : Nat) (h : n ≤ lengths.length) :
    ((List.range n).filter fun symbol => lengths[symbol]! = length).length =
      (lengths.take n).count length := by
  induction n with
  | zero => rfl
  | succ n ih =>
    rw [List.range_succ, List.filter_append, List.length_append, ih (by omega),
      count_take_succ (by omega), List.filter_singleton]
    by_cases he : lengths[n]! = length
    · rw [decide_eq_true he, if_pos he]
      rfl
    · rw [decide_eq_false he, if_neg he]
      rfl

theorem symbolsOf_length (lengths : List Nat) (length : Nat) :
    (symbolsOf lengths length).length = lengths.count length := by
  rw [symbolsOf, List.length_map, filter_range_length lengths length (Nat.le_refl _),
    List.take_length]

/-- A symbol stands at its rank among the symbols of its length. -/
theorem symbolsOf_rank (hs : lengths.length ≤ 2 ^ 16) (h : Present lengths symbol) :
    (symbolsOf lengths lengths[symbol]!)[rank lengths symbol]? = some symbol := by
  obtain ⟨n, hn⟩ := Nat.exists_eq_add_of_lt h.1
  have hsplit : List.range lengths.length =
      List.range symbol ++ symbol :: (List.range n).map (symbol + 1 + ·) := by
    rw [hn, Nat.add_assoc, List.range_add, Nat.add_comm n 1, List.range_add, List.map_append,
      List.map_map]
    simp [Function.comp_def, Nat.add_assoc]
  rw [symbolsOf, hsplit, List.filter_append, List.filter_cons_of_pos (by simp), List.map_append,
    List.map_cons, List.getElem?_append_right]
  · rw [List.length_map, filter_range_length _ _ h.1.le, rank, Nat.sub_self,
      Nat.mod_eq_of_lt (by omega)]
    rfl
  · rw [List.length_map, filter_range_length _ _ h.1.le, rank]

theorem countP_le_succ (lengths : List Nat) (k : Nat) :
    lengths.countP (· ≤ k + 1) = lengths.countP (· ≤ k) + lengths.count (k + 1) := by
  induction lengths with
  | nil => rfl
  | cons length lengths ih =>
    rw [List.countP_cons, List.countP_cons, List.count_cons, ih]
    by_cases h₁ : length ≤ k
    · simp [h₁, show length ≤ k + 1 by omega, show length ≠ k + 1 by omega]
      omega
    · by_cases h₂ : length = k + 1
      · simp [h₂, Nat.add_assoc]
      · simp [h₁, h₂, show ¬ length ≤ k + 1 by omega]

/-- The table knows the canonical codes up to a length. -/
structure Entered (lengths : List Nat) (table : Bzip2HuffmanTable) (k : Nat) : Prop where
  firstCodes_length : table.firstCodes.length = cMaximumCodeLength + 1
  firstSymbols_length : table.firstSymbols.length = cMaximumCodeLength + 1
  symbolCounts_length : table.symbolCounts.length = cMaximumCodeLength + 1
  symbols_length : table.symbols.length ≤ lengths.countP (· ≤ k)
  first_eq : ∀ length, 0 < length → length ≤ k →
    table.firstCodes[length]! = firstCode lengths length
  count_eq : ∀ length, 0 < length → length ≤ k →
    table.symbolCounts[length]! = countOf lengths length
  symbol_eq : ∀ symbol, Present lengths symbol → lengths[symbol]! ≤ k →
    table.symbols[table.firstSymbols[lengths[symbol]!]! + rank lengths symbol]? = some symbol

/-- Entering the symbols of the next length keeps the earlier ones. -/
theorem enterLengths_entered {counts next : List Nat} {table : Bzip2HuffmanTable}
    (h : Entered lengths table k) (hs : lengths.length < 2 ^ 16) (hk : k + n ≤ cMaximumCodeLength)
    (hnext : ∀ length, 0 < length → length ≤ cMaximumCodeLength →
      next[length]! = firstCode lengths length)
    (hc : ∀ length ≤ cMaximumCodeLength, counts[length]! = countOf lengths length) :
    Entered lengths (enterLengths lengths counts next table (List.range' (k + 1) n)) (k + n) ∧
      (enterLengths lengths counts next table (List.range' (k + 1) n)).maximumLength =
        table.maximumLength := by
  induction n generalizing k table with
  | zero => exact ⟨h, rfl⟩
  | succ n ih =>
    have hcountP : lengths.countP (· ≤ k) ≤ lengths.length := List.countP_le_length
    have hsym := h.symbols_length
    have hcodes := h.firstCodes_length
    have hfirsts := h.firstSymbols_length
    have hcounts := h.symbolCounts_length
    have hstep : Entered lengths {
        firstCodes := table.firstCodes.set (k + 1) next[k + 1]!
        firstSymbols := table.firstSymbols.set (k + 1) (table.symbols.length % 2 ^ 16)
        symbolCounts := table.symbolCounts.set (k + 1) counts[k + 1]!
        symbols := table.symbols ++ symbolsOf lengths (k + 1)
        maximumLength := table.maximumLength } (k + 1) := by
      refine ⟨(List.length_set ..).trans hcodes, (List.length_set ..).trans hfirsts,
        (List.length_set ..).trans hcounts, ?_, fun length hpos hl => ?_, fun length hpos hl => ?_,
        fun symbol hp hl => ?_⟩
      · rw [List.length_append, symbolsOf_length, countP_le_succ]
        omega
      · dsimp only
        rw [getElem!_set_ite _ _ _ (by omega)]
        split
        case isTrue he => rw [he, hnext length hpos (by omega)]
        case isFalse he => exact h.first_eq length hpos (by omega)
      · dsimp only
        rw [getElem!_set_ite _ _ _ (by omega)]
        split
        case isTrue he => rw [he, hc length (by omega)]
        case isFalse he => exact h.count_eq length hpos (by omega)
      · dsimp only
        rw [getElem!_set_ite _ _ _ (by omega)]
        split
        case isTrue he =>
          rw [Nat.mod_eq_of_lt (by omega), List.getElem?_append_right (Nat.le_add_right _ _),
            Nat.add_sub_cancel_left, he]
          exact symbolsOf_rank hs.le hp
        case isFalse he =>
          have hold := h.symbol_eq symbol hp (by omega)
          rwa [List.getElem?_append_left (List.getElem?_eq_some_iff.mp hold).1]
    obtain ⟨hrest, hmax⟩ := ih hstep (by omega)
    rw [List.range'_succ, enterLengths]
    rw [show k + 1 + n = k + (n + 1) by omega] at hrest
    exact ⟨hrest, hmax⟩

namespace Bzip2HuffmanTable

theorem emptySlots_getElem! (k : Nat) : emptySlots[k]! = 0 := by
  by_cases hk : k < emptySlots.length
  · rw [getElem!_pos _ k hk]
    exact List.getElem_replicate ..
  · exact getElem!_neg _ k hk

theorem create_of_invalid {lengths : List Nat}
    (h : ∃ length ∈ lengths, length < 1 ∨ cMaximumCodeLength < length) :
    create lengths = throwMalformed "Bzip2 Huffman length is invalid." := by
  rw [create, countLengths_invalid _ h]
  rfl

/-- Length lists over a full code space are rejected, and all others give a table that knows the
canonical code of every symbol. -/
theorem create_spec {lengths : List Nat} (hs : lengths.length < 2 ^ 16) (hne : lengths ≠ [])
    (hall : ∀ length ∈ lengths, 0 < length ∧ length ≤ cMaximumCodeLength) :
    if Oversubscribed lengths cMaximumCodeLength then
      create lengths = throwMalformed "Bzip2 Huffman tree is oversubscribed."
    else ∃ table, create lengths = .ok table ∧ table.maximumLength ≤ cMaximumCodeLength ∧
      (∀ length ∈ lengths, length ≤ table.maximumLength) ∧
      Entered lengths table table.maximumLength := by
  obtain ⟨counts, hok, _, hget⟩ := countLengths_eq hall 0
    (List.length_replicate (n := cMaximumCodeLength + 1) (a := 0))
    (fun k => by
      have h := emptySlots_getElem! k
      rw [emptySlots] at h
      rw [h]
      decide)
  have hcl (k : Nat) : countOf lengths k < 2 ^ 16 := by
    have hle : countOf lengths k ≤ lengths.length := by
      rw [countOf]
      split
      case isTrue => exact Nat.zero_le _
      case isFalse => exact List.count_le_length
    omega
  have hc (k : Nat) (hk : k ≤ cMaximumCodeLength) : counts[k]! = countOf lengths k := by
    have hzero := emptySlots_getElem! k
    rw [emptySlots] at hzero
    rw [hget k hk, hzero, Nat.zero_add, countOf]
    split
    case isTrue h0 =>
      have hnone : lengths.count 0 = 0 := List.count_eq_zero.mpr fun h => by
        have hpos := (hall 0 h).1
        omega
      rw [h0, hnone, Nat.zero_mod]
    case isFalse => exact Nat.mod_eq_of_lt (List.count_le_length.trans_lt hs)
  obtain ⟨hmax, hmem⟩ := Deflate.le_foldl_max lengths 0
  have h20 := Deflate.foldl_max_le (fun l hl => (hall l hl).2) (Nat.zero_le cMaximumCodeLength)
  have hpos : lengths.foldl max 0 ≠ 0 := by
    obtain ⟨length, rest, rfl⟩ := List.exists_cons_of_ne_nil hne
    have hle := hmem length List.mem_cons_self
    have h0 := (hall length List.mem_cons_self).1
    omega
  have hassign := assignFirstCodes_eq (k := 0) (n := cMaximumCodeLength) hc hcl (by omega)
    (List.length_replicate (n := cMaximumCodeLength + 1) (a := 0)) (Nat.zero_le _)
  rw [Nat.zero_add, Nat.zero_add] at hassign
  rw [create, emptySlots, hok, ok_bind]
  dsimp only
  rw [if_neg hpos]
  split at hassign
  case isTrue hover =>
    have h0 : firstCode lengths 0 = 0 := rfl
    rw [h0] at hassign
    rw [if_pos hover, hassign]
    rfl
  case isFalse hover =>
    obtain ⟨next, hnext, hfirst⟩ := hassign
    have h0 : firstCode lengths 0 = 0 := rfl
    rw [h0] at hnext
    rw [if_neg hover, hnext, ok_bind]
    have hempty : Entered lengths
        { firstCodes := List.replicate (cMaximumCodeLength + 1) 0
          firstSymbols := List.replicate (cMaximumCodeLength + 1) 0
          symbolCounts := List.replicate (cMaximumCodeLength + 1) 0
          symbols := []
          maximumLength := lengths.foldl max 0 } 0 := by
      refine ⟨List.length_replicate, List.length_replicate, List.length_replicate, Nat.zero_le _,
        fun length hp hl => ?_, fun length hp hl => ?_, fun symbol hp hl => ?_⟩
      · omega
      · omega
      · exact absurd (Nat.le_zero.mp hl) hp.2
    obtain ⟨hentered, hm⟩ := enterLengths_entered hempty hs
      (show 0 + lengths.foldl max 0 ≤ cMaximumCodeLength by omega)
      (fun length hp hl => by rw [hfirst length hl, if_pos ⟨hp, hl⟩]) hc
    rw [Nat.zero_add, Nat.zero_add] at hentered
    rw [Nat.zero_add] at hm
    refine ⟨_, rfl, ?_, ?_, ?_⟩
    · rw [hm]
      exact h20
    · rw [hm]
      exact hmem
    · rw [hm]
      exact hentered

/-- The loop passes the shorter lengths by and stops at the length of the code. -/
theorem decodeLoop_code {table : Bzip2HuffmanTable} (h : Entered lengths table table.maximumLength)
    (hp : Present lengths symbol) (hm : lengths[symbol]! ≤ table.maximumLength)
    (ha : lengths[symbol]! ≤ available)
    (hbits : bits / 2 ^ (available - lengths[symbol]!) = codeOf lengths symbol)
    (position : Nat) (input : CodecBitReader) (hk : k < lengths[symbol]!)
    (hn : lengths[symbol]! ≤ k + n) :
    decodeLoop table bits available position input (List.range' (k + 1) n) =
      .ok (symbol, { input with
        reader := input.reader.setBitPosition (position + lengths[symbol]!) }) := by
  induction n generalizing k with
  | zero => omega
  | succ n ih =>
    have hfirst := h.first_eq (k + 1) (by omega) (by omega)
    have hcount := h.count_eq (k + 1) (by omega) (by omega)
    rw [List.range'_succ, decodeLoop]
    simp only [Nat.shiftRight_eq_div_pow, hfirst, hcount]
    by_cases he : k + 1 = lengths[symbol]!
    · have hrank := rank_lt hp
      have hsymbol := h.symbol_eq symbol hp hm
      have hcode : codeOf lengths symbol = firstCode lengths lengths[symbol]! +
        rank lengths symbol := rfl
      have hindex : table.firstSymbols[lengths[symbol]!]! + codeOf lengths symbol -
          firstCode lengths lengths[symbol]! =
          table.firstSymbols[lengths[symbol]!]! + rank lengths symbol := by omega
      rw [he, hbits, if_pos (by omega), hindex, hsymbol]
    · have hdiv : bits / 2 ^ (available - (k + 1)) =
          codeOf lengths symbol / 2 ^ (lengths[symbol]! - (k + 1)) := by
        rw [← hbits, Nat.div_div_eq_div_mul, ← Nat.pow_add]
        congr 2
        omega
      have hbehind := endCode_le_div symbol (show k + 1 < lengths[symbol]! by omega)
      rw [← hdiv, endCode] at hbehind
      rw [if_neg (by omega)]
      exact ih (by omega) (by omega)

/-- Decoding the bits of a canonical code gives its symbol and consumes exactly these bits. -/
theorem decode_codeBits {table : Bzip2HuffmanTable} {input : CodecBitReader}
    (h : Entered lengths table table.maximumLength) (h20 : table.maximumLength ≤ cMaximumCodeLength)
    (hf : ¬ Oversubscribed lengths table.maximumLength) (hp : Present lengths symbol)
    (hm : lengths[symbol]! ≤ table.maximumLength)
    (ho : input.reader.bitOrder = .mostSignificantFirst)
    (hu : input.unread = codeBits lengths symbol ++ rest) :
    ∃ input', table.decode input = .ok (symbol, input') ∧
      input'.reader.bitOrder = .mostSignificantFirst ∧ input'.unread = rest := by
  have hmax : cMaximumCodeLength ≤ 64 := by decide
  obtain ⟨next, hr, hno, hbuf, hb⟩ := input.canRead_bitsIn table.maximumLength (by omega)
  have hnu : next.unread = codeBits lengths symbol ++ rest := by
    rw [← hu, CodecBitReader.unread, hno, hb, CodecBitReader.unread]
  have hsplit : next.reader.unread ++ orderedBits next.reader.bitOrder next.source.unread =
      codeBits lengths symbol ++ rest := hnu
  generalize havail : min table.maximumLength next.reader.remainingBitCount = available
  have hl : lengths[symbol]! ≤ next.reader.unread.length := by
    by_contra hlt
    have hempty := hbuf (by rw [BitReader.bits_length, ← BitReader.unread_length]; omega)
    have hlen := congrArg List.length hsplit
    rw [hempty, orderedBits_nil, List.append_nil, List.length_append, codeBits_length] at hlen
    omega
  rw [BitReader.unread_length] at hl
  have hpos := Nat.pos_of_ne_zero hp.2
  have hread := next.reader.readBits_unread (n := available) (by omega)
    (by rw [BitReader.unread_length]; omega)
  have htake : next.reader.unread.take available = codeBits lengths symbol ++
      (next.reader.unread.drop lengths[symbol]!).take (available - lengths[symbol]!) := by
    have hfirst : next.reader.unread.take lengths[symbol]! = codeBits lengths symbol := by
      have htake := congrArg (List.take lengths[symbol]!) hsplit
      rwa [List.take_append_of_le_length (by rwa [BitReader.unread_length]),
        List.take_left' (codeBits_length symbol)] at htake
    rw [← hfirst, ← List.take_add]
    congr 1
    omega
  generalize htail : (next.reader.unread.drop lengths[symbol]!).take
    (available - lengths[symbol]!) = tail at htake
  have htl : tail.length = available - lengths[symbol]! := by
    rw [← htail, List.length_take, List.length_drop, BitReader.unread_length]
    omega
  have hcode : fieldValue .mostSignificantFirst (codeBits lengths symbol) =
      codeOf lengths symbol := by
    have hfield := fieldValue_fieldBits .mostSignificantFirst lengths[symbol]!
      (codeOf lengths symbol)
    rw [Nat.mod_eq_of_lt (codeOf_lt hf hp hm)] at hfield
    exact hfield
  have hbits : fieldValue .mostSignificantFirst (next.reader.unread.take available) /
      2 ^ (available - lengths[symbol]!) = codeOf lengths symbol := by
    have hlt := fieldValue_lt .mostSignificantFirst tail
    rw [htl] at hlt
    rw [htake, fieldValue_append_most, hcode, htl, Nat.add_comm,
      Nat.add_mul_div_right _ _ (Nat.two_pow_pos _), Nat.div_eq_of_lt hlt, Nat.zero_add]
  rw [hno.trans ho] at hread
  have hloop := decodeLoop_code h hp hm (by omega) hbits next.reader.bitPosition
    { next with reader := next.reader.advance available } hpos
    (show lengths[symbol]! ≤ 0 + available by omega)
  have hset := next.reader.setBitPosition_advance (n := available)
    (show lengths[symbol]! ≤ next.reader.bits.length by rw [BitReader.bits_length]; omega)
  refine ⟨{ next with reader := next.reader.advance lengths[symbol]! }, ?_, hno.trans ho, ?_⟩
  · rw [decode, CodecBitReader.buffered, hr, ok_bind]
    simp only [bind, Except.bind, pure, Except.pure, havail]
    rw [if_neg (by omega), hread]
    simp only
    rw [hloop]
    simp only [hset]
  · have hrest := congrArg (List.drop lengths[symbol]!) hsplit
    rw [List.drop_append_of_le_length (by rwa [BitReader.unread_length]),
      List.drop_left' (codeBits_length symbol), ← BitReader.advance_unread] at hrest
    exact hrest

end Bzip2HuffmanTable

end ErbslandCore.Compression.Bzip2
