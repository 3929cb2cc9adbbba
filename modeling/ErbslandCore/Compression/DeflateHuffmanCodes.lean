import ErbslandCore.Compression.DeflateHuffmanTable
import ErbslandCore.Library.CanonicalCode

namespace ErbslandCore.Compression.Deflate
open Library Mem CanonicalCode
set_option autoImplicit true

theorem getElem!_set_ite (values : List Nat) (i value : Nat) (hk : k < values.length) :
    (values.set i value)[k]! = if i = k then value else values[k]! := by
  rw [getElem!_pos (values.set i value) k (by simpa), getElem!_pos values k hk, List.getElem_set]

theorem le_foldl_max (lengths : List Nat) (start : Nat) :
    start ≤ lengths.foldl max start ∧ ∀ length ∈ lengths, length ≤ lengths.foldl max start := by
  induction lengths generalizing start with
  | nil => exact ⟨Nat.le_refl _, fun _ h => absurd h List.not_mem_nil⟩
  | cons length lengths ih =>
    obtain ⟨hstart, hall⟩ := ih (max start length)
    refine ⟨(Nat.le_max_left _ _).trans hstart, fun l hl => ?_⟩
    rcases List.mem_cons.mp hl with rfl | hl
    · exact (Nat.le_max_right _ _).trans hstart
    · exact hall l hl

theorem foldl_max_le {lengths : List Nat} (h : ∀ length ∈ lengths, length ≤ limit)
    (hs : start ≤ limit) : lengths.foldl max start ≤ limit := by
  induction lengths generalizing start with
  | nil => exact hs
  | cons length lengths ih =>
    exact ih (fun l hl => h l (List.mem_cons_of_mem _ hl))
      (Nat.max_le.mpr ⟨hs, h length List.mem_cons_self⟩)

/-- The loop that reverses moves the bits of the value to the low end of the result. -/
theorem reverseBitsLoop_eq (value : Nat) (h : result < 2 ^ (16 - count)) (hc : count ≤ 16) :
    reverseBitsLoop count value result =
      result * 2 ^ count + bitsValue (natBits count value).reverse := by
  induction count generalizing value result with
  | zero => rw [reverseBitsLoop, natBits_zero, Nat.pow_zero, Nat.mul_one]; rfl
  | succ count ih =>
    have hpow : 2 ^ (16 - count) = 2 * 2 ^ (16 - (count + 1)) := by
      rw [← Nat.pow_succ']
      congr 1
      omega
    have hbit : value &&& 1 = value % 2 := Nat.and_one_is_mod value
    have hor : (result <<< 1) ||| (value &&& 1) = result * 2 + value % 2 := by
      rw [hbit, ← Nat.shiftLeft_add_eq_or_of_lt (by omega), Nat.shiftLeft_eq, Nat.pow_one]
    have hle : 2 ^ (16 - count) ≤ 2 ^ 16 := Nat.pow_le_pow_right (by omega) (by omega)
    have hvalue : bitsValue [value.testBit 0] = value % 2 := by
      rw [Nat.testBit_zero]
      rcases Nat.mod_two_eq_zero_or_one value with h0 | h1
      · rw [h0]; rfl
      · rw [h1]; rfl
    rw [reverseBitsLoop, hor, Nat.mod_eq_of_lt (by omega), ih _ (by omega) (by omega), natBits_succ,
      List.reverse_cons, bitsValue_append, hvalue, List.length_reverse, natBits_length,
      Nat.pow_succ]
    ring

/-- The reversed code has the bits of the code in the order of the wire. -/
theorem natBits_reverseBits (code : Nat) (h : length ≤ cMaximumCodeLength) :
    natBits length (reverseBits code length) = (natBits length code).reverse := by
  have hl : length ≤ 16 := by
    rw [cMaximumCodeLength] at h
    omega
  have hbits := natBits_bitsValue (natBits length code).reverse
  rw [reverseBits, reverseBitsLoop_eq code (Nat.two_pow_pos _) hl, Nat.zero_mul, Nat.zero_add]
  rwa [List.length_reverse, natBits_length] at hbits

theorem reverseBits_lt (code : Nat) (h : length ≤ cMaximumCodeLength) :
    reverseBits code length < 2 ^ length := by
  have hl : length ≤ 16 := by
    rw [cMaximumCodeLength] at h
    omega
  have hlt := bitsValue_lt (natBits length code).reverse
  rw [reverseBits, reverseBitsLoop_eq code (Nat.two_pow_pos _) hl, Nat.zero_mul, Nat.zero_add]
  rwa [List.length_reverse, natBits_length] at hlt

/-- The counters wrap at sixteen bits. -/
theorem countLengths_eq {counts lengths : List Nat}
    (h : ∀ length ∈ lengths, length ≤ cMaximumCodeLength)
    (hc : counts.length = cMaximumCodeLength + 1) (hlt : ∀ k : Nat, counts[k]! < 2 ^ 16) :
    ∃ counts', countLengths counts lengths = .ok counts' ∧
      counts'.length = cMaximumCodeLength + 1 ∧
      ∀ k ≤ cMaximumCodeLength, counts'[k]! = (counts[k]! + countOf lengths k) % 2 ^ 16 := by
  induction lengths generalizing counts with
  | nil =>
    refine ⟨counts, rfl, hc, fun k _ => ?_⟩
    rw [countOf]
    simp only [List.count_nil, ite_self, Nat.add_zero]
    exact (Nat.mod_eq_of_lt (hlt k)).symm
  | cons length lengths ih =>
    have hle := h length List.mem_cons_self
    have hrest : ∀ l ∈ lengths, l ≤ cMaximumCodeLength :=
      fun l hl => h l (List.mem_cons_of_mem _ hl)
    rw [countLengths, if_neg (Nat.not_lt.mpr hle)]
    by_cases hz : length = 0
    · rw [if_neg (not_not.mpr hz)]
      obtain ⟨counts', hok, hl, hget⟩ := ih hrest hc hlt
      refine ⟨counts', hok, hl, fun k hk => ?_⟩
      rw [hget k hk, countOf, countOf, hz]
      by_cases hk0 : k = 0
      · rw [if_pos hk0, if_pos hk0]
      · rw [if_neg hk0, if_neg hk0, List.count_cons_of_ne (Ne.symm hk0)]
    · rw [if_pos hz]
      have hset (k : Nat) : (counts.set length ((counts[length]! + 1) % 2 ^ 16))[k]! =
          if length = k then (counts[k]! + 1) % 2 ^ 16 else counts[k]! := by
        by_cases hk : k < counts.length
        · rw [getElem!_set_ite _ _ _ hk]
          split
          case isTrue he => rw [he]
          case isFalse => rfl
        · have hk' : ¬ k < (counts.set length ((counts[length]! + 1) % 2 ^ 16)).length := by
            rwa [List.length_set]
          rw [getElem!_neg _ k hk', getElem!_neg counts k hk, if_neg (by omega)]
      obtain ⟨counts', hok, hl, hget⟩ := ih hrest
        ((List.length_set ..).trans hc) (fun k => by
          rw [hset]
          split
          case isTrue => exact Nat.mod_lt _ (by decide)
          case isFalse => exact hlt k)
      refine ⟨counts', hok, hl, fun k hk => ?_⟩
      rw [hget k hk, hset, countOf, countOf, List.count_cons]
      by_cases he : length = k
      · subst he
        rw [if_pos rfl, if_neg hz, if_neg hz, beq_self_eq_true, if_pos rfl, Nat.mod_add_mod]
        congr 1
        omega
      · rw [if_neg he, beq_false_of_ne he]
        rfl

/-- The code space that the loop has left is what the codes so far do not use. -/
theorem checkAvailable_eq {counts : List Nat}
    (hc : ∀ k ≤ cMaximumCodeLength, counts[k]! = countOf lengths k)
    (hk : k + n ≤ cMaximumCodeLength) (hend : endCode lengths k ≤ 2 ^ k) :
    checkAvailable counts ((2 ^ k : Nat) - (endCode lengths k : Nat)) (List.range' (k + 1) n) =
      if Oversubscribed lengths (k + n) then
        throwMalformed "Deflate Huffman tree is oversubscribed."
      else .ok () := by
  induction n generalizing k with
  | zero =>
    have hf : ¬ Oversubscribed lengths (k + 0) := by
      rw [Nat.add_zero, Oversubscribed, ← endCode_eq_weight]
      exact Nat.not_lt.mpr hend
    rw [if_neg hf]
    rfl
  | succ n ih =>
    have hstep : ((2 ^ k : Nat) - (endCode lengths k : Nat) : Int) * 2 - counts[k + 1]! =
        (2 ^ (k + 1) : Nat) - (endCode lengths (k + 1) : Nat) := by
      have hnext : endCode lengths (k + 1) = 2 * endCode lengths k + countOf lengths (k + 1) := rfl
      rw [hc _ (by omega), hnext, Nat.pow_succ]
      push_cast
      ring
    rw [List.range'_succ, checkAvailable]
    simp only [hstep]
    by_cases hlt : 2 ^ (k + 1) < endCode lengths (k + 1)
    · have hover := oversubscribed_of_endCode (show k + 1 ≤ k + (n + 1) by omega) hlt
      rw [if_pos (by omega), if_pos hover]
    · have hrest := ih (k := k + 1) (by omega) (Nat.le_of_not_gt hlt)
      rw [if_neg (by omega), hrest]
      simp only [show k + 1 + n = k + (n + 1) by omega]

theorem firstCode_lt (hf : ¬ Oversubscribed lengths cMaximumCodeLength)
    (h : k ≤ cMaximumCodeLength) : firstCode lengths k < 2 ^ 16 := by
  have hend := endCode_le hf h
  have hfirst : firstCode lengths k ≤ endCode lengths k := Nat.le_add_right _ _
  have hpow : 2 ^ k ≤ 2 ^ cMaximumCodeLength := Nat.pow_le_pow_right (by decide) h
  have hmax : 2 ^ cMaximumCodeLength < 2 ^ 16 := by decide
  omega

theorem assignNextCodes_length (counts : List Nat) (code : Nat) (nextCode bits : List Nat) :
    (assignNextCodes counts code nextCode bits).length = nextCode.length := by
  induction bits generalizing code nextCode with
  | nil => rfl
  | cons b bits ih => rw [assignNextCodes, ih, List.length_set]

/-- The loop stores the first code of each length. -/
theorem assignNextCodes_getElem! {counts nextCode : List Nat}
    (hf : ¬ Oversubscribed lengths cMaximumCodeLength)
    (hc : ∀ k ≤ cMaximumCodeLength, counts[k]! = countOf lengths k)
    (hk : k + n ≤ cMaximumCodeLength) (hlen : nextCode.length = cMaximumCodeLength + 1)
    (hl : length ≤ cMaximumCodeLength) :
    (assignNextCodes counts (firstCode lengths k) nextCode (List.range' (k + 1) n))[length]! =
      if k < length ∧ length ≤ k + n then firstCode lengths length else nextCode[length]! := by
  induction n generalizing k nextCode with
  | zero =>
    rw [if_neg (by omega)]
    rfl
  | succ n ih =>
    have hstep : ((firstCode lengths k + counts[k + 1 - 1]!) <<< 1) % 2 ^ 16 =
        firstCode lengths (k + 1) := by
      have hlt := firstCode_lt hf (show k + 1 ≤ cMaximumCodeLength by omega)
      rw [Nat.add_sub_cancel, hc k (by omega), Nat.shiftLeft_eq, Nat.pow_one, Nat.mul_comm]
      exact Nat.mod_eq_of_lt hlt
    rw [List.range'_succ, assignNextCodes]
    simp only [hstep]
    rw [ih (by omega) ((List.length_set ..).trans hlen), getElem!_set_ite _ _ _ (by omega)]
    by_cases h₁ : k + 1 < length ∧ length ≤ k + 1 + n
    · rw [if_pos h₁, if_pos (by omega)]
    · rw [if_neg h₁]
      by_cases h₂ : k + 1 = length
      · rw [if_pos h₂, if_pos (by omega), h₂]
      · rw [if_neg h₂, if_neg (by omega)]

/-- The canonical code of a symbol as the table enters it. -/
def canonicalCode (lengths : List Nat) (symbol : Nat) : Code where
  reversed := reverseBits (codeOf lengths symbol) lengths[symbol]!
  symbol := symbol
  length := lengths[symbol]!

/-- The counters run through the codes of each length in symbol order. -/
theorem assignedCodes_eq {nextCode rest : List Nat}
    (hf : ¬ Oversubscribed lengths cMaximumCodeLength)
    (hall : ∀ length ∈ lengths, length ≤ cMaximumCodeLength) (hs : lengths.length ≤ 2 ^ 16)
    (hlen : nextCode.length = cMaximumCodeLength + 1) (hrest : lengths.drop symbol = rest)
    (hnext : ∀ length, 0 < length → length ≤ cMaximumCodeLength →
      nextCode[length]! = firstCode lengths length + (lengths.take symbol).count length) :
    assignedCodes nextCode symbol rest =
      ((List.range' symbol rest.length).filter fun s => Present lengths s).map
        (canonicalCode lengths) := by
  induction rest generalizing nextCode symbol with
  | nil => rfl
  | cons length rest ih =>
    obtain ⟨hlt, hget, hdrop⟩ := drop_eq_cons hrest
    have hmem : length ∈ lengths := by
      rw [← hget, getElem!_pos lengths symbol hlt]
      exact List.getElem_mem hlt
    have hle := hall length hmem
    rw [assignedCodes, List.length_cons, List.range'_succ]
    by_cases hz : length = 0
    · have hno : ¬ Present lengths symbol := fun h => h.2 (hget.trans hz)
      rw [if_pos hz, List.filter_cons_of_neg (by simpa using hno)]
      refine ih hlen hdrop fun l hl hlm => ?_
      rw [hnext l hl hlm, count_take_succ hlt, if_neg (by omega), Nat.add_zero]
    · have hp : Present lengths symbol := ⟨hlt, by rwa [hget]⟩
      have hcode : nextCode[length]! = codeOf lengths symbol := by
        rw [hnext length (by omega) hle, codeOf, rank, hget]
      have hcodelt : codeOf lengths symbol + 1 < 2 ^ 16 := by
        have hltp := codeOf_lt hf hp (by rwa [hget])
        rw [hget] at hltp
        have hpow : 2 ^ length ≤ 2 ^ cMaximumCodeLength := Nat.pow_le_pow_right (by decide) hle
        have hmax : 2 ^ cMaximumCodeLength < 2 ^ 16 := by decide
        omega
      rw [if_neg hz, List.filter_cons_of_pos (by simpa using hp), List.map_cons, hcode,
        Nat.mod_eq_of_lt hcodelt]
      congr 1
      · rw [canonicalCode, hget, Nat.mod_eq_of_lt (by omega)]
      · refine ih ((List.length_set ..).trans hlen) hdrop fun l hl hlm => ?_
        rw [getElem!_set_ite _ _ _ (by omega), count_take_succ hlt, hget]
        by_cases he : length = l
        · rw [if_pos he, if_pos he, codeOf, rank, hget, he]
          rfl
        · rw [if_neg he, if_neg he, hnext l hl hlm, Nat.add_zero]

theorem canonicalCode_bits (h : lengths[symbol]! ≤ cMaximumCodeLength) :
    natBits (canonicalCode lengths symbol).length (canonicalCode lengths symbol).reversed =
      codeBits lengths symbol :=
  natBits_reverseBits _ h

/-- The entry that a lookup value finds: that of the symbol whose code it begins with. -/
noncomputable def canonicalEntry (lengths : List Nat) (v : Nat) : DeflateHuffmanEntry :=
  open Classical in
  if h : ∃ symbol, Present lengths symbol ∧
      v % 2 ^ lengths[symbol]! = (canonicalCode lengths symbol).reversed then
    (canonicalCode lengths h.choose).entry
  else {}

/-- The codes are never entered over each other since none begins another one. -/
theorem canonicalCode_agree (hf : ¬ Oversubscribed lengths cMaximumCodeLength)
    (hm : ∀ length ∈ lengths, length ≤ maximumLength) (h15 : maximumLength ≤ cMaximumCodeLength)
    (symbols : List Nat) :
    Agree maximumLength (canonicalEntry lengths)
      ((symbols.filter fun s => Present lengths s).map (canonicalCode lengths)) := by
  have le (s : Nat) (hs : Present lengths s) : lengths[s]! ≤ maximumLength := by
    rw [getElem!_pos lengths s hs.1]
    exact hm _ (List.getElem_mem hs.1)
  intro c hc
  obtain ⟨symbol, hmem, rfl⟩ := List.mem_map.mp hc
  have hp : Present lengths symbol := by simpa using (List.mem_filter.mp hmem).2
  have hlt : (canonicalCode lengths symbol).reversed < 2 ^ lengths[symbol]! :=
    reverseBits_lt _ ((le symbol hp).trans h15)
  refine ⟨hlt, le symbol hp, fun suffix _ => ?_⟩
  generalize hv : (canonicalCode lengths symbol).reversed +
    2 ^ (canonicalCode lengths symbol).length * suffix = v
  have hbegin : v % 2 ^ lengths[symbol]! = (canonicalCode lengths symbol).reversed := by
    rw [← hv]
    exact (Nat.add_mul_mod_self_left _ _ _).trans (Nat.mod_eq_of_lt hlt)
  -- The bits of the value begin with the code of each symbol that it finds.
  have begins (s : Nat) (hs : Present lengths s)
      (h : v % 2 ^ lengths[s]! = (canonicalCode lengths s).reversed) :
      codeBits lengths s <+: natBits maximumLength v := by
    rw [← canonicalCode_bits ((le s hs).trans h15), ← h, canonicalCode, natBits_mod,
      ← Nat.add_sub_cancel' (le s hs), natBits_add]
    exact List.prefix_append _ _
  have hex : ∃ s, Present lengths s ∧ v % 2 ^ lengths[s]! = (canonicalCode lengths s).reversed :=
    ⟨symbol, hp, hbegin⟩
  have hchosen := hex.choose_spec
  have hsame : hex.choose = symbol := by
    have hall : ∀ length ∈ lengths, length ≤ cMaximumCodeLength := fun l hl => (hm l hl).trans h15
    rcases List.prefix_or_prefix_of_prefix (begins _ hchosen.1 hchosen.2)
      (begins symbol hp hbegin) with h | h
    · exact prefix_free hf hall hchosen.1 hp h
    · exact (prefix_free hf hall hp hchosen.1 h).symm
  rw [canonicalEntry, dif_pos hex, hsame]

namespace DeflateHuffmanTable

theorem create_of_invalid {lengths : List Nat}
    (h : (∀ length ∈ lengths, length = 0) ∨ ∃ length ∈ lengths, cMaximumCodeLength < length) :
    create lengths = throwMalformed "Deflate Huffman tree is empty or invalid." := by
  rw [create]
  refine if_pos ?_
  rcases h with h | ⟨length, hmem, hlt⟩
  · exact .inl (Nat.le_zero.mp (foldl_max_le (fun l hl => (h l hl).le) (Nat.le_refl 0)))
  · exact .inr (hlt.trans_le ((le_foldl_max lengths 0).2 length hmem))

/-- The counters of the constructor, reduced to the number of lengths unless they wrap. -/
theorem create_counts {lengths : List Nat} (hne : ∃ length ∈ lengths, length ≠ 0)
    (hall : ∀ length ∈ lengths, length ≤ cMaximumCodeLength) :
    ∃ counts, counts.length = cMaximumCodeLength + 1 ∧
      (∀ k ≤ cMaximumCodeLength, counts[k]! = countOf lengths k % 2 ^ 16) ∧
      create lengths = (do
        checkAvailable counts 1 (List.range' 1 cMaximumCodeLength)
        return {
          entries := enterSymbols (lengths.foldl max 0)
            (assignNextCodes counts 0 (List.replicate (cMaximumCodeLength + 1) 0)
              (List.range' 1 cMaximumCodeLength))
            (List.replicate (1 <<< lengths.foldl max 0) {}) 0 lengths
          maximumLength := lengths.foldl max 0 }) := by
  obtain ⟨length, hmem, hz⟩ := hne
  have hzero (k : Nat) : (List.replicate (cMaximumCodeLength + 1) 0)[k]! = 0 := by
    by_cases hk : k < (List.replicate (cMaximumCodeLength + 1) 0).length
    · rw [getElem!_pos _ k hk, List.getElem_replicate]
    · exact getElem!_neg _ k hk
  obtain ⟨counts, hok, hl, hget⟩ := countLengths_eq hall
    (List.length_replicate (n := cMaximumCodeLength + 1) (a := 0)) (fun k => by
      rw [hzero]
      decide)
  refine ⟨counts, hl, fun k hk => ?_, ?_⟩
  · rw [hget k hk, hzero, Nat.zero_add]
  · have hmax := (le_foldl_max lengths 0).2 length hmem
    have hle := foldl_max_le hall (Nat.zero_le cMaximumCodeLength)
    rw [create, if_neg (by omega), hok]
    rfl

/-- Length lists over a full code space are rejected, and all others give a table in which the
canonical code of every symbol is a codeword of it. -/
theorem create_spec {lengths : List Nat} (hs : lengths.length < 2 ^ 16)
    (hne : ∃ length ∈ lengths, length ≠ 0)
    (hall : ∀ length ∈ lengths, length ≤ cMaximumCodeLength) :
    if Oversubscribed lengths cMaximumCodeLength then
      create lengths = throwMalformed "Deflate Huffman tree is oversubscribed."
    else ∃ table, create lengths = .ok table ∧
      ∀ symbol, Present lengths symbol → Codeword table (codeBits lengths symbol) symbol := by
  obtain ⟨counts, hl, hcounts, hcreate⟩ := create_counts hne hall
  have hcounts (k : Nat) (hk : k ≤ cMaximumCodeLength) : counts[k]! = countOf lengths k := by
    have hle : countOf lengths k ≤ lengths.length := by
      rw [countOf]
      split
      case isTrue => exact Nat.zero_le _
      case isFalse => exact List.count_le_length
    rw [hcounts k hk, Nat.mod_eq_of_lt (by omega)]
  have hzero : endCode lengths 0 = 0 := rfl
  have hcheck := checkAvailable_eq hcounts (k := 0) (n := cMaximumCodeLength) (by omega)
    (by rw [hzero]; exact Nat.zero_le _)
  rw [hzero, Nat.zero_add, Nat.zero_add, Nat.pow_zero] at hcheck
  have hone : ((1 : Nat) - (0 : Nat) : Int) = 1 := rfl
  rw [hone] at hcheck
  rw [hcreate, hcheck]
  split
  case isTrue => rfl
  case isFalse hf =>
    refine ⟨_, rfl, fun symbol hp => ?_⟩
    have hm := (le_foldl_max lengths 0).2
    have h15 := foldl_max_le hall (Nat.zero_le cMaximumCodeLength)
    generalize lengths.foldl max 0 = maximumLength at hm h15 ⊢
    have hnext (length : Nat) (hpos : 0 < length) (hle : length ≤ cMaximumCodeLength) :
        (assignNextCodes counts 0 (List.replicate (cMaximumCodeLength + 1) 0)
          (List.range' 1 cMaximumCodeLength))[length]! =
          firstCode lengths length + (lengths.take 0).count length := by
      have h := assignNextCodes_getElem! hf hcounts
        (show 0 + cMaximumCodeLength ≤ cMaximumCodeLength by omega)
        (List.length_replicate (n := cMaximumCodeLength + 1) (a := 0)) hle
      rw [if_pos ⟨hpos, by omega⟩] at h
      exact h
    have hcodes := assignedCodes_eq hf hall hs.le
      ((assignNextCodes_length ..).trans List.length_replicate) (List.drop_zero (l := lengths)) hnext
    have hmem : canonicalCode lengths symbol ∈
        ((List.range' 0 lengths.length).filter fun s => Present lengths s).map
          (canonicalCode lengths) := by
      refine List.mem_map_of_mem (List.mem_filter.mpr ⟨?_, by simpa using hp⟩)
      rw [List.mem_range'_1]
      exact ⟨Nat.zero_le _, by rw [Nat.zero_add]; exact hp.1⟩
    have hword := codeword_of_agree hcodes (canonicalCode_agree hf hm h15 _) h15 hmem
      (Nat.pos_of_ne_zero hp.2)
    have hle : lengths[symbol]! ≤ cMaximumCodeLength := by
      rw [getElem!_pos lengths symbol hp.1]
      exact hall _ (List.getElem_mem hp.1)
    rwa [canonicalCode_bits hle] at hword

end DeflateHuffmanTable

end ErbslandCore.Compression.Deflate
