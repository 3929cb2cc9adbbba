import ErbslandCore.Compression.Lz4Codec

namespace ErbslandCore.Compression.Lz4
open Library Mem
set_option autoImplicit true

theorem appendExtendedLength_append (output : List UInt8) (n : Nat) :
    appendExtendedLength output n = output ++ appendExtendedLength [] n := by
  induction n using Nat.strong_induction_on generalizing output with
  | _ n ih =>
    by_cases h : cLengthExtensionMaximum ≤ n
    · have hn : n - cLengthExtensionMaximum < n := by
        simp only [cLengthExtensionMaximum] at *
        omega
      rw [appendExtendedLength, if_pos h, ih _ hn, appendExtendedLength.eq_1 [] n, if_pos h,
        ih _ hn ([] ++ _), List.nil_append, List.append_assoc]
    · rw [appendExtendedLength, if_neg h, appendExtendedLength.eq_1 [] n, if_neg h, List.nil_append]

/-- The decoder reads back a length written in extension bytes. -/
theorem readExtendedLength_appended {input rest : List UInt8}
    (h : input.drop p = appendExtendedLength [] n ++ rest) (hn : length + n ≤ cSizeMaximum) :
    readExtendedLength input p length =
      .ok (p + (appendExtendedLength [] n).length, length + n) := by
  induction n using Nat.strong_induction_on generalizing p length with
  | _ n ih =>
    rw [appendExtendedLength] at h ⊢
    split at h
    · next hc =>
      rw [if_pos hc]
      simp only [cLengthExtensionMaximum] at *
      rw [appendExtendedLength_append] at h ⊢
      simp only [List.nil_append, List.cons_append] at h
      obtain ⟨hp, hv, hd⟩ := drop_eq_cons h
      rw [getElem!_pos input p hp] at hv
      rw [readExtendedLength]
      have ho : ¬ cSizeMaximum - (UInt8.ofNat 255).toNat < length := by
        simp
        omega
      simp only [hp, ↓reduceDIte, hv, ho, ↓reduceIte]
      rw [if_pos (by rfl), ih (n - 255) (by omega) hd (by simp; omega)]
      simp
      omega
    · next hc =>
      rw [if_neg hc]
      simp only [cLengthExtensionMaximum] at *
      obtain ⟨hp, hv, hd⟩ := drop_eq_cons h
      rw [getElem!_pos input p hp] at hv
      have hb : (UInt8.ofNat n).toNat = n := by
        simp
        omega
      rw [readExtendedLength]
      simp only [hp, ↓reduceDIte, hv, hb]
      rw [if_neg (by omega), if_neg (by simp only [cLengthExtensionMaximum]; omega)]
      rfl

/-- The bytes that extend a length beyond its token nibble. -/
def extension (n : Nat) : List UInt8 :=
  if cLengthNibbleMaximum ≤ n then appendExtendedLength [] (n - cLengthNibbleMaximum) else []

theorem append_extension (output : List UInt8) (n : Nat) :
    (if cLengthNibbleMaximum ≤ n then
      appendExtendedLength output (n - cLengthNibbleMaximum) else output) =
        output ++ extension n := by
  unfold extension
  split
  · exact appendExtendedLength_append _ _
  · exact (List.append_nil output).symm

theorem readLength_extension (base : Nat) {input rest : List UInt8}
    (h : input.drop p = extension n ++ rest) (hn : base + n ≤ cSizeMaximum) :
    readLength input p (min n cLengthNibbleMaximum) (min n cLengthNibbleMaximum + base) =
      .ok (p + (extension n).length, base + n) := by
  by_cases hc : cLengthNibbleMaximum ≤ n
  · rw [extension, if_pos hc] at h ⊢
    simp only [cLengthNibbleMaximum] at *
    rw [readLength, cLengthNibbleMaximum, Nat.min_eq_right hc, if_pos rfl,
      readExtendedLength_appended h (by omega)]
    simp only [Except.ok.injEq, Prod.mk.injEq, true_and]
    omega
  · rw [extension, if_neg hc]
    simp only [cLengthNibbleMaximum] at *
    rw [readLength, cLengthNibbleMaximum, Nat.min_eq_left (by omega), if_neg (by omega),
      Nat.add_comm]
    rfl

def token (literalLength matchToken : Nat) : UInt8 :=
  UInt8.ofNat ((min literalLength cLengthNibbleMaximum <<< 4) |||
    min matchToken cLengthNibbleMaximum)

theorem nibbles : ∀ a < 16, ∀ b < 16,
    (UInt8.ofNat ((a <<< 4) ||| b)).toNat >>> 4 = a ∧
      (UInt8.ofNat ((a <<< 4) ||| b)).toNat &&& 0x0f = b := by
  decide

theorem token_literal (a b : Nat) : (token a b).toNat >>> 4 = min a cLengthNibbleMaximum :=
  (nibbles _ (by simp only [cLengthNibbleMaximum]; omega) _
    (by simp only [cLengthNibbleMaximum]; omega)).1

theorem token_match (a b : Nat) : (token a b).toNat &&& 0x0f = min b cLengthNibbleMaximum :=
  (nibbles _ (by simp only [cLengthNibbleMaximum]; omega) _
    (by simp only [cLengthNibbleMaximum]; omega)).2

theorem offset_bytes (h : offset ≤ cMaximumOffset) :
    (UInt8.ofNat offset).toNat ||| ((UInt8.ofNat (offset >>> 8)).toNat <<< 8) = offset := by
  simp only [cMaximumOffset] at h
  rw [Nat.or_comm, ← Nat.shiftLeft_add_eq_or_of_lt (UInt8.toNat_lt _)]
  simp only [UInt8.toNat_ofNat', Nat.shiftLeft_eq, Nat.shiftRight_eq_div_pow]
  omega

theorem appendSequence_match (output input : List UInt8) :
    appendSequence output input begin literalLength offset matchLength true =
      output ++ token literalLength (matchLength - cMinimumMatchLength) ::
        (extension literalLength ++ (input.drop begin).take literalLength ++
          [UInt8.ofNat offset, UInt8.ofNat (offset >>> 8)] ++
          extension (matchLength - cMinimumMatchLength)) := by
  simp only [appendSequence, ↓reduceIte, append_extension, List.set_append_right _ _ (Nat.le_refl _),
    Nat.sub_self, List.set_cons_zero, token]
  simp

theorem readUInt32_eq (data : List UInt8) (i : Nat) :
    readUInt32 data i = data[i]!.toNat + 256 * data[i + 1]!.toNat +
      65536 * data[i + 2]!.toNat + 16777216 * data[i + 3]!.toNat := by
  have h₀ := UInt8.toNat_lt data[i]!
  have h₁ := UInt8.toNat_lt data[i + 1]!
  have h₂ := UInt8.toNat_lt data[i + 2]!
  unfold readUInt32
  generalize data[i]!.toNat = a at *
  generalize data[i + 1]!.toNat = b at *
  generalize data[i + 2]!.toNat = c at *
  have hab : a ||| b <<< 8 = a + 256 * b := by
    rw [Nat.or_comm, ← Nat.shiftLeft_add_eq_or_of_lt h₀, Nat.shiftLeft_eq]
    omega
  have hc : a + 256 * b ||| c <<< 16 = a + 256 * b + 65536 * c := by
    rw [Nat.or_comm, ← Nat.shiftLeft_add_eq_or_of_lt (by omega), Nat.shiftLeft_eq]
    omega
  rw [hab, hc, Nat.or_comm, ← Nat.shiftLeft_add_eq_or_of_lt (by omega), Nat.shiftLeft_eq]
  omega

theorem readUInt32_inj {data : List UInt8} (h : readUInt32 data i = readUInt32 data j) :
    ∀ k, k < 4 → data[i + k]! = data[j + k]! := by
  rw [readUInt32_eq, readUInt32_eq] at h
  have hlt (n : Nat) := UInt8.toNat_lt data[n]!
  have h₀ := hlt i
  have h₁ := hlt (i + 1)
  have h₂ := hlt (i + 2)
  have h₀' := hlt j
  have h₁' := hlt (j + 1)
  have h₂' := hlt (j + 2)
  intro k hk
  apply UInt8.toNat_inj.1
  match k with
  | 0 => simp only [Nat.add_zero]; omega
  | 1 => omega
  | 2 => omega
  | 3 => omega

theorem extendMatch_agree {input : List UInt8} (maximum : Nat)
    (h : ∀ i, i < n → input[candidate + i]! = input[position + i]!) :
    ∀ i, i < extendMatch input candidate position n maximum →
      input[candidate + i]! = input[position + i]! := by
  fun_induction extendMatch input candidate position n maximum with
  | case1 n hc ih =>
    apply ih
    intro i hi
    rcases Nat.lt_succ_iff_lt_or_eq.1 hi with hi | rfl
    · exact h i hi
    · exact hc.2
  | case2 => exact h

theorem extendMatch_le (input : List UInt8) (candidate position n maximum : Nat)
    (hn : n ≤ maximum) : extendMatch input candidate position n maximum ≤ maximum := by
  fun_induction extendMatch input candidate position n maximum with
  | case1 n hc ih => exact ih hc.1
  | case2 => exact hn

/-- What the search guarantees about a length and an offset that it reports. -/
def Found (input : List UInt8) (position : Nat) (best : Nat × Nat) : Prop :=
  best.1 = 0 ∨ (BackReference input position best.2 best.1 ∧ best.2 ≤ cMaximumOffset)

theorem findMatchLoop_found {input : List UInt8} {previous : Array (Option Nat)}
    (hp : position + cLastMatchStartDistance ≤ input.length)
    (h : Found input position (bestLength, bestOffset)) (attempts : Nat)
    (candidate : Option Nat) :
    Found input position
      (findMatchLoop input position previous bestLength bestOffset attempts candidate) := by
  induction attempts generalizing candidate bestLength bestOffset with
  | zero => exact h
  | succ attempts ih =>
    cases candidate with
    | none => exact h
    | some candidate =>
      rw [findMatchLoop]
      split
      case isTrue => exact h
      case isFalse hc =>
        split
        case isFalse => exact ih h _
        case isTrue he =>
          dsimp only
          split
          case isFalse => exact ih h _
          case isTrue =>
            apply ih
            simp only [cLastMatchStartDistance] at hp
            have hl := extendMatch_le input candidate position cMinimumMatchLength
              (input.length - cLastLiteralLength - position)
              (by simp only [cMinimumMatchLength, cLastLiteralLength]; omega)
            have ha := extendMatch_agree
              (input.length - cLastLiteralLength - position)
              (readUInt32_inj he.2)
            refine .inr ⟨⟨by omega, by omega, by omega, ?_⟩, by omega⟩
            intro i hi
            rw [show position - (position - candidate) = candidate by omega]
            exact ha i hi

theorem findMatch_found {input : List UInt8}
    (hp : position + cLastMatchStartDistance ≤ input.length) (candidate : Option Nat)
    (previous : Array (Option Nat)) (depth : Nat) :
    Found input position (findMatch input position candidate previous depth) :=
  findMatchLoop_found hp (.inl rfl) depth candidate

/-- Reading the token and the literals of an encoded sequence. -/
theorem decompressSequence_literals {input data rest : List UInt8}
    (h : input.drop p = token literalLength m :: (extension literalLength ++
      (data.drop anchor).take literalLength ++ rest))
    (hl : anchor + literalLength ≤ data.length) (hs : data.length ≤ cSizeMaximum) :
    ∃ q, p < q ∧ q ≤ input.length ∧ input.drop q = rest ∧
      decompressSequence input data.length p (data.take anchor) =
        if q = input.length then
          if min m cLengthNibbleMaximum ≠ 0 then
            throwMalformed "LZ4 final literal sequence has match bits."
          else return (none, data.take (anchor + literalLength))
        else do
          let (inputPosition, output) ← decompressMatch input data.length
            (token literalLength m).toNat q (data.take (anchor + literalLength))
          return (some inputPosition, output) := by
  obtain ⟨hp, ht, hd⟩ := drop_eq_cons h
  rw [List.append_assoc] at hd
  have hr := readLength_extension 0 hd (by omega)
  have hq := (drop_eq_append hd).2
  have ho := drop_eq_append hq
  have hlen : ((data.drop anchor).take literalLength).length = literalLength := by
    simp; omega
  rw [hlen] at ho
  have hout : (data.take anchor).length = anchor := by
    simp; omega
  have hbound : p + 1 + (extension literalLength).length + literalLength ≤ input.length := by
    have := congrArg List.length hd
    simp only [List.length_drop, List.length_append, hlen] at this
    omega
  refine ⟨p + 1 + (extension literalLength).length + literalLength, by omega, hbound, ho.2, ?_⟩
  simp only [Nat.add_zero, Nat.zero_add] at hr
  simp only [decompressSequence, ht, token_literal, token_match, hr, bind, Except.bind]
  rw [if_neg (by omega), ho.1, ← List.take_add]

theorem decompressSequence_match {input data rest : List UInt8}
    (h : input.drop p = appendSequence [] data anchor literalLength offset matchLength true ++ rest)
    (hb : BackReference data (anchor + literalLength) offset matchLength)
    (ho : offset ≤ cMaximumOffset) (hm : cMinimumMatchLength ≤ matchLength)
    (hs : data.length ≤ cSizeMaximum) :
    ∃ q, p < q ∧ input.drop q = rest ∧
      decompressSequence input data.length p (data.take anchor) =
        .ok (some q, data.take (anchor + literalLength + matchLength)) := by
  have hw := hb.within
  rw [appendSequence_match, List.nil_append, List.cons_append, List.append_assoc,
    List.append_assoc] at h
  obtain ⟨q, hpq, _, hq, hd⟩ := decompressSequence_literals h (by omega) hs
  rw [List.cons_append, List.cons_append, List.nil_append] at hq
  obtain ⟨hq₀, hb₀, hq'⟩ := drop_eq_cons hq
  obtain ⟨hq₁, hb₁, hq''⟩ := drop_eq_cons hq'
  have hr := readLength_extension cMinimumMatchLength hq'' (by omega)
  have hout : (data.take (anchor + literalLength)).length = anchor + literalLength := by
    simp; omega
  have hpos := hb.distance_pos
  have hle := hb.distance_le
  refine ⟨_, ?_, (drop_eq_append hq'').2, ?_⟩
  · omega
  rw [hd, if_neg (by omega), decompressMatch, if_neg (by omega)]
  simp only [hb₀, hb₁, offset_bytes ho, token_match]
  rw [if_neg (by omega), hr]
  simp only [bind, Except.bind, hout]
  rw [if_neg (by omega), Nat.add_sub_cancel' hm, appendRepeatedOrThrow_reference hb]
  rfl

theorem appendSequence_final (output input : List UInt8) :
    appendSequence output input begin literalLength 0 0 false =
      output ++ token literalLength 0 :: (extension literalLength ++
        (input.drop begin).take literalLength ++ []) := by
  simp only [appendSequence, append_extension, List.set_append_right _ _ (Nat.le_refl _),
    Nat.sub_self, List.set_cons_zero, token]
  simp

/-- The decoder continues from a prefix of the data to all of it on these remaining bytes. -/
def Decodes (data : List UInt8) (anchor : Nat) (tail : List UInt8) : Prop :=
  ∀ input p, input.drop p = tail →
    decompressLoop input data.length p (data.take anchor) = .ok data

theorem Decodes.final (h : anchor ≤ data.length) (hs : data.length ≤ cSizeMaximum) :
    Decodes data anchor
      (appendSequence [] data anchor (data.length - anchor) 0 0 false) := by
  intro input p hp
  rw [appendSequence_final, List.nil_append] at hp
  obtain ⟨q, hpq, hle, hq, hd⟩ := decompressSequence_literals hp (by omega) hs
  have he : q = input.length := Nat.le_antisymm hle (List.drop_eq_nil_iff.1 hq)
  rw [if_pos he, Nat.zero_min, if_neg (by simp), Nat.add_sub_cancel' h, List.take_length] at hd
  rw [decompressLoop, if_pos (drop_eq_cons hp).1]
  split
  case h_1 he => rw [hd] at he; cases he
  case h_2 he => rw [hd] at he; cases he; rfl
  case h_3 he => rw [hd] at he; cases he

theorem Decodes.sequence {data tail : List UInt8}
    (hb : BackReference data (anchor + literalLength) offset matchLength)
    (ho : offset ≤ cMaximumOffset) (hm : cMinimumMatchLength ≤ matchLength)
    (hs : data.length ≤ cSizeMaximum)
    (h : Decodes data (anchor + literalLength + matchLength) tail) :
    Decodes data anchor
      (appendSequence [] data anchor literalLength offset matchLength true ++ tail) := by
  intro input p hp
  obtain ⟨q, hpq, hq, hd⟩ := decompressSequence_match hp hb ho hm hs
  rw [appendSequence_match, List.nil_append] at hp
  rw [decompressLoop, if_pos (drop_eq_cons hp).1]
  split
  case h_1 he => rw [hd] at he; cases he
  case h_2 he => rw [hd] at he; cases he
  case h_3 he =>
    rw [hd] at he
    cases he
    exact h input q hq

theorem appendSequence_append (output input : List UInt8) :
    appendSequence output input begin literalLength offset matchLength true =
      output ++ appendSequence [] input begin literalLength offset matchLength true := by
  rw [appendSequence_match, appendSequence_match, List.nil_append]

/-- From every search state the encoder writes bytes that decode to the rest of the data. -/
theorem compressLoop_decodes (level : CompressionLevel) {data : List UInt8} (output : List UInt8)
    (hs : data.length ≤ cSizeMaximum) (search : SearchTables)
    (ha : anchor ≤ position) (hp : position ≤ data.length) :
    ∃ tail,
      appendSequence (compressLoop level data search anchor position output).2 data
        (compressLoop level data search anchor position output).1
        (data.length - (compressLoop level data search anchor position output).1) 0 0 false =
          output ++ tail ∧
      Decodes data anchor tail := by
  fun_induction compressLoop level data search anchor position output with
  | case1 search anchor position output hc candidate search' best hb ih =>
    simp only [cLastMatchStartDistance] at hc
    exact ih (by omega) (by omega)
  | case2 search anchor position output hc candidate search' best hb hn ih =>
    simp only [cLastMatchStartDistance] at hc
    exact ih (by omega) (by omega)
  | case3 search anchor position output hc candidate search' best hb hn ih =>
    have hf : Found data position best := findMatch_found hc candidate _ _
    rcases hf with hz | ⟨hr, ho⟩
    · simp only [hz, cMinimumMatchLength] at hb
      omega
    · have hpos : anchor + (position - anchor) = position := Nat.add_sub_cancel' ha
      obtain ⟨tail, he, hd⟩ := ih (Nat.le_refl _) hr.within
      refine ⟨appendSequence [] data anchor (position - anchor) best.2 best.1 true ++ tail,
        ?_, ?_⟩
      · rw [he, appendSequence_append, List.append_assoc]
      · apply Decodes.sequence (by rw [hpos]; exact hr) ho (Nat.le_of_not_lt hb) hs
        rw [hpos]
        exact hd
  | case4 search anchor position output hc =>
    refine ⟨appendSequence [] data anchor (data.length - anchor) 0 0 false, ?_,
      Decodes.final (by omega) hs⟩
    rw [appendSequence_final, appendSequence_final, List.nil_append]

/-- Decompressing a compressed block returns the original bytes. -/
theorem decompressBlock_compressBlock (level : CompressionLevel) (data : List UInt8)
    (options : DecompressionOptions) (hs : data.length ≤ cSizeMaximum)
    (ho : options.expectedOutputLength = some (.finite data.length)) :
    decompressBlock (compressBlock level data) options = .ok data := by
  obtain ⟨tail, he, hd⟩ := compressLoop_decodes level [] hs
    (SearchTables.create data) (Nat.le_refl 0) (Nat.zero_le _)
  have hne : compressBlock level data ≠ [] := by
    simp [compressBlock, appendSequence_final]
  have hl := hd (compressBlock level data) 0 he
  rw [List.take_zero] at hl
  simp only [decompressBlock, ho, hne, ↓reduceIte, hl, bind, Except.bind, ne_eq,
    not_true_eq_false]
  rfl

/-- The round trip at an input with an overlapping match. -/
theorem decompressBlock_compressBlock_repeated :
    decompressBlock (compressBlock .highest (List.replicate 300 7))
      { expectedOutputLength := some (.finite 300) } = .ok (List.replicate 300 7) :=
  decompressBlock_compressBlock .highest (List.replicate 300 7) _
    (by rw [List.length_replicate]; decide) (by rw [List.length_replicate])

end ErbslandCore.Compression.Lz4
