import ErbslandCore.Network.Ip.IpAddressText

namespace ErbslandCore.Network.Ip
open Library Math Text.IntegerConversion
open Text (digitValue appendDigits ofDigits)
set_option autoImplicit true

/-- The characters of a number are the characters of its digits, the highest one first. -/
theorem fieldText_plain (base : IntegerBase) (room m : Nat) :
    fieldText { base := base } room m =
      (collectDigits base.baseFactor (room + 1) m).reverse.map (fromDigitValue · .lowercase) := by
  have hpieces : ∀ piece ∈ piecesOf { base := base } room m, piece.1 = false := by
    intro piece hmem
    rw [piecesOf, fieldPieces] at hmem
    obtain ⟨index, -, rfl⟩ := List.mem_map.mp hmem
    rw [separatedAt, Bool.false_and]
  have hsnd := fieldPieces_snd { base := base } 0 (collectDigits base.baseFactor (room + 1) m)
  have hzero (count : Nat) : zeroPadding count { base := base } = 0 := by
    simp [zeroPadding]
  rw [fieldText_eq, ← List.nil_append (List.reverse _), ← List.replicate_zero, ← hsnd,
    List.map_map]
  rw [piecesOf, hzero] at hpieces ⊢
  generalize fieldPieces _ _ _ = pieces at hpieces
  induction pieces with
  | nil => rfl
  | cons piece pieces ih =>
    obtain ⟨hhead, htail⟩ := List.forall_mem_cons.mp hpieces
    rw [List.flatMap_cons, ih htail, digitText, hhead, if_neg Bool.false_ne_true]
    rfl

theorem appendDigits_map {base : IntegerBase} (h : ∀ digit ∈ digits, digit < base.baseFactor)
    (start : Nat) : appendDigits base.baseFactor start
      (digits.map (fromDigitValue · .lowercase)) = some (digitsValue base.baseFactor start digits) := by
  induction digits generalizing start with
  | nil => rfl
  | cons digit digits ih =>
    obtain ⟨hdigit, hdigits⟩ := List.forall_mem_cons.mp h
    rw [List.map_cons, appendDigits, digitValue_fromDigitValue hdigit, Option.bind_eq_bind,
      Option.bind_some, ih hdigits]
    rfl

/-- The text of a number is a number without leading zeros. -/
theorem fieldText_number {base : IntegerBase} (h : m < base.baseFactor ^ (room + 1)) :
    ofDigits base.baseFactor (fieldText { base := base } room m) = some m ∧
      1 ≤ (fieldText { base := base } room m).length ∧
      ((fieldText { base := base } room m).head? = some 0x30 →
        (fieldText { base := base } room m).length = 1) := by
  have hb := baseFactor_pos base
  obtain ⟨hvalue, hlt, hne⟩ := collectDigits_spec hb h
  rw [fieldText_plain, List.length_map, List.length_reverse]
  refine ⟨?_, List.length_pos_iff.mpr hne, ?_⟩
  · rw [ofDigits, appendDigits_map fun digit hmem => hlt digit (List.mem_reverse.mp hmem),
      digitsValue_reverse, hvalue]
  · intro hhead
    by_cases hz : m = 0
    · rw [collectDigits_eq hb h, if_pos hz]
      rfl
    · rw [List.head?_map, List.head?_reverse] at hhead
      obtain ⟨digit, hlast, hdigit⟩ := Option.map_eq_some_iff.mp hhead
      have hlt' := hlt digit (List.mem_of_getLast? hlast)
      have hle := baseFactor_le base
      have hzero := (fromDigitValue_eq_zero (hlt'.trans_le hle) .lowercase).mp hdigit
      have hlead := (collectDigits_canonical hb h hz).2 hne
      rw [List.getLast?_eq_some_getLast hne, Option.some.injEq] at hlast
      exact absurd (hlast.trans hzero) hlead

theorem length_fieldText {base : IntegerBase} (h : m < base.baseFactor ^ (room + 1))
    (hm : m < base.baseFactor ^ (k + 1)) :
    (fieldText { base := base } room m).length ≤ k + 1 := by
  have hb := baseFactor_pos base
  rw [fieldText_plain, List.length_map, List.length_reverse, collectDigits_eq hb h]
  split_ifs with hz
  · exact Nat.succ_le_succ (Nat.zero_le k)
  · exact (Nat.digits_length_le_iff hb m).mpr hm

theorem fromInteger_eq (hm : T.Represents (m : Int)) (base : IntegerBase) :
    IpAddress.fromInteger T m { base := base } = fieldText { base := base } T.bits m := by
  have hval : (Value.staticCast T (m : Int)).val = m := Value.staticCast_val hm
  have hwidth : ({ base := base } : IntegerFormat).zeroFill = true ∨
      ({ base := base } : IntegerFormat).fieldWidth = 0 := .inr rfl
  obtain ⟨isNegative, hsign, heq⟩ := appendInteger_eq (Value.staticCast T (m : Int)) hwidth
  have hpos : isNegative = false := by
    rw [hval] at hsign
    rw [Bool.eq_false_iff]
    exact fun h => absurd (hsign.mp h) (by omega)
  rw [IpAddress.fromInteger, heq, hpos, hval]
  rfl

/-- The text of a byte. -/
theorem decByte_fromInteger (h : m ≤ 255) :
    DecByte (IpAddress.fromInteger IpAddress.uint8 m {}) m := by
  have hm : IpAddress.uint8.Represents (m : Int) := by
    refine ⟨?_, ?_⟩
    · rw [NativeInteger.minimum_unsigned rfl]
      exact Int.natCast_nonneg m
    · exact Int.ofNat_le.mpr h
  have hroom : m < IntegerBase.decimal.baseFactor ^ (IpAddress.uint8.bits + 1) :=
    lt_of_le_of_lt h (by decide)
  obtain ⟨hvalue, hpos, hzero⟩ := fieldText_number hroom
  rw [fromInteger_eq hm]
  exact ⟨hpos, hvalue, h, hzero⟩

/-- The text of a word. -/
theorem hexGroup_fromInteger (h : m < 0x10000) :
    HexGroup (IpAddress.fromInteger IpAddress.uint16 m { base := .hexadecimal }) m ∧
      PlainGroup (IpAddress.fromInteger IpAddress.uint16 m { base := .hexadecimal }) := by
  have hm : IpAddress.uint16.Represents (m : Int) := by
    refine ⟨?_, ?_⟩
    · rw [NativeInteger.minimum_unsigned rfl]
      exact Int.natCast_nonneg m
    · exact Int.ofNat_le.mpr (Nat.le_of_lt_succ h)
  have hroom : m < IntegerBase.hexadecimal.baseFactor ^ (IpAddress.uint16.bits + 1) :=
    lt_of_lt_of_le h (by decide)
  obtain ⟨hvalue, hpos, hzero⟩ := fieldText_number hroom
  have hle := length_fieldText (k := 3) hroom (lt_of_lt_of_le h (by decide))
  rw [fromInteger_eq hm]
  refine ⟨⟨hpos, hle, hvalue⟩, fun hhead => ?_⟩
  obtain ⟨c, hc⟩ := List.length_eq_one_iff.mp (hzero hhead)
  rw [hc]
  exact ⟨nofun, nofun⟩

namespace IpAddress

theorem toNat_le (byte : UInt8) : byte.toNat ≤ 255 := Nat.le_of_lt_succ byte.toNat_lt

/-- The written data of a dotted address. -/
theorem dotted_formatV4From (h : data ≠ []) :
    Dotted (formatV4From data) (data.map UInt8.toNat) := by
  induction data with
  | nil => exact absurd rfl h
  | cons byte data ih =>
    cases data with
    | nil => exact .last (decByte_fromInteger (toNat_le byte))
    | cons next data =>
      exact .cons (decByte_fromInteger (toNat_le byte)) (ih (List.cons_ne_nil _ _))

theorem v4Text_formatV4 (h : ((data.drop offset).take 4).length = 4) :
    V4Text (formatV4 data offset) (((data.drop offset).take 4).map UInt8.toNat) := by
  refine ⟨dotted_formatV4From ?_, (List.length_map _).trans h⟩
  intro hnil
  rw [hnil] at h
  cases h

theorem map_ofNat_toNat (data : List UInt8) :
    (data.map UInt8.toNat).map UInt8.ofNat = data := by
  rw [List.map_map]
  exact (List.map_congr_left fun byte _ => UInt8.ofNat_toNat).trans (List.map_id data)

theorem word_eq (high low : UInt8) :
    high.toNat <<< 8 ||| low.toNat = high.toNat * 256 + low.toNat := by
  rw [Nat.shiftLeft_eq, Nat.mul_comm, ← Nat.two_pow_add_eq_or_of_lt low.toNat_lt]

/-- The words hold all data. -/
theorem wordBytes_toWords (count : Nat) (h : data.length = 2 * count) :
    wordBytes (toWords data) = data ∧ (toWords data).length = count ∧
      ∀ word ∈ toWords data, word < 0x10000 := by
  induction count generalizing data with
  | zero =>
    rw [List.length_eq_zero_iff.mp h]
    exact ⟨rfl, rfl, nofun⟩
  | succ count ih =>
    match data, h with
    | high :: low :: data, h =>
      have hrest : data.length = 2 * count := by
        rw [List.length_cons, List.length_cons] at h
        omega
      obtain ⟨hbytes, hlength, hlt⟩ := ih hrest
      have hlow := low.toNat_lt
      have hhigh := high.toNat_lt
      rw [toWords, word_eq]
      refine ⟨?_, ?_, ?_⟩
      · rw [wordBytes, List.flatMap_cons, ← wordBytes, hbytes, Nat.shiftRight_eq_div_pow]
        have h₁ : (high.toNat * 256 + low.toNat) / 2 ^ 8 = high.toNat := by omega
        have h₂ : UInt8.ofNat (high.toNat * 256 + low.toNat) = low := by
          apply UInt8.toNat_inj.mp
          rw [UInt8.toNat_ofNat']
          omega
        rw [h₁, h₂, UInt8.ofNat_toNat]
        rfl
      · rw [List.length_cons, hlength]
      · intro word hmem
        rcases List.mem_cons.mp hmem with rfl | hmem
        · omega
        · exact hlt word hmem

/-- Text of words, with a colon before each. -/
def colonWords (words : List Nat) : List Nat :=
  words.flatMap fun word => 0x3A :: fromInteger uint16 word { base := .hexadecimal }

theorem pieces_colonWords (hword : word < 0x10000) (hwords : ∀ w ∈ words, w < 0x10000) :
    Pieces PlainGroup (HexEnd PlainGroup)
      (fromInteger uint16 word { base := .hexadecimal } ++ colonWords words) (word :: words) := by
  obtain ⟨hgroup, hplain⟩ := hexGroup_fromInteger hword
  induction words generalizing word with
  | nil =>
    rw [colonWords, List.flatMap_nil, List.append_nil]
    exact .last ⟨word, hgroup, hplain, rfl⟩
  | cons next words ih =>
    obtain ⟨hnext, hrest⟩ := List.forall_mem_cons.mp hwords
    obtain ⟨hgroup', hplain'⟩ := hexGroup_fromInteger hnext
    rw [colonWords, List.flatMap_cons, List.cons_append]
    exact .cons hgroup hplain (ih hnext hrest hgroup' hplain')

/-- A run of zeros among the words. -/
structure ZeroRun (words : List Nat) (run : Run) : Prop where
  le : run.start + run.length ≤ words.length
  two_le : 2 ≤ run.length
  zeros : (words.drop run.start).take run.length = List.replicate run.length 0

/-- The search starts without a run and only replaces it by runs of zeros. -/
theorem bestRun_spec (fuel : Nat) {start : Nat} (hbest : best = ⟨words.length, 0⟩ ∨ ZeroRun words best)
    (hrest : words.drop start = rest) :
    bestRun fuel start best rest = ⟨words.length, 0⟩ ∨ ZeroRun words (bestRun fuel start best rest) := by
  induction fuel generalizing start best rest with
  | zero => exact hbest
  | succ fuel ih =>
    cases rest with
    | nil => exact hbest
    | cons word rest =>
      have hstart : start < words.length := by
        by_contra hle
        rw [List.drop_eq_nil_of_le (not_lt.mp hle)] at hrest
        cases hrest
      rw [bestRun]
      split_ifs with hword
      · exact ih hbest (by rw [← List.drop_drop, hrest, List.drop_one, List.tail_cons])
      · refine ih ?_ (by rw [← List.drop_drop, hrest])
        split_ifs with hlonger
        · refine .inr ⟨?_, hlonger.2, ?_⟩
          · have hle := (List.takeWhile_prefix (fun w : Nat => w == 0) (l := word :: rest)).length_le
            rw [← hrest, List.length_drop] at hle
            rw [← hrest]
            exact (Nat.add_le_add_left hle start).trans (by omega)
          · have htake := List.prefix_iff_eq_take.mp
              (List.takeWhile_prefix (fun w : Nat => w == 0) (l := word :: rest))
            rw [hrest, ← htake]
            refine List.eq_replicate_iff.mpr ⟨rfl, fun w hmem => ?_⟩
            have hzero := List.mem_takeWhile_imp hmem
            exact beq_iff_eq.mp hzero
        · exact hbest

/-- The words behind the run. -/
theorem formatWords_behind (words : List Nat) (best : Run) (fuel : Nat) {index : Nat} (hpos : 0 < index)
    (h : ∀ i, index ≤ i → i < words.length → i ≠ best.start ∧ i ≠ best.start + best.length)
    (hfuel : words.length < fuel + index) :
    formatWords words best fuel index = colonWords (words.drop index) := by
  induction fuel generalizing index with
  | zero =>
    rw [List.drop_eq_nil_of_le (by omega)]
    rfl
  | succ fuel ih =>
    rw [formatWords]
    split_ifs with hlt hstart hcolon
    · exact absurd hstart (h index (Nat.le_refl index) hlt).1
    · rw [ih (Nat.succ_pos index) (fun i hi => h i (by omega)) (by omega),
        List.drop_eq_getElem_cons hlt, colonWords, colonWords, List.flatMap_cons]
      rfl
    · exact absurd ⟨hpos, (h index (Nat.le_refl index) hlt).2⟩ hcolon
    · rw [List.drop_eq_nil_of_le (not_lt.mp hlt)]
      rfl

/-- The words before the run. -/
theorem formatWords_before (words : List Nat) (best : Run) (fuel : Nat) {index count : Nat} (hpos : 0 < index)
    (hstart : best.start = index + count) (hlt : best.start < words.length) :
    formatWords words best (fuel + count + 1) index =
      colonWords ((words.drop index).take count) ++
        0x3A :: 0x3A :: formatWords words best fuel (best.start + best.length) := by
  induction count generalizing index with
  | zero =>
    rw [formatWords, dif_pos (by omega), if_pos (by omega), List.take_zero]
    rw [hstart]
    rfl
  | succ count ih =>
    have hindex : index < words.length := by omega
    rw [formatWords, dif_pos hindex, if_neg (by omega), if_pos ⟨hpos, by omega⟩, ← Nat.add_assoc,
      ih (Nat.succ_pos index) (by omega), List.drop_eq_getElem_cons hindex, List.take_succ_cons,
      colonWords, colonWords, List.flatMap_cons, ← List.append_assoc]
    rfl

theorem pieces_drop {words : List Nat} {count : Nat} (hwords : ∀ w ∈ words, w < 0x10000) (hlt : count < words.length) :
    Pieces PlainGroup (HexEnd PlainGroup)
      (fromInteger uint16 words[count] { base := .hexadecimal } ++
        colonWords (words.drop (count + 1)))
      (words.drop count) := by
  rw [List.drop_eq_getElem_cons hlt]
  exact pieces_colonWords (hwords _ (List.getElem_mem hlt)) fun w hmem =>
    hwords w (List.mem_of_mem_drop hmem)

/-- The text behind the run. -/
theorem formatWords_tail (hwords : ∀ w ∈ words, w < 0x10000) (hrun : ZeroRun words best)
    (hfuel : words.length ≤ fuel + best.start) :
    formatWords words best fuel (best.start + best.length) = [] ∧
        words.drop (best.start + best.length) = [] ∨
      Pieces PlainGroup (HexEnd PlainGroup)
        (formatWords words best fuel (best.start + best.length))
        (words.drop (best.start + best.length)) := by
  have htwo := hrun.two_le
  by_cases hlt : best.start + best.length < words.length
  · obtain ⟨fuel, rfl⟩ : ∃ rest, fuel = rest + 1 := Nat.exists_eq_succ_of_ne_zero (by omega)
    have hbehind := formatWords_behind words best fuel (Nat.succ_pos (best.start + best.length))
      (fun i hi _ => ⟨by omega, by omega⟩) (by omega)
    right
    rw [formatWords, dif_pos hlt, if_neg (by omega), if_neg (fun h => h.2 rfl), List.nil_append,
      hbehind]
    exact pieces_drop hwords hlt
  · left
    refine ⟨?_, List.drop_eq_nil_of_le (not_lt.mp hlt)⟩
    cases fuel with
    | zero => rfl
    | succ fuel => rw [formatWords, dif_neg hlt]

/-- The text before the run, and the run. -/
theorem formatWords_head (hwords : ∀ w ∈ words, w < 0x10000) (hrun : ZeroRun words best) :
    ∃ l fuel, words.length ≤ fuel + best.start ∧
      formatWords words best (words.length + 1) 0 =
        l ++ 0x3A :: 0x3A :: formatWords words best fuel (best.start + best.length) ∧
      (l = [] ∧ words.take best.start = [] ∨
        Pieces PlainGroup (HexEnd PlainGroup) l (words.take best.start)) := by
  have htwo := hrun.two_le
  have hle := hrun.le
  by_cases hzero : best.start = 0
  · refine ⟨[], words.length, Nat.le_add_right _ _, ?_, .inl ⟨rfl, by rw [hzero, List.take_zero]⟩⟩
    rw [formatWords, dif_pos (by omega), if_pos hzero.symm]
    rw [hzero]
    rfl
  · have hpos : 0 < words.length := by omega
    obtain ⟨count, hcount⟩ := Nat.exists_eq_succ_of_ne_zero hzero
    obtain ⟨fuel, hfuel⟩ := Nat.exists_eq_add_of_lt (show best.start < words.length by omega)
    have hstart : best.start = 1 + count := by omega
    have hbefore := formatWords_before words best (fuel + 1) Nat.one_pos hstart (by omega)
    have htotal : words.length = fuel + 1 + count + 1 := by omega
    refine ⟨fromInteger uint16 words[0] { base := .hexadecimal } ++
      colonWords ((words.drop 1).take count), fuel + 1, by omega, ?_, .inr ?_⟩
    · rw [formatWords, dif_pos hpos, if_neg (Ne.symm hzero),
        if_neg fun h => absurd h.1 (Nat.lt_irrefl 0), List.nil_append, htotal, hbefore,
        List.append_assoc]
    · have htake : words.take best.start = words[0] :: (words.drop 1).take count := by
        rw [hcount, ← List.take_succ_cons, List.cons_getElem_drop_succ (h := hpos)]
        rfl
      rw [htake]
      exact pieces_colonWords (hwords _ (List.getElem_mem hpos)) fun w hmem =>
        hwords w (List.mem_of_mem_drop (List.mem_of_mem_take hmem))

/-- The text of eight words. -/
theorem v6Text_formatWords (hlength : words.length = 8) (hwords : ∀ w ∈ words, w < 0x10000) :
    V6Text PlainGroup (AddressEnd PlainGroup)
      (formatWords words (bestRun words.length 0 ⟨words.length, 0⟩ words) (words.length + 1) 0)
      words := by
  have hspec := bestRun_spec words.length (.inl rfl) (List.drop_zero (l := words))
  generalize bestRun words.length 0 ⟨words.length, 0⟩ words = best at hspec ⊢
  have hmono {t ws : List Nat} (h : Pieces PlainGroup (HexEnd PlainGroup) t ws) :
      Pieces PlainGroup (AddressEnd PlainGroup) t ws := h.mono (fun _ h => h) fun _ _ h => .inl h
  rcases hspec with rfl | hrun
  · have hpos : 0 < words.length := by omega
    have hbehind := formatWords_behind words ⟨words.length, 0⟩ words.length Nat.one_pos
      (fun i _ hi => ⟨hi.ne, hi.ne⟩) (by omega)
    refine .full (hmono ?_) hlength
    rw [formatWords, dif_pos hpos, if_neg hpos.ne,
      if_neg fun h => absurd h.1 (Nat.lt_irrefl 0), List.nil_append, hbehind]
    exact pieces_drop hwords hpos
  · obtain ⟨l, fuel, hfuel, heq, hl⟩ := formatWords_head hwords hrun
    have hr := formatWords_tail hwords hrun hfuel
    have hle := hrun.le
    have htwo := hrun.two_le
    have hcount : (words.take best.start).length +
        (words.drop (best.start + best.length)).length = 8 - best.length := by
      rw [List.length_take, List.length_drop]
      omega
    have hsplit : words = words.take best.start ++ List.replicate best.length 0 ++
        words.drop (best.start + best.length) := by
      rw [← hrun.zeros, List.append_assoc, ← List.drop_drop, List.take_append_drop,
        List.take_append_drop]
    have htext := V6Text.compressed hl (hr.imp_right hmono) (hcount.trans_le (by omega))
    rw [hcount, Nat.sub_sub_self (by omega), ← hsplit] at htext
    rw [heq]
    exact htext

/-- The bytes of a mapped address. -/
theorem isV4Mapped_split (h : isV4Mapped data = true) (hlength : data.length = 16) :
    data = List.replicate 10 0 ++ 0xFF :: 0xFF :: data.drop 12 := by
  rw [isV4Mapped, Bool.and_eq_true, Bool.and_eq_true, beq_iff_eq, beq_iff_eq, List.all_eq_true] at h
  obtain ⟨⟨hzeros, hten⟩, heleven⟩ := h
  have htake : data.take 10 = List.replicate 10 0 := by
    refine List.eq_replicate_iff.mpr ⟨?_, fun byte hmem => beq_iff_eq.mp (hzeros byte hmem)⟩
    rw [List.length_take, hlength]
    rfl
  have h10 : 10 < data.length := by omega
  have h11 : 11 < data.length := by omega
  have hdrop : data.drop 10 = data[10] :: data[11] :: data.drop 12 := by
    rw [List.drop_eq_getElem_cons h10, List.drop_eq_getElem_cons h11]
  rw [List.getElem?_eq_getElem h10, Option.some.injEq] at hten
  rw [List.getElem?_eq_getElem h11, Option.some.injEq] at heleven
  calc data = data.take 10 ++ data.drop 10 := (List.take_append_drop 10 data).symm
    _ = List.replicate 10 0 ++ 0xFF :: 0xFF :: data.drop 12 := by rw [htake, hdrop, hten, heleven]

theorem toWords_mapped (h : tail.length = 4) :
    toWords (List.replicate 10 0 ++ 0xFF :: 0xFF :: tail) =
      [] ++ List.replicate (8 - (([] : List Nat).length + (0xFFFF :: v4Words (tail.map UInt8.toNat)).length)) 0 ++
        0xFFFF :: v4Words (tail.map UInt8.toNat) := by
  match tail, h with
  | [first, second, third, fourth], _ => rfl

theorem v6Text_formatV6 (h : data.length = 16) :
    V6Text PlainGroup (AddressEnd PlainGroup) (formatV6 data) (toWords data) := by
  rw [formatV6]
  split_ifs with hmapped
  · have htail : (data.drop 12).length = 4 := by rw [List.length_drop, h]
    have hfour : ((data.drop 12).take 4).length = 4 := by rw [List.length_take, htail]; rfl
    have hdotted := v4Text_formatV4 hfour
    rw [List.take_of_length_le htail.le] at hdotted
    have hgroup : HexGroup [0x66, 0x66, 0x66, 0x66] 0xFFFF := ⟨by decide, by decide, by decide⟩
    have hpieces : Pieces PlainGroup (AddressEnd PlainGroup)
        ([0x66, 0x66, 0x66, 0x66] ++ 0x3A :: formatV4 data 12)
        (0xFFFF :: v4Words ((data.drop 12).map UInt8.toNat)) :=
      .cons hgroup nofun (.last (.inr ⟨_, hdotted, rfl⟩))
    have hwords := toWords_mapped htail
    rw [← isV4Mapped_split hmapped h] at hwords
    rw [hwords]
    refine .compressed (.inl ⟨rfl, rfl⟩) (.inr hpieces) ?_
    rw [List.length_cons, length_v4Words ((List.length_map _).trans htail)]
    decide
  · obtain ⟨-, hlength, hlt⟩ := wordBytes_toWords 8 h
    exact v6Text_formatWords hlength hlt

end IpAddress

theorem ascii_of_digits {b : Nat} (hvalue : ofDigits b g = some v) : ∀ c ∈ g, c < 0x80 := by
  intro c hmem
  obtain ⟨digit, hdigit⟩ := Option.isSome_iff_exists.mp (isSome_of_appendDigits hvalue hmem)
  have hrange := digit_range hdigit
  omega

theorem ascii_append (hl : ∀ c ∈ l, c < 0x80) (ht : ∀ c ∈ t, c < 0x80) (hc : separator < 0x80) :
    ∀ c ∈ l ++ separator :: t, c < 0x80 :=
  List.forall_mem_append.mpr ⟨hl, List.forall_mem_cons.mpr ⟨hc, ht⟩⟩

/-- The characters and the length of a dotted address. -/
theorem Dotted.ascii (h : Dotted t bs) : (∀ c ∈ t, c < 0x80) ∧ t.length ≤ 4 * bs.length := by
  induction h with
  | last h =>
    exact ⟨ascii_of_digits h.value, h.length_le.trans (Nat.le_succ 3)⟩
  | cons h _ ih =>
    refine ⟨ascii_append (ascii_of_digits h.value) ih.1 (by decide), ?_⟩
    have hle := h.length_le
    have hrest := ih.2
    rw [List.length_append, List.length_cons, List.length_cons]
    omega

theorem AddressEnd.ascii (h : AddressEnd P t ws) :
    (∀ c ∈ t, c < 0x80) ∧ t.length ≤ 8 * ws.length := by
  rcases h with ⟨w, hgroup, -, rfl⟩ | ⟨bs, h, rfl⟩
  · exact ⟨ascii_of_digits hgroup.value, hgroup.length_le.trans (Nat.le_add_right 4 4)⟩
  · obtain ⟨hascii, hle⟩ := h.1.ascii
    rw [h.2] at hle
    exact ⟨hascii, hle.trans_eq (by rw [length_v4Words h.2])⟩

theorem Pieces.ascii (hE : ∀ t ws, E t ws → (∀ c ∈ t, c < 0x80) ∧ t.length ≤ 8 * ws.length)
    (h : Pieces P E t ws) : (∀ c ∈ t, c < 0x80) ∧ t.length ≤ 8 * ws.length := by
  induction h with
  | last h => exact hE _ _ h
  | cons hgroup _ _ ih =>
    refine ⟨ascii_append (ascii_of_digits hgroup.value) ih.1 (by decide), ?_⟩
    have hle := hgroup.length_le
    have hrest := ih.2
    rw [List.length_append, List.length_cons, List.length_cons]
    omega

theorem V6Text.ascii (h : V6Text P (AddressEnd P) t ws) : (∀ c ∈ t, c < 0x80) ∧ t.length ≤ 66 := by
  cases h with
  | full hpieces hlength =>
    obtain ⟨hascii, hle⟩ := hpieces.ascii fun _ _ h => h.ascii
    exact ⟨hascii, by omega⟩
  | @compressed l ls r rs hl hr hlength =>
    have hleft : (∀ c ∈ l, c < 0x80) ∧ l.length ≤ 8 * ls.length := by
      rcases hl with ⟨rfl, rfl⟩ | hpieces
      · exact ⟨nofun, Nat.le_refl 0⟩
      · exact hpieces.ascii fun _ _ h => AddressEnd.ascii (.inl h)
    have hright : (∀ c ∈ r, c < 0x80) ∧ r.length ≤ 8 * rs.length := by
      rcases hr with ⟨rfl, rfl⟩ | hpieces
      · exact ⟨nofun, Nat.le_refl 0⟩
      · exact hpieces.ascii fun _ _ h => h.ascii
    refine ⟨ascii_append hleft.1 (List.forall_mem_cons.mpr ⟨by decide, hright.1⟩) (by decide), ?_⟩
    have h₁ := hleft.2
    have h₂ := hright.2
    rw [List.length_append, List.length_cons, List.length_cons]
    omega

namespace IpAddress
open Text.Utf8 (characters)

theorem characters_toText (h : ∀ c ∈ t, c < 0x80) : characters (toText t) = t := by
  have hbyte (c : Nat) (hc : c ∈ t) : (UInt8.ofNat c).toNat = c := by
    rw [UInt8.toNat_ofNat', Nat.mod_eq_of_lt ((h c hc).trans (by decide))]
  rw [toText, (Text.Utf8.characters_ascii fun byte hmem => ?_).2, List.map_map]
  · exact (List.map_congr_left hbyte).trans (List.map_id t)
  · obtain ⟨c, hc, rfl⟩ := List.mem_map.mp hmem
    rw [hbyte c hc]
    exact h c hc

theorem testCommonHostText_toText (hne : t ≠ []) (h : t.length ≤ 1024) (object : String) :
    testCommonHostText (toText t) object = .ok () := by
  have hnil : toText t ≠ [] := fun hnil => hne (List.map_eq_nil_iff.mp hnil)
  have hlength : (toText t).length = t.length := List.length_map _
  rw [testCommonHostText, if_neg hnil, hlength, if_neg (not_lt.mpr h)]

/-- The text of an address is read as the address. -/
theorem fromString_toString (a : IpAddress) : fromString a.toString = some a := by
  rw [fromString, toString]
  cases hversion : a.version with
  | v4 =>
    have hfour : ((a.bytes.drop 0).take 4).length = 4 := by
      rw [List.drop_zero, List.length_take, a.length_bytes]
      rfl
    have htext := v4Text_formatV4 hfour
    obtain ⟨hascii, hle⟩ := htext.1.ascii
    rw [htext.2] at hle
    have hne : formatV4 a.bytes 0 ≠ [] := by
      obtain ⟨c, hhead, -⟩ := htext.1.startsPiece
      intro hnil
      rw [hnil] at hhead
      cases hhead
    have htest := testCommonHostText_toText hne (hle.trans (by decide)) "IP-address"
    rw [← characters_toText hascii] at htext
    simp only [fromStringOrThrow_v4 htest htext, Except.toOption, Option.some.injEq]
    refine eq_of_bytes hversion.symm ?_
    rw [map_ofNat_toNat, ofV4Bytes_bytes hfour, List.drop_zero, ← a.unused hversion,
      List.take_append_drop]
  | v6 =>
    have htext := v6Text_formatV6 a.length_bytes
    obtain ⟨hascii, hle⟩ := htext.ascii
    have hne : formatV6 a.bytes ≠ [] := List.ne_nil_of_mem htext.colon
    have htest := testCommonHostText_toText hne (hle.trans (by decide)) "IP-address"
    rw [← characters_toText hascii] at htext
    have hread := fromStringOrThrow_v6 htest (v6Text_parsedEnd_iff.mpr (.inl htext)) htext.colon
    obtain ⟨hbytes, -, -⟩ := wordBytes_toWords 8 a.length_bytes
    simp only [hread, Except.toOption, Option.some.injEq]
    refine eq_of_bytes hversion.symm ?_
    rw [ofV6Bytes_words htext, hbytes]

/-- An address is read as what it denotes, unless it is misread; and every address is read from its
own text. -/
theorem fromStringOrThrow_iff (text : List UInt8)
    (htest : testCommonHostText text "IP-address" = .ok ()) :
    ((∀ a, fromStringOrThrow text = .ok a ↔ Denotes (characters text) a) ↔
        ¬ Misread (characters text)) ∧
      ∀ a : IpAddress, fromString a.toString = some a := by
  refine ⟨⟨fun h hmis => ?_, fun h a => ?_⟩, fromString_toString⟩
  · exact fromStringOrThrow_misread htest hmis h
  · exact fromStringOrThrow_denotes htest h a

/-- `::1` -/
theorem fromStringOrThrow_loopback :
    testCommonHostText [0x3A, 0x3A, 0x31] "IP-address" = .ok () ∧
      ((∀ a, fromStringOrThrow [0x3A, 0x3A, 0x31] = .ok a ↔
          Denotes (characters [0x3A, 0x3A, 0x31]) a) ↔
        ¬ Misread (characters [0x3A, 0x3A, 0x31])) ∧
      ∀ a : IpAddress, fromString a.toString = some a :=
  ⟨rfl, fromStringOrThrow_iff [0x3A, 0x3A, 0x31] rfl⟩

/-- `::1:` is read though it is no address, and `::0b1` is one that is not read. -/
theorem fromStringOrThrow_dangling :
    (¬ ∀ a, fromStringOrThrow [0x3A, 0x3A, 0x31, 0x3A] = .ok a ↔
        Denotes (characters [0x3A, 0x3A, 0x31, 0x3A]) a) ∧
      ¬ ∀ a, fromStringOrThrow [0x3A, 0x3A, 0x30, 0x62, 0x31] = .ok a ↔
        Denotes (characters [0x3A, 0x3A, 0x30, 0x62, 0x31]) a := by
  constructor
  · have htext : characters [0x3A, 0x3A, 0x31, 0x3A] = [0x3A, 0x3A, 0x31] ++ [0x3A] :=
      characters_toText (t := [0x3A, 0x3A, 0x31, 0x3A]) (by decide)
    have hgroup : HexGroup [0x31] 1 := ⟨by decide, by decide, by decide⟩
    have hpieces : Pieces PlainGroup (HexEnd PlainGroup) [0x31] [1] :=
      .last ⟨1, hgroup, nofun, rfl⟩
    have haddress := V6Text.compressed (.inl ⟨rfl, rfl⟩) (.inr hpieces) (by decide)
    refine fromStringOrThrow_misread rfl ?_
    rw [htext]
    exact .inl ⟨_, [0x3A, 0x3A, 0x31], rfl, by decide, haddress⟩
  · have htext : characters [0x3A, 0x3A, 0x30, 0x62, 0x31] =
        [] ++ 0x3A :: 0x3A :: [0x30, 0x62, 0x31] :=
      characters_toText (t := [0x3A, 0x3A, 0x30, 0x62, 0x31]) (by decide)
    have hgroup : HexGroup [0x30, 0x62, 0x31] 0xB1 := ⟨by decide, by decide, by decide⟩
    have hpieces : Pieces AnyGroup (AddressEnd AnyGroup) [0x30, 0x62, 0x31] [0xB1] :=
      .last (.inl ⟨0xB1, hgroup, trivial, rfl⟩)
    have haddress := V6Text.compressed (.inl ⟨rfl, rfl⟩) (.inr hpieces) (by decide)
    refine fromStringOrThrow_misread rfl ?_
    rw [htext]
    refine .inr ⟨⟨_, haddress⟩, fun hplain => ?_⟩
    exact (hplain [0x3A, 0x3A] [0x30, 0x62, 0x31] rfl (.inr rfl) rfl).1 rfl

end IpAddress

end ErbslandCore.Network.Ip
