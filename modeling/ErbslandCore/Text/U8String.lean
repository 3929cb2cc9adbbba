import Mathlib.Data.List.DropRight
import ErbslandCore.Text.U8Encoding

namespace ErbslandCore.Text
open Library
set_option autoImplicit true

/-- The ASCII categories that this library's parsers use, as predicates on characters. -/
def isAsciiDigit (c : Nat) : Bool := 0x30 ≤ c && c ≤ 0x39

def isAsciiLetter (c : Nat) : Bool := (0x41 ≤ c && c ≤ 0x5A) || (0x61 ≤ c && c ≤ 0x7A)

def isAsciiAlphanumeric (c : Nat) : Bool := isAsciiLetter c || isAsciiDigit c

def isAsciiHexDigit (c : Nat) : Bool :=
  isAsciiDigit c || (0x41 ≤ c && c ≤ 0x46) || (0x61 ≤ c && c ≤ 0x66)

def isAsciiBlank (c : Nat) : Bool := c = 0x20 || c = 0x09

def isAsciiControl (c : Nat) : Bool := c ≤ 0x1F || c = 0x7F

def toAsciiLowercase (c : Nat) : Nat := if 0x41 ≤ c ∧ c ≤ 0x5A then c + 0x20 else c

namespace U8String

/-- The bytes of an ASCII literal. -/
def ofLiteral (text : String) : List UInt8 := text.toList.map fun c => UInt8.ofNat c.toNat

/-- The first character at a position, if there is one. -/
def charAt (text : List UInt8) (index : Nat) : Option Nat :=
  if index < text.length then some (Utf8.decodeCharOrReplace (text.drop index)).1 else none

/-- The position of an ASCII character, from a start on. -/
def findFirstOf (text : List UInt8) (character : UInt8) (start : Nat) : Option Nat :=
  ((text.drop start).findIdx? (· = character)).map (start + ·)

def slice (text : List UInt8) (start stop : Nat) : List UInt8 := (text.take stop).drop start

def containsOnly (characters : Nat → Bool) (text : List UInt8) : Bool :=
  (Utf8.characters text).all characters

/-- The length of the character before an index, if its first byte is so far away; a continuation
byte asks for a longer distance. -/
def lengthByte (buffer : List UInt8) (index delta : Nat) : Nat :=
  if index < delta then 1
  else
    let decodedByte := buffer[index - delta]?.getD 0
    let second := buffer[index - delta + 1]?.getD 0
    if decodedByte &&& 0b11000000 = 0b10000000 then 0
    else if decodedByte < 0x80 ∨ decodedByte &&& 0b11111000 = 0b11111000 then 1
    else if decodedByte &&& 0b11100000 = 0b11000000 ∧ delta = 2 ∧ decodedByte ≥ 0b11000010 then 2
    else if decodedByte &&& 0b11110000 = 0b11100000 ∧ delta = 3 ∧
      (decodedByte ≠ 0xE0 ∨ second ≥ 0xA0) then 3
    else if decodedByte &&& 0b11111000 = 0b11110000 ∧ delta = 4 ∧ decodedByte < 0b11110101 ∧
      (decodedByte ≠ 0xF0 ∨ second ≥ 0x90) then 4
    else 1

/-- The position of the character before a position. -/
def fastRetreatChar (buffer : List UInt8) (position : Nat) : Nat :=
  let index := min position buffer.length
  if index = 0 then position
  else match ([1, 2, 3, 4].map (lengthByte buffer index)).find? (0 < ·) with
    | some result => position - result
    | none => position - 1

/-- The first and the last character are the given one. -/
def startsWith (text : List UInt8) (character : Nat) : Bool := charAt text 0 = some character

def endsWith (text : List UInt8) (character : Nat) : Bool :=
  charAt text (fastRetreatChar text text.length) = some character

/-- The position after the leading characters that satisfy a predicate. -/
def trimBegin (predicate : Nat → Bool) (data : List UInt8) : Nat → Nat → Nat
  | 0, start => start
  | fuel + 1, start =>
    if start < data.length then
      let decoded := Utf8.decodeCharOrReplace (data.drop start)
      if predicate decoded.1 then trimBegin predicate data fuel (start + decoded.2) else start
    else start

/-- The position before the trailing characters that satisfy a predicate. -/
def trimEnd (predicate : Nat → Bool) (data : List UInt8) (start : Nat) : Nat → Nat → Nat
  | 0, stop => stop
  | fuel + 1, stop =>
    if stop > start then
      let characterStart := fastRetreatChar data stop
      let character := (Utf8.decodeCharOrReplace (data.drop characterStart)).1
      if predicate character then trimEnd predicate data start fuel characterStart else stop
    else stop

def trimmed (predicate : Nat → Bool) (text : List UInt8) : List UInt8 :=
  let start := trimBegin predicate text text.length 0
  let stop := trimEnd predicate text start text.length text.length
  slice text start stop

end U8String

namespace Utf8

theorem decodeCharOrReplace_ascii {b : UInt8} (h : b.toNat < 0x80) (t : List UInt8) :
    decodeCharOrReplace (b :: t) = (b.toNat, 1) := by
  rw [decodeCharOrReplace, if_pos (UInt8.lt_iff_toNat_lt.mpr h)]

/-- A sequence of several bytes holds no ASCII character. -/
theorem decodeCharOrReplace_sequence {b : UInt8} (h : 0x80 ≤ b.toNat) (t : List UInt8) :
    0x80 ≤ (decodeCharOrReplace (b :: t)).1 := by
  rw [decodeCharOrReplace_eq _ (List.cons_ne_nil b t)]
  cases hd : (tryDecodeChar (b :: t)).1 with
  | none => exact (by decide : 0x80 ≤ replacement)
  | some c =>
    obtain ⟨hv, -, he⟩ := tryDecodeChar_sound (Prod.ext hd rfl :
      tryDecodeChar (b :: t) = (some c, (tryDecodeChar (b :: t)).2))
    by_contra hc
    have hc : c ≤ 0x7F := by
      simp only [Option.getD_some, not_le] at hc
      omega
    rw [Library.Utf8.encode, if_pos hc, List.singleton_append, List.cons.injEq] at he
    rw [he.1, UInt8.toNat_ofNat', Nat.mod_eq_of_lt (by omega)] at h
    omega

theorem decodeCharOrReplace_eq_ascii (b : UInt8) (t : List UInt8) (hc : c < 0x80) :
    (decodeCharOrReplace (b :: t)).1 = c ↔ b.toNat = c := by
  by_cases h : b.toNat < 0x80
  · rw [decodeCharOrReplace_ascii h]
  · have := decodeCharOrReplace_sequence (b := b) (by omega) t
    omega

theorem characters_cons (b : UInt8) (t : List UInt8) : characters (b :: t) =
    (decodeCharOrReplace (b :: t)).1 :: characters (t.drop ((tryDecodeChar (b :: t)).2 - 1)) := by
  rw [characters, decodeFrom_cons, List.map_cons, decodeCharOrReplace_eq _ (List.cons_ne_nil b t)]
  rfl

theorem characters_cons_ascii {b : UInt8} (h : b.toNat < 0x80) (t : List UInt8) :
    characters (b :: t) = b.toNat :: characters t := by
  rw [characters_cons, decodeCharOrReplace_ascii h, tryDecodeChar_ascii h]
  rfl

theorem decodeCont_bytes (h : decodeCont count v t = some w) (hb : b ∈ t.take count) :
    0x80 ≤ b.toNat := by
  induction count generalizing v t with
  | zero => cases hb
  | succ count ih =>
    obtain ⟨b', t', rfl, hl, hu, hd⟩ := decodeCont_some h
    rw [List.take_succ_cons] at hb
    rcases List.mem_cons.mp hb with rfl | hb
    · exact hl
    · exact ih hd hb

/-- A decoding step passes over no ASCII byte but the first one. -/
theorem tryDecodeChar_bytes {t : List UInt8} (hb : b' ∈ t.take ((tryDecodeChar (b :: t)).2 - 1)) : 0x80 ≤ b'.toNat := by
  by_cases h : b.toNat < 0x80
  · rw [tryDecodeChar_ascii h] at hb
    cases hb
  · rw [tryDecodeChar_sequence (by omega)] at hb
    cases hs : startOfSequence b with
    | none =>
      rw [hs] at hb
      cases hb
    | some s =>
      obtain ⟨size, bits⟩ := s
      rw [hs] at hb
      simp only at hb
      cases hd : decodeCont (size - 1) bits t with
      | none =>
        rw [hd] at hb
        cases hb
      | some c =>
        rw [hd] at hb
        simp only at hb
        split_ifs at hb with h₁ h₂
        · cases hb
        · exact decodeCont_bytes hd hb
        · exact decodeCont_bytes hd hb

/-- The ASCII characters of a text are its ASCII bytes. -/
theorem mem_characters_ascii (data : List UInt8) (hc : c < 0x80) :
    c ∈ characters data ↔ ∃ b ∈ data, b.toNat = c := by
  induction hn : data.length using Nat.strong_induction_on generalizing data with
  | _ n ih =>
    cases data with
    | nil => simp [characters, decodeFrom]
    | cons b t =>
      have hrest := ih (t.drop ((tryDecodeChar (b :: t)).2 - 1)).length
        (by simp at hn ⊢; omega) _ rfl
      rw [characters_cons, List.mem_cons, hrest, eq_comm, decodeCharOrReplace_eq_ascii b t hc]
      constructor
      · rintro (h | ⟨b', hb', h⟩)
        · exact ⟨b, List.mem_cons_self .., h⟩
        · exact ⟨b', List.mem_cons_of_mem _ (List.mem_of_mem_drop hb'), h⟩
      · rintro ⟨b', hb', h⟩
        rcases List.mem_cons.mp hb' with rfl | hb'
        · exact .inl h
        · rw [← List.take_append_drop ((tryDecodeChar (b :: t)).2 - 1) t] at hb'
          rcases List.mem_append.mp hb' with hb' | hb'
          · have := tryDecodeChar_bytes hb'
            omega
          · exact .inr ⟨b', hb', h⟩

/-- A text of ASCII characters is the bytes of these characters. -/
theorem ascii_of_characters (h : ∀ c ∈ characters data, c < 0x80) :
    (∀ b ∈ data, b.toNat < 0x80) ∧ characters data = data.map (·.toNat) := by
  have hbytes : ∀ b ∈ data, b.toNat < 0x80 := by
    induction data with
    | nil => exact fun b hb => by cases hb
    | cons b t ih =>
      have hb : b.toNat < 0x80 := by
        by_contra hb
        have hfirst := h (decodeCharOrReplace (b :: t)).1 (by rw [characters_cons]; exact List.mem_cons_self ..)
        have := decodeCharOrReplace_sequence (b := b) (by omega) t
        omega
      rw [characters_cons_ascii hb] at h
      exact List.forall_mem_cons.mpr ⟨hb, ih fun c hc => h c (List.mem_cons_of_mem _ hc)⟩
  exact ⟨hbytes, (characters_ascii hbytes).2⟩

end Utf8

namespace U8String

theorem lengthByte_cases (buffer : List UInt8) (index delta : Nat) :
    lengthByte buffer index delta ≤ 1 ∨
    lengthByte buffer index delta = delta ∧ delta ≤ index ∧
      0x80 ≤ (buffer[index - delta]?.getD 0).toNat := by
  rw [lengthByte]
  split
  case isTrue => exact .inl (le_refl _)
  case isFalse hi =>
    simp only
    split_ifs with h₀ h₁ h₂ h₃ h₄
    · exact .inl (by decide)
    · exact .inl (by decide)
    all_goals
      first
      | exact .inl (le_refl _)
      | refine .inr ⟨by omega, by omega, ?_⟩
        by_contra hb
        exact h₁ (.inl (UInt8.lt_iff_toNat_lt.mpr (not_le.mp hb)))

theorem lengthByte_one (buffer : List UInt8) (h₀ : 0 < index) :
    (buffer[index - 1]?.getD 0).toNat < 0x80 → lengthByte buffer index 1 = 1 := by
  intro hb
  rw [lengthByte, if_neg (by omega)]
  simp only
  rw [if_neg (by rw [Utf8.continuation_iff]; omega), if_pos (.inl (UInt8.lt_iff_toNat_lt.mpr hb))]

/-- The character before a position is an ASCII byte, or it starts with another byte. -/
theorem fastRetreatChar_cases (buffer : List UInt8) (h₀ : 0 < position) (hl : position ≤ buffer.length) :
    ∃ size, fastRetreatChar buffer position = position - size ∧ 1 ≤ size ∧ size ≤ position ∧
      ((buffer[position - 1]?.getD 0).toNat < 0x80 → size = 1) ∧
      (0x80 ≤ (buffer[position - 1]?.getD 0).toNat →
        0x80 ≤ (buffer[position - size]?.getD 0).toNat) := by
  rw [fastRetreatChar, min_eq_left hl, if_neg (by omega)]
  by_cases hb : (buffer[position - 1]?.getD 0).toNat < 0x80
  · refine ⟨1, ?_, le_refl _, h₀, fun _ => rfl, fun h => h⟩
    rw [List.map_cons, lengthByte_one buffer h₀ hb]
    rfl
  · cases hf : ([1, 2, 3, 4].map (lengthByte buffer position)).find? (0 < ·) with
    | none => exact ⟨1, rfl, le_refl _, h₀, fun _ => rfl, fun h => h⟩
    | some result =>
      have hpos : 0 < result := by simpa using List.find?_some hf
      obtain ⟨delta, -, hdelta⟩ := List.mem_map.mp (List.mem_of_find?_eq_some hf)
      rcases lengthByte_cases buffer position delta with hone | ⟨he, hle, hbyte⟩
      · obtain rfl : result = 1 := by omega
        exact ⟨1, rfl, le_refl _, h₀, fun _ => rfl, fun h => h⟩
      · obtain rfl : delta = result := by omega
        exact ⟨delta, rfl, hpos, hle, fun h => absurd h hb, fun _ => hbyte⟩

/-- A predicate on characters that holds for some ASCII characters only. -/
def OnlyAscii (predicate : Nat → Bool) : Prop := ∀ c, predicate c = true → c < 0x80

theorem predicate_decode (hp : OnlyAscii predicate) (b : UInt8) (t : List UInt8) :
    predicate (Utf8.decodeCharOrReplace (b :: t)).1 = predicate b.toNat := by
  by_cases h : b.toNat < 0x80
  · rw [Utf8.decodeCharOrReplace_ascii h]
  · have hseq := Utf8.decodeCharOrReplace_sequence (b := b) (by omega) t
    have hfalse (c : Nat) (hc : 0x80 ≤ c) : predicate c = false := by
      rw [← Bool.not_eq_true]
      intro hpc
      have := hp c hpc
      omega
    rw [hfalse _ hseq, hfalse _ (by omega)]

theorem trimBegin_eq (hp : OnlyAscii predicate) (data : List UInt8) (fuel start : Nat)
    (hf : data.length ≤ start + fuel) :
    data.drop (trimBegin predicate data fuel start) =
      (data.drop start).dropWhile (predicate ·.toNat) ∧
    (start ≤ data.length → trimBegin predicate data fuel start ≤ data.length) := by
  induction fuel generalizing start with
  | zero =>
    rw [trimBegin, List.drop_of_length_le (by omega)]
    exact ⟨rfl, fun h => h⟩
  | succ fuel ih =>
    rw [trimBegin]
    split
    case isFalse h =>
      rw [List.drop_of_length_le (by omega)]
      exact ⟨rfl, fun h => h⟩
    case isTrue h =>
      rw [List.drop_eq_getElem_cons h, List.dropWhile_cons]
      simp only [predicate_decode hp]
      split
      case isFalse => exact ⟨List.drop_eq_getElem_cons h, fun h => h⟩
      case isTrue hc =>
        rw [Utf8.decodeCharOrReplace_ascii (hp _ hc)]
        obtain ⟨hd, hle⟩ := ih (start + 1) (by omega)
        exact ⟨hd, fun _ => hle (by omega)⟩

theorem trimEnd_eq (hp : OnlyAscii predicate) (data : List UInt8) (start fuel stop : Nat)
    (hf : stop ≤ start + fuel) (hs : start ≤ stop) (hl : stop ≤ data.length) :
    slice data start (trimEnd predicate data start fuel stop) =
      (slice data start stop).rdropWhile (predicate ·.toNat) := by
  induction fuel generalizing stop with
  | zero =>
    obtain rfl : stop = start := by omega
    rw [trimEnd, slice, List.drop_of_length_le (by simp)]
    rfl
  | succ fuel ih =>
    rw [trimEnd]
    split
    case isFalse h =>
      obtain rfl : stop = start := by omega
      rw [slice, List.drop_of_length_le (by simp)]
      rfl
    case isTrue h =>
      obtain ⟨size, hsize, h₁, hle, hone, hbyte⟩ := fastRetreatChar_cases data (by omega) hl
      have hlast : slice data start stop = slice data start (stop - 1) ++ [data[stop - 1]] := by
        rw [slice, slice, ← List.drop_append_of_le_length (by simp; omega)]
        congr 1
        obtain ⟨m, rfl⟩ : ∃ m, stop = m + 1 := ⟨stop - 1, by omega⟩
        rw [List.take_succ_eq_append_getElem (by omega)]
        rfl
      have hget : data[stop - 1]?.getD 0 = data[stop - 1] := by
        rw [List.getElem?_eq_getElem (by omega)]
        rfl
      have hstart : data.drop (stop - size) = data[stop - size] :: data.drop (stop - size + 1) :=
        List.drop_eq_getElem_cons (by omega)
      simp only [hsize, hstart, predicate_decode hp]
      rw [hlast, List.rdropWhile_concat]
      rw [hget] at hone hbyte
      by_cases hb : (data[stop - 1]).toNat < 0x80
      · obtain rfl := hone hb
        split
        case isTrue => exact ih _ (by omega) (by omega) (by omega)
        case isFalse => exact hlast
      · have hfalse (c : UInt8) (hc : 0x80 ≤ c.toNat) : ¬ predicate c.toNat = true := fun hpc => by
          have := hp _ hpc
          omega
        have hb' := hbyte (by omega)
        rw [List.getElem?_eq_getElem (by omega), Option.getD_some] at hb'
        rw [if_neg (hfalse _ hb'), if_neg (hfalse _ (by omega))]
        exact hlast

/-- Trimming by ASCII characters is trimming of bytes. -/
theorem trimmed_eq (hp : OnlyAscii predicate) (text : List UInt8) :
    trimmed predicate text =
      (text.dropWhile (predicate ·.toNat)).rdropWhile (predicate ·.toNat) := by
  obtain ⟨hdrop, hle⟩ := trimBegin_eq hp text text.length 0 (by omega)
  rw [trimmed, trimEnd_eq hp text _ _ _ (by omega) (hle (Nat.zero_le _)) (le_refl _), slice,
    List.take_length, hdrop, List.drop_zero]

theorem startsWith_eq (text : List UInt8) (hc : c < 0x80) :
    startsWith text c = true ↔ text.head?.map (·.toNat) = some c := by
  cases text with
  | nil => simp [startsWith, charAt]
  | cons b t =>
    rw [startsWith, charAt, if_pos (by simp), List.drop_zero, decide_eq_true_eq, Option.some_inj,
      Utf8.decodeCharOrReplace_eq_ascii b t hc]
    simp

theorem endsWith_eq (text : List UInt8) (hc : c < 0x80) :
    endsWith text c = true ↔ text.getLast?.map (·.toNat) = some c := by
  rcases Nat.eq_zero_or_pos text.length with h | h
  · rw [List.eq_nil_of_length_eq_zero h]
    simp [endsWith, charAt]
  · obtain ⟨size, hsize, h₁, hle, hone, hbyte⟩ := fastRetreatChar_cases text h (le_refl _)
    have hlast : text.getLast? = some text[text.length - 1] := by
      rw [List.getLast?_eq_getElem?, List.getElem?_eq_getElem (by omega)]
    have hget : text[text.length - 1]?.getD 0 = text[text.length - 1] := by
      rw [List.getElem?_eq_getElem (by omega), Option.getD_some]
    have hstart : text.drop (text.length - size) =
        text[text.length - size] :: text.drop (text.length - size + 1) :=
      List.drop_eq_getElem_cons (by omega)
    rw [endsWith, charAt, hsize, if_pos (by omega), hstart, decide_eq_true_eq, Option.some_inj,
      Utf8.decodeCharOrReplace_eq_ascii _ _ hc, hlast, Option.map_some, Option.some_inj]
    rw [hget] at hone hbyte
    by_cases hb : (text[text.length - 1]).toNat < 0x80
    · obtain rfl := hone hb
      exact Iff.rfl
    · have hb' := hbyte (by omega)
      rw [List.getElem?_eq_getElem (by omega), Option.getD_some] at hb'
      omega

/-- A text is what remains of it after trimming, with the trimmed characters around. -/
theorem trimmed_split (hp : OnlyAscii predicate) (text : List UInt8) :
    ∃ before after, text = before ++ trimmed predicate text ++ after ∧
      ∀ b ∈ before ++ after, predicate b.toNat = true := by
  rw [trimmed_eq hp, List.rdropWhile]
  generalize hrest : text.dropWhile (predicate ·.toNat) = rest
  refine ⟨text.takeWhile (predicate ·.toNat), (rest.reverse.takeWhile (predicate ·.toNat)).reverse,
    ?_, fun b hb => ?_⟩
  · rw [List.append_assoc, ← List.reverse_append, List.takeWhile_append_dropWhile, List.reverse_reverse,
      ← hrest, List.takeWhile_append_dropWhile]
  · rcases List.mem_append.mp hb with hb | hb
    · exact List.mem_takeWhile_imp (p := fun b : UInt8 => predicate b.toNat) hb
    · exact List.mem_takeWhile_imp (p := fun b : UInt8 => predicate b.toNat) (List.mem_reverse.mp hb)

theorem findFirstOf_some (h : findFirstOf text character start = some index) :
    start ≤ index ∧ text[index]? = some character ∧ character ∉ slice text start index := by
  rw [findFirstOf, Option.map_eq_some_iff] at h
  obtain ⟨offset, hoffset, rfl⟩ := h
  obtain ⟨hlt, hget, hbefore⟩ := List.findIdx?_eq_some_iff_getElem.mp hoffset
  refine ⟨Nat.le_add_right _ _, ?_, fun hmem => ?_⟩
  · rw [← List.getElem?_drop, List.getElem?_eq_getElem hlt]
    exact congrArg some (of_decide_eq_true hget)
  · rw [slice, List.drop_take, Nat.add_sub_cancel_left] at hmem
    obtain ⟨i, hi, hchar⟩ := List.getElem_of_mem hmem
    rw [List.getElem_take] at hchar
    have hi' : i < offset := by
      rw [List.length_take] at hi
      omega
    exact absurd (decide_eq_true hchar) (hbefore i hi')

theorem findFirstOf_append (skipped : List UInt8) {before : List UInt8} (h : character ∉ before)
    (after : List UInt8) :
    findFirstOf (skipped ++ before ++ character :: after) character skipped.length =
      some (skipped.length + before.length) := by
  rw [findFirstOf, List.append_assoc, List.drop_left, Option.map_eq_some_iff]
  refine ⟨before.length, List.findIdx?_eq_some_iff_getElem.mpr ⟨by simp, by simp, fun i hi => ?_⟩, rfl⟩
  rw [List.getElem_append_left hi]
  simp only [decide_eq_true_eq]
  exact fun hc => h (hc ▸ List.getElem_mem hi)

theorem findFirstOf_none (skipped : List UInt8) {text : List UInt8} (h : character ∉ text) :
    findFirstOf (skipped ++ text) character skipped.length = none := by
  rw [findFirstOf, List.drop_left, Option.map_eq_none_iff, List.findIdx?_eq_none_iff]
  intro b hb
  exact decide_eq_false fun hc => h (hc ▸ hb)

end U8String
end ErbslandCore.Text
