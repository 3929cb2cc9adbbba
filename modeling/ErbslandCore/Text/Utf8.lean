import ErbslandCore.Library.Utf8

namespace ErbslandCore.Text
open Library
set_option autoImplicit true

/-- The code point that stands for malformed data. -/
def replacement : Nat := 0xFFFD

/-- The byte order mark is reserved for the boundaries of encoded data. -/
def isValidUnicode (codePoint : Nat) : Bool :=
  codePoint ≤ 0x10FFFF && codePoint ≠ 0xFEFF && (codePoint < 0xD800 || codePoint > 0xDFFF)

namespace Utf8

/-- The length and the bits of a sequence, from its first byte. -/
def startOfSequence (decodedByte : UInt8) : Option (Nat × Nat) :=
  if decodedByte &&& 0b11100000 = 0b11000000 ∧ decodedByte ≥ 0b11000010 then
    some (2, (decodedByte &&& 0b00011111).toNat)
  else if decodedByte &&& 0b11110000 = 0b11100000 then
    some (3, (decodedByte &&& 0b00001111).toNat)
  else if decodedByte &&& 0b11111000 = 0b11110000 ∧ decodedByte < 0b11110101 then
    some (4, (decodedByte &&& 0b00000111).toNat)
  else none

/-- The bits of `count` continuation bytes, after those read before. -/
def decodeCont : Nat → Nat → List UInt8 → Option Nat
  | 0, unicodeValue, _ => some unicodeValue
  | _ + 1, _, [] => none
  | count + 1, unicodeValue, decodedByte :: buffer =>
    if decodedByte &&& 0b11000000 = 0b10000000 then
      decodeCont count (unicodeValue <<< 6 ||| (decodedByte &&& 0b00111111).toNat) buffer
    else none

/-- The next code point, if it is valid, and the number of bytes to advance. -/
def tryDecodeChar : List UInt8 → Option Nat × Nat
  | [] => (none, 0)
  | decodedByte :: buffer =>
    if decodedByte < 0x80 then (some decodedByte.toNat, 1)
    else match startOfSequence decodedByte with
      | none => (none, 1)
      | some (sequenceSize, bits) => match decodeCont (sequenceSize - 1) bits buffer with
        | none => (none, 1)
        | some unicodeValue =>
          if sequenceSize = 3 ∧ unicodeValue < 0x800 ∨
            sequenceSize = 4 ∧ unicodeValue < 0x10000 then (none, 1)
          else if isValidUnicode unicodeValue then (some unicodeValue, sequenceSize)
          else (none, sequenceSize)

/-- The results of all decoding steps, after some bytes that belong to the step before. -/
def decodeFrom : Nat → List UInt8 → List (Option Nat)
  | _, [] => []
  | skip + 1, _ :: data => decodeFrom skip data
  | 0, byte :: data =>
    (tryDecodeChar (byte :: data)).1 :: decodeFrom ((tryDecodeChar (byte :: data)).2 - 1) data

def isValid (data : List UInt8) : Bool := (decodeFrom 0 data).all Option.isSome

/-- The characters of a text, with a replacement for malformed data. -/
def characters (data : List UInt8) : List Nat := (decodeFrom 0 data).map (·.getD replacement)

/-- The characters of a text, encoded again. -/
def toStdString (data : List UInt8) : List UInt8 := Library.Utf8.encodeAll (characters data)

end Utf8

/-- The order of texts is the order of their characters. -/
def compare (left right : List UInt8) : Ordering :=
  if Utf8.characters left < Utf8.characters right then .lt
  else if Utf8.characters left = Utf8.characters right then .eq
  else .gt

namespace Utf8

/-- The masks of the first byte, as ranges. -/
theorem startOfSequence_eq (b : UInt8) : startOfSequence b =
    if 0xC2 ≤ b.toNat ∧ b.toNat < 0xE0 then some (2, b.toNat - 0xC0)
    else if 0xE0 ≤ b.toNat ∧ b.toNat < 0xF0 then some (3, b.toNat - 0xE0)
    else if 0xF0 ≤ b.toNat ∧ b.toNat < 0xF5 then some (4, b.toNat - 0xF0)
    else none := by
  have all : ∀ n < 256, startOfSequence (UInt8.ofNat n) =
      if 0xC2 ≤ n ∧ n < 0xE0 then some (2, n - 0xC0)
      else if 0xE0 ≤ n ∧ n < 0xF0 then some (3, n - 0xE0)
      else if 0xF0 ≤ n ∧ n < 0xF5 then some (4, n - 0xF0)
      else none := by decide +kernel
  have hb := all b.toNat b.toNat_lt
  rwa [UInt8.ofNat_toNat] at hb

theorem continuation_iff (b : UInt8) :
    b &&& 0b11000000 = 0b10000000 ↔ 0x80 ≤ b.toNat ∧ b.toNat < 0xC0 := by
  have all : ∀ n < 256, UInt8.ofNat n &&& 0b11000000 = 0b10000000 ↔ 0x80 ≤ n ∧ n < 0xC0 := by
    decide +kernel
  have hb := all b.toNat b.toNat_lt
  rwa [UInt8.ofNat_toNat] at hb

theorem six_bits (v : Nat) (b : UInt8) :
    v <<< 6 ||| (b &&& 0b00111111).toNat = v * 64 + b.toNat % 64 := by
  rw [UInt8.toNat_and, show (0b00111111 : UInt8).toNat = 2 ^ 6 - 1 from rfl, Nat.and_two_pow_sub_one_eq_mod,
    ← Nat.shiftLeft_add_eq_or_of_lt (Nat.mod_lt _ (by decide)), Nat.shiftLeft_eq]

theorem decodeCont_cons (count v : Nat) (b : UInt8) (t : List UInt8) :
    decodeCont (count + 1) v (b :: t) =
      if 0x80 ≤ b.toNat ∧ b.toNat < 0xC0 then decodeCont count (v * 64 + b.toNat % 64) t
      else none := by
  rw [decodeCont, six_bits]
  simp only [continuation_iff]

theorem isValidUnicode_iff (c : Nat) : isValidUnicode c = true ↔
    c ≤ 0x10FFFF ∧ c ≠ 0xFEFF ∧ (c < 0xD800 ∨ 0xDFFF < c) := by
  simp [isValidUnicode, and_assoc]

theorem tryDecodeChar_ascii {b : UInt8} (h : b.toNat < 0x80) (t : List UInt8) :
    tryDecodeChar (b :: t) = (some b.toNat, 1) := by
  rw [tryDecodeChar, if_pos (UInt8.lt_iff_toNat_lt.mpr h)]

theorem tryDecodeChar_sequence {b : UInt8} (h : 0x80 ≤ b.toNat) (t : List UInt8) :
    tryDecodeChar (b :: t) = match startOfSequence b with
      | none => (none, 1)
      | some (sequenceSize, bits) => match decodeCont (sequenceSize - 1) bits t with
        | none => (none, 1)
        | some c => if sequenceSize = 3 ∧ c < 0x800 ∨ sequenceSize = 4 ∧ c < 0x10000 then (none, 1)
          else if isValidUnicode c then (some c, sequenceSize) else (none, sequenceSize) := by
  rw [tryDecodeChar, if_neg fun hlt => by
    have := UInt8.lt_iff_toNat_lt.mp hlt
    change b.toNat < 0x80 at this
    omega]

/-- Decoding restores a valid code point from its sequence. -/
theorem tryDecodeChar_encode (h : isValidUnicode c = true) (t : List UInt8) :
    tryDecodeChar (Utf8.encode c ++ t) = (some c, (Utf8.encode c).length) := by
  have hv := (isValidUnicode_iff c).mp h
  rcases Utf8.encode_cases hv.1 with ⟨hc, a, ha, h₁⟩ | ⟨hl, hc, a, b, ha, h₁, h₂⟩ |
      ⟨hl, hc, a, b, d, ha, h₁, h₂, h₃⟩ | ⟨hl, a, b, d, e, ha, h₁, h₂, h₃, h₄⟩ <;> rw [ha]
  · rw [List.cons_append, tryDecodeChar_ascii (by omega), h₁]
    rfl
  · rw [List.cons_append, tryDecodeChar_sequence (by omega), startOfSequence_eq,
      if_pos ⟨by omega, by omega⟩]
    simp only [List.cons_append, List.nil_append, Nat.add_one_sub_one, decodeCont_cons]
    rw [if_pos ⟨by omega, by omega⟩, decodeCont]
    simp only [show (a.toNat - 0xC0) * 64 + b.toNat % 64 = c by omega]
    rw [if_neg (by omega), if_pos h]
    rfl
  · rw [List.cons_append, tryDecodeChar_sequence (by omega), startOfSequence_eq,
      if_neg (by omega), if_pos ⟨by omega, by omega⟩]
    simp only [List.cons_append, List.nil_append, Nat.reduceSub, decodeCont_cons]
    rw [if_pos ⟨by omega, by omega⟩, if_pos ⟨by omega, by omega⟩, decodeCont]
    simp only [show ((a.toNat - 0xE0) * 64 + b.toNat % 64) * 64 + d.toNat % 64 = c by omega]
    rw [if_neg (by omega), if_pos h]
    rfl
  · rw [List.cons_append, tryDecodeChar_sequence (by omega), startOfSequence_eq,
      if_neg (by omega), if_neg (by omega), if_pos ⟨by omega, by omega⟩]
    simp only [List.cons_append, List.nil_append, Nat.reduceSub, decodeCont_cons]
    rw [if_pos ⟨by omega, by omega⟩, if_pos ⟨by omega, by omega⟩, if_pos ⟨by omega, by omega⟩,
      decodeCont]
    simp only [show (((a.toNat - 0xF0) * 64 + b.toNat % 64) * 64 + d.toNat % 64) * 64 +
      e.toNat % 64 = c by omega]
    rw [if_neg (by omega), if_pos h]
    rfl

theorem decodeCont_some (h : decodeCont (count + 1) v t = some c) :
    ∃ b t', t = b :: t' ∧ 0x80 ≤ b.toNat ∧ b.toNat < 0xC0 ∧
      decodeCont count (v * 64 + b.toNat % 64) t' = some c := by
  cases t with
  | nil => cases h
  | cons b t' =>
    rw [decodeCont_cons] at h
    split at h
    case isTrue hb => exact ⟨b, t', rfl, hb.1, hb.2, h⟩
    case isFalse => cases h

/-- A decoded code point is valid, and its sequence is the one that was read. -/
theorem tryDecodeChar_sound (h : tryDecodeChar (b :: t) = (some c, n)) :
    isValidUnicode c = true ∧ n = (Utf8.encode c).length ∧
      b :: t = Utf8.encode c ++ (b :: t).drop n := by
  by_cases hb : b.toNat < 0x80
  · rw [tryDecodeChar_ascii hb] at h
    obtain ⟨rfl, rfl⟩ : b.toNat = c ∧ 1 = n := by simpa using h
    have he : Utf8.encode b.toNat = [b] := by
      rw [Utf8.encode, if_pos (by omega), UInt8.ofNat_toNat]
    rw [he]
    exact ⟨(isValidUnicode_iff _).mpr (by omega), rfl, rfl⟩
  · rw [tryDecodeChar_sequence (by omega), startOfSequence_eq] at h
    have valid {v size : Nat}
        (hv : (if isValidUnicode v then (some v, size) else (none, size)) = (some c, n)) :
        isValidUnicode v = true ∧ v = c ∧ size = n := by
      split at hv
      case isTrue hc =>
        obtain ⟨rfl, rfl⟩ : v = c ∧ size = n := by simpa using hv
        exact ⟨hc, rfl, rfl⟩
      case isFalse => simp at hv
    split_ifs at h with h₂ h₃ h₄
    · cases hd : decodeCont 1 (b.toNat - 0xC0) t with
      | none => simp [hd] at h
      | some v =>
        simp only [Nat.add_one_sub_one, hd] at h
        rw [if_neg (by omega)] at h
        obtain ⟨hv, rfl, rfl⟩ := valid h
        obtain ⟨b₁, t₁, rfl, hl₁, hu₁, hd⟩ := decodeCont_some hd
        obtain rfl := Option.some.inj hd
        obtain ⟨_, _⟩ | ⟨_, _, x, y, he, hx, hy⟩ | ⟨_, _⟩ | ⟨_, _⟩ :=
          Utf8.encode_cases ((isValidUnicode_iff _).mp hv).1
        case inr.inl =>
          obtain rfl : x = b := UInt8.toNat_inj.mp (by omega)
          obtain rfl : y = b₁ := UInt8.toNat_inj.mp (by omega)
          exact ⟨hv, by rw [he]; rfl, by rw [he]; rfl⟩
        all_goals omega
    · cases hd : decodeCont 2 (b.toNat - 0xE0) t with
      | none => simp [hd] at h
      | some v =>
        simp only [Nat.reduceSub, hd] at h
        split at h
        case isTrue => simp at h
        case isFalse hlong =>
          have hmin : 0x800 ≤ v := not_lt.mp fun hlt => hlong (.inl ⟨trivial, hlt⟩)
          obtain ⟨hv, rfl, rfl⟩ := valid h
          obtain ⟨b₁, t₁, rfl, hl₁, hu₁, hd⟩ := decodeCont_some hd
          obtain ⟨b₂, t₂, rfl, hl₂, hu₂, hd⟩ := decodeCont_some hd
          obtain rfl := Option.some.inj hd
          obtain ⟨_, _⟩ | ⟨_, _⟩ | ⟨_, _, x, y, z, he, hx, hy, hz⟩ | ⟨_, _⟩ :=
            Utf8.encode_cases ((isValidUnicode_iff _).mp hv).1
          case inr.inr.inl =>
            obtain rfl : x = b := UInt8.toNat_inj.mp (by omega)
            obtain rfl : y = b₁ := UInt8.toNat_inj.mp (by omega)
            obtain rfl : z = b₂ := UInt8.toNat_inj.mp (by omega)
            exact ⟨hv, by rw [he]; rfl, by rw [he]; rfl⟩
          all_goals omega
    · cases hd : decodeCont 3 (b.toNat - 0xF0) t with
      | none => simp [hd] at h
      | some v =>
        simp only [Nat.reduceSub, hd] at h
        split at h
        case isTrue => simp at h
        case isFalse hlong =>
          have hmin : 0x10000 ≤ v := not_lt.mp fun hlt => hlong (.inr ⟨trivial, hlt⟩)
          obtain ⟨hv, rfl, rfl⟩ := valid h
          obtain ⟨b₁, t₁, rfl, hl₁, hu₁, hd⟩ := decodeCont_some hd
          obtain ⟨b₂, t₂, rfl, hl₂, hu₂, hd⟩ := decodeCont_some hd
          obtain ⟨b₃, t₃, rfl, hl₃, hu₃, hd⟩ := decodeCont_some hd
          obtain rfl := Option.some.inj hd
          obtain ⟨_, _⟩ | ⟨_, _⟩ | ⟨_, _⟩ | ⟨_, x, y, z, w, he, hx, hy, hz, hw⟩ :=
            Utf8.encode_cases ((isValidUnicode_iff _).mp hv).1
          case inr.inr.inr =>
            obtain rfl : x = b := UInt8.toNat_inj.mp (by omega)
            obtain rfl : y = b₁ := UInt8.toNat_inj.mp (by omega)
            obtain rfl : z = b₂ := UInt8.toNat_inj.mp (by omega)
            obtain rfl : w = b₃ := UInt8.toNat_inj.mp (by omega)
            exact ⟨hv, by rw [he]; rfl, by rw [he]; rfl⟩
          all_goals omega
    · simp at h

theorem decodeFrom_drop (k : Nat) (data : List UInt8) :
    decodeFrom k data = decodeFrom 0 (data.drop k) := by
  induction data generalizing k with
  | nil => cases k <;> rfl
  | cons b t ih =>
    cases k with
    | zero => rfl
    | succ k => rw [decodeFrom, ih, List.drop_succ_cons]

theorem decodeFrom_cons (b : UInt8) (t : List UInt8) : decodeFrom 0 (b :: t) =
    (tryDecodeChar (b :: t)).1 :: decodeFrom 0 (t.drop ((tryDecodeChar (b :: t)).2 - 1)) := by
  rw [decodeFrom, decodeFrom_drop]

theorem decodeFrom_encodeAll (h : ∀ c ∈ cs, isValidUnicode c = true) :
    decodeFrom 0 (Utf8.encodeAll cs) = cs.map some := by
  induction cs with
  | nil => rfl
  | cons c cs ih =>
    have hd := tryDecodeChar_encode (h c (List.mem_cons_self ..)) (Utf8.encodeAll cs)
    obtain ⟨b, t, ht⟩ := List.exists_cons_of_ne_nil (Utf8.encode_ne_nil c)
    rw [Utf8.encodeAll_cons, ht, List.cons_append, decodeFrom_cons]
    rw [ht, List.cons_append] at hd
    rw [hd, List.length_cons, Nat.add_one_sub_one, List.drop_left,
      ih fun c hc => h c (List.mem_cons_of_mem _ hc), List.map_cons]

/-- The valid texts are the sequences of valid code points. -/
theorem isValid_iff (data : List UInt8) : isValid data = true ↔
    ∃ cs, (∀ c ∈ cs, isValidUnicode c = true) ∧ data = Utf8.encodeAll cs := by
  constructor
  · intro h
    induction hn : data.length using Nat.strong_induction_on generalizing data with
    | _ n ih =>
      cases data with
      | nil => exact ⟨[], by simp, rfl⟩
      | cons b t =>
        rw [isValid, decodeFrom_cons, List.all_cons, Bool.and_eq_true] at h
        obtain ⟨hc, hrest⟩ := h
        obtain ⟨c, hc⟩ := Option.isSome_iff_exists.mp hc
        obtain ⟨hv, hlen, he⟩ := tryDecodeChar_sound (Prod.ext hc rfl :
          tryDecodeChar (b :: t) = (some c, (tryDecodeChar (b :: t)).2))
        obtain ⟨m, hm⟩ : ∃ m, (tryDecodeChar (b :: t)).2 = m + 1 := by
          have := List.length_pos_iff.mpr (Utf8.encode_ne_nil c)
          exact ⟨(tryDecodeChar (b :: t)).2 - 1, by omega⟩
        rw [hm, Nat.add_sub_cancel] at hrest
        rw [hm, List.drop_succ_cons] at he
        obtain ⟨cs, hcs, hd⟩ := ih (t.drop m).length (by simp at hn ⊢; omega) _ hrest rfl
        refine ⟨c :: cs, ?_, by rw [he, hd]; rfl⟩
        intro x hx
        rcases List.mem_cons.mp hx with rfl | hx
        · exact hv
        · exact hcs x hx
  · rintro ⟨cs, hcs, rfl⟩
    rw [isValid, decodeFrom_encodeAll hcs]
    simp

theorem characters_encodeAll (h : ∀ c ∈ cs, isValidUnicode c = true) :
    characters (Utf8.encodeAll cs) = cs := by
  rw [characters, decodeFrom_encodeAll h, List.map_map]
  exact List.map_id _

theorem decodeFrom_valid (h : some c ∈ decodeFrom k data) : isValidUnicode c = true := by
  induction data generalizing k with
  | nil => cases k <;> cases h
  | cons b t ih =>
    cases k with
    | zero =>
      rw [decodeFrom] at h
      rcases List.mem_cons.mp h with hc | h
      · exact (tryDecodeChar_sound (Prod.ext hc.symm rfl :
          tryDecodeChar (b :: t) = (some c, (tryDecodeChar (b :: t)).2))).1
      · exact ih h
    | succ k => exact ih h

theorem characters_valid (h : c ∈ characters data) : isValidUnicode c = true := by
  obtain ⟨r, hr, rfl⟩ := List.mem_map.mp h
  cases r with
  | none => rfl
  | some c => exact decodeFrom_valid hr

theorem characters_toStdString (data : List UInt8) :
    characters (toStdString data) = characters data :=
  characters_encodeAll fun _ => characters_valid

theorem toStdString_of_valid (h : isValid data = true) : toStdString data = data := by
  obtain ⟨cs, hcs, rfl⟩ := (isValid_iff data).mp h
  rw [toStdString, characters_encodeAll hcs]

/-- Bytes below 0x80 are characters. -/
theorem characters_ascii (h : ∀ b ∈ data, b.toNat < 0x80) :
    isValid data = true ∧ characters data = data.map (·.toNat) := by
  have hvalid : ∀ c ∈ data.map (·.toNat), isValidUnicode c = true := by
    intro c hc
    obtain ⟨b, hb, rfl⟩ := List.mem_map.mp hc
    have := h b hb
    exact (isValidUnicode_iff _).mpr (by omega)
  have he : data = Library.Utf8.encodeAll (data.map (·.toNat)) := by
    clear hvalid
    induction data with
    | nil => rfl
    | cons b data ih =>
      obtain ⟨hb, h⟩ := List.forall_mem_cons.mp h
      have hone : Library.Utf8.encode b.toNat = [b] := by
        rw [Library.Utf8.encode, if_pos (by omega), UInt8.ofNat_toNat]
      show b :: data = Library.Utf8.encode b.toNat ++ Library.Utf8.encodeAll (data.map (·.toNat))
      rw [hone, ← ih h]
      rfl
  refine ⟨(isValid_iff data).mpr ⟨_, hvalid, he⟩, ?_⟩
  have hc := characters_encodeAll hvalid
  rwa [← he] at hc

theorem isValid_of_replacement (h : replacement ∉ characters data) : isValid data = true := by
  rw [isValid, List.all_eq_true]
  intro r hr
  cases r with
  | some c => rfl
  | none => exact absurd (List.mem_map.mpr ⟨none, hr, rfl⟩) h

end Utf8

theorem compare_lt_iff (left right : List UInt8) :
    compare left right = .lt ↔ Utf8.characters left < Utf8.characters right := by
  unfold compare
  split_ifs with h₁ h₂ <;> simp [h₁]

theorem compare_eq_iff (left right : List UInt8) :
    compare left right = .eq ↔ Utf8.characters left = Utf8.characters right := by
  unfold compare
  split_ifs with h₁ h₂
  · simpa using ne_of_lt h₁
  · simpa using h₂
  · simpa using h₂

theorem compare_gt_iff (left right : List UInt8) :
    compare left right = .gt ↔ Utf8.characters right < Utf8.characters left := by
  unfold compare
  split_ifs with h₁ h₂
  · simpa using le_of_lt h₁
  · simp [h₂]
  · simpa using lt_of_le_of_ne (not_lt.mp h₁) (Ne.symm h₂)

/-- Valid texts are ordered like their bytes. -/
theorem compare_lt_iff_bytes (hl : Utf8.isValid left = true) (hr : Utf8.isValid right = true) :
    compare left right = .lt ↔ left < right := by
  obtain ⟨cs, hcs, rfl⟩ := (Utf8.isValid_iff _).mp hl
  obtain ⟨ds, hds, rfl⟩ := (Utf8.isValid_iff _).mp hr
  rw [compare_lt_iff, Utf8.characters_encodeAll hcs, Utf8.characters_encodeAll hds]
  exact (Library.Utf8.encodeAll_lt_iff
    (fun c hc => ((Utf8.isValidUnicode_iff c).mp (hcs c hc)).1)
    (fun d hd => ((Utf8.isValidUnicode_iff d).mp (hds d hd)).1)).symm

/-- Equivalent valid texts are equal. -/
theorem eq_of_compare_eq (hl : Utf8.isValid left = true) (hr : Utf8.isValid right = true)
    (h : compare left right = .eq) : left = right := by
  have not_lt {a b : List UInt8} (ha : Utf8.isValid a = true) (hb : Utf8.isValid b = true)
      (he : Utf8.characters a = Utf8.characters b) : ¬ a < b := by
    rw [← compare_lt_iff_bytes ha hb, compare_lt_iff, he]
    exact lt_irrefl _
  have he := (compare_eq_iff _ _).mp h
  exact List.le_antisymm (List.not_lt.mp (not_lt hr hl he.symm)) (List.not_lt.mp (not_lt hl hr he))

/-- A text that is equivalent to one of ASCII characters is that text. -/
theorem eq_of_compare_ascii (h : compare text ascii = .eq) (ha : ∀ b ∈ ascii, b.toNat < 0x80) :
    text = ascii := by
  obtain ⟨hv, hc⟩ := Utf8.characters_ascii ha
  refine eq_of_compare_eq (Utf8.isValid_of_replacement fun hr => ?_) hv h
  rw [(compare_eq_iff _ _).mp h, hc] at hr
  obtain ⟨b, hb, he⟩ := List.mem_map.mp hr
  have := ha b hb
  rw [he] at this
  exact absurd this (by decide)

end ErbslandCore.Text
