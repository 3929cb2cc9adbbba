import ErbslandCore.Text.CharSetDifference
import ErbslandCore.Text.CharSetInsertion

namespace ErbslandCore.Text.CharSet
open Library Library.RangeSets Library.Utf8 CharRange CharSetRangeBuilder
set_option autoImplicit true

variable {set other : CharSet} {left right ranges : List CharRange}

theorem contains_range_iff {r : CharRange} (hr : CharRange.Valid r) (c : Nat) :
    CharRange.contains r c = true ↔ c ∈ points r ∧ c ≠ 0xFEFF := by
  have hvalid := isValidUnicode_iff_scalar c
  simp only [CharRange.contains, hr.isEmpty, Bool.not_false, Bool.true_and, Bool.and_eq_true,
    decide_eq_true_eq, mem_points]
  grind

theorem any_contains_iff (h : Normalized ranges) (c : Nat) :
    (ranges.any fun range => CharRange.contains range c) = true ↔
      c ∈ scalars ranges ∧ c ≠ 0xFEFF := by
  rw [List.any_eq_true]
  constructor
  · rintro ⟨r, hr, hcontains⟩
    obtain ⟨hmem, hne⟩ := (contains_range_iff (h.valid r hr) c).mp hcontains
    exact ⟨⟨hmem.1, r, hr, hmem.2⟩, hne⟩
  · rintro ⟨⟨hc, r, hr, hin⟩, hne⟩
    exact ⟨r, hr, (contains_range_iff (h.valid r hr) c).mpr ⟨⟨hc, hin⟩, hne⟩⟩

/-- A character is in the last range that does not begin after it, or in none. -/
theorem last_contains_iff (h : Normalized ranges) (c : Nat) :
    c ∈ scalars ranges ↔ ∃ r, (ranges.takeWhile fun range => decide (range.low ≤ c)).getLast? =
      some r ∧ c ∈ points r := by
  have happend := List.takeWhile_append_dropWhile (l := ranges)
    (p := fun range => decide (range.low ≤ c))
  have hafter : ∀ r ∈ ranges.dropWhile fun range => decide (range.low ≤ c), c < r.low := by
    have hle := low_le_of_mem_dropWhile h (c + 1)
    simpa only [Nat.lt_succ_iff, Nat.succ_le_iff] using hle
  have hbefore : ∀ r ∈ ranges.takeWhile fun range => decide (range.low ≤ c), r.low ≤ c :=
    fun r hmem => by simpa using List.mem_takeWhile_imp hmem
  generalize ranges.takeWhile (fun range => decide (range.low ≤ c)) = before at *
  generalize ranges.dropWhile (fun range => decide (range.low ≤ c)) = after at *
  subst happend
  constructor
  · rintro ⟨hc, r, hmem, hin⟩
    rcases List.mem_append.mp hmem with hmem | hmem
    · rcases List.eq_nil_or_concat before with rfl | ⟨before, a, rfl⟩
      · exact absurd hmem List.not_mem_nil
      · rw [List.concat_eq_append] at *
        have hlow : a.low ≤ c := hbefore a (List.mem_append_right _ (List.mem_singleton_self a))
        refine ⟨a, List.getLast?_concat, hc, hlow, ?_⟩
        rcases List.mem_append.mp hmem with hmem | hmem
        · obtain ⟨x, -, hrx, hxa⟩ := (List.pairwise_append.mp h.of_append_left.separated).2.2 r hmem a
            (List.mem_singleton_self a)
          exact absurd hin.2 (Nat.not_le.mpr ((hrx.trans hxa).trans_le hlow))
        · exact List.mem_singleton.mp hmem ▸ hin.2
    · exact absurd hin.1 (Nat.not_le.mpr (hafter r hmem))
  · rintro ⟨r, hlast, hc, hin⟩
    exact ⟨hc, r, List.mem_append_left _ (List.mem_of_getLast? hlast), hin⟩

theorem contains_iff (hs : Sound set) (c : Nat) :
    set.contains c = true ↔ c ∈ scalars set.rangeSpan ∧ c ≠ 0xFEFF := by
  rw [contains]
  by_cases hvalid : isValidUnicode c = true
  · rw [if_neg (not_not.mpr hvalid)]
    simp only
    split
    · exact any_contains_iff hs.normalized c
    · have hlast := last_contains_iff hs.normalized c
      have hne := ((isValidUnicode_iff_scalar c).mp hvalid).2
      split
      case h_1 hnone =>
        rw [hlast, hnone]
        simp
      case h_2 r hsome =>
        have hmem := List.mem_of_getLast? hsome
        have hr := hs.normalized.valid r ((List.takeWhile_sublist _).mem hmem)
        rw [contains_range_iff hr c, hlast, hsome]
        simp
  · rw [if_pos hvalid]
    refine ⟨fun h => absurd h Bool.false_ne_true, fun ⟨hmem, hne⟩ => ?_⟩
    exact absurd ((isValidUnicode_iff_scalar c).mpr ⟨hmem.1, hne⟩) hvalid

theorem isSubsetOfRanges_iff (hl : Normalized left) (hr : Normalized right) :
    isSubsetOfRanges left right = true ↔
      ∀ l ∈ left, ∃ r ∈ right, r.low ≤ l.low ∧ l.high ≤ r.high := by
  induction left generalizing right with
  | nil => exact ⟨fun _ l hmem => absurd hmem List.not_mem_nil, fun _ => rfl⟩
  | cons l left ih =>
    obtain ⟨hnormal, hmem, -⟩ := dropWhile_before hr l.low
    have hends := hl.head.le
    -- A range that ends before `l` contains neither `l` nor what comes after it.
    have hkept : ∀ r ∈ right, l.low ≤ r.high →
        r ∈ right.dropWhile fun r => decide (r.high < l.low) := by
      intro r hmem hle
      rw [← List.takeWhile_append_dropWhile (l := right) (p := fun r => decide (r.high < l.low))]
        at hmem
      rcases List.mem_append.mp hmem with hmem | hmem
      · have hlt : r.high < l.low := by simpa using List.mem_takeWhile_imp hmem
        exact absurd hle (Nat.not_le.mpr hlt)
      · exact hmem
    have hrest (t : CharRange) (ht : t ∈ left) :
        (∃ r ∈ right, r.low ≤ t.low ∧ t.high ≤ r.high) ↔
          ∃ r ∈ right.dropWhile (fun r => decide (r.high < l.low)),
            r.low ≤ t.low ∧ t.high ≤ r.high := by
      have hproper := (hl.tail.valid t ht).proper
      have hgap := hl.high_lt ⟨hproper.low, t, ht, le_refl _, hproper.le⟩
      have horder := hproper.le
      constructor
      · rintro ⟨r, hr, hlow, hhigh⟩
        exact ⟨r, hkept r hr (by omega), hlow, hhigh⟩
      · rintro ⟨r, hr, hin⟩
        exact ⟨r, (hmem r hr).1, hin⟩
    rw [isSubsetOfRanges]
    generalize right.dropWhile (fun r => decide (r.high < l.low)) = kept at *
    cases kept with
    | nil =>
      refine ⟨fun h => absurd h Bool.false_ne_true, fun h => ?_⟩
      obtain ⟨r, hr, -, hhigh⟩ := h l List.mem_cons_self
      exact absurd (hkept r hr (hends.trans hhigh)) List.not_mem_nil
    | cons r kept =>
      simp only
      have hfirst := (hmem r List.mem_cons_self).2
      split
      case isTrue hout =>
        refine ⟨fun h => absurd h Bool.false_ne_true, fun h => ?_⟩
        obtain ⟨s, hs, hlow, hhigh⟩ := h l List.mem_cons_self
        rcases List.mem_cons.mp (hkept s hs (hends.trans hhigh)) with rfl | hs
        · omega
        · obtain ⟨x, -, hrx, hxs⟩ := List.rel_of_pairwise_cons hnormal.separated hs
          omega
      case isFalse hin =>
        rw [not_or, Nat.not_lt, Nat.not_lt] at hin
        rw [ih hl.tail hnormal]
        constructor
        · intro h t ht
          rcases List.mem_cons.mp ht with rfl | ht
          · exact ⟨r, (hmem r List.mem_cons_self).1, hin⟩
          · exact (hrest t ht).mpr (h t ht)
        · exact fun h t ht => (hrest t ht).mp (h t (List.mem_cons_of_mem l ht))

theorem isSubsetOf_iff (hs : Sound set) (ho : Sound other) :
    set.isSubsetOf other = true ↔ scalars set.rangeSpan ⊆ scalars other.rangeSpan := by
  rw [isSubsetOf, isSubsetOfRanges_iff hs.normalized ho.normalized]
  exact (hs.normalized.normal.cover_subset_iff ho.normalized.normal).symm

theorem equals_iff (hs : Sound set) (ho : Sound other) :
    set.equals other = true ↔ scalars set.rangeSpan = scalars other.rangeSpan := by
  rw [equals, decide_eq_true_eq]
  exact ⟨fun h => congrArg scalars h,
    fun h => hs.normalized.normal.unique ho.normalized.normal h⟩

/-- A sequence of operations, with the sets that they are applied to. -/
inductive Expression where
  | empty
  | ofChar (character : Nat)
  | ofString (characters : List UInt8)
  | ofSet (characters : Finset Nat)
  | ofList (characters : List Nat)
  | fromRange (first second : Nat)
  | addChar (set : Expression) (character : Nat)
  | addRange (set : Expression) (first second : Nat)
  | addSet (set other : Expression)
  | removeChar (set : Expression) (character : Nat)
  | removeRange (set : Expression) (first second : Nat)
  | removeSet (set other : Expression)
  | unitedWith (set other : Expression)
  | intersectedWith (set other : Expression)
  | subtractedBy (set other : Expression)
  | symmetricDifferenceWith (set other : Expression)

/-- The values of a character that is not rejected. -/
def charValues (character : Nat) : Set Nat := {x | isValidUnicode character = true ∧ x = character}

/-- The scalar values between two characters that are not rejected. -/
def rangeValues (first second : Nat) : Set Nat :=
  {x | isValidUnicode first = true ∧ isValidUnicode second = true ∧ IsScalar x ∧
    min first second ≤ x ∧ x ≤ max first second}

/-- A range in one set has U+FEFF inside it, and a range in the other one ends beside it. -/
def CutsAtMark (ranges others : List CharRange) : Prop :=
  ∃ l ∈ ranges, CoversMark l.low l.high ∧ BesideMark others

namespace Expression

def eval : Expression → Except CharSetError CharSet
  | empty => .ok {}
  | ofChar character => CharSet.ofChar character
  | ofString characters => CharSet.ofString characters
  | ofSet characters => CharSet.ofSet characters
  | ofList characters => CharSet.ofList characters
  | fromRange first second => CharSet.fromRange first second
  | addChar set character => do CharSet.addChar (← set.eval) character
  | addRange set first second => do CharSet.addRange (← set.eval) (CharRange.ofChars first second)
  | addSet set other => do CharSet.addSet (← set.eval) (← other.eval)
  | removeChar set character => do CharSet.removeChar (← set.eval) character
  | removeRange set first second => do
    CharSet.removeRange (← set.eval) (CharRange.ofChars first second)
  | removeSet set other => do CharSet.removeSet (← set.eval) (← other.eval)
  | unitedWith set other => do CharSet.unitedWith (← set.eval) (← other.eval)
  | intersectedWith set other => do CharSet.intersectedWith (← set.eval) (← other.eval)
  | subtractedBy set other => do CharSet.subtractedBy (← set.eval) (← other.eval)
  | symmetricDifferenceWith set other => do
    CharSet.symmetricDifferenceWith (← set.eval) (← other.eval)

/-- The set that the operations stand for. -/
def values : Expression → Set Nat
  | empty => ∅
  | ofChar character => charValues character
  | ofString characters => {x | ∃ c ∈ Utf8.characters characters, x ∈ charValues c}
  | ofSet characters => {x | ∃ c ∈ characters, x ∈ charValues c}
  | ofList characters => {x | ∃ c ∈ characters, x ∈ charValues c}
  | fromRange first second => rangeValues first second
  | addChar set character => set.values ∪ charValues character
  | addRange set first second => set.values ∪ rangeValues first second
  | addSet set other | unitedWith set other => set.values ∪ other.values
  | removeChar set character => set.values \ charValues character
  | removeRange set first second => set.values \ rangeValues first second
  | removeSet set other | subtractedBy set other => set.values \ other.values
  | intersectedWith set other => set.values ∩ other.values
  | symmetricDifferenceWith set other =>
    (set.values \ other.values) ∪ (other.values \ set.values)

/-- No operation cuts a range right beside U+FEFF. -/
def Uncut : Expression → Prop
  | addChar set _ | addRange set _ _ => set.Uncut
  | removeChar set character => set.Uncut ∧
    ∀ s, set.eval = .ok s → ¬ CutsAtMark s.rangeSpan [CharRange.ofChar character]
  | removeRange set first second => set.Uncut ∧
    ∀ s, set.eval = .ok s → ¬ CutsAtMark s.rangeSpan [CharRange.ofChars first second]
  | addSet set other | unitedWith set other | intersectedWith set other => set.Uncut ∧ other.Uncut
  | removeSet set other | subtractedBy set other => set.Uncut ∧ other.Uncut ∧
    ∀ s t, set.eval = .ok s → other.eval = .ok t → ¬ CutsAtMark s.rangeSpan t.rangeSpan
  | symmetricDifferenceWith set other => set.Uncut ∧ other.Uncut ∧
    ∀ s t, set.eval = .ok s → other.eval = .ok t →
      ¬ CutsAtMark s.rangeSpan t.rangeSpan ∧ ¬ CutsAtMark t.rangeSpan s.rangeSpan
  | _ => True

end Expression

/-- A set that holds some values. -/
def Holds (set : CharSet) (values : Set Nat) : Prop :=
  Sound set ∧ scalars set.rangeSpan = values

theorem charValues_points (h : isValidUnicode c = true) :
    charValues c = points (CharRange.ofChar c) := by
  rw [ofChar_valid h]
  ext x
  have hc := ((isValidUnicode_iff_scalar c).mp h).1
  simp only [charValues, mem_points, Set.mem_ofPred_eq]
  grind

theorem charValues_invalid (h : isValidUnicode c = false) : charValues c = ∅ := by
  ext x
  simp [charValues, h]

theorem ofChar_invalid (h : isValidUnicode c = false) : CharRange.ofChar c = CharRange.empty := by
  rw [CharRange.ofChar, if_neg (by simp [h])]

/-- A range of two characters is empty, or it is a valid range of the values between them. -/
theorem ofChars_cases (first second : Nat) :
    (CharRange.ofChars first second = CharRange.empty ∧ rangeValues first second = ∅) ∨
      (CharRange.Valid (CharRange.ofChars first second) ∧
        rangeValues first second = points (CharRange.ofChars first second)) := by
  by_cases hf : isValidUnicode first = true
  · by_cases hs : isValidUnicode second = true
    · right
      rw [CharRange.ofChars, if_neg (by simp [hf, hs])]
      split
      case isTrue hlt =>
        refine ⟨⟨hs, hf, hlt.le⟩, ?_⟩
        ext x
        simp [rangeValues, points, Range.Contains, hf, hs, min_eq_right hlt.le, max_eq_left hlt.le]
      case isFalse hge =>
        have hle := Nat.not_lt.mp hge
        refine ⟨⟨hf, hs, hle⟩, ?_⟩
        ext x
        simp [rangeValues, points, Range.Contains, hf, hs, min_eq_left hle, max_eq_right hle]
    · left
      refine ⟨ofChars_of_invalid (.inr (by simpa using hs)), ?_⟩
      ext x
      simp [rangeValues, hs]
  · left
    refine ⟨ofChars_of_invalid (.inl (by simpa using hf)), ?_⟩
    ext x
    simp [rangeValues, hf]

theorem addWithCapacity_empty (h : addWithCapacity set CharRange.empty hint = .ok other) :
    other = set := by
  rw [addWithCapacity, if_pos isEmpty_empty] at h
  exact (Except.ok.inj h).symm

theorem addChar_holds {values : Set Nat} (hs : Holds set values)
    (h : addWithCapacity set (CharRange.ofChar c) hint = .ok other) :
    Holds other (values ∪ charValues c) := by
  obtain ⟨hsound, rfl⟩ := hs
  cases hc : isValidUnicode c with
  | true =>
    have hvalid : CharRange.Valid (CharRange.ofChar c) := by
      rw [ofChar_valid hc]
      exact ⟨hc, hc, le_refl c⟩
    rw [charValues_points hc]
    exact addWithCapacity_sound hsound hvalid h
  | false =>
    rw [ofChar_invalid hc] at h
    obtain rfl := addWithCapacity_empty h
    rw [charValues_invalid hc, Set.union_empty]
    exact ⟨hsound, rfl⟩

theorem addRange_holds {values : Set Nat} (hs : Holds set values)
    (h : addRange set (CharRange.ofChars first second) = .ok other) :
    Holds other (values ∪ rangeValues first second) := by
  obtain ⟨hsound, rfl⟩ := hs
  rcases ofChars_cases first second with ⟨hempty, hvalues⟩ | ⟨hvalid, hvalues⟩
  · rw [addRange, hempty] at h
    obtain rfl := addWithCapacity_empty h
    rw [hvalues, Set.union_empty]
    exact ⟨hsound, rfl⟩
  · rw [hvalues]
    exact addWithCapacity_sound hsound hvalid h

theorem addCharacters_holds {values : Set Nat} {characters : List Nat} (hs : Holds set values)
    (h : addCharacters hint set characters = .ok other) :
    Holds other (values ∪ {x | ∃ c ∈ characters, x ∈ charValues c}) := by
  induction characters generalizing set values with
  | nil =>
    rw [addCharacters] at h
    obtain rfl := Except.ok.inj h
    have hnone : {x | ∃ c ∈ ([] : List Nat), x ∈ charValues c} = ∅ := by
      ext x
      simp
    rw [hnone, Set.union_empty]
    exact hs
  | cons c characters ih =>
    rw [addCharacters] at h
    obtain ⟨next, hadd, h⟩ := bind_eq_ok h
    have hsplit : values ∪ {x | ∃ d ∈ c :: characters, x ∈ charValues d} =
        (values ∪ charValues c) ∪ {x | ∃ d ∈ characters, x ∈ charValues d} := by
      ext x
      simp only [Set.mem_union, Set.mem_ofPred_eq, List.mem_cons, exists_eq_or_imp, or_assoc]
    rw [hsplit]
    exact ih (addChar_holds hs hadd) h

theorem before_empty (maximumRangeCount : Nat) (values : Set Nat) :
    Before { maximumRangeCount } values := by
  intro last hlast
  rw [CharSetRangeBuilder.ranges, Storage.ranges_empty isEmpty_empty] at hlast
  exact absurd hlast (by simp)

/-- The set of a finished builder. -/
theorem take_holds {values : Set Nat} {b : CharSetRangeBuilder}
    (h : Builds { maximumRangeCount := capacity } values b) : Holds (take b) values := by
  refine ⟨⟨h.good.compact, h.good.normalized⟩, h.scalars.trans ?_⟩
  rw [CharSetRangeBuilder.ranges, Storage.ranges_empty isEmpty_empty, scalars_nil, Set.empty_union]

theorem fromRange_holds (h : CharSet.fromRange first second = .ok set) :
    Holds set (rangeValues first second) := by
  rw [CharSet.fromRange] at h
  obtain ⟨b, hadd, h⟩ := bind_eq_ok h
  obtain rfl := Except.ok.inj h
  rcases ofChars_cases first second with ⟨hempty, hvalues⟩ | ⟨hvalid, hvalues⟩
  · rw [hempty, CharSetRangeBuilder.add, if_pos isEmpty_empty] at hadd
    obtain rfl := Except.ok.inj hadd
    rw [hvalues]
    exact take_holds (Builds.refl (Good.empty 1))
  · rw [hvalues]
    exact take_holds (add_builds (Good.empty 1) hvalid (before_empty 1 _) hadd)

theorem addCharacters_builds {b b' : CharSetRangeBuilder} {characters : List Nat} (hb : Good b)
    (hsorted : characters.Pairwise (· ≤ ·))
    (hbefore : Before b {x | ∃ c ∈ characters, x ∈ charValues c})
    (h : CharSetRangeBuilder.addCharacters b characters = .ok b') :
    Builds b {x | ∃ c ∈ characters, x ∈ charValues c} b' := by
  induction characters generalizing b with
  | nil =>
    rw [CharSetRangeBuilder.addCharacters] at h
    obtain rfl := Except.ok.inj h
    exact (Builds.refl hb).congr (by ext x; simp)
  | cons c characters ih =>
    rw [CharSetRangeBuilder.addCharacters] at h
    obtain ⟨b₁, hadd, h⟩ := bind_eq_ok h
    obtain ⟨hfirst, hrest⟩ := List.pairwise_cons.mp hsorted
    have hsplit : {x | ∃ d ∈ c :: characters, x ∈ charValues d} =
        charValues c ∪ {x | ∃ d ∈ characters, x ∈ charValues d} := by
      ext x
      simp only [Set.mem_union, Set.mem_ofPred_eq, List.mem_cons, exists_eq_or_imp]
    rw [hsplit] at hbefore ⊢
    cases hc : isValidUnicode c with
    | true =>
      have hvalid : CharRange.Valid (CharRange.ofChar c) := by
        rw [ofChar_valid hc]
        exact ⟨hc, hc, le_refl c⟩
      rw [charValues_points hc] at hbefore ⊢
      obtain ⟨hgood, hnext, hdone⟩ := add_first hb hvalid hbefore rfl (fun y hy => by
        obtain ⟨d, hd, -, rfl⟩ := hy
        rw [ofChar_valid hc]
        exact hfirst y hd) hadd
      exact hdone b' (ih hgood hrest hnext h)
    | false =>
      rw [ofChar_invalid hc, CharSetRangeBuilder.add, if_pos isEmpty_empty] at hadd
      obtain rfl := Except.ok.inj hadd
      rw [charValues_invalid hc, Set.empty_union] at hbefore ⊢
      exact ih hb hrest hbefore h

theorem ofSet_holds {characters : Finset Nat} (h : CharSet.ofSet characters = .ok set) :
    Holds set {x | ∃ c ∈ characters, x ∈ charValues c} := by
  rw [CharSet.ofSet] at h
  obtain ⟨b, hadd, h⟩ := bind_eq_ok h
  obtain rfl := Except.ok.inj h
  have hbuilds := addCharacters_builds (Good.empty _) (Finset.pairwise_sort characters (· ≤ ·))
    (before_empty _ _) hadd
  refine take_holds (hbuilds.congr ?_)
  ext x
  simp only [Finset.mem_sort]

theorem unitedWith_holds {v w : Set Nat} (hs : Holds set v) (ho : Holds other w)
    (h : set.unitedWith other = .ok result) : Holds result (v ∪ w) := by
  obtain ⟨hs, rfl⟩ := hs
  obtain ⟨ho, rfl⟩ := ho
  obtain ⟨b, hb, h⟩ := bind_eq_ok h
  obtain rfl := Except.ok.inj h
  exact take_holds (uniteRanges_builds (Good.empty _) hs.normalized ho.normalized
    (before_empty _ _) hb)

theorem intersectedWith_holds {v w : Set Nat} (hs : Holds set v) (ho : Holds other w)
    (h : set.intersectedWith other = .ok result) : Holds result (v ∩ w) := by
  obtain ⟨hs, rfl⟩ := hs
  obtain ⟨ho, rfl⟩ := ho
  obtain ⟨b, hb, h⟩ := bind_eq_ok h
  obtain rfl := Except.ok.inj h
  exact take_holds (intersectRanges_builds (Good.empty _) hs.normalized ho.normalized
    (before_empty _ _) hb)

theorem not_cuts (h : ¬ CutsAtMark ranges others) :
    ∀ l ∈ ranges, CoversMark l.low l.high → ¬ BesideMark others :=
  fun l hl hcovers hbeside => h ⟨l, hl, hcovers, hbeside⟩

theorem subtractedBy_holds {v w : Set Nat} (hs : Holds set v) (ho : Holds other w)
    (hcut : ¬ CutsAtMark set.rangeSpan other.rangeSpan)
    (h : set.subtractedBy other = .ok result) : Holds result (v \ w) := by
  obtain ⟨hs, rfl⟩ := hs
  obtain ⟨ho, rfl⟩ := ho
  obtain ⟨b, hb, h⟩ := bind_eq_ok h
  obtain rfl := Except.ok.inj h
  exact take_holds (subtractRanges_builds (Good.empty _) hs.normalized ho.normalized
    (not_cuts hcut) (before_empty _ _) hb)

theorem symmetricDifferenceWith_holds {v w : Set Nat} (hs : Holds set v) (ho : Holds other w)
    (hcut : ¬ CutsAtMark set.rangeSpan other.rangeSpan)
    (hcut' : ¬ CutsAtMark other.rangeSpan set.rangeSpan)
    (h : set.symmetricDifferenceWith other = .ok result) :
    Holds result ((v \ w) ∪ (w \ v)) := by
  obtain ⟨hs, rfl⟩ := hs
  obtain ⟨ho, rfl⟩ := ho
  obtain ⟨b, hb, h⟩ := bind_eq_ok h
  obtain rfl := Except.ok.inj h
  have hbuilds := differRanges_builds (nextRange set.rangeSpan) (nextRange other.rangeSpan)
    (Good.empty _) (by rw [nextRange_list]; exact hs.normalized)
    (by rw [nextRange_list]; exact ho.normalized)
    (by rw [nextRange_list, nextRange_list]; exact ⟨not_cuts hcut, not_cuts hcut'⟩)
    (before_empty _ _) hb
  rw [nextRange_list, nextRange_list] at hbuilds
  refine take_holds (hbuilds.congr ?_)
  ext x
  simp only [difference, Set.mem_ofPred_eq, Set.mem_union, Set.mem_sdiff]
  tauto

theorem scalars_of_isEmpty (h : set.isEmpty = true) : scalars set.rangeSpan = ∅ := by
  rw [CharSet.isEmpty, List.isEmpty_iff] at h
  rw [h, scalars_nil]

theorem addSet_holds {v w : Set Nat} (hs : Holds set v) (ho : Holds other w)
    (h : set.addSet other = .ok result) : Holds result (v ∪ w) := by
  rw [addSet] at h
  split_ifs at h with hempty
  · obtain rfl := Except.ok.inj h
    rw [← ho.2, scalars_of_isEmpty hempty, Set.union_empty]
    exact hs
  · exact unitedWith_holds hs ho h

theorem removeSet_holds {v w : Set Nat} (hs : Holds set v) (ho : Holds other w)
    (hcut : ¬ CutsAtMark set.rangeSpan other.rangeSpan)
    (h : set.removeSet other = .ok result) : Holds result (v \ w) := by
  rw [removeSet] at h
  split_ifs at h with hempty
  · obtain rfl := Except.ok.inj h
    rcases hempty with hempty | hempty
    · have hv : v = ∅ := hs.2.symm.trans (scalars_of_isEmpty hempty)
      rw [hv, Set.empty_sdiff, ← hv]
      exact hs
    · rw [← ho.2, scalars_of_isEmpty hempty, Set.sdiff_empty]
      exact hs
  · exact subtractedBy_holds hs ho hcut h

theorem removeRange_holds {v : Set Nat} {range : CharRange} (hs : Holds set v)
    (hr : CharRange.Valid range) (hcut : ¬ CutsAtMark set.rangeSpan [range])
    (h : removeRange set range = .ok result) : Holds result (v \ points range) := by
  obtain ⟨hsound, rfl⟩ := hs
  rw [removeRange] at h
  split_ifs at h with hempty
  · obtain rfl := Except.ok.inj h
    rcases hempty with hempty | hempty
    · refine ⟨hsound, ?_⟩
      rw [scalars_of_isEmpty hempty, Set.empty_sdiff]
    · exact absurd hempty (by simp [hr.isEmpty])
  · obtain ⟨b, hb, h⟩ := bind_eq_ok h
    obtain rfl := Except.ok.inj h
    exact take_holds (removeFromRanges_builds (Good.empty _) hsound.normalized hr (not_cuts hcut)
      (before_empty _ _) hb)

theorem removeRange_empty (h : removeRange set CharRange.empty = .ok result) : result = set := by
  rw [removeRange, if_pos (.inr isEmpty_empty)] at h
  exact (Except.ok.inj h).symm

theorem removeChars_holds {v : Set Nat} (hs : Holds set v)
    (hcut : ¬ CutsAtMark set.rangeSpan [CharRange.ofChars first second])
    (h : removeRange set (CharRange.ofChars first second) = .ok result) :
    Holds result (v \ rangeValues first second) := by
  rcases ofChars_cases first second with ⟨hempty, hvalues⟩ | ⟨hvalid, hvalues⟩
  · rw [hempty] at h
    obtain rfl := removeRange_empty h
    rw [hvalues, Set.sdiff_empty]
    exact hs
  · rw [hvalues]
    exact removeRange_holds hs hvalid hcut h

theorem removeChar_holds {v : Set Nat} (hs : Holds set v)
    (hcut : ¬ CutsAtMark set.rangeSpan [CharRange.ofChar c])
    (h : removeChar set c = .ok result) : Holds result (v \ charValues c) := by
  rw [removeChar] at h
  cases hc : isValidUnicode c with
  | true =>
    have hvalid : CharRange.Valid (CharRange.ofChar c) := by
      rw [ofChar_valid hc]
      exact ⟨hc, hc, le_refl c⟩
    rw [charValues_points hc]
    exact removeRange_holds hs hvalid hcut h
  | false =>
    rw [ofChar_invalid hc] at h
    obtain rfl := removeRange_empty h
    rw [charValues_invalid hc, Set.sdiff_empty]
    exact hs

namespace Expression

theorem eval_holds (e : Expression) (he : e.Uncut) (h : e.eval = .ok set) : Holds set e.values := by
  induction e generalizing set with
  | empty =>
    obtain rfl := Except.ok.inj h
    exact ⟨Sound.empty, by rw [rangeSpan_empty, scalars_nil]; rfl⟩
  | ofChar c =>
    have hempty : Holds {} ∅ := ⟨Sound.empty, by rw [rangeSpan_empty, scalars_nil]⟩
    have hadd := addChar_holds hempty h
    rwa [Set.empty_union] at hadd
  | ofString characters =>
    have hempty : Holds {} ∅ := ⟨Sound.empty, by rw [rangeSpan_empty, scalars_nil]⟩
    have hadd := addCharacters_holds hempty h
    rwa [Set.empty_union] at hadd
  | ofSet characters => exact ofSet_holds h
  | ofList characters =>
    have hempty : Holds {} ∅ := ⟨Sound.empty, by rw [rangeSpan_empty, scalars_nil]⟩
    have hadd := addCharacters_holds hempty h
    rwa [Set.empty_union] at hadd
  | fromRange first second => exact fromRange_holds h
  | addChar e c ih =>
    obtain ⟨s, hs, h⟩ := bind_eq_ok h
    exact addChar_holds (ih he hs) h
  | addRange e first second ih =>
    obtain ⟨s, hs, h⟩ := bind_eq_ok h
    exact addRange_holds (ih he hs) h
  | addSet e f ihe ihf =>
    obtain ⟨s, hs, h⟩ := bind_eq_ok h
    obtain ⟨t, ht, h⟩ := bind_eq_ok h
    exact addSet_holds (ihe he.1 hs) (ihf he.2 ht) h
  | removeChar e c ih =>
    obtain ⟨s, hs, h⟩ := bind_eq_ok h
    exact removeChar_holds (ih he.1 hs) (he.2 s hs) h
  | removeRange e first second ih =>
    obtain ⟨s, hs, h⟩ := bind_eq_ok h
    exact removeChars_holds (ih he.1 hs) (he.2 s hs) h
  | removeSet e f ihe ihf =>
    obtain ⟨s, hs, h⟩ := bind_eq_ok h
    obtain ⟨t, ht, h⟩ := bind_eq_ok h
    exact removeSet_holds (ihe he.1 hs) (ihf he.2.1 ht) (he.2.2 s t hs ht) h
  | unitedWith e f ihe ihf =>
    obtain ⟨s, hs, h⟩ := bind_eq_ok h
    obtain ⟨t, ht, h⟩ := bind_eq_ok h
    exact unitedWith_holds (ihe he.1 hs) (ihf he.2 ht) h
  | intersectedWith e f ihe ihf =>
    obtain ⟨s, hs, h⟩ := bind_eq_ok h
    obtain ⟨t, ht, h⟩ := bind_eq_ok h
    exact intersectedWith_holds (ihe he.1 hs) (ihf he.2 ht) h
  | subtractedBy e f ihe ihf =>
    obtain ⟨s, hs, h⟩ := bind_eq_ok h
    obtain ⟨t, ht, h⟩ := bind_eq_ok h
    exact subtractedBy_holds (ihe he.1 hs) (ihf he.2.1 ht) (he.2.2 s t hs ht) h
  | symmetricDifferenceWith e f ihe ihf =>
    obtain ⟨s, hs, h⟩ := bind_eq_ok h
    obtain ⟨t, ht, h⟩ := bind_eq_ok h
    obtain ⟨hcut, hcut'⟩ := he.2.2 s t hs ht
    exact symmetricDifferenceWith_holds (ihe he.1 hs) (ihf he.2.1 ht) hcut hcut' h

end Expression

/-- Sorted, disjoint and not mergeable ranges, inline up to two of them. -/
def StoredInOrder (set : CharSet) : Prop :=
  (∀ r ∈ set.rangeSpan, CharRange.isEmpty r = false) ∧
  set.rangeSpan.Pairwise (fun r s => r.high < s.low ∧ CharRange.canMergeWith r s = false) ∧
  match set.storage with
  | .inline _ _ => set.rangeSpan.length ≤ 2
  | .shared _ => 3 ≤ set.rangeSpan.length

theorem Sound.storedInOrder (h : Sound set) : StoredInOrder set := by
  refine ⟨fun r hr => (h.normalized.valid r hr).isEmpty, ?_, ?_⟩
  · refine h.normalized.separated.imp_of_mem fun {r s} hr hs hsep => ?_
    have hfalse := (canMergeWith_eq_false (h.normalized.valid r hr) (h.normalized.valid s hs)).mpr
      (.inl hsep)
    obtain ⟨x, -, hrx, hxs⟩ := hsep
    exact ⟨hrx.trans hxs, hfalse⟩
  · have hcompact := h.compact
    rw [rangeSpan]
    revert hcompact
    cases set.storage with
    | inline first second => exact fun _ => (List.length_take_le' _ _).trans (Nat.le_refl 2)
    | shared ranges => exact fun hcompact => hcompact

/-- The sets follow set theory, except that U+FEFF is rejected, in every sequence of operations
that cuts no range beside U+FEFF. -/
theorem char_sets_follow_set_theory (e : Expression) (he : e.Uncut) (h : e.eval = .ok set) :
    (∀ c, set.contains c = true ↔ c ∈ e.values ∧ c ≠ 0xFEFF) ∧ StoredInOrder set ∧
    ∀ (f : Expression) (other : CharSet), f.Uncut → f.eval = .ok other →
      (set.equals other = true ↔ e.values = f.values) ∧
      (set.isSubsetOf other = true ↔ e.values ⊆ f.values) := by
  obtain ⟨hsound, hvalues⟩ := e.eval_holds he h
  refine ⟨fun c => ?_, hsound.storedInOrder, fun f other hf hother => ?_⟩
  · rw [contains_iff hsound, hvalues]
  · obtain ⟨hsound', hvalues'⟩ := f.eval_holds hf hother
    rw [equals_iff hsound hsound', isSubsetOf_iff hsound hsound', hvalues, hvalues']
    exact ⟨Iff.rfl, Iff.rfl⟩

theorem char_sets_follow_set_theory_letters :
    ∃ set, (Expression.removeChar (.fromRange 0x61 0x7A) 0x6D).eval = .ok set ∧
      (set.contains 0x6D = true ↔
        0x6D ∈ (Expression.removeChar (.fromRange 0x61 0x7A) 0x6D).values ∧ 0x6D ≠ 0xFEFF) := by
  refine ⟨⟨.inline ⟨0x61, 0x6C⟩ ⟨0x6E, 0x7A⟩⟩, by decide, ?_⟩
  have huncut : (Expression.removeChar (.fromRange 0x61 0x7A) 0x6D).Uncut := by
    refine ⟨trivial, fun s _ => ?_⟩
    rintro ⟨-, -, -, r, hr, hmark⟩
    rw [List.mem_singleton.mp hr] at hmark
    exact absurd hmark (by decide)
  exact (char_sets_follow_set_theory _ huncut (by decide)).1 0x6D

/-- U+FEFF is in no set, and removing the character after it loses all characters before it. -/
theorem set_theory_not_followed :
    (∃ set, (Expression.fromRange 0 0x10FFFF).eval = .ok set ∧
      0xFEFF ∈ (Expression.fromRange 0 0x10FFFF).values ∧ set.contains 0xFEFF = false) ∧
    ∃ set, (Expression.removeChar (.fromRange 0 0x10FFFF) 0xFF00).eval = .ok set ∧
      0x61 ∈ (Expression.removeChar (.fromRange 0 0x10FFFF) 0xFF00).values ∧
      set.contains 0x61 = false := by
  refine ⟨⟨⟨.inline ⟨0, 0x10FFFF⟩ CharRange.empty⟩, by decide, ?_, by decide⟩,
    ⟨⟨.inline ⟨0xFF01, 0x10FFFF⟩ CharRange.empty⟩, by decide, ⟨?_, ?_⟩, by decide⟩⟩
  · exact ⟨by decide, by decide, ⟨by decide, .inr (by decide)⟩, by decide, by decide⟩
  · exact ⟨by decide, by decide, ⟨by decide, .inl (by decide)⟩, by decide, by decide⟩
  · rintro ⟨-, heq⟩
    exact absurd heq (by decide)

end ErbslandCore.Text.CharSet
