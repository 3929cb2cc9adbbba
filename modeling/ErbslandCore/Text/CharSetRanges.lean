import ErbslandCore.Text.CharSet

namespace ErbslandCore.Text
open Library Library.RangeSets Library.Utf8
set_option autoImplicit true

theorem isValidUnicode_iff_scalar (c : Nat) :
    isValidUnicode c = true ↔ IsScalar c ∧ c ≠ 0xFEFF := by
  rw [Text.Utf8.isValidUnicode_iff, IsScalar]
  omega

theorem isValidUnicode_max (ha : isValidUnicode a = true) (hb : isValidUnicode b = true) :
    isValidUnicode (max a b) = true := by
  rcases max_choice a b with heq | heq
  · rw [heq]
    exact ha
  · rw [heq]
    exact hb

theorem isValidUnicode_min (ha : isValidUnicode a = true) (hb : isValidUnicode b = true) :
    isValidUnicode (min a b) = true := by
  rcases min_choice a b with heq | heq
  · rw [heq]
    exact ha
  · rw [heq]
    exact hb

namespace CharRange

/-- A range with valid ends in their order. -/
structure Valid (r : CharRange) : Prop where
  low : isValidUnicode r.low = true
  high : isValidUnicode r.high = true
  le : r.low ≤ r.high

theorem isEmpty_eq_false (r : CharRange) : isEmpty r = false ↔ Valid r := by
  constructor
  · intro h
    rw [isEmpty, Bool.or_eq_false_iff, Bool.or_eq_false_iff] at h
    obtain ⟨⟨hlow, hhigh⟩, hle⟩ := h
    exact ⟨by simpa using hlow, by simpa using hhigh, by simpa using hle⟩
  · intro h
    simp [isEmpty, h.low, h.high, h.le]

theorem Valid.isEmpty {r : CharRange} (h : Valid r) : isEmpty r = false := (isEmpty_eq_false r).mpr h

theorem Valid.proper {r : CharRange} (h : Valid r) : Proper IsScalar r :=
  ⟨((isValidUnicode_iff_scalar _).mp h.low).1, ((isValidUnicode_iff_scalar _).mp h.high).1, h.le⟩

theorem isEmpty_empty : isEmpty empty = true := by decide

theorem ofChars_valid (ha : isValidUnicode a = true) (hb : isValidUnicode b = true) (h : a ≤ b) :
    ofChars a b = ⟨a, b⟩ := by
  rw [ofChars, if_neg (by simp [ha, hb]), if_neg (Nat.not_lt.mpr h)]

theorem ofChars_of_invalid (h : isValidUnicode a = false ∨ isValidUnicode b = false) :
    ofChars a b = empty := by
  rw [ofChars, if_pos]
  simpa using h

/-- The common part of two ranges. -/
theorem ofChars_overlap {r s : CharRange} (hr : Valid r) (hs : Valid s) (hle : r.low ≤ s.high)
    (hle' : s.low ≤ r.high) :
    ofChars (max r.low s.low) (min r.high s.high) = ⟨max r.low s.low, min r.high s.high⟩ ∧
      Valid ⟨max r.low s.low, min r.high s.high⟩ := by
  have hlow := isValidUnicode_max hr.low hs.low
  have hhigh := isValidUnicode_min hr.high hs.high
  have hends : max r.low s.low ≤ min r.high s.high :=
    max_le (le_min hr.le hle) (le_min hle' hs.le)
  exact ⟨ofChars_valid hlow hhigh hends, hlow, hhigh, hends⟩

theorem ofChar_valid (h : isValidUnicode c = true) : ofChar c = ⟨c, c⟩ := if_pos h

/-- The next scalar value, of one that is not the last. -/
theorem nextScalarValue_spec (h : IsScalar c) (hx : IsScalar x) :
    nextScalarValue c ≤ x ↔ c < x := by
  rw [IsScalar] at h hx
  rw [nextScalarValue, cEmptyValue]
  split_ifs <;> omega

theorem nextScalarValue_scalar (h : IsScalar c) (hlast : nextScalarValue c ≠ cEmptyValue) :
    IsScalar (nextScalarValue c) := by
  rw [IsScalar] at h ⊢
  rw [nextScalarValue, cEmptyValue] at *
  split_ifs at * <;> omega

/-- Ranges are merged unless there is a scalar value between them. -/
theorem canMergeWith_eq_false {r s : CharRange} (hr : Valid r) (hs : Valid s) :
    canMergeWith r s = false ↔ Separated IsScalar r s ∨ Separated IsScalar s r := by
  have between (r s : CharRange) (hr : Proper IsScalar r) (hs : Proper IsScalar s) :
      Separated IsScalar r s ↔ r.high < s.low ∧ nextScalarValue r.high ≠ s.low := by
    constructor
    · rintro ⟨x, hx, hrx, hxs⟩
      have hnext := (nextScalarValue_spec hr.high hx).mpr hrx
      exact ⟨hrx.trans hxs, (hnext.trans_lt hxs).ne⟩
    · rintro ⟨hlt, hne⟩
      have hnext := (nextScalarValue_spec hr.high hs.low).mpr hlt
      have hlast : nextScalarValue r.high ≠ cEmptyValue := by
        have hscalar := hs.low.1
        rw [cEmptyValue]
        omega
      have hscalar := nextScalarValue_scalar hr.high hlast
      exact ⟨_, hscalar, (nextScalarValue_spec hr.high hscalar).mp (Nat.le_refl _),
        Nat.lt_of_le_of_ne hnext hne⟩
  rw [between r s hr.proper hs.proper, between s r hs.proper hr.proper]
  have hrle := hr.le
  have hsle := hs.le
  have hrnext := nextScalarValue_spec hr.proper.high hs.proper.low
  have hsnext := nextScalarValue_spec hs.proper.high hr.proper.low
  simp only [canMergeWith, overlaps, isAdjacentTo, hr.isEmpty, hs.isEmpty, Bool.not_false,
    Bool.true_and, Bool.or_eq_false_iff, Bool.not_eq_false', Bool.or_eq_true, decide_eq_true_eq,
    decide_eq_false_iff_not]
  omega

theorem mergedWith_eq {r s : CharRange} (hr : Valid r) (hs : Valid s)
    (h : canMergeWith r s = true) :
    mergedWith r s = ⟨min r.low s.low, max r.high s.high⟩ ∧ Valid (mergedWith r s) := by
  have hlow := isValidUnicode_min hr.low hs.low
  have hhigh := isValidUnicode_max hr.high hs.high
  have hle : min r.low s.low ≤ max r.high s.high :=
    (min_le_left _ _).trans (hr.le.trans (le_max_left _ _))
  have heq : mergedWith r s = ⟨min r.low s.low, max r.high s.high⟩ := by
    rw [mergedWith, if_neg (not_not.mpr h), ofChars_valid hlow hhigh hle]
  rw [heq]
  exact ⟨rfl, hlow, hhigh, hle⟩

end CharRange

namespace CharSet
open CharRange

/-- Nonempty ranges in ascending order that can not be merged. -/
structure Normalized (ranges : List CharRange) : Prop where
  valid : ∀ r ∈ ranges, CharRange.Valid r
  separated : ranges.Pairwise (Separated IsScalar)

/-- The scalar values in the ranges. -/
def scalars (ranges : List CharRange) : Set Nat := cover IsScalar ranges

theorem Normalized.normal (h : Normalized ranges) : Normal IsScalar ranges :=
  ⟨fun r hr => (h.valid r hr).proper, h.separated⟩

theorem Normalized.tail (h : Normalized (r :: ranges)) : Normalized ranges :=
  ⟨fun s hs => h.valid s (List.mem_cons_of_mem r hs), h.separated.of_cons⟩

theorem Normalized.head (h : Normalized (r :: ranges)) : CharRange.Valid r :=
  h.valid r List.mem_cons_self

theorem Normalized.nil : Normalized [] := ⟨fun _ h => absurd h List.not_mem_nil, .nil⟩

theorem previousScalar_spec (h : isValidUnicode c = true) (hx : IsScalar x) :
    match previousScalar c with
    | some stop => IsScalar stop ∧ (x ≤ stop ↔ x < c) ∧ (stop = 0xFEFF ↔ c = 0xFF00)
    | none => c = 0 := by
  have hscalar := (isValidUnicode_iff_scalar c).mp h
  rw [IsScalar] at hscalar hx
  rw [previousScalar]
  split_ifs with h₀ h₁
  · simpa [h] using h₀
  · simp only [IsScalar]
    omega
  · have hpos : c ≠ 0 := by
      intro hzero
      exact h₀ (.inr hzero)
    simp only [IsScalar]
    omega

theorem nextScalar_spec (h : isValidUnicode c = true) (hx : IsScalar x) :
    match nextScalar c with
    | some next => IsScalar next ∧ (next ≤ x ↔ c < x) ∧ (next = 0xFEFF ↔ c = 0xFEFE)
    | none => x ≤ c := by
  have hscalar := (isValidUnicode_iff_scalar c).mp h
  rw [IsScalar] at hscalar hx
  rw [nextScalar]
  split_ifs with h₀ h₁
  · have hlast : c = 0x10FFFF := by simpa [h] using h₀
    omega
  · simp only [IsScalar]
    omega
  · have hlast : c ≠ 0x10FFFF := by
      intro hlast
      exact h₀ (.inr hlast)
    simp only [IsScalar]
    omega

end CharSet

end ErbslandCore.Text
