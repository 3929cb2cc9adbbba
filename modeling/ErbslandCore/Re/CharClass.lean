import Mathlib.Data.List.TakeWhile
import ErbslandCore.Re.Program
import ErbslandCore.Text.CharSetRanges

namespace ErbslandCore.Re.CharClasses
open Library Library.RangeSets Library.Utf8
open Text (isValidUnicode isValidUnicode_iff_scalar isValidUnicode_max isValidUnicode_min)
open Text.CharRange (Valid)
set_option autoImplicit true

/-- A range of characters, from its first one (`low`) to its last one (`high`). -/
abbrev CharRange := RangeSets.Range Nat

namespace CharRange

/-- The range between two characters, in either order. -/
def ofChars (first last : Nat) : CharRange where
  low := if last < first then last else first
  high := if last < first then first else last

def lt (range other : CharRange) : Bool :=
  if range.low = other.low then decide (range.high < other.high)
  else decide (range.low < other.low)

def canMerge (currentLast nextFirst : Nat) : Bool :=
  if !isValidUnicode currentLast || !isValidUnicode nextFirst then false
  else if nextFirst ≤ currentLast then true
  else if currentLast = 0x10FFFF then false
  else decide (nextFirst = if currentLast = 0xD7FF then 0xE000 else currentLast + 1)

theorem ofChars_of_le (h : first ≤ last) : ofChars first last = ⟨first, last⟩ := by
  rw [ofChars, if_neg (Nat.not_lt.mpr h), if_neg (Nat.not_lt.mpr h)]

theorem ofChars_eq (first last : Nat) : ofChars first last = ⟨min first last, max first last⟩ := by
  rcases Nat.lt_or_ge last first with hlt | hge
  · rw [ofChars, if_pos hlt, if_pos hlt, min_eq_right hlt.le, max_eq_left hlt.le]
  · rw [ofChars_of_le hge, min_eq_left hge, max_eq_right hge]

theorem ofChars_valid (hf : isValidUnicode first = true) (hl : isValidUnicode last = true) :
    Valid (ofChars first last) := by
  rw [ofChars_eq]
  exact ⟨isValidUnicode_min hf hl, isValidUnicode_max hf hl, min_le_max⟩

/-- The order of ranges, as it is used for sorting. -/
theorem not_lt_iff (r s : CharRange) :
    (!lt s r) = true ↔ r.low < s.low ∨ r.low = s.low ∧ r.high ≤ s.high := by
  simp only [lt]
  split_ifs with h
  · simp [h]
  · have hne : r.low ≠ s.low := Ne.symm h
    simp [hne, Nat.le_iff_lt_or_eq]

/-- Ends can be merged unless there is a scalar value between them. -/
theorem canMerge_eq_false (hc : isValidUnicode currentLast = true)
    (hn : isValidUnicode nextFirst = true) :
    canMerge currentLast nextFirst = false ↔
      ∃ x, IsScalar x ∧ currentLast < x ∧ x < nextFirst := by
  have hcurrent := ((isValidUnicode_iff_scalar _).mp hc).1
  have hnext := ((isValidUnicode_iff_scalar _).mp hn).1
  rw [IsScalar] at hcurrent hnext
  rw [canMerge, if_neg (by simp [hc, hn])]
  constructor
  · intro h
    split_ifs at h with hle hlast hgap
    · omega
    · rw [decide_eq_false_iff_not] at h
      exact ⟨0xE000, by rw [IsScalar]; omega, by omega, by omega⟩
    · rw [decide_eq_false_iff_not] at h
      exact ⟨currentLast + 1, by rw [IsScalar]; omega, by omega, by omega⟩
  · rintro ⟨x, hx, hlow, hhigh⟩
    rw [IsScalar] at hx
    rw [if_neg (by omega), if_neg (by omega), decide_eq_false_iff_not]
    split_ifs <;> omega

end CharRange

/-- A combined character class of several ranges. The copy that a shared class makes of its data
before it is changed has the same ranges. -/
structure CharClass where
  ranges : List CharRange := []
  readyForUse : Bool := false
  deriving DecidableEq

namespace CharClass

def add (self : CharClass) (character : Nat) : Except RegExError CharClass :=
  if isValidUnicode character then
    .ok { ranges := self.ranges ++ [CharRange.ofChars character character], readyForUse := false }
  else .error (internalError "Cannot add an invalid Unicode character")

def addRange (self : CharClass) (first last : Nat) : Except RegExError CharClass :=
  if isValidUnicode first && isValidUnicode last then
    .ok { ranges := self.ranges ++ [CharRange.ofChars first last], readyForUse := false }
  else .error (internalError "Cannot add an invalid Unicode character range")

/-- The finished ranges and the ends of the current one. -/
structure Merging where
  merged : List CharRange
  currentFirst : Nat
  currentLast : Nat

def Merging.next (m : Merging) (range : CharRange) : Merging :=
  if CharRange.canMerge m.currentLast range.low then
    { m with currentLast := if range.high > m.currentLast then range.high else m.currentLast }
  else
    { merged := m.merged ++ [CharRange.ofChars m.currentFirst m.currentLast],
      currentFirst := range.low, currentLast := range.high }

def Merging.finish (m : Merging) : List CharRange :=
  m.merged ++ [CharRange.ofChars m.currentFirst m.currentLast]

/-- The ranges in their order. -/
def sortRanges (ranges : List CharRange) : List CharRange :=
  ranges.mergeSort fun range other => !CharRange.lt other range

def normalizeRanges (ranges : List CharRange) : List CharRange :=
  match sortRanges ranges with
  | [] => []
  | front :: rest => (rest.foldl Merging.next ⟨[], front.low, front.high⟩).finish

def prepareForUse (self : CharClass) : Except RegExError CharClass :=
  if self.readyForUse then .ok self
  else if self.ranges.all fun range => isValidUnicode range.low && isValidUnicode range.high then
    .ok { ranges := normalizeRanges self.ranges, readyForUse := true }
  else .error (internalError "Cannot prepare a character class with invalid Unicode characters")

namespace Merging

/-- The ranges so far are merged, and the current one is the last of them. -/
structure Merged (m : Merging) : Prop where
  le : m.currentFirst ≤ m.currentLast
  valid : ∀ r ∈ m.finish, Valid r
  normal : Normal IsScalar m.finish

theorem finish_of_le {m : Merging} (h : m.currentFirst ≤ m.currentLast) :
    m.finish = m.merged ++ [⟨m.currentFirst, m.currentLast⟩] := by
  rw [finish, CharRange.ofChars_of_le h]

theorem Merged.current (h : Merged m) : Valid ⟨m.currentFirst, m.currentLast⟩ := by
  apply h.valid
  rw [finish_of_le h.le]
  exact List.mem_append_right _ (List.mem_singleton_self _)

theorem start (h : Valid r) : Merged ⟨[], r.low, r.high⟩ ∧
    (⟨[], r.low, r.high⟩ : Merging).finish = [r] := by
  have heq : (⟨[], r.low, r.high⟩ : Merging).finish = [r] := finish_of_le h.le
  have hvalid : ∀ s ∈ [r], Valid s := fun s hs => List.mem_singleton.mp hs ▸ h
  refine ⟨⟨h.le, heq ▸ hvalid, ?_⟩, heq⟩
  rw [heq]
  exact ⟨fun s hs => (hvalid s hs).proper, List.pairwise_singleton _ _⟩

theorem replace_current {m : Merging} (h : Merged m) (hv : Valid ⟨m.currentFirst, last⟩) :
    Merged { m with currentLast := last } := by
  have heq : ({ m with currentLast := last } : Merging).finish =
      m.merged ++ [⟨m.currentFirst, last⟩] := finish_of_le hv.le
  have hnormal := h.normal
  have hvalid := h.valid
  rw [finish_of_le h.le] at hnormal hvalid
  refine ⟨hv.le, ?_, ?_⟩
  · rw [heq]
    intro r hr
    rcases List.mem_append.mp hr with hr | hr
    · exact hvalid r (List.mem_append_left _ hr)
    · exact List.mem_singleton.mp hr ▸ hv
  · rw [heq]
    exact hnormal.replace_last hv.proper rfl

/-- The points of two last ranges, and of the one that reaches as far as both. -/
theorem cover_widened {r : CharRange} (hle : first ≤ r.low)
    (hnot : ¬ Separated IsScalar ⟨first, last⟩ r) :
    cover IsScalar (rs ++ [⟨first, max last r.high⟩]) =
      cover IsScalar (rs ++ [⟨first, last⟩] ++ [r]) := by
  ext x
  have haround (hx : IsScalar x) := contains_around_iff hx hle hnot
  rw [mem_cover_append, mem_cover_append, mem_cover_append, mem_cover_cons, mem_cover_cons,
    mem_cover_cons, cover_nil, Set.mem_empty_iff_false, or_false, or_false, or_false, or_assoc,
    ← and_or_left]
  exact or_congr_right (and_congr_right haround)

theorem next_of_mergeable {m : Merging} {r : CharRange}
    (h : CharRange.canMerge m.currentLast r.low = true) :
    m.next r = { m with currentLast := max m.currentLast r.high } := by
  rw [Merging.next, if_pos h]
  split_ifs with hgt
  · rw [max_eq_right hgt.le]
  · rw [max_eq_left (not_lt.mp hgt)]

theorem next_of_separated {m : Merging} {r : CharRange}
    (h : CharRange.canMerge m.currentLast r.low = false) :
    m.next r = ⟨m.finish, r.low, r.high⟩ := by
  rw [Merging.next, if_neg (by rw [h]; exact Bool.false_ne_true), finish]

/-- One more range, which does not start before the current one. -/
theorem Merged.next (h : Merged m) (hr : Valid r) (hle : m.currentFirst ≤ r.low) :
    Merged (m.next r) ∧ (m.next r).currentFirst ≤ r.low ∧
      cover IsScalar (m.next r).finish = cover IsScalar (m.finish ++ [r]) := by
  have hmerge := CharRange.canMerge_eq_false h.current.high hr.low
  by_cases hc : CharRange.canMerge m.currentLast r.low = true
  · have hnot : ¬ Separated IsScalar ⟨m.currentFirst, m.currentLast⟩ r := by
      intro hsep
      rw [hmerge.mpr hsep] at hc
      exact absurd hc Bool.false_ne_true
    have hv : Valid ⟨m.currentFirst, max m.currentLast r.high⟩ :=
      ⟨h.current.low, isValidUnicode_max h.current.high hr.high, h.le.trans (le_max_left _ _)⟩
    rw [next_of_mergeable hc, finish_of_le hv.le, finish_of_le h.le]
    exact ⟨replace_current h hv, hle, cover_widened hle hnot⟩
  · rw [Bool.not_eq_true] at hc
    have hsep : Separated IsScalar ⟨m.currentFirst, m.currentLast⟩ r := hmerge.mp hc
    have hfinish : (⟨m.finish, r.low, r.high⟩ : Merging).finish = m.finish ++ [r] :=
      finish_of_le hr.le
    have hnormal := h.normal
    rw [finish_of_le h.le] at hnormal
    rw [next_of_separated hc]
    refine ⟨⟨hr.le, ?_, ?_⟩, le_refl _, by rw [hfinish]⟩
    · rw [hfinish]
      intro s hs
      rcases List.mem_append.mp hs with hs | hs
      · exact h.valid s hs
      · exact List.mem_singleton.mp hs ▸ hr
    · rw [hfinish, finish_of_le h.le]
      exact hnormal.concat hr.proper hsep

theorem Merged.foldl (h : Merged m) (hs : ∀ r ∈ rs, Valid r)
    (hle : ∀ r ∈ rs, m.currentFirst ≤ r.low) (hsorted : rs.Pairwise fun r s => r.low ≤ s.low) :
    Merged (rs.foldl Merging.next m) ∧
      cover IsScalar (rs.foldl Merging.next m).finish = cover IsScalar (m.finish ++ rs) := by
  induction rs generalizing m with
  | nil => exact ⟨h, by rw [List.append_nil, List.foldl_nil]⟩
  | cons r rs ih =>
    obtain ⟨hfirst, hrest⟩ := List.pairwise_cons.mp hsorted
    obtain ⟨hnext, hlow, hcover⟩ := h.next (hs r List.mem_cons_self) (hle r List.mem_cons_self)
    obtain ⟨hend, hall⟩ := ih hnext (fun s hmem => hs s (List.mem_cons_of_mem r hmem))
      (fun s hmem => hlow.trans (hfirst s hmem)) hrest
    refine ⟨hend, hall.trans ?_⟩
    ext x
    rw [List.append_cons, mem_cover_append, mem_cover_append, hcover]

end Merging

theorem sortRanges_sorted (ranges : List CharRange) :
    (sortRanges ranges).Pairwise fun r s => r.low ≤ s.low := by
  have hpairs : (sortRanges ranges).Pairwise fun r s => (!CharRange.lt s r) = true := by
    apply List.pairwise_mergeSort
    · intro a b c hab hbc
      rw [CharRange.not_lt_iff] at hab hbc ⊢
      omega
    · intro a b
      rw [Bool.or_eq_true, CharRange.not_lt_iff, CharRange.not_lt_iff]
      omega
  apply hpairs.imp
  intro r s h
  rw [CharRange.not_lt_iff] at h
  omega

theorem mem_sortRanges {rs : List CharRange} : r ∈ sortRanges rs ↔ r ∈ rs := List.mem_mergeSort

theorem cover_sortRanges (rs : List CharRange) :
    cover IsScalar (sortRanges rs) = cover IsScalar rs := by
  ext x
  constructor
  · rintro ⟨hx, r, hr, hc⟩
    exact ⟨hx, r, mem_sortRanges.mp hr, hc⟩
  · rintro ⟨hx, r, hr, hc⟩
    exact ⟨hx, r, mem_sortRanges.mpr hr, hc⟩

/-- Normalized ranges can not be merged and have the characters of the added ones. -/
theorem normalizeRanges_normal (h : ∀ r ∈ rs, Valid r) :
    (∀ r ∈ normalizeRanges rs, Valid r) ∧ Normal IsScalar (normalizeRanges rs) ∧
      cover IsScalar (normalizeRanges rs) = cover IsScalar rs := by
  have hsorted := sortRanges_sorted rs
  have hvalid : ∀ r ∈ sortRanges rs, Valid r := fun r hr => h r (mem_sortRanges.mp hr)
  rw [← cover_sortRanges rs, normalizeRanges]
  cases hs : sortRanges rs with
  | nil => exact ⟨fun _ hr => absurd hr List.not_mem_nil, .nil, rfl⟩
  | cons front rest =>
    rw [hs] at hsorted hvalid
    obtain ⟨hfirst, hrest⟩ := List.pairwise_cons.mp hsorted
    obtain ⟨hstart, hfinish⟩ := Merging.start (hvalid front List.mem_cons_self)
    obtain ⟨hend, hcover⟩ := hstart.foldl
      (fun r hr => hvalid r (List.mem_cons_of_mem front hr)) hfirst hrest
    rw [hfinish] at hcover
    exact ⟨hend.valid, hend.normal, hcover⟩

/-- What a user of a class does before the matching. -/
inductive Call where
  | add (character : Nat)
  | addRange (first last : Nat)
  | prepareForUse

namespace Call

def apply (self : CharClass) : Call → Except RegExError CharClass
  | add character => self.add character
  | addRange first last => self.addRange first last
  | prepareForUse => self.prepareForUse

/-- The calls with valid characters. -/
def Valid : Call → Prop
  | add character => isValidUnicode character = true
  | addRange first last => isValidUnicode first = true ∧ isValidUnicode last = true
  | prepareForUse => True

instance : DecidablePred Call.Valid
  | add character => inferInstanceAs (Decidable (isValidUnicode character = true))
  | addRange first last =>
    inferInstanceAs (Decidable (isValidUnicode first = true ∧ isValidUnicode last = true))
  | prepareForUse => inferInstanceAs (Decidable True)

/-- The call adds a range with the character. -/
def Adds (c : Nat) : Call → Prop
  | add character => c = character
  | addRange first last => min first last ≤ c ∧ c ≤ max first last
  | prepareForUse => False

end Call

/-- A class after several calls. -/
def run (calls : List Call) (self : CharClass) : Except RegExError CharClass :=
  calls.foldlM Call.apply self

/-- Valid ranges with the given characters, that can not be merged when they are ready for use. -/
structure Holds (added : Nat → Prop) (cls : CharClass) : Prop where
  valid : ∀ r ∈ cls.ranges, Valid r
  normal : cls.readyForUse = true → Normal IsScalar cls.ranges
  cover_iff : ∀ c, c ∈ cover IsScalar cls.ranges ↔ IsScalar c ∧ added c

theorem Holds.congr (h : Holds added cls) (hiff : ∀ c, added c ↔ added' c) :
    Holds added' cls where
  valid := h.valid
  normal := h.normal
  cover_iff c := (h.cover_iff c).trans (and_congr_right fun _ => hiff c)

theorem Holds.append (h : Holds added cls) (hr : Valid r) :
    Holds (fun c => added c ∨ r.Contains c) { ranges := cls.ranges ++ [r], readyForUse := false } where
  valid s hs := by
    rcases List.mem_append.mp hs with hs | hs
    · exact h.valid s hs
    · exact List.mem_singleton.mp hs ▸ hr
  normal hready := absurd hready Bool.false_ne_true
  cover_iff c := by
    rw [mem_cover_append, h.cover_iff, mem_cover_cons, cover_nil, Set.mem_empty_iff_false, or_false,
      and_or_left]

theorem Holds.prepareForUse (h : Holds added cls) :
    ∃ prepared, cls.prepareForUse = .ok prepared ∧ prepared.readyForUse = true ∧
      Holds added prepared := by
  rw [CharClass.prepareForUse]
  by_cases hready : cls.readyForUse = true
  · rw [if_pos hready]
    exact ⟨cls, rfl, hready, h⟩
  · have hall : (cls.ranges.all fun range =>
        isValidUnicode range.low && isValidUnicode range.high) = true := by
      apply List.all_eq_true.mpr
      intro r hr
      rw [(h.valid r hr).low, (h.valid r hr).high, Bool.and_self]
    obtain ⟨hvalid, hnormal, hcover⟩ := normalizeRanges_normal h.valid
    rw [if_neg hready, if_pos hall]
    exact ⟨_, rfl, rfl, hvalid, fun _ => hnormal, fun c => hcover ▸ h.cover_iff c⟩

theorem Holds.apply (h : Holds added cls) (hcall : call.Valid) :
    ∃ cls', Call.apply cls call = .ok cls' ∧ Holds (fun c => added c ∨ call.Adds c) cls' := by
  cases call with
  | add character =>
    have hvalid := CharRange.ofChars_valid hcall hcall
    refine ⟨_, if_pos hcall, (h.append hvalid).congr fun c => or_congr_right ?_⟩
    rw [CharRange.ofChars_of_le (le_refl _), Call.Adds]
    exact ⟨fun hc => Nat.le_antisymm hc.2 hc.1, fun hc => ⟨hc.ge, hc.le⟩⟩
  | addRange first last =>
    have hvalid := CharRange.ofChars_valid hcall.1 hcall.2
    have hboth : (isValidUnicode first && isValidUnicode last) = true := by
      rw [hcall.1, hcall.2, Bool.and_self]
    refine ⟨_, if_pos hboth, (h.append hvalid).congr fun c => or_congr_right ?_⟩
    rw [CharRange.ofChars_eq, Call.Adds, Range.Contains]
  | prepareForUse =>
    obtain ⟨prepared, heq, -, hholds⟩ := h.prepareForUse
    exact ⟨prepared, heq, hholds.congr fun c => (or_iff_left id).symm⟩

theorem Holds.run (h : Holds added cls) (hcalls : ∀ call ∈ calls, Call.Valid call) :
    ∃ cls', run calls cls = .ok cls' ∧
      Holds (fun c => added c ∨ ∃ call ∈ calls, Call.Adds c call) cls' := by
  induction calls generalizing cls added with
  | nil => exact ⟨cls, rfl, h.congr fun c => (or_iff_left fun ⟨_, hmem, _⟩ =>
      List.not_mem_nil hmem).symm⟩
  | cons call calls ih =>
    obtain ⟨next, hnext, hholds⟩ := h.apply (hcalls call List.mem_cons_self)
    obtain ⟨last, hlast, hend⟩ := ih hholds fun other hmem =>
      hcalls other (List.mem_cons_of_mem call hmem)
    refine ⟨last, ?_, hend.congr fun c => ?_⟩
    · rw [CharClass.run, List.foldlM_cons, hnext]
      exact hlast
    · rw [or_assoc, List.exists_mem_cons_iff]

end CharClass

end ErbslandCore.Re.CharClasses
