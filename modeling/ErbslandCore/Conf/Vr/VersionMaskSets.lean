import ErbslandCore.Conf.Vr.VersionMask
import ErbslandCore.Library.RangeSets

namespace ErbslandCore.Conf
open Math NativeInteger Library.RangeSets Integer
set_option autoImplicit true

/-- The numbers that are versions. -/
def IsVersion (v : Int) : Prop := 0 ≤ v ∧ v ≤ 9223372036854775807

namespace ConfVersionRange

def span (range : ConfVersionRange) : Range Int := ⟨range.first.val, range.last.val⟩

theorem proper (range : ConfVersionRange) : Proper IsVersion range.span where
  low := ⟨range.nonneg, range.first.val_le⟩
  high := ⟨range.nonneg.trans range.ordered, range.last.val_le⟩
  le := range.ordered

theorem matchesVersion_iff (range : ConfVersionRange) (version : Integer) :
    range.matchesVersion version = true ↔ range.span.Contains version.val := by
  simp [matchesVersion, Range.Contains, span]

/-- Two ranges are not merged if a version lies between them. -/
theorem separated_iff (r s : ConfVersionRange) :
    Separated IsVersion r.span s.span ↔ r.last.val + 1 < s.first.val := by
  have hr := r.proper.high
  have hs := s.first.val_le
  constructor
  · rintro ⟨x, -, hrx, hxs⟩
    simp only [span] at hrx hxs
    omega
  · intro h
    refine ⟨r.last.val + 1, ⟨?_, ?_⟩, lt_add_one _, h⟩
    · exact (hr.1.trans (Int.le_add_one (le_refl _)))
    · exact h.le.trans hs

theorem span_ofBounds {a b : Integer} (ha : 0 ≤ a.val) (hle : a.val ≤ b.val) :
    (ofBounds a b).span = ⟨a.val, b.val⟩ := by
  simp [ofBounds, clampVersion, span, ha, hle, ha.trans hle]

end ConfVersionRange

namespace VersionMask
open ConfVersionRange

/-- The versions in some ranges. -/
def versions (ranges : List ConfVersionRange) : Set Int := cover IsVersion (ranges.map span)

/-- Sorted and disjoint ranges, with a version between any two of them. -/
def Normalized (ranges : List ConfVersionRange) : Prop := Normal IsVersion (ranges.map span)

variable {ranges a b result out : List ConfVersionRange} {cur range prev : ConfVersionRange}

theorem versions_nil : versions [] = ∅ := cover_nil

theorem mem_versions_cons :
    x ∈ versions (range :: ranges) ↔ IsVersion x ∧ range.span.Contains x ∨ x ∈ versions ranges :=
  mem_cover_cons

theorem mem_versions_append : x ∈ versions (a ++ b) ↔ x ∈ versions a ∨ x ∈ versions b := by
  rw [versions, List.map_append]
  exact mem_cover_append

theorem isVersion_of_mem (h : x ∈ versions ranges) : IsVersion x := h.1

theorem mem_versions_iff :
    x ∈ versions ranges ↔ IsVersion x ∧ ∃ range ∈ ranges, range.span.Contains x := by
  constructor
  · rintro ⟨hx, s, hs, hc⟩
    obtain ⟨range, hmem, rfl⟩ := List.mem_map.mp hs
    exact ⟨hx, range, hmem, hc⟩
  · rintro ⟨hx, range, hmem, hc⟩
    exact ⟨hx, range.span, List.mem_map_of_mem hmem, hc⟩

theorem first_mem_versions (range : ConfVersionRange) (ranges : List ConfVersionRange) :
    range.first.val ∈ versions (range :: ranges) := range.proper.low_mem _

theorem matchesVersion_iff_mem (ranges : List ConfVersionRange) (version : Integer)
    (h : 0 ≤ version.val) :
    (⟨ranges⟩ : VersionMask).matchesVersion version = true ↔ version.val ∈ versions ranges := by
  rw [matchesVersion, List.any_eq_true, mem_versions_iff]
  constructor
  · rintro ⟨range, hmem, hmatch⟩
    exact ⟨⟨h, version.val_le⟩, range, hmem, (range.matchesVersion_iff version).mp hmatch⟩
  · rintro ⟨-, range, hmem, hc⟩
    exact ⟨range, hmem, (range.matchesVersion_iff version).mpr hc⟩

namespace Normalized

theorem nil : Normalized [] := Normal.nil

theorem tail (h : Normalized (range :: ranges)) : Normalized ranges := Normal.tail h

theorem singleton (range : ConfVersionRange) : Normalized [range] :=
  ⟨fun _ hs => List.mem_singleton.mp hs ▸ range.proper, List.pairwise_singleton _ _⟩

theorem cons (h : Normalized ranges)
    (hafter : ∀ s ∈ ranges, range.last.val + 1 < s.first.val) : Normalized (range :: ranges) := by
  have hinsert := Normal.nil.insert h range.proper (fun _ hr => absurd hr List.not_mem_nil)
  apply hinsert
  intro s hs
  obtain ⟨next, hmem, rfl⟩ := List.mem_map.mp hs
  exact (separated_iff range next).mpr (hafter next hmem)

theorem head_lt (h : Normalized (range :: ranges)) (hmem : next ∈ ranges) :
    range.last.val + 1 < next.first.val :=
  (separated_iff range next).mp
    (List.rel_of_pairwise_cons h.separated (List.mem_map_of_mem hmem))

theorem last_lt (h : Normalized (range :: ranges)) (hx : x ∈ versions ranges) :
    range.last.val < x := Normal.high_lt h hx

end Normalized

theorem mem_first_le (hmem : range ∈ ranges) (hle : ∀ x ∈ versions ranges, v ≤ x) :
    v ≤ range.first.val := by
  apply hle
  exact mem_versions_iff.mpr ⟨range.proper.low, range, hmem, range.proper.contains_low⟩

section merging

theorem isAdjacent_eq (cur range : ConfVersionRange) :
    isAdjacent cur range = some (decide (range.first.val = cur.last.val + 1)) := by
  rw [isAdjacent]
  have hlast := cur.proper.high.1
  split_ifs with hmax
  · have hle : cur.last.val + 1 ≤ 9223372036854775807 := by
      rw [lt_iff, maxInt_val] at hmax
      omega
    have hlow : 0 ≤ cur.last.val + 1 := by
      have hsame : cur.span.high = cur.last.val := rfl
      omega
    obtain ⟨next, hnext, hval⟩ := checked_eq hlow hle
    rw [hnext]
    have hiff : range.first = next ↔ range.first.val = cur.last.val + 1 := by
      rw [Math.Value.ext_iff, hval]
    exact congrArg some (decide_eq_decide.mpr hiff)
  · have hne : ¬ range.first.val = cur.last.val + 1 := by
      have hle := range.first.val_le
      rw [lt_iff, maxInt_val] at hmax
      omega
    rw [decide_eq_false hne]

/-- Merging ranges in the order of their first versions keeps all versions. -/
theorem mergeFrom_spec (hsorted : (cur :: ranges).Pairwise fun r s => r.first ≤ s.first) :
    ∃ out, mergeFrom cur ranges = some out ∧ Normalized out ∧
      versions out = versions (cur :: ranges) ∧ ∀ r ∈ out, cur.first ≤ r.first := by
  induction ranges generalizing cur with
  | nil =>
    refine ⟨[cur], rfl, .singleton cur, rfl, fun r hr => ?_⟩
    rw [List.mem_singleton.mp hr]
  | cons range ranges ih =>
    have hfirst : cur.first ≤ range.first := List.rel_of_pairwise_cons hsorted List.mem_cons_self
    have hrange := hsorted.of_cons
    rw [mergeFrom, isAdjacent_eq]
    simp only [Option.bind_eq_bind, Option.bind_some]
    by_cases hmerge : range.first.val ≤ cur.last.val + 1
    · have hcond : (decide (range.first ≤ cur.last) ||
          decide (range.first.val = cur.last.val + 1)) = true := by
        rw [Bool.or_eq_true, decide_eq_true_eq, decide_eq_true_eq, le_iff]
        omega
      rw [if_pos hcond]
      have hsorted' : (cur.extended range.last :: ranges).Pairwise
          fun r s => r.first ≤ s.first := by
        refine List.pairwise_cons.mpr ⟨fun s hs => ?_, hrange.of_cons⟩
        exact List.rel_of_pairwise_cons hsorted (List.mem_cons_of_mem _ hs)
      obtain ⟨out, hout, hnormal, hversions, hle⟩ := ih hsorted'
      refine ⟨out, hout, hnormal, ?_, hle⟩
      have hsep : ¬ Separated IsVersion cur.span range.span := by
        rw [separated_iff]
        exact Int.not_lt.mpr hmerge
      have hspan : (cur.extended range.last).span =
          ⟨cur.span.low, max cur.span.high range.span.high⟩ := by
        simp [span, extended]
      rw [hversions]
      ext x
      rw [mem_versions_cons, mem_versions_cons, mem_versions_cons, hspan, ← or_assoc,
        ← and_or_left]
      exact or_congr_left (and_congr_right fun hx => contains_around_iff hx hfirst hsep)
    · have hcond : ¬ (decide (range.first ≤ cur.last) ||
          decide (range.first.val = cur.last.val + 1)) = true := by
        rw [Bool.or_eq_true, decide_eq_true_eq, decide_eq_true_eq, le_iff]
        omega
      rw [if_neg hcond]
      obtain ⟨out, hout, hnormal, hversions, hle⟩ := ih hrange
      rw [hout]
      refine ⟨cur :: out, rfl, hnormal.cons fun s hs => ?_, ?_, fun r hr => ?_⟩
      · have hstart := le_iff.mp (hle s hs)
        omega
      · ext x
        rw [mem_versions_cons, hversions, ← mem_versions_cons]
      · rcases List.mem_cons.mp hr with rfl | hr
        · exact le_refl _
        · exact hfirst.trans (hle r hr)

theorem lessStartThenEnd_eq_false {r s : ConfVersionRange} (h : lessStartThenEnd s r = false) :
    r.first ≤ s.first := by
  rw [lessStartThenEnd, Bool.or_eq_false_iff] at h
  exact not_lt.mp (of_decide_eq_false h.1)

theorem lessStartThenEnd_total (a b : ConfVersionRange) :
    lessStartThenEnd b a = false ∨ lessStartThenEnd a b = false := by
  simp only [lessStartThenEnd, Bool.or_eq_false_iff, Bool.and_eq_false_iff,
    decide_eq_false_iff_not]
  grind

/-- Normalization never overflows and keeps all versions. -/
theorem normalize_spec (ranges : List ConfVersionRange) :
    ∃ out, normalize ranges = some out ∧ Normalized out ∧ versions out = versions ranges := by
  have htrans : ∀ a b c : ConfVersionRange, (!lessStartThenEnd b a) = true →
      (!lessStartThenEnd c b) = true → (!lessStartThenEnd c a) = true := by
    intro a b c
    simp only [lessStartThenEnd, Bool.not_eq_true', Bool.or_eq_false_iff, Bool.and_eq_false_iff,
      decide_eq_false_iff_not]
    grind
  have htotal : ∀ a b : ConfVersionRange,
      (!lessStartThenEnd b a || !lessStartThenEnd a b) = true := by
    intro a b
    rcases lessStartThenEnd_total a b with h | h
    · rw [h]
      rfl
    · rw [h, Bool.not_false, Bool.or_true]
  have hsorted := List.pairwise_mergeSort htrans htotal ranges
  have hperm := List.mergeSort_perm ranges fun a b => !lessStartThenEnd b a
  have hsame : versions (ranges.mergeSort fun a b => !lessStartThenEnd b a) = versions ranges := by
    ext x
    simp only [mem_versions_iff, hperm.mem_iff]
  rw [normalize]
  generalize ranges.mergeSort (fun a b => !lessStartThenEnd b a) = sorted at *
  cases sorted with
  | nil => exact ⟨[], rfl, .nil, hsame⟩
  | cons cur sorted =>
    have hfirst : (cur :: sorted).Pairwise fun r s => r.first ≤ s.first := by
      apply hsorted.imp
      intro r s h
      rw [Bool.not_eq_true'] at h
      exact lessStartThenEnd_eq_false h
    obtain ⟨out, hout, hnormal, hversions, -⟩ := mergeFrom_spec hfirst
    exact ⟨out, hout, hnormal, hversions.trans hsame⟩

end merging

section sweeping

/-- The parts that were found, and that those left to find come after them. -/
structure Found (result a b : List ConfVersionRange) : Prop where
  normalized : Normalized result
  after : ∀ back, result.getLast? = some back →
    ∀ x ∈ versions a, x ∈ versions b → back.last.val < x

theorem span_extended_of_le {r : ConfVersionRange} {v : Integer} (h : r.last ≤ v) :
    (r.extended v).span = ⟨r.first.val, v.val⟩ := by
  simp [span, extended, le_iff.mp h]

/-- The next common part comes after those found before; the sum with one does not overflow. -/
theorem appendPart_spec {start last : Integer} (h : Normalized result) (hstart : 0 ≤ start.val)
    (hle : start.val ≤ last.val)
    (hafter : ∀ back, result.getLast? = some back → back.last.val < start.val) :
    ∃ out, appendPart result start last = some out ∧ Normalized out ∧
      (∀ x, x ∈ versions out ↔
        x ∈ versions result ∨ IsVersion x ∧ start.val ≤ x ∧ x ≤ last.val) ∧
      ∀ back, out.getLast? = some back → back.last.val = last.val := by
  have hpart := span_ofBounds hstart hle
  have hlast : (ofBounds start last).last.val = last.val := congrArg Range.high hpart
  have hfirst : (ofBounds start last).first.val = start.val := congrArg Range.low hpart
  have hmem (x : Int) (front : List ConfVersionRange) :
      x ∈ versions (front ++ [ofBounds start last]) ↔
        x ∈ versions front ∨ IsVersion x ∧ start.val ≤ x ∧ x ≤ last.val := by
    rw [mem_versions_append, mem_versions_cons, versions_nil, hpart]
    simp [Range.Contains]
  rcases List.eq_nil_or_concat result with rfl | ⟨front, back, rfl⟩
  · refine ⟨[ofBounds start last], rfl, .singleton _, fun x => hmem x [], ?_⟩
    intro back hback
    cases hback
    exact hlast
  · rw [List.concat_eq_append] at *
    have hback := hafter back List.getLast?_concat
    have hlow := back.proper.high.1
    have hhigh := start.val_le
    have hsame : back.span.high = back.last.val := rfl
    obtain ⟨next, hnext, hval⟩ := checked_eq (show 0 ≤ back.last.val + 1 by omega) (by omega)
    rw [appendPart, List.getLast?_concat]
    simp only [hnext, Option.bind_eq_bind, Option.bind_some, List.dropLast_concat]
    have hnormal : Normal IsVersion (front.map span ++ [back.span]) := by
      have hsplit := h
      rw [Normalized, List.map_append] at hsplit
      exact hsplit
    by_cases hmerge : start ≤ next
    · rw [if_pos hmerge]
      have hspan : (back.extended last).span = ⟨back.first.val, last.val⟩ :=
        span_extended_of_le (le_iff.mpr (by omega))
      refine ⟨_, rfl, ?_, fun x => ?_, fun range hrange => ?_⟩
      · rw [Normalized, List.map_append]
        exact hnormal.replace_last (back.extended last).proper rfl
      · rw [mem_versions_append, mem_versions_append, mem_versions_cons, mem_versions_cons,
          versions_nil, hspan]
        have heq : start.val = back.last.val + 1 := by
          rw [le_iff, hval] at hmerge
          omega
        have hordered := back.ordered
        simp only [Range.Contains, span, Set.mem_empty_iff_false, or_false]
        grind
      · rw [List.getLast?_concat] at hrange
        cases hrange
        exact congrArg Range.high hspan
    · rw [if_neg hmerge]
      refine ⟨_, rfl, ?_, fun x => hmem x _, fun range hrange => ?_⟩
      · rw [Normalized, List.map_append, List.map_append]
        apply hnormal.concat (ofBounds start last).proper
        rw [separated_iff, hfirst]
        rw [le_iff, hval] at hmerge
        omega
      · rw [List.getLast?_concat] at hrange
        cases hrange
        exact hlast

theorem sweep_nil_left (result b : List ConfVersionRange) : sweep result [] b = some result := by
  rw [sweep]
  rintro _ _ _ _ ⟨⟩

theorem sweep_nil_right (result a : List ConfVersionRange) : sweep result a [] = some result := by
  cases a with
  | nil => exact sweep_nil_left result []
  | cons ra a =>
    rw [sweep]
    rintro _ _ _ _ _ ⟨⟩

/-- What one turn adds for two ranges, and that later common versions come after it. -/
theorem addOverlap_spec {ra rb : ConfVersionRange} (h : Found result (ra :: a) (rb :: b)) :
    ∃ next, addOverlap result ra rb = some next ∧ Normalized next ∧
      (∀ x, x ∈ versions next ↔
        x ∈ versions result ∨ IsVersion x ∧ ra.span.Contains x ∧ rb.span.Contains x) ∧
      ∀ back, next.getLast? = some back → ∀ x ∈ versions (ra :: a), x ∈ versions (rb :: b) →
        min ra.last.val rb.last.val < x → back.last.val < x := by
  have hra := ra.ordered
  have hrb := rb.ordered
  have hcontains (x : Int) : ra.span.Contains x ∧ rb.span.Contains x ↔
      max ra.first.val rb.first.val ≤ x ∧ x ≤ min ra.last.val rb.last.val := by
    simp only [Range.Contains, span]
    omega
  simp only [addOverlap]
  by_cases hle : max ra.first rb.first ≤ min ra.last rb.last
  · rw [if_pos hle]
    rw [le_iff, max_val, min_val] at hle
    have hnonneg : 0 ≤ (max ra.first rb.first).val := by
      rw [max_val]
      exact ra.nonneg.trans (le_max_left _ _)
    have hordered : (max ra.first rb.first).val ≤ (min ra.last rb.last).val := by
      rw [max_val, min_val]
      exact hle
    have hstart : IsVersion (max ra.first.val rb.first.val) := by
      rw [← max_val]
      exact ⟨hnonneg, (max ra.first rb.first).val_le⟩
    obtain ⟨hina, hinb⟩ := (hcontains _).mpr ⟨le_refl _, hle⟩
    have hafter : ∀ back, result.getLast? = some back →
        back.last.val < (max ra.first rb.first).val := by
      intro back hback
      rw [max_val]
      exact h.after back hback _ (mem_versions_cons.mpr (.inl ⟨hstart, hina⟩))
        (mem_versions_cons.mpr (.inl ⟨hstart, hinb⟩))
    obtain ⟨next, hnext, hnormal, hversions, hback⟩ :=
      appendPart_spec h.normalized hnonneg hordered hafter
    refine ⟨next, hnext, hnormal, fun x => ?_, fun back hlast x _ _ hlt => ?_⟩
    · rw [hversions, hcontains, max_val, min_val]
    · rw [hback back hlast, min_val]
      exact hlt
  · rw [if_neg hle]
    rw [le_iff, max_val, min_val] at hle
    refine ⟨result, rfl, h.normalized, fun x => ?_, fun back hlast x hxa hxb _ => ?_⟩
    · rw [hcontains]
      constructor
      · exact .inl
      · rintro (hx | ⟨-, hx⟩)
        · exact hx
        · exact absurd (hx.1.trans hx.2) hle
    · exact h.after back hlast x hxa hxb

/-- The sweep finds exactly the common versions of two normalized lists. -/
theorem sweep_spec (ha : Normalized a) (hb : Normalized b) (h : Found result a b) :
    ∃ out, sweep result a b = some out ∧ Normalized out ∧
      ∀ x, x ∈ versions out ↔ x ∈ versions result ∨ x ∈ versions a ∧ x ∈ versions b := by
  induction hsize : a.length + b.length generalizing result a b with
  | zero =>
    obtain rfl := List.eq_nil_of_length_eq_zero (Nat.eq_zero_of_add_eq_zero_right hsize)
    refine ⟨result, sweep_nil_left result b, h.normalized, fun x => ?_⟩
    simp [versions_nil]
  | succ n ih =>
    cases a with
    | nil =>
      refine ⟨result, sweep_nil_left result b, h.normalized, fun x => ?_⟩
      simp [versions_nil]
    | cons ra a =>
      cases b with
      | nil =>
        refine ⟨result, sweep_nil_right result _, h.normalized, fun x => ?_⟩
        simp [versions_nil]
      | cons rb b =>
        obtain ⟨next, hnext, hnormal, hversions, hback⟩ := addOverlap_spec h
        rw [sweep]
        simp only [hnext, Option.bind_eq_bind, Option.bind_some]
        rw [List.length_cons, List.length_cons] at hsize
        by_cases hlt : ra.last < rb.last
        · rw [if_pos hlt]
          rw [lt_iff] at hlt
          have hfound : Found next a (rb :: b) := ⟨hnormal, fun back hlast x hxa hxb => by
            have hgt := ha.last_lt hxa
            exact hback back hlast x (mem_versions_cons.mpr (.inr hxa)) hxb (by omega)⟩
          obtain ⟨out, hout, hnormal', hversions'⟩ :=
            ih ha.tail hb hfound (by rw [List.length_cons]; omega)
          refine ⟨out, hout, hnormal', fun x => ?_⟩
          -- The range that ends first has nothing in common with the ranges after the other one.
          have hnone : ra.span.Contains x → x ∉ versions b := by
            intro hc hx
            have hgt := hb.last_lt hx
            exact absurd (hlt.trans hgt) (Int.not_lt.mpr hc.2)
          rw [hversions', hversions, mem_versions_cons, mem_versions_cons]
          tauto
        · rw [if_neg hlt]
          rw [lt_iff] at hlt
          have hfound : Found next (ra :: a) b := ⟨hnormal, fun back hlast x hxa hxb => by
            have hgt := hb.last_lt hxb
            exact hback back hlast x hxa (mem_versions_cons.mpr (.inr hxb)) (by omega)⟩
          obtain ⟨out, hout, hnormal', hversions'⟩ :=
            ih ha hb.tail hfound (by rw [List.length_cons]; omega)
          refine ⟨out, hout, hnormal', fun x => ?_⟩
          have hnone : rb.span.Contains x → x ∉ versions a := by
            intro hc hx
            have hgt := ha.last_lt hx
            have hle : x ≤ rb.last.val := hc.2
            omega
          rw [hversions', hversions, mem_versions_cons, mem_versions_cons]
          tauto

end sweeping

section complementing

theorem gapBefore_spec (range : ConfVersionRange) :
    ∃ gaps, gapBefore range = some gaps ∧
      gaps.map span = if 0 < range.first.val then [⟨0, range.first.val - 1⟩] else [] := by
  have hle := range.first.val_le
  rw [gapBefore]
  by_cases hpos : range.first > zero
  · have hpos' : 0 < range.first.val := hpos
    obtain ⟨gapEnd, hend, hval⟩ :=
      checked_eq (show 0 ≤ range.first.val - 1 by omega) (by omega)
    have hspan : (ofBounds zero gapEnd).span = ⟨0, range.first.val - 1⟩ := by
      rw [span_ofBounds (le_refl _) (by rw [zero_val]; omega), zero_val, hval]
    rw [if_pos hpos, if_pos hpos', hend]
    exact ⟨_, rfl, congrArg (fun r => [r]) hspan⟩
  · have hpos' : ¬ 0 < range.first.val := hpos
    rw [if_neg hpos, if_neg hpos']
    exact ⟨[], rfl, rfl⟩

theorem gapAfter_spec (range : ConfVersionRange) :
    ∃ gaps, gapAfter range = some gaps ∧
      gaps.map span = if range.last.val < 9223372036854775807 then
        [⟨range.last.val + 1, 9223372036854775807⟩] else [] := by
  have hlow : 0 ≤ range.last.val := range.proper.high.1
  rw [gapAfter]
  by_cases hmax : range.last < maxInt
  · have hmax' : range.last.val < 9223372036854775807 := hmax
    obtain ⟨gapStart, hstart, hval⟩ :=
      checked_eq (show 0 ≤ range.last.val + 1 by omega) (by omega)
    have hspan : (ofBounds gapStart maxInt).span =
        ⟨range.last.val + 1, 9223372036854775807⟩ := by
      rw [span_ofBounds (by omega) (by rw [maxInt_val]; omega), maxInt_val, hval]
    rw [if_pos hmax, if_pos hmax', hstart]
    exact ⟨_, rfl, congrArg (fun r => [r]) hspan⟩
  · have hmax' : ¬ range.last.val < 9223372036854775807 := hmax
    rw [if_neg hmax, if_neg hmax']
    exact ⟨[], rfl, rfl⟩

theorem single_of_map_span (h : ranges.map span = [s]) :
    ∃ range, ranges = [range] ∧ range.span = s := by
  cases ranges with
  | nil => exact absurd h nofun
  | cons range ranges =>
    obtain ⟨hspan, hnil⟩ := List.cons.inj h
    rw [List.map_eq_nil_iff.mp hnil]
    exact ⟨range, rfl, hspan⟩

/-- The gaps of normalized ranges, from the end of the first one on. -/
theorem gapsBetween_spec (h : Normalized (prev :: ranges)) :
    ∃ between back, gapsBetween prev ranges = some between ∧
      gapAfter ((prev :: ranges).getLast (List.cons_ne_nil _ _)) = some back ∧
      Normalized (between ++ back) ∧
      (∀ gap ∈ between ++ back, prev.last.val < gap.first.val) ∧
      ∀ x, x ∈ versions (between ++ back) ↔
        IsVersion x ∧ prev.last.val < x ∧ x ∉ versions ranges := by
  induction ranges generalizing prev with
  | nil =>
    obtain ⟨back, hback, hspan⟩ := gapAfter_spec prev
    have hlow : 0 ≤ prev.last.val := prev.proper.high.1
    refine ⟨[], back, rfl, hback, ?_⟩
    rw [List.nil_append]
    split_ifs at hspan with hmax
    · obtain ⟨gap, rfl, hgap⟩ := single_of_map_span hspan
      have hfirst : gap.first.val = prev.last.val + 1 := congrArg Range.low hgap
      refine ⟨.singleton gap, fun g hg => ?_, fun x => ?_⟩
      · rw [List.mem_singleton.mp hg, hfirst]
        exact lt_add_one _
      · rw [mem_versions_cons, versions_nil, hgap]
        simp only [Range.Contains, IsVersion, Set.mem_empty_iff_false, or_false, not_false_eq_true]
        grind
    · rw [List.map_eq_nil_iff.mp hspan]
      refine ⟨.nil, fun g hg => absurd hg List.not_mem_nil, fun x => ?_⟩
      simp only [versions_nil, IsVersion, Set.mem_empty_iff_false]
      grind
  | cons cur ranges ih =>
    obtain ⟨between, back, hbetween, hback, hnormal, hfirst, hversions⟩ := ih h.tail
    have hlow : 0 ≤ prev.last.val := prev.proper.high.1
    have hgt := h.head_lt (List.mem_cons_self)
    have hle := cur.first.val_le
    have hordered := cur.ordered
    have hmax : prev.last ≠ maxInt := by
      intro heq
      rw [heq, maxInt_val] at hgt
      omega
    obtain ⟨gapStart, hstart, hstartVal⟩ :=
      checked_eq (show 0 ≤ prev.last.val + 1 by omega) (by omega)
    obtain ⟨gapEnd, hend, hendVal⟩ :=
      checked_eq (show 0 ≤ cur.first.val - 1 by omega) (by omega)
    have hopen : gapStart ≤ gapEnd := by
      rw [le_iff]
      omega
    have hgap : (ofBounds gapStart gapEnd).span = ⟨prev.last.val + 1, cur.first.val - 1⟩ := by
      rw [span_ofBounds (by omega) (by omega), hstartVal, hendVal]
    have hgapFirst : (ofBounds gapStart gapEnd).first.val = prev.last.val + 1 :=
      congrArg Range.low hgap
    have hgapLast : (ofBounds gapStart gapEnd).last.val = cur.first.val - 1 :=
      congrArg Range.high hgap
    refine ⟨ofBounds gapStart gapEnd :: between, back, ?_, ?_, ?_, fun g hg => ?_, fun x => ?_⟩
    · rw [gapsBetween, if_neg hmax, hstart, hend, hbetween]
      simp only [Option.bind_eq_bind, Option.bind_some, if_pos hopen]
      rfl
    · rw [List.getLast_cons (List.cons_ne_nil _ _)]
      exact hback
    · apply hnormal.cons
      intro s hs
      have hlater := hfirst s hs
      omega
    · rcases List.mem_cons.mp hg with rfl | hg
      · omega
      · have hlater := hfirst g hg
        omega
    · have hrest : x ∈ versions ranges → cur.last.val < x := fun hx => h.tail.last_lt hx
      rw [List.cons_append, mem_versions_cons, hversions, mem_versions_cons, hgap]
      simp only [Range.Contains, span]
      grind

end complementing

section masks

/-- A mask of normalized ranges for a set of versions. -/
structure Denotes (mask : VersionMask) (values : Set Int) : Prop where
  normalized : Normalized mask.ranges
  versions_eq : versions mask.ranges = values

theorem versions_all : versions [ConfVersionRange.all] = {x | IsVersion x} := by
  have hspan : ConfVersionRange.all.span = ⟨0, 9223372036854775807⟩ := by decide
  ext x
  rw [mem_versions_cons, versions_nil, hspan]
  exact ⟨fun h => h.elim And.left (absurd · (Set.notMem_empty x)), fun h => .inl ⟨h, h⟩⟩

theorem denotes_any : Denotes {} {x | IsVersion x} := ⟨.singleton _, versions_all⟩

theorem denotes_empty : Denotes empty ∅ := ⟨.nil, versions_nil⟩

theorem span_injective : Function.Injective span := by
  intro r s h
  have hfirst : r.first.val = s.first.val := congrArg Range.low h
  have hlast : r.last.val = s.last.val := congrArg Range.high h
  cases r
  cases s
  simp_all [Math.Value.ext_iff]

variable {mask other : VersionMask} {v w : Set Int}

/-- A normalized mask is empty exactly if it matches no version. -/
theorem Denotes.isEmpty_iff (h : Denotes mask v) : mask.isEmpty = true ↔ v = ∅ := by
  rw [← h.versions_eq, isEmpty]
  cases mask.ranges with
  | nil => exact iff_of_true rfl versions_nil
  | cons range ranges =>
    refine iff_of_false Bool.false_ne_true fun hempty => ?_
    have hmem := first_mem_versions range ranges
    rw [hempty] at hmem
    exact Set.notMem_empty _ hmem

theorem isAny_iff_ranges : mask.isAny = true ↔ mask.ranges = [ConfVersionRange.all] := by
  rw [isAny]
  split
  case h_1 range heq =>
    rw [heq, Bool.and_eq_true, decide_eq_true_eq, decide_eq_true_eq, List.singleton_inj,
      ← span_injective.eq_iff]
    have hspan : ConfVersionRange.all.span = ⟨0, 9223372036854775807⟩ := by decide
    rw [hspan, Range.ext_iff, Math.Value.ext_iff, Math.Value.ext_iff]
    exact Iff.rfl
  case h_2 hnot =>
    refine iff_of_false Bool.false_ne_true fun heq => hnot _ heq

/-- A normalized mask has the one full range exactly if it matches every version. -/
theorem Denotes.isAny_iff (h : Denotes mask v) : mask.isAny = true ↔ v = {x | IsVersion x} := by
  rw [isAny_iff_ranges, ← h.versions_eq]
  constructor
  · intro heq
    rw [heq, versions_all]
  · intro heq
    have hall : Normalized [ConfVersionRange.all] := .singleton _
    have hsame : versions mask.ranges = versions [ConfVersionRange.all] := by
      rw [heq, versions_all]
    exact span_injective.list_map (h.normalized.unique hall hsame)

theorem Denotes.subset (h : Denotes mask v) : v ⊆ {x | IsVersion x} := by
  rw [← h.versions_eq]
  exact fun x hx => isVersion_of_mem hx

theorem fromRanges_denotes (values : List ConfVersionRange) :
    ∃ mask, fromRanges values = some mask ∧ Denotes mask (versions values) := by
  obtain ⟨out, hout, hnormal, hversions⟩ := normalize_spec values
  rw [fromRanges, hout]
  exact ⟨⟨out⟩, rfl, hnormal, hversions⟩

theorem unionWith_denotes (h : Denotes mask v) (h' : Denotes other w) :
    ∃ result, mask.unionWith other = some result ∧ Denotes result (v ∪ w) := by
  rw [unionWith]
  split_ifs with hany hempty hempty'
  · refine ⟨{}, rfl, denotes_any.normalized, ?_⟩
    rw [denotes_any.versions_eq]
    rcases (Bool.or_eq_true _ _).mp hany with hany | hany
    · rw [h.isAny_iff.mp hany, Set.union_eq_left.mpr h'.subset]
    · rw [h'.isAny_iff.mp hany, Set.union_eq_right.mpr h.subset]
  · rw [h.isEmpty_iff.mp hempty, Set.empty_union]
    exact ⟨other, rfl, h'⟩
  · rw [h'.isEmpty_iff.mp hempty', Set.union_empty]
    exact ⟨mask, rfl, h⟩
  · obtain ⟨out, hout, hnormal, hversions⟩ := normalize_spec (mask.ranges ++ other.ranges)
    rw [hout]
    refine ⟨⟨out⟩, rfl, hnormal, ?_⟩
    ext x
    rw [hversions, mem_versions_append, h.versions_eq, h'.versions_eq]
    exact Iff.rfl

theorem intersectionWith_denotes (h : Denotes mask v) (h' : Denotes other w) :
    ∃ result, mask.intersectionWith other = some result ∧ Denotes result (v ∩ w) := by
  rw [intersectionWith]
  split_ifs with hempty hany hany'
  · refine ⟨empty, rfl, .nil, ?_⟩
    rw [denotes_empty.versions_eq]
    rcases (Bool.or_eq_true _ _).mp hempty with hempty | hempty
    · rw [h.isEmpty_iff.mp hempty, Set.empty_inter]
    · rw [h'.isEmpty_iff.mp hempty, Set.inter_empty]
  · rw [h.isAny_iff.mp hany, Set.inter_eq_right.mpr h'.subset]
    exact ⟨other, rfl, h'⟩
  · rw [h'.isAny_iff.mp hany', Set.inter_eq_left.mpr h.subset]
    exact ⟨mask, rfl, h⟩
  · obtain ⟨a, ha, hnormal, hversions⟩ := normalize_spec mask.ranges
    obtain ⟨b, hb, hnormal', hversions'⟩ := normalize_spec other.ranges
    obtain ⟨out, hout, hnormalOut, hmem⟩ := sweep_spec hnormal hnormal'
      (⟨.nil, fun _ hback => nomatch hback⟩ : Found [] a b)
    rw [ha, hb]
    simp only [Option.bind_eq_bind, Option.bind_some, hout]
    refine ⟨⟨out⟩, rfl, hnormalOut, ?_⟩
    ext x
    rw [hmem, versions_nil, hversions, hversions', h.versions_eq, h'.versions_eq]
    exact ⟨fun hx => hx.elim (absurd · (Set.notMem_empty x)) id, .inr⟩

theorem complement_denotes (h : Denotes mask v) :
    ∃ result, mask.complement = some result ∧ Denotes result {x | IsVersion x ∧ x ∉ v} := by
  rw [complement]
  split_ifs with hany
  · refine ⟨empty, rfl, .nil, ?_⟩
    rw [h.isAny_iff.mp hany, denotes_empty.versions_eq]
    ext x
    simp
  · obtain ⟨hnormal, rfl⟩ := h
    cases hranges : mask.ranges with
    | nil =>
      refine ⟨⟨[.all]⟩, rfl, .singleton _, ?_⟩
      rw [versions_all, versions_nil]
      ext x
      simp
    | cons range ranges =>
      rw [hranges] at hnormal
      obtain ⟨front, hfront, hspan⟩ := gapBefore_spec range
      obtain ⟨between, back, hbetween, hback, hgaps, hfirst, hversions⟩ :=
        gapsBetween_spec hnormal
      simp only [hfront, hbetween, hback, Option.bind_eq_bind, Option.bind_some]
      refine ⟨⟨front ++ between ++ back⟩, rfl, ?_⟩
      have hordered := range.ordered
      have hnonneg := range.nonneg
      rw [List.append_assoc]
      generalize between ++ back = gaps at *
      have hafter : ∀ x, x ∈ versions ranges → range.last.val < x := fun x hx => hnormal.last_lt hx
      split_ifs at hspan with hpos
      · obtain ⟨gap, rfl, hgap⟩ := single_of_map_span hspan
        have hgapLast : gap.last.val = range.first.val - 1 := congrArg Range.high hgap
        constructor
        · apply hgaps.cons
          intro s hs
          have hlater := hfirst s hs
          omega
        · ext x
          rw [mem_versions_append, mem_versions_cons, versions_nil, hversions, hgap]
          simp only [Set.mem_ofPred_eq, mem_versions_cons, Range.Contains, IsVersion, span]
          have hx := hafter x
          grind
      · rw [List.map_eq_nil_iff.mp hspan]
        refine ⟨hgaps, ?_⟩
        ext x
        rw [List.nil_append, hversions]
        simp only [Set.mem_ofPred_eq, mem_versions_cons, Range.Contains, IsVersion, span]
        have hx := hafter x
        grind

end masks

/-- Operations on masks, built from versions and ranges. -/
inductive Expression where
  | any
  | empty
  | ofVersion (version : Integer)
  | ofRange (first last : Integer)
  | fromRanges (values : List (Integer × Integer))
  | fromIntegers (values : List Integer)
  | unionWith (mask other : Expression)
  | intersectionWith (mask other : Expression)
  | complement (mask : Expression)

/-- A negative number stands for the version zero. -/
def versionOf (v : Integer) : Int := max v.val 0

/-- The versions between two ends, in any order. -/
def versionsBetween (first last : Integer) : Set Int :=
  {x | min (versionOf first) (versionOf last) ≤ x ∧ x ≤ max (versionOf first) (versionOf last)}

namespace Expression

def eval : Expression → Option VersionMask
  | any => some {}
  | empty => some .empty
  | ofVersion version => some ⟨[.ofValue version]⟩
  | ofRange first last => some ⟨[.ofBounds first last]⟩
  | fromRanges values => VersionMask.fromRanges (values.map fun r => .ofBounds r.1 r.2)
  | fromIntegers values => VersionMask.fromIntegers values
  | unionWith mask other => do (← mask.eval).unionWith (← other.eval)
  | intersectionWith mask other => do (← mask.eval).intersectionWith (← other.eval)
  | complement mask => do (← mask.eval).complement

/-- The set of versions that an expression stands for. -/
def values : Expression → Set Int
  | any => {x | IsVersion x}
  | empty => ∅
  | ofVersion version => {versionOf version}
  | ofRange first last => versionsBetween first last
  | fromRanges values => {x | ∃ r ∈ values, x ∈ versionsBetween r.1 r.2}
  | fromIntegers values => {x | ∃ v ∈ values, x = versionOf v}
  | unionWith mask other => mask.values ∪ other.values
  | intersectionWith mask other => mask.values ∩ other.values
  | complement mask => {x | IsVersion x ∧ x ∉ mask.values}

end Expression

section expressions

theorem isVersion_versionOf (v : Integer) : IsVersion (versionOf v) := by
  refine ⟨le_max_right _ _, max_le v.val_le ?_⟩
  decide

theorem span_ofValue (v : Integer) :
    (ConfVersionRange.ofValue v).span = ⟨versionOf v, versionOf v⟩ := by
  simp [ofValue, clampVersion, span, versionOf]

theorem span_ofBounds_any (first last : Integer) : (ConfVersionRange.ofBounds first last).span =
    ⟨min (versionOf first) (versionOf last), max (versionOf first) (versionOf last)⟩ := by
  simp [ofBounds, clampVersion, span, versionOf]

theorem mem_versionsBetween (first last : Integer) (x : Int) :
    IsVersion x ∧ (ConfVersionRange.ofBounds first last).span.Contains x ↔
      x ∈ versionsBetween first last := by
  have hfirst := isVersion_versionOf first
  have hlast := isVersion_versionOf last
  rw [span_ofBounds_any]
  simp only [Range.Contains, versionsBetween, IsVersion, Set.mem_ofPred_eq] at *
  omega

theorem mem_versionOf (v : Integer) (x : Int) :
    IsVersion x ∧ (ConfVersionRange.ofValue v).span.Contains x ↔ x = versionOf v := by
  have hv := isVersion_versionOf v
  rw [span_ofValue]
  simp only [Range.Contains, IsVersion] at *
  omega

theorem eval_denotes (e : Expression) : ∃ mask, e.eval = some mask ∧ Denotes mask e.values := by
  induction e with
  | any => exact ⟨{}, rfl, denotes_any⟩
  | empty => exact ⟨empty, rfl, denotes_empty⟩
  | ofVersion version =>
    refine ⟨_, rfl, .singleton _, ?_⟩
    ext x
    rw [mem_versions_cons, versions_nil, mem_versionOf]
    exact ⟨fun h => h.elim id (absurd · (Set.notMem_empty x)), .inl⟩
  | ofRange first last =>
    refine ⟨_, rfl, .singleton _, ?_⟩
    ext x
    rw [mem_versions_cons, versions_nil, mem_versionsBetween]
    exact ⟨fun h => h.elim id (absurd · (Set.notMem_empty x)), .inl⟩
  | fromRanges values =>
    obtain ⟨mask, hmask, hnormal, hversions⟩ :=
      fromRanges_denotes (values.map fun r => .ofBounds r.1 r.2)
    refine ⟨mask, hmask, hnormal, ?_⟩
    rw [hversions]
    ext x
    rw [mem_versions_iff]
    constructor
    · rintro ⟨hx, range, hmem, hc⟩
      obtain ⟨r, hr, rfl⟩ := List.mem_map.mp hmem
      exact ⟨r, hr, (mem_versionsBetween _ _ x).mp ⟨hx, hc⟩⟩
    · rintro ⟨r, hr, hx⟩
      obtain ⟨hversion, hc⟩ := (mem_versionsBetween _ _ x).mpr hx
      exact ⟨hversion, _, List.mem_map_of_mem hr, hc⟩
  | fromIntegers values =>
    obtain ⟨mask, hmask, hnormal, hversions⟩ := fromRanges_denotes (values.map .ofValue)
    refine ⟨mask, hmask, hnormal, ?_⟩
    rw [hversions]
    ext x
    rw [mem_versions_iff]
    constructor
    · rintro ⟨hx, range, hmem, hc⟩
      obtain ⟨v, hv, rfl⟩ := List.mem_map.mp hmem
      exact ⟨v, hv, (mem_versionOf v x).mp ⟨hx, hc⟩⟩
    · rintro ⟨v, hv, hx⟩
      obtain ⟨hversion, hc⟩ := (mem_versionOf v x).mpr hx
      exact ⟨hversion, _, List.mem_map_of_mem hv, hc⟩
  | unionWith mask other ih ih' =>
    obtain ⟨m, hm, hdenotes⟩ := ih
    obtain ⟨o, ho, hdenotes'⟩ := ih'
    obtain ⟨result, hresult, h⟩ := unionWith_denotes hdenotes hdenotes'
    refine ⟨result, ?_, h⟩
    rw [Expression.eval, hm, ho]
    exact hresult
  | intersectionWith mask other ih ih' =>
    obtain ⟨m, hm, hdenotes⟩ := ih
    obtain ⟨o, ho, hdenotes'⟩ := ih'
    obtain ⟨result, hresult, h⟩ := intersectionWith_denotes hdenotes hdenotes'
    refine ⟨result, ?_, h⟩
    rw [Expression.eval, hm, ho]
    exact hresult
  | complement mask ih =>
    obtain ⟨m, hm, hdenotes⟩ := ih
    obtain ⟨result, hresult, h⟩ := complement_denotes hdenotes
    refine ⟨result, ?_, h⟩
    rw [Expression.eval, hm]
    exact hresult

/-- No operation overflows, and a mask matches the versions of its expression; the ranges stay in
order with a version between any two of them, so that the tests of a mask are exact. -/
theorem version_masks_follow_set_theory (e : Expression) :
    ∃ mask, e.eval = some mask ∧
      (∀ version : Integer, 0 ≤ version.val →
        (mask.matchesVersion version = true ↔ version.val ∈ e.values)) ∧
      (mask.ranges.Pairwise fun r s => r.last.val + 1 < s.first.val) ∧
      (mask.isEmpty = true ↔ ∀ version : Integer, 0 ≤ version.val → version.val ∉ e.values) ∧
      (mask.isAny = true ↔ ∀ version : Integer, 0 ≤ version.val → version.val ∈ e.values) := by
  obtain ⟨mask, hmask, h⟩ := eval_denotes e
  have hpoint (x : Int) (hx : IsVersion x) : ∃ version : Integer, version.val = x :=
    ⟨⟨x, int64_represents.mpr ⟨by have := hx.1; omega, hx.2⟩⟩, rfl⟩
  refine ⟨mask, hmask, fun version hversion => ?_, ?_, ?_, ?_⟩
  · rw [← h.versions_eq]
    exact matchesVersion_iff_mem mask.ranges version hversion
  · have hseparated := h.normalized.separated
    rw [List.pairwise_map] at hseparated
    exact hseparated.imp fun hsep => (separated_iff _ _).mp hsep
  · rw [h.isEmpty_iff, Set.eq_empty_iff_forall_notMem]
    constructor
    · exact fun hnone version _ => hnone version.val
    · intro hnone x hx
      obtain ⟨version, rfl⟩ := hpoint x (h.subset hx)
      exact hnone version (h.subset hx).1 hx
  · rw [h.isAny_iff]
    constructor
    · intro hall version hversion
      rw [hall]
      exact ⟨hversion, version.val_le⟩
    · intro hall
      apply subset_antisymm h.subset
      intro x hx
      obtain ⟨version, rfl⟩ := hpoint x hx
      exact hall version hx.1

end expressions

end VersionMask
end ErbslandCore.Conf
