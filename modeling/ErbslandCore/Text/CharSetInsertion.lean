import Mathlib.Data.List.TakeWhile
import ErbslandCore.Text.CharSetOperations

namespace ErbslandCore.Text.CharSet
open Library Library.RangeSets Library.Utf8 CharRange
open CharSetRangeBuilder (mergedWith_of_le separated_of_not_merged)
set_option autoImplicit true

variable {ranges : List CharRange} {range m : CharRange}

theorem canMergeWith_comm {r s : CharRange} (hr : CharRange.Valid r) (hs : CharRange.Valid s) :
    canMergeWith r s = canMergeWith s r := by
  rw [Bool.eq_iff_iff, ← not_iff_not, Bool.not_eq_true, Bool.not_eq_true,
    canMergeWith_eq_false hr hs, canMergeWith_eq_false hs hr, or_comm]

theorem mergedWith_comm {r s : CharRange} (hr : CharRange.Valid r) (hs : CharRange.Valid s) :
    mergedWith r s = mergedWith s r := by
  cases h : canMergeWith r s with
  | true =>
    rw [(mergedWith_eq hr hs h).1, (mergedWith_eq hs hr (canMergeWith_comm hr hs ▸ h)).1,
      min_comm, max_comm]
  | false =>
    rw [mergedWith, mergedWith, ← canMergeWith_comm hr hs, h]
    rfl

/-- Merging leaves the first character, all values, and no range that could be merged. -/
theorem mergeFollowing_spec (hr : CharRange.Valid range) (h : Normalized ranges)
    (hle : ∀ r ∈ ranges, range.low ≤ r.low) (hm : mergeFollowing range ranges = (m, count)) :
    CharRange.Valid m ∧ m.low = range.low ∧ count ≤ ranges.length ∧
      points m ∪ scalars (ranges.drop count) = points range ∪ scalars ranges ∧
      ∀ r ∈ ranges.drop count, Separated IsScalar m r := by
  induction ranges generalizing range count with
  | nil =>
    rw [mergeFollowing] at hm
    obtain ⟨rfl, rfl⟩ := Prod.mk.inj hm
    exact ⟨hr, rfl, Nat.le_refl 0, rfl, fun r hmem => absurd hmem List.not_mem_nil⟩
  | cons r ranges ih =>
    have hfirst := hle r List.mem_cons_self
    rw [mergeFollowing] at hm
    cases hmerge : canMergeWith range r with
    | true =>
      rw [if_pos hmerge] at hm
      obtain ⟨hvalid, hlow, hpoints⟩ := mergedWith_of_le hr h.head hfirst hmerge
      obtain ⟨rfl, rfl⟩ := Prod.mk.inj hm
      obtain ⟨hm, hmlow, hcount, hscalars, hsep⟩ := ih hvalid h.tail
        (fun t ht => hlow ▸ hle t (List.mem_cons_of_mem r ht)) rfl
      refine ⟨hm, hmlow.trans hlow, Nat.succ_le_succ hcount, ?_, hsep⟩
      rw [List.drop_succ_cons, hscalars, hpoints, scalars_cons, Set.union_assoc]
    | false =>
      rw [if_neg (by simp [hmerge])] at hm
      obtain ⟨rfl, rfl⟩ := Prod.mk.inj hm
      have hsep := separated_of_not_merged hr h.head hfirst hmerge
      refine ⟨hr, rfl, Nat.zero_le _, rfl, fun t ht => ?_⟩
      rcases List.mem_cons.mp ht with rfl | ht
      · exact hsep
      · exact hsep.trans h.head.proper (List.rel_of_pairwise_cons h.separated ht)

theorem Normalized.of_append_left (h : Normalized (left ++ right)) : Normalized left :=
  ⟨fun r hr => h.valid r (List.mem_append_left right hr), h.normal.left.separated⟩

theorem Normalized.of_append_right (h : Normalized (left ++ right)) : Normalized right :=
  ⟨fun r hr => h.valid r (List.mem_append_right left hr), h.normal.right.separated⟩

theorem Normalized.insert (hl : Normalized left) (hr : Normalized right) (hm : CharRange.Valid m)
    (hbefore : ∀ r ∈ left, Separated IsScalar r m) (hafter : ∀ s ∈ right, Separated IsScalar m s) :
    Normalized (left ++ m :: right) := by
  refine ⟨fun r hmem => ?_, (hl.normal.insert hr.normal hm.proper hbefore hafter).separated⟩
  rcases List.mem_append.mp hmem with hmem | hmem
  · exact hl.valid r hmem
  · rcases List.mem_cons.mp hmem with rfl | hmem
    · exact hm
    · exact hr.valid r hmem

theorem Normalized.drop (h : Normalized ranges) (n : Nat) : Normalized (ranges.drop n) := by
  rw [← List.take_append_drop n ranges] at h
  exact h.of_append_right

theorem scalars_append_cons (left right : List CharRange) (m : CharRange) :
    scalars (left ++ m :: right) = scalars left ∪ (points m ∪ scalars right) := by
  ext x
  rw [scalars, mem_cover_append, mem_cover_cons]
  rfl

theorem separated_of_low_eq {a r m : CharRange} (h : Separated IsScalar a r)
    (hlow : m.low = r.low) : Separated IsScalar a m := by
  obtain ⟨x, hx, hax, hxr⟩ := h
  exact ⟨x, hx, hax, hlow ▸ hxr⟩

theorem low_le_of_mem_dropWhile (h : Normalized ranges) (low : Nat) :
    ∀ r ∈ ranges.dropWhile fun existing => decide (existing.low < low), low ≤ r.low := by
  induction ranges with
  | nil => exact fun r hmem => absurd hmem List.not_mem_nil
  | cons s ranges ih =>
    intro r hmem
    by_cases hlt : s.low < low
    · rw [List.dropWhile_cons, if_pos (decide_eq_true hlt)] at hmem
      exact ih h.tail r hmem
    · rw [List.dropWhile_cons, if_neg (by simpa using hlt)] at hmem
      rcases List.mem_cons.mp hmem with rfl | hmem
      · exact Nat.not_lt.mp hlt
      · have hsep := List.rel_of_pairwise_cons h.separated hmem
        exact (Nat.not_lt.mp hlt).trans (hsep.low_lt h.head.proper).le

/-- A range is added between two parts, or it is merged with the last one of the first part. -/
theorem insertion_split (h : Normalized ranges) (hr : CharRange.Valid range) :
    (∃ before after, ranges = before ++ after ∧ insertionIndex ranges range = before.length ∧
      (∀ r ∈ before, Separated IsScalar r range) ∧ ∀ r ∈ after, range.low ≤ r.low) ∨
    ∃ before a rest, ranges = before ++ a :: rest ∧
      insertionIndex ranges range = before.length ∧ canMergeWith a range = true ∧
      a.low ≤ range.low ∧ ∀ r ∈ rest, range.low ≤ r.low := by
  have hafter := low_le_of_mem_dropWhile h range.low
  have hbefore : ∀ r ∈ ranges.takeWhile fun existing => decide (existing.low < range.low),
      r.low < range.low := fun r hmem => by simpa using List.mem_takeWhile_imp hmem
  have happend := List.takeWhile_append_dropWhile (l := ranges)
    (p := fun existing => decide (existing.low < range.low))
  rw [insertionIndex]
  generalize ranges.takeWhile (fun existing => decide (existing.low < range.low)) = before at *
  generalize ranges.dropWhile (fun existing => decide (existing.low < range.low)) = after at *
  subst happend
  rcases List.eq_nil_or_concat before with rfl | ⟨before, a, rfl⟩
  · exact .inl ⟨[], after, rfl, rfl, fun r hmem => absurd hmem List.not_mem_nil, hafter⟩
  · rw [List.concat_eq_append] at *
    have hlow : a.low ≤ range.low := (hbefore a (by simp)).le
    have hvalid : CharRange.Valid a := h.valid a (by simp)
    have hget : (before ++ [a] ++ after)[(before ++ [a]).length - 1]?.getD empty = a := by
      simp
    have hpos : (before ++ [a]).length > 0 := by simp
    simp only [hget, hpos, true_and]
    split_ifs with hmerge
    · exact .inr ⟨before, a, after, by simp, by simp, hmerge, hlow, hafter⟩
    · refine .inl ⟨before ++ [a], after, rfl, rfl, ?_, hafter⟩
      have hsep := separated_of_not_merged hvalid hr hlow (Bool.eq_false_iff.mpr hmerge)
      exact h.of_append_left.normal.separated_of_last hsep

/-- What takes the place of the ranges that an added one is merged with. -/
theorem insertion_result {before after : List CharRange} (h : Normalized (before ++ after))
    (hm : CharRange.Valid m) (hcount : count ≤ after.length)
    (hscalars : points m ∪ scalars (after.drop count) = points range ∪ scalars after)
    (hbefore : ∀ r ∈ before, Separated IsScalar r m)
    (hafter : ∀ r ∈ after.drop count, Separated IsScalar m r) :
    before.length + count ≤ (before ++ after).length ∧
      Normalized ((before ++ after).take before.length ++
        m :: (before ++ after).drop (before.length + count)) ∧
      scalars ((before ++ after).take before.length ++
        m :: (before ++ after).drop (before.length + count)) =
          scalars (before ++ after) ∪ points range := by
  rw [List.take_left, List.drop_length_add_append, List.length_append]
  refine ⟨Nat.add_le_add_left hcount _,
    h.of_append_left.insert (h.of_append_right.drop count) hm hbefore hafter, ?_⟩
  rw [scalars_append_cons, hscalars]
  have happend : scalars (before ++ after) = scalars before ∪ scalars after := by
    ext x
    exact mem_cover_append
  rw [happend, Set.union_assoc, Set.union_comm (points range)]

theorem insertion_spec (h : Normalized ranges) (hr : CharRange.Valid range)
    (hm : mergeFollowing range (ranges.drop (insertionIndex ranges range)) = (m, count)) :
    insertionIndex ranges range + count ≤ ranges.length ∧
      Normalized (ranges.take (insertionIndex ranges range) ++
        m :: ranges.drop (insertionIndex ranges range + count)) ∧
      scalars (ranges.take (insertionIndex ranges range) ++
        m :: ranges.drop (insertionIndex ranges range + count)) = scalars ranges ∪ points range := by
  rcases insertion_split h hr with ⟨before, after, rfl, hindex, hbefore, hafter⟩ |
    ⟨before, a, rest, rfl, hindex, hmerge, hlow, hrest⟩
  · rw [hindex] at hm ⊢
    rw [List.drop_left] at hm
    obtain ⟨hvalid, hlow, hcount, hscalars, hsep⟩ :=
      mergeFollowing_spec hr h.of_append_right hafter hm
    exact insertion_result h hvalid hcount hscalars
      (fun r hmem => separated_of_low_eq (hbefore r hmem) hlow) hsep
  · rw [hindex] at hm ⊢
    have ha := h.of_append_right.head
    rw [List.drop_left, mergeFollowing, if_pos (canMergeWith_comm ha hr ▸ hmerge),
      mergedWith_comm hr ha] at hm
    obtain ⟨rfl, rfl⟩ := Prod.mk.inj hm
    obtain ⟨hvalid, hmlow, hpoints⟩ := mergedWith_of_le ha hr hlow hmerge
    obtain ⟨hmerged, hlow', hcount, hscalars, hsep⟩ :=
      mergeFollowing_spec hvalid h.of_append_right.tail
        (fun r hmem => hmlow ▸ hlow.trans (hrest r hmem)) rfl
    refine insertion_result h hmerged (Nat.succ_le_succ hcount) ?_ (fun r hmem => ?_) hsep
    · rw [List.drop_succ_cons, hscalars, hpoints, scalars_cons, Set.union_assoc,
        Set.union_left_comm]
    · have hsep' := (List.pairwise_append.mp h.separated).2.2 r hmem a List.mem_cons_self
      exact separated_of_low_eq hsep' (hlow'.trans hmlow)

/-- What every set holds between two operations. -/
structure Sound (set : CharSet) : Prop where
  compact : set.storage.Compact
  normalized : Normalized set.rangeSpan

theorem Sound.empty : Sound {} := by
  constructor
  · exact fun _ => isEmpty_empty
  · rw [rangeSpan, Storage.ranges_empty isEmpty_empty]
    exact .nil

theorem rangeSpan_empty : rangeSpan {} = [] := Storage.ranges_empty isEmpty_empty

/-- Up to two ranges are stored inline. -/
theorem inline_ranges (h : Normalized ranges) (hpos : 0 < ranges.length) (hle : ranges.length ≤ 2) :
    (Storage.inline (ranges[0]?.getD empty) (ranges[1]?.getD empty)).ranges = ranges ∧
      (Storage.inline (ranges[0]?.getD empty) (ranges[1]?.getD empty)).Compact := by
  match ranges with
  | [] => exact absurd hpos (Nat.lt_irrefl 0)
  | [first] =>
    have hfirst := (h.valid first List.mem_cons_self).isEmpty
    exact ⟨Storage.ranges_single hfirst isEmpty_empty, fun _ => isEmpty_empty⟩
  | [first, second] =>
    have hfirst := (h.valid first List.mem_cons_self).isEmpty
    have hsecond := (h.valid second (List.mem_cons_of_mem _ List.mem_cons_self)).isEmpty
    refine ⟨Storage.ranges_pair hfirst hsecond, fun hempty => ?_⟩
    exact absurd hempty (by simp [hfirst])
  | _ :: _ :: _ :: _ => exact absurd hle (by simp)

theorem addWithCapacity_sound {set set' : CharSet} (hs : Sound set) (hr : CharRange.Valid range)
    (h : addWithCapacity set range capacityHint = .ok set') :
    Sound set' ∧ scalars set'.rangeSpan = scalars set.rangeSpan ∪ points range := by
  rw [addWithCapacity, if_neg (by simp [hr.isEmpty])] at h
  obtain ⟨⟨m, count⟩, hm⟩ : ∃ merged, mergeFollowing range
    (set.rangeSpan.drop (insertionIndex set.rangeSpan range)) = merged := ⟨_, rfl⟩
  obtain ⟨hle, hnormal, hscalars⟩ := insertion_spec hs.normalized hr hm
  simp only [hm] at h
  have hlength : (set.rangeSpan.take (insertionIndex set.rangeSpan range) ++
      m :: set.rangeSpan.drop (insertionIndex set.rangeSpan range + count)).length =
        set.rangeSpan.length - count + 1 := by
    simp only [List.length_append, List.length_cons, List.length_take, List.length_drop]
    omega
  split_ifs at h with hsame hinline
  · obtain rfl := Except.ok.inj h
    obtain ⟨rfl, hget⟩ := hsame
    refine ⟨hs, ?_⟩
    rw [← hscalars]
    obtain ⟨hlt, hm⟩ := List.getElem?_eq_some_iff.mp hget
    rw [← hm, ← List.drop_eq_getElem_cons hlt, List.take_append_drop]
  · obtain rfl := Except.ok.inj h
    obtain ⟨hranges, hcompact⟩ := inline_ranges hnormal (by omega) (by omega)
    rw [← hscalars]
    refine ⟨⟨hcompact, ?_⟩, congrArg scalars hranges⟩
    rw [← hranges] at hnormal
    exact hnormal
  · obtain ⟨data, hdata, h⟩ := bind_eq_ok h
    rw [ensureSharedCapacity] at hdata
    split_ifs at hdata
    obtain rfl := Except.ok.inj hdata
    obtain rfl := Except.ok.inj h
    refine ⟨⟨?_, hnormal⟩, hscalars⟩
    show 3 ≤ List.length _
    omega

end ErbslandCore.Text.CharSet
