import Mathlib.Data.Set.Basic
import Mathlib.Data.List.Pairwise
import Mathlib.Order.MinMax

namespace ErbslandCore.Library.RangeSets
set_option autoImplicit true

/-- All elements of an order from a lowest to a highest one. -/
@[ext]
structure Range (α : Type) where
  low : α
  high : α
  deriving DecidableEq

variable {α : Type} [LinearOrder α]

def Range.Contains (r : Range α) (x : α) : Prop := r.low ≤ x ∧ x ≤ r.high

section
variable (IsPoint : α → Prop)

/-- The points in some of the ranges; an order may have elements that are not points. -/
def cover (rs : List (Range α)) : Set α := {x | IsPoint x ∧ ∃ r ∈ rs, r.Contains x}

/-- There is a point between two ranges. -/
def Separated (r s : Range α) : Prop := ∃ x, IsPoint x ∧ r.high < x ∧ x < s.low

/-- A range between two points. -/
structure Proper (r : Range α) : Prop where
  low : IsPoint r.low
  high : IsPoint r.high
  le : r.low ≤ r.high

/-- Ascending ranges that can not be merged. -/
structure Normal (rs : List (Range α)) : Prop where
  proper : ∀ r ∈ rs, Proper IsPoint r
  separated : rs.Pairwise (Separated IsPoint)

end

variable {IsPoint : α → Prop} {r s m : Range α} {rs ss : List (Range α)}

theorem Proper.contains_low (h : Proper IsPoint r) : r.Contains r.low := ⟨le_refl _, h.le⟩

theorem cover_nil : cover IsPoint [] = ∅ := by
  apply Set.eq_empty_iff_forall_notMem.mpr
  rintro x ⟨-, r, hr, -⟩
  exact List.not_mem_nil hr

theorem mem_cover_cons :
    x ∈ cover IsPoint (r :: rs) ↔ IsPoint x ∧ r.Contains x ∨ x ∈ cover IsPoint rs := by
  constructor
  · rintro ⟨hx, s, hs, hc⟩
    rcases List.mem_cons.mp hs with rfl | hs
    · exact .inl ⟨hx, hc⟩
    · exact .inr ⟨hx, s, hs, hc⟩
  · rintro (⟨hx, hc⟩ | ⟨hx, s, hs, hc⟩)
    · exact ⟨hx, r, List.mem_cons_self, hc⟩
    · exact ⟨hx, s, List.mem_cons_of_mem r hs, hc⟩

theorem mem_cover_append :
    x ∈ cover IsPoint (rs ++ ss) ↔ x ∈ cover IsPoint rs ∨ x ∈ cover IsPoint ss := by
  constructor
  · rintro ⟨hx, s, hs, hc⟩
    rcases List.mem_append.mp hs with hs | hs
    · exact .inl ⟨hx, s, hs, hc⟩
    · exact .inr ⟨hx, s, hs, hc⟩
  · rintro (⟨hx, s, hs, hc⟩ | ⟨hx, s, hs, hc⟩)
    · exact ⟨hx, s, List.mem_append_left ss hs, hc⟩
    · exact ⟨hx, s, List.mem_append_right rs hs, hc⟩

theorem Proper.low_mem (h : Proper IsPoint r) (rs : List (Range α)) : r.low ∈ cover IsPoint (r :: rs) :=
  mem_cover_cons.mpr (.inl ⟨h.low, h.contains_low⟩)

namespace Normal

theorem nil : Normal IsPoint [] := ⟨fun _ h => absurd h List.not_mem_nil, .nil⟩

theorem head (h : Normal IsPoint (r :: rs)) : Proper IsPoint r := h.proper r List.mem_cons_self

theorem tail (h : Normal IsPoint (r :: rs)) : Normal IsPoint rs :=
  ⟨fun s hs => h.proper s (List.mem_cons_of_mem r hs), h.separated.of_cons⟩

/-- Between a range and a later point there is a point that no range contains. -/
theorem gap (h : Normal IsPoint (r :: rs)) (hx : x ∈ cover IsPoint rs) :
    ∃ y, IsPoint y ∧ r.high < y ∧ y < x ∧ y ∉ cover IsPoint (r :: rs) := by
  cases rs with
  | nil =>
    rw [cover_nil] at hx
    exact absurd hx (Set.notMem_empty x)
  | cons s rs =>
    -- The point before the nearest range is before all of them.
    have hbefore : ∀ t ∈ s :: rs, s.low ≤ t.low := by
      intro t ht
      rcases List.mem_cons.mp ht with rfl | ht
      · exact le_refl _
      · obtain ⟨z, -, hsz, hzt⟩ := List.rel_of_pairwise_cons h.tail.separated ht
        exact (h.tail.head.le.trans_lt hsz).le.trans hzt.le
    obtain ⟨y, hy, hry, hys⟩ := List.rel_of_pairwise_cons h.separated List.mem_cons_self
    obtain ⟨-, t, ht, htx⟩ := hx
    refine ⟨y, hy, hry, (hys.trans_le (hbefore t ht)).trans_le htx.1, ?_⟩
    rw [mem_cover_cons]
    rintro (⟨-, hc⟩ | ⟨-, t, ht, hc⟩)
    · exact absurd hry (not_lt.mpr hc.2)
    · exact absurd (hys.trans_le (hbefore t ht)) (not_lt.mpr hc.1)

theorem high_lt (h : Normal IsPoint (r :: rs)) (hx : x ∈ cover IsPoint rs) : r.high < x := by
  obtain ⟨y, -, hry, hyx, -⟩ := h.gap hx
  exact hry.trans hyx

theorem low_le (h : Normal IsPoint (r :: rs)) (hx : x ∈ cover IsPoint (r :: rs)) : r.low ≤ x := by
  rcases mem_cover_cons.mp hx with ⟨-, hc⟩ | htail
  · exact hc.1
  · exact h.head.le.trans (h.high_lt htail).le

theorem mem_tail_iff (h : Normal IsPoint (r :: rs)) :
    x ∈ cover IsPoint rs ↔ x ∈ cover IsPoint (r :: rs) ∧ r.high < x := by
  constructor
  · exact fun hx => ⟨mem_cover_cons.mpr (.inr hx), h.high_lt hx⟩
  · rintro ⟨hx, hlt⟩
    rcases mem_cover_cons.mp hx with ⟨-, hc⟩ | htail
    · exact absurd hlt (not_lt.mpr hc.2)
    · exact htail

/-- A range of covered points lies within one range. -/
theorem within (h : Normal IsPoint rs) (hs : Proper IsPoint s)
    (hsub : ∀ x, IsPoint x → s.Contains x → x ∈ cover IsPoint rs) :
    ∃ r ∈ rs, r.low ≤ s.low ∧ s.high ≤ r.high := by
  induction rs with
  | nil =>
    have hlow := hsub s.low hs.low hs.contains_low
    rw [cover_nil] at hlow
    exact absurd hlow (Set.notMem_empty _)
  | cons r rs ih =>
    rcases mem_cover_cons.mp (hsub s.low hs.low hs.contains_low) with ⟨-, hc⟩ | htail
    · refine ⟨r, List.mem_cons_self, hc.1, not_lt.mp fun hlt => ?_⟩
      have hhigh := h.mem_tail_iff.mpr ⟨hsub s.high hs.high ⟨hs.le, le_refl _⟩, hlt⟩
      obtain ⟨y, hy, hry, hys, hnot⟩ := h.gap hhigh
      exact hnot (hsub y hy ⟨hc.2.trans hry.le, hys.le⟩)
    · obtain ⟨t, ht, hin⟩ := ih h.tail fun x hx hc =>
        h.mem_tail_iff.mpr ⟨hsub x hx hc, (h.high_lt htail).trans_le hc.1⟩
      exact ⟨t, List.mem_cons_of_mem r ht, hin⟩

theorem cover_subset_iff (hr : Normal IsPoint rs) (hs : Normal IsPoint ss) :
    cover IsPoint rs ⊆ cover IsPoint ss ↔
      ∀ r ∈ rs, ∃ s ∈ ss, s.low ≤ r.low ∧ r.high ≤ s.high := by
  constructor
  · exact fun hsub r hmem => hs.within (hr.proper r hmem) fun x hx hc => hsub ⟨hx, r, hmem, hc⟩
  · rintro hin x ⟨hx, r, hmem, hc⟩
    obtain ⟨s, hs, hlow, hhigh⟩ := hin r hmem
    exact ⟨hx, s, hs, hlow.trans hc.1, hc.2.trans hhigh⟩

theorem head_le (hr : Normal IsPoint (r :: rs)) (hs : Normal IsPoint (s :: ss))
    (h : cover IsPoint (r :: rs) ⊆ cover IsPoint (s :: ss)) : s.low ≤ r.low :=
  hs.low_le (h (hr.head.low_mem rs))

/-- The first ranges of equal covers end at the same point. -/
theorem head_high_le (hr : Normal IsPoint (r :: rs)) (hs : Normal IsPoint (s :: ss))
    (h : cover IsPoint (r :: rs) = cover IsPoint (s :: ss)) (hlow : r.low = s.low) :
    r.high ≤ s.high := by
  by_contra hlt
  rw [not_le] at hlt
  have hhigh : r.high ∈ cover IsPoint ss := hs.mem_tail_iff.mpr
    ⟨h ▸ mem_cover_cons.mpr (.inl ⟨hr.head.high, hr.head.le, le_refl _⟩), hlt⟩
  obtain ⟨y, hy, hsy, hyr, hnot⟩ := hs.gap hhigh
  rw [← h] at hnot
  refine hnot (mem_cover_cons.mpr (.inl ⟨hy, ?_, hyr.le⟩))
  rw [hlow]
  exact hs.head.le.trans hsy.le

/-- A set of points has one normal form. -/
theorem unique (hr : Normal IsPoint rs) (hs : Normal IsPoint ss)
    (h : cover IsPoint rs = cover IsPoint ss) : rs = ss := by
  induction rs generalizing ss with
  | nil =>
    cases ss with
    | nil => rfl
    | cons s ss =>
      have hlow := hs.head.low_mem ss
      rw [← h, cover_nil] at hlow
      exact absurd hlow (Set.notMem_empty _)
  | cons r rs ih =>
    cases ss with
    | nil =>
      have hlow := hr.head.low_mem rs
      rw [h, cover_nil] at hlow
      exact absurd hlow (Set.notMem_empty _)
    | cons s ss =>
      have hlow : r.low = s.low := le_antisymm (hs.head_le hr h.ge) (hr.head_le hs h.le)
      have hhigh : r.high = s.high :=
        le_antisymm (hr.head_high_le hs h hlow) (hs.head_high_le hr h.symm hlow.symm)
      have htail : cover IsPoint rs = cover IsPoint ss := by
        ext x
        rw [hr.mem_tail_iff, hs.mem_tail_iff, h, hhigh]
      rw [ih hr.tail hs.tail htail, Range.ext hlow hhigh]

end Normal

theorem Separated.low_lt (h : Separated IsPoint r s) (hr : Proper IsPoint r) : r.low < s.low := by
  obtain ⟨x, -, hrx, hxs⟩ := h
  exact (hr.le.trans_lt hrx).trans hxs

theorem Separated.trans (h : Separated IsPoint r m) (hm : Proper IsPoint m)
    (h' : Separated IsPoint m s) : Separated IsPoint r s := by
  obtain ⟨x, hx, hrx, hxm⟩ := h
  exact ⟨x, hx, hrx, hxm.trans (h'.low_lt hm)⟩

/-- A range between two parts of a normal form. -/
theorem Normal.insert (hr : Normal IsPoint rs) (hs : Normal IsPoint ss) (hm : Proper IsPoint m)
    (hbefore : ∀ r ∈ rs, Separated IsPoint r m) (hafter : ∀ s ∈ ss, Separated IsPoint m s) :
    Normal IsPoint (rs ++ m :: ss) where
  proper r h := by
    rcases List.mem_append.mp h with h | h
    · exact hr.proper r h
    · rcases List.mem_cons.mp h with rfl | h
      · exact hm
      · exact hs.proper r h
  separated := by
    refine List.pairwise_append.mpr ⟨hr.separated, List.pairwise_cons.mpr ⟨hafter, hs.separated⟩, ?_⟩
    intro r hmem s hs
    rcases List.mem_cons.mp hs with rfl | hs
    · exact hbefore r hmem
    · exact (hbefore r hmem).trans hm (hafter s hs)

theorem Normal.left (h : Normal IsPoint (rs ++ ss)) : Normal IsPoint rs :=
  ⟨fun r hr => h.proper r (List.mem_append_left ss hr), (List.pairwise_append.mp h.separated).1⟩

theorem Normal.right (h : Normal IsPoint (rs ++ ss)) : Normal IsPoint ss :=
  ⟨fun r hr => h.proper r (List.mem_append_right rs hr), (List.pairwise_append.mp h.separated).2.1⟩

/-- What is separated from the last range is separated from all of them. -/
theorem Normal.separated_of_last (h : Normal IsPoint (rs ++ [r])) (hs : Separated IsPoint r s) :
    ∀ t ∈ rs ++ [r], Separated IsPoint t s := by
  intro t ht
  rcases List.mem_append.mp ht with ht | ht
  · have htr := (List.pairwise_append.mp h.separated).2.2 t ht r (List.mem_singleton_self r)
    exact htr.trans (h.right.proper r (List.mem_singleton_self r)) hs
  · rw [List.mem_singleton.mp ht]
    exact hs

theorem Normal.concat (h : Normal IsPoint (rs ++ [r])) (hm : Proper IsPoint m)
    (hs : Separated IsPoint r m) : Normal IsPoint (rs ++ [r] ++ [m]) :=
  h.insert .nil hm (h.separated_of_last hs) fun _ hmem => absurd hmem List.not_mem_nil

/-- The last range may end elsewhere. -/
theorem Normal.replace_last (h : Normal IsPoint (rs ++ [r])) (hm : Proper IsPoint m)
    (hlow : m.low = r.low) : Normal IsPoint (rs ++ [m]) := by
  refine h.left.insert .nil hm (fun t ht => ?_) fun _ hmem => absurd hmem List.not_mem_nil
  obtain ⟨x, hx, htx, hxr⟩ :=
    (List.pairwise_append.mp h.separated).2.2 t ht r (List.mem_singleton_self r)
  exact ⟨x, hx, htx, hlow ▸ hxr⟩

/-- Ranges without a point between them have the points of the range around them. -/
theorem contains_around_iff (hx : IsPoint x) (hlow : r.low ≤ s.low) (h : ¬ Separated IsPoint r s) :
    (⟨r.low, max r.high s.high⟩ : Range α).Contains x ↔ r.Contains x ∨ s.Contains x := by
  constructor
  · rintro ⟨hrx, hmax⟩
    rcases le_or_gt x r.high with hle | hgt
    · exact .inl ⟨hrx, hle⟩
    · rcases le_max_iff.mp hmax with hle | hle
      · exact absurd hle (not_le.mpr hgt)
      · exact .inr ⟨not_lt.mp fun hlt => h ⟨x, hx, hgt, hlt⟩, hle⟩
  · rintro (hc | hc)
    · exact ⟨hc.1, hc.2.trans (le_max_left _ _)⟩
    · exact ⟨hlow.trans hc.1, hc.2.trans (le_max_right _ _)⟩

end ErbslandCore.Library.RangeSets
