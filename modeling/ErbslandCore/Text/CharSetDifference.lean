import ErbslandCore.Text.CharSetOperations

namespace ErbslandCore.Text.CharSet
open Library Library.RangeSets Library.Utf8 CharSetRangeBuilder
set_option autoImplicit true

variable {b b' b₁ : CharSetRangeBuilder} {left right ranges : List CharRange}

/-- The ranges that the loop still reads on one side. -/
def Remaining.list : Remaining → List CharRange
  | (none, _) => []
  | (some range, ranges) => range :: ranges

theorem Remaining.list_none (ranges : List CharRange) : Remaining.list (none, ranges) = [] := rfl

theorem Remaining.list_some (range : CharRange) (ranges : List CharRange) :
    Remaining.list (some range, ranges) = range :: ranges := rfl

theorem nextRange_list (ranges : List CharRange) : Remaining.list (nextRange ranges) = ranges := by
  cases ranges with
  | nil => rfl
  | cons range ranges => rfl

/-- No range on either side has U+FEFF inside it while one on the other side ends beside it. -/
structure Unmarked (left right : List CharRange) : Prop where
  inLeft : ∀ l ∈ left, CoversMark l.low l.high → ¬ BesideMark right
  inRight : ∀ r ∈ right, CoversMark r.low r.high → ¬ BesideMark left

theorem Unmarked.symm (h : Unmarked left right) : Unmarked right left := ⟨h.inRight, h.inLeft⟩

theorem Unmarked.tail (h : Unmarked (l :: left) right) : Unmarked left right :=
  ⟨fun t ht => h.inLeft t (List.mem_cons_of_mem l ht),
    fun r hr hcovers hbeside => h.inRight r hr hcovers hbeside.of_tail⟩

theorem nextScalar_ne_mark (hc : isValidUnicode c = true) (h : nextScalar c = some next) :
    next ≠ 0xFF00 := by
  rintro rfl
  have hspec := nextScalar_spec hc (x := 0xFEFF) ⟨by decide, .inr (by decide)⟩
  have hself := nextScalar_spec hc (x := 0xFF00) ⟨by decide, .inr (by decide)⟩
  have hvalid := (isValidUnicode_iff_scalar c).mp hc
  rw [h] at hspec hself
  omega

/-- The part of a range after another one that ends before it takes the place of the range. -/
theorem trimmed (hr : Normalized (r :: right)) (hl : CharRange.Valid l) (hlt : l.high < r.high)
    (hle : r.low ≤ l.high) (hmark : Unmarked (l :: left) (r :: right)) :
    ∃ start, nextScalar l.high = some start ∧
      CharRange.ofChars start r.high = ⟨start, r.high⟩ ∧
      Normalized (⟨start, r.high⟩ :: right) ∧ Unmarked left (⟨start, r.high⟩ :: right) ∧
      ∀ x, x ∈ scalars (⟨start, r.high⟩ :: right) ↔ x ∈ scalars (r :: right) ∧ l.high < x := by
  have hend := (isValidUnicode_iff_scalar r.high).mp hr.head.high
  have hhigh : l.high ≠ 0xFEFE := by
    intro heq
    refine hmark.inRight r List.mem_cons_self ⟨by omega, by omega⟩ ⟨l, List.mem_cons_self, .inl heq⟩
  obtain ⟨start, hnext, hvalid, hafter, hends, hpiece, hproper, hiff⟩ :=
    part_after hr.head.high hl.high hlt hhigh
  refine ⟨start, hnext, hpiece, ⟨fun t ht => ?_, ?_⟩, ⟨fun t ht hcovers hbeside => ?_,
    fun t ht hcovers => ?_⟩, fun x => ?_⟩
  · rcases List.mem_cons.mp ht with rfl | ht
    · exact hproper
    · exact hr.tail.valid t ht
  · obtain ⟨hfirst, hrest⟩ := List.pairwise_cons.mp hr.separated
    exact List.pairwise_cons.mpr ⟨fun t ht => hfirst t ht, hrest⟩
  · refine hmark.inLeft t (List.mem_cons_of_mem l ht) hcovers ?_
    obtain ⟨s, hs, hmarked⟩ := hbeside
    rcases List.mem_cons.mp hs with rfl | hs
    · exact ⟨r, List.mem_cons_self,
        .inl (hmarked.resolve_right (nextScalar_ne_mark hl.high hnext))⟩
    · exact ⟨s, List.mem_cons_of_mem r hs, hmarked⟩
  · refine fun hbeside => ?_
    rcases List.mem_cons.mp ht with rfl | ht
    · exact hmark.inRight r List.mem_cons_self
        ⟨(hle.trans_lt hafter).trans hcovers.1, hcovers.2⟩ hbeside.of_tail
    · exact hmark.inRight t (List.mem_cons_of_mem r ht) hcovers hbeside.of_tail
  · have hgap := hr.high_lt (x := x)
    have hstart := hiff x
    simp only [scalars_cons, Set.mem_union, mem_points]
    grind

theorem mem_tail_iff (h : Normalized (r :: ranges)) :
    x ∈ scalars ranges ↔ x ∈ scalars (r :: ranges) ∧ r.high < x := h.normal.mem_tail_iff

theorem addDifferenceBefore_builds (hb : Good b) (hl : CharRange.Valid l) (hr : CharRange.Valid r)
    (hle : r.low ≤ l.high) (hle' : l.low ≤ r.high) (hmark : Unmarked (l :: left) (r :: right))
    (hbefore : Before b {x | IsScalar x ∧ min l.low r.low ≤ x ∧ x < max l.low r.low})
    (h : addDifferenceBefore b l r = .ok b') :
    Builds b {x | IsScalar x ∧ min l.low r.low ≤ x ∧ x < max l.low r.low} b' := by
  have hlhigh := (isValidUnicode_iff_scalar l.high).mp hl.high
  have hrhigh := (isValidUnicode_iff_scalar r.high).mp hr.high
  have hllow := (isValidUnicode_iff_scalar l.low).mp hl.low
  have hrlow := (isValidUnicode_iff_scalar r.low).mp hr.low
  rw [addDifferenceBefore] at h
  rcases Nat.lt_trichotomy l.low r.low with hlt | heq | hgt
  · have hedge : r.low = 0xFF00 → 0xFEFF < l.low := by
      intro heq
      by_contra hnot
      refine hmark.inLeft l List.mem_cons_self ⟨by omega, by omega⟩ ⟨r, List.mem_cons_self, .inr heq⟩
    obtain ⟨stop, hprevious, -, -, hpiece, hvalid, hpoints⟩ := part_before hl.low hr.low hlt hedge
    rw [if_pos hlt, hprevious] at h
    simp only [hpiece] at h
    rw [min_eq_left hlt.le, max_eq_right hlt.le] at hbefore ⊢
    exact add_all hb hvalid hbefore hpoints.symm h
  · rw [if_neg (Nat.not_lt.mpr heq.ge), if_neg (Nat.not_lt.mpr heq.le)] at h
    obtain rfl := Except.ok.inj h
    refine (Builds.refl hb).congr (Set.eq_empty_iff_forall_notMem.mpr ?_).symm
    rintro x ⟨-, hlow, hhigh⟩
    rw [heq, min_self] at hlow
    rw [heq, max_self] at hhigh
    exact absurd hhigh (Nat.not_lt.mpr hlow)
  · have hedge : l.low = 0xFF00 → 0xFEFF < r.low := by
      intro heq
      by_contra hnot
      refine hmark.inRight r List.mem_cons_self ⟨by omega, by omega⟩
        ⟨l, List.mem_cons_self, .inr heq⟩
    obtain ⟨stop, hprevious, -, -, hpiece, hvalid, hpoints⟩ := part_before hr.low hl.low hgt hedge
    rw [if_neg (Nat.not_lt.mpr hgt.le), if_pos hgt, hprevious] at h
    simp only [hpiece] at h
    rw [min_eq_right hgt.le, max_eq_left hgt.le] at hbefore ⊢
    exact add_all hb hvalid hbefore hpoints.symm h

/-- The values of exactly one side. -/
def difference (left right : List CharRange) : Set Nat :=
  {x | (x ∈ scalars left ∧ x ∉ scalars right) ∨ (x ∉ scalars left ∧ x ∈ scalars right)}

/-- Up to the nearer end of two overlapping ranges, only the part before one of them differs. -/
theorem difference_overlap (hl : Normalized (l :: left)) (hr : Normalized (r :: right))
    (hle : r.low ≤ l.high) (hle' : l.low ≤ r.high) :
    difference (l :: left) (r :: right) =
      {x | IsScalar x ∧ min l.low r.low ≤ x ∧ x < max l.low r.low} ∪
        {x | x ∈ difference (l :: left) (r :: right) ∧ min l.high r.high < x} := by
  ext x
  have hlgap := hl.high_lt (x := x)
  have hrgap := hr.high_lt (x := x)
  have hlends := hl.head.le
  have hrends := hr.head.le
  simp only [difference, scalars_cons, Set.mem_union, mem_points, Set.mem_ofPred_eq]
  grind

theorem difference_comm (left right : List CharRange) :
    difference left right = difference right left := by
  ext x
  simp only [difference, Set.mem_ofPred_eq]
  grind

theorem difference_nil (left : List CharRange) : difference left [] = scalars left := by
  ext x
  simp [difference, scalars_nil]

/-- A range before all that is left on the other side. -/
theorem difference_cons (hl : Normalized (l :: left))
    (hafter : ∀ x ∈ scalars right, l.high < x) :
    difference (l :: left) right = points l ∪ difference left right := by
  ext x
  have hlgap := hl.high_lt (x := x)
  have hrgap := hafter x
  simp only [difference, scalars_cons, Set.mem_union, mem_points, Set.mem_ofPred_eq]
  grind

theorem low_le_difference (hl : Normalized (l :: left)) (hafter : ∀ x ∈ scalars right, l.high < x)
    (hx : x ∈ difference left right) : l.low ≤ x := by
  rcases hx with ⟨hx, -⟩ | ⟨-, hx⟩
  · exact hl.head.le.trans (hl.high_lt hx).le
  · exact hl.head.le.trans (hafter x hx).le

/-- What differs behind a character, when both sides are cut off there. -/
theorem difference_of_cut {left' right' : List CharRange}
    (hl : ∀ x, x ∈ scalars left' ↔ x ∈ scalars left ∧ c < x)
    (hr : ∀ x, x ∈ scalars right' ↔ x ∈ scalars right ∧ c < x) :
    {x | x ∈ difference left right ∧ c < x} = difference left' right' := by
  ext x
  simp only [difference, Set.mem_ofPred_eq, hl x, hr x]
  grind

theorem differRanges_builds (left right : Remaining) (hb : Good b) (hl : Normalized left.list)
    (hr : Normalized right.list) (hmark : Unmarked left.list right.list)
    (hbefore : Before b (difference left.list right.list))
    (h : differRanges b left right = .ok b') :
    Builds b (difference left.list right.list) b' := by
  induction b, left, right using differRanges.induct generalizing b' with
  | case1 b left right =>
    rw [differRanges] at h
    obtain rfl := Except.ok.inj h
    exact (Builds.refl hb).congr (by rw [Remaining.list, Remaining.list, difference_nil, scalars_nil])
  | case2 b l left right ih =>
    rw [differRanges] at h
    obtain ⟨b₁, hadd, h⟩ := bind_eq_ok h
    simp only [Remaining.list_none, Remaining.list_some, nextRange_list] at hl hr hmark hbefore ih ⊢
    have hafter : ∀ x ∈ scalars [], l.high < x := fun x hx => by
      rw [scalars_nil] at hx
      exact absurd hx (Set.notMem_empty x)
    obtain ⟨hgood, hnext, hdone⟩ := add_first hb hl.head hbefore (difference_cons hl hafter)
      (fun y hy => low_le_difference hl hafter hy) hadd
    exact hdone b' (ih b₁ hgood hl.tail hr hmark.tail hnext h)
  | case3 b left r right ih =>
    rw [differRanges] at h
    obtain ⟨b₁, hadd, h⟩ := bind_eq_ok h
    simp only [Remaining.list_none, Remaining.list_some, nextRange_list] at hl hr hmark hbefore ih ⊢
    rw [difference_comm] at hbefore ⊢
    have hafter : ∀ x ∈ scalars [], r.high < x := fun x hx => by
      rw [scalars_nil] at hx
      exact absurd hx (Set.notMem_empty x)
    obtain ⟨hgood, hnext, hdone⟩ := add_first hb hr.head hbefore (difference_cons hr hafter)
      (fun y hy => low_le_difference hr hafter hy) hadd
    rw [difference_comm] at hnext hdone
    exact hdone b' (ih b₁ hgood hl hr.tail hmark.symm.tail.symm hnext h)
  | case4 b l left r right hlr ih =>
    rw [differRanges, if_pos hlr] at h
    obtain ⟨b₁, hadd, h⟩ := bind_eq_ok h
    simp only [Remaining.list_some, nextRange_list] at hl hr hmark hbefore ih ⊢
    have hafter : ∀ x ∈ scalars (r :: right), l.high < x := fun x hx =>
      hlr.trans_le (hr.low_le hx)
    obtain ⟨hgood, hnext, hdone⟩ := add_first hb hl.head hbefore (difference_cons hl hafter)
      (fun y hy => low_le_difference hl hafter hy) hadd
    exact hdone b' (ih b₁ hgood hl.tail hr hmark.tail hnext h)
  | case5 b l left r right hlr hrl ih =>
    rw [differRanges, if_neg hlr, if_pos hrl] at h
    obtain ⟨b₁, hadd, h⟩ := bind_eq_ok h
    simp only [Remaining.list_some, nextRange_list] at hl hr hmark hbefore ih ⊢
    rw [difference_comm] at hbefore ⊢
    have hafter : ∀ x ∈ scalars (l :: left), r.high < x := fun x hx =>
      hrl.trans_le (hl.low_le hx)
    obtain ⟨hgood, hnext, hdone⟩ := add_first hb hr.head hbefore (difference_cons hr hafter)
      (fun y hy => low_le_difference hr hafter hy) hadd
    rw [difference_comm] at hnext hdone
    exact hdone b' (ih b₁ hgood hl hr.tail hmark.symm.tail.symm hnext h)
  | case6 b l left r right hlr hrl ihl ihr ihboth =>
    rw [differRanges, if_neg hlr, if_neg hrl] at h
    obtain ⟨b₁, hadd, h⟩ := bind_eq_ok h
    simp only [Remaining.list_some, nextRange_list] at hl hr hmark hbefore ihl ihr ihboth ⊢
    rw [Nat.not_lt] at hlr hrl
    rw [difference_overlap hl hr hlr hrl] at hbefore ⊢
    have hbuilds := addDifferenceBefore_builds hb hl.head hr.head hlr hrl hmark
      (hbefore.subset Set.subset_union_left) hadd
    have hbefore₁ := hbuilds.before (hbefore.subset Set.subset_union_right) fun x hx y hy => by
      have hends := hl.head.le
      have hends' := hr.head.le
      simp only [Set.mem_ofPred_eq] at hx hy
      grind
    refine hbuilds.trans ?_
    rcases Nat.lt_trichotomy l.high r.high with hlt | heq | hgt
    · obtain ⟨start, hnext, hpiece, hnormal, hunmarked, hscalars⟩ := trimmed hr hl.head hlt hlr hmark
      rw [if_pos hlt, hnext] at h
      simp only [Option.map_some, hpiece] at h
      simp only [hnext, Option.map_some, hpiece, Remaining.list_some] at ihl
      rw [min_eq_left hlt.le, difference_of_cut (fun x => mem_tail_iff hl) hscalars] at hbefore₁ ⊢
      exact ihl b₁ hbuilds.good hl.tail hnormal hunmarked hbefore₁ h
    · rw [if_neg (Nat.not_lt.mpr heq.ge), if_neg (Nat.not_lt.mpr heq.le)] at h
      have hright (x : Nat) : x ∈ scalars right ↔ x ∈ scalars (r :: right) ∧ l.high < x := by
        rw [heq]
        exact mem_tail_iff hr
      rw [min_eq_left heq.le, difference_of_cut (fun x => mem_tail_iff hl) hright] at hbefore₁ ⊢
      exact ihboth b₁ hbuilds.good hl.tail hr.tail hmark.tail.symm.tail.symm hbefore₁ h
    · obtain ⟨start, hnext, hpiece, hnormal, hunmarked, hscalars⟩ :=
        trimmed hl hr.head hgt hrl hmark.symm
      rw [if_neg (Nat.not_lt.mpr hgt.le), if_pos hgt, hnext] at h
      simp only [Option.map_some, hpiece] at h
      simp only [hnext, Option.map_some, hpiece, Remaining.list_some] at ihr
      rw [min_eq_right hgt.le, difference_of_cut hscalars (fun x => mem_tail_iff hr)] at hbefore₁ ⊢
      exact ihr b₁ hbuilds.good hnormal hr.tail hunmarked.symm hbefore₁ h

end ErbslandCore.Text.CharSet
