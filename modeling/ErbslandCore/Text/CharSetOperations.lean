import ErbslandCore.Text.CharSetRangeBuilder

namespace ErbslandCore.Text.CharSet
open Library Library.RangeSets Library.Utf8 CharSetRangeBuilder
set_option autoImplicit true

variable {b b' b₁ : CharSetRangeBuilder} {left right ranges : List CharRange}

theorem scalars_nil : scalars [] = ∅ := cover_nil

theorem scalars_cons (range : CharRange) (ranges : List CharRange) :
    scalars (range :: ranges) = points range ∪ scalars ranges := by
  ext x
  exact mem_cover_cons

theorem Normalized.high_lt (h : Normalized (range :: ranges)) (hx : x ∈ scalars ranges) :
    range.high < x := h.normal.high_lt hx

theorem Normalized.low_le (h : Normalized (range :: ranges)) (hx : x ∈ scalars (range :: ranges)) :
    range.low ≤ x := h.normal.low_le hx

theorem mem_points (range : CharRange) (x : Nat) :
    x ∈ points range ↔ IsScalar x ∧ range.low ≤ x ∧ x ≤ range.high := Iff.rfl

theorem mem_scalar (x : Nat) (ranges : List CharRange) (hx : x ∈ scalars ranges) : IsScalar x :=
  hx.1

/-- The next range goes first, when no value that follows is before it. -/
theorem add_first {S T : Set Nat} (hb : Good b) (hr : CharRange.Valid r)
    (hbefore : Before b S) (hS : S = points r ∪ T) (hle : ∀ y ∈ T, r.low ≤ y)
    (hadd : add b r = .ok b₁) :
    Good b₁ ∧ Before b₁ T ∧ ∀ b', Builds b₁ T b' → Builds b S b' := by
  subst hS
  have hpoints : Before b (points r) := hbefore.subset Set.subset_union_left
  have hbuilds := add_builds hb hr hpoints hadd
  exact ⟨hbuilds.good, before_of_add hb hr hpoints hadd hle, fun b' h => hbuilds.trans h⟩

theorem uniteRanges_builds (hb : Good b) (hl : Normalized left) (hr : Normalized right)
    (hbefore : Before b (scalars left ∪ scalars right))
    (h : uniteRanges b left right = .ok b') :
    Builds b (scalars left ∪ scalars right) b' := by
  induction b, left, right using uniteRanges.induct generalizing b' with
  | case1 b =>
    rw [uniteRanges] at h
    obtain rfl := Except.ok.inj h
    exact (Builds.refl hb).congr (by rw [scalars_nil, Set.union_empty])
  | case2 b l left ih =>
    rw [uniteRanges] at h
    obtain ⟨b₁, hadd, h⟩ := bind_eq_ok h
    have hle : ∀ y ∈ scalars left ∪ scalars [], l.low ≤ y := by
      rintro y (hy | hy)
      · exact hl.head.le.trans (hl.high_lt hy).le
      · exact absurd hy (by rw [scalars_nil]; exact Set.notMem_empty y)
    obtain ⟨hgood, hnext, hdone⟩ := add_first hb hl.head hbefore
      (by rw [scalars_cons, Set.union_assoc]) hle hadd
    exact hdone b' (ih b₁ hgood hl.tail hr hnext h)
  | case3 b r right ih =>
    rw [uniteRanges] at h
    obtain ⟨b₁, hadd, h⟩ := bind_eq_ok h
    have hle : ∀ y ∈ scalars [] ∪ scalars right, r.low ≤ y := by
      rintro y (hy | hy)
      · exact absurd hy (by rw [scalars_nil]; exact Set.notMem_empty y)
      · exact hr.head.le.trans (hr.high_lt hy).le
    obtain ⟨hgood, hnext, hdone⟩ := add_first hb hr.head hbefore
      (by rw [scalars_cons, Set.union_left_comm]) hle hadd
    exact hdone b' (ih b₁ hgood hl hr.tail hnext h)
  | case4 b l left r right hfirst ih =>
    rw [uniteRanges, if_pos hfirst] at h
    obtain ⟨b₁, hadd, h⟩ := bind_eq_ok h
    have hle : ∀ y ∈ scalars left ∪ scalars (r :: right), l.low ≤ y := by
      rintro y (hy | hy)
      · exact hl.head.le.trans (hl.high_lt hy).le
      · exact hfirst.trans (hr.low_le hy)
    obtain ⟨hgood, hnext, hdone⟩ := add_first hb hl.head hbefore
      (by rw [scalars_cons l, Set.union_assoc]) hle hadd
    exact hdone b' (ih b₁ hgood hl.tail hr hnext h)
  | case5 b l left r right hfirst ih =>
    rw [uniteRanges, if_neg hfirst] at h
    obtain ⟨b₁, hadd, h⟩ := bind_eq_ok h
    have hle : ∀ y ∈ scalars (l :: left) ∪ scalars right, r.low ≤ y := by
      rintro y (hy | hy)
      · exact (Nat.not_le.mp hfirst).le.trans (hl.low_le hy)
      · exact hr.head.le.trans (hr.high_lt hy).le
    obtain ⟨hgood, hnext, hdone⟩ := add_first hb hr.head hbefore
      (by rw [scalars_cons r, Set.union_left_comm]) hle hadd
    exact hdone b' (ih b₁ hgood hl hr.tail hnext h)

theorem intersectRanges_builds (hb : Good b) (hl : Normalized left) (hr : Normalized right)
    (hbefore : Before b (scalars left ∩ scalars right))
    (h : intersectRanges b left right = .ok b') :
    Builds b (scalars left ∩ scalars right) b' := by
  induction b, left, right using intersectRanges.induct generalizing b' with
  | case1 b l left r right hlr ih =>
    rw [intersectRanges, if_pos hlr] at h
    have heq : scalars (l :: left) ∩ scalars (r :: right) = scalars left ∩ scalars (r :: right) := by
      ext x
      have hright := hr.low_le (x := x)
      simp only [scalars_cons l, Set.mem_inter_iff, Set.mem_union, mem_points]
      grind
    exact (ih hb hl.tail hr (hbefore.subset heq.ge) h).congr heq.symm
  | case2 b l left r right hlr hrl ih =>
    rw [intersectRanges, if_neg hlr, if_pos hrl] at h
    have heq : scalars (l :: left) ∩ scalars (r :: right) = scalars (l :: left) ∩ scalars right := by
      ext x
      have hleft := hl.low_le (x := x)
      simp only [scalars_cons r, Set.mem_inter_iff, Set.mem_union, mem_points]
      grind
    exact (ih hb hl hr.tail (hbefore.subset heq.ge) h).congr heq.symm
  | case3 b l left r right hlr hrl ihl ihr =>
    rw [intersectRanges, if_neg hlr, if_neg hrl] at h
    obtain ⟨b₁, hadd, h⟩ := bind_eq_ok h
    obtain ⟨hpiece, hvalid⟩ := CharRange.ofChars_overlap hl.head hr.head (Nat.not_lt.mp hrl)
      (Nat.not_lt.mp hlr)
    rw [hpiece] at hadd
    have hafter : ∀ y ∈ scalars (l :: left) ∩ scalars (r :: right), max l.low r.low ≤ y :=
      fun y hy => max_le (hl.low_le hy.1) (hr.low_le hy.2)
    split_ifs at h with hend
    · have heq : scalars (l :: left) ∩ scalars (r :: right) =
          points ⟨max l.low r.low, min l.high r.high⟩ ∪ scalars left ∩ scalars (r :: right) := by
        ext x
        have hright := hr.high_lt (x := x)
        have hboth := fun hx : x ∈ scalars left => And.intro (mem_scalar _ _ hx) (hl.high_lt hx)
        simp only [scalars_cons, Set.mem_inter_iff, Set.mem_union, mem_points, max_le_iff, le_min_iff]
        grind only
      obtain ⟨hgood, hnext, hdone⟩ := add_first hb hvalid hbefore heq
        (fun y hy => hafter y (heq ▸ .inr hy)) hadd
      exact hdone b' (ihl b₁ hgood hl.tail hr hnext h)
    · have heq : scalars (l :: left) ∩ scalars (r :: right) =
          points ⟨max l.low r.low, min l.high r.high⟩ ∪ scalars (l :: left) ∩ scalars right := by
        ext x
        have hleft := hl.high_lt (x := x)
        have hboth := fun hx : x ∈ scalars right => And.intro (mem_scalar _ _ hx) (hr.high_lt hx)
        simp only [scalars_cons, Set.mem_inter_iff, Set.mem_union, mem_points, max_le_iff, le_min_iff]
        grind only
      obtain ⟨hgood, hnext, hdone⟩ := add_first hb hvalid hbefore heq
        (fun y hy => hafter y (heq ▸ .inr hy)) hadd
      exact hdone b' (ihr b₁ hgood hl hr.tail hnext h)
  | case4 b left right hnil =>
    have hempty : scalars left ∩ scalars right = ∅ := by
      cases left with
      | nil => rw [scalars_nil, Set.empty_inter]
      | cons l left =>
        cases right with
        | nil => rw [scalars_nil, Set.inter_empty]
        | cons r right => exact absurd rfl (hnil l left r right rfl)
    rw [intersectRanges.eq_def] at h
    split at h
    · exact absurd rfl (hnil _ _ _ _ rfl)
    · obtain rfl := Except.ok.inj h
      exact (Builds.refl hb).congr hempty.symm

/-- The part of a range before a character, unless it would end at U+FEFF. -/
theorem part_before (hstart : isValidUnicode start = true) (hc : isValidUnicode c = true)
    (hlt : start < c) (hmark : c = 0xFF00 → 0xFEFF < start) :
    ∃ stop, previousScalar c = some stop ∧ start ≤ stop ∧ stop < c ∧
      CharRange.ofChars start stop = ⟨start, stop⟩ ∧ CharRange.Valid ⟨start, stop⟩ ∧
      points ⟨start, stop⟩ = {x | IsScalar x ∧ start ≤ x ∧ x < c} := by
  have hstart' := (isValidUnicode_iff_scalar start).mp hstart
  have hspec (x : Nat) (hx : IsScalar x) := previousScalar_spec hc hx
  cases hprevious : previousScalar c with
  | none =>
    have hzero := hspec start hstart'.1
    rw [hprevious] at hzero
    exact absurd hlt (by rw [show c = 0 from hzero]; exact Nat.not_lt_zero start)
  | some stop =>
    simp only [hprevious] at hspec
    obtain ⟨hscalar, hle, hfeff⟩ := hspec start hstart'.1
    have hstop : stop < c := ((hspec stop hscalar).2.1).mp (Nat.le_refl stop)
    have hends : start ≤ stop := hle.mpr hlt
    have hvalid : isValidUnicode stop = true := by
      refine (isValidUnicode_iff_scalar stop).mpr ⟨hscalar, fun heq => ?_⟩
      have := hmark (hfeff.mp heq)
      omega
    refine ⟨stop, rfl, hends, hstop, CharRange.ofChars_valid hstart hvalid hends,
      ⟨hstart, hvalid, hends⟩, ?_⟩
    ext x
    constructor
    · exact fun ⟨hx, hlow, hhigh⟩ => ⟨hx, hlow, (hspec x hx).2.1.mp hhigh⟩
    · exact fun ⟨hx, hlow, hbefore⟩ => ⟨hx, hlow, (hspec x hx).2.1.mpr hbefore⟩

/-- The part of a range after a character, unless it would begin at U+FEFF. -/
theorem part_after (hstop : isValidUnicode stop = true) (hc : isValidUnicode c = true)
    (hlt : c < stop) (hmark : c ≠ 0xFEFE) :
    ∃ start, nextScalar c = some start ∧ isValidUnicode start = true ∧ c < start ∧ start ≤ stop ∧
      CharRange.ofChars start stop = ⟨start, stop⟩ ∧ CharRange.Valid ⟨start, stop⟩ ∧
      ∀ x, IsScalar x → (start ≤ x ↔ c < x) := by
  have hstop' := (isValidUnicode_iff_scalar stop).mp hstop
  have hspec (x : Nat) (hx : IsScalar x) := nextScalar_spec hc hx
  cases hnext : nextScalar c with
  | none =>
    have hlast := hspec stop hstop'.1
    rw [hnext] at hlast
    exact absurd hlt (Nat.not_lt.mpr hlast)
  | some start =>
    simp only [hnext] at hspec
    obtain ⟨hscalar, hle, hfeff⟩ := hspec stop hstop'.1
    have hstart : c < start := ((hspec start hscalar).2.1).mp (Nat.le_refl start)
    have hends : start ≤ stop := hle.mpr hlt
    have hvalid : isValidUnicode start = true :=
      (isValidUnicode_iff_scalar start).mpr ⟨hscalar, fun heq => hmark (hfeff.mp heq)⟩
    exact ⟨start, rfl, hvalid, hstart, hends, CharRange.ofChars_valid hvalid hstop hends,
      ⟨hvalid, hstop, hends⟩, fun x hx => (hspec x hx).2.1⟩

/-- A range that has U+FEFF between its ends. -/
def CoversMark (low high : Nat) : Prop := low < 0xFEFF ∧ 0xFEFF < high

/-- A range that ends right before U+FEFF or begins right after it. -/
def BesideMark (ranges : List CharRange) : Prop := ∃ r ∈ ranges, r.high = 0xFEFE ∨ r.low = 0xFF00

theorem BesideMark.of_tail (h : BesideMark ranges) : BesideMark (r :: ranges) := by
  obtain ⟨s, hs, hmark⟩ := h
  exact ⟨s, List.mem_cons_of_mem r hs, hmark⟩

/-- The values of a range that the ranges on the right do not have. -/
def outside (start leftHigh : Nat) (right : List CharRange) : Set Nat :=
  {x | IsScalar x ∧ start ≤ x ∧ x ≤ leftHigh ∧ x ∉ scalars right}

theorem add_all (hb : Good b) (hr : CharRange.Valid r) (hbefore : Before b S) (hS : S = points r)
    (hadd : add b r = .ok b') : Builds b S b' := by
  subst hS
  exact add_builds hb hr hbefore hadd

theorem addRemainderBefore_builds (hb : Good b) (hr : CharRange.Valid r)
    (hstart : isValidUnicode start = true) (hle : r.low ≤ leftHigh)
    (hmark : r.low = 0xFF00 → 0xFEFF < start)
    (hbefore : Before b {x | IsScalar x ∧ start ≤ x ∧ x < r.low})
    (h : addRemainderBefore b leftHigh start r = .ok b') :
    Builds b {x | IsScalar x ∧ start ≤ x ∧ x < r.low} b' := by
  rw [addRemainderBefore] at h
  by_cases hlt : r.low > start
  · rw [if_pos hlt] at h
    obtain ⟨stop, hprevious, hends, hstop, hpiece, hvalid, hpoints⟩ :=
      part_before hstart hr.low hlt hmark
    rw [hprevious] at h
    simp only [if_pos hends] at h
    rw [min_eq_left (hstop.le.trans hle), hpiece] at h
    exact add_all hb hvalid hbefore hpoints.symm h
  · rw [if_neg hlt] at h
    obtain rfl := Except.ok.inj h
    refine (Builds.refl hb).congr (Set.eq_empty_iff_forall_notMem.mpr ?_).symm
    rintro x ⟨-, hlow, hhigh⟩
    exact hlt (hlow.trans_lt hhigh)

theorem subtractFrom_builds (hb : Good b) (hr : Normalized right)
    (hstart : isValidUnicode start = true) (hhigh : isValidUnicode leftHigh = true)
    (hle : start ≤ leftHigh) (hends : ∀ r ∈ right, start ≤ r.high)
    (hmark : CoversMark start leftHigh → ¬ BesideMark right)
    (hbefore : Before b (outside start leftHigh right))
    (h : subtractFrom b leftHigh start right = .ok b') :
    Builds b (outside start leftHigh right) b' := by
  induction right generalizing b start with
  | nil =>
    rw [subtractFrom, if_pos hle, CharRange.ofChars_valid hstart hhigh hle] at h
    refine add_all hb ⟨hstart, hhigh, hle⟩ hbefore ?_ h
    ext x
    simp [outside, scalars_nil, points, Range.Contains]
  | cons r right ih =>
    have hstart' := (isValidUnicode_iff_scalar start).mp hstart
    have hhigh' := (isValidUnicode_iff_scalar leftHigh).mp hhigh
    rw [subtractFrom] at h
    by_cases hoverlap : r.low ≤ leftHigh
    · rw [if_pos hoverlap] at h
      obtain ⟨b₁, hadd, h⟩ := bind_eq_ok h
      have hlowmark : r.low = 0xFF00 → 0xFEFF < start := by
        intro heq
        by_contra hnot
        refine hmark ⟨by omega, by omega⟩ ⟨r, List.mem_cons_self, .inr heq⟩
      have hendmark : r.high < leftHigh → r.high ≠ 0xFEFE := by
        intro hlt heq
        have hfirst := hends r List.mem_cons_self
        refine hmark ⟨by omega, by omega⟩ ⟨r, List.mem_cons_self, .inl heq⟩
      have hsplit : outside start leftHigh (r :: right) = {x | IsScalar x ∧ start ≤ x ∧ x < r.low} ∪
          {x | IsScalar x ∧ r.high < x ∧ x ≤ leftHigh ∧ x ∉ scalars right} := by
        ext x
        have hgap := hr.high_lt (x := x)
        have hfirst := hends r List.mem_cons_self
        have horder := hr.head.le
        simp only [outside, scalars_cons, mem_points, Set.mem_ofPred_eq, Set.mem_union]
        grind
      rw [hsplit] at hbefore ⊢
      have hbuilds := addRemainderBefore_builds hb hr.head hstart hoverlap hlowmark
        (hbefore.subset Set.subset_union_left) hadd
      have hbefore₁ := hbuilds.before (hbefore.subset Set.subset_union_right) fun x hx y hy =>
        (hx.2.2.le.trans hr.head.le).trans hy.2.1.le
      refine hbuilds.trans ?_
      by_cases hlast : r.high ≥ leftHigh
      · rw [if_pos hlast] at h
        obtain rfl := Except.ok.inj h
        refine (Builds.refl hbuilds.good).congr (Set.eq_empty_iff_forall_notMem.mpr ?_).symm
        rintro x ⟨-, hlow, hle, -⟩
        exact absurd (hlow.trans_le hle) (Nat.not_lt.mpr hlast)
      · rw [if_neg hlast] at h
        obtain ⟨next, hnext, hvalid, hafter, hnextle, -, -, hiff⟩ :=
          part_after hhigh hr.head.high (Nat.not_le.mp hlast) (hendmark (Nat.not_le.mp hlast))
        rw [hnext] at h
        simp only [if_neg (Nat.not_lt.mpr hnextle)] at h
        have hrest : {x | IsScalar x ∧ r.high < x ∧ x ≤ leftHigh ∧ x ∉ scalars right} =
            outside next leftHigh right := by
          ext x
          simp only [outside, Set.mem_ofPred_eq]
          exact and_congr_right fun hx => and_congr_left fun _ => (hiff x hx).symm
        rw [hrest] at hbefore₁ ⊢
        refine ih hbuilds.good hr.tail hvalid hnextle (fun t ht => ?_) (fun hcovers => ?_) hbefore₁ h
        · have htscalar := (hr.tail.valid t ht).proper
          exact (hiff _ htscalar.high).mpr (hr.high_lt ⟨htscalar.high, t, ht, htscalar.le, le_refl _⟩)
        · have hfirst := hends r List.mem_cons_self
          have hcovers' : CoversMark start leftHigh := ⟨by have := hcovers.1; omega, hcovers.2⟩
          exact fun hbeside => hmark hcovers' hbeside.of_tail
    · have hnot : ∀ x ∈ scalars (r :: right), leftHigh < x := fun x hx =>
        (Nat.not_le.mp hoverlap).trans_le (hr.low_le hx)
      rw [if_neg hoverlap, if_pos hle, CharRange.ofChars_valid hstart hhigh hle] at h
      refine add_all hb ⟨hstart, hhigh, hle⟩ hbefore ?_ h
      ext x
      have hx := hnot x
      simp only [outside, mem_points, Set.mem_ofPred_eq]
      grind

/-- The ranges that end before a character are of no use from there on. -/
theorem dropWhile_before (hr : Normalized right) (low : Nat) :
    Normalized (right.dropWhile fun r => decide (r.high < low)) ∧
      (∀ r ∈ right.dropWhile fun r => decide (r.high < low), r ∈ right ∧ low ≤ r.high) ∧
      ∀ x, low ≤ x → (x ∈ scalars (right.dropWhile fun r => decide (r.high < low)) ↔
        x ∈ scalars right) := by
  induction right with
  | nil => exact ⟨hr, fun r hmem => absurd hmem List.not_mem_nil, fun x _ => Iff.rfl⟩
  | cons r right ih =>
    obtain ⟨hnormal, hmem, hscalars⟩ := ih hr.tail
    by_cases hlt : r.high < low
    · rw [List.dropWhile_cons, if_pos (decide_eq_true hlt)]
      refine ⟨hnormal, fun s hs => ⟨List.mem_cons_of_mem r (hmem s hs).1, (hmem s hs).2⟩,
        fun x hx => (hscalars x hx).trans ?_⟩
      rw [scalars_cons, Set.mem_union, mem_points]
      grind
    · have hkeep : ¬ decide (r.high < low) = true := by simpa using hlt
      rw [List.dropWhile_cons, if_neg hkeep]
      refine ⟨hr, fun s hs => ⟨hs, ?_⟩, fun x _ => Iff.rfl⟩
      rcases List.mem_cons.mp hs with rfl | htail
      · exact Nat.not_lt.mp hlt
      · have hproper := (hr.tail.valid s htail).proper
        have hgap := hr.high_lt ⟨hproper.high, s, htail, hproper.le, le_refl _⟩
        exact (Nat.not_lt.mp hlt).trans hgap.le

theorem subtractRanges_builds (hb : Good b) (hl : Normalized left) (hr : Normalized right)
    (hmark : ∀ l ∈ left, CoversMark l.low l.high → ¬ BesideMark right)
    (hbefore : Before b (scalars left \ scalars right))
    (h : subtractRanges b left right = .ok b') :
    Builds b (scalars left \ scalars right) b' := by
  induction left generalizing b right with
  | nil =>
    rw [subtractRanges] at h
    obtain rfl := Except.ok.inj h
    exact (Builds.refl hb).congr (by rw [scalars_nil, Set.empty_sdiff])
  | cons l left ih =>
    rw [subtractRanges] at h
    obtain ⟨b₁, hfrom, h⟩ := bind_eq_ok h
    obtain ⟨hnormal, hmem, hscalars⟩ := dropWhile_before hr l.low
    have hbeside (hb : BesideMark (right.dropWhile fun r => decide (r.high < l.low))) :
        BesideMark right := by
      obtain ⟨r, hmemr, hends⟩ := hb
      exact ⟨r, (hmem r hmemr).1, hends⟩
    have hsplit : scalars (l :: left) \ scalars right =
        outside l.low l.high (right.dropWhile fun r => decide (r.high < l.low)) ∪
          (scalars left \ scalars (right.dropWhile fun r => decide (r.high < l.low))) := by
      ext x
      have hgap := hl.high_lt (x := x)
      have horder := hl.head.le
      have hsame := hscalars x
      simp only [outside, scalars_cons, mem_points, Set.mem_ofPred_eq, Set.mem_union, Set.mem_sdiff]
      grind
    rw [hsplit] at hbefore ⊢
    have hbuilds := subtractFrom_builds hb hnormal hl.head.low hl.head.high hl.head.le
      (fun r hmemr => (hmem r hmemr).2)
      (fun hcovers hb => hmark l List.mem_cons_self hcovers (hbeside hb))
      (hbefore.subset Set.subset_union_left) hfrom
    have hbefore₁ := hbuilds.before (hbefore.subset Set.subset_union_right) fun x hx y hy =>
      hx.2.2.1.trans (hl.high_lt hy.1).le
    exact hbuilds.trans (ih hbuilds.good hl.tail hnormal
      (fun t ht hcovers hb => hmark t (List.mem_cons_of_mem l ht) hcovers (hbeside hb)) hbefore₁ h)

theorem keepBefore_builds (hb : Good b) (he : CharRange.Valid existing) (hr : CharRange.Valid r)
    (hoverlap : r.low ≤ existing.high)
    (hmark : CoversMark existing.low existing.high → ¬ BesideMark [r])
    (hbefore : Before b {x | IsScalar x ∧ existing.low ≤ x ∧ x < r.low})
    (h : keepBefore b existing r = .ok b') :
    Builds b {x | IsScalar x ∧ existing.low ≤ x ∧ x < r.low} b' := by
  rw [keepBefore] at h
  by_cases hlt : existing.low < r.low
  · have hstart := (isValidUnicode_iff_scalar existing.low).mp he.low
    have hlowmark : r.low = 0xFF00 → 0xFEFF < existing.low := by
      intro heq
      by_contra hnot
      refine hmark ⟨by omega, by omega⟩ ⟨r, List.mem_singleton_self r, .inr heq⟩
    obtain ⟨stop, hprevious, hends, -, hpiece, hvalid, hpoints⟩ :=
      part_before he.low hr.low hlt hlowmark
    rw [if_pos hlt, hprevious] at h
    simp only [if_pos hends] at h
    rw [hpiece] at h
    exact add_all hb hvalid hbefore hpoints.symm h
  · rw [if_neg hlt] at h
    obtain rfl := Except.ok.inj h
    refine (Builds.refl hb).congr (Set.eq_empty_iff_forall_notMem.mpr ?_).symm
    rintro x ⟨-, hlow, hhigh⟩
    exact hlt (hlow.trans_lt hhigh)

theorem keepAfter_builds (hb : Good b) (he : CharRange.Valid existing) (hr : CharRange.Valid r)
    (hoverlap : existing.low ≤ r.high)
    (hmark : CoversMark existing.low existing.high → ¬ BesideMark [r])
    (hbefore : Before b {x | IsScalar x ∧ r.high < x ∧ x ≤ existing.high})
    (h : keepAfter b existing r = .ok b') :
    Builds b {x | IsScalar x ∧ r.high < x ∧ x ≤ existing.high} b' := by
  rw [keepAfter] at h
  by_cases hlt : existing.high > r.high
  · have hstop := (isValidUnicode_iff_scalar existing.high).mp he.high
    have hendmark : r.high ≠ 0xFEFE := by
      intro heq
      refine hmark ⟨by omega, by omega⟩ ⟨r, List.mem_singleton_self r, .inl heq⟩
    obtain ⟨start, hnext, -, -, hends, hpiece, hvalid, hiff⟩ := part_after he.high hr.high hlt hendmark
    rw [if_pos hlt, hnext] at h
    simp only [if_pos hends] at h
    rw [hpiece] at h
    refine add_all hb hvalid hbefore ?_ h
    ext x
    exact and_congr_right fun hx => and_congr_left fun _ => (hiff x hx).symm
  · rw [if_neg hlt] at h
    obtain rfl := Except.ok.inj h
    refine (Builds.refl hb).congr (Set.eq_empty_iff_forall_notMem.mpr ?_).symm
    rintro x ⟨-, hlow, hhigh⟩
    exact hlt (hlow.trans_le hhigh)

theorem overlaps_iff {r s : CharRange} (hr : CharRange.Valid r) (hs : CharRange.Valid s) :
    CharRange.overlaps r s = true ↔ r.low ≤ s.high ∧ s.low ≤ r.high := by
  simp [CharRange.overlaps, hr.isEmpty, hs.isEmpty]

theorem removeFromRanges_builds (hb : Good b) (hranges : Normalized ranges)
    (hr : CharRange.Valid r)
    (hmark : ∀ l ∈ ranges, CoversMark l.low l.high → ¬ BesideMark [r])
    (hbefore : Before b (scalars ranges \ points r))
    (h : removeFromRanges b r ranges = .ok b') :
    Builds b (scalars ranges \ points r) b' := by
  induction ranges generalizing b with
  | nil =>
    rw [removeFromRanges] at h
    obtain rfl := Except.ok.inj h
    exact (Builds.refl hb).congr (by rw [scalars_nil, Set.empty_sdiff])
  | cons l ranges ih =>
    have hgap (x) := hranges.high_lt (x := x)
    have hoverlaps := overlaps_iff hranges.head hr
    have hmark' := fun t ht => hmark t (List.mem_cons_of_mem l ht)
    rw [removeFromRanges] at h
    by_cases hoverlap : CharRange.overlaps l r = true
    · rw [if_neg (not_not.mpr hoverlap)] at h
      obtain ⟨b₁, hbef, h⟩ := bind_eq_ok h
      obtain ⟨b₂, haft, h⟩ := bind_eq_ok h
      obtain ⟨hle, hle'⟩ := hoverlaps.mp hoverlap
      have hsplit : scalars (l :: ranges) \ points r =
          {x | IsScalar x ∧ l.low ≤ x ∧ x < r.low} ∪
            ({x | IsScalar x ∧ r.high < x ∧ x ≤ l.high} ∪ (scalars ranges \ points r)) := by
        ext x
        have hnext := hgap x
        have horder := hr.le
        have hscalar := mem_scalar x ranges
        simp only [scalars_cons, mem_points, Set.mem_ofPred_eq, Set.mem_union, Set.mem_sdiff]
        grind
      rw [hsplit] at hbefore ⊢
      have hbuilds := keepBefore_builds hb hranges.head hr hle' (hmark l List.mem_cons_self)
        (hbefore.subset Set.subset_union_left) hbef
      have hbefore₁ := hbuilds.before (hbefore.subset Set.subset_union_right) fun x hx y hy => by
        have horder := hr.le
        have hnext := hgap y
        simp only [Set.mem_ofPred_eq, Set.mem_union, Set.mem_sdiff, mem_points] at hx hy
        grind
      refine hbuilds.trans ?_
      have hbuilds₂ := keepAfter_builds hbuilds.good hranges.head hr hle (hmark l List.mem_cons_self)
        (hbefore₁.subset Set.subset_union_left) haft
      have hbefore₂ := hbuilds₂.before (hbefore₁.subset Set.subset_union_right) fun x hx y hy =>
        hx.2.2.trans (hgap y hy.1).le
      exact hbuilds₂.trans (ih hbuilds₂.good hranges.tail hmark' hbefore₂ h)
    · rw [if_pos hoverlap] at h
      obtain ⟨b₁, hadd, h⟩ := bind_eq_ok h
      have hsplit : scalars (l :: ranges) \ points r = points l ∪ (scalars ranges \ points r) := by
        ext x
        rw [hoverlaps] at hoverlap
        simp only [scalars_cons, mem_points, Set.mem_union, Set.mem_sdiff]
        grind
      obtain ⟨hgood, hnext, hdone⟩ := add_first hb hranges.head hbefore hsplit
        (fun y hy => hranges.head.le.trans (hgap y hy.1).le) hadd
      exact hdone b' (ih hgood hranges.tail hmark' hnext h)

end ErbslandCore.Text.CharSet
