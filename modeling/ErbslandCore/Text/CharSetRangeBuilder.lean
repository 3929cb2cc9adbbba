import Mathlib.Data.Set.Lattice
import ErbslandCore.Library.Except
import ErbslandCore.Text.CharSetRanges

namespace ErbslandCore.Text
open Library Library.RangeSets Library.Utf8
set_option autoImplicit true

namespace CharSet

/-- Unused inline ranges come last, and shared data holds more ranges than fit inline. -/
def Storage.Compact : Storage → Prop
  | .inline first second => CharRange.isEmpty first = true → CharRange.isEmpty second = true
  | .shared ranges => 3 ≤ ranges.length

theorem Storage.ranges_empty (h : CharRange.isEmpty first = true) :
    (Storage.inline first second).ranges = [] := by
  rw [Storage.ranges, inlineRangeCount, if_pos h]
  rfl

theorem Storage.ranges_single (h : CharRange.isEmpty first = false)
    (h' : CharRange.isEmpty second = true) : (Storage.inline first second).ranges = [first] := by
  rw [Storage.ranges, inlineRangeCount, if_neg (by simp [h]), if_pos h']
  rfl

theorem Storage.ranges_pair (h : CharRange.isEmpty first = false)
    (h' : CharRange.isEmpty second = false) :
    (Storage.inline first second).ranges = [first, second] := by
  rw [Storage.ranges, inlineRangeCount, if_neg (by simp [h]), if_neg (by simp [h'])]
  rfl

/-- The scalar values of one range. -/
def points (range : CharRange) : Set Nat := {x | IsScalar x ∧ range.Contains x}

theorem scalars_append (ranges : List CharRange) (range : CharRange) :
    scalars (ranges ++ [range]) = scalars ranges ∪ points range := by
  ext x
  rw [scalars, mem_cover_append, mem_cover_cons, cover_nil]
  simp [scalars, points]

end CharSet

namespace CharSetRangeBuilder
open CharSet CharRange

def ranges (b : CharSetRangeBuilder) : List CharRange := b.storage.ranges

/-- What every builder holds between two additions. -/
structure Good (b : CharSetRangeBuilder) : Prop where
  compact : b.storage.Compact
  normalized : Normalized b.ranges

/-- The last range of a builder begins before some scalar values. -/
def Before (b : CharSetRangeBuilder) (values : Set Nat) : Prop :=
  ∀ last, b.ranges.getLast? = some last → ∀ x ∈ values, last.low ≤ x

/-- A builder that received some scalar values. -/
structure Builds (b : CharSetRangeBuilder) (values : Set Nat) (b' : CharSetRangeBuilder) : Prop where
  good : Good b'
  scalars : scalars b'.ranges = scalars b.ranges ∪ values
  last : ∀ last', b'.ranges.getLast? = some last' →
    (∃ last, b.ranges.getLast? = some last ∧ last'.low = last.low) ∨ last'.low ∈ values

theorem append_spec {b b' : CharSetRangeBuilder} (hb : b.storage.Compact) (hr : CharRange.Valid r)
    (h : append b r = .ok b') : b'.ranges = b.ranges ++ [r] ∧ b'.storage.Compact := by
  cases hs : b.storage with
  | shared data =>
    rw [hs] at hb
    rw [append, hs] at h
    obtain rfl := Except.ok.inj h
    rw [ranges, ranges, hs]
    refine ⟨rfl, ?_⟩
    rw [Storage.Compact, List.length_append]
    exact Nat.le_add_right_of_le hb
  | inline first second =>
    rw [hs] at hb
    rw [append, hs] at h
    rw [ranges, ranges, hs]
    cases hfirst : CharRange.isEmpty first with
    | true =>
      have hsecond := hb hfirst
      simp only [inlineRangeCount, hfirst, if_true] at h
      obtain rfl := Except.ok.inj h
      rw [Storage.ranges_empty hfirst, Storage.ranges_single hr.isEmpty hsecond]
      exact ⟨rfl, fun _ => hsecond⟩
    | false =>
      cases hsecond : CharRange.isEmpty second with
      | true =>
        simp only [inlineRangeCount, hfirst, hsecond, if_true, Bool.false_eq_true, if_false] at h
        obtain rfl := Except.ok.inj h
        rw [Storage.ranges_single hfirst hsecond, Storage.ranges_pair hfirst hr.isEmpty]
        exact ⟨rfl, fun hempty => by simp [hfirst] at hempty⟩
      | false =>
        simp only [inlineRangeCount, hfirst, hsecond, Bool.false_eq_true, if_false] at h
        obtain ⟨data, hdata, hb'⟩ := bind_eq_ok h
        rw [promote] at hdata
        split_ifs at hdata
        obtain rfl := Except.ok.inj hdata
        obtain rfl := Except.ok.inj hb'
        rw [Storage.ranges_pair hfirst hsecond]
        exact ⟨rfl, Nat.le_refl 3⟩

theorem replaceLast_spec {b : CharSetRangeBuilder} (hb : b.storage.Compact)
    (hlast : b.ranges = before ++ [last]) (hr : CharRange.Valid r) :
    (replaceLast b r).ranges = before ++ [r] ∧ (replaceLast b r).storage.Compact := by
  rw [ranges] at hlast
  cases hs : b.storage with
  | shared data =>
    rw [hs] at hb hlast
    rw [ranges, replaceLast, hs]
    have hdata : data = before ++ [last] := hlast
    simp only [Storage.ranges, Storage.Compact, hdata, List.dropLast_concat, List.length_append]
    rw [Storage.Compact, hdata, List.length_append] at hb
    exact ⟨trivial, hb⟩
  | inline first second =>
    rw [hs] at hb hlast
    rw [ranges, replaceLast, hs]
    cases hfirst : CharRange.isEmpty first with
    | true =>
      rw [Storage.ranges_empty hfirst] at hlast
      exact absurd hlast.symm (by simp)
    | false =>
      cases hsecond : CharRange.isEmpty second with
      | true =>
        rw [Storage.ranges_single hfirst hsecond] at hlast
        obtain ⟨rfl, -⟩ : before = [] ∧ last = first := by
          have heq : [] ++ [first] = before ++ [last] := hlast
          obtain ⟨h₁, h₂⟩ := List.append_inj' heq rfl
          exact ⟨h₁.symm, (List.singleton_inj.mp h₂).symm⟩
        simp only [inlineRangeCount, hfirst, hsecond, if_true, Bool.false_eq_true, if_false,
          Nat.reduceEqDiff]
        rw [Storage.ranges_single hr.isEmpty hsecond]
        exact ⟨rfl, fun _ => hsecond⟩
      | false =>
        rw [Storage.ranges_pair hfirst hsecond] at hlast
        obtain ⟨rfl, -⟩ : before = [first] ∧ last = second := by
          have heq : [first] ++ [second] = before ++ [last] := hlast
          obtain ⟨h₁, h₂⟩ := List.append_inj' heq rfl
          exact ⟨h₁.symm, (List.singleton_inj.mp h₂).symm⟩
        simp only [inlineRangeCount, hfirst, hsecond, if_true, Bool.false_eq_true, if_false]
        rw [Storage.ranges_pair hfirst hr.isEmpty]
        exact ⟨rfl, fun hempty => by simp [hfirst] at hempty⟩

theorem Good.empty (maximumRangeCount : Nat) : Good { maximumRangeCount } := by
  constructor
  · exact fun _ => isEmpty_empty
  · rw [ranges, Storage.ranges_empty isEmpty_empty]
    exact .nil

/-- Two ranges that are not merged are separated, in the order of their first characters. -/
theorem separated_of_not_merged {r s : CharRange} (hr : CharRange.Valid r) (hs : CharRange.Valid s)
    (hle : r.low ≤ s.low) (h : canMergeWith r s = false) : Separated IsScalar r s := by
  rcases (canMergeWith_eq_false hr hs).mp h with hsep | hsep
  · exact hsep
  · exact absurd (hsep.low_lt hs.proper) (Nat.not_lt.mpr hle)

theorem not_separated_of_merged {r s : CharRange} (hr : CharRange.Valid r) (hs : CharRange.Valid s)
    (h : canMergeWith r s = true) : ¬ Separated IsScalar r s := by
  intro hsep
  rw [(canMergeWith_eq_false hr hs).mpr (.inl hsep)] at h
  exact Bool.false_ne_true h

/-- A merged range begins with the first of both and has the scalar values of both. -/
theorem mergedWith_of_le {r s : CharRange} (hr : CharRange.Valid r) (hs : CharRange.Valid s)
    (hle : r.low ≤ s.low) (h : canMergeWith r s = true) :
    CharRange.Valid (mergedWith r s) ∧ (mergedWith r s).low = r.low ∧
      points (mergedWith r s) = points r ∪ points s := by
  obtain ⟨heq, hvalid⟩ := mergedWith_eq hr hs h
  rw [min_eq_left hle] at heq
  refine ⟨hvalid, by rw [heq], ?_⟩
  rw [heq]
  ext x
  constructor
  · rintro ⟨hx, hc⟩
    rcases (contains_around_iff hx hle (not_separated_of_merged hr hs h)).mp hc with hc | hc
    · exact .inl ⟨hx, hc⟩
    · exact .inr ⟨hx, hc⟩
  · rintro (⟨hx, hc⟩ | ⟨hx, hc⟩)
    · exact ⟨hx, (contains_around_iff hx hle (not_separated_of_merged hr hs h)).mpr (.inl hc)⟩
    · exact ⟨hx, (contains_around_iff hx hle (not_separated_of_merged hr hs h)).mpr (.inr hc)⟩

theorem low_mem_points {r : CharRange} (hr : CharRange.Valid r) : r.low ∈ points r :=
  ⟨hr.proper.low, Nat.le_refl _, hr.le⟩

variable {b b' b₁ : CharSetRangeBuilder} {S T : Set Nat}

/-- Adding the next range in ascending order. -/
theorem add_spec (hb : Good b) (hr : CharRange.Valid r) (hbefore : Before b (points r))
    (h : add b r = .ok b') : Good b' ∧ CharSet.scalars b'.ranges = CharSet.scalars b.ranges ∪ points r ∧
    ∀ last', b'.ranges.getLast? = some last' →
      (∃ last, b.ranges.getLast? = some last ∧ last'.low = last.low) ∨ last'.low = r.low := by
  rw [add, if_neg (by simp [hr.isEmpty])] at h
  rcases List.eq_nil_or_concat b.ranges with hnil | ⟨before, last, hlast⟩
  · have hget : b.storage.ranges.getLast? = none := by
      rw [show b.storage.ranges = [] from hnil]
      rfl
    rw [hget] at h
    obtain ⟨hranges, hcompact⟩ := append_spec hb.compact hr h
    have hsingle : Normalized (b.ranges ++ [r]) := by
      rw [hnil]
      exact ⟨fun s hs => List.mem_singleton.mp hs ▸ hr, List.pairwise_singleton _ _⟩
    refine ⟨⟨hcompact, hranges ▸ hsingle⟩, ?_, fun last' hlast' => .inr ?_⟩
    · rw [hranges, scalars_append]
    · rw [hranges, List.getLast?_append, List.getLast?_singleton, Option.some_or,
        Option.some.injEq] at hlast'
      rw [hlast']
  · rw [List.concat_eq_append] at hlast
    have hget : b.storage.ranges.getLast? = some last := by
      rw [show b.storage.ranges = before ++ [last] from hlast]
      exact List.getLast?_concat
    rw [hget] at h
    have hnormal := hlast ▸ hb.normalized
    have hvalid : CharRange.Valid last := hnormal.valid last (by simp)
    have hle : last.low ≤ r.low := hbefore last hget r.low (low_mem_points hr)
    simp only at h
    split_ifs at h with hmerge
    · obtain rfl := Except.ok.inj h
      obtain ⟨hmerged, hlow, hpoints⟩ := mergedWith_of_le hvalid hr hle hmerge
      obtain ⟨hranges, hcompact⟩ := replaceLast_spec hb.compact hlast hmerged
      have hnormalized : Normalized (before ++ [mergedWith last r]) := by
        refine ⟨fun s hs => ?_, (hnormal.normal.replace_last hmerged.proper hlow).separated⟩
        rcases List.mem_append.mp hs with hs | hs
        · exact hnormal.valid s (List.mem_append_left _ hs)
        · exact List.mem_singleton.mp hs ▸ hmerged
      refine ⟨⟨hcompact, hranges ▸ hnormalized⟩, ?_, fun last' hlast' => .inl ⟨last, hget, ?_⟩⟩
      · rw [hranges, scalars_append, hpoints, hlast, scalars_append, Set.union_assoc]
      · rw [hranges, List.getLast?_concat, Option.some.injEq] at hlast'
        rw [← hlast', hlow]
    · obtain ⟨hranges, hcompact⟩ := append_spec hb.compact hr h
      have hsep := separated_of_not_merged hvalid hr hle (Bool.eq_false_iff.mpr hmerge)
      have hnormalized : Normalized (before ++ [last] ++ [r]) := by
        refine ⟨fun s hs => ?_, (hnormal.normal.concat hr.proper hsep).separated⟩
        rcases List.mem_append.mp hs with hs | hs
        · exact hnormal.valid s hs
        · exact List.mem_singleton.mp hs ▸ hr
      rw [← hlast, ← hranges] at hnormalized
      refine ⟨⟨hcompact, hnormalized⟩, by rw [hranges, scalars_append], fun last' hlast' => .inr ?_⟩
      rw [hranges, List.getLast?_concat, Option.some.injEq] at hlast'
      rw [hlast']

theorem add_builds (hb : Good b) (hr : CharRange.Valid r) (hbefore : Before b (points r))
    (h : add b r = .ok b') : Builds b (points r) b' := by
  obtain ⟨hgood, hscalars, hlow⟩ := add_spec hb hr hbefore h
  refine ⟨hgood, hscalars, fun last' hlast' => (hlow last' hlast').imp_right fun heq => ?_⟩
  rw [heq]
  exact low_mem_points hr

theorem Builds.refl (hb : Good b) : Builds b ∅ b :=
  ⟨hb, (Set.union_empty _).symm, fun last hlast => .inl ⟨last, hlast, rfl⟩⟩

theorem Builds.trans (h₁ : Builds b S b₁) (h₂ : Builds b₁ T b') : Builds b (S ∪ T) b' := by
  refine ⟨h₂.good, by rw [h₂.scalars, h₁.scalars, Set.union_assoc], fun last' hlast' => ?_⟩
  rcases h₂.last last' hlast' with ⟨last₁, hlast₁, hlow⟩ | hmem
  · rcases h₁.last last₁ hlast₁ with ⟨last, hlast, hlow₁⟩ | hmem
    · exact .inl ⟨last, hlast, hlow.trans hlow₁⟩
    · exact .inr (.inl (hlow ▸ hmem))
  · exact .inr (.inr hmem)

theorem Builds.congr (h : Builds b S b') (heq : S = T) : Builds b T b' := heq ▸ h

theorem Before.subset (h : Before b S) (hsub : T ⊆ S) : Before b T :=
  fun last hlast x hx => h last hlast x (hsub hx)

/-- The values that follow are not before those that a builder received. -/
theorem Builds.before (h : Builds b S b') (hb : Before b T) (hle : ∀ x ∈ S, ∀ y ∈ T, x ≤ y) :
    Before b' T := by
  intro last' hlast' y hy
  rcases h.last last' hlast' with ⟨last, hlast, hlow⟩ | hmem
  · rw [hlow]
    exact hb last hlast y hy
  · exact hle _ hmem y hy

/-- The values that follow a range are not before its first character. -/
theorem before_of_add (hb : Good b) (hr : CharRange.Valid r) (hbefore : Before b (points r))
    (h : add b r = .ok b') (hle : ∀ y ∈ T, r.low ≤ y) : Before b' T := by
  intro last' hlast' y hy
  refine le_trans ?_ (hle y hy)
  rcases (add_spec hb hr hbefore h).2.2 last' hlast' with ⟨last, hlast, hlow⟩ | hlow
  · rw [hlow]
    exact hbefore last hlast r.low (low_mem_points hr)
  · exact hlow.le

end CharSetRangeBuilder

end ErbslandCore.Text
