import Mathlib.Data.List.Basic
import Mathlib.Logic.Function.Iterate
import Mathlib.Order.Nat

namespace ErbslandCore.Library.Boundaries
set_option autoImplicit true

/-- A division of lists into units, by the length of the first unit: the elements behind the first
one of a longer unit are recognized by themselves. -/
structure Units (α : Type) where
  length : List α → Nat
  IsContinuation : α → Prop
  length_pos : ∀ x xs, 0 < length (x :: xs)
  length_le : ∀ xs, length xs ≤ xs.length
  start : ∀ x xs, 1 < length (x :: xs) → ¬ IsContinuation x
  continuation : ∀ x xs k y, k + 1 < length (x :: xs) → xs[k]? = some y → IsContinuation y

namespace Units
variable (units : Units α) (xs : List α)

/-- The position behind the unit at a position. -/
def advance (position : Nat) : Nat :=
  if position < xs.length then position + units.length (xs.drop position) else position

/-- The positions that are reached from the start by passing over units. -/
def IsBoundary (position : Nat) : Prop := ∃ k, (units.advance xs)^[k] 0 = position

theorem isBoundary_zero : units.IsBoundary xs 0 := ⟨0, rfl⟩

variable {units xs}

theorem IsBoundary.advance (h : units.IsBoundary xs p) :
    units.IsBoundary xs (units.advance xs p) := by
  obtain ⟨k, rfl⟩ := h
  exact ⟨k + 1, Function.iterate_succ_apply' _ _ _⟩

theorem length_drop_pos (units : Units α) (h : p < xs.length) : 0 < units.length (xs.drop p) := by
  rw [List.drop_eq_getElem_cons h]
  exact units.length_pos _ _

theorem le_advance (units : Units α) (xs : List α) (p : Nat) : p ≤ units.advance xs p := by
  rw [Units.advance]
  split
  · exact Nat.le_add_right _ _
  · exact Nat.le_refl p

theorem advance_le (h : p ≤ xs.length) : units.advance xs p ≤ xs.length := by
  rw [Units.advance]
  split
  case isTrue =>
    have hle := units.length_le (xs.drop p)
    rw [List.length_drop] at hle
    omega
  case isFalse => exact h

theorem IsBoundary.le_length (h : units.IsBoundary xs p) : p ≤ xs.length := by
  obtain ⟨k, rfl⟩ := h
  induction k with
  | zero => exact Nat.zero_le _
  | succ k ih =>
    rw [Function.iterate_succ_apply']
    exact advance_le ih

theorem iterate_mono (units : Units α) (xs : List α) (h : k ≤ l) :
    (units.advance xs)^[k] 0 ≤ (units.advance xs)^[l] 0 := by
  induction h with
  | refl => exact Nat.le_refl _
  | step _ ih =>
    rw [Function.iterate_succ_apply']
    exact ih.trans (le_advance units xs _)

/-- No boundary lies inside a unit. -/
theorem IsBoundary.advance_le (hp : units.IsBoundary xs p) (hq : units.IsBoundary xs q)
    (h : p < q) : units.advance xs p ≤ q := by
  obtain ⟨k, rfl⟩ := hp
  obtain ⟨l, rfl⟩ := hq
  have hkl : k < l := by
    by_contra hle
    exact absurd h (Nat.not_lt.mpr (iterate_mono units xs (Nat.not_lt.mp hle)))
  rw [← Function.iterate_succ_apply' (units.advance xs) k 0]
  exact iterate_mono units xs hkl

/-- Every position is a boundary or lies inside the unit of one. -/
theorem exists_boundary (units : Units α) (h : q < xs.length) :
    ∃ p ≤ q, units.IsBoundary xs p ∧ q < units.advance xs p := by
  induction q with
  | zero =>
    refine ⟨0, Nat.le_refl 0, units.isBoundary_zero xs, ?_⟩
    rw [Units.advance, if_pos h, Nat.zero_add]
    exact length_drop_pos units h
  | succ q ih =>
    obtain ⟨p, hp, hboundary, hlt⟩ := ih (Nat.lt_of_succ_lt h)
    rcases Nat.lt_or_eq_of_le (Nat.succ_le_of_lt hlt) with hlt | heq
    · exact ⟨p, Nat.le_succ_of_le hp, hboundary, hlt⟩
    · have hnext : units.IsBoundary xs (q + 1) := by
        rw [show q + 1 = units.advance xs p from heq]
        exact hboundary.advance
      refine ⟨q + 1, Nat.le_refl _, hnext, ?_⟩
      rw [Units.advance, if_pos h]
      exact Nat.lt_add_of_pos_right (length_drop_pos units h)

/-- An element that continues no unit begins one. -/
theorem isBoundary_of_not_continuation (hx : xs[q]? = some x) (hstart : ¬ units.IsContinuation x) :
    units.IsBoundary xs q := by
  have hq : q < xs.length := (List.getElem?_eq_some_iff.mp hx).1
  obtain ⟨p, hp, hboundary, hlt⟩ := exists_boundary units hq
  rcases Nat.lt_or_eq_of_le hp with hp | rfl
  · rw [Units.advance, if_pos (hp.trans hq), List.drop_eq_getElem_cons (hp.trans hq)] at hlt
    have hinside : q - p - 1 + 1 < units.length (xs[p] :: xs.drop (p + 1)) := by omega
    have hindex : p + 1 + (q - p - 1) = q := by omega
    refine absurd (units.continuation _ _ _ x hinside ?_) hstart
    rw [List.getElem?_drop, hindex, hx]
  · exact hboundary

/-- A way back that takes the longer units that end at a position, and one element otherwise. -/
structure Retreats (units : Units α) (xs : List α) (retreat : Nat → Nat) : Prop where
  of_unit : ∀ p, p < xs.length → 1 < units.length (xs.drop p) →
    retreat (p + units.length (xs.drop p)) = p
  cases : ∀ p, 0 < p → p ≤ xs.length → retreat p = p - 1 ∨
    (retreat p < p ∧ 1 < units.length (xs.drop (retreat p)) ∧
      retreat p + units.length (xs.drop (retreat p)) = p)

/-- The way back from the position behind a unit leads to its first element. -/
theorem Retreats.retreat_advance {retreat : Nat → Nat} (h : units.Retreats xs retreat)
    (hp : units.IsBoundary xs p) (hlt : p < xs.length) :
    retreat (units.advance xs p) = p := by
  have hpos := length_drop_pos units hlt
  rcases Nat.lt_or_eq_of_le (Nat.succ_le_of_lt hpos) with hlong | hone
  · rw [Units.advance, if_pos hlt]
    exact h.of_unit p hlt hlong
  · have hnext : units.advance xs p = p + 1 := by
      rw [Units.advance, if_pos hlt, ← hone]
    rw [hnext]
    rcases h.cases (p + 1) (Nat.succ_pos p) hlt with heq | ⟨hback, hlong, hend⟩
    · exact heq
    · -- A longer unit that ends here has the boundary `p` inside it.
      have hq : retreat (p + 1) < xs.length := hback.trans_le hlt
      rw [List.drop_eq_getElem_cons hq] at hlong
      have hstart := units.start _ _ hlong
      have hboundary : units.IsBoundary xs (retreat (p + 1)) :=
        isBoundary_of_not_continuation (List.getElem?_eq_getElem hq) hstart
      rw [← List.drop_eq_getElem_cons hq] at hlong
      have hadvance : units.advance xs (retreat (p + 1)) = p + 1 := by
        rw [Units.advance, if_pos hq, hend]
      have hle := hboundary.advance_le hp (by omega)
      omega

/-- The boundaries met on the way back from the end are those met on the way from the start. -/
theorem Retreats.iterate_retreat {retreat : Nat → Nat} (h : units.Retreats xs retreat)
    (hlt : ∀ i < k, (units.advance xs)^[i] 0 < xs.length) (hi : i ≤ k) :
    retreat^[i] ((units.advance xs)^[k] 0) = (units.advance xs)^[k - i] 0 := by
  induction i with
  | zero => rfl
  | succ i ih =>
    have hsucc : k - i = (k - (i + 1)) + 1 := by omega
    rw [Function.iterate_succ_apply', ih (Nat.le_of_succ_le hi), hsucc,
      Function.iterate_succ_apply']
    exact h.retreat_advance ⟨_, rfl⟩ (hlt _ (by omega))

theorem advance_length (units : Units α) (xs : List α) :
    units.advance xs xs.length = xs.length := if_neg (Nat.lt_irrefl _)

theorem iterate_ge (units : Units α) (xs : List α) (k : Nat) :
    min k xs.length ≤ (units.advance xs)^[k] 0 := by
  induction k with
  | zero => exact Nat.min_le_left 0 _
  | succ k ih =>
    rw [Function.iterate_succ_apply']
    rcases Nat.lt_or_ge ((units.advance xs)^[k] 0) xs.length with hlt | hge
    · have hpos := length_drop_pos units hlt
      rw [Units.advance, if_pos hlt]
      omega
    · exact (Nat.min_le_right _ _).trans (hge.trans (le_advance units xs _))

/-- The number of units before the end. -/
theorem exists_end (units : Units α) (xs : List α) :
    ∃ k, (units.advance xs)^[k] 0 = xs.length ∧ ∀ i < k, (units.advance xs)^[i] 0 < xs.length := by
  have hexists : ∃ k, xs.length ≤ (units.advance xs)^[k] 0 := by
    have hge := iterate_ge units xs xs.length
    rw [Nat.min_self] at hge
    exact ⟨_, hge⟩
  refine ⟨Nat.find hexists, ?_, fun i hi => Nat.not_le.mp (Nat.find_min hexists hi)⟩
  exact Nat.le_antisymm (IsBoundary.le_length ⟨_, rfl⟩) (Nat.find_spec hexists)

/-- The boundaries are the positions that are reached on the way back from the end. -/
theorem Retreats.isBoundary_iff {retreat : Nat → Nat} (h : units.Retreats xs retreat)
    (hzero : retreat 0 = 0) : units.IsBoundary xs q ↔ ∃ k, retreat^[k] xs.length = q := by
  obtain ⟨n, hend, hbefore⟩ := exists_end units xs
  have hback : ∀ i ≤ n, retreat^[i] xs.length = (units.advance xs)^[n - i] 0 := by
    intro i hi
    rw [← hend]
    exact h.iterate_retreat hbefore hi
  constructor
  · rintro ⟨k, rfl⟩
    rcases Nat.lt_or_ge k n with hlt | hge
    · refine ⟨n - k, ?_⟩
      rw [hback (n - k) (Nat.sub_le n k), Nat.sub_sub_self hlt.le]
    · refine ⟨0, Nat.le_antisymm ?_ (IsBoundary.le_length ⟨k, rfl⟩)⟩
      rw [← hend]
      exact iterate_mono units xs hge
  · rintro ⟨k, rfl⟩
    rcases Nat.le_total k n with hle | hge
    · exact ⟨n - k, (hback k hle).symm⟩
    · refine ⟨0, ?_⟩
      obtain ⟨more, rfl⟩ := Nat.exists_eq_add_of_le' hge
      rw [Function.iterate_add_apply, hback n (Nat.le_refl n), Nat.sub_self]
      exact (Function.iterate_fixed hzero more).symm

end Units

end ErbslandCore.Library.Boundaries
