import Mathlib.Data.List.Sort
import ErbslandCore.Text.Utf8

namespace ErbslandCore.Text
open Library
set_option autoImplicit true

/-- The entries of a map, in the order of their keys. -/
abbrev StringMap (α : Type _) := List (List UInt8 × α)

namespace StringMap

def contains (map : StringMap α) (key : List UInt8) : Bool :=
  map.any fun entry => compare key entry.1 = .eq

/-- The entry takes the place of one with an equivalent key. -/
def set (key : List UInt8) (value : α) : StringMap α → StringMap α
  | [] => [(key, value)]
  | (k, v) :: entries => match compare key k with
    | .lt => (key, value) :: (k, v) :: entries
    | .eq => (key, value) :: entries
    | .gt => (k, v) :: set key value entries

/-- The order of the entries of a map. -/
def Precedes (a b : List UInt8 × α) : Prop := compare a.1 b.1 = .lt

def Sorted (map : StringMap α) : Prop := map.Pairwise Precedes

theorem precedes_trans {a b c : List UInt8 × α} (h₁ : Precedes a b) (h₂ : Precedes b c) :
    Precedes a c :=
  (compare_lt_iff _ _).mpr (lt_trans ((compare_lt_iff _ _).mp h₁) ((compare_lt_iff _ _).mp h₂))

theorem precedes_irrefl (a : List UInt8 × α) : ¬ Precedes a a :=
  fun h => lt_irrefl _ ((compare_lt_iff _ _).mp h)

theorem set_perm (map : StringMap α) (value : α) (h : map.contains key = false) :
    (map.set key value).Perm ((key, value) :: map) := by
  induction map with
  | nil => exact List.Perm.refl _
  | cons entry entries ih =>
    obtain ⟨k, v⟩ := entry
    rw [contains, List.any_cons, Bool.or_eq_false_iff, decide_eq_false_iff_not] at h
    rw [set]
    split
    · exact List.Perm.refl _
    · next he => exact absurd he h.1
    · exact ((ih h.2).cons _).trans (List.Perm.swap ..)

theorem set_sorted (map : StringMap α) (hs : Sorted map) (h : map.contains key = false) :
    Sorted (map.set key value) := by
  induction map with
  | nil => exact List.pairwise_singleton _ _
  | cons entry entries ih =>
    obtain ⟨k, v⟩ := entry
    obtain ⟨hk, hs⟩ := List.pairwise_cons.mp hs
    rw [contains, List.any_cons, Bool.or_eq_false_iff, decide_eq_false_iff_not] at h
    rw [set]
    split
    · next hlt =>
      refine List.pairwise_cons.mpr ⟨?_, List.pairwise_cons.mpr ⟨hk, hs⟩⟩
      intro b hb
      rcases List.mem_cons.mp hb with rfl | hb
      · exact hlt
      · exact precedes_trans (b := (k, v)) hlt (hk b hb)
    · next he => exact absurd he h.1
    · next hgt =>
      refine List.pairwise_cons.mpr ⟨?_, ih hs h.2⟩
      intro b hb
      rcases List.mem_cons.mp ((set_perm entries value h.2).mem_iff.mp hb) with rfl | hb
      · exact (compare_lt_iff _ _).mpr ((compare_gt_iff _ _).mp hgt)
      · exact hk b hb

/-- The map of entries that are set one after another. -/
def setAll (map entries : StringMap α) : StringMap α :=
  entries.foldl (fun map entry => map.set entry.1 entry.2) map

/-- Entries with keys that are not equivalent, in any order. -/
def Distinct (entries : StringMap α) : Prop :=
  entries.Pairwise fun a b => compare b.1 a.1 ≠ .eq

theorem Sorted.distinct {map : StringMap α} (h : Sorted map) : Distinct map := by
  refine h.imp fun {a b} hab he => ?_
  rw [compare_eq_iff] at he
  exact lt_irrefl _ (he ▸ (compare_lt_iff _ _).mp hab)

theorem Distinct.perm {entries entries' : StringMap α} (h : Distinct entries)
    (hp : entries.Perm entries') : Distinct entries' := by
  refine List.Pairwise.perm h hp fun {a b} hab he => hab ?_
  rw [compare_eq_iff] at he ⊢
  exact he.symm

theorem contains_eq_false_iff (map : StringMap α) (key : List UInt8) :
    map.contains key = false ↔ ∀ entry ∈ map, compare key entry.1 ≠ .eq := by
  simp [contains]

theorem contains_set {map : StringMap α} (hc : map.contains key = false)
    (hn : map.contains other = false) (h : compare other key ≠ .eq) :
    (map.set key value).contains other = false := by
  rw [contains_eq_false_iff]
  intro x hx
  rcases List.mem_cons.mp ((set_perm map _ hc).mem_iff.mp hx) with rfl | hx
  · exact h
  · exact (contains_eq_false_iff map other).mp hn x hx

theorem contains_of_set (map : StringMap α) (value : α) (hc : map.contains key = false)
    (h : (map.set key value).contains other = false) :
    compare other key ≠ .eq ∧ map.contains other = false := by
  have hall := (contains_eq_false_iff (map.set key value) other).mp h
  have hp := set_perm map value hc
  exact ⟨hall _ (hp.mem_iff.mpr (List.mem_cons_self ..)),
    (contains_eq_false_iff map other).mpr fun x hx =>
      hall x (hp.mem_iff.mpr (List.mem_cons_of_mem _ hx))⟩

theorem setAll_sorted (map entries : StringMap α) (hs : Sorted map) (hd : Distinct entries)
    (hn : ∀ entry ∈ entries, map.contains entry.1 = false) :
    Sorted (map.setAll entries) ∧ (map.setAll entries).Perm (map ++ entries) := by
  induction entries generalizing map with
  | nil => exact ⟨hs, by rw [List.append_nil]; exact List.Perm.refl _⟩
  | cons entry entries ih =>
    obtain ⟨hk, hd⟩ := List.pairwise_cons.mp hd
    have hc := hn entry (List.mem_cons_self ..)
    have hp := set_perm map entry.2 hc
    have hn' : ∀ e ∈ entries, (map.set entry.1 entry.2).contains e.1 = false := fun e he =>
      contains_set hc (hn e (List.mem_cons_of_mem _ he)) (hk e he)
    obtain ⟨hs', hp'⟩ := ih (map.set entry.1 entry.2) (set_sorted map hs hc) hd hn'
    exact ⟨hs', hp'.trans ((hp.append_right entries).trans List.perm_middle.symm)⟩

/-- A map is restored from its entries in any order. -/
theorem setAll_perm {map entries : StringMap α} (hs : Sorted map) (hp : entries.Perm map) :
    setAll [] entries = map := by
  obtain ⟨hs', hp'⟩ := setAll_sorted [] entries List.Pairwise.nil (hs.distinct.perm hp.symm)
    fun _ _ => rfl
  refine List.Perm.eq_of_pairwise (fun a b _ _ hab hba => ?_) hs' hs (hp'.trans hp)
  exact absurd (precedes_trans hab hba) (precedes_irrefl a)

end StringMap
end ErbslandCore.Text
