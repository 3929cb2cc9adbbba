import Mathlib.Algebra.BigOperators.Group.List.Basic

namespace ErbslandCore.Library
set_option autoImplicit true

section
variable [AddMonoid α] (Fits : α → Prop) [DecidablePred Fits]

/-- The sum of terms that are added one after another, while they and the sums so far fit. -/
def checkedSum (total : α) : List α → Option α
  | [] => some total
  | x :: xs => if Fits x ∧ Fits (total + x) then checkedSum (total + x) xs else none

omit [DecidablePred Fits] in
/-- All terms fit, and so do all sums that begin with the first term. -/
def AllFit (total : α) (xs : List α) : Prop :=
  (∀ x ∈ xs, Fits x) ∧ ∀ ys, ys ≠ [] → ys <+: xs → Fits (total + ys.sum)

variable {Fits}

omit [DecidablePred Fits] in
theorem allFit_nil (total : α) : AllFit Fits total [] :=
  ⟨fun _ hx => absurd hx List.not_mem_nil, fun _ hne hys => absurd (List.prefix_nil.mp hys) hne⟩

omit [DecidablePred Fits] in
theorem allFit_cons {total x : α} {xs : List α} :
    AllFit Fits total (x :: xs) ↔ (Fits x ∧ Fits (total + x)) ∧ AllFit Fits (total + x) xs := by
  constructor
  · intro h
    refine ⟨⟨h.1 x List.mem_cons_self, ?_⟩, fun y hy => h.1 y (List.mem_cons_of_mem _ hy), ?_⟩
    · have hone := h.2 [x] (List.cons_ne_nil _ _) ((List.prefix_append [x] xs))
      rwa [List.sum_singleton] at hone
    · intro ys _ hys
      have hmore := h.2 (x :: ys) (List.cons_ne_nil _ _) (List.cons_prefix_cons.mpr ⟨rfl, hys⟩)
      rwa [List.sum_cons, ← add_assoc] at hmore
  · rintro ⟨⟨hx, htotal⟩, hall, hsums⟩
    constructor
    · intro y hy
      rcases List.mem_cons.mp hy with rfl | hy
      · exact hx
      · exact hall y hy
    · intro ys hne hys
      cases ys with
      | nil => exact absurd rfl hne
      | cons y ys =>
        obtain ⟨rfl, htail⟩ := List.cons_prefix_cons.mp hys
        rw [List.sum_cons, ← add_assoc]
        by_cases hnil : ys = []
        · rwa [hnil, List.sum_nil, add_zero]
        · exact hsums ys hnil htail

theorem checkedSum_eq_some {total sum : α} {xs : List α} :
    checkedSum Fits total xs = some sum ↔ AllFit Fits total xs ∧ sum = total + xs.sum := by
  induction xs generalizing total with
  | nil =>
    rw [checkedSum, Option.some.injEq, List.sum_nil, add_zero]
    exact ⟨fun h => ⟨allFit_nil total, h.symm⟩, fun h => h.2.symm⟩
  | cons x xs ih =>
    rw [checkedSum, allFit_cons, List.sum_cons, ← add_assoc]
    split_ifs with hfits
    · rw [ih, and_iff_right hfits]
    · exact ⟨nofun, fun h => absurd h.1.1 hfits⟩

end
end ErbslandCore.Library
