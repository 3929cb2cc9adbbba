import Mathlib.Data.List.Basic

namespace ErbslandCore.Library.Nesting
set_option autoImplicit true

/-- One level of nested work: the item in progress and its siblings that still wait. -/
structure Level (α : Type) where
  current : α
  pending : List α

/-- All levels on one stack, the innermost level first. -/
def flatten : List (Level α) → List α
  | [] => []
  | level :: outer => level.current :: (level.pending ++ flatten outer)

/-- The stack after a current item was finished: its next sibling takes its place. -/
def finish : List (Level α) → List (Level α)
  | [] => []
  | ⟨_, []⟩ :: outer => outer
  | ⟨_, next :: pending⟩ :: outer => ⟨next, pending⟩ :: outer

/-- Items are opened below the current one; without items nothing is opened. -/
def descend : List α → List (Level α) → List (Level α)
  | [], outer => outer
  | first :: rest, outer => ⟨first, rest⟩ :: outer

theorem flatten_finish (current : α) (pending : List α) (outer : List (Level α)) :
    flatten (finish (⟨current, pending⟩ :: outer)) = pending ++ flatten outer := by
  cases pending with
  | nil => rfl
  | cons next pending => rfl

theorem flatten_descend (items : List α) (outer : List (Level α)) :
    flatten (descend items outer) = items ++ flatten outer := by
  cases items with
  | nil => rfl
  | cons first rest => rfl

section
variable {step : List α → List α → Prop} {level work : α → Nat} {bound : Nat}

/-- Each step finishes the first item or works on it and opens items of deeper levels. -/
structure Unfolds (step : List α → List α → Prop) (level work : α → Nat) (bound : Nat) : Prop where
  nil : ∀ t, ¬ step [] t
  cons : ∀ x rest t, step (x :: rest) t → t = rest ∨ ∃ y opened, t = opened ++ y :: rest ∧
    level y = level x ∧ work y < work x ∧ ∀ z ∈ opened, level x < level z ∧ level z ≤ bound

/-- There is no infinite run from the stack. -/
def Terminates (step : List α → List α → Prop) : List α → Prop := Acc fun t s => step s t

theorem terminates_nil (h : Unfolds step level work bound) : Terminates step [] :=
  .intro _ fun t ht => absurd ht (h.nil t)

theorem terminates_append {items rest : List α} (hrest : Terminates step rest)
    (h : ∀ x ∈ items, ∀ t, Terminates step t → Terminates step (x :: t)) :
    Terminates step (items ++ rest) := by
  induction items with
  | nil => exact hrest
  | cons x items ih =>
    exact h x List.mem_cons_self _ (ih fun y hy => h y (List.mem_cons_of_mem _ hy))

/-- The outer induction is on the depth left, the inner one on the work of the first item. -/
theorem terminates_cons (h : Unfolds step level work bound) (x : α) (hx : level x ≤ bound)
    (rest : List α) (hrest : Terminates step rest) : Terminates step (x :: rest) := by
  induction hd : bound - level x using Nat.strongRecOn generalizing x rest with
  | _ depth outer =>
    induction hw : work x using Nat.strongRecOn generalizing x with
    | _ w inner =>
      refine .intro _ fun t ht => ?_
      rcases h.cons x rest t ht with rfl | ⟨y, opened, rfl, hlevel, hwork, hopened⟩
      · exact hrest
      · have hy : Terminates step (y :: rest) :=
          inner (work y) (hw ▸ hwork) y (hlevel ▸ hx) (hlevel ▸ hd) rfl
        apply terminates_append hy
        intro z hz t ht
        obtain ⟨hlt, hle⟩ := hopened z hz
        have hdepth : bound - level z < depth := by omega
        exact outer (bound - level z) hdepth z hle t ht rfl

/-- Nested work of bounded depth terminates, whatever the items open. -/
theorem terminates (h : Unfolds step level work bound) (items : List α)
    (hitems : ∀ x ∈ items, level x ≤ bound) : Terminates step items := by
  have := terminates_append (terminates_nil h) fun x hx t ht =>
    terminates_cons h x (hitems x hx) t ht
  rwa [List.append_nil] at this

end

end ErbslandCore.Library.Nesting
