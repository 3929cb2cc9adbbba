import Mathlib.Data.List.Chain
import Mathlib.Data.List.Nodup

namespace ErbslandCore.Library
set_option autoImplicit true

/-- A search for a path: the edges, the nodes that a path may pass and those it may end in, the
most nodes of a path, and what a complete path must satisfy. -/
structure PathProblem (Node : Type) where
  Edge : Node → Node → Prop
  Inner : Node → Prop
  Goal : Node → Prop
  bound : Nat
  Good : List Node → Prop

namespace PathProblem

variable {Node : Type} (P : PathProblem Node)

/-- The ways to complete a path whose last node is given, one new node after the other. -/
inductive Completes : List Node → Node → List Node → Prop
  | goal (hedge : P.Edge last node) (hnew : node ∉ path) (hbound : path.length < P.bound)
      (hgoal : P.Goal node) (hgood : P.Good (path ++ [node])) : Completes path last [node]
  | step (hedge : P.Edge last node) (hnew : node ∉ path) (hbound : path.length < P.bound)
      (hinner : P.Inner node) (hrest : Completes (path ++ [node]) node rest) :
      Completes path last (node :: rest)

/-- The paths from a node on as a whole. -/
structure IsPath (path : List Node) (last : Node) (rest : List Node) : Prop where
  chain : (last :: rest).IsChain P.Edge
  inner : ∀ node ∈ rest.dropLast, P.Inner node
  goal : ∃ node ∈ rest.getLast?, P.Goal node
  distinct : (path ++ rest).Nodup
  bounded : (path ++ rest).length ≤ P.bound
  good : P.Good (path ++ rest)

variable {P}

theorem Completes.ne_nil (h : P.Completes path last rest) : rest ≠ [] := by
  cases h <;> simp

theorem Completes.edge (h : P.Completes path last (node :: rest)) : P.Edge last node := by
  cases h with
  | goal hedge => exact hedge
  | step hedge => exact hedge

theorem Completes.new (h : P.Completes path last (node :: rest)) : node ∉ path := by
  cases h with
  | goal _ hnew => exact hnew
  | step _ hnew => exact hnew

theorem Completes.length_lt (h : P.Completes path last (node :: rest)) : path.length < P.bound := by
  cases h with
  | goal _ _ hbound => exact hbound
  | step _ _ hbound => exact hbound

/-- The first node of a completion ends it or is passed. -/
theorem Completes.goal_or_inner (h : P.Completes path last (node :: rest)) :
    P.Goal node ∨ P.Inner node := by
  cases h with
  | goal _ _ _ hgoal => exact .inl hgoal
  | step _ _ _ hinner => exact .inr hinner

theorem Completes.good (h : P.Completes path last rest) : P.Good (path ++ rest) := by
  induction h with
  | goal _ _ _ _ hgood => exact hgood
  | step _ _ _ _ _ ih => rwa [List.append_assoc] at ih

theorem IsPath.of_goal (hpath : path.Nodup) (hedge : P.Edge last node) (hnew : node ∉ path)
    (hbound : path.length < P.bound) (hgoal : P.Goal node) (hgood : P.Good (path ++ [node])) :
    P.IsPath path last [node] where
  chain := .cons_cons hedge (.singleton _)
  inner := by simp
  goal := ⟨node, rfl, hgoal⟩
  distinct := List.nodup_append'.2 ⟨hpath, List.nodup_singleton _, by simpa using hnew⟩
  bounded := by rw [List.length_append]; exact hbound
  good := hgood

theorem IsPath.of_step (hedge : P.Edge last node) (hinner : P.Inner node)
    (hrest : P.IsPath (path ++ [node]) node rest) : P.IsPath path last (node :: rest) := by
  obtain ⟨chain, inner, ⟨goal, hlast, hgoal⟩, distinct, bounded, good⟩ := hrest
  have happend : path ++ [node] ++ rest = path ++ node :: rest := List.append_cons _ _ _ |>.symm
  have hne : rest ≠ [] := by rintro rfl; simp at hlast
  refine ⟨.cons_cons hedge chain, ?_, ⟨goal, ?_, hgoal⟩, happend ▸ distinct, happend ▸ bounded,
    happend ▸ good⟩
  · intro x hx
    rw [List.dropLast_cons_of_ne_nil hne, List.mem_cons] at hx
    rcases hx with rfl | hx
    · exact hinner
    · exact inner x hx
  · rwa [List.getLast?_cons_of_ne_nil hne]

theorem IsPath.completes (h : P.IsPath path last rest) : P.Completes path last rest := by
  induction rest generalizing path last with
  | nil =>
    obtain ⟨node, hnode, _⟩ := h.goal
    simp at hnode
  | cons node rest ih =>
    have hedge := (List.isChain_cons_cons.1 h.chain).1
    have hnew : node ∉ path := fun hmem =>
      List.disjoint_of_nodup_append h.distinct hmem (List.mem_cons_self ..)
    have hbound : path.length < P.bound := by
      have := h.bounded
      rw [List.length_append, List.length_cons] at this
      omega
    cases rest with
    | nil =>
      obtain ⟨goal, hlast, hgoal⟩ := h.goal
      cases (Option.mem_some_iff.1 hlast : node = goal)
      exact .goal hedge hnew hbound hgoal h.good
    | cons next rest =>
      have happend : path ++ node :: next :: rest = path ++ [node] ++ next :: rest :=
        List.append_cons _ _ _
      have hinner := h.inner node (List.mem_cons_self ..)
      refine .step hedge hnew hbound hinner (ih ⟨(List.isChain_cons_cons.1 h.chain).2, ?_, ?_,
        happend ▸ h.distinct, happend ▸ h.bounded, happend ▸ h.good⟩)
      · exact fun x hx => h.inner x (List.mem_cons_of_mem _ hx)
      · obtain ⟨goal, hlast, hgoal⟩ := h.goal
        exact ⟨goal, by rwa [List.getLast?_cons_cons] at hlast, hgoal⟩

/-- The completions of a path without repetitions are what follows it on the whole paths. -/
theorem completes_iff (hpath : path.Nodup) :
    P.Completes path last rest ↔ P.IsPath path last rest := by
  refine ⟨fun h => ?_, IsPath.completes⟩
  induction h with
  | goal hedge hnew hbound hgoal hgood => exact .of_goal hpath hedge hnew hbound hgoal hgood
  | step hedge hnew hbound hinner _ ih =>
    have hnodup := List.nodup_append'.2
      ⟨hpath, List.nodup_singleton _, List.disjoint_singleton.2 hnew⟩
    exact .of_step hedge hinner (ih hnodup)

end PathProblem
end ErbslandCore.Library
