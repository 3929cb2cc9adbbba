import Mathlib.Data.List.Basic

namespace ErbslandCore.Library
set_option autoImplicit true

/-- Two segments of paths with a meaning of their own, and the one without text. -/
structure PathAlphabet (σ : Type) where
  here : σ
  up : σ
  empty : σ
  here_ne : empty ≠ here
  up_ne : empty ≠ up

namespace PathAlphabet
variable {σ : Type} (A : PathAlphabet σ)

def IsDot (segment : σ) : Prop := segment = A.here ∨ segment = A.up

/-- The path without its last segment; at least an empty segment is left. -/
def pop : List σ → List σ
  | [] => [A.empty]
  | [_] => [A.empty]
  | segment :: segments => segment :: segments.dropLast

/-- Each segment of a normal path leads down. -/
def IsNormal (segments : List σ) : Prop := ∀ segment ∈ segments, ¬ A.IsDot segment

variable {A}

theorem empty_not_isDot : ¬ A.IsDot A.empty := by
  rintro (h | h)
  · exact A.here_ne h
  · exact A.up_ne h

theorem IsNormal.append (h : A.IsNormal passed) {segment : σ} (hs : ¬ A.IsDot segment) :
    A.IsNormal (passed ++ [segment]) := by
  intro s hmem
  rcases List.mem_append.mp hmem with hmem | hmem
  · exact h s hmem
  · rw [List.mem_singleton.mp hmem]
    exact hs

theorem isNormal_empty : A.IsNormal [A.empty] := by
  intro s hmem
  rw [List.mem_singleton.mp hmem]
  exact empty_not_isDot

theorem IsNormal.pop (h : A.IsNormal passed) : A.IsNormal (A.pop passed) := by
  match passed with
  | [] => exact isNormal_empty
  | [_] => exact isNormal_empty
  | segment :: next :: rest =>
    intro s hmem
    apply h s
    rcases List.mem_cons.mp hmem with rfl | hmem
    · exact List.mem_cons_self
    · exact List.mem_cons_of_mem _ (List.dropLast_subset _ hmem)

theorem pop_ne_nil (passed : List σ) : A.pop passed ≠ [] := by
  match passed with
  | [] => exact List.cons_ne_nil _ _
  | [_] => exact List.cons_ne_nil _ _
  | _ :: _ :: _ => exact List.cons_ne_nil _ _

/-- Nothing but empty segments is new. -/
theorem mem_pop {segment : σ} (h : segment ∈ A.pop passed) : segment ∈ passed ∨ segment = A.empty := by
  match passed with
  | [] | [_] => exact .inr (List.mem_singleton.mp h)
  | first :: next :: rest =>
    rcases List.mem_cons.mp h with rfl | h
    · exact .inl List.mem_cons_self
    · exact .inl (List.mem_cons_of_mem _ (List.dropLast_subset _ h))

section walking
variable [DecidableEq σ]

instance (A : PathAlphabet σ) : DecidablePred A.IsDot := fun _ => inferInstanceAs (Decidable (_ ∨ _))

variable (A) in
/-- Follow the segments of a path from the segments that were passed. -/
def walk (passed : List σ) : List σ → List σ
  | [] => passed
  | segment :: rest =>
    if segment = A.here then
      if rest = [] then passed ++ [A.empty] else walk passed rest
    else if segment = A.up then
      if rest = [] then A.pop passed ++ [A.empty] else walk (A.pop passed) rest
    else walk (passed ++ [segment]) rest

variable (A) in
/-- The path to the same place without segments that stay or go up. -/
def normalize : List σ → List σ
  | [] => [A.empty]
  | [segment] => if A.IsDot segment then [A.empty] else [segment]
  | segment :: rest => if A.IsDot segment then normalize rest else A.walk [segment] rest

theorem mem_walk {segment : σ} (h : segment ∈ A.walk passed rest) :
    segment ∈ passed ∨ segment ∈ rest ∨ segment = A.empty := by
  induction rest generalizing passed with
  | nil => exact .inl h
  | cons next rest ih =>
    have hlater : segment ∈ rest ∨ segment = A.empty →
        segment ∈ passed ∨ segment ∈ next :: rest ∨ segment = A.empty := by
      rintro (h | h)
      · exact .inr (.inl (List.mem_cons_of_mem _ h))
      · exact .inr (.inr h)
    rw [walk] at h
    split_ifs at h
    · rcases List.mem_append.mp h with h | h
      · exact .inl h
      · exact hlater (.inr (List.mem_singleton.mp h))
    · exact (ih h).elim .inl hlater
    · rcases List.mem_append.mp h with h | h
      · exact (mem_pop h).imp_right .inr
      · exact hlater (.inr (List.mem_singleton.mp h))
    · rcases ih h with h | h
      · exact (mem_pop h).imp_right .inr
      · exact hlater h
    · rcases ih h with h | h
      · rcases List.mem_append.mp h with h | h
        · exact .inl h
        · exact .inr (.inl (List.mem_singleton.mp h ▸ List.mem_cons_self))
      · exact hlater h

theorem mem_normalize {segment : σ} (h : segment ∈ A.normalize segments) :
    segment ∈ segments ∨ segment = A.empty := by
  induction segments with
  | nil => exact .inr (List.mem_singleton.mp h)
  | cons first rest ih =>
    cases rest with
    | nil =>
      rw [normalize] at h
      split_ifs at h
      · exact .inr (List.mem_singleton.mp h)
      · exact .inl h
    | cons next rest =>
      rw [normalize] at h
      · split_ifs at h
        · exact (ih h).imp_left (List.mem_cons_of_mem _)
        · rcases mem_walk h with h | h | h
          · exact .inl (List.mem_singleton.mp h ▸ List.mem_cons_self)
          · exact .inl (List.mem_cons_of_mem _ h)
          · exact .inr h
      · exact List.cons_ne_nil _ _

theorem walk_isNormal (h : A.IsNormal passed) (rest : List σ) : A.IsNormal (A.walk passed rest) := by
  induction rest generalizing passed with
  | nil => exact h
  | cons segment rest ih =>
    rw [walk]
    split_ifs with hhere hlast hup hlast
    · exact h.append empty_not_isDot
    · exact ih h
    · exact h.pop.append empty_not_isDot
    · exact ih h.pop
    · apply ih
      apply h.append
      rintro (heq | heq)
      · exact hhere heq
      · exact hup heq

theorem normalize_isNormal (segments : List σ) : A.IsNormal (A.normalize segments) := by
  induction segments with
  | nil => exact isNormal_empty
  | cons segment rest ih =>
    cases rest with
    | nil =>
      rw [normalize]
      split_ifs with hdot
      · exact isNormal_empty
      · intro s hmem
        rw [List.mem_singleton.mp hmem]
        exact hdot
    | cons next rest =>
      rw [normalize]
      · split_ifs with hdot
        · exact ih
        · apply walk_isNormal
          intro s hmem
          rw [List.mem_singleton.mp hmem]
          exact hdot
      · simp

/-- A walk that only leads down passes all segments. -/
theorem walk_of_isNormal (passed : List σ) (h : A.IsNormal rest) :
    A.walk passed rest = passed ++ rest := by
  induction rest generalizing passed with
  | nil => rw [walk, List.append_nil]
  | cons segment rest ih =>
    have hdot := h segment List.mem_cons_self
    rw [walk, if_neg fun heq => hdot (.inl heq), if_neg fun heq => hdot (.inr heq),
      ih _ fun s hs => h s (List.mem_cons_of_mem _ hs), List.append_assoc]
    rfl

theorem normalize_of_isNormal (h : A.IsNormal segments) (hne : segments ≠ []) :
    A.normalize segments = segments := by
  match segments with
  | [segment] => rw [normalize, if_neg (h segment List.mem_cons_self)]
  | segment :: next :: rest =>
    rw [normalize, if_neg (h segment List.mem_cons_self),
      walk_of_isNormal _ fun s hs => h s (List.mem_cons_of_mem _ hs)]
    · rfl
    · simp

theorem walk_ne_nil (h : passed ≠ []) (rest : List σ) : A.walk passed rest ≠ [] := by
  induction rest generalizing passed with
  | nil => exact h
  | cons segment rest ih =>
    rw [walk]
    split_ifs
    · exact List.append_ne_nil_of_right_ne_nil _ (List.cons_ne_nil _ _)
    · exact ih h
    · exact List.append_ne_nil_of_right_ne_nil _ (List.cons_ne_nil _ _)
    · exact ih (pop_ne_nil _)
    · exact ih (List.append_ne_nil_of_right_ne_nil _ (List.cons_ne_nil _ _))

theorem normalize_ne_nil (segments : List σ) : A.normalize segments ≠ [] := by
  induction segments with
  | nil => exact List.cons_ne_nil _ _
  | cons segment rest ih =>
    cases rest with
    | nil =>
      rw [normalize]
      split_ifs <;> exact List.cons_ne_nil _ _
    | cons next rest =>
      rw [normalize]
      · split_ifs
        · exact ih
        · exact walk_ne_nil (List.cons_ne_nil _ _) _
      · simp

theorem normalize_idempotent (segments : List σ) :
    A.normalize (A.normalize segments) = A.normalize segments :=
  normalize_of_isNormal (normalize_isNormal _) (normalize_ne_nil _)

end walking
end PathAlphabet

section texts
variable {α : Type}

/-- The text of segments, with a separator between them. -/
def joinSegments (sep : α) : List (List α) → List α
  | [] => []
  | segment :: rest => segment ++ rest.flatMap (sep :: ·)

variable {sep : α}

theorem joinSegments_append (h : passed ≠ []) (segment : List α) :
    joinSegments sep (passed ++ [segment]) = joinSegments sep passed ++ sep :: segment := by
  cases passed with
  | nil => exact absurd rfl h
  | cons first rest => simp [joinSegments]

theorem joinSegments_append_segments (hpassed : passed ≠ []) (hrest : rest ≠ []) :
    joinSegments sep (passed ++ rest) = joinSegments sep passed ++ sep :: joinSegments sep rest := by
  obtain ⟨first, passed, rfl⟩ := List.exists_cons_of_ne_nil hpassed
  obtain ⟨next, rest, rfl⟩ := List.exists_cons_of_ne_nil hrest
  simp [joinSegments]

theorem joinSegments_eq_intercalate (segments : List (List α)) :
    joinSegments sep segments = [sep].intercalate segments := by
  cases segments with
  | nil => rfl
  | cons first rest =>
    induction rest generalizing first with
    | nil => simp [joinSegments]
    | cons next rest ih =>
      rw [List.intercalate_cons_of_ne_nil (List.cons_ne_nil _ _), ← ih]
      simp [joinSegments]

/-- A word before a separator is all of the segment that a text starts with. -/
theorem word_prefix_iff {word segment tail : List α} (hword : sep ∉ word) (hsegment : sep ∉ segment)
    (htail : tail = [] ∨ ∃ rest, tail = sep :: rest) :
    word ++ [sep] <+: segment ++ tail ↔ segment = word ∧ tail ≠ [] := by
  induction word generalizing segment with
  | nil =>
    cases segment with
    | nil => rcases htail with rfl | ⟨rest, rfl⟩ <;> simp
    | cons c segment =>
      have hne : sep ≠ c := fun heq => hsegment (heq ▸ List.mem_cons_self)
      simp [List.cons_prefix_cons, hne]
  | cons c word ih =>
    have hne : c ≠ sep := fun heq => hword (heq ▸ List.mem_cons_self)
    cases segment with
    | nil => rcases htail with rfl | ⟨rest, rfl⟩ <;> simp [List.cons_prefix_cons, hne]
    | cons d segment =>
      have htail' := ih (fun h => hword (List.mem_cons_of_mem _ h))
        (fun h => hsegment (List.mem_cons_of_mem d h))
      rw [List.cons_append, List.cons_append, List.cons_prefix_cons, htail', List.cons.injEq,
        and_assoc, eq_comm]

theorem word_eq_iff {word segment tail : List α} (hword : sep ∉ word)
    (htail : tail = [] ∨ ∃ rest, tail = sep :: rest) :
    segment ++ tail = word ↔ segment = word ∧ tail = [] := by
  constructor
  · rintro rfl
    rcases htail with rfl | ⟨rest, rfl⟩
    · exact ⟨(List.append_nil _).symm, rfl⟩
    · exact absurd (List.mem_append_right _ List.mem_cons_self) hword
  · rintro ⟨rfl, rfl⟩
    exact List.append_nil _

variable [BEq α] [LawfulBEq α]

theorem joinSegments_splitOn (text : List α) : joinSegments sep (text.splitOn sep) = text := by
  rw [joinSegments_eq_intercalate, List.intercalate_splitOn]

theorem splitOn_joinSegments {segments : List (List α)} (hne : segments ≠ [])
    (h : ∀ segment ∈ segments, sep ∉ segment) :
    (joinSegments sep segments).splitOn sep = segments := by
  rw [joinSegments_eq_intercalate, List.splitOn_intercalate sep h hne]

theorem not_mem_of_mem_splitOn {segment text : List α} (h : segment ∈ text.splitOn sep) :
    sep ∉ segment := by
  induction text generalizing segment with
  | nil =>
    rw [List.splitOn_nil, List.mem_singleton] at h
    rw [h]
    exact List.not_mem_nil
  | cons c text ih =>
    rw [List.splitOn_cons_eq_if_modifyHead] at h
    split_ifs at h with hc
    · rcases List.mem_cons.mp h with rfl | h
      · exact List.not_mem_nil
      · exact ih h
    · obtain ⟨first, rest, hsplit⟩ := List.exists_cons_of_ne_nil (List.splitOn_ne_nil sep text)
      rw [hsplit] at h ih
      rcases List.mem_cons.mp h with rfl | h
      · intro hmem
        rcases List.mem_cons.mp hmem with heq | hmem
        · exact hc (by simp [heq])
        · exact ih List.mem_cons_self hmem
      · exact ih (List.mem_cons_of_mem _ h)

end texts
end ErbslandCore.Library
