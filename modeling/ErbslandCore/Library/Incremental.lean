import Mathlib.Data.List.Basic

namespace ErbslandCore.Library.Incremental
set_option autoImplicit true

/-- One turn of a reader: events and a new state after some input, nothing without more input, or
a failure. -/
inductive Turn (σ ε : Type) where
  | move (events : List ε) (next : σ) (consumed : Nat)
  | wait
  | fail
  deriving DecidableEq

variable {σ ε α : Type} {turn : σ → List α → Bool → Turn σ ε} {inv : σ → Prop} {ended : Bool}

/-- The turns of a reader from a state, with the input that is left and the events. The input may
end after what is left. -/
inductive Reaches (turn : σ → List α → Bool → Turn σ ε) (ended : Bool) :
    σ → List α → List ε → σ → List α → Prop where
  | refl : Reaches turn ended s x [] s x
  | step : turn s x ended = .move es s' n → Reaches turn ended s' (x.drop n) es' s'' x'' →
      Reaches turn ended s x (es ++ es') s'' x''

namespace Reaches

theorem single (h : turn s x ended = .move es s' n) : Reaches turn ended s x es s' (x.drop n) := by
  have hs := Reaches.step h .refl
  rwa [List.append_nil] at hs

theorem trans (h : Reaches turn ended s x es s' x') (h' : Reaches turn ended s' x' es' s'' x'') :
    Reaches turn ended s x (es ++ es') s'' x'' := by
  induction h with
  | refl => exact h'
  | step ht _ ih =>
    rw [List.append_assoc]
    exact .step ht (ih h')

/-- The input that is left is the end of the input. -/
theorem suffix (h : Reaches turn ended s x es s' x') : x' <:+ x := by
  induction h with
  | refl => exact List.suffix_refl _
  | step _ _ ih => exact ih.trans (List.drop_suffix _ _)

/-- What the turns keep of the events, the state and the input that is left, every reading keeps. -/
theorem accumulates {I : List ε → σ → List α → Prop}
    (hinv : ∀ acc s x es s' n, I acc s x → turn s x ended = .move es s' n →
      I (acc ++ es) s' (x.drop n))
    (h : Reaches turn ended s x es s' x') (acc : List ε) (hs : I acc s x) : I (acc ++ es) s' x' := by
  induction h generalizing acc with
  | refl => rwa [List.append_nil]
  | step ht _ ih =>
    rw [← List.append_assoc]
    exact ih _ (hinv _ _ _ _ _ _ hs ht)

/-- An invariant of the turns holds of all states that are reached. -/
theorem preserves {I : σ → Prop} (hinv : ∀ s x es s' n, I s → turn s x ended = .move es s' n → I s')
    (h : Reaches turn ended s x es s' x') (hs : I s) : I s' :=
  h.accumulates (I := fun _ s _ => I s) (fun _ _ _ _ _ _ hs ht => hinv _ _ _ _ _ hs ht) [] hs

/-- Two readings of the same input go the same way, one of them further. -/
theorem linear (h : Reaches turn ended s x es₁ s₁ x₁) (h' : Reaches turn ended s x es₂ s₂ x₂) :
    (∃ es, Reaches turn ended s₁ x₁ es s₂ x₂ ∧ es₂ = es₁ ++ es) ∨
    (∃ es, Reaches turn ended s₂ x₂ es s₁ x₁ ∧ es₁ = es₂ ++ es) := by
  induction h generalizing es₂ with
  | refl => exact .inl ⟨es₂, h', rfl⟩
  | step ht hr ih =>
    cases h' with
    | refl => exact .inr ⟨_, .step ht hr, rfl⟩
    | step ht' hr' =>
      rw [ht] at ht'
      cases ht'
      rcases ih hr' with ⟨es, he, rfl⟩ | ⟨es, he, rfl⟩
      · exact .inl ⟨es, he, (List.append_assoc _ _ _).symm⟩
      · exact .inr ⟨es, he, (List.append_assoc _ _ _).symm⟩

/-- A state that makes no move is where every reading of the input arrives. -/
theorem unique (h : Reaches turn ended s x es₁ s₁ x₁) (h' : Reaches turn ended s x es₂ s₂ x₂)
    (hstop : ∀ es s' n, turn s₁ x₁ ended ≠ .move es s' n) :
    ∃ es, Reaches turn ended s₂ x₂ es s₁ x₁ ∧ es₁ = es₂ ++ es := by
  rcases h.linear h' with ⟨es, he, rfl⟩ | ⟨es, he, rfl⟩
  · cases he with
    | refl => exact ⟨[], .refl, by rw [List.append_nil, List.append_nil]⟩
    | step ht _ => exact absurd ht (hstop _ _ _)
  · exact ⟨es, he, rfl⟩

/-- Two readings that stop have read the same. -/
theorem stops_eq (h : Reaches turn ended s x es₁ s₁ x₁) (h' : Reaches turn ended s x es₂ s₂ x₂)
    (hstop : ∀ es s' n, turn s₁ x₁ ended ≠ .move es s' n)
    (hstop' : ∀ es s' n, turn s₂ x₂ ended ≠ .move es s' n) : es₁ = es₂ ∧ s₁ = s₂ ∧ x₁ = x₂ := by
  obtain ⟨es, he, rfl⟩ := h.unique h' hstop
  cases he with
  | refl => exact ⟨List.append_nil _, rfl, rfl⟩
  | step ht _ => exact absurd ht (hstop' _ _ _)

end Reaches

/-- What a reader does with the first part of its input, it does with all of it. -/
structure Steady (turn : σ → List α → Bool → Turn σ ε) (inv : σ → Prop) : Prop where
  move : ∀ s x y es s' n eof, inv s → turn s x false = .move es s' n →
    turn s (x ++ y) eof = .move es s' n
  consumed : ∀ s x es s' n eof, inv s → turn s x eof = .move es s' n → n ≤ x.length
  keeps : ∀ s x es s' n eof, inv s → turn s x eof = .move es s' n → inv s'

/-- Where a reader fails after the first part of its input, it fails with all of it. -/
def Decided (turn : σ → List α → Bool → Turn σ ε) (inv : σ → Prop) : Prop :=
  ∀ s x y eof, inv s → turn s x false = .fail → turn s (x ++ y) eof = .fail

theorem Decided.fails (h : Decided turn inv) (hs : inv s) (ht : turn s x eof = .fail)
    (heof : eof = true → y = [] ∧ ended = true) : turn s (x ++ y) ended = .fail := by
  cases eof with
  | false => exact h s x y ended hs ht
  | true =>
    obtain ⟨rfl, rfl⟩ := heof rfl
    rwa [List.append_nil]

namespace Steady

/-- A reader that saw a part of the input, with its end only if it saw all of it. -/
theorem reaches (h : Steady turn inv) (hs : inv s) (ht : turn s x eof = .move es s' n)
    (heof : eof = true → y = [] ∧ ended = true) :
    n ≤ x.length ∧ Reaches turn ended s (x ++ y) es s' (x.drop n ++ y) := by
  have hn := h.consumed s x es s' n eof hs ht
  have hfull : turn s (x ++ y) ended = .move es s' n := by
    cases eof with
    | false => exact h.move s x y es s' n ended hs ht
    | true =>
      obtain ⟨rfl, rfl⟩ := heof rfl
      rwa [List.append_nil]
  refine ⟨hn, ?_⟩
  have hr := Reaches.single hfull
  rwa [List.drop_append_of_le_length hn] at hr

/-- A reading of a part of the input is one of all of it. -/
theorem append (h : Steady turn inv) (hr : Reaches turn eof s x es s' x') (hs : inv s)
    (heof : eof = true → y = [] ∧ ended = true) : Reaches turn ended s (x ++ y) es s' (x' ++ y) := by
  induction hr with
  | refl => exact .refl
  | step ht _ ih =>
    obtain ⟨-, hstep⟩ := h.reaches hs ht heof
    exact hstep.trans (ih (h.keeps _ _ _ _ _ _ hs ht))

end Steady
end ErbslandCore.Library.Incremental
