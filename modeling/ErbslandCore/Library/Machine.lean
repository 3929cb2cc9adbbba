import Mathlib.Computability.StateTransition

namespace ErbslandCore.Library.Machine
open Relation StateTransition
set_option autoImplicit true

section
variable {σ : Type} (f : σ → Option σ)

/-- Runs that take every step from a state satisfying the guard. -/
def ReachesWhile (guard : σ → Prop) : σ → σ → Prop :=
  ReflTransGen fun a b => guard a ∧ b ∈ f a

/-- The state after at most `n` transitions. -/
def advance : Nat → σ → σ
  | 0, s => s
  | n + 1, s => match f s with
    | none => s
    | some s' => advance n s'

variable {f}

theorem reaches_of_reachesWhile {guard : σ → Prop} (h : ReachesWhile f guard a b) :
    Reaches f a b := by
  induction h with
  | refl => exact .refl
  | tail _ hbc ih => exact ih.tail hbc.2

theorem reachesWhile_of_reaches {guard : σ → Prop} (hg : ∀ s, Reaches f a s → guard s)
    (h : Reaches f a b) : ReachesWhile f guard a b := by
  induction h with
  | refl => exact .refl
  | tail hab hbc ih => exact ih.tail ⟨hg _ hab, hbc⟩

/-- An invariant of guarded transitions holds throughout a guarded run. -/
theorem ReachesWhile.invariant {guard inv : σ → Prop}
    (hstep : ∀ s s', inv s → guard s → f s = some s' → inv s')
    (h : ReachesWhile f guard a b) (ha : inv a) : inv b := by
  induction h with
  | refl => exact ha
  | tail _ hbc ih => exact hstep _ _ ih hbc.1 hbc.2

/-- An invariant of the transitions holds throughout every run. -/
theorem reaches_invariant {inv : σ → Prop}
    (hstep : ∀ s s', inv s → f s = some s' → inv s')
    (h : Reaches f a b) (ha : inv a) : inv b := by
  induction h with
  | refl => exact ha
  | tail _ hbc ih => exact hstep _ _ ih hbc

theorem reaches_advance (n : Nat) (s : σ) : Reaches f s (advance f n s) := by
  induction n generalizing s with
  | zero => exact .refl
  | succ n ih =>
    cases h : f s with
    | none =>
      simp only [advance, h]
      exact .refl
    | some s' =>
      simp only [advance, h]
      exact ReflTransGen.head h (ih s')

theorem exists_advance (h : Reaches f a b) : ∃ n, advance f n a = b := by
  induction h using ReflTransGen.head_induction_on with
  | refl => exact ⟨0, rfl⟩
  | head h _ ih =>
    obtain ⟨n, hn⟩ := ih
    exact ⟨n + 1, by simp only [advance, Option.mem_def.1 h, hn]⟩

/-- More transitions than there are change nothing. -/
theorem advance_of_halted (h : f (advance f n s) = none) (hle : n ≤ m) :
    advance f m s = advance f n s := by
  induction n generalizing s m with
  | zero =>
    have hs : f s = none := h
    cases m with
    | zero => rfl
    | succ m => simp only [advance, hs]
  | succ n ih =>
    obtain ⟨m, rfl⟩ := Nat.exists_eq_add_of_le' (Nat.lt_of_succ_le hle)
    cases hstep : f s with
    | none => simp only [advance, hstep]
    | some s' =>
      simp only [advance, hstep] at h ⊢
      exact ih h (Nat.le_of_succ_le_succ hle)

/-- A halted state is the last one of every run that meets it. -/
theorem eq_of_reaches_halted (h : Reaches f a b) (ha : f a = none) : b = a := by
  cases h using ReflTransGen.head_induction_on with
  | refl => rfl
  | head h' _ => exact absurd (ha.symm.trans h') (by simp)

theorem halted_unique (hb : Reaches f a b) (hc : Reaches f a c)
    (hb' : f b = none) (hc' : f c = none) : b = c := by
  rcases reaches_total hb hc with h | h
  · exact (eq_of_reaches_halted h hb').symm
  · exact eq_of_reaches_halted h hc'

end

section
variable {σ τ : Type} {f : σ → Option σ} {g : τ → Option τ}

/-- A lockstep simulation carries every run of the first machine to the second. -/
theorem reaches_simulation {rel : σ → τ → Prop}
    (hstep : ∀ s s' t, rel s t → f s = some s' → ∃ t', g t = some t' ∧ rel s' t')
    (h : Reaches f a b) (hab : rel a c) : ∃ d, Reaches g c d ∧ rel b d := by
  induction h with
  | refl => exact ⟨c, .refl, hab⟩
  | tail _ hbc ih =>
    obtain ⟨d, hd, hr⟩ := ih
    obtain ⟨d', hd', hr'⟩ := hstep _ _ _ hr hbc
    exact ⟨d', hd.tail hd', hr'⟩

end

section
variable {σ τ α β : Type}

/-- The responses of a machine to a sequence of requests. -/
def responses (f : σ → α → β × σ) (s : σ) : List α → List β
  | [] => []
  | a :: rest => (f s a).1 :: responses f (f s a).2 rest

/-- Machines that respond alike to each request in related states respond alike to all of them. -/
theorem responses_simulation {f : σ → α → β × σ} {g : τ → α → β × τ} {R : σ → τ → Prop}
    (hstep : ∀ s t a, R s t → (f s a).1 = (g t a).1 ∧ R (f s a).2 (g t a).2)
    (h : R s t) (requests : List α) : responses f s requests = responses g t requests := by
  induction requests generalizing s t with
  | nil => rfl
  | cons a rest ih =>
    obtain ⟨hresponse, hnext⟩ := hstep s t a h
    rw [responses, responses, hresponse, ih hnext]

/-- The state after a sequence of requests. -/
def after (f : σ → α → β × σ) (s : σ) (requests : List α) : σ :=
  requests.foldl (fun s a => (f s a).2) s

theorem after_simulation {f : σ → α → β × σ} {g : τ → α → β × τ} {R : σ → τ → Prop}
    (hstep : ∀ s t a, R s t → (f s a).1 = (g t a).1 ∧ R (f s a).2 (g t a).2)
    (h : R s t) (requests : List α) : R (after f s requests) (after g t requests) := by
  induction requests generalizing s t with
  | nil => exact h
  | cons a rest ih => exact ih (hstep s t a h).2

end

end ErbslandCore.Library.Machine
