import Mathlib.Data.List.Basic

namespace ErbslandCore.Library
set_option autoImplicit true

theorem ok_bind (a : α) (f : α → Except ε β) : (.ok a : Except ε α) >>= f = f a := rfl

theorem bind_eq_ok {x : Except ε α} {f : α → Except ε β} (h : x >>= f = .ok b) :
    ∃ a, x = .ok a ∧ f a = .ok b := by
  cases x with
  | error e => cases h
  | ok a => exact ⟨a, rfl, h⟩

theorem toOption_bind (x : Except ε α) (f : α → Except ε β) :
    (x >>= f).toOption = x.toOption.bind fun a => (f a).toOption := by
  cases x with
  | error e => rfl
  | ok a => rfl

theorem toOption_eq_some {x : Except ε α} : x.toOption = some a ↔ x = .ok a := by
  cases x with
  | error e => exact ⟨nofun, nofun⟩
  | ok b => exact ⟨fun h => congrArg Except.ok (Option.some.inj h), fun h => congrArg some (Except.ok.inj h)⟩

/-- Every result satisfies a postcondition, and every error a condition on errors. -/
def Ensures (x : Except ε α) (post : α → Prop) (onError : ε → Prop) : Prop :=
  match x with
  | .ok a => post a
  | .error e => onError e

namespace Ensures

theorem ok (h : post a) : Ensures (.ok a) post onError := h

theorem error (h : onError e) : Ensures (.error e) post onError := h

theorem bind {x : Except ε α} {f : α → Except ε β} (hx : Ensures x m onError)
    (hf : ∀ a, m a → Ensures (f a) post onError) : Ensures (x >>= f) post onError := by
  cases x with
  | ok a => exact hf a hx
  | error e => exact hx

theorem mono {x : Except ε α} (hx : Ensures x mid onError) (h : ∀ a, mid a → post a) :
    Ensures x post onError := by
  cases x with
  | ok a => exact h a hx
  | error e => exact hx

theorem map {x : Except ε α} {f : α → β} (hx : Ensures x (fun a => post (f a)) onError) :
    Ensures (f <$> x) post onError := by
  cases x with
  | ok a => exact hx
  | error e => exact hx

theorem ite {p : Prop} [Decidable p] {x y : Except ε α} (hx : p → Ensures x post onError)
    (hy : ¬ p → Ensures y post onError) : Ensures (if p then x else y) post onError := by
  split
  case isTrue h => exact hx h
  case isFalse h => exact hy h

theorem of_eq_ok {x : Except ε α} (hx : Ensures x post onError) (h : x = .ok a) : post a := by
  subst h
  exact hx

theorem of_eq_error {x : Except ε α} (hx : Ensures x post onError) (h : x = .error e) :
    onError e := by
  subst h
  exact hx

theorem of_exists {x : Except ε α} (h : ∃ a, x = .ok a ∧ post a) : Ensures x post onError := by
  obtain ⟨a, rfl, ha⟩ := h
  exact ha

/-- Without a result to speak of, only the errors matter. -/
theorem trivial {x : Except ε α} (h : ∀ e, x = .error e → onError e) :
    Ensures x (fun a => x = .ok a) onError := by
  cases x with
  | ok a => rfl
  | error e => exact h e rfl

end Ensures

end ErbslandCore.Library
