import ErbslandCore.Library.Except

namespace ErbslandCore.Library
set_option autoImplicit true

/-- The states of a reader, with the size of the input that is left. -/
class Input (σ : Type _) where
  remaining : σ → Nat

export Input (remaining)

/-- Every result leaves an input that is smaller by at least `count`. -/
def Consumes [Input σ] (onError : ε → Prop) (count : Nat) (s : σ) (x : Except ε (α × σ)) : Prop :=
  Ensures x (fun r => remaining r.2 + count ≤ remaining s) onError

namespace Consumes
variable [Input σ] {onError : ε → Prop} {s s' : σ}

theorem ok {a : α} (h : remaining s' + count ≤ remaining s) :
    Consumes onError count s (.ok (a, s')) := h

theorem stay {a : α} : Consumes onError 0 s (.ok (a, s)) := Nat.le_refl _

theorem error {e : ε} (h : onError e) :
    Consumes onError count s (.error e : Except ε (α × σ)) := h

theorem bind {x : Except ε (α × σ)} {f : α × σ → Except ε (β × σ)} (hx : Consumes onError count s x)
    (hf : ∀ a s', remaining s' + count ≤ remaining s → Consumes onError 0 s' (f (a, s'))) :
    Consumes onError count s (x >>= f) :=
  Ensures.bind hx fun ⟨a, s'⟩ h => Ensures.mono (hf a s' h) fun r hr => by
    simp only at h hr
    omega

theorem ite {p : Prop} [Decidable p] {x y : Except ε (α × σ)}
    (hx : p → Consumes onError count s x) (hy : ¬ p → Consumes onError count s y) :
    Consumes onError count s (if p then x else y) := Ensures.ite hx hy

theorem zero {x : Except ε (α × σ)} (hx : Consumes onError count s x) :
    Consumes onError 0 s x := Ensures.mono hx fun r hr => by omega

end Consumes
end ErbslandCore.Library
