import Mathlib.Algebra.Order.Ring.Int
import Mathlib.Data.Set.Basic

namespace ErbslandCore.Library
set_option autoImplicit true

/-- A function of the time that changes at transitions only, which are at least a distance apart. -/
def IsStepFunction (distance : Int) (f : Int → α) : Prop :=
  ∃ transitions : Set Int,
    (∀ s ∈ transitions, ∀ t ∈ transitions, s < t → distance ≤ t - s) ∧
    ∀ x y, x ≤ y → (∀ t ∈ transitions, ¬ (x < t ∧ t ≤ y)) → f x = f y

/-- Every moment is in a time without a change that is as long as the distance. -/
theorem IsStepFunction.piece (h : IsStepFunction distance f) (hpos : 0 < distance) (u : Int) :
    ∃ start, (start ≤ u ∧ u < start + distance) ∧
      ∀ x, start ≤ x → x < start + distance → f x = f u := by
  obtain ⟨transitions, hapart, hconstant⟩ := h
  by_cases hrecent : ∃ t ∈ transitions, u - distance < t ∧ t ≤ u
  · -- The piece starts with a transition, and the next one is far away.
    obtain ⟨t, ht, hlow, hhigh⟩ := hrecent
    have hfrom : ∀ x, t ≤ x → x < t + distance → f t = f x := by
      intro x hx hx'
      apply hconstant t x hx
      rintro s hs ⟨hts, hsx⟩
      have hfar := hapart t ht s hs hts
      omega
    refine ⟨t, ⟨hhigh, by omega⟩, fun x hx hx' => ?_⟩
    rw [← hfrom x hx hx', ← hfrom u hhigh (by omega)]
  · -- Nothing has changed for the length of a piece.
    refine ⟨u - distance + 1, ⟨by omega, by omega⟩, fun x hx hx' => ?_⟩
    apply hconstant x u (by omega)
    rintro t ht ⟨hxt, htu⟩
    exact hrecent ⟨t, ht, by omega, htu⟩

/-- One of two probes around a moment sees its piece, when the piece is longer than their gap. -/
theorem IsStepFunction.probe (h : IsStepFunction distance f) (hpos : 0 < distance)
    (hlow : p ≤ u) (hhigh : u < q) (hgap : q - p ≤ distance) : f p = f u ∨ f q = f u := by
  obtain ⟨start, ⟨hl, hu⟩, hpiece⟩ := h.piece hpos u
  rcases lt_or_ge p start with hlt | hge
  · exact .inr (hpiece q (by omega) (by omega))
  · exact .inl (hpiece p hge (by omega))

end ErbslandCore.Library
