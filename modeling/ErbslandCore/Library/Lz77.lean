import ErbslandCore.Library.Periodic

namespace ErbslandCore.Library
set_option autoImplicit true

/-- A token of a dictionary coder. -/
inductive Token (α : Type) where
  | literal (value : α)
  | reference (length distance : Nat)
  deriving DecidableEq

/-- Bounds on the references of a dictionary coder. -/
structure TokenLimits where
  minimumLength : Nat
  maximumLength : Nat
  maximumDistance : Nat

/-- The tokens describe the data between two positions. -/
inductive Parse [Inhabited α] (limits : TokenLimits) (data : List α) :
    Nat → List (Token α) → Nat → Prop where
  | nil : Parse limits data p [] p
  | literal : p < data.length → Parse limits data (p + 1) tokens q →
      Parse limits data p (.literal data[p]! :: tokens) q
  | reference : BackReference data p d n → limits.minimumLength ≤ n → n ≤ limits.maximumLength →
      d ≤ limits.maximumDistance → Parse limits data (p + n) tokens q →
      Parse limits data p (.reference n d :: tokens) q

theorem BackReference.append_left [Inhabited α] {data : List α} (h : BackReference data p d n)
    (before : List α) : BackReference (before ++ data) (before.length + p) d n := by
  obtain ⟨hpos, hle, hwithin, hagree⟩ := h
  refine ⟨hpos, by omega, by rw [List.length_append]; omega, fun i hi => ?_⟩
  rw [getElem!_append_right _ _ (by omega), getElem!_append_right _ _ (by omega),
    show before.length + p - d + i - before.length = p - d + i by omega,
    show before.length + p + i - before.length = p + i by omega]
  exact hagree i hi

theorem BackReference.append_right [Inhabited α] {data : List α} (h : BackReference data p d n)
    (after : List α) : BackReference (data ++ after) p d n := by
  obtain ⟨hpos, hle, hwithin, hagree⟩ := h
  refine ⟨hpos, hle, by rw [List.length_append]; omega, fun i hi => ?_⟩
  rw [getElem!_append_left _ _ (by omega), getElem!_append_left _ _ (by omega)]
  exact hagree i hi

/-- A parse of a window is a parse of the data around it. -/
theorem Parse.append [Inhabited α] {data : List α} (h : Parse limits data p tokens q)
    (before after : List α) :
    Parse limits (before ++ data ++ after) (before.length + p) tokens (before.length + q) := by
  induction h with
  | nil => exact .nil
  | literal hp _ ih =>
    rename_i p _ _ _
    have hget : data[p]! = (before ++ data ++ after)[before.length + p]! := by
      rw [getElem!_append_left _ _ (by rw [List.length_append]; omega),
        getElem!_append_right _ _ (by omega), Nat.add_sub_cancel_left]
    rw [hget]
    exact .literal (by simp only [List.length_append]; omega) ih
  | reference hb hmin hmax hd _ ih =>
    refine .reference ((hb.append_left before).append_right after) hmin hmax hd ?_
    rwa [Nat.add_assoc]

theorem Parse.le [Inhabited α] {data : List α} (h : Parse limits data p tokens q) : p ≤ q := by
  induction h with
  | nil => exact Nat.le_refl _
  | literal => omega
  | reference => omega

end ErbslandCore.Library
