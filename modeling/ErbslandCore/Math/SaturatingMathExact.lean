import ErbslandCore.Math.SaturatingMathOneType

namespace ErbslandCore.Math
open Library NativeInteger
set_option autoImplicit true

section twoTypes
variable {A B : NativeInteger} (first : Value A) (second : Value B)

theorem resolve_eq {one : Value A → Value A → α} {two : Value A → Value B → α} {r : α}
    (h₁ : ∀ y : Value A, y.val = second.val → one first y = r) (h₂ : two first second = r) :
    resolve one two first second = r := by
  unfold resolve
  split
  case isTrue h => exact h₁ _ (cast_val h second)
  case isFalse => exact h₂

theorem compatible_range (h : sameSignedness A B = true) :
    (compatible A B).minimum ≤ A.minimum ∧ A.maximum ≤ (compatible A B).maximum := by
  unfold compatible
  split
  case isTrue => exact ⟨le_refl _, le_refl _⟩
  case isFalse hsize =>
    have hh := halves A B
    have hs : A.isSigned = B.isSigned := by simpa [sameSignedness] using h
    rcases bounds A with ⟨ha, hal, hau⟩ | ⟨ha, hal, hau⟩
    · rw [minimum_signed (T := B) (hs ▸ ha), maximum_signed (T := B) (hs ▸ ha)]
      constructor <;> omega
    · rw [minimum_unsigned (T := B) (hs ▸ ha), maximum_unsigned (T := B) (hs ▸ ha)]
      constructor <;> omega

/-- Clamping to a wider type of the same signedness first changes nothing. -/
theorem clamp_compatible (h : sameSignedness A B = true) (v : Int) :
    Value.clamp A (Value.clamp (compatible A B) v).val = Value.clamp A v := by
  have hsub := compatible_range h
  have hn := A.minimum_nonpos
  have hp := A.maximum_pos
  apply Value.eq_clamp
  rcases Value.clamp_cases (compatible A B) v with ⟨h₁, e₁⟩ | ⟨h₁, e₁⟩ | ⟨h₁, e₁⟩ <;>
    rcases Value.clamp_cases A (Value.clamp (compatible A B) v).val with
      ⟨h₂, e₂⟩ | ⟨⟨h₂, h₃⟩, e₂⟩ | ⟨h₂, e₂⟩ <;> omega

theorem compatible_represents (h : sameSignedness A B = true) :
    (compatible A B).Represents first.val ∧ (compatible A B).Represents second.val := by
  have hh := halves A B
  have hs : A.isSigned = B.isSigned := by simpa [sameSignedness] using h
  obtain ⟨hl, hu⟩ := first.represents
  obtain ⟨hl', hu'⟩ := second.represents
  unfold compatible
  split
  · refine ⟨first.represents, ?_⟩
    rcases bounds A with ⟨ha, hal, hau⟩ | ⟨ha, hal, hau⟩
    · rw [minimum_signed (hs ▸ ha)] at hl'
      rw [maximum_signed (hs ▸ ha)] at hu'
      constructor <;> omega
    · rw [minimum_unsigned (hs ▸ ha)] at hl'
      rw [maximum_unsigned (hs ▸ ha)] at hu'
      constructor <;> omega
  · refine ⟨?_, second.represents⟩
    rcases bounds B with ⟨ha, hal, hau⟩ | ⟨ha, hal, hau⟩
    · rw [minimum_signed (hs.trans ha)] at hl
      rw [maximum_signed (hs.trans ha)] at hu
      constructor <;> omega
    · rw [minimum_unsigned (hs.trans ha)] at hl
      rw [maximum_unsigned (hs.trans ha)] at hu
      constructor <;> omega

/-- The excess of a large unsigned operand over half the signed type is computed exactly. -/
theorem remaining_eq (ha : A.isSigned = true) (hb : B.isSigned = false) (hsize : A.size ≤ B.size)
    (hv : A.maximum < second.val) :
    ∃ r, remaining A second = .ok r ∧ r.val = second.val - A.half := by
  have hh := halves A B
  obtain ⟨hl, hu⟩ := second.represents
  rw [maximum_unsigned hb] at hu
  rw [maximum_signed ha] at hv
  have hlimit : B.promoted.Represents A.half := by
    apply Represents.promoted
    constructor
    · rw [minimum_unsigned hb]; omega
    · rw [maximum_unsigned hb]; omega
  have hcount : A.size * 8 - 1 < B.promoted.bits := by
    have := A.size_valid
    rw [bits, promoted]
    split
    · show A.size * 8 - 1 < 4 * 8
      omega
    · omega
  have hdiff : B.promoted.Represents (second.val - A.half) := by
    apply Represents.promoted
    constructor
    · rw [minimum_unsigned hb]; omega
    · rw [maximum_unsigned hb]; omega
  obtain ⟨r, hr, he⟩ := arithmetic_of_represents hdiff
  refine ⟨r, ?_, he⟩
  rw [remaining, shiftOne, if_pos hcount]
  have hcast : (Value.staticCast B.promoted (2 ^ (A.size * 8 - 1))).val = A.half :=
    Value.staticCast_val hlimit
  simp only [bind, Except.bind, hcast]
  exact hr

/-- Adding a large unsigned operand in three parts saturates like a single addition. -/
theorem add_in_parts (ha : A.isSigned = true) {v : Int} (hv : A.maximum < v) :
    saturatingAdd₁ (saturatingAdd₁ (saturatingAdd₁ first (.highest A)) (.staticCast A 1))
      (.clamp A (v - A.half)) = .clamp A (first.val + v) := by
  have hp := A.half_pos
  have hmin := minimum_signed ha
  have hmax := maximum_signed ha
  obtain ⟨hl, hu⟩ := first.represents
  have hone : (Value.staticCast A 1).val = 1 := Value.staticCast_val ⟨by omega, by omega⟩
  have h₁ := Value.clamp_cases A (first.val + A.maximum)
  generalize hs₁ : Value.clamp A (first.val + A.maximum) = s₁ at h₁
  have h₂ := Value.clamp_cases A (s₁.val + 1)
  generalize hs₂ : Value.clamp A (s₁.val + 1) = s₂ at h₂
  have h₃ := Value.clamp_cases A (v - A.half)
  generalize Value.clamp A (v - A.half) = r at h₃
  have h₄ := Value.clamp_cases A (s₂.val + r.val)
  simp only [saturatingAdd₁_eq, Value.highest_val, hone, hs₁, hs₂]
  apply Value.eq_clamp
  simp only [Represents] at h₁ h₂ h₃ h₄
  have hb₂ : s₂.val = A.half - 1 ∧ 0 ≤ first.val ∨ first.val < 0 ∧ s₂.val = first.val + A.half := by
    omega
  omega

theorem subtract_in_parts (ha : A.isSigned = true) {v : Int} (hv : A.maximum < v) :
    saturatingSubtract₁
      (saturatingSubtract₁ (saturatingSubtract₁ first (.highest A)) (.staticCast A 1))
      (.clamp A (v - A.half)) = .clamp A (first.val - v) := by
  have hp := A.half_pos
  have hmin := minimum_signed ha
  have hmax := maximum_signed ha
  obtain ⟨hl, hu⟩ := first.represents
  have hone : (Value.staticCast A 1).val = 1 := Value.staticCast_val ⟨by omega, by omega⟩
  have h₁ := Value.clamp_cases A (first.val - A.maximum)
  generalize hs₁ : Value.clamp A (first.val - A.maximum) = s₁ at h₁
  have h₂ := Value.clamp_cases A (s₁.val - 1)
  generalize hs₂ : Value.clamp A (s₁.val - 1) = s₂ at h₂
  have h₃ := Value.clamp_cases A (v - A.half)
  generalize Value.clamp A (v - A.half) = r at h₃
  have h₄ := Value.clamp_cases A (s₂.val - r.val)
  simp only [saturatingSubtract₁_eq, Value.highest_val, hone, hs₁, hs₂]
  apply Value.eq_clamp
  simp only [Represents] at h₁ h₂ h₃ h₄
  have hb₂ : s₂.val = -A.half ∧ first.val < 0 ∨ 0 ≤ first.val ∧ s₂.val = first.val - A.half := by
    omega
  omega

theorem exceeds_of_mixed (ha : A.isSigned = true) (hb : B.isSigned = false)
    (h : ¬ (secondHasGreaterPositiveRange A B = true ∧ willCastOverflow A second = true)) :
    A.Represents second.val := by
  have hh := halves A B
  obtain ⟨hl, hu⟩ := second.represents
  rw [minimum_unsigned hb] at hl
  rw [maximum_unsigned hb] at hu
  by_contra hn
  refine h ⟨?_, by simp [willCastOverflow_eq, hn]⟩
  rw [Represents, minimum_signed ha, maximum_signed ha] at hn
  simp only [secondHasGreaterPositiveRange, ha, hb, Bool.not_false, Bool.and_true, Bool.or_eq_true,
    beq_iff_eq, decide_eq_true_eq]
  omega

theorem range_of_mixed (hb : B.isSigned = false)
    (h : secondHasGreaterPositiveRange A B = true ∧ willCastOverflow A second = true) :
    A.size ≤ B.size ∧ A.maximum < second.val := by
  obtain ⟨hr, ho⟩ := h
  obtain ⟨hl, hu⟩ := second.represents
  rw [minimum_unsigned hb] at hl
  have hn := A.minimum_nonpos
  rw [willCastOverflow_eq, Bool.not_eq_true', decide_eq_false_iff_not, Represents] at ho
  simp only [secondHasGreaterPositiveRange, Bool.or_eq_true, Bool.and_eq_true, beq_iff_eq,
    decide_eq_true_eq] at hr
  omega

theorem saturatingSubtractSameSignedness_eq (hs : sameSignedness A B = true) :
    saturatingSubtractSameSignedness first second = .clamp A (first.val - second.val) := by
  obtain ⟨h₁, h₂⟩ := compatible_represents first second hs
  simp only [saturatingSubtractSameSignedness, widen, saturatingSubtract₁_eq, saturatingCast_eq,
    Value.staticCast_val h₁, Value.staticCast_val h₂, clamp_compatible hs]

/-- Adding operands of any two types yields the nearest value of the first type. -/
theorem saturatingAdd₂_eq :
    saturatingAdd₂ first second = .ok (.clamp A (first.val + second.val)) := by
  obtain ⟨hl, hu⟩ := first.represents
  obtain ⟨hl', hu'⟩ := second.represents
  unfold saturatingAdd₂
  by_cases hs : sameSignedness A B
  · obtain ⟨h₁, h₂⟩ := compatible_represents first second hs
    rw [if_pos hs]
    simp only [widen, saturatingAdd₁_eq, saturatingCast_eq, Value.staticCast_val h₁,
      Value.staticCast_val h₂, clamp_compatible hs]
    rfl
  rw [if_neg hs]
  rcases bounds A with ⟨ha, hal, hau⟩ | ⟨ha, hal, hau⟩
  · have hb : B.isSigned = false := by simpa [sameSignedness, ha] using hs
    rw [if_pos ha]
    split
    case isTrue h =>
      obtain ⟨hsize, hv⟩ := range_of_mixed second hb h
      obtain ⟨r, hr, he⟩ := remaining_eq second ha hb hsize hv
      rw [hr]
      simp only [bind, Except.bind, saturatingCast_eq, he, add_in_parts first ha hv]
      rfl
    case isFalse h =>
      have hrep := exceeds_of_mixed second ha hb h
      rw [saturatingAdd₁_eq, saturatingCast_eq, Value.clamp_of_represents hrep]
      rfl
  · have hb : B.isSigned = true := by simpa [sameSignedness, ha] using hs
    rw [if_neg (by simp [ha])]
    split
    case isTrue hneg =>
      obtain ⟨a, hr, he⟩ := toUnsignedAbsolute_eq second
      rw [hr]
      simp only [bind, Except.bind, saturatingCast_eq, saturatingSubtract₁_eq, he,
        abs_of_neg hneg]
      refine congrArg _ (Value.eq_clamp ?_)
      have h₁ := Value.clamp_cases A (-second.val)
      generalize Value.clamp A (-second.val) = r at h₁
      have h₂ := Value.clamp_cases A (first.val - r.val)
      simp only [Represents] at h₁ h₂
      omega
    case isFalse hneg =>
      simp only [saturatingAdd₁_eq, saturatingCast_eq]
      refine congrArg _ (Value.eq_clamp ?_)
      have h₁ := Value.clamp_cases A second.val
      generalize Value.clamp A second.val = r at h₁
      have h₂ := Value.clamp_cases A (first.val + r.val)
      simp only [Represents] at h₁ h₂
      omega

theorem overflow_of_not {p : Prop} [Decidable p] (h : ¬ p) :
    (pure true : Except Fault Bool) = .ok (!decide p) := by
  rw [decide_eq_false h]
  rfl

theorem overflow_congr {p q : Prop} [Decidable p] [Decidable q] (h : q ↔ p) :
    (pure (!decide q) : Except Fault Bool) = .ok (!decide p) := by
  rw [decide_eq_decide.mpr h]
  rfl

/-- An operation in the wider type overflows the first type before or after the cast back. -/
theorem overflow_compatible (h : sameSignedness A B = true) (v : Int) :
    (if !decide ((compatible A B).Represents v) then true
      else !decide (A.Represents (Value.clamp (compatible A B) v).val)) =
        !decide (A.Represents v) := by
  have hsub := compatible_range h
  split
  case isTrue h₁ =>
    rw [Bool.not_eq_true', decide_eq_false_iff_not, Represents] at h₁
    have hnot : ¬ A.Represents v := by
      rintro ⟨h₂, h₃⟩
      exact h₁ ⟨by omega, by omega⟩
    rw [decide_eq_false hnot]
    rfl
  case isFalse h₁ =>
    rw [Bool.not_eq_true', decide_eq_false_iff_not, not_not] at h₁
    rw [Value.clamp_of_represents h₁]

theorem willSubtractOverflowSameSignedness_eq (hs : sameSignedness A B = true) :
    willSubtractOverflowSameSignedness first second =
      !decide (A.Represents (first.val - second.val)) := by
  obtain ⟨h₁, h₂⟩ := compatible_represents first second hs
  simp only [willSubtractOverflowSameSignedness, widen, willSubtractOverflow₁, builtinOverflow,
    saturatingSubtract₁_eq, willCastOverflow_eq, Value.staticCast_val h₁, Value.staticCast_val h₂]
  exact overflow_compatible hs _

theorem willAddOverflow₂_eq : willAddOverflow₂ first second =
    .ok (!decide (A.Represents (first.val + second.val))) := by
  obtain ⟨hl, hu⟩ := first.represents
  obtain ⟨hl', hu'⟩ := second.represents
  unfold willAddOverflow₂
  by_cases hs : sameSignedness A B
  · obtain ⟨h₁, h₂⟩ := compatible_represents first second hs
    rw [if_pos hs]
    simp only [widen, willAddOverflow₁, builtinOverflow, saturatingAdd₁_eq, willCastOverflow_eq,
      Value.staticCast_val h₁, Value.staticCast_val h₂, ← apply_ite pure]
    exact congrArg Except.ok (overflow_compatible hs _)
  rw [if_neg hs]
  rcases bounds A with ⟨ha, hal, hau⟩ | ⟨ha, hal, hau⟩
  · have hb : B.isSigned = false := by simpa [sameSignedness, ha] using hs
    rw [if_pos ha]
    split
    case isTrue h =>
      obtain ⟨hsize, hv⟩ := range_of_mixed second hb h
      obtain ⟨r, hr, he⟩ := remaining_eq second ha hb hsize hv
      have hp := A.half_pos
      have hone : (Value.staticCast A 1).val = 1 := Value.staticCast_val ⟨by omega, by omega⟩
      have hhigh : (Value.highest A).val = A.maximum := rfl
      simp only [willAddOverflow₁, builtinOverflow, saturatingAdd₁_eq, willCastOverflow_eq,
        saturatingCast_eq, hone, hr, bind, Except.bind, he, Bool.not_eq_true',
        decide_eq_false_iff_not]
      split
      case isTrue h₁ =>
        rw [Represents] at h₁
        exact overflow_of_not (by rw [Represents]; omega)
      case isFalse h₁ =>
        rw [not_not] at h₁
        rw [Value.clamp_of_represents h₁]
        rw [Represents] at h₁
        split
        case isTrue h₂ =>
          rw [Represents] at h₂
          exact overflow_of_not (by rw [Represents]; omega)
        case isFalse h₂ =>
          rw [not_not] at h₂
          rw [Value.clamp_of_represents h₂]
          rw [Represents] at h₂
          split
          case isTrue h₃ =>
            rw [Represents] at h₃
            exact overflow_of_not (by rw [Represents]; omega)
          case isFalse h₃ =>
            rw [Value.clamp_of_represents (not_not.mp h₃)]
            exact overflow_congr (by rw [Represents, Represents]; omega)
    case isFalse h =>
      have hrep := exceeds_of_mixed second ha hb h
      rw [saturatingCast_eq, willAddOverflow₁, Value.clamp_of_represents hrep]
      rfl
  · have hb : B.isSigned = true := by simpa [sameSignedness, ha] using hs
    rw [if_neg (by simp [ha])]
    split
    case isTrue hneg =>
      obtain ⟨a, hr, he⟩ := toUnsignedAbsolute_eq second
      rw [hr]
      simp only [bind, Except.bind, saturatingCast_eq, willCastOverflow_eq, willSubtractOverflow₁,
        builtinOverflow, he, abs_of_neg hneg, Bool.not_eq_true', decide_eq_false_iff_not]
      split
      case isTrue h₁ =>
        rw [Represents] at h₁
        exact overflow_of_not (by rw [Represents]; omega)
      case isFalse h₁ =>
        rw [Value.clamp_of_represents (not_not.mp h₁)]
        exact overflow_congr (by rw [Represents, Represents]; omega)
    case isFalse hneg =>
      simp only [saturatingCast_eq, willCastOverflow_eq, willAddOverflow₁, builtinOverflow,
        Bool.not_eq_true', decide_eq_false_iff_not]
      split
      case isTrue h₁ =>
        rw [Represents] at h₁
        exact overflow_of_not (by rw [Represents]; omega)
      case isFalse h₁ =>
        rw [Value.clamp_of_represents (not_not.mp h₁)]
        rfl

theorem saturatingSubtract₂_eq :
    saturatingSubtract₂ first second = .ok (.clamp A (first.val - second.val)) := by
  obtain ⟨hl, hu⟩ := first.represents
  obtain ⟨hl', hu'⟩ := second.represents
  unfold saturatingSubtract₂
  by_cases hs : sameSignedness A B
  · rw [if_pos hs, saturatingSubtractSameSignedness_eq _ _ hs]
    rfl
  rw [if_neg hs]
  rcases bounds A with ⟨ha, hal, hau⟩ | ⟨ha, hal, hau⟩
  · have hb : B.isSigned = false := by simpa [sameSignedness, ha] using hs
    rw [if_pos ha]
    split
    case isTrue h =>
      obtain ⟨hsize, hv⟩ := range_of_mixed second hb h
      obtain ⟨r, hr, he⟩ := remaining_eq second ha hb hsize hv
      rw [hr]
      simp only [bind, Except.bind, saturatingCast_eq, he, subtract_in_parts first ha hv]
      rfl
    case isFalse h =>
      have hrep := exceeds_of_mixed second ha hb h
      rw [saturatingSubtract₁_eq, saturatingCast_eq, Value.clamp_of_represents hrep]
      rfl
  · have hb : B.isSigned = true := by simpa [sameSignedness, ha] using hs
    rw [if_neg (by simp [ha])]
    split
    case isTrue hneg =>
      obtain ⟨a, hr, he⟩ := toUnsignedAbsolute_eq second
      rw [hr]
      simp only [bind, Except.bind, saturatingCast_eq, saturatingAdd₁_eq, he, abs_of_neg hneg]
      refine congrArg _ (Value.eq_clamp ?_)
      have h₁ := Value.clamp_cases A (-second.val)
      generalize Value.clamp A (-second.val) = r at h₁
      have h₂ := Value.clamp_cases A (first.val + r.val)
      simp only [Represents] at h₁ h₂
      omega
    case isFalse hneg =>
      simp only [saturatingSubtract₁_eq, saturatingCast_eq]
      refine congrArg _ (Value.eq_clamp ?_)
      have h₁ := Value.clamp_cases A second.val
      generalize Value.clamp A second.val = r at h₁
      have h₂ := Value.clamp_cases A (first.val - r.val)
      simp only [Represents] at h₁ h₂
      omega

theorem willSubtractOverflow₂_eq : willSubtractOverflow₂ first second =
    .ok (!decide (A.Represents (first.val - second.val))) := by
  obtain ⟨hl, hu⟩ := first.represents
  obtain ⟨hl', hu'⟩ := second.represents
  unfold willSubtractOverflow₂
  by_cases hs : sameSignedness A B
  · rw [if_pos hs, willSubtractOverflowSameSignedness_eq _ _ hs]
    rfl
  rw [if_neg hs]
  rcases bounds A with ⟨ha, hal, hau⟩ | ⟨ha, hal, hau⟩
  · have hb : B.isSigned = false := by simpa [sameSignedness, ha] using hs
    rw [if_pos ha]
    split
    case isTrue h =>
      obtain ⟨hsize, hv⟩ := range_of_mixed second hb h
      obtain ⟨r, hr, he⟩ := remaining_eq second ha hb hsize hv
      have hp := A.half_pos
      have hint : sameSignedness A int = true := by simp [sameSignedness, ha, int]
      have hhigh : (Value.highest A).val = A.maximum := rfl
      have hover (x : Value A) : resolve willSubtractOverflow₁ willSubtractOverflowSameSignedness x
          (Value.staticCast int 1) = !decide (A.Represents (x.val - 1)) :=
        resolve_eq _ _ (fun y hy => by rw [willSubtractOverflow₁, hy]; rfl)
          (willSubtractOverflowSameSignedness_eq _ _ hint)
      have hsub (x : Value A) : resolve saturatingSubtract₁ saturatingSubtractSameSignedness x
          (Value.staticCast int 1) = .clamp A (x.val - 1) :=
        resolve_eq _ _ (fun y hy => by rw [saturatingSubtract₁_eq, hy]; rfl)
          (saturatingSubtractSameSignedness_eq _ _ hint)
      simp only [hover, hsub, saturatingSubtract₁_eq, willSubtractOverflow₁, builtinOverflow,
        willCastOverflow_eq, saturatingCast_eq, hr, bind, Except.bind, he,
        Bool.not_eq_true', decide_eq_false_iff_not]
      split
      case isTrue h₁ =>
        rw [Represents] at h₁
        exact overflow_of_not (by rw [Represents]; omega)
      case isFalse h₁ =>
        rw [not_not] at h₁
        rw [Value.clamp_of_represents h₁]
        rw [Represents] at h₁
        split
        case isTrue h₂ =>
          rw [Represents] at h₂
          exact overflow_of_not (by rw [Represents]; omega)
        case isFalse h₂ =>
          rw [not_not] at h₂
          rw [Value.clamp_of_represents h₂]
          rw [Represents] at h₂
          split
          case isTrue h₃ =>
            rw [Represents] at h₃
            exact overflow_of_not (by rw [Represents]; omega)
          case isFalse h₃ =>
            rw [Value.clamp_of_represents (not_not.mp h₃)]
            exact overflow_congr (by rw [Represents, Represents]; omega)
    case isFalse h =>
      have hrep := exceeds_of_mixed second ha hb h
      rw [saturatingCast_eq, willSubtractOverflow₁, Value.clamp_of_represents hrep]
      rfl
  · have hb : B.isSigned = true := by simpa [sameSignedness, ha] using hs
    rw [if_neg (by simp [ha])]
    split
    case isTrue hneg =>
      obtain ⟨a, hr, he⟩ := toUnsignedAbsolute_eq second
      rw [hr]
      simp only [bind, Except.bind, saturatingCast_eq, willCastOverflow_eq, willAddOverflow₁,
        builtinOverflow, he, abs_of_neg hneg, Bool.not_eq_true', decide_eq_false_iff_not]
      split
      case isTrue h₁ =>
        rw [Represents] at h₁
        exact overflow_of_not (by rw [Represents]; omega)
      case isFalse h₁ =>
        rw [Value.clamp_of_represents (not_not.mp h₁)]
        exact overflow_congr (by rw [Represents, Represents]; omega)
    case isFalse hneg =>
      simp only [saturatingCast_eq, willCastOverflow_eq, willSubtractOverflow₁, builtinOverflow,
        Bool.not_eq_true', decide_eq_false_iff_not]
      split
      case isTrue h₁ =>
        rw [Represents] at h₁
        exact overflow_of_not (by rw [Represents]; omega)
      case isFalse h₁ =>
        rw [Value.clamp_of_represents (not_not.mp h₁)]
        rfl

/-- Where a product with an operand out of the range of the first type lies. -/
theorem product_cases (hz : first.val ≠ 0) (hr : ¬ A.Represents second.val) :
    (first.val < 0 ↔ second.val < 0) ∧ A.maximum < first.val * second.val ∨
      ¬ (first.val < 0 ↔ second.val < 0) ∧ (first.val * second.val < A.minimum ∨
        first.val * second.val = A.minimum ∧ first.val = -1 ∧ second.val = A.half) := by
  obtain ⟨hl, hu⟩ := first.represents
  have hp := A.half_pos
  rw [Represents] at hr
  have hn := A.minimum_nonpos
  have hx := A.maximum_pos
  rcases lt_trichotomy first.val (-1) with h | h | h
  · rcases bounds A with ⟨ha, hal, hau⟩ | ⟨ha, hal, hau⟩
    · rcases lt_or_ge second.val 0 with hs | hs
      · have hle : 0 ≤ (-2 - first.val) * (-second.val) := Int.mul_nonneg (by omega) (by omega)
        rw [show (-2 - first.val) * (-second.val) = first.val * second.val + 2 * second.val by ring]
          at hle
        exact .inl ⟨by omega, by omega⟩
      · have hle : 0 ≤ (-2 - first.val) * second.val := Int.mul_nonneg (by omega) hs
        rw [show (-2 - first.val) * second.val = -(first.val * second.val) - 2 * second.val by ring]
          at hle
        exact .inr ⟨by omega, .inl (by omega)⟩
    · omega
  · rw [h]
    rcases bounds A with ⟨ha, hal, hau⟩ | ⟨ha, hal, hau⟩ <;> omega
  · have hpos : 0 < first.val := by omega
    rcases lt_or_ge second.val 0 with hs | hs
    · have hle : 0 ≤ (first.val - 1) * (-second.val) := Int.mul_nonneg (by omega) (by omega)
      rw [show (first.val - 1) * (-second.val) = second.val - first.val * second.val by ring]
        at hle
      exact .inr ⟨by omega, .inl (by omega)⟩
    · have hle : 0 ≤ (first.val - 1) * second.val := Int.mul_nonneg (by omega) hs
      rw [show (first.val - 1) * second.val = first.val * second.val - second.val by ring] at hle
      exact .inl ⟨by omega, by omega⟩

/-- A product with an operand out of range saturates on the side of its sign. -/
theorem extremeIntFromMultiplication_eq (hz : first.val ≠ 0) (hr : ¬ A.Represents second.val)
    (hs : A.isSigned = true ∨ 0 ≤ second.val) :
    extremeIntFromMultiplication first second = .clamp A (first.val * second.val) := by
  obtain ⟨hl, hu⟩ := first.represents
  have hn := A.minimum_nonpos
  have hx := A.maximum_pos
  have hb : (B.isSigned && decide (second.val < 0)) = decide (second.val < 0) := by
    cases hsign : B.isSigned with
    | true => exact Bool.true_and _
    | false =>
      have := nonneg_of_unsigned second hsign
      rw [decide_eq_false (by omega)]
      rfl
  unfold extremeIntFromMultiplication
  apply Value.eq_clamp
  rw [hb]
  rcases bounds A with ⟨ha, hal, hau⟩ | ⟨ha, hal, hau⟩
  · simp only [ha, ↓reduceIte, Bool.true_and, bne_iff_ne, ne_eq, decide_eq_decide]
    rcases product_cases first second hz hr with ⟨hsame, hlt⟩ | ⟨hdiff, hle⟩
    · rw [if_neg (by simpa using hsame)]
      exact .inr (.inr ⟨hlt, rfl⟩)
    · rw [if_pos (by simpa using hdiff)]
      rcases hle with hlt | ⟨heq, -⟩
      · exact .inl ⟨hlt, rfl⟩
      · exact .inr (.inl heq.symm)
  · simp only [ha, Bool.false_eq_true, ↓reduceIte, false_or] at hs ⊢
    rcases product_cases first second hz hr with ⟨-, hlt⟩ | ⟨hdiff, -⟩
    · exact .inr (.inr ⟨hlt, rfl⟩)
    · omega

theorem saturatingMultiply₂_eq :
    saturatingMultiply₂ first second = .clamp A (first.val * second.val) := by
  obtain ⟨hl, hu⟩ := first.represents
  unfold saturatingMultiply₂
  split
  case isTrue h =>
    rw [Int.mul_eq_zero.mpr h]
    exact staticCast_eq_clamp (Value.represents_zero A)
  case isFalse h =>
    rw [not_or] at h
    have general (hs : A.isSigned = true ∨ 0 ≤ second.val) :
        (if willCastOverflow A second then extremeIntFromMultiplication first second
          else saturatingMultiply₁ first (saturatingCast A second)) =
            Value.clamp A (first.val * second.val) := by
      rw [willCastOverflow_eq, saturatingCast_eq]
      split
      case isTrue hr =>
        exact extremeIntFromMultiplication_eq _ _ h.1 (by simpa using hr) hs
      case isFalse hr =>
        rw [saturatingMultiply₁_eq, Value.clamp_of_represents (by simpa using hr)]
    rcases bounds A with ⟨ha, hal, hau⟩ | ⟨ha, hal, hau⟩
    · simp only [ha, Bool.not_true, Bool.false_and, Bool.false_eq_true, ↓reduceIte]
      exact general (.inl ha)
    · simp only [ha, Bool.not_false, Bool.true_and]
      by_cases hb : B.isSigned
      · rw [if_pos hb]
        split
        case isTrue hneg =>
          exact zero_eq_clamp hal (Int.mul_neg_of_pos_of_neg (by omega) hneg)
        case isFalse hneg => exact general (.inr (not_lt.mp hneg))
      · rw [if_neg hb]
        exact general (.inr (nonneg_of_unsigned second (by simpa using hb)))

theorem represents_of_not_greater (ha : A.isSigned = true)
    (h : secondHasGreaterPositiveRange A B = false) : A.Represents second.val := by
  have hh := halves A B
  obtain ⟨hl, hu⟩ := second.represents
  simp only [secondHasGreaterPositiveRange, ha, Bool.and_true, Bool.or_eq_false_iff,
    Bool.and_eq_false_iff, beq_eq_false_iff_ne, Bool.not_eq_false', decide_eq_false_iff_not] at h
  rw [Represents, minimum_signed ha, maximum_signed ha]
  rcases bounds B with ⟨hb, hbl, hbu⟩ | ⟨hb, hbl, hbu⟩
  · omega
  · simp only [hb, Bool.false_eq_true, or_false] at h
    omega

/-- The absolute minimum of a signed type, in a type with a greater positive range. -/
theorem staticCast_half (ha : A.isSigned = true)
    (h : secondHasGreaterPositiveRange A B = true) : (Value.staticCast B A.half).val = A.half := by
  have hh := halves A B
  apply Value.staticCast_val
  simp only [secondHasGreaterPositiveRange, ha, Bool.and_true, Bool.or_eq_true, Bool.and_eq_true,
    beq_iff_eq, Bool.not_eq_true', decide_eq_true_eq] at h
  rw [Represents]
  rcases bounds B with ⟨hb, hbl, hbu⟩ | ⟨hb, hbl, hbu⟩
  · simp only [hb, Bool.true_eq_false, and_false, false_or] at h
    omega
  · omega

theorem willMultiplyOverflow₂_eq : willMultiplyOverflow₂ first second =
    .ok (!decide (A.Represents (first.val * second.val))) := by
  obtain ⟨hl, hu⟩ := first.represents
  have hn := A.minimum_nonpos
  have hx := A.maximum_pos
  have represented (h : A.Represents (first.val * second.val)) :
      (pure false : Except Fault Bool) = .ok (!decide (A.Represents (first.val * second.val))) := by
    rw [decide_eq_true h]
    rfl
  unfold willMultiplyOverflow₂
  split
  case isTrue h =>
    apply represented
    rcases h with h | h | h
    · rw [h, Int.zero_mul]
      exact Value.represents_zero A
    · rw [h, Int.mul_zero]
      exact Value.represents_zero A
    · rw [h, Int.mul_one]
      exact first.represents
  case isFalse h =>
    rw [not_or, not_or] at h
    obtain ⟨hz, hz', -⟩ := h
    split
    case isTrue hs =>
      simp only [Bool.and_eq_true, Bool.not_eq_true'] at hs
      obtain ⟨⟨ha, -⟩, hneg⟩ := hs
      have hmin := minimum_unsigned ha
      have := Int.mul_neg_of_pos_of_neg (show 0 < first.val by omega) hneg
      exact overflow_of_not fun hr => absurd hr.1 (by omega)
    case isFalse hs =>
      have general (he : ¬ (first.val = -1 ∧ second.val = A.half) ∨ A.Represents second.val) :
          (if (willCastOverflow A second && decide (first.val ≠ 0)) = true then pure true
            else pure (willMultiplyOverflow₁ first (saturatingCast A second))) =
              Except.ok (ε := Fault) (!decide (A.Represents (first.val * second.val))) := by
        simp only [willCastOverflow_eq, saturatingCast_eq, willMultiplyOverflow₁, builtinOverflow,
          decide_eq_true hz, Bool.and_true]
        split
        case isTrue hr =>
          have hr' : ¬ A.Represents second.val := by simpa using hr
          refine overflow_of_not fun hrep => ?_
          rw [Represents] at hrep
          rcases product_cases first second hz hr' with ⟨-, hlt⟩ | ⟨-, hlt | ⟨-, hedge⟩⟩
          · omega
          · omega
          · exact he.elim (fun h => h hedge) hr'
        case isFalse hr =>
          rw [Value.clamp_of_represents (by simpa using hr)]
          rfl
      by_cases hg : (A.isSigned && secondHasGreaterPositiveRange A B) = true
      · rw [if_pos hg]
        obtain ⟨ha, hgreater⟩ := Bool.and_eq_true_iff.mp hg
        obtain ⟨a, hr, he⟩ := toUnsignedAbsolute_eq (Value.lowest A)
        rw [Value.lowest_val, abs_of_nonpos hn, minimum_signed ha, neg_neg] at he
        simp only [hr, bind, Except.bind, pure, Except.pure, he, staticCast_half ha hgreater]
        split
        case isTrue hedge =>
          simp only [Bool.and_eq_true, decide_eq_true_eq] at hedge
          have hp := A.half_pos
          apply represented
          rw [hedge.1, hedge.2, Represents, minimum_signed ha]
          omega
        case isFalse hedge =>
          exact general (.inl (by simpa using hedge))
      · rw [if_neg hg]
        simp only [bind, Except.bind, pure, Except.pure, Bool.false_eq_true, ↓reduceIte]
        apply general
        cases ha : A.isSigned with
        | true =>
          refine .inr (represents_of_not_greater second ha ?_)
          simpa [ha] using hg
        | false =>
          have := minimum_unsigned ha
          exact .inl fun h => by omega

theorem tdiv_eq_zero {a b : Int} (h : |a| < |b|) : a.tdiv b = 0 := by
  rw [Int.abs_eq_natAbs, Int.abs_eq_natAbs] at h
  rw [← Int.natAbs_eq_zero, Int.natAbs_tdiv]
  exact Nat.div_eq_of_lt (by omega)

/-- A divisor below zero leaves nothing of an unsigned dividend. -/
theorem zero_eq_clamp_tdiv (ha : A.isSigned = false) (hneg : second.val < 0) :
    Value.staticCast A 0 = .clamp A (first.val.tdiv second.val) := by
  have hmin := minimum_unsigned ha
  have hq : 0 ≤ first.val.tdiv (-second.val) :=
    Int.tdiv_nonneg (nonneg_of_unsigned first ha) (by omega)
  rw [Int.tdiv_neg] at hq
  rcases eq_or_lt_of_le hq with h | h
  · rw [show first.val.tdiv second.val = 0 by omega]
    exact staticCast_eq_clamp (Value.represents_zero A)
  · exact zero_eq_clamp hmin (by omega)

theorem zero_eq_clamp_of_abs_lt (h : |first.val| < |second.val|) :
    Value.staticCast A 0 = .clamp A (first.val.tdiv second.val) := by
  rw [tdiv_eq_zero h]
  exact staticCast_eq_clamp (Value.represents_zero A)

/-- A divisor within the magnitude of the dividend is representable, or the absolute minimum. -/
theorem saturatingDivide_cast_eq (hz : second.val ≠ 0)
    (h : A.Represents second.val ∨ A.isSigned = true ∧ A.maximum < second.val ∧
      second.val ≤ |first.val|) :
    saturatingDivide₁ first (saturatingCast A second) =
      .ok (.clamp A (first.val.tdiv second.val)) := by
  rw [saturatingCast_eq]
  rcases h with h | ⟨ha, hlt, hle⟩
  · rw [saturatingDivide₁_eq _ _ (by rwa [Value.clamp_of_represents h]),
      Value.clamp_of_represents h]
  · have hp := A.half_pos
    have hl := first.represents.1
    have hu := first.represents.2
    rw [minimum_signed ha] at hl
    rw [maximum_signed ha] at hlt hu
    rw [Int.abs_eq_natAbs] at hle
    have hf : first.val = -A.half := by omega
    have hs : second.val = A.half := by omega
    have hc : (Value.clamp A second.val).val = A.half - 1 := by
      have h := Value.clamp_cases A second.val
      rw [Represents, maximum_signed ha, minimum_signed ha] at h
      omega
    -- Both `-h / (h - 1)` and `-h / h` are `-1`.
    rw [saturatingDivide₁_eq _ _ (by omega), hc, hf, hs]
    have h₁ : A.half.tdiv (A.half - 1) = 1 := by
      rw [Int.tdiv_eq_ediv_of_nonneg (by omega), Int.ediv_eq_iff_of_pos (by omega)]
      omega
    rw [Int.neg_tdiv, Int.neg_tdiv, h₁, Int.tdiv_self (by omega)]

theorem saturatingDivide₂_eq (hz : second.val ≠ 0) :
    saturatingDivide₂ first second = .ok (.clamp A (first.val.tdiv second.val)) := by
  have hh := halves A B
  obtain ⟨hl, hu⟩ := first.represents
  obtain ⟨hl', hu'⟩ := second.represents
  obtain ⟨absoluteA, hrA, heA⟩ := toUnsignedAbsolute_eq first
  obtain ⟨absoluteB, hrB, heB⟩ := toUnsignedAbsolute_eq second
  unfold saturatingDivide₂
  by_cases hmixed : (!A.isSigned && B.isSigned) = true
  · rw [if_pos hmixed]
    obtain ⟨ha, hb⟩ := Bool.and_eq_true_iff.mp hmixed
    rw [Bool.not_eq_true'] at ha
    have hfirst := nonneg_of_unsigned first ha
    split
    case isTrue hg =>
      split
      case isTrue hneg => exact congrArg _ (zero_eq_clamp_tdiv first second ha hneg)
      case isFalse hneg =>
        simp only [hrB, bind, Except.bind, heB]
        split
        case isTrue hlt =>
          refine congrArg _ (zero_eq_clamp_of_abs_lt first second ?_)
          rwa [abs_of_nonneg hfirst]
        case isFalse hlt =>
          rw [abs_of_nonneg (by omega)] at hlt
          refine saturatingDivide_cast_eq first second hz (.inl ⟨?_, by omega⟩)
          rw [minimum_unsigned ha]
          omega
    case isFalse hg =>
      split
      case isTrue hneg => exact congrArg _ (zero_eq_clamp_tdiv first second ha hneg)
      case isFalse hneg =>
        refine saturatingDivide_cast_eq first second hz (.inl ?_)
        rw [maximum_signed hb] at hu'
        simp only [secondHasGreaterPositiveRange, ha, Bool.and_false, Bool.false_and,
          Bool.false_or, decide_eq_true_eq] at hg
        rw [Represents, minimum_unsigned ha, maximum_unsigned ha]
        omega
  · rw [if_neg hmixed]
    split
    case isTrue hg =>
      simp only [hrA, hrB, bind, Except.bind, heA, heB]
      split
      case isTrue hlt => exact congrArg _ (zero_eq_clamp_of_abs_lt first second hlt)
      case isFalse hlt =>
        apply saturatingDivide_cast_eq first second hz
        rw [not_lt] at hlt
        rcases bounds A with ⟨ha, hal, hau⟩ | ⟨ha, hal, hau⟩
        · by_cases hs : A.maximum < second.val
          · exact .inr ⟨ha, hs, le_trans (le_abs_self _) hlt⟩
          · rw [Int.abs_eq_natAbs, Int.abs_eq_natAbs] at hlt
            exact .inl ⟨by omega, by omega⟩
        · have hb : B.isSigned = false := by simpa [ha] using hmixed
          rw [abs_of_nonneg (nonneg_of_unsigned first ha),
            abs_of_nonneg (nonneg_of_unsigned second hb)] at hlt
          rw [minimum_unsigned hb] at hl'
          exact .inl ⟨by omega, by omega⟩
    case isFalse hg =>
      rw [Bool.not_eq_true] at hg
      refine saturatingDivide_cast_eq first second hz (.inl ?_)
      rcases bounds A with ⟨ha, hal, hau⟩ | ⟨ha, hal, hau⟩
      · exact represents_of_not_greater second ha hg
      · have hb : B.isSigned = false := by simpa [ha] using hmixed
        rw [minimum_unsigned hb] at hl'
        rw [maximum_unsigned hb] at hu'
        simp only [secondHasGreaterPositiveRange, ha, Bool.and_false, Bool.false_and,
          Bool.false_or, decide_eq_false_iff_not] at hg
        exact ⟨by omega, by omega⟩

theorem willDivideOverflow₂_eq (hz : second.val ≠ 0) : willDivideOverflow₂ first second =
    .ok (!decide (A.Represents (first.val.tdiv second.val))) := by
  obtain ⟨hl, hu⟩ := first.represents
  have represented (h : A.Represents (first.val.tdiv second.val)) : (pure false : Except Fault Bool) =
      .ok (!decide (A.Represents (first.val.tdiv second.val))) := by
    rw [decide_eq_true h]
    rfl
  unfold willDivideOverflow₂
  rcases bounds A with ⟨ha, hal, hau⟩ | ⟨ha, hal, hau⟩
  · have general (h : second.val = -1 → first.val ≠ A.minimum) :
        A.Represents (first.val.tdiv second.val) :=
      tdiv_represents hz (fun hs => by rw [ha] at hs; cases hs) fun _ => h
    simp only [ha, Bool.not_true, Bool.false_and, Bool.false_eq_true, ↓reduceIte, Bool.true_and]
    by_cases hb : B.isSigned = true
    · rw [if_pos hb]
      by_cases he : first.val = A.minimum ∧ second.val = -1
      · rw [decide_eq_true he.1, decide_eq_true he.2]
        refine overflow_of_not fun hr => ?_
        rw [he.1, he.2, show (-1 : Int) = -(1 : Int) from rfl, Int.tdiv_neg, Int.tdiv_one] at hr
        exact absurd hr.2 (by omega)
      · rw [show (decide (first.val = A.minimum) && decide (second.val = -1)) = false by
          simpa using he]
        exact represented (general fun h₁ h₂ => he ⟨h₂, h₁⟩)
    · rw [if_neg hb]
      have := nonneg_of_unsigned second (by simpa using hb)
      exact represented (general fun h₁ => by omega)
  · have hfirst := nonneg_of_unsigned first ha
    simp only [ha, Bool.not_false, Bool.true_and, Bool.false_and, Bool.false_eq_true, ↓reduceIte]
    have general (hs : 0 ≤ second.val) : A.Represents (first.val.tdiv second.val) :=
      tdiv_represents hz (fun _ => hs) fun h => by rw [ha] at h; cases h
    by_cases hb : B.isSigned = true
    · rw [if_pos hb]
      split
      case isTrue h =>
        rcases h with h | h
        · exact represented (general h)
        · rw [h, Int.zero_tdiv] at represented ⊢
          exact represented (Value.represents_zero A)
      case isFalse h =>
        obtain ⟨absolute, hr, he⟩ := toUnsignedAbsolute_eq second
        simp only [hr, bind, Except.bind, he]
        rw [not_or, not_le] at h
        rw [abs_of_neg h.1]
        have hq : 0 ≤ first.val.tdiv (-second.val) := Int.tdiv_nonneg hfirst (by omega)
        have hneg := Int.tdiv_neg first.val second.val
        by_cases hge : first.val ≥ -second.val
        · rw [decide_eq_true hge]
          refine overflow_of_not fun hrep => ?_
          have hone : 1 ≤ first.val.tdiv (-second.val) := by
            rw [Int.tdiv_eq_ediv_of_nonneg hfirst, Int.le_ediv_iff_mul_le (by omega)]
            omega
          exact absurd hrep.1 (by omega)
        · rw [decide_eq_false hge]
          apply represented
          rw [tdiv_eq_zero (by rw [abs_of_nonneg hfirst, abs_of_neg h.1]; omega)]
          exact Value.represents_zero A
    · rw [if_neg hb]
      exact represented (general (nonneg_of_unsigned second (by simpa using hb)))

theorem tmod_abs (a b : Int) : a.tmod |b| = a.tmod b := by
  rcases abs_choice b with h | h
  · rw [h]
  · rw [h, Int.tmod_neg]

theorem moduloByAbsolute_eq (absolute : Value C) (hc : C.isSigned = false)
    (hz : absolute.val ≠ 0) :
    moduloByAbsolute first absolute = .ok (.clamp A (first.val.tmod absolute.val)) := by
  have hnonneg := nonneg_of_unsigned absolute hc
  obtain ⟨hl, hu⟩ := first.represents
  obtain ⟨absoluteA, hr, he⟩ := toUnsignedAbsolute_eq first
  simp only [moduloByAbsolute, hr, bind, Except.bind, he]
  split
  case isTrue h =>
    refine congrArg _ ?_
    rw [← h, tmod_abs, Int.tmod_self]
    exact staticCast_eq_clamp (Value.represents_zero A)
  case isFalse h =>
    rw [willCastOverflow_eq, saturatingCast_eq]
    split
    case isTrue ho =>
      have ho' : ¬ A.Represents absolute.val := by simpa using ho
      have hlt : first.val.natAbs < absolute.val.natAbs := by
        have hn := A.minimum_nonpos
        rw [Represents] at ho'
        rw [Int.abs_eq_natAbs] at h
        rcases bounds A with ⟨ha, hal, hau⟩ | ⟨ha, hal, hau⟩ <;> omega
      rw [← Int.ofNat_lt, ← Int.abs_eq_natAbs, ← Int.abs_eq_natAbs] at hlt
      rw [Int.tmod_def, tdiv_eq_zero hlt, Int.mul_zero, Int.sub_zero]
      exact congrArg _ (Value.ext (Value.clamp_of_represents first.represents).symm)
    case isFalse ho =>
      have ho' : A.Represents absolute.val := by simpa using ho
      rw [saturatingModulo₁_eq _ _ (by rwa [Value.clamp_of_represents ho']),
        Value.clamp_of_represents ho']

theorem greater_makeUnsigned (A B : NativeInteger) :
    secondHasGreaterPositiveRange A B.makeUnsigned =
      ((A.size == B.size && A.isSigned) || decide (B.size > A.size)) := by
  rw [secondHasGreaterPositiveRange, show B.makeUnsigned.isSigned = false from rfl, Bool.not_false,
    Bool.and_true]
  rfl

theorem saturatingModulo₂_eq (hz : second.val ≠ 0) :
    saturatingModulo₂ first second = .ok (.clamp A (first.val.tmod second.val)) := by
  have hh := halves A B
  obtain ⟨absolute, hr, he⟩ := toUnsignedAbsolute_eq second
  have hza : absolute.val ≠ 0 := by rw [he]; exact abs_ne_zero.mpr hz
  have byAbsolute := moduloByAbsolute_eq first absolute rfl hza
  rw [he, tmod_abs] at byAbsolute
  unfold saturatingModulo₂
  rw [if_neg hz]
  simp only [hr, bind, Except.bind]
  split
  case isTrue hs =>
    split
    case isTrue hg => exact byAbsolute
    case isFalse hg =>
      have hrep : A.Represents absolute.val := by
        obtain ⟨hl, hu⟩ := absolute.represents
        rw [minimum_unsigned rfl] at hl
        rw [maximum_unsigned rfl, half_makeUnsigned] at hu
        rw [Represents]
        rw [greater_makeUnsigned, Bool.or_eq_true, Bool.and_eq_true, beq_iff_eq,
          decide_eq_true_eq] at hg
        rcases bounds A with ⟨ha, hal, hau⟩ | ⟨ha, hal, hau⟩
        · simp only [ha, and_true] at hg
          omega
        · omega
      rw [saturatingCast_eq, saturatingModulo₁_eq _ _ (by rwa [Value.clamp_of_represents hrep]),
        Value.clamp_of_represents hrep, he, tmod_abs]
  case isFalse hs => exact byAbsolute

/-- Every operation yields the exact result, clamped to the range of the first type, and every
predicate tells whether the exact result is out of that range. No evaluation has a fault. -/
theorem saturating_exact :
    saturatingCast A second = .clamp A second.val ∧
    willCastOverflow A second = !decide (A.Represents second.val) ∧
    saturatingAdd first second = .ok (.clamp A (first.val + second.val)) ∧
    willAddOverflow first second = .ok (!decide (A.Represents (first.val + second.val))) ∧
    saturatingSubtract first second = .ok (.clamp A (first.val - second.val)) ∧
    willSubtractOverflow first second = .ok (!decide (A.Represents (first.val - second.val))) ∧
    saturatingMultiply first second = .ok (.clamp A (first.val * second.val)) ∧
    willMultiplyOverflow first second = .ok (!decide (A.Represents (first.val * second.val))) ∧
    (second.val ≠ 0 →
      saturatingDivide first second = .ok (.clamp A (first.val.tdiv second.val)) ∧
      willDivideOverflow first second = .ok (!decide (A.Represents (first.val.tdiv second.val))) ∧
      saturatingModulo first second = .ok (.clamp A (first.val.tmod second.val)) ∧
      willModuloOverflow first second =
        .ok (!decide (A.Represents (first.val.tmod second.val)))) := by
  refine ⟨saturatingCast_eq A second, willCastOverflow_eq A second, ?_, ?_, ?_, ?_, ?_, ?_, ?_⟩
  · refine resolve_eq _ _ (fun y hy => ?_) (saturatingAdd₂_eq _ _)
    rw [saturatingAdd₁_eq, hy]
  · refine resolve_eq _ _ (fun y hy => ?_) (willAddOverflow₂_eq _ _)
    rw [willAddOverflow₁, hy]
    rfl
  · refine resolve_eq _ _ (fun y hy => ?_) (saturatingSubtract₂_eq _ _)
    rw [saturatingSubtract₁_eq, hy]
  · refine resolve_eq _ _ (fun y hy => ?_) (willSubtractOverflow₂_eq _ _)
    rw [willSubtractOverflow₁, hy]
    rfl
  · refine congrArg _ (resolve_eq _ _ (fun y hy => ?_) (saturatingMultiply₂_eq _ _))
    rw [saturatingMultiply₁_eq, hy]
  · refine resolve_eq _ _ (fun y hy => ?_) (willMultiplyOverflow₂_eq _ _)
    rw [willMultiplyOverflow₁, hy]
    rfl
  · intro hz
    refine ⟨?_, ?_, ?_, ?_⟩
    · refine resolve_eq _ _ (fun y hy => ?_) (saturatingDivide₂_eq _ _ hz)
      rw [saturatingDivide₁_eq _ _ (by rwa [hy]), hy]
    · refine resolve_eq _ _ (fun y hy => ?_) (willDivideOverflow₂_eq _ _ hz)
      rw [willDivideOverflow₁_eq _ _ (by rwa [hy]), hy]
    · refine resolve_eq _ _ (fun y hy => ?_) (saturatingModulo₂_eq _ _ hz)
      rw [saturatingModulo₁_eq _ _ (by rwa [hy]), hy]
    · rw [willModuloOverflow, decide_eq_true (tmod_represents first second.val)]
      rfl

/-- The lowest value of a narrow signed type meets an unsigned value beyond its range. -/
theorem saturating_exact_mixed :
    saturatingDivide (Value.lowest { isSigned := true, size := 1 })
      (Value.staticCast { isSigned := false, size := 1 } 128) =
        .ok (.clamp _ ((-128 : Int).tdiv 128)) :=
  ((saturating_exact (Value.lowest { isSigned := true, size := 1 })
    (Value.staticCast { isSigned := false, size := 1 } 128)).2.2.2.2.2.2.2.2 (by decide)).1

end twoTypes
end ErbslandCore.Math
