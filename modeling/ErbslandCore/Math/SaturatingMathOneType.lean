import ErbslandCore.Math.SaturatingMath

namespace ErbslandCore.Math
open Library NativeInteger
set_option autoImplicit true

/-- The bounds of the types of a pair, in terms of their numbers of values. -/
theorem bounds (T : NativeInteger) :
    T.isSigned = true ∧ T.minimum = -T.half ∧ T.maximum = T.half - 1 ∨
      T.isSigned = false ∧ T.minimum = 0 ∧ T.maximum = 2 * T.half - 1 := by
  cases h : T.isSigned with
  | true => exact .inl ⟨rfl, minimum_signed h, maximum_signed h⟩
  | false => exact .inr ⟨rfl, minimum_unsigned h, maximum_unsigned h⟩

theorem halves (A B : NativeInteger) : 64 ≤ A.half ∧ 64 ≤ B.half ∧
    (A.size < B.size ∧ 2 * A.half ≤ B.half ∨ A.size = B.size ∧ A.half = B.half ∨
      B.size < A.size ∧ 2 * B.half ≤ A.half) := by
  refine ⟨A.half_pos, B.half_pos, ?_⟩
  rcases Nat.lt_trichotomy A.size B.size with h | h | h
  · exact .inl ⟨h, half_lt h⟩
  · exact .inr (.inl ⟨h, half_eq h⟩)
  · exact .inr (.inr ⟨h, half_lt h⟩)

theorem cast_val (h : A = B) (v : Value B) : (h ▸ v : Value A).val = v.val := by
  subst h
  rfl

section casts
variable {source : NativeInteger}

theorem saturatingCastMaxIfTargetLarger_eq (target : NativeInteger) (value : Value source)
    (hm : source.Represents target.maximum) (hl : target.minimum ≤ value.val) :
    saturatingCastMaxIfTargetLarger target value = Value.clamp target value.val := by
  unfold saturatingCastMaxIfTargetLarger
  rw [Value.staticCast_val hm]
  apply Value.eq_clamp
  split
  case isTrue h => exact .inr (.inr ⟨h, rfl⟩)
  case isFalse h => exact .inr (.inl (Value.staticCast_val ⟨hl, by omega⟩))

theorem staticCast_eq_clamp (h : T.Represents v) : Value.staticCast T v = Value.clamp T v :=
  Value.eq_clamp (.inr (.inl (Value.staticCast_val h)))

theorem zero_eq_clamp (h : T.minimum = 0) (hv : v < 0) :
    Value.staticCast T 0 = Value.clamp T v := by
  have hp := T.maximum_pos
  refine Value.eq_clamp (.inl ⟨by omega, ?_⟩)
  rw [h]
  exact Value.staticCast_val ⟨by omega, by omega⟩

theorem saturatingCastMixedSign_eq (target : NativeInteger) (value : Value source)
    (h : source.isSigned ≠ target.isSigned) :
    saturatingCastMixedSign target value = Value.clamp target value.val := by
  have hh := halves target source
  obtain ⟨hl, hu⟩ := value.represents
  unfold saturatingCastMixedSign
  rcases bounds source with ⟨hs, hsl, hsu⟩ | ⟨hs, hsl, hsu⟩ <;>
    rcases bounds target with ⟨ht, htl, htu⟩ | ⟨ht, htl, htu⟩
  · exact absurd (hs.trans ht.symm) h
  · simp only [ht, Bool.not_false, ↓reduceIte]
    by_cases hv : value.val < 0
    · simp only [hv, ↓reduceIte, ite_self]
      exact zero_eq_clamp htl hv
    · simp only [hv, ↓reduceIte]
      split
      · exact saturatingCastMaxIfTargetLarger_eq _ _ ⟨by omega, by omega⟩ (by omega)
      · exact staticCast_eq_clamp ⟨by omega, by omega⟩
  · simp only [ht, Bool.not_true, Bool.false_eq_true, ↓reduceIte]
    split
    · exact saturatingCastMaxIfTargetLarger_eq _ _ ⟨by omega, by omega⟩ (by omega)
    · exact staticCast_eq_clamp ⟨by omega, by omega⟩
  · exact absurd (hs.trans ht.symm) h

theorem saturatingCastDownSize_eq (target : NativeInteger) (value : Value source)
    (h : source.isSigned = target.isSigned) (hsize : target.size < source.size) :
    saturatingCastDownSize target value = Value.clamp target value.val := by
  have hh := halves target source
  obtain ⟨hl, hu⟩ := value.represents
  unfold saturatingCastDownSize
  rcases bounds target with ⟨ht, htl, htu⟩ | ⟨ht, htl, htu⟩
  · have hsl := minimum_signed (h.trans ht)
    have hsu := maximum_signed (h.trans ht)
    simp only [ht, ↓reduceIte]
    rw [Value.staticCast_val ⟨by omega, by omega⟩]
    split
    case isTrue hv => exact Value.eq_clamp (.inl ⟨hv, rfl⟩)
    case isFalse hv =>
      exact saturatingCastMaxIfTargetLarger_eq _ _ ⟨by omega, by omega⟩ (by omega)
  · have hsl := minimum_unsigned (h.trans ht)
    have hsu := maximum_unsigned (h.trans ht)
    simp only [ht, Bool.false_eq_true, ↓reduceIte]
    exact saturatingCastMaxIfTargetLarger_eq _ _ ⟨by omega, by omega⟩ (by omega)

/-- A cast yields the nearest value of the target type. -/
theorem saturatingCast_eq (target : NativeInteger) (value : Value source) :
    saturatingCast target value = Value.clamp target value.val := by
  unfold saturatingCast
  split
  case isTrue h =>
    subst h
    exact Value.ext (Value.clamp_of_represents value.represents).symm
  case isFalse =>
    by_cases h : source.isSigned = target.isSigned
    · simp only [sameSignedness, h, beq_self_eq_true, Bool.not_true, Bool.false_eq_true,
        ↓reduceIte]
      split
      case isTrue hsize => exact saturatingCastDownSize_eq _ _ h hsize
      case isFalse hsize =>
        have hh := halves target source
        obtain ⟨hl, hu⟩ := value.represents
        apply staticCast_eq_clamp
        rcases bounds target with ⟨ht, htl, htu⟩ | ⟨ht, htl, htu⟩
        · rw [minimum_signed (h.trans ht)] at hl
          rw [maximum_signed (h.trans ht)] at hu
          exact ⟨by omega, by omega⟩
        · rw [minimum_unsigned (h.trans ht)] at hl
          rw [maximum_unsigned (h.trans ht)] at hu
          exact ⟨by omega, by omega⟩
    · simp only [sameSignedness, beq_eq_false_iff_ne.mpr h, Bool.not_false, ↓reduceIte]
      exact saturatingCastMixedSign_eq _ _ h

/-- A cast overflows exactly when the target type does not represent the value. -/
theorem willCastOverflow_eq (target : NativeInteger) (value : Value source) :
    willCastOverflow target value = !decide (target.Represents value.val) := by
  have hh := halves target source
  obtain ⟨hl, hu⟩ := value.represents
  have hr : (!decide (target.Represents value.val)) =
      decide (value.val < target.minimum ∨ target.maximum < value.val) := by
    rw [← decide_not, decide_eq_decide, Represents]
    omega
  rw [hr]
  unfold willCastOverflow sameSignedness
  rcases bounds source with ⟨hs, hsl, hsu⟩ | ⟨hs, hsl, hsu⟩ <;>
    rcases bounds target with ⟨ht, htl, htu⟩ | ⟨ht, htl, htu⟩ <;>
    simp only [hs, ht, Bool.true_beq, Bool.false_beq, Bool.not_true, Bool.not_false,
      Bool.false_eq_true, ↓reduceIte] <;>
    rw [Bool.eq_iff_iff] <;> split
  · rw [Value.staticCast_val ⟨by omega, by omega⟩, Value.staticCast_val ⟨by omega, by omega⟩]
    simp only [Bool.or_eq_true, decide_eq_true_eq, gt_iff_lt]
  · simp only [Bool.false_eq_true, decide_eq_true_eq, false_iff]
    omega
  · rw [Value.staticCast_val ⟨by omega, by omega⟩]
    simp only [Bool.or_eq_true, decide_eq_true_eq]
    omega
  · simp only [decide_eq_true_eq]
    omega
  · rw [Value.staticCast_val ⟨by omega, by omega⟩]
    simp only [decide_eq_true_eq]
    omega
  · simp only [Bool.false_eq_true, decide_eq_true_eq, false_iff]
    omega
  · rw [Value.staticCast_val ⟨by omega, by omega⟩]
    simp only [decide_eq_true_eq]
    omega
  · simp only [Bool.false_eq_true, decide_eq_true_eq, false_iff]
    omega

end casts

theorem staticCast_add_mul (T : NativeInteger) (v k : Int) :
    Value.staticCast T (v + 2 * T.half * k) = Value.staticCast T v := by
  apply Value.ext
  show (v + 2 * T.half * k - T.minimum) % (2 * T.half) + T.minimum =
    (v - T.minimum) % (2 * T.half) + T.minimum
  rw [show v + 2 * T.half * k - T.minimum = v - T.minimum + 2 * T.half * k by ring,
    Int.add_mul_emod_self_left]

theorem half_makeUnsigned (T : NativeInteger) : T.makeUnsigned.half = T.half := rfl

/-- The absolute value of the minimum is representable in the unsigned type. -/
theorem toUnsignedAbsolute_eq (value : Value T) :
    ∃ a, toUnsignedAbsolute value = .ok a ∧ a.val = |value.val| := by
  have hmin := minimum_unsigned (T := T.makeUnsigned) rfl
  have hmax := maximum_unsigned (T := T.makeUnsigned) rfl
  rw [half_makeUnsigned] at hmax
  have hp := T.half_pos
  obtain ⟨hl, hu⟩ := value.represents
  have cast (h : 0 ≤ value.val) :
      (Value.staticCast T.makeUnsigned value.val).val = |value.val| := by
    rw [abs_of_nonneg h]
    refine Value.staticCast_val ⟨by omega, ?_⟩
    rcases bounds T with ⟨_, _, htu⟩ | ⟨_, _, htu⟩ <;> omega
  unfold toUnsignedAbsolute
  rcases bounds T with ⟨ht, htl, htu⟩ | ⟨ht, htl, htu⟩
  case inr =>
    simp only [ht, Bool.false_eq_true, ↓reduceIte]
    exact ⟨_, rfl, cast (by omega)⟩
  simp only [ht, ↓reduceIte]
  split
  case isFalse hn => exact ⟨_, rfl, cast (by omega)⟩
  case isTrue hn =>
    have hzero : (Value.staticCast T.makeUnsigned 0).val = 0 :=
      Value.staticCast_val ⟨by omega, by omega⟩
    have hcast : (Value.staticCast T.makeUnsigned value.val).val = value.val + 2 * T.half := by
      rw [← staticCast_add_mul _ _ 1, half_makeUnsigned, mul_one]
      exact Value.staticCast_val ⟨by omega, by omega⟩
    have hneg : (Value.staticCast T.makeUnsigned (0 - (value.val + 2 * T.half))).val =
        -value.val := by
      rw [show 0 - (value.val + 2 * T.half) =
        -value.val + 2 * T.makeUnsigned.half * (-1) by rw [half_makeUnsigned]; ring,
        staticCast_add_mul]
      exact Value.staticCast_val ⟨by omega, by omega⟩
    unfold minus
    rw [hzero, hcast, abs_of_neg hn]
    by_cases hsize : T.size < 4
    · have hprom : T.makeUnsigned.promoted = int := if_pos hsize
      have hint : 2 * T.half ≤ int.half := half_lt hsize
      have hil : int.minimum = -int.half := rfl
      have hiu : int.maximum = int.half - 1 := rfl
      obtain ⟨r, hr, hv⟩ := arithmetic_of_represents
        (T := T.makeUnsigned.promoted) (v := 0 - (value.val + 2 * T.half))
        (by rw [hprom]; exact ⟨by omega, by omega⟩)
      rw [hr]
      exact ⟨_, rfl, by rw [hv, hneg]⟩
    · have hprom : T.makeUnsigned.promoted = T.makeUnsigned := if_neg hsize
      rw [hprom, arithmetic, if_neg (by rintro ⟨h, _⟩; cases h)]
      refine ⟨_, rfl, ?_⟩
      rw [hneg]
      exact Value.staticCast_val ⟨by omega, by omega⟩

section oneType
variable {T : NativeInteger} (first second : Value T)

/-- The overflow built-ins saturate once the side of the overflow is known. -/
theorem saturate_eq {exact : Int} {extreme : Value T}
    (h : ¬ T.Represents exact →
      exact < T.minimum ∧ extreme = .lowest T ∨ T.maximum < exact ∧ extreme = .highest T) :
    (if (builtinOverflow T exact).1 then extreme else (builtinOverflow T exact).2) =
      Value.clamp T exact := by
  simp only [builtinOverflow, Bool.not_eq_true', decide_eq_false_iff_not]
  split
  case isFalse hr => exact staticCast_eq_clamp (not_not.mp hr)
  case isTrue hr =>
    rcases h hr with ⟨hlt, rfl⟩ | ⟨hlt, rfl⟩
    · exact Value.eq_clamp (.inl ⟨hlt, rfl⟩)
    · exact Value.eq_clamp (.inr (.inr ⟨hlt, rfl⟩))

theorem saturatingAdd₁_eq : saturatingAdd₁ first second = .clamp T (first.val + second.val) := by
  obtain ⟨hl, hu⟩ := first.represents
  obtain ⟨hl', hu'⟩ := second.represents
  apply saturate_eq
  intro hr
  rw [Represents] at hr
  rcases bounds T with ⟨ht, htl, htu⟩ | ⟨ht, htl, htu⟩
  · simp only [ht, ↓reduceIte]
    split
    · exact .inl ⟨by omega, rfl⟩
    · exact .inr ⟨by omega, rfl⟩
  · simp only [ht, Bool.false_eq_true, ↓reduceIte, and_true]
    omega

theorem saturatingSubtract₁_eq :
    saturatingSubtract₁ first second = .clamp T (first.val - second.val) := by
  obtain ⟨hl, hu⟩ := first.represents
  obtain ⟨hl', hu'⟩ := second.represents
  have hp := T.half_pos
  apply saturate_eq
  intro hr
  rw [Represents] at hr
  rcases bounds T with ⟨ht, htl, htu⟩ | ⟨ht, htl, htu⟩
  · split
    · exact .inr ⟨by omega, rfl⟩
    · exact .inl ⟨by omega, rfl⟩
  · rw [if_neg (by omega)]
    exact .inl ⟨by omega, rfl⟩

theorem saturatingMultiply₁_eq :
    saturatingMultiply₁ first second = .clamp T (first.val * second.val) := by
  obtain ⟨hl, hu⟩ := first.represents
  obtain ⟨hl', hu'⟩ := second.represents
  have hp := T.half_pos
  apply saturate_eq
  intro hr
  rw [Represents] at hr
  rcases bounds T with ⟨ht, htl, htu⟩ | ⟨ht, htl, htu⟩
  · simp only [ht, ↓reduceIte]
    by_cases h₁ : first.val < 0 <;> by_cases h₂ : second.val < 0
    · have := Int.mul_nonneg_of_nonpos_of_nonpos h₁.le h₂.le
      exact .inr ⟨by omega, by simp [h₁, h₂]⟩
    · have := Int.mul_nonpos_of_nonpos_of_nonneg h₁.le (not_lt.mp h₂)
      exact .inl ⟨by omega, by simp [h₁, h₂]⟩
    · have := Int.mul_nonpos_of_nonneg_of_nonpos (not_lt.mp h₁) h₂.le
      exact .inl ⟨by omega, by simp [h₁, h₂]⟩
    · have := Int.mul_nonneg (not_lt.mp h₁) (not_lt.mp h₂)
      exact .inr ⟨by omega, by simp [h₁, h₂]⟩
  · simp only [ht, Bool.false_eq_true, ↓reduceIte]
    have := Int.mul_nonneg (a := first.val) (b := second.val) (by omega) (by omega)
    simp only [and_true]
    omega

theorem nonneg_of_unsigned (hs : T.isSigned = false) : 0 ≤ second.val := by
  have := second.represents.1
  rwa [minimum_unsigned hs] at this

theorem dividedBy_eq (hz : second.val ≠ 0)
    (h : T.isSigned = true → second.val = -1 → first.val ≠ T.minimum) :
    ∃ q, dividedBy first second = .ok q ∧ q.val = first.val.tdiv second.val := by
  rw [dividedBy, if_neg hz]
  exact arithmetic_of_represents (tdiv_represents hz (nonneg_of_unsigned second) h).promoted

theorem saturatingDivide₁_eq (hz : second.val ≠ 0) :
    saturatingDivide₁ first second = .ok (.clamp T (first.val.tdiv second.val)) := by
  have general (h : T.isSigned = true → second.val = -1 → first.val ≠ T.minimum) :
      (do let quotient ← dividedBy first second
          return Value.staticCast T quotient.val) =
        Except.ok (Value.clamp T (first.val.tdiv second.val)) := by
    obtain ⟨q, hq, hv⟩ := dividedBy_eq first second hz h
    rw [hq]
    simp only [bind, Except.bind, pure, Except.pure, hv,
      staticCast_eq_clamp (tdiv_represents hz (nonneg_of_unsigned second) h)]
  unfold saturatingDivide₁
  rw [if_neg hz]
  split
  case isFalse hs => exact general fun h => absurd h hs
  case isTrue hs =>
    split
    case isFalse he => exact general fun _ h₁ h₂ => he ⟨h₂, h₁⟩
    case isTrue he =>
      rw [he.1, he.2, show (-1 : Int) = -(1 : Int) from rfl, Int.tdiv_neg, Int.tdiv_one]
      refine congrArg _ (Value.eq_clamp (.inr (.inr ⟨?_, rfl⟩)))
      rw [minimum_signed hs, maximum_signed hs]
      omega

theorem willDivideOverflow₁_eq (hz : second.val ≠ 0) : willDivideOverflow₁ first second =
    !decide (T.Represents (first.val.tdiv second.val)) := by
  unfold willDivideOverflow₁
  rcases bounds T with ⟨ht, htl, htu⟩ | ⟨ht, htl, htu⟩
  · rw [if_pos ht]
    by_cases he : first.val = T.minimum ∧ second.val = -1
    · rw [he.1, he.2, show (-1 : Int) = -(1 : Int) from rfl, Int.tdiv_neg, Int.tdiv_one,
        decide_eq_false fun hr : T.Represents (-T.minimum) => absurd hr.2 (by omega)]
      simp only [decide_true, Bool.and_self, Bool.not_false]
    · rw [decide_eq_true (tdiv_represents hz (nonneg_of_unsigned second)
        fun _ h₁ h₂ => he ⟨h₂, h₁⟩)]
      simpa using he
  · rw [if_neg (by simp [ht]), decide_eq_true (tdiv_represents hz (nonneg_of_unsigned second)
      fun h => by rw [ht] at h; cases h)]
    rfl

theorem tmod_between (a b : Int) : 0 ≤ a ∧ 0 ≤ a.tmod b ∧ a.tmod b ≤ a ∨
    a < 0 ∧ a ≤ a.tmod b ∧ a.tmod b ≤ 0 := by
  have habs : (a.tmod b).natAbs ≤ a.natAbs := by
    rw [Int.natAbs_tmod]
    exact Nat.mod_le _ _
  rcases le_or_gt 0 a with h | h
  · have := Int.tmod_nonneg b h
    omega
  · have := Int.tmod_nonneg b (show 0 ≤ -a by omega)
    rw [Int.neg_tmod] at this
    omega

/-- A remainder lies between zero and the dividend. -/
theorem tmod_represents (divisor : Int) : T.Represents (first.val.tmod divisor) := by
  have hn := T.minimum_nonpos
  have hp := T.maximum_pos
  obtain ⟨hl, hu⟩ := first.represents
  rcases tmod_between first.val divisor with h | h <;> exact ⟨by omega, by omega⟩

theorem saturatingModulo₁_eq (hz : second.val ≠ 0) :
    saturatingModulo₁ first second = .ok (.clamp T (first.val.tmod second.val)) := by
  unfold saturatingModulo₁
  rw [if_neg hz]
  split
  case isTrue h =>
    rw [h.2.2, show (-1 : Int) = -(1 : Int) from rfl, Int.tmod_neg, Int.tmod_one]
    exact congrArg _ (staticCast_eq_clamp (Value.represents_zero T))
  case isFalse h =>
    obtain ⟨q, hq, -⟩ := dividedBy_eq first second hz fun h₁ h₂ h₃ => h ⟨h₁, h₃, h₂⟩
    obtain ⟨r, hr, hv⟩ := arithmetic_of_represents
      (tmod_represents first second.val).promoted
    simp only [remainder, hq, hr, bind, Except.bind, pure, Except.pure, hv,
      staticCast_eq_clamp (tmod_represents first second.val)]

end oneType

end ErbslandCore.Math
