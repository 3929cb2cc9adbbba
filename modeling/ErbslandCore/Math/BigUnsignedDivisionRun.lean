import ErbslandCore.Math.BigUnsignedDivision

namespace ErbslandCore.Math
open Library Library.Positional
open Nat (ofDigits)
set_option autoImplicit true

namespace Digits

/-- The estimate of the digit at a place of a long division is too low. -/
def EstimateFails (size dividend divisor i : Nat) : Prop :=
  EstimateTooLow (divisor / cDigitBase ^ (size - 1))
    (divisor / cDigitBase ^ (size - 2) % cDigitBase)
    (LongDivision.window cDigitBase dividend divisor i / cDigitBase ^ (size - 1))
    (LongDivision.window cDigitBase dividend divisor i / cDigitBase ^ (size - 2) % cDigitBase)

/-- The leading digits of a number are its quotients by the places. -/
theorem leading_div (h : low < cDigitBase ^ n) (hx : x < cDigitBase) :
    ((y * cDigitBase + x) * cDigitBase ^ n + low) / cDigitBase ^ (n + 2 - 1) = y ∧
      ((y * cDigitBase + x) * cDigitBase ^ n + low) / cDigitBase ^ (n + 2 - 2) % cDigitBase = x := by
  have hpow : 0 < cDigitBase ^ n := Nat.pow_pos (by decide)
  have hplace : ((y * cDigitBase + x) * cDigitBase ^ n + low) / cDigitBase ^ n =
      y * cDigitBase + x := by
    rw [Nat.add_comm, Nat.add_mul_div_right _ _ hpow, Nat.div_eq_of_lt h, Nat.zero_add]
  constructor
  · rw [show n + 2 - 1 = n + 1 by omega, Nat.pow_succ, ← Nat.div_div_eq_div_mul, hplace, Nat.add_comm,
      Nat.add_mul_div_right _ _ (by decide), Nat.div_eq_of_lt hx, Nat.zero_add]
  · rw [Nat.add_sub_cancel, hplace, Nat.add_comm, Nat.add_mul_mod_self_right, Nat.mod_eq_of_lt hx]

theorem estimateFails_iff (hw : InRange (w₀ ++ [w₂, w₁])) (hv : InRange (v₀ ++ [v₂, v₁]))
    (hlen : w₀.length = v₀.length)
    (hwindow : LongDivision.window cDigitBase n (ofDigits cDigitBase (v₀ ++ [v₂, v₁])) i =
      ofDigits cDigitBase ((w₀ ++ [w₂, w₁]) ++ [high])) :
    EstimateFails (v₀ ++ [v₂, v₁]).length n (ofDigits cDigitBase (v₀ ++ [v₂, v₁])) i ↔
      EstimateTooLow v₁ v₂ (high * cDigitBase + w₁) w₂ := by
  have hv₂ : v₂ < cDigitBase := hv v₂ (List.mem_append_right _ List.mem_cons_self)
  have hw₂ : w₂ < cDigitBase := hw w₂ (List.mem_append_right _ List.mem_cons_self)
  have hv₀ := ofDigits_lt one_lt_cDigitBase fun digit hmem => hv digit (List.mem_append_left _ hmem)
  have hw₀ := ofDigits_lt one_lt_cDigitBase fun digit hmem => hw digit (List.mem_append_left _ hmem)
  rw [hlen] at hw₀
  have hsize : (v₀ ++ [v₂, v₁]).length = v₀.length + 2 := List.length_append
  obtain ⟨htop, hsecond⟩ := leading_div hv₀ hv₂ (y := v₁)
  obtain ⟨hsource, hthird⟩ := leading_div hw₀ hw₂ (y := high * cDigitBase + w₁)
  rw [EstimateFails, hwindow, ofDigits_leading_three, ofDigits_leading, hsize, hlen, htop, hsecond,
    hsource, hthird]

theorem divideLoop_step (hlow : low.length = j) (hwindow : window.length = divisor.length) :
    divideLoop divisor (j + 1) (low ++ (window ++ high :: above)) quotient =
      divideLoop divisor j (low ++ (divideWindow divisor window high).2.1 ++
        (divideWindow divisor window high).2.2 :: above)
        ((divideWindow divisor window high).1 :: quotient) := by
  subst hlow
  have hhigh : (window ++ high :: above).getD divisor.length 0 = high := by
    rw [← hwindow, List.getD_eq_getElem?_getD, List.getElem?_append_right (Nat.le_refl _),
      Nat.sub_self]
    rfl
  have habove : (window ++ high :: above).drop (divisor.length + 1) = above := by
    rw [← hwindow, List.drop_append, List.drop_of_length_le (Nat.le_succ _),
      Nat.add_sub_cancel_left]
    rfl
  rw [divideLoop]
  simp only [List.drop_left, List.take_left, hhigh, habove]
  rw [List.take_left' hwindow]

theorem divideLoop_quotient (divisor : List Nat) (j : Nat) (dividend quotient : List Nat) :
    ∃ qs, (divideLoop divisor j dividend quotient).1 = qs ++ quotient ∧ qs.length = j := by
  induction j generalizing dividend quotient with
  | zero => exact ⟨[], rfl, rfl⟩
  | succ j ih =>
    rw [divideLoop]
    obtain ⟨qs, heq, hlen⟩ := ih _ _
    refine ⟨qs ++ [_], heq.trans (List.append_cons _ _ _), ?_⟩
    rw [List.length_append, hlen, List.length_singleton]

theorem exists_leading_three {xs : List Nat} (h : xs.length = n + 3) :
    ∃ w₀ w₂ w₁ high, xs = (w₀ ++ [w₂, w₁]) ++ [high] ∧ w₀.length = n := by
  have hlen : (xs.drop n).length = 3 := by
    rw [List.length_drop, h, Nat.add_sub_cancel_left]
  obtain ⟨w₂, w₁, high, hdrop⟩ := List.length_eq_three.mp hlen
  refine ⟨xs.take n, w₂, w₁, high, ?_, ?_⟩
  · rw [List.append_assoc, List.cons_append, List.cons_append, List.nil_append, ← hdrop,
      List.take_append_drop]
  · rw [List.length_take, h]
    omega

/-- The digits of the next window: the digit of the place below the remainder. -/
theorem exists_window (hlow : low.length = j + 1) (hrem : rem.length = n + 2)
    (hlowRange : InRange low) (hremRange : InRange rem) :
    ∃ rest w₀ w₂ w₁ high, low ++ rem = rest ++ ((w₀ ++ [w₂, w₁]) ++ [high]) ∧
      rest.length = j ∧ w₀.length = n ∧ InRange rest ∧ InRange (w₀ ++ [w₂, w₁]) ∧
      ∃ digit < cDigitBase, ofDigits cDigitBase ((w₀ ++ [w₂, w₁]) ++ [high]) =
        digit + cDigitBase * ofDigits cDigitBase rem := by
  induction low using List.reverseRecOn with
  | nil => cases hlow
  | append_singleton rest digit _ =>
    rw [List.length_append, List.length_singleton, Nat.add_right_cancel_iff] at hlow
    have hlen : (digit :: rem).length = n + 3 := by rw [List.length_cons, hrem]
    obtain ⟨w₀, w₂, w₁, high, hsplit, hw₀⟩ := exists_leading_three hlen
    have hdigit : digit < cDigitBase := hlowRange digit (List.mem_append_right _ (.head _))
    have hrange : InRange ((w₀ ++ [w₂, w₁]) ++ [high]) := by
      rw [← hsplit]
      exact inRange_cons.mpr ⟨hdigit, hremRange⟩
    refine ⟨rest, w₀, w₂, w₁, high, ?_, hlow, hw₀, ?_, ?_, digit, hdigit, ?_⟩
    · rw [← hsplit, List.append_assoc, List.singleton_append]
    · exact fun digit hmem => hlowRange digit (List.mem_append_left _ hmem)
    · exact fun digit hmem => hrange digit (List.mem_append_left _ hmem)
    · rw [← hsplit, Nat.ofDigits_cons]

section Run
variable {v₀ low rem : List Nat} {v₁ v₂ j : Nat}

/-- One turn of a run: the window divides, or its estimate fails. -/
theorem divideLoop_turn (above quotient : List Nat) (hv : InRange (v₀ ++ [v₂, v₁])) (htop : cDigitBase ≤ 2 * v₁)
    (hlow : low.length = j + 1) (hrem : rem.length = (v₀ ++ [v₂, v₁]).length)
    (hlowRange : InRange low) (hremRange : InRange rem)
    (hlt : ofDigits cDigitBase rem < ofDigits cDigitBase (v₀ ++ [v₂, v₁])) :
    ∃ rest value, rest.length = j ∧ InRange rest ∧
      ofDigits cDigitBase (low ++ rem) = ofDigits cDigitBase rest + cDigitBase ^ j * value ∧
      LongDivision.window cDigitBase (ofDigits cDigitBase (low ++ rem))
        (ofDigits cDigitBase (v₀ ++ [v₂, v₁])) j = value ∧
      (¬ EstimateFails (v₀ ++ [v₂, v₁]).length (ofDigits cDigitBase (low ++ rem))
          (ofDigits cDigitBase (v₀ ++ [v₂, v₁])) j →
        ∃ next, next.length = (v₀ ++ [v₂, v₁]).length ∧ InRange next ∧
          ofDigits cDigitBase next = value % ofDigits cDigitBase (v₀ ++ [v₂, v₁]) ∧
          divideLoop (v₀ ++ [v₂, v₁]) (j + 1) (low ++ rem ++ above) quotient =
            divideLoop (v₀ ++ [v₂, v₁]) j (rest ++ next ++ 0 :: above)
              (value / ofDigits cDigitBase (v₀ ++ [v₂, v₁]) :: quotient)) ∧
      (EstimateFails (v₀ ++ [v₂, v₁]).length (ofDigits cDigitBase (low ++ rem))
          (ofDigits cDigitBase (v₀ ++ [v₂, v₁])) j →
        ∃ dividend digit, digit + 1 = value / ofDigits cDigitBase (v₀ ++ [v₂, v₁]) ∧
          divideLoop (v₀ ++ [v₂, v₁]) (j + 1) (low ++ rem ++ above) quotient =
            divideLoop (v₀ ++ [v₂, v₁]) j dividend (digit :: quotient)) := by
  have hsize : (v₀ ++ [v₂, v₁]).length = v₀.length + 2 := List.length_append
  obtain ⟨rest, w₀, w₂, w₁, high, hsplit, hrest, hw₀, hrestRange, hwRange, digit, hdigit, hvalue⟩ :=
    exists_window hlow (hrem.trans hsize) hlowRange hremRange
  have hnumber : ofDigits cDigitBase (low ++ rem) = ofDigits cDigitBase rest +
      cDigitBase ^ j * ofDigits cDigitBase ((w₀ ++ [w₂, w₁]) ++ [high]) := by
    rw [hsplit, Nat.ofDigits_append, hrest]
  have hrestlt : ofDigits cDigitBase rest < cDigitBase ^ j := by
    rw [← hrest]
    exact ofDigits_lt one_lt_cDigitBase hrestRange
  have hwindow : LongDivision.window cDigitBase (ofDigits cDigitBase (low ++ rem))
      (ofDigits cDigitBase (v₀ ++ [v₂, v₁])) j =
      ofDigits cDigitBase ((w₀ ++ [w₂, w₁]) ++ [high]) := by
    rw [hnumber, hvalue]
    exact LongDivision.window_last hrestlt hlt hdigit
  have hwlt : ofDigits cDigitBase ((w₀ ++ [w₂, w₁]) ++ [high]) <
      cDigitBase * ofDigits cDigitBase (v₀ ++ [v₂, v₁]) := by
    rw [← hwindow]
    exact LongDivision.window_lt (by decide) (Nat.zero_lt_of_lt hlt) _ _
  have hwlen : (w₀ ++ [w₂, w₁]).length = (v₀ ++ [v₂, v₁]).length := by
    rw [List.length_append, hw₀, hsize]
    rfl
  have hdividend : low ++ rem ++ above = rest ++ ((w₀ ++ [w₂, w₁]) ++ high :: above) := by
    rw [hsplit, List.append_assoc, List.append_assoc (w₀ ++ [w₂, w₁]), List.singleton_append]
  have hfails := estimateFails_iff hwRange hv hw₀ hwindow
  refine ⟨rest, _, hrest, hrestRange, hnumber, hwindow, ?_, ?_⟩
  · intro hgood
    rw [hfails] at hgood
    obtain ⟨next, hturn, hrange, hlength, hmod⟩ :=
      divideWindow_good hwRange hv hw₀ htop hwlt hgood
    refine ⟨next, hlength, hrange, hmod, ?_⟩
    rw [hdividend, divideLoop_step hrest hwlen, hturn]
  · intro hbad
    rw [hfails] at hbad
    have hdigit := divideWindow_tooLow hwRange hv hw₀ htop hwlt hbad
    rw [hdividend]
    exact ⟨_, _, hdigit, divideLoop_step hrest hwlen⟩

/-- What a turn leaves of the number differs from it by the multiple of the divisor taken away. -/
theorem number_split (value : Nat) (h : rest.length = j)
    (hnext : ofDigits cDigitBase next = value % v) :
    ofDigits cDigitBase rest + cDigitBase ^ j * value =
      ofDigits cDigitBase (rest ++ next) + cDigitBase ^ j * (value / v * v) := by
  rw [Nat.ofDigits_append, h, hnext, Nat.add_assoc, ← Nat.mul_add, Nat.mul_comm (value / v),
    Nat.mod_add_div]

theorem number_div (value : Nat) (hv : 0 < v) (h : rest.length = j)
    (hnext : ofDigits cDigitBase next = value % v) :
    (ofDigits cDigitBase rest + cDigitBase ^ j * value) / v =
      ofDigits cDigitBase (rest ++ next) / v + cDigitBase ^ j * (value / v) := by
  rw [number_split value h hnext, ← Nat.mul_assoc, Nat.add_mul_div_right _ _ hv]

/-- The places below do not see what a turn takes away. -/
theorem estimateFails_add (hi : i < j) (size n q v : Nat) :
    EstimateFails size (n + cDigitBase ^ j * (q * v)) v i ↔ EstimateFails size n v i := by
  rw [EstimateFails, LongDivision.window_add_mul (by decide) hi]
  rfl

/-- A run in which no estimate fails divides. -/
theorem divideLoop_good (above quotient : List Nat) (hv : InRange (v₀ ++ [v₂, v₁])) (htop : cDigitBase ≤ 2 * v₁)
    (hlow : low.length = j) (hrem : rem.length = (v₀ ++ [v₂, v₁]).length)
    (hlowRange : InRange low) (hremRange : InRange rem)
    (hlt : ofDigits cDigitBase rem < ofDigits cDigitBase (v₀ ++ [v₂, v₁]))
    (hgood : ∀ i < j, ¬ EstimateFails (v₀ ++ [v₂, v₁]).length (ofDigits cDigitBase (low ++ rem))
      (ofDigits cDigitBase (v₀ ++ [v₂, v₁])) i) :
    ∃ digits remainder above', divideLoop (v₀ ++ [v₂, v₁]) j (low ++ rem ++ above) quotient =
        (digits ++ quotient, remainder ++ above') ∧
      digits.length = j ∧ InRange digits ∧
      remainder.length = (v₀ ++ [v₂, v₁]).length ∧ InRange remainder ∧
      ofDigits cDigitBase digits =
        ofDigits cDigitBase (low ++ rem) / ofDigits cDigitBase (v₀ ++ [v₂, v₁]) ∧
      ofDigits cDigitBase remainder =
        ofDigits cDigitBase (low ++ rem) % ofDigits cDigitBase (v₀ ++ [v₂, v₁]) := by
  have hpos := Nat.zero_lt_of_lt hlt
  induction j generalizing low rem above quotient with
  | zero =>
    obtain rfl := List.length_eq_zero_iff.mp hlow
    refine ⟨[], rem, above, rfl, rfl, inRange_nil, hrem, hremRange, ?_, ?_⟩
    · rw [List.nil_append, Nat.div_eq_of_lt hlt]
      rfl
    · rw [List.nil_append, Nat.mod_eq_of_lt hlt]
  | succ j ih =>
    obtain ⟨rest, value, hrest, hrestRange, hnumber, hwindow, hturn, -⟩ :=
      divideLoop_turn above quotient hv htop hlow hrem hlowRange hremRange hlt
    obtain ⟨next, hnextLen, hnextRange, hnext, hstep⟩ := hturn (hgood j (Nat.lt_succ_self j))
    have hnextlt : ofDigits cDigitBase next < ofDigits cDigitBase (v₀ ++ [v₂, v₁]) := by
      rw [hnext]
      exact Nat.mod_lt _ hpos
    have hbelow : ∀ i < j, ¬ EstimateFails (v₀ ++ [v₂, v₁]).length
        (ofDigits cDigitBase (rest ++ next)) (ofDigits cDigitBase (v₀ ++ [v₂, v₁])) i := by
      intro i hi hfails
      apply hgood i (Nat.lt_succ_of_lt hi)
      rw [hnumber, number_split value hrest hnext]
      exact (estimateFails_add hi _ _ _ _).mpr hfails
    obtain ⟨digits, remainder, above', hrun, hlen, hrange, hremLen, hremRange', hdiv, hmod⟩ :=
      ih (0 :: above) (value / ofDigits cDigitBase (v₀ ++ [v₂, v₁]) :: quotient) hrest hnextLen
        hrestRange hnextRange hnextlt hbelow
    have hdigit : value / ofDigits cDigitBase (v₀ ++ [v₂, v₁]) < cDigitBase := by
      rw [← hwindow]
      apply Nat.div_lt_of_lt_mul
      rw [Nat.mul_comm]
      exact LongDivision.window_lt (by decide) hpos _ _
    refine ⟨digits ++ [value / ofDigits cDigitBase (v₀ ++ [v₂, v₁])], remainder, above', ?_, ?_, ?_,
      hremLen, hremRange', ?_, ?_⟩
    · rw [hstep, hrun, List.append_cons]
    · rw [List.length_append, hlen, List.length_singleton]
    · exact InRange.append hrange (inRange_cons.mpr ⟨hdigit, inRange_nil⟩)
    · rw [ofDigits_concat, hlen, hdiv, hnumber, number_div value hpos hrest hnext]
    · rw [hmod, hnumber, number_split value hrest hnext, ← Nat.mul_assoc,
        Nat.add_mul_mod_self_right]

/-- A run in which an estimate fails leaves digits that denote less than the quotient. -/
theorem divideLoop_fails (above quotient : List Nat) (hv : InRange (v₀ ++ [v₂, v₁]))
    (htop : cDigitBase ≤ 2 * v₁) (hlow : low.length = j)
    (hrem : rem.length = (v₀ ++ [v₂, v₁]).length) (hlowRange : InRange low) (hremRange : InRange rem)
    (hlt : ofDigits cDigitBase rem < ofDigits cDigitBase (v₀ ++ [v₂, v₁]))
    (hfails : ∃ i < j, EstimateFails (v₀ ++ [v₂, v₁]).length (ofDigits cDigitBase (low ++ rem))
      (ofDigits cDigitBase (v₀ ++ [v₂, v₁])) i) :
    ∃ digits, (divideLoop (v₀ ++ [v₂, v₁]) j (low ++ rem ++ above) quotient).1 =
        digits ++ quotient ∧
      digits.length = j ∧
      (InRange digits → ofDigits cDigitBase digits <
        ofDigits cDigitBase (low ++ rem) / ofDigits cDigitBase (v₀ ++ [v₂, v₁])) := by
  have hpos := Nat.zero_lt_of_lt hlt
  induction j generalizing low rem above quotient with
  | zero =>
    obtain ⟨i, hi, -⟩ := hfails
    cases hi
  | succ j ih =>
    obtain ⟨rest, value, hrest, hrestRange, hnumber, hwindow, hgoodTurn, hbadTurn⟩ :=
      divideLoop_turn above quotient hv htop hlow hrem hlowRange hremRange hlt
    by_cases hfirst : EstimateFails (v₀ ++ [v₂, v₁]).length (ofDigits cDigitBase (low ++ rem))
        (ofDigits cDigitBase (v₀ ++ [v₂, v₁])) j
    · -- The digit is one too small, and the digits below cannot make up for it.
      obtain ⟨dividend, digit, hdigit, hstep⟩ := hbadTurn hfirst
      obtain ⟨digits, heq, hlen⟩ :=
        divideLoop_quotient (v₀ ++ [v₂, v₁]) j dividend (digit :: quotient)
      refine ⟨digits ++ [digit], ?_, ?_, ?_⟩
      · rw [hstep, heq, List.append_cons]
      · rw [List.length_append, hlen, List.length_singleton]
      · intro hrange
        have hdigits := ofDigits_lt one_lt_cDigitBase fun digit hmem =>
          hrange digit (List.mem_append_left _ hmem)
        rw [hlen] at hdigits
        calc ofDigits cDigitBase (digits ++ [digit]) =
              ofDigits cDigitBase digits + cDigitBase ^ j * digit := by rw [ofDigits_concat, hlen]
          _ < cDigitBase ^ j + cDigitBase ^ j * digit := Nat.add_lt_add_right hdigits _
          _ = cDigitBase ^ j * (value / ofDigits cDigitBase (v₀ ++ [v₂, v₁])) := by
              rw [← hdigit, Nat.mul_succ, Nat.add_comm]
          _ ≤ ofDigits cDigitBase (low ++ rem) / ofDigits cDigitBase (v₀ ++ [v₂, v₁]) := by
              rw [hnumber, Nat.le_div_iff_mul_le hpos, Nat.mul_assoc]
              apply Nat.le_add_left_of_le
              exact Nat.mul_le_mul_left _ (Nat.div_mul_le_self _ _)
    · obtain ⟨next, hnextLen, hnextRange, hnext, hstep⟩ := hgoodTurn hfirst
      have hnextlt : ofDigits cDigitBase next < ofDigits cDigitBase (v₀ ++ [v₂, v₁]) := by
        rw [hnext]
        exact Nat.mod_lt _ hpos
      have hbelow : ∃ i < j, EstimateFails (v₀ ++ [v₂, v₁]).length
          (ofDigits cDigitBase (rest ++ next)) (ofDigits cDigitBase (v₀ ++ [v₂, v₁])) i := by
        obtain ⟨i, hi, hf⟩ := hfails
        rcases Nat.lt_or_eq_of_le (Nat.le_of_lt_succ hi) with hi | rfl
        · refine ⟨i, hi, ?_⟩
          rw [hnumber, number_split value hrest hnext] at hf
          exact (estimateFails_add hi _ _ _ _).mp hf
        · exact absurd hf hfirst
      obtain ⟨digits, heq, hlen, hsmall⟩ :=
        ih (0 :: above) (value / ofDigits cDigitBase (v₀ ++ [v₂, v₁]) :: quotient) hrest hnextLen
          hrestRange hnextRange hnextlt hbelow
      refine ⟨digits ++ [value / ofDigits cDigitBase (v₀ ++ [v₂, v₁])], ?_, ?_, ?_⟩
      · rw [hstep, heq, List.append_cons]
      · rw [List.length_append, hlen, List.length_singleton]
      · intro hrange
        have hdigits := hsmall fun digit hmem => hrange digit (List.mem_append_left _ hmem)
        rw [ofDigits_concat, hlen, hnumber, number_div value hpos hrest hnext]
        exact Nat.add_lt_add_right hdigits _

end Run

section Normalization

theorem normalization_concat (init : List Nat) (top : Nat) :
    normalization (init ++ [top]) = cDigitBase / (top + 1) := by
  have hlt : cDigitBase / (top + 1) < 2 ^ 32 :=
    (Nat.div_le_self _ _).trans_lt (by decide)
  rw [normalization, List.getLastD_concat, toUInt32_of_lt hlt]

theorem exists_leading_two {xs : List Nat} (h : xs.length = n + 2) :
    ∃ v₀ v₂ v₁, xs = v₀ ++ [v₂, v₁] ∧ v₀.length = n := by
  have hlen : (xs.drop n).length = 2 := by
    rw [List.length_drop, h, Nat.add_sub_cancel_left]
  obtain ⟨v₂, v₁, hdrop⟩ := List.length_eq_two.mp hlen
  refine ⟨xs.take n, v₂, v₁, ?_, ?_⟩
  · rw [← hdrop, List.take_append_drop]
  · rw [List.length_take, h]
    omega

/-- The normalized divisor has as many digits as the divisor, and a large leading digit. -/
theorem normalized_divisor (hd : Canonical cDigitBase divisor) (hlen : 2 ≤ divisor.length) :
    0 < normalization divisor ∧ normalization divisor ≤ cDigitBase ∧
      ∃ v₀ v₂ v₁, multiplySmall divisor (normalization divisor) = v₀ ++ [v₂, v₁] ∧
        (v₀ ++ [v₂, v₁]).length = divisor.length ∧ InRange (v₀ ++ [v₂, v₁]) ∧
        cDigitBase ≤ 2 * v₁ ∧
        ofDigits cDigitBase (v₀ ++ [v₂, v₁]) =
          ofDigits cDigitBase divisor * normalization divisor := by
  induction divisor using List.reverseRecOn with
  | nil => cases hlen
  | append_singleton init top _ =>
    obtain ⟨n, hn⟩ : ∃ n, init.length = n + 1 := by
      rw [List.length_append, List.length_singleton] at hlen
      exact ⟨init.length - 1, by omega⟩
    have htop : top < cDigitBase := hd.lt top (List.mem_append_right _ (.head _))
    have htopne : top ≠ 0 := by
      have hlast := hd.last (List.append_ne_nil_of_right_ne_nil _ (List.cons_ne_nil _ _))
      rwa [List.getLast_concat] at hlast
    have hinit := ofDigits_lt one_lt_cDigitBase fun digit hmem => hd.lt digit (List.mem_append_left _ hmem)
    rw [normalization_concat]
    have hfactor : 0 < cDigitBase / (top + 1) := Nat.div_pos htop (Nat.succ_pos _)
    have hfactorle : cDigitBase / (top + 1) ≤ cDigitBase := Nat.div_le_self _ _
    have hcanonical := multiplySmall_canonical hd hfactorle
    have hvalue := multiplySmall_value hd.lt hfactorle
    -- The factor does not carry the divisor over to a further digit.
    have hhigh : ofDigits cDigitBase (multiplySmall (init ++ [top]) (cDigitBase / (top + 1))) <
        cDigitBase ^ (n + 1 + 1) := by
      rw [hvalue, ofDigits_concat, hn]
      rw [hn] at hinit
      calc (ofDigits cDigitBase init + cDigitBase ^ (n + 1) * top) * (cDigitBase / (top + 1)) <
            (cDigitBase ^ (n + 1) * (top + 1)) * (cDigitBase / (top + 1)) := by
            apply Nat.mul_lt_mul_of_pos_right _ hfactor
            rw [Nat.mul_succ, Nat.add_comm]
            exact Nat.add_lt_add_left hinit _
        _ = cDigitBase ^ (n + 1) * ((top + 1) * (cDigitBase / (top + 1))) := Nat.mul_assoc _ _ _
        _ ≤ cDigitBase ^ (n + 1) * cDigitBase := Nat.mul_le_mul_left _ (Nat.mul_div_le _ _)
        _ = cDigitBase ^ (n + 1 + 1) := (Nat.pow_succ ..).symm
    have hlead : cDigitBase ^ (n + 1) * (top * (cDigitBase / (top + 1))) ≤
        ofDigits cDigitBase (multiplySmall (init ++ [top]) (cDigitBase / (top + 1))) := by
      rw [hvalue, ofDigits_concat, hn, Nat.add_mul, ← Nat.mul_assoc]
      exact Nat.le_add_left _ _
    have hlow : cDigitBase ^ (n + 1) ≤
        ofDigits cDigitBase (multiplySmall (init ++ [top]) (cDigitBase / (top + 1))) :=
      (Nat.le_mul_of_pos_right _ (Nat.mul_pos (Nat.pos_of_ne_zero htopne) hfactor)).trans hlead
    have hsize := hcanonical.length_eq one_lt_cDigitBase hlow hhigh
    obtain ⟨v₀, v₂, v₁, heq, hv₀⟩ := exists_leading_two hsize
    refine ⟨hfactor, hfactorle, v₀, v₂, v₁, heq, ?_, ?_, ?_, ?_⟩
    · rw [← heq, hsize, List.length_append, hn]
      rfl
    · rw [← heq]
      exact hcanonical.lt
    · have hrange : InRange (v₀ ++ [v₂, v₁]) := by
        rw [← heq]
        exact hcanonical.lt
      have hv₂ : v₂ < cDigitBase := hrange v₂ (List.mem_append_right _ (.head _))
      have hlow₀ := ofDigits_lt one_lt_cDigitBase fun digit hmem =>
        hrange digit (List.mem_append_left _ hmem)
      obtain ⟨hdiv, -⟩ := leading_div hlow₀ hv₂ (y := v₁)
      rw [← ofDigits_leading, ← heq, hv₀] at hdiv
      have hge : top * (cDigitBase / (top + 1)) ≤ v₁ := by
        rw [← hdiv, Nat.le_div_iff_mul_le (Nat.pow_pos (by decide)), Nat.mul_comm]
        exact hlead
      have hhalf := LongDivision.base_le_two_mul (b := cDigitBase) (by decide)
        (show 2 ≤ top + 1 by omega) htop
      rw [Nat.add_sub_cancel, Nat.mul_comm _ top] at hhalf
      omega
    · rw [← heq, hvalue]

/-- Above the highest digit, and where the dividend is below the divisor, no estimate fails. -/
theorem not_estimateFails_of_lt (htop : 0 < v / cDigitBase ^ (size - 1))
    (h : n / cDigitBase ^ i < v) : ¬ EstimateFails size n v i := by
  have habove : n / cDigitBase ^ (i + 1) < v :=
    (Nat.div_le_div_left (Nat.pow_le_pow_right (by decide) (Nat.le_succ i))
      (Nat.pow_pos (by decide))).trans_lt h
  rw [EstimateFails, LongDivision.window_of_lt habove]
  rintro ⟨hlarge, -⟩
  have hle : n / cDigitBase ^ i / cDigitBase ^ (size - 1) ≤ v / cDigitBase ^ (size - 1) :=
    Nat.div_le_div_right (Nat.le_of_lt h)
  rw [Nat.add_mul, Nat.one_mul] at hlarge
  have hmul := Nat.mul_le_mul_right (v / cDigitBase ^ (size - 1)) (show 1 ≤ cDigitBase by decide)
  omega

end Normalization

section Division
variable {n d : List Nat}

/-- The state of the division before its first turn. -/
theorem normalized_start (hn : Canonical cDigitBase n) (hd : Canonical cDigitBase d)
    (hle : ofDigits cDigitBase d ≤ ofDigits cDigitBase n) (hlen : 2 ≤ d.length) :
    ∃ v₀ v₂ v₁ low rem, multiplySmall d (normalization d) = v₀ ++ [v₂, v₁] ∧
      multiplySmall n (normalization d) ++ [0] = low ++ rem ∧
      low.length = (multiplySmall n (normalization d) ++ [0]).length - (v₀ ++ [v₂, v₁]).length ∧
      (v₀ ++ [v₂, v₁]).length = d.length ∧ rem.length = (v₀ ++ [v₂, v₁]).length ∧
      InRange (v₀ ++ [v₂, v₁]) ∧ InRange low ∧ InRange rem ∧ cDigitBase ≤ 2 * v₁ ∧
      ofDigits cDigitBase rem < ofDigits cDigitBase (v₀ ++ [v₂, v₁]) ∧
      ofDigits cDigitBase (v₀ ++ [v₂, v₁]) = ofDigits cDigitBase d * normalization d ∧
      ofDigits cDigitBase (low ++ rem) = ofDigits cDigitBase n * normalization d := by
  obtain ⟨hpos, hfactor, v₀, v₂, v₁, hdivisor, hsize, hvRange, htop, hvValue⟩ :=
    normalized_divisor hd hlen
  have hcanonical := multiplySmall_canonical hn hfactor
  have hvalue := multiplySmall_value hn.lt hfactor
  have hvCanonical : Canonical cDigitBase (v₀ ++ [v₂, v₁]) := by
    rw [← hdivisor]
    exact multiplySmall_canonical hd hfactor
  have hlonger : (v₀ ++ [v₂, v₁]).length ≤ (multiplySmall n (normalization d)).length := by
    apply length_le_of_value hcanonical hvCanonical
    rw [hvValue, hvalue]
    exact Nat.mul_le_mul_right _ hle
  have hvne : (v₀ ++ [v₂, v₁]) ≠ [] := List.append_ne_nil_of_right_ne_nil _ (List.cons_ne_nil _ _)
  have hvlen : 0 < (v₀ ++ [v₂, v₁]).length := List.length_pos_iff.mpr hvne
  generalize multiplySmall n (normalization d) = u at *
  have hrange : InRange (u ++ [0]) := InRange.append hcanonical.lt (inRange_replicate_zero 1)
  have hcount : (u ++ [0]).length - (v₀ ++ [v₂, v₁]).length ≤ u.length := by
    rw [List.length_append, List.length_singleton]
    omega
  refine ⟨v₀, v₂, v₁, (u ++ [0]).take ((u ++ [0]).length - (v₀ ++ [v₂, v₁]).length),
    (u ++ [0]).drop ((u ++ [0]).length - (v₀ ++ [v₂, v₁]).length), hdivisor,
    (List.take_append_drop _ _).symm, ?_, hsize, ?_, hvRange, ?_, ?_, htop, ?_, hvValue, ?_⟩
  · rw [List.length_take]
    omega
  · rw [List.length_drop, List.length_append, List.length_singleton]
    omega
  · exact fun digit hmem => hrange digit (List.mem_of_mem_take hmem)
  · exact fun digit hmem => hrange digit (List.mem_of_mem_drop hmem)
  · -- The digit pushed above the dividend leaves less than the divisor in its place.
    rw [List.drop_append_of_le_length hcount, Nat.ofDigits_append_zero]
    have hdrop : InRange (u.drop ((u ++ [0]).length - (v₀ ++ [v₂, v₁]).length)) :=
      fun digit hmem => hcanonical.lt digit (List.mem_of_mem_drop hmem)
    apply (ofDigits_lt one_lt_cDigitBase hdrop).trans_le
    apply le_trans _ (hvCanonical.pow_le hvne)
    apply Nat.pow_le_pow_right (by decide)
    rw [List.length_drop, List.length_append, List.length_singleton]
    omega
  · rw [List.take_append_drop, Nat.ofDigits_append_zero, hvalue]

theorem divideWithRemainder_long (hle : ofDigits cDigitBase d ≤ ofDigits cDigitBase n)
    (hn : Canonical cDigitBase n) (hd : Canonical cDigitBase d) (hlen : 2 ≤ d.length) :
    divideWithRemainder n d =
      let run := divideLoop (multiplySmall d (normalization d))
        ((multiplySmall n (normalization d) ++ [0]).length -
          (multiplySmall d (normalization d)).length)
        (multiplySmall n (normalization d) ++ [0]) []
      let last := divideSmall (run.2.take (multiplySmall d (normalization d)).length)
        (normalization d)
      if last.1 ≠ 0 then none else some (trim run.1, trim last.2) := by
  have hne : d ≠ [] := List.length_pos_iff.mp (Nat.zero_lt_of_lt hlen)
  have hcompare : compare n d ≠ .lt := by
    rw [compare_spec hn hd]
    intro hlt
    exact absurd (Nat.compare_eq_lt.mp hlt) (Nat.not_lt.mpr hle)
  rw [divideWithRemainder, if_neg hne, if_neg hcompare, if_neg (Nat.ne_of_gt hlen)]

/-- The digits returned are canonical, and they are those of the quotient and of the remainder. -/
def DividesExactly (n d : List Nat) : Prop :=
  ∃ quotient remainder, divideWithRemainder n d = some (quotient, remainder) ∧
    Canonical cDigitBase quotient ∧ Canonical cDigitBase remainder ∧
    ofDigits cDigitBase quotient * ofDigits cDigitBase d + ofDigits cDigitBase remainder =
      ofDigits cDigitBase n ∧
    ofDigits cDigitBase remainder < ofDigits cDigitBase d

theorem dividesExactly_of_lt (hn : Canonical cDigitBase n) (hd : Canonical cDigitBase d)
    (h : ofDigits cDigitBase n < ofDigits cDigitBase d) : DividesExactly n d := by
  have hne : d ≠ [] := by
    rintro rfl
    exact Nat.not_lt_zero _ h
  refine ⟨[], n, ?_, canonical_nil _, hn, ?_, h⟩
  · rw [divideWithRemainder, if_neg hne, compare_spec hn hd, Nat.compare_eq_lt.mpr h, if_pos rfl]
  · rw [Nat.ofDigits_nil, Nat.zero_mul, Nat.zero_add]

theorem dividesExactly_of_one_digit (hn : Canonical cDigitBase n) (hd : Canonical cDigitBase d)
    (hle : ofDigits cDigitBase d ≤ ofDigits cDigitBase n) (hlen : d.length = 1) :
    DividesExactly n d := by
  obtain ⟨digit, rfl⟩ := List.length_eq_one_iff.mp hlen
  have hcompare : compare n [digit] ≠ .lt := by
    rw [compare_spec hn hd]
    intro hlt
    exact absurd (Nat.compare_eq_lt.mp hlt) (Nat.not_lt.mpr hle)
  have hpos : 0 < digit := Nat.pos_of_ne_zero (hd.last (List.cons_ne_nil _ _))
  have hlt : digit < cDigitBase := hd.lt digit (.head _)
  obtain ⟨hrem, hcanonical, hquot⟩ := divideSmall_spec hpos (Nat.le_of_lt hlt) hn.lt
  obtain ⟨hassign, hvalue⟩ := assign_spec (divideSmall n digit).1
  refine ⟨_, _, ?_, hcanonical, hassign, ?_, ?_⟩
  · rw [divideWithRemainder, if_neg (List.cons_ne_nil _ _), if_neg hcompare, if_pos hlen]
    rfl
  · rw [hvalue, hrem, hquot, Nat.ofDigits_singleton, Nat.div_add_mod']
  · rw [hvalue, hrem, Nat.ofDigits_singleton]
    exact Nat.mod_lt _ hpos

/-- The division is exact precisely when the estimate of no digit fails. -/
theorem dividesExactly_iff (hn : Canonical cDigitBase n) (hd : Canonical cDigitBase d)
    (hne : d ≠ []) : DividesExactly n d ↔ ∀ i, ¬ (2 ≤ d.length ∧ EstimateFails d.length
      (ofDigits cDigitBase n * normalization d) (ofDigits cDigitBase d * normalization d) i) := by
  have hdlen : 0 < d.length := List.length_pos_iff.mpr hne
  by_cases hlen : d.length = 1
  · have hshort : ¬ 2 ≤ d.length := by omega
    have hexact : DividesExactly n d := by
      rcases Nat.lt_or_ge (ofDigits cDigitBase n) (ofDigits cDigitBase d) with hlt | hle
      · exact dividesExactly_of_lt hn hd hlt
      · exact dividesExactly_of_one_digit hn hd hle hlen
    exact ⟨fun _ i h => hshort h.1, fun _ => hexact⟩
  have hlong : 2 ≤ d.length := by omega
  obtain ⟨hpos, hfactor, -⟩ := normalized_divisor hd hlong
  have htopPos : 0 < ofDigits cDigitBase d * normalization d / cDigitBase ^ (d.length - 1) :=
    Nat.div_pos ((hd.pow_le hne).trans (Nat.le_mul_of_pos_right _ hpos)) (Nat.pow_pos (by decide))
  rcases Nat.lt_or_ge (ofDigits cDigitBase n) (ofDigits cDigitBase d) with hlt | hle
  · refine ⟨fun _ i h => ?_, fun _ => dividesExactly_of_lt hn hd hlt⟩
    refine not_estimateFails_of_lt htopPos ?_ h.2
    exact (Nat.div_le_self _ _).trans_lt (Nat.mul_lt_mul_of_pos_right hlt hpos)
  obtain ⟨v₀, v₂, v₁, low, rem, hv, hu, hlow, hsize, hrem, hvRange, hlowRange, hremRange, htop, hlt,
    hvValue, hvalue⟩ := normalized_start hn hd hle hlong
  have hdivide := divideWithRemainder_long hle hn hd hlong
  rw [hv, hu, ← hu, ← hlow, hu, ← List.append_nil (low ++ rem)] at hdivide
  constructor
  · rintro ⟨quotient, remainder, hok, hquotient, -, hvalues, hsmall⟩ i ⟨-, hfails⟩
    have hi : i < low.length := by
      by_contra hge
      refine not_estimateFails_of_lt htopPos ?_ hfails
      have hlow' := ofDigits_lt one_lt_cDigitBase hlowRange
      calc ofDigits cDigitBase n * normalization d / cDigitBase ^ i ≤
            ofDigits cDigitBase n * normalization d / cDigitBase ^ low.length :=
            Nat.div_le_div_left (Nat.pow_le_pow_right (by decide) (Nat.not_lt.mp hge))
              (Nat.pow_pos (by decide))
        _ = ofDigits cDigitBase rem := by
            rw [← hvalue, Nat.ofDigits_append, Nat.add_mul_div_left _ _ (Nat.pow_pos (by decide)),
              Nat.div_eq_of_lt hlow', Nat.zero_add]
        _ < ofDigits cDigitBase d * normalization d := hvValue ▸ hlt
    have hfails' : ∃ i < low.length, EstimateFails (v₀ ++ [v₂, v₁]).length
        (ofDigits cDigitBase (low ++ rem)) (ofDigits cDigitBase (v₀ ++ [v₂, v₁])) i := by
      rw [hsize, hvValue, hvalue]
      exact ⟨i, hi, hfails⟩
    obtain ⟨digits, hrun, -, hless⟩ :=
      divideLoop_fails [] [] hvRange htop rfl hrem hlowRange hremRange hlt hfails'
    rw [List.append_nil digits] at hrun
    have hquot : quotient = trim digits := by
      rw [hdivide] at hok
      simp only at hok
      split at hok
      case isTrue => cases hok
      case isFalse =>
        rw [Option.some.injEq, Prod.mk.injEq, hrun] at hok
        exact hok.1.symm
    -- The digits denote less than the quotient, and the quotient is unique.
    have hcontra := hless (lt_of_canonical_trim (by decide) (hquot ▸ hquotient))
    rw [hvalue, hvValue, Nat.mul_div_mul_right _ _ hpos, ← hvalues, Nat.mul_comm,
      Nat.mul_add_div (Nat.zero_lt_of_lt hsmall), Nat.div_eq_of_lt hsmall, Nat.add_zero, hquot,
      ofDigits_trim] at hcontra
    exact Nat.lt_irrefl _ hcontra
  · intro hgood
    have hgood' : ∀ i < low.length, ¬ EstimateFails (v₀ ++ [v₂, v₁]).length
        (ofDigits cDigitBase (low ++ rem)) (ofDigits cDigitBase (v₀ ++ [v₂, v₁])) i := by
      rw [hsize, hvValue, hvalue]
      exact fun i _ hfails => hgood i ⟨hlong, hfails⟩
    obtain ⟨digits, left, above, hrun, -, hdigits, hleft, hleftRange, hdiv, hmod⟩ :=
      divideLoop_good [] [] hvRange htop rfl hrem hlowRange hremRange hlt hgood'
    rw [hvalue, hvValue, Nat.mul_div_mul_right _ _ hpos] at hdiv
    rw [hvalue, hvValue, Nat.mul_mod_mul_right] at hmod
    obtain ⟨hfraction, hcanonical, hremainder⟩ := divideSmall_spec hpos hfactor hleftRange
    rw [hmod, Nat.mul_mod_left] at hfraction
    rw [hmod, Nat.mul_div_cancel _ hpos] at hremainder
    have hdpos : 0 < ofDigits cDigitBase d :=
      Nat.pos_of_ne_zero fun hz => hne ((hd.ofDigits_eq_zero (by decide)).mp hz)
    refine ⟨trim digits, trim (divideSmall left (normalization d)).2, ?_, canonical_trim hdigits,
      canonical_trim hcanonical.lt, ?_, ?_⟩
    · rw [hdivide, hrun]
      simp only [List.take_left' hleft, hfraction, List.append_nil]
      rfl
    · rw [ofDigits_trim, ofDigits_trim, hdiv, hremainder, Nat.div_add_mod']
    · rw [ofDigits_trim, hremainder]
      exact Nat.mod_lt _ hdpos

end Division

end Digits

namespace BigUnsignedInteger

/-- The division returns the quotient and the remainder in canonical form. -/
def DividesExactly (n d : BigUnsignedInteger) : Prop := Digits.DividesExactly n.digits d.digits

/-- The estimate of the quotient digit at a place is too low. With the factor `c` that normalizes the
divisor, the leading digits `s` of the window of `n * c` at the place are at least one more than the
base times the leading digit of `d * c`, and with what exceeds the base times that digit as remainder
the largest digit is rejected. -/
def EstimateFails (n d : BigUnsignedInteger) (place : Nat) : Prop :=
  2 ≤ d.digits.length ∧
    Digits.EstimateFails d.digits.length (n.toNat * Digits.normalization d.digits)
      (d.toNat * Digits.normalization d.digits) place

theorem divides_exactly_iff (n d : BigUnsignedInteger) (hd : d.toNat ≠ 0) :
    n.DividesExactly d ↔ ∀ place, ¬ n.EstimateFails d place := by
  apply Digits.dividesExactly_iff n.canonical d.canonical
  intro hz
  exact hd ((d.canonical.ofDigits_eq_zero (by decide)).mpr hz)

theorem divides_exactly_iff_two_digits :
    (assign 17000000005).DividesExactly (assign 5000000009) ↔
      ∀ place, ¬ (assign 17000000005).EstimateFails (assign 5000000009) place :=
  divides_exactly_iff _ _ (by rw [toNat_assign]; decide)

/-- A remainder that is not smaller than the divisor. -/
theorem division_too_low :
    ∃ n d : BigUnsignedInteger, n.digits = [0, 500000000, 500000000] ∧
      d.digits = [999999999, 500000000] ∧ d.toNat ≠ 0 ∧
      Digits.divideWithRemainder n.digits d.digits =
        some ([999999998], [999999998, 500000002]) ∧ ¬ n.DividesExactly d := by
  have hrun : Digits.divideWithRemainder [0, 500000000, 500000000] [999999999, 500000000] =
      some ([999999998], [999999998, 500000002]) := by decide +kernel
  refine ⟨⟨[0, 500000000, 500000000], by decide, fun _ => (by decide : 500000000 ≠ 0)⟩,
    ⟨[999999999, 500000000], by decide, fun _ => (by decide : 500000000 ≠ 0)⟩, rfl, rfl, by decide, hrun, ?_⟩
  rintro ⟨quotient, remainder, hok, -, -, -, hlt⟩
  rw [hrun, Option.some.injEq, Prod.mk.injEq] at hok
  rw [← hok.2] at hlt
  exact absurd hlt (by decide)

end BigUnsignedInteger

end ErbslandCore.Math
