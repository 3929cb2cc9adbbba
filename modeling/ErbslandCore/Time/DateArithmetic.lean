import ErbslandCore.Time.Date

namespace ErbslandCore.Time.Date
open Library Math NativeInteger Amount
set_option autoImplicit true

theorem Denotes.unique {d : Date} {c e : Gregorian.CivilDate} (hc : d.Denotes c)
    (he : e.dayNumber = d.days) : c = e := by
  apply Gregorian.CivilDate.dayNumber_injective
  exact_mod_cast hc.2.1.symm.trans he.symm

/-- A date made from existing parts has these parts. -/
theorem denotes_ofParts (year : Year) (month : Month) (day : Day)
    (h : day.toAmount < Gregorian.monthLength year.value month.toAmount) :
    (ofParts year month day).Denotes (civil year month day h) := by
  have hdays : (ofParts year month day).days = (civil year month day h).dayNumber :=
    daysFromParts_eq year month day h
  have hvalid : (ofParts year month day).isValid = true := by
    rw [isValid, hdays]
    exact decide_eq_true (Int.natCast_nonneg _)
  obtain ⟨c, hc⟩ := denotes_of_isValid hvalid
  rwa [← hc.unique hdays.symm]

/-- The conversion to parts and back. -/
theorem Denotes.ofParts_parts {d : Date} (h : d.Denotes c) :
    ofParts d.parts.1 d.parts.2.1 d.parts.2.2 = d := by
  obtain ⟨-, hdays, hyear, hmonth, hday⟩ := h
  have hlt : d.parts.2.2.toAmount <
      Gregorian.monthLength d.parts.1.value d.parts.2.1.toAmount := by
    rw [hyear, hmonth, hday]
    exact c.day_lt
  have hcivil : civil d.parts.1 d.parts.2.1 d.parts.2.2 hlt = c :=
    Gregorian.CivilDate.ext hyear hmonth hday
  apply Date.ext
  rw [hdays, ← hcivil]
  exact daysFromParts_eq _ _ _ hlt

/-- Where a calculation ends: outside of the calendar it saturates. -/
def Lands (position limit : Int) (Exact : Date → Prop) (result : Date) (saturates : Bool) : Prop :=
  position < 0 ∧ result = first ∧ saturates = true ∨
  limit < position ∧ result = last ∧ saturates = true ∨
  (0 ≤ position ∧ position ≤ limit) ∧ Exact result ∧ saturates = false

/-- Saturation keeps a number on its side of a range. -/
theorem clamp_position (v : Int) (hlimit : 0 ≤ limit ∧ limit < int64.maximum) :
    v < 0 ∧ (Value.clamp int64 v).val < 0 ∨ limit < v ∧ limit < (Value.clamp int64 v).val ∨
      (0 ≤ v ∧ v ≤ limit) ∧ (Value.clamp int64 v).val = v := by
  rw [Value.clamp_val]
  rw [int64_maximum] at hlimit ⊢
  rw [int64_minimum]
  omega

/-- A result that is chosen by a saturated sum lands where the exact sum is. -/
theorem lands_of_sum {Exact : Date → Prop} (hs : s = (Value.clamp int64 v).val)
    (hlimit : 0 ≤ limit ∧ limit < int64.maximum) (hfirst : s < 0 → result = first)
    (hlast : ¬ s < 0 → s > limit → result = last)
    (hexact : 0 ≤ v → v ≤ limit → s = v → Exact result) :
    Lands v limit Exact result (decide (s < 0) || decide (s > limit)) := by
  rcases clamp_position v hlimit with ⟨hlow, hclamp⟩ | ⟨hhigh, hclamp⟩ | ⟨⟨hl, hu⟩, hclamp⟩
  · rw [← hs] at hclamp
    refine .inl ⟨hlow, hfirst hclamp, ?_⟩
    rw [decide_eq_true hclamp, Bool.true_or]
  · rw [← hs] at hclamp
    refine .inr (.inl ⟨hhigh, hlast (by omega) hclamp, ?_⟩)
    rw [decide_eq_true (show s > limit from hclamp), Bool.or_true]
  · rw [← hs] at hclamp
    refine .inr (.inr ⟨⟨hl, hu⟩, hexact hl hu hclamp, ?_⟩)
    rw [decide_eq_false (by omega), decide_eq_false (by omega), Bool.or_false]

theorem addedDays_lands {d : Date} (h : d.Denotes c) (amount : Days) :
    Lands (c.dayNumber + amount.value.val) cLastDay
      (fun result => ∃ e, result.Denotes e ∧ (e.dayNumber : Int) = c.dayNumber + amount.value.val)
      (d.addedDays amount) (d.wouldAddSaturateDays amount) := by
  obtain ⟨hvalid, hdays, -⟩ := h
  have hnot : ¬ (!d.isValid) = true := by
    rw [hvalid]
    decide
  have hsum : (d.toDaysSinceEpoch.add amount).value.val =
      (Value.clamp int64 (c.dayNumber + amount.value.val)).val := by
    rw [← hdays]
    exact congrArg Value.val (Value.added_eq _ _)
  have hswap : amount.add d.toDaysSinceEpoch = d.toDaysSinceEpoch.add amount := by
    apply IntegerAmount.ext
    exact (Value.added_eq _ _).trans ((Value.added_eq _ _).trans
      (congrArg _ (Int.add_comm _ _))).symm
  rw [addedDays, wouldAddSaturateDays, if_neg hnot, if_neg hnot, hswap]
  apply lands_of_sum hsum (by decide)
  · intro hlow
    exact dif_pos hlow
  · intro hlow hhigh
    rw [dif_neg hlow, dif_pos hhigh]
  · intro hl hu hv
    have hlow : ¬ (d.toDaysSinceEpoch.add amount).value.val < 0 := by omega
    have hhigh : ¬ (d.toDaysSinceEpoch.add amount).value.val > cLastDay := by omega
    rw [dif_neg hlow, dif_neg hhigh]
    obtain ⟨e, he⟩ := denotes_of_isValid (d := { days := _, bounded := .inr ⟨not_lt.mp hlow,
      not_lt.mp hhigh⟩ }) (decide_eq_true (not_lt.mp hlow))
    exact ⟨e, he, he.2.1.symm.trans hv⟩

/-- The days after an addition, kept within the calendar. -/
theorem addedDays_days {d : Date} (h : d.isValid = true) (amount : Days) :
    (d.addedDays amount).isValid = true ∧
      (d.addedDays amount).days = max 0 (min (d.days + amount.value.val) cLastDay) := by
  obtain ⟨c, hc⟩ := denotes_of_isValid h
  have hdays := hc.2.1
  rw [cLastDay]
  rcases addedDays_lands hc amount with ⟨hlow, heq, -⟩ | ⟨hhigh, heq, -⟩ | ⟨hin, ⟨e, he, hsum⟩, -⟩
  · rw [heq]
    refine ⟨rfl, ?_⟩
    change (0 : Int) = _
    omega
  · rw [heq]
    refine ⟨rfl, ?_⟩
    change (3652424 : Int) = _
    rw [cLastDay] at hhigh
    omega
  · rw [cLastDay] at hin
    refine ⟨he.1, ?_⟩
    rw [he.2.1]
    omega

theorem monthsSinceEpoch_val {d : Date} (h : d.Denotes c) :
    d.monthsSinceEpoch.value.val = c.monthNumber := by
  obtain ⟨-, -, hyear, hmonth, -⟩ := h
  have hbound := d.parts.1.bounded
  have hlt := Month.toAmount_lt d.parts.2.1
  have hval : d.monthsSinceEpoch.value.val =
      (Value.clamp int64 (d.parts.2.1.toAmount + d.parts.1.value * 12)).val := rfl
  rw [hval, Value.clamp_of_represents, Gregorian.CivilDate.monthNumber, ← hyear, ← hmonth]
  · push_cast
    ring
  · rw [int64_represents]
    omega

/-- A day is kept, or replaced by the last day of a shorter month. -/
theorem clamped_toAmount (day : Day) (year : Year) (month : Month) :
    (day.clamped year month).toAmount =
      min day.toAmount (Gregorian.monthLength year.value month.toAmount - 1) := by
  have hpos := Gregorian.monthLength_pos year.value month.toAmount
  have hle := Gregorian.monthLength_le year.value month.toAmount
  have hlast : (Day.last year month).toAmount =
      Gregorian.monthLength year.value month.toAmount - 1 := by
    have hcast : ((Gregorian.monthLength year.value month.toAmount : Nat) : Int) - 1 =
      (Gregorian.monthLength year.value month.toAmount - 1 : Nat) := by omega
    rw [Day.last, Day.fromAmount, dayCount_eq, hcast]
    apply TimePart.clamped_toAmount
    omega
  have hday := day.bounded
  have hbound := (Day.last year month).bounded
  rw [← hlast, Day.clamped]
  simp only [TimePart.toAmount]
  split_ifs <;> omega

/-- The parts of a number of months since the epoch. -/
theorem monthParts {n : Nat} (hn : (n : Int) ≤ cLastMonthSinceEpoch) :
    (TimePart.clamped 0 9999 ((n : Int).tdiv 12) : Year).value = n / 12 ∧
      (Month.fromAmount ((n : Int).tmod 12)).toAmount = n % 12 := by
  rw [cLastMonthSinceEpoch] at hn
  constructor
  · exact TimePart.clamped_value (n := n / 12) (Nat.zero_le _) (by omega)
  · exact TimePart.clamped_toAmount (n := n % 12) (Nat.mod_lt _ (by decide))

/-- The month that many months later, with the day clamped to its length. -/
theorem addedMonths_lands {d : Date} (h : d.Denotes c) (amount : Months) :
    Lands (c.monthNumber + amount.value.val) cLastMonthSinceEpoch
      (fun result => ∃ e, result.Denotes e ∧
        (e.monthNumber : Int) = c.monthNumber + amount.value.val ∧
        e.day = min c.day (Gregorian.monthLength e.year e.month - 1))
      (d.addedMonths amount) (d.wouldAddSaturateMonths amount) := by
  have hnot : ¬ (!d.isValid) = true := by
    rw [h.1]
    decide
  have hsum : (d.monthsSinceEpoch.add amount).value.val =
      (Value.clamp int64 (c.monthNumber + amount.value.val)).val := by
    rw [← monthsSinceEpoch_val h]
    exact congrArg Value.val (Value.added_eq _ _)
  rw [wouldAddSaturateMonths, if_neg hnot]
  apply lands_of_sum hsum (by decide)
  · intro hlow
    rw [addedMonths, if_neg hnot]
    exact if_pos hlow
  · intro hlow hhigh
    rw [addedMonths, if_neg hnot]
    exact (if_neg hlow).trans (if_pos hhigh)
  · intro hl hu hv
    have hlow : ¬ (d.monthsSinceEpoch.add amount).value.val < 0 := by omega
    have hhigh : ¬ (d.monthsSinceEpoch.add amount).value.val > cLastMonthSinceEpoch := by omega
    obtain ⟨n, hn⟩ := Int.eq_ofNat_of_zero_le hl
    rw [hn] at hv hu
    obtain ⟨hyear, hmonth⟩ := monthParts hu
    have hresult : d.addedMonths amount =
        ofParts (.clamped 0 9999 ((n : Int).tdiv 12)) (.fromAmount ((n : Int).tmod 12))
          (d.parts.2.2.clamped (.clamped 0 9999 ((n : Int).tdiv 12))
            (.fromAmount ((n : Int).tmod 12))) := by
      rw [addedMonths, if_neg hnot, ← hv]
      exact (if_neg hlow).trans (if_neg hhigh)
    generalize (TimePart.clamped 0 9999 ((n : Int).tdiv 12) : Year) = year at hyear hresult
    generalize Month.fromAmount ((n : Int).tmod 12) = month at hmonth hresult
    have hpos := Gregorian.monthLength_pos year.value month.toAmount
    have hclamped := clamped_toAmount d.parts.2.2 year month
    have hlt : (d.parts.2.2.clamped year month).toAmount <
        Gregorian.monthLength year.value month.toAmount := by omega
    refine ⟨civil year month _ hlt, ?_, ?_, ?_⟩
    · rw [hresult]
      exact denotes_ofParts year month _ hlt
    · have hnumber : 12 * year.value + month.toAmount = n := by omega
      rw [hn]
      exact congrArg _ hnumber
    · rw [← h.2.2.2.2]
      exact hclamped

/-- Years are added as twelve months each. -/
theorem addedMonths_isValid {d : Date} (h : d.isValid = true) (amount : Months) :
    (d.addedMonths amount).isValid = true := by
  obtain ⟨c, hc⟩ := denotes_of_isValid h
  rcases addedMonths_lands hc amount with ⟨-, heq, -⟩ | ⟨-, heq, -⟩ | ⟨-, ⟨e, he, -⟩, -⟩
  · rw [heq]
    rfl
  · rw [heq]
    rfl
  · exact he.1

theorem addedYears_lands {d : Date} (h : d.Denotes c) (amount : Years) :
    Lands (c.monthNumber + 12 * amount.value.val) cLastMonthSinceEpoch
      (fun result => ∃ e, result.Denotes e ∧
        (e.monthNumber : Int) = c.monthNumber + 12 * amount.value.val ∧
        e.day = min c.day (Gregorian.monthLength e.year e.month - 1))
      (d.addedYears amount) (d.wouldAddSaturateYears amount) := by
  have hmonths : (monthsOfYears amount).value.val =
      (Value.clamp int64 (12 * amount.value.val)).val := by
    rw [Int.mul_comm]
    exact congrArg Value.val (Value.multiplied_eq _ _)
  have hnumber : (c.monthNumber : Int) ≤ cLastMonthSinceEpoch := by
    have hyear := h.2.2.1
    have hbound := d.parts.1.bounded.2
    have hmonth := c.month_lt
    rw [Gregorian.CivilDate.monthNumber, cLastMonthSinceEpoch]
    omega
  have hlands := addedMonths_lands h (monthsOfYears amount)
  rw [hmonths] at hlands
  have hlimit : cLastMonthSinceEpoch = 119999 := rfl
  rcases Value.clamp_cases int64 (12 * amount.value.val) with ⟨hlt, hclamp⟩ | ⟨-, hclamp⟩ |
    ⟨hlt, hclamp⟩
  · rw [hclamp] at hlands
    rw [int64_minimum] at hlt hlands
    rcases hlands with ⟨-, hresult⟩ | ⟨hhigh, -⟩ | ⟨⟨hl, -⟩, -⟩
    · exact .inl ⟨by omega, hresult⟩
    · omega
    · omega
  · rw [hclamp] at hlands
    exact hlands
  · rw [hclamp] at hlands
    rw [int64_maximum] at hlt hlands
    rcases hlands with ⟨hlow, -⟩ | ⟨-, hresult⟩ | ⟨⟨-, hu⟩, -⟩
    · omega
    · exact .inr (.inl ⟨by omega, hresult⟩)
    · omega

/-- The order of dates compares the year, the month and the day. -/
def PartsBefore (parts other : Year × Month × Day) : Prop :=
  parts.1.value < other.1.value ∨ parts.1.value = other.1.value ∧
    (parts.2.1.value < other.2.1.value ∨ parts.2.1.value = other.2.1.value ∧
      parts.2.2.value < other.2.2.value)

theorem days_lt_iff {d other : Date} (h : d.isValid = true) (h' : other.isValid = true) :
    d.days < other.days ↔ PartsBefore d.parts other.parts := by
  obtain ⟨c, -, hdays, hyear, hmonth, hday⟩ := denotes_of_isValid h
  obtain ⟨e, -, hdays', hyear', hmonth', hday'⟩ := denotes_of_isValid h'
  have hbound := d.parts.2.1.bounded
  have hbound' := other.parts.2.1.bounded
  have hlow := d.parts.2.2.bounded
  have hlow' := other.parts.2.2.bounded
  rw [hdays, hdays', Nat.cast_lt, Gregorian.CivilDate.dayNumber_lt_iff,
    Gregorian.CivilDate.Before, PartsBefore, ← hyear, ← hyear', ← hmonth, ← hmonth', ← hday,
    ← hday']
  simp only [TimePart.toAmount]
  omega

/-- The arithmetic of dates is that of the proleptic Gregorian calendar and saturates exactly at
its ends. Numbers of days and parts of dates are converted into each other, in the same order. -/
theorem date_arithmetic_exact (d : Date) (h : d.isValid = true) :
    (∃ c, d.Denotes c ∧
      (∀ amount : Days, Lands (c.dayNumber + amount.value.val) cLastDay
        (fun result => ∃ e, result.Denotes e ∧
          (e.dayNumber : Int) = c.dayNumber + amount.value.val)
        (d.addedDays amount) (d.wouldAddSaturateDays amount)) ∧
      (∀ amount : Months, Lands (c.monthNumber + amount.value.val) cLastMonthSinceEpoch
        (fun result => ∃ e, result.Denotes e ∧
          (e.monthNumber : Int) = c.monthNumber + amount.value.val ∧
          e.day = min c.day (Gregorian.monthLength e.year e.month - 1))
        (d.addedMonths amount) (d.wouldAddSaturateMonths amount)) ∧
      (∀ amount : Years, Lands (c.monthNumber + 12 * amount.value.val) cLastMonthSinceEpoch
        (fun result => ∃ e, result.Denotes e ∧
          (e.monthNumber : Int) = c.monthNumber + 12 * amount.value.val ∧
          e.day = min c.day (Gregorian.monthLength e.year e.month - 1))
        (d.addedYears amount) (d.wouldAddSaturateYears amount))) ∧
    ofParts d.parts.1 d.parts.2.1 d.parts.2.2 = d ∧
    (∀ year month day, day.toAmount < Gregorian.monthLength year.value month.toAmount →
      (ofParts year month day).isValid = true ∧
      (ofParts year month day).parts = (year, month, day)) ∧
    ∀ other : Date, other.isValid = true → (d.days < other.days ↔ PartsBefore d.parts other.parts) := by
  obtain ⟨c, hc⟩ := denotes_of_isValid h
  refine ⟨⟨c, hc, addedDays_lands hc, addedMonths_lands hc, addedYears_lands hc⟩,
    hc.ofParts_parts, fun year month day hday => ?_, fun other h' => days_lt_iff h h'⟩
  obtain ⟨hvalid, -, hyear, hmonth, hday⟩ := denotes_ofParts year month day hday
  refine ⟨hvalid, ?_⟩
  exact Prod.ext (TimePart.ext hyear)
    (Prod.ext (TimePart.ext_toAmount hmonth) (TimePart.ext_toAmount hday))

/-- The leap day of the year 2000 and its parts. -/
theorem date_arithmetic_exact_leapDay :
    ofParts (Date.mk 730544 (by decide)).parts.1 (Date.mk 730544 (by decide)).parts.2.1
      (Date.mk 730544 (by decide)).parts.2.2 = Date.mk 730544 (by decide) :=
  (date_arithmetic_exact (Date.mk 730544 (by decide)) (by decide)).2.1

end ErbslandCore.Time.Date
