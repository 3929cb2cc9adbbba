import ErbslandCore.Library.GregorianCalendar
import Mathlib.Tactic.IntervalCases

namespace ErbslandCore.Time
open Library
set_option autoImplicit true

/-- A part of a date or a time, clamped to a range. -/
@[ext] structure TimePart (minimum maximum : Nat) where
  value : Nat
  bounded : minimum ≤ value ∧ value ≤ maximum
  deriving DecidableEq

namespace TimePart

/-- The nearest part to a number. -/
def clamped (minimum maximum : Nat) (value : Int)
    (h : minimum ≤ maximum := by decide) : TimePart minimum maximum where
  value := max minimum (min value maximum).toNat
  bounded := by omega

/-- The amount that counts from zero. -/
def toAmount (part : TimePart minimum maximum) : Nat := part.value - minimum

end TimePart

abbrev Year := TimePart 0 9999

theorem yearBounds : 0 ≤ 9999 := Nat.zero_le 9999

abbrev Month := TimePart 1 12

abbrev Day := TimePart 1 31

abbrev DayOfYear := TimePart 1 366

def Year.fromAmount (amount : Int) : Year := .clamped 0 9999 (amount + 0) yearBounds

def Month.fromAmount (amount : Int) : Month := .clamped 1 12 (amount + 1)

def Day.fromAmount (amount : Int) : Day := .clamped 1 31 (amount + 1)

def DayOfYear.fromAmount (amount : Int) : DayOfYear := .clamped 1 366 (amount + 1)

def cDaysPer400Years : Int := 146097

def cDaysPer100Years : Int := 36524

def cDaysPer4Years : Int := 1461

namespace Year
variable (y : Year)

def isLeapYear : Bool :=
  (y.value % 4 == 0 && y.value % 100 != 0) || y.value % 400 == 0

/-- The days since the epoch, counted by the cycles of 400, 100, 4 and 1 years. -/
def daysSinceEpoch : Int :=
  let days : Int := 0
  let cycles400 := y.value / 400
  let year := y.value % 400
  let days := days + cDaysPer400Years * cycles400
  let days := if year > 0 then days + 1 else days
  let cycles100 := year / 100
  let year := year % 100
  let days := days + cDaysPer100Years * cycles100
  let days := if year > 0 then days - 1 else days
  let cycles4 := year / 4
  let year := year % 4
  let days := days + cDaysPer4Years * cycles4
  let days := if year > 0 then days + 1 else days
  days + 365 * year

/-- The year of a number of days since the epoch, and the day of that year from zero. -/
def extractFromEpoch (days : Int) : Year × Int :=
  let maximumValue : Year × Int := (.clamped 0 9999 9999, 365)
  if days ≤ 0 then (.clamped 0 9999 0, 0)
  else if days ≥ 3652424 then maximumValue
  else
    let years400 := days.tdiv cDaysPer400Years
    let days := days.tmod cDaysPer400Years
    if days < 366 then (fromAmount (years400 * 400), days)
    else if years400 ≥ 25 then maximumValue
    else
      let days := days - 1
      let years100 := days.tdiv cDaysPer100Years
      let days := days.tmod cDaysPer100Years
      if days < 365 then (fromAmount (years400 * 400 + years100 * 100), days)
      else
        let days := days + 1
        let years4 := days.tdiv cDaysPer4Years
        let days := days.tmod cDaysPer4Years
        let year := years400 * 400 + years100 * 100 + years4 * 4
        if days ≥ 366 then
          let days := days - 1
          (fromAmount (year + days.tdiv 365), days.tmod 365)
        else (fromAmount year, days)

def startDayArray : List Int :=
  if y.isLeapYear then [0, 31, 60, 91, 121, 152, 182, 213, 244, 274, 305, 335, 366]
  else [0, 31, 59, 90, 120, 151, 181, 212, 243, 273, 304, 334, 365]

def daysBeforeMonth (month : Month) : Int := y.startDayArray.getD month.toAmount 0

/-- The month of a day: the last one that starts no later. -/
def monthOfDay (dayOfYear : DayOfYear) : Month :=
  .fromAmount (y.startDayArray.findIdx (fun start => (dayOfYear.toAmount : Int) < start) - 1)

end Year

namespace Month

def february : Month := .clamped 1 12 2

def dayCount (month : Month) (year : Year) : Int :=
  [0, 31, 28, 31, 30, 31, 30, 31, 31, 30, 31, 30, 31].getD month.value 0 +
    if month = february ∧ year.isLeapYear then 1 else 0

def extractMonthAndDay (year : Year) (days : Int) : Month × Day :=
  let month := year.monthOfDay (.fromAmount days)
  (month, .fromAmount (days - year.daysBeforeMonth month))

end Month

namespace Day

def last (year : Year) (month : Month) : Day := .fromAmount (month.dayCount year - 1)

/-- The day, or the last day of the month if the month is shorter. -/
def clamped (day : Day) (year : Year) (month : Month) : Day :=
  if day.value ≤ (last year month).value then day else last year month

end Day

theorem isLeapYear_iff (y : Year) : y.isLeapYear = true ↔ Gregorian.IsLeapYear y.value := by
  simp [Year.isLeapYear, Gregorian.IsLeapYear]

theorem daysSinceEpoch_eq (y : Year) : y.daysSinceEpoch = Gregorian.yearStart y.value := by
  have hstart := Gregorian.yearStart_eq y.value
  simp only [Year.daysSinceEpoch, cDaysPer400Years, cDaysPer100Years, cDaysPer4Years]
  split_ifs <;> omega

theorem startDayArray_eq (y : Year) : y.startDayArray =
    (List.range 13).map fun m => (Gregorian.monthStart y.value m : Int) := by
  rw [Year.startDayArray]
  split_ifs with hleap
  · rw [isLeapYear_iff] at hleap
    simp [List.range_succ, Gregorian.monthStart, blockStart, Gregorian.monthLength, hleap]
  · rw [isLeapYear_iff] at hleap
    simp [List.range_succ, Gregorian.monthStart, blockStart, Gregorian.monthLength, hleap]

theorem TimePart.clamped_value {h : minimum ≤ maximum} (hl : minimum ≤ n) (hu : n ≤ maximum) :
    (TimePart.clamped minimum maximum n h).value = n := by
  simp only [TimePart.clamped]
  omega

theorem TimePart.ext_toAmount {part other : TimePart minimum maximum}
    (h : part.toAmount = other.toAmount) : part = other := by
  have hpart := part.bounded
  have hother := other.bounded
  rw [TimePart.toAmount, TimePart.toAmount] at h
  apply TimePart.ext
  omega

theorem Month.toAmount_lt (m : Month) : m.toAmount < 12 := by
  have hbound := m.bounded
  rw [TimePart.toAmount]
  omega

theorem daysBeforeMonth_eq (y : Year) (m : Month) :
    y.daysBeforeMonth m = Gregorian.monthStart y.value m.toAmount := by
  have hlt := m.toAmount_lt
  rw [Year.daysBeforeMonth, startDayArray_eq, List.getD_eq_getElem?_getD, List.getElem?_map,
    List.getElem?_range (by omega), Option.map_some, Option.getD_some]

theorem dayCount_eq (m : Month) (y : Year) :
    m.dayCount y = Gregorian.monthLength y.value m.toAmount := by
  have hfebruary : m = Month.february ↔ m.value = 2 := TimePart.ext_iff
  obtain ⟨hl, hu⟩ := m.bounded
  simp only [Month.dayCount, hfebruary, isLeapYear_iff, TimePart.toAmount]
  generalize m.value = value at hl hu
  interval_cases value <;> simp [Gregorian.monthLength]
  split_ifs <;> rfl

/-- A part that counts from one has the amount that it was made from. -/
theorem TimePart.clamped_toAmount {maximum n : Nat} {h : 1 ≤ maximum} (hn : n < maximum) :
    (TimePart.clamped 1 maximum ((n : Int) + 1) h).toAmount = n := by
  have hvalue := TimePart.clamped_value (n := n + 1) (h := h) (Nat.le_add_left _ _) hn
  push_cast at hvalue
  rw [TimePart.toAmount, hvalue, Nat.add_sub_cancel]

/-- The month of a day starts no later, and the next month starts later. -/
theorem monthOfDay_spec (y : Year) (hn : n < Gregorian.yearLength y.value) :
    Gregorian.monthStart y.value (y.monthOfDay (.fromAmount n)).toAmount ≤ n ∧
      n < Gregorian.monthStart y.value (y.monthOfDay (.fromAmount n)).toAmount +
        Gregorian.monthLength y.value (y.monthOfDay (.fromAmount n)).toAmount := by
  have hyear : Gregorian.yearLength y.value ≤ 366 := by
    rw [Gregorian.yearLength]
    split_ifs <;> decide
  have hstarts : n < blockStart (Gregorian.monthLength y.value) 12 := by
    rw [← Gregorian.monthStart, Gregorian.monthStart_twelve]
    exact hn
  obtain ⟨m, hm, hindex, hblock⟩ := findIdx_blockStart hstarts
  have hmonth : y.monthOfDay (.fromAmount n) = .fromAmount m := by
    have hamount : (DayOfYear.fromAmount n).toAmount = n :=
      TimePart.clamped_toAmount (hn.trans_le hyear)
    simp only [Year.monthOfDay, hamount, startDayArray_eq, List.findIdx_map, Function.comp_def,
      Nat.cast_lt]
    rw [← Gregorian.monthStart] at hindex
    rw [hindex, Nat.cast_succ, add_sub_cancel_right]
  have hamount : (Month.fromAmount m).toAmount = m := TimePart.clamped_toAmount hm
  rw [hmonth, hamount]
  exact hblock

/-- The month and the day of a day of the year. -/
theorem extractMonthAndDay_spec (y : Year) (hn : n < Gregorian.yearLength y.value) :
    Gregorian.monthStart y.value (Month.extractMonthAndDay y n).1.toAmount +
        (Month.extractMonthAndDay y n).2.toAmount = n ∧
      (Month.extractMonthAndDay y n).2.toAmount <
        Gregorian.monthLength y.value (Month.extractMonthAndDay y n).1.toAmount := by
  obtain ⟨hle, hlt⟩ := monthOfDay_spec y hn
  simp only [Month.extractMonthAndDay, daysBeforeMonth_eq]
  generalize (y.monthOfDay (.fromAmount n)).toAmount = m at hle hlt
  have hlength := Gregorian.monthLength_le y.value m
  have hday : (Day.fromAmount ((n : Int) - Gregorian.monthStart y.value m)).toAmount =
      n - Gregorian.monthStart y.value m := by
    rw [← Nat.cast_sub hle]
    exact TimePart.clamped_toAmount (by omega)
  rw [hday]
  constructor <;> omega

/-- A year and a day of it are those of a number of days. -/
def Splits (days : Nat) (parts : Year × Int) : Prop :=
  ∃ n : Nat, parts.2 = n ∧ n < Gregorian.yearLength parts.1.value ∧
    Gregorian.yearStart parts.1.value + n = days

theorem splits_of {y days n : Nat} {amount m : Int} (hamount : amount = y) (hm : m = n)
    (hy : y ≤ 9999) (hn : n < 365 ∨ n = 365 ∧ Gregorian.IsLeapYear y)
    (hdays : 365 * y + (y + 3) / 4 + (y + 399) / 400 + n = days + (y + 99) / 100) :
    Splits days (.fromAmount amount, m) := by
  have hvalue : (Year.fromAmount amount).value = y := by
    rw [Year.fromAmount, hamount, Int.add_zero]
    exact TimePart.clamped_value (Nat.zero_le _) hy
  have hstart := Gregorian.yearStart_eq y
  refine ⟨n, hm, ?_, ?_⟩
  · rw [hvalue, Gregorian.yearLength]
    rcases hn with hn | ⟨hn, hleap⟩
    · split_ifs <;> omega
    · rw [if_pos hleap, hn]
      decide
  · rw [hvalue]
    omega

/-- The cycles that a year which does not start a century has completed. -/
theorem leap_counts (a : Nat) (hb : b ≤ 3) (hc : c ≤ 24) (he : e ≤ 3) (hpos : 0 < 4 * c + e) :
    (400 * a + 100 * b + 4 * c + e + 3) / 4 = 100 * a + 25 * b + c + (e + 3) / 4 ∧
      (400 * a + 100 * b + 4 * c + e + 399) / 400 = a + 1 ∧
      (400 * a + 100 * b + 4 * c + e + 99) / 100 = 4 * a + b + 1 := by
  omega

theorem extractFromEpoch_splits (days : Nat) (h : days < 3652424) :
    Splits days (Year.extractFromEpoch days) := by
  obtain ⟨a, ha⟩ : ∃ a, a = days / 146097 := ⟨_, rfl⟩
  obtain ⟨r, hr⟩ : ∃ r, r = days % 146097 := ⟨_, rfl⟩
  have hdiv : (days : Int).tdiv cDaysPer400Years = a := congrArg Nat.cast ha.symm
  have hmod : (days : Int).tmod cDaysPer400Years = r := congrArg Nat.cast hr.symm
  simp only [Year.extractFromEpoch, hdiv, hmod]
  rw [if_neg (show ¬ (days : Int) ≥ 3652424 by omega),
    if_neg (show ¬ (a : Int) ≥ 25 by omega)]
  by_cases hzero : (days : Int) ≤ 0
  · rw [if_pos hzero]
    exact splits_of (y := 0) (n := 0) rfl rfl (by decide) (by decide) (by omega)
  rw [if_neg hzero]
  by_cases hfirst : (r : Int) < 366
  · rw [if_pos hfirst]
    apply splits_of (y := 400 * a) (n := r) (by omega) rfl (by omega)
    · rw [Gregorian.IsLeapYear]
      omega
    · omega
  rw [if_neg hfirst]
  -- The centuries of a cycle of 400 years count from the second day.
  obtain ⟨b, hb⟩ : ∃ b, b = (r - 1) / 36524 := ⟨_, rfl⟩
  obtain ⟨t, ht⟩ : ∃ t, t = (r - 1) % 36524 := ⟨_, rfl⟩
  have hpred : (r : Int) - 1 = (r - 1 : Nat) := by omega
  have hdiv : ((r : Int) - 1).tdiv cDaysPer100Years = b := by
    rw [hpred, hb]
    rfl
  have hmod : ((r : Int) - 1).tmod cDaysPer100Years = t := by
    rw [hpred, ht]
    rfl
  simp only [hdiv, hmod]
  by_cases hcentury : (t : Int) < 365
  · rw [if_pos hcentury]
    apply splits_of (y := 400 * a + 100 * b) (n := t) (by omega) rfl (by omega) (.inl (by omega))
    omega
  rw [if_neg hcentury]
  obtain ⟨c, hc⟩ : ∃ c, c = (t + 1) / 1461 := ⟨_, rfl⟩
  obtain ⟨v, hv⟩ : ∃ v, v = (t + 1) % 1461 := ⟨_, rfl⟩
  have hdiv : ((t : Int) + 1).tdiv cDaysPer4Years = c := congrArg Nat.cast hc.symm
  have hmod : ((t : Int) + 1).tmod cDaysPer4Years = v := congrArg Nat.cast hv.symm
  simp only [hdiv, hmod]
  by_cases hfour : (v : Int) ≥ 366
  · rw [if_pos hfour]
    have hpred : (v : Int) - 1 = (v - 1 : Nat) := by omega
    have hdiv : ((v : Int) - 1).tdiv 365 = ((v - 1) / 365 : Nat) := by
      rw [hpred]
      rfl
    have hmod : ((v : Int) - 1).tmod 365 = ((v - 1) % 365 : Nat) := by
      rw [hpred]
      rfl
    rw [hdiv, hmod]
    apply splits_of (y := 400 * a + 100 * b + 4 * c + (v - 1) / 365) (n := (v - 1) % 365)
      (by omega) rfl (by omega) (.inl (by omega))
    obtain ⟨e, he⟩ : ∃ e, e = (v - 1) / 365 := ⟨_, rfl⟩
    obtain ⟨hfours, hhundreds⟩ := leap_counts a (b := b) (c := c) (e := e) (by omega) (by omega)
      (by omega) (by omega)
    rw [← he, hfours, hhundreds.1, hhundreds.2]
    omega
  · rw [if_neg hfour]
    apply splits_of (y := 400 * a + 100 * b + 4 * c) (n := v) (by omega) rfl (by omega)
    · rw [Gregorian.IsLeapYear]
      omega
    · obtain ⟨hfours, hhundreds⟩ := leap_counts a (b := b) (c := c) (e := 0) (by omega) (by omega)
        (by omega) (by omega)
      rw [Nat.add_zero] at hfours hhundreds
      rw [hfours, hhundreds.1, hhundreds.2]
      omega

end ErbslandCore.Time
