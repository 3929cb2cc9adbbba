import ErbslandCore.Time.CalendarParts
import ErbslandCore.Time.TimeAmounts
import ErbslandCore.Time.Timestamp

namespace ErbslandCore.Time
open Library Math NativeInteger Amount
set_option autoImplicit true

def cLastMonthSinceEpoch : Int := 9999 * 12 + 11

theorem noDate_bounded : (-1 : Int) = -1 ∨ (0 : Int) ≤ -1 ∧ (-1 : Int) ≤ cLastDay := .inl rfl

/-- The days since the epoch; minus one day marks an invalid date. -/
@[ext] structure Date where
  days : Int := -1
  bounded : days = -1 ∨ 0 ≤ days ∧ days ≤ cLastDay := by first | exact noDate_bounded | decide
  deriving DecidableEq

theorem daysBeforeYear_le (y : Year) :
    (Gregorian.yearStart y.value : Int) + Gregorian.yearLength y.value ≤ cLastDay + 1 := by
  have hmono : Gregorian.yearStart (y.value + 1) ≤ Gregorian.yearStart 10000 :=
    blockStart_mono (Nat.succ_le_succ y.bounded.2)
  have hnext : Gregorian.yearStart (y.value + 1) =
    Gregorian.yearStart y.value + Gregorian.yearLength y.value := rfl
  have hlast := Gregorian.yearStart_eq 10000
  rw [cLastDay]
  omega

namespace Date

def isValid (d : Date) : Bool := d.days ≥ 0

def first : Date where
  days := 0

def last : Date where
  days := cLastDay

def daysFromParts (year : Year) (month : Month) (day : Day) : Int :=
  if day.toAmount ≥ month.dayCount year then -1
  else year.daysSinceEpoch + year.daysBeforeMonth month + day.toAmount

/-- The parts of a date of the calendar. -/
def civil (year : Year) (month : Month) (day : Day)
    (h : day.toAmount < Gregorian.monthLength year.value month.toAmount) :
    Gregorian.CivilDate where
  year := year.value
  month := month.toAmount
  day := day.toAmount
  month_lt := month.toAmount_lt
  day_lt := h

theorem daysFromParts_eq (year : Year) (month : Month) (day : Day)
    (h : day.toAmount < Gregorian.monthLength year.value month.toAmount) :
    daysFromParts year month day = (civil year month day h).dayNumber := by
  rw [daysFromParts, dayCount_eq, if_neg (by omega), daysSinceEpoch_eq, daysBeforeMonth_eq,
    Gregorian.CivilDate.dayNumber, Gregorian.CivilDate.dayOfYear]
  push_cast
  exact Int.add_assoc _ _ _

theorem civil_le (year : Year) (month : Month) (day : Day)
    (h : day.toAmount < Gregorian.monthLength year.value month.toAmount) :
    ((civil year month day h).dayNumber : Int) ≤ cLastDay := by
  have hlt := (civil year month day h).dayOfYear_lt
  have hyear := daysBeforeYear_le year
  have hsame : (civil year month day h).year = year.value := rfl
  rw [hsame] at hlt
  rw [Gregorian.CivilDate.dayNumber, hsame]
  omega

theorem daysFromParts_bounded (year : Year) (month : Month) (day : Day) :
    daysFromParts year month day = -1 ∨
      0 ≤ daysFromParts year month day ∧ daysFromParts year month day ≤ cLastDay := by
  by_cases h : day.toAmount < Gregorian.monthLength year.value month.toAmount
  · rw [daysFromParts_eq year month day h]
    exact .inr ⟨Int.natCast_nonneg _, civil_le year month day h⟩
  · rw [daysFromParts, dayCount_eq, if_pos (by omega)]
    exact .inl rfl

def ofParts (year : Year) (month : Month) (day : Day) : Date where
  days := daysFromParts year month day
  bounded := daysFromParts_bounded year month day

def parts (d : Date) : Year × Month × Day :=
  if !d.isValid then (.fromAmount 0, .fromAmount 0, .fromAmount 0)
  else
    let (year, dayOfYear) := Year.extractFromEpoch d.days
    let (month, day) := Month.extractMonthAndDay year dayOfYear
    (year, month, day)

theorem bounded_of_isValid {d : Date} (h : d.isValid = true) : 0 ≤ d.days ∧ d.days ≤ cLastDay := by
  rcases d.bounded with hd | hd
  · rw [isValid, hd] at h
    exact absurd h (by decide)
  · exact hd

theorem toDaysSinceEpoch_represents (d : Date) : int64.Represents d.days := by
  have hbound := d.bounded
  rw [cLastDay] at hbound
  rw [int64_represents]
  omega

def toDaysSinceEpoch (d : Date) : Days := ⟨⟨d.days, d.toDaysSinceEpoch_represents⟩⟩

def wouldAddSaturateDays (d : Date) (days : Days) : Bool :=
  if !d.isValid then false
  else
    let days := days.add d.toDaysSinceEpoch
    days.value.val < 0 || days.value.val > cLastDay

def addedDays (d : Date) (amount : Days) : Date :=
  if !d.isValid then {}
  else
    let days := d.toDaysSinceEpoch.add amount
    if hl : days.value.val < 0 then first
    else if hu : days.value.val > cLastDay then last
    else { days := days.value.val, bounded := .inr ⟨not_lt.mp hl, not_lt.mp hu⟩ }

/-- The months between the first month of the calendar and the month of a date. -/
def monthsSinceEpoch (d : Date) : Months :=
  let (year, month, _) := d.parts
  ⟨.clamp int64 (month.toAmount + year.value * 12)⟩

def wouldAddSaturateMonths (d : Date) (months : Months) : Bool :=
  if !d.isValid then false
  else
    let monthsSinceEpoch := d.monthsSinceEpoch.add months
    monthsSinceEpoch.value.val < 0 || monthsSinceEpoch.value.val > cLastMonthSinceEpoch

def addedMonths (d : Date) (amount : Months) : Date :=
  if !d.isValid then {}
  else
    let (_, _, day) := d.parts
    let monthsSinceEpoch := d.monthsSinceEpoch.add amount
    if monthsSinceEpoch.value.val < 0 then first
    else if monthsSinceEpoch.value.val > cLastMonthSinceEpoch then last
    else
      let newYear : Year := .clamped 0 9999 (monthsSinceEpoch.value.val.tdiv 12) yearBounds
      let newMonth := Month.fromAmount (monthsSinceEpoch.value.val.tmod 12)
      ofParts newYear newMonth (day.clamped newYear newMonth)

/-- The months of an amount of years. -/
def monthsOfYears (years : Years) : Months := ⟨years.value.multiplied (.clamp int64 12)⟩

def wouldAddSaturateYears (d : Date) (years : Years) : Bool :=
  d.wouldAddSaturateMonths (monthsOfYears years)

def addedYears (d : Date) (amount : Years) : Date := d.addedMonths (monthsOfYears amount)

/-- The date of the library is the date of the calendar. -/
def Denotes (d : Date) (c : Gregorian.CivilDate) : Prop :=
  d.isValid = true ∧ d.days = c.dayNumber ∧ d.parts.1.value = c.year ∧
    d.parts.2.1.toAmount = c.month ∧ d.parts.2.2.toAmount = c.day

/-- The parts of a valid date are those of the date of the calendar with its number of days. -/
theorem denotes_of_isValid {d : Date} (h : d.isValid = true) : ∃ c, d.Denotes c := by
  obtain ⟨hl, hu⟩ := bounded_of_isValid h
  obtain ⟨n, hn⟩ := Int.eq_ofNat_of_zero_le hl
  rw [cLastDay] at hu
  have hvalid : ¬ (!d.isValid) = true := by
    rw [h]
    decide
  by_cases hlast : n = 3652424
  · have hparts : d.parts = (.fromAmount 9999, .fromAmount 11, .fromAmount 30) := by
      have hyear : Year.extractFromEpoch 3652424 = (.fromAmount 9999, 365) := rfl
      have hmonth : Month.extractMonthAndDay (.fromAmount 9999) 365 =
        (.fromAmount 11, .fromAmount 30) := by decide
      rw [parts, if_neg hvalid, hn, hlast, Nat.cast_ofNat, hyear]
      simp only [hmonth]
    have hnumber : (Gregorian.CivilDate.lastOfYear 9999).dayNumber = 3652424 := by
      have hday := Gregorian.CivilDate.dayNumber_lastOfYear 9999
      have hstart := Gregorian.yearStart_eq (9999 + 1)
      omega
    refine ⟨.lastOfYear 9999, h, ?_, ?_⟩
    · rw [hn, hlast, hnumber]
    · rw [hparts]
      exact ⟨rfl, rfl, rfl⟩
  · obtain ⟨k, hk, hlt, hstart⟩ := extractFromEpoch_splits n (by omega)
    obtain ⟨hmonth, hday⟩ := extractMonthAndDay_spec _ hlt
    have hparts : d.parts = ((Year.extractFromEpoch n).1,
        (Month.extractMonthAndDay (Year.extractFromEpoch n).1 k).1,
        (Month.extractMonthAndDay (Year.extractFromEpoch n).1 k).2) := by
      rw [parts, if_neg hvalid, hn, ← hk]
    refine ⟨civil _ _ _ hday, h, ?_, ?_⟩
    · have hnumber : (civil _ _ _ hday).dayNumber = n := (congrArg _ hmonth).trans hstart
      rw [hnumber, hn]
    · rw [hparts]
      exact ⟨rfl, rfl, rfl⟩

end Date
end ErbslandCore.Time
