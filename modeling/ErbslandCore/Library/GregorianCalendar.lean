import Mathlib.Order.Monotone.Basic
import Mathlib.Logic.Function.Iterate

namespace ErbslandCore.Library
set_option autoImplicit true

section blocks
variable (length : Nat → Nat)

/-- Where a block starts, when blocks of these lengths follow one another. -/
def blockStart : Nat → Nat
  | 0 => 0
  | n + 1 => blockStart n + length n

variable {length}

theorem blockStart_mono : Monotone (blockStart length) :=
  monotone_nat_of_le_succ fun _ => Nat.le_add_right _ _

/-- What is in an earlier block is before what is in a later one. -/
theorem blockStart_lt (hi : i < length n) (hlt : n < m) (j : Nat) :
    blockStart length n + i < blockStart length m + j :=
  calc blockStart length n + i < blockStart length (n + 1) := Nat.add_lt_add_left hi _
    _ ≤ blockStart length m := blockStart_mono hlt
    _ ≤ blockStart length m + j := Nat.le_add_right _ _

theorem blockStart_lt_iff (hi : i < length n) (hj : j < length m) :
    blockStart length n + i < blockStart length m + j ↔ n < m ∨ n = m ∧ i < j := by
  rcases Nat.lt_trichotomy n m with hlt | rfl | hlt
  · exact ⟨fun _ => .inl hlt, fun _ => blockStart_lt hi hlt j⟩
  · exact ⟨fun h => .inr ⟨rfl, Nat.lt_of_add_lt_add_left h⟩,
      fun h => h.elim (fun hn => absurd hn (Nat.lt_irrefl _)) fun hn => Nat.add_lt_add_left hn.2 _⟩
  · have hback := blockStart_lt hj hlt i
    constructor
    · intro h
      exact absurd h (Nat.lt_asymm hback)
    · rintro (hn | ⟨rfl, -⟩)
      · exact absurd hn (Nat.lt_asymm hlt)
      · exact absurd hlt (Nat.lt_irrefl _)

theorem blockStart_inj (hi : i < length n) (hj : j < length m)
    (h : blockStart length n + i = blockStart length m + j) : n = m ∧ i = j := by
  rcases Nat.lt_trichotomy n m with hlt | rfl | hlt
  · exact absurd h (Nat.ne_of_lt (blockStart_lt hi hlt j))
  · exact ⟨rfl, Nat.add_left_cancel h⟩
  · exact absurd h.symm (Nat.ne_of_lt (blockStart_lt hj hlt i))

/-- A number before the start of a block is in an earlier block. -/
theorem exists_block (h : n < blockStart length count) :
    ∃ m, m < count ∧ blockStart length m ≤ n ∧ n < blockStart length (m + 1) := by
  induction count with
  | zero => exact absurd h (Nat.not_lt_zero _)
  | succ count ih =>
    rcases Nat.lt_or_ge n (blockStart length count) with hlt | hge
    · obtain ⟨m, hm, hblock⟩ := ih hlt
      exact ⟨m, Nat.lt_succ_of_lt hm, hblock⟩
    · exact ⟨count, Nat.lt_succ_self _, hge, h⟩

/-- The first start that is larger than a number is the one after its block. -/
theorem findIdx_blockStart (h : n < blockStart length count) :
    ∃ m, m < count ∧
      (List.range (count + 1)).findIdx (fun m => decide (n < blockStart length m)) = m + 1 ∧
      blockStart length m ≤ n ∧ n < blockStart length m + length m := by
  obtain ⟨m, hm, hle, hlt⟩ := exists_block h
  refine ⟨m, hm, ?_, hle, hlt⟩
  rw [List.findIdx_eq (by rw [List.length_range]; exact Nat.succ_lt_succ hm)]
  rw [List.getElem_range]
  refine ⟨decide_eq_true hlt, fun j hj => ?_⟩
  rw [List.getElem_range, decide_eq_false_iff_not]
  exact Nat.not_lt.mpr ((blockStart_mono (Nat.le_of_lt_succ hj)).trans hle)

end blocks

namespace Gregorian

/-- Every fourth year is a leap year, except those of three centuries in four. -/
def IsLeapYear (y : Nat) : Prop := y % 4 = 0 ∧ y % 100 ≠ 0 ∨ y % 400 = 0

instance (y : Nat) : Decidable (IsLeapYear y) := inferInstanceAs (Decidable (_ ∨ _))

def yearLength (y : Nat) : Nat := if IsLeapYear y then 366 else 365

/-- The lengths of the months; January is month zero. -/
def monthLength (y : Nat) : Nat → Nat
  | 1 => if IsLeapYear y then 29 else 28
  | 3 | 5 | 8 | 10 => 30
  | _ => 31

/-- A date of the proleptic Gregorian calendar; months and days count from zero. -/
@[ext] structure CivilDate where
  year : Nat
  month : Nat
  day : Nat
  month_lt : month < 12
  day_lt : day < monthLength year month

/-- The days between the first day of the calendar and the start of a year. -/
def yearStart : Nat → Nat := blockStart yearLength

/-- The days between the start of a year and the start of a month. -/
def monthStart (y : Nat) : Nat → Nat := blockStart (monthLength y)

theorem monthLength_pos (y m : Nat) : 0 < monthLength y m := by
  unfold monthLength
  split <;> first | decide | (split_ifs <;> decide)

theorem monthLength_le (y m : Nat) : monthLength y m ≤ 31 := by
  unfold monthLength
  split <;> first | decide | (split_ifs <;> decide)

theorem monthStart_twelve (y : Nat) : monthStart y 12 = yearLength y := by
  simp only [monthStart, blockStart, monthLength, yearLength]
  split_ifs <;> rfl

/-- The start of a year counts the leap years before it. -/
theorem yearStart_eq (y : Nat) :
    yearStart y + (y + 99) / 100 = 365 * y + (y + 3) / 4 + (y + 399) / 400 := by
  induction y with
  | zero => rfl
  | succ y ih =>
    rw [yearStart, blockStart, ← yearStart, yearLength]
    split_ifs with hleap
    · rw [IsLeapYear] at hleap
      omega
    · rw [IsLeapYear] at hleap
      omega

namespace CivilDate

def dayOfYear (d : CivilDate) : Nat := monthStart d.year d.month + d.day

/-- The days between the first day of the calendar and a date. -/
def dayNumber (d : CivilDate) : Nat := yearStart d.year + d.dayOfYear

/-- The months between the first month of the calendar and the month of a date. -/
def monthNumber (d : CivilDate) : Nat := 12 * d.year + d.month

/-- The order of dates. -/
def Before (d e : CivilDate) : Prop :=
  d.year < e.year ∨ d.year = e.year ∧ (d.month < e.month ∨ d.month = e.month ∧ d.day < e.day)

theorem dayOfYear_lt (d : CivilDate) : d.dayOfYear < yearLength d.year := by
  rw [← monthStart_twelve]
  exact blockStart_lt d.day_lt d.month_lt 0

/-- The number of days orders the dates. -/
theorem dayNumber_lt_iff (d e : CivilDate) : d.dayNumber < e.dayNumber ↔ d.Before e := by
  rw [dayNumber, dayNumber, yearStart, blockStart_lt_iff d.dayOfYear_lt e.dayOfYear_lt, Before]
  constructor
  · rintro (hlt | ⟨heq, hlt⟩)
    · exact .inl hlt
    · refine .inr ⟨heq, ?_⟩
      have hday := e.day_lt
      rw [dayOfYear, dayOfYear, ← heq] at hlt
      rw [← heq] at hday
      exact (blockStart_lt_iff d.day_lt hday).mp hlt
  · rintro (hlt | ⟨heq, hlt⟩)
    · exact .inl hlt
    · refine .inr ⟨heq, ?_⟩
      have hday := e.day_lt
      rw [dayOfYear, dayOfYear, ← heq]
      rw [← heq] at hday
      exact (blockStart_lt_iff d.day_lt hday).mpr hlt

theorem dayNumber_injective : Function.Injective dayNumber := by
  intro d e h
  obtain ⟨hyear, hday⟩ := blockStart_inj d.dayOfYear_lt e.dayOfYear_lt h
  have hlt := e.day_lt
  rw [dayOfYear, dayOfYear, ← hyear] at hday
  rw [← hyear] at hlt
  obtain ⟨hmonth, hday⟩ := blockStart_inj d.day_lt hlt hday
  exact CivilDate.ext hyear hmonth hday

/-- The last day of a year. -/
def lastOfYear (y : Nat) : CivilDate where
  year := y
  month := 11
  day := 30
  month_lt := by decide
  day_lt := Nat.lt_succ_self 30

theorem dayNumber_lastOfYear (y : Nat) : (lastOfYear y).dayNumber + 1 = yearStart (y + 1) := by
  have hlength := monthStart_twelve y
  have hmonth : monthStart y 12 = monthStart y 11 + 31 := rfl
  have hyear : yearStart (y + 1) = yearStart y + yearLength y := rfl
  have hnumber : (lastOfYear y).dayNumber = yearStart y + (monthStart y 11 + 30) := rfl
  omega

/-- The date after a date. -/
def next (d : CivilDate) : CivilDate :=
  if hd : d.day + 1 < monthLength d.year d.month then
    { d with day := d.day + 1, day_lt := hd }
  else if hm : d.month + 1 < 12 then
    { year := d.year
      month := d.month + 1
      day := 0
      month_lt := hm
      day_lt := monthLength_pos _ _ }
  else
    { year := d.year + 1
      month := 0
      day := 0
      month_lt := by decide
      day_lt := monthLength_pos _ _ }

theorem dayNumber_next (d : CivilDate) : d.next.dayNumber = d.dayNumber + 1 := by
  have hday := d.day_lt
  rw [next]
  split_ifs with hd hm
  · rfl
  · have hlast : d.day + 1 = monthLength d.year d.month := by omega
    have hstart : monthStart d.year (d.month + 1) =
      monthStart d.year d.month + monthLength d.year d.month := rfl
    rw [dayNumber, dayOfYear, dayNumber, dayOfYear, hstart, ← hlast]
    rfl
  · have hlast : d.day + 1 = monthLength d.year d.month := by omega
    have hmonth : d.month + 1 = 12 := by
      have hlt := d.month_lt
      omega
    have hlength := monthStart_twelve d.year
    have hstart : monthStart d.year (d.month + 1) =
      monthStart d.year d.month + monthLength d.year d.month := rfl
    have hyear : yearStart (d.year + 1) = yearStart d.year + yearLength d.year := rfl
    have hzero : monthStart (d.year + 1) 0 = 0 := rfl
    rw [hmonth, hlength, ← hlast] at hstart
    simp only [dayNumber, dayOfYear, hyear, hzero]
    omega

/-- The first date of the calendar. -/
def start : CivilDate where
  year := 0
  month := 0
  day := 0
  month_lt := by decide
  day_lt := by decide

/-- The number of days counts the steps from date to date. -/
theorem dayNumber_iterate (n : Nat) (d : CivilDate) :
    (next^[n] d).dayNumber = d.dayNumber + n := by
  induction n generalizing d with
  | zero => rfl
  | succ n ih =>
    rw [Function.iterate_succ_apply, ih, dayNumber_next]
    omega

theorem dayNumber_bijective : Function.Bijective dayNumber := by
  refine ⟨dayNumber_injective, fun n => ⟨next^[n] start, ?_⟩⟩
  rw [dayNumber_iterate]
  exact Nat.zero_add n

end CivilDate
end Gregorian
end ErbslandCore.Library
