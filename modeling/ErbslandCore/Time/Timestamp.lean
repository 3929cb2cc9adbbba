import Mathlib.Algebra.Order.Ring.Int
import Mathlib.Tactic.Linarith

namespace ErbslandCore.Time
set_option autoImplicit true

def cLastDay : Int := 3652424

def cNanosecondsPerSecond : Int := 1000000000

def cSecondsPerDay : Int := 86400

def cNanosecondsPerDay : Int := cSecondsPerDay * cNanosecondsPerSecond

def cNanosecondsPerMillisecond : Int := 1000000

def cMillisecondsPerDay : Int := 86400000

/-- The days since the epoch of the library and the nanoseconds since midnight; minus one day
marks an invalid time stamp. -/
@[ext] structure Timestamp where
  days : Int := -1
  nanoseconds : Int := 0
  bounded : days = -1 ∧ nanoseconds = 0 ∨
    (0 ≤ days ∧ days ≤ cLastDay) ∧ 0 ≤ nanoseconds ∧ nanoseconds < cNanosecondsPerDay := by decide
  deriving DecidableEq

/-- Days and a part of a day that an amount is split into. -/
structure SplitAmount where
  days : Int
  nanoseconds : Int
  bounded : -cNanosecondsPerDay < nanoseconds ∧ nanoseconds < cNanosecondsPerDay

def splitMilliseconds (ticks : Int) : SplitAmount where
  days := ticks.tdiv cMillisecondsPerDay
  nanoseconds := ticks.tmod cMillisecondsPerDay * cNanosecondsPerMillisecond
  bounded := by
    have hlt := Int.tmod_lt_of_pos ticks (show 0 < cMillisecondsPerDay by decide)
    have hgt := Int.lt_tmod_of_pos ticks (show 0 < cMillisecondsPerDay by decide)
    simp only [cMillisecondsPerDay, cNanosecondsPerDay, cSecondsPerDay, cNanosecondsPerSecond,
      cNanosecondsPerMillisecond] at *
    omega

namespace Timestamp

def isValid (t : Timestamp) : Bool := t.days ≥ 0

/-- The order of time stamps compares the days, then the nanoseconds. -/
def isBefore (t other : Timestamp) : Bool :=
  t.days < other.days || (t.days = other.days && t.nanoseconds < other.nanoseconds)

def first : Timestamp where
  days := 0

def last : Timestamp where
  days := cLastDay
  nanoseconds := cNanosecondsPerDay - 1

/-- The day of the POSIX epoch. -/
def posixEpochDays : Int := 719528

def posixEpoch : Timestamp where
  days := posixEpochDays

/-- Add an amount; the flag tells that the calendar was left. -/
def shifted (t : Timestamp) (amount : SplitAmount) : Timestamp × Bool :=
  if h : 0 ≤ t.days then
    let day := t.days + amount.days
    let time := t.nanoseconds + amount.nanoseconds
    let resultDays :=
      if time < 0 then day - 1 else if time ≥ cNanosecondsPerDay then day + 1 else day
    let resultTime :=
      if time < 0 then time + cNanosecondsPerDay
      else if time ≥ cNanosecondsPerDay then time - cNanosecondsPerDay else time
    if hr : 0 ≤ resultDays ∧ resultDays ≤ cLastDay then
      ({ days := resultDays
         nanoseconds := resultTime
         bounded := .inr ⟨hr, by
          have hb := amount.bounded
          have ht : 0 ≤ t.nanoseconds ∧ t.nanoseconds < cNanosecondsPerDay := by
            rcases t.bounded with ⟨hd, -⟩ | ⟨-, ht⟩
            · omega
            · exact ht
          simp only [resultTime, time]
          split_ifs <;> omega⟩ }, false)
    else (if resultDays < 0 then first else last, true)
  else ({}, false)

/-- The ticks between two valid time stamps; the flag tells that they have no 64-bit number. -/
def distanceTicks (t other : Timestamp) (nanosecondsPerTick : Int) : Int × Bool :=
  if ¬ t.isValid ∨ ¬ other.isValid then (0, false)
  else
    let dayDifference := other.days - t.days
    let timeDifference := other.nanoseconds - t.nanoseconds
    let seconds := dayDifference * cSecondsPerDay + timeDifference.tdiv cNanosecondsPerSecond
    let fractions := timeDifference.tmod cNanosecondsPerSecond
    let (seconds, fractions) :=
      if seconds > 0 ∧ fractions < 0 then (seconds - 1, fractions + cNanosecondsPerSecond)
      else if seconds < 0 ∧ fractions > 0 then (seconds + 1, fractions - cNanosecondsPerSecond)
      else (seconds, fractions)
    let ticksPerSecond := cNanosecondsPerSecond.tdiv nanosecondsPerTick
    let cMaximum : Int := 2 ^ 63 - 1
    let cMinimum : Int := -2 ^ 63
    let fractionalTicks := fractions.tdiv nanosecondsPerTick
    if seconds > cMaximum.tdiv ticksPerSecond ∨ seconds < cMinimum.tdiv ticksPerSecond then
      (if seconds > 0 then cMaximum else cMinimum, true)
    else
      let wholeTicks := seconds * ticksPerSecond
      if fractionalTicks > 0 ∧ wholeTicks > cMaximum - fractionalTicks ∨
        fractionalTicks < 0 ∧ wholeTicks < cMinimum - fractionalTicks then
        (if seconds ≥ 0 then cMaximum else cMinimum, true)
      else (wholeTicks + fractionalTicks, false)

/-- The milliseconds since the epoch of the library. -/
def toMilliseconds (t : Timestamp) : Option Int :=
  if t.isValid then
    let (ticks, overflow) := first.distanceTicks t cNanosecondsPerMillisecond
    if overflow then none else some ticks
  else none

def fromMilliseconds (ticks : Int) : Option Timestamp :=
  let (result, overflow) := first.shifted (splitMilliseconds ticks)
  if overflow then none else some result

/-- The part of a second. -/
def nanosecondFraction (t : Timestamp) : Int := t.nanoseconds.tmod cNanosecondsPerSecond

theorem bounds_of_isValid {t : Timestamp} (h : t.isValid = true) :
    (0 ≤ t.days ∧ t.days ≤ cLastDay) ∧ 0 ≤ t.nanoseconds ∧ t.nanoseconds < cNanosecondsPerDay := by
  rcases t.bounded with ⟨hd, -⟩ | hb
  · simp [isValid, hd] at h
  · exact hb

theorem toMilliseconds_eq {t : Timestamp} (h : t.isValid = true) :
    t.toMilliseconds =
      some (t.days * cMillisecondsPerDay + t.nanoseconds / cNanosecondsPerMillisecond) := by
  obtain ⟨⟨hd, hd'⟩, hn, hn'⟩ := bounds_of_isValid h
  have hvalid : ¬ (¬ first.isValid = true ∨ ¬ t.isValid = true) := by
    rw [h]
    decide
  simp only [cLastDay, cNanosecondsPerDay, cSecondsPerDay, cNanosecondsPerSecond] at hd' hn'
  have hfraction : 0 ≤ t.nanoseconds % 1000000000 := by omega
  have hpositive : ¬ (t.days * 86400 + t.nanoseconds / 1000000000 > 0 ∧
      t.nanoseconds % 1000000000 < 0) := by omega
  have hnegative : ¬ (t.days * 86400 + t.nanoseconds / 1000000000 < 0 ∧
      t.nanoseconds % 1000000000 > 0) := by omega
  have hticks : Int.tdiv 1000000000 1000000 = 1000 := rfl
  have hmaximum : Int.tdiv (2 ^ 63 - 1) 1000 = 9223372036854775 := rfl
  have hminimum : Int.tdiv (-2 ^ 63) 1000 = -9223372036854775 := rfl
  rw [toMilliseconds, if_pos h, distanceTicks, if_neg hvalid]
  simp only [first, Int.sub_zero, cSecondsPerDay, cNanosecondsPerSecond, cMillisecondsPerDay,
    cNanosecondsPerMillisecond, Int.tdiv_eq_ediv_of_nonneg hn, Int.tmod_eq_emod_of_nonneg hn,
    if_neg hpositive, if_neg hnegative, Int.tdiv_eq_ediv_of_nonneg hfraction, hticks, hmaximum,
    hminimum]
  have hrange : ¬ (t.days * 86400 + t.nanoseconds / 1000000000 > 9223372036854775 ∨
      t.days * 86400 + t.nanoseconds / 1000000000 < -9223372036854775) := by omega
  have hoverflow : ¬ (t.nanoseconds % 1000000000 / 1000000 > 0 ∧
      (t.days * 86400 + t.nanoseconds / 1000000000) * 1000 >
        2 ^ 63 - 1 - t.nanoseconds % 1000000000 / 1000000 ∨
      t.nanoseconds % 1000000000 / 1000000 < 0 ∧
      (t.days * 86400 + t.nanoseconds / 1000000000) * 1000 <
        -2 ^ 63 - t.nanoseconds % 1000000000 / 1000000) := by omega
  simp only [if_neg hrange, if_neg hoverflow, Bool.false_eq_true, if_false, Option.some.injEq]
  omega

theorem fromMilliseconds_eq {ticks : Int} (hl : 0 ≤ ticks)
    (hu : ticks / cMillisecondsPerDay ≤ cLastDay) :
    ∃ t, fromMilliseconds ticks = some t ∧ t.days = ticks / cMillisecondsPerDay ∧
      t.nanoseconds = ticks % cMillisecondsPerDay * cNanosecondsPerMillisecond := by
  simp only [cMillisecondsPerDay, cLastDay] at hu
  have hd := Int.tdiv_eq_ediv_of_nonneg (b := 86400000) hl
  have hm := Int.tmod_eq_emod_of_nonneg (b := 86400000) hl
  simp only [fromMilliseconds, shifted, first, splitMilliseconds, le_refl, dif_pos,
    cMillisecondsPerDay, cNanosecondsPerMillisecond, cNanosecondsPerDay, cSecondsPerDay,
    cNanosecondsPerSecond, hd, hm, Int.zero_add]
  have htime : ¬ ticks % 86400000 * 1000000 < 0 := by omega
  have hday : ¬ ticks % 86400000 * 1000000 ≥ 86400 * 1000000000 := by omega
  have hrange : 0 ≤ ticks / 86400000 ∧ ticks / 86400000 ≤ cLastDay := by
    rw [cLastDay]
    omega
  simp only [if_neg htime, if_neg hday, dif_pos hrange, Bool.false_eq_true, if_false]
  exact ⟨_, rfl, rfl, rfl⟩

/-- A time stamp in whole milliseconds is restored from them. -/
theorem fromMilliseconds_toMilliseconds {t : Timestamp} (h : t.isValid = true)
    (hf : t.nanosecondFraction.tmod cNanosecondsPerMillisecond = 0) :
    ∃ ticks, t.toMilliseconds = some ticks ∧ fromMilliseconds ticks = some t ∧ 0 ≤ ticks ∧
      ticks / cMillisecondsPerDay ≤ cLastDay := by
  obtain ⟨⟨hd, hd'⟩, hn, hn'⟩ := bounds_of_isValid h
  refine ⟨_, toMilliseconds_eq h, ?_⟩
  simp only [nanosecondFraction, cNanosecondsPerSecond, cNanosecondsPerMillisecond,
    cNanosecondsPerDay, cSecondsPerDay, cLastDay, Int.tmod_eq_emod_of_nonneg hn,
    Int.tmod_eq_emod_of_nonneg (show 0 ≤ t.nanoseconds % 1000000000 by omega)] at hf hn' hd'
  have hl : 0 ≤ t.days * cMillisecondsPerDay + t.nanoseconds / cNanosecondsPerMillisecond := by
    simp only [cMillisecondsPerDay, cNanosecondsPerMillisecond]
    omega
  have hu : (t.days * cMillisecondsPerDay + t.nanoseconds / cNanosecondsPerMillisecond) /
      cMillisecondsPerDay ≤ cLastDay := by
    simp only [cMillisecondsPerDay, cNanosecondsPerMillisecond, cLastDay]
    omega
  obtain ⟨t', ht, hdays, hnanoseconds⟩ := fromMilliseconds_eq hl hu
  refine ⟨?_, hl, hu⟩
  rw [ht, Option.some.injEq]
  simp only [cMillisecondsPerDay, cNanosecondsPerMillisecond] at hdays hnanoseconds
  ext <;> omega

/-- A shift within the calendar is one of a few more days at most. -/
theorem shifted_first (h : (first.shifted amount).2 = false) :
    -1 ≤ amount.days ∧ amount.days ≤ cLastDay + 1 := by
  by_contra hc
  rw [shifted, dif_pos (show 0 ≤ first.days from le_refl _), dif_neg] at h
  · cases h
  · simp only [first]
    rintro ⟨hl, hu⟩
    split_ifs at hl hu <;> omega

/-- Ticks outside of the calendar have no time stamp. -/
theorem fromMilliseconds_bounds (h : fromMilliseconds ticks = some t) :
    -2 * cMillisecondsPerDay < ticks ∧ ticks < (cLastDay + 2) * cMillisecondsPerDay := by
  have hlow := Int.tmod_lt_of_pos ticks (show 0 < cMillisecondsPerDay by decide)
  have hhigh := Int.lt_tmod_of_pos ticks (show 0 < cMillisecondsPerDay by decide)
  have hsplit := Int.mul_tdiv_add_tmod ticks cMillisecondsPerDay
  rw [fromMilliseconds] at h
  split at h
  case h_1 result overflow hshift =>
  split at h
  case isTrue => cases h
  case isFalse hflag =>
  have hfits : (first.shifted (splitMilliseconds ticks)).2 = false := by
    rw [hshift]
    simpa using hflag
  obtain ⟨hl, hu⟩ := shifted_first hfits
  simp only [splitMilliseconds, cMillisecondsPerDay, cLastDay] at *
  omega

end Timestamp
end ErbslandCore.Time
