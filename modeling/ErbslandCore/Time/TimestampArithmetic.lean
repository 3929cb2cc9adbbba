import ErbslandCore.Math.SaturatingInteger
import ErbslandCore.Time.Timestamp
import Mathlib.Tactic.Ring

namespace ErbslandCore.Time
open Math NativeInteger
set_option autoImplicit true

/-- The result of an operation on 64-bit numbers, which must not overflow. -/
def checked (v : Int) : Except Fault Int :=
  if int64.Represents v then .ok v else .error .signedOverflow

theorem checked_bind (h : int64.Represents v) (k : Int → Except Fault α) :
    (checked v >>= k) = k v := by
  rw [checked, if_pos h]
  rfl

/-- The units of ticks, by their ratio to the second. -/
inductive TickUnit where
  | seconds
  | milliseconds
  | microseconds
  | nanoseconds

namespace TickUnit

def den : TickUnit → Int
  | seconds => 1
  | milliseconds => 1000
  | microseconds => 1000000
  | nanoseconds => 1000000000

def nanosecondsPerTick (unit : TickUnit) : Int := cNanosecondsPerSecond.tdiv unit.den

def ticksPerDay (unit : TickUnit) : Int := cNanosecondsPerDay.tdiv unit.nanosecondsPerTick

/-- The days of an amount and the nanoseconds of the rest, with the sign of the amount. -/
def splitAmount (unit : TickUnit) (ticks : SatInt64) : Except Fault (Int × Int) := do
  let days ← checked (ticks.val.tdiv unit.ticksPerDay)
  let rest ← checked (ticks.val.tmod unit.ticksPerDay)
  let nanoseconds ← checked (rest * unit.nanosecondsPerTick)
  return (days, nanoseconds)

end TickUnit

/-- The stored numbers of a time stamp, as 64-bit numbers. -/
structure RawTimestamp where
  days : Int := -1
  nanoseconds : Int := 0

def SplitAmount.negated (amount : SplitAmount) : SplitAmount where
  days := -amount.days
  nanoseconds := -amount.nanoseconds
  bounded := by
    have hbounded := amount.bounded
    omega

namespace RawTimestamp

def isValid (t : RawTimestamp) : Bool := t.days ≥ 0

def first : RawTimestamp where
  days := 0

def last : RawTimestamp where
  days := cLastDay
  nanoseconds := cNanosecondsPerDay - 1

def signed (subtract : Bool) (v : Int) : Except Fault Int :=
  if subtract then checked (-v) else .ok v

/-- The day and the time after a time of up to a day more or less has been carried. -/
def carry (resultDays resultTime : Int) : Except Fault (Int × Int) :=
  if resultTime < 0 then do
    let resultDays ← checked (resultDays - 1)
    let resultTime ← checked (resultTime + cNanosecondsPerDay)
    return (resultDays, resultTime)
  else if resultTime ≥ cNanosecondsPerDay then do
    let resultDays ← checked (resultDays + 1)
    let resultTime ← checked (resultTime - cNanosecondsPerDay)
    return (resultDays, resultTime)
  else return (resultDays, resultTime)

/-- Move the day and the time; the flag tells that the calendar was left. -/
def shifted (t : RawTimestamp) (days nanoseconds : Int) (subtract : Bool) :
    Except Fault (RawTimestamp × Bool) :=
  if !t.isValid then return ({}, false)
  else do
    let days ← signed subtract days
    let resultDays ← checked (t.days + days)
    let nanoseconds ← signed subtract nanoseconds
    let resultTime ← checked (t.nanoseconds + nanoseconds)
    let (resultDays, resultTime) ← carry resultDays resultTime
    if resultDays < 0 ∨ resultDays > cLastDay then
      return (if resultDays < 0 then first else last, true)
    else return ({ days := resultDays, nanoseconds := resultTime }, false)

/-- Test whether the sum of whole and fractional ticks leaves the 64-bit range. -/
def wouldOverflow (wholeTicks fractionalTicks : Int) : Except Fault Bool :=
  if fractionalTicks > 0 then do
    let limit ← checked (int64.maximum - fractionalTicks)
    return wholeTicks > limit
  else if fractionalTicks < 0 then do
    let limit ← checked (int64.minimum - fractionalTicks)
    return wholeTicks < limit
  else return false

/-- The ticks of seconds and a part of a second of the same sign. -/
def ticksOf (seconds fractions nanosecondsPerTick : Int) : Except Fault (Int × Bool) := do
  let ticksPerSecond := cNanosecondsPerSecond.tdiv nanosecondsPerTick
  let fractionalTicks ← checked (fractions.tdiv nanosecondsPerTick)
  if seconds > int64.maximum.tdiv ticksPerSecond ∨
      seconds < int64.minimum.tdiv ticksPerSecond then
    return (if seconds > 0 then int64.maximum else int64.minimum, true)
  else
    let wholeTicks ← checked (seconds * ticksPerSecond)
    if ← wouldOverflow wholeTicks fractionalTicks then
      return (if seconds ≥ 0 then int64.maximum else int64.minimum, true)
    else
      let ticks ← checked (wholeTicks + fractionalTicks)
      return (ticks, false)

/-- The parts of a distance, with the same sign. -/
def alignSigns (seconds fractions : Int) : Except Fault (Int × Int) :=
  if seconds > 0 ∧ fractions < 0 then do
    let seconds ← checked (seconds - 1)
    let fractions ← checked (fractions + cNanosecondsPerSecond)
    return (seconds, fractions)
  else if seconds < 0 ∧ fractions > 0 then do
    let seconds ← checked (seconds + 1)
    let fractions ← checked (fractions - cNanosecondsPerSecond)
    return (seconds, fractions)
  else return (seconds, fractions)

def distanceTicks (t other : RawTimestamp) (nanosecondsPerTick : Int) :
    Except Fault (Int × Bool) :=
  if !t.isValid ∨ !other.isValid then return (0, false)
  else do
    let dayDifference ← checked (other.days - t.days)
    let timeDifference ← checked (other.nanoseconds - t.nanoseconds)
    let daySeconds ← checked (dayDifference * cSecondsPerDay)
    let seconds ← checked (daySeconds + timeDifference.tdiv cNanosecondsPerSecond)
    let fractions ← checked (timeDifference.tmod cNanosecondsPerSecond)
    let (seconds, fractions) ← alignSigns seconds fractions
    ticksOf seconds fractions nanosecondsPerTick

section operations
variable (t other : RawTimestamp) (unit : TickUnit) (ticks : SatInt64)

/-- Both directions split the amount first. -/
def moved (subtract : Bool) : Except Fault (RawTimestamp × Bool) := do
  let (days, nanoseconds) ← unit.splitAmount ticks
  t.shifted days nanoseconds subtract

def added : Except Fault RawTimestamp := return (← t.moved unit ticks false).1

def wouldAddSaturate : Except Fault Bool := return (← t.moved unit ticks false).2

def subtracted : Except Fault RawTimestamp := return (← t.moved unit ticks true).1

def wouldSubtractSaturate : Except Fault Bool := return (← t.moved unit ticks true).2

/-- The distance in a unit, and the flag that it is saturated. -/
def distanceTo : Except Fault (Int × Bool) := t.distanceTicks other unit.nanosecondsPerTick

end operations
end RawTimestamp

namespace Timestamp

def toRawValue (t : Timestamp) : RawTimestamp where
  days := t.days
  nanoseconds := t.nanoseconds

/-- The nanoseconds since the epoch of the library. -/
def instant (t : Timestamp) : Int := t.days * cNanosecondsPerDay + t.nanoseconds

/-- Where a calculation ends: outside of the calendar it saturates. -/
def Lands (exact : Int) (result : Timestamp) (saturates : Bool) : Prop :=
  exact < first.instant ∧ result = first ∧ saturates = true ∨
  last.instant < exact ∧ result = last ∧ saturates = true ∨
  (result.isValid = true ∧ result.instant = exact) ∧ saturates = false

theorem cNanosecondsPerDay_val : cNanosecondsPerDay = 86400000000000 := rfl

/-- The day and the time after a time of up to a day more or less has been carried. -/
def carry (day time : Int) : Int × Int :=
  if time < 0 then (day - 1, time + cNanosecondsPerDay)
  else if time ≥ cNanosecondsPerDay then (day + 1, time - cNanosecondsPerDay)
  else (day, time)

theorem carry_sum (day : Int) (h : -cNanosecondsPerDay ≤ time ∧ time < 2 * cNanosecondsPerDay) :
    (carry day time).1 * cNanosecondsPerDay + (carry day time).2 =
        day * cNanosecondsPerDay + time ∧
      0 ≤ (carry day time).2 ∧ (carry day time).2 < cNanosecondsPerDay := by
  rw [cNanosecondsPerDay_val] at h
  rw [carry, cNanosecondsPerDay_val]
  split_ifs <;> omega

/-- A shift carries a day from the time, and then tests the day. -/
theorem shifted_carry {t : Timestamp} (h : t.isValid = true) (amount : SplitAmount)
    (hcarry : carry (t.days + amount.days) (t.nanoseconds + amount.nanoseconds) = (day, time)) :
    (0 ≤ day ∧ day ≤ cLastDay → (t.shifted amount).1.toRawValue = ⟨day, time⟩ ∧
        (t.shifted amount).2 = false) ∧
      (¬ (0 ≤ day ∧ day ≤ cLastDay) →
        t.shifted amount = (if day < 0 then first else last, true)) := by
  have hday : day = if t.nanoseconds + amount.nanoseconds < 0 then t.days + amount.days - 1
      else if t.nanoseconds + amount.nanoseconds ≥ cNanosecondsPerDay then
        t.days + amount.days + 1
      else t.days + amount.days := by
    rw [← show _ = day from congrArg Prod.fst hcarry, carry]
    split_ifs <;> rfl
  have htime : time = if t.nanoseconds + amount.nanoseconds < 0 then
        t.nanoseconds + amount.nanoseconds + cNanosecondsPerDay
      else if t.nanoseconds + amount.nanoseconds ≥ cNanosecondsPerDay then
        t.nanoseconds + amount.nanoseconds - cNanosecondsPerDay
      else t.nanoseconds + amount.nanoseconds := by
    rw [← show _ = time from congrArg Prod.snd hcarry, carry]
    split_ifs <;> rfl
  rw [shifted, dif_pos (bounds_of_isValid h).1.1, hday, htime]
  constructor
  · intro hin
    rw [dif_pos hin]
    exact ⟨rfl, rfl⟩
  · exact fun hout => dif_neg hout

/-- The parts of a distance, with the same sign. -/
def alignSigns (seconds fractions : Int) : Int × Int :=
  if seconds > 0 ∧ fractions < 0 then (seconds - 1, fractions + cNanosecondsPerSecond)
  else if seconds < 0 ∧ fractions > 0 then (seconds + 1, fractions - cNanosecondsPerSecond)
  else (seconds, fractions)

/-- The ticks of seconds and a part of a second of the same sign. -/
def ticksOf (seconds fractions nanosecondsPerTick : Int) : Int × Bool :=
  let ticksPerSecond := cNanosecondsPerSecond.tdiv nanosecondsPerTick
  let fractionalTicks := fractions.tdiv nanosecondsPerTick
  if seconds > int64.maximum.tdiv ticksPerSecond ∨
      seconds < int64.minimum.tdiv ticksPerSecond then
    (if seconds > 0 then int64.maximum else int64.minimum, true)
  else if fractionalTicks > 0 ∧ seconds * ticksPerSecond > int64.maximum - fractionalTicks ∨
      fractionalTicks < 0 ∧ seconds * ticksPerSecond < int64.minimum - fractionalTicks then
    (if seconds ≥ 0 then int64.maximum else int64.minimum, true)
  else (seconds * ticksPerSecond + fractionalTicks, false)

theorem distanceTicks_eq {t other : Timestamp} (h : t.isValid = true) (h' : other.isValid = true)
    (nanosecondsPerTick : Int) :
    t.distanceTicks other nanosecondsPerTick =
      let (seconds, fractions) := alignSigns ((other.days - t.days) * cSecondsPerDay +
          (other.nanoseconds - t.nanoseconds).tdiv cNanosecondsPerSecond)
        ((other.nanoseconds - t.nanoseconds).tmod cNanosecondsPerSecond)
      ticksOf seconds fractions nanosecondsPerTick := by
  rw [distanceTicks, if_neg (by simp [h, h'])]
  rfl

theorem alignSigns_sum (seconds : Int)
    (h : -cNanosecondsPerSecond < fractions ∧ fractions < cNanosecondsPerSecond) :
    (alignSigns seconds fractions).1 * cNanosecondsPerSecond + (alignSigns seconds fractions).2 =
        seconds * cNanosecondsPerSecond + fractions ∧
      (0 ≤ (alignSigns seconds fractions).1 ∧ 0 ≤ (alignSigns seconds fractions).2 ∨
        (alignSigns seconds fractions).1 ≤ 0 ∧ (alignSigns seconds fractions).2 ≤ 0) ∧
      -cNanosecondsPerSecond < (alignSigns seconds fractions).2 ∧
        (alignSigns seconds fractions).2 < cNanosecondsPerSecond := by
  rw [cNanosecondsPerSecond] at *
  rw [alignSigns, cNanosecondsPerSecond]
  split_ifs <;> omega

/-- Ticks are the exact quotient, truncated toward zero, or saturated with the flag. -/
def TicksAre (exact : Int) (result : Int × Bool) : Prop :=
  result.1 = (Value.clamp int64 exact).val ∧ (result.2 = true ↔ ¬ int64.Represents exact)

theorem tdiv_of_nonpos {a : Int} (h : a ≤ 0) (n : Int) : a.tdiv n = -(-a / n) := by
  rw [← Int.tdiv_eq_ediv_of_nonneg (show 0 ≤ -a by omega), Int.neg_tdiv, neg_neg]

/-- Parts of the same sign are truncated separately. -/
theorem tdiv_parts {n p : Int} (hn : 0 < n) (hnp : cNanosecondsPerSecond = p * n)
    (hsigns : 0 ≤ seconds ∧ 0 ≤ fractions ∨ seconds ≤ 0 ∧ fractions ≤ 0)
    (hfractions : -cNanosecondsPerSecond < fractions ∧ fractions < cNanosecondsPerSecond) :
    (seconds * cNanosecondsPerSecond + fractions).tdiv n = seconds * p + fractions.tdiv n ∧
      (0 ≤ seconds ∧ 0 ≤ fractions.tdiv n ∧ fractions.tdiv n < p ∨
        seconds ≤ 0 ∧ fractions.tdiv n ≤ 0 ∧ -p < fractions.tdiv n) := by
  have hpos : 0 ≤ cNanosecondsPerSecond := by decide
  rcases hsigns with ⟨hs, hf⟩ | ⟨hs, hf⟩
  · have hprod := Int.mul_nonneg hs hpos
    have hlt : fractions / n < p := Int.ediv_lt_of_lt_mul hn (hnp ▸ hfractions.2)
    have hnonneg := Int.ediv_nonneg hf hn.le
    rw [Int.tdiv_eq_ediv_of_nonneg (by omega), Int.tdiv_eq_ediv_of_nonneg hf]
    refine ⟨?_, .inl ⟨hs, hnonneg, hlt⟩⟩
    rw [hnp, ← Int.mul_assoc, Int.add_comm, Int.add_mul_ediv_right _ _ hn.ne', Int.add_comm]
  · have hprod := Int.mul_nonneg (show 0 ≤ -seconds by omega) hpos
    rw [Int.neg_mul] at hprod
    have hlt : -fractions / n < p := by
      apply Int.ediv_lt_of_lt_mul hn
      rw [← hnp]
      omega
    have hnonneg : 0 ≤ -fractions / n := Int.ediv_nonneg (by omega) hn.le
    rw [tdiv_of_nonpos (by omega), tdiv_of_nonpos hf]
    refine ⟨?_, .inr ⟨hs, by omega, by omega⟩⟩
    have hsplit : -(seconds * cNanosecondsPerSecond + fractions) =
        -fractions + -(seconds * p) * n := by
      rw [hnp]
      ring
    rw [hsplit, Int.add_mul_ediv_right _ _ hn.ne']
    ring

/-- The limits of the seconds are where whole ticks leave the 64-bit range. -/
structure TickLimits (seconds n p : Int) : Prop where
  positive : 0 < n
  product : cNanosecondsPerSecond = p * n
  quotient : cNanosecondsPerSecond.tdiv n = p
  above : seconds > int64.maximum.tdiv p → int64.maximum < seconds * p
  below : seconds < int64.minimum.tdiv p → seconds * p < int64.minimum
  fits : ¬ (seconds > int64.maximum.tdiv p ∨ seconds < int64.minimum.tdiv p) →
    int64.Represents (seconds * p)

theorem tickLimits (seconds : Int) (unit : TickUnit) :
    ∃ p, TickLimits seconds unit.nanosecondsPerTick p := by
  cases unit with
  | seconds =>
    refine ⟨1, by decide, rfl, rfl, ?_, ?_, ?_⟩
    all_goals
      simp only [Int.tdiv_one, int64_represents, int64_maximum, int64_minimum]
      omega
  | milliseconds =>
    have hmaximum : Int.tdiv 9223372036854775807 1000 = 9223372036854775 := rfl
    have hminimum : Int.tdiv (-9223372036854775808) 1000 = -9223372036854775 := rfl
    refine ⟨1000, by decide, rfl, rfl, ?_, ?_, ?_⟩
    all_goals
      simp only [hmaximum, hminimum, int64_represents, int64_maximum, int64_minimum]
      omega
  | microseconds =>
    have hmaximum : Int.tdiv 9223372036854775807 1000000 = 9223372036854 := rfl
    have hminimum : Int.tdiv (-9223372036854775808) 1000000 = -9223372036854 := rfl
    refine ⟨1000000, by decide, rfl, rfl, ?_, ?_, ?_⟩
    all_goals
      simp only [hmaximum, hminimum, int64_represents, int64_maximum, int64_minimum]
      omega
  | nanoseconds =>
    have hmaximum : Int.tdiv 9223372036854775807 1000000000 = 9223372036 := rfl
    have hminimum : Int.tdiv (-9223372036854775808) 1000000000 = -9223372036 := rfl
    refine ⟨1000000000, by decide, rfl, rfl, ?_, ?_, ?_⟩
    all_goals
      simp only [hmaximum, hminimum, int64_represents, int64_maximum, int64_minimum]
      omega

section parts
variable {n p : Int} (hlimits : TickLimits seconds n p)
  (hsigns : 0 ≤ seconds ∧ 0 ≤ fractions ∨ seconds ≤ 0 ∧ fractions ≤ 0)
  (hfractions : -cNanosecondsPerSecond < fractions ∧ fractions < cNanosecondsPerSecond)
include hlimits hsigns hfractions

/-- What the tests of the ticks need to know about the whole ticks `w` and the rest `f`. -/
theorem ticks_bounds :
    (0 ≤ p ∧ p ≤ 1000000000) ∧
      (int64.minimum.tdiv p ≤ 0 ∧ 0 ≤ int64.maximum.tdiv p) ∧
      ((0 ≤ seconds → 0 ≤ seconds * p) ∧ (seconds ≤ 0 → seconds * p ≤ 0)) ∧
      (0 ≤ seconds ∧ 0 ≤ fractions.tdiv n ∧ fractions.tdiv n < p ∨
        seconds ≤ 0 ∧ fractions.tdiv n ≤ 0 ∧ -p < fractions.tdiv n) := by
  obtain ⟨hn, hnp, hp, -, -, -⟩ := hlimits
  have hppos : 0 ≤ p := by
    rw [← hp]
    exact Int.tdiv_nonneg (by decide) hn.le
  have hpmax := Int.mul_le_mul_of_nonneg_left (show 1 ≤ n from hn) hppos
  rw [Int.mul_one, ← hnp] at hpmax
  refine ⟨⟨hppos, hpmax⟩, ⟨?_, Int.tdiv_nonneg (by decide) hppos⟩, ⟨?_, ?_⟩,
    (tdiv_parts hn hnp hsigns hfractions).2⟩
  · rw [tdiv_of_nonpos (by decide)]
    have hquotient : 0 ≤ -int64.minimum / p := Int.ediv_nonneg (by decide) hppos
    omega
  · exact fun hs => Int.mul_nonneg hs hppos
  · exact fun hs => Int.mul_nonpos_of_nonpos_of_nonneg hs hppos

theorem ticksOf_exact :
    TicksAre ((seconds * cNanosecondsPerSecond + fractions).tdiv n)
      (ticksOf seconds fractions n) := by
  obtain ⟨hp, hsmall, hwhole, hparts⟩ := ticks_bounds hlimits hsigns hfractions
  obtain ⟨hn, hnp, hquotient, hover, hunder, hfits⟩ := hlimits
  rw [(tdiv_parts hn hnp hsigns hfractions).1]
  simp only [ticksOf, hquotient]
  generalize fractions.tdiv n = f at *
  generalize seconds * p = w at *
  rw [TicksAre, Value.clamp_val, int64_represents]
  rw [int64_represents] at hfits
  rw [int64_maximum, int64_minimum] at *
  split_ifs
  all_goals
    simp only [true_iff, false_iff, not_not]
    constructor <;> omega

end parts

theorem distanceTicks_exact {t other : Timestamp} (h : t.isValid = true)
    (h' : other.isValid = true) (unit : TickUnit) :
    TicksAre ((other.instant - t.instant).tdiv unit.nanosecondsPerTick)
      (t.distanceTicks other unit.nanosecondsPerTick) := by
  have hlow := Int.lt_tmod_of_pos (other.nanoseconds - t.nanoseconds)
    (show 0 < cNanosecondsPerSecond by decide)
  have hhigh := Int.tmod_lt_of_pos (other.nanoseconds - t.nanoseconds)
    (show 0 < cNanosecondsPerSecond by decide)
  have hsplit := Int.mul_tdiv_add_tmod (other.nanoseconds - t.nanoseconds) cNanosecondsPerSecond
  rw [distanceTicks_eq h h']
  obtain ⟨hsum, hsigns, hfractions⟩ := alignSigns_sum ((other.days - t.days) * cSecondsPerDay +
    (other.nanoseconds - t.nanoseconds).tdiv cNanosecondsPerSecond) ⟨hlow, hhigh⟩
  obtain ⟨p, hlimits⟩ := tickLimits _ unit
  have hexact := ticksOf_exact hlimits hsigns hfractions
  rw [hsum] at hexact
  have hinstant : other.instant - t.instant = ((other.days - t.days) * cSecondsPerDay +
      (other.nanoseconds - t.nanoseconds).tdiv cNanosecondsPerSecond) * cNanosecondsPerSecond +
      (other.nanoseconds - t.nanoseconds).tmod cNanosecondsPerSecond := by
    rw [instant, instant, cNanosecondsPerDay_val]
    rw [cNanosecondsPerSecond] at *
    rw [cSecondsPerDay]
    omega
  rw [hinstant]
  exact hexact

theorem shifted_lands {t : Timestamp} (h : t.isValid = true) (amount : SplitAmount) :
    Lands (t.instant + (amount.days * cNanosecondsPerDay + amount.nanoseconds))
      (t.shifted amount).1 (t.shifted amount).2 := by
  obtain ⟨-, hn, hn'⟩ := bounds_of_isValid h
  obtain ⟨hl, hu⟩ := amount.bounded
  obtain ⟨hsum, hlow, hhigh⟩ := carry_sum (t.days + amount.days)
    (show _ ≤ t.nanoseconds + amount.nanoseconds ∧ _ by
      rw [cNanosecondsPerDay_val] at *
      omega)
  obtain ⟨⟨day, time⟩, hcarry⟩ :
    ∃ c, carry (t.days + amount.days) (t.nanoseconds + amount.nanoseconds) = c := ⟨_, rfl⟩
  obtain ⟨hinside, houtside⟩ := shifted_carry h amount hcarry
  rw [hcarry] at hsum hlow hhigh
  have hinstant : t.instant + (amount.days * cNanosecondsPerDay + amount.nanoseconds) =
      day * cNanosecondsPerDay + time := by
    rw [hsum, instant]
    ring
  have hfirst : first.instant = 0 := rfl
  have hlast : last.instant = 3652424 * 86400000000000 + (86400000000000 - 1) := rfl
  rw [cNanosecondsPerDay_val] at hhigh
  rw [hinstant, Lands, hfirst, hlast, cNanosecondsPerDay_val]
  by_cases hin : 0 ≤ day ∧ day ≤ cLastDay
  · obtain ⟨hraw, hflag⟩ := hinside hin
    have hdays := congrArg RawTimestamp.days hraw
    have htime := congrArg RawTimestamp.nanoseconds hraw
    simp only [toRawValue] at hdays htime
    refine .inr (.inr ⟨⟨?_, ?_⟩, hflag⟩)
    · rw [isValid, hdays]
      exact decide_eq_true hin.1
    · rw [instant, hdays, htime, cNanosecondsPerDay_val]
  · rw [houtside hin]
    rw [cLastDay] at hin
    by_cases hbefore : day < 0
    · rw [if_pos hbefore]
      exact .inl ⟨by omega, rfl, rfl⟩
    · rw [if_neg hbefore]
      exact .inr (.inl ⟨by omega, rfl, rfl⟩)

end Timestamp

namespace RawTimestamp

theorem signed_bind (hv : (if subtract then -v else v) = w) (h : int64.Represents w)
    (k : Int → Except Fault α) : (signed subtract v >>= k) = k w := by
  cases subtract with
  | true =>
    have hneg : -v = w := hv
    rw [signed, if_pos rfl, hneg, checked_bind h]
  | false =>
    have hsame : v = w := hv
    rw [hsame]
    rfl

theorem carry_eq (day time : Int) (hday : -2 ^ 61 ≤ day ∧ day ≤ 2 ^ 61)
    (htime : -cNanosecondsPerDay ≤ time ∧ time < 2 * cNanosecondsPerDay) :
    carry day time = .ok (Timestamp.carry day time) := by
  rw [Timestamp.cNanosecondsPerDay_val] at htime
  rw [carry, Timestamp.carry, Timestamp.cNanosecondsPerDay_val]
  split_ifs
  · rw [checked_bind, checked_bind]
    · rfl
    all_goals
      rw [int64_represents]
      omega
  · rw [checked_bind, checked_bind]
    · rfl
    all_goals
      rw [int64_represents]
      omega
  · rfl

/-- The checked shift does what the shift of the calendar does, and nothing overflows. -/
theorem shifted_eq {t : Timestamp} (h : t.isValid = true) (amount : SplitAmount)
    (hamount : -2 ^ 60 ≤ amount.days ∧ amount.days ≤ 2 ^ 60) (subtract : Bool) {d n : Int}
    (hd : (if subtract then -d else d) = amount.days)
    (hn : (if subtract then -n else n) = amount.nanoseconds) :
    t.toRawValue.shifted d n subtract =
      .ok ((t.shifted amount).1.toRawValue, (t.shifted amount).2) := by
  obtain ⟨⟨hdl, hdu⟩, hnl, hnu⟩ := Timestamp.bounds_of_isValid h
  obtain ⟨hl, hu⟩ := amount.bounded
  obtain ⟨⟨day, time⟩, hcarry⟩ : ∃ c, Timestamp.carry (t.days + amount.days)
    (t.nanoseconds + amount.nanoseconds) = c := ⟨_, rfl⟩
  obtain ⟨hinside, houtside⟩ := Timestamp.shifted_carry h amount hcarry
  have hraw := carry_eq (t.days + amount.days) (t.nanoseconds + amount.nanoseconds)
  rw [Timestamp.cNanosecondsPerDay_val] at hraw hnu hl hu
  rw [cLastDay] at hdu
  have hvalid : ¬ (!t.toRawValue.isValid) = true := by
    rw [show t.toRawValue.isValid = t.isValid from rfl, h]
    decide
  have hdays : t.toRawValue.days = t.days := rfl
  have htime : t.toRawValue.nanoseconds = t.nanoseconds := rfl
  rw [shifted, if_neg hvalid, hdays, htime, signed_bind hd, checked_bind, signed_bind hn,
    checked_bind, hraw ⟨by omega, by omega⟩ ⟨by omega, by omega⟩, hcarry]
  · by_cases hin : 0 ≤ day ∧ day ≤ cLastDay
    · obtain ⟨hsame, hflag⟩ := hinside hin
      rw [hsame, hflag]
      exact if_neg (show ¬ (day < 0 ∨ day > cLastDay) by omega)
    · rw [houtside hin]
      refine (if_pos (show day < 0 ∨ day > cLastDay by omega)).trans ?_
      split_ifs <;> rfl
  all_goals
    rw [int64_represents]
    omega

theorem alignSigns_eq (hseconds : -2 ^ 50 ≤ seconds ∧ seconds ≤ 2 ^ 50)
    (hfractions : -cNanosecondsPerSecond < fractions ∧ fractions < cNanosecondsPerSecond) :
    alignSigns seconds fractions = .ok (Timestamp.alignSigns seconds fractions) := by
  rw [cNanosecondsPerSecond] at hfractions
  rw [alignSigns, Timestamp.alignSigns, cNanosecondsPerSecond]
  split_ifs
  · rw [checked_bind, checked_bind]
    · rfl
    all_goals
      rw [int64_represents]
      omega
  · rw [checked_bind, checked_bind]
    · rfl
    all_goals
      rw [int64_represents]
      omega
  · rfl

theorem wouldOverflow_eq (w : Int) (h : -1000000000 ≤ f ∧ f ≤ 1000000000) :
    wouldOverflow w f =
      .ok (decide (f > 0 ∧ w > int64.maximum - f ∨ f < 0 ∧ w < int64.minimum - f)) := by
  rw [wouldOverflow]
  split_ifs with hpos hneg
  · rw [checked_bind]
    · exact congrArg Except.ok (decide_eq_decide.mpr (by omega))
    · rw [int64_represents, int64_maximum]
      omega
  · rw [checked_bind]
    · exact congrArg Except.ok (decide_eq_decide.mpr (by omega))
    · rw [int64_represents, int64_minimum]
      omega
  · exact congrArg Except.ok (decide_eq_false (by omega)).symm

theorem ticksOf_eq {n p : Int} (hlimits : Timestamp.TickLimits seconds n p)
    (hsigns : 0 ≤ seconds ∧ 0 ≤ fractions ∨ seconds ≤ 0 ∧ fractions ≤ 0)
    (hfractions : -cNanosecondsPerSecond < fractions ∧ fractions < cNanosecondsPerSecond) :
    ticksOf seconds fractions n = .ok (Timestamp.ticksOf seconds fractions n) := by
  obtain ⟨hp, hsmall, hwhole, hparts⟩ := Timestamp.ticks_bounds hlimits hsigns hfractions
  obtain ⟨-, -, hquotient, -, -, hfits⟩ := hlimits
  simp only [ticksOf, Timestamp.ticksOf, hquotient]
  generalize fractions.tdiv n = f at *
  rw [checked_bind (by rw [int64_represents]; omega)]
  by_cases hwide : seconds > int64.maximum.tdiv p ∨ seconds < int64.minimum.tdiv p
  · rw [if_pos hwide, if_pos hwide]
    rfl
  have hwhole := hfits hwide
  rw [if_neg hwide, if_neg hwide, checked_bind hwhole, wouldOverflow_eq _ ⟨by omega, by omega⟩]
  rw [int64_represents] at hwhole
  by_cases htight : f > 0 ∧ seconds * p > int64.maximum - f ∨
      f < 0 ∧ seconds * p < int64.minimum - f
  · rw [if_pos htight, decide_eq_true htight]
    rfl
  · rw [if_neg htight, decide_eq_false htight]
    refine (checked_bind ?_ _).trans rfl
    rw [int64_represents]
    rw [int64_maximum, int64_minimum] at htight
    omega

/-- The checked distance is the distance of the calendar, and nothing overflows. -/
theorem distanceTicks_eq {t other : Timestamp} (h : t.isValid = true)
    (h' : other.isValid = true) (unit : TickUnit) :
    t.toRawValue.distanceTicks other.toRawValue unit.nanosecondsPerTick =
      .ok (t.distanceTicks other unit.nanosecondsPerTick) := by
  obtain ⟨⟨hdl, hdu⟩, hnl, hnu⟩ := Timestamp.bounds_of_isValid h
  obtain ⟨⟨hdl', hdu'⟩, hnl', hnu'⟩ := Timestamp.bounds_of_isValid h'
  have hlow := Int.lt_tmod_of_pos (other.nanoseconds - t.nanoseconds)
    (show 0 < cNanosecondsPerSecond by decide)
  have hhigh := Int.tmod_lt_of_pos (other.nanoseconds - t.nanoseconds)
    (show 0 < cNanosecondsPerSecond by decide)
  have hsplit := Int.mul_tdiv_add_tmod (other.nanoseconds - t.nanoseconds) cNanosecondsPerSecond
  have hvalid : ¬ ((!t.toRawValue.isValid) = true ∨ (!other.toRawValue.isValid) = true) := by
    rw [show t.toRawValue.isValid = t.isValid from rfl, h,
      show other.toRawValue.isValid = other.isValid from rfl, h']
    decide
  obtain ⟨q, hq⟩ : ∃ q, (other.nanoseconds - t.nanoseconds).tdiv cNanosecondsPerSecond = q :=
    ⟨_, rfl⟩
  obtain ⟨r, hr⟩ : ∃ r, (other.nanoseconds - t.nanoseconds).tmod cNanosecondsPerSecond = r :=
    ⟨_, rfl⟩
  have hrest : -cNanosecondsPerSecond < r ∧ r < cNanosecondsPerSecond := hr ▸ ⟨hlow, hhigh⟩
  obtain ⟨-, hsigns, hfractions⟩ := Timestamp.alignSigns_sum
    ((other.days - t.days) * cSecondsPerDay + q) hrest
  obtain ⟨p, hlimits⟩ := Timestamp.tickLimits
    (Timestamp.alignSigns ((other.days - t.days) * cSecondsPerDay + q) r).1 unit
  have hseconds : -2 ^ 50 ≤ (other.days - t.days) * cSecondsPerDay + q ∧
      (other.days - t.days) * cSecondsPerDay + q ≤ 2 ^ 50 := by
    rw [hq, hr, cNanosecondsPerSecond] at hsplit
    rw [cNanosecondsPerSecond] at hrest
    rw [Timestamp.cNanosecondsPerDay_val] at hnu hnu'
    rw [cLastDay] at hdu hdu'
    rw [cSecondsPerDay]
    omega
  rw [Timestamp.distanceTicks_eq h h', distanceTicks, if_neg hvalid, hq, hr]
  simp only [Timestamp.toRawValue]
  rw [checked_bind, checked_bind, hq, hr, checked_bind, checked_bind, checked_bind,
    alignSigns_eq hseconds hrest]
  · exact ticksOf_eq hlimits hsigns hfractions
  all_goals
    rw [Timestamp.cNanosecondsPerDay_val] at hnu hnu'
    rw [cLastDay] at hdu hdu'
    rw [cNanosecondsPerSecond] at hrest
    simp only [int64_represents, cSecondsPerDay] at *
    omega

/-- A split of ticks into days and a rest of the same sign. -/
theorem splitAmount_eq (unit : TickUnit) (ticks : SatInt64) :
    ∃ amount : SplitAmount, unit.splitAmount ticks = .ok (amount.days, amount.nanoseconds) ∧
      amount.days * cNanosecondsPerDay + amount.nanoseconds =
        ticks.val * unit.nanosecondsPerTick ∧
      -2 ^ 60 ≤ amount.days ∧ amount.days ≤ 2 ^ 60 := by
  have hticks := int64_represents.mp ticks.represents
  have hsplit : ∀ a b : Int, 86400 ≤ a → 0 < b → a * b = cNanosecondsPerDay →
      unit.ticksPerDay = a → unit.nanosecondsPerTick = b →
      ∃ amount : SplitAmount, unit.splitAmount ticks = .ok (amount.days, amount.nanoseconds) ∧
        amount.days * cNanosecondsPerDay + amount.nanoseconds = ticks.val * b ∧
        -2 ^ 60 ≤ amount.days ∧ amount.days ≤ 2 ^ 60 := by
    intro a b ha hb hab hday htick
    have hlow := Int.lt_tmod_of_pos ticks.val (show 0 < a by omega)
    have hhigh := Int.tmod_lt_of_pos ticks.val (show 0 < a by omega)
    have hdiv := Int.mul_tdiv_add_tmod ticks.val a
    have hdays : (ticks.val.tdiv a).natAbs ≤ ticks.val.natAbs / 86400 := by
      rw [Int.natAbs_tdiv]
      exact Nat.div_le_div_left (by omega) (by decide)
    have hupper : ticks.val.tmod a * b ≤ (a - 1) * b :=
      Int.mul_le_mul_of_nonneg_right (by omega) hb.le
    have hlower : -(a - 1) * b ≤ ticks.val.tmod a * b :=
      Int.mul_le_mul_of_nonneg_right (by omega) hb.le
    rw [Int.sub_mul, hab, Int.one_mul] at hupper
    rw [Int.neg_mul, Int.sub_mul, hab, Int.one_mul] at hlower
    have hbday : b ≤ cNanosecondsPerDay := by
      have hone := Int.mul_le_mul_of_nonneg_right (show 1 ≤ a by omega) hb.le
      rwa [Int.one_mul, hab] at hone
    refine ⟨⟨ticks.val.tdiv a, ticks.val.tmod a * b, by omega, by omega⟩, ?_, ?_, ?_⟩
    · rw [TickUnit.splitAmount, hday, htick, checked_bind, checked_bind (tmod_represents _ _),
        checked_bind]
      · rfl
      all_goals
        rw [int64_represents]
        rw [Timestamp.cNanosecondsPerDay_val] at *
        omega
    · calc ticks.val.tdiv a * cNanosecondsPerDay + ticks.val.tmod a * b
          = (a * ticks.val.tdiv a + ticks.val.tmod a) * b := by
            rw [← hab]
            ring
        _ = ticks.val * b := by rw [hdiv]
    · simp only
      omega
  cases unit with
  | seconds => exact hsplit 86400 1000000000 (by decide) (by decide) rfl rfl rfl
  | milliseconds => exact hsplit 86400000 1000000 (by decide) (by decide) rfl rfl rfl
  | microseconds => exact hsplit 86400000000 1000 (by decide) (by decide) rfl rfl rfl
  | nanoseconds => exact hsplit 86400000000000 1 (by decide) (by decide) rfl rfl rfl

/-- An amount is added or subtracted exactly, unless the result leaves the calendar. -/
theorem moved_lands {t : Timestamp} (h : t.isValid = true) (unit : TickUnit) (ticks : SatInt64)
    (subtract : Bool) :
    ∃ result saturates, t.toRawValue.moved unit ticks subtract =
        .ok (result.toRawValue, saturates) ∧
      Timestamp.Lands (t.instant + (if subtract then -(ticks.val * unit.nanosecondsPerTick)
        else ticks.val * unit.nanosecondsPerTick)) result saturates := by
  obtain ⟨amount, hsplit, hsum, hdays⟩ := splitAmount_eq unit ticks
  have hmoved : t.toRawValue.moved unit ticks subtract =
      t.toRawValue.shifted amount.days amount.nanoseconds subtract := by
    rw [moved, hsplit]
    rfl
  cases subtract with
  | true =>
    have hdays' : -2 ^ 60 ≤ amount.negated.days ∧ amount.negated.days ≤ 2 ^ 60 := by
      rw [SplitAmount.negated]
      simp only
      omega
    refine ⟨_, _, hmoved.trans (shifted_eq h amount.negated hdays' true rfl rfl), ?_⟩
    rw [if_pos rfl, ← hsum, Int.neg_add, ← Int.neg_mul]
    exact Timestamp.shifted_lands h amount.negated
  | false =>
    refine ⟨_, _, hmoved.trans (shifted_eq h amount hdays false rfl rfl), ?_⟩
    rw [if_neg Bool.false_ne_true, ← hsum]
    exact Timestamp.shifted_lands h amount

end RawTimestamp

namespace Timestamp

theorem instant_bounds {t : Timestamp} (h : t.isValid = true) :
    first.instant ≤ t.instant ∧ t.instant ≤ last.instant := by
  obtain ⟨⟨hdl, hdu⟩, hnl, hnu⟩ := bounds_of_isValid h
  have hfirst : first.instant = 0 := rfl
  have hlast : last.instant = 3652424 * 86400000000000 + (86400000000000 - 1) := rfl
  rw [hfirst, hlast, instant, cNanosecondsPerDay_val]
  rw [cNanosecondsPerDay_val] at hnu
  rw [cLastDay] at hdu
  omega

theorem instant_injective {t other : Timestamp} (h : t.isValid = true)
    (h' : other.isValid = true) (heq : t.instant = other.instant) : t = other := by
  obtain ⟨-, hnl, hnu⟩ := bounds_of_isValid h
  obtain ⟨-, hnl', hnu'⟩ := bounds_of_isValid h'
  rw [instant, instant, cNanosecondsPerDay_val] at heq
  rw [cNanosecondsPerDay_val] at hnu hnu'
  ext <;> omega

theorem Lands.eq_of_instant {t : Timestamp} (h : t.isValid = true)
    (hlands : Lands t.instant result saturates) : result = t := by
  obtain ⟨hl, hu⟩ := instant_bounds h
  rcases hlands with ⟨hlow, -⟩ | ⟨hhigh, -⟩ | ⟨⟨hvalid, heq⟩, -⟩
  · omega
  · omega
  · exact instant_injective hvalid h heq

/-- Amounts of all units are added and subtracted exactly or saturated with the flag, distances
are truncated or saturated with the flag, and no number on the way overflows. -/
theorem arithmetic_exact (t : Timestamp) (h : t.isValid = true) :
    (∀ (unit : TickUnit) (ticks : SatInt64),
      (∃ result saturates, t.toRawValue.added unit ticks = .ok result.toRawValue ∧
        t.toRawValue.wouldAddSaturate unit ticks = .ok saturates ∧
        Lands (t.instant + ticks.val * unit.nanosecondsPerTick) result saturates ∧
        (saturates = false → result.toRawValue.subtracted unit ticks = .ok t.toRawValue)) ∧
      ∃ result saturates, t.toRawValue.subtracted unit ticks = .ok result.toRawValue ∧
        t.toRawValue.wouldSubtractSaturate unit ticks = .ok saturates ∧
        Lands (t.instant - ticks.val * unit.nanosecondsPerTick) result saturates) ∧
    ∀ (other : Timestamp), other.isValid = true → ∀ unit : TickUnit,
      ∃ result, t.toRawValue.distanceTo other.toRawValue unit = .ok result ∧
        TicksAre ((other.instant - t.instant).tdiv unit.nanosecondsPerTick) result := by
  have hsubtracted : ∀ {t : Timestamp}, t.isValid = true → ∀ unit ticks, ∃ result saturates,
      t.toRawValue.subtracted unit ticks = .ok result.toRawValue ∧
      t.toRawValue.wouldSubtractSaturate unit ticks = .ok saturates ∧
      Lands (t.instant - ticks.val * unit.nanosecondsPerTick) result saturates := by
    intro t h unit ticks
    obtain ⟨result, saturates, hmoved, hlands⟩ := RawTimestamp.moved_lands h unit ticks true
    refine ⟨result, saturates, ?_, ?_, hlands⟩
    · rw [RawTimestamp.subtracted, hmoved]
      rfl
    · rw [RawTimestamp.wouldSubtractSaturate, hmoved]
      rfl
  refine ⟨fun unit ticks => ⟨?_, hsubtracted h unit ticks⟩, fun other h' unit =>
    ⟨_, RawTimestamp.distanceTicks_eq h h' unit, distanceTicks_exact h h' unit⟩⟩
  obtain ⟨result, saturates, hmoved, hlands⟩ := RawTimestamp.moved_lands h unit ticks false
  refine ⟨result, saturates, ?_, ?_, hlands, fun hexact => ?_⟩
  · rw [RawTimestamp.added, hmoved]
    rfl
  · rw [RawTimestamp.wouldAddSaturate, hmoved]
    rfl
  · rw [if_neg Bool.false_ne_true] at hlands
    rcases hlands with ⟨-, -, hflag⟩ | ⟨-, -, hflag⟩ | ⟨⟨hvalid, hinstant⟩, -⟩
    · rw [hflag] at hexact
      cases hexact
    · rw [hflag] at hexact
      cases hexact
    · obtain ⟨back, _, hback, -, hlands⟩ := hsubtracted hvalid unit ticks
      rw [hinstant, Int.add_sub_cancel] at hlands
      rw [hback, hlands.eq_of_instant h]

/-- The nanoseconds from 1970 to the end of the calendar, which saturate. -/
theorem arithmetic_exact_last :
    ∃ result, (posixEpoch.toRawValue).distanceTo last.toRawValue .nanoseconds = .ok result ∧
      TicksAre ((last.instant - posixEpoch.instant).tdiv TickUnit.nanoseconds.nanosecondsPerTick)
        result :=
  (arithmetic_exact posixEpoch (by decide)).2 last (by decide) .nanoseconds

end Timestamp
end ErbslandCore.Time
