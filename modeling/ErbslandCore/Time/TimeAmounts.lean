import ErbslandCore.Amount.IntegerAmount

namespace ErbslandCore.Time
open Math NativeInteger Amount
set_option autoImplicit true

structure SecondsUnitTag where

structure MonthsUnitTag where

structure YearsUnitTag where

abbrev nano : Ratio where
  num := 1
  den := 1000000000

abbrev micro : Ratio where
  num := 1
  den := 1000000

abbrev milli : Ratio where
  num := 1
  den := 1000

/-- A ratio of whole base units. -/
abbrev whole (num : Nat) (h : 0 < num ∧ num < 2 ^ 63 := by decide) : Ratio where
  num := num
  den := 1
  positive := ⟨h.1, Nat.one_pos⟩
  simple := .inr rfl
  bounded := ⟨h.2, by decide⟩

theorem whole_one : 0 < 1 ∧ 1 < 2 ^ 63 := by decide

theorem whole_day : 0 < 86400 ∧ 86400 < 2 ^ 63 := by decide

abbrev Nanoseconds := IntegerAmount SecondsUnitTag nano

abbrev Microseconds := IntegerAmount SecondsUnitTag micro

abbrev Milliseconds := IntegerAmount SecondsUnitTag milli

abbrev Seconds := IntegerAmount SecondsUnitTag (whole 1 whole_one)

abbrev Minutes := IntegerAmount SecondsUnitTag (whole 60)

abbrev Hours := IntegerAmount SecondsUnitTag (whole 3600)

abbrev Days := IntegerAmount SecondsUnitTag (whole 86400 whole_day)

abbrev Weeks := IntegerAmount SecondsUnitTag (whole 604800)

abbrev Months := IntegerAmount MonthsUnitTag (whole 1 whole_one)

abbrev Years := IntegerAmount YearsUnitTag (whole 1 whole_one)

/-- A signed delta with nanosecond resolution. -/
@[ext] structure TimeDelta where
  nanoseconds : Nanoseconds

/-- A signed duration in seconds. -/
@[ext] structure Duration where
  seconds : Seconds

/-- The whole days of a duration, truncated toward zero, and the signed rest. -/
def Duration.toDaysAndNanoseconds (d : Duration) : Days × Nanoseconds :=
  let (days, seconds) := d.seconds.extract (whole 86400 whole_day)
  (days, seconds.converted nano)

end ErbslandCore.Time
