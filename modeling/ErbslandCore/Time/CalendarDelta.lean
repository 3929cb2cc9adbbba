import ErbslandCore.Library.CheckedSums
import ErbslandCore.Time.TimeAmounts

namespace ErbslandCore.Time
open Library Math NativeInteger Amount
set_option autoImplicit true

/-- A delta of independent parts that are not normalized. -/
structure CalendarDelta where
  nanoseconds : Nanoseconds := .zero
  microseconds : Microseconds := .zero
  milliseconds : Milliseconds := .zero
  seconds : Seconds := .zero
  minutes : Minutes := .zero
  hours : Hours := .zero
  days : Days := .zero
  weeks : Weeks := .zero
  months : Months := .zero
  years : Years := .zero

namespace CalendarDelta

/-- Add a part to the nanoseconds so far, unless one of them leaves the range. -/
def addPart (total : Nanoseconds) (amount : IntegerAmount SecondsUnitTag ratio) :
    Option Nanoseconds :=
  if amount.wouldConvertSaturate nano then none
  else if total.wouldAddSaturate (amount.converted nano) then none
  else some (total.add (amount.converted nano))

def toTimeDelta (d : CalendarDelta) : Option TimeDelta :=
  if !d.months.isZero || !d.years.isZero then none
  else do
    let total ← addPart .zero d.nanoseconds
    let total ← addPart total d.microseconds
    let total ← addPart total d.milliseconds
    let total ← addPart total d.seconds
    let total ← addPart total d.minutes
    let total ← addPart total d.hours
    let total ← addPart total d.days
    let total ← addPart total d.weeks
    return ⟨total⟩

def isValidTimeDelta (d : CalendarDelta) : Bool := d.toTimeDelta.isSome

/-- The parts of fixed length in nanoseconds, in the order in which they are added. -/
def inNanoseconds (d : CalendarDelta) : List Int :=
  [d.nanoseconds.value.val, d.microseconds.value.val * 1000,
    d.milliseconds.value.val * 1000000, d.seconds.value.val * 1000000000,
    d.minutes.value.val * 60000000000, d.hours.value.val * 3600000000000,
    d.days.value.val * 86400000000000, d.weeks.value.val * 604800000000000]

/-- A part that is added, and the parts that follow it. -/
theorem addPart_bind {total : Nanoseconds} {amount : IntegerAmount SecondsUnitTag ratio}
    {rest : Nanoseconds → Option TimeDelta} (h : ratioDivide ratio nano = (n, 1))
    (hnum : int64.Represents n) (hrest : ∀ total, (rest total).map (·.nanoseconds.value.val) =
      checkedSum int64.Represents total.value.val xs) :
    ((addPart total amount).bind rest).map (·.nanoseconds.value.val) =
      checkedSum int64.Represents total.value.val (amount.value.val * n :: xs) := by
  rw [addPart, checkedSum]
  by_cases hconvert : int64.Represents (amount.value.val * n)
  · have hval := IntegerAmount.converted_val h hnum hconvert
    rw [if_neg (by simp [(IntegerAmount.wouldConvertSaturate_eq_false h hnum).mpr hconvert])]
    by_cases hadd : int64.Represents (total.value.val + amount.value.val * n)
    · rw [← hval] at hadd
      have hfalse : total.wouldAddSaturate (amount.converted nano) = false :=
        (Value.wouldAddSaturate_eq_false _ _).mpr hadd
      rw [hfalse, if_neg Bool.false_ne_true, Option.bind_some, hrest, IntegerAmount.add,
        Value.added_val _ _ hadd, hval, if_pos ⟨hconvert, hval ▸ hadd⟩]
    · have htrue : total.wouldAddSaturate (amount.converted nano) = true := by
        rw [← Bool.not_eq_false, IntegerAmount.wouldAddSaturate, Value.wouldAddSaturate_eq_false,
          hval]
        exact hadd
      rw [htrue, if_pos rfl, if_neg fun hfits => hadd hfits.2]
      rfl
  · have htrue : amount.wouldConvertSaturate nano = true := by
      rw [← Bool.not_eq_false, IntegerAmount.wouldConvertSaturate_eq_false h hnum]
      exact hconvert
    rw [htrue, if_pos rfl, if_neg fun hfits => hconvert hfits.1]
    rfl

/-- Without calendar units the parts are added one after another with checks. -/
theorem toTimeDelta_eq (d : CalendarDelta) (hm : d.months.isZero = true)
    (hy : d.years.isZero = true) : d.toTimeDelta.map (·.nanoseconds.value.val) =
      checkedSum int64.Represents 0 d.inNanoseconds := by
  have hzero : ¬ (!d.months.isZero || !d.years.isZero) = true := by
    rw [hm, hy]
    decide
  rw [toTimeDelta, if_neg hzero, inNanoseconds]
  have hone := Int.mul_one d.nanoseconds.value.val
  rw [← hone]
  apply addPart_bind (n := 1) (by decide) (by decide)
  intro total
  apply addPart_bind (n := 1000) (by decide) (by decide)
  intro total
  apply addPart_bind (n := 1000000) (by decide) (by decide)
  intro total
  apply addPart_bind (n := 1000000000) (by decide) (by decide)
  intro total
  apply addPart_bind (n := 60000000000) (by decide) (by decide)
  intro total
  apply addPart_bind (n := 3600000000000) (by decide) (by decide)
  intro total
  apply addPart_bind (n := 86400000000000) (by decide) (by decide)
  intro total
  apply addPart_bind (n := 604800000000000) (by decide) (by decide)
  intro total
  rfl

/-- The fixed delta is exact unless a part or a sum on the way leaves the 64-bit range and the
total does not. -/
theorem toTimeDelta_exact_iff (d : CalendarDelta) (hm : d.months.isZero = true)
    (hy : d.years.isZero = true) :
    ((∀ delta, d.toTimeDelta = some delta →
        delta.nanoseconds.value.val = d.inNanoseconds.sum) ∧
      (d.isValidTimeDelta = true ↔ int64.Represents d.inNanoseconds.sum)) ↔
    (int64.Represents d.inNanoseconds.sum → AllFit int64.Represents 0 d.inNanoseconds) := by
  have heq := toTimeDelta_eq d hm hy
  rw [isValidTimeDelta]
  cases hresult : d.toTimeDelta with
  | none =>
    rw [hresult, Option.map_none] at heq
    have hnot : ¬ AllFit int64.Represents 0 d.inNanoseconds := by
      intro hall
      have hsome := checkedSum_eq_some.mpr ⟨hall, rfl⟩
      rw [← heq] at hsome
      cases hsome
    constructor
    · intro h hfits
      exact absurd (h.2.mpr hfits) Bool.false_ne_true
    · intro h
      refine ⟨fun _ => nofun, fun hvalid => absurd hvalid Bool.false_ne_true, fun hfits => ?_⟩
      exact absurd (h hfits) hnot
  | some delta =>
    rw [hresult, Option.map_some] at heq
    obtain ⟨hall, hsum⟩ := checkedSum_eq_some.mp heq.symm
    rw [Int.zero_add] at hsum
    constructor
    · exact fun _ _ => hall
    · intro _
      refine ⟨?_, fun _ => ?_, fun _ => rfl⟩
      · rintro _ ⟨⟩
        exact hsum
      · rw [← hsum]
        exact delta.nanoseconds.value.represents

theorem toTimeDelta_exact_iff_hour :
    (∀ delta, toTimeDelta { hours := ⟨.staticCast int64 1⟩ } = some delta →
        delta.nanoseconds.value.val = 3600000000000) ∧
      (isValidTimeDelta { hours := ⟨.staticCast int64 1⟩ } = true ↔
        int64.Represents 3600000000000) := by
  have hiff := toTimeDelta_exact_iff { hours := ⟨.staticCast int64 1⟩ } rfl rfl
  exact hiff.mpr fun _ => (checkedSum_eq_some.mp (show checkedSum int64.Represents 0
    (inNanoseconds { hours := ⟨.staticCast int64 1⟩ }) = some 3600000000000 by decide)).1

/-- The sum of the maximum and one microsecond is too large; the millisecond less that follows
comes too late. -/
theorem toTimeDelta_inexact :
    (toTimeDelta { nanoseconds := ⟨.highest int64⟩
                   microseconds := ⟨.staticCast int64 1⟩
                   milliseconds := ⟨.staticCast int64 (-1)⟩ }).isSome = false ∧
      int64.Represents (inNanoseconds { nanoseconds := ⟨.highest int64⟩
                                        microseconds := ⟨.staticCast int64 1⟩
                                        milliseconds := ⟨.staticCast int64 (-1)⟩ }).sum := by
  decide

end CalendarDelta
end ErbslandCore.Time
