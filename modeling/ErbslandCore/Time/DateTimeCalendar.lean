import ErbslandCore.Time.CalendarDelta
import ErbslandCore.Time.DateTime

namespace ErbslandCore.Time
open Library Math NativeInteger Amount
set_option autoImplicit true

/-- The exception for results outside of the calendar. -/
structure OverflowError where
  message : String
  deriving DecidableEq

namespace Date
variable (d : Date)

def addedDaysOrThrow (amount : Days) : Except OverflowError Date :=
  if d.wouldAddSaturateDays amount then
    throw ⟨"Date day addition would exceed supported date range"⟩
  else pure (d.addedDays amount)

def addedMonthsOrThrow (amount : Months) : Except OverflowError Date :=
  if d.wouldAddSaturateMonths amount then
    throw ⟨"Date month addition would exceed supported date range"⟩
  else pure (d.addedMonths amount)

def addedYearsOrThrow (amount : Years) : Except OverflowError Date :=
  if d.wouldAddSaturateYears amount then
    throw ⟨"Date year addition would exceed supported date range"⟩
  else pure (d.addedYears amount)

end Date

namespace DateTime

/-- The date and the time that the steps of an addition change. -/
abbrev Running := Date × TimeOfDay

def outOfBounds : OverflowError :=
  ⟨"CalendarDelta application would exceed DateTime bounds"⟩

section saturating

def saturate (positive : Bool) : Running :=
  if positive then (.last, .last) else (.first, .first)

def applyTimeDelta (amount : TimeDelta) (s : Running) : Running :=
  let (time, days) := s.2.addWithWrap amount
  if s.1.wouldAddSaturateDays days then saturate days.isPositive else (s.1.addedDays days, time)

def applySeconds (amount : Seconds) (s : Running) : Running :=
  let (time, days) := s.2.addDurationWithWrap ⟨amount⟩
  if s.1.wouldAddSaturateDays days then saturate days.isPositive else (s.1.addedDays days, time)

def applySubseconds (value : SatInt64) (partsPerSecond nsPerPart : Int) (s : Running) : Running :=
  s |> applySeconds ⟨.clamp int64 (value.val.tdiv partsPerSecond)⟩
    |> applyTimeDelta ⟨⟨.clamp int64 (value.val.tmod partsPerSecond * nsPerPart)⟩⟩

def applySecondsAmount (amount : IntegerAmount SecondsUnitTag ratio) (s : Running) : Running :=
  if amount.wouldConvertSaturate (whole 1 whole_one) then saturate amount.isPositive
  else applySeconds (amount.converted (whole 1 whole_one)) s

def applyDays (amount : Days) (s : Running) : Running :=
  if s.1.wouldAddSaturateDays amount then saturate amount.isPositive
  else (s.1.addedDays amount, s.2)

def applyWeeks (amount : Weeks) (s : Running) : Running :=
  if amount.wouldConvertSaturate (whole 86400 whole_day) then saturate amount.isPositive
  else applyDays (amount.converted (whole 86400 whole_day)) s

def applyMonths (amount : Months) (s : Running) : Running :=
  if s.1.wouldAddSaturateMonths amount then saturate amount.isPositive
  else (s.1.addedMonths amount, s.2)

def applyYears (amount : Years) (s : Running) : Running :=
  if s.1.wouldAddSaturateYears amount then saturate amount.isPositive
  else (s.1.addedYears amount, s.2)

end saturating

section throwing

def applyTimeDeltaOrThrow (amount : TimeDelta) (s : Running) : Except OverflowError Running :=
  let (time, days) := s.2.addWithWrap amount
  return (← s.1.addedDaysOrThrow days, time)

def applySecondsOrThrow (amount : Seconds) (s : Running) : Except OverflowError Running :=
  let (time, days) := s.2.addDurationWithWrap ⟨amount⟩
  return (← s.1.addedDaysOrThrow days, time)

def applySubsecondsOrThrow (value : SatInt64) (partsPerSecond nsPerPart : Int) (s : Running) :
    Except OverflowError Running :=
  applySecondsOrThrow ⟨.clamp int64 (value.val.tdiv partsPerSecond)⟩ s
    >>= applyTimeDeltaOrThrow ⟨⟨.clamp int64 (value.val.tmod partsPerSecond * nsPerPart)⟩⟩

def applySecondsAmountOrThrow (amount : IntegerAmount SecondsUnitTag ratio) (s : Running) :
    Except OverflowError Running :=
  if amount.wouldConvertSaturate (whole 1 whole_one) then throw outOfBounds
  else applySecondsOrThrow (amount.converted (whole 1 whole_one)) s

def applyDaysOrThrow (amount : Days) (s : Running) : Except OverflowError Running :=
  return (← s.1.addedDaysOrThrow amount, s.2)

def applyWeeksOrThrow (amount : Weeks) (s : Running) : Except OverflowError Running :=
  if amount.wouldConvertSaturate (whole 86400 whole_day) then throw outOfBounds
  else applyDaysOrThrow (amount.converted (whole 86400 whole_day)) s

def applyMonthsOrThrow (amount : Months) (s : Running) : Except OverflowError Running :=
  return (← s.1.addedMonthsOrThrow amount, s.2)

def applyYearsOrThrow (amount : Years) (s : Running) : Except OverflowError Running :=
  return (← s.1.addedYearsOrThrow amount, s.2)

end throwing

section addition
variable (database : TimeZoneId → Option Info) (t : DateTime) (delta : CalendarDelta)

/-- The result of an addition, shown in the zone of the start. -/
def shownAs (s : Running) : DateTime :=
  let result := ofUtc s.1 s.2
  if t.offset.isZone then result.toTimeZone database t.timeZone
  else { result with offset := t.offset }

def added : DateTime :=
  if !t.isValid then {}
  else
    (t.date, t.time)
      |> applySubseconds delta.nanoseconds.value 1000000000 1
      |> applySubseconds delta.microseconds.value 1000000 1000
      |> applySubseconds delta.milliseconds.value 1000 1000000
      |> applySeconds delta.seconds
      |> applySecondsAmount delta.minutes
      |> applySecondsAmount delta.hours
      |> applyDays delta.days
      |> applyWeeks delta.weeks
      |> applyMonths delta.months
      |> applyYears delta.years
      |> t.shownAs database

def addedOrThrow : Except OverflowError DateTime :=
  if !t.isValid then return {}
  else
    applySubsecondsOrThrow delta.nanoseconds.value 1000000000 1 (t.date, t.time)
      >>= applySubsecondsOrThrow delta.microseconds.value 1000000 1000
      >>= applySubsecondsOrThrow delta.milliseconds.value 1000 1000000
      >>= applySecondsOrThrow delta.seconds
      >>= applySecondsAmountOrThrow delta.minutes
      >>= applySecondsAmountOrThrow delta.hours
      >>= applyDaysOrThrow delta.days
      >>= applyWeeksOrThrow delta.weeks
      >>= applyMonthsOrThrow delta.months
      >>= applyYearsOrThrow delta.years
      >>= fun s => return t.shownAs database s

/-- The addition in place: the date and time afterwards, and the exception. -/
def addOrThrow : DateTime × Option OverflowError :=
  match t.addedOrThrow database delta with
  | .ok result => (result, none)
  | .error e => (t, some e)

/-- The test runs the addition; an invalid result terminates the program. -/
def wouldAddSaturate : Option Bool :=
  if !t.isValid then some false
  else
    match t.addedOrThrow database delta with
    | .ok result => if !result.isValid then none else some false
    | .error _ => some true

end addition

/-- The saturating result is valid, and it is the other one unless that is an exception. -/
def Agrees (result : Running) (thrown : Except OverflowError Running) : Prop :=
  result.1.isValid = true ∧ ∀ s, thrown = .ok s → result = s

theorem saturate_valid (positive : Bool) : (saturate positive).1.isValid = true := by
  cases positive <;> rfl

/-- One more step after steps that agree. -/
theorem Agrees.bind {f : Running → Running} {g : Running → Except OverflowError Running}
    (h : Agrees result thrown) (hstep : ∀ s : Running, s.1.isValid = true → Agrees (f s) (g s)) :
    Agrees (f result) (thrown >>= g) := by
  obtain ⟨hvalid, hsame⟩ := hstep result h.1
  refine ⟨hvalid, fun s hs => ?_⟩
  cases hthrown : thrown with
  | error e =>
    rw [hthrown] at hs
    cases hs
  | ok s' =>
    rw [hthrown] at hs
    rw [h.2 s' hthrown] at hsame ⊢
    exact hsame s hs

/-- Both sides test in the same way whether a step saturates. -/
theorem agrees_of {saturates : Bool} {date : Date} {thrown : Except OverflowError Date}
    (hdate : date.isValid = true) (positive : Bool) (time : TimeOfDay)
    (hthrown : thrown = if saturates then .error e else .ok date) :
    Agrees (if saturates then saturate positive else (date, time))
      (do return (← thrown, time)) := by
  cases saturates with
  | true =>
    refine ⟨saturate_valid positive, fun s hs => ?_⟩
    rw [hthrown] at hs
    cases hs
  | false =>
    refine ⟨hdate, fun s hs => ?_⟩
    rw [hthrown] at hs
    cases hs
    rfl

section steps
variable {s : Running} (h : s.1.isValid = true)
include h

theorem applyTimeDelta_agrees (amount : TimeDelta) :
    Agrees (applyTimeDelta amount s) (applyTimeDeltaOrThrow amount s) :=
  agrees_of (Date.addedDays_days h _).1 _ _ rfl

theorem applySeconds_agrees (amount : Seconds) :
    Agrees (applySeconds amount s) (applySecondsOrThrow amount s) :=
  agrees_of (Date.addedDays_days h _).1 _ _ rfl

theorem applySubseconds_agrees (value : SatInt64) (partsPerSecond nsPerPart : Int) :
    Agrees (applySubseconds value partsPerSecond nsPerPart s)
      (applySubsecondsOrThrow value partsPerSecond nsPerPart s) :=
  (applySeconds_agrees h _).bind fun _ hs => applyTimeDelta_agrees hs _

theorem applySecondsAmount_agrees (amount : IntegerAmount SecondsUnitTag ratio) :
    Agrees (applySecondsAmount amount s) (applySecondsAmountOrThrow amount s) := by
  rw [applySecondsAmount, applySecondsAmountOrThrow]
  split_ifs
  · exact ⟨saturate_valid _, fun _ hs => by cases hs⟩
  · exact applySeconds_agrees h _

theorem applyDays_agrees (amount : Days) :
    Agrees (applyDays amount s) (applyDaysOrThrow amount s) :=
  agrees_of (Date.addedDays_days h _).1 _ _ rfl

theorem applyWeeks_agrees (amount : Weeks) :
    Agrees (applyWeeks amount s) (applyWeeksOrThrow amount s) := by
  rw [applyWeeks, applyWeeksOrThrow]
  split_ifs
  · exact ⟨saturate_valid _, fun _ hs => by cases hs⟩
  · exact applyDays_agrees h _

theorem applyMonths_agrees (amount : Months) :
    Agrees (applyMonths amount s) (applyMonthsOrThrow amount s) :=
  agrees_of (Date.addedMonths_isValid h _) _ _ rfl

theorem applyYears_agrees (amount : Years) :
    Agrees (applyYears amount s) (applyYearsOrThrow amount s) :=
  agrees_of (Date.addedMonths_isValid h _) _ _ rfl

end steps

theorem ofUtc_eq {date : Date} (h : date.isValid = true) (time : TimeOfDay) :
    ofUtc date time = { date := date, time := time } := by
  have hzero : -86400 < (TimeOffset.offset {}).value.val ∧
    (TimeOffset.offset {}).value.val < 86400 := by decide
  obtain ⟨date', time', heq, -, hdays, htime⟩ := ofTimeOffset_eq time h hzero
  have hbound := Date.bounded_of_isValid h
  have htimes := time.bounded
  have hinstant : localInstant date time (TimeOffset.offset {}) =
      date.days * cNanosecondsPerDay + time.nanoseconds.val - 0 * cNanosecondsPerSecond := rfl
  rw [hinstant, cNanosecondsPerDay_eq] at hdays htime
  rw [cNanosecondsPerDay_eq] at htimes
  have hdate : date' = date := by
    apply Date.ext
    omega
  have hsame : time' = time := by
    apply TimeOfDay.ext
    apply Value.ext
    omega
  rw [ofUtc, heq, hdate, hsame]

theorem shownAs_isValid (database : TimeZoneId → Option Info) (t : DateTime) {s : Running}
    (h : s.1.isValid = true) : (t.shownAs database s).isValid = true := by
  rw [shownAs, ofUtc_eq h]
  split_ifs
  · rw [toTimeZone, if_neg (by simp [isValid, h])]
    exact h
  · exact h

/-- The two additions run in step. -/
theorem added_agrees (database : TimeZoneId → Option Info) {t : DateTime} (h : t.isValid = true)
    (delta : CalendarDelta) :
    ∃ result thrown, Agrees result thrown ∧ t.added database delta = t.shownAs database result ∧
      t.addedOrThrow database delta = thrown >>= fun s => .ok (t.shownAs database s) := by
  have hnot : ¬ (!t.isValid) = true := by
    rw [h]
    decide
  rw [added, addedOrThrow, if_neg hnot, if_neg hnot]
  refine ⟨_, _, ?_, rfl, rfl⟩
  apply Agrees.bind _ fun _ hs => applyYears_agrees hs _
  apply Agrees.bind _ fun _ hs => applyMonths_agrees hs _
  apply Agrees.bind _ fun _ hs => applyWeeks_agrees hs _
  apply Agrees.bind _ fun _ hs => applyDays_agrees hs _
  apply Agrees.bind _ fun _ hs => applySecondsAmount_agrees hs _
  apply Agrees.bind _ fun _ hs => applySecondsAmount_agrees hs _
  apply Agrees.bind _ fun _ hs => applySeconds_agrees hs _
  apply Agrees.bind _ fun _ hs => applySubseconds_agrees hs _ _ _
  apply Agrees.bind _ fun _ hs => applySubseconds_agrees hs _ _ _
  exact applySubseconds_agrees (s := (t.date, t.time)) h _ _ _

/-- The throwing addition succeeds exactly when the test denies that it saturates, and then the
saturating one has the same result; else that one is valid, and nothing is changed. -/
theorem addedOrThrow_iff (database : TimeZoneId → Option Info) (t : DateTime)
    (h : t.isValid = true) (delta : CalendarDelta) :
    ((∃ result, t.addedOrThrow database delta = .ok result) ↔
        t.wouldAddSaturate database delta = some false) ∧
      (∀ result, t.addedOrThrow database delta = .ok result →
        t.added database delta = result ∧ result.isValid = true) ∧
      ∀ e, t.addedOrThrow database delta = .error e →
        (t.added database delta).isValid = true ∧
        t.wouldAddSaturate database delta = some true ∧
        t.addOrThrow database delta = (t, some e) := by
  have hnot : ¬ (!t.isValid) = true := by
    rw [h]
    decide
  obtain ⟨result, thrown, ⟨hvalid, hsame⟩, hadded, hthrow⟩ := added_agrees database h delta
  have hresult : (t.added database delta).isValid = true := by
    rw [hadded]
    exact shownAs_isValid database t hvalid
  have hok : ∀ r, t.addedOrThrow database delta = .ok r → t.added database delta = r := by
    intro r hr
    cases hs : thrown with
    | error e =>
      rw [hthrow, hs] at hr
      cases hr
    | ok s =>
      rw [hthrow, hs] at hr
      cases hr
      rw [hadded, hsame s hs]
  rw [wouldAddSaturate, if_neg hnot]
  cases hr : t.addedOrThrow database delta with
  | error e =>
    refine ⟨⟨?_, ?_⟩, ?_, ?_⟩
    · rintro ⟨_, h⟩
      cases h
    · intro h
      cases h
    · intro _ h
      cases h
    · intro e' he
      cases he
      exact ⟨hresult, rfl, by rw [addOrThrow, hr]⟩
  | ok r =>
    rw [hok r hr] at hresult
    refine ⟨⟨fun _ => ?_, fun _ => ⟨r, rfl⟩⟩, ?_, ?_⟩
    · simp [hresult]
    · intro r' hr'
      cases hr'
      exact ⟨hok r hr, hresult⟩
    · intro _ h
      cases h

/-- One month after the last day of January of a leap year. -/
theorem addedOrThrow_iff_month :
    (∃ result, addedOrThrow (fun _ => none) { date := { days := 730515 } }
        { months := ⟨.staticCast int64 1⟩ } = .ok result) ↔
      wouldAddSaturate (fun _ => none) { date := { days := 730515 } }
        { months := ⟨.staticCast int64 1⟩ } = some false :=
  (addedOrThrow_iff (fun _ => none) { date := { days := 730515 } } (by decide)
    { months := ⟨.staticCast int64 1⟩ }).1

end DateTime
end ErbslandCore.Time
