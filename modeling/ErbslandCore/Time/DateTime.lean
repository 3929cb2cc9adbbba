import ErbslandCore.Time.DateArithmetic
import ErbslandCore.Time.TimeOfDay
import ErbslandCore.Time.TimeZoneInfo

namespace ErbslandCore.Time
open Library Math NativeInteger Amount
set_option autoImplicit true

abbrev TimeZoneId := UInt16

def cZoneIdNotFound : TimeZoneId := 0xffff

/-- The offset of a date and time, and where it comes from. -/
structure TimeOffset where
  offset : Seconds := .zero
  zoneId : TimeZoneId := 0
  abbreviationId : UInt8 := 0
  isDst : Bool := false
  isLocalTime : Bool := false

namespace TimeOffset
variable (o : TimeOffset)

def isStaticOffset : Bool := o.zoneId = 0 && !o.offset.isZero

def isZone : Bool := o.zoneId ≠ 0

end TimeOffset

namespace TimeZone

inductive Storage where
  | utc
  | fixedOffset (offset : Seconds)
  | namedZone (id : TimeZoneId)

end TimeZone

structure TimeZone where
  storage : TimeZone.Storage := .utc
  isLocalTime : Bool := false

namespace TimeZone

/-- The seconds of an offset without whole days. -/
def normalizeOffset (seconds : Seconds) : Seconds :=
  ⟨seconds.value.modulo (.staticCast int64 86400) (by decide)⟩

def ofOffset (offset : Duration) : TimeZone :=
  let normalized := normalizeOffset offset.seconds
  if normalized.isZero then {} else { storage := .fixedOffset normalized }

def ofId (id : TimeZoneId) : TimeZone :=
  if id ≠ 0 ∧ id ≠ cZoneIdNotFound then { storage := .namedZone id } else {}

section lookup
variable (database : TimeZoneId → Option Info) (zone : TimeZone)

/-- The seconds since the epoch at a date and a time of day. -/
def secondsAt (date : Date) (time : TimeOfDay) : Seconds :=
  (date.toDaysSinceEpoch.converted (whole 1 whole_one)).add
    ⟨.clamp int64 (time.nanoseconds.val.tdiv cNanosecondsPerSecond)⟩

/-- The offset of a named zone, looked up in the database; all others have one offset. -/
def timeOffsetBy (lookup : Info → OffsetDetails) : TimeOffset :=
  match zone.storage with
  | .fixedOffset offset => { offset := offset, isLocalTime := zone.isLocalTime }
  | .utc => { isLocalTime := zone.isLocalTime }
  | .namedZone id =>
    match database id with
    | some info =>
      { offset := (lookup info).total
        zoneId := id
        abbreviationId := (lookup info).abbreviation
        isDst := !(lookup info).dst.isZero
        isLocalTime := zone.isLocalTime }
    | none => { isLocalTime := zone.isLocalTime }

def timeOffsetAtLocal (date : Date) (time : TimeOfDay) (occurrence : TimeOccurrenceInFold) :
    TimeOffset :=
  zone.timeOffsetBy database fun info => info.detailsForLocal (secondsAt date time) occurrence

def timeOffsetAtUtc (date : Date) (time : TimeOfDay) : TimeOffset :=
  zone.timeOffsetBy database fun info => info.details (secondsAt date time) .utc

end lookup
end TimeZone

/-- A point in time in UTC, and the offset that it is shown with. -/
structure DateTime where
  date : Date := {}
  time : TimeOfDay := .first
  offset : TimeOffset := {}

namespace DateTime

def isValid (t : DateTime) : Bool := t.date.isValid

/-- The date and time after the offset has been subtracted from local ones. -/
def subtractOffset (t : DateTime) : DateTime :=
  if !t.isValid then { t with time := .first, offset := {} }
  else
    let (time, days) := t.time.addDurationWithWrap ⟨t.offset.offset.negated⟩
    let date := t.date.addedDays days
    if !date.isValid then { date := date } else { t with date := date, time := time }

def localDateTime (t : DateTime) : Date × TimeOfDay :=
  if !t.isValid then ({}, .first)
  else
    let (time, days) := t.time.addDurationWithWrap ⟨t.offset.offset⟩
    (t.date.addedDays days, time)

/-- All constructors resolve the offset first. -/
def ofTimeOffset (localDate : Date) (localTime : TimeOfDay) (offset : TimeOffset) : DateTime :=
  subtractOffset { date := localDate, time := localTime, offset := offset }

def ofUtc (utcDate : Date) (utcTime : TimeOfDay) : DateTime := ofTimeOffset utcDate utcTime {}

def ofOffset (localDate : Date) (localTime : TimeOfDay) (offset : Seconds) : DateTime :=
  ofTimeOffset localDate localTime { offset := offset }

def ofZone (database : TimeZoneId → Option Info) (localDate : Date) (localTime : TimeOfDay)
    (timeZone : TimeZone) (occurrence : TimeOccurrenceInFold) : DateTime :=
  ofTimeOffset localDate localTime (timeZone.timeOffsetAtLocal database localDate localTime occurrence)

def timeZone (t : DateTime) : TimeZone :=
  let result :=
    if t.offset.isStaticOffset then TimeZone.ofOffset ⟨t.offset.offset⟩
    else TimeZone.ofId t.offset.zoneId
  { result with isLocalTime := t.offset.isLocalTime }

def toTimeZone (database : TimeZoneId → Option Info) (t : DateTime) (timeZone : TimeZone) :
    DateTime :=
  if !t.isValid then {}
  else { date := t.date, time := t.time, offset := timeZone.timeOffsetAtUtc database t.date t.time }

/-- The nanoseconds between the epoch and the point in time. -/
def instant (t : DateTime) : Int := t.date.days * cNanosecondsPerDay + t.time.nanoseconds.val

/-- The instants between the first and the last point in time of the calendar. -/
def InCalendar (instant : Int) : Prop :=
  0 ≤ instant ∧ instant < (cLastDay + 1) * cNanosecondsPerDay
  deriving Decidable

/-- The instant of a local date and time with an offset. -/
def localInstant (localDate : Date) (localTime : TimeOfDay) (offset : Seconds) : Int :=
  localDate.days * cNanosecondsPerDay + localTime.nanoseconds.val -
    offset.value.val * cNanosecondsPerSecond

section construction
variable {localDate : Date} {localTime : TimeOfDay} {offset : TimeOffset}

variable (localTime) in
/-- The offset is taken from the date and time, whose date stays within the calendar. -/
theorem ofTimeOffset_eq (h : localDate.isValid = true)
    (hoffset : -86400 < offset.offset.value.val ∧ offset.offset.value.val < 86400) :
    ∃ date time, ofTimeOffset localDate localTime offset = ⟨date, time, offset⟩ ∧
      date.isValid = true ∧
      date.days = max 0 (min (localInstant localDate localTime offset.offset / cNanosecondsPerDay)
        cLastDay) ∧
      time.nanoseconds.val =
        localInstant localDate localTime offset.offset % cNanosecondsPerDay := by
  have hnegated : offset.offset.negated.value.val = -offset.offset.value.val := by
    have heq := Value.negated_eq offset.offset.value
    rw [IntegerAmount.negated, heq, Value.clamp_of_represents]
    rw [int64_represents]
    omega
  obtain ⟨htime, hdays⟩ := localTime.addDurationWithWrap_val ⟨offset.offset.negated⟩
  rw [hnegated] at htime hdays
  obtain ⟨hvalid, hdate⟩ := Date.addedDays_days h
    (localTime.addDurationWithWrap ⟨offset.offset.negated⟩).2
  rw [hdays] at hdate
  refine ⟨_, _, ?_, hvalid, hdate.trans ?_, htime.trans ?_⟩
  · rw [ofTimeOffset, subtractOffset, if_neg (by simp [isValid, h])]
    simp only [hvalid]
    rfl
  · rw [localInstant, cNanosecondsPerDay_eq, cNanosecondsPerSecond]
    omega
  · rw [localInstant, cNanosecondsPerDay_eq, cNanosecondsPerSecond]
    omega

/-- The offset leads back to the local date and time. -/
theorem localDateTime_eq {date : Date} {time : TimeOfDay} (h : localDate.isValid = true)
    (hvalid : date.isValid = true)
    (hinstant : instant ⟨date, time, offset⟩ = localInstant localDate localTime offset.offset) :
    localDateTime ⟨date, time, offset⟩ = (localDate, localTime) := by
  obtain ⟨hlow, hhigh⟩ := Date.bounded_of_isValid h
  have htimes := localTime.bounded
  obtain ⟨htime, hdays⟩ := time.addDurationWithWrap_val ⟨offset.offset⟩
  obtain ⟨-, hdate⟩ := Date.addedDays_days hvalid (time.addDurationWithWrap ⟨offset.offset⟩).2
  simp only [instant, localInstant, cNanosecondsPerDay_eq, cNanosecondsPerSecond] at *
  have hback : date.addedDays (time.addDurationWithWrap ⟨offset.offset⟩).2 = localDate := by
    apply Date.ext
    omega
  have hwrapped : (time.addDurationWithWrap ⟨offset.offset⟩).1 = localTime := by
    apply TimeOfDay.ext
    apply Value.ext
    omega
  rw [localDateTime, if_neg (by simp [isValid, hvalid])]
  simp only [hback, hwrapped]

end construction

/-- A local date and time with an offset is its exact instant, or invalid when the instant is
outside of the calendar, unless the instant is outside: then the date saturates. -/
theorem ofTimeOffset_exact_iff (localDate : Date) (localTime : TimeOfDay) (offset : TimeOffset)
    (hoffset : -86400 < offset.offset.value.val ∧ offset.offset.value.val < 86400) :
    ((localDate.isValid = true → InCalendar (localInstant localDate localTime offset.offset) →
        (ofTimeOffset localDate localTime offset).isValid = true ∧
        (ofTimeOffset localDate localTime offset).instant =
          localInstant localDate localTime offset.offset ∧
        (ofTimeOffset localDate localTime offset).localDateTime = (localDate, localTime)) ∧
      (¬ (localDate.isValid = true ∧
          InCalendar (localInstant localDate localTime offset.offset)) →
        (ofTimeOffset localDate localTime offset).isValid = false)) ↔
    (localDate.isValid = true → InCalendar (localInstant localDate localTime offset.offset)) := by
  cases hdate : localDate.isValid with
  | false =>
    have hinvalid : (ofTimeOffset localDate localTime offset).isValid = false := by
      rw [ofTimeOffset, subtractOffset, if_pos (by simp [isValid, hdate])]
      exact hdate
    simp [hinvalid]
  | true =>
    obtain ⟨date, time, heq, hvalid, hdays, htime⟩ :=
      ofTimeOffset_eq localTime hdate hoffset
    have hresult : (ofTimeOffset localDate localTime offset).isValid = true := by
      rw [heq]
      exact hvalid
    constructor
    · intro ⟨_, houtside⟩ _
      by_contra hnot
      rw [houtside fun h => hnot h.2] at hresult
      cases hresult
    · intro hinside
      have hin := hinside rfl
      have hinstant : instant ⟨date, time, offset⟩ =
          localInstant localDate localTime offset.offset := by
        rw [instant, hdays, htime]
        rw [InCalendar, cNanosecondsPerDay_eq, cLastDay] at hin
        rw [cNanosecondsPerDay_eq, cLastDay]
        omega
      refine ⟨fun _ _ => ⟨hresult, ?_⟩, fun hnot => absurd ⟨rfl, hin⟩ hnot⟩
      rw [heq]
      exact ⟨hinstant, localDateTime_eq hdate hvalid hinstant⟩

theorem ofTimeOffset_exact_iff_leapDay :
    (ofTimeOffset { days := 730544 } .first { offset := ⟨.staticCast int64 3600⟩ }).isValid =
      true := by
  have hiff := ofTimeOffset_exact_iff { days := 730544 } .first
    { offset := ⟨.staticCast int64 3600⟩ } (by decide)
  exact ((hiff.mpr fun _ => by decide).1 (by decide) (by decide)).1

/-- The first moment of the calendar is before it with an offset of one hour. -/
theorem ofTimeOffset_outside :
    ¬ InCalendar (localInstant .first .first ⟨.staticCast int64 3600⟩) ∧
      (ofOffset .first .first ⟨.staticCast int64 3600⟩).isValid = true := by
  decide

end DateTime
end ErbslandCore.Time
