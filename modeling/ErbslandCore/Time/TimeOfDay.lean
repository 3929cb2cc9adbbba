import ErbslandCore.Time.TimeAmounts
import ErbslandCore.Time.Timestamp

namespace ErbslandCore.Time
open Math NativeInteger Amount
set_option autoImplicit true

/-- The first and the last nanosecond of a day. -/
def firstNanosecond : SatInt64 := .zero int64

def lastNanosecond : SatInt64 := ⟨cNanosecondsPerDay - 1, by decide⟩

/-- A time of day (the class `Time`), in nanoseconds since midnight. -/
@[ext] structure TimeOfDay where
  nanoseconds : SatInt64
  bounded : 0 ≤ nanoseconds.val ∧ nanoseconds.val < cNanosecondsPerDay

theorem cNanosecondsPerDay_eq : cNanosecondsPerDay = 86400000000000 := rfl

/-- Numbers of nanoseconds are wrapped into a day by floored division. -/
theorem wrappedAndCount_day (value : SatInt64) :
    (value.wrappedAndCount firstNanosecond lastNanosecond).1.val =
        value.val % cNanosecondsPerDay ∧
      (value.wrappedAndCount firstNanosecond lastNanosecond).2.val =
        value.val / cNanosecondsPerDay := by
  obtain ⟨hvalue, hcount⟩ := Value.wrappedAndCount_eq value firstNanosecond lastNanosecond
    (n := 86400000000000) rfl (by decide) (by decide)
  have hzero : firstNanosecond.val = 0 := rfl
  rw [hzero, Int.zero_add, Int.sub_zero] at hvalue
  rw [hzero, Int.sub_zero] at hcount
  have hfits : int64.Represents (value.val / (86400000000000 : Nat)) := by
    have hval := int64_represents.mp value.represents
    rw [int64_represents]
    omega
  rw [hvalue, hcount, Value.clamp_of_represents hfits]
  exact ⟨rfl, rfl⟩

namespace TimeOfDay

def first : TimeOfDay := ⟨firstNanosecond, by decide⟩

def last : TimeOfDay := ⟨lastNanosecond, by decide⟩

/-- Add a delta: the wrapped time and the number of days crossed. -/
def addWithWrap (t : TimeOfDay) (delta : TimeDelta) : TimeOfDay × Days :=
  let sum := t.nanoseconds.added delta.nanoseconds.value
  (⟨(sum.wrappedAndCount firstNanosecond lastNanosecond).1, by
      rw [(wrappedAndCount_day sum).1]
      exact ⟨Int.emod_nonneg _ (by decide), Int.emod_lt_of_pos _ (by decide)⟩⟩,
    ⟨(sum.wrappedAndCount firstNanosecond lastNanosecond).2⟩)

def addDurationWithWrap (t : TimeOfDay) (duration : Duration) : TimeOfDay × Days :=
  let (days, nanoseconds) := duration.toDaysAndNanoseconds
  let (time, more) := t.addWithWrap ⟨nanoseconds⟩
  (time, days.add more)

/-- The time and the days are those of the sum, which saturates above. -/
theorem addWithWrap_val (t : TimeOfDay) (delta : TimeDelta) :
    (t.addWithWrap delta).1.nanoseconds.val =
        min (t.nanoseconds.val + delta.nanoseconds.value.val) int64.maximum %
          cNanosecondsPerDay ∧
      (t.addWithWrap delta).2.value.val =
        min (t.nanoseconds.val + delta.nanoseconds.value.val) int64.maximum /
          cNanosecondsPerDay := by
  have hlow := (int64_represents.mp delta.nanoseconds.value.represents).1
  have hclamp : (t.nanoseconds.added delta.nanoseconds.value).val =
      min (t.nanoseconds.val + delta.nanoseconds.value.val) int64.maximum := by
    have hpos := t.bounded.1
    rw [Value.added_eq, Value.clamp_val, int64_minimum, int64_maximum]
    omega
  rw [← hclamp]
  exact wrappedAndCount_day _

/-- A delta of less than a day is added exactly. -/
theorem addWithWrap_small (t : TimeOfDay) (delta : TimeDelta)
    (h : delta.nanoseconds.value.val < cNanosecondsPerDay) :
    (t.addWithWrap delta).1.nanoseconds.val =
        (t.nanoseconds.val + delta.nanoseconds.value.val) % cNanosecondsPerDay ∧
      (t.addWithWrap delta).2.value.val =
        (t.nanoseconds.val + delta.nanoseconds.value.val) / cNanosecondsPerDay := by
  have hexact : min (t.nanoseconds.val + delta.nanoseconds.value.val) int64.maximum =
      t.nanoseconds.val + delta.nanoseconds.value.val := by
    have hbound := t.bounded
    rw [cNanosecondsPerDay_eq] at h hbound
    rw [int64_maximum]
    omega
  rw [← hexact]
  exact t.addWithWrap_val delta

theorem toDaysAndNanoseconds_val (duration : Duration) :
    duration.toDaysAndNanoseconds.1.value.val = duration.seconds.value.val.tdiv 86400 ∧
      duration.toDaysAndNanoseconds.2.value.val =
        duration.seconds.value.val.tmod 86400 * 1000000000 := by
  obtain ⟨hdays, hrest⟩ := IntegerAmount.extract_eq duration.seconds (whole 86400 whole_day) (n := 86400)
    (by decide) (by decide)
  rw [Nat.cast_ofNat] at hdays hrest
  have hlow := Int.lt_tmod_of_pos duration.seconds.value.val (show (0 : Int) < 86400 by decide)
  have hhigh := Int.tmod_lt_of_pos duration.seconds.value.val (show (0 : Int) < 86400 by decide)
  have hfits : int64.Represents
      ((duration.seconds.extract (whole 86400 whole_day)).2.value.val * (1000000000 : Nat)) := by
    rw [hrest, int64_represents]
    omega
  have hconverted : (IntegerAmount.converted _ nano).value.val = _ :=
    IntegerAmount.converted_val (by decide) (by decide) hfits
  rw [hrest] at hconverted
  exact ⟨hdays, hconverted⟩

/-- A duration is split into days before the rest of a day is added. -/
theorem addDurationWithWrap_val (t : TimeOfDay) (duration : Duration) :
    (t.addDurationWithWrap duration).1.nanoseconds.val =
        (t.nanoseconds.val + duration.seconds.value.val * cNanosecondsPerSecond) %
          cNanosecondsPerDay ∧
      (t.addDurationWithWrap duration).2.value.val =
        (t.nanoseconds.val + duration.seconds.value.val * cNanosecondsPerSecond) /
          cNanosecondsPerDay := by
  obtain ⟨hdays, hrest⟩ := toDaysAndNanoseconds_val duration
  have hsplit := Int.mul_tdiv_add_tmod duration.seconds.value.val 86400
  have hlow := Int.lt_tmod_of_pos duration.seconds.value.val (show (0 : Int) < 86400 by decide)
  have hhigh := Int.tmod_lt_of_pos duration.seconds.value.val (show (0 : Int) < 86400 by decide)
  have hseconds := int64_represents.mp duration.seconds.value.represents
  have hbound := t.bounded
  rw [cNanosecondsPerDay_eq] at hbound
  have hsmall : duration.toDaysAndNanoseconds.2.value.val < cNanosecondsPerDay := by
    rw [hrest, cNanosecondsPerDay_eq]
    omega
  obtain ⟨htime, hmore⟩ := t.addWithWrap_small ⟨duration.toDaysAndNanoseconds.2⟩ hsmall
  rw [hrest, cNanosecondsPerDay_eq] at htime hmore
  have hfits : int64.Represents (duration.toDaysAndNanoseconds.1.value.val +
      (t.addWithWrap ⟨duration.toDaysAndNanoseconds.2⟩).2.value.val) := by
    rw [hdays, hmore, int64_represents]
    omega
  rw [cNanosecondsPerDay_eq, cNanosecondsPerSecond]
  constructor
  · rw [addDurationWithWrap, htime]
    omega
  · have hsum := Value.added_val _ _ hfits
    rw [hdays, hmore] at hsum
    exact hsum.trans (by omega)

/-- The time and the days are those of the exact sum unless the sum exceeds the 64-bit range;
durations are always added exactly. -/
theorem addWithWrap_exact_iff (t : TimeOfDay) :
    (∀ delta : TimeDelta,
      ((t.addWithWrap delta).1.nanoseconds.val =
          (t.nanoseconds.val + delta.nanoseconds.value.val) % cNanosecondsPerDay ∧
        (t.addWithWrap delta).2.value.val =
          (t.nanoseconds.val + delta.nanoseconds.value.val) / cNanosecondsPerDay) ↔
      t.nanoseconds.val + delta.nanoseconds.value.val ≤ int64.maximum) ∧
    ∀ duration : Duration,
      (t.addDurationWithWrap duration).1.nanoseconds.val =
          (t.nanoseconds.val + duration.seconds.value.val * cNanosecondsPerSecond) %
            cNanosecondsPerDay ∧
        (t.addDurationWithWrap duration).2.value.val =
          (t.nanoseconds.val + duration.seconds.value.val * cNanosecondsPerSecond) /
            cNanosecondsPerDay := by
  refine ⟨fun delta => ?_, t.addDurationWithWrap_val⟩
  obtain ⟨htime, hdays⟩ := t.addWithWrap_val delta
  rw [htime, hdays, cNanosecondsPerDay_eq]
  constructor
  · rintro ⟨hmod, hdiv⟩
    omega
  · intro hle
    rw [min_eq_left hle]
    exact ⟨rfl, rfl⟩

/-- The last nanosecond of a day and the largest delta. -/
theorem addWithWrap_inexact :
    ((last.addWithWrap ⟨⟨.highest int64⟩⟩).1.nanoseconds.val,
        (last.addWithWrap ⟨⟨.highest int64⟩⟩).2.value.val) ≠
      ((last.nanoseconds.val + (Value.highest int64).val) % cNanosecondsPerDay,
        (last.nanoseconds.val + (Value.highest int64).val) / cNanosecondsPerDay) := by
  decide

end TimeOfDay
end ErbslandCore.Time
