import Mathlib

/-!
# Instants and calendar times

`Instant` is the time since 1980-01-01 00:00, a `Duration`: whole seconds and the
nanoseconds below them.  `year_mount_day_hour_min_second` splits it with a
calendar of 30-day months and 12-month years, and `UtcTime` holds the split.

The split of the day is wrong: the day of the month is `days - mounts / 30`
where `days - mounts * 30` is meant (`TimeTicks::utc` in the kernel makes the same
split correctly).  From the 32nd day on the day of the month is 32 or more.  The
hour, minute and second are right.
-/

namespace FtlOs

/-- `Instant`: a `Duration` since 1980-01-01 00:00. -/
structure Instant where
  secs : Nat
  nanos : Nat
  nanos_lt : nanos < 1000000000
  deriving DecidableEq

namespace Instant

/-- The derived order of `Duration`: whole seconds first, then nanoseconds. -/
def key (t : Instant) : Nat ×ₗ Nat := toLex (t.secs, t.nanos)

theorem key_injective : Function.Injective key := by
  rintro ⟨secs, nanos, _⟩ ⟨secs', nanos', _⟩ same
  have pair : (secs, nanos) = (secs', nanos') := same
  cases pair
  rfl

/-- `Instant` is ordered as its `Duration`. -/
instance : LinearOrder Instant := LinearOrder.lift' key key_injective

/-- `Instant::year_mount_day_hour_min_second`. -/
def yearMountDayHourMinSecond (t : Instant) : Nat × Nat × Nat × Nat × Nat × Nat :=
  let seconds := t.secs
  let mins := seconds / 60
  let hours := mins / 60
  let days := hours / 24
  let mounts := days / 30
  let years := mounts / 12
  (years + 1980, mounts - years * 12, days - mounts / 30, hours - days * 24, mins - hours * 60,
    seconds - mins * 60)

/-- The hour, minute and second are remainders. -/
theorem hourMinSecond_eq (t : Instant) :
    (t.yearMountDayHourMinSecond).2.2.2 =
      (t.secs / 3600 % 24, t.secs / 60 % 60, t.secs % 60) := by
  simp only [yearMountDayHourMinSecond, Nat.div_div_eq_div_mul, Prod.mk.injEq]
  refine ⟨?_, ?_, ?_⟩ <;> omega

/-- The day of the month is the day count less one in every 900. -/
theorem day_eq (t : Instant) :
    (t.yearMountDayHourMinSecond).2.2.1 = t.secs / 86400 - t.secs / 86400 / 900 := by
  simp only [yearMountDayHourMinSecond, Nat.div_div_eq_div_mul]

/-- From the 32nd day on, the day of the month is 32 or more. -/
theorem day_ge_of_late (t : Instant) (late : 32 * 86400 ≤ t.secs) :
    32 ≤ (t.yearMountDayHourMinSecond).2.2.1 := by
  rw [day_eq]
  omega

/-! ## `Duration` arithmetic

The `+` of `Duration` is `checked_add(..).expect(..)`: it panics, in a release build
too, when the seconds overflow `u64`.  `checkedAdd` is `none` there. -/

/-- `Instant::BASE`. -/
def BASE : Instant := ⟨0, 0, by norm_num⟩

/-- `Instant::MAX`, which is `Duration::MAX`. -/
def MAX : Instant := ⟨2 ^ 64 - 1, 999999999, by norm_num⟩

/-- `Duration::checked_add`: the seconds add first, then the carry of the nanoseconds. -/
def checkedAdd (a b : Instant) : Option Instant :=
  if a.secs + b.secs < 2 ^ 64 then
    if carry : 1000000000 ≤ a.nanos + b.nanos then
      if a.secs + b.secs + 1 < 2 ^ 64 then
        some ⟨a.secs + b.secs + 1, a.nanos + b.nanos - 1000000000, by
          have := a.nanos_lt
          have := b.nanos_lt
          omega⟩
      else none
    else some ⟨a.secs + b.secs, a.nanos + b.nanos, by omega⟩
  else none

/-- `Duration::from_nanos`. -/
def fromNanos (n : Nat) : Instant := ⟨n / 1000000000, n % 1000000000, Nat.mod_lt _ (by norm_num)⟩

/-- `Duration::from_secs`. -/
def fromSecs (n : Nat) : Instant := ⟨n, 0, by norm_num⟩

/-- A sum whose seconds reach `2^64` overflows. -/
theorem checkedAdd_eq_none {a b : Instant} (overflow : 2 ^ 64 ≤ a.secs + b.secs) :
    a.checkedAdd b = none := by
  simp only [checkedAdd, if_neg (Nat.not_lt.mpr overflow)]

/-- The seconds of a sum are at least those of each side. -/
theorem le_secs_of_checkedAdd {a b c : Instant} (sum : a.checkedAdd b = some c) :
    a.secs + b.secs ≤ c.secs := by
  unfold checkedAdd at sum
  split_ifs at sum <;> cases sum
  · simp only
    omega
  · simp only
    omega

end Instant

/-- `TimeSpec`, as a user passes it. -/
structure TimeSpec where
  tvSec : UInt64
  tvNsec : UInt64
  deriving DecidableEq, Repr

namespace TimeSpec

/-- `TimeSpec::as_duration`: `from_nanos(tv_nsec) + from_secs(tv_sec)`, which panics
on overflow. -/
def asDuration (ts : TimeSpec) : Option Instant :=
  (Instant.fromNanos ts.tvNsec.toNat).checkedAdd (Instant.fromSecs ts.tvSec.toNat)

/-- `TimeSpec::as_instant`: `Instant::BASE + self.as_duration()`. -/
def asInstant (ts : TimeSpec) : Option Instant := ts.asDuration.bind Instant.BASE.checkedAdd

/-- Adding a duration that came from a `TimeSpec` to an instant overflows once the
instant's seconds and `tv_sec` reach `2^64`. -/
theorem asDuration_bind_checkedAdd_eq_none (ts : TimeSpec) (now : Instant)
    (overflow : 2 ^ 64 ≤ now.secs + ts.tvSec.toNat) :
    ts.asDuration.bind now.checkedAdd = none := by
  cases dur : ts.asDuration with
  | none => rfl
  | some d =>
    -- the duration has at least `tv_sec` seconds
    have atLeast : ts.tvSec.toNat ≤ d.secs := by
      have sum := Instant.le_secs_of_checkedAdd dur
      simp only [Instant.fromSecs] at sum
      omega
    exact Instant.checkedAdd_eq_none (by omega)

end TimeSpec

/-- `UtcTime`: a calendar date, a time of day and the nanoseconds. -/
structure UtcTime where
  ymd : Nat × Nat × Nat
  hms : Nat × Nat × Nat
  nano : Nat
  deriving DecidableEq, Repr

namespace UtcTime

/-- `UtcTime::base`: 1980, every other field zero. -/
def base : UtcTime := ⟨(1980, 0, 0), (0, 0, 0), 0⟩

/-- `UtcTime::set_ymd`: the date word of a FAT entry, 7 bits of year after 1980, 4 of
month and 5 of day. -/
def setYmd (t : UtcTime) (ymd : UInt16) : UtcTime :=
  { t with ymd := ((ymd.toNat >>> 9) + 1980, ymd.toNat >>> 5 &&& ((1 <<< 4) - 1),
      ymd.toNat &&& ((1 <<< 5) - 1)) }

/-- `UtcTime::set_hms`: the time word, 5 bits of hour, 6 of minute and 5 of
half-seconds, each clamped to its range. -/
def setHms (t : UtcTime) (hms : UInt16) : UtcTime :=
  { t with hms := (min (hms.toNat >>> 11) 23, min (hms.toNat >>> 5 &&& ((1 <<< 6) - 1)) 59,
      min ((hms.toNat &&& ((1 <<< 5) - 1)) * 2) 59) }

/-- `UtcTime::set_ms`. -/
def setMs (t : UtcTime) (ms : UInt8) : UtcTime := { t with nano := ms.toNat * 1000 * 1000 }

/-- `UtcTime::from_instant`. -/
def fromInstant (now : Instant) : UtcTime :=
  let (y, mo, d, h, mi, s) := now.yearMountDayHourMinSecond
  ⟨(y, mo, d), (h, mi, s), now.nanos⟩

@[simp] theorem fromInstant_hms (now : Instant) :
    (fromInstant now).hms = (now.yearMountDayHourMinSecond).2.2.2 := rfl

@[simp] theorem fromInstant_ymd (now : Instant) :
    (fromInstant now).ymd = ((now.yearMountDayHourMinSecond).1, (now.yearMountDayHourMinSecond).2.1,
      (now.yearMountDayHourMinSecond).2.2.1) := rfl

end UtcTime

end FtlOs
