import BoringPanel.Lib.Calendar

/-!
# Instants, durations and clocks of Go

A `time.Time` without its clock reading and location: the nanoseconds since the zero time, the beginning
of the year 1. A `time.Duration` is an `int64`, so differences are cut off (`Time.sub`). Every instant
that `time.Unix(0, n)` gives is more than a duration after the zero time (`Time.duration_lt_unix`).

A `time.Time` with its location (`ZonedTime`): the clock there is ahead of UTC by an offset that may change.
A reading of a clock is the number of nanoseconds that it would have gone since the beginning of the year 1,
and `time.Date` finds an instant with a reading (`Location.instant`). Where clocks are turned back, a
reading has two instants, and all that is known is that the one found has it (`Location.wall_instant`).
-/

namespace Go

/-- A `time.Duration`, in nanoseconds. -/
abbrev Duration := Int64

/-- A `time.Time`, in nanoseconds since the zero time. -/
structure Time where
  nanos : Int
deriving DecidableEq, Repr

namespace Time

def zero : Time := ⟨0⟩

def isZero (t : Time) : Bool := t.nanos = 0

def after (t u : Time) : Bool := u.nanos < t.nanos

def before (t u : Time) : Bool := t.nanos < u.nanos

def add (t : Time) (d : Duration) : Time := ⟨t.nanos + d.toInt⟩

/-- `t.Sub(u)`, in nanoseconds. -/
def sub (t u : Time) : Int := max (-2 ^ 63) (min (t.nanos - u.nanos) (2 ^ 63 - 1))

/-- January 1, 1970. -/
def unixEpoch : Int := 62135596800 * 10 ^ 9

/-- `time.Unix(0, n)`. -/
def unix (n : Int64) : Time := ⟨unixEpoch + n.toInt⟩

def unixMilli (t : Time) : Int := (t.nanos - unixEpoch) / 10 ^ 6

@[simp] theorem sub_self (t : Time) : t.sub t = 0 := by
  show max (-2 ^ 63) (min (t.nanos - t.nanos) (2 ^ 63 - 1)) = 0
  omega

theorem duration_lt_unix (d : Duration) (n : Int64) : d.toInt < (unix n).nanos := by
  have hd := d.toInt_lt
  have hn := n.le_toInt
  show d.toInt < unixEpoch + n.toInt
  unfold unixEpoch
  omega

theorem isZero_unix (n : Int64) : (unix n).isZero = false := by
  have h := duration_lt_unix 0 n
  have h0 : (0 : Int64).toInt = 0 := rfl
  simp only [isZero, decide_eq_false_iff_not]
  omega

end Time

end Go

namespace Go

/-- A `*time.Location`. -/
structure Location where
  /-- Seconds east of UTC. -/
  offset : Time → Int
  /-- An instant at which the clock has a reading. -/
  instant : Int → Time
  /-- Of the instants with the reading, if there is one, it finds one. -/
  offset_instant : ∀ t, (instant (t.nanos + offset t * 10 ^ 9)).nanos +
    offset (instant (t.nanos + offset t * 10 ^ 9)) * 10 ^ 9 = t.nanos + offset t * 10 ^ 9

namespace Location

/-- What the clock reads. -/
def wall (loc : Location) (t : Time) : Int := t.nanos + loc.offset t * 10 ^ 9

theorem wall_instant (loc : Location) (t : Time) : loc.wall (loc.instant (loc.wall t)) = loc.wall t :=
  loc.offset_instant t

/-- `time.FixedZone`. -/
def fixed (seconds : Int) : Location where
  offset _ := seconds
  instant wall := ⟨wall - seconds * 10 ^ 9⟩
  offset_instant t := by
    show t.nanos + seconds * 10 ^ 9 - seconds * 10 ^ 9 + seconds * 10 ^ 9 = t.nanos + seconds * 10 ^ 9
    omega

theorem wall_fixed (seconds : Int) (t : Time) : (fixed seconds).wall t = t.nanos + seconds * 10 ^ 9 := rfl

end Location

/-! ### Readings -/

def minuteNanos : Int := 60 * 10 ^ 9

def hourNanos : Int := 60 * minuteNanos

def dayNanos : Int := 24 * hourNanos

/-- The day of a reading. -/
def dayOf (wall : Int) : Int := wall / dayNanos

/-- What of the day has gone. -/
def timeOfDay (wall : Int) : Int := wall % dayNanos

theorem dayNanos_eq : dayNanos = 86400000000000 := rfl

theorem timeOfDay_bounds (wall : Int) : 0 ≤ timeOfDay wall ∧ timeOfDay wall < dayNanos :=
  ⟨Int.emod_nonneg _ (by decide), Int.emod_lt_of_pos _ (by decide)⟩

theorem dayOf_add_timeOfDay (wall : Int) : dayOf wall * dayNanos + timeOfDay wall = wall :=
  Int.ediv_mul_add_emod wall dayNanos

/-- A `time.Time`. -/
structure ZonedTime where
  time : Time
  loc : Location

namespace ZonedTime

/-- The zero time is in UTC. -/
def zero : ZonedTime := ⟨Time.zero, .fixed 0⟩

def isZero (t : ZonedTime) : Bool := t.time.isZero

def wall (t : ZonedTime) : Int := t.loc.wall t.time

/-- `t.Add(d)` -/
def add (t : ZonedTime) (d : Duration) : ZonedTime := ⟨t.time.add d, t.loc⟩

/-- `t.Date()` -/
def date (t : ZonedTime) : Calendar.Date := .ofDays (dayOf t.wall)

def hour (t : ZonedTime) : Int := timeOfDay t.wall / hourNanos

def minute (t : ZonedTime) : Int := timeOfDay t.wall / minuteNanos % 60

def second (t : ZonedTime) : Int := timeOfDay t.wall / 10 ^ 9 % 60

def nanosecond (t : ZonedTime) : Int := timeOfDay t.wall % 10 ^ 9

/-- `t.Weekday()`: January 1 of the year 1 was a Monday. -/
def weekday (t : ZonedTime) : Int := (dayOf t.wall + 1) % 7

end ZonedTime

/-- The reading that `time.Date` looks for. -/
def reading (d : Calendar.Date) (hour minute second nanosecond : Int) : Int :=
  d.toDays * dayNanos + hour * hourNanos + minute * minuteNanos + second * 10 ^ 9 + nanosecond

/-- `time.Date` -/
def date (d : Calendar.Date) (hour minute second nanosecond : Int) (loc : Location) : ZonedTime :=
  ⟨loc.instant (reading d hour minute second nanosecond), loc⟩

/-- The reading that has all of the fields of a clock. -/
theorem reading_self (t : ZonedTime) :
    reading t.date t.hour t.minute t.second t.nanosecond = t.wall := by
  have hday : t.date.toDays = dayOf t.wall := Calendar.toDays_ofDays _
  have hwall := dayOf_add_timeOfDay t.wall
  have hbounds := timeOfDay_bounds t.wall
  unfold reading ZonedTime.hour ZonedTime.minute ZonedTime.second ZonedTime.nanosecond
  rw [hday]
  unfold hourNanos minuteNanos
  omega

/-- The hour and the minute, without the seconds. -/
def cutSeconds (timeOfDay : Int) : Int := timeOfDay - timeOfDay % minuteNanos

theorem hour_minute (t : ZonedTime) :
    t.hour * hourNanos + t.minute * minuteNanos = cutSeconds (timeOfDay t.wall) := by
  unfold ZonedTime.hour ZonedTime.minute cutSeconds hourNanos minuteNanos
  omega

end Go
