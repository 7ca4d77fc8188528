import BoringPanel.Lib.GoClock

/-!
# Timestamps of Go

Texts of `time.RFC3339`, as what is written in them. They say what a clock reads and how many minutes it is
ahead of UTC. A text is read back with the same reading (`parse_format`), if its year has four digits.
-/

namespace Go

/-- A text of `time.RFC3339`. -/
structure Timestamp where
  date : Calendar.Date
  hour : Int
  minute : Int
  second : Int
  nanosecond : Int
  /-- Minutes east of UTC, none for `Z`. -/
  zone : Option Int
deriving DecidableEq

/-- The texts that `time.Parse` accepts. -/
structure Timestamp.Readable (text : Timestamp) : Prop where
  year : 0 ≤ text.date.year ∧ text.date.year ≤ 9999
  month : 1 ≤ text.date.month ∧ text.date.month ≤ 12
  day : 1 ≤ text.date.day ∧ text.date.day ≤ Calendar.monthLength text.date.year text.date.month
  hour : 0 ≤ text.hour ∧ text.hour < 24
  minute : 0 ≤ text.minute ∧ text.minute < 60
  second : 0 ≤ text.second ∧ text.second < 60
  nanosecond : 0 ≤ text.nanosecond ∧ text.nanosecond < 10 ^ 9
  zone : (text.zone.getD 0).natAbs / 60 ≤ 24

instance (text : Timestamp) : Decidable text.Readable :=
  decidable_of_iff ((0 ≤ text.date.year ∧ text.date.year ≤ 9999) ∧
      (1 ≤ text.date.month ∧ text.date.month ≤ 12) ∧
      (1 ≤ text.date.day ∧ text.date.day ≤ Calendar.monthLength text.date.year text.date.month) ∧
      (0 ≤ text.hour ∧ text.hour < 24) ∧ (0 ≤ text.minute ∧ text.minute < 60) ∧
      (0 ≤ text.second ∧ text.second < 60) ∧ (0 ≤ text.nanosecond ∧ text.nanosecond < 10 ^ 9) ∧
      (text.zone.getD 0).natAbs / 60 ≤ 24)
    ⟨fun ⟨h₁, h₂, h₃, h₄, h₅, h₆, h₇, h₈⟩ => ⟨h₁, h₂, h₃, h₄, h₅, h₆, h₇, h₈⟩,
      fun ⟨h₁, h₂, h₃, h₄, h₅, h₆, h₇, h₈⟩ => ⟨h₁, h₂, h₃, h₄, h₅, h₆, h₇, h₈⟩⟩

/-- `time.Parse(time.RFC3339, text)`. It may be in the local zone instead, with the same reading. -/
def parse (text : Timestamp) : Option ZonedTime :=
  if text.Readable then
    some (Go.date text.date text.hour text.minute text.second text.nanosecond
      (.fixed (60 * text.zone.getD 0)))
  else none

/-- `Time.UnmarshalJSON`, where the offset is of less than a day. -/
def Timestamp.unmarshal (text : Timestamp) : Option ZonedTime :=
  if (text.zone.getD 0).natAbs / 60 < 24 then parse text else none

namespace ZonedTime

/-- What is written for the offset: its seconds are left out. -/
def zone (t : ZonedTime) : Option Int :=
  if t.loc.offset t.time = 0 then none else some ((t.loc.offset t.time).tdiv 60)

/-- `t.Format(time.RFC3339)`, without a fraction of the second. -/
def format (t : ZonedTime) : Timestamp := ⟨t.date, t.hour, t.minute, t.second, 0, t.zone⟩

/-- The year has four digits. -/
def HasYear (t : ZonedTime) : Prop := 0 ≤ t.date.year ∧ t.date.year ≤ 9999

instance (t : ZonedTime) : Decidable t.HasYear := inferInstanceAs (Decidable (_ ∧ _))

/-- `t.MarshalJSON()`, with the fraction of the second. -/
def marshal (t : ZonedTime) : Option Timestamp :=
  if t.HasYear ∧ (t.zone.getD 0).natAbs / 60 < 24 then
    some ⟨t.date, t.hour, t.minute, t.second, t.nanosecond, t.zone⟩
  else none

/-- `time.Date` with the fields of a time, in a location. -/
def inZone (t : ZonedTime) (loc : Location) : ZonedTime :=
  Go.date t.date t.hour t.minute t.second t.nanosecond loc

theorem inZone_eq (t : ZonedTime) (loc : Location) : t.inZone loc = ⟨loc.instant t.wall, loc⟩ := by
  rw [inZone, Go.date, reading_self]

theorem inZone_congr {t u : ZonedTime} (h : t.wall = u.wall) (loc : Location) : t.inZone loc = u.inZone loc := by
  rw [inZone_eq, inZone_eq, h]

/-! ### Reading back -/

theorem hour_bounds (t : ZonedTime) : 0 ≤ t.hour ∧ t.hour < 24 := by
  have h := timeOfDay_bounds t.wall
  unfold hour hourNanos minuteNanos
  rw [dayNanos_eq] at h
  omega

theorem minute_bounds (t : ZonedTime) : 0 ≤ t.minute ∧ t.minute < 60 := by
  unfold minute
  omega

theorem second_bounds (t : ZonedTime) : 0 ≤ t.second ∧ t.second < 60 := by
  unfold second
  omega

/-- An offset of less than a day. -/
theorem zone_lt {t : ZonedTime} (h : (t.loc.offset t.time).natAbs < 86400) : (t.zone.getD 0).natAbs / 60 < 24 := by
  unfold zone
  split
  · decide
  · rw [Option.getD_some, Int.natAbs_tdiv]
    show (t.loc.offset t.time).natAbs / 60 / 60 < 24
    omega

theorem format_readable_iff {t : ZonedTime} (h : (t.loc.offset t.time).natAbs < 86400) :
    t.format.Readable ↔ t.HasYear := by
  have hvalid := Calendar.ofDays_valid (dayOf t.wall)
  have hnanosecond : 0 ≤ (0 : Int) ∧ (0 : Int) < 10 ^ 9 := by decide
  exact ⟨fun h => h.year, fun hyear => ⟨hyear, hvalid.month, hvalid.day, t.hour_bounds, t.minute_bounds,
    t.second_bounds, hnanosecond, (zone_lt h).le⟩⟩

variable {t : ZonedTime}

/-- What a text says that was written of a time with whole seconds. -/
theorem wall_of_parse_format (hwhole : t.nanosecond = 0) {u : ZonedTime} (h : parse t.format = some u) :
    u.wall = t.wall := by
  unfold parse at h
  split at h
  · obtain rfl := Option.some.inj h
    have hreading := reading_self t
    rw [hwhole] at hreading
    unfold Go.date wall
    dsimp only
    rw [Location.wall_fixed]
    show reading t.date t.hour t.minute t.second 0 - _ + _ = t.wall
    rw [hreading]
    omega
  · cases h

/-- **A text is read back with the same reading.** -/
theorem parse_format (hoffset : (t.loc.offset t.time).natAbs < 86400) (hwhole : t.nanosecond = 0)
    (loc : Location) :
    (parse t.format).map (·.inZone loc) = if t.HasYear then some (t.inZone loc) else none := by
  by_cases hyear : t.HasYear
  · obtain ⟨u, hu⟩ : ∃ u, parse t.format = some u :=
      ⟨_, if_pos ((format_readable_iff hoffset).mpr hyear)⟩
    rw [if_pos hyear, hu, Option.map_some, inZone_congr (wall_of_parse_format hwhole hu)]
  · have hnone : parse t.format = none := if_neg (mt (format_readable_iff hoffset).mp hyear)
    rw [if_neg hyear, hnone, Option.map_none]

/-- Without a fraction of the second, both texts are the same. -/
theorem marshal_eq (hoffset : (t.loc.offset t.time).natAbs < 86400) (hwhole : t.nanosecond = 0) :
    t.marshal = if t.HasYear then some t.format else none := by
  unfold marshal format
  rw [hwhole]
  simp only [zone_lt hoffset, and_true]

theorem unmarshal_format (hoffset : (t.loc.offset t.time).natAbs < 86400) (hwhole : t.nanosecond = 0)
    (hyear : t.HasYear) : ∃ u, t.format.unmarshal = some u ∧ u.wall = t.wall ∧
      (u.loc.offset u.time).natAbs < 86400 := by
  have hreadable := (format_readable_iff hoffset).mpr hyear
  have hparse : parse t.format = some _ := if_pos hreadable
  have hzone : (t.format.zone.getD 0).natAbs / 60 < 24 := zone_lt hoffset
  refine ⟨_, (if_pos hzone).trans hparse, wall_of_parse_format hwhole hparse, ?_⟩
  show (60 * t.format.zone.getD 0).natAbs < 86400
  rw [Int.natAbs_mul]
  show 60 * (t.format.zone.getD 0).natAbs < 86400
  omega

end ZonedTime

/-- A location of the database: its offsets are less than a day, and there are no changes of the clock in
the first centuries. -/
structure Location.FromDatabase (loc : Location) : Prop where
  offset_lt : ∀ t, (loc.offset t).natAbs < 86400
  offset_early : ∀ t : Time, t.nanos < 2 ^ 64 → loc.offset t = loc.offset .zero

namespace Location.FromDatabase

variable {loc : Location} (h : loc.FromDatabase)
include h

/-- The clock has gone past the beginning of the year 1. -/
theorem wall_instant_zero : loc.wall (loc.instant 0) = 0 := by
  have hoffset := h.offset_lt .zero
  -- the instant that has this reading with the first offset
  have hfirst : loc.wall ⟨-(loc.offset .zero * 10 ^ 9)⟩ = 0 := by
    have hbefore : -(loc.offset .zero * 10 ^ 9) < 2 ^ 64 := by omega
    have hearly := h.offset_early ⟨_⟩ hbefore
    show -(loc.offset .zero * 10 ^ 9) + loc.offset ⟨_⟩ * 10 ^ 9 = 0
    rw [hearly]
    omega
  have hwall := loc.wall_instant ⟨-(loc.offset .zero * 10 ^ 9)⟩
  rwa [hfirst] at hwall

/-- If it reads zero at the zero time, it is that of UTC in the first centuries. -/
theorem offset_eq_zero (hinstant : loc.instant 0 = .zero) {t : Time} (ht : t.nanos < 2 ^ 64) : loc.offset t = 0 := by
  have hwall := h.wall_instant_zero
  rw [hinstant] at hwall
  unfold wall at hwall
  have hzero : Time.zero.nanos = 0 := rfl
  rw [h.offset_early t ht]
  omega

end Location.FromDatabase

end Go
