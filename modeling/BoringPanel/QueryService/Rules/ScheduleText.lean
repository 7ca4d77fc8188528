import BoringPanel.Lib.GoTimestamp
import BoringPanel.QueryService.Rules.Maintenance

/-!
# Schedules as JSON

`Schedule.MarshalJSON` and `UnmarshalJSON` read the clock fields of each time again, in the time zone of the
schedule. So a time comes back as the one that `time.Date` finds by its reading. A start or an end that is not
set is written as the beginning of the year 1 in UTC, and is set when it comes back in a zone whose clock was
not that of UTC. Otherwise the schedule that comes back means the same and has the same JSON
(`roundTrips_iff`).
-/

namespace QueryService
namespace Rules

/-! ### What the code does -/

/-- The JSON of a recurrence. The text of a duration says all of it. -/
structure RecurrenceJSON where
  startTime : Go.Timestamp
  endTime : Option Go.Timestamp
  duration : Go.Duration
  repeatType : String
  repeatOn : Option (List String)
deriving DecidableEq

/-- The JSON of a schedule; an empty text is no time. -/
structure ScheduleJSON where
  timezone : String
  startTime : Option Go.Timestamp
  endTime : Option Go.Timestamp
  recurrence : Option RecurrenceJSON
deriving DecidableEq

/-- What is done with what a pointer points to. -/
def pointer {α β : Type} (f : α → Option β) : Option α → Option (Option β)
  | none => some none
  | some a => (f a).map some

/-- All times of a recurrence, read in a location. -/
def Recurrence.inZone (r : Recurrence) (loc : Go.Location) : Recurrence :=
  { r with startTime := r.startTime.inZone loc, endTime := r.endTime.map (·.inZone loc) }

/-- `json.Marshal` -/
def Recurrence.marshal (r : Recurrence) : Option RecurrenceJSON := do
  let startTime ← r.startTime.marshal
  let endTime ← pointer Go.ZonedTime.marshal r.endTime
  some ⟨startTime, endTime, r.duration, r.repeatType, r.repeatOn⟩

/-- A time that is set, read in a location. -/
def boundIn (loc : Go.Location) (t : Go.ZonedTime) : Go.ZonedTime :=
  if t.isZero then .zero else t.inZone loc

section Json

variable (loadLocation : String → Option Go.Location)

/-- `Schedule.MarshalJSON` -/
def Schedule.marshalJSON (s : Schedule) : Option ScheduleJSON := do
  let loc ← loadLocation s.timezone
  let recurrence ← pointer (fun r : Recurrence => (r.inZone loc).marshal) s.recurrence
  some ⟨s.timezone, some (boundIn loc s.startTime).format, some (boundIn loc s.endTime).format, recurrence⟩

/-- A text that is parsed, and read in a location. -/
def parseIn (loc : Go.Location) (text : Go.Timestamp) : Option Go.ZonedTime :=
  (Go.parse text).map (·.inZone loc)

def RecurrenceJSON.unmarshal (loc : Go.Location) (j : RecurrenceJSON) : Option Recurrence := do
  let startTime ← j.startTime.unmarshal
  let endTime ← pointer Go.Timestamp.unmarshal j.endTime
  -- both are formatted and parsed again
  let recStartTime ← parseIn loc startTime.format
  let recEndTime ← pointer (fun t : Go.ZonedTime => parseIn loc t.format) endTime
  some ⟨recStartTime, recEndTime, j.duration, j.repeatType, j.repeatOn⟩

/-- `Schedule.UnmarshalJSON`, into a new schedule. -/
def ScheduleJSON.unmarshalJSON (j : ScheduleJSON) : Option Schedule := do
  let loc ← loadLocation j.timezone
  let startTime ← pointer (parseIn loc) j.startTime
  let endTime ← pointer (parseIn loc) j.endTime
  let recurrence ← pointer (RecurrenceJSON.unmarshal loc) j.recurrence
  some ⟨j.timezone, startTime.getD .zero, endTime.getD .zero, recurrence⟩

end Json

/-- `IsUpcoming` at a time. -/
def PlannedMaintenance.isUpcoming (m : PlannedMaintenance) (now : Go.Time) : Bool :=
  if m.schedule.isFixed then now.before m.schedule.startTime.time
  else
    match m.schedule.recurrence with
    | none => false
    | some r => now.before r.startTime.time

/-- `kind` in `PlannedMaintenance.MarshalJSON`. -/
def PlannedMaintenance.kind (m : PlannedMaintenance) : String :=
  if m.schedule.isFixed && m.schedule.endTime.time.after m.schedule.startTime.time then "fixed" else "recurring"

/-! ### What is kept -/

/-- A time of whole seconds that is zero or in a location. -/
structure WholeIn (loc : Go.Location) (t : Go.ZonedTime) : Prop where
  loc : t = .zero ∨ t.loc = loc
  whole : t.time.nanos % 10 ^ 9 = 0

structure Recurrence.TimesIn (loc : Go.Location) (r : Recurrence) : Prop where
  startTime : WholeIn loc r.startTime
  endTime : ∀ t ∈ r.endTime, WholeIn loc t

/-- The times of a schedule are whole seconds and are zero or in its time zone. -/
structure Schedule.TimesIn (loc : Go.Location) (s : Schedule) : Prop where
  startTime : WholeIn loc s.startTime
  endTime : WholeIn loc s.endTime
  recurrence : ∀ r ∈ s.recurrence, r.TimesIn loc

/-- Two schedules with the same instants, which mean the same. -/
structure SameSchedule (loadLocation : String → Option Go.Location) (s s' : Schedule) : Prop where
  startTime : s'.startTime.time = s.startTime.time
  endTime : s'.endTime.time = s.endTime.time
  startZero : s'.startTime.isZero = s.startTime.isZero
  endZero : s'.endTime.isZero = s.endTime.isZero
  recurrenceStart : s'.recurrence.map (·.startTime.time) = s.recurrence.map (·.startTime.time)
  recurrenceEnd : s'.recurrence.map (·.endTime.map (·.time)) = s.recurrence.map (·.endTime.map (·.time))
  shouldSkip : ∀ alertIds ruleID now,
    (PlannedMaintenance.mk s' alertIds).shouldSkip loadLocation ruleID now =
      (PlannedMaintenance.mk s alertIds).shouldSkip loadLocation ruleID now
  isUpcoming : ∀ alertIds now,
    (PlannedMaintenance.mk s' alertIds).isUpcoming now = (PlannedMaintenance.mk s alertIds).isUpcoming now
  kind : ∀ alertIds, (PlannedMaintenance.mk s' alertIds).kind = (PlannedMaintenance.mk s alertIds).kind

/-- What is read back of a schedule's JSON means the same, and has the same JSON. -/
def Schedule.RoundTrips (loadLocation : String → Option Go.Location) (s : Schedule) : Prop :=
  ∃ j s', s.marshalJSON loadLocation = some j ∧ j.unmarshalJSON loadLocation = some s' ∧
    SameSchedule loadLocation s s' ∧ s'.marshalJSON loadLocation = some j

/-- `time.Date` finds the time by its reading, and its year has four digits. -/
structure FoundIn (loc : Go.Location) (t : Go.ZonedTime) : Prop where
  instant : loc.instant t.wall = t.time
  year : t.HasYear

/-- A start or an end that is not set is found as the beginning of the year 1. -/
structure BoundFoundIn (loc : Go.Location) (t : Go.ZonedTime) : Prop where
  unset : t.isZero = true → loc.instant 0 = .zero
  set : t.isZero = false → FoundIn loc t

structure Schedule.FoundIn (loc : Go.Location) (s : Schedule) : Prop where
  startTime : BoundFoundIn loc s.startTime
  endTime : BoundFoundIn loc s.endTime
  recurrenceStart : ∀ r ∈ s.recurrence, Rules.FoundIn loc r.startTime
  recurrenceEnd : ∀ r ∈ s.recurrence, ∀ t ∈ r.endTime, Rules.FoundIn loc t

/-! ### Reading back -/

section ReadBack

variable {loc : Go.Location} (hdb : loc.FromDatabase) {t : Go.ZonedTime} (ht : WholeIn loc t)

theorem wall_zero : Go.ZonedTime.zero.wall = 0 := rfl

include hdb ht

/-- The reading is found. -/
theorem wall_inZone : (t.inZone loc).wall = t.wall := by
  rw [Go.ZonedTime.inZone_eq]
  show loc.wall (loc.instant t.wall) = t.wall
  obtain rfl | hloc := ht.loc
  · rw [wall_zero]
    exact hdb.wall_instant_zero
  · subst hloc
    exact t.loc.wall_instant t.time

theorem inZone_inZone : (t.inZone loc).inZone loc = t.inZone loc :=
  Go.ZonedTime.inZone_congr (wall_inZone hdb ht) loc

omit hdb in
theorem nanosecond_eq : t.nanosecond = 0 := by
  have hwhole := ht.whole
  unfold Go.ZonedTime.nanosecond Go.timeOfDay Go.ZonedTime.wall Go.Location.wall
  rw [Go.dayNanos_eq]
  omega

theorem nanosecond_inZone : (t.inZone loc).nanosecond = 0 := by
  have h := nanosecond_eq ht
  unfold Go.ZonedTime.nanosecond at h ⊢
  rw [wall_inZone hdb ht]
  exact h

theorem hasYear_inZone_iff : (t.inZone loc).HasYear ↔ t.HasYear := by
  unfold Go.ZonedTime.HasYear Go.ZonedTime.date
  rw [wall_inZone hdb ht]

omit ht in
theorem offset_inZone (t : Go.ZonedTime) : ((t.inZone loc).loc.offset (t.inZone loc).time).natAbs < 86400 :=
  hdb.offset_lt _

theorem parseIn_format_inZone :
    parseIn loc (t.inZone loc).format = if t.HasYear then some (t.inZone loc) else none := by
  rw [parseIn, Go.ZonedTime.parse_format (offset_inZone hdb t) (nanosecond_inZone hdb ht), inZone_inZone hdb ht]
  simp only [hasYear_inZone_iff hdb ht]

theorem marshal_inZone : (t.inZone loc).marshal = if t.HasYear then some (t.inZone loc).format else none := by
  rw [Go.ZonedTime.marshal_eq (offset_inZone hdb t) (nanosecond_inZone hdb ht)]
  simp only [hasYear_inZone_iff hdb ht]

/-- A time of a recurrence is parsed twice. -/
theorem parseIn_unmarshal (hyear : t.HasYear) : ∃ u, (t.inZone loc).format.unmarshal = some u ∧
    parseIn loc u.format = some (t.inZone loc) := by
  have hnanosecond := nanosecond_inZone hdb ht
  have hyear := (hasYear_inZone_iff hdb ht).mpr hyear
  obtain ⟨u, hu, hwall, hoffset⟩ := Go.ZonedTime.unmarshal_format (offset_inZone hdb t) hnanosecond hyear
  refine ⟨u, hu, ?_⟩
  have hyear' : u.HasYear := by
    unfold Go.ZonedTime.HasYear Go.ZonedTime.date at hyear ⊢
    rwa [hwall]
  have hnanosecond' : u.nanosecond = 0 := by
    unfold Go.ZonedTime.nanosecond at hnanosecond ⊢
    rwa [hwall]
  rw [parseIn, Go.ZonedTime.parse_format hoffset hnanosecond', if_pos hyear', Go.ZonedTime.inZone_congr hwall,
    inZone_inZone hdb ht]

end ReadBack

/-! ### Recurrences -/

namespace Recurrence

/-- The years of a recurrence's times have four digits. -/
structure HasYears (r : Recurrence) : Prop where
  startTime : r.startTime.HasYear
  endTime : ∀ t ∈ r.endTime, t.HasYear

/-- The JSON of a recurrence that has one. -/
def json (r : Recurrence) : RecurrenceJSON :=
  ⟨r.startTime.format, r.endTime.map Go.ZonedTime.format, r.duration, r.repeatType, r.repeatOn⟩

variable {loc : Go.Location} (hdb : loc.FromDatabase) {r : Recurrence} (hr : r.TimesIn loc)
include hdb hr

theorem marshal_of_hasYears (h : r.HasYears) : (r.inZone loc).marshal = some (r.inZone loc).json := by
  obtain ⟨startTime, endTime, duration, repeatType, repeatOn⟩ := r
  have hstart : (startTime.inZone loc).marshal = some (startTime.inZone loc).format := by
    rw [marshal_inZone hdb hr.startTime, if_pos h.startTime]
  unfold inZone marshal json
  dsimp only
  rw [hstart, Option.bind_eq_bind, Option.bind_some]
  cases endTime with
  | none => rfl
  | some t =>
    have hend : (t.inZone loc).marshal = some (t.inZone loc).format := by
      rw [marshal_inZone hdb (hr.endTime t rfl), if_pos (h.endTime t rfl)]
    rw [Option.map_some, pointer, hend]
    rfl

theorem hasYears_of_marshal {j : RecurrenceJSON} (h : (r.inZone loc).marshal = some j) : r.HasYears := by
  obtain ⟨startTime, endTime, duration, repeatType, repeatOn⟩ := r
  unfold inZone marshal at h
  dsimp only at h
  rw [marshal_inZone hdb hr.startTime] at h
  by_cases hstart : startTime.HasYear
  · refine ⟨hstart, fun t ht => ?_⟩
    obtain rfl : endTime = some t := ht
    rw [if_pos hstart, Option.map_some, pointer, marshal_inZone hdb (hr.endTime t rfl)] at h
    by_contra hend
    rw [if_neg hend] at h
    cases h
  · rw [if_neg hstart] at h
    cases h

theorem unmarshal_json (h : r.HasYears) : (r.inZone loc).json.unmarshal loc = some (r.inZone loc) := by
  obtain ⟨startTime, endTime, duration, repeatType, repeatOn⟩ := r
  obtain ⟨u, hu, hparse⟩ := parseIn_unmarshal hdb hr.startTime h.startTime
  unfold RecurrenceJSON.unmarshal inZone json
  dsimp only at hu hparse ⊢
  cases endTime with
  | none => simp only [Option.map_none, pointer, hu, hparse, Option.bind_eq_bind, Option.bind_some]
  | some t =>
    obtain ⟨v, hv, hparse'⟩ := parseIn_unmarshal hdb (hr.endTime t rfl) (h.endTime t rfl)
    simp only [Option.map_some, pointer, hu, hv, hparse, hparse', Option.bind_eq_bind, Option.bind_some]

omit hdb in
theorem timesIn_inZone (hstart : (r.startTime.inZone loc).time = r.startTime.time)
    (hend : ∀ t ∈ r.endTime, (t.inZone loc).time = t.time) : (r.inZone loc).TimesIn loc := by
  refine ⟨⟨.inr rfl, ?_⟩, fun t ht => ?_⟩
  · show (r.startTime.inZone loc).time.nanos % _ = 0
    rw [hstart]
    exact hr.startTime.whole
  · obtain ⟨u, hu, rfl⟩ := Option.map_eq_some_iff.mp ht
    refine ⟨.inr rfl, ?_⟩
    rw [hend u hu]
    exact (hr.endTime u hu).whole

theorem inZone_twice : (r.inZone loc).inZone loc = r.inZone loc := by
  obtain ⟨startTime, endTime, duration, repeatType, repeatOn⟩ := r
  unfold inZone
  dsimp only
  rw [inZone_inZone hdb hr.startTime]
  cases endTime with
  | none => rfl
  | some t => rw [Option.map_some, Option.map_some, inZone_inZone hdb (hr.endTime t rfl)]

end Recurrence

/-! ### Schedules -/

namespace Schedule

/-- What is read back of a schedule. -/
def restored (s : Schedule) (loc : Go.Location) : Schedule :=
  ⟨s.timezone, (boundIn loc s.startTime).inZone loc, (boundIn loc s.endTime).inZone loc,
    s.recurrence.map (·.inZone loc)⟩

/-- The JSON of a schedule that has one. -/
def json (s : Schedule) (loc : Go.Location) : ScheduleJSON :=
  ⟨s.timezone, some (boundIn loc s.startTime).format, some (boundIn loc s.endTime).format,
    s.recurrence.map fun r => (r.inZone loc).json⟩

end Schedule

section ReadBack

variable {loc : Go.Location} (hdb : loc.FromDatabase) {t : Go.ZonedTime} (ht : WholeIn loc t)

theorem hasYear_zero : Go.ZonedTime.zero.HasYear := by decide

theorem boundIn_of_isZero (loc : Go.Location) (h : t.isZero = true) : boundIn loc t = .zero := if_pos h

theorem boundIn_of_set (loc : Go.Location) (h : t.isZero = false) : boundIn loc t = t.inZone loc := by
  rw [boundIn, h]
  rfl

include hdb ht

/-- A start or an end is read back if its year has four digits. -/
theorem parseIn_boundIn : parseIn loc (boundIn loc t).format =
    if t.isZero = true ∨ t.HasYear then some ((boundIn loc t).inZone loc) else none := by
  cases hzero : t.isZero with
  | true =>
    have hoffset : (Go.ZonedTime.zero.loc.offset Go.ZonedTime.zero.time).natAbs < 86400 := by decide
    rw [boundIn_of_isZero loc hzero, parseIn, Go.ZonedTime.parse_format hoffset rfl, if_pos hasYear_zero,
      if_pos (.inl rfl)]
  | false =>
    rw [boundIn_of_set loc hzero, parseIn_format_inZone hdb ht, inZone_inZone hdb ht]
    simp only [Bool.false_eq_true, false_or]

omit ht in
/-- A time that is found is read back as it is. -/
theorem time_boundIn_iff (t : Go.ZonedTime) (ht : WholeIn loc t) :
    ((boundIn loc t).inZone loc).time = t.time ∧ (t.isZero = true ∨ t.HasYear) ↔ BoundFoundIn loc t := by
  cases hzero : t.isZero with
  | true =>
    have htime : t.time = .zero := by
      obtain ⟨⟨nanos⟩, loc⟩ := t
      have hnanos : nanos = 0 := of_decide_eq_true hzero
      rw [hnanos]
      rfl
    rw [boundIn_of_isZero loc hzero, Go.ZonedTime.inZone_eq, wall_zero, htime]
    refine ⟨fun h => ⟨fun _ => h.1, fun hset => ?_⟩, fun h => ⟨h.unset hzero, .inl rfl⟩⟩
    rw [hzero] at hset
    cases hset
  | false =>
    rw [boundIn_of_set loc hzero, inZone_inZone hdb ht, Go.ZonedTime.inZone_eq]
    refine ⟨fun h => ⟨fun hunset => ?_, fun _ => ⟨h.1, h.2.resolve_left Bool.false_ne_true⟩⟩, fun h =>
      ⟨(h.set hzero).instant, .inr (h.set hzero).year⟩⟩
    rw [hzero] at hunset
    cases hunset

end ReadBack

/-! ### The same maintenance -/

section Same

variable {loc : Go.Location} (hdb : loc.FromDatabase)
include hdb

/-- The end of an occurrence is read as before. -/
theorem wall_add_inZone {t : Go.ZonedTime} (ht : WholeIn loc t) (hfound : loc.instant t.wall = t.time)
    (d : Go.Duration) : ((t.inZone loc).add d).wall = (t.add d).wall := by
  rw [Go.ZonedTime.inZone_eq, hfound]
  obtain rfl | hloc := ht.loc
  · -- the clock of the location is that of UTC in the first centuries
    have hd := d.toInt_lt
    have hearly : (Go.Time.zero.add d).nanos < 2 ^ 64 := by
      show 0 + d.toInt < 2 ^ 64
      omega
    show (Go.Time.zero.add d).nanos + loc.offset (Go.Time.zero.add d) * 10 ^ 9 =
      (Go.Time.zero.add d).nanos + 0 * 10 ^ 9
    rw [hdb.offset_eq_zero hfound hearly]
  · subst hloc
    rfl

theorem Recurrence.skips_inZone {r : Recurrence} (hr : r.TimesIn loc) (hstart : FoundIn loc r.startTime)
    (hend : ∀ t ∈ r.endTime, FoundIn loc t) (now : Go.Time) : (r.inZone loc).skips loc now = r.skips loc now := by
  have htime : (r.startTime.inZone loc).time = r.startTime.time := by
    rw [Go.ZonedTime.inZone_eq]
    exact hstart.instant
  have hwall := wall_inZone hdb hr.startTime
  have hadd := wall_add_inZone hdb hr.startTime hstart.instant r.duration
  have hlast : (r.inZone loc).end = r.end := by
    unfold Recurrence.end inZone
    dsimp only
    cases h : r.endTime with
    | none => rfl
    | some t =>
      show (t.inZone loc).time = t.time
      rw [Go.ZonedTime.inZone_eq]
      exact (hend t h).instant
  have hwindow : ∀ currentTime, (r.inZone loc).checkWindow loc currentTime = r.checkWindow loc currentTime := by
    intro currentTime
    unfold checkWindow inZone Go.ZonedTime.hour Go.ZonedTime.minute Go.ZonedTime.date
    dsimp only
    rw [hwall, hadd]
  unfold skips
  rw [hlast, hwindow]
  show (if now.before (r.startTime.inZone loc).time then _ else _) = _
  rw [htime]

omit hdb in
/-- What is asked of a schedule depends on the instants of its start and its end, and on its recurrence. -/
theorem sameSchedule_of_times {loadLocation : String → Option Go.Location} {timezone : String}
    {startTime startTime' endTime endTime' : Go.ZonedTime} {recurrence : Option Recurrence}
    (hload : loadLocation timezone = some loc) (hstart : startTime'.time = startTime.time)
    (hend : endTime'.time = endTime.time)
    (hrecStart : ∀ r ∈ recurrence, (r.startTime.inZone loc).time = r.startTime.time)
    (hrecEnd : ∀ r ∈ recurrence, ∀ t ∈ r.endTime, (t.inZone loc).time = t.time)
    (hskips : ∀ r ∈ recurrence, ∀ now, (r.inZone loc).skips loc now = r.skips loc now) :
    SameSchedule loadLocation ⟨timezone, startTime, endTime, recurrence⟩
      ⟨timezone, startTime', endTime', recurrence.map (·.inZone loc)⟩ := by
  obtain ⟨start, startLoc⟩ := startTime
  obtain ⟨finish, endLoc⟩ := endTime
  obtain ⟨_, startLoc'⟩ := startTime'
  obtain ⟨_, endLoc'⟩ := endTime'
  obtain rfl : _ = start := hstart
  obtain rfl : _ = finish := hend
  cases recurrence with
  | none => exact ⟨rfl, rfl, rfl, rfl, rfl, rfl, fun _ _ _ => rfl, fun _ _ => rfl, fun _ => rfl⟩
  | some r =>
    have htime : (r.inZone loc).startTime.time = r.startTime.time := hrecStart r rfl
    have htimeEnd : (r.inZone loc).endTime.map (·.time) = r.endTime.map (·.time) := by
      show (r.endTime.map (·.inZone loc)).map (·.time) = r.endTime.map (·.time)
      rw [Option.map_map]
      exact Option.map_congr (hrecEnd r rfl)
    refine ⟨rfl, rfl, rfl, rfl, congrArg some htime, congrArg some htimeEnd, fun alertIds ruleID now => ?_,
      fun alertIds now => ?_, fun _ => rfl⟩
    · unfold PlannedMaintenance.shouldSkip Schedule.checkFixed
      dsimp only [Option.map_some]
      rw [hload]
      dsimp only
      rw [hskips r rfl now]
      rfl
    · unfold PlannedMaintenance.isUpcoming
      dsimp only [Option.map_some]
      rw [htime]
      rfl

theorem sameSchedule_of_foundIn {loadLocation : String → Option Go.Location} {s : Schedule}
    (hload : loadLocation s.timezone = some loc) (hs : s.TimesIn loc) (hfound : s.FoundIn loc) :
    SameSchedule loadLocation s (s.restored loc) := by
  refine sameSchedule_of_times hload ((time_boundIn_iff hdb s.startTime hs.startTime).mpr hfound.startTime).1
    ((time_boundIn_iff hdb s.endTime hs.endTime).mpr hfound.endTime).1 (fun r hr => ?_) (fun r hr t ht => ?_)
    fun r hr now => ?_
  · rw [Go.ZonedTime.inZone_eq]
    exact (hfound.recurrenceStart r hr).instant
  · rw [Go.ZonedTime.inZone_eq]
    exact (hfound.recurrenceEnd r hr t ht).instant
  · exact Recurrence.skips_inZone hdb (hs.recurrence r hr) (hfound.recurrenceStart r hr)
      (hfound.recurrenceEnd r hr) now

end Same

/-! ### Schedules that are read back -/

section RoundTrip

variable {loadLocation : String → Option Go.Location} {loc : Go.Location} (hdb : loc.FromDatabase)
  {s : Schedule} (hload : loadLocation s.timezone = some loc) (hs : s.TimesIn loc)
include hdb hload hs

theorem marshalJSON_of_hasYears (h : ∀ r ∈ s.recurrence, r.HasYears) :
    s.marshalJSON loadLocation = some (s.json loc) := by
  unfold Schedule.marshalJSON Schedule.json
  rw [hload, Option.bind_eq_bind, Option.bind_some]
  cases hrec : s.recurrence with
  | none => rfl
  | some r =>
    have hmarshal := Recurrence.marshal_of_hasYears hdb (hs.recurrence r hrec) (h r hrec)
    rw [pointer, hmarshal]
    rfl

theorem hasYears_of_marshalJSON {j : ScheduleJSON} (h : s.marshalJSON loadLocation = some j) :
    ∀ r ∈ s.recurrence, r.HasYears := by
  intro r hr
  have hr : s.recurrence = some r := hr
  unfold Schedule.marshalJSON at h
  rw [hload, hr, Option.bind_eq_bind, Option.bind_some, pointer] at h
  cases hmarshal : (r.inZone loc).marshal with
  | none =>
    rw [hmarshal] at h
    cases h
  | some json => exact Recurrence.hasYears_of_marshal hdb (hs.recurrence r hr) hmarshal

/-- **What is read back**: all times as they are found, if their years have four digits. -/
theorem unmarshalJSON_json (h : ∀ r ∈ s.recurrence, r.HasYears) :
    (s.json loc).unmarshalJSON loadLocation =
      if (s.startTime.isZero = true ∨ s.startTime.HasYear) ∧ (s.endTime.isZero = true ∨ s.endTime.HasYear)
      then some (s.restored loc) else none := by
  have hrecurrence : pointer (RecurrenceJSON.unmarshal loc) (s.recurrence.map fun r => (r.inZone loc).json) =
      some (s.recurrence.map (·.inZone loc)) := by
    cases hrec : s.recurrence with
    | none => rfl
    | some r =>
      rw [Option.map_some, pointer, Recurrence.unmarshal_json hdb (hs.recurrence r hrec) (h r hrec)]
      rfl
  unfold ScheduleJSON.unmarshalJSON Schedule.json Schedule.restored
  dsimp only
  rw [hload, Option.bind_eq_bind, Option.bind_some, hrecurrence, pointer, pointer, parseIn_boundIn hdb hs.startTime,
    parseIn_boundIn hdb hs.endTime]
  by_cases hstart : s.startTime.isZero = true ∨ s.startTime.HasYear
  · by_cases hend : s.endTime.isZero = true ∨ s.endTime.HasYear
    · rw [if_pos hstart, if_pos hend, if_pos ⟨hstart, hend⟩]
      rfl
    · have hnot := not_and_of_not_right (s.startTime.isZero = true ∨ s.startTime.HasYear) hend
      rw [if_pos hstart, if_neg hend, if_neg hnot]
      rfl
  · have hnot := not_and_of_not_left (s.endTime.isZero = true ∨ s.endTime.HasYear) hstart
    rw [if_neg hstart, if_neg hnot]
    rfl

/-- What is read back has the same JSON. -/
theorem marshalJSON_restored (hfound : s.FoundIn loc) :
    (s.restored loc).marshalJSON loadLocation = some (s.json loc) := by
  have hbound : ∀ {t : Go.ZonedTime}, WholeIn loc t → BoundFoundIn loc t →
      boundIn loc ((boundIn loc t).inZone loc) = boundIn loc t := by
    intro t ht hfound
    have htime := ((time_boundIn_iff hdb t ht).mpr hfound).1
    have hzero : ((boundIn loc t).inZone loc).isZero = t.isZero := congrArg Go.Time.isZero htime
    cases h : t.isZero with
    | true => rw [boundIn_of_isZero loc (hzero.trans h), boundIn_of_isZero loc h]
    | false =>
      rw [boundIn_of_set loc (hzero.trans h), boundIn_of_set loc h, inZone_inZone hdb ht, inZone_inZone hdb ht]
  have hwhole : ∀ {t : Go.ZonedTime}, WholeIn loc t → BoundFoundIn loc t →
      WholeIn loc ((boundIn loc t).inZone loc) := by
    intro t ht hfound
    refine ⟨.inr rfl, ?_⟩
    rw [((time_boundIn_iff hdb t ht).mpr hfound).1]
    exact ht.whole
  have hrestored : (s.restored loc).TimesIn loc := by
    refine ⟨hwhole hs.startTime hfound.startTime, hwhole hs.endTime hfound.endTime, fun r hr => ?_⟩
    obtain ⟨r, hrec, rfl⟩ := Option.map_eq_some_iff.mp hr
    refine Recurrence.timesIn_inZone (hs.recurrence r hrec) ?_ fun t ht => ?_
    · rw [Go.ZonedTime.inZone_eq]
      exact (hfound.recurrenceStart r hrec).instant
    · rw [Go.ZonedTime.inZone_eq]
      exact (hfound.recurrenceEnd r hrec t ht).instant
  have hyears : ∀ r ∈ (s.restored loc).recurrence, r.HasYears := by
    intro r hr
    obtain ⟨r, hrec, rfl⟩ := Option.map_eq_some_iff.mp hr
    refine ⟨(hasYear_inZone_iff hdb (hs.recurrence r hrec).startTime).mpr (hfound.recurrenceStart r hrec).year,
      fun t ht => ?_⟩
    obtain ⟨u, hu, rfl⟩ := Option.map_eq_some_iff.mp ht
    exact (hasYear_inZone_iff hdb ((hs.recurrence r hrec).endTime u hu)).mpr (hfound.recurrenceEnd r hrec u hu).year
  have hload' : loadLocation (s.restored loc).timezone = some loc := hload
  rw [marshalJSON_of_hasYears hdb hload' hrestored hyears]
  unfold Schedule.json Schedule.restored
  dsimp only
  rw [hbound hs.startTime hfound.startTime, hbound hs.endTime hfound.endTime, Option.map_map]
  refine congrArg some (congrArg (ScheduleJSON.mk _ _ _) ?_)
  refine Option.map_congr fun r hrec => ?_
  show ((r.inZone loc).inZone loc).json = (r.inZone loc).json
  rw [Recurrence.inZone_twice hdb (hs.recurrence r hrec)]

end RoundTrip

/-- **When a schedule is read back as it was**: `time.Date` finds each time by its reading in the zone, and
the beginning of the year 1 for a start or an end that is not set. -/
theorem roundTrips_iff (loadLocation : String → Option Go.Location) {s : Schedule} {loc : Go.Location}
    (hload : loadLocation s.timezone = some loc) (hdb : loc.FromDatabase) (hs : s.TimesIn loc) :
    s.RoundTrips loadLocation ↔ s.FoundIn loc := by
  constructor
  · rintro ⟨j, s', hmarshal, hunmarshal, hsame, -⟩
    have hyears := hasYears_of_marshalJSON hdb hload hs hmarshal
    obtain rfl : s.json loc = j :=
      Option.some.inj ((marshalJSON_of_hasYears hdb hload hs hyears).symm.trans hmarshal)
    rw [unmarshalJSON_json hdb hload hs hyears] at hunmarshal
    split at hunmarshal
    · rename_i hbounds
      obtain rfl := Option.some.inj hunmarshal
      refine ⟨(time_boundIn_iff hdb _ hs.startTime).mp ⟨hsame.startTime, hbounds.1⟩,
        (time_boundIn_iff hdb _ hs.endTime).mp ⟨hsame.endTime, hbounds.2⟩, fun r hr => ⟨?_, (hyears r hr).startTime⟩,
        fun r hr t ht => ⟨?_, (hyears r hr).endTime t ht⟩⟩
      · have hr : s.recurrence = some r := hr
        have hstart := hsame.recurrenceStart
        unfold Schedule.restored at hstart
        rw [hr] at hstart
        have htime : (r.startTime.inZone loc).time = r.startTime.time := Option.some.inj hstart
        rwa [Go.ZonedTime.inZone_eq] at htime
      · have hr : s.recurrence = some r := hr
        have ht : r.endTime = some t := ht
        have hend := hsame.recurrenceEnd
        unfold Schedule.restored Recurrence.inZone at hend
        rw [hr] at hend
        have hend := Option.some.inj hend
        dsimp only at hend
        rw [ht] at hend
        have htime : (t.inZone loc).time = t.time := Option.some.inj hend
        rwa [Go.ZonedTime.inZone_eq] at htime
    · cases hunmarshal
  · intro hfound
    have hyears : ∀ r ∈ s.recurrence, r.HasYears := fun r hr =>
      ⟨(hfound.recurrenceStart r hr).year, fun t ht => (hfound.recurrenceEnd r hr t ht).year⟩
    have hbounds := And.intro ((time_boundIn_iff hdb _ hs.startTime).mpr hfound.startTime).2
      ((time_boundIn_iff hdb _ hs.endTime).mpr hfound.endTime).2
    refine ⟨s.json loc, s.restored loc, marshalJSON_of_hasYears hdb hload hs hyears, ?_,
      sameSchedule_of_foundIn hdb hload hs hfound, marshalJSON_restored hdb hload hs hfound⟩
    rw [unmarshalJSON_json hdb hload hs hyears, if_pos hbounds]

/-! ### A recurrence east of UTC -/

/-- Eight hours east of UTC at all times. -/
def eastern : Go.Location := .fixed 28800

theorem fixed_fromDatabase {offset : Int} (h : offset.natAbs < 86400) : (Go.Location.fixed offset).FromDatabase :=
  ⟨fun _ => h, fun _ _ => rfl⟩

def easternOnly (timezone : String) : Option Go.Location := if timezone = "Etc/GMT-8" then some eastern else none

/-- Every day from noon on January 1, without a start and an end. -/
def easternSchedule : Schedule :=
  ⟨"Etc/GMT-8", .zero, .zero,
    some ⟨Go.date ⟨2024, 1, 1⟩ 12 0 0 0 eastern, none, 7200000000000, repeatTypeDaily, none⟩⟩

/-- For one hour in 2024. -/
def easternHour : Schedule :=
  ⟨"Etc/GMT-8", Go.date ⟨2024, 1, 1⟩ 12 0 0 0 eastern, Go.date ⟨2024, 1, 1⟩ 13 0 0 0 eastern, none⟩

theorem roundTrips_iff_hour : easternHour.RoundTrips easternOnly ↔ easternHour.FoundIn eastern :=
  roundTrips_iff easternOnly (if_pos rfl) (fixed_fromDatabase (by decide))
    ⟨⟨.inr rfl, by decide +kernel⟩, ⟨.inr rfl, by decide +kernel⟩, fun r hr => by cases hr⟩

/-- **What is not set is set when it is read back.** -/
theorem not_roundTrips_eastern : ¬ easternSchedule.RoundTrips easternOnly := by
  rintro ⟨j, s', hmarshal, hunmarshal, hsame, -⟩
  have hzero : ((easternSchedule.marshalJSON easternOnly).bind (ScheduleJSON.unmarshalJSON easternOnly)).map
      (·.startTime.isZero) = some false := by decide +kernel
  rw [hmarshal, Option.bind_some, hunmarshal] at hzero
  have hset : s'.startTime.isZero = false := Option.some.inj hzero
  rw [hsame.startZero] at hset
  exact absurd hset (by decide)

end Rules
end QueryService
