import BoringPanel.Lib.GoClock

/-!
# Planned maintenance

`shouldSkip` tells whether an alert is muted: by a fixed window, or by a window that recurs daily, weekly or
monthly. An occurrence of the latter starts on a day at the time of day of the start and takes the duration,
also past midnight (`Recurrence.InOccurrence`). The code looks at the hours and minutes of the start and of
the end on the day of the current time, so that it misses what lies past midnight; with a monthly recurrence
it has what lies before midnight, unless the start is on the last day of its month. The exact condition is
`shouldSkip_right_iff`.
-/

namespace QueryService
namespace Rules

structure Recurrence where
  startTime : Go.ZonedTime
  endTime : Option Go.ZonedTime
  duration : Go.Duration
  repeatType : String
  repeatOn : Option (List String)

structure Schedule where
  timezone : String
  startTime : Go.ZonedTime
  endTime : Go.ZonedTime
  recurrence : Option Recurrence

structure PlannedMaintenance where
  schedule : Schedule
  alertIds : Option (List String)

def repeatTypeDaily : String := "daily"
def repeatTypeWeekly : String := "weekly"
def repeatTypeMonthly : String := "monthly"

/-- The constants `RepeatOn`, from Sunday. -/
def repeatOnDays : List String :=
  ["sunday", "monday", "tuesday", "wednesday", "thursday", "friday", "saturday"]

/-- The names of the days in `time`. -/
def longDayNames : List String :=
  ["Sunday", "Monday", "Tuesday", "Wednesday", "Thursday", "Friday", "Saturday"]

/-- `strings.ToLower`, for letters of ASCII. -/
def toLower (s : String) : String := String.ofList (s.toList.map Char.toLower)

/-- `strings.ToLower(currentTime.Weekday().String())` -/
def weekdayName (t : Go.ZonedTime) : String := toLower (longDayNames.getD t.weekday.toNat "")

/-! ### What the code does -/

/-- The body of the `switch` on the repeat type. -/
def Recurrence.checkWindow (r : Recurrence) (loc : Go.Location) (currentTime : Go.ZonedTime) : Bool :=
  let start := r.startTime
  let finish := r.startTime.add r.duration
  if r.repeatType = repeatTypeDaily then
    -- the hours and minutes of the start on the current day
    let startTime := Go.date currentTime.date start.hour start.minute 0 0 loc
    let endTime := Go.date currentTime.date finish.hour finish.minute 0 0 loc
    currentTime.time.after startTime.time && currentTime.time.before endTime.time
  else if r.repeatType = repeatTypeWeekly then
    let startTime := Go.date currentTime.date start.hour start.minute 0 0 loc
    let endTime := Go.date currentTime.date finish.hour finish.minute 0 0 loc
    currentTime.time.after startTime.time && currentTime.time.before endTime.time &&
      ((r.repeatOn.getD []).length = 0 || (r.repeatOn.getD []).contains (weekdayName currentTime))
  else if r.repeatType = repeatTypeMonthly then
    -- on the day of the current month
    let startTime := Go.date { currentTime.date with day := start.date.day } start.hour start.minute 0 0 loc
    let endTime := Go.date { currentTime.date with day := finish.date.day } finish.hour finish.minute 0 0 loc
    currentTime.time.after startTime.time && currentTime.time.before endTime.time &&
      currentTime.date.day = start.date.day
  else false

/-- The end of the recurrence, the zero time if there is none. -/
def Recurrence.end (r : Recurrence) : Go.Time := r.endTime.elim Go.Time.zero (·.time)

/-- The recurring schedule. -/
def Recurrence.skips (r : Recurrence) (loc : Go.Location) (now : Go.Time) : Bool :=
  if now.before r.startTime.time then false
  else if !r.end.isZero && now.after r.end then false
  else r.checkWindow loc ⟨now, loc⟩

/-- A fixed schedule has both times. -/
def Schedule.isFixed (s : Schedule) : Bool := !s.startTime.isZero && !s.endTime.isZero

/-- The fixed schedule, where it decides. -/
def Schedule.checkFixed (loadLocation : String → Option Go.Location) (s : Schedule) (now : Go.Time) :
    Option Bool :=
  if s.isFixed then
    match loadLocation s.timezone with
    | none => some false
    | some _ => if now.after s.startTime.time && now.before s.endTime.time then some true else none
  else none

/-- Whether the maintenance is about a rule: without ids it is about all. -/
def PlannedMaintenance.covers (m : PlannedMaintenance) (ruleID : String) : Bool :=
  match m.alertIds with
  | none => true
  | some alertIds => alertIds.contains ruleID || alertIds.length = 0

/-- `shouldSkip` -/
def PlannedMaintenance.shouldSkip (loadLocation : String → Option Go.Location) (m : PlannedMaintenance)
    (ruleID : String) (now : Go.Time) : Bool :=
  if m.covers ruleID then
    match m.schedule.checkFixed loadLocation now with
    | some skip => skip
    | none =>
      match m.schedule.recurrence with
      | none => false
      | some r =>
        match loadLocation m.schedule.timezone with
        | none => false
        | some loc => r.skips loc now
  else false

/-! ### What it is for -/

namespace Recurrence

/-- The time of day at which occurrences start. -/
def startOfDay (r : Recurrence) : Int := Go.timeOfDay r.startTime.wall

/-- Where occurrences end, on the day on which they start. -/
def endOfDay (r : Recurrence) : Int := r.startOfDay + r.duration.toInt

/-- An occurrence starts on a day. -/
def OccursOn (r : Recurrence) (day : Int) : Prop :=
  (r.repeatType = repeatTypeWeekly → r.repeatOn.getD [] = [] ∨
    repeatOnDays.getD ((day + 1) % 7).toNat "" ∈ r.repeatOn.getD []) ∧
  (r.repeatType = repeatTypeMonthly → (Calendar.Date.ofDays day).day = r.startTime.date.day)

/-- The start of the occurrence of a day. -/
def occurrence (r : Recurrence) (loc : Go.Location) (day : Int) : Go.Time :=
  loc.instant (day * Go.dayNanos + r.startOfDay)

/-- Within an occurrence. -/
def InOccurrence (r : Recurrence) (loc : Go.Location) (now : Go.Time) : Prop :=
  ∃ day, r.OccursOn day ∧ (r.occurrence loc day).before now = true ∧
    now.before ((r.occurrence loc day).add r.duration) = true

/-- The start is not on the last day of its month. -/
def HasNextDay (r : Recurrence) : Prop :=
  r.startTime.date.day < Calendar.monthLength r.startTime.date.year r.startTime.date.month

/-- Where the windows of the code are the occurrences, at a reading of the clock. -/
structure Kept (r : Recurrence) (wall : Int) : Prop where
  /-- The seconds of the start and of the end, which the code does not look at. -/
  seconds : r.endOfDay < Go.dayNanos → r.OccursOn (Go.dayOf wall) →
    ¬ (Go.cutSeconds r.startOfDay < Go.timeOfDay wall ∧ Go.timeOfDay wall ≤ r.startOfDay ∧
      Go.timeOfDay wall < Go.cutSeconds r.endOfDay) ∧
    ¬ (Go.cutSeconds r.endOfDay ≤ Go.timeOfDay wall ∧ r.startOfDay < Go.timeOfDay wall ∧
      Go.timeOfDay wall < r.endOfDay)
  /-- Past midnight after a day with an occurrence. -/
  after_midnight : Go.dayNanos ≤ r.endOfDay → r.OccursOn (Go.dayOf wall - 1) →
    r.endOfDay - Go.dayNanos ≤ Go.timeOfDay wall
  /-- Before midnight, in an occurrence that goes on after it. -/
  before_midnight : Go.dayNanos ≤ r.endOfDay → r.OccursOn (Go.dayOf wall) →
    ¬ (r.repeatType = repeatTypeMonthly ∧ r.HasNextDay) → Go.timeOfDay wall ≤ r.startOfDay
  /-- The code has it there if it is monthly. -/
  monthly : Go.dayNanos ≤ r.endOfDay → r.OccursOn (Go.dayOf wall) →
    r.repeatType = repeatTypeMonthly → r.HasNextDay →
      ¬ (Go.cutSeconds r.startOfDay < Go.timeOfDay wall ∧ Go.timeOfDay wall ≤ r.startOfDay)

end Recurrence

/-! ### The windows on a clock -/

theorem map_toLower_longDayNames : longDayNames.map toLower = repeatOnDays := by
  decide +kernel

theorem weekdayName_eq (t : Go.ZonedTime) : weekdayName t = repeatOnDays.getD t.weekday.toNat "" := by
  rw [← map_toLower_longDayNames, weekdayName, List.getD_eq_getElem?_getD, List.getD_eq_getElem?_getD,
    List.getElem?_map]
  cases longDayNames[t.weekday.toNat]? with
  | none => decide +kernel
  | some name => rfl

variable {offset : Int} {now : Go.Time}

/-- After a time with the hour and minute of another one. -/
theorem after_date_iff (d : Calendar.Date) (t : Go.ZonedTime) :
    now.after (Go.date d t.hour t.minute 0 0 (.fixed offset)).time = true ↔
      d.toDays * Go.dayNanos + Go.cutSeconds (Go.timeOfDay t.wall) < (Go.Location.fixed offset).wall now := by
  rw [← Go.hour_minute, Go.Location.wall_fixed, Go.Time.after, decide_eq_true_iff]
  show d.toDays * Go.dayNanos + t.hour * Go.hourNanos + t.minute * Go.minuteNanos + 0 * 10 ^ 9 + 0 -
    offset * 10 ^ 9 < now.nanos ↔ _
  omega

theorem before_date_iff (d : Calendar.Date) (t : Go.ZonedTime) :
    now.before (Go.date d t.hour t.minute 0 0 (.fixed offset)).time = true ↔
      (Go.Location.fixed offset).wall now < d.toDays * Go.dayNanos + Go.cutSeconds (Go.timeOfDay t.wall) := by
  rw [← Go.hour_minute, Go.Location.wall_fixed, Go.Time.before, decide_eq_true_iff]
  show now.nanos < d.toDays * Go.dayNanos + t.hour * Go.hourNanos + t.minute * Go.minuteNanos + 0 * 10 ^ 9 + 0 -
    offset * 10 ^ 9 ↔ _
  omega

namespace Recurrence

variable {r : Recurrence} {startOffset : Int}

theorem startOfDay_bounds (r : Recurrence) : 0 ≤ r.startOfDay ∧ r.startOfDay < Go.dayNanos :=
  Go.timeOfDay_bounds _

/-- The end of the first occurrence. -/
theorem wall_finish (hstart : r.startTime.loc = .fixed startOffset) :
    (r.startTime.add r.duration).wall = r.startTime.wall + r.duration.toInt := by
  unfold Go.ZonedTime.wall Go.ZonedTime.add
  dsimp only
  rw [hstart, Go.Location.wall_fixed, Go.Location.wall_fixed]
  show r.startTime.time.nanos + r.duration.toInt + startOffset * 10 ^ 9 = _
  omega

/-- It is on the day of its start, or on the next one. -/
theorem finish_cases (hstart : r.startTime.loc = .fixed startOffset) (hpos : 0 < r.duration.toInt)
    (hday : r.duration.toInt < Go.dayNanos) :
    (r.endOfDay < Go.dayNanos ∧ Go.timeOfDay (r.startTime.add r.duration).wall = r.endOfDay ∧
      Go.dayOf (r.startTime.add r.duration).wall = Go.dayOf r.startTime.wall) ∨
    (Go.dayNanos ≤ r.endOfDay ∧
      Go.timeOfDay (r.startTime.add r.duration).wall = r.endOfDay - Go.dayNanos ∧
      Go.dayOf (r.startTime.add r.duration).wall = Go.dayOf r.startTime.wall + 1) := by
  rw [wall_finish hstart]
  unfold endOfDay startOfDay Go.timeOfDay Go.dayOf
  rw [Go.dayNanos_eq] at hday ⊢
  omega

/-- An occurrence of the current day, or of the day before. -/
theorem inOccurrence_iff (hpos : 0 < r.duration.toInt) (hday : r.duration.toInt < Go.dayNanos) :
    r.InOccurrence (.fixed offset) now ↔
      (r.OccursOn (Go.dayOf ((Go.Location.fixed offset).wall now)) ∧
        r.startOfDay < Go.timeOfDay ((Go.Location.fixed offset).wall now) ∧
        Go.timeOfDay ((Go.Location.fixed offset).wall now) < r.endOfDay) ∨
      (r.OccursOn (Go.dayOf ((Go.Location.fixed offset).wall now) - 1) ∧
        Go.timeOfDay ((Go.Location.fixed offset).wall now) + Go.dayNanos < r.endOfDay) := by
  set wall := (Go.Location.fixed offset).wall now with hwall
  have hsplit := Go.dayOf_add_timeOfDay wall
  have htime := Go.timeOfDay_bounds wall
  have hs := r.startOfDay_bounds
  -- an occurrence on the clock
  have hbetween : ∀ day : Int, ((r.occurrence (.fixed offset) day).before now = true ∧
      now.before ((r.occurrence (.fixed offset) day).add r.duration) = true) ↔
        day * Go.dayNanos + r.startOfDay < wall ∧ wall < day * Go.dayNanos + r.endOfDay := by
    intro day
    rw [hwall, Go.Location.wall_fixed, Go.Time.before, Go.Time.before, decide_eq_true_iff, decide_eq_true_iff,
      endOfDay]
    show day * Go.dayNanos + r.startOfDay - offset * 10 ^ 9 < now.nanos ∧
      now.nanos < day * Go.dayNanos + r.startOfDay - offset * 10 ^ 9 + r.duration.toInt ↔ _
    omega
  unfold InOccurrence
  simp only [hbetween]
  unfold endOfDay
  rw [Go.dayNanos_eq] at *
  constructor
  · rintro ⟨day, hoccurs, hbefore, hafter⟩
    have hcases : day = Go.dayOf wall ∨ day = Go.dayOf wall - 1 := by omega
    rcases hcases with rfl | rfl
    · exact .inl ⟨hoccurs, by omega, by omega⟩
    · exact .inr ⟨hoccurs, by omega⟩
  · rintro (⟨hoccurs, hbefore, hafter⟩ | ⟨hoccurs, hafter⟩)
    · exact ⟨_, hoccurs, by omega, by omega⟩
    · exact ⟨_, hoccurs, by omega, by omega⟩

/-- The windows of the code: those of the current day that do not reach midnight, and what lies before
midnight of the others if they are monthly. -/
def CodeWindow (r : Recurrence) (wall : Int) : Prop :=
  r.OccursOn (Go.dayOf wall) ∧ Go.cutSeconds r.startOfDay < Go.timeOfDay wall ∧
    (r.endOfDay < Go.dayNanos → Go.timeOfDay wall < Go.cutSeconds r.endOfDay) ∧
    (Go.dayNanos ≤ r.endOfDay → r.repeatType = repeatTypeMonthly ∧ r.HasNextDay)

/-- On the current day. -/
theorem checkDay_iff (hstart : r.startTime.loc = .fixed startOffset) (hpos : 0 < r.duration.toInt)
    (hday : r.duration.toInt < Go.dayNanos) (currentTime : Go.ZonedTime)
    (hloc : currentTime.loc = .fixed offset) :
    ((currentTime.time.after (Go.date currentTime.date r.startTime.hour r.startTime.minute 0 0
        (.fixed offset)).time = true ∧
      currentTime.time.before (Go.date currentTime.date (r.startTime.add r.duration).hour
        (r.startTime.add r.duration).minute 0 0 (.fixed offset)).time = true) ↔
      Go.cutSeconds r.startOfDay < Go.timeOfDay currentTime.wall ∧
        (r.endOfDay < Go.dayNanos → Go.timeOfDay currentTime.wall < Go.cutSeconds r.endOfDay) ∧
        r.endOfDay < Go.dayNanos) := by
  have hdays : currentTime.date.toDays = Go.dayOf currentTime.wall := Calendar.toDays_ofDays _
  have hwall : (Go.Location.fixed offset).wall currentTime.time = currentTime.wall := by
    rw [Go.ZonedTime.wall, hloc]
  have hsplit := Go.dayOf_add_timeOfDay currentTime.wall
  have hs := r.startOfDay_bounds
  rw [after_date_iff, before_date_iff, hdays, hwall]
  rcases finish_cases hstart hpos hday with ⟨hlt, htime, -⟩ | ⟨hge, htime, -⟩
  · rw [htime]
    show _ + Go.cutSeconds r.startOfDay < _ ∧ _ ↔ _
    omega
  · -- the end has an earlier hour and minute than the start
    rw [htime]
    show _ + Go.cutSeconds r.startOfDay < _ ∧ _ ↔ _
    unfold endOfDay Go.cutSeconds at *
    unfold Go.minuteNanos
    rw [Go.dayNanos_eq] at *
    omega

/-- The day of the end, in the month of the current time. -/
theorem toDays_with_day (d : Calendar.Date) (day : Int) :
    Calendar.Date.toDays { d with day := day } = d.toDays + (day - d.day) := by
  unfold Calendar.Date.toDays
  dsimp only
  omega

/-- On the day of the month of the start. -/
theorem checkMonth_iff (hstart : r.startTime.loc = .fixed startOffset) (hpos : 0 < r.duration.toInt)
    (hday : r.duration.toInt < Go.dayNanos) (currentTime : Go.ZonedTime)
    (hloc : currentTime.loc = .fixed offset) (hsame : currentTime.date.day = r.startTime.date.day) :
    ((currentTime.time.after (Go.date { currentTime.date with day := r.startTime.date.day }
        r.startTime.hour r.startTime.minute 0 0 (.fixed offset)).time = true ∧
      currentTime.time.before (Go.date
        { currentTime.date with day := (r.startTime.add r.duration).date.day }
        (r.startTime.add r.duration).hour (r.startTime.add r.duration).minute 0 0
        (.fixed offset)).time = true) ↔
      Go.cutSeconds r.startOfDay < Go.timeOfDay currentTime.wall ∧
        (r.endOfDay < Go.dayNanos → Go.timeOfDay currentTime.wall < Go.cutSeconds r.endOfDay) ∧
        (Go.dayNanos ≤ r.endOfDay → r.HasNextDay)) := by
  have hdays : currentTime.date.toDays = Go.dayOf currentTime.wall := Calendar.toDays_ofDays _
  have hwall : (Go.Location.fixed offset).wall currentTime.time = currentTime.wall := by
    rw [Go.ZonedTime.wall, hloc]
  have hsplit := Go.dayOf_add_timeOfDay currentTime.wall
  have htime := Go.timeOfDay_bounds currentTime.wall
  have hs := r.startOfDay_bounds
  have hmonth : ∀ day : Int, Calendar.Date.toDays { currentTime.date with day := day } =
      Go.dayOf currentTime.wall + (day - r.startTime.date.day) := by
    intro day
    rw [toDays_with_day, hdays, hsame]
  rw [after_date_iff, before_date_iff, hmonth r.startTime.date.day,
    hmonth (r.startTime.add r.duration).date.day, hwall]
  rcases finish_cases hstart hpos hday with ⟨hlt, hend, hendDay⟩ | ⟨hge, hend, hendDay⟩
  · -- the end is on the day of the start
    have hdate : (r.startTime.add r.duration).date = r.startTime.date :=
      congrArg Calendar.Date.ofDays hendDay
    rw [hend, hdate]
    show _ + Go.cutSeconds r.startOfDay < _ ∧ _ ↔ _
    rw [Go.dayNanos_eq] at *
    constructor
    · rintro ⟨hafter, hbefore⟩
      exact ⟨by omega, fun _ => by omega, fun hge => by omega⟩
    · rintro ⟨hafter, hbefore, -⟩
      have hbefore := hbefore hlt
      exact ⟨by omega, by omega⟩
  · -- it is on the next one, which is the first of a month if the start is on the last of one
    have hdate : (r.startTime.add r.duration).date.day =
        if r.startTime.date.day < Calendar.monthLength r.startTime.date.year r.startTime.date.month
        then r.startTime.date.day + 1 else 1 := by
      unfold Go.ZonedTime.date
      rw [hendDay]
      exact Calendar.day_ofDays_succ _
    have hvalid : r.startTime.date.Valid := Calendar.ofDays_valid _
    have hlength := Calendar.monthLength_bounds r.startTime.date.year hvalid.month
    have hlast := hvalid.day.2
    rw [hend, hdate]
    show _ + Go.cutSeconds r.startOfDay < _ ∧ _ ↔ _
    unfold HasNextDay
    unfold endOfDay Go.cutSeconds at *
    unfold Go.minuteNanos
    rw [Go.dayNanos_eq] at *
    split
    · next hnext =>
      constructor
      · rintro ⟨hafter, -⟩
        exact ⟨by omega, fun hlt => by omega, fun _ => hnext⟩
      · rintro ⟨hafter, -, -⟩
        exact ⟨by omega, by omega⟩
    · next hnext =>
      constructor
      · rintro ⟨hafter, hbefore⟩
        exact absurd hbefore (by omega)
      · rintro ⟨-, -, hafter⟩
        exact absurd (hafter (by omega)) hnext

/-! ### Which days -/

theorem occursOn_daily (hdaily : r.repeatType = repeatTypeDaily) (day : Int) : r.OccursOn day := by
  unfold OccursOn
  rw [hdaily]
  exact ⟨fun h => absurd h (by decide), fun h => absurd h (by decide)⟩

theorem occursOn_weekly_iff (hweekly : r.repeatType = repeatTypeWeekly) (day : Int) :
    r.OccursOn day ↔ r.repeatOn.getD [] = [] ∨
      repeatOnDays.getD ((day + 1) % 7).toNat "" ∈ r.repeatOn.getD [] := by
  unfold OccursOn
  rw [hweekly]
  constructor
  · exact fun h => h.1 rfl
  · exact fun h => ⟨fun _ => h, fun hmonthly => absurd hmonthly (by decide)⟩

theorem occursOn_monthly_iff (hmonthly : r.repeatType = repeatTypeMonthly) (day : Int) :
    r.OccursOn day ↔ (Calendar.Date.ofDays day).day = r.startTime.date.day := by
  unfold OccursOn
  rw [hmonthly]
  constructor
  · exact fun h => h.2 rfl
  · exact fun h => ⟨fun hweekly => absurd hweekly (by decide), fun _ => h⟩

/-- The list of days has the current one. -/
theorem repeatOn_iff (hweekly : r.repeatType = repeatTypeWeekly) (t : Go.ZonedTime) :
    ((decide ((r.repeatOn.getD []).length = 0) || (r.repeatOn.getD []).contains (weekdayName t)) = true) ↔
      r.OccursOn (Go.dayOf t.wall) := by
  rw [occursOn_weekly_iff hweekly, Bool.or_eq_true, decide_eq_true_iff, List.length_eq_zero_iff,
    List.contains_iff_mem, weekdayName_eq]
  exact Iff.rfl

/-- **What the code takes for the windows.** -/
theorem checkWindow_iff (hstart : r.startTime.loc = .fixed startOffset) (hpos : 0 < r.duration.toInt)
    (hday : r.duration.toInt < Go.dayNanos)
    (htype : r.repeatType ∈ [repeatTypeDaily, repeatTypeWeekly, repeatTypeMonthly]) :
    r.checkWindow (.fixed offset) ⟨now, .fixed offset⟩ = true ↔
      r.CodeWindow ((Go.Location.fixed offset).wall now) := by
  let currentTime : Go.ZonedTime := ⟨now, .fixed offset⟩
  have hloc : currentTime.loc = .fixed offset := rfl
  have hcheck := checkDay_iff hstart hpos hday currentTime hloc
  have hcover := le_or_gt Go.dayNanos r.endOfDay
  simp only [List.mem_cons, List.not_mem_nil, or_false] at htype
  unfold checkWindow CodeWindow
  dsimp only
  rcases htype with hdaily | hweekly | hmonthly
  · have hnot : ¬ r.repeatType = repeatTypeMonthly := by
      rw [hdaily]
      decide
    have hoccurs := occursOn_daily hdaily (Go.dayOf ((Go.Location.fixed offset).wall now))
    rw [if_pos hdaily, Bool.and_eq_true, hcheck]
    show _ ∧ _ ∧ _ ↔ _
    constructor
    · rintro ⟨hafter, hbefore, hlt⟩
      exact ⟨hoccurs, hafter, hbefore, fun hge => absurd hlt hge.not_gt⟩
    · rintro ⟨-, hafter, hbefore, hlate⟩
      exact ⟨hafter, hbefore, hcover.resolve_left fun hge => hnot (hlate hge).1⟩
  · have hnot : ¬ r.repeatType = repeatTypeMonthly := by
      rw [hweekly]
      decide
    have hnotDaily : ¬ r.repeatType = repeatTypeDaily := by
      rw [hweekly]
      decide
    rw [if_neg hnotDaily, if_pos hweekly, Bool.and_eq_true, Bool.and_eq_true, hcheck, repeatOn_iff hweekly]
    show (_ ∧ _ ∧ _) ∧ _ ↔ _
    constructor
    · rintro ⟨⟨hafter, hbefore, hlt⟩, hoccurs⟩
      exact ⟨hoccurs, hafter, hbefore, fun hge => absurd hlt hge.not_gt⟩
    · rintro ⟨hoccurs, hafter, hbefore, hlate⟩
      exact ⟨⟨hafter, hbefore, hcover.resolve_left fun hge => hnot (hlate hge).1⟩, hoccurs⟩
  · have hnotDaily : ¬ r.repeatType = repeatTypeDaily := by
      rw [hmonthly]
      decide
    have hnotWeekly : ¬ r.repeatType = repeatTypeWeekly := by
      rw [hmonthly]
      decide
    rw [if_neg hnotDaily, if_neg hnotWeekly, if_pos hmonthly, Bool.and_eq_true, Bool.and_eq_true,
      decide_eq_true_iff]
    have hoccurs := occursOn_monthly_iff hmonthly (Go.dayOf ((Go.Location.fixed offset).wall now))
    constructor
    · rintro ⟨hwindow, hsame⟩
      obtain ⟨hafter, hbefore, hlate⟩ :=
        (checkMonth_iff hstart hpos hday currentTime hloc hsame).mp hwindow
      exact ⟨hoccurs.mpr hsame, hafter, hbefore, fun hge => ⟨hmonthly, hlate hge⟩⟩
    · rintro ⟨hsame, hafter, hbefore, hlate⟩
      have hsame := hoccurs.mp hsame
      exact ⟨(checkMonth_iff hstart hpos hday currentTime hloc hsame).mpr
        ⟨hafter, hbefore, fun hge => (hlate hge).2⟩, hsame⟩

/-- A monthly recurrence has no occurrences on two days in a row. -/
theorem not_occursOn_pred (hmonthly : r.repeatType = repeatTypeMonthly) {day : Int} (h : r.OccursOn day) :
    ¬ r.OccursOn (day - 1) := by
  rw [occursOn_monthly_iff hmonthly] at h ⊢
  intro hpred
  have hne := Calendar.day_ofDays_succ_ne (day - 1)
  rw [sub_add_cancel, h, hpred] at hne
  exact hne rfl

/-- **The windows of the code are the occurrences** exactly where the condition says so. -/
theorem codeWindow_iff_inOccurrence_iff (hpos : 0 < r.duration.toInt)
    (hday : r.duration.toInt < Go.dayNanos) :
    (r.CodeWindow ((Go.Location.fixed offset).wall now) ↔ r.InOccurrence (.fixed offset) now) ↔
      r.Kept ((Go.Location.fixed offset).wall now) := by
  rw [inOccurrence_iff hpos hday]
  set wall := (Go.Location.fixed offset).wall now
  have htime := Go.timeOfDay_bounds wall
  have hs := r.startOfDay_bounds
  have hcutStart : Go.cutSeconds r.startOfDay ≤ r.startOfDay := by
    unfold Go.cutSeconds Go.minuteNanos
    omega
  have hcutEnd : Go.cutSeconds r.endOfDay ≤ r.endOfDay := by
    unfold Go.cutSeconds Go.minuteNanos
    omega
  have hend : r.endOfDay < r.startOfDay + Go.dayNanos := by
    unfold endOfDay
    omega
  rcases lt_or_ge r.endOfDay Go.dayNanos with hlt | hge
  · -- both are on the current day
    have hcode : r.CodeWindow wall ↔ r.OccursOn (Go.dayOf wall) ∧
        Go.cutSeconds r.startOfDay < Go.timeOfDay wall ∧ Go.timeOfDay wall < Go.cutSeconds r.endOfDay :=
      ⟨fun h => ⟨h.1, h.2.1, h.2.2.1 hlt⟩, fun h => ⟨h.1, h.2.1, fun _ => h.2.2, fun hge => absurd hlt hge.not_gt⟩⟩
    have hnone : ¬ (r.OccursOn (Go.dayOf wall - 1) ∧ Go.timeOfDay wall + Go.dayNanos < r.endOfDay) := by
      rintro ⟨-, hlate⟩
      omega
    rw [hcode, or_iff_left hnone]
    constructor
    · intro h
      refine ⟨fun _ hoccurs => ?_, fun hge => absurd hlt hge.not_gt, fun hge => absurd hlt hge.not_gt,
        fun hge => absurd hlt hge.not_gt⟩
      constructor
      · rintro ⟨hafter, hle, hbefore⟩
        have hin := h.mp ⟨hoccurs, hafter, hbefore⟩
        omega
      · rintro ⟨hle, hafter, hbefore⟩
        have hin := h.mpr ⟨hoccurs, hafter, hbefore⟩
        omega
    · intro h
      constructor
      · rintro ⟨hoccurs, hafter, hbefore⟩
        have hnot := (h.seconds hlt hoccurs).1
        exact ⟨hoccurs, by omega, by omega⟩
      · rintro ⟨hoccurs, hafter, hbefore⟩
        have hnot := (h.seconds hlt hoccurs).2
        exact ⟨hoccurs, by omega, by omega⟩
  · by_cases hmonth : r.repeatType = repeatTypeMonthly ∧ r.HasNextDay
    · -- the code has what lies before midnight
      have hcode : r.CodeWindow wall ↔ r.OccursOn (Go.dayOf wall) ∧
          Go.cutSeconds r.startOfDay < Go.timeOfDay wall :=
        ⟨fun h => ⟨h.1, h.2.1⟩, fun h => ⟨h.1, h.2, fun hlt => absurd hlt hge.not_gt, fun _ => hmonth⟩⟩
      have hpred : r.OccursOn (Go.dayOf wall) → ¬ r.OccursOn (Go.dayOf wall - 1) :=
        not_occursOn_pred hmonth.1
      rw [hcode]
      constructor
      · intro h
        refine ⟨fun hlt => absurd hlt hge.not_gt, fun _ hoccurs => ?_, fun _ _ hnot => absurd hmonth hnot,
          fun _ hoccurs _ _ => ?_⟩
        · by_contra hlate
          have hin := h.mpr (.inr ⟨hoccurs, by omega⟩)
          exact hpred hin.1 hoccurs
        · rintro ⟨hafter, hle⟩
          rcases h.mp ⟨hoccurs, hafter⟩ with hin | ⟨hyesterday, -⟩
          · omega
          · exact hpred hoccurs hyesterday
      · intro h
        constructor
        · rintro ⟨hoccurs, hafter⟩
          have hnot := h.monthly hge hoccurs hmonth.1 hmonth.2
          exact .inl ⟨hoccurs, by omega, by omega⟩
        · rintro (⟨hoccurs, hafter, -⟩ | ⟨hoccurs, hlate⟩)
          · exact ⟨hoccurs, by omega⟩
          · have hle := h.after_midnight hge hoccurs
            omega
    · -- the code has nothing
      have hcode : ¬ r.CodeWindow wall := fun h => hmonth (h.2.2.2 hge)
      constructor
      · intro h
        refine ⟨fun hlt => absurd hlt hge.not_gt, fun _ hoccurs => ?_, fun _ hoccurs _ => ?_,
          fun _ _ hmonthly hnext => absurd ⟨hmonthly, hnext⟩ hmonth⟩
        · by_contra hlate
          exact hcode (h.mpr (.inr ⟨hoccurs, by omega⟩))
        · by_contra hafter
          exact hcode (h.mpr (.inl ⟨hoccurs, by omega, by omega⟩))
      · intro h
        refine iff_of_false hcode ?_
        rintro (⟨hoccurs, hafter, -⟩ | ⟨hoccurs, hlate⟩)
        · have hle := h.before_midnight hge hoccurs hmonth
          omega
        · have hle := h.after_midnight hge hoccurs
          omega

end Recurrence

/-! ### `shouldSkip` -/

/-- Within a fixed schedule. -/
def Schedule.InFixed (s : Schedule) (now : Go.Time) : Prop :=
  s.isFixed = true ∧ now.after s.startTime.time = true ∧ now.before s.endTime.time = true

section ShouldSkip

variable {loadLocation : String → Option Go.Location} {m : PlannedMaintenance} {ruleID : String}
  {r : Recurrence} {startOffset : Int}

/-- Between the start and the end it is the fixed schedule or the window. -/
theorem shouldSkip_iff (hcovers : m.covers ruleID = true) (hr : m.schedule.recurrence = some r)
    (hloc : loadLocation m.schedule.timezone = some (.fixed offset))
    (hafter : now.before r.startTime.time = false)
    (hbefore : r.end.isZero = true ∨ now.after r.end = false) :
    m.shouldSkip loadLocation ruleID now = true ↔
      m.schedule.InFixed now ∨ r.checkWindow (.fixed offset) ⟨now, .fixed offset⟩ = true := by
  have hskips : r.skips (.fixed offset) now = r.checkWindow (.fixed offset) ⟨now, .fixed offset⟩ := by
    have hend : (!r.end.isZero && now.after r.end) = false := by
      rcases hbefore with hzero | hbefore
      · rw [hzero]
        rfl
      · rw [hbefore, Bool.and_false]
    rw [Recurrence.skips, hafter, hend, if_neg Bool.false_ne_true, if_neg Bool.false_ne_true]
  unfold PlannedMaintenance.shouldSkip Schedule.checkFixed Schedule.InFixed
  rw [if_pos hcovers, hr, hloc]
  dsimp only
  rw [hskips]
  cases m.schedule.isFixed with
  | false =>
    rw [if_neg Bool.false_ne_true]
    simp only [Bool.false_eq_true, false_and, false_or]
  | true =>
    rw [if_pos rfl]
    by_cases hin : (now.after m.schedule.startTime.time && now.before m.schedule.endTime.time) = true
    · rw [if_pos hin]
      exact iff_of_true rfl (.inl ⟨rfl, Bool.and_eq_true_iff.mp hin⟩)
    · rw [if_neg hin]
      rw [Bool.and_eq_true] at hin
      exact (or_iff_right fun hfixed => hin hfixed.2).symm

/-- **When an alert is muted exactly within the occurrences**: within a fixed schedule if there is an
occurrence, and otherwise where the windows of the code are those of the recurrence. -/
theorem shouldSkip_right_iff (hcovers : m.covers ruleID = true) (hr : m.schedule.recurrence = some r)
    (hloc : loadLocation m.schedule.timezone = some (.fixed offset))
    (hstart : r.startTime.loc = .fixed startOffset)
    (htype : r.repeatType ∈ [repeatTypeDaily, repeatTypeWeekly, repeatTypeMonthly])
    (hpos : 0 < r.duration.toInt) (hday : r.duration.toInt < Go.dayNanos)
    (hafter : now.before r.startTime.time = false)
    (hbefore : r.end.isZero = true ∨ now.after r.end = false) :
    (m.shouldSkip loadLocation ruleID now = true ↔ r.InOccurrence (.fixed offset) now) ↔
      (m.schedule.InFixed now → r.InOccurrence (.fixed offset) now) ∧
      (¬ m.schedule.InFixed now → r.Kept ((Go.Location.fixed offset).wall now)) := by
  rw [shouldSkip_iff hcovers hr hloc hafter hbefore, Recurrence.checkWindow_iff hstart hpos hday htype,
    ← Recurrence.codeWindow_iff_inOccurrence_iff hpos hday]
  by_cases hfixed : m.schedule.InFixed now
  · simp only [hfixed, true_or, true_iff, forall_true_left, not_true_eq_false, false_implies, and_true]
  · simp only [hfixed, false_or, false_implies, true_and, not_false_eq_true, forall_true_left]

end ShouldSkip

/-! ### An occurrence past midnight -/

def january (day hour minute : Int) : Go.ZonedTime := Go.date ⟨2024, 1, day⟩ hour minute 0 0 (.fixed 0)

/-- Every day in UTC, from January 1 at some hour for two hours. -/
def dailyRecurrence (hour : Int) : Recurrence :=
  ⟨january 1 hour 0, none, 7200000000000, repeatTypeDaily, none⟩

def dailyMaintenance (hour : Int) : PlannedMaintenance :=
  ⟨⟨"UTC", .zero, .zero, some (dailyRecurrence hour)⟩, none⟩

def utcOnly (timezone : String) : Option Go.Location := if timezone = "UTC" then some (.fixed 0) else none

/-- At noon, ten minutes after the start. -/
theorem shouldSkip_right_noon :
    ((dailyMaintenance 12).shouldSkip utcOnly "rule" (january 1 12 10).time = true ↔
        (dailyRecurrence 12).InOccurrence (.fixed 0) (january 1 12 10).time) ↔
      ((dailyMaintenance 12).schedule.InFixed (january 1 12 10).time →
        (dailyRecurrence 12).InOccurrence (.fixed 0) (january 1 12 10).time) ∧
      (¬ (dailyMaintenance 12).schedule.InFixed (january 1 12 10).time →
        (dailyRecurrence 12).Kept ((Go.Location.fixed 0).wall (january 1 12 10).time)) :=
  shouldSkip_right_iff rfl rfl rfl rfl (by decide) (by decide) (by decide) (by decide +kernel)
    (.inl (by decide))

/-- Half an hour after the start, with the end on the next day. -/
theorem not_shouldSkip_right_midnight :
    ¬ ((dailyMaintenance 23).shouldSkip utcOnly "rule" (january 2 23 30).time = true ↔
      (dailyRecurrence 23).InOccurrence (.fixed 0) (january 2 23 30).time) := by
  intro h
  have hoccurs : (dailyRecurrence 23).InOccurrence (.fixed 0) (january 2 23 30).time :=
    ⟨Calendar.Date.toDays ⟨2024, 1, 2⟩, Recurrence.occursOn_daily rfl _, by decide +kernel, by decide +kernel⟩
  have hskip : (dailyMaintenance 23).shouldSkip utcOnly "rule" (january 2 23 30).time = false := by
    decide +kernel
  exact Bool.false_ne_true (hskip.symm.trans (h.mpr hoccurs))

end Rules
end QueryService
