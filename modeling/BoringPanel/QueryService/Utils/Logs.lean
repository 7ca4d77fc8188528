import BoringPanel.Lib.Windowed
import BoringPanel.Lib.Go
import Mathlib.Tactic.Ring
import Mathlib.Tactic.Linarith

/-!
# Time windows of list queries

`GetEpochNanoSecs` (`utils/format.go`) and `GetListTsRanges` (`utils/logs.go`). A list query over
more than an hour is read through windows that double in size towards the past.
`getListTsRanges_eq_windows`: these are closed windows that meet at their boundaries, from the end
of the range down to its start. `getListTsRanges_covers`: for instants in any unit, from the first
second with ten digits on, the windows are contiguous and cover the range, and the loop is done
after 64 rounds that do not leave the `int64`.
-/

namespace QueryService
namespace Utils

/-! ### Epochs in nanoseconds -/

/-- The loop that counts the digits of an epoch. An `int64` has at most 19. -/
def countDigits : Nat → Int → Nat → Nat
  | 0, _, count => count
  | fuel + 1, epoch, count =>
    if epoch = 0 then count else countDigits fuel (epoch.tdiv 10) (count + 1)

/-- The epoch in nanoseconds, from an epoch in any unit: it is scaled to 19 digits. -/
def getEpochNanoSecs (epoch : Int) : Int :=
  let count := if epoch = 0 then 1 else countDigits 19 epoch 0
  Go.int64 (epoch * 10 ^ (19 - count))

theorem countDigits_eq {k : Nat} :
    ∀ {fuel : Nat} {epoch : Int} {count : Nat}, k < fuel → 10 ^ k ≤ epoch →
      epoch < 10 ^ (k + 1) → countDigits fuel epoch count = count + k + 1 := by
  induction k with
  | zero =>
    intro fuel epoch count hf hl hu
    obtain ⟨fuel, rfl⟩ := Nat.exists_eq_succ_of_ne_zero (by omega : fuel ≠ 0)
    have hdiv : epoch.tdiv 10 = 0 := by
      rw [Int.tdiv_eq_ediv_of_nonneg (by omega)]
      omega
    simp only [countDigits, hdiv]
    rw [if_neg (by omega)]
    cases fuel <;> simp [countDigits]
  | succ k ih =>
    intro fuel epoch count hf hl hu
    obtain ⟨fuel, rfl⟩ := Nat.exists_eq_succ_of_ne_zero (by omega : fuel ≠ 0)
    have hpos : (0 : Int) < 10 ^ k := by positivity
    rw [pow_succ] at hl
    rw [pow_succ (10 : Int) (k + 1), pow_succ] at hu
    have hdiv : epoch.tdiv 10 = epoch / 10 := Int.tdiv_eq_ediv_of_nonneg (by omega)
    have hl' : (10 : Int) ^ k ≤ epoch / 10 := by omega
    have hu' : epoch / 10 < 10 ^ (k + 1) := by
      rw [pow_succ]
      omega
    simp only [countDigits, hdiv]
    rw [if_neg (by omega), ih (by omega) hl' hu']
    omega

/-- A time that already has 19 digits is in nanoseconds. -/
theorem getEpochNanoSecs_eq {n : Int} (hl : 10 ^ 18 ≤ n) (hu : n < 2 ^ 63) :
    getEpochNanoSecs n = n := by
  have hcount : countDigits 19 n 0 = 19 := by
    rw [countDigits_eq (k := 18) (by decide) hl (lt_trans hu (by norm_num))]
  unfold getEpochNanoSecs
  rw [if_neg (by omega), hcount]
  simpa using Go.int64_eq (by omega) hu

theorem getEpochNanoSecs_lt (n : Int) : getEpochNanoSecs n < 2 ^ 63 := Go.int64_lt _

/-! ### The windows -/

def hourNano : Int := 3600000000000

structure LogsListTsRange where
  start : Int
  end_ : Int
deriving DecidableEq, Repr

/-- The loop of `GetListTsRanges`. The buckets double, so 64 rounds are more than an `int64` range
has room for (`tsRangesLoop_eq`). -/
def tsRangesLoop (startNano : Int) :
    Nat → (bucket endNano tStartNano : Int) → (complete : Bool) → List LogsListTsRange
  | 0, _, _, _, _ => []
  | fuel + 1, bucket, endNano, tStartNano, complete =>
    ⟨tStartNano, endNano⟩ ::
      if complete then []
      else
        let bucket := bucket * 2
        let endNano := tStartNano
        let tStartNano := tStartNano - bucket
        -- break condition
        if tStartNano ≤ startNano then tsRangesLoop startNano fuel bucket endNano startNano true
        else tsRangesLoop startNano fuel bucket endNano tStartNano false

def getListTsRanges (start end_ : Int) : List LogsListTsRange :=
  let startNano := getEpochNanoSecs start
  let endNano := getEpochNanoSecs end_
  if Go.int64 (endNano - startNano) > hourNano then
    tsRangesLoop startNano 64 hourNano endNano (endNano - hourNano) false
  else [⟨start, end_⟩]

/-- The range in nanoseconds, as a query states it. -/
def LogsListTsRange.nanos (r : LogsListTsRange) : Int × Int :=
  (getEpochNanoSecs r.start, getEpochNanoSecs r.end_)

/-- The rounds that are left suffice: the buckets to come are longer than the range that is left. -/
theorem tsRangesLoop_eq_windows (startNano : Int) :
    ∀ (fuel : Nat) {bucket endNano tStartNano : Int}, 0 < bucket →
      startNano < tStartNano → tStartNano < endNano →
      tStartNano - startNano ≤ bucket * 2 ^ (fuel + 1) →
      ∃ bs, Windowed.Boundaries startNano endNano bs ∧
        (tsRangesLoop startNano (fuel + 2) bucket endNano tStartNano false).map
          (fun r => (r.start, r.end_)) = Windowed.windows startNano endNano bs := by
  intro fuel
  induction fuel with
  | zero =>
    intro bucket endNano tStartNano hb hs he hfuel
    refine ⟨[tStartNano], Windowed.Boundaries.nil.cons hs he, ?_⟩
    simp only [tsRangesLoop, Bool.false_eq_true, if_false, if_true]
    rw [if_pos (by omega)]
    rfl
  | succ fuel ih =>
    intro bucket endNano tStartNano hb hs he hfuel
    by_cases hdone : tStartNano - bucket * 2 ≤ startNano
    · refine ⟨[tStartNano], Windowed.Boundaries.nil.cons hs he, ?_⟩
      simp only [tsRangesLoop, Bool.false_eq_true, if_false, if_true]
      rw [if_pos hdone]
      rfl
    · have hfuel' : tStartNano - bucket * 2 - startNano ≤ bucket * 2 * 2 ^ (fuel + 1) := by
        have : bucket * 2 ^ (fuel + 1 + 1) = bucket * 2 * 2 ^ (fuel + 1) := by ring
        omega
      obtain ⟨bs, hbs, hmap⟩ := ih (by omega : 0 < bucket * 2) (not_le.mp hdone)
        (by omega : tStartNano - bucket * 2 < tStartNano) hfuel'
      refine ⟨tStartNano :: bs, hbs.cons hs he, ?_⟩
      rw [Windowed.windows, ← hmap]
      conv_lhs => rw [tsRangesLoop]
      simp only [Bool.false_eq_true, if_false]
      rw [if_neg hdone]
      rfl

/-- The range is read through one window. -/
def SingleWindow (start end_ : Int) : Prop :=
  Go.int64 (getEpochNanoSecs end_ - getEpochNanoSecs start) ≤ hourNano

instance (start end_ : Int) : Decidable (SingleWindow start end_) :=
  inferInstanceAs (Decidable (_ ≤ _))

/-- The range needs one window, or it has an order and starts after the ninth of September 2001:
an earlier boundary has fewer than 19 digits in nanoseconds, and a query scales it a second time. -/
def ReadableRange (start end_ : Int) : Prop :=
  SingleWindow start end_ ∨
    10 ^ 18 ≤ getEpochNanoSecs start ∧ getEpochNanoSecs start ≤ getEpochNanoSecs end_

instance (start end_ : Int) : Decidable (ReadableRange start end_) :=
  inferInstanceAs (Decidable (_ ∨ _))

/-- More than an hour is read through the windows of the loop. -/
theorem getListTsRanges_eq_loop {start end_ : Int} (hlong : ¬ SingleWindow start end_)
    (hstart : 10 ^ 18 ≤ getEpochNanoSecs start)
    (hle : getEpochNanoSecs start ≤ getEpochNanoSecs end_) :
    ∃ bs, Windowed.Boundaries (getEpochNanoSecs start) (getEpochNanoSecs end_) bs ∧
      (getListTsRanges start end_).map (fun r => (r.start, r.end_)) =
        Windowed.windows (getEpochNanoSecs start) (getEpochNanoSecs end_) bs := by
  have hend := getEpochNanoSecs_lt end_
  have hgt := not_le.mp hlong
  set lo := getEpochNanoSecs start with hlo
  set hi := getEpochNanoSecs end_ with hhi
  have hwrap : Go.int64 (hi - lo) = hi - lo := Go.int64_eq (by omega) (by omega)
  have hhour : hourNano = 3600000000000 := rfl
  have hhourpos : 0 < hourNano := by decide
  have hmore : hourNano < hi - lo := hwrap ▸ hgt
  have hstarted : lo < hi - hourNano := by omega
  have hended : hi - hourNano < hi := by omega
  obtain ⟨bs, hbs, hmap⟩ := tsRangesLoop_eq_windows lo 62 hhourpos
    hstarted hended (by norm_num [hhour]; omega)
  refine ⟨bs, hbs, ?_⟩
  rw [getListTsRanges, if_pos (by rw [← hhi, ← hlo, hwrap]; exact hmore), ← hmap]

/-- The windows of the loop are in nanoseconds, and a query leaves them as they are. -/
theorem nanos_of_mem_loop {start end_ : Int} (hlong : ¬ SingleWindow start end_)
    (hstart : 10 ^ 18 ≤ getEpochNanoSecs start)
    (hle : getEpochNanoSecs start ≤ getEpochNanoSecs end_) {r : LogsListTsRange}
    (hr : r ∈ getListTsRanges start end_) : r.nanos = (r.start, r.end_) := by
  have hend := getEpochNanoSecs_lt end_
  obtain ⟨bs, hbs, hmap⟩ := getListTsRanges_eq_loop hlong hstart hle
  have hmem : (r.start, r.end_) ∈ Windowed.windows _ _ bs :=
    hmap ▸ List.mem_map_of_mem hr
  -- all ends of windows have 19 digits
  obtain ⟨h₁, h₂, h₃⟩ := Windowed.mem_windows hle hbs hmem
  simp only [LogsListTsRange.nanos]
  rw [getEpochNanoSecs_eq (by omega) (by omega), getEpochNanoSecs_eq (by omega) (by omega)]

/-- **The windows of a list query** are finitely many, meet at their boundaries and cover the range,
newest first. -/
theorem getListTsRanges_eq_windows {start end_ : Int}
    (h : ReadableRange start end_) :
    ∃ bs, Windowed.Boundaries (getEpochNanoSecs start) (getEpochNanoSecs end_) bs ∧
      (getListTsRanges start end_).map LogsListTsRange.nanos =
        Windowed.windows (getEpochNanoSecs start) (getEpochNanoSecs end_) bs := by
  by_cases hsingle : SingleWindow start end_
  · refine ⟨[], Windowed.Boundaries.nil, ?_⟩
    rw [getListTsRanges, if_neg (not_lt.mpr hsingle)]
    rfl
  · obtain ⟨hstart, hle⟩ := h.resolve_left hsingle
    obtain ⟨bs, hbs, hmap⟩ := getListTsRanges_eq_loop hsingle hstart hle
    refine ⟨bs, hbs, ?_⟩
    rw [← hmap]
    exact List.map_congr_left fun r hr => nanos_of_mem_loop hsingle hstart hle hr

/-! ### Instants in every unit -/

/-- The units in which an instant is given. -/
inductive EpochUnit where
  | seconds
  | milliseconds
  | microseconds
  | nanoseconds
deriving DecidableEq, Repr

/-- The digits that an instant loses in a unit. -/
def EpochUnit.digits : EpochUnit → Nat
  | .seconds => 9
  | .milliseconds => 6
  | .microseconds => 3
  | .nanoseconds => 0

/-- The nanoseconds of a unit. -/
def EpochUnit.nanos (u : EpochUnit) : Int := 10 ^ u.digits

/-- `int64(math.Pow(10, float64(19-count)))`: a `float64` holds these powers exactly. -/
def epochFactor (epoch : Int) : Int :=
  10 ^ (19 - if epoch = 0 then 1 else countDigits 19 epoch 0)

theorem getEpochNanoSecs_eq_factor (epoch : Int) :
    getEpochNanoSecs epoch = Go.int64 (epoch * epochFactor epoch) := rfl

/-- From the second `10 ^ 9` on, the digits of an instant tell its unit. -/
theorem epochFactor_eq {u : EpochUnit} {a : Int} (hl : 10 ^ 18 ≤ a * u.nanos)
    (hu : a * u.nanos < 2 ^ 63) : epochFactor a = u.nanos := by
  have hpow : (10 : Int) ^ 18 = 10 ^ (18 - u.digits) * u.nanos := by cases u <;> decide
  have hpow' : (10 : Int) ^ 19 = 10 ^ (18 - u.digits + 1) * u.nanos := by cases u <;> decide
  have hpos : 0 < u.nanos := by cases u <;> decide
  have hlow : 10 ^ (18 - u.digits) ≤ a := by
    rw [hpow] at hl
    exact le_of_mul_le_mul_right hl hpos
  have hhigh : a < 10 ^ (18 - u.digits + 1) := by
    have : a * u.nanos < 10 ^ (18 - u.digits + 1) * u.nanos := by
      rw [← hpow']
      exact lt_trans hu (by norm_num)
    exact lt_of_mul_lt_mul_right this hpos.le
  have hzero : a ≠ 0 := by
    have : (0 : Int) < 10 ^ (18 - u.digits) := by positivity
    omega
  unfold epochFactor EpochUnit.nanos
  rw [if_neg hzero, countDigits_eq (by omega) hlow hhigh]
  cases u <;> rfl

theorem getEpochNanoSecs_unit {u : EpochUnit} {a : Int} (hl : 10 ^ 18 ≤ a * u.nanos)
    (hu : a * u.nanos < 2 ^ 63) : getEpochNanoSecs a = a * u.nanos := by
  rw [getEpochNanoSecs_eq_factor, epochFactor_eq hl hu]
  exact Go.int64_eq (by omega) hu

/-! ### The loop in `int64` arithmetic -/

/-- The loop of `GetListTsRanges` with each sum and product in `int64`, and `none` where it is not
done after so many rounds. -/
def tsRangesRun (startNano : Int) :
    Nat → (bucket endNano tStartNano : Int) → (complete : Bool) → Option (List LogsListTsRange)
  | 0, _, _, _, _ => none
  | rounds + 1, bucket, endNano, tStartNano, complete =>
    if complete then some [⟨tStartNano, endNano⟩]
    else
      let bucket := Go.int64 (bucket * 2)
      let next := Go.int64 (tStartNano - bucket)
      (if next ≤ startNano then tsRangesRun startNano rounds bucket tStartNano startNano true
        else tsRangesRun startNano rounds bucket tStartNano next false).map
          (⟨tStartNano, endNano⟩ :: ·)

/-- `GetListTsRanges`, run for so many rounds of its loop. -/
def listTsRangesRun (rounds : Nat) (start end_ : Int) : Option (List LogsListTsRange) :=
  let startNano := getEpochNanoSecs start
  let endNano := getEpochNanoSecs end_
  if Go.int64 (endNano - startNano) > hourNano then
    tsRangesRun startNano rounds hourNano endNano (Go.int64 (endNano - hourNano)) false
  else some [⟨start, end_⟩]

/-- The windows read so far are an hour shorter than two buckets, so neither the next bucket nor
the next start leaves the `int64`. -/
theorem tsRangesRun_eq {startNano hi : Int} (hstart : 10 ^ 18 ≤ startNano) (hhi : hi < 2 ^ 63) :
    ∀ (fuel extra : Nat) {bucket endNano tStartNano : Int}, hourNano ≤ bucket →
      bucket * 2 = hi - tStartNano + hourNano →
      startNano < tStartNano → tStartNano - startNano ≤ bucket * 2 ^ (fuel + 1) →
      tsRangesRun startNano (fuel + 2 + extra) bucket endNano tStartNano false =
        some (tsRangesLoop startNano (fuel + 2) bucket endNano tStartNano false) := by
  have hhour : hourNano = 3600000000000 := rfl
  intro fuel extra
  induction fuel with
  | zero =>
    intro bucket endNano tStartNano hb hsum hs hfuel
    have hdone : tStartNano - bucket * 2 ≤ startNano := by omega
    have hbucket : Go.int64 (bucket * 2) = bucket * 2 := Go.int64_eq (by omega) (by omega)
    have hnext : Go.int64 (tStartNano - bucket * 2) = tStartNano - bucket * 2 :=
      Go.int64_eq (by omega) (by omega)
    rw [show 0 + 2 + extra = extra + 1 + 1 by omega, tsRangesRun]
    simp only [tsRangesRun, tsRangesLoop, hbucket, hnext, Bool.false_eq_true, if_false, if_true]
    rw [if_pos hdone, if_pos hdone]
    rfl
  | succ fuel ih =>
    intro bucket endNano tStartNano hb hsum hs hfuel
    have hbucket : Go.int64 (bucket * 2) = bucket * 2 := Go.int64_eq (by omega) (by omega)
    have hnext : Go.int64 (tStartNano - bucket * 2) = tStartNano - bucket * 2 :=
      Go.int64_eq (by omega) (by omega)
    rw [show fuel + 1 + 2 + extra = fuel + 2 + extra + 1 by omega, tsRangesRun]
    simp only [hbucket, hnext, Bool.false_eq_true, if_false]
    rw [show fuel + 1 + 2 = fuel + 2 + 1 by omega, tsRangesLoop]
    simp only [Bool.false_eq_true, if_false]
    by_cases hdone : tStartNano - bucket * 2 ≤ startNano
    · rw [if_pos hdone, if_pos hdone, show fuel + 2 + extra = fuel + 1 + extra + 1 by omega]
      simp [tsRangesRun, tsRangesLoop]
    · have hfuel' : tStartNano - bucket * 2 - startNano ≤ bucket * 2 * 2 ^ (fuel + 1) := by
        have : bucket * 2 ^ (fuel + 1 + 1) = bucket * 2 * 2 ^ (fuel + 1) := by ring
        omega
      rw [if_neg hdone, if_neg hdone,
        ih (by omega) (by omega) (not_le.mp hdone) hfuel']
      rfl

/-- The loop is done after 64 rounds, and wraps in none of them. -/
theorem listTsRangesRun_eq {start end_ : Int} (hstart : 10 ^ 18 ≤ getEpochNanoSecs start)
    (hle : getEpochNanoSecs start ≤ getEpochNanoSecs end_) (extra : Nat) :
    listTsRangesRun (64 + extra) start end_ = some (getListTsRanges start end_) := by
  have hend := getEpochNanoSecs_lt end_
  have hhour : hourNano = 3600000000000 := rfl
  unfold listTsRangesRun getListTsRanges
  simp only []
  by_cases hlong : Go.int64 (getEpochNanoSecs end_ - getEpochNanoSecs start) > hourNano
  · rw [if_pos hlong, if_pos hlong, Go.int64_eq (by omega) (by omega)]
    rw [Go.int64_eq (by omega) (by omega)] at hlong
    exact tsRangesRun_eq hstart hend 62 extra le_rfl (by omega) (by omega)
      (by norm_num [hhour]; omega)
  · rw [if_neg hlong, if_neg hlong]

/-- The windows stand from the newest to the oldest, each ends where the one before it starts, and
together they hold what lies between `lo` and `hi`. -/
structure TsRangesCover (lo hi : Int) (ws : List (Int × Int)) : Prop where
  contiguous : ws.IsChain fun w w' => w'.2 = w.1
  ordered : ∀ w ∈ ws, w.1 ≤ w.2
  disjoint : ws.Pairwise fun w w' => w'.2 ≤ w.1
  union : ∀ t, (∃ w ∈ ws, w.1 ≤ t ∧ t ≤ w.2) ↔ lo ≤ t ∧ t ≤ hi

/-- **The windows between two instants**, each in a unit of its own, from the second `10 ^ 9` on. -/
theorem getListTsRanges_covers {u v : EpochUnit} {a b : Int} (hfrom : 10 ^ 18 ≤ a * u.nanos)
    (hle : a * u.nanos ≤ b * v.nanos) (hto : b * v.nanos < 2 ^ 63) :
    (a * epochFactor a = a * u.nanos ∧ getEpochNanoSecs a = a * u.nanos) ∧
      (b * epochFactor b = b * v.nanos ∧ getEpochNanoSecs b = b * v.nanos) ∧
      getEpochNanoSecs a ≤ getEpochNanoSecs b ∧
      (∀ rounds ≥ 64, listTsRangesRun rounds a b = some (getListTsRanges a b)) ∧
      (¬ SingleWindow a b → ∀ r ∈ getListTsRanges a b, r.nanos = (r.start, r.end_)) ∧
      TsRangesCover (a * u.nanos) (b * v.nanos)
        ((getListTsRanges a b).map LogsListTsRange.nanos) := by
  have ha := getEpochNanoSecs_unit hfrom (by omega)
  have hb := getEpochNanoSecs_unit (hfrom.trans hle) hto
  have hstart : 10 ^ 18 ≤ getEpochNanoSecs a := ha ▸ hfrom
  have hab : getEpochNanoSecs a ≤ getEpochNanoSecs b := by
    rw [ha, hb]
    exact hle
  obtain ⟨bs, hbs, hmap⟩ := getListTsRanges_eq_windows (.inr ⟨hstart, hab⟩)
  rw [epochFactor_eq hfrom (by omega), epochFactor_eq (hfrom.trans hle) hto]
  refine ⟨⟨rfl, ha⟩, ⟨rfl, hb⟩, hab, ?_,
    fun hlong r hr => nanos_of_mem_loop hlong hstart hab hr, ?_⟩
  · intro rounds hrounds
    obtain ⟨extra, rfl⟩ := Nat.exists_eq_add_of_le hrounds
    exact listTsRangesRun_eq hstart hab extra
  · rw [hmap, ← ha, ← hb]
    exact { contiguous := Windowed.isChain_windows _ bs _
            ordered := fun w hw => (Windowed.mem_windows hab hbs hw).2.1
            disjoint := Windowed.pairwise_windows hbs
            union := fun t => Windowed.exists_mem_windows_iff hab hbs }

/-- A day that starts in seconds and ends in milliseconds. -/
theorem getListTsRanges_covers_day :
    (1722171576 : Int) * EpochUnit.seconds.nanos ≤ 1722262800000 * EpochUnit.milliseconds.nanos ∧
      TsRangesCover 1722171576000000000 1722262800000000000
        ((getListTsRanges 1722171576 1722262800000).map LogsListTsRange.nanos) :=
  ⟨by decide, (getListTsRanges_covers (a := 1722171576) (b := 1722262800000) (u := .seconds)
    (v := .milliseconds) (by decide) (by decide) (by decide)).2.2.2.2.2⟩

/-- The first seconds of the ninth of September 2001 have nine digits, so that they are scaled by
`10 ^ 10`, which wraps. -/
theorem getEpochNanoSecs_first_digits :
    (999993600 : Int) * EpochUnit.seconds.nanos < 2 ^ 63 ∧
      getEpochNanoSecs 999993600 ≠ 999993600 * EpochUnit.seconds.nanos ∧
      999993600 * epochFactor 999993600 ≥ 2 ^ 63 := by
  decide

end Utils
end QueryService
