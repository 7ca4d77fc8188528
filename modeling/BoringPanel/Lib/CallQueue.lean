import BoringPanel.Lib.Runs
import Mathlib.Logic.Relation
import Mathlib.Data.Nat.Find

/-!
# Calls in a queue

An object whose operations wait now and then for answers from outside, and a queue that lets an operation
begin when the one before it has been released. Operations are called at any moment.

The operations take effect one at a time in the order of their calls: what has ended so far is what they
give one after another, one operation may be in progress, and those behind it have not begun
(`serial_of_run`). If every answer comes at last, then every call settles (`Execution.settles`).
-/

namespace CallQueue

variable {T P A W O : Type}

/-- Operations on a world. They end, or wait for an answer; `rank` bounds how often they still wait. -/
structure Operations (T P A W O : Type) where
  start : T → W → W × (P ⊕ O)
  resume : P → A → W → W × (P ⊕ O)
  rank : P → Nat
  rank_resume : ∀ p a w p', (resume p a w).2 = .inl p' → rank p' < rank p

/-- What is known of a call. -/
inductive Stage (P O : Type) where
  | waiting
  | pending (p : P)
  | ended (o : O)
  | settled (o : O)

def Stage.of : P ⊕ O → Stage P O
  | .inl p => .pending p
  | .inr o => .ended o

structure State (T P W O : Type) where
  world : W
  calls : List (T × Stage P O)

inductive Label (T A : Type) where
  | call (t : T)
  | start (i : Nat)
  | answer (i : Nat) (a : A)
  | release (i : Nat)

/-- The call that takes a step. -/
def Label.mover : Label T A → Option Nat
  | .call _ => none
  | .start i | .answer i _ | .release i => some i

/-- The operations that are called, in order. -/
def called : List (Label T A) → List T
  | [] => []
  | .call t :: as => t :: called as
  | .start _ :: as | .answer _ _ :: as | .release _ :: as => called as

theorem called_append (as bs : List (Label T A)) : called (as ++ bs) = called as ++ called bs := by
  induction as with
  | nil => rfl
  | cons a as ih =>
    cases a with
    | call t => exact congrArg (t :: ·) ih
    | start i => exact ih
    | answer i a => exact ih
    | release i => exact ih

section Steps

variable (ops : Operations T P A W O)

/-- A call waits for the release of the one before it. -/
def Released (s : State T P W O) (i : Nat) : Prop :=
  ∀ j, i = j + 1 → ∃ t o, s.calls[j]? = some (t, .settled o)

inductive Step : State T P W O → Label T A → State T P W O → Prop
  | call {s} (t) : Step s (.call t) ⟨s.world, s.calls ++ [(t, .waiting)]⟩
  | start {s i t} (h : s.calls[i]? = some (t, .waiting)) (hprevious : Released s i) :
      Step s (.start i)
        ⟨(ops.start t s.world).1, s.calls.set i (t, .of (ops.start t s.world).2)⟩
  | answer {s i t p} (a) (h : s.calls[i]? = some (t, .pending p)) :
      Step s (.answer i a)
        ⟨(ops.resume p a s.world).1, s.calls.set i (t, .of (ops.resume p a s.world).2)⟩
  | release {s i t o} (h : s.calls[i]? = some (t, .ended o)) :
      Step s (.release i) ⟨s.world, s.calls.set i (t, .settled o)⟩

/-! ### One at a time -/

/-- An answer comes to an operation that waits. -/
inductive Resumes : W × (P ⊕ O) → W × (P ⊕ O) → Prop
  | resume (p : P) (a : A) (w : W) : Resumes (w, .inl p) (ops.resume p a w)

/-- What an operation in progress comes to, with nothing in between. -/
def Ends (progress : W × (P ⊕ O)) (w : W) (o : O) : Prop :=
  Relation.ReflTransGen (Resumes ops) progress (w, .inr o)

/-- An operation, with nothing in between. -/
def Performs (t : T) (w w' : W) (o : O) : Prop := Ends ops (ops.start t w) w' o

/-- Operations one after another, with what they end in. -/
inductive InOrder (w₀ : W) : List (T × O) → W → Prop
  | nil : InOrder w₀ [] w₀
  | snoc {ended w t w' o} (h : InOrder w₀ ended w) (hlast : Performs ops t w w' o) :
      InOrder w₀ (ended ++ [(t, o)]) w'

def settledCall (call : T × O) : T × Stage P O := (call.1, .settled call.2)

def waitingCall (t : T) : T × Stage P O := (t, .waiting)

/-- The calls that settled are the first ones, and the world is what they have made of it in their order;
after them, one call may be in progress; the others have not begun. -/
inductive Serial (w₀ : W) : State T P W O → Prop
  | idle {ended w} (h : InOrder ops w₀ ended w) (queued : List T) :
      Serial w₀ ⟨w, ended.map settledCall ++ queued.map waitingCall⟩
  | pending {ended w₁ t w p} (h : InOrder ops w₀ ended w₁)
      (hmiddle : Relation.ReflTransGen (Resumes ops) (ops.start t w₁) (w, .inl p)) (queued : List T) :
      Serial w₀ ⟨w, ended.map settledCall ++ (t, .pending p) :: queued.map waitingCall⟩
  | ended {ended t o w} (h : InOrder ops w₀ (ended ++ [(t, o)]) w) (queued : List T) :
      Serial w₀ ⟨w, ended.map settledCall ++ (t, .ended o) :: queued.map waitingCall⟩

end Steps

variable {ops : Operations T P A W O} {w₀ w : W} {s u : State T P W O} {a : Label T A}

theorem ends_inr_iff {w' : W} {o o' : O} : Ends ops (w, .inr o) w' o' ↔ w = w' ∧ o = o' := by
  constructor
  · intro h
    rcases h.cases_head with heq | ⟨next, hresumes, -⟩
    · obtain ⟨rfl, ho⟩ := Prod.mk.inj heq
      exact ⟨rfl, Sum.inr.inj ho⟩
    · cases hresumes
  · rintro ⟨rfl, rfl⟩
    exact .refl

theorem ends_inl_iff {p : P} {w' : W} {o : O} :
    Ends ops (w, .inl p) w' o ↔ ∃ a, Ends ops (ops.resume p a w) w' o := by
  constructor
  · intro h
    rcases h.cases_head with heq | ⟨next, hresumes, hrest⟩
    · cases heq
    · cases hresumes with
      | resume _ a _ => exact ⟨a, hrest⟩
  · rintro ⟨a, hrest⟩
    exact hrest.head (.resume p a w)

/-! ### Where a call stands -/

section Places

variable {ended : List (T × O)} {queued : List T} {t t' : T} {i : Nat}

theorem getElem?_settled {calls : List (T × Stage P O)} {stage : Stage P O}
    (h : (ended.map settledCall ++ calls)[i]? = some (t, stage)) (hstage : ∀ o, stage ≠ .settled o) :
    ∃ j, i = ended.length + j ∧ calls[j]? = some (t, stage) := by
  rcases Nat.lt_or_ge i ended.length with hlt | hge
  · rw [List.getElem?_append_left (by simpa using hlt), List.getElem?_map,
      List.getElem?_eq_getElem hlt] at h
    exact absurd (Prod.mk.inj (Option.some.inj h)).2.symm (hstage _)
  · rw [List.getElem?_append_right (by simpa using hge), List.length_map] at h
    exact ⟨i - ended.length, by omega, h⟩

theorem getElem?_waiting {stage : Stage P O} (h : (queued.map waitingCall)[i]? = some (t, stage)) :
    stage = .waiting := by
  rw [List.getElem?_map] at h
  obtain ⟨t', -, ht⟩ := Option.map_eq_some_iff.mp h
  exact (Prod.mk.inj ht).2.symm

/-- The call in progress is the only one that can go on. -/
theorem active_eq {stage stage' : Stage P O} (hsettled : ∀ o, stage' ≠ .settled o)
    (hwaiting : stage' ≠ .waiting)
    (h : (ended.map settledCall ++ (t, stage) :: queued.map waitingCall)[i]? = some (t', stage')) :
    i = ended.length ∧ t = t' ∧ stage = stage' := by
  obtain ⟨j, hj, hcall⟩ := getElem?_settled h hsettled
  cases j with
  | zero =>
    obtain ⟨ht, hstage⟩ := Prod.mk.inj (Option.some.inj hcall)
    exact ⟨hj, ht, hstage⟩
  | succ j =>
    rw [List.getElem?_cons_succ] at hcall
    exact absurd (getElem?_waiting hcall) hwaiting

theorem set_active (call call' : T × Stage P O) (calls : List (T × Stage P O)) :
    (ended.map settledCall ++ call :: calls).set ended.length call' =
      ended.map settledCall ++ call' :: calls := by
  rw [List.set_append_right _ _ (by simp)]
  simp

theorem map_settledCall_snoc (ended : List (T × O)) (t : T) (o : O) (calls : List (T × Stage P O)) :
    ended.map settledCall ++ (t, .settled o) :: calls =
      (ended ++ [(t, o)]).map settledCall ++ calls := by
  simp [settledCall]

/-- A call may begin when none is in progress, and then it is the next one. -/
theorem not_released {stage : Stage P O} (hsettled : ∀ o, stage ≠ .settled o)
    (hwaiting : stage ≠ .waiting)
    (h : (ended.map settledCall ++ (t, stage) :: queued.map waitingCall)[i]? = some (t', .waiting))
    (hprevious : Released ⟨w, ended.map settledCall ++ (t, stage) :: queued.map waitingCall⟩ i) :
    False := by
  obtain ⟨j, rfl, hcall⟩ := getElem?_settled h fun o => by simp
  cases j with
  | zero => exact hwaiting (Prod.mk.inj (Option.some.inj hcall)).2
  | succ j =>
    obtain ⟨t'', o, hbefore⟩ := hprevious (ended.length + j) rfl
    rw [List.getElem?_append_right (by simp), List.length_map, Nat.add_sub_cancel_left] at hbefore
    cases j with
    | zero => exact hsettled o (Prod.mk.inj (Option.some.inj hbefore)).2
    | succ j =>
      rw [List.getElem?_cons_succ] at hbefore
      exact absurd (getElem?_waiting hbefore) (by simp)

theorem next_eq
    (h : (ended.map settledCall ++ queued.map waitingCall : List (T × Stage P O))[i]? =
      some (t', .waiting))
    (hprevious : Released ⟨w, ended.map settledCall ++ queued.map (waitingCall (P := P))⟩ i) :
    ∃ rest, queued = t' :: rest ∧ i = ended.length := by
  obtain ⟨j, rfl, hcall⟩ := getElem?_settled h fun o => by simp
  cases j with
  | zero =>
    cases queued with
    | nil => simp at hcall
    | cons t rest =>
      obtain rfl := (Prod.mk.inj (Option.some.inj hcall)).1
      exact ⟨rest, rfl, rfl⟩
  | succ j =>
    obtain ⟨t'', o, hbefore⟩ := hprevious (ended.length + j) rfl
    rw [List.getElem?_append_right (by simp), List.length_map, Nat.add_sub_cancel_left] at hbefore
    exact absurd (getElem?_waiting hbefore) (by simp)

end Places

/-! ### Runs -/

/-- What a first call in the queue gives, ended or not. -/
theorem Serial.of_progress {ended : List (T × O)} {w₁ w' : W} {t : T} {r : P ⊕ O}
    (h : InOrder ops w₀ ended w₁)
    (hprogress : Relation.ReflTransGen (Resumes ops) (ops.start t w₁) (w', r)) (queued : List T) :
    Serial ops w₀ ⟨w', ended.map settledCall ++ (t, .of r) :: queued.map waitingCall⟩ := by
  cases r with
  | inl p => exact .pending h hprogress queued
  | inr o => exact .ended (h.snoc hprogress) queued

theorem Serial.step (h : Serial ops w₀ s) (hstep : Step ops s a u) : Serial ops w₀ u := by
  cases hstep with
  | call t =>
    -- the new call is the last one in the queue
    have hqueue : ∀ (calls : List (T × Stage P O)) (queued : List T),
        (calls ++ queued.map waitingCall) ++ [(t, .waiting)] =
          calls ++ (queued ++ [t]).map waitingCall := by
      intro calls queued
      rw [List.append_assoc, List.map_append]
      rfl
    have hbusy : ∀ (calls : List (T × Stage P O)) (call : T × Stage P O) (queued : List T),
        (calls ++ call :: queued.map waitingCall) ++ [(t, .waiting)] =
          calls ++ call :: (queued ++ [t]).map waitingCall := by
      intro calls call queued
      rw [List.append_cons calls, hqueue, ← List.append_cons]
    cases h with
    | idle h queued =>
      show Serial ops w₀ ⟨_, _ ++ _⟩
      rw [hqueue]
      exact .idle h _
    | pending h hmiddle queued =>
      show Serial ops w₀ ⟨_, _ ++ _⟩
      rw [hbusy]
      exact .pending h hmiddle _
    | ended h queued =>
      show Serial ops w₀ ⟨_, _ ++ _⟩
      rw [hbusy]
      exact .ended h _
  | @start i t hcall hprevious =>
    cases h with
    | idle h queued =>
      obtain ⟨rest, rfl, rfl⟩ := next_eq hcall hprevious
      show Serial ops w₀ ⟨_, List.set (_ ++ waitingCall t :: rest.map waitingCall) _ _⟩
      rw [set_active]
      exact .of_progress h .refl rest
    | pending h hmiddle queued =>
      exact (not_released (by simp) (by simp) hcall hprevious).elim
    | ended h queued =>
      exact (not_released (by simp) (by simp) hcall hprevious).elim
  | @answer i t p b hcall =>
    cases h with
    | idle h queued =>
      obtain ⟨j, -, hwaiting⟩ := getElem?_settled hcall (by simp)
      exact absurd (getElem?_waiting hwaiting) (by simp)
    | pending h hmiddle queued =>
      obtain ⟨rfl, rfl, hstage⟩ := active_eq (by simp) (by simp) hcall
      obtain rfl := Stage.pending.inj hstage
      rw [set_active]
      exact .of_progress h (hmiddle.tail (.resume _ b _)) queued
    | ended h queued =>
      have := (active_eq (by simp) (by simp) hcall).2.2
      cases this
  | @release i t o hcall =>
    cases h with
    | idle h queued =>
      obtain ⟨j, -, hwaiting⟩ := getElem?_settled hcall (by simp)
      exact absurd (getElem?_waiting hwaiting) (by simp)
    | pending h hmiddle queued =>
      have := (active_eq (by simp) (by simp) hcall).2.2
      cases this
    | ended h queued =>
      obtain ⟨rfl, rfl, hstage⟩ := active_eq (by simp) (by simp) hcall
      obtain rfl := Stage.ended.inj hstage
      rw [set_active, map_settledCall_snoc]
      exact .idle h queued

/-- **The calls take effect one at a time, in their order.** -/
theorem serial_of_run {as : List (Label T A)} (h : Run (Step ops) ⟨w₀, []⟩ as s) : Serial ops w₀ s :=
  h.invariant (.idle .nil []) fun _ _ _ => Serial.step

theorem map_fst_set {calls : List (T × Stage P O)} {i : Nat} {t : T} {stage : Stage P O}
    (h : calls[i]? = some (t, stage)) (stage' : Stage P O) :
    (calls.set i (t, stage')).map Prod.fst = calls.map Prod.fst := by
  ext1 j
  rw [List.getElem?_map, List.getElem?_map]
  by_cases hj : i = j
  · subst hj
    rw [List.getElem?_set_self (List.getElem?_eq_some_iff.mp h).1, h]
    rfl
  · rw [List.getElem?_set_ne hj]

/-- The calls are those that were made, in this order. -/
theorem calls_of_run {as : List (Label T A)} (h : Run (Step ops) ⟨w₀, []⟩ as s) :
    s.calls.map Prod.fst = called as := by
  induction h with
  | nil => rfl
  | @snoc as s u a _ hstep ih =>
    rw [called_append, ← ih]
    cases hstep with
    | call t => exact List.map_append
    | start hcall _ => exact (map_fst_set hcall _).trans (List.append_nil _).symm
    | answer _ hcall => exact (map_fst_set hcall _).trans (List.append_nil _).symm
    | release hcall => exact (map_fst_set hcall _).trans (List.append_nil _).symm

/-! ### Every call settles -/

section Fair

variable (ops) in
/-- The step of a call that is not settled can be taken. -/
def Enabled (s : State T P W O) (i : Nat) : Prop := ∃ a u, Label.mover a = some i ∧ Step ops s a u

variable (ops) in
/-- A run without an end. At a moment without a label nothing happens to the calls. -/
structure Execution where
  state : Nat → State T P W O
  label : Nat → Option (Label T A)
  step : ∀ n, match label n with
    | none => state (n + 1) = state n
    | some a => Step ops (state n) a (state (n + 1))

/-- A call takes a step. -/
def Execution.Moves (ex : Execution ops) (n i : Nat) : Prop := (ex.label n).bind Label.mover = some i

/-- A step that can be taken from some moment on is taken: answers come, and calls that may begin do. -/
def Execution.Fair (ex : Execution ops) : Prop :=
  ∀ n i, (∀ k, n ≤ k → Enabled ops (ex.state k) i) → ∃ k, n ≤ k ∧ ex.Moves k i

/-- A step leaves the other calls alone. -/
theorem Step.getElem?_of_ne (h : Step ops s a u) {i : Nat} (hi : i < s.calls.length)
    (hmover : Label.mover a ≠ some i) : u.calls[i]? = s.calls[i]? := by
  have hset : ∀ {j : Nat} (call : T × Stage P O), some j ≠ some i →
      (s.calls.set j call)[i]? = s.calls[i]? := by
    intro j call hj
    exact List.getElem?_set_ne fun heq => hj (congrArg some heq)
  cases h with
  | call t => exact List.getElem?_append_left hi
  | start => exact hset _ hmover
  | answer => exact hset _ hmover
  | release => exact hset _ hmover

/-- A call begins, gets an answer or is released. -/
theorem Step.cases_mover (h : Step ops s a u) {i : Nat} (hmover : Label.mover a = some i) {t : T}
    {stage : Stage P O} (hcall : s.calls[i]? = some (t, stage)) :
    (stage = .waiting ∧ ∃ r, u.calls[i]? = some (t, .of r)) ∨
      (∃ p b, stage = .pending p ∧ u.calls[i]? = some (t, .of (ops.resume p b s.world).2)) ∨
        ∃ o, stage = .ended o ∧ u.calls[i]? = some (t, .settled o) := by
  have hset : ∀ {call : T × Stage P O}, (s.calls.set i call)[i]? = some call := by
    intro call
    exact List.getElem?_set_self (List.getElem?_eq_some_iff.mp hcall).1
  cases h with
  | call => cases hmover
  | start hstart _ =>
    obtain rfl := Option.some.inj hmover
    obtain ⟨rfl, rfl⟩ := Prod.mk.inj (Option.some.inj (hcall.symm.trans hstart))
    exact .inl ⟨rfl, _, hset⟩
  | answer b hanswer =>
    obtain rfl := Option.some.inj hmover
    obtain ⟨rfl, rfl⟩ := Prod.mk.inj (Option.some.inj (hcall.symm.trans hanswer))
    exact .inr (.inl ⟨_, b, rfl, hset⟩)
  | release hrelease =>
    obtain rfl := Option.some.inj hmover
    obtain ⟨rfl, rfl⟩ := Prod.mk.inj (Option.some.inj (hcall.symm.trans hrelease))
    exact .inr (.inr ⟨_, rfl, hset⟩)

variable {ex : Execution ops} {n k i : Nat} {t : T} {call : T × Stage P O}

theorem Execution.next (ex : Execution ops) (n : Nat) :
    (ex.label n = none ∧ ex.state (n + 1) = ex.state n) ∨
      ∃ a, ex.label n = some a ∧ Step ops (ex.state n) a (ex.state (n + 1)) := by
  have hstep := ex.step n
  cases hlabel : ex.label n with
  | none =>
    rw [hlabel] at hstep
    exact .inl ⟨rfl, hstep⟩
  | some a =>
    rw [hlabel] at hstep
    exact .inr ⟨a, rfl, hstep⟩

theorem Execution.next_of_moves (h : ex.Moves n i) :
    ∃ a, Label.mover a = some i ∧ Step ops (ex.state n) a (ex.state (n + 1)) := by
  rw [Execution.Moves] at h
  rcases ex.next n with ⟨hnone, -⟩ | ⟨a, hlabel, hstep⟩
  · rw [hnone] at h
    cases h
  · rw [hlabel] at h
    exact ⟨a, h, hstep⟩

/-- A call stays as it is while it takes no step. -/
theorem Execution.stays (hcall : (ex.state n).calls[i]? = some call) (hle : n ≤ k)
    (hmoves : ∀ m, n ≤ m → m < k → ¬ ex.Moves m i) : (ex.state k).calls[i]? = some call := by
  induction k, hle using Nat.le_induction with
  | base => exact hcall
  | succ k hle ih =>
    have hk := ih fun m hn hm => hmoves m hn (by omega)
    rcases ex.next k with ⟨-, hsame⟩ | ⟨a, hlabel, hstep⟩
    · rw [hsame]
      exact hk
    · rw [← hk]
      refine hstep.getElem?_of_ne (List.getElem?_eq_some_iff.mp hk).1 fun hmover => ?_
      refine hmoves k hle (by omega) ?_
      rw [Execution.Moves, hlabel]
      exact hmover

/-- The operation of a call is the same at all moments. -/
theorem Execution.same (hcall : (ex.state n).calls[i]? = some call) (hle : n ≤ k) :
    ∃ stage, (ex.state k).calls[i]? = some (call.1, stage) := by
  induction k, hle using Nat.le_induction with
  | base => exact ⟨_, hcall⟩
  | succ k hle ih =>
    obtain ⟨stage, hk⟩ := ih
    by_cases hmoves : ex.Moves k i
    · obtain ⟨a, hmover, hstep⟩ := Execution.next_of_moves hmoves
      rcases hstep.cases_mover hmover hk with ⟨-, r, hnext⟩ | ⟨p, b, -, hnext⟩ | ⟨o, -, hnext⟩
      · exact ⟨_, hnext⟩
      · exact ⟨_, hnext⟩
      · exact ⟨_, hnext⟩
    · refine ⟨stage, Execution.stays hk (Nat.le_succ k) fun m hm hlt => ?_⟩
      obtain rfl : m = k := by omega
      exact hmoves

/-- What can always take a step while it stays as it is takes one. -/
theorem Execution.Fair.moves (hfair : ex.Fair) (hcall : (ex.state n).calls[i]? = some call)
    (henabled : ∀ k, n ≤ k → (ex.state k).calls[i]? = some call → Enabled ops (ex.state k) i) :
    ∃ k a, n ≤ k ∧ (ex.state k).calls[i]? = some call ∧ Label.mover a = some i ∧
      Step ops (ex.state k) a (ex.state (k + 1)) := by
  classical
  have hsome : ∃ k, n ≤ k ∧ ex.Moves k i := by
    by_contra hnone
    rw [not_exists] at hnone
    refine hnone _ (hfair n i fun k hle => henabled k hle ?_).choose_spec
    exact Execution.stays hcall hle fun m hm _ hmoves => hnone m ⟨hm, hmoves⟩
  obtain ⟨hle, hmoves⟩ := Nat.find_spec hsome
  obtain ⟨a, hmover, hstep⟩ := Execution.next_of_moves hmoves
  refine ⟨Nat.find hsome, a, hle, ?_, hmover, hstep⟩
  exact Execution.stays hcall hle fun m hm hlt hmove => Nat.find_min hsome hlt ⟨hm, hmove⟩

/-- Nothing happens to a call that is settled. -/
theorem Execution.settled_mono {o : O} (h : (ex.state n).calls[i]? = some (t, .settled o))
    (hle : n ≤ k) : (ex.state k).calls[i]? = some (t, .settled o) := by
  induction k, hle using Nat.le_induction with
  | base => exact h
  | succ k hle ih =>
    refine Execution.stays ih (by omega) fun m hm hlt hmoves => ?_
    obtain rfl : m = k := by omega
    obtain ⟨a, hmover, hstep⟩ := Execution.next_of_moves hmoves
    rcases hstep.cases_mover hmover ih with ⟨hstage, -⟩ | ⟨p, b, hstage, -⟩ | ⟨o', hstage, -⟩
    · cases hstage
    · cases hstage
    · cases hstage

section Eventually

variable (hfair : ex.Fair)

include hfair

/-- An operation that has ended is released. -/
theorem Execution.settles_of_ended {o : O} (h : (ex.state n).calls[i]? = some (t, .ended o)) :
    ∃ k, n ≤ k ∧ ∃ o, (ex.state k).calls[i]? = some (t, .settled o) := by
  obtain ⟨k, a, hle, hcall, hmover, hstep⟩ := hfair.moves h fun k _ hk =>
    ⟨.release i, _, rfl, .release hk⟩
  rcases hstep.cases_mover hmover hcall with ⟨hstage, -⟩ | ⟨p, b, hstage, -⟩ | ⟨o', -, hnext⟩
  · cases hstage
  · cases hstage
  · exact ⟨k + 1, by omega, o', hnext⟩

/-- An operation that waits for answers ends, by induction on its rank. -/
theorem Execution.settles_of_pending [Nonempty A] {p : P} {n : Nat}
    (h : (ex.state n).calls[i]? = some (t, .pending p)) :
    ∃ k, n ≤ k ∧ ∃ o, (ex.state k).calls[i]? = some (t, .settled o) := by
  obtain ⟨b⟩ := ‹Nonempty A›
  induction hrank : ops.rank p using Nat.strong_induction_on generalizing p n with
  | _ r ih =>
    subst hrank
    obtain ⟨k, a, hle, hcall, hmover, hstep⟩ := hfair.moves h fun k _ hk =>
      ⟨.answer i b, _, rfl, .answer b hk⟩
    rcases hstep.cases_mover hmover hcall with ⟨hstage, -⟩ | ⟨q, c, hstage, hnext⟩ | ⟨o', hstage, -⟩
    · cases hstage
    · obtain rfl := Stage.pending.inj hstage
      cases hresume : (ops.resume p c (ex.state k).world).2 with
      | inl q =>
        rw [hresume] at hnext
        obtain ⟨m, hkm, hsettled⟩ := ih _ (ops.rank_resume _ _ _ _ hresume) hnext rfl
        exact ⟨m, by omega, hsettled⟩
      | inr o =>
        rw [hresume] at hnext
        obtain ⟨m, hkm, hsettled⟩ := Execution.settles_of_ended hfair hnext
        exact ⟨m, by omega, hsettled⟩
    · cases hstage

theorem Execution.settles_of_released [Nonempty A] {n : Nat} (h : (ex.state n).calls[i]? = some call)
    (hreleased : ∀ k, n ≤ k → Released (ex.state k) i) :
    ∃ k, n ≤ k ∧ ∃ o, (ex.state k).calls[i]? = some (call.1, .settled o) := by
  obtain ⟨t, stage⟩ := call
  cases stage with
  | settled o => exact ⟨n, Nat.le_refl n, o, h⟩
  | ended o => exact Execution.settles_of_ended hfair h
  | pending p => exact Execution.settles_of_pending hfair h
  | waiting =>
    obtain ⟨k, a, hle, hcall, hmover, hstep⟩ := hfair.moves h fun k hk hwaiting =>
      ⟨.start i, _, rfl, .start hwaiting (hreleased k hk)⟩
    rcases hstep.cases_mover hmover hcall with ⟨-, r, hnext⟩ | ⟨p, b, hstage, -⟩ | ⟨o', hstage, -⟩
    · cases r with
      | inl p =>
        obtain ⟨m, hkm, hsettled⟩ := Execution.settles_of_pending hfair hnext
        exact ⟨m, by omega, hsettled⟩
      | inr o =>
        obtain ⟨m, hkm, hsettled⟩ := Execution.settles_of_ended hfair hnext
        exact ⟨m, by omega, hsettled⟩
    · cases hstage
    · cases hstage

/-- **Every call settles**, by induction on its place: the one before it does, and then it can begin. -/
theorem Execution.settles [Nonempty A] {n : Nat} (h : (ex.state n).calls[i]? = some call) :
    ∃ k, n ≤ k ∧ ∃ o, (ex.state k).calls[i]? = some (call.1, .settled o) := by
  induction i generalizing call n with
  | zero => exact Execution.settles_of_released hfair h fun k _ j hj => by omega
  | succ i ih =>
    have hi : i < (ex.state n).calls.length := by
      have := (List.getElem?_eq_some_iff.mp h).1
      omega
    obtain ⟨m, hnm, o, hbefore⟩ := ih (List.getElem?_eq_getElem hi)
    obtain ⟨stage, hcall⟩ := Execution.same h hnm
    obtain ⟨k, hmk, hsettled⟩ := Execution.settles_of_released hfair hcall fun k hk j hj => by
      obtain rfl : i = j := by omega
      exact ⟨_, o, Execution.settled_mono hbefore hk⟩
    exact ⟨k, by omega, hsettled⟩

end Eventually

end Fair

end CallQueue
