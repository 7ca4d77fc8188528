import BoringPanel.QueryService.DebugMode.Manager

/-!
# Workers that nobody can stop

A worker runs without the manager holding its cancel function when a second `startWorker` overwrites
it, or when `Close` has forgotten it. The first needs two calls of `Update` for one organisation
between their writes and their last steps, the second a `startWorker` after `Close`. In runs without
these (`Orderly`) the invariant `Inv` holds, and every organisation has the worker that its
configuration asks for (`workerOk_of_run`).
-/

namespace QueryService.DebugMode

variable {canonicalScenarioID : String → Option String} {s s' : State} {orgID : String} {id : Nat}
  {call : UpdateCall}

/-! ### What the operations do to the workers -/

theorem held_startWorker (o : String) : (s.startWorker orgID).held o =
    if o = orgID then some s.contexts.length else s.held o := by
  unfold State.held State.startWorker
  by_cases ho : o = orgID
  · subst ho
    simp
  · simp [ho]

theorem live_startWorker {o : String} {i : Nat} : Live (s.startWorker orgID) o i ↔
    Live s o i ∨ (o = orgID ∧ i = s.contexts.length) := by
  unfold Live State.startWorker
  rcases lt_trichotomy i s.contexts.length with hi | rfl | hi
  · rw [List.getElem?_append_left hi, or_iff_left (by omega)]
  · simp [eq_comm]
  · rw [List.getElem?_eq_none (by simp; omega), List.getElem?_eq_none hi.le]
    simp
    omega

theorem held_stopWorker (o : String) : (s.stopWorker orgID).held o =
    if o = orgID then none else s.held o := by
  unfold State.held State.stopWorker
  cases hw : s.workers orgID with
  | none =>
    by_cases ho : o = orgID
    · simp [ho, hw]
    · simp [ho]
  | some worker =>
    by_cases ho : o = orgID
    · subst ho
      simp
    · simp [ho]

theorem live_stopWorker {o : String} {i : Nat} : Live (s.stopWorker orgID) o i ↔
    Live s o i ∧ s.held orgID ≠ some i := by
  unfold Live State.held State.stopWorker
  cases hw : s.workers orgID with
  | none => simp
  | some worker =>
    cases hc : worker.cancel with
    | none => simp [hc]
    | some j =>
      simp only [Option.bind_some, hc, List.getElem?_modify]
      by_cases hij : j = i
      · subst hij
        cases s.contexts[j]? <;> simp
      · simp [hij]

theorem live_close {i : Nat} : Live s.close orgID i ↔ Live s orgID i ∧ s.held orgID ≠ some i := by
  unfold Live State.close
  rw [List.getElem?_mapIdx]
  cases hc : s.contexts[i]? with
  | none => simp
  | some c =>
    obtain ⟨o, cancelled⟩ := c
    by_cases hheld : s.held o = some i
    · simp only [Option.map_some, hheld, if_true, Option.some.injEq, WorkerContext.mk.injEq]
      constructor
      · rintro ⟨-, h⟩
        cases h
      · rintro ⟨⟨rfl, -⟩, h⟩
        exact absurd hheld h
    · simp only [Option.map_some, hheld, if_false, Option.some.injEq, WorkerContext.mk.injEq]
      constructor
      · rintro ⟨rfl, rfl⟩
        exact ⟨⟨rfl, rfl⟩, hheld⟩
      · exact fun h => h.1

theorem held_ensureState (o : String) : (s.ensureState orgID).held o = s.held o := by
  unfold State.held State.ensureState
  by_cases ho : o = orgID
  · subst ho
    cases hw : s.workers o <;> simp
  · simp [Function.update_of_ne ho]

theorem stopWorker_rest : (s.stopWorker orgID).updates = s.updates ∧
    (s.stopWorker orgID).stored = s.stored ∧ (s.stopWorker orgID).closed = s.closed := by
  unfold State.stopWorker
  cases s.workers orgID <;> exact ⟨rfl, rfl, rfl⟩

theorem config_write (o : String) {config : Config} : (s.write orgID config).config o =
    if o = orgID then config else s.config o := by
  unfold State.config State.write
  rw [Go.Map.lookup_set]
  by_cases ho : o = orgID
  · rw [if_pos ho, if_pos ho]
    rfl
  · rw [if_neg ho, if_neg ho]

/-! ### Workers and cancel functions -/

/-- The organisation of a context. -/
def State.owner (s : State) (i : Nat) : Option String := s.contexts[i]?.map WorkerContext.orgID

theorem Live.owner {i : Nat} (h : Live s orgID i) : s.owner i = some orgID := by
  unfold State.owner
  rw [Live] at h
  rw [h]
  rfl

theorem owner_startWorker {i : Nat} (hi : i < s.contexts.length) :
    (s.startWorker orgID).owner i = s.owner i := by
  unfold State.owner State.startWorker
  rw [List.getElem?_append_left hi]

theorem owner_stopWorker (i : Nat) : (s.stopWorker orgID).owner i = s.owner i := by
  unfold State.owner State.stopWorker
  cases s.workers orgID with
  | none => rfl
  | some worker =>
    cases hc : worker.cancel with
    | none => simp only [hc]
    | some j =>
      simp only [hc, List.getElem?_modify]
      by_cases hij : j = i
      · subst hij
        cases s.contexts[j]? <;> simp
      · simp [hij]

/-- The manager holds the cancel function of every worker that runs, under its organisation. -/
structure Owned (s : State) : Prop where
  owner : ∀ o i, s.held o = some i → s.owner i = some o
  held : ∀ o i, Live s o i → s.held o = some i

namespace Owned

theorem length_of_held (h : Owned s) {i : Nat} (hheld : s.held orgID = some i) :
    i < s.contexts.length := by
  have howner := h.owner orgID i hheld
  unfold State.owner at howner
  by_contra hi
  rw [List.getElem?_eq_none (Nat.le_of_not_lt hi)] at howner
  cases howner

theorem live_stopWorker (h : Owned s) {o : String} {i : Nat} :
    Live (s.stopWorker orgID) o i ↔ Live s o i ∧ o ≠ orgID := by
  rw [DebugMode.live_stopWorker]
  refine and_congr_right fun hlive => ?_
  constructor
  · rintro hne rfl
    exact hne (h.held o i hlive)
  · intro ho hheld
    exact ho (Option.some.inj (hlive.owner.symm.trans (h.owner orgID i hheld)))

theorem stopWorker (h : Owned s) (orgID : String) : Owned (s.stopWorker orgID) where
  owner o i hheld := by
    rw [owner_stopWorker]
    rw [held_stopWorker] at hheld
    split at hheld
    · cases hheld
    · exact h.owner o i hheld
  held o i hlive := by
    obtain ⟨hlive, ho⟩ := h.live_stopWorker.mp hlive
    rw [held_stopWorker, if_neg ho]
    exact h.held o i hlive

/-- No cancel function is overwritten that is still needed. -/
theorem startWorker (h : Owned s) (hnone : ∀ i, ¬ Live s orgID i) : Owned (s.startWorker orgID) where
  owner o i hheld := by
    rw [held_startWorker] at hheld
    split at hheld
    · rename_i ho
      obtain rfl := Option.some.inj hheld
      rw [ho]
      exact Live.owner (live_startWorker.mpr (.inr ⟨rfl, rfl⟩))
    · rw [owner_startWorker (h.length_of_held hheld)]
      exact h.owner o i hheld
  held o i hlive := by
    rw [held_startWorker]
    rcases live_startWorker.mp hlive with hold | ⟨rfl, rfl⟩
    · rw [if_neg]
      · exact h.held o i hold
      · rintro rfl
        exact hnone i hold
    · exact if_pos rfl

theorem not_live_close (h : Owned s) (o : String) (i : Nat) : ¬ Live s.close o i := by
  rw [live_close]
  exact fun hlive => hlive.2 (h.held o i hlive.1)

theorem close (h : Owned s) : Owned s.close where
  owner _ _ hheld := nomatch hheld
  held o i hlive := absurd hlive (h.not_live_close o i)

theorem ensureState (h : Owned s) (orgID : String) : Owned (s.ensureState orgID) where
  owner o i hheld := h.owner o i ((held_ensureState o).symm.trans hheld)
  held o i hlive := (held_ensureState o).trans (h.held o i hlive)

end Owned

/-! ### The invariant -/

/-- A call between its write and its last step. -/
def Applying (s : State) (id : Nat) (call : UpdateCall) : Prop :=
  s.updates id = some call ∧ call.stage.applying

theorem applying_setUpdate {o : Option UpdateCall} {j : Nat} {c : UpdateCall} :
    Applying (s.setUpdate id o) j c ↔
      if j = id then o = some c ∧ c.stage.applying else Applying s j c := by
  unfold Applying State.setUpdate
  by_cases hj : j = id
  · subst hj
    simp
  · simp [hj]

theorem not_applying (hcall : s.updates id = some call) (hstage : call.stage.applying = false) :
    ∀ c, ¬ Applying s id c := by
  rintro c ⟨hc, happ⟩
  obtain rfl := Option.some.inj (hcall.symm.trans hc)
  rw [hstage] at happ
  cases happ

/-- What holds between the steps of orderly calls. -/
structure Inv (s : State) : Prop where
  owned : Owned s
  unique : ∀ j c j' c', Applying s j c → Applying s j' c' → c.orgID = c'.orgID → j = j'
  stored : ∀ j c, Applying s j c → s.config c.orgID = c.config
  /-- A worker is started where none is running. -/
  start : ∀ j c, s.updates j = some c → c.stage = .start →
    c.config.enabled ∧ ∀ i, ¬ Live s c.orgID i
  closed : s.closed → ∀ o i, ¬ Live s o i
  runs : ∀ o, (∀ j c, Applying s j c → c.orgID ≠ o) →
    ((∃ i, Live s o i) ↔ (s.config o).enabled ∧ ¬ s.closed)

namespace Inv

/-- A call that is not being applied comes, goes on or returns. -/
theorem setUpdate (hinv : Inv s) {o : Option UpdateCall}
    (hold : ∀ c, ¬ Applying s id c) (hnew : ∀ c, o = some c → c.stage.applying = false) :
    Inv (s.setUpdate id o) := by
  have happ (j : Nat) (c : UpdateCall) : Applying (s.setUpdate id o) j c ↔ Applying s j c := by
    rw [applying_setUpdate]
    by_cases hj : j = id
    · subst hj
      rw [if_pos rfl]
      refine iff_of_false ?_ (hold c)
      rintro ⟨hc, happ⟩
      rw [hnew c hc] at happ
      cases happ
    · rw [if_neg hj]
  refine ⟨⟨hinv.owned.owner, hinv.owned.held⟩, fun j c j' c' h h' => ?_, fun j c h => ?_,
    fun j c hc hstage => ?_, hinv.closed, fun p hp => ?_⟩
  · exact hinv.unique j c j' c' ((happ j c).mp h) ((happ j' c').mp h')
  · exact hinv.stored j c ((happ j c).mp h)
  · exact hinv.start j c ((happ j c).mp ⟨hc, by rw [hstage]; rfl⟩).1 hstage
  · exact hinv.runs p fun j c h => hp j c ((happ j c).mpr h)

/-- The configuration is written while no other call of the organisation is being applied. -/
theorem write (hinv : Inv s) (hcall : s.updates id = some call)
    (horderly : ∀ j c, s.updates j = some c → c.orgID = call.orgID → c.stage.applying = false) :
    Inv ((s.write call.orgID call.config).setUpdate id (some { call with stage := .stop })) := by
  have hother {j : Nat} {c : UpdateCall} (h : Applying s j c) : c.orgID ≠ call.orgID := by
    intro ho
    have happ := h.2
    rw [horderly j c h.1 ho] at happ
    cases happ
  have hnext {j : Nat} {c : UpdateCall}
      (h : Applying ((s.write call.orgID call.config).setUpdate id
        (some { call with stage := .stop })) j c) :
      (j = id ∧ c = { call with stage := .stop }) ∨ (j ≠ id ∧ Applying s j c) := by
    rw [applying_setUpdate] at h
    by_cases hj : j = id
    · rw [if_pos hj] at h
      exact .inl ⟨hj, (Option.some.inj h.1).symm⟩
    · rw [if_neg hj] at h
      exact .inr ⟨hj, h⟩
  refine ⟨⟨hinv.owned.owner, hinv.owned.held⟩, fun j c j' c' h h' ho => ?_, fun j c h => ?_,
    fun j c hc hstage => ?_, hinv.closed, fun o ho => ?_⟩
  · rcases hnext h with ⟨rfl, rfl⟩ | ⟨-, h₁⟩
    · rcases hnext h' with ⟨rfl, rfl⟩ | ⟨-, h₂⟩
      · rfl
      · exact absurd ho.symm (hother h₂)
    · rcases hnext h' with ⟨rfl, rfl⟩ | ⟨-, h₂⟩
      · exact absurd ho (hother h₁)
      · exact hinv.unique j c j' c' h₁ h₂ ho
  · change (s.write call.orgID call.config).config c.orgID = c.config
    rw [config_write]
    rcases hnext h with ⟨rfl, rfl⟩ | ⟨-, h₁⟩
    · exact if_pos rfl
    · rw [if_neg (hother h₁)]
      exact hinv.stored j c h₁
  · by_cases hj : j = id
    · subst hj
      have hself : some { call with stage := .stop } = some c :=
        (Function.update_self (f := s.updates) j _).symm.trans hc
      obtain rfl := Option.some.inj hself
      cases hstage
    · exact hinv.start j c ((Function.update_of_ne hj _ _).symm.trans hc) hstage
  · have hne : o ≠ call.orgID := fun h =>
      ho id { call with stage := .stop } ⟨Function.update_self _ _ _, rfl⟩ h.symm
    change (∃ i, Live s o i) ↔ ((s.write call.orgID call.config).config o).enabled ∧ ¬ s.closed
    rw [config_write, if_neg hne]
    refine hinv.runs o fun j c h => ho j c ?_
    rw [applying_setUpdate, if_neg]
    · exact h
    · rintro rfl
      exact hother h (by rw [Option.some.inj (h.1.symm.trans hcall)])

/-- A call that is being applied changes the workers of its organisation, and goes on to start one or
returns. -/
theorem advance (hinv : Inv s) (hcall : Applying s id call) (hrest : s'.updates = s.updates ∧
      s'.stored = s.stored ∧ s'.closed = s.closed) (howned : Owned s')
    (hother : ∀ o i, o ≠ call.orgID → (Live s' o i ↔ Live s o i))
    (hclosed : s.closed → ∀ i, ¬ Live s' call.orgID i) {next : Option UpdateCall}
    (hnext : ∀ c, next = some c → c = { call with stage := .start } ∧ call.config.enabled ∧
      ∀ i, ¬ Live s' call.orgID i)
    (hruns : next = none → ((∃ i, Live s' call.orgID i) ↔
      (s.config call.orgID).enabled ∧ ¬ s.closed)) : Inv (s'.setUpdate id next) := by
  obtain ⟨hupd, hstored, hclosed'⟩ := hrest
  have hconfig (o : String) : s'.config o = s.config o := by
    unfold State.config
    rw [hstored]
  have happ {j : Nat} {c : UpdateCall} (h : Applying (s'.setUpdate id next) j c) :
      (j = id ∧ next = some c) ∨ (j ≠ id ∧ Applying s j c) := by
    rw [applying_setUpdate] at h
    by_cases hj : j = id
    · rw [if_pos hj] at h
      exact .inl ⟨hj, h.1⟩
    · rw [if_neg hj, Applying, hupd] at h
      exact .inr ⟨hj, h⟩
  have hne {j : Nat} {c : UpdateCall} (hj : j ≠ id) (h : Applying s j c) : c.orgID ≠ call.orgID :=
    fun ho => hj (hinv.unique j c id call h hcall ho)
  refine ⟨⟨howned.owner, howned.held⟩, fun j c j' c' h h' ho => ?_, fun j c h => ?_,
    fun j c hc hstage => ?_, fun hc o i hlive => ?_, fun o ho => ?_⟩
  · rcases happ h with ⟨rfl, h₁⟩ | ⟨hj, h₁⟩
    · rcases happ h' with ⟨rfl, h₂⟩ | ⟨hj', h₂⟩
      · rfl
      · rw [(hnext c h₁).1] at ho
        exact absurd ho.symm (hne hj' h₂)
    · rcases happ h' with ⟨rfl, h₂⟩ | ⟨-, h₂⟩
      · rw [(hnext c' h₂).1] at ho
        exact absurd ho (hne hj h₁)
      · exact hinv.unique j c j' c' h₁ h₂ ho
  · change s'.config c.orgID = c.config
    rw [hconfig]
    rcases happ h with ⟨rfl, h₁⟩ | ⟨-, h₁⟩
    · rw [(hnext c h₁).1]
      exact hinv.stored j call hcall
    · exact hinv.stored j c h₁
  · rcases happ ⟨hc, by rw [hstage]; rfl⟩ with ⟨rfl, h₁⟩ | ⟨hj, h₁⟩
    · obtain ⟨rfl, henabled, hnone⟩ := hnext c h₁
      exact ⟨henabled, hnone⟩
    · obtain ⟨henabled, hnone⟩ := hinv.start j c h₁.1 hstage
      exact ⟨henabled, fun i hlive => hnone i ((hother c.orgID i (hne hj h₁)).mp hlive)⟩
  · rw [show (s'.setUpdate id next).closed = s'.closed from rfl, hclosed'] at hc
    by_cases ho : o = call.orgID
    · exact hclosed hc i (ho ▸ hlive)
    · exact hinv.closed hc o i ((hother o i ho).mp hlive)
  · change (∃ i, Live s' o i) ↔ (s'.config o).enabled ∧ ¬ s'.closed
    rw [hconfig, hclosed']
    by_cases horg : o = call.orgID
    · subst horg
      cases hnone : next with
      | none => exact hruns hnone
      | some c =>
        refine absurd rfl (ho id { call with stage := .start } ?_)
        rw [applying_setUpdate, if_pos rfl, hnone, (hnext c hnone).1]
        exact ⟨rfl, rfl⟩
    · simp only [hother _ _ horg]
      refine hinv.runs o fun j c h => ?_
      by_cases hj : j = id
      · subst hj
        rw [Option.some.inj (h.1.symm.trans hcall.1)]
        exact Ne.symm horg
      · refine ho j c ?_
        rw [applying_setUpdate, if_neg hj, Applying, hupd]
        exact h

theorem stopWorker (hinv : Inv s) (hcall : s.updates id = some call) (hstage : call.stage = .stop) :
    Inv ((s.stopWorker call.orgID).setUpdate id
      (if call.config.enabled then some { call with stage := .start } else none)) := by
  have happ : Applying s id call := ⟨hcall, by rw [hstage]; rfl⟩
  have hnone (i : Nat) : ¬ Live (s.stopWorker call.orgID) call.orgID i :=
    fun hlive => (hinv.owned.live_stopWorker.mp hlive).2 rfl
  refine hinv.advance happ stopWorker_rest (hinv.owned.stopWorker call.orgID) (fun o i ho => ?_)
    (fun _ => hnone) (fun c hc => ?_) (fun hret => ?_)
  · rw [hinv.owned.live_stopWorker, and_iff_left ho]
  · split at hc
    · rename_i henabled
      exact ⟨(Option.some.inj hc).symm, henabled, hnone⟩
    · cases hc
  · split at hret
    · cases hret
    · rename_i henabled
      rw [hinv.stored id call happ]
      exact iff_of_false (fun ⟨i, hlive⟩ => hnone i hlive) (fun h => henabled h.1)

theorem startWorker (hinv : Inv s) (hcall : s.updates id = some call)
    (hstage : call.stage = .start) (hopen : ¬ s.closed) :
    Inv ((s.startWorker call.orgID).setUpdate id none) := by
  have happ : Applying s id call := ⟨hcall, by rw [hstage]; rfl⟩
  obtain ⟨henabled, hnone⟩ := hinv.start id call hcall hstage
  have hrest : (s.startWorker call.orgID).updates = s.updates ∧
      (s.startWorker call.orgID).stored = s.stored ∧
      (s.startWorker call.orgID).closed = s.closed := ⟨rfl, rfl, rfl⟩
  refine hinv.advance happ hrest (hinv.owned.startWorker hnone) (fun o i ho => ?_)
    (fun hc => absurd hc hopen) (fun c hc => ?_) (fun _ => ?_)
  · rw [live_startWorker, or_iff_left fun h => ho h.1]
  · cases hc
  · rw [hinv.stored id call happ]
    exact iff_of_true ⟨_, live_startWorker.mpr (.inr ⟨rfl, rfl⟩)⟩ ⟨henabled, hopen⟩

theorem close (hinv : Inv s) : Inv s.close where
  owned := hinv.owned.close
  unique := hinv.unique
  stored := hinv.stored
  start j c hc hstage :=
    ⟨(hinv.start j c hc hstage).1, fun i => hinv.owned.not_live_close c.orgID i⟩
  closed _ := hinv.owned.not_live_close
  runs o _ :=
    iff_of_false (fun ⟨i, hlive⟩ => hinv.owned.not_live_close o i hlive) (fun h => h.2 rfl)

theorem ensureState (hinv : Inv s) (orgID : String) : Inv (s.ensureState orgID) where
  owned := hinv.owned.ensureState orgID
  unique := hinv.unique
  stored := hinv.stored
  start := hinv.start
  closed := hinv.closed
  runs := hinv.runs

/-- Every orderly step keeps the invariant. -/
theorem step {a : Action} (hinv : Inv s) (hstep : Step canonicalScenarioID s a s')
    (horderly : Orderly s a) : Inv s' := by
  cases hstep with
  | update hnew | cleanup hnew =>
    refine hinv.setUpdate (fun c h => ?_) (fun c hc => ?_)
    · rw [Applying, hnew] at h
      cases h.1
    · rw [← Option.some.inj hc]
      rfl
  | read hcall hstage =>
    refine hinv.setUpdate (not_applying hcall (by rw [hstage]; rfl)) (fun c hc => ?_)
    rw [← Option.some.inj hc]
    rfl
  | readFails hcall hstage | writeFails hcall hstage =>
    exact hinv.setUpdate (not_applying hcall (by rw [hstage]; rfl)) (fun c hc => nomatch hc)
  | write hcall hstage => exact hinv.write hcall (horderly _ hcall)
  | stopWorker hcall hstage => exact hinv.stopWorker hcall hstage
  | startWorker hcall hstage => exact hinv.startWorker hcall hstage horderly
  | close => exact hinv.close
  | record => exact hinv.ensureState _

end Inv

/-! ### The workers that are resumed -/

/-- While `resumeEnabled` starts the workers of the organisations, one after the other. -/
structure Resumed (stored : Go.Map Config) (orgs : List String) (s : State) : Prop where
  owned : Owned s
  runs : ∀ o, (∃ i, Live s o i) ↔ o ∈ orgs
  idle : ∀ id, s.updates id = none
  stored : s.stored = stored
  closed : s.closed = false

theorem Resumed.start {stored : Go.Map Config} {orgs : List String} (h : Resumed stored orgs s)
    (hnew : orgID ∉ orgs) : Resumed stored (orgs ++ [orgID]) (s.startWorker orgID) where
  owned := h.owned.startWorker fun i hlive => hnew ((h.runs orgID).mp ⟨i, hlive⟩)
  runs o := by
    simp only [live_startWorker, exists_or, h.runs o, exists_and_left, exists_eq, and_true,
      List.mem_append, List.mem_singleton]
  idle := h.idle
  stored := h.stored
  closed := h.closed

theorem Resumed.startAll {stored : Go.Map Config} {entries : List (String × Config)} :
    ∀ {orgs : List String} {s : State}, Resumed stored orgs s →
      (orgs ++ entries.map Prod.fst).Nodup →
      Resumed stored (orgs ++ entries.map Prod.fst)
        (entries.foldl (fun s e => s.startWorker e.1) s) := by
  induction entries with
  | nil =>
    intro orgs s h _
    rw [List.map_nil, List.append_nil]
    exact h
  | cons e entries ih =>
    intro orgs s h hnd
    rw [List.map_cons, List.append_cons] at hnd ⊢
    refine ih (h.start fun he => ?_) hnd
    exact (List.nodup_append.mp (List.nodup_append.mp hnd).1).2.2 _ he _
      (List.mem_singleton_self _) rfl

theorem newManager_inv (stored : Go.Map Config) : Inv (State.newManager stored) := by
  have hempty : Resumed stored []
      ⟨stored, fun _ => none, [], fun _ => none, false⟩ := by
    refine ⟨⟨fun _ _ h => (nomatch h), fun _ _ h => (nomatch h)⟩, fun o => ?_, fun _ => rfl, rfl, rfl⟩
    exact iff_of_false (fun ⟨i, h⟩ => nomatch h) List.not_mem_nil
  have hnd : ((stored.entries.filter fun e => e.2.enabled).map Prod.fst).Nodup :=
    stored.nodup.sublist (List.filter_sublist.map Prod.fst)
  have h := hempty.startAll hnd
  have hidle {j : Nat} {c : UpdateCall} (hc : (State.newManager stored).updates j = some c) :
      False := by
    rw [State.newManager, h.idle j] at hc
    cases hc
  refine ⟨h.owned, fun j c _ _ hc => (hidle hc.1).elim, fun j c hc => (hidle hc.1).elim,
    fun j c hc => (hidle hc).elim, fun hc => ?_, fun o _ => ?_⟩
  · rw [State.newManager, h.closed] at hc
    cases hc
  · have hruns : (∃ i, Live (State.newManager stored) o i) ↔
        ((stored.lookup o).getD defaultConfig).enabled := by
      refine (h.runs o).trans ?_
      rw [List.nil_append, List.mem_map]
      constructor
      · rintro ⟨⟨k, config⟩, he, rfl⟩
        obtain ⟨he, henabled⟩ := List.mem_filter.mp he
        rw [Go.Map.lookup_of_mem he]
        exact henabled
      · intro henabled
        cases hconfig : stored.lookup o with
        | none =>
          rw [hconfig] at henabled
          cases henabled
        | some config =>
          rw [hconfig] at henabled
          exact ⟨(o, config), List.mem_filter.mpr ⟨Go.Map.mem_of_lookup hconfig, henabled⟩, rfl⟩
    rw [hruns, State.config, show (State.newManager stored).stored = stored from h.stored,
      show (State.newManager stored).closed = false from h.closed]
    simp

/-! ### Runs -/

/-- **In every orderly run, when no `Update` for the organisation is in progress, the organisation has
the worker that its configuration asks for, and no other one.** -/
theorem workerOk_of_run {stored : Go.Map Config} {as : List Action}
    (h : Run (Guarded (Step canonicalScenarioID) Orderly) (State.newManager stored) as s)
    (hquiet : Quiet s orgID) : WorkerOk s orgID := by
  have hinv : Inv s := h.invariant (newManager_inv stored) fun t a u ht hstep =>
    ht.step hstep.1 hstep.2
  exact ⟨hinv.owned.held orgID, hinv.runs orgID fun j c hc => hquiet j c hc.1⟩

theorem idle (j : Nat) : (State.newManager .empty).updates j = none := rfl

theorem updates_setUpdate {o : Option UpdateCall} (j : Nat) :
    (s.setUpdate id o).updates j = if j = id then o else s.updates j := Function.update_apply ..

/-- A call of `Update` that enables the organisation, at each of its stages. -/
def enabling (stage : Stage) : UpdateCall := ⟨"a", { defaultConfig with enabled := true }, stage⟩

/-- The steps of such a call. -/
theorem enabling_update (i : Nat) (hnew : s.updates i = none) :
    Step some s (.update i "a" (enabling .read).config) (s.setUpdate i (some (enabling .read))) :=
  .update hnew rfl

theorem enabling_read (i : Nat) {config : Config} (hcall : s.updates i = some (enabling .read))
    (hconfig : s.getConfig some "a" = .ok config) :
    Step some s (.read i true) (s.setUpdate i (some (enabling .write))) :=
  .read hcall rfl hconfig

theorem enabling_write (i : Nat) (hcall : s.updates i = some (enabling .write)) :
    Step some s (.write i true)
      ((s.write "a" (enabling .write).config).setUpdate i (some (enabling .stop))) :=
  .write hcall rfl

theorem enabling_stop (i : Nat) (hcall : s.updates i = some (enabling .stop)) :
    Step some s (.stopWorker i) ((s.stopWorker "a").setUpdate i (some (enabling .start))) :=
  .stopWorker hcall rfl

theorem enabling_start (i : Nat) (hcall : s.updates i = some (enabling .start)) :
    Step some s (.startWorker i) ((s.startWorker "a").setUpdate i none) :=
  .startWorker hcall rfl

/-- One call enables the organisation. -/
theorem workerOk_of_run_enabled : ∃ s, (s.config "a").enabled ∧ WorkerOk s "a" := by
  have hwrite : Orderly (((State.newManager .empty).setUpdate 0 (some (enabling .read))).setUpdate 0
      (some (enabling .write))) (.write 0 true) := by
    intro call hcall j c hc horg
    simp only [updates_setUpdate, idle] at hc
    split at hc
    · obtain rfl := Option.some.inj hc
      rfl
    · grind
  refine ⟨_, ?_, workerOk_of_run
    ((((((Run.nil : Run _ (State.newManager .empty) _ _).snoc
      ⟨enabling_update 0 rfl, trivial⟩).snoc
      ⟨enabling_read 0 rfl rfl, trivial⟩).snoc
      ⟨enabling_write 0 rfl, hwrite⟩).snoc
      ⟨enabling_stop 0 rfl, trivial⟩).snoc
      ⟨enabling_start 0 rfl, nofun⟩)
    fun j c hc => ?_⟩
  · rfl
  · simp only [updates_setUpdate, State.startWorker, stopWorker_rest, State.write, idle] at hc
    grind

/-- Two calls write their configurations, and then both start a worker: nobody can stop the first. -/
theorem workerOk_leaked : ∃ as s, Run (Step some) (State.newManager .empty) as s ∧ Quiet s "a" ∧
    Live s "a" 0 ∧ Live s "a" 1 ∧ s.held "a" = some 1 ∧ ¬ WorkerOk s "a" := by
  have hwrite := (((((Run.nil : Run (Step some) (State.newManager .empty) _ _).snoc
    (enabling_update 0 rfl)).snoc (enabling_read 0 rfl rfl)).snoc
    (enabling_update 1 rfl)).snoc (enabling_read 1 rfl rfl)).snoc (enabling_write 0 rfl)
  have hstop := ((hwrite.snoc (enabling_stop 0 rfl)).snoc (enabling_write 1 rfl)).snoc
    (enabling_stop 1 rfl)
  have hstart := (hstop.snoc (enabling_start 0 rfl)).snoc (enabling_start 1 rfl)
  refine ⟨_, _, hstart, fun j c hc => ?_, ?_, ?_, ?_, fun hok => ?_⟩
  · simp only [updates_setUpdate, State.startWorker, stopWorker_rest, State.write, idle] at hc
    grind
  · rfl
  · rfl
  · rfl
  · have h := hok.held 0 rfl
    revert h
    decide

end QueryService.DebugMode
