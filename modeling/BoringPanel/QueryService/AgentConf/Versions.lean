import BoringPanel.QueryService.AgentConf.InsertConfig

/-!
# What calls leave in the tables

Two invariants over every interleaving. `Inv.owns` says for each call which rows carry its id, from
where it stands (`Owns`): a call touches no other rows, so that each case is one about its own step.
`Inv.newer` says that a version is larger than those that were there when it was chosen.
`sound_of_run` reads off what the claims of the callers need.
-/

namespace QueryService.AgentConf

variable {s s' : State} {db₀ db db' : Db} {id : String} {call : Call}

/-! ### The statements -/

namespace Db

theorem lt_nextVersion {r : VersionRow} (h : r ∈ db.versions) :
    r.version < db.nextVersion r.elementType := by
  have hmem : r.version ∈
      (db.versions.filter fun r' => r'.elementType = r.elementType).map VersionRow.version :=
    List.mem_map_of_mem (List.mem_filter.mpr ⟨h, by simp⟩)
  unfold nextVersion getLatestVersion
  cases hmax : ((db.versions.filter fun r' => r'.elementType = r.elementType).map
      VersionRow.version).max? with
  | none =>
    rw [List.max?_eq_none_iff.mp hmax] at hmem
    exact absurd hmem List.not_mem_nil
  | some version => exact Nat.lt_succ_of_le ((List.max?_eq_some_iff.mp hmax).2 _ hmem)

theorem insertVersion_eq_some_iff {row : VersionRow} : db.insertVersion row = some db' ↔
    (∀ r ∈ db.versions, ¬ r.Conflicts row) ∧
      db' = { db with versions := db.versions ++ [row] } := by
  unfold insertVersion
  split
  · rename_i h
    obtain ⟨r, hr, hconf⟩ := h
    simp only [reduceCtorEq, false_iff, not_and]
    exact fun hno => absurd hconf (hno r hr)
  · rename_i h
    simp only [not_exists, not_and] at h
    rw [Option.some.injEq, eq_comm]
    exact ⟨fun heq => ⟨h, heq⟩, fun heq => heq.2⟩

theorem insertElement_eq_some_iff {row : ElementRow} : db.insertElement row = some db' ↔
    row ∉ db.elements ∧ db' = { db with elements := db.elements ++ [row] } := by
  unfold insertElement
  split
  · simp [*]
  · simp [*, eq_comm]

end Db

/-! ### The rows of a call -/

/-- The version rows with this id: the given one, or none. -/
def HasVersion (db : Db) (id : String) (row : Option VersionRow) : Prop :=
  ∀ r, r.id = id → (r ∈ db.versions ↔ row = some r)

/-- The element rows with this id: one for each of the elements. -/
def HasElements (db : Db) (id elementType : String) (elements : List String) : Prop :=
  ∀ r, r.versionId = id → (r ∈ db.elements ↔ r.elementType = elementType ∧ r.elementId ∈ elements)

/-- **The rows that carry the id of a call**, from where it stands. -/
def Owns (db : Db) (id : String) (call : Call) : Prop :=
  match call.stage with
  | .read | .insertVersion _ | .failed =>
    HasVersion db id none ∧ HasElements db id call.elementType []
  | .insertElements version rest => HasVersion db id (some ⟨id, call.elementType, version⟩) ∧
      ∃ before, call.elements = before ++ rest ∧ HasElements db id call.elementType before
  | .succeeded version => HasVersion db id (some ⟨id, call.elementType, version⟩) ∧
      HasElements db id call.elementType call.elements
  | .deleteVersion => True
  | .deleteElements => HasVersion db id none

theorem HasVersion.congr {row : Option VersionRow}
    (h : ∀ r : VersionRow, r.id = id → (r ∈ db'.versions ↔ r ∈ db.versions))
    (hv : HasVersion db id row) : HasVersion db' id row :=
  fun r hr => (h r hr).trans (hv r hr)

theorem HasElements.congr {elementType : String} {elements : List String}
    (h : ∀ r : ElementRow, r.versionId = id → (r ∈ db'.elements ↔ r ∈ db.elements))
    (he : HasElements db id elementType elements) : HasElements db' id elementType elements :=
  fun r hr => (h r hr).trans (he r hr)

/-- Tables with the same rows of this id. -/
theorem Owns.congr (hv : ∀ r : VersionRow, r.id = id → (r ∈ db'.versions ↔ r ∈ db.versions))
    (he : ∀ r : ElementRow, r.versionId = id → (r ∈ db'.elements ↔ r ∈ db.elements))
    (h : Owns db id call) : Owns db' id call := by
  unfold Owns at h ⊢
  split at h
  · exact ⟨h.1.congr hv, h.2.congr he⟩
  · exact ⟨h.1.congr hv, h.2.congr he⟩
  · exact ⟨h.1.congr hv, h.2.congr he⟩
  · obtain ⟨hver, before, heq, helem⟩ := h
    exact ⟨hver.congr hv, before, heq, helem.congr he⟩
  · exact ⟨h.1.congr hv, h.2.congr he⟩
  · trivial
  · exact h.congr hv

/-- After the inserts of some elements the call goes on, or has ended with all its rows. -/
theorem owns_next {version : Nat} {before rest : List String}
    (hv : HasVersion db id (some ⟨id, call.elementType, version⟩))
    (he : HasElements db id call.elementType before) (heq : call.elements = before ++ rest) :
    Owns db id { call with stage := .next version rest } := by
  cases rest with
  | nil =>
    rw [List.append_nil] at heq
    exact ⟨hv, heq ▸ he⟩
  | cons e rest => exact ⟨hv, before, heq, he⟩

/-! ### The invariant -/

/-- `db₀` holds the rows of earlier calls, from before the run. -/
structure Inv (db₀ : Db) (s : State) : Prop where
  distinct : s.db.versions.Pairwise fun r r' => ¬ r.Conflicts r'
  owns : ∀ id call, s.calls id = some call → Owns s.db id call
  versions : ∀ r, s.calls r.id = none → (r ∈ s.db.versions ↔ r ∈ db₀.versions)
  elements : ∀ r, s.calls r.versionId = none → (r ∈ s.db.elements ↔ r ∈ db₀.elements)
  /-- No call has the id of an earlier row. -/
  earlier : ∀ id call, s.calls id = some call →
    (∀ r ∈ db₀.versions, r.id ≠ id) ∧ ∀ r ∈ db₀.elements, r.versionId ≠ id
  newer : ∀ id call version, s.calls id = some call →
    (call.stage = .insertVersion version ∨ call.stage.inserted = some version) →
    ∀ r ∈ call.atRead, r.elementType = call.elementType → r.version < version

theorem inv_init (h : db₀.versions.Pairwise fun r r' => ¬ r.Conflicts r') :
    Inv db₀ (State.init db₀) where
  distinct := h
  owns _ _ hcall := nomatch hcall
  versions _ _ := Iff.rfl
  elements _ _ := Iff.rfl
  earlier _ _ hcall := nomatch hcall
  newer _ _ _ hcall := nomatch hcall

/-- The step of a call that was there before: it changes rows with its own id only. -/
theorem Inv.setStage (hinv : Inv db₀ s) {call' : Call} {stage : Stage}
    (hcall : s.calls id = some call)
    (hdistinct : db.versions.Pairwise fun r r' => ¬ r.Conflicts r')
    (hversions : ∀ r : VersionRow, r.id ≠ id → (r ∈ db.versions ↔ r ∈ s.db.versions))
    (helements : ∀ r : ElementRow, r.versionId ≠ id → (r ∈ db.elements ↔ r ∈ s.db.elements))
    (howns : Owns db id { call' with stage := stage })
    (hnewer : ∀ version, (stage = .insertVersion version ∨ stage.inserted = some version) →
      ∀ r ∈ call'.atRead, r.elementType = call'.elementType → r.version < version) :
    Inv db₀ (s.setStage id call' db stage) := by
  have hother {j : String} (hj : j ≠ id) :
      (s.setStage id call' db stage).calls j = s.calls j := Function.update_of_ne hj _ _
  have hself : (s.setStage id call' db stage).calls id = some { call' with stage := stage } :=
    Function.update_self _ _ _
  have hne {j : String} (hj : (s.setStage id call' db stage).calls j = none) : j ≠ id := by
    rintro rfl
    rw [hself] at hj
    cases hj
  refine ⟨hdistinct, fun j c hc => ?_, fun r hr => ?_, fun r hr => ?_, fun j c hc => ?_,
    fun j c version hc => ?_⟩
  · by_cases hj : j = id
    · subst hj
      obtain rfl := Option.some.inj (hself.symm.trans hc)
      exact howns
    · rw [hother hj] at hc
      exact (hinv.owns j c hc).congr (fun r hr => hversions r (hr ▸ hj))
        fun r hr => helements r (hr ▸ hj)
  · have hr' := hne hr
    rw [hother hr'] at hr
    exact (hversions r hr').trans (hinv.versions r hr)
  · have hr' := hne hr
    rw [hother hr'] at hr
    exact (helements r hr').trans (hinv.elements r hr)
  · by_cases hj : j = id
    · subst hj
      exact hinv.earlier j call hcall
    · rw [hother hj] at hc
      exact hinv.earlier j c hc
  · by_cases hj : j = id
    · subst hj
      obtain rfl := Option.some.inj (hself.symm.trans hc)
      exact hnewer version
    · rw [hother hj] at hc
      exact hinv.newer j c version hc

/-- What a call knows of its version stays true while it inserts rows. -/
theorem Inv.newer_next (hinv : Inv db₀ s) {version : Nat} {rest : List String}
    (hcall : s.calls id = some call)
    (hstage : call.stage = .insertVersion version ∨ call.stage.inserted = some version) :
    ∀ v, (Stage.next version rest = .insertVersion v ∨
        (Stage.next version rest).inserted = some v) →
      ∀ r ∈ call.atRead, r.elementType = call.elementType → r.version < v := by
  intro v hv
  obtain rfl : version = v := by
    cases rest with
    | nil => simpa [Stage.next, Stage.inserted] using hv
    | cons e rest => simpa [Stage.next, Stage.inserted] using hv
  exact hinv.newer id call version hcall hstage

/-- **Every step of every call keeps the invariant.** -/
theorem Inv.step (hinv : Inv db₀ s) {a : String × Action} (hstep : Step s a s') : Inv db₀ s' := by
  cases hstep with
  | @start id elementType version elements hfresh =>
    obtain ⟨hnone, hversions, helements⟩ := hfresh
    have hold {j : String} (hj : j ≠ id) : Function.update s.calls id
        (some (Call.new elementType version elements)) j = s.calls j := Function.update_of_ne hj _ _
    have hself : Function.update s.calls id (some (Call.new elementType version elements)) id =
        some (Call.new elementType version elements) := Function.update_self _ _ _
    have hne {j : String} (hj : Function.update s.calls id
        (some (Call.new elementType version elements)) j = none) : j ≠ id := by
      rintro rfl
      rw [hself] at hj
      cases hj
    have hnorows : HasVersion s.db id none ∧ HasElements s.db id elementType [] :=
      ⟨fun r hr => by simpa using fun h => hversions r h hr,
        fun r hr => by simpa using fun h => helements r h hr⟩
    -- whatever the checks say, the call has no rows and no version
    have hstage : (Call.new elementType version elements).stage = .failed ∨
        (Call.new elementType version elements).stage = .read := by
      unfold Call.new
      split
      · exact .inl rfl
      split
      · exact .inl rfl
      split
      · exact .inl rfl
      · exact .inr rfl
    refine ⟨hinv.distinct, fun j c hc => ?_, fun r hr => ?_, fun r hr => ?_, fun j c hc => ?_,
      fun j c v hc hv => ?_⟩
    · by_cases hj : j = id
      · subst hj
        obtain rfl := Option.some.inj (hself.symm.trans hc)
        unfold Owns
        rcases hstage with hstage | hstage
        · rw [hstage]
          exact hnorows
        · rw [hstage]
          exact hnorows
      · exact hinv.owns j c ((hold hj).symm.trans hc)
    · exact hinv.versions r ((hold (hne hr)).symm.trans hr)
    · exact hinv.elements r ((hold (hne hr)).symm.trans hr)
    · by_cases hj : j = id
      · subst hj
        refine ⟨fun r hr hrid => ?_, fun r hr hrid => ?_⟩
        · exact hversions r ((hinv.versions r (hrid ▸ hnone)).mpr hr) hrid
        · exact helements r ((hinv.elements r (hrid ▸ hnone)).mpr hr) hrid
      · exact hinv.earlier j c ((hold hj).symm.trans hc)
    · by_cases hj : j = id
      · subst hj
        obtain rfl := Option.some.inj (hself.symm.trans hc)
        rcases hstage with hstage | hstage
        · rw [hstage] at hv
          simp [Stage.inserted] at hv
        · rw [hstage] at hv
          simp [Stage.inserted] at hv
      · exact hinv.newer j c v ((hold hj).symm.trans hc) hv
  | @read id call ok hcall hstage =>
    have howns := hinv.owns id call hcall
    rw [Owns, hstage] at howns
    refine hinv.setStage hcall hinv.distinct (fun r _ => Iff.rfl) (fun r _ => Iff.rfl) ?_ ?_
    · cases ok
      · exact howns
      · exact howns
    · rintro version hv r hr htype
      cases ok with
      | false => simp [Stage.inserted] at hv
      | true =>
        obtain rfl : s.db.nextVersion call.elementType = version := by
          simpa [Stage.inserted] using hv
        exact htype ▸ Db.lt_nextVersion hr
  | @insertVersion id call version db hcall hstage hinsert =>
    have howns := hinv.owns id call hcall
    rw [Owns, hstage] at howns
    obtain ⟨hno, rfl⟩ := Db.insertVersion_eq_some_iff.mp hinsert
    refine hinv.setStage hcall ?_ (fun r hr => ?_) (fun r _ => Iff.rfl) ?_
      (hinv.newer_next hcall (.inl hstage))
    · refine List.pairwise_append.mpr ⟨hinv.distinct, List.pairwise_singleton _ _, ?_⟩
      intro r hr r' hr'
      obtain rfl := List.mem_singleton.mp hr'
      exact hno r hr
    · rw [List.mem_append, List.mem_singleton, or_iff_left]
      rintro rfl
      exact hr rfl
    · refine owns_next (fun r hr => ?_) howns.2 rfl
      rw [List.mem_append, List.mem_singleton, howns.1 r hr]
      simp [eq_comm]
  | @insertVersionFails id call version ok hcall hstage hfail =>
    refine hinv.setStage hcall hinv.distinct (fun r _ => Iff.rfl) (fun r _ => Iff.rfl) trivial ?_
    intro v hv
    simp [Stage.inserted] at hv
  | @insertElement id e call version rest db hcall hstage hinsert =>
    have howns := hinv.owns id call hcall
    rw [Owns, hstage] at howns
    obtain ⟨hversion, before, heq, helements⟩ := howns
    obtain ⟨-, rfl⟩ := Db.insertElement_eq_some_iff.mp hinsert
    refine hinv.setStage hcall hinv.distinct (fun r _ => Iff.rfl) (fun r hr => ?_) ?_
      (hinv.newer_next hcall (.inr (by rw [hstage]; rfl)))
    · rw [List.mem_append, List.mem_singleton, or_iff_left]
      rintro rfl
      exact hr rfl
    · have hrest : call.elements = (before ++ [e]) ++ rest := by
        rw [heq]
        simp
      refine owns_next hversion (fun r hr => ?_) hrest
      obtain ⟨vid, etype, eid⟩ := r
      obtain rfl : vid = id := hr
      rw [List.mem_append, List.mem_singleton, helements _ rfl, List.mem_append,
        List.mem_singleton, ElementRow.mk.injEq]
      simp only [true_and]
      exact and_or_left.symm
  | @insertElementFails id e call version rest ok hcall hstage hfail =>
    refine hinv.setStage hcall hinv.distinct (fun r _ => Iff.rfl) (fun r _ => Iff.rfl) trivial ?_
    intro v hv
    simp [Stage.inserted] at hv
  | @deleteVersion id call hcall hstage =>
    refine hinv.setStage hcall (hinv.distinct.sublist List.filter_sublist) (fun r hr => ?_)
      (fun r _ => Iff.rfl) (fun r hr => ?_) ?_
    · rw [Db.deleteVersion, List.mem_filter, decide_eq_true_eq, and_iff_left hr]
    · rw [Db.deleteVersion, List.mem_filter, decide_eq_true_eq]
      simp [hr]
    · intro v hv
      simp [Stage.inserted] at hv
  | @deleteElements id call hcall hstage =>
    have howns := hinv.owns id call hcall
    rw [Owns, hstage] at howns
    refine hinv.setStage hcall hinv.distinct (fun r _ => Iff.rfl) (fun r hr => ?_)
      ⟨howns, fun r hr => ?_⟩ ?_
    · rw [Db.deleteElements, List.mem_filter, decide_eq_true_eq, and_iff_left hr]
    · rw [Db.deleteElements, List.mem_filter, decide_eq_true_eq]
      simp [hr]
    · intro v hv
      simp [Stage.inserted] at hv

/-- A step changes no rows with another id. -/
theorem Step.frame {id : String} {a : Action} (hstep : Step s (id, a) s') :
    (∀ r : VersionRow, r.id ≠ id → (r ∈ s'.db.versions ↔ r ∈ s.db.versions)) ∧
      ∀ r : ElementRow, r.versionId ≠ id → (r ∈ s'.db.elements ↔ r ∈ s.db.elements) := by
  cases hstep with
  | start => exact ⟨fun r _ => Iff.rfl, fun r _ => Iff.rfl⟩
  | read => exact ⟨fun r _ => Iff.rfl, fun r _ => Iff.rfl⟩
  | insertVersion _ _ hinsert =>
    obtain ⟨-, rfl⟩ := Db.insertVersion_eq_some_iff.mp hinsert
    refine ⟨fun r hr => ?_, fun r _ => Iff.rfl⟩
    rw [State.setStage, List.mem_append, List.mem_singleton, or_iff_left]
    rintro rfl
    exact hr rfl
  | insertVersionFails => exact ⟨fun r _ => Iff.rfl, fun r _ => Iff.rfl⟩
  | insertElement _ _ hinsert =>
    obtain ⟨-, rfl⟩ := Db.insertElement_eq_some_iff.mp hinsert
    refine ⟨fun r _ => Iff.rfl, fun r hr => ?_⟩
    rw [State.setStage, List.mem_append, List.mem_singleton, or_iff_left]
    rintro rfl
    exact hr rfl
  | insertElementFails => exact ⟨fun r _ => Iff.rfl, fun r _ => Iff.rfl⟩
  | deleteVersion =>
    refine ⟨fun r hr => ?_, fun r _ => Iff.rfl⟩
    rw [State.setStage, Db.deleteVersion, List.mem_filter, decide_eq_true_eq, and_iff_left hr]
  | deleteElements =>
    refine ⟨fun r _ => Iff.rfl, fun r hr => ?_⟩
    rw [State.setStage, Db.deleteElements, List.mem_filter, decide_eq_true_eq, and_iff_left hr]

/-! ### The result -/

/-- What holds in every state. -/
structure Sound (db₀ : Db) (s : State) : Prop where
  /-- The versions of an element type are pairwise distinct. -/
  distinct : s.db.versions.Pairwise fun r r' =>
    ¬ (r.elementType = r'.elementType ∧ r.version = r'.version)
  newer : ∀ id call version, s.calls id = some call → call.stage.inserted = some version →
    ∀ r ∈ call.atRead, r.elementType = call.elementType → r.version < version
  /-- A failed call has left nothing. -/
  failed : ∀ id call, s.calls id = some call → call.stage = .failed →
    (∀ r ∈ s.db.versions, r.id ≠ id) ∧ ∀ r ∈ s.db.elements, r.versionId ≠ id
  /-- When no call is in progress, the rows are those from before and those of the calls that have
  succeeded. -/
  quiet : (∀ id call, s.calls id = some call → call.stage.finished) →
    (∀ r, r ∈ s.db.versions ↔ r ∈ db₀.versions ∨ ∃ call version, s.calls r.id = some call ∧
      call.stage = .succeeded version ∧ r = ⟨r.id, call.elementType, version⟩) ∧
    ∀ r, r ∈ s.db.elements ↔ r ∈ db₀.elements ∨ ∃ call version, s.calls r.versionId = some call ∧
      call.stage = .succeeded version ∧ r.elementType = call.elementType ∧
      r.elementId ∈ call.elements
  /-- A step removes nothing of another call, nor adds to it. -/
  frame : ∀ id a s', Step s (id, a) s' →
    (∀ r : VersionRow, r.id ≠ id → (r ∈ s'.db.versions ↔ r ∈ s.db.versions)) ∧
      ∀ r : ElementRow, r.versionId ≠ id → (r ∈ s'.db.elements ↔ r ∈ s.db.elements)

/-- The rows of a call that has ended. -/
theorem Inv.finished (hinv : Inv db₀ s) (hcall : s.calls id = some call)
    (hfin : call.stage.finished) :
    (call.stage = .failed ∧ HasVersion s.db id none ∧ HasElements s.db id call.elementType []) ∨
    ∃ version, call.stage = .succeeded version ∧
      HasVersion s.db id (some ⟨id, call.elementType, version⟩) ∧
      HasElements s.db id call.elementType call.elements := by
  have howns := hinv.owns id call hcall
  unfold Owns at howns
  cases hstage : call.stage with
  | failed =>
    rw [hstage] at howns
    exact .inl ⟨rfl, howns⟩
  | succeeded version =>
    rw [hstage] at howns
    exact .inr ⟨version, rfl, howns⟩
  | _ =>
    rw [hstage] at hfin
    cases hfin

theorem Inv.sound (hinv : Inv db₀ s) : Sound db₀ s where
  distinct := hinv.distinct.imp fun h hc => h (.inr hc)
  newer id call version hcall hver := hinv.newer id call version hcall (.inr hver)
  failed id call hcall hstage := by
    have howns := hinv.owns id call hcall
    rw [Owns, hstage] at howns
    exact ⟨fun r hr hid => by simpa using (howns.1 r hid).mp hr,
      fun r hr hid => by simpa using ((howns.2 r hid).mp hr).2⟩
  quiet hquiet := by
    constructor
    · intro r
      cases hcall : s.calls r.id with
      | none =>
        rw [hinv.versions r hcall]
        simp
      | some call =>
        have hnot : r ∉ db₀.versions := fun hr => (hinv.earlier _ call hcall).1 r hr rfl
        rcases hinv.finished hcall (hquiet _ call hcall) with ⟨hstage, hver, -⟩ |
          ⟨version, hstage, hver, -⟩
        · rw [hver r rfl]
          simp [hnot, hstage]
        · rw [hver r rfl]
          simp [hnot, hstage, eq_comm]
    · intro r
      cases hcall : s.calls r.versionId with
      | none =>
        rw [hinv.elements r hcall]
        simp
      | some call =>
        have hnot : r ∉ db₀.elements := fun hr => (hinv.earlier _ call hcall).2 r hr rfl
        rcases hinv.finished hcall (hquiet _ call hcall) with ⟨hstage, -, helem⟩ |
          ⟨version, hstage, -, helem⟩
        · rw [helem r rfl]
          simp [hnot, hstage]
        · rw [helem r rfl]
          simp [hnot, hstage]
  frame _ _ _ hstep := hstep.frame

/-- **Calls of `insertConfig`, interleaved and failing in any way, keep the tables sound.** -/
theorem sound_of_run {actions : List (String × Action)}
    (hdb : db₀.versions.Pairwise fun r r' => ¬ r.Conflicts r')
    (hrun : Run Step (State.init db₀) actions s) : Sound db₀ s :=
  (hrun.invariant (inv_init hdb) fun _ _ _ hinv hstep => hinv.step hstep).sound

/-- Two calls that read the same version: the second one fails, and cleans up. -/
theorem sound_of_run_race :
    ∃ s, Run Step (State.init ⟨[], []⟩)
        [("a", .start "log_pipelines" 0 ["p"]), ("b", .start "log_pipelines" 0 ["p"]),
          ("a", .read true), ("b", .read true), ("b", .insertVersion true),
          ("a", .insertVersion true), ("b", .insertElement true), ("a", .deleteVersion),
          ("a", .deleteElements)] s ∧
      s.db = ⟨[⟨"b", "log_pipelines", 1⟩], [⟨"b", "log_pipelines", "p"⟩]⟩ ∧
      Sound ⟨[], []⟩ s := by
  have hfresh {s : State} {id : String} (hnone : s.calls id = none) (hdb : s.db = ⟨[], []⟩) :
      s.Fresh id := by
    refine ⟨hnone, ?_, ?_⟩
    · rw [hdb]
      exact fun r hr => absurd hr List.not_mem_nil
    · rw [hdb]
      exact fun r hr => absurd hr List.not_mem_nil
  have hrun := (Run.nil (s := State.init ⟨[], []⟩)).snoc
    (@Step.start _ "a" "log_pipelines" 0 ["p"] (hfresh rfl rfl))
  have hrun := hrun.snoc (@Step.start _ "b" "log_pipelines" 0 ["p"] (hfresh rfl rfl))
  have hrun := hrun.snoc (@Step.read _ "a" _ true rfl rfl)
  have hrun := hrun.snoc (@Step.read _ "b" _ true rfl rfl)
  have hrun := hrun.snoc (@Step.insertVersion _ "b" _ _ _ rfl rfl rfl)
  have hrun := hrun.snoc (@Step.insertVersionFails _ "a" _ _ true rfl rfl (.inr rfl))
  have hrun := hrun.snoc (@Step.insertElement _ "b" _ _ _ _ _ rfl rfl rfl)
  have hrun := hrun.snoc (@Step.deleteVersion _ "a" _ rfl rfl)
  have hrun := hrun.snoc (@Step.deleteElements _ "a" _ rfl rfl)
  exact ⟨_, hrun, rfl, sound_of_run List.Pairwise.nil hrun⟩

end QueryService.AgentConf
