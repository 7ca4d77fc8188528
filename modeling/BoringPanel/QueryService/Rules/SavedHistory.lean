import BoringPanel.QueryService.Rules.ThresholdRule

/-!
# The rows that are written

`RecordRuleStateHistory` row by row: which row of the history a fingerprint gets, after a restart
(`lookup_reviseItems`) and later (`lookup_byFingerprint`), and which row of a fingerprint is the last
one then (`lastWritten_append`).
-/

namespace QueryService.Rules

variable {F : Type}

/-! ### Tables of rows -/

/-- Each row is found under its fingerprint. -/
def Keyed (t : Go.Table UInt64 (RuleStateHistory F)) : Prop :=
  ∀ fp row, t.lookup fp = some row → row.fingerprint = fp

/-- The last row of a fingerprint, in the order in which the rows were written. -/
def lastWritten (history : List (RuleStateHistory F)) (fp : UInt64) : Option (RuleStateHistory F) :=
  (history.filter fun row => row.fingerprint = fp).getLast?

@[simp] theorem lastWritten_nil (fp : UInt64) :
    lastWritten ([] : List (RuleStateHistory F)) fp = none := rfl

/-- The rows of a table are written after the ones that are there. -/
theorem lastWritten_append {t : Go.Table UInt64 (RuleStateHistory F)} (h : Keyed t)
    (history : List (RuleStateHistory F)) (fp : UInt64) :
    lastWritten (history ++ t.entries.map Prod.snd) fp =
      (t.lookup fp).or (lastWritten history fp) := by
  have hrows : ((t.entries.map Prod.snd).filter fun row => row.fingerprint = fp) =
      (t.lookup fp).toList := by
    have hfilter : (t.entries.filter fun e => e.2.fingerprint = fp) =
        t.entries.filter fun e => e.1 = fp := by
      refine List.filter_congr fun e he => ?_
      rw [h e.1 e.2 (Go.Table.lookup_eq_some.mpr he)]
    rw [List.filter_map]
    show (t.entries.filter fun e => e.2.fingerprint = fp).map Prod.snd = _
    rw [hfilter, Go.Table.filter_key]
  rw [lastWritten, List.filter_append, hrows]
  cases t.lookup fp with
  | none => simp [lastWritten]
  | some row => simp

/-! ### The rows of an evaluation -/

/-- The row of a fingerprint is the last one of the list. -/
theorem lookup_byFingerprint (items : List (RuleStateHistory F)) (fp : UInt64) :
    (byFingerprint items).lookup fp = lastWritten items fp := by
  induction items using List.reverseRecOn with
  | nil => rfl
  | append_singleton items item ih =>
    rw [byFingerprint, List.foldl_append]
    show ((byFingerprint items).set item.fingerprint item).lookup fp = _
    rw [Go.Table.lookup_set, ih, lastWritten, lastWritten, List.filter_append]
    by_cases hfp : fp = item.fingerprint
    · simp [hfp]
    · simp [hfp, Ne.symm hfp]

theorem lastWritten_eq_some {items : List (RuleStateHistory F)} {fp : UInt64}
    {row : RuleStateHistory F} (h : lastWritten items fp = some row) :
    row ∈ items ∧ row.fingerprint = fp := by
  have hmem := List.mem_of_getLast? h
  rw [List.mem_filter, decide_eq_true_eq] at hmem
  exact hmem

theorem lastWritten_eq_none {items : List (RuleStateHistory F)} {fp : UInt64} :
    lastWritten items fp = none ↔ ∀ row ∈ items, row.fingerprint ≠ fp := by
  rw [lastWritten, List.getLast?_eq_none_iff, List.filter_eq_nil_iff]
  exact forall₂_congr fun row _ => not_congr decide_eq_true_iff

/-- The only row of a fingerprint is the last one. -/
theorem lastWritten_of_mem {rows : List (RuleStateHistory F)} {row : RuleStateHistory F}
    (hnd : (rows.map RuleStateHistory.fingerprint).Nodup) (h : row ∈ rows) :
    lastWritten rows row.fingerprint = some row := by
  cases hlast : lastWritten rows row.fingerprint with
  | none => exact absurd rfl (lastWritten_eq_none.mp hlast row h)
  | some row' =>
    obtain ⟨hmem, hfp⟩ := lastWritten_eq_some hlast
    rw [List.inj_on_of_nodup_map hnd hmem h hfp]

theorem keyed_byFingerprint (items : List (RuleStateHistory F)) : Keyed (byFingerprint items) := by
  intro fp row h
  rw [lookup_byFingerprint] at h
  exact (lastWritten_eq_some h).2

/-! ### The rows of a restart -/

theorem fingerprint_savedChange {now : Go.Time} {l : Go.Table UInt64 (RuleStateHistory F)}
    {item row : RuleStateHistory F} (h : savedChange now l item = some row) :
    row.fingerprint = item.fingerprint := by
  unfold savedChange at h
  split at h
  · split at h
    · obtain rfl := Option.some.inj h
      rfl
    · cases h
  · split at h
    · obtain rfl := Option.some.inj h
      rfl
    · cases h

/-- The loop over the saved rows, of which there is one for each fingerprint. -/
theorem lookup_savedLoop (now : Go.Time) (l : Go.Table UInt64 (RuleStateHistory F)) (fp : UInt64) :
    ∀ (saved : List (RuleStateHistory F)) (revised : Go.Table UInt64 (RuleStateHistory F)),
      (saved.map RuleStateHistory.fingerprint).Nodup →
      (saved.foldl (addChange now l) revised).lookup fp =
      ((saved.find? fun row => row.fingerprint = fp).bind (savedChange now l)).or
        (revised.lookup fp) := by
  intro saved
  induction saved with
  | nil => exact fun _ _ => rfl
  | cons row saved ih =>
    intro revised hnd
    obtain ⟨hnot, hnd⟩ := List.nodup_cons.mp hnd
    rw [List.foldl_cons, ih _ hnd, addChange]
    by_cases hfp : row.fingerprint = fp
    · have hrest : (saved.find? fun row => row.fingerprint = fp) = none := by
        rw [List.find?_eq_none]
        intro row' hmem hk
        refine hnot ?_
        rw [hfp, ← of_decide_eq_true hk]
        exact List.mem_map_of_mem hmem
      rw [hrest, List.find?_cons_of_pos (by simp [hfp])]
      cases hchange : savedChange now l row with
      | none => simp [hchange]
      | some row' =>
        have hfp' : row'.fingerprint = fp := (fingerprint_savedChange hchange).trans hfp
        simp [hchange, ← hfp']
    · rw [List.find?_cons_of_neg (by simp [hfp])]
      congr 1
      cases hchange : savedChange now l row with
      | none => rfl
      | some row' =>
        have hfp' : fp ≠ row'.fingerprint := by
          rw [fingerprint_savedChange hchange]
          exact Ne.symm hfp
        exact Go.Table.lookup_set_of_ne _ hfp' _

/-- The loop over the rows of the evaluation takes the first row of a new fingerprint. -/
theorem lookup_newLoop (done : List UInt64) (fp : UInt64) :
    ∀ (items : List (RuleStateHistory F)) (revised : Go.Table UInt64 (RuleStateHistory F)),
      (items.foldl (addUnsaved done) revised).lookup fp =
      (revised.lookup fp).or
        (if fp ∈ done then none else items.find? fun row => row.fingerprint = fp) := by
  intro items
  induction items with
  | nil => simp
  | cons row items ih =>
    intro revised
    rw [List.foldl_cons, ih, addUnsaved]
    by_cases hfp : row.fingerprint = fp
    · subst hfp
      rw [List.find?_cons_of_pos (by simp)]
      by_cases hdone : row.fingerprint ∈ done
      · simp [hdone]
      · cases hrow : revised.lookup row.fingerprint with
        | none => simp [hdone]
        | some row' => simp [hrow]
    · rw [List.find?_cons_of_neg (by simp [hfp])]
      congr 1
      split
      · exact Go.Table.lookup_set_of_ne _ (Ne.symm hfp) _
      · rfl

/-- **The row of a fingerprint after a restart**: a change of the saved row if there is one, otherwise
the first row of the evaluation. -/
theorem lookup_reviseItems (now : Go.Time) {saved : List (RuleStateHistory F)}
    (hnd : (saved.map RuleStateHistory.fingerprint).Nodup) (items : List (RuleStateHistory F))
    (fp : UInt64) :
    (reviseItems now saved items).lookup fp =
      match saved.find? fun row => row.fingerprint = fp with
      | some row => savedChange now (byFingerprint items) row
      | none => items.find? fun row => row.fingerprint = fp := by
  rw [reviseItems, lookup_newLoop, lookup_savedLoop now _ fp saved _ hnd, Go.Table.lookup_empty,
    Option.or_none]
  cases hsaved : saved.find? fun row => row.fingerprint = fp with
  | some row =>
    have hmem : fp ∈ saved.map RuleStateHistory.fingerprint := by
      have hfp : row.fingerprint = fp := by simpa using List.find?_some hsaved
      rw [← hfp]
      exact List.mem_map_of_mem (List.mem_of_find?_eq_some hsaved)
    simp [hmem]
  | none =>
    have hmem : fp ∉ saved.map RuleStateHistory.fingerprint := by
      intro hmem
      obtain ⟨row, hrow, hfp⟩ := List.mem_map.mp hmem
      have := List.find?_eq_none.mp hsaved row hrow
      simp [hfp] at this
    simp [hmem]

theorem keyed_reviseItems (now : Go.Time) {saved : List (RuleStateHistory F)}
    (hnd : (saved.map RuleStateHistory.fingerprint).Nodup) (items : List (RuleStateHistory F)) :
    Keyed (reviseItems now saved items) := by
  intro fp row h
  rw [lookup_reviseItems now hnd] at h
  split at h
  · rename_i row' hsaved
    rw [fingerprint_savedChange h]
    simpa using List.find?_some hsaved
  · simpa using List.find?_some h

theorem lookup_restartItems (now : Go.Time) (first : RuleStateHistory F)
    (saved items : List (RuleStateHistory F)) (fp : UInt64) :
    (restartItems now first saved items).lookup fp =
      ((reviseItems now saved items).lookup fp).map fun row =>
        if first.overallState ≠ revisedState (reviseItems now saved items) then
          { row with
            overallState := revisedState (reviseItems now saved items), overallStateChanged := true }
        else row := by
  by_cases h : first.overallState ≠ revisedState (reviseItems now saved items)
  · simp only [restartItems, if_pos h]
    rw [Go.Table.lookup_sweep]
    cases (reviseItems now saved items).lookup fp with
    | none => rfl
    | some row => rfl
  · simp only [restartItems, if_neg h]
    cases (reviseItems now saved items).lookup fp with
    | none => rfl
    | some row => rfl

theorem keyed_restartItems (now : Go.Time) (first : RuleStateHistory F)
    {saved : List (RuleStateHistory F)} (hnd : (saved.map RuleStateHistory.fingerprint).Nodup)
    (items : List (RuleStateHistory F)) : Keyed (restartItems now first saved items) := by
  intro fp row h
  rw [lookup_restartItems] at h
  obtain ⟨row', hrow', rfl⟩ := Option.map_eq_some_iff.mp h
  have hfp := keyed_reviseItems now hnd items fp row' hrow'
  split
  · exact hfp
  · exact hfp

/-! ### The history after the rows are written -/

/-- The answer of `GetLastSavedRuleStateHistory`: the last row of each fingerprint, in any order. -/
structure LastSaved (history saved : List (RuleStateHistory F)) : Prop where
  nodup : (saved.map RuleStateHistory.fingerprint).Nodup
  find : ∀ fp, (saved.find? fun row => row.fingerprint = fp) = lastWritten history fp

section Written

variable {history saved items : List (RuleStateHistory F)}

/-- Where no restart is to be handled, the rows of the evaluation are the last ones. -/
theorem lastWritten_plain {now : Go.Time} {handledRestart : Bool}
    (h : handledRestart = true ∨ saved = []) (fp : UInt64) :
    lastWritten (history ++ (revisedItems now handledRestart saved items).entries.map Prod.snd) fp =
      (lastWritten items fp).or (lastWritten history fp) := by
  have hrows : revisedItems now handledRestart saved items = byFingerprint items := by
    rcases h with rfl | rfl
    · rfl
    · cases handledRestart with
      | false => rfl
      | true => rfl
  rw [hrows, lastWritten_append (keyed_byFingerprint items), lookup_byFingerprint]

/-- The state of a fingerprint after a restart has been handled. -/
def restartState (row : Option (RuleStateHistory F)) (items : List (RuleStateHistory F))
    (fp : UInt64) : Option AlertState :=
  match row with
  | some row => some (match lastWritten items fp with
    | some currentState => currentState.state
    | none => if row.state.alerting then .inactive else row.state)
  | none => (items.find? fun row => row.fingerprint = fp).map RuleStateHistory.state

/-- A fingerprint that alerts in the evaluation does so after the restart. -/
theorem restartState_alerting {row : Option (RuleStateHistory F)} {fp : UInt64}
    {item : RuleStateHistory F} (hitem : lastWritten items fp = some item)
    (halert : ∀ item ∈ items, item.fingerprint = fp → item.state.alerting) :
    ∃ state, restartState row items fp = some state ∧ state.alerting := by
  unfold restartState
  cases row with
  | some row =>
    rw [hitem]
    obtain ⟨hmem, hfp⟩ := lastWritten_eq_some hitem
    exact ⟨_, rfl, halert item hmem hfp⟩
  | none =>
    cases hfirst : items.find? fun row => row.fingerprint = fp with
    | some first =>
      have hfp : first.fingerprint = fp := by simpa using List.find?_some hfirst
      exact ⟨_, rfl, halert first (List.mem_of_find?_eq_some hfirst) hfp⟩
    | none =>
      obtain ⟨hmem, hfp⟩ := lastWritten_eq_some hitem
      have := List.find?_eq_none.mp hfirst item hmem
      simp [hfp] at this

/-- A fingerprint that does not alert in the evaluation is inactive after the restart. -/
theorem restartState_inactive {row : Option (RuleStateHistory F)} {fp : UInt64}
    (hinactive : ∀ item ∈ items, item.fingerprint = fp → item.state = .inactive)
    (hknown : ∀ r ∈ row, r.state.alerting ∨ r.state = .inactive) {state : AlertState}
    (h : restartState row items fp = some state) : state = .inactive := by
  unfold restartState at h
  cases row with
  | some row =>
    obtain rfl := Option.some.inj h
    cases hitem : lastWritten items fp with
    | some item =>
      obtain ⟨hmem, hfp⟩ := lastWritten_eq_some hitem
      exact hinactive item hmem hfp
    | none =>
      show (if row.state.alerting then AlertState.inactive else row.state) = .inactive
      split
      · rfl
      · rename_i hnot
        exact (hknown row rfl).resolve_left hnot
  | none =>
    obtain ⟨first, hfirst, rfl⟩ := Option.map_eq_some_iff.mp h
    have hfp : first.fingerprint = fp := by simpa using List.find?_some hfirst
    exact hinactive first (List.mem_of_find?_eq_some hfirst) hfp

theorem lastWritten_restart {now : Go.Time} (hsaved : LastSaved history saved) (hne : saved ≠ [])
    (fp : UInt64) :
    (lastWritten (history ++ (revisedItems now false saved items).entries.map Prod.snd) fp).map
      RuleStateHistory.state = restartState (lastWritten history fp) items fp := by
  obtain ⟨first, rest, rfl⟩ := List.exists_cons_of_ne_nil hne
  show (lastWritten (history ++ (restartItems now first _ items).entries.map Prod.snd) fp).map _ = _
  rw [lastWritten_append (keyed_restartItems now first hsaved.nodup items), lookup_restartItems,
    lookup_reviseItems now hsaved.nodup, hsaved.find]
  unfold restartState
  cases hrow : lastWritten history fp with
  | none =>
    cases items.find? fun row => row.fingerprint = fp with
    | none => rfl
    | some item =>
      show some (RuleStateHistory.state (if _ then _ else _)) = some item.state
      split
      · rfl
      · rfl
  | some row =>
    have hfp : row.fingerprint = fp := (lastWritten_eq_some hrow).2
    simp only [savedChange, lookup_byFingerprint, hfp]
    cases hitem : lastWritten items fp with
    | none =>
      by_cases halerting : row.state.alerting
      · simp only [if_pos halerting]
        show some (RuleStateHistory.state (if _ then _ else _)) = some AlertState.inactive
        split
        · rfl
        · rfl
      · simp only [if_neg halerting]
        rfl
    | some item =>
      by_cases hchanged : row.state ≠ item.state
      · simp only [if_pos hchanged]
        show some (RuleStateHistory.state (if _ then _ else _)) = some item.state
        split
        · rfl
        · rfl
      · simp only [if_neg hchanged]
        show some row.state = some item.state
        rw [not_not.mp hchanged]

end Written

end QueryService.Rules
