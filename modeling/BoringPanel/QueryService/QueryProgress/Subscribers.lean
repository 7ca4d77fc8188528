import BoringPanel.QueryService.QueryProgress.Totals

/-!
# Trackers, cleanup functions and subscriptions

Two invariants of the tracker: the map, the trackers and the cleanup functions agree (`Registered`), and
each open channel belongs to its tracker (`Handed`). With them no operation panics, and each has a closed
form.
-/

namespace QueryService.QueryProgress

variable {s s' : State} {as : List Action} {t c : Nat} {queryTracker : QueryTracker}

/-! ### Trackers and their subscriptions -/

/-- Where the cleanup function of a tracker stands, and whether the tracker is finished. -/
def Cleanup.Fits (t : Nat) (queryTracker : QueryTracker) : Cleanup → Prop
  | .waiting queryId => queryTracker.queryId = queryId ∧ queryTracker.isFinished = false
  | .finishing u => u = t ∧ queryTracker.isFinished = false
  | .returned => queryTracker.isFinished = true ∧ queryTracker.subscriptions = []

/-- The map has the trackers whose cleanup function has not been called, and these run. -/
structure Registered (s : State) : Prop where
  lookup : ∀ q t, s.queries.lookup q = some t ↔ s.cleanups t = some (.waiting q)
  fits : ∀ t cleanup, s.cleanups t = some cleanup →
    ∃ queryTracker, s.trackers t = some queryTracker ∧ cleanup.Fits t queryTracker
  known : ∀ t, (s.trackers t).isSome → (s.cleanups t).isSome
  pending : ∀ t request, (t, request) ∈ s.pending → (s.trackers t).isSome

/-- Each subscription belongs to the tracker of its unsubscribe function, as long as it is open. -/
structure Handed (s : State) : Prop where
  tracker : ∀ c t, s.unsubscribes c = some t → ∃ queryTracker sub,
    s.trackers t = some queryTracker ∧ s.subscriptions c = some sub ∧
      sub.isClosed = sub.ch.closed ∧ (c ∈ queryTracker.subscriptions ↔ sub.isClosed = false)
  unsubscribes : ∀ t queryTracker c, s.trackers t = some queryTracker →
    c ∈ queryTracker.subscriptions → s.unsubscribes c = some t
  nodup : ∀ t queryTracker, s.trackers t = some queryTracker → queryTracker.subscriptions.Nodup
  fresh : ∀ c, s.subscriptions c = none → s.unsubscribes c = none

theorem foldlM_onSubscription {f : Subscription → Option Subscription} {order : List Nat} :
    ∀ {s : State}, order.Nodup → (∀ c ∈ order, ((s.subscriptions c).bind f).isSome) →
      order.foldlM (fun s c => s.onSubscription f c) s = some { s with
        subscriptions := fun c =>
          if c ∈ order then (s.subscriptions c).bind f else s.subscriptions c } := by
  induction order with
  | nil =>
    intro s _ _
    simp
  | cons c order ih =>
    intro s hnd hsome
    obtain ⟨hc, hnd⟩ := List.nodup_cons.mp hnd
    obtain ⟨sub', hsub'⟩ := Option.isSome_iff_exists.mp (hsome c List.mem_cons_self)
    have hstep : s.onSubscription f c =
        some { s with subscriptions := Function.update s.subscriptions c (some sub') } := by
      obtain ⟨sub, hsub, hf⟩ := Option.bind_eq_some_iff.mp hsub'
      simp [State.onSubscription, hsub, hf]
    rw [List.foldlM_cons, hstep, Option.bind_eq_bind, Option.bind_some, ih hnd]
    · congr 2
      funext d
      by_cases hd : d = c
      · subst hd
        simp [hc, hsub']
      · simp [hd]
    · intro d hd
      have hne : d ≠ c := fun h => hc (h ▸ hd)
      change ((Function.update s.subscriptions c (some sub') d).bind f).isSome
      rw [Function.update_of_ne hne]
      exact hsome d (List.mem_cons_of_mem c hd)

/-- The state after a call for each of the subscriptions of a tracker. -/
def State.onAll (s : State) (f : Subscription → Option Subscription) (l : List Nat) : State :=
  { s with subscriptions := fun c =>
      if c ∈ l then (s.subscriptions c).bind f else s.subscriptions c }

theorem onAll_of_mem {f : Subscription → Option Subscription} {l : List Nat} {sub : Subscription}
    (hc : c ∈ l) (hsub : s.subscriptions c = some sub) : (s.onAll f l).subscriptions c = f sub := by
  change (if c ∈ l then (s.subscriptions c).bind f else s.subscriptions c) = f sub
  rw [if_pos hc, hsub]
  rfl

theorem onAll_of_not_mem {f : Subscription → Option Subscription} {l : List Nat} (hc : c ∉ l) :
    (s.onAll f l).subscriptions c = s.subscriptions c := if_neg hc

/-- A subscription that a tracker still has. -/
theorem Handed.isOpen (h : Handed s) (ht : s.trackers t = some queryTracker)
    (hc : c ∈ queryTracker.subscriptions) :
    ∃ sub, s.subscriptions c = some sub ∧ sub.isClosed = false ∧ sub.isClosed = sub.ch.closed := by
  obtain ⟨_, sub, ht', hsub, hagree, hiff⟩ := h.tracker c t (h.unsubscribes t queryTracker c ht hc)
  obtain rfl := Option.some.inj (ht.symm.trans ht')
  exact ⟨sub, hsub, hiff.mp hc, hagree⟩

theorem Handed.onAll (h : Handed s) (ht : s.trackers t = some queryTracker) {order : List Nat}
    (horder : order.Perm queryTracker.subscriptions) {f : Subscription → Option Subscription}
    (hf : ∀ sub : Subscription, sub.isClosed = sub.ch.closed → (f sub).isSome)
    (hs : s'.subscriptions = s.subscriptions) :
    order.foldlM (fun s c => s.onSubscription f c) s' =
      some (s'.onAll f queryTracker.subscriptions) := by
  rw [foldlM_onSubscription (horder.nodup_iff.mpr (h.nodup t queryTracker ht))]
  · unfold State.onAll
    simp only [horder.mem_iff]
  · intro c hc
    obtain ⟨sub, hsub, -, hagree⟩ := h.isOpen ht (horder.mem_iff.mp hc)
    rw [hs, hsub]
    exact hf sub hagree

/-! ### What the operations do -/

theorem send_isSome (qp : QueryProgress) (sub : Subscription) (h : sub.isClosed = sub.ch.closed) :
    (sub.send qp).isSome := by
  obtain ⟨sub', hsub', -⟩ := Subscription.send_cases h qp
  rw [hsub']
  rfl

theorem close_isSome (sub : Subscription) (h : sub.isClosed = sub.ch.closed) :
    sub.close.isSome := by
  obtain ⟨sub', hsub', -⟩ := Subscription.close_cases h
  rw [hsub']
  rfl

/-- The tracker after a report. -/
def QueryTracker.report (queryTracker : QueryTracker) (p : Progress) : QueryTracker :=
  { queryTracker with
    progress := some (updateQueryProgress (queryTracker.progress.getD ⟨0, 0, 0⟩) p) }

theorem handleProgressUpdate_eq (h : Handed s) (ht : s.trackers t = some queryTracker)
    {order : List Nat} (horder : s.IsOrder t order) (p : Progress) :
    s.handleProgressUpdate order t p = some (if queryTracker.isFinished then s else
      (s.setTracker t (queryTracker.report p)).onAll (Subscription.send (updateQueryProgress
        (queryTracker.progress.getD ⟨0, 0, 0⟩) p)) queryTracker.subscriptions) := by
  unfold State.handleProgressUpdate
  rw [ht]
  cases hfinished : queryTracker.isFinished with
  | true => simp [hfinished]
  | false =>
    have hs : (s.setTracker t (queryTracker.report p)).subscriptions = s.subscriptions := rfl
    have hall := h.onAll ht (horder queryTracker ht)
      (send_isSome (updateQueryProgress (queryTracker.progress.getD ⟨0, 0, 0⟩) p)) hs
    simpa [QueryTracker.report, hfinished] using hall

theorem onFinished_eq (h : Handed s) (ht : s.trackers t = some queryTracker)
    {order : List Nat} (horder : s.IsOrder t order) (hopen : queryTracker.isFinished = false) :
    s.onFinished order t = some ((s.onAll Subscription.close queryTracker.subscriptions).setTracker t
      { queryTracker with subscriptions := [], isFinished := true }) := by
  unfold State.onFinished
  rw [ht]
  simp only [Option.bind_eq_bind, Option.bind_some, hopen]
  rw [h.onAll ht (horder queryTracker ht) close_isSome rfl]
  rfl

/-- The subscription that `subscribe` returns. -/
theorem subscribe_eq (ht : s.trackers t = some queryTracker) (hopen : queryTracker.isFinished = false)
    (c : Nat) : ∃ sub, s.subscribe t c = some (.ok { s with
        trackers := Function.update s.trackers t (some
          { queryTracker with subscriptions := queryTracker.subscriptions ++ [c] })
        subscriptions := Function.update s.subscriptions c (some sub)
        unsubscribes := Function.update s.unsubscribes c (some t) }) ∧
      sub.isClosed = false ∧ sub.ch.closed = false ∧
      Go.Fills 1000 queryTracker.progress.toList sub.ch := by
  unfold State.subscribe
  rw [ht]
  simp only [Option.bind_eq_bind, Option.bind_some, hopen]
  cases hprogress : queryTracker.progress with
  | none => exact ⟨.new, rfl, rfl, rfl, .make⟩
  | some progress =>
    obtain ⟨sub, hsub, hopen, hclosed⟩ := @Subscription.send_cases .new rfl progress
    refine ⟨sub, ?_, hopen, hclosed, ?_⟩
    · simp [State.onSubscription, hsub, State.setTracker]
    · obtain ⟨ch, hch, rfl⟩ := Subscription.send_of_open rfl hsub
      exact Go.Fills.make.trySend hch

theorem subscribe_cases (h : s.subscribe t c = some (.ok s')) : ∃ queryTracker sub,
    s.trackers t = some queryTracker ∧ queryTracker.isFinished = false ∧
      s' = { s with
        trackers := Function.update s.trackers t (some
          { queryTracker with subscriptions := queryTracker.subscriptions ++ [c] })
        subscriptions := Function.update s.subscriptions c (some sub)
        unsubscribes := Function.update s.unsubscribes c (some t) } ∧
      sub.isClosed = false ∧ sub.ch.closed = false ∧
      Go.Fills 1000 queryTracker.progress.toList sub.ch := by
  cases ht : s.trackers t with
  | none =>
    simp [State.subscribe, ht] at h
  | some queryTracker =>
    cases hfinished : queryTracker.isFinished with
    | true => simp [State.subscribe, ht, hfinished] at h
    | false =>
      obtain ⟨sub, hsub, hrest⟩ := subscribe_eq ht hfinished c
      exact ⟨queryTracker, sub, rfl, hfinished,
        Except.ok.inj (Option.some.inj (h.symm.trans hsub)), hrest⟩

theorem unsubscribe_eq (h : Handed s) (ht : s.trackers t = some queryTracker) (c : Nat) :
    s.unsubscribe t c = some (if c ∈ queryTracker.subscriptions ∧ queryTracker.isFinished = false then
      { s with
        trackers := Function.update s.trackers t (some
          { queryTracker with subscriptions := queryTracker.subscriptions.erase c })
        subscriptions := Function.update s.subscriptions c
          ((s.subscriptions c).bind Subscription.close) }
      else s) := by
  unfold State.unsubscribe
  rw [ht]
  cases hfinished : queryTracker.isFinished with
  | true => simp [hfinished]
  | false =>
    by_cases hc : c ∈ queryTracker.subscriptions
    · obtain ⟨sub, hsub, -, hagree⟩ := h.isOpen ht hc
      obtain ⟨sub', hsub', -⟩ := Subscription.close_cases hagree
      simp [hfinished, hc, State.onSubscription, hsub, hsub', State.setTracker]
    · simp [hfinished, hc]

/-! ### The map and the cleanup functions -/

namespace Registered

theorem frame (h : Registered s) (htrackers : s'.trackers = s.trackers)
    (hqueries : s'.queries = s.queries) (hcleanups : s'.cleanups = s.cleanups)
    (hpending : ∀ x ∈ s'.pending, x ∈ s.pending ∨ (s.trackers x.1).isSome) : Registered s' := by
  refine ⟨?_, ?_, ?_, fun t request ht => ?_⟩
  · rw [hqueries, hcleanups]
    exact h.lookup
  · rw [htrackers, hcleanups]
    exact h.fits
  · rw [htrackers, hcleanups]
    exact h.known
  · rw [htrackers]
    rcases hpending _ ht with hold | hsome
    · exact h.pending t request hold
    · exact hsome

theorem subscriptions_of_finished (h : Registered s) (ht : s.trackers t = some queryTracker)
    (hfinished : queryTracker.isFinished = true) : queryTracker.subscriptions = [] := by
  obtain ⟨cleanup, hcleanup⟩ := Option.isSome_iff_exists.mp (h.known t (by rw [ht]; rfl))
  obtain ⟨_, ht', hfits⟩ := h.fits t cleanup hcleanup
  obtain rfl := Option.some.inj (ht.symm.trans ht')
  cases cleanup with
  | waiting queryId | finishing u =>
    rw [hfits.2] at hfinished
    cases hfinished
  | returned => exact hfits.2

/-- One tracker and its cleanup function change. -/
theorem update (h : Registered s) {cleanup : Cleanup} (hfits : cleanup.Fits t queryTracker)
    (htrackers : s'.trackers = Function.update s.trackers t (some queryTracker))
    (hcleanups : s'.cleanups = Function.update s.cleanups t (some cleanup))
    (hlookup : ∀ q u, s'.queries.lookup q = some u ↔ s'.cleanups u = some (.waiting q))
    (hpending : ∀ x ∈ s'.pending, x ∈ s.pending) : Registered s' := by
  refine ⟨hlookup, fun u x hx => ?_, fun u hu => ?_, fun u request hu => ?_⟩
  · rw [hcleanups, Function.update_apply] at hx
    rw [htrackers]
    split at hx
    · rename_i hut
      subst hut
      obtain rfl := Option.some.inj hx
      exact ⟨queryTracker, Function.update_self .., hfits⟩
    · rename_i hut
      rw [Function.update_of_ne hut]
      exact h.fits u x hx
  · rw [htrackers, Function.update_apply] at hu
    rw [hcleanups, Function.update_apply]
    split at hu
    · rename_i hut
      rw [if_pos hut]
      rfl
    · rename_i hut
      rw [if_neg hut]
      exact h.known u hu
  · rw [htrackers, Function.update_apply]
    split
    · rfl
    · exact h.pending u request (hpending _ hu)

/-- A query that runs gets another tracker state. -/
theorem setTracker (h : Registered s) (ht : s.trackers t = some queryTracker)
    (hopen : queryTracker.isFinished = false) {queryTracker' : QueryTracker}
    (hid : queryTracker'.queryId = queryTracker.queryId) (hopen' : queryTracker'.isFinished = false)
    (htrackers : s'.trackers = Function.update s.trackers t (some queryTracker'))
    (hqueries : s'.queries = s.queries) (hcleanups : s'.cleanups = s.cleanups)
    (hpending : ∀ x ∈ s'.pending, x ∈ s.pending) : Registered s' := by
  obtain ⟨cleanup, hcleanup⟩ := Option.isSome_iff_exists.mp (h.known t (by rw [ht]; rfl))
  obtain ⟨_, ht', hfits⟩ := h.fits t cleanup hcleanup
  obtain rfl := Option.some.inj (ht.symm.trans ht')
  have hfits' : cleanup.Fits t queryTracker' := by
    cases cleanup with
    | waiting queryId => exact ⟨hid.trans hfits.1, hopen'⟩
    | finishing u => exact ⟨hfits.1, hopen'⟩
    | returned =>
      rw [hfits.1] at hopen
      cases hopen
  refine h.update hfits' htrackers ?_ ?_ hpending
  · rw [hcleanups, ← hcleanup, Function.update_eq_self]
  · rw [hqueries, hcleanups]
    exact h.lookup

theorem start (h : Registered s) {queryId : String} (ht : s.trackers t = none)
    (hq : s.queries.lookup queryId = none) :
    Registered ({ s with queries := s.queries.set queryId t }.setTracker t
      ⟨queryId, false, none, []⟩ |>.setCleanup t (.waiting queryId)) := by
  have hnew : s.cleanups t = none := by
    cases hc : s.cleanups t with
    | none => rfl
    | some cleanup =>
      obtain ⟨v, hv, -⟩ := h.fits t cleanup hc
      rw [ht] at hv
      cases hv
  have hfits : (Cleanup.waiting queryId).Fits t ⟨queryId, false, none, []⟩ := ⟨rfl, rfl⟩
  refine h.update hfits rfl rfl (fun q u => ?_) fun x hx => hx
  change (s.queries.set queryId t).lookup q = some u ↔
    Function.update s.cleanups t (some (.waiting queryId)) u = some (.waiting q)
  rw [Go.Map.lookup_set, Function.update_apply]
  by_cases hut : u = t
  · subst hut
    by_cases hqq : q = queryId
    · simp [hqq]
    · rw [if_neg hqq, if_pos rfl, h.lookup, hnew]
      simp [Ne.symm hqq]
  · by_cases hqq : q = queryId
    · subst hqq
      rw [if_pos rfl, if_neg hut, ← h.lookup, hq]
      simp [Ne.symm hut]
    · rw [if_neg hqq, if_neg hut, h.lookup]

/-- The cleanup function finds the tracker of its own query. -/
theorem onQueryFinished_eq (h : Registered s) {queryId : String}
    (hcleanup : s.cleanups t = some (.waiting queryId)) : s.onQueryFinished t queryId =
      { s with queries := s.queries.erase queryId }.setCleanup t (.finishing t) := by
  unfold State.onQueryFinished
  rw [(h.lookup queryId t).mpr hcleanup]

theorem onQueryFinished (h : Registered s) {queryId : String}
    (hcleanup : s.cleanups t = some (.waiting queryId)) :
    Registered (s.onQueryFinished t queryId) := by
  rw [h.onQueryFinished_eq hcleanup]
  obtain ⟨v, hv, hfits⟩ := h.fits t _ hcleanup
  have hfits' : (Cleanup.finishing t).Fits t v := ⟨rfl, hfits.2⟩
  refine h.update hfits' ?_ rfl (fun q u => ?_) fun x hx => hx
  · rw [← hv, Function.update_eq_self]
    rfl
  · change (s.queries.erase queryId).lookup q = some u ↔
      Function.update s.cleanups t (some (.finishing t)) u = some (.waiting q)
    rw [Go.Map.lookup_erase, Function.update_apply]
    by_cases hut : u = t
    · subst hut
      rw [if_pos rfl]
      refine iff_of_false ?_ (by simp)
      split
      · simp
      · rename_i hqq
        rw [h.lookup, hcleanup]
        simpa using Ne.symm hqq
    · rw [if_neg hut]
      split
      · rename_i hqq
        subst hqq
        rw [← h.lookup, (h.lookup q t).mpr hcleanup]
        simp [Ne.symm hut]
      · exact h.lookup q u

/-- The tracker is finished, and its cleanup function returns. -/
theorem finish (h : Registered s) {u : Nat} (hcleanup : s.cleanups t = some (.finishing u))
    {queryTracker' : QueryTracker} (hfinished : queryTracker'.isFinished = true)
    (hempty : queryTracker'.subscriptions = [])
    (htrackers : s'.trackers = Function.update s.trackers t (some queryTracker'))
    (hqueries : s'.queries = s.queries)
    (hcleanups : s'.cleanups = Function.update s.cleanups t (some .returned))
    (hpending : ∀ x ∈ s'.pending, x ∈ s.pending) : Registered s' := by
  have hfits : Cleanup.returned.Fits t queryTracker' := ⟨hfinished, hempty⟩
  refine h.update hfits htrackers hcleanups (fun q v => ?_) hpending
  rw [hqueries, hcleanups, Function.update_apply, h.lookup]
  split
  · rename_i hvt
    subst hvt
    rw [hcleanup]
    simp
  · rfl

theorem step {a : Action} (h : Registered s) (hhanded : Handed s) (hstep : Step s a s') :
    Registered s' := by
  cases hstep with
  | reportQueryStarted hnew hstart =>
    unfold State.reportQueryStarted at hstart
    split at hstart
    · cases hstart
    · rename_i hq
      obtain rfl := Except.ok.inj hstart
      exact h.start hnew hq
  | getQueryTracker hget =>
    unfold State.getQueryTracker at hget
    split at hget
    · cases hget
    · rename_i t ht
      obtain rfl := Except.ok.inj hget
      refine h.frame rfl rfl rfl fun x hx => ?_
      rcases List.mem_cons.mp hx with rfl | hx
      · obtain ⟨v, hv, -⟩ := h.fits t _ ((h.lookup _ t).mp ht)
        exact .inr (by rw [hv]; rfl)
      · exact .inl hx
  | @handleProgressUpdate t p order s' hpending horder hupd =>
    obtain ⟨queryTracker, ht⟩ := Option.isSome_iff_exists.mp (h.pending t _ hpending)
    rw [handleProgressUpdate_eq hhanded ht horder p] at hupd
    obtain rfl := Option.some.inj hupd
    split
    · exact h.frame rfl rfl rfl fun x hx => .inl (List.mem_of_mem_erase hx)
    · rename_i hopen
      have hid : (queryTracker.report p).queryId = queryTracker.queryId := rfl
      exact h.setTracker ht (eq_false_of_ne_true hopen) hid (eq_false_of_ne_true hopen) rfl rfl rfl
        fun x hx => List.mem_of_mem_erase hx
  | @subscribe t c s' hpending hnew hsub =>
    obtain ⟨queryTracker, sub, ht, hopen, rfl, -⟩ := subscribe_cases hsub
    have hid : { queryTracker with
      subscriptions := queryTracker.subscriptions ++ [c] }.queryId = queryTracker.queryId := rfl
    exact h.setTracker ht hopen hid hopen rfl rfl rfl fun x hx => List.mem_of_mem_erase hx
  | subscribeFails hpending _ =>
    exact h.frame rfl rfl rfl fun x hx => .inl (List.mem_of_mem_erase hx)
  | @unsubscribe t c s' hfunction hunsub =>
    obtain ⟨queryTracker, sub, ht, -⟩ := hhanded.tracker c t hfunction
    rw [unsubscribe_eq hhanded ht] at hunsub
    obtain rfl := Option.some.inj hunsub
    split
    · rename_i hc
      have hid : { queryTracker with
        subscriptions := queryTracker.subscriptions.erase c }.queryId = queryTracker.queryId := rfl
      exact h.setTracker ht hc.2 hid hc.2 rfl rfl rfl fun x hx => hx
    · exact h
  | onQueryFinished hcleanup => exact h.onQueryFinished hcleanup
  | @onFinished t u order s' hcleanup horder hfinish =>
    obtain ⟨queryTracker, ht, rfl, hopen⟩ := h.fits t _ hcleanup
    rw [onFinished_eq hhanded ht horder hopen] at hfinish
    obtain rfl := Option.some.inj hfinish
    exact h.finish hcleanup rfl rfl rfl rfl rfl fun x hx => hx
  | receive hsub hch => exact h.frame rfl rfl rfl fun x hx => .inl hx

end Registered

/-! ### The subscriptions of the trackers -/

namespace Handed

theorem frame (h : Handed s) (htrackers : s'.trackers = s.trackers)
    (hsubs : s'.subscriptions = s.subscriptions) (hunsubs : s'.unsubscribes = s.unsubscribes) :
    Handed s' := by
  refine ⟨?_, ?_, ?_, ?_⟩
  · rw [htrackers, hsubs, hunsubs]
    exact h.tracker
  · rw [htrackers, hunsubs]
    exact h.unsubscribes
  · rw [htrackers]
    exact h.nodup
  · rw [hsubs, hunsubs]
    exact h.fresh

/-- One tracker changes, and loses subscriptions where it closes them. -/
theorem update (h : Handed s) (ht : s.trackers t = some queryTracker) {queryTracker' : QueryTracker}
    (hsublist : queryTracker'.subscriptions.Sublist queryTracker.subscriptions)
    (htrackers : s'.trackers = Function.update s.trackers t (some queryTracker'))
    (hunsubs : s'.unsubscribes = s.unsubscribes)
    (hother : ∀ c, c ∉ queryTracker.subscriptions → s'.subscriptions c = s.subscriptions c)
    (hsubs : ∀ c ∈ queryTracker.subscriptions, ∀ sub, s.subscriptions c = some sub →
      sub.isClosed = false → sub.isClosed = sub.ch.closed → ∃ sub', s'.subscriptions c = some sub' ∧
        sub'.isClosed = sub'.ch.closed ∧
        (c ∈ queryTracker'.subscriptions ↔ sub'.isClosed = false)) : Handed s' := by
  refine ⟨fun c u hc => ?_, fun u v c hu hc => ?_, fun u v hu => ?_, fun c hc => ?_⟩
  · rw [hunsubs] at hc
    obtain ⟨v, sub, hv, hsub, hagree, hiff⟩ := h.tracker c u hc
    rw [htrackers]
    by_cases hut : u = t
    · subst hut
      obtain rfl := Option.some.inj (ht.symm.trans hv)
      by_cases hmem : c ∈ queryTracker.subscriptions
      · obtain ⟨sub', hsub', hagree', hiff'⟩ := hsubs c hmem sub hsub (hiff.mp hmem) hagree
        exact ⟨queryTracker', sub', Function.update_self .., hsub', hagree', hiff'⟩
      · refine ⟨queryTracker', sub, Function.update_self .., by rw [hother c hmem, hsub], hagree, ?_⟩
        exact iff_of_false (fun hc => hmem (hsublist.subset hc)) (fun hopen => hmem (hiff.mpr hopen))
    · have hmem : c ∉ queryTracker.subscriptions := by
        intro hmem
        rw [h.unsubscribes t queryTracker c ht hmem, Option.some.injEq] at hc
        exact hut hc.symm
      exact ⟨v, sub, by rw [Function.update_of_ne hut, hv], by rw [hother c hmem, hsub], hagree, hiff⟩
  · rw [htrackers, Function.update_apply] at hu
    rw [hunsubs]
    split at hu
    · rename_i hut
      subst hut
      obtain rfl := Option.some.inj hu
      exact h.unsubscribes u queryTracker c ht (hsublist.subset hc)
    · exact h.unsubscribes u v c hu hc
  · rw [htrackers, Function.update_apply] at hu
    split at hu
    · obtain rfl := Option.some.inj hu
      exact (h.nodup t queryTracker ht).sublist hsublist
    · exact h.nodup u v hu
  · rw [hunsubs]
    by_cases hmem : c ∈ queryTracker.subscriptions
    · obtain ⟨sub, hsub, hopen, hagree⟩ := h.isOpen ht hmem
      obtain ⟨sub', hsub', -⟩ := hsubs c hmem sub hsub hopen hagree
      rw [hsub'] at hc
      cases hc
    · rw [hother c hmem] at hc
      exact h.fresh c hc

theorem start (h : Handed s) {queryId : String} (ht : s.trackers t = none)
    (htrackers : s'.trackers = Function.update s.trackers t (some ⟨queryId, false, none, []⟩))
    (hsubs : s'.subscriptions = s.subscriptions) (hunsubs : s'.unsubscribes = s.unsubscribes) :
    Handed s' := by
  refine ⟨fun c u hc => ?_, fun u v c hu hc => ?_, fun u v hu => ?_, ?_⟩
  · rw [hunsubs] at hc
    obtain ⟨v, sub, hv, hrest⟩ := h.tracker c u hc
    refine ⟨v, sub, ?_, by rw [hsubs]; exact hrest⟩
    rw [htrackers, Function.update_of_ne, hv]
    rintro rfl
    rw [ht] at hv
    cases hv
  · rw [htrackers, Function.update_apply] at hu
    rw [hunsubs]
    split at hu
    · obtain rfl := Option.some.inj hu
      cases hc
    · exact h.unsubscribes u v c hu hc
  · rw [htrackers, Function.update_apply] at hu
    split at hu
    · obtain rfl := Option.some.inj hu
      exact List.nodup_nil
    · exact h.nodup u v hu
  · rw [hsubs, hunsubs]
    exact h.fresh

theorem subscribe (h : Handed s) (ht : s.trackers t = some queryTracker)
    (hnew : s.subscriptions c = none) {sub : Subscription} (hopen : sub.isClosed = false)
    (hch : sub.ch.closed = false)
    (htrackers : s'.trackers = Function.update s.trackers t (some
      { queryTracker with subscriptions := queryTracker.subscriptions ++ [c] }))
    (hsubs : s'.subscriptions = Function.update s.subscriptions c (some sub))
    (hunsubs : s'.unsubscribes = Function.update s.unsubscribes c (some t)) : Handed s' := by
  have hfresh : s.unsubscribes c = none := h.fresh c hnew
  have hnot {u : Nat} {v : QueryTracker} (hu : s.trackers u = some v) : c ∉ v.subscriptions := by
    intro hc
    rw [h.unsubscribes u v c hu hc] at hfresh
    cases hfresh
  refine ⟨fun d u hd => ?_, fun u v d hu hd => ?_, fun u v hu => ?_, fun d hd => ?_⟩
  · rw [hunsubs, Function.update_apply] at hd
    rw [htrackers, hsubs]
    split at hd
    · rename_i hdc
      subst hdc
      obtain rfl := Option.some.inj hd
      exact ⟨_, sub, Function.update_self .., Function.update_self .., by rw [hopen, hch],
        iff_of_true (List.mem_append_right _ (List.mem_singleton_self d)) hopen⟩
    · rename_i hdc
      obtain ⟨v, sub', hv, hsub', hagree, hiff⟩ := h.tracker d u hd
      rw [Function.update_of_ne hdc, Function.update_apply]
      split
      · rename_i hut
        subst hut
        obtain rfl := Option.some.inj (ht.symm.trans hv)
        refine ⟨_, sub', rfl, hsub', hagree, ?_⟩
        rw [List.mem_append, List.mem_singleton, or_iff_left hdc, hiff]
      · exact ⟨v, sub', hv, hsub', hagree, hiff⟩
  · rw [htrackers, Function.update_apply] at hu
    rw [hunsubs, Function.update_apply]
    split at hu
    · rename_i hut
      subst hut
      obtain rfl := Option.some.inj hu
      by_cases hdc : d = c
      · rw [if_pos hdc]
      · rw [if_neg hdc]
        rcases List.mem_append.mp hd with hd | hd
        · exact h.unsubscribes u queryTracker d ht hd
        · exact absurd (List.mem_singleton.mp hd) hdc
    · rw [if_neg]
      · exact h.unsubscribes u v d hu hd
      · rintro rfl
        exact hnot hu hd
  · rw [htrackers, Function.update_apply] at hu
    split at hu
    · obtain rfl := Option.some.inj hu
      refine List.nodup_append.mpr ⟨h.nodup t queryTracker ht, List.nodup_singleton c, ?_⟩
      rintro a ha b hb rfl
      exact hnot ht (List.mem_singleton.mp hb ▸ ha)
    · exact h.nodup u v hu
  · rw [hsubs, Function.update_apply] at hd
    rw [hunsubs, Function.update_apply]
    split at hd
    · cases hd
    · rename_i hdc
      rw [if_neg hdc]
      exact h.fresh d hd

theorem receive (h : Handed s) {sub : Subscription} {ch : Go.Chan QueryProgress}
    (hsub : s.subscriptions c = some sub) (hch : sub.ch.receive = some ch)
    (htrackers : s'.trackers = s.trackers)
    (hsubs : s'.subscriptions = Function.update s.subscriptions c (some { sub with ch }))
    (hunsubs : s'.unsubscribes = s.unsubscribes) : Handed s' := by
  have hclosed : ch.closed = sub.ch.closed := by
    unfold Go.Chan.receive at hch
    split at hch
    · rw [← Option.some.inj hch]
    · cases hch
  refine ⟨fun d u hd => ?_, ?_, ?_, fun d hd => ?_⟩
  · rw [hunsubs] at hd
    obtain ⟨v, sub', hv, hsub', hagree, hiff⟩ := h.tracker d u hd
    rw [htrackers, hsubs, Function.update_apply]
    split
    · rename_i hdc
      subst hdc
      obtain rfl := Option.some.inj (hsub.symm.trans hsub')
      exact ⟨v, _, hv, rfl, hagree.trans hclosed.symm, hiff⟩
    · exact ⟨v, sub', hv, hsub', hagree, hiff⟩
  · rw [htrackers, hunsubs]
    exact h.unsubscribes
  · rw [htrackers]
    exact h.nodup
  · rw [hsubs, Function.update_apply] at hd
    rw [hunsubs]
    split at hd
    · cases hd
    · exact h.fresh d hd

theorem step {a : Action} (h : Handed s) (hreg : Registered s) (hstep : Step s a s') :
    Handed s' := by
  cases hstep with
  | reportQueryStarted hnew hstart =>
    unfold State.reportQueryStarted at hstart
    split at hstart
    · cases hstart
    · obtain rfl := Except.ok.inj hstart
      exact h.start hnew rfl rfl rfl
  | getQueryTracker hget =>
    unfold State.getQueryTracker at hget
    split at hget
    · cases hget
    · obtain rfl := Except.ok.inj hget
      exact h.frame rfl rfl rfl
  | @handleProgressUpdate t p order s' hpending horder hupd =>
    obtain ⟨queryTracker, ht⟩ := Option.isSome_iff_exists.mp (hreg.pending t _ hpending)
    rw [handleProgressUpdate_eq h ht horder p] at hupd
    obtain rfl := Option.some.inj hupd
    split
    · exact h.frame rfl rfl rfl
    · have hsublist : (queryTracker.report p).subscriptions.Sublist queryTracker.subscriptions :=
        List.Sublist.refl _
      refine h.update ht hsublist rfl rfl (fun c hc => if_neg hc) fun c hc sub hsub hopen hagree => ?_
      obtain ⟨sub', hsub', hopen', hch'⟩ := Subscription.send_cases hagree
        (updateQueryProgress (queryTracker.progress.getD ⟨0, 0, 0⟩) p)
      refine ⟨sub', ?_, by rw [hopen', hch', hagree], iff_of_true hc (hopen'.trans hopen)⟩
      exact (onAll_of_mem hc hsub).trans hsub'
  | @subscribe t c s' hpending hnew hsub =>
    obtain ⟨queryTracker, sub, ht, -, rfl, hopen, hch, -⟩ := subscribe_cases hsub
    exact h.subscribe ht hnew hopen hch rfl rfl rfl
  | subscribeFails _ _ => exact h.frame rfl rfl rfl
  | @unsubscribe t c s' hfunction hunsub =>
    obtain ⟨queryTracker, sub, ht, -⟩ := h.tracker c t hfunction
    rw [unsubscribe_eq h ht] at hunsub
    obtain rfl := Option.some.inj hunsub
    split
    · rename_i hc
      have hnd := h.nodup t queryTracker ht
      refine h.update ht List.erase_sublist rfl rfl (fun d hd => ?_) fun d hd sub hsub hopen hagree => ?_
      · refine Function.update_of_ne ?_ _ _
        rintro rfl
        exact hd hc.1
      · change ∃ sub', Function.update s.subscriptions c _ d = some sub' ∧ _
        rw [Function.update_apply, hnd.mem_erase_iff]
        split
        · rename_i hdc
          subst hdc
          obtain ⟨sub', hsub', hclosed, hch⟩ := Subscription.close_cases hagree
          refine ⟨sub', by rw [hsub]; exact hsub', hclosed.trans hch.symm, ?_⟩
          exact iff_of_false (fun h => h.1 rfl) (by simp [hclosed])
        · rename_i hdc
          exact ⟨sub, hsub, hagree, iff_of_true ⟨hdc, hd⟩ hopen⟩
    · exact h
  | onQueryFinished hcleanup =>
    rw [hreg.onQueryFinished_eq hcleanup]
    exact h.frame rfl rfl rfl
  | @onFinished t u order s' hcleanup horder hfinish =>
    obtain ⟨queryTracker, ht, rfl, hopen⟩ := hreg.fits t _ hcleanup
    rw [onFinished_eq h ht horder hopen] at hfinish
    obtain rfl := Option.some.inj hfinish
    refine h.update ht (List.nil_sublist _) rfl rfl (fun d hd => if_neg hd)
      fun d hd sub hsub _ hagree => ?_
    obtain ⟨sub', hsub', hclosed, hch⟩ := Subscription.close_cases hagree
    refine ⟨sub', (onAll_of_mem hd hsub).trans hsub', hclosed.trans hch.symm, ?_⟩
    exact iff_of_false List.not_mem_nil (by simp [hclosed])
  | receive hsub hch => exact h.receive hsub hch rfl rfl rfl

end Handed

end QueryService.QueryProgress
