import BoringPanel.QueryService.QueryProgress.Subscribers

/-!
# What subscribers see

`History` says that totals and channels are those of the steps so far. With it `Tracked` holds after
every run: a channel holds the running totals of its query, nothing panics, a cleanup function leaves no
channel open, and a query starts again only after its cleanup function was called.
-/

namespace QueryService.QueryProgress

variable {s s' : State} {as : List Action} {a : Action} {t c : Nat} {queryTracker : QueryTracker}

/-! ### The steps so far -/

structure History (as : List Action) (s : State) : Prop where
  progress : ∀ t queryTracker, s.trackers t = some queryTracker → queryTracker.isFinished = false →
    queryTracker.progress = (totals t as).getLast?
  fresh : ∀ t, s.trackers t = none → totals t as = []
  delivered : ∀ before after t c, as = before ++ .subscribe t c :: after →
    s.unsubscribes c = some t ∧ ∃ sub, s.subscriptions c = some sub ∧ Delivered t c before after sub

theorem totals_subscribe (before after : List Action) {u : Nat} :
    totals t (before ++ .subscribe u c :: after) = totals t (before ++ after) := by
  unfold totals reports
  rw [List.filterMap_append, List.filterMap_append]
  rfl

theorem append_singleton_split {before after : List Action} {x : Action}
    (h : as ++ [a] = before ++ x :: after) :
    (after = [] ∧ as = before ∧ a = x) ∨
      ∃ after', after = after' ++ [a] ∧ as = before ++ x :: after' := by
  rcases List.eq_nil_or_concat after with rfl | ⟨after', b, rfl⟩
  · obtain ⟨has, ha⟩ := List.append_inj' h rfl
    exact .inl ⟨rfl, has, (List.cons.inj ha).1⟩
  · rw [List.concat_eq_append, ← List.cons_append, ← List.append_assoc] at h
    obtain ⟨has, ha⟩ := List.append_inj' h rfl
    obtain rfl := (List.cons.inj ha).1
    exact .inr ⟨after', by rw [List.concat_eq_append], has⟩

namespace History

/-- What a step does to the channels, one by one. -/
theorem delivered_snoc (h : History as s) (hhanded : Handed s)
    (hunsubs : ∀ c t, s.unsubscribes c = some t → s'.unsubscribes c = some t)
    (hev : ∀ c t sub, s.unsubscribes c = some t → s.subscriptions c = some sub →
      ∃ sub', s'.subscriptions c = some sub' ∧ Evolves (totals t as).getLast? t c a sub sub')
    (hnew : ∀ t c, a = .subscribe t c → s'.unsubscribes c = some t ∧
      ∃ sub, s'.subscriptions c = some sub ∧ Delivered t c as [] sub) :
    ∀ before after t c, as ++ [a] = before ++ .subscribe t c :: after →
      s'.unsubscribes c = some t ∧
        ∃ sub, s'.subscriptions c = some sub ∧ Delivered t c before after sub := by
  intro before after t c has
  rcases append_singleton_split has with ⟨rfl, rfl, rfl⟩ | ⟨after', rfl, has'⟩
  · exact hnew t c rfl
  · obtain ⟨hc, sub, hsub, hdel⟩ := h.delivered before after' t c has'
    obtain ⟨v, sub', -, hsub', hagree, -⟩ := hhanded.tracker c t hc
    obtain rfl := Option.some.inj (hsub.symm.trans hsub')
    obtain ⟨sub', hsub', hevolves⟩ := hev c t sub hc hsub
    rw [has', totals_subscribe] at hevolves
    exact ⟨hunsubs c t hc, sub', hsub', hdel.snoc hagree hevolves⟩

/-- A step that is no report. -/
theorem progress_snoc (h : History as s) (ha : ∀ t p, a ≠ .handleProgressUpdate t p)
    (htrackers : ∀ u v', s'.trackers u = some v' → v'.isFinished = false →
      (∃ v, s.trackers u = some v ∧ v.isFinished = false ∧ v'.progress = v.progress) ∨
        (s.trackers u = none ∧ v'.progress = none)) :
    ∀ u v', s'.trackers u = some v' → v'.isFinished = false →
      v'.progress = (totals u (as ++ [a])).getLast? := by
  intro u v' hu hopen
  rw [totals_append_of_ne (ha u)]
  rcases htrackers u v' hu hopen with ⟨v, hv, hopen', hprogress⟩ | ⟨hnone, hprogress⟩
  · rw [hprogress]
    exact h.progress u v hv hopen'
  · rw [hprogress, h.fresh u hnone]
    rfl

/-- A step that touches no subscription. -/
theorem quiet (h : History as s) (hhanded : Handed s) (ha : ∀ t p, a ≠ .handleProgressUpdate t p)
    (hcloses : ∀ t c, ¬ Closes t c a) (hsubscribe : ∀ t c, a ≠ .subscribe t c)
    (htrackers : ∀ u v', s'.trackers u = some v' → v'.isFinished = false →
      (∃ v, s.trackers u = some v ∧ v.isFinished = false ∧ v'.progress = v.progress) ∨
        (s.trackers u = none ∧ v'.progress = none))
    (hnone : ∀ u, s'.trackers u = none → s.trackers u = none)
    (hsubs : s'.subscriptions = s.subscriptions) (hunsubs : s'.unsubscribes = s.unsubscribes) :
    History (as ++ [a]) s' where
  progress := h.progress_snoc ha htrackers
  fresh u hu := by
    rw [totals_append_of_ne (ha u)]
    exact h.fresh u (hnone u hu)
  delivered := by
    refine h.delivered_snoc hhanded (fun c t hc => by rw [hunsubs, hc])
      (fun c t sub hc hsub => ?_) fun t c hac => absurd hac (hsubscribe t c)
    exact ⟨sub, by rw [hsubs, hsub], .same (ha t) (hcloses t c)⟩

/-- A report for a query that is finished. -/
theorem reportIgnored (h : History as s) (hreg : Registered s) (hhanded : Handed s) {p : Progress}
    (ht : s.trackers t = some queryTracker) (hfinished : queryTracker.isFinished = true)
    (htrackers : s'.trackers = s.trackers) (hsubs : s'.subscriptions = s.subscriptions)
    (hunsubs : s'.unsubscribes = s.unsubscribes) :
    History (as ++ [.handleProgressUpdate t p]) s' where
  progress u v hu hopen := by
    rw [htrackers] at hu
    have hut : t ≠ u := by
      rintro rfl
      rw [Option.some.inj (ht.symm.trans hu), hopen] at hfinished
      cases hfinished
    rw [totals_append_of_ne (by simp [hut])]
    exact h.progress u v hu hopen
  fresh u hu := by
    rw [htrackers] at hu
    have hut : t ≠ u := by
      rintro rfl
      rw [ht] at hu
      cases hu
    rw [totals_append_of_ne (by simp [hut])]
    exact h.fresh u hu
  delivered := by
    refine h.delivered_snoc hhanded (fun c u hc => by rw [hunsubs, hc]) (fun c u sub hc hsub => ?_)
      fun u c hac => nomatch hac
    refine ⟨sub, by rw [hsubs, hsub], ?_⟩
    by_cases hut : t = u
    · subst hut
      obtain ⟨v, sub', hv, hsub', -, hiff⟩ := hhanded.tracker c t hc
      obtain rfl := Option.some.inj (ht.symm.trans hv)
      obtain rfl := Option.some.inj (hsub.symm.trans hsub')
      refine .closed ?_
      rw [hreg.subscriptions_of_finished ht hfinished] at hiff
      simpa using hiff
    · exact .same (by simp [hut]) (by simp [Closes])

/-- A report that is sent to all subscribers. -/
theorem reportSent (h : History as s) (hhanded : Handed s) {p : Progress}
    (ht : s.trackers t = some queryTracker) (hopen : queryTracker.isFinished = false)
    (htrackers : s'.trackers = Function.update s.trackers t (some (queryTracker.report p)))
    (hsubs : s'.subscriptions = (s.onAll (Subscription.send (updateQueryProgress
      (queryTracker.progress.getD ⟨0, 0, 0⟩) p)) queryTracker.subscriptions).subscriptions)
    (hunsubs : s'.unsubscribes = s.unsubscribes) :
    History (as ++ [.handleProgressUpdate t p]) s' where
  progress u v hu _ := by
    rw [htrackers, Function.update_apply] at hu
    split at hu
    · rename_i hut
      subst hut
      obtain rfl := Option.some.inj hu
      rw [totals_append_report, List.getLast?_concat, ← h.progress u queryTracker ht hopen]
      rfl
    · rename_i hut
      rw [totals_append_of_ne (by simp [Ne.symm hut])]
      exact h.progress u v hu ‹_›
  fresh u hu := by
    rw [htrackers, Function.update_apply] at hu
    split at hu
    · cases hu
    · rename_i hut
      rw [totals_append_of_ne (by simp [Ne.symm hut])]
      exact h.fresh u hu
  delivered := by
    refine h.delivered_snoc hhanded (fun c u hc => by rw [hunsubs, hc]) (fun c u sub hc hsub => ?_)
      fun u c hac => nomatch hac
    obtain ⟨v, sub₁, hv, hsub₁, hagree, hiff⟩ := hhanded.tracker c u hc
    obtain rfl := Option.some.inj (hsub.symm.trans hsub₁)
    rw [hsubs]
    by_cases hut : t = u
    · subst hut
      obtain rfl := Option.some.inj (ht.symm.trans hv)
      by_cases hmem : c ∈ queryTracker.subscriptions
      · -- an open channel gets the new total
        obtain ⟨sub', hsub', -⟩ := Subscription.send_cases hagree
          (updateQueryProgress (queryTracker.progress.getD ⟨0, 0, 0⟩) p)
        rw [h.progress t queryTracker ht hopen] at hsub' ⊢
        exact ⟨sub', (onAll_of_mem hmem hsub).trans hsub', .send (hiff.mp hmem) rfl hsub'⟩
      · exact ⟨sub, (onAll_of_not_mem hmem).trans hsub,
          .closed (eq_true_of_ne_false fun hop => hmem (hiff.mpr hop))⟩
    · have hmem : c ∉ queryTracker.subscriptions := by
        intro hmem
        rw [hhanded.unsubscribes t queryTracker c ht hmem, Option.some.injEq] at hc
        exact hut hc
      exact ⟨sub, (onAll_of_not_mem hmem).trans hsub, .same (by simp [hut]) (by simp [Closes])⟩

theorem subscribed (h : History as s) (hhanded : Handed s)
    (ht : s.trackers t = some queryTracker) (hopen : queryTracker.isFinished = false)
    (hnew : s.subscriptions c = none) {sub : Subscription} (hsub : sub.isClosed = false)
    (hfills : Go.Fills 1000 queryTracker.progress.toList sub.ch)
    (htrackers : s'.trackers = Function.update s.trackers t (some
      { queryTracker with subscriptions := queryTracker.subscriptions ++ [c] }))
    (hsubs : s'.subscriptions = Function.update s.subscriptions c (some sub))
    (hunsubs : s'.unsubscribes = Function.update s.unsubscribes c (some t)) :
    History (as ++ [.subscribe t c]) s' where
  progress := by
    refine h.progress_snoc (by simp) fun u v' hu hopen' => ?_
    rw [htrackers, Function.update_apply] at hu
    split at hu
    · rename_i hut
      subst hut
      obtain rfl := Option.some.inj hu
      exact .inl ⟨queryTracker, ht, hopen, rfl⟩
    · exact .inl ⟨v', hu, hopen', rfl⟩
  fresh u hu := by
    rw [htrackers, Function.update_apply] at hu
    split at hu
    · cases hu
    · rw [totals_append_of_ne (by simp)]
      exact h.fresh u hu
  delivered := by
    have hfresh : s.unsubscribes c = none := hhanded.fresh c hnew
    refine h.delivered_snoc hhanded (fun d u hd => ?_) (fun d u sub' hd hsub' => ?_)
      fun u d hud => ?_
    · rw [hunsubs, Function.update_of_ne, hd]
      rintro rfl
      rw [hfresh] at hd
      cases hd
    · refine ⟨sub', ?_, .same (by simp) (by simp [Closes])⟩
      rw [hsubs, Function.update_of_ne, hsub']
      rintro rfl
      rw [hfresh] at hd
      cases hd
    · obtain ⟨rfl, rfl⟩ := Action.subscribe.inj hud
      refine ⟨by rw [hunsubs, Function.update_self], sub, by rw [hsubs, Function.update_self], ?_, ?_⟩
      · rw [totalsAfter_nil, ← h.progress t queryTracker ht hopen]
        exact hfills
      · exact iff_of_true hsub (by simp)

/-- A step that closes channels of a tracker. -/
theorem closing (h : History as s) (hhanded : Handed s) (ha : ∀ t p, a ≠ .handleProgressUpdate t p)
    (hsubscribe : ∀ t c, a ≠ .subscribe t c)
    (ht : s.trackers t = some queryTracker) {queryTracker' : QueryTracker}
    (htrackers : s'.trackers = Function.update s.trackers t (some queryTracker'))
    (hprogress : queryTracker'.isFinished = false → queryTracker.isFinished = false ∧
      queryTracker'.progress = queryTracker.progress)
    (hunsubs : s'.unsubscribes = s.unsubscribes)
    (hother : ∀ d u, s.unsubscribes d = some u → ¬ Closes u d a →
      s'.subscriptions d = s.subscriptions d)
    (hclosed : ∀ d u sub, s.unsubscribes d = some u → Closes u d a →
      s.subscriptions d = some sub → ∃ sub', s'.subscriptions d = some sub' ∧
        (sub.isClosed = true ∧ sub' = sub ∨ sub.isClosed = false ∧ sub.close = some sub')) :
    History (as ++ [a]) s' where
  progress := by
    refine h.progress_snoc ha fun u v' hu hopen' => ?_
    rw [htrackers, Function.update_apply] at hu
    split at hu
    · rename_i hut
      subst hut
      obtain rfl := Option.some.inj hu
      exact .inl ⟨queryTracker, ht, hprogress hopen'⟩
    · exact .inl ⟨v', hu, hopen', rfl⟩
  fresh u hu := by
    rw [htrackers, Function.update_apply] at hu
    split at hu
    · cases hu
    · rw [totals_append_of_ne (ha u)]
      exact h.fresh u hu
  delivered := by
    refine h.delivered_snoc hhanded (fun d u hd => by rw [hunsubs, hd]) (fun d u sub hd hsub => ?_)
      fun u d hud => absurd hud (hsubscribe u d)
    by_cases hcloses : Closes u d a
    · obtain ⟨sub', hsub', ⟨hc, rfl⟩ | ⟨hopen, hclose⟩⟩ := hclosed d u sub hd hcloses hsub
      · exact ⟨sub', hsub', .closed hc⟩
      · exact ⟨sub', hsub', .close hopen hcloses hclose⟩
    · exact ⟨sub, (hother d u hd hcloses).trans hsub, .same (ha u) hcloses⟩

theorem received (h : History as s) (hhanded : Handed s) {sub : Subscription}
    {ch : Go.Chan QueryProgress} (hsub : s.subscriptions c = some sub)
    (hch : sub.ch.receive = some ch) (htrackers : s'.trackers = s.trackers)
    (hsubs : s'.subscriptions = Function.update s.subscriptions c (some { sub with ch }))
    (hunsubs : s'.unsubscribes = s.unsubscribes) : History (as ++ [.receive c]) s' where
  progress := by
    refine h.progress_snoc (by simp) fun u v' hu hopen => ?_
    rw [htrackers] at hu
    exact .inl ⟨v', hu, hopen, rfl⟩
  fresh u hu := by
    rw [htrackers] at hu
    rw [totals_append_of_ne (by simp)]
    exact h.fresh u hu
  delivered := by
    refine h.delivered_snoc hhanded (fun d u hd => by rw [hunsubs, hd]) (fun d u sub' hd hsub' => ?_)
      fun u d hud => nomatch hud
    rw [hsubs, Function.update_apply]
    split
    · rename_i hdc
      subst hdc
      obtain rfl := Option.some.inj (hsub.symm.trans hsub')
      exact ⟨_, rfl, .receive (by simp) (by simp [Closes]) hch⟩
    · exact ⟨sub', hsub', .same (by simp) (by simp [Closes])⟩

theorem step (h : History as s) (hreg : Registered s) (hhanded : Handed s) (hstep : Step s a s') :
    History (as ++ [a]) s' := by
  cases hstep with
  | @reportQueryStarted queryId t s' hnew hstart =>
    unfold State.reportQueryStarted at hstart
    split at hstart
    · cases hstart
    · obtain rfl := Except.ok.inj hstart
      have htrackers (u : Nat) : Function.update s.trackers t (some ⟨queryId, false, none, []⟩) u =
          if u = t then some ⟨queryId, false, none, []⟩ else s.trackers u := Function.update_apply ..
      refine h.quiet hhanded (by simp) (by simp [Closes]) (by simp) (fun u v' hu hopen => ?_)
        (fun u hu => ?_) rfl rfl
      · rw [show (_ : State).trackers u = _ from htrackers u] at hu
        split at hu
        · rename_i hut
          subst hut
          exact .inr ⟨hnew, by rw [← Option.some.inj hu]⟩
        · exact .inl ⟨v', hu, hopen, rfl⟩
      · rw [show (_ : State).trackers u = _ from htrackers u] at hu
        split at hu
        · cases hu
        · exact hu
  | getQueryTracker hget =>
    unfold State.getQueryTracker at hget
    split at hget
    · cases hget
    · obtain rfl := Except.ok.inj hget
      exact h.quiet hhanded (by simp) (by simp [Closes]) (by simp)
        (fun u v' hu hopen => .inl ⟨v', hu, hopen, rfl⟩) (fun u hu => hu) rfl rfl
  | @handleProgressUpdate t p order s' hpending horder hupd =>
    obtain ⟨queryTracker, ht⟩ := Option.isSome_iff_exists.mp (hreg.pending t _ hpending)
    rw [handleProgressUpdate_eq hhanded ht horder p] at hupd
    obtain rfl := Option.some.inj hupd
    split
    · rename_i hfinished
      exact h.reportIgnored hreg hhanded ht hfinished rfl rfl rfl
    · rename_i hopen
      exact h.reportSent hhanded ht (eq_false_of_ne_true hopen) rfl rfl rfl
  | @subscribe t c s' hpending hnew hsub =>
    obtain ⟨queryTracker, sub, ht, hopen, rfl, hsub, -, hfills⟩ := subscribe_cases hsub
    exact h.subscribed hhanded ht hopen hnew hsub hfills rfl rfl rfl
  | subscribeFails _ _ =>
    exact h.quiet hhanded (by simp) (by simp [Closes]) (by simp)
      (fun u v' hu hopen => .inl ⟨v', hu, hopen, rfl⟩) (fun u hu => hu) rfl rfl
  | @unsubscribe t c s' hfunction hunsub =>
    obtain ⟨queryTracker, sub, ht, hsub, hagree, hiff⟩ := hhanded.tracker c t hfunction
    rw [unsubscribe_eq hhanded ht] at hunsub
    obtain rfl := Option.some.inj hunsub
    split
    · rename_i hc
      refine h.closing hhanded (by simp) (by simp) ht rfl (fun _ => ⟨hc.2, rfl⟩) rfl
        (fun d u hd hcloses => ?_) fun d u sub' hd hcloses hsub' => ?_
      · refine Function.update_of_ne ?_ _ _
        rintro rfl
        obtain rfl := Option.some.inj (hfunction.symm.trans hd)
        exact hcloses (.inl rfl)
      · obtain ⟨rfl, rfl⟩ : t = u ∧ c = d := by simpa [Closes] using hcloses
        obtain rfl := Option.some.inj (hsub.symm.trans hsub')
        obtain ⟨sub', hclose, -⟩ := Subscription.close_cases hagree
        refine ⟨sub', ?_, .inr ⟨hiff.mp hc.1, hclose⟩⟩
        exact (Function.update_self ..).trans (by rw [hsub]; exact hclose)
    · rename_i hc
      refine h.closing hhanded (by simp) (by simp) ht
        (by rw [← ht, Function.update_eq_self]) (fun hopen => ⟨hopen, rfl⟩) rfl (fun d u hd hcloses => rfl)
        fun d u sub' hd hcloses hsub' => ⟨sub', hsub', .inl ⟨?_, rfl⟩⟩
      obtain ⟨rfl, rfl⟩ : t = u ∧ c = d := by simpa [Closes] using hcloses
      obtain rfl := Option.some.inj (hsub.symm.trans hsub')
      refine eq_true_of_ne_false fun hopen => hc ⟨hiff.mpr hopen, ?_⟩
      refine eq_false_of_ne_true fun hfinished => ?_
      have hmem := hiff.mpr hopen
      rw [hreg.subscriptions_of_finished ht hfinished] at hmem
      cases hmem
  | @onQueryFinished t queryId hcleanup =>
    rw [hreg.onQueryFinished_eq hcleanup]
    exact h.quiet hhanded (by simp) (by simp [Closes]) (by simp)
      (fun u v' hu hopen => .inl ⟨v', hu, hopen, rfl⟩) (fun u hu => hu) rfl rfl
  | @onFinished t u order s' hcleanup horder hfinish =>
    obtain ⟨queryTracker, ht, rfl, hopen⟩ := hreg.fits t _ hcleanup
    rw [onFinished_eq hhanded ht horder hopen] at hfinish
    obtain rfl := Option.some.inj hfinish
    refine h.closing hhanded (by simp) (by simp) ht rfl (fun hop => Bool.noConfusion hop) rfl
      (fun d u hd hcloses => ?_) fun d u sub hd hcloses hsub => ?_
    · refine onAll_of_not_mem fun hmem => hcloses (.inr ?_)
      rw [Option.some.inj ((hhanded.unsubscribes _ queryTracker d ht hmem).symm.trans hd)]
    · obtain rfl : _ = u := by simpa [Closes] using hcloses
      obtain ⟨v, sub', hv, hsub', hagree, hiff⟩ := hhanded.tracker d _ hd
      obtain rfl := Option.some.inj (ht.symm.trans hv)
      obtain rfl := Option.some.inj (hsub.symm.trans hsub')
      by_cases hmem : d ∈ queryTracker.subscriptions
      · obtain ⟨sub', hclose, -⟩ := Subscription.close_cases hagree
        exact ⟨sub', (onAll_of_mem hmem hsub).trans hclose, .inr ⟨hiff.mp hmem, hclose⟩⟩
      · exact ⟨sub, (onAll_of_not_mem hmem).trans hsub,
          .inl ⟨eq_true_of_ne_false fun hop => hmem (hiff.mpr hop), rfl⟩⟩
  | receive hsub hch => exact h.received hhanded hsub hch rfl rfl rfl

end History

/-! ### Sums that do not wrap around -/

instance : LE QueryProgress where
  le a b := a.readRows ≤ b.readRows ∧ a.readBytes ≤ b.readBytes ∧ a.elapsedMs ≤ b.elapsedMs

/-- What the fields of a total would be without the limit of `uint64`. -/
def Progress.elapsedMs (p : Progress) : UInt64 := (p.elapsed / 1000000).toUInt64

/-- From this total on the reports sum up to less than `2 ^ 64` in each field. -/
structure Bounded (qp : QueryProgress) (ps : List Progress) : Prop where
  rows : qp.readRows.toNat + (ps.map fun p => p.rows.toNat).sum < 2 ^ 64
  bytes : qp.readBytes.toNat + (ps.map fun p => p.bytes.toNat).sum < 2 ^ 64
  elapsed : qp.elapsedMs.toNat + (ps.map fun p => p.elapsedMs.toNat).sum < 2 ^ 64

theorem add_bounded {a b : UInt64} {n : Nat} (h : a.toNat + (b.toNat + n) < 2 ^ 64) :
    a ≤ a + b ∧ (a + b).toNat + n < 2 ^ 64 := by
  have hadd : (a + b).toNat = a.toNat + b.toNat := by
    rw [UInt64.toNat_add, Nat.mod_eq_of_lt]
    omega
  rw [UInt64.le_iff_toNat_le, hadd]
  omega

theorem Bounded.cons {qp : QueryProgress} {p : Progress} {ps : List Progress}
    (h : Bounded qp (p :: ps)) :
    qp ≤ updateQueryProgress qp p ∧ Bounded (updateQueryProgress qp p) ps := by
  obtain ⟨hrows, hbytes, helapsed⟩ := h
  rw [List.map_cons, List.sum_cons] at hrows hbytes helapsed
  obtain ⟨hr, hrows⟩ := add_bounded hrows
  obtain ⟨hb, hbytes⟩ := add_bounded hbytes
  obtain ⟨he, helapsed⟩ := add_bounded helapsed
  exact ⟨⟨hr, hb, he⟩, hrows, hbytes, helapsed⟩

theorem progress_le_trans {a b c : QueryProgress} (hab : a ≤ b) (hbc : b ≤ c) : a ≤ c :=
  ⟨UInt64.le_trans hab.1 hbc.1, UInt64.le_trans hab.2.1 hbc.2.1, UInt64.le_trans hab.2.2 hbc.2.2⟩

/-- Totals that do not wrap around grow. -/
theorem pairwise_runningTotals {ps : List Progress} : ∀ {qp : QueryProgress}, Bounded qp ps →
    (qp :: runningTotals qp ps).Pairwise (· ≤ ·) := by
  induction ps with
  | nil => exact fun _ => List.pairwise_singleton _ _
  | cons p ps ih =>
    intro qp h
    obtain ⟨hle, hbounded⟩ := h.cons
    have hrest := ih hbounded
    refine List.Pairwise.cons (fun x hx => ?_) hrest
    rcases List.mem_cons.mp hx with rfl | hx
    · exact hle
    · exact progress_le_trans hle (List.rel_of_pairwise_cons hrest hx)

/-! ### Runs -/

/-- No operation that can come next panics: no missing tracker is dereferenced, nothing is sent on a
closed channel, and none is closed twice. -/
structure NoPanic (s : State) : Prop where
  handleProgressUpdate : ∀ t p order, (t, .progress p) ∈ s.pending → s.IsOrder t order →
    (s.handleProgressUpdate order t p).isSome
  subscribe : ∀ t c, (t, .subscribe) ∈ s.pending → (s.subscribe t c).isSome
  unsubscribe : ∀ t c, s.unsubscribes c = some t → (s.unsubscribe t c).isSome
  onFinished : ∀ t u order, s.cleanups t = some (.finishing u) → s.IsOrder u order →
    (s.onFinished order u).isSome

/-- What holds after the steps so far. -/
structure Tracked (as : List Action) (s : State) : Prop where
  /-- Each channel holds the totals since its subscription, up to drops when it is full, and they grow
  unless the sums exceed `uint64`. -/
  delivered : ∀ before after t c, as = before ++ .subscribe t c :: after →
    ∃ sub, s.subscriptions c = some sub ∧ Go.Fills 1000 (totalsAfter t c before after) sub.ch ∧
      (Bounded ⟨0, 0, 0⟩ (reports t as) → sub.ch.placed.Pairwise (· ≤ ·))
  noPanic : NoPanic s
  /-- When the cleanup function has returned, every channel is closed and none is retained. -/
  cleanedUp : ∀ t, s.cleanups t = some .returned →
    (∀ c, .subscribe t c ∈ as → ∃ sub, s.subscriptions c = some sub ∧ sub.ch.closed = true) ∧
      ∀ queryTracker, s.trackers t = some queryTracker → queryTracker.subscriptions = []
  /-- A query starts only when the cleanup function of every earlier start was called. -/
  restart : ∀ t queryId s', s.reportQueryStarted t queryId = .ok s' →
    ∀ u, s.cleanups u ≠ some (.waiting queryId)

theorem runningTotals_prefix {ps qs : List Progress} (h : ps <+: qs) (qp : QueryProgress) :
    runningTotals qp ps <+: runningTotals qp qs := by
  obtain ⟨rest, rfl⟩ := h
  induction ps generalizing qp with
  | nil => exact List.nil_prefix
  | cons p ps ih => exact List.cons_prefix_cons.mpr ⟨rfl, ih _⟩

theorem pairwise_totalsAfter {before after : List Action}
    (h : Bounded ⟨0, 0, 0⟩ (reports t (before ++ .subscribe t c :: after))) :
    (totalsAfter t c before after).Pairwise (· ≤ ·) := by
  have hall : (totals t (before ++ .subscribe t c :: after)).Pairwise (· ≤ ·) :=
    (List.pairwise_cons.mp (pairwise_runningTotals h)).2
  rw [totals_subscribe] at hall
  have hprefix : totals t (before ++ untilClosed t c after) <+: totals t (before ++ after) := by
    refine runningTotals_prefix (List.IsPrefix.filterMap _ ?_) _
    exact (List.prefix_append_right_inj before).mpr (List.takeWhile_prefix _)
  exact hall.sublist ((List.drop_sublist _ _).trans hprefix.sublist)

theorem noPanic (hreg : Registered s) (hhanded : Handed s) : NoPanic s where
  handleProgressUpdate t p order hpending horder := by
    obtain ⟨queryTracker, ht⟩ := Option.isSome_iff_exists.mp (hreg.pending t _ hpending)
    rw [handleProgressUpdate_eq hhanded ht horder p]
    rfl
  subscribe t c hpending := by
    obtain ⟨queryTracker, ht⟩ := Option.isSome_iff_exists.mp (hreg.pending t _ hpending)
    cases hfinished : queryTracker.isFinished with
    | true => simp [State.subscribe, ht, hfinished]
    | false =>
      obtain ⟨sub, hsub, -⟩ := subscribe_eq ht hfinished c
      rw [hsub]
      rfl
  unsubscribe t c hfunction := by
    obtain ⟨queryTracker, sub, ht, -⟩ := hhanded.tracker c t hfunction
    rw [unsubscribe_eq hhanded ht]
    rfl
  onFinished t u order hcleanup horder := by
    obtain ⟨queryTracker, ht, rfl, hopen⟩ := hreg.fits t _ hcleanup
    rw [onFinished_eq hhanded ht horder hopen]
    rfl

theorem tracked (hreg : Registered s) (hhanded : Handed s) (hhist : History as s) :
    Tracked as s where
  delivered before after t c has := by
    obtain ⟨-, sub, hsub, hdel⟩ := hhist.delivered before after t c has
    refine ⟨sub, hsub, hdel.fills, fun hbounded => ?_⟩
    rw [has] at hbounded
    exact (pairwise_totalsAfter hbounded).sublist hdel.fills.sublist
  noPanic := noPanic hreg hhanded
  cleanedUp t hreturned := by
    obtain ⟨queryTracker, ht, hfinished, hempty⟩ := hreg.fits t _ hreturned
    refine ⟨fun c hc => ?_, fun v hv => ?_⟩
    · obtain ⟨before, after, has⟩ := List.append_of_mem hc
      obtain ⟨hfunction, -⟩ := hhist.delivered before after t c has
      obtain ⟨v, sub, hv, hsub, hagree, hiff⟩ := hhanded.tracker c t hfunction
      obtain rfl := Option.some.inj (ht.symm.trans hv)
      rw [hempty, hagree] at hiff
      exact ⟨sub, hsub, by simpa using hiff⟩
    · rw [← Option.some.inj (ht.symm.trans hv), hempty]
  restart t queryId s' hstart u hu := by
    unfold State.reportQueryStarted at hstart
    rw [(hreg.lookup queryId u).mpr hu] at hstart
    cases hstart

/-- The invariants of a run. -/
structure Inv (as : List Action) (s : State) : Prop where
  registered : Registered s
  handed : Handed s
  history : History as s

theorem inv_new : Inv [] State.new where
  registered := ⟨fun _ _ => iff_of_false nofun nofun, nofun, nofun, nofun⟩
  handed := ⟨nofun, nofun, nofun, fun _ _ => rfl⟩
  history := ⟨nofun, fun _ _ => rfl, fun before after t c h => by simp at h⟩

theorem Inv.step (h : Inv as s) (hstep : Step s a s') : Inv (as ++ [a]) s' where
  registered := h.registered.step h.handed hstep
  handed := h.handed.step h.registered hstep
  history := h.history.step h.registered h.handed hstep

/-- **Every run of the tracker is tracked**, whatever its steps and their order are. -/
theorem tracked_of_run (h : Run Step State.new as s) : Tracked as s := by
  have hinv : Inv as s := h.invariant_history inv_new fun _ _ _ _ hinv hstep => hinv.step hstep
  exact tracked hinv.registered hinv.handed hinv.history

/-- An order of one subscription. -/
theorem isOrder_singleton (ht : s.trackers t = some queryTracker)
    (hc : queryTracker.subscriptions = [c]) : s.IsOrder t [c] := by
  intro v hv
  obtain rfl := Option.some.inj (ht.symm.trans hv)
  rw [hc]

/-- A query with one subscriber, one report and its cleanup. -/
theorem tracked_of_run_finished : ∃ s,
    Tracked [.reportQueryStarted "q" 0, .getQueryTracker "q" .subscribe, .subscribe 0 0,
      .getQueryTracker "q" (.progress ⟨10, 20, 20000000⟩),
      .handleProgressUpdate 0 ⟨10, 20, 20000000⟩, .onQueryFinished 0, .onFinished 0] s ∧
    (s.subscriptions 0).map (fun sub => (sub.ch.placed, sub.ch.closed)) =
      some ([⟨10, 20, 20⟩], true) :=
  ⟨_, tracked_of_run (((((((Run.nil.snoc (.reportQueryStarted rfl rfl)).snoc
    (.getQueryTracker rfl)).snoc
    (.subscribe (List.mem_singleton_self _) rfl rfl)).snoc
    (.getQueryTracker rfl)).snoc
    (.handleProgressUpdate (List.mem_singleton_self _) (isOrder_singleton rfl rfl) rfl)).snoc
    (.onQueryFinished rfl)).snoc
    (.onFinished rfl (isOrder_singleton rfl rfl) rfl)), rfl⟩

/-- Two reports whose sum exceeds `uint64`: the total that the subscriber sees goes down. -/
theorem tracked_wraps : ∃ s,
    Run Step State.new [.reportQueryStarted "q" 0, .getQueryTracker "q" .subscribe, .subscribe 0 0,
      .getQueryTracker "q" (.progress ⟨18446744073709551615, 0, 0⟩),
      .handleProgressUpdate 0 ⟨18446744073709551615, 0, 0⟩,
      .getQueryTracker "q" (.progress ⟨1, 0, 0⟩), .handleProgressUpdate 0 ⟨1, 0, 0⟩] s ∧
    ∃ sub, s.subscriptions 0 = some sub ∧
      sub.ch.placed = [⟨18446744073709551615, 0, 0⟩, ⟨0, 0, 0⟩] ∧
      ¬ sub.ch.placed.Pairwise (· ≤ ·) := by
  refine ⟨_, ((((((Run.nil.snoc (.reportQueryStarted rfl rfl)).snoc (.getQueryTracker rfl)).snoc
    (.subscribe (List.mem_singleton_self _) rfl rfl)).snoc
    (.getQueryTracker rfl)).snoc
    (.handleProgressUpdate (List.mem_singleton_self _) (isOrder_singleton rfl rfl) rfl)).snoc
    (.getQueryTracker rfl)).snoc
    (.handleProgressUpdate (List.mem_singleton_self _) (isOrder_singleton rfl rfl) rfl),
    _, rfl, rfl, fun h => ?_⟩
  have hle : (18446744073709551615 : UInt64) ≤ 0 :=
    (List.rel_of_pairwise_cons h (List.mem_singleton_self (⟨0, 0, 0⟩ : QueryProgress))).1
  exact absurd hle (by decide)

end QueryService.QueryProgress
