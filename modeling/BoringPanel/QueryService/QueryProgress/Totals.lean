import Mathlib.Algebra.Order.Ring.Nat
import Mathlib.Data.List.TakeWhile
import BoringPanel.QueryService.QueryProgress.Tracker

/-!
# The totals that a channel is offered

A channel is offered the running totals of its query, from its subscription until it is closed
(`totalsAfter`). `Delivered` says that it holds them, up to drops, and `Delivered.snoc` that it does so
after any of the things that a step can do to it (`Evolves`).
-/

namespace QueryService.QueryProgress

variable {as : List Action} {t c : Nat}

/-! ### Totals -/

/-- The total after each of the reports, one after the other. -/
def runningTotals : QueryProgress → List Progress → List QueryProgress
  | _, [] => []
  | qp, p :: ps => updateQueryProgress qp p :: runningTotals (updateQueryProgress qp p) ps

theorem length_runningTotals (qp : QueryProgress) (ps : List Progress) :
    (runningTotals qp ps).length = ps.length := by
  induction ps generalizing qp with
  | nil => rfl
  | cons p ps ih => rw [runningTotals, List.length_cons, ih, List.length_cons]

theorem runningTotals_append (qp : QueryProgress) (ps : List Progress) (p : Progress) :
    runningTotals qp (ps ++ [p]) = runningTotals qp ps ++
      [updateQueryProgress ((runningTotals qp ps).getLast?.getD qp) p] := by
  induction ps generalizing qp with
  | nil => rfl
  | cons q ps ih =>
    rw [List.cons_append, runningTotals, runningTotals, ih, List.cons_append, List.getLast?_cons]
    rfl

/-- The reports that a tracker has handled. -/
def reports (t : Nat) (as : List Action) : List Progress :=
  as.filterMap fun
    | .handleProgressUpdate t' p => if t' = t then some p else none
    | _ => none

/-- The cumulative totals of a query, one for each report. -/
def totals (t : Nat) (as : List Action) : List QueryProgress :=
  runningTotals ⟨0, 0, 0⟩ (reports t as)

/-- The steps that close a channel. -/
def Closes (t c : Nat) (a : Action) : Prop := a = .unsubscribe t c ∨ a = .onFinished t

instance (t c : Nat) (a : Action) : Decidable (Closes t c a) := by
  unfold Closes
  infer_instance

def untilClosed (t c : Nat) (after : List Action) : List Action :=
  after.takeWhile fun a => !decide (Closes t c a)

/-- **The totals after a subscription**, from the total at that moment on if there is one, until the
channel is closed. -/
def totalsAfter (t c : Nat) (before after : List Action) : List QueryProgress :=
  (totals t (before ++ untilClosed t c after)).drop ((totals t before).length - 1)

theorem totals_append_of_ne {a : Action} (h : ∀ p, a ≠ .handleProgressUpdate t p) :
    totals t (as ++ [a]) = totals t as := by
  have hnone : reports t [a] = [] := by
    unfold reports
    cases a with
    | handleProgressUpdate t' p =>
      have ht : t' ≠ t := fun ht => h p (by rw [ht])
      simp [ht]
    | _ => rfl
  unfold totals reports at *
  rw [List.filterMap_append, hnone, List.append_nil]

theorem totals_append_report (p : Progress) :
    totals t (as ++ [.handleProgressUpdate t p]) = totals t as ++
      [updateQueryProgress ((totals t as).getLast?.getD ⟨0, 0, 0⟩) p] := by
  have hsome : reports t [.handleProgressUpdate t p] = [p] := by simp [reports]
  unfold totals
  rw [← runningTotals_append]
  unfold reports at *
  rw [List.filterMap_append, hsome]

/-- At the moment of the subscription. -/
theorem totalsAfter_nil (before : List Action) :
    totalsAfter t c before [] = (totals t before).getLast?.toList := by
  unfold totalsAfter
  rw [show untilClosed t c [] = [] from rfl, List.append_nil]
  rcases List.eq_nil_or_concat (totals t before) with h | ⟨qps, qp, h⟩
  · rw [h]
    rfl
  · rw [h]
    simp

theorem untilClosed_of_open {after : List Action} (hopen : ∀ a ∈ after, ¬ Closes t c a) :
    untilClosed t c after = after := by
  refine List.takeWhile_eq_self_iff.mpr fun a ha => ?_
  simp [hopen a ha]

theorem untilClosed_append_of_closed {after : List Action} (a : Action)
    (hclosed : ∃ x ∈ after, Closes t c x) :
    untilClosed t c (after ++ [a]) = untilClosed t c after := by
  unfold untilClosed
  rw [List.takeWhile_append, if_neg]
  intro hlen
  obtain ⟨x, hx, hcloses⟩ := hclosed
  rw [← List.takeWhile_prefix _ |>.eq_of_length hlen] at hx
  simpa [hcloses] using List.mem_takeWhile_imp hx

theorem untilClosed_append_of_closes {after : List Action} {a : Action}
    (hopen : ∀ x ∈ after, ¬ Closes t c x) (hcloses : Closes t c a) :
    untilClosed t c (after ++ [a]) = after := by
  unfold untilClosed
  rw [List.takeWhile_append_of_pos fun x hx => by simp [hopen x hx]]
  simp [hcloses]

theorem reports_mono (before after : List Action) :
    (totals t before).length ≤ (totals t (before ++ after)).length := by
  unfold totals reports
  rw [length_runningTotals, length_runningTotals, List.filterMap_append, List.length_append]
  exact Nat.le_add_right _ _

/-- While the channel is open each report adds its total. -/
theorem totalsAfter_report {before after : List Action} (hopen : ∀ a ∈ after, ¬ Closes t c a)
    (p : Progress) : totalsAfter t c before (after ++ [.handleProgressUpdate t p]) =
      totalsAfter t c before after ++
        [updateQueryProgress ((totals t (before ++ after)).getLast?.getD ⟨0, 0, 0⟩) p] := by
  have hopen' : ∀ a ∈ after ++ [.handleProgressUpdate t p], ¬ Closes t c a := by
    intro a ha
    rcases List.mem_append.mp ha with ha | ha
    · exact hopen a ha
    · rw [List.mem_singleton.mp ha]
      simp [Closes]
  unfold totalsAfter
  rw [untilClosed_of_open hopen, untilClosed_of_open hopen', ← List.append_assoc,
    totals_append_report, List.drop_append_of_le_length]
  exact (Nat.sub_le _ _).trans (reports_mono before after)

/-- Any other step adds nothing. -/
theorem totalsAfter_of_ne {before after : List Action} {a : Action}
    (h : ∀ p, a ≠ .handleProgressUpdate t p) :
    totalsAfter t c before (after ++ [a]) = totalsAfter t c before after := by
  unfold totalsAfter
  by_cases hclosed : ∃ x ∈ after, Closes t c x
  · rw [untilClosed_append_of_closed a hclosed]
  · have hopen : ∀ x ∈ after, ¬ Closes t c x := fun x hx hc => hclosed ⟨x, hx, hc⟩
    by_cases hcloses : Closes t c a
    · rw [untilClosed_append_of_closes hopen hcloses, untilClosed_of_open hopen]
    · have hopen' : ∀ x ∈ after ++ [a], ¬ Closes t c x := by
        intro x hx
        rcases List.mem_append.mp hx with hx | hx
        · exact hopen x hx
        · rw [List.mem_singleton.mp hx]
          exact hcloses
      rw [untilClosed_of_open hopen, untilClosed_of_open hopen', ← List.append_assoc,
        totals_append_of_ne h]

/-- After the channel is closed nothing is added. -/
theorem totalsAfter_of_closed {before after : List Action} (a : Action)
    (h : ∃ x ∈ after, Closes t c x) :
    totalsAfter t c before (after ++ [a]) = totalsAfter t c before after := by
  unfold totalsAfter
  rw [untilClosed_append_of_closed a h]

/-! ### Subscriptions -/

namespace Subscription

variable {sub sub' : Subscription} {qp : QueryProgress}

/-- A send succeeds, and leaves the subscription open or closed. -/
theorem send_cases (h : sub.isClosed = sub.ch.closed) (qp : QueryProgress) :
    ∃ sub', sub.send qp = some sub' ∧ sub'.isClosed = sub.isClosed ∧
      sub'.ch.closed = sub.ch.closed := by
  unfold send Go.Chan.trySend
  cases hc : sub.isClosed with
  | true => exact ⟨sub, rfl, hc, rfl⟩
  | false =>
    rw [← h, hc]
    by_cases hroom : sub.ch.unread < 1000
    · simp [hroom]
    · refine ⟨{ sub with isClosed := false }, ?_, rfl, h ▸ hc⟩
      simp [hroom]

theorem send_of_open (hopen : sub.isClosed = false) (hsend : sub.send qp = some sub') :
    ∃ ch, sub.ch.trySend 1000 qp = some ch ∧ sub' = { sub with ch } := by
  unfold send at hsend
  rw [hopen] at hsend
  obtain ⟨ch, hch, rfl⟩ := Option.map_eq_some_iff.mp hsend
  exact ⟨ch, hch, by rw [hopen]⟩

theorem close_cases (h : sub.isClosed = sub.ch.closed) :
    ∃ sub', sub.close = some sub' ∧ sub'.isClosed = true ∧ sub'.ch.closed = true := by
  unfold close Go.Chan.close
  cases hc : sub.isClosed with
  | true => exact ⟨sub, rfl, hc, h ▸ hc⟩
  | false =>
    rw [← h, hc]
    exact ⟨_, rfl, rfl, rfl⟩

end Subscription

/-- What a step does to a channel of the tracker, whose total so far is given. -/
inductive Evolves (total : Option QueryProgress) (t c : Nat) (a : Action) (sub : Subscription) :
    Subscription → Prop
  | same (hreport : ∀ p, a ≠ .handleProgressUpdate t p) (hcloses : ¬ Closes t c a) :
      Evolves total t c a sub sub
  | closed (hclosed : sub.isClosed = true) : Evolves total t c a sub sub
  | send {p : Progress} {sub' : Subscription} (hopen : sub.isClosed = false)
      (ha : a = .handleProgressUpdate t p)
      (hsend : sub.send (updateQueryProgress (total.getD ⟨0, 0, 0⟩) p) = some sub') :
      Evolves total t c a sub sub'
  | close {sub' : Subscription} (hopen : sub.isClosed = false) (hcloses : Closes t c a)
      (hclose : sub.close = some sub') : Evolves total t c a sub sub'
  | receive {ch : Go.Chan QueryProgress} (hreport : ∀ p, a ≠ .handleProgressUpdate t p)
      (hcloses : ¬ Closes t c a) (hreceive : sub.ch.receive = some ch) :
      Evolves total t c a sub { sub with ch }

/-- The channel of a subscription, which `after` was done since. -/
structure Delivered (t c : Nat) (before after : List Action) (sub : Subscription) : Prop where
  fills : Go.Fills 1000 (totalsAfter t c before after) sub.ch
  isOpen : sub.isClosed = false ↔ ∀ a ∈ after, ¬ Closes t c a

theorem Delivered.snoc {before after : List Action} {a : Action} {sub sub' : Subscription}
    (h : Delivered t c before after sub) (hagree : sub.isClosed = sub.ch.closed)
    (hev : Evolves (totals t (before ++ after)).getLast? t c a sub sub') :
    Delivered t c before (after ++ [a]) sub' := by
  have hsplit (p : Action → Prop) : (∀ x ∈ after ++ [a], p x) ↔ (∀ x ∈ after, p x) ∧ p a := by
    simp only [List.forall_mem_append, List.forall_mem_singleton]
  cases hev with
  | same hreport hcloses =>
    refine ⟨?_, ?_⟩
    · rw [totalsAfter_of_ne hreport]
      exact h.fills
    · rw [hsplit, and_iff_left hcloses]
      exact h.isOpen
  | closed hclosed =>
    have hex : ¬ ∀ x ∈ after, ¬ Closes t c x := by
      rw [← h.isOpen, hclosed]
      simp
    refine ⟨?_, ?_⟩
    · rw [totalsAfter_of_closed a (by simpa using hex)]
      exact h.fills
    · rw [hsplit, hclosed]
      exact iff_of_false (by simp) fun hall => hex hall.1
  | @send p _ hopen ha hsend =>
    subst ha
    obtain ⟨_, hsend', hclosed, -⟩ := Subscription.send_cases hagree
      (updateQueryProgress ((totals t (before ++ after)).getLast?.getD ⟨0, 0, 0⟩) p)
    obtain rfl := Option.some.inj (hsend.symm.trans hsend')
    refine ⟨?_, ?_⟩
    · rw [totalsAfter_report (h.isOpen.mp hopen)]
      obtain ⟨ch, hch, rfl⟩ := Subscription.send_of_open hopen hsend
      exact h.fills.trySend hch
    · rw [hsplit, hclosed, h.isOpen, and_iff_left]
      simp [Closes]
  | close hopen hcloses hclose =>
    obtain ⟨_, hclose', hclosed, -⟩ := Subscription.close_cases hagree
    obtain rfl := Option.some.inj (hclose.symm.trans hclose')
    refine ⟨?_, ?_⟩
    · rw [totalsAfter_of_ne]
      · unfold Subscription.close at hclose
        rw [hopen] at hclose
        obtain ⟨ch, hch, rfl⟩ := Option.map_eq_some_iff.mp hclose
        exact h.fills.close hch
      · rintro p rfl
        simp [Closes] at hcloses
    · rw [hsplit, hclosed]
      exact iff_of_false (by simp) fun hall => hall.2 hcloses
  | receive hreport hcloses hreceive =>
    refine ⟨?_, ?_⟩
    · rw [totalsAfter_of_ne hreport]
      exact h.fills.receive hreceive
    · rw [hsplit, and_iff_left hcloses]
      exact h.isOpen

end QueryService.QueryProgress
