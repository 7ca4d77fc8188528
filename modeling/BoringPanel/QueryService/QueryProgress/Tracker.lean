import BoringPanel.Lib.Channel
import BoringPanel.Lib.GoText
import BoringPanel.Lib.Runs

/-!
# The in-memory query progress tracker

`inMemoryQueryProgressTracker` and `queryTracker` of
`app/clickhouseReader/query_progress/inmemory_tracker.go`. A section under one lock is one step, so
between the lookup of a tracker and its use other steps can come. Trackers and subscriptions are known
by their addresses; the id of a subscriber, which `uuid.NewString` makes, is that of its subscription.
`none` is a panic.
-/

namespace QueryService.QueryProgress

/-! ### The data -/

/-- `model.QueryProgress`. -/
structure QueryProgress where
  readRows : UInt64
  readBytes : UInt64
  elapsedMs : UInt64
deriving DecidableEq, Repr

/-- `clickhouse.Progress`, where `Elapsed` is in nanoseconds. -/
structure Progress where
  rows : UInt64
  bytes : UInt64
  elapsed : Int64
deriving DecidableEq, Repr

def updateQueryProgress (qp : QueryProgress) (chProgress : Progress) : QueryProgress where
  readRows := qp.readRows + chProgress.rows
  readBytes := qp.readBytes + chProgress.bytes
  elapsedMs := qp.elapsedMs + (chProgress.elapsed / 1000000).toUInt64

/-- `queryProgressSubscription`. -/
structure Subscription where
  ch : Go.Chan QueryProgress
  isClosed : Bool

namespace Subscription

def new : Subscription := ⟨Go.Chan.make, false⟩

def send (progress : QueryProgress) (sub : Subscription) : Option Subscription :=
  if sub.isClosed then some sub
  else (sub.ch.trySend 1000 progress).map fun ch => { sub with ch }

def close (sub : Subscription) : Option Subscription :=
  if sub.isClosed then some sub
  else sub.ch.close.map fun ch => { ch, isClosed := true }

end Subscription

/-- `queryTracker`. -/
structure QueryTracker where
  queryId : String
  isFinished : Bool
  progress : Option QueryProgress
  subscriptions : List Nat

/-- What a goroutine does with a tracker that it has looked up. -/
inductive Request where
  | progress (p : Progress)
  | subscribe
deriving DecidableEq, Repr

/-- The cleanup function of a query. The handler that has started the query calls it once. -/
inductive Cleanup where
  | waiting (queryId : String)
  /-- It has taken the tracker out of the map. -/
  | finishing (queryTracker : Nat)
  | returned
deriving DecidableEq, Repr

structure State where
  queries : Go.Map Nat
  trackers : Nat → Option QueryTracker
  subscriptions : Nat → Option Subscription
  /-- The goroutines between `getQueryTracker` and the use of the tracker. -/
  pending : List (Nat × Request)
  /-- The trackers that the unsubscribe functions belong to. -/
  unsubscribes : Nat → Option Nat
  cleanups : Nat → Option Cleanup

namespace State

/-- `NewQueryProgressTracker`. -/
def new : State := ⟨.empty, fun _ => none, fun _ => none, [], fun _ => none, fun _ => none⟩

variable (s : State)

def setTracker (t : Nat) (queryTracker : QueryTracker) : State :=
  { s with trackers := Function.update s.trackers t (some queryTracker) }

def setCleanup (t : Nat) (cleanup : Cleanup) : State :=
  { s with cleanups := Function.update s.cleanups t (some cleanup) }

/-- A call of `send` or `close`. -/
def onSubscription (f : Subscription → Option Subscription) (c : Nat) : Option State := do
  let sub ← s.subscriptions c
  let sub ← f sub
  return { s with subscriptions := Function.update s.subscriptions c (some sub) }

/-- `ReportQueryStarted`; the new tracker is at `t`. -/
def reportQueryStarted (t : Nat) (queryId : String) : Except String State :=
  match s.queries.lookup queryId with
  | some _ => .error ("query " ++ queryId ++ " already started")
  | none =>
    .ok ({ s with queries := s.queries.set queryId t }.setTracker t
      { queryId, isFinished := false, progress := none, subscriptions := [] }
      |>.setCleanup t (.waiting queryId))

/-- `getQueryTracker`, by a goroutine that goes on with a request. -/
def getQueryTracker (queryId : String) (request : Request) : Except String State :=
  match s.queries.lookup queryId with
  | none => .error ("query " ++ queryId ++ " doesn't exist")
  | some t => .ok { s with pending := (t, request) :: s.pending }

/-- `handleProgressUpdate`; the subscriptions are visited in the given order. -/
def handleProgressUpdate (order : List Nat) (t : Nat) (p : Progress) : Option State := do
  let queryTracker ← s.trackers t
  if queryTracker.isFinished then
    return s
  let progress := updateQueryProgress (queryTracker.progress.getD ⟨0, 0, 0⟩) p
  let s := s.setTracker t { queryTracker with progress := some progress }
  order.foldlM (fun s c => s.onSubscription (Subscription.send progress) c) s

/-- `subscribe`; the new subscription is at `c`. -/
def subscribe (t c : Nat) : Option (Except String State) := do
  let queryTracker ← s.trackers t
  if queryTracker.isFinished then
    return .error ("query " ++ queryTracker.queryId ++ " already finished")
  let s := s.setTracker t
    { queryTracker with subscriptions := queryTracker.subscriptions ++ [c] }
  let s := { s with
    subscriptions := Function.update s.subscriptions c (some .new)
    unsubscribes := Function.update s.unsubscribes c (some t) }
  match queryTracker.progress with
  | some progress =>
    let s ← s.onSubscription (Subscription.send progress) c
    return .ok s
  | none => return .ok s

/-- `unsubscribe`. -/
def unsubscribe (t c : Nat) : Option State := do
  let queryTracker ← s.trackers t
  if queryTracker.isFinished then
    return s
  if c ∈ queryTracker.subscriptions then
    let s ← s.onSubscription Subscription.close c
    return s.setTracker t
      { queryTracker with subscriptions := queryTracker.subscriptions.erase c }
  return s

/-- The first part of `onQueryFinished`, called by the cleanup function of `t`. -/
def onQueryFinished (t : Nat) (queryId : String) : State :=
  match s.queries.lookup queryId with
  | some queryTracker =>
    { s with queries := s.queries.erase queryId }.setCleanup t (.finishing queryTracker)
  | none => s.setCleanup t .returned

/-- `onFinished`. -/
def onFinished (order : List Nat) (t : Nat) : Option State := do
  let queryTracker ← s.trackers t
  if queryTracker.isFinished then
    return s
  let s ← order.foldlM (fun s c => s.onSubscription Subscription.close c) s
  return s.setTracker t { queryTracker with subscriptions := [], isFinished := true }

end State

/-! ### Steps -/

inductive Action where
  | reportQueryStarted (queryId : String) (t : Nat)
  | getQueryTracker (queryId : String) (request : Request)
  | handleProgressUpdate (t : Nat) (p : Progress)
  | subscribe (t c : Nat)
  | subscribeFails (t : Nat)
  | unsubscribe (t c : Nat)
  | onQueryFinished (t : Nat)
  | onFinished (t : Nat)
  | receive (c : Nat)
deriving DecidableEq, Repr

/-- An order of the subscriptions of a tracker. -/
def State.IsOrder (s : State) (t : Nat) (order : List Nat) : Prop :=
  ∀ queryTracker, s.trackers t = some queryTracker → order.Perm queryTracker.subscriptions

inductive Step (s : State) : Action → State → Prop
  | reportQueryStarted {queryId : String} {t : Nat} {s' : State} (hnew : s.trackers t = none)
      (h : s.reportQueryStarted t queryId = .ok s') : Step s (.reportQueryStarted queryId t) s'
  | getQueryTracker {queryId : String} {request : Request} {s' : State}
      (h : s.getQueryTracker queryId request = .ok s') :
      Step s (.getQueryTracker queryId request) s'
  | handleProgressUpdate {t : Nat} {p : Progress} {order : List Nat} {s' : State}
      (hpending : (t, .progress p) ∈ s.pending) (horder : s.IsOrder t order)
      (h : s.handleProgressUpdate order t p = some s') :
      Step s (.handleProgressUpdate t p) { s' with pending := s.pending.erase (t, .progress p) }
  | subscribe {t c : Nat} {s' : State} (hpending : (t, .subscribe) ∈ s.pending)
      (hnew : s.subscriptions c = none) (h : s.subscribe t c = some (.ok s')) :
      Step s (.subscribe t c) { s' with pending := s.pending.erase (t, .subscribe) }
  | subscribeFails {t c : Nat} {e : String} (hpending : (t, .subscribe) ∈ s.pending)
      (h : s.subscribe t c = some (.error e)) :
      Step s (.subscribeFails t) { s with pending := s.pending.erase (t, .subscribe) }
  | unsubscribe {t c : Nat} {s' : State} (hfunction : s.unsubscribes c = some t)
      (h : s.unsubscribe t c = some s') : Step s (.unsubscribe t c) s'
  | onQueryFinished {t : Nat} {queryId : String} (hcleanup : s.cleanups t = some (.waiting queryId)) :
      Step s (.onQueryFinished t) (s.onQueryFinished t queryId)
  | onFinished {t queryTracker : Nat} {order : List Nat} {s' : State}
      (hcleanup : s.cleanups t = some (.finishing queryTracker))
      (horder : s.IsOrder queryTracker order) (h : s.onFinished order queryTracker = some s') :
      Step s (.onFinished t) (s'.setCleanup t .returned)
  | receive {c : Nat} {sub : Subscription} {ch : Go.Chan QueryProgress}
      (hsub : s.subscriptions c = some sub) (h : sub.ch.receive = some ch) :
      Step s (.receive c)
        { s with subscriptions := Function.update s.subscriptions c (some { sub with ch }) }

end QueryService.QueryProgress
