import BoringPanel.Lib.Runs

/-!
# Writes from snapshots

Callers that read a row and later write it from what they have read, through a queue that runs one
statement at a time. A write is fresh if it does what it would do with a snapshot of this moment. If all
writes of a run are fresh, the row is what they give one after another (`row_of_run`).

Two requests that read and write once either run one after the other, or the second write puts back what
it has read before the first one (`row_of_requests`).
-/

namespace ReadModifyWrite

variable {ρ σ υ ι : Type}

/-- The row, and the snapshots of the callers that have read it and not written it yet. -/
structure Shared (ρ σ ι : Type) where
  row : ρ
  snapshot : ι → Option σ

inductive Label (υ ι : Type) where
  | read (i : ι)
  | write (i : ι) (u : υ)

/-- The writes of a run, in their order. -/
def writes : List (Label υ ι) → List υ
  | [] => []
  | .read _ :: as => writes as
  | .write _ u :: as => u :: writes as

theorem writes_append (as bs : List (Label υ ι)) : writes (as ++ bs) = writes as ++ writes bs := by
  induction as with
  | nil => rfl
  | cons a as ih =>
    cases a with
    | read i => exact ih
    | write i u => exact congrArg (u :: ·) ih

section Step

variable [DecidableEq ι] (view : ρ → σ) (apply : υ → σ → ρ → ρ)

/-- One statement of a caller. -/
inductive Step : Shared ρ σ ι → Label υ ι → Shared ρ σ ι → Prop
  | read {s i} (h : s.snapshot i = none) :
      Step s (.read i) ⟨s.row, Function.update s.snapshot i (some (view s.row))⟩
  | write {s i u snap} (h : s.snapshot i = some snap) :
      Step s (.write i u) ⟨apply u snap s.row, Function.update s.snapshot i none⟩

/-- A write does what it would do with a snapshot of this moment. -/
def Fresh (s : Shared ρ σ ι) : Label υ ι → Prop
  | .read _ => True
  | .write i u => ∀ snap, s.snapshot i = some snap → apply u snap s.row = apply u (view s.row) s.row

/-- The writes, one after another. -/
def inOrder (row : ρ) (us : List υ) : ρ := us.foldl (fun row u => apply u (view row) row) row

variable {view apply} {row : ρ} {as : List (Label υ ι)} {s : Shared ρ σ ι}

/-- The row is what the writes give one after another. -/
theorem row_of_run (h : Run (Guarded (Step view apply) (Fresh view apply)) ⟨row, fun _ => none⟩ as s) :
    s.row = inOrder view apply row (writes as) := by
  induction h with
  | nil => rfl
  | @snoc as t u a hrun hstep ih =>
    obtain ⟨hstep, hfresh⟩ := hstep
    rw [writes_append]
    cases hstep with
    | read hidle =>
      show t.row = inOrder view apply row (writes as ++ [])
      rw [List.append_nil]
      exact ih
    | @write i v snap hsnap =>
      show apply v snap t.row = inOrder view apply row (writes as ++ [v])
      calc apply v snap t.row = apply v (view t.row) t.row := hfresh snap hsnap
        _ = inOrder view apply row (writes as ++ [v]) := by
          rw [ih, inOrder, inOrder, List.foldl_append]
          rfl

/-! ### Two requests -/

/-- The elements of two lists, each in its order. -/
inductive Interleaving {α : Type} : List α → List α → List α → Prop
  | nil : Interleaving [] [] []
  | left {a l l' as} (h : Interleaving l l' as) : Interleaving (a :: l) l' (a :: as)
  | right {a l l' as} (h : Interleaving l l' as) : Interleaving l (a :: l') (a :: as)

/-- A caller reads the row and writes it. -/
def request (i : ι) (u : υ) : List (Label υ ι) := [.read i, .write i u]

/-- The first request has written before the other one reads. -/
def sequential : List (Label υ ι) → Bool
  | .read _ :: .write _ _ :: _ => true
  | _ => false

/-- The row that the first and the second write leave. -/
def secondWrite (view : ρ → σ) (apply : υ → σ → ρ → ρ) (row : ρ) (inOrder : Bool) (u v : υ) : ρ :=
  let row' := apply u (view row) row
  apply v (view (if inOrder then row' else row)) row'

/-- What a statement leads to. -/
def next (view : ρ → σ) (apply : υ → σ → ρ → ρ) (s : Shared ρ σ ι) : Label υ ι → Shared ρ σ ι
  | .read i => ⟨s.row, Function.update s.snapshot i (some (view s.row))⟩
  | .write i u =>
    match s.snapshot i with
    | some snap => ⟨apply u snap s.row, Function.update s.snapshot i none⟩
    | none => s

theorem Step.eq_next {t : Shared ρ σ ι} {a : Label υ ι} (h : Step view apply s a t) :
    t = next view apply s a := by
  cases h with
  | read hidle => rfl
  | write hsnap => rw [next, hsnap]

/-- A caller reads if it holds no snapshot, and writes if it does. -/
def enabled (s : Shared ρ σ ι) : Label υ ι → Bool
  | .read i => (s.snapshot i).isNone
  | .write i _ => (s.snapshot i).isSome

theorem step_next {a : Label υ ι} (h : enabled s a = true) : Step view apply s a (next view apply s a) := by
  cases a with
  | read i => exact .read (Option.isNone_iff_eq_none.mp h)
  | write i u =>
    obtain ⟨snap, hsnap⟩ := Option.isSome_iff_exists.mp h
    rw [next, hsnap]
    exact .write hsnap

variable {i j : ι} {u v : υ}

/-- Which write comes first, and what the second one leaves. -/
theorem row_of_requests (hij : i ≠ j) (hint : Interleaving (request i u) (request j v) as)
    (h : Run (Step view apply) ⟨row, fun _ => none⟩ as s) :
    ∃ first second, (first = u ∧ second = v ∨ first = v ∧ second = u) ∧ writes as = [first, second] ∧
      s.row = secondWrite view apply row (sequential as) first second := by
  rw [h.eq_foldl fun _ _ _ hstep => hstep.eq_next]
  have hji : j ≠ i := hij.symm
  rw [request, request] at hint
  -- who comes next
  cases hint with
  | left hint => cases hint with
    | left hint => cases hint with
      | right hint => cases hint with
        | right hint =>
          cases hint
          exact ⟨u, v, .inl ⟨rfl, rfl⟩, rfl, by simp [next, secondWrite, sequential]⟩
    | right hint => cases hint with
      | left hint => cases hint with
        | right hint =>
          cases hint
          exact ⟨u, v, .inl ⟨rfl, rfl⟩, rfl, by simp [next, secondWrite, sequential, hij, hji]⟩
      | right hint => cases hint with
        | left hint =>
          cases hint
          exact ⟨v, u, .inr ⟨rfl, rfl⟩, rfl, by simp [next, secondWrite, sequential, hij]⟩
  | right hint => cases hint with
    | right hint => cases hint with
      | left hint => cases hint with
        | left hint =>
          cases hint
          exact ⟨v, u, .inr ⟨rfl, rfl⟩, rfl, by simp [next, secondWrite, sequential]⟩
    | left hint => cases hint with
      | right hint => cases hint with
        | left hint =>
          cases hint
          exact ⟨v, u, .inr ⟨rfl, rfl⟩, rfl, by simp [next, secondWrite, sequential, hij, hji]⟩
      | left hint => cases hint with
        | right hint =>
          cases hint
          exact ⟨u, v, .inl ⟨rfl, rfl⟩, rfl, by simp [next, secondWrite, sequential, hji]⟩

/-- Two requests, their statements in some order, and the row that they leave. -/
structure TwoRequests (view : ρ → σ) (apply : υ → σ → ρ → ρ) (row : ρ) (u v : υ)
    (as : List (Label υ Bool)) (final : ρ) : Prop where
  interleaved : Interleaving (request false u) (request true v) as
  run : ∃ s, Run (Step view apply) ⟨row, fun _ => none⟩ as s ∧ s.row = final

theorem TwoRequests.secondWrite {final : ρ} {bs : List (Label υ Bool)}
    (h : TwoRequests view apply row u v bs final) :
    ∃ first second, (first = u ∧ second = v ∨ first = v ∧ second = u) ∧ writes bs = [first, second] ∧
      final = secondWrite view apply row (sequential bs) first second := by
  obtain ⟨s, hrun, rfl⟩ := h.run
  exact row_of_requests Bool.false_ne_true h.interleaved hrun

/-- The first request writes before the second one reads. -/
theorem twoRequests_sequential :
    TwoRequests view apply row u v (request false u ++ request true v)
      (ReadModifyWrite.secondWrite view apply row true u v) :=
  ⟨.left (.left (.right (.right .nil))), _, (((Run.nil.snoc (step_next rfl)).snoc (step_next rfl)).snoc
    (step_next rfl)).snoc (step_next rfl), rfl⟩

/-- The second request reads before the first one writes. -/
theorem twoRequests_overlapping :
    TwoRequests view apply row u v [.read false, .read true, .write false u, .write true v]
      (ReadModifyWrite.secondWrite view apply row false u v) :=
  ⟨.left (.right (.left (.right .nil))), _, (((Run.nil.snoc (step_next rfl)).snoc (step_next rfl)).snoc
    (step_next rfl)).snoc (step_next rfl), rfl⟩

end Step

end ReadModifyWrite
