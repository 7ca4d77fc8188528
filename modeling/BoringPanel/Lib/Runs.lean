import Mathlib.Data.List.Basic

/-!
# Runs of a labelled transition system

A run is a list of labels with the state that it ends in. Invariants are proved step by step
(`Run.invariant`), also when they speak of the labels so far (`Run.invariant_history`); a condition on
the steps is part of the step relation (`Guarded`). A loop that may fail keeps its invariant in the
same way (`foldlM_invariant`).
-/

section Runs

variable {σ α : Type} {step : σ → α → σ → Prop} {s t u : σ} {a : α} {as : List α}

/-- A run from `s`: the labels of its steps, and where it ends. -/
inductive Run (step : σ → α → σ → Prop) (s : σ) : List α → σ → Prop
  | nil : Run step s [] s
  | snoc {as : List α} {t u : σ} {a : α} (h : Run step s as t) (hstep : step t a u) :
      Run step s (as ++ [a]) u

/-- The steps that meet a condition. -/
def Guarded (step : σ → α → σ → Prop) (ok : σ → α → Prop) (t : σ) (a : α) (u : σ) : Prop :=
  step t a u ∧ ok t a

namespace Run

/-- What holds at first and is kept by every step holds of every state reached. -/
theorem invariant {inv : σ → Prop} (h : Run step s as t) (hinit : inv s)
    (hkeep : ∀ t a u, inv t → step t a u → inv u) : inv t := by
  induction h with
  | nil => exact hinit
  | snoc _ hstep ih => exact hkeep _ _ _ ih hstep

/-- The same for what speaks of the labels so far. -/
theorem invariant_history {inv : List α → σ → Prop} (h : Run step s as t) (hinit : inv [] s)
    (hkeep : ∀ as t a u, inv as t → step t a u → inv (as ++ [a]) u) : inv as t := by
  induction h with
  | nil => exact hinit
  | snoc _ hstep ih => exact hkeep _ _ _ _ ih hstep

theorem mono {step' : σ → α → σ → Prop} (h : Run step s as t)
    (himp : ∀ t a u, step t a u → step' t a u) : Run step' s as t := by
  induction h with
  | nil => exact nil
  | snoc _ hstep ih => exact ih.snoc (himp _ _ _ hstep)

theorem cons (hstep : step s a t) (h : Run step t as u) : Run step s (a :: as) u := by
  induction h with
  | nil => exact nil.snoc hstep
  | snoc _ hlast ih => exact ih.snoc hlast

/-- A run of steps that are those of a function. -/
theorem eq_foldl {next : σ → α → σ} (h : Run step s as t)
    (hnext : ∀ t a u, step t a u → u = next t a) : t = as.foldl next s := by
  induction h with
  | nil => rfl
  | snoc _ hstep ih => rw [List.foldl_append, ← ih, hnext _ _ _ hstep, List.foldl_cons, List.foldl_nil]

/-- A guarded run is a run. -/
theorem of_guarded {ok : σ → α → Prop} (h : Run (Guarded step ok) s as t) : Run step s as t :=
  h.mono fun _ _ _ hstep => hstep.1

theorem of_foldl {next : σ → α → σ} (hnext : ∀ s a, step s a (next s a)) :
    Run step s as (as.foldl next s) := by
  induction as generalizing s with
  | nil => exact nil
  | cons a as ih => exact ih.cons (hnext s a)

end Run

/-- The steps of a function all meet a condition. -/
def allowed (next : σ → α → σ) (ok : σ → α → Bool) : σ → List α → Bool
  | _, [] => true
  | s, a :: as => ok s a && allowed next ok (next s a) as

/-- The steps of a function that are allowed are a run. -/
theorem Run.of_enabled {next : σ → α → σ} {ok : σ → α → Bool}
    (hnext : ∀ s a, ok s a = true → step s a (next s a)) (h : allowed next ok s as = true) :
    Run step s as (as.foldl next s) := by
  induction as generalizing s with
  | nil => exact .nil
  | cons a as ih =>
    rw [allowed, Bool.and_eq_true] at h
    exact (ih h.2).cons (hnext s a h.1)

theorem Run.of_allowed {next : σ → α → σ} {ok : σ → α → Bool} (hnext : ∀ s a, step s a (next s a))
    (h : allowed next ok s as = true) :
    Run (Guarded step fun s a => ok s a = true) s as (as.foldl next s) :=
  .of_enabled (fun s a hok => ⟨hnext s a, hok⟩) h

end Runs

/-- What a loop that may fail keeps at every turn. -/
theorem foldlM_invariant {ε α β : Type} {f : β → α → Except ε β} {inv : β → Prop}
    (hkeep : ∀ b a b', inv b → f b a = .ok b' → inv b') {l : List α} {b b' : β} (hinit : inv b)
    (h : l.foldlM f b = .ok b') : inv b' := by
  induction l generalizing b with
  | nil =>
    obtain rfl := Except.ok.inj h
    exact hinit
  | cons a l ih =>
    rw [List.foldlM_cons] at h
    cases hturn : f b a with
    | error err => simp [hturn, bind, Except.bind] at h
    | ok c =>
      rw [hturn] at h
      exact ih (hkeep b a c hinit hturn) h

/-- A loop whose turns do not fail, from what it keeps. -/
theorem foldlM_ok {ε α β : Type} {f : β → α → Except ε β} {inv : β → Prop} {l : List α} {b : β}
    (hkeep : ∀ b, ∀ a ∈ l, inv b → ∃ b', f b a = .ok b' ∧ inv b') (hinit : inv b) :
    ∃ b', l.foldlM f b = .ok b' ∧ inv b' := by
  induction l generalizing b with
  | nil => exact ⟨b, rfl, hinit⟩
  | cons a l ih =>
    obtain ⟨c, hturn, hc⟩ := hkeep b a List.mem_cons_self hinit
    obtain ⟨b', hrest, hb'⟩ := ih (fun b d hd => hkeep b d (List.mem_cons_of_mem _ hd)) hc
    refine ⟨b', ?_, hb'⟩
    rw [List.foldlM_cons, hturn]
    exact hrest
