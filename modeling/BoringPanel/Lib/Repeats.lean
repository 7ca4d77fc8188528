import Mathlib.Tactic.TypeStar

/-!
# Loops that run their body first

A body that is run, and then again as long as a condition says so (`Repeats`). The condition is given the
number of the round; it may fail to give an answer, and then the loop has no end. What the rounds were is
kept as a list of labels.

* `Repeats.invariant`, `Begun.invariant`: what every round preserves.
* `Repeats.lift_iff`: the same loop on the images of a map that the body and the condition respect.
-/

variable {α β τ : Type*}

/-- From the round with this number on. -/
inductive Repeats (body : α → τ → α → Prop) (again : Nat → α → Option Bool) : Nat → α → List τ → α → Prop
  | last {n : Nat} {a b : α} {t : τ} : body a t b → again n b = some false → Repeats body again n a [t] b
  | more {n : Nat} {a b c : α} {t : τ} {ts : List τ} : body a t b → again n b = some true →
      Repeats body again (n + 1) b ts c → Repeats body again n a (t :: ts) c

/-- A later round begins there, or the one with this number. -/
inductive Begun (body : α → τ → α → Prop) (again : Nat → α → Option Bool) : Nat → α → α → Prop
  | first {n : Nat} {a : α} : Begun body again n a a
  | next {n : Nat} {a b c : α} {t : τ} : body a t b → again n b = some true → Begun body again (n + 1) b c →
      Begun body again n a c

/-- What every round preserves holds when a round begins, and at the end. -/
theorem Begun.invariant {body : α → τ → α → Prop} {again : Nat → α → Option Bool} {I : α → Prop}
    (hbody : ∀ a t b, body a t b → I a → I b) {n : Nat} {a b : α} (h : Begun body again n a b) (ha : I a) : I b := by
  induction h with
  | first => exact ha
  | next hrun _ _ ih => exact ih (hbody _ _ _ hrun ha)

namespace Repeats

theorem invariant {body : α → τ → α → Prop} {again : Nat → α → Option Bool} {I : α → Prop}
    (hbody : ∀ a t b, body a t b → I a → I b) {n : Nat} {a b : α} {ts : List τ}
    (h : Repeats body again n a ts b) (ha : I a) : I b := by
  induction h with
  | last hrun _ => exact hbody _ _ _ hrun ha
  | more hrun _ _ ih => exact ih (hbody _ _ _ hrun ha)

variable {body : α → τ → α → Prop} {again : Nat → α → Option Bool} {f : α → β}
  {body' : β → Unit → β → Prop} {again' : Nat → β → Option Bool}

/-- **A loop on images**, whose rounds are not told apart. -/
theorem lift_iff (hbody : ∀ a w, body' (f a) () w ↔ ∃ t b, body a t b ∧ w = f b)
    (hagain : ∀ n a, again' n (f a) = again n a) {n : Nat} {a : α} {w : β} :
    (∃ rounds, Repeats body' again' n (f a) rounds w) ↔ ∃ ts b, Repeats body again n a ts b ∧ w = f b := by
  constructor
  · rintro ⟨rounds, h⟩
    generalize hx : f a = x at h
    induction h generalizing a with
    | last hrun hstop =>
      obtain ⟨t, b, hb, rfl⟩ := (hbody a _).mp (hx ▸ hrun)
      exact ⟨[t], b, .last hb ((hagain _ _).symm.trans hstop), rfl⟩
    | more hrun hgo _ ih =>
      obtain ⟨t, b, hb, rfl⟩ := (hbody a _).mp (hx ▸ hrun)
      obtain ⟨ts, c, hrest, hc⟩ := ih rfl
      exact ⟨t :: ts, c, .more hb ((hagain _ _).symm.trans hgo) hrest, hc⟩
  · rintro ⟨ts, b, h, rfl⟩
    induction h with
    | last hrun hstop =>
      exact ⟨[()], .last ((hbody _ _).mpr ⟨_, _, hrun, rfl⟩) ((hagain _ _).trans hstop)⟩
    | more hrun hgo _ ih =>
      obtain ⟨rounds, hrest⟩ := ih
      exact ⟨() :: rounds, .more ((hbody _ _).mpr ⟨_, _, hrun, rfl⟩) ((hagain _ _).trans hgo) hrest⟩

end Repeats
