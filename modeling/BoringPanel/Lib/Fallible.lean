import Mathlib.Data.List.Forall2

/-!
# Computations that may fail

What is known of the steps of a computation that has ended, and of what is found in two lists that
correspond.
-/

namespace Fallible

variable {ε α β : Type}

theorem bind_eq_ok {x : Except ε α} {f : α → Except ε β} {b : β} (h : x >>= f = .ok b) :
    ∃ a, x = .ok a ∧ f a = .ok b := by
  cases x with
  | error err => cases h
  | ok a => exact ⟨a, rfl, h⟩

theorem bind_eq_ok_iff {x : Except ε α} {f : α → Except ε β} {b : β} :
    x >>= f = .ok b ↔ ∃ a, x = .ok a ∧ f a = .ok b :=
  ⟨bind_eq_ok, fun ⟨a, hx, hf⟩ => by rw [hx]; exact hf⟩

theorem map_eq_ok {x : Except ε α} {f : α → β} {b : β} (h : f <$> x = .ok b) :
    ∃ a, x = .ok a ∧ f a = b := by
  cases x with
  | error err => cases h
  | ok a => exact ⟨a, rfl, Except.ok.inj h⟩

/-- What is known of each element of a list, where all have succeeded. -/
theorem forall₂_of_mapM {f : α → Except ε β} {l : List α} {l' : List β} (h : l.mapM f = .ok l') :
    List.Forall₂ (fun a b => f a = .ok b) l l' := by
  induction l generalizing l' with
  | nil =>
    rw [List.mapM_nil] at h
    rw [← Except.ok.inj h]
    exact .nil
  | cons a l ih =>
    rw [List.mapM_cons] at h
    obtain ⟨b, hb, h⟩ := bind_eq_ok h
    obtain ⟨bs, hbs, h⟩ := bind_eq_ok h
    rw [← Except.ok.inj h]
    exact .cons hb (ih hbs)

/-- What a list of successes is made of. -/
theorem exists_of_mapM {f : α → Except ε β} {l : List α} {l' : List β} (h : l.mapM f = .ok l') :
    ∀ b ∈ l', ∃ a ∈ l, f a = .ok b := by
  have hforall := forall₂_of_mapM h
  clear h
  induction hforall with
  | nil => simp
  | cons hab _ ih =>
    refine List.forall_mem_cons.mpr ⟨⟨_, List.mem_cons_self, hab⟩, fun b hb => ?_⟩
    obtain ⟨a, ha, hok⟩ := ih b hb
    exact ⟨a, List.mem_cons_of_mem _ ha, hok⟩

theorem exists_mapM_ok {f : α → Except ε β} {l : List α} (h : ∀ a ∈ l, ∃ b, f a = .ok b) :
    ∃ l', l.mapM f = .ok l' := by
  induction l with
  | nil => exact ⟨[], rfl⟩
  | cons a l ih =>
    obtain ⟨b, hb⟩ := h a List.mem_cons_self
    obtain ⟨bs, hbs⟩ := ih fun a ha => h a (List.mem_cons_of_mem _ ha)
    refine ⟨b :: bs, ?_⟩
    rw [List.mapM_cons, hb, hbs]
    rfl

/-- The first element that fails. -/
theorem mapM_eq_error_iff {f : α → Except ε β} {l : List α} {err : ε} : l.mapM f = .error err ↔
    ∃ before a after, l = before ++ a :: after ∧ (∀ b ∈ before, ∃ c, f b = .ok c) ∧ f a = .error err := by
  induction l with
  | nil =>
    refine iff_of_false (fun h => by cases h) ?_
    rintro ⟨before, a, after, h, -⟩
    cases before <;> cases h
  | cons x l ih =>
    rw [List.mapM_cons]
    cases hx : f x with
    | error err' =>
      constructor
      · intro h
        exact ⟨[], x, l, rfl, fun b hb => absurd hb List.not_mem_nil, hx.trans (congrArg _ (Except.error.inj h))⟩
      · rintro ⟨before, a, after, hl, hbefore, ha⟩
        cases before with
        | nil =>
          obtain ⟨rfl, rfl⟩ := List.cons.inj hl
          exact congrArg _ (Except.error.inj (hx.symm.trans ha))
        | cons b before =>
          obtain ⟨rfl, -⟩ := List.cons.inj hl
          obtain ⟨c, hc⟩ := hbefore _ List.mem_cons_self
          cases hx.symm.trans hc
    | ok y =>
      have hrest : (do let ys ← l.mapM f; pure (y :: ys) : Except ε (List β)) = .error err ↔
          l.mapM f = .error err := by
        cases l.mapM f with
        | error err' => exact Iff.rfl
        | ok ys => exact iff_of_false (fun h => by cases h) (fun h => by cases h)
      refine hrest.trans (ih.trans ?_)
      constructor
      · rintro ⟨before, a, after, rfl, hbefore, ha⟩
        exact ⟨x :: before, a, after, rfl, List.forall_mem_cons.mpr ⟨⟨y, hx⟩, hbefore⟩, ha⟩
      · rintro ⟨before, a, after, hl, hbefore, ha⟩
        cases before with
        | nil =>
          obtain ⟨rfl, -⟩ := List.cons.inj hl
          cases hx.symm.trans ha
        | cons b before =>
          obtain ⟨rfl, rfl⟩ := List.cons.inj hl
          exact ⟨before, a, after, rfl, (List.forall_mem_cons.mp hbefore).2, ha⟩

/-- A check. -/
def require (c : Bool) (err : ε) : Except ε Unit := if c then .ok () else .error err

theorem require_ok {c : Bool} {err : ε} {u : Unit} (h : require c err = .ok u) : c = true := by
  cases c with
  | true => rfl
  | false => cases h

/-- What is found in corresponding lists, by a property that corresponds. -/
theorem find?_forall₂ {R : α → β → Prop} {p : α → Bool} {q : β → Bool}
    (hpq : ∀ a b, R a b → p a = q b) {l : List α} {l' : List β} (h : List.Forall₂ R l l') :
    Option.Rel R (l.find? p) (l'.find? q) := by
  induction h with
  | nil => exact .none
  | @cons a b l l' hab _ ih =>
    cases hp : p a with
    | true =>
      rw [List.find?_cons_of_pos hp, List.find?_cons_of_pos ((hpq a b hab).symm.trans hp)]
      exact .some hab
    | false =>
      rw [List.find?_cons_of_neg (by rw [hp]; decide),
        List.find?_cons_of_neg (by rw [← hpq a b hab, hp]; decide)]
      exact ih

end Fallible
