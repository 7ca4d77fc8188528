import Mathlib.Data.List.Forall2

/-!
# Loops that rewrite a slice

A loop over the elements of a slice that rewrites each of them, with a variable that it carries along
(`mapState`). Where the elements are slices themselves and the loop over them is such a loop again, the
nested loops rewrite what all of them hold as one loop would (`Rewrites.nested`). A loop whose body may
fail gives a list if it fails for none of them (`exists_mapM_iff`).
-/

section MapState

variable {σ α β : Type}

/-- `for i := range l { l[i] = … }` with a variable. -/
def mapState (f : σ → α → σ × α) (s : σ) : List α → σ × List α
  | [] => (s, [])
  | a :: l =>
    let next := f s a
    let rest := mapState f next.1 l
    (rest.1, next.2 :: rest.2)

/-- An element that holds a list: the step for it rewrites the list as the loop with `f` does. -/
structure Rewrites (f : σ → α → σ × α) (held : β → List α) (step : σ → β → σ × β) : Prop where
  state : ∀ s b, (step s b).1 = (mapState f s (held b)).1
  held : ∀ s b, held (step s b).2 = (mapState f s (held b)).2

theorem mapState_append (f : σ → α → σ × α) (s : σ) (l l' : List α) :
    mapState f s (l ++ l') =
      ((mapState f (mapState f s l).1 l').1,
        (mapState f s l).2 ++ (mapState f (mapState f s l).1 l').2) := by
  induction l generalizing s with
  | nil => rfl
  | cons a l ih => simp only [List.cons_append, mapState, ih]

/-- **Nested loops** are one loop over what the elements hold. -/
theorem Rewrites.nested {f : σ → α → σ × α} {held : β → List α} {step : σ → β → σ × β}
    (h : Rewrites f held step) :
    Rewrites f (fun bs : List β => bs.flatMap held) (mapState step) := by
  have hboth : ∀ (bs : List β) (s : σ),
      (mapState step s bs).1 = (mapState f s (bs.flatMap held)).1 ∧
      (mapState step s bs).2.flatMap held = (mapState f s (bs.flatMap held)).2 := by
    intro bs
    induction bs with
    | nil => exact fun _ => ⟨rfl, rfl⟩
    | cons b bs ih =>
      intro s
      obtain ⟨hstate, hheld⟩ := ih (step s b).1
      rw [List.flatMap_cons, mapState_append]
      simp only [mapState, List.flatMap_cons, h.held, ← h.state]
      exact ⟨hstate, by rw [hheld]⟩
  exact ⟨fun s bs => (hboth bs s).1, fun s bs => (hboth bs s).2⟩

/-- A loop over the elements of an element. -/
theorem Rewrites.field {f : σ → α → σ × α} {γ : Type} {held : γ → List α} {step : σ → γ → σ × γ}
    (h : Rewrites f held step) (get : β → γ) (set : β → γ → β) (hget : ∀ b c, get (set b c) = c) :
    Rewrites f (fun b => held (get b)) fun s b => ((step s (get b)).1, set b (step s (get b)).2) where
  state := fun s b => h.state s (get b)
  held := fun s b => by
    show held (get (set b (step s (get b)).2)) = _
    rw [hget, h.held]

theorem Rewrites.refl (f : σ → α → σ × α) :
    Rewrites f (fun l : List α => l) (mapState f) := ⟨fun _ _ => rfl, fun _ _ => rfl⟩

theorem mapM_eq_some_iff {f : α → Option β} {l : List α} {l' : List β} :
    l.mapM f = some l' ↔ List.Forall₂ (fun a b => f a = some b) l l' := by
  induction l generalizing l' with
  | nil =>
    rw [List.mapM_nil, List.forall₂_nil_left_iff]
    exact ⟨fun h => (Option.some.inj h).symm, fun h => h ▸ rfl⟩
  | cons a l ih =>
    rw [List.mapM_cons, List.forall₂_cons_left_iff]
    simp only [Option.bind_eq_bind, Option.bind_eq_some_iff, Option.pure_def, Option.some.injEq, ih]
    constructor
    · rintro ⟨b, hb, bs, hbs, rfl⟩
      exact ⟨b, bs, hb, hbs, rfl⟩
    · rintro ⟨b, bs, hb, hbs, rfl⟩
      exact ⟨b, hb, bs, hbs, rfl⟩

/-- What the loop gives for an element, and what is known of it. -/
theorem exists_of_mem_mapM {f : α → Option β} {R : α → β → Prop} {l : List α} {l' : List β} {a : α}
    (h : l.mapM f = some l') (hR : List.Forall₂ R l l') (ha : a ∈ l) : ∃ b, f a = some b ∧ R a b := by
  have hf := mapM_eq_some_iff.mp h
  induction hR with
  | nil => exact absurd ha List.not_mem_nil
  | cons hRb hR ih =>
    obtain ⟨hb, hf⟩ := List.forall₂_cons.mp hf
    rcases List.mem_cons.mp ha with rfl | ha
    · exact ⟨_, hb, hRb⟩
    · exact ih (mapM_eq_some_iff.mpr hf) ha hf

/-- **The loop ends with what is wanted** of each element if its body does. -/
theorem exists_mapM_iff {f : α → Option β} {R : α → β → Prop} {l : List α} :
    (∃ l', l.mapM f = some l' ∧ List.Forall₂ R l l') ↔ ∀ a ∈ l, ∃ b, f a = some b ∧ R a b := by
  constructor
  · rintro ⟨l', hl', hR⟩ a ha
    exact exists_of_mem_mapM hl' hR ha
  · intro h
    induction l with
    | nil => exact ⟨[], rfl, .nil⟩
    | cons a l ih =>
      obtain ⟨⟨b, hb, hRb⟩, hl⟩ := List.forall_mem_cons.mp h
      obtain ⟨l', hl', hR⟩ := ih hl
      exact ⟨b :: l', mapM_eq_some_iff.mpr (.cons hb (mapM_eq_some_iff.mp hl')), .cons hRb hR⟩

theorem mapM_ne_none_iff {f : α → Option β} {l : List α} : l.mapM f ≠ none ↔ ∀ a ∈ l, f a ≠ none := by
  have hsome : (∃ l', l.mapM f = some l' ∧ List.Forall₂ (fun a b => f a = some b) l l') ↔
      ∀ a ∈ l, ∃ b, f a = some b ∧ f a = some b := exists_mapM_iff
  simp only [← mapM_eq_some_iff, and_self] at hsome
  simp only [Option.ne_none_iff_exists']
  exact hsome

/-- Each element of the result comes from one of the list. -/
theorem exists_of_mem_result {f : α → Option β} {l : List α} {l' : List β} {b : β}
    (h : l.mapM f = some l') (hb : b ∈ l') : ∃ a ∈ l, f a = some b := by
  have hf := mapM_eq_some_iff.mp h
  clear h
  induction hf with
  | nil => exact absurd hb List.not_mem_nil
  | cons hfb hf ih =>
    rcases List.mem_cons.mp hb with rfl | hb
    · exact ⟨_, List.mem_cons_self, hfb⟩
    · obtain ⟨a, ha, hfa⟩ := ih hb
      exact ⟨a, List.mem_cons_of_mem _ ha, hfa⟩

end MapState
