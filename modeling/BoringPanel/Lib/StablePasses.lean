import BoringPanel.Lib.StableSort

/-!
# Sorting by several comparisons, one after the other

A list is sorted by each of several comparisons in turn, the first of them last (`sortPasses`). If all are
strict weak orders on the list, a comparison that does not tie two elements, and after which none does,
decides their order; two elements that all comparisons tie stay as they were
(`sublist_sortPasses_iff`, `sublist_sortPasses_of_tied`). So the order of two elements does not depend on
the order in which the list came exactly if some comparison tells them apart
(`sortPasses_consistent_iff`).
-/

section StablePasses

variable {α κ : Type} {less : α → α → Bool} {l l₁ l₂ : List α} {a b : α}

/-! ### One comparison -/

theorem sublist_filter_iff {p : α → Bool} (ha : p a = true) (hb : p b = true) :
    [a, b].Sublist (l.filter p) ↔ [a, b].Sublist l := by
  constructor
  · exact fun h => h.trans List.filter_sublist
  · intro h
    have hfilter := h.filter p
    rwa [List.filter_cons_of_pos ha, List.filter_cons_of_pos hb, List.filter_nil] at hfilter

/-- Two elements of a list that are not one come in one order or the other. -/
theorem sublist_or_of_mem (ha : a ∈ l) (hb : b ∈ l) (hne : a ≠ b) : [a, b].Sublist l ∨ [b, a].Sublist l := by
  obtain ⟨l₁, l₂, rfl⟩ := List.append_of_mem ha
  rcases List.mem_append.mp hb with hb | hb
  · right
    exact (List.singleton_sublist.mpr hb).append (List.singleton_sublist.mpr List.mem_cons_self)
  · left
    have hb : b ∈ l₂ := (List.mem_cons.mp hb).resolve_left hne.symm
    exact ((List.singleton_sublist.mpr hb).cons_cons a).trans (List.sublist_append_right l₁ _)

namespace SliceStable

variable (S : SliceStable α)

/-- Ties stay as they were. -/
theorem sublist_sort_of_tied (h : StrictWeak less l) (ha : a ∈ l) (htied : tied less a b = true) :
    [a, b].Sublist (S.sort less l) ↔ [a, b].Sublist l := by
  have haa : tied less a a = true := tied_iff.mpr ⟨h.irrefl ha, h.irrefl ha⟩
  rw [← sublist_filter_iff haa htied, S.ties less l h a ha, sublist_filter_iff haa htied]

/-- What is less comes first, and nothing else of the two. -/
theorem sublist_sort_iff_of_not_tied (h : StrictWeak less l) (ha : a ∈ l) (hb : b ∈ l)
    (htied : ¬ tied less a b = true) : [a, b].Sublist (S.sort less l) ↔ less a b = true := by
  have hsorted : ∀ {x y : α}, [x, y].Sublist (S.sort less l) → less y x = false := fun hxy =>
    List.pairwise_iff_forall_sublist.mp (S.sorted less l h) hxy
  constructor
  · intro hab
    by_contra hless
    have hless : less a b = false := by simpa using hless
    exact htied (tied_iff.mpr ⟨hless, hsorted hab⟩)
  · intro hab
    have hne : a ≠ b := by
      rintro rfl
      exact Bool.false_ne_true ((h.irrefl ha).symm.trans hab)
    refine (sublist_or_of_mem (S.mem_sort_iff.mpr ha) (S.mem_sort_iff.mpr hb) hne).resolve_right fun hba => ?_
    exact Bool.false_ne_true ((hsorted hba).symm.trans hab)

end SliceStable

/-! ### All of them -/

section Passes

variable (S : SliceStable α) (less : κ → α → α → Bool) {keys : List κ}

/-- Sorts by the last key first. -/
def sortPasses (keys : List κ) (l : List α) : List α := keys.foldr (fun k l => S.sort (less k) l) l

theorem sortPasses_perm (keys : List κ) (l : List α) : (sortPasses S less keys l).Perm l := by
  induction keys with
  | nil => exact .refl l
  | cons k keys ih => exact (S.perm _ _).trans ih

variable {S less}

/-- The sort by the first key finds a list with the same elements. -/
theorem StrictWeak.sortPasses {k : κ} (h : StrictWeak (less k) l) (hperm : l₁.Perm l) :
    StrictWeak (less k) (sortPasses S less keys l₁) :=
  h.mono fun _ ha => hperm.mem_iff.mp ((sortPasses_perm S less keys l₁).mem_iff.mp ha)

/-- **Two elements that all comparisons tie** stay as they were. -/
theorem sublist_sortPasses_of_tied (hweak : ∀ k ∈ keys, StrictWeak (less k) l) (hperm : l₁.Perm l)
    (ha : a ∈ l) (htied : ∀ k ∈ keys, tied (less k) a b = true) :
    [a, b].Sublist (sortPasses S less keys l₁) ↔ [a, b].Sublist l₁ := by
  induction keys with
  | nil => exact Iff.rfl
  | cons k keys ih =>
    obtain ⟨hk, hkeys⟩ := List.forall_mem_cons.mp hweak
    obtain ⟨htk, htkeys⟩ := List.forall_mem_cons.mp htied
    have hmem : a ∈ sortPasses S less keys l₁ :=
      ((sortPasses_perm S less keys l₁).trans hperm).mem_iff.mpr ha
    calc [a, b].Sublist (S.sort (less k) (sortPasses S less keys l₁))
        ↔ [a, b].Sublist (sortPasses S less keys l₁) :=
          S.sublist_sort_of_tied (hk.sortPasses hperm) hmem htk
      _ ↔ [a, b].Sublist l₁ := ih hkeys htkeys

/-- **Two elements that some comparison tells apart** come in an order that the list does not decide. -/
theorem sublist_sortPasses_iff {S' : SliceStable α} (hweak : ∀ k ∈ keys, StrictWeak (less k) l)
    (hperm₁ : l₁.Perm l) (hperm₂ : l₂.Perm l) (ha : a ∈ l) (hb : b ∈ l)
    (happart : ∃ k ∈ keys, ¬ tied (less k) a b = true) :
    [a, b].Sublist (sortPasses S less keys l₁) ↔ [a, b].Sublist (sortPasses S' less keys l₂) := by
  induction keys with
  | nil =>
    obtain ⟨k, hk, -⟩ := happart
    exact absurd hk List.not_mem_nil
  | cons k keys ih =>
    obtain ⟨hk, hkeys⟩ := List.forall_mem_cons.mp hweak
    have hmem₁ : ∀ x ∈ l, x ∈ sortPasses S less keys l₁ := fun x hx =>
      ((sortPasses_perm S less keys l₁).trans hperm₁).mem_iff.mpr hx
    have hmem₂ : ∀ x ∈ l, x ∈ sortPasses S' less keys l₂ := fun x hx =>
      ((sortPasses_perm S' less keys l₂).trans hperm₂).mem_iff.mpr hx
    by_cases htied : tied (less k) a b = true
    · -- the last sort leaves the two as they are, and an earlier one has told them apart
      have happart : ∃ k ∈ keys, ¬ tied (less k) a b = true := by
        obtain ⟨k', hk', hnot⟩ := happart
        rcases List.mem_cons.mp hk' with rfl | hk'
        · exact absurd htied hnot
        · exact ⟨k', hk', hnot⟩
      calc [a, b].Sublist (S.sort (less k) (sortPasses S less keys l₁))
          ↔ [a, b].Sublist (sortPasses S less keys l₁) :=
            S.sublist_sort_of_tied (hk.sortPasses hperm₁) (hmem₁ a ha) htied
        _ ↔ [a, b].Sublist (sortPasses S' less keys l₂) := ih hkeys happart
        _ ↔ [a, b].Sublist (S'.sort (less k) (sortPasses S' less keys l₂)) :=
            (S'.sublist_sort_of_tied (hk.sortPasses hperm₂) (hmem₂ a ha) htied).symm
    · calc [a, b].Sublist (S.sort (less k) (sortPasses S less keys l₁))
          ↔ less k a b = true :=
            S.sublist_sort_iff_of_not_tied (hk.sortPasses hperm₁) (hmem₁ a ha) (hmem₁ b hb) htied
        _ ↔ [a, b].Sublist (S'.sort (less k) (sortPasses S' less keys l₂)) :=
            (S'.sublist_sort_iff_of_not_tied (hk.sortPasses hperm₂) (hmem₂ a ha) (hmem₂ b hb) htied).symm

/-- One element before all others, and after them. -/
theorem exists_perms (ha : a ∈ l) (hb : b ∈ l) (hne : a ≠ b) :
    ∃ l₁ l₂ : List α, l₁.Perm l ∧ l₂.Perm l ∧ [a, b].Sublist l₁ ∧ ¬ [a, b].Sublist l₂ := by
  classical
  have hmem : b ∈ l.filter fun x => !decide (x = a) := List.mem_filter.mpr ⟨hb, by simp [hne.symm]⟩
  have hself : a ∈ l.filter fun x => decide (x = a) := List.mem_filter.mpr ⟨ha, by simp⟩
  refine ⟨_, _, List.filter_append_perm (fun x => decide (x = a)) l,
    List.perm_append_comm.trans (List.filter_append_perm (fun x => decide (x = a)) l), ?_, ?_⟩
  · exact (List.singleton_sublist.mpr hself).append (List.singleton_sublist.mpr hmem)
  · intro h
    -- nothing but `a` comes after it
    obtain ⟨s, t, hst, hs, ht⟩ := List.sublist_append_iff.mp h
    have hnot : a ∉ s := fun has => by simpa using (List.mem_filter.mp (hs.subset has)).2
    have hnil : s = [] := by
      cases s with
      | nil => rfl
      | cons x s =>
        obtain rfl : a = x := (List.cons.inj hst).1
        exact absurd List.mem_cons_self hnot
    rw [hnil, List.nil_append] at hst
    have hbt := ht.subset (hst ▸ List.mem_cons_of_mem a List.mem_cons_self)
    have hba : b = a := by simpa using (List.mem_filter.mp hbt).2
    exact hne hba.symm

/-- **The order of different elements does not depend on the order of the list** exactly if some comparison
tells them apart. -/
theorem sortPasses_consistent_iff (hweak : ∀ k ∈ keys, StrictWeak (less k) l) (differ : α → α → Prop)
    (hdiffer : ∀ a, ¬ differ a a) :
    (∀ S : SliceStable α, ∀ l₁ l₂ : List α, l₁.Perm l → l₂.Perm l → ∀ a ∈ l, ∀ b ∈ l, differ a b →
      ([a, b].Sublist (sortPasses S less keys l₁) ↔ [a, b].Sublist (sortPasses S less keys l₂))) ↔
      ∀ a ∈ l, ∀ b ∈ l, differ a b → ∃ k ∈ keys, less k a b = true ∨ less k b a = true := by
  have htied : ∀ {k : κ} {a b : α}, ¬ tied (less k) a b = true ↔ less k a b = true ∨ less k b a = true := by
    intro k a b
    rw [tied_iff]
    cases less k a b <;> simp
  constructor
  · intro hall a ha b hb hab
    by_contra hnone
    push Not at hnone
    have htie : ∀ k ∈ keys, tied (less k) a b = true := by
      intro k hk
      by_contra hnot
      exact (htied.mp hnot).elim (hnone k hk).1 (hnone k hk).2
    have hne : a ≠ b := by
      rintro rfl
      exact hdiffer a hab
    obtain ⟨l₁, l₂, hperm₁, hperm₂, hfirst, hlast⟩ := exists_perms ha hb hne
    have hboth := hall (.insertion α) l₁ l₂ hperm₁ hperm₂ a ha b hb hab
    rw [sublist_sortPasses_of_tied hweak hperm₁ ha htie,
      sublist_sortPasses_of_tied hweak hperm₂ ha htie] at hboth
    exact hlast (hboth.mp hfirst)
  · intro hall S l₁ l₂ hperm₁ hperm₂ a ha b hb hab
    obtain ⟨k, hk, hless⟩ := hall a ha b hb hab
    exact sublist_sortPasses_iff hweak hperm₁ hperm₂ ha hb ⟨k, hk, htied.mpr hless⟩

end Passes

end StablePasses
