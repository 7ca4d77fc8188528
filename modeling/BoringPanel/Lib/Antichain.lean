import Mathlib.Data.List.Induction

/-!
# The greatest elements of a list, greedily

A list whose elements come in descending size is walked once, and an element is kept unless one that is
kept is above it (`keepGreatest`). Where an element below another one is smaller or below it the other way
round as well (`SizedOrder`), no kept element is below another one, and each element is below one that is
kept (`KeptGreatest`, `keptGreatest_keepGreatest`).
-/

section Antichain

variable {α : Type} {le : α → α → Bool} {size : α → ℕ}

/-- Keeps an element that no kept one is above. -/
def keepAbove (le : α → α → Bool) (kept : List α) (a : α) : List α :=
  if kept.any (le a) then kept else kept ++ [a]

def keepGreatest (le : α → α → Bool) (l : List α) : List α := l.foldl (keepAbove le) []

/-- An order that the size follows. -/
structure SizedOrder (le : α → α → Bool) (size : α → ℕ) : Prop where
  refl : ∀ a, le a a = true
  trans : ∀ a b c, le a b = true → le b c = true → le a c = true
  size_le : ∀ a b, le a b = true → size a ≤ size b
  symm_of_size : ∀ a b, le a b = true → size b ≤ size a → le b a = true

/-- What has been kept of the elements seen so far. -/
structure KeptGreatest (le : α → α → Bool) (seen kept : List α) : Prop where
  subset : ∀ a ∈ kept, a ∈ seen
  incomparable : kept.Pairwise fun a b => le a b = false ∧ le b a = false
  covers : ∀ a ∈ seen, ∃ b ∈ kept, le a b = true

theorem KeptGreatest.step (horder : SizedOrder le size) {seen kept : List α} {a : α}
    (h : KeptGreatest le seen kept) (hsize : ∀ b ∈ seen, size a ≤ size b) :
    KeptGreatest le (seen ++ [a]) (keepAbove le kept a) := by
  unfold keepAbove
  by_cases habove : kept.any (le a) = true
  · rw [if_pos habove]
    refine ⟨fun b hb => List.mem_append_left _ (h.subset b hb), h.incomparable, fun b hb => ?_⟩
    rcases List.mem_append.mp hb with hb | hb
    · exact h.covers b hb
    · rw [List.mem_singleton.mp hb]
      exact List.any_eq_true.mp habove
  · rw [if_neg habove]
    have hnot : ∀ b ∈ kept, le a b = false := by
      intro b hb
      rw [← Bool.not_eq_true]
      exact fun hab => habove (List.any_eq_true.mpr ⟨b, hb, hab⟩)
    refine ⟨fun b hb => ?_, ?_, fun b hb => ?_⟩
    · rcases List.mem_append.mp hb with hb | hb
      · exact List.mem_append_left _ (h.subset b hb)
      · exact List.mem_append_right _ hb
    · refine List.pairwise_append.mpr ⟨h.incomparable, List.pairwise_singleton _ _, fun b hb c hc => ?_⟩
      rw [List.mem_singleton.mp hc]
      refine ⟨?_, hnot b hb⟩
      -- a kept element below the new one would be of its size, and above it
      rw [← Bool.not_eq_true]
      intro hba
      have hab := horder.symm_of_size b a hba (hsize b (h.subset b hb))
      exact absurd hab (by simp [hnot b hb])
    · rcases List.mem_append.mp hb with hb | hb
      · obtain ⟨c, hc, hbc⟩ := h.covers b hb
        exact ⟨c, List.mem_append_left _ hc, hbc⟩
      · rw [List.mem_singleton.mp hb]
        exact ⟨a, List.mem_append_right _ (List.mem_singleton_self a), horder.refl a⟩

/-- **The greatest elements** of a list in descending size. -/
theorem keptGreatest_keepGreatest (horder : SizedOrder le size) {l : List α}
    (hsorted : l.Pairwise fun a b => size b ≤ size a) : KeptGreatest le l (keepGreatest le l) := by
  induction l using List.reverseRecOn with
  | nil => exact ⟨List.forall_mem_nil _, List.Pairwise.nil, List.forall_mem_nil _⟩
  | append_singleton l a ih =>
    obtain ⟨hl, -, hla⟩ := List.pairwise_append.mp hsorted
    rw [keepGreatest, List.foldl_append, List.foldl_cons, List.foldl_nil]
    exact (ih hl).step horder fun b hb => hla b hb a (List.mem_singleton_self a)

end Antichain
