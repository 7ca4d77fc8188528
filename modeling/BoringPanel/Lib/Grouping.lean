import Mathlib.Data.Finset.Card

/-!
# Grouping a list by a key, in order of first occurrence

A list is grouped by a function `f`: `keysOf f l` lists the distinct keys, each where it first
occurs, and `members f l k` the elements with key `k` in list order. Two results are what users
of a grouping loop need:

* `keysOf_comp` — recoding the keys by a function that is injective on the keys that occur
  changes neither the number of groups, nor their order, nor their members;
* `length_keysOf_comp_iff` — and it is the only way to keep the number of groups: a recoding
  that merges two keys that occur loses a group.
-/

namespace Grouping

variable {α κ μ : Type*} [DecidableEq κ] [DecidableEq μ]

/-- The distinct keys of a list, each where it first occurs. -/
def keysOf (f : α → κ) (l : List α) : List κ := (l.map f).eraseDups

/-- The elements with key `k`, in list order. -/
def members (f : α → κ) (l : List α) (k : κ) : List α := l.filter (fun a => f a = k)

/-! ### One element more -/

@[simp] theorem mem_keysOf {f : α → κ} {l : List α} {k : κ} :
    k ∈ keysOf f l ↔ ∃ a ∈ l, f a = k := by
  simp [keysOf, List.mem_eraseDups]

@[simp] theorem mem_members {f : α → κ} {l : List α} {k : κ} {a : α} :
    a ∈ members f l k ↔ a ∈ l ∧ f a = k := by
  simp [members]

theorem keysOf_append_singleton (f : α → κ) (l : List α) (a : α) :
    keysOf f (l ++ [a]) = if f a ∈ keysOf f l then keysOf f l else keysOf f l ++ [f a] := by
  unfold keysOf
  rw [List.map_append, List.map_singleton, List.eraseDups_append]
  by_cases h : f a ∈ l.map f
  · have hrest : [f a].removeAll (l.map f) = [] := by
      rw [List.removeAll, List.filter_cons_of_neg (by simpa using h), List.filter_nil]
    rw [if_pos (List.mem_eraseDups.mpr h), hrest, List.eraseDups_nil, List.append_nil]
  · have hrest : [f a].removeAll (l.map f) = [f a] := by
      rw [List.removeAll, List.filter_cons_of_pos (by simpa using h), List.filter_nil]
    rw [if_neg (fun hc => h (List.mem_eraseDups.mp hc)), hrest]
    simp [List.eraseDups_cons]

theorem members_append_singleton (f : α → κ) (l : List α) (a : α) (k : κ) :
    members f (l ++ [a]) k = if f a = k then members f l k ++ [a] else members f l k := by
  unfold members
  rw [List.filter_append]
  by_cases h : f a = k <;> simp [h]

theorem members_ne_nil {f : α → κ} {l : List α} {k : κ} (h : k ∈ keysOf f l) :
    members f l k ≠ [] := by
  obtain ⟨a, ha, hk⟩ := mem_keysOf.mp h
  exact List.ne_nil_of_mem (mem_members.mpr ⟨ha, hk⟩)

/-! ### Grouping the images of a list -/

theorem keysOf_congr {f g : α → κ} {l : List α} (h : ∀ a ∈ l, f a = g a) :
    keysOf f l = keysOf g l := by
  unfold keysOf
  rw [List.map_congr_left h]

theorem members_congr {f g : α → κ} {l : List α} (h : ∀ a ∈ l, f a = g a) (k : κ) :
    members f l k = members g l k := by
  unfold members
  exact List.filter_congr (fun a ha => by rw [h a ha])

theorem keysOf_map {β : Type*} (f : β → κ) (g : α → β) (l : List α) :
    keysOf f (l.map g) = keysOf (f ∘ g) l := by
  unfold keysOf
  rw [List.map_map]

theorem members_map {β : Type*} (f : β → κ) (g : α → β) (l : List α) (k : κ) :
    members f (l.map g) k = (members (f ∘ g) l k).map g := by
  unfold members
  rw [List.filter_map]
  rfl

/-! ### Recoding the keys -/

theorem eraseDups_map (φ : κ → μ) :
    ∀ l : List κ, Set.InjOn φ {k | k ∈ l} → (l.map φ).eraseDups = l.eraseDups.map φ := by
  intro l
  induction hn : l.length using Nat.strong_induction_on generalizing l with
  | _ n ih =>
    intro hinj
    cases l with
    | nil => rfl
    | cons a t =>
      rw [List.map_cons, List.eraseDups_cons, List.eraseDups_cons, List.map_cons,
        List.filter_map]
      have hfilter : t.filter ((fun b => !b == φ a) ∘ φ) = t.filter (fun b => !b == a) := by
        refine List.filter_congr (fun b hb => ?_)
        have hiff : φ b = φ a ↔ b = a :=
          ⟨fun h => hinj (List.mem_cons_of_mem a hb) List.mem_cons_self h, fun h => by rw [h]⟩
        by_cases hba : b = a <;> simp [hba, hiff]
      rw [hfilter, ih (t.filter (fun b => !b == a)).length ?_ _ rfl ?_]
      · have := List.length_filter_le (fun b => !b == a) t
        simp only [List.length_cons] at hn
        omega
      · exact hinj.mono (fun b hb => List.mem_cons_of_mem a (List.mem_filter.mp hb).1)

/-- Recoding the keys by a function that is injective where it matters recodes the groups. -/
theorem keysOf_comp (f : α → κ) (φ : κ → μ) (l : List α)
    (hφ : Set.InjOn φ {k | k ∈ keysOf f l}) :
    keysOf (φ ∘ f) l = (keysOf f l).map φ := by
  unfold keysOf
  rw [← List.map_map, eraseDups_map φ]
  intro a ha b hb h
  refine hφ ?_ ?_ h
  · exact List.mem_eraseDups.mpr ha
  · exact List.mem_eraseDups.mpr hb

theorem members_comp (f : α → κ) (φ : κ → μ) (l : List α)
    (hφ : Set.InjOn φ {k | k ∈ keysOf f l}) {k : κ} (hk : k ∈ keysOf f l) :
    members (φ ∘ f) l (φ k) = members f l k := by
  unfold members
  refine List.filter_congr (fun a ha => ?_)
  have hiff : φ (f a) = φ k ↔ f a = k :=
    ⟨fun h => hφ (mem_keysOf.mpr ⟨a, ha, rfl⟩) hk h, fun h => by rw [h]⟩
  simp [hiff]

theorem nodup_eraseDups : ∀ l : List κ, l.eraseDups.Nodup := by
  intro l
  induction hn : l.length using Nat.strong_induction_on generalizing l with
  | _ n ih =>
    cases l with
    | nil => simp
    | cons a t =>
      rw [List.eraseDups_cons, List.nodup_cons]
      refine ⟨fun hmem => ?_, ih _ ?_ _ rfl⟩
      · have := (List.mem_filter.mp (List.mem_eraseDups.mp hmem)).2
        simp at this
      · have := List.length_filter_le (fun b => !b == a) t
        simp only [List.length_cons] at hn
        omega

theorem nodup_keysOf (f : α → κ) (l : List α) : (keysOf f l).Nodup := nodup_eraseDups _

theorem length_keysOf (f : α → κ) (l : List α) :
    (keysOf f l).length = (keysOf f l).toFinset.card :=
  (List.toFinset_card_of_nodup (nodup_keysOf f l)).symm

/-- **A recoding keeps the number of groups exactly when it is injective on the keys that
occur.** -/
theorem length_keysOf_comp_iff (f : α → κ) (φ : κ → μ) (l : List α) :
    (keysOf (φ ∘ f) l).length = (keysOf f l).length ↔ Set.InjOn φ {k | k ∈ keysOf f l} := by
  have himage : (keysOf (φ ∘ f) l).toFinset = (keysOf f l).toFinset.image φ := by
    ext m
    simp only [List.mem_toFinset, mem_keysOf, Finset.mem_image, Function.comp_apply]
    constructor
    · rintro ⟨a, ha, rfl⟩
      exact ⟨f a, ⟨a, ha, rfl⟩, rfl⟩
    · rintro ⟨_, ⟨a, ha, rfl⟩, rfl⟩
      exact ⟨a, ha, rfl⟩
  have hcoe : (↑(keysOf f l).toFinset : Set κ) = {k | k ∈ keysOf f l} := by
    ext k
    simp
  rw [length_keysOf, length_keysOf, himage, Finset.card_image_iff, hcoe]

end Grouping
