import Mathlib.Data.List.Basic
import Mathlib.Order.Lattice
import Mathlib.Data.List.Pairwise

/-!
# Maps as entries in the order of their keys

A finite map as the list of its entries, sorted by key, so that two maps with the same lookups are
the same list. The lists stand on their own, without the proof that they are sorted, so that a tree
may have such a map in its nodes; the lemmas on `get` need no order.

* `get`, `insert`, `filterKeys`: a lookup, an assignment, the entries of some keys.
* `Sorted`: the keys increase; every operation keeps it.
* `ext_get`: sorted entries are determined by their lookups.
-/

namespace OrderedEntries

variable {κ V : Type} [LinearOrder κ]

/-- The value of a key. -/
def get (k : κ) : List (κ × V) → Option V
  | [] => none
  | (j, v) :: l => if j = k then some v else get k l

/-- The entries with the value of a key set. -/
def insert (k : κ) (v : V) : List (κ × V) → List (κ × V)
  | [] => [(k, v)]
  | (j, w) :: l =>
    if k < j then (k, v) :: (j, w) :: l
    else if j = k then (k, v) :: l
    else (j, w) :: insert k v l

/-- The entries whose key is kept. -/
def filterKeys (p : κ → Bool) (l : List (κ × V)) : List (κ × V) := l.filter fun e => p e.1

/-- One entry after the other is set. -/
def insertAll (new l : List (κ × V)) : List (κ × V) := new.foldl (fun l e => insert e.1 e.2 l) l

def Sorted (l : List (κ × V)) : Prop := l.Pairwise fun a b => a.1 < b.1

/-! ### Lookups -/

@[simp] theorem get_nil (k : κ) : get k ([] : List (κ × V)) = none := rfl

theorem get_cons (k j : κ) (v : V) (l : List (κ × V)) :
    get k ((j, v) :: l) = if j = k then some v else get k l := rfl

theorem get_insert (k j : κ) (v : V) (l : List (κ × V)) :
    get j (insert k v l) = if k = j then some v else get j l := by
  induction l with
  | nil => rfl
  | cons e l ih =>
    obtain ⟨i, w⟩ := e
    by_cases hlt : k < i
    · rw [insert, if_pos hlt, get_cons]
    rw [insert, if_neg hlt]
    by_cases heq : i = k
    · rw [if_pos heq, get_cons, get_cons, heq]
      by_cases hkj : k = j
      · rw [if_pos hkj, if_pos hkj]
      · rw [if_neg hkj, if_neg hkj, if_neg hkj]
    · rw [if_neg heq, get_cons, get_cons, ih]
      by_cases hij : i = j
      · rw [if_pos hij, if_neg fun hkj => heq (hij.trans hkj.symm), if_pos hij]
      · rw [if_neg hij, if_neg hij]

@[simp] theorem get_insert_self (k : κ) (v : V) (l : List (κ × V)) :
    get k (insert k v l) = some v := by
  rw [get_insert, if_pos rfl]

theorem get_insert_of_ne {k j : κ} (h : k ≠ j) (v : V) (l : List (κ × V)) :
    get j (insert k v l) = get j l := by
  rw [get_insert, if_neg h]

theorem get_filterKeys (p : κ → Bool) (k : κ) (l : List (κ × V)) :
    get k (filterKeys p l) = if p k then get k l else none := by
  induction l with
  | nil => simp [filterKeys]
  | cons e l ih =>
    obtain ⟨j, v⟩ := e
    rw [filterKeys] at ih
    by_cases hp : p j
    · rw [filterKeys, List.filter_cons_of_pos (by simpa using hp), get_cons, get_cons, ih]
      by_cases hj : j = k
      · subst hj
        simp [hp]
      · simp [hj]
    · rw [filterKeys, List.filter_cons_of_neg (by simpa using hp), get_cons, ih]
      by_cases hj : j = k
      · subst hj
        simp [hp]
      · simp [hj]

theorem get_map {W : Type} (f : V → W) (k : κ) (l : List (κ × V)) :
    get k (l.map fun e => (e.1, f e.2)) = (get k l).map f := by
  induction l with
  | nil => rfl
  | cons e l ih =>
    obtain ⟨j, v⟩ := e
    rw [List.map_cons, get_cons, get_cons, ih]
    by_cases hj : j = k
    · rw [if_pos hj, if_pos hj, Option.map_some]
    · rw [if_neg hj, if_neg hj]

theorem get_eq_none_iff {k : κ} {l : List (κ × V)} : get k l = none ↔ k ∉ l.map Prod.fst := by
  induction l with
  | nil => simp
  | cons e l ih =>
    obtain ⟨j, v⟩ := e
    rw [get_cons]
    by_cases hj : j = k
    · simp [hj]
    · simp [hj, ih, Ne.symm hj]

theorem mem_of_get {k : κ} {v : V} {l : List (κ × V)} (h : get k l = some v) : (k, v) ∈ l := by
  induction l with
  | nil => cases h
  | cons e l ih =>
    obtain ⟨j, w⟩ := e
    rw [get_cons] at h
    split at h
    · rename_i hj
      obtain rfl := Option.some.inj h
      simp [hj]
    · exact List.mem_cons_of_mem _ (ih h)

theorem mem_insert {k : κ} {v : V} {e : κ × V} {l : List (κ × V)} (h : e ∈ insert k v l) :
    e = (k, v) ∨ e ∈ l := by
  induction l with
  | nil => exact Or.inl (List.mem_singleton.mp h)
  | cons a l ih =>
    obtain ⟨j, w⟩ := a
    rw [insert] at h
    split_ifs at h with hlt heq
    · exact (List.mem_cons.mp h).imp_right id
    · exact (List.mem_cons.mp h).imp_right (List.mem_cons_of_mem _)
    · rcases List.mem_cons.mp h with rfl | h
      · exact Or.inr List.mem_cons_self
      · exact (ih h).imp_right (List.mem_cons_of_mem _)

theorem get_insertAll {new : List (κ × V)} (hnew : (new.map Prod.fst).Nodup) (k : κ)
    (l : List (κ × V)) :
    get k (insertAll new l) = (get k new).or (get k l) := by
  induction new generalizing l with
  | nil => rfl
  | cons e new ih =>
    obtain ⟨j, v⟩ := e
    rw [List.map_cons, List.nodup_cons] at hnew
    rw [insertAll, List.foldl_cons]
    change get k (insertAll new (insert j v l)) = _
    rw [ih hnew.2, get_insert, get_cons]
    by_cases hj : j = k
    · subst hj
      simp [get_eq_none_iff.mpr hnew.1]
    · simp [hj]

/-- The keys of two lists side by side have the values beside them, where no key is there twice. -/
theorem forall₂_get_zip {l : List (κ × V)} {ks : List κ} : ∀ {vs : List V}, ks.length = vs.length →
    ks.Nodup → (∀ k ∈ ks, get k l = get k (ks.zip vs)) →
    List.Forall₂ (fun k v => get k l = some v) ks vs := by
  induction ks with
  | nil =>
    intro vs hlength _ _
    rw [List.eq_nil_of_length_eq_zero hlength.symm]
    exact .nil
  | cons k ks ih =>
    intro vs hlength hnodup hget
    cases vs with
    | nil => cases hlength
    | cons v vs =>
      obtain ⟨hk, hnodup⟩ := List.nodup_cons.mp hnodup
      refine .cons ?_ (ih (Nat.succ.inj hlength) hnodup fun j hj => ?_)
      · rw [hget k List.mem_cons_self, List.zip_cons_cons, get_cons, if_pos rfl]
      · rw [hget j (List.mem_cons_of_mem _ hj), List.zip_cons_cons, get_cons,
          if_neg fun heq : k = j => hk (heq ▸ hj)]

theorem mem_insertAll {new l : List (κ × V)} {e : κ × V} (h : e ∈ insertAll new l) :
    e ∈ new ∨ e ∈ l := by
  induction new generalizing l with
  | nil => exact Or.inr h
  | cons a new ih =>
    rcases ih (l := insert a.1 a.2 l) h with h | h
    · exact Or.inl (List.mem_cons_of_mem _ h)
    · rcases mem_insert h with rfl | h
      · exact Or.inl List.mem_cons_self
      · exact Or.inr h

/-! ### Sorted entries -/

theorem sorted_nil : Sorted ([] : List (κ × V)) := List.Pairwise.nil

theorem Sorted.insert {l : List (κ × V)} (h : Sorted l) (k : κ) (v : V) :
    Sorted (insert k v l) := by
  induction l with
  | nil => exact List.pairwise_singleton _ _
  | cons e l ih =>
    obtain ⟨j, w⟩ := e
    have hj : ∀ b ∈ l, j < b.1 := (List.pairwise_cons.mp h).1
    have hl : Sorted l := (List.pairwise_cons.mp h).2
    rw [OrderedEntries.insert]
    split_ifs with hlt heq
    · refine List.pairwise_cons.mpr ⟨fun b hb => ?_, h⟩
      rcases List.mem_cons.mp hb with rfl | hb
      · exact hlt
      · exact hlt.trans (hj b hb)
    · exact List.pairwise_cons.mpr ⟨fun b hb => heq ▸ hj b hb, hl⟩
    · refine List.pairwise_cons.mpr ⟨fun b hb => ?_, ih hl⟩
      rcases mem_insert hb with rfl | hb
      · exact lt_of_le_of_ne (not_lt.mp hlt) heq
      · exact hj b hb

theorem Sorted.filterKeys {l : List (κ × V)} (h : Sorted l) (p : κ → Bool) :
    Sorted (filterKeys p l) := List.Pairwise.filter _ h

theorem Sorted.insertAll {l : List (κ × V)} (h : Sorted l) (new : List (κ × V)) :
    Sorted (insertAll new l) := by
  induction new generalizing l with
  | nil => exact h
  | cons e new ih => exact ih (h.insert e.1 e.2)

theorem Sorted.nodup {l : List (κ × V)} (h : Sorted l) : (l.map Prod.fst).Nodup :=
  List.pairwise_map.mpr (h.imp fun hlt => hlt.ne)

theorem get_of_mem {k : κ} {v : V} {l : List (κ × V)} (h : Sorted l) (hmem : (k, v) ∈ l) :
    get k l = some v := by
  induction l with
  | nil => cases hmem
  | cons e l ih =>
    obtain ⟨j, w⟩ := e
    obtain ⟨hj, hl⟩ := List.pairwise_cons.mp h
    rw [get_cons]
    rcases List.mem_cons.mp hmem with heq | hmem
    · obtain ⟨rfl, rfl⟩ := Prod.mk.inj heq
      exact if_pos rfl
    · rw [if_neg (hj _ hmem).ne, ih hl hmem]

/-- Sorted entries with the same lookups are the same. -/
theorem ext_get {l l' : List (κ × V)} (h : Sorted l) (h' : Sorted l')
    (hget : ∀ k, get k l = get k l') : l = l' := by
  have hmem : ∀ e, e ∈ l ↔ e ∈ l' := fun e =>
    ⟨fun he => mem_of_get (hget e.1 ▸ get_of_mem h he),
      fun he => mem_of_get ((hget e.1).symm ▸ get_of_mem h' he)⟩
  have hperm : l.Perm l' := by
    refine (List.perm_ext_iff_of_nodup ?_ ?_).mpr hmem
    · exact h.imp fun hlt heq => hlt.ne (congrArg Prod.fst heq)
    · exact h'.imp fun hlt heq => hlt.ne (congrArg Prod.fst heq)
  exact hperm.eq_of_pairwise (fun a b _ _ hab hba => absurd hab hba.asymm) h h'

/-- Setting what is there changes nothing. -/
theorem insert_eq_self {l : List (κ × V)} (h : Sorted l) {k : κ} {v : V} (hget : get k l = some v) :
    insert k v l = l := by
  refine ext_get (h.insert k v) h fun j => ?_
  rw [get_insert]
  split
  · rename_i hj
    rw [← hj, hget]
  · rfl

end OrderedEntries
