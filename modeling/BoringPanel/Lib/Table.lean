import Mathlib.Data.List.Nodup

/-!
# Go maps with keys of any type

A `map[K]V` as the list of its entries, with no key twice (`Table`). A `range` visits the entries in an
order that the language leaves open (`RangeOrder`); a loop may replace or delete the entry that it is
at (`sweep`).

What is proved of a table is proved of its look-ups. They are determined by the members of the list
(`lookup_eq_some`), so the order of the entries does not matter.
-/

namespace Go

/-- A `map[K]V`. -/
structure Table (K V : Type) where
  entries : List (K × V)
  nodup : (entries.map Prod.fst).Nodup

namespace Table

variable {K V W : Type}

def empty : Table K V := ⟨[], List.nodup_nil⟩

/-- A loop over the entries that replaces the one it is at, or deletes it. -/
def sweep (f : K → V → Option W) (t : Table K V) : Table K W where
  entries := t.entries.filterMap fun e => (f e.1 e.2).map fun w => (e.1, w)
  nodup := by
    refine List.Pairwise.map (R := fun e e' : K × W => e.1 ≠ e'.1) Prod.fst (fun _ _ h => h) ?_
    refine List.Pairwise.filterMap (R := fun e e' : K × V => e.1 ≠ e'.1) _ ?_
      (List.pairwise_map.mp t.nodup)
    intro e e' hne d hd d' hd'
    obtain ⟨w, -, rfl⟩ := Option.map_eq_some_iff.mp hd
    obtain ⟨w', -, rfl⟩ := Option.map_eq_some_iff.mp hd'
    exact hne

theorem mem_sweep {f : K → V → Option W} {t : Table K V} {k : K} {w : W} :
    (k, w) ∈ (t.sweep f).entries ↔ ∃ v, (k, v) ∈ t.entries ∧ f k v = some w := by
  show (k, w) ∈ t.entries.filterMap _ ↔ _
  rw [List.mem_filterMap]
  constructor
  · rintro ⟨⟨k', v⟩, hmem, h⟩
    obtain ⟨w', hw, heq⟩ := Option.map_eq_some_iff.mp h
    obtain ⟨rfl, rfl⟩ := Prod.mk.inj heq
    exact ⟨v, hmem, hw⟩
  · rintro ⟨v, hmem, h⟩
    exact ⟨(k, v), hmem, by simp [h]⟩

/-- No key has two values. -/
theorem eq_of_mem {t : Table K V} {k : K} {v v' : V} (h : (k, v) ∈ t.entries)
    (h' : (k, v') ∈ t.entries) : v = v' :=
  (Prod.mk.inj (List.inj_on_of_nodup_map t.nodup h h' rfl)).2

variable [DecidableEq K]

/-- `m[k]`. -/
def lookup (t : Table K V) (k : K) : Option V :=
  (t.entries.find? fun e => e.1 = k).map Prod.snd

/-- `delete(m, k)`. -/
def erase (t : Table K V) (k : K) : Table K V where
  entries := t.entries.filter fun e => e.1 ≠ k
  nodup := t.nodup.sublist (List.filter_sublist.map Prod.fst)

theorem mem_erase {t : Table K V} {k : K} {e : K × V} :
    e ∈ (t.erase k).entries ↔ e ∈ t.entries ∧ e.1 ≠ k := by
  rw [erase, List.mem_filter, decide_eq_true_eq]

/-- `m[k] = v`. -/
def set (t : Table K V) (k : K) (v : V) : Table K V where
  entries := (t.erase k).entries ++ [(k, v)]
  nodup := by
    rw [List.map_append]
    refine List.nodup_append.mpr ⟨(t.erase k).nodup, List.nodup_singleton k, ?_⟩
    rintro a ha b hb rfl
    obtain rfl : a = k := List.mem_singleton.mp hb
    obtain ⟨e, he, hek⟩ := List.mem_map.mp ha
    exact (mem_erase.mp he).2 hek

theorem mem_set {t : Table K V} {k : K} {v : V} {e : K × V} :
    e ∈ (t.set k v).entries ↔ e = (k, v) ∨ e ∈ t.entries ∧ e.1 ≠ k := by
  show e ∈ (t.erase k).entries ++ [(k, v)] ↔ _
  rw [List.mem_append, List.mem_singleton, mem_erase, or_comm]

/-- The look-ups are the entries. -/
theorem lookup_eq_some {t : Table K V} {k : K} {v : V} :
    t.lookup k = some v ↔ (k, v) ∈ t.entries := by
  constructor
  · intro h
    obtain ⟨e, he, rfl⟩ := Option.map_eq_some_iff.mp h
    have hek : e.1 = k := by simpa using List.find?_some he
    rw [← hek]
    exact List.mem_of_find?_eq_some he
  · intro h
    have hsome : (t.entries.find? fun e => e.1 = k).isSome := by
      rw [List.find?_isSome]
      exact ⟨(k, v), h, by simp⟩
    obtain ⟨e, he⟩ := Option.isSome_iff_exists.mp hsome
    have hek : e.1 = k := by simpa using List.find?_some he
    have hev : e.2 = v := eq_of_mem (hek ▸ List.mem_of_find?_eq_some he) h
    rw [lookup, he, ← hev]
    rfl

/-- Tables with the same entries have the same look-ups. -/
theorem lookup_congr {t t' : Table K V} (h : ∀ e, e ∈ t.entries ↔ e ∈ t'.entries) (k : K) :
    t.lookup k = t'.lookup k := by
  ext v
  rw [lookup_eq_some, lookup_eq_some, h]

@[simp] theorem lookup_empty (k : K) : (empty : Table K V).lookup k = none := rfl

@[simp] theorem lookup_set_self (t : Table K V) (k : K) (v : V) : (t.set k v).lookup k = some v :=
  lookup_eq_some.mpr (mem_set.mpr (.inl rfl))

theorem lookup_set_of_ne (t : Table K V) {k j : K} (h : j ≠ k) (v : V) :
    (t.set k v).lookup j = t.lookup j := by
  ext w
  rw [lookup_eq_some, lookup_eq_some, mem_set]
  constructor
  · rintro (heq | ⟨hmem, -⟩)
    · exact absurd (Prod.mk.inj heq).1 h
    · exact hmem
  · intro hmem
    exact .inr ⟨hmem, h⟩

theorem lookup_set (t : Table K V) (k j : K) (v : V) :
    (t.set k v).lookup j = if j = k then some v else t.lookup j := by
  split
  · rename_i h
    rw [h, lookup_set_self]
  · rename_i h
    exact lookup_set_of_ne t h v

theorem lookup_sweep (f : K → V → Option W) (t : Table K V) (k : K) :
    (t.sweep f).lookup k = (t.lookup k).bind (f k) := by
  ext w
  rw [lookup_eq_some, mem_sweep, Option.bind_eq_some_iff]
  exact exists_congr fun v => and_congr lookup_eq_some.symm Iff.rfl

/-- The elements of a list with a key: there is one at most. -/
theorem filter_eq_toList {α : Type} (key : α → K) (k : K) :
    ∀ {l : List α}, (l.map key).Nodup →
      (l.filter fun a => key a = k) = (l.find? fun a => key a = k).toList := by
  intro l
  induction l with
  | nil => exact fun _ => rfl
  | cons a l ih =>
    intro hnd
    obtain ⟨hnot, hnd⟩ := List.nodup_cons.mp hnd
    by_cases hk : key a = k
    · have hrest : (l.filter fun a => key a = k) = [] := by
        rw [List.filter_eq_nil_iff]
        intro a' ha' hk'
        refine hnot ?_
        rw [hk, ← of_decide_eq_true hk']
        exact List.mem_map_of_mem ha'
      rw [List.filter_cons_of_pos (by simp [hk]), List.find?_cons_of_pos (by simp [hk]), hrest]
      rfl
    · rw [List.filter_cons_of_neg (by simp [hk]), List.find?_cons_of_neg (by simp [hk])]
      exact ih hnd

/-- The entries with a key. -/
theorem filter_key (t : Table K V) (k : K) :
    (t.entries.filter fun e => e.1 = k).map Prod.snd = (t.lookup k).toList := by
  rw [filter_eq_toList Prod.fst k t.nodup, lookup]
  cases t.entries.find? fun e => e.1 = k with
  | none => rfl
  | some e => rfl

/-- A loop over a list that sets each key once, to a value that may depend on the one before. -/
theorem lookup_foldl_set (f : Option V → W → V) :
    ∀ (l : List (K × W)) (t : Table K V) (k : K), (l.map Prod.fst).Nodup →
      (l.foldl (fun t e => t.set e.1 (f (t.lookup e.1) e.2)) t).lookup k =
        match (l.find? fun e => e.1 = k).map Prod.snd with
        | some w => some (f (t.lookup k) w)
        | none => t.lookup k := by
  intro l
  induction l with
  | nil => exact fun _ _ _ => rfl
  | cons e l ih =>
    intro t k hnd
    obtain ⟨hnot, hnd⟩ := List.nodup_cons.mp hnd
    rw [List.foldl_cons, ih _ k hnd, List.find?_cons]
    by_cases hek : e.1 = k
    · -- the key is not set again
      have hnone : l.find? (fun e => e.1 = k) = none := by
        rw [List.find?_eq_none]
        intro e' he' hk
        refine hnot ?_
        rw [hek, ← of_decide_eq_true hk]
        exact List.mem_map_of_mem he'
      rw [hnone]
      simp [hek]
    · rw [lookup_set_of_ne t (Ne.symm hek)]
      simp [hek]

/-- A loop over a map that sets the key it is at in another one. -/
theorem lookup_setAll (f : Option V → W → V) (t' : Table K W) (t : Table K V) (k : K) :
    (t'.entries.foldl (fun t e => t.set e.1 (f (t.lookup e.1) e.2)) t).lookup k =
      match t'.lookup k with
      | some w => some (f (t.lookup k) w)
      | none => t.lookup k :=
  lookup_foldl_set f t'.entries t k t'.nodup

/-- The order in which a `range` visits the entries. -/
structure RangeOrder (K V : Type) where
  order : Table K V → List (K × V)
  perm : ∀ t, (order t).Perm t.entries

/-- The table with its entries in the order of a `range`. -/
def RangeOrder.visited (range : RangeOrder K V) (t : Table K V) : Table K V where
  entries := range.order t
  nodup := ((range.perm t).map Prod.fst).nodup_iff.mpr t.nodup

omit [DecidableEq K] in
@[simp] theorem RangeOrder.mem_visited {range : RangeOrder K V} {t : Table K V} {e : K × V} :
    e ∈ (range.visited t).entries ↔ e ∈ t.entries :=
  (range.perm t).mem_iff

@[simp] theorem RangeOrder.lookup_visited (range : RangeOrder K V) (t : Table K V) (k : K) :
    (range.visited t).lookup k = t.lookup k :=
  lookup_congr (fun _ => RangeOrder.mem_visited) k

/-- The entries in the order in which the table holds them. -/
def RangeOrder.inOrder : RangeOrder K V := ⟨entries, fun _ => List.Perm.refl _⟩

/-- The entries in the opposite order. -/
def RangeOrder.backwards : RangeOrder K V :=
  ⟨fun t => t.entries.reverse, fun t => t.entries.reverse_perm⟩

end Table

end Go
