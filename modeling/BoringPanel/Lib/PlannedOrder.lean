import Mathlib.Data.List.Nodup

/-!
# A planned order among foreign elements

A list holds managed elements and foreign ones. `merge` brings the managed elements into a planned
order: each planned element goes to the place where it is, with the foreign elements before that
place, or else it is put right here. All that is asked is that the managed elements of the list are
planned.

* `filter_managed_merge`: the managed elements are the plan.
* `filter_foreign_merge`: the foreign elements are as they were.
* `merge_eq_self`: a list that is in the planned order stays as it is.
-/

namespace PlannedOrder

variable {α : Type} [DecidableEq α] (managed : α → Bool)

/-- The elements of the list in the planned order. -/
def merge : List α → List α → List α
  | current, [] => current
  | current, m :: plan =>
    if m ∈ current then
      (current.takeWhile (· ≠ m)).filter (fun x => !managed x) ++
        m :: merge (current.dropWhile (· ≠ m)).tail plan
    else m :: merge current plan

theorem takeWhile_split {m : α} {u v : List α} (h : m ∉ u) :
    (u ++ m :: v).takeWhile (· ≠ m) = u := by
  have hu : ∀ x ∈ u, decide (x ≠ m) = true := fun x hx =>
    decide_eq_true fun heq => h (heq ▸ hx)
  rw [List.takeWhile_append_of_pos hu]
  simp

theorem dropWhile_split {m : α} {u v : List α} (h : m ∉ u) :
    (u ++ m :: v).dropWhile (· ≠ m) = m :: v := by
  have hu : ∀ x ∈ u, decide (x ≠ m) = true := fun x hx =>
    decide_eq_true fun heq => h (heq ▸ hx)
  rw [List.dropWhile_append_of_pos hu]
  simp

/-- A planned element that is in the list. -/
theorem merge_split {m : α} {u v plan : List α} (h : m ∉ u) :
    merge managed (u ++ m :: v) (m :: plan) =
      u.filter (fun x => !managed x) ++ m :: merge managed v plan := by
  rw [merge, if_pos (by simp), takeWhile_split h, dropWhile_split h, List.tail_cons]

/-- A planned element that is not in the list. -/
theorem merge_of_not_mem {m : α} {current plan : List α} (h : m ∉ current) :
    merge managed current (m :: plan) = m :: merge managed current plan := by
  rw [merge, if_neg h]

omit [DecidableEq α] in
theorem filter_foreign_cons {m : α} (hm : managed m) (l : List α) :
    (m :: l).filter (fun x => !managed x) = l.filter fun x => !managed x :=
  List.filter_cons_of_neg (by simp [hm])

section Merge

variable {managed} {plan : List α} (hmanaged : ∀ m ∈ plan, managed m)

include hmanaged

theorem filter_managed_merge {current : List α} (hnd : current.Nodup)
    (hcur : ∀ x ∈ current, managed x → x ∈ plan) :
    (merge managed current plan).filter managed = plan := by
  induction plan generalizing current with
  | nil =>
    rw [merge, List.filter_eq_nil_iff]
    exact fun x hx hm => List.not_mem_nil (hcur x hx hm)
  | cons m plan ih =>
    have hm : managed m := hmanaged m List.mem_cons_self
    have hplan : ∀ x ∈ plan, managed x := fun x hx => hmanaged x (List.mem_cons_of_mem _ hx)
    by_cases hmem : m ∈ current
    · obtain ⟨u, v, rfl⟩ := List.append_of_mem hmem
      have hu : m ∉ u := fun h => List.disjoint_of_nodup_append hnd h List.mem_cons_self
      have hv : (m :: v).Nodup := hnd.of_append_right
      have hforeign : (u.filter fun x => !managed x).filter managed = [] := by
        rw [List.filter_filter, List.filter_eq_nil_iff]
        simp
      rw [merge_split managed hu, List.filter_append, hforeign, List.nil_append,
        List.filter_cons_of_pos hm, ih hplan hv.of_cons]
      intro x hx hxm
      refine (List.mem_cons.mp (hcur x (by simp [hx]) hxm)).resolve_left ?_
      rintro rfl
      exact (List.nodup_cons.mp hv).1 hx
    · rw [merge_of_not_mem managed hmem, List.filter_cons_of_pos hm, ih hplan hnd]
      intro x hx hxm
      exact (List.mem_cons.mp (hcur x hx hxm)).resolve_left fun h => hmem (h ▸ hx)

theorem filter_foreign_merge (current : List α) :
    (merge managed current plan).filter (fun x => !managed x) =
      current.filter fun x => !managed x := by
  induction plan generalizing current with
  | nil => rw [merge]
  | cons m plan ih =>
    have hm : managed m := hmanaged m List.mem_cons_self
    have hplan : ∀ x ∈ plan, managed x := fun x hx => hmanaged x (List.mem_cons_of_mem _ hx)
    by_cases hmem : m ∈ current
    · obtain ⟨u, v, hu, rfl⟩ : ∃ u v, m ∉ u ∧ current = u ++ m :: v := by
        obtain ⟨u, v, hu, hcur⟩ := List.eq_append_cons_of_mem hmem
        exact ⟨u, v, hcur, hu⟩
      rw [merge_split managed hu, List.filter_append, filter_foreign_cons managed hm, ih hplan,
        List.filter_append, filter_foreign_cons managed hm, List.filter_filter]
      simp
    · rw [merge_of_not_mem managed hmem, filter_foreign_cons managed hm, ih hplan]

end Merge

/-- A list in the planned order stays as it is. -/
theorem merge_eq_self {current plan : List α} (h : current.filter managed = plan) :
    merge managed current plan = current := by
  induction plan generalizing current with
  | nil => rw [merge]
  | cons m plan ih =>
    obtain ⟨u, v, rfl, hu, hm, hv⟩ := List.filter_eq_cons_iff.mp h
    have hmu : m ∉ u := fun hmem => hu m hmem hm
    have hforeign : u.filter (fun x => !managed x) = u :=
      List.filter_eq_self.mpr fun x hx => by simpa using hu x hx
    rw [merge_split managed hmu, hforeign, ih hv]

omit [DecidableEq α] in
/-- Managed and foreign elements apart, each once: the list has each element once. -/
theorem nodup_of_filters {l : List α} (hm : (l.filter managed).Nodup)
    (hf : (l.filter fun x => !managed x).Nodup) : l.Nodup := by
  have happ : (l.filter managed ++ l.filter fun x => !managed x).Nodup := by
    refine List.nodup_append.mpr ⟨hm, hf, ?_⟩
    rintro a ha b hb rfl
    simp only [List.mem_filter, Bool.not_eq_true'] at ha hb
    exact Bool.false_ne_true (hb.2 ▸ ha.2)
  exact (List.filter_append_perm managed l).nodup_iff.mp happ

end PlannedOrder
