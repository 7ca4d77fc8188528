import Mathlib.Data.List.Induction
import Mathlib.Data.List.Sort

/-!
# Sorting by a key, and keeping the last element of each key

A sorting routine that promises a sorted permutation and says nothing about elements with equal keys
(`SortSlice`), and the loop that walks a sorted list from its end and keeps the first element it
meets of each key (`dedup`). `mem_dedup_iff`: what is kept is the last element of its key. If the
routine keeps the order of ties (`SortSlice.Stable`), it is the last one of the list that was sorted;
otherwise it is any of them, so that the values must agree for the result to be determined.
-/

/-- A sorting routine for a key: a sorted permutation, with ties in any order. -/
structure SortSlice {α : Type} (key : α → Int) where
  sort : List α → List α
  perm : ∀ l, (sort l).Perm l
  sorted : ∀ l, (sort l).Pairwise fun a b => key a ≤ key b

namespace SortSlice

variable {α : Type} {key : α → Int}

/-- The routine keeps the order of elements with equal keys. -/
def Stable (s : SortSlice key) : Prop :=
  ∀ l k, ((s.sort l).filter fun a => key a = k) = l.filter fun a => key a = k

/-- A list with strictly increasing keys is sorted already. -/
theorem sort_eq_self (s : SortSlice key) {l : List α} (h : l.Pairwise fun a b => key a < key b) :
    s.sort l = l := by
  have hnd : (l.map key).Nodup := List.pairwise_map.mpr (h.imp ne_of_lt)
  have hsorted : l.Pairwise fun a b => key a ≤ key b := h.imp le_of_lt
  refine List.Perm.eq_of_pairwise ?_ (s.sorted l) hsorted (s.perm l)
  intro a b ha hb hab hba
  exact List.inj_on_of_nodup_map hnd ((s.perm l).mem_iff.mp ha) hb (le_antisymm hab hba)

/-- Insertion sort, which keeps the order of ties. -/
def insertion (key : α → Int) : SortSlice key where
  sort l := l.insertionSort fun a b => key a ≤ key b
  perm l := List.perm_insertionSort _ l
  sorted l := by
    have : Std.Total fun a b : α => key a ≤ key b := ⟨fun a b => le_total _ _⟩
    have : IsTrans α fun a b => key a ≤ key b := ⟨fun _ _ _ => le_trans⟩
    exact List.pairwise_insertionSort _ l

theorem insertion_stable : (insertion key).Stable := by
  have hinsert : ∀ (a : α) (l : List α) (k : Int),
      ((l.orderedInsert (fun a b => key a ≤ key b) a).filter fun b => key b = k) =
        (a :: l).filter fun b => key b = k := by
    intro a l k
    induction l with
    | nil => rfl
    | cons b l ih =>
      rw [List.orderedInsert_cons]
      split
      · rfl
      · -- `b` goes first, and only one of the two has the key
        have hab : ¬ (key a = k ∧ key b = k) := by omega
        rw [List.filter_cons, ih]
        simp only [List.filter_cons, decide_eq_true_eq]
        split <;> split <;> first | rfl | omega
  intro l k
  induction l with
  | nil => rfl
  | cons a l ih =>
    change ((l.insertionSort fun a b => key a ≤ key b).filter fun b => key b = k) = _ at ih
    change ((List.orderedInsert _ a (l.insertionSort _)).filter fun b => key b = k) = _
    rw [hinsert, List.filter_cons, List.filter_cons, ih]

/-- Any sorted order of a list is one that some routine gives. -/
theorem exists_sort_eq {l sorted : List α} (hperm : sorted.Perm l)
    (h : sorted.Pairwise fun a b => key a ≤ key b) : ∃ s : SortSlice key, s.sort l = sorted := by
  classical
  let s : SortSlice key :=
    { sort := fun l' => if l' = l then sorted else (insertion key).sort l'
      perm := fun l' => by
        split
        · exact (‹l' = l›).symm ▸ hperm
        · exact (insertion key).perm l'
      sorted := fun l' => by
        split
        · exact h
        · exact (insertion key).sorted l' }
  exact ⟨s, if_pos rfl⟩

end SortSlice

namespace LastWins

variable {α : Type} (key : α → Int)

/-- One round of the loop: an element is kept if its key is not that of the last one kept. -/
def keep (kept : List α) (a : α) : List α :=
  match kept.getLast? with
  | none => kept ++ [a]
  | some b => if key b ≠ key a then kept ++ [a] else kept

/-- Walks the list from its end, and turns what is kept around. -/
def dedup (l : List α) : List α := (l.reverse.foldl (keep key) []).reverse

variable {key}

theorem keep_eq_self {kept : List α} {a b : α} (hb : kept.getLast? = some b) (h : key b = key a) :
    keep key kept a = kept := by
  simp [keep, hb, h]

theorem keep_eq_append {kept : List α} {a : α} (h : ∀ b, kept.getLast? = some b → key b ≠ key a) :
    keep key kept a = kept ++ [a] := by
  unfold keep
  split
  · rfl
  · exact if_pos (h _ ‹_›)

variable (key) in
/-- What the loop over a list with decreasing keys keeps: the first element of each key. -/
structure Keeps (l kept : List α) : Prop where
  last : kept.getLast?.map key = l.getLast?.map key
  first : ∀ p, p ∈ kept ↔ (l.filter fun a => key a = key p).head? = some p

theorem Keeps.step {l kept : List α} {a : α} (h : Keeps key l kept)
    (hl : (l ++ [a]).Pairwise fun a b => key b ≤ key a) :
    Keeps key (l ++ [a]) (keep key kept a) := by
  obtain ⟨hl, -, hla⟩ := List.pairwise_append.mp hl
  by_cases hkey : ∃ b, kept.getLast? = some b ∧ key b = key a
  · -- the key has been met
    obtain ⟨b, hb, hba⟩ := hkey
    rw [keep_eq_self hb hba]
    have hlast : l.getLast?.map key = some (key a) := by rw [← h.last, hb, Option.map_some, hba]
    refine ⟨by rw [h.last, hlast]; simp, fun p => ?_⟩
    rw [h.first, List.filter_append]
    by_cases hp : key a = key p
    · obtain ⟨c, hc, hca⟩ := Option.map_eq_some_iff.mp hlast
      have hmem : c ∈ l.filter fun x => key x = key p :=
        List.mem_filter.mpr ⟨List.mem_of_getLast? hc, by simpa using hca.trans hp⟩
      rw [List.head?_append_of_ne_nil _ (List.ne_nil_of_mem hmem)]
    · simp [hp]
  · -- a new key, smaller than all before
    have hnew : ∀ b, kept.getLast? = some b → key b ≠ key a := fun b hb hba => hkey ⟨b, hb, hba⟩
    have hfresh : ∀ c ∈ l, key c ≠ key a := by
      intro c hc hca
      have hlne : l ≠ [] := List.ne_nil_of_mem hc
      obtain ⟨d, hd⟩ := Option.isSome_iff_exists.mp (List.getLast?_isSome.mpr hlne)
      have hdc : key d ≤ key c := by
        obtain ⟨l', rfl⟩ := List.getLast?_eq_some_iff.mp hd
        rcases List.mem_append.mp hc with hc | hc
        · exact (List.pairwise_append.mp hl).2.2 c hc d (by simp)
        · rw [List.mem_singleton.mp hc]
      have had : key a ≤ key d := hla d (List.mem_of_getLast? hd) a (by simp)
      have hda : key d = key a := by omega
      have hklast := h.last
      rw [hd, Option.map_some] at hklast
      obtain ⟨b, hb, hbd⟩ := Option.map_eq_some_iff.mp hklast
      exact hnew b hb (hbd.trans hda)
    rw [keep_eq_append hnew]
    refine ⟨by simp, fun p => ?_⟩
    rw [List.mem_append, List.mem_singleton, h.first, List.filter_append]
    by_cases hp : key a = key p
    · have hnil : (l.filter fun x => key x = key p) = [] := by
        rw [List.filter_eq_nil_iff]
        intro c hc
        simpa using fun hcp => hfresh c hc (hcp.trans hp.symm)
      rw [hnil]
      simp [hp, eq_comm]
    · have hpa : p ≠ a := fun he => hp (he ▸ rfl)
      simp [hp, hpa]

theorem keeps_foldl (l : List α) (hl : l.Pairwise fun a b => key b ≤ key a) :
    Keeps key l (l.foldl (keep key) []) := by
  induction l using List.reverseRecOn with
  | nil => exact ⟨rfl, by simp⟩
  | append_singleton l a ih =>
    rw [List.foldl_append, List.foldl_cons, List.foldl_nil]
    exact (ih (List.pairwise_append.mp hl).1).step hl

/-- **The last element of each key is kept.** -/
theorem mem_dedup_iff {l : List α} (hl : l.Pairwise fun a b => key a ≤ key b) (p : α) :
    p ∈ dedup key l ↔ (l.filter fun a => key a = key p).getLast? = some p := by
  have h := (keeps_foldl l.reverse (List.pairwise_reverse.mpr hl)).first p
  rw [dedup, List.mem_reverse, h, List.filter_reverse, List.head?_reverse]

/-- What the loop over a list with decreasing keys keeps has strictly decreasing keys. -/
theorem pairwise_foldl_keep (l : List α) (hl : l.Pairwise fun a b => key b ≤ key a) :
    (l.foldl (keep key) []).Pairwise fun a b => key b < key a := by
  induction l using List.reverseRecOn with
  | nil => exact List.Pairwise.nil
  | append_singleton l a ih =>
    obtain ⟨hl, -, hla⟩ := List.pairwise_append.mp hl
    have hla : ∀ b ∈ l, key a ≤ key b := fun b hb => hla b hb a (List.mem_singleton_self a)
    have hkept : ∀ b ∈ l.foldl (keep key) [], b ∈ l := fun b hb =>
      (List.mem_filter.mp (List.mem_of_head? (((keeps_foldl l hl).first b).mp hb))).1
    rw [List.foldl_append, List.foldl_cons, List.foldl_nil]
    cases hlast : (l.foldl (keep key) []) using List.reverseRecOn with
    | nil => exact List.pairwise_singleton _ _
    | append_singleton kept c =>
      rw [hlast] at hkept
      have ih := hlast ▸ ih hl
      by_cases hca : key c = key a
      · rw [keep_eq_self (b := c) (by simp) hca]
        exact ih
      · -- the last one that is kept has the least key
        rw [keep_eq_append fun b hb => by
          obtain rfl : c = b := by simpa using hb
          exact hca]
        refine List.pairwise_append.mpr ⟨ih, List.pairwise_singleton _ _, fun b hb e he => ?_⟩
        obtain rfl := List.mem_singleton.mp he
        have hc := hla c (hkept c (by simp))
        have hbc : key c ≤ key b := by
          obtain hb | hb := List.mem_append.mp hb
          · exact ((List.pairwise_append.mp ih).2.2 b hb c (List.mem_singleton_self c)).le
          · rw [List.mem_singleton.mp hb]
        omega

/-! ### Sorting and deduplicating -/

section Sorting

variable (s : SortSlice key) {l A B : List α} {p q : α}

theorem mem_dedup_sort_iff :
    p ∈ dedup key (s.sort l) ↔ ((s.sort l).filter fun a => key a = key p).getLast? = some p :=
  mem_dedup_iff (s.sorted l) p

/-- Nothing is invented. -/
theorem mem_of_mem_dedup_sort (h : p ∈ dedup key (s.sort l)) : p ∈ l := by
  have := List.mem_of_getLast? ((mem_dedup_sort_iff s).mp h)
  exact (s.perm l).mem_iff.mp (List.mem_filter.mp this).1

/-- Each key stays. -/
theorem exists_mem_dedup_sort (h : p ∈ l) : ∃ q ∈ dedup key (s.sort l), key q = key p := by
  have hne : ((s.sort l).filter fun a => key a = key p) ≠ [] :=
    List.ne_nil_of_mem (List.mem_filter.mpr ⟨(s.perm l).mem_iff.mpr h, by simp⟩)
  obtain ⟨q, hq⟩ := Option.isSome_iff_exists.mp (List.getLast?_isSome.mpr hne)
  have hkey : key q = key p := by
    simpa using (List.mem_filter.mp (List.mem_of_getLast? hq)).2
  exact ⟨q, (mem_dedup_sort_iff s).mpr (by rw [hkey]; exact hq), hkey⟩

/-- A key stays once. -/
theorem eq_of_mem_dedup_sort (hp : p ∈ dedup key (s.sort l)) (hq : q ∈ dedup key (s.sort l))
    (h : key p = key q) : p = q := by
  rw [mem_dedup_sort_iff] at hp hq
  rw [h] at hp
  exact Option.some.inj (hp.symm.trans hq)

/-- What stays has strictly increasing keys. -/
theorem pairwise_dedup_sort (l : List α) : (dedup key (s.sort l)).Pairwise fun a b => key a < key b :=
  List.pairwise_reverse.mpr (pairwise_foldl_keep _ (List.pairwise_reverse.mpr (s.sorted l)))

/-- If the elements of a key agree, it is they that stay. -/
theorem mem_dedup_sort_of_agree (h : p ∈ l) (hagree : ∀ q ∈ l, key q = key p → q = p) :
    p ∈ dedup key (s.sort l) := by
  obtain ⟨q, hq, hkey⟩ := exists_mem_dedup_sort s h
  rwa [hagree q (mem_of_mem_dedup_sort s hq) hkey] at hq

/-- If the order of ties is kept, later elements win. -/
theorem mem_of_mem_dedup_sort_append (hs : s.Stable) (hp : p ∈ dedup key (s.sort (A ++ B)))
    (hq : q ∈ B) (h : key q = key p) : p ∈ B := by
  rw [mem_dedup_sort_iff, hs, List.filter_append] at hp
  have hne : (B.filter fun a => key a = key p) ≠ [] :=
    List.ne_nil_of_mem (List.mem_filter.mpr ⟨hq, by simpa using h⟩)
  rw [List.getLast?_append_of_ne_nil _ hne] at hp
  exact (List.mem_filter.mp (List.mem_of_getLast? hp)).1

end Sorting

/-- **Any element may stay**: some routine puts it last among the elements of its key. -/
theorem exists_sort_keeping (p : α) :
    ∃ s : SortSlice key, ∀ l, p ∈ l → p ∈ dedup key (s.sort l) := by
  classical
  let late : List α → List α := fun l => (l.filter fun q => q ≠ p) ++ l.filter fun q => q = p
  have hlate : ∀ l, (late l).Perm l := fun l => by
    have := List.filter_append_perm (fun q => decide (q ≠ p)) l
    simpa [late] using this
  let s : SortSlice key :=
    { sort := fun l => (SortSlice.insertion key).sort (late l)
      perm := fun l => ((SortSlice.insertion key).perm _).trans (hlate l)
      sorted := fun l => (SortSlice.insertion key).sorted _ }
  refine ⟨s, fun l hp => ?_⟩
  rw [mem_dedup_sort_iff]
  change (((SortSlice.insertion key).sort (late l)).filter _).getLast? = some p
  rw [SortSlice.insertion_stable (late l) (key p), List.filter_append]
  -- the copies of the element come last
  have hall : ∀ q ∈ (l.filter fun q => q = p).filter (fun q => decide (key q = key p)), q = p := by
    intro q hq
    simpa using (List.mem_filter.mp (List.mem_filter.mp hq).1).2
  have hmem : p ∈ (l.filter fun q => q = p).filter fun q => decide (key q = key p) :=
    List.mem_filter.mpr ⟨List.mem_filter.mpr ⟨hp, by simp⟩, by simp⟩
  rw [List.getLast?_append_of_ne_nil _ (List.ne_nil_of_mem hmem)]
  obtain ⟨q, hq⟩ := Option.isSome_iff_exists.mp (List.getLast?_isSome.mpr (List.ne_nil_of_mem hmem))
  rw [hq, hall q (List.mem_of_getLast? hq)]

end LastWins
