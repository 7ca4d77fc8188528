import BoringPanel.Lib.HexText
import Mathlib.Data.List.Induction
import Mathlib.Data.List.Sort
import Mathlib.Data.String.Basic

/-!
# Label lists

The labels of `utils/labels/labels.go`: the `Builder` that changes a list of labels, the lists that
`New` and `FromMap` make, and the bytes that `Hash` and `HashForLabels` give to `xxhash.Sum64`.

* `Builder.run_view`: whatever is set and deleted, no slice index leaves its slice, and a builder
  stands for the map that the changes make of its base.
* `hashBytes_inj`: the byte that ends each name and each value is in no valid text, so the bytes tell
  the lists apart.
* `labels_of_changes_and_hash` puts the two together.

`sort.Sort` leaves the order of equal names open, so it is a parameter (`NameSort`).
-/

namespace QueryService.Utils.Labels

structure Label (σ : Type) where
  name : σ
  value : σ
deriving DecidableEq, Repr

section Lists

variable {σ : Type}

/-- Sorted by the names, no name twice. -/
def Sorted [LT σ] (ls : List (Label σ)) : Prop := ls.Pairwise fun a b => a.name < b.name

/-- No name twice. -/
def Unique (ls : List (Label σ)) : Prop := (ls.map Label.name).Nodup

/-- `Map`: a later label of a name takes the place of an earlier one. -/
def mapOf [DecidableEq σ] (ls : List (Label σ)) : σ → Option σ :=
  ls.foldl (fun m l => Function.update m l.name (some l.value)) fun _ => none

theorem mapOf_append_singleton [DecidableEq σ] (ls : List (Label σ)) (l : Label σ) :
    mapOf (ls ++ [l]) = Function.update (mapOf ls) l.name (some l.value) := by
  simp [mapOf]

/-- Where no name comes twice, the map has what the list has. -/
theorem mapOf_eq_some_iff [DecidableEq σ] {ls : List (Label σ)} (h : Unique ls) {n v : σ} :
    mapOf ls n = some v ↔ ⟨n, v⟩ ∈ ls := by
  induction ls using List.reverseRecOn with
  | nil => simp [mapOf]
  | append_singleton ls l ih =>
    have hparts : Unique ls ∧ ∀ a ∈ ls, a.name ≠ l.name := by
      simpa [Unique, List.nodup_append] using h
    rw [mapOf_append_singleton, List.mem_append, List.mem_singleton]
    by_cases hn : n = l.name
    · subst hn
      have hnot : ⟨l.name, v⟩ ∉ ls := fun hmem => hparts.2 _ hmem rfl
      rw [Function.update_self]
      constructor
      · rintro ⟨rfl⟩
        exact .inr rfl
      · rintro (hmem | heq)
        · exact absurd hmem hnot
        · rw [← heq]
    · rw [Function.update_of_ne hn, ih hparts.1]
      exact ⟨.inl, fun hmem => hmem.resolve_right fun heq => hn (by rw [← heq])⟩

theorem mapOf_eq_none_iff [DecidableEq σ] {ls : List (Label σ)} (h : Unique ls) {n : σ} :
    mapOf ls n = none ↔ ∀ l ∈ ls, l.name ≠ n := by
  rw [Option.eq_none_iff_forall_ne_some]
  constructor
  · rintro hno l hl rfl
    exact hno l.value ((mapOf_eq_some_iff h).mpr hl)
  · exact fun hno v hv => hno _ ((mapOf_eq_some_iff h).mp hv) rfl

/-- Lists of one map have the same labels. -/
theorem mapOf_eq_iff_perm [DecidableEq σ] {ls ls' : List (Label σ)} (h : Unique ls) (h' : Unique ls') :
    mapOf ls = mapOf ls' ↔ ls.Perm ls' := by
  rw [List.perm_ext_iff_of_nodup (List.Nodup.of_map _ h) (List.Nodup.of_map _ h')]
  constructor
  · rintro heq ⟨n, v⟩
    rw [← mapOf_eq_some_iff h, ← mapOf_eq_some_iff h', heq]
  · intro hmem
    ext n v
    rw [mapOf_eq_some_iff h, mapOf_eq_some_iff h', hmem]

theorem Sorted.unique [Preorder σ] {ls : List (Label σ)} (h : Sorted ls) : Unique ls :=
  List.pairwise_map.mpr (h.imp fun hlt => ne_of_lt hlt)

end Lists

/-! ### Sorting -/

/-- `sort.Sort` of labels: it has the labels of the list, sorted by the names. -/
structure NameSort (σ : Type) [LE σ] where
  sort : List (Label σ) → List (Label σ)
  perm : ∀ ls, (sort ls).Perm ls
  sorted : ∀ ls, (sort ls).Pairwise fun a b => a.name ≤ b.name

section Sorting

variable {σ : Type} [LinearOrder σ] [DecidableEq σ]

namespace NameSort

variable (s : NameSort σ)

omit [DecidableEq σ] in
theorem sorted_sort {ls : List (Label σ)} (h : Unique ls) : Sorted (s.sort ls) := by
  have hunique : (s.sort ls).Pairwise fun a b => a.name ≠ b.name :=
    List.pairwise_map.mp (((s.perm ls).map Label.name).nodup_iff.mpr h)
  exact ((s.sorted ls).and hunique).imp fun hab => lt_of_le_of_ne hab.1 hab.2

theorem mapOf_sort {ls : List (Label σ)} (h : Unique ls) : mapOf (s.sort ls) = mapOf ls :=
  (mapOf_eq_iff_perm (s.sorted_sort h).unique h).mpr (s.perm ls)

end NameSort

/-- The sort that leaves equal names in their order. -/
def stableSort : NameSort σ where
  sort := List.insertionSort fun a b => a.name ≤ b.name
  perm := List.perm_insertionSort _
  sorted := fun ls => by
    have : Std.Total fun a b : Label σ => a.name ≤ b.name := ⟨fun a b => le_total a.name b.name⟩
    have : IsTrans (Label σ) fun a b => a.name ≤ b.name := ⟨fun _ _ _ => le_trans⟩
    exact List.pairwise_insertionSort _ ls

/-- `New`, and `FromMap` with the labels of a map in the order in which it is read. -/
def new (s : NameSort σ) (ls : List (Label σ)) : List (Label σ) := s.sort ls

omit [DecidableEq σ] in
/-- Sorted lists of the same labels are equal. -/
theorem Sorted.eq_of_perm {ls ls' : List (Label σ)} (h : Sorted ls) (h' : Sorted ls') (hp : ls.Perm ls') :
    ls = ls' :=
  hp.eq_of_pairwise (fun _ _ _ _ hab hba => absurd hab (lt_asymm hba)) h h'

end Sorting

/-! ### The builder -/

/-- The array under a slice, and the length of the slice. -/
structure Slice (α : Type) where
  array : List α
  len : Nat

/-- `append(s[:i], s[i+1:]...)`: the elements move within the array, and the array keeps what it has
past the end of the slice. The index `i + 1` must not leave the slice. -/
def Slice.deleteAt {α : Type} (s : Slice α) (i : Nat) : Option (Slice α) :=
  if i + 1 ≤ s.len then
    some ⟨s.array.take i ++ ((s.array.take s.len).drop (i + 1) ++ s.array.drop (s.len - 1)), s.len - 1⟩
  else none

/-- `Builder`, with the names that it deletes and the labels that it adds. -/
structure Builder (σ : Type) where
  base : List (Label σ)
  del : List σ
  add : List (Label σ)
deriving DecidableEq, Repr

def newBuilder {σ : Type} (base : List (Label σ)) : Builder σ := ⟨base, [], []⟩

section Changes

variable {σ : Type} [DecidableEq σ]

/-- A round of the loop of `Del`: the element is read from the array as it is by then. -/
def delStep (n : σ) (s : Slice (Label σ)) (i : Nat) : Option (Slice (Label σ)) :=
  match s.array[i]? with
  | some a => if a.name = n then s.deleteAt i else some s
  | none => none

/-- The loop of `Del` for a name. It has as many rounds as the slice has elements at its start. -/
def delLoop (n : σ) (add : List (Label σ)) : Option (Slice (Label σ)) :=
  (List.range add.length).foldlM (delStep n) ⟨add, add.length⟩

/-- `Del` of one name; `none` is a panic. -/
def Builder.delName (b : Builder σ) (n : σ) : Option (Builder σ) := do
  let s ← delLoop n b.add
  return { b with add := s.array.take s.len, del := b.del ++ [n] }

/-- `Del`. -/
def Builder.delete (b : Builder σ) (ns : List σ) : Option (Builder σ) := ns.foldlM Builder.delName b

/-- The loop of `Set`, with the `append` behind it. -/
def setLabel (n v : σ) : List (Label σ) → List (Label σ)
  | [] => [⟨n, v⟩]
  | a :: as => if a.name = n then { a with value := v } :: as else a :: setLabel n v as

/-- `Set`. -/
def Builder.set (b : Builder σ) (n v : σ) : Builder σ := { b with add := setLabel n v b.add }

/-- A call of a builder. -/
inductive Change (σ : Type) where
  | set (n v : σ)
  | del (ns : List σ)

def Builder.change (b : Builder σ) : Change σ → Option (Builder σ)
  | .set n v => some (b.set n v)
  | .del ns => b.delete ns

/-- Calls of a builder, one after the other. -/
def Builder.run (b : Builder σ) (cs : List (Change σ)) : Option (Builder σ) :=
  cs.foldlM Builder.change b

/-- What a call does to a map. -/
def Change.apply (m : σ → Option σ) : Change σ → σ → Option σ
  | .set n v => Function.update m n (some v)
  | .del ns => fun n => if n ∈ ns then none else m n

/-- The labels of the base that are neither deleted nor set. -/
def Builder.kept (b : Builder σ) : List (Label σ) :=
  b.base.filter fun l => l.name ∉ b.del ∧ ∀ la ∈ b.add, l.name ≠ la.name

/-- `Labels`. -/
def Builder.labels [LE σ] (s : NameSort σ) (b : Builder σ) : List (Label σ) :=
  if b.del.length = 0 ∧ b.add.length = 0 then b.base else s.sort (b.kept ++ b.add)

/-! #### Deleting while reading -/

/-- A round that reads another name leaves the slice as it is. -/
theorem foldlM_delStep_of_ne {n : σ} {s : Slice (Label σ)} {is : List Nat}
    (h : ∀ i ∈ is, ∃ a, s.array[i]? = some a ∧ a.name ≠ n) : is.foldlM (delStep n) s = some s := by
  induction is with
  | nil => rfl
  | cons i is ih =>
    obtain ⟨a, ha, hne⟩ := h i List.mem_cons_self
    have hstep : delStep n s i = some s := by
      simp only [delStep, ha]
      exact if_neg hne
    rw [List.foldlM_cons, hstep]
    exact ih fun j hj => h j (List.mem_cons_of_mem i hj)

/-- The round that finds the name. The last element stays behind, past the end of the slice. -/
theorem delStep_at {pre post : List (Label σ)} {a : Label σ} :
    delStep a.name ⟨pre ++ a :: post, (pre ++ a :: post).length⟩ pre.length =
      some ⟨pre ++ (post ++ (pre ++ a :: post).drop (pre.length + post.length)),
        pre.length + post.length⟩ := by
  have hlen : (pre ++ a :: post).length = pre.length + post.length + 1 := by
    simp only [List.length_append, List.length_cons]
    omega
  have hread : (pre ++ a :: post)[pre.length]? = some a := by simp
  simp only [delStep, hread, if_true, Slice.deleteAt]
  rw [if_pos (by omega), List.take_length, hlen]
  simp [List.drop_append]

omit [DecidableEq σ] in
/-- The rounds after it read labels behind the one that was found, the last one twice. -/
theorem getElem?_moved {pre post : List (Label σ)} {a : Label σ} {k : Nat} (hk : k < post.length) :
    ∃ b ∈ post, (pre ++ (post ++ (pre ++ a :: post).drop (pre.length + post.length)))[
      pre.length + 1 + k]? = some b := by
  rw [List.getElem?_append_right (by omega)]
  have hshift : pre.length + 1 + k - pre.length = k + 1 := by omega
  rw [hshift]
  by_cases hlast : k + 1 < post.length
  · rw [List.getElem?_append_left hlast]
    exact ⟨post[k + 1], List.getElem_mem hlast, List.getElem?_eq_getElem hlast⟩
  · have hend : k + 1 = post.length := by omega
    have hne : post ≠ [] := List.ne_nil_of_length_pos (by omega)
    refine ⟨post.getLast hne, List.getLast_mem hne, ?_⟩
    rw [List.getElem?_append_right (by omega), List.getElem?_drop, List.getElem?_append_right (by omega)]
    have hindex : pre.length + post.length + (k + 1 - post.length) - pre.length = k + 1 := by omega
    rw [hindex, List.getElem?_cons_succ, List.getLast_eq_getElem]
    have hk' : post.length - 1 = k := by omega
    simp only [hk']
    exact List.getElem?_eq_getElem hk

/-- **The loop of `Del`** deletes the label of the name, though it edits the slice it reads. -/
theorem delLoop_eq {n : σ} {add : List (Label σ)} (h : Unique add) :
    ∃ s, delLoop n add = some s ∧ s.array.take s.len = add.filter fun a => a.name ≠ n := by
  by_cases hmem : ∃ a ∈ add, a.name = n
  · obtain ⟨a, ha, rfl⟩ := hmem
    obtain ⟨pre, post, rfl⟩ := List.append_of_mem ha
    have hparts : (∀ b ∈ pre, b.name ≠ a.name) ∧ ∀ b ∈ post, b.name ≠ a.name := by
      have := h
      simp only [Unique, List.map_append, List.map_cons, List.nodup_append, List.nodup_cons,
        List.mem_map, List.mem_cons] at this
      obtain ⟨-, ⟨hpost, -⟩, hpre⟩ := this
      exact ⟨fun b hb heq => hpre _ ⟨b, hb, rfl⟩ _ (.inl rfl) heq,
        fun b hb heq => hpost ⟨b, hb, heq⟩⟩
    have hbefore : (List.range pre.length).foldlM (delStep a.name)
        ⟨pre ++ a :: post, (pre ++ a :: post).length⟩ =
          some ⟨pre ++ a :: post, (pre ++ a :: post).length⟩ := by
      refine foldlM_delStep_of_ne fun i hi => ?_
      have hi' := List.mem_range.mp hi
      rw [List.getElem?_append_left hi', List.getElem?_eq_getElem hi']
      exact ⟨_, rfl, hparts.1 _ (List.getElem_mem hi')⟩
    have hlen : (pre ++ a :: post).length = pre.length + 1 + post.length := by
      simp only [List.length_append, List.length_cons]
      omega
    refine ⟨⟨pre ++ (post ++ (pre ++ a :: post).drop (pre.length + post.length)),
      pre.length + post.length⟩, ?_, ?_⟩
    · rw [delLoop]
      conv_lhs => rw [hlen, List.range_add, List.range_succ]
      rw [← hlen, List.foldlM_append, List.foldlM_append, hbefore]
      simp only [Option.bind_eq_bind, Option.bind_some, List.foldlM_cons, List.foldlM_nil]
      rw [delStep_at]
      refine foldlM_delStep_of_ne fun i hi => ?_
      obtain ⟨k, hk, rfl⟩ := List.mem_map.mp hi
      obtain ⟨b, hb, hget⟩ := @getElem?_moved _ pre post a k (List.mem_range.mp hk)
      exact ⟨b, hget, hparts.2 b hb⟩
    · have hpre : pre.filter (fun b => b.name ≠ a.name) = pre :=
        List.filter_eq_self.mpr fun b hb => decide_eq_true (hparts.1 b hb)
      have hpost : post.filter (fun b => b.name ≠ a.name) = post :=
        List.filter_eq_self.mpr fun b hb => decide_eq_true (hparts.2 b hb)
      rw [List.filter_append, List.filter_cons_of_neg (by simp), hpre, hpost, ← List.append_assoc,
        ← List.length_append, List.take_left]
  · have hne : ∀ a ∈ add, a.name ≠ n := fun a ha heq => hmem ⟨a, ha, heq⟩
    refine ⟨⟨add, add.length⟩, foldlM_delStep_of_ne fun i hi => ?_, ?_⟩
    · have hi' := List.mem_range.mp hi
      exact ⟨add[i], List.getElem?_eq_getElem hi', hne _ (List.getElem_mem hi')⟩
    · rw [List.take_length]
      exact (List.filter_eq_self.mpr fun a ha => decide_eq_true (hne a ha)).symm

/-! #### What a builder stands for -/

/-- No name is added twice. -/
def Builder.Ok (b : Builder σ) : Prop := Unique b.add

/-- The map that a builder stands for. -/
def Builder.view (b : Builder σ) (n : σ) : Option σ :=
  (mapOf b.add n).or (if n ∈ b.del then none else mapOf b.base n)

theorem name_mem_setLabel {n v : σ} {as : List (Label σ)} {m : σ} :
    m ∈ (setLabel n v as).map Label.name ↔ m = n ∨ m ∈ as.map Label.name := by
  induction as with
  | nil => simp [setLabel]
  | cons a as ih =>
    rw [setLabel]
    split_ifs with ha
    · simp [ha]
    · rw [List.map_cons, List.mem_cons, ih, List.map_cons, List.mem_cons]
      exact or_left_comm

theorem unique_setLabel {n v : σ} {as : List (Label σ)} (h : Unique as) : Unique (setLabel n v as) := by
  induction as with
  | nil => exact List.nodup_singleton _
  | cons a as ih =>
    obtain ⟨hnot, has⟩ := List.nodup_cons.mp h
    rw [setLabel]
    split_ifs with ha
    · exact List.nodup_cons.mpr ⟨hnot, has⟩
    · refine List.nodup_cons.mpr ⟨fun hmem => ?_, ih has⟩
      exact (name_mem_setLabel.mp hmem).elim ha hnot

theorem mapOf_setLabel {n v : σ} {as : List (Label σ)} (h : Unique as) :
    mapOf (setLabel n v as) = Function.update (mapOf as) n (some v) := by
  have hset := unique_setLabel (n := n) (v := v) h
  ext m w
  rw [mapOf_eq_some_iff hset]
  by_cases hm : m = n
  · subst hm
    rw [Function.update_self]
    induction as with
    | nil => simp [setLabel, eq_comm]
    | cons a as ih =>
      obtain ⟨hnot, has⟩ := List.nodup_cons.mp h
      rw [setLabel]
      split_ifs with ha
      · have hother : ⟨m, w⟩ ∉ as := fun hmem => hnot (List.mem_map.mpr ⟨_, hmem, ha.symm⟩)
        simp [ha, hother, eq_comm]
      · rw [List.mem_cons, ih has (unique_setLabel has)]
        refine or_iff_right fun heq => ha ?_
        rw [← heq]
  · rw [Function.update_of_ne hm, mapOf_eq_some_iff h]
    clear hset h
    induction as with
    | nil => simp [setLabel, hm]
    | cons a as ih =>
      rw [setLabel]
      split_ifs with ha
      · have hfirst : ∀ u, (⟨m, w⟩ : Label σ) ≠ { a with value := u } := by
          intro u heq
          exact hm ((congrArg Label.name heq).trans ha)
        rw [List.mem_cons, List.mem_cons]
        exact ⟨fun hmem => .inr (hmem.resolve_left (hfirst v)),
          fun hmem => .inr (hmem.resolve_left (hfirst a.value))⟩
      · rw [List.mem_cons, List.mem_cons, ih]

theorem Builder.set_ok {b : Builder σ} (h : b.Ok) (n v : σ) : (b.set n v).Ok := unique_setLabel h

theorem Builder.set_view {b : Builder σ} (h : b.Ok) (n v : σ) :
    (b.set n v).view = Function.update b.view n (some v) := by
  ext1 m
  simp only [Builder.view, Builder.set, mapOf_setLabel h]
  by_cases hm : m = n
  · rw [hm, Function.update_self, Function.update_self]
    rfl
  · rw [Function.update_of_ne hm, Function.update_of_ne hm]
    rfl

/-- `Del` of a name does not panic. -/
theorem Builder.delName_view {b : Builder σ} (h : b.Ok) (n : σ) :
    ∃ b', b.delName n = some b' ∧ b'.base = b.base ∧ b'.Ok ∧
      b'.view = Function.update b.view n none := by
  obtain ⟨s, hloop, hadd⟩ := delLoop_eq (n := n) h
  have hunique : Unique (b.add.filter fun a => a.name ≠ n) :=
    h.sublist (List.filter_sublist.map Label.name)
  refine ⟨{ b with add := s.array.take s.len, del := b.del ++ [n] }, ?_, rfl, ?_, ?_⟩
  · simp [Builder.delName, hloop]
  · rw [Builder.Ok]
    exact hadd ▸ hunique
  · ext1 m
    simp only [Builder.view, hadd]
    by_cases hm : m = n
    · have hnone : mapOf (b.add.filter fun a => a.name ≠ n) m = none :=
        (mapOf_eq_none_iff hunique).mpr fun l hl heq =>
          of_decide_eq_true (List.mem_filter.mp hl).2 (heq.trans hm)
      rw [hnone, hm, Function.update_self]
      simp
    · have hsame : mapOf (b.add.filter fun a => a.name ≠ n) m = mapOf b.add m := by
        ext w
        rw [mapOf_eq_some_iff hunique, mapOf_eq_some_iff h, List.mem_filter]
        exact and_iff_left (decide_eq_true hm)
      rw [hsame, Function.update_of_ne hm]
      simp [Builder.view, hm]

theorem Builder.delete_view (ns : List σ) {b : Builder σ} (h : b.Ok) :
    ∃ b', b.delete ns = some b' ∧ b'.base = b.base ∧ b'.Ok ∧
      b'.view = fun m => if m ∈ ns then none else b.view m := by
  induction ns generalizing b with
  | nil => exact ⟨b, rfl, rfl, h, by simp⟩
  | cons n ns ih =>
    obtain ⟨b₁, hstep, hbase₁, hok₁, hview₁⟩ := b.delName_view h n
    obtain ⟨b₂, hrest, hbase₂, hok₂, hview₂⟩ := ih hok₁
    refine ⟨b₂, ?_, hbase₂.trans hbase₁, hok₂, ?_⟩
    · rw [Builder.delete, List.foldlM_cons, hstep]
      exact hrest
    · rw [hview₂, hview₁]
      ext1 m
      by_cases hm : m = n
      · simp [hm]
      · simp [hm]

/-- A call does to the map of a builder what it says. -/
theorem Builder.change_view {b : Builder σ} (h : b.Ok) (c : Change σ) :
    ∃ b', b.change c = some b' ∧ b'.base = b.base ∧ b'.Ok ∧ b'.view = c.apply b.view := by
  cases c with
  | set n v => exact ⟨b.set n v, rfl, rfl, b.set_ok h n v, b.set_view h n v⟩
  | del ns => exact b.delete_view ns h

/-- **Calls of a builder** do not panic, and do to its map what they say, in order. -/
theorem Builder.run_view (cs : List (Change σ)) {b : Builder σ} (h : b.Ok) :
    ∃ b', b.run cs = some b' ∧ b'.base = b.base ∧ b'.Ok ∧
      b'.view = cs.foldl Change.apply b.view := by
  induction cs generalizing b with
  | nil => exact ⟨b, rfl, rfl, h, rfl⟩
  | cons c cs ih =>
    obtain ⟨b₁, hstep, hbase₁, hok₁, hview₁⟩ := b.change_view h c
    obtain ⟨b₂, hrest, hbase₂, hok₂, hview₂⟩ := ih hok₁
    refine ⟨b₂, ?_, hbase₂.trans hbase₁, hok₂, ?_⟩
    · rw [Builder.run, List.foldlM_cons, hstep]
      exact hrest
    · rw [hview₂, hview₁, List.foldl_cons]

end Changes

section Reconciled

variable {σ : Type} [LinearOrder σ] [DecidableEq σ]

omit [LinearOrder σ] in
theorem Builder.unique_kept_append {b : Builder σ} (hbase : Unique b.base) (h : b.Ok) :
    Unique (b.kept ++ b.add) := by
  have hkept : Unique b.kept := hbase.sublist (List.filter_sublist.map Label.name)
  rw [Unique, List.map_append, List.nodup_append]
  refine ⟨hkept, h, fun n hn m hm heq => ?_⟩
  obtain ⟨l, hl, rfl⟩ := List.mem_map.mp hn
  obtain ⟨a, ha, rfl⟩ := List.mem_map.mp hm
  exact (of_decide_eq_true (List.mem_filter.mp hl).2).2 a ha heq

omit [LinearOrder σ] in
/-- The labels that are kept and the labels that are added make the map of the builder. -/
theorem Builder.mapOf_kept_append {b : Builder σ} (hbase : Unique b.base) (h : b.Ok) :
    mapOf (b.kept ++ b.add) = b.view := by
  ext n v
  rw [mapOf_eq_some_iff (b.unique_kept_append hbase h), List.mem_append, Builder.view]
  have hkept : ⟨n, v⟩ ∈ b.kept ↔
      mapOf b.base n = some v ∧ n ∉ b.del ∧ mapOf b.add n = none := by
    rw [Builder.kept, List.mem_filter, decide_eq_true_iff, mapOf_eq_some_iff hbase,
      mapOf_eq_none_iff h]
    simp only [ne_comm]
  rw [hkept, ← mapOf_eq_some_iff h]
  cases hadd : mapOf b.add n with
  | none => by_cases hdel : n ∈ b.del <;> simp [hdel]
  | some w => simp

/-- `Labels` is sorted, and is the map that the builder stands for. -/
theorem Builder.labels_view (s : NameSort σ) {b : Builder σ} (hbase : Sorted b.base) (h : b.Ok) :
    Sorted (b.labels s) ∧ mapOf (b.labels s) = b.view := by
  unfold Builder.labels
  split_ifs with hnone
  · refine ⟨hbase, ?_⟩
    have hdel := List.eq_nil_of_length_eq_zero hnone.1
    have hadd := List.eq_nil_of_length_eq_zero hnone.2
    ext1 n
    simp [Builder.view, hdel, hadd, mapOf]
  · have hunique := b.unique_kept_append hbase.unique h
    exact ⟨s.sorted_sort hunique, (s.mapOf_sort hunique).trans (b.mapOf_kept_append hbase.unique h)⟩

/-- **The labels of a builder**: the changes, made to the map of the base. -/
theorem labels_run (s : NameSort σ) {base : List (Label σ)} (hbase : Sorted base)
    (cs : List (Change σ)) :
    ∃ b, (newBuilder base).run cs = some b ∧ Sorted (b.labels s) ∧
      mapOf (b.labels s) = cs.foldl Change.apply (mapOf base) := by
  obtain ⟨b, hrun, hb, hok, hview⟩ := (newBuilder base).run_view cs List.nodup_nil
  have hstart : (newBuilder base).view = mapOf base := by
    ext1 n
    simp [Builder.view, newBuilder, mapOf]
  obtain ⟨hsorted, hmap⟩ := b.labels_view s (hb ▸ hbase) hok
  exact ⟨b, hrun, hsorted, by rw [hmap, hview, hstart]⟩

end Reconciled

/-! ### The bytes that are hashed -/

/-- A string of Go: its bytes, whether or not they are a text. -/
abbrev GoString := List UInt8

/-- Bytes are compared as numbers, and strings byte by byte. -/
instance byteOrder : LinearOrder UInt8 where
  le_refl := fun _ => UInt8.le_rfl
  le_trans := fun _ _ _ => UInt8.le_trans
  le_antisymm := fun _ _ => UInt8.le_antisymm
  le_total := UInt8.le_total
  lt_iff_le_not_ge := fun _ _ => by
    rw [UInt8.not_le]
    exact ⟨fun h => ⟨UInt8.le_of_lt h, h⟩, And.right⟩
  toDecidableLE := inferInstance
  toDecidableEq := inferInstance
  toDecidableLT := inferInstance

def sep : UInt8 := 0xff

/-- What a label adds to the bytes. -/
def entry (l : Label GoString) : GoString := l.name ++ [sep] ++ l.value ++ [sep]

/-- The bytes of `Hash`. -/
def hashBytes (ls : List (Label GoString)) : GoString := ls.flatMap entry

/-- `Hash`. -/
def hash (xxhash : GoString → UInt64) (ls : List (Label GoString)) : UInt64 := xxhash (hashBytes ls)

/-- The bytes of `HashForLabels`: the labels and the names are read side by side. -/
def hashForLabelsBytes : List (Label GoString) → List GoString → GoString
  | l :: ls, n :: ns =>
    if n < l.name then hashForLabelsBytes (l :: ls) ns
    else if l.name < n then hashForLabelsBytes ls (n :: ns)
    else entry l ++ hashForLabelsBytes ls ns
  | _, _ => []
termination_by ls ns => ls.length + ns.length

/-- `HashForLabels`. It also returns the bytes, for the next call to write over. -/
def hashForLabels (xxhash : GoString → UInt64) (ls : List (Label GoString)) (names : List GoString) :
    UInt64 × GoString :=
  (xxhash (hashForLabelsBytes ls names), hashForLabelsBytes ls names)

/-- The string is valid UTF-8. -/
def IsUtf8 (s : GoString) : Prop := ∃ t, HexText.utf8Bytes t = s

/-- The name and the value are valid UTF-8. -/
def Label.Utf8 (l : Label GoString) : Prop := IsUtf8 l.name ∧ IsUtf8 l.value

/-- The names of a list, or sorted names with those of a sorted list among them. -/
def AllNames (ls : List (Label GoString)) (names : List GoString) : Prop :=
  names = ls.map Label.name ∨
    (Sorted ls ∧ names.Pairwise (· ≤ ·) ∧ ∀ l ∈ ls, l.name ∈ names)

theorem IsUtf8.sep_notMem {s : GoString} (h : IsUtf8 s) : sep ∉ s := by
  obtain ⟨t, rfl⟩ := h
  exact HexText.ff_notMem_utf8Bytes t

/-- A string without the separator ends at the first one. -/
theorem append_sep_inj {x y u v : GoString} (hx : sep ∉ x) (hy : sep ∉ y) :
    x ++ sep :: u = y ++ sep :: v ↔ x = y ∧ u = v := by
  induction x generalizing y with
  | nil =>
    cases y with
    | nil => simp
    | cons c y => simp [(List.ne_of_not_mem_cons hy)]
  | cons b x ih =>
    have hb := List.ne_of_not_mem_cons hx
    cases y with
    | nil => simp [hb.symm]
    | cons c y =>
      rw [List.cons_append, List.cons_append, List.cons_eq_cons,
        ih (List.not_mem_of_not_mem_cons hx) (List.not_mem_of_not_mem_cons hy), List.cons_eq_cons,
        and_assoc]

theorem hashBytes_cons (l : Label GoString) (ls : List (Label GoString)) :
    hashBytes (l :: ls) = l.name ++ sep :: (l.value ++ sep :: hashBytes ls) := by
  simp [hashBytes, entry]

/-- **The bytes tell the lists apart**: neither a name nor a value has the byte that ends it. -/
theorem hashBytes_inj {ls ls' : List (Label GoString)} (h : ∀ l ∈ ls, l.Utf8)
    (h' : ∀ l ∈ ls', l.Utf8) : hashBytes ls = hashBytes ls' ↔ ls = ls' := by
  refine ⟨fun heq => ?_, congrArg hashBytes⟩
  induction ls generalizing ls' with
  | nil =>
    cases ls' with
    | nil => rfl
    | cons l' ls' => simp [hashBytes, entry] at heq
  | cons l ls ih =>
    cases ls' with
    | nil => simp [hashBytes, entry] at heq
    | cons l' ls' =>
      obtain ⟨hname, hvalue⟩ := h l List.mem_cons_self
      obtain ⟨hname', hvalue'⟩ := h' l' List.mem_cons_self
      rw [hashBytes_cons, hashBytes_cons,
        append_sep_inj hname.sep_notMem hname'.sep_notMem,
        append_sep_inj hvalue.sep_notMem hvalue'.sep_notMem] at heq
      obtain ⟨hn, hv, hrest⟩ := heq
      have htail := ih (fun a ha => h a (List.mem_cons_of_mem l ha))
        (fun a ha => h' a (List.mem_cons_of_mem l' ha)) hrest
      rw [htail]
      congr 1
      cases l
      cases l'
      exact congrArg₂ Label.mk hn hv

/-- A list with its own names. -/
theorem hashForLabelsBytes_own (ls : List (Label GoString)) :
    hashForLabelsBytes ls (ls.map Label.name) = hashBytes ls := by
  induction ls with
  | nil => simp [hashForLabelsBytes, hashBytes]
  | cons l ls ih =>
    rw [List.map_cons, hashForLabelsBytes, if_neg (lt_irrefl _), if_neg (lt_irrefl _), ih]
    rfl

/-- Names that no label has are passed over. -/
theorem hashForLabelsBytes_among {ls : List (Label GoString)} {names : List GoString}
    (hls : Sorted ls) (hnames : names.Pairwise (· ≤ ·)) (hall : ∀ l ∈ ls, l.name ∈ names) :
    hashForLabelsBytes ls names = hashBytes ls := by
  induction names generalizing ls with
  | nil =>
    cases ls with
    | nil => simp [hashForLabelsBytes, hashBytes]
    | cons l ls => exact absurd (hall l List.mem_cons_self) List.not_mem_nil
  | cons n ns ih =>
    obtain ⟨hfirst, hns⟩ := List.pairwise_cons.mp hnames
    cases ls with
    | nil => simp [hashForLabelsBytes, hashBytes]
    | cons l ls =>
      obtain ⟨hleast, htail⟩ := List.pairwise_cons.mp hls
      -- the least label is no smaller than the least name
      have hle : n ≤ l.name := by
        rcases List.mem_cons.mp (hall l List.mem_cons_self) with heq | hmem
        · exact heq.ge
        · exact hfirst _ hmem
      rw [hashForLabelsBytes]
      rcases hle.lt_or_eq with hlt | heq
      · rw [if_pos hlt]
        refine ih hls hns fun a ha => ?_
        refine (List.mem_cons.mp (hall a ha)).resolve_left fun hn => ?_
        rcases List.mem_cons.mp ha with rfl | ha'
        · exact absurd hn hlt.ne'
        · exact absurd hn (hlt.trans (hleast a ha')).ne'
      · rw [if_neg heq.not_gt, if_neg heq.not_lt, hashBytes, List.flatMap_cons]
        congr 1
        refine ih htail hns fun a ha => ?_
        refine (List.mem_cons.mp (hall a (List.mem_cons_of_mem l ha))).resolve_left fun hn => ?_
        exact absurd (hn.trans heq) (hleast a ha).ne'

theorem hashForLabelsBytes_eq {ls : List (Label GoString)} {names : List GoString}
    (h : AllNames ls names) : hashForLabelsBytes ls names = hashBytes ls := by
  rcases h with rfl | ⟨hls, hnames, hall⟩
  · exact hashForLabelsBytes_own ls
  · exact hashForLabelsBytes_among hls hnames hall

/-- The bytes of a sorted list tell which map its labels are. -/
theorem hashBytes_new_inj (s : NameSort GoString) {ls ls' : List (Label GoString)} (h : Unique ls)
    (h' : Unique ls') (hu : ∀ l ∈ ls, l.Utf8) (hu' : ∀ l ∈ ls', l.Utf8) :
    hashBytes (new s ls) = hashBytes (new s ls') ↔ mapOf ls = mapOf ls' := by
  have hsorted := s.sorted_sort h
  have hsorted' := s.sorted_sort h'
  rw [new, new, hashBytes_inj (fun l hl => hu l ((s.perm ls).mem_iff.mp hl))
    (fun l hl => hu' l ((s.perm ls').mem_iff.mp hl)), ← s.mapOf_sort h, ← s.mapOf_sort h',
    mapOf_eq_iff_perm hsorted.unique hsorted'.unique]
  exact ⟨fun heq => heq ▸ List.Perm.refl _, hsorted.eq_of_perm hsorted'⟩

/-- **Changed labels, and the bytes that stand for labels.** -/
theorem labels_of_changes_and_hash (s : NameSort GoString) {base : List (Label GoString)}
    (hbase : Sorted base) (cs : List (Change GoString)) :
    (∃ b, (newBuilder base).run cs = some b ∧ Sorted (b.labels s) ∧
      mapOf (b.labels s) = cs.foldl Change.apply (mapOf base)) ∧
    (∀ ls ls' : List (Label GoString), (∀ l ∈ ls, l.Utf8) → (∀ l ∈ ls', l.Utf8) →
      (hashBytes ls = hashBytes ls' ↔ ls = ls') ∧
      (∀ names names', AllNames ls names → AllNames ls' names' →
        (hashForLabelsBytes ls names = hashForLabelsBytes ls' names' ↔ ls = ls')) ∧
      (Unique ls → Unique ls' →
        Sorted (new s ls) ∧ (hashBytes (new s ls) = hashBytes (new s ls') ↔ mapOf ls = mapOf ls'))) := by
  refine ⟨labels_run s hbase cs, fun ls ls' hu hu' => ⟨hashBytes_inj hu hu', ?_, ?_⟩⟩
  · intro names names' hnames hnames'
    rw [hashForLabelsBytes_eq hnames, hashForLabelsBytes_eq hnames']
    exact hashBytes_inj hu hu'
  · exact fun h h' => ⟨s.sorted_sort h, hashBytes_new_inj s h h' hu hu'⟩

/-- A label that is set, deleted with another one, and set again. -/
theorem labels_of_changes_and_hash_again :
    (∃ b, (newBuilder [⟨[97], [49]⟩, ⟨[98], [50]⟩]).run
        [.set [97] [53], .del [[97], [98]], .set [98] [51]] = some b ∧
      Sorted (b.labels (stableSort : NameSort GoString)) ∧
      mapOf (b.labels stableSort) [98] = some [51] ∧ mapOf (b.labels stableSort) [97] = none) ∧
    (hashBytes [⟨[97], [49]⟩] = hashBytes [⟨[97], [53]⟩] ↔
      [(⟨[97], [49]⟩ : Label GoString)] = [⟨[97], [53]⟩]) := by
  have hbase : Sorted [(⟨[97], [49]⟩ : Label GoString), ⟨[98], [50]⟩] := by
    unfold Sorted
    decide
  obtain ⟨⟨b, hrun, hsorted, hmap⟩, hhash⟩ := labels_of_changes_and_hash stableSort hbase
    [.set [97] [53], .del [[97], [98]], .set [98] [51]]
  have hutf8 : ∀ c : Char, ∀ l ∈ [(⟨[97], String.utf8EncodeChar c⟩ : Label GoString)], l.Utf8 := by
    intro c l hl
    obtain rfl := List.mem_singleton.mp hl
    exact ⟨⟨"a", rfl⟩, ⟨String.ofList [c], by simp [HexText.utf8Bytes]⟩⟩
  refine ⟨⟨b, hrun, hsorted, ?_, ?_⟩, (hhash _ _ (hutf8 '1') (hutf8 '5')).1⟩
  · rw [hmap]
    rfl
  · rw [hmap]
    rfl

end QueryService.Utils.Labels
