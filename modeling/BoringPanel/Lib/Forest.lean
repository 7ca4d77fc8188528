import Mathlib.Data.Finset.Card

/-!
# Forests given by parent links

A graph in which a node has one parent or none (`parent`), and the children of a node are a list
(`IsChildren`). The links may form cycles: a node is *in a tree* if it is some steps below a node without
parent (`HasDepth`), and the depth tells the generations below and the line of ancestors above it apart.

`takeFamilies` takes lists one after another, whole, up to the first that is as long as a bound, of which it
takes that many elements.

A forest may also be read from its roots and the children of its nodes, and then a node may be at several paths
(`nodeAt`). Where the children are those of links, each node is at one path if and only if the roots and the
children of the links are distinct (`nodeAt_injective`, `nodup_of_occursOnce`).
-/

namespace Forest

variable {α : Type}

/-! ### Depth -/

section Depth

variable (parent : α → Option α)

/-- The steps from a node up to one without parent. -/
inductive HasDepth : α → Nat → Prop
  | root {v : α} (h : parent v = none) : HasDepth v 0
  | child {v p : α} {d : Nat} (h : parent v = some p) (hp : HasDepth p d) : HasDepth v (d + 1)

/-- A node from which the links lead to one without parent. -/
def InTree (v : α) : Prop := ∃ d, HasDepth parent v d

/-- The first `n` nodes on the way up from a node. -/
def lineage : Nat → α → List α
  | 0, _ => []
  | n + 1, v => v :: (parent v).toList.flatMap (lineage n)

/-- A node is another one or a descendant of it. -/
inductive Below (r : α) : α → Prop
  | refl : Below r r
  | child {p v : α} (hp : Below r p) (h : parent v = some p) : Below r v

variable {parent} {v w p r : α} {d e n : Nat}

theorem HasDepth.unique (h : HasDepth parent v d) (h' : HasDepth parent v e) : d = e := by
  induction h generalizing e with
  | root h =>
    cases h' with
    | root _ => rfl
    | child hp _ => rw [h] at hp; cases hp
  | child h _ ih =>
    cases h' with
    | root hv => rw [h] at hv; cases hv
    | child hv hp' =>
      obtain rfl := Option.some.inj (h.symm.trans hv)
      rw [ih hp']

/-- The trees are those of the nodes without parent. -/
theorem inTree_iff : InTree parent v ↔ ∃ r, parent r = none ∧ Below parent r v := by
  constructor
  · rintro ⟨d, h⟩
    induction h with
    | root h => exact ⟨_, h, .refl⟩
    | child h _ ih =>
      obtain ⟨r, hr, hbelow⟩ := ih
      exact ⟨r, hr, .child hbelow h⟩
  · rintro ⟨r, hr, hbelow⟩
    induction hbelow with
    | refl => exact ⟨0, .root hr⟩
    | child _ h ih =>
      obtain ⟨d, hd⟩ := ih
      exact ⟨d + 1, .child h hd⟩

theorem lineage_succ_of_none (h : parent v = none) : lineage parent (n + 1) v = [v] := by
  rw [lineage, h]
  rfl

theorem lineage_succ_of_some (h : parent v = some p) :
    lineage parent (n + 1) v = v :: lineage parent n p := by
  rw [lineage, h]
  exact congrArg (v :: ·) (List.append_nil _)

/-- The ancestors are less deep. -/
theorem depth_of_mem_lineage (h : HasDepth parent v d) (hw : w ∈ lineage parent n v) :
    ∃ e ≤ d, HasDepth parent w e := by
  induction n generalizing v d with
  | zero => exact absurd hw List.not_mem_nil
  | succ n ih =>
    cases h with
    | root hv =>
      rw [lineage_succ_of_none hv, List.mem_singleton] at hw
      exact ⟨0, Nat.le_refl 0, hw ▸ .root hv⟩
    | child hv hp =>
      rw [lineage_succ_of_some hv] at hw
      rcases List.mem_cons.mp hw with rfl | hw
      · exact ⟨_, Nat.le_refl _, .child hv hp⟩
      · obtain ⟨e, hle, he⟩ := ih hp hw
        exact ⟨e, Nat.le_succ_of_le hle, he⟩

end Depth

/-! ### Families -/

/-- The children of a node, each once. -/
structure IsChildren (parent : α → Option α) (children : α → List α) : Prop where
  mem_iff : ∀ {p v : α}, v ∈ children p ↔ parent v = some p
  nodup : ∀ p, (children p).Nodup

section Families

variable {parent : α → Option α} {children : α → List α} {v w p : α} {vs : List α} {d n : Nat}

/-- The children of some nodes. -/
def next (children : α → List α) (vs : List α) : List α := vs.flatMap children

/-- The families of some nodes, of their children, and so on for some generations. -/
def families (children : α → List α) : Nat → List α → List (List α)
  | 0, _ => []
  | n + 1, vs => vs.map children ++ families children n (next children vs)

@[simp] theorem families_nil (n : Nat) : families children n [] = [] := by
  induction n with
  | zero => rfl
  | succ n ih => exact ih

theorem flatten_map_children : (vs.map children).flatten = next children vs := List.flatMap_def.symm

/-- Nodes of which none is the parent of two families have distinct children. -/
theorem IsChildren.nodup_next (h : IsChildren parent children) (hvs : vs.Nodup) :
    (next children vs).Nodup := by
  refine List.nodup_flatMap.mpr ⟨fun v _ => h.nodup v, hvs.imp fun hne v hv hv' => hne ?_⟩
  exact Option.some.inj ((h.mem_iff.mp hv).symm.trans (h.mem_iff.mp hv'))

theorem IsChildren.depth_next (h : IsChildren parent children) (hvs : ∀ v ∈ vs, HasDepth parent v d)
    (hv : v ∈ next children vs) : HasDepth parent v (d + 1) := by
  obtain ⟨p, hp, hvp⟩ := List.mem_flatMap.mp hv
  exact .child (h.mem_iff.mp hvp) (hvs p hp)

/-- The members of the families are deeper. -/
theorem IsChildren.depth_families (h : IsChildren parent children) (hvs : ∀ v ∈ vs, HasDepth parent v d)
    (hw : w ∈ (families children n vs).flatten) : ∃ e, d < e ∧ HasDepth parent w e := by
  induction n generalizing vs d with
  | zero => exact absurd hw List.not_mem_nil
  | succ n ih =>
    rw [families, List.flatten_append, List.mem_append, flatten_map_children] at hw
    rcases hw with hw | hw
    · exact ⟨d + 1, Nat.lt_succ_self d, h.depth_next hvs hw⟩
    · obtain ⟨e, hlt, he⟩ := ih (fun v hv => h.depth_next hvs hv) hw
      exact ⟨e, Nat.lt_of_succ_lt hlt, he⟩

/-- Nobody is in two families. -/
theorem IsChildren.nodup_families (h : IsChildren parent children) (hvs : ∀ v ∈ vs, HasDepth parent v d)
    (hnd : vs.Nodup) : (families children n vs).flatten.Nodup := by
  induction n generalizing vs d with
  | zero => exact List.nodup_nil
  | succ n ih =>
    rw [families, List.flatten_append, flatten_map_children]
    have hnext : ∀ v ∈ next children vs, HasDepth parent v (d + 1) := fun v hv => h.depth_next hvs hv
    refine List.nodup_append.mpr ⟨h.nodup_next hnd, ih hnext (h.nodup_next hnd), ?_⟩
    rintro v hv w hw rfl
    -- the one is a generation deeper than the other
    obtain ⟨e, hlt, he⟩ := h.depth_families hnext hw
    have := (hnext v hv).unique he
    omega

end Families

/-! ### Traversals -/

section Traversal

/-- A traversal of a tree from its root: some nodes are done, and their other children are in the queue. -/
structure Traversal (parent : α → Option α) (root : α) (done queue : List α) : Prop where
  isRoot : parent root = none
  nodup : (done ++ queue).Nodup
  root_mem : root ∈ done ++ queue
  below : ∀ v ∈ done ++ queue, Below parent root v
  entered : ∀ v ∈ done ++ queue, v = root ∨ ∃ p ∈ done, parent v = some p
  closed : ∀ p ∈ done, ∀ v, parent v = some p → v ∈ done ++ queue

namespace Traversal

variable {parent : α → Option α} {children : α → List α} {root v w : α} {done queue : List α}

theorem start (h : parent root = none) : Traversal parent root [] [root] where
  isRoot := h
  nodup := List.nodup_singleton root
  root_mem := List.mem_singleton_self root
  below _ hv := List.mem_singleton.mp hv ▸ .refl
  entered _ hv := .inl (List.mem_singleton.mp hv)
  closed _ hp := absurd hp List.not_mem_nil

/-- The children of a node in the queue have not been seen. -/
theorem child_not_mem (h : Traversal parent root done (v :: queue)) (hw : parent w = some v) :
    w ∉ done ++ v :: queue := by
  intro hmem
  rcases h.entered w hmem with rfl | ⟨p, hp, hwp⟩
  · rw [h.isRoot] at hw
    cases hw
  · obtain rfl := Option.some.inj (hw.symm.trans hwp)
    exact (List.nodup_append.mp h.nodup).2.2 v hp v List.mem_cons_self rfl

theorem step (hchildren : IsChildren parent children) (h : Traversal parent root done (v :: queue)) :
    Traversal parent root (done ++ [v]) (queue ++ children v) := by
  have hmem : ∀ w, w ∈ (done ++ [v]) ++ (queue ++ children v) ↔
      w ∈ done ++ v :: queue ∨ parent w = some v := by
    intro w
    simp only [List.mem_append, List.mem_cons, hchildren.mem_iff]
    tauto
  have hlist : (done ++ [v]) ++ (queue ++ children v) = (done ++ v :: queue) ++ children v := by
    simp
  refine ⟨h.isRoot, ?_, (hmem root).mpr (.inl h.root_mem), ?_, ?_, ?_⟩
  · rw [hlist]
    refine List.nodup_append.mpr ⟨h.nodup, hchildren.nodup v, ?_⟩
    rintro w hw c hc rfl
    exact h.child_not_mem (hchildren.mem_iff.mp hc) hw
  · intro w hw
    rcases (hmem w).mp hw with hw | hw
    · exact h.below w hw
    · exact .child (h.below v (List.mem_append_right _ List.mem_cons_self)) hw
  · intro w hw
    rcases (hmem w).mp hw with hw | hw
    · refine (h.entered w hw).imp_right ?_
      rintro ⟨p, hp, hwp⟩
      exact ⟨p, List.mem_append_left _ hp, hwp⟩
    · exact .inr ⟨v, List.mem_append_right _ (List.mem_singleton_self v), hw⟩
  · intro p hp w hw
    rcases List.mem_append.mp hp with hp | hp
    · exact (hmem w).mpr (.inl (h.closed p hp w hw))
    · exact (hmem w).mpr (.inr (List.mem_singleton.mp hp ▸ hw))

/-- **A traversal that has come to its end** has done the whole tree. -/
theorem mem_of_below (h : Traversal parent root done []) (hv : Below parent root v) : v ∈ done := by
  induction hv with
  | refl => exact List.append_nil done ▸ h.root_mem
  | child _ hp ih => exact List.append_nil done ▸ h.closed _ ih _ hp

end Traversal

end Traversal

/-! ### Some of the families -/

section TakeFamilies

variable {n : Nat} {fs gs : List (List α)}

/-- The families up to the first that has `n` members, and the first `n` members of that. -/
def takeFamilies (n : Nat) : List (List α) → List α
  | [] => []
  | f :: fs => if n ≤ f.length then f.take n else f ++ takeFamilies n fs

theorem takeFamilies_sublist : (takeFamilies n fs).Sublist fs.flatten := by
  induction fs with
  | nil => exact List.Sublist.refl _
  | cons f fs ih =>
    rw [takeFamilies, List.flatten_cons]
    split
    · exact (List.take_sublist n f).trans (List.sublist_append_left _ _)
    · exact List.Sublist.append (List.Sublist.refl f) ih

@[simp] theorem takeFamilies_zero : takeFamilies 0 fs = [] := by
  cases fs with
  | nil => rfl
  | cons f fs => exact if_pos (Nat.zero_le _)

/-- Small families are taken whole. -/
theorem takeFamilies_append (h : ∀ f ∈ fs, f.length < n) :
    takeFamilies n (fs ++ gs) = fs.flatten ++ takeFamilies n gs := by
  induction fs with
  | nil => rfl
  | cons f fs ih =>
    obtain ⟨hf, hfs⟩ := List.forall_mem_cons.mp h
    rw [List.cons_append, takeFamilies, if_neg (Nat.not_le.mpr hf), ih hfs, List.flatten_cons,
      List.append_assoc]

/-- Nothing is taken after a large family. -/
theorem takeFamilies_append_of_large (h : ∃ f ∈ fs, n ≤ f.length) :
    takeFamilies n (fs ++ gs) = takeFamilies n fs := by
  induction fs with
  | nil =>
    obtain ⟨f, hf, -⟩ := h
    exact absurd hf List.not_mem_nil
  | cons f fs ih =>
    rw [List.cons_append, takeFamilies, takeFamilies]
    split
    · rfl
    · rename_i hsmall
      obtain ⟨g, hg, hlarge⟩ := h
      rcases List.mem_cons.mp hg with rfl | hg
      · exact absurd hlarge hsmall
      · rw [ih ⟨g, hg, hlarge⟩]

/-- The parent of a node that is taken is one of the nodes at the top, or has been taken. -/
theorem IsChildren.exists_parent {parent : α → Option α} {children : α → List α} {vs : List α} {w : α}
    {k : Nat} (h : IsChildren parent children) (hw : w ∈ takeFamilies n (families children k vs)) :
    ∃ p, (p ∈ vs ∨ p ∈ takeFamilies n (families children k vs)) ∧ parent w = some p := by
  have hnext {vs : List α} (hw : w ∈ next children vs) : ∃ p ∈ vs, parent w = some p := by
    obtain ⟨p, hp, hwp⟩ := List.mem_flatMap.mp hw
    exact ⟨p, hp, h.mem_iff.mp hwp⟩
  induction k generalizing vs with
  | zero => exact absurd hw List.not_mem_nil
  | succ k ih =>
    rw [families] at hw ⊢
    by_cases hlarge : ∃ f ∈ vs.map children, n ≤ f.length
    · rw [takeFamilies_append_of_large hlarge] at hw
      obtain ⟨p, hp, hwp⟩ := hnext (flatten_map_children ▸ takeFamilies_sublist.subset hw)
      exact ⟨p, .inl hp, hwp⟩
    · have hsmall : ∀ f ∈ vs.map children, f.length < n := fun f hf =>
        Nat.lt_of_not_le fun hle => hlarge ⟨f, hf, hle⟩
      rw [takeFamilies_append hsmall, flatten_map_children] at hw ⊢
      rcases List.mem_append.mp hw with hw | hw
      · obtain ⟨p, hp, hwp⟩ := hnext hw
        exact ⟨p, .inl hp, hwp⟩
      · obtain ⟨p, hp, hwp⟩ := ih hw
        exact ⟨p, .inr (List.mem_append.mpr hp), hwp⟩

end TakeFamilies

/-! ### The families on the way up -/

section Kin

variable {parent : α → Option α} {children : α → List α} {v w p : α} {d n : Nat}

/-- Some nodes, each with its children. -/
def kin (children : α → List α) (vs : List α) : List α := vs.flatMap fun v => v :: children v

theorem mem_kin {vs : List α} : w ∈ kin children vs ↔ ∃ v ∈ vs, w = v ∨ w ∈ children v := by
  simp only [kin, List.mem_flatMap, List.mem_cons]

@[simp] theorem kin_cons (v : α) (vs : List α) :
    kin children (v :: vs) = v :: (children v ++ kin children vs) := List.flatMap_cons

@[simp] theorem kin_nil : kin children [] = [] := rfl

/-- The ancestors and their children are a generation deeper than the node at most. -/
theorem IsChildren.depth_kin (h : IsChildren parent children) (hv : HasDepth parent v d)
    (hw : w ∈ kin children (lineage parent n v)) : ∃ e ≤ d + 1, HasDepth parent w e := by
  obtain ⟨u, hu, hw⟩ := mem_kin.mp hw
  obtain ⟨e, hle, he⟩ := depth_of_mem_lineage hv hu
  rcases hw with rfl | hw
  · exact ⟨e, Nat.le_succ_of_le hle, he⟩
  · exact ⟨e + 1, Nat.succ_le_succ hle, .child (h.mem_iff.mp hw) he⟩

theorem IsChildren.not_mem_children (h : IsChildren parent children) (hv : HasDepth parent v d) :
    v ∉ children v := by
  intro hmem
  have := (HasDepth.child (h.mem_iff.mp hmem) hv).unique hv
  omega

variable [DecidableEq α]

/-- **How many nodes there are**: on the way up, each ancestor after the first is met again as a child. -/
theorem IsChildren.card_kin (h : IsChildren parent children) (hv : HasDepth parent v d) (n : Nat) :
    (kin children (lineage parent (n + 1) v)).toFinset.card + (lineage parent (n + 1) v).length =
      (kin children (lineage parent (n + 1) v)).length + 1 := by
  -- a node with its children, and nothing above it
  have halone : ∀ {u e}, HasDepth parent u e → (kin children [u]).toFinset.card = (children u).length + 1 := by
    intro u e hu
    rw [kin_cons, kin_nil, List.append_nil, List.toFinset_card_of_nodup, List.length_cons]
    exact List.nodup_cons.mpr ⟨h.not_mem_children hu, h.nodup u⟩
  induction n generalizing v d with
  | zero =>
    have hone : lineage parent (0 + 1) v = [v] := by cases hv with
      | root hv => exact lineage_succ_of_none hv
      | child hv _ => exact lineage_succ_of_some hv
    rw [hone, halone hv]
    simp
  | succ n ih =>
    cases hv with
    | root hnone =>
      rw [lineage_succ_of_none hnone, halone (.root hnone)]
      simp
    | child hsome hp =>
      rename_i p d
      have hv : HasDepth parent v (d + 1) := .child hsome hp
      have ih := ih hp
      rw [lineage_succ_of_some hsome]
      -- the node is a child of the next one
      have hmem : v ∈ kin children (lineage parent (n + 1) p) :=
        mem_kin.mpr ⟨p, List.mem_cons_self, .inr (h.mem_iff.mpr hsome)⟩
      have hset : (kin children (v :: lineage parent (n + 1) p)).toFinset =
          (children v).toFinset ∪ (kin children (lineage parent (n + 1) p)).toFinset := by
        ext w
        simp only [kin_cons, List.mem_toFinset, List.mem_cons, List.mem_append, Finset.mem_union]
        constructor
        · rintro (rfl | hw)
          · exact .inr hmem
          · exact hw
        · exact .inr
      have hdisjoint : Disjoint (children v).toFinset
          (kin children (lineage parent (n + 1) p)).toFinset := by
        rw [Finset.disjoint_left]
        intro w hw hw'
        obtain ⟨e, hle, he⟩ := h.depth_kin hp (List.mem_toFinset.mp hw')
        have := (HasDepth.child (h.mem_iff.mp (List.mem_toFinset.mp hw)) hv).unique he
        omega
      rw [hset, Finset.card_union_of_disjoint hdisjoint, List.toFinset_card_of_nodup (h.nodup v),
        List.length_cons, kin_cons, List.length_cons, List.length_append]
      omega

end Kin

/-! ### Occurrences -/

section Occurrences

variable (roots : List α) (children : α → List α)

/-- The node at a path, which is written from the node up: each number is a place among the children of the
next node, and the last one a place among the roots. -/
def nodeAt : List Nat → Option α
  | [] => none
  | [i] => roots[i]?
  | i :: j :: path => (nodeAt (j :: path)).bind fun p => (children p)[i]?

/-- There is a node at some path. -/
def Occurs (v : α) : Prop := ∃ path, nodeAt roots children path = some v

/-- A node is at one path. -/
def OccursOnce (v : α) : Prop := ∃! path, nodeAt roots children path = some v

variable {roots children} {v w p : α} {i j : Nat} {path : List Nat}

theorem OccursOnce.occurs (h : OccursOnce roots children v) : Occurs roots children v := h.exists

theorem nodeAt_cons (h : nodeAt roots children path = some p) :
    nodeAt roots children (i :: path) = (children p)[i]? := by
  cases path with
  | nil => cases h
  | cons j path =>
    rw [nodeAt, h]
    rfl

/-- A node is one of the roots, or one of the children of a node. -/
theorem nodeAt_eq_some_iff : nodeAt roots children path = some v ↔
    (∃ i, path = [i] ∧ roots[i]? = some v) ∨
      ∃ i rest p, path = i :: rest ∧ nodeAt roots children rest = some p ∧ (children p)[i]? = some v := by
  constructor
  · intro h
    match path with
    | [] => cases h
    | [i] => exact .inl ⟨i, rfl, h⟩
    | i :: j :: path =>
      obtain ⟨p, hp, hv⟩ := Option.bind_eq_some_iff.mp h
      exact .inr ⟨i, j :: path, p, rfl, hp, hv⟩
  · rintro (⟨i, rfl, hv⟩ | ⟨i, rest, p, rfl, hp, hv⟩)
    · exact hv
    · exact (nodeAt_cons hp).trans hv

theorem occurs_of_mem_roots (h : v ∈ roots) : Occurs roots children v := by
  obtain ⟨i, hi⟩ := List.mem_iff_getElem?.mp h
  exact ⟨[i], hi⟩

theorem Occurs.child (hp : Occurs roots children p) (h : v ∈ children p) : Occurs roots children v := by
  obtain ⟨path, hpath⟩ := hp
  obtain ⟨i, hi⟩ := List.mem_iff_getElem?.mp h
  exact ⟨i :: path, (nodeAt_cons hpath).trans hi⟩

/-- What holds of the roots, and of the children of what it holds of, holds of all that occurs. -/
theorem Occurs.rec_on {P : α → Prop} (h : Occurs roots children v) (hroots : ∀ v ∈ roots, P v)
    (hchildren : ∀ p v, P p → v ∈ children p → P v) : P v := by
  obtain ⟨path, hpath⟩ := h
  induction path generalizing v with
  | nil => cases hpath
  | cons i path ih =>
    rcases nodeAt_eq_some_iff.mp hpath with ⟨j, -, hv⟩ | ⟨j, rest, p, hcons, hp, hv⟩
    · exact hroots v (List.mem_of_getElem? hv)
    · obtain ⟨rfl, rfl⟩ := List.cons.inj hcons
      exact hchildren p v (ih hp) (List.mem_of_getElem? hv)

end Occurrences

/-! ### Forests of links -/

section Links

variable [DecidableEq α]

/-- The children of a node, where each link is a child and its parent. -/
def childrenOf (links : List (α × α)) (p : α) : List α := (links.filter fun link => link.2 = p).map Prod.fst

variable {roots : List α} {links : List (α × α)} {v p : α} {i j : Nat}

theorem mem_childrenOf : v ∈ childrenOf links p ↔ (v, p) ∈ links := by
  simp [childrenOf]

theorem childrenOf_append (links links' : List (α × α)) (p : α) :
    childrenOf (links ++ links') p = childrenOf links p ++ childrenOf links' p := by
  simp [childrenOf]

theorem childrenOf_eq_nil (h : p ∉ links.map Prod.snd) : childrenOf links p = [] := by
  refine List.eq_nil_iff_forall_not_mem.mpr fun v hv => h ?_
  exact List.mem_map_of_mem (f := Prod.snd) (mem_childrenOf.mp hv)

/-- The children of a node are distinct if each node has one link. -/
theorem nodup_childrenOf (h : (links.map Prod.fst).Nodup) (p : α) : (childrenOf links p).Nodup :=
  h.sublist (List.filter_sublist.map _)

/-- The place of a child is that of one node only. -/
theorem parent_unique (h : (links.map Prod.fst).Nodup) {q : α} (hp : v ∈ childrenOf links p)
    (hq : v ∈ childrenOf links q) : p = q :=
  congrArg Prod.snd (List.inj_on_of_nodup_map h (mem_childrenOf.mp hp) (mem_childrenOf.mp hq) rfl)

theorem mem_children_of_place (h : (childrenOf links p)[i]? = some v) : v ∈ links.map Prod.fst :=
  List.mem_map_of_mem (f := Prod.fst) (mem_childrenOf.mp (List.mem_of_getElem? h))

omit [DecidableEq α] in
theorem place_unique {l : List α} (hl : l.Nodup) (hi : l[i]? = some v) (hj : l[j]? = some v) : i = j := by
  obtain ⟨hlt, -⟩ := List.getElem?_eq_some_iff.mp hi
  exact (List.getElem?_inj hlt hl).mp (hi.trans hj.symm)

/-- **Nodes that are entered once are at one path.** -/
theorem nodeAt_injective (h : (roots ++ links.map Prod.fst).Nodup) {path path' : List Nat}
    (hv : nodeAt roots (childrenOf links) path = some v) (hv' : nodeAt roots (childrenOf links) path' = some v) :
    path = path' := by
  obtain ⟨hroots, hlinks, hdisjoint⟩ := List.nodup_append.mp h
  induction path generalizing v path' with
  | nil => cases hv
  | cons i path ih =>
    rcases nodeAt_eq_some_iff.mp hv with ⟨i, hcons, hi⟩ | ⟨i, rest, p, hcons, hp, hi⟩ <;>
      rcases nodeAt_eq_some_iff.mp hv' with ⟨j, rfl, hj⟩ | ⟨j, rest', q, rfl, hq, hj⟩
    · rw [hcons, place_unique hroots hi hj]
    · exact absurd rfl (hdisjoint v (List.mem_of_getElem? hi) v (mem_children_of_place hj))
    · exact absurd rfl (hdisjoint v (List.mem_of_getElem? hj) v (mem_children_of_place hi))
    · obtain rfl := parent_unique hlinks (List.mem_of_getElem? hi) (List.mem_of_getElem? hj)
      obtain ⟨rfl, rfl⟩ := List.cons.inj hcons
      rw [place_unique (nodup_childrenOf hlinks _) hi hj, ih hp hq]

omit [DecidableEq α] in
/-- A list is without repetitions if no element has two places in it. -/
theorem nodup_of_place_unique {l : List α} (h : ∀ {v : α} {i j : Nat}, l[i]? = some v → l[j]? = some v → i = j) : l.Nodup := by
  refine List.pairwise_iff_getElem.mpr fun i j hi hj hij heq => ?_
  have hplace := h (List.getElem?_eq_getElem hi) (heq ▸ List.getElem?_eq_getElem hj)
  exact absurd hplace (Nat.ne_of_lt hij)

/-- **Nodes that are at one path are entered once**, where the parents of all links occur. -/
theorem nodup_of_occursOnce (hparents : ∀ link ∈ links, Occurs roots (childrenOf links) link.2)
    (h : ∀ v, Occurs roots (childrenOf links) v → OccursOnce roots (childrenOf links) v) :
    (roots ++ links.map Prod.fst).Nodup := by
  have hunique : ∀ {path path' : List Nat} {v : α}, nodeAt roots (childrenOf links) path = some v →
      nodeAt roots (childrenOf links) path' = some v → path = path' := fun {path path' v} hv hv' =>
    (h v ⟨path, hv⟩).unique hv hv'
  have hchild : ∀ {v p : α}, (v, p) ∈ links → ∃ path, nodeAt roots (childrenOf links) path = some p ∧
      ∃ i : Nat, (childrenOf links p)[i]? = some v := by
    intro v p hlink
    obtain ⟨path, hpath⟩ := hparents _ hlink
    exact ⟨path, hpath, List.mem_iff_getElem?.mp (mem_childrenOf.mpr hlink)⟩
  have hroots : roots.Nodup :=
    nodup_of_place_unique fun {v i j} hi hj => (List.cons.inj (@hunique [i] [j] v hi hj)).1
  have hlinks : (links.map Prod.fst).Nodup := by
    refine List.nodup_iff_count_le_one.mpr fun v => ?_
    by_cases hv : v ∈ links.map Prod.fst
    · obtain ⟨⟨v, p⟩, hlink, rfl⟩ := List.mem_map.mp hv
      obtain ⟨path, hpath, i, hi⟩ := hchild hlink
      -- all links of the node have the same parent
      have hsame : ∀ q, (v, q) ∈ links → q = p := by
        intro q hq
        obtain ⟨path', hpath', j, hj⟩ := hchild hq
        have hpaths := hunique ((nodeAt_cons hpath).trans hi) ((nodeAt_cons hpath').trans hj)
        rw [(List.cons.inj hpaths).2, hpath'] at hpath
        exact Option.some.inj hpath
      have hnodup : (childrenOf links p).Nodup := nodup_of_place_unique fun hi hj =>
        (List.cons.inj (hunique ((nodeAt_cons hpath).trans hi) ((nodeAt_cons hpath).trans hj))).1
      have hcount : (links.map Prod.fst).count v = (childrenOf links p).count v := by
        rw [childrenOf, List.count_eq_countP, List.count_eq_countP, List.countP_map, List.countP_map, List.countP_filter]
        refine List.countP_congr fun link hmem => ?_
        simp only [Function.comp_apply, beq_iff_eq, Bool.and_eq_true, decide_eq_true_eq, iff_self_and]
        rintro rfl
        exact hsame _ hmem
      exact hcount ▸ List.nodup_iff_count_le_one.mp hnodup v
    · exact (List.count_eq_zero_of_not_mem hv).le.trans (Nat.zero_le 1)
  refine List.nodup_append.mpr ⟨hroots, hlinks, ?_⟩
  rintro v hv w hw rfl
  obtain ⟨⟨v, p⟩, hlink, rfl⟩ := List.mem_map.mp hw
  obtain ⟨path, hpath, j, hj⟩ := hchild hlink
  obtain ⟨i, hi⟩ := List.mem_iff_getElem?.mp hv
  have hpaths := @hunique [i] (j :: path) v hi ((nodeAt_cons hpath).trans hj)
  rw [← (List.cons.inj hpaths).2] at hpath
  cases hpath

/-- A node that is entered once occurs once. -/
theorem Occurs.once (hv : Occurs roots (childrenOf links) v) (h : (roots ++ links.map Prod.fst).Nodup) :
    OccursOnce roots (childrenOf links) v := by
  obtain ⟨path, hpath⟩ := hv
  exact ⟨path, hpath, fun path' hpath' => nodeAt_injective h hpath' hpath⟩

/-- What is in a tree occurs, if the tops of the trees are roots. -/
theorem occurs_of_inTree (parent : α → Option α) {nodes : List α} (hv : v ∈ nodes) (h : InTree parent v)
    (hlinks : ∀ v ∈ nodes, ∀ p, parent v = some p → (v, p) ∈ links ∧ p ∈ nodes)
    (hroots : ∀ v ∈ nodes, parent v = none → v ∈ roots) : Occurs roots (childrenOf links) v := by
  obtain ⟨d, hd⟩ := h
  induction hd with
  | root hnone => exact occurs_of_mem_roots (hroots _ hv hnone)
  | child hp _ ih =>
    obtain ⟨hlink, hnode⟩ := hlinks _ hv _ hp
    exact (ih hnode).child (mem_childrenOf.mpr hlink)

theorem inTree_of_occurs {parent : α → Option α} (h : Occurs roots (childrenOf links) v)
    (hlinks : ∀ link ∈ links, parent link.1 = some link.2) (hroots : ∀ v ∈ roots, parent v = none) :
    InTree parent v := by
  refine h.rec_on (fun v hv => ⟨0, .root (hroots v hv)⟩) fun p v hp hv => ?_
  obtain ⟨d, hd⟩ := hp
  exact ⟨d + 1, .child (hlinks _ (mem_childrenOf.mp hv)) hd⟩

end Links

end Forest
