import BoringPanel.QueryService.Traces.SmartTrace

/-!
# The subtree that is kept

The spans that `SmartTraceAlgorithm` keeps around a span of one of the trees: its ancestors with their children
(`ascend_eq`) and its descendants (`descend_eq`).

They are a tree whose root is the highest ancestor, wherever the limit cuts them off
(`select_subtree_iff`). The exception is the largest `levelUp`, where `levelUp+1` is negative and the loop over
the ancestors is not entered. The limit bounds their number only if there are few descendants
(`select_bounded_iff`): the spans of a level are not charged when they are kept.
-/

namespace QueryService.SmartTrace

variable {payload : List SearchSpanResponseItem} {p q top : Ptr} {levelUp levelDown spanLimit : Int}

/-! ### Steps -/

section Steps

@[simp] theorem clearParentID_self (spans : Heap) (p : Ptr) : (clearParentID spans p p).parentID = "" := by
  simp [clearParentID]

theorem clearParentID_of_ne {spans : Heap} (h : q ≠ p) : clearParentID spans p q = spans q :=
  Function.update_of_ne h _ _

@[simp] theorem clearParentID_spanID (spans : Heap) (p q : Ptr) :
    (clearParentID spans p q).spanID = (spans q).spanID := by
  by_cases h : q = p
  · subst h
    simp [clearParentID]
  · rw [clearParentID_of_ne h]

@[simp] theorem clearParentID_children (spans : Heap) (p q : Ptr) :
    (clearParentID spans p q).children = (spans q).children := by
  by_cases h : q = p
  · subst h
    simp [clearParentID]
  · rw [clearParentID_of_ne h]

@[simp] theorem clearParentID_parentSpan (spans : Heap) (p q : Ptr) :
    (clearParentID spans p q).parentSpan = (spans q).parentSpan := by
  by_cases h : q = p
  · subst h
    simp [clearParentID]
  · rw [clearParentID_of_ne h]

theorem clearParentID_eq_self {spans : Heap} (h : (spans p).parentID = "") : clearParentID spans p = spans := by
  rw [clearParentID, ← h]
  exact Function.update_eq_self p spans

@[simp] theorem clearParentID_idem (spans : Heap) (p : Ptr) :
    clearParentID (clearParentID spans p) p = clearParentID spans p :=
  clearParentID_eq_self (clearParentID_self spans p)

/-- A slice up to a limit that is not above the length. -/
theorem sliceTo_eq {xs : List Ptr} {n : Nat} (h : n ≤ xs.length) : sliceTo xs n = .ok (xs.take n) :=
  if_pos ⟨Int.natCast_nonneg n, Int.ofNat_le.mpr h⟩

theorem tree_parentID (p : Ptr) :
    (tree payload p).parentID = if parentOf payload p = none then "" else (spans payload p).parentID := by
  show (if p < payload.length ∧ parentOf payload p = none then "" else _) = _
  by_cases hp : p < payload.length
  · simp [hp]
  · rw [spans_of_le (Nat.le_of_not_lt hp)]
    simp

theorem tree_parentID_eq_empty : (tree payload p).parentID = "" ↔ parentOf payload p = none := by
  rw [tree_parentID]
  split
  · rename_i hnone
    exact ⟨fun _ => hnone, fun _ => rfl⟩
  · rename_i hsome
    obtain ⟨q, hq⟩ := Option.ne_none_iff_exists'.mp hsome
    exact iff_of_false (parentOf_eq_some hq).1 hsome

end Steps

/-! ### The ancestors -/

/-- What the loop over the ancestors does from a span: `kept` are taken, and `top` is the last span it was at. -/
structure Ascended (payload : List SearchSpanResponseItem) (rounds : Nat) (p : Ptr) (limit : Nat)
    (kept : List Ptr) (top : Ptr) (left : Int) : Prop where
  self_mem : p ∈ kept
  top_mem : top ∈ kept
  top_lt : p < payload.length → top < payload.length
  parent_mem : ∀ q ∈ kept, q = top ∨ ∃ r ∈ kept, parentOf payload q = some r
  whole : (Forest.kin (children payload) (Forest.lineage (parentOf payload) rounds p)).length ≤ limit →
    kept = Forest.kin (children payload) (Forest.lineage (parentOf payload) rounds p) ∧
      left = limit - kept.length
  cut : limit < (Forest.kin (children payload) (Forest.lineage (parentOf payload) rounds p)).length →
    kept.length = limit + 1 ∧ left = -1

namespace Ascended

variable {rounds limit : Nat} {kept : List Ptr} {left : Int}

theorem parent_mem_family {cs : List Ptr} (hcs : ∀ c ∈ cs, parentOf payload c = some p) :
    ∀ q ∈ p :: cs, q = p ∨ ∃ r ∈ p :: cs, parentOf payload q = some r := by
  intro q hq
  rcases List.mem_cons.mp hq with rfl | hq
  · exact .inl rfl
  · exact .inr ⟨p, List.mem_cons_self, hcs q hq⟩

theorem parentOf_child {c : Ptr} (h : c ∈ children payload p) : parentOf payload c = some p :=
  (isChildren payload).mem_iff.mp h

/-- The limit is reached at this span. -/
theorem of_large (h : limit ≤ (children payload p).length) (rounds : Nat) :
    Ascended payload (rounds + 1) p limit (p :: (children payload p).take limit) p (-1) where
  self_mem := List.mem_cons_self
  top_mem := List.mem_cons_self
  top_lt h := h
  parent_mem := parent_mem_family fun _ hc => parentOf_child (List.mem_of_mem_take hc)
  whole hle := by
    rw [Forest.lineage, Forest.kin_cons, List.length_cons, List.length_append] at hle
    omega
  cut _ := ⟨by simp [h], rfl⟩

/-- There is nothing above this span, or nothing above it is asked for. -/
theorem of_last (h : (children payload p).length < limit)
    (hlast : Forest.lineage (parentOf payload) rounds p = [p]) :
    Ascended payload rounds p limit (p :: children payload p) p
      (limit - ((children payload p).length + 1)) where
  self_mem := List.mem_cons_self
  top_mem := List.mem_cons_self
  top_lt h := h
  parent_mem := parent_mem_family fun _ hc => parentOf_child hc
  whole _ := by
    rw [hlast]
    exact ⟨by simp, by simp⟩
  cut hlt := by
    rw [hlast] at hlt
    simp at hlt
    omega

/-- The loop goes on at the parent. -/
theorem of_parent (h : (children payload p).length < limit) (hparent : parentOf payload p = some q)
    (hup : Ascended payload rounds q (limit - ((children payload p).length + 1)) kept top left) :
    Ascended payload (rounds + 1) p limit (p :: (children payload p ++ kept)) top left where
  self_mem := List.mem_cons_self
  top_mem := List.mem_cons_of_mem _ (List.mem_append_right _ hup.top_mem)
  top_lt _ := hup.top_lt (parentOf_eq_some hparent).2.1
  parent_mem r hr := by
    rcases List.mem_cons.mp hr with rfl | hr
    · exact .inr ⟨q, List.mem_cons_of_mem _ (List.mem_append_right _ hup.self_mem), hparent⟩
    · rcases List.mem_append.mp hr with hr | hr
      · exact .inr ⟨p, List.mem_cons_self, parentOf_child hr⟩
      · refine (hup.parent_mem r hr).imp_right ?_
        rintro ⟨s, hs, hrs⟩
        exact ⟨s, List.mem_cons_of_mem _ (List.mem_append_right _ hs), hrs⟩
  whole hle := by
    rw [Forest.lineage_succ_of_some hparent, Forest.kin_cons] at hle ⊢
    rw [List.length_cons, List.length_append] at hle
    obtain ⟨hkept, hleft⟩ := hup.whole (by omega)
    refine ⟨by rw [hkept], ?_⟩
    rw [hleft, List.length_cons, List.length_append]
    omega
  cut hlt := by
    rw [Forest.lineage_succ_of_some hparent, Forest.kin_cons, List.length_cons, List.length_append] at hlt
    obtain ⟨hkept, hleft⟩ := hup.cut (by omega)
    refine ⟨?_, hleft⟩
    rw [List.length_cons, List.length_append, hkept]
    omega

end Ascended

/-- A round of the loop. -/
theorem ascend_succ (levelUp : Int) (rounds : Nat) (i : Int) (p : Ptr) (parents : List Ptr) (limit : Nat) :
    ascend levelUp (rounds + 1) i p { spans := tree payload, parents, spanLimit := limit } =
      if limit ≤ (children payload p).length then
        .ok { spans := clearParentID (tree payload) p
              parents := parents ++ p :: (children payload p).take limit
              spanLimit := -1 }
      else
        let st : Ascent :=
          { spans := if i = levelUp then clearParentID (tree payload) p else tree payload
            parents := parents ++ p :: children payload p
            spanLimit := limit - ((children payload p).length + 1) }
        match parentOf payload p with
        | none => .ok st
        | some q => ascend levelUp rounds (i + 1) q st := by
  have hchildren : ((if i = levelUp then clearParentID (tree payload) p else tree payload) p).children =
      children payload p := by
    split
    · exact clearParentID_children _ _ _
    · rfl
  have hparent : ((if i = levelUp then clearParentID (tree payload) p else tree payload) p).parentSpan =
      parentOf payload p := by
    rw [← tree_parentSpan]
    split
    · exact clearParentID_parentSpan _ _ _
    · rfl
  have hclear : clearParentID (if i = levelUp then clearParentID (tree payload) p else tree payload) p =
      clearParentID (tree payload) p := by
    split
    · exact clearParentID_idem _ _
    · rfl
  by_cases h : limit ≤ (children payload p).length
  · have hcond : (limit : Int) - (children payload p).length ≤ 0 := by omega
    have hleft : (limit : Int) - (((children payload p).take limit).length + 1) = -1 := by
      rw [List.length_take, Nat.min_eq_left h]
      omega
    rw [ascend, if_pos h]
    simp only [hchildren, hclear, if_pos hcond, sliceTo_eq h, Go.ok_bind, hleft]
    rw [List.append_assoc, List.singleton_append]
  · have hcond : ¬ (limit : Int) - (children payload p).length ≤ 0 := by omega
    rw [ascend, if_neg h]
    cases hp : parentOf payload p with
    | none => simp only [hchildren, hparent, hp, if_neg hcond, List.append_assoc, List.singleton_append]
    | some q => simp only [hchildren, hparent, hp, if_neg hcond, List.append_assoc, List.singleton_append]

/-- **The loop over the ancestors**, from round `i` on. It takes no slice out of range, and the span that it
ends at has no parent id afterwards. -/
theorem ascend_eq {rounds : Nat} {i : Int} (hi : i + rounds = levelUp) (limit : Nat) (p : Ptr)
    (parents : List Ptr) :
    ∃ kept top left,
      ascend levelUp (rounds + 1) i p { spans := tree payload, parents, spanLimit := limit } =
        .ok { spans := clearParentID (tree payload) top, parents := parents ++ kept, spanLimit := left } ∧
      Ascended payload (rounds + 1) p limit kept top left := by
  induction rounds generalizing i limit p parents with
  | zero =>
    rw [ascend_succ]
    by_cases h : limit ≤ (children payload p).length
    · exact ⟨_, p, _, if_pos h, .of_large h 0⟩
    · have hone : Forest.lineage (parentOf payload) (0 + 1) p = [p] := by
        rw [Forest.lineage]
        cases parentOf payload p <;> rfl
      have hlast : i = levelUp := by simpa using hi
      refine ⟨_, p, _, ?_, .of_last (Nat.lt_of_not_le h) hone⟩
      rw [if_neg h, hlast, if_pos rfl]
      cases parentOf payload p <;> rfl
  | succ rounds ih =>
    rw [ascend_succ]
    by_cases h : limit ≤ (children payload p).length
    · exact ⟨_, p, _, if_pos h, .of_large h (rounds + 1)⟩
    · have hne : i ≠ levelUp := by omega
      have hsmall := Nat.lt_of_not_le h
      cases hparent : parentOf payload p with
      | none =>
        refine ⟨_, p, _, ?_, .of_last hsmall (Forest.lineage_succ_of_none hparent)⟩
        -- a root has no parent id already
        rw [if_neg h, if_neg hne, clearParentID_eq_self (tree_parentID_eq_empty.mpr hparent)]
      | some q =>
        obtain ⟨kept, top, left, hup, hspec⟩ := ih (i := i + 1) (by omega)
          (limit - ((children payload p).length + 1)) q (parents ++ p :: children payload p)
        refine ⟨_, top, left, ?_, .of_parent hsmall hparent hspec⟩
        have hlimit : (limit : Int) - ((children payload p).length + 1) =
            (limit - ((children payload p).length + 1) : Nat) := by omega
        rw [if_neg h, if_neg hne]
        simp only [hlimit, hup, List.append_assoc, List.cons_append]

/-! ### The descendants -/

section Descendants

variable {spans : Heap} {limit : Nat}

/-- A level without a large family. -/
theorem lowerLevel_of_small (hspans : ∀ p, (spans p).children = children payload p) {preParents : List Ptr}
    (h : ∀ f ∈ preParents.map (children payload), f.length < limit) (cs ps : List Ptr) :
    lowerLevel spans preParents { children := cs, parents := ps, spanLimit := limit } =
      .ok { children := cs ++ Forest.next (children payload) preParents
            parents := ps ++ Forest.next (children payload) preParents
            spanLimit := limit } := by
  induction preParents generalizing cs ps with
  | nil => simp [lowerLevel, Forest.next]
  | cons p preParents ih =>
    obtain ⟨hp, hrest⟩ := List.forall_mem_cons.mp h
    have hcond : ¬ (limit : Int) - (children payload p).length ≤ 0 := by omega
    rw [lowerLevel]
    simp only [hspans, if_neg hcond, ih hrest, Forest.next, List.flatMap_cons, List.append_assoc]

/-- A level with a large family uses the limit up. -/
theorem lowerLevel_of_large (hspans : ∀ p, (spans p).children = children payload p) {preParents : List Ptr}
    (h : ∃ f ∈ preParents.map (children payload), limit ≤ f.length) (cs ps : List Ptr) :
    ∃ parents, lowerLevel spans preParents { children := cs, parents := ps, spanLimit := limit } =
      .ok { children := cs ++ Forest.takeFamilies limit (preParents.map (children payload))
            parents
            spanLimit := 0 } := by
  induction preParents generalizing cs ps with
  | nil =>
    obtain ⟨f, hf, -⟩ := h
    exact absurd hf List.not_mem_nil
  | cons p preParents ih =>
    rw [lowerLevel, List.map_cons, Forest.takeFamilies]
    by_cases hp : limit ≤ (children payload p).length
    · have hcond : (limit : Int) - (children payload p).length ≤ 0 := by omega
      refine ⟨ps, ?_⟩
      simp only [hspans, if_pos hcond, sliceTo_eq hp, Go.ok_bind, if_pos hp, List.length_take,
        Nat.min_eq_left hp, Int.sub_self]
    · have hcond : ¬ (limit : Int) - (children payload p).length ≤ 0 := by omega
      have hrest : ∃ f ∈ preParents.map (children payload), limit ≤ f.length := by
        obtain ⟨f, hf, hlarge⟩ := h
        rcases List.mem_cons.mp hf with rfl | hf
        · exact absurd hlarge hp
        · exact ⟨f, hf, hlarge⟩
      obtain ⟨parents, hlevel⟩ := ih hrest (cs ++ children payload p) (ps ++ children payload p)
      refine ⟨parents, ?_⟩
      simp only [hspans, if_neg hcond, hlevel, if_neg hp, List.append_assoc]

/-- Nothing is taken when the limit has been reached. -/
theorem descend_of_nonpos (h : spanLimit ≤ 0) (rounds : Nat) (ps cs : List Ptr) :
    descend spans rounds ps cs spanLimit = .ok cs := by
  cases rounds with
  | zero => rfl
  | succ rounds => exact if_neg fun hcond => by omega

/-- **The loop over the levels** takes the families of the descendants up to the first that is as large as the
limit. -/
theorem descend_eq (hspans : ∀ p, (spans p).children = children payload p) (rounds : Nat)
    (ps cs : List Ptr) :
    descend spans rounds ps cs limit =
      .ok (cs ++ Forest.takeFamilies limit (Forest.families (children payload) rounds ps)) := by
  induction rounds generalizing ps cs with
  | zero => simp [descend, Forest.families, Forest.takeFamilies]
  | succ rounds ih =>
    by_cases hcond : ps ≠ [] ∧ (limit : Int) > 0
    · rw [descend, if_pos hcond, Forest.families]
      by_cases hlarge : ∃ f ∈ ps.map (children payload), limit ≤ f.length
      · obtain ⟨parents, hlevel⟩ := lowerLevel_of_large hspans hlarge cs []
        rw [hlevel, Go.ok_bind, descend_of_nonpos (Int.le_refl 0), Forest.takeFamilies_append_of_large hlarge]
      · have hsmall : ∀ f ∈ ps.map (children payload), f.length < limit := fun f hf =>
          Nat.lt_of_not_le fun hle => hlarge ⟨f, hf, hle⟩
        rw [lowerLevel_of_small hspans hsmall, Go.ok_bind, List.nil_append, ih,
          Forest.takeFamilies_append hsmall, Forest.flatten_map_children, List.append_assoc]
    · rw [descend, if_neg hcond]
      rcases not_and_or.mp hcond with hnil | hzero
      · rw [not_not.mp hnil, Forest.families_nil]
        simp [Forest.takeFamilies]
      · have hzero : limit = 0 := by omega
        rw [hzero, Forest.takeFamilies_zero, List.append_nil]

/-- With any limit; below zero it is as if it were zero. -/
theorem descend_toNat (hspans : ∀ p, (spans p).children = children payload p) (left : Int) (rounds : Nat)
    (ps : List Ptr) :
    descend spans rounds ps [] left =
      .ok (Forest.takeFamilies left.toNat (Forest.families (children payload) rounds ps)) := by
  rcases Int.le_total 0 left with hpos | hneg
  · rw [← Int.toNat_of_nonneg hpos, descend_eq hspans, List.nil_append, Int.toNat_natCast]
  · rw [descend_of_nonpos hneg, Int.toNat_of_nonpos hneg, Forest.takeFamilies_zero]

end Descendants

/-! ### The selection -/

/-- The spans that are kept. -/
def Selection.kept (selection : Selection) : List Ptr := selection.resultSpansSet.entries.map Prod.fst

theorem Selection.nodup_kept (selection : Selection) : selection.kept.Nodup := selection.resultSpansSet.nodup

theorem mem_setOf {ps : List Ptr} : p ∈ (setOf ps).entries.map Prod.fst ↔ p ∈ ps := by
  have hloop : ∀ (ps : List Ptr) (set : Go.Table Ptr Unit),
      (p, ()) ∈ (ps.foldl (fun set p => set.set p ()) set).entries ↔ p ∈ ps ∨ (p, ()) ∈ set.entries := by
    intro ps
    induction ps with
    | nil => exact fun set => (or_iff_right List.not_mem_nil).symm
    | cons q ps ih =>
      intro set
      rw [List.foldl_cons, ih, Go.Table.mem_set, List.mem_cons, Prod.mk.injEq]
      by_cases hq : p = q <;> simp [hq]
  have hkey : p ∈ (setOf ps).entries.map Prod.fst ↔ (p, ()) ∈ (setOf ps).entries := by
    rw [List.mem_map]
    constructor
    · rintro ⟨⟨q, ⟨⟩⟩, hq, rfl⟩
      exact hq
    · exact fun h => ⟨(p, ()), h, rfl⟩
  rw [hkey, setOf, hloop]
  exact or_iff_left List.not_mem_nil

theorem Selection.length_kept (spans : Heap) (ps : List Ptr) :
    (Selection.kept { spans, resultSpansSet := setOf ps }).length = ps.toFinset.card := by
  rw [← List.toFinset_card_of_nodup (Selection.nodup_kept _)]
  congr 1
  ext q
  rw [List.mem_toFinset, List.mem_toFinset]
  exact mem_setOf

/-- The spans on the way up that are looked at. -/
def ancestors (payload : List SearchSpanResponseItem) (levelUp : Int) (p : Ptr) : List Ptr :=
  Forest.lineage (parentOf payload) (Go.int64 (levelUp + 1)).toNat p

/-- The descendants that are kept if there is some of the limit left. -/
def descendants (payload : List SearchSpanResponseItem) (levelDown : Int) (p : Ptr) (left : Nat) : List Ptr :=
  Forest.takeFamilies left (Forest.families (children payload) levelDown.toNat [p])

theorem rounds_eq (hup : 0 ≤ levelUp) (h : levelUp + 1 < 2 ^ 63) :
    (Go.int64 (levelUp + 1)).toNat = levelUp.toNat + 1 := by
  rw [Go.int64_eq (by omega) h]
  omega

/-- `levelUp+1` overflows. -/
theorem rounds_overflow (h : levelUp + 1 = 2 ^ 63) : (Go.int64 (levelUp + 1)).toNat = 0 := by
  rw [h]
  decide

/-- What is kept around a span. -/
theorem around_eq (payload : List SearchSpanResponseItem) (levelDown : Int) (hup : 0 ≤ levelUp)
    (hlt : levelUp + 1 < 2 ^ 63) (hlimit : 0 ≤ spanLimit) (p : Ptr) :
    ∃ kept top left, around (tree payload) p levelUp levelDown spanLimit =
        .ok { spans := clearParentID (tree payload) top
              resultSpansSet := setOf (p :: (kept ++ descendants payload levelDown p left.toNat)) } ∧
      Ascended payload (levelUp.toNat + 1) p spanLimit.toNat kept top left := by
  have hrounds : 0 + (levelUp.toNat : Int) = levelUp := by omega
  obtain ⟨kept, top, left, hascend, hspec⟩ :=
    @ascend_eq payload levelUp levelUp.toNat 0 hrounds spanLimit.toNat p []
  have hchildren : ∀ q, (clearParentID (tree payload) top q).children = children payload q := fun q =>
    clearParentID_children _ _ _
  refine ⟨kept, top, left, ?_, hspec⟩
  rw [Int.toNat_of_nonneg hlimit, List.nil_append] at hascend
  rw [around, rounds_eq hup hlt, hascend, Go.ok_bind, descend_toNat hchildren]
  rfl

/-- If `levelUp+1` overflows, nothing above the span is kept. -/
theorem around_overflow (h : levelUp + 1 = 2 ^ 63) (p : Ptr) :
    around (tree payload) p levelUp levelDown spanLimit =
      .ok { spans := tree payload
            resultSpansSet := setOf (p :: descendants payload levelDown p spanLimit.toNat) } := by
  have hchildren : ∀ q, (tree payload q).children = children payload q := fun _ => rfl
  rw [around, rounds_overflow h, ascend, Go.ok_bind, descend_toNat hchildren]
  rfl

/-! ### The subtree -/

/-- The spans that are kept are distinct and are one tree, with the target. -/
structure IsSubtree (targetId : String) (selection : Selection) : Prop where
  target : ∃ p ∈ selection.kept, (selection.spans p).spanID = targetId
  distinct : (selection.kept.map fun p => (selection.spans p).spanID).Nodup
  root : ∃ r ∈ selection.kept, (selection.spans r).parentID = "" ∧
    ∀ p ∈ selection.kept, (selection.spans p).parentID = "" → p = r
  parent : ∀ p ∈ selection.kept, (selection.spans p).parentID ≠ "" →
    ∃ q ∈ selection.kept, (selection.spans q).spanID = (selection.spans p).parentID

/-- The links that the rows show: the parent ids are those of the payload, apart from the ones of the roots. -/
theorem parentID_ne (h : parentOf payload p = some q) :
    (tree payload p).parentID = (spans payload q).spanID ∧ (tree payload p).parentID ≠ "" := by
  obtain ⟨hne, -, hid⟩ := parentOf_eq_some h
  rw [tree_parentID, h, if_neg (by simp), hid]
  exact ⟨rfl, hne⟩

/-- The descendants that are kept have their parents among the spans that are kept. -/
theorem parent_mem_descendants {left : Nat} (h : q ∈ descendants payload levelDown p left) :
    ∃ r, (r = p ∨ r ∈ descendants payload levelDown p left) ∧ parentOf payload q = some r := by
  obtain ⟨r, hr, hqr⟩ := (isChildren payload).exists_parent h
  exact ⟨r, hr.imp_left List.mem_singleton.mp, hqr⟩

/-- What is kept around a span `p`: each span with its parent, apart from `top`. -/
structure Around (payload : List SearchSpanResponseItem) (p : Ptr) (selection : Selection) (top : Ptr)
    (ps : List Ptr) : Prop where
  set_eq : selection.resultSpansSet = setOf ps
  self_mem : p ∈ ps
  top_mem : top ∈ ps
  top_lt : p < payload.length → top < payload.length
  parent_mem : ∀ q ∈ ps, q = top ∨ ∃ r ∈ ps, parentOf payload q = some r

theorem Around.lt {selection : Selection} {ps : List Ptr} (h : Around payload p selection top ps)
    (hp : p < payload.length) (hq : q ∈ ps) : q < payload.length := by
  rcases h.parent_mem q hq with rfl | ⟨r, -, hqr⟩
  · exact h.top_lt hp
  · exact lt_of_parentOf hqr

/-- The loop over the ancestors is entered. -/
theorem around_of_lt (payload : List SearchSpanResponseItem) (levelDown : Int) (hup : 0 ≤ levelUp)
    (hlt : levelUp + 1 < 2 ^ 63) (hlimit : 0 ≤ spanLimit) (p : Ptr) :
    ∃ selection top ps, around (tree payload) p levelUp levelDown spanLimit = .ok selection ∧
      selection.spans = clearParentID (tree payload) top ∧ Around payload p selection top ps := by
  obtain ⟨kept, top, left, haround, hspec⟩ := around_eq payload levelDown hup hlt hlimit p
  have hkept : ∀ q ∈ kept, q ∈ p :: (kept ++ descendants payload levelDown p left.toNat) := fun q hq =>
    List.mem_cons_of_mem _ (List.mem_append_left _ hq)
  refine ⟨_, top, _, haround, rfl, rfl, List.mem_cons_self, hkept top hspec.top_mem, hspec.top_lt,
    fun q hq => ?_⟩
  -- a descendant that is kept has its parent among them, another span among those of the way up
  have hup : ∀ q ∈ kept, q = top ∨ ∃ r ∈ p :: (kept ++ descendants payload levelDown p left.toNat),
      parentOf payload q = some r := by
    intro q hq
    refine (hspec.parent_mem q hq).imp_right ?_
    rintro ⟨r, hr, hqr⟩
    exact ⟨r, hkept r hr, hqr⟩
  rcases List.mem_cons.mp hq with rfl | hq
  · exact hup q hspec.self_mem
  · rcases List.mem_append.mp hq with hq | hq
    · exact hup q hq
    · obtain ⟨r, hr, hqr⟩ := parent_mem_descendants hq
      refine .inr ⟨r, ?_, hqr⟩
      rcases hr with rfl | hr
      · exact List.mem_cons_self
      · exact List.mem_cons_of_mem _ (List.mem_append_right _ hr)

/-- The loop over the ancestors is not entered. -/
theorem around_of_overflow (payload : List SearchSpanResponseItem) (levelDown spanLimit : Int)
    (h : levelUp + 1 = 2 ^ 63) (p : Ptr) :
    ∃ selection ps, around (tree payload) p levelUp levelDown spanLimit = .ok selection ∧
      selection.spans = tree payload ∧ Around payload p selection p ps := by
  refine ⟨_, _, around_overflow h p, rfl, rfl, List.mem_cons_self, List.mem_cons_self, id, fun q hq => ?_⟩
  refine (List.mem_cons.mp hq).imp_right fun hq => ?_
  obtain ⟨r, hr, hqr⟩ := parent_mem_descendants hq
  exact ⟨r, List.mem_cons.mpr hr, hqr⟩

/-- No slice is out of range. -/
theorem around_ok (payload : List SearchSpanResponseItem) (levelDown : Int) (hup : 0 ≤ levelUp)
    (hlt : levelUp < 2 ^ 63) (hlimit : 0 ≤ spanLimit) (p : Ptr) :
    ∃ selection top ps, around (tree payload) p levelUp levelDown spanLimit = .ok selection ∧
      Around payload p selection top ps := by
  by_cases hover : levelUp + 1 = 2 ^ 63
  · obtain ⟨selection, ps, haround, -, hspec⟩ := around_of_overflow payload levelDown spanLimit hover p
    exact ⟨selection, p, ps, haround, hspec⟩
  · obtain ⟨selection, top, ps, haround, -, hspec⟩ :=
      around_of_lt payload levelDown hup (by omega) hlimit p
    exact ⟨selection, top, ps, haround, hspec⟩

/-- Spans of which all but one have their parent among them are one tree. -/
theorem Around.isSubtree (hids : DistinctIDs payload) (hp : p < payload.length) {selection : Selection}
    {ps : List Ptr} (h : Around payload p selection top ps)
    (hspans : selection.spans = clearParentID (tree payload) top) :
    IsSubtree (spans payload p).spanID selection := by
  have hmem : ∀ q, q ∈ selection.kept ↔ q ∈ ps := fun q => by
    rw [Selection.kept, h.set_eq]
    exact mem_setOf
  have hid : ∀ q, (selection.spans q).spanID = (spans payload q).spanID := fun q => by
    rw [hspans]
    exact clearParentID_spanID _ _ _
  have hparentID : ∀ q, q ≠ top → (selection.spans q).parentID = (tree payload q).parentID := fun q hq => by
    rw [hspans, clearParentID_of_ne hq]
  have hempty : (selection.spans top).parentID = "" := by
    rw [hspans]
    exact clearParentID_self _ _
  refine ⟨⟨p, (hmem p).mpr h.self_mem, hid p⟩, ?_, ⟨top, (hmem top).mpr h.top_mem, hempty,
    fun q hq hqempty => ?_⟩, fun q hq hne => ?_⟩
  · simp only [hid]
    refine List.Nodup.map_on (fun q hq r hr heq => ?_) selection.nodup_kept
    exact hids.eq (h.lt hp ((hmem q).mp hq)) (h.lt hp ((hmem r).mp hr)) heq
  · by_contra hne
    obtain ⟨r, -, hqr⟩ := (h.parent_mem q ((hmem q).mp hq)).resolve_left hne
    exact (parentID_ne hqr).2 (hparentID q hne ▸ hqempty)
  · have hqtop : q ≠ top := by
      rintro rfl
      exact hne hempty
    obtain ⟨r, hr, hqr⟩ := (h.parent_mem q ((hmem q).mp hq)).resolve_left hqtop
    exact ⟨r, (hmem r).mpr hr, by rw [hid, hparentID q hqtop, (parentID_ne hqr).1]⟩

/-- Without the loop over the ancestors the span keeps its parent id. -/
theorem Around.isSubtree_iff (hids : DistinctIDs payload) (hp : p < payload.length) {selection : Selection}
    {ps : List Ptr} (h : Around payload p selection p ps) (hspans : selection.spans = tree payload) :
    IsSubtree (spans payload p).spanID selection ↔ parentOf payload p = none := by
  constructor
  · intro hsub
    obtain ⟨r, hr, hempty, -⟩ := hsub.root
    rw [hspans, tree_parentID_eq_empty] at hempty
    rw [Selection.kept, h.set_eq] at hr
    rcases h.parent_mem r (mem_setOf.mp hr) with rfl | ⟨s, -, hrs⟩
    · exact hempty
    · rw [hempty] at hrs
      cases hrs
  · intro hnone
    refine h.isSubtree hids hp ?_
    rw [hspans, clearParentID_eq_self (tree_parentID_eq_empty.mpr hnone)]

/-! ### The target span -/

section Target

variable {rounds : Nat} {targetSpanId : String}

/-- Without a root the target span is the empty one. -/
theorem select_of_no_root (hnone : ¬ ∃ r < payload.length, parentOf payload r = none) :
    select rounds payload targetSpanId levelUp levelDown spanLimit =
      some (around (tree payload) payload.length levelUp levelDown spanLimit) := by
  have hroots : (buildSpanTrees (spans payload) payload.length).roots = [] :=
    List.eq_nil_iff_forall_not_mem.mpr fun r hr => hnone ⟨r, mem_roots.mp hr⟩
  rw [select]
  simp only [hroots, searchRoots]
  rw [buildSpanTrees_eq]

/-- With a root the target span is the span of a tree with the id, if there is one. -/
theorem select_of_root (targetSpanId : String) (levelUp levelDown spanLimit : Int) (hids : DistinctIDs payload)
    (hrounds : payload.length ≤ rounds) (hroot : ∃ r < payload.length, parentOf payload r = none) :
    (∃ p < payload.length, (spans payload p).spanID = targetOf payload targetSpanId ∧
        Forest.InTree (parentOf payload) p ∧
        select rounds payload targetSpanId levelUp levelDown spanLimit =
          some (around (tree payload) p levelUp levelDown spanLimit)) ∨
      (∀ p < payload.length, Forest.InTree (parentOf payload) p →
          (spans payload p).spanID ≠ targetOf payload targetSpanId) ∧
        select rounds payload targetSpanId levelUp levelDown spanLimit = some (.error .spanNotFound) := by
  have hroots : ∀ r, r ∈ (buildSpanTrees (spans payload) payload.length).roots ↔
      r < payload.length ∧ parentOf payload r = none := fun r => mem_roots
  have htrees : (buildSpanTrees (spans payload) payload.length).spans = tree payload := by
    rw [buildSpanTrees_eq]
  rw [select]
  simp only [htrees]
  revert hroots
  generalize (buildSpanTrees (spans payload) payload.length).roots = roots
  intro hroots
  obtain ⟨found, hfound, hspec⟩ := searchRoots_eq (targetOf payload targetSpanId) hids hrounds
    fun r hr => (hroots r).mp hr
  have hany : searchRoots (tree payload) (targetOf payload targetSpanId) rounds roots (some payload.length) =
      some found := by
    cases roots with
    | nil =>
      obtain ⟨r, hr⟩ := hroot
      exact absurd ((hroots r).mpr hr) List.not_mem_nil
    | cons r roots => exact hfound
  rw [hany]
  cases found with
  | some p =>
    obtain ⟨hid, r, hr, hbelow⟩ := hspec
    obtain ⟨hlt, hnone⟩ := (hroots r).mp hr
    exact .inl ⟨p, below_lt hlt hbelow, hid, Forest.inTree_iff.mpr ⟨r, hnone, hbelow⟩, rfl⟩
  | none =>
    refine .inr ⟨fun p hp htree => ?_, rfl⟩
    obtain ⟨r, hnone, hbelow⟩ := Forest.inTree_iff.mp htree
    refine hspec r ((hroots r).mpr ⟨?_, hnone⟩) p hbelow
    exact below_root_lt hp hbelow

/-- The target is in one of the trees. -/
theorem select_of_inTree (hids : DistinctIDs payload) (hrounds : payload.length ≤ rounds)
    (hp : p < payload.length) (hid : (spans payload p).spanID = targetOf payload targetSpanId)
    (htree : Forest.InTree (parentOf payload) p) :
    select rounds payload targetSpanId levelUp levelDown spanLimit =
      some (around (tree payload) p levelUp levelDown spanLimit) := by
  obtain ⟨r, hnone, hbelow⟩ := Forest.inTree_iff.mp htree
  rcases select_of_root targetSpanId levelUp levelDown spanLimit hids hrounds
      ⟨r, below_root_lt hp hbelow, hnone⟩ with
    ⟨q, hq, hqid, -, hselect⟩ | ⟨hmissed, -⟩
  · rw [hselect, hids.eq hq hp (hqid.trans hid.symm)]
  · exact absurd hid (hmissed p hp htree)

end Target

/-! ### The number of spans -/

/-- What is left of the limit after the ancestors does for the descendants: these are as many as what is left,
the ancestors and the children of the span together, at most. -/
def Fits (payload : List SearchSpanResponseItem) (p : Ptr) (levelUp levelDown spanLimit : Int) : Prop :=
  let up := ancestors payload levelUp p
  let charged := (Forest.kin (children payload) up).length
  charged ≤ spanLimit.toNat →
    (descendants payload levelDown p (spanLimit.toNat - charged)).length ≤
      spanLimit.toNat - charged + up.length + if up = [] then 0 else (children payload p).length

/-- The spans that are kept without the loop over the ancestors. -/
theorem card_descendants {d : Nat} (hp : Forest.HasDepth (parentOf payload) p d) (left : Nat) :
    (p :: descendants payload levelDown p left).toFinset.card =
      (descendants payload levelDown p left).length + 1 := by
  have hone : ∀ q ∈ [p], Forest.HasDepth (parentOf payload) q d := fun q hq => List.mem_singleton.mp hq ▸ hp
  rw [List.toFinset_card_of_nodup, List.length_cons]
  refine List.nodup_cons.mpr ⟨fun hmem => ?_, ?_⟩
  · obtain ⟨e, hlt, he⟩ := (isChildren payload).depth_families hone (Forest.takeFamilies_sublist.subset hmem)
    have := hp.unique he
    omega
  · exact ((isChildren payload).nodup_families hone (List.nodup_singleton p)).sublist
      Forest.takeFamilies_sublist

/-- Some of the children are kept, or all of them and some that are deeper. -/
theorem descendants_cases {d : Nat} (hp : Forest.HasDepth (parentOf payload) p d) (levelDown : Int) (left : Nat) :
    (descendants payload levelDown p left).Sublist (children payload p) ∨
      ∃ lower, descendants payload levelDown p left = children payload p ++ lower ∧ lower.Nodup ∧
        ∀ q ∈ lower, ∃ e, d + 1 < e ∧ Forest.HasDepth (parentOf payload) q e := by
  have hdepth : ∀ q ∈ children payload p, Forest.HasDepth (parentOf payload) q (d + 1) := fun q hq =>
    .child (Ascended.parentOf_child hq) hp
  rw [descendants]
  cases levelDown.toNat with
  | zero => exact .inl (List.nil_sublist _)
  | succ levels =>
    rw [Forest.families, List.map_singleton, List.singleton_append, Forest.takeFamilies]
    have hnext : Forest.next (children payload) [p] = children payload p := List.append_nil _
    rw [hnext]
    split
    · exact .inl (List.take_sublist _ _)
    · refine .inr ⟨_, rfl, ?_, fun q hq => ?_⟩
      · exact ((isChildren payload).nodup_families hdepth ((isChildren payload).nodup p)).sublist
          Forest.takeFamilies_sublist
      · exact (isChildren payload).depth_families hdepth (Forest.takeFamilies_sublist.subset hq)

/-- The number of spans, if the ancestors leave some of the limit: the children of the span and its ancestors
are met twice. -/
theorem card_kept_le_iff {d n left limit : Nat} (hp : Forest.HasDepth (parentOf payload) p d)
    (hlimit : (Forest.kin (children payload) (Forest.lineage (parentOf payload) (n + 1) p)).length + left =
      limit) :
    (p :: (Forest.kin (children payload) (Forest.lineage (parentOf payload) (n + 1) p) ++
        descendants payload levelDown p left)).toFinset.card ≤ limit + 1 ↔
      (descendants payload levelDown p left).length ≤
        left + (Forest.lineage (parentOf payload) (n + 1) p).length + (children payload p).length := by
  have hcard := (isChildren payload).card_kin hp n
  have hchildren : ∀ q, q = p ∨ q ∈ children payload p →
      q ∈ Forest.kin (children payload) (Forest.lineage (parentOf payload) (n + 1) p) := fun q hq =>
    Forest.mem_kin.mpr ⟨p, List.mem_cons_self, hq⟩
  rcases descendants_cases hp levelDown left with hsub | ⟨lower, heq, hnd, hlower⟩
  · -- nothing is added to the families of the ancestors
    have hset : (p :: (Forest.kin (children payload) (Forest.lineage (parentOf payload) (n + 1) p) ++
        descendants payload levelDown p left)).toFinset =
        (Forest.kin (children payload) (Forest.lineage (parentOf payload) (n + 1) p)).toFinset := by
      ext q
      simp only [List.mem_toFinset, List.mem_cons, List.mem_append]
      constructor
      · rintro (rfl | hq | hq)
        · exact hchildren q (.inl rfl)
        · exact hq
        · exact hchildren q (.inr (hsub.subset hq))
      · exact fun hq => .inr (.inl hq)
    have hle := hsub.length_le
    have hpos : 0 < (Forest.lineage (parentOf payload) (n + 1) p).length := Nat.succ_pos _
    rw [hset]
    omega
  · have hset : (p :: (Forest.kin (children payload) (Forest.lineage (parentOf payload) (n + 1) p) ++
        descendants payload levelDown p left)).toFinset =
        (Forest.kin (children payload) (Forest.lineage (parentOf payload) (n + 1) p)).toFinset ∪
          lower.toFinset := by
      ext q
      simp only [heq, List.mem_toFinset, List.mem_cons, List.mem_append, Finset.mem_union]
      constructor
      · rintro (rfl | hq | hq | hq)
        · exact .inl (hchildren q (.inl rfl))
        · exact .inl hq
        · exact .inl (hchildren q (.inr hq))
        · exact .inr hq
      · rintro (hq | hq)
        · exact .inr (.inl hq)
        · exact .inr (.inr (.inr hq))
    have hdisjoint : Disjoint
        (Forest.kin (children payload) (Forest.lineage (parentOf payload) (n + 1) p)).toFinset
        lower.toFinset := by
      rw [Finset.disjoint_left]
      intro q hq hq'
      obtain ⟨e, hle, he⟩ := (isChildren payload).depth_kin hp (List.mem_toFinset.mp hq)
      obtain ⟨e', hlt, he'⟩ := hlower q (List.mem_toFinset.mp hq')
      have := he.unique he'
      omega
    rw [hset, Finset.card_union_of_disjoint hdisjoint, List.toFinset_card_of_nodup hnd, heq,
      List.length_append]
    omega

/-- **How many spans are kept** around a span of one of the trees. -/
theorem length_kept_le_iff {d : Nat} (hp : Forest.HasDepth (parentOf payload) p d) (hup : 0 ≤ levelUp)
    (hlt : levelUp < 2 ^ 63) (hlimit : 0 ≤ spanLimit) {selection : Selection}
    (h : around (tree payload) p levelUp levelDown spanLimit = .ok selection) :
    (selection.kept.length : Int) ≤ spanLimit + 1 ↔ Fits payload p levelUp levelDown spanLimit := by
  have hcast : ∀ n : Nat, (n : Int) ≤ spanLimit + 1 ↔ n ≤ spanLimit.toNat + 1 := fun n => by omega
  rw [hcast]
  by_cases hover : levelUp + 1 = 2 ^ 63
  · have hnone : ancestors payload levelUp p = [] := by
      rw [ancestors, rounds_overflow hover, Forest.lineage]
    rw [around_overflow hover] at h
    obtain rfl := Except.ok.inj h
    rw [Selection.length_kept, card_descendants hp]
    simp [Fits, hnone]
  · have hlt : levelUp + 1 < 2 ^ 63 := by omega
    have hancestors : ancestors payload levelUp p =
        Forest.lineage (parentOf payload) (levelUp.toNat + 1) p := by
      rw [ancestors, rounds_eq hup hlt]
    have hne : Forest.lineage (parentOf payload) (levelUp.toNat + 1) p ≠ [] := List.cons_ne_nil _ _
    obtain ⟨kept, top, left, haround, hspec⟩ := around_eq payload levelDown hup hlt hlimit p
    rw [h] at haround
    obtain rfl := Except.ok.inj haround
    rw [Selection.length_kept]
    simp only [Fits, hancestors, if_neg hne]
    by_cases hwhole : (Forest.kin (children payload)
        (Forest.lineage (parentOf payload) (levelUp.toNat + 1) p)).length ≤ spanLimit.toNat
    · obtain ⟨hkept, hleft⟩ := hspec.whole hwhole
      have hleft : left.toNat = spanLimit.toNat - (Forest.kin (children payload)
          (Forest.lineage (parentOf payload) (levelUp.toNat + 1) p)).length := by
        rw [hleft, hkept]
        omega
      rw [hkept, hleft, card_kept_le_iff hp (Nat.add_sub_cancel' hwhole)]
      exact ⟨fun h _ => h, fun h => h hwhole⟩
    · -- the limit is used up, and nothing is kept below the span
      obtain ⟨hlength, hleft⟩ := hspec.cut (Nat.lt_of_not_le hwhole)
      refine iff_of_true ?_ fun h => absurd h hwhole
      have hset : (p :: (kept ++ descendants payload levelDown p left.toNat)).toFinset = kept.toFinset := by
        ext q
        have hnone : descendants payload levelDown p left.toNat = [] := by
          rw [hleft]
          exact Forest.takeFamilies_zero
        simp only [hnone, List.append_nil, List.mem_toFinset, List.mem_cons]
        exact or_iff_right_of_imp fun hq => hq ▸ hspec.self_mem
      rw [hset, ← hlength]
      exact List.toFinset_card_le kept

/-! ### The results -/

section Results

variable {rounds : Nat} {targetSpanId : String}

/-- **What is kept is a subtree around the target**, whatever the levels and the limit are, unless `levelUp+1`
overflows for a target that has a parent. -/
theorem select_subtree_iff (hids : DistinctIDs payload) (hp : p < payload.length)
    (hid : (spans payload p).spanID = targetOf payload targetSpanId)
    (htree : Forest.InTree (parentOf payload) p) (hrounds : payload.length ≤ rounds)
    (hup : 0 ≤ levelUp) (hupMax : levelUp < 2 ^ 63) (hlimit : 0 ≤ spanLimit)
    (range : Go.Table.RangeOrder String String) (visit : Go.Table.RangeOrder Ptr Unit) :
    ∃ selection,
      select rounds payload targetSpanId levelUp levelDown spanLimit = some (.ok selection) ∧
      smartTraceAlgorithm range visit rounds payload targetSpanId levelUp levelDown spanLimit =
        some (.ok (searchSpansResult range visit selection)) ∧
      (IsSubtree (targetOf payload targetSpanId) selection ↔
        levelUp < 2 ^ 63 - 1 ∨ parentOf payload p = none) := by
  have hselect : select rounds payload targetSpanId levelUp levelDown spanLimit =
      some (around (tree payload) p levelUp levelDown spanLimit) :=
    select_of_inTree hids hrounds hp hid htree
  rw [smartTraceAlgorithm, hselect, ← hid]
  by_cases hover : levelUp + 1 = 2 ^ 63
  · obtain ⟨selection, ps, haround, hspans, hspec⟩ :=
      around_of_overflow payload levelDown spanLimit hover p
    refine ⟨selection, congrArg some haround, by rw [haround]; rfl, ?_⟩
    rw [hspec.isSubtree_iff hids hp hspans]
    exact (or_iff_right (by omega)).symm
  · obtain ⟨selection, top, ps, haround, hspans, hspec⟩ :=
      around_of_lt payload levelDown hup (by omega) hlimit p
    refine ⟨selection, congrArg some haround, by rw [haround]; rfl, ?_⟩
    exact iff_of_true (hspec.isSubtree hids hp hspans) (.inl (by omega))

/-- A span of an example, with its parent. -/
def spanOf (spanID parentID : String) : SearchSpanResponseItem :=
  { spanID, references := [{ traceId := "t", spanId := parentID, refType := "CHILD_OF" }] }

/-- A request and the call it makes. -/
def call : List SearchSpanResponseItem := [spanOf "request" "", spanOf "call" "request"]

theorem distinctIDs_call : DistinctIDs call := by
  unfold DistinctIDs
  decide

theorem inTree_call : Forest.InTree (parentOf call) 1 :=
  ⟨1, .child (p := 0) (by decide) (.root (by decide))⟩

theorem select_subtree_call :
    ∃ selection, select 2 call "call" 1 0 10 = some (.ok selection) ∧
      smartTraceAlgorithm .inOrder .inOrder 2 call "call" 1 0 10 =
        some (.ok (searchSpansResult .inOrder .inOrder selection)) ∧
      (IsSubtree "call" selection ↔ (1 : Int) < 2 ^ 63 - 1 ∨ parentOf call 1 = none) :=
  select_subtree_iff distinctIDs_call (by decide) (by decide) inTree_call (by decide) (by decide) (by decide)
    (by decide) .inOrder .inOrder

/-- With the largest `levelUp` the span that is kept names a parent that is not. -/
theorem select_largest_levelUp : DistinctIDs call ∧ Forest.InTree (parentOf call) 1 ∧
    ¬ ∃ selection, select 2 call "call" (2 ^ 63 - 1) 0 10 = some (.ok selection) ∧
      IsSubtree "call" selection := by
  refine ⟨distinctIDs_call, inTree_call, ?_⟩
  rintro ⟨selection, hselect, hsub⟩
  rw [select_of_inTree distinctIDs_call (by decide) (by decide) (by decide) inTree_call] at hselect
  obtain ⟨selection', ps, haround, hspans, hspec⟩ :=
    around_of_overflow call 0 10 (by decide : (2 ^ 63 - 1 : Int) + 1 = 2 ^ 63) 1
  obtain rfl := Except.ok.inj ((Option.some.inj hselect).symm.trans haround)
  have hnone := (hspec.isSubtree_iff distinctIDs_call (by decide) hspans).mp hsub
  exact absurd hnone (by decide)

/-- What is asked of the answer: a bounded number of spans of the payload, or the error if the target is none
of them. -/
def Answers (payload : List SearchSpanResponseItem) (targetSpanId : String) (spanLimit : Int)
    (result : Except Failure Selection) : Prop :=
  (∀ selection, result = .ok selection →
    (selection.kept.length : Int) ≤ spanLimit + 1 ∧ ∀ p ∈ selection.kept, p < payload.length) ∧
  (result = .error .spanNotFound ↔
    targetOf payload targetSpanId ∉ payload.map SearchSpanResponseItem.spanID)

theorem mem_ids_iff : targetOf payload targetSpanId ∈ payload.map SearchSpanResponseItem.spanID ↔
    ∃ p < payload.length, (spans payload p).spanID = targetOf payload targetSpanId := by
  constructor
  · exact exists_of_mem_ids
  · rintro ⟨p, hp, hid⟩
    exact List.mem_of_getElem? (hid ▸ getElem?_spanID hp)

/-- **When the answer is as asked for**: the payload has a root, and if the target is a span of the payload, it
is in a tree and its descendants fit into the limit. -/
theorem select_answers_iff (hids : DistinctIDs payload) (targetSpanId : String)
    (hrounds : payload.length ≤ rounds) (hup : 0 ≤ levelUp) (hupMax : levelUp < 2 ^ 63)
    (hlimit : 0 ≤ spanLimit) :
    ∃ result, select rounds payload targetSpanId levelUp levelDown spanLimit = some result ∧
      (Answers payload targetSpanId spanLimit result ↔
        (∃ r < payload.length, parentOf payload r = none) ∧
        ∀ p < payload.length, (spans payload p).spanID = targetOf payload targetSpanId →
          Forest.InTree (parentOf payload) p ∧ Fits payload p levelUp levelDown spanLimit) := by
  by_cases hroot : ∃ r < payload.length, parentOf payload r = none
  · rcases select_of_root targetSpanId levelUp levelDown spanLimit hids hrounds hroot with
      ⟨p, hp, hid, htree, hselect⟩ | ⟨hmissed, hselect⟩
    · obtain ⟨selection, top, ps, haround, hspec⟩ := around_ok payload levelDown hup hupMax hlimit p
      obtain ⟨d, hd⟩ := htree
      have hlength := length_kept_le_iff hd hup hupMax hlimit haround
      refine ⟨_, hselect, ?_⟩
      rw [haround]
      constructor
      · rintro ⟨hok, -⟩
        refine ⟨hroot, fun q hq hqid => ?_⟩
        obtain rfl := hids.eq hp hq (hid.trans hqid.symm)
        exact ⟨⟨d, hd⟩, hlength.mp (hok selection rfl).1⟩
      · rintro ⟨-, hfits⟩
        refine ⟨fun s hs => ?_, iff_of_false (by simp) (not_not.mpr (mem_ids_iff.mpr ⟨p, hp, hid⟩))⟩
        obtain rfl := Except.ok.inj hs
        refine ⟨hlength.mpr (hfits p hp hid).2, fun q hq => hspec.lt hp ?_⟩
        rw [Selection.kept, hspec.set_eq] at hq
        exact mem_setOf.mp hq
    · refine ⟨_, hselect, ?_⟩
      constructor
      · rintro ⟨-, herror⟩
        refine ⟨hroot, fun p hp hid => ?_⟩
        exact absurd (mem_ids_iff.mpr ⟨p, hp, hid⟩) (herror.mp rfl)
      · rintro ⟨-, hfits⟩
        refine ⟨fun s hs => absurd hs (by simp), iff_of_true rfl fun hmem => ?_⟩
        obtain ⟨p, hp, hid⟩ := mem_ids_iff.mp hmem
        exact hmissed p hp (hfits p hp hid).1 hid
  · -- the empty span is kept
    obtain ⟨selection, top, ps, haround, hspec⟩ :=
      around_ok payload levelDown hup hupMax hlimit payload.length
    refine ⟨_, select_of_no_root hroot, iff_of_false ?_ fun h => hroot h.1⟩
    rintro ⟨hok, -⟩
    refine absurd ((hok selection haround).2 payload.length ?_) (Nat.lt_irrefl _)
    rw [Selection.kept, hspec.set_eq]
    exact mem_setOf.mpr hspec.self_mem

theorem select_answers_call :
    ∃ result, select 2 call "call" 1 0 10 = some result ∧
      (Answers call "call" 10 result ↔
        (∃ r < call.length, parentOf call r = none) ∧
        ∀ p < call.length, (spans call p).spanID = targetOf call "call" →
          Forest.InTree (parentOf call) p ∧ Fits call p 1 0 10) :=
  select_answers_iff distinctIDs_call "call" (by decide) (by decide) (by decide) (by decide)

/-- Calls that make one another. -/
def nestedCalls : List SearchSpanResponseItem :=
  [spanOf "a" "", spanOf "b" "a", spanOf "c" "b", spanOf "d" "c", spanOf "e" "d", spanOf "f" "e"]

/-- Six spans are kept with a limit of four. -/
theorem select_nestedCalls : DistinctIDs nestedCalls ∧
    ∃ selection, select 6 nestedCalls "a" 0 10 4 = some (.ok selection) ∧ selection.kept.length = 6 ∧
      ¬ Answers nestedCalls "a" 4 (.ok selection) := by
  have hids : DistinctIDs nestedCalls := by
    unfold DistinctIDs
    decide
  have hlength : (select 6 nestedCalls "a" 0 10 4).map (fun result => result.toOption.map (·.kept.length)) =
      some (some 6) := by
    decide +kernel
  obtain ⟨result, hselect, hresult⟩ := Option.map_eq_some_iff.mp hlength
  obtain ⟨selection, hselection, hsix⟩ := Option.map_eq_some_iff.mp hresult
  cases result with
  | error e => cases hselection
  | ok s =>
    obtain rfl := Option.some.inj hselection
    refine ⟨hids, s, hselect, hsix, fun hanswers => ?_⟩
    have hle := (hanswers.1 s rfl).1
    rw [hsix] at hle
    exact absurd hle (by decide)

end Results

end QueryService.SmartTrace
