import Mathlib.Data.List.Induction
import Mathlib.Order.MinMax

/-!
# Clusters of intervals

A list of closed intervals, sorted by their starts, is cut into **clusters**: an interval joins the
cluster that is being built if it starts no later than the cluster reaches (`clusters`). Clusters are
apart from each other (`pairwise_clusters`), and each interval of a cluster but the first touches one
before it (`Cluster.Linked`), so they are the finest division of the list into parts that are apart.
-/

/-- A cluster of intervals: the first one, and those that have joined it. -/
structure Cluster (α : Type) where
  first : α
  others : List α

variable {α τ : Type}

namespace Cluster

def members (c : Cluster α) : List α := c.first :: c.others

/-- An interval joins. -/
def push (c : Cluster α) (a : α) : Cluster α := { c with others := c.others ++ [a] }

theorem members_push (c : Cluster α) (a : α) : (c.push a).members = c.members ++ [a] := rfl

theorem forall_members_push {c : Cluster α} {a : α} {P : α → Prop} :
    (∀ b ∈ (c.push a).members, P b) ↔ (∀ b ∈ c.members, P b) ∧ P a := by
  rw [members_push, List.forall_mem_append, List.forall_mem_singleton]

theorem others_push_ne_nil (c : Cluster α) (a : α) : (c.push a).others ≠ [] := by
  simp [push]

/-- A cluster is built of its first interval by those that join. -/
@[elab_as_elim]
theorem push_induction {motive : Cluster α → Prop} (single : ∀ a, motive ⟨a, []⟩)
    (push : ∀ c a, motive c → motive (c.push a)) (c : Cluster α) : motive c := by
  obtain ⟨first, others⟩ := c
  induction others using List.reverseRecOn with
  | nil => exact single first
  | append_singleton others a ih => exact push ⟨first, others⟩ a ih

variable [LinearOrder τ] (start end_ : α → τ)

/-- Where a cluster ends. -/
def reach (c : Cluster α) : τ := c.others.foldl (fun t a => max t (end_ a)) (end_ c.first)

theorem reach_push (c : Cluster α) (a : α) : (c.push a).reach end_ = max (c.reach end_) (end_ a) := by
  unfold reach push
  rw [List.foldl_append]
  rfl

theorem reach_lt_iff (c : Cluster α) (t : τ) : c.reach end_ < t ↔ ∀ a ∈ c.members, end_ a < t := by
  induction c using push_induction with
  | single a => simp [reach, members]
  | push c a ih => rw [reach_push, max_lt_iff, ih, forall_members_push]

theorem le_reach_iff (c : Cluster α) (t : τ) : t ≤ c.reach end_ ↔ ∃ a ∈ c.members, t ≤ end_ a := by
  rw [← not_lt, reach_lt_iff]
  simp only [not_forall, not_lt, exists_prop]

/-- **Each interval but the first touches one before it.** -/
def Linked (c : Cluster α) : Prop :=
  ∀ before a after, c.others = before ++ a :: after → ∃ b ∈ c.first :: before, start a ≤ end_ b

variable {start end_}

theorem linked_single (a : α) : (⟨a, []⟩ : Cluster α).Linked start end_ :=
  fun _ _ _ h => absurd h (by simp)

theorem Linked.push {c : Cluster α} {a : α} (h : c.Linked start end_) (htouch : start a ≤ c.reach end_) :
    (c.push a).Linked start end_ := by
  intro before b after hsplit
  have hsplit : c.others ++ [a] = before ++ b :: after := hsplit
  cases after using List.reverseRecOn with
  | nil =>
    obtain ⟨hbefore, hb⟩ := List.append_inj' hsplit rfl
    obtain rfl := List.singleton_inj.mp hb
    subst hbefore
    exact (le_reach_iff end_ c _).mp htouch
  | append_singleton after e =>
    -- an interval that had joined before
    have hsplit : c.others ++ [a] = (before ++ b :: after) ++ [e] := by
      rw [hsplit, List.append_assoc]
      rfl
    exact h before b after (List.append_inj' hsplit rfl).1

/-- What holds of the first interval and goes over to those that touch holds of the cluster. -/
theorem Linked.forall_members {c : Cluster α} (h : c.Linked start end_) {P : α → Prop} (hfirst : P c.first)
    (htouch : ∀ a ∈ c.members, ∀ b ∈ c.members, P b → start a ≤ end_ b → P a) :
    ∀ a ∈ c.members, P a := by
  obtain ⟨first, others⟩ := c
  -- on the intervals in the order in which they have joined
  suffices hall : ∀ joined rest, others = joined ++ rest → ∀ a ∈ first :: joined, P a from
    hall others [] (List.append_nil _).symm
  intro joined
  induction joined using List.reverseRecOn with
  | nil =>
    intro _ _ a ha
    exact (List.mem_singleton.mp ha) ▸ hfirst
  | append_singleton joined a ih =>
    intro rest hrest
    have hrest : others = joined ++ a :: rest := by simpa using hrest
    have hbefore := ih (a :: rest) hrest
    rw [← List.cons_append, List.forall_mem_append, List.forall_mem_singleton]
    refine ⟨hbefore, ?_⟩
    obtain ⟨b, hb, hle⟩ := h joined a rest hrest
    have hsub : ∀ e ∈ first :: (joined ++ [a]), e ∈ (⟨first, others⟩ : Cluster α).members := by
      intro e he
      obtain rfl | he := List.mem_cons.mp he
      · exact List.mem_cons_self
      · refine List.mem_cons_of_mem _ ?_
        change e ∈ others
        rw [hrest]
        obtain he | he := List.mem_append.mp he
        · exact List.mem_append_left _ he
        · exact List.mem_append_right _ ((List.mem_singleton.mp he) ▸ List.mem_cons_self)
    refine htouch a (hsub a (by simp)) b (hsub b ?_) (hbefore b hb) hle
    obtain rfl | hb := List.mem_cons.mp hb
    · exact List.mem_cons_self
    · exact List.mem_cons_of_mem _ (List.mem_append_left _ hb)

/-- A linked cluster covers all from its first start up to where it reaches. -/
theorem Linked.exists_covering {c : Cluster α} (h : c.Linked start end_) {t : τ} (hfirst : start c.first ≤ t)
    (hreach : t ≤ c.reach end_) : ∃ a ∈ c.members, start a ≤ t ∧ t ≤ end_ a := by
  by_contra hnone
  have hsides : ∀ a ∈ c.members, start a ≤ t → end_ a < t := fun a ha hle =>
    not_le.mp fun hend => hnone ⟨a, ha, hle, hend⟩
  -- all intervals would end before the instant
  have hbefore : ∀ a ∈ c.members, end_ a < t := by
    refine h.forall_members (hsides c.first List.mem_cons_self hfirst) fun a ha b _ hb htouch => ?_
    exact hsides a ha (htouch.trans hb.le)
  exact absurd ((reach_lt_iff end_ c t).mpr hbefore) (not_lt.mpr hreach)

end Cluster

variable [LinearOrder τ] (start end_ : α → τ)

/-- The clusters of a sorted list that follow on one that is being built. -/
def clustersFrom (c : Cluster α) : List α → List (Cluster α)
  | [] => [c]
  | a :: l =>
    if start a ≤ c.reach end_ then clustersFrom (c.push a) l else c :: clustersFrom ⟨a, []⟩ l

/-- The clusters of a list that is sorted by starts. -/
def clusters : List α → List (Cluster α)
  | [] => []
  | a :: l => clustersFrom start end_ ⟨a, []⟩ l

theorem flatMap_members_clustersFrom (l : List α) :
    ∀ c, (clustersFrom start end_ c l).flatMap Cluster.members = c.members ++ l := by
  induction l with
  | nil => simp [clustersFrom]
  | cons a l ih =>
    intro c
    unfold clustersFrom
    split
    · rw [ih, Cluster.members_push, List.append_assoc]
      rfl
    · rw [List.flatMap_cons, ih]
      rfl

/-- The clusters hold the intervals, in order. -/
theorem flatMap_members_clusters (l : List α) :
    (clusters start end_ l).flatMap Cluster.members = l := by
  cases l with
  | nil => rfl
  | cons a l => exact flatMap_members_clustersFrom start end_ l ⟨a, []⟩

variable {start end_}

theorem pairwise_clustersFrom (l : List α) (hsorted : l.Pairwise fun a b => start a ≤ start b) :
    ∀ c, (clustersFrom start end_ c l).Pairwise fun c c' => ∀ b ∈ c'.members, c.reach end_ < start b := by
  induction l with
  | nil => exact fun c => List.pairwise_singleton _ _
  | cons a l ih =>
    obtain ⟨hfirst, hsorted⟩ := List.pairwise_cons.mp hsorted
    intro c
    unfold clustersFrom
    split
    · exact ih hsorted _
    · refine List.pairwise_cons.mpr ⟨fun c' hc' b hb => ?_, ih hsorted _⟩
      -- what follows starts no earlier than the interval that does not touch
      have hmem : b ∈ a :: l := by
        rw [← List.singleton_append]
        have := flatMap_members_clustersFrom start end_ l ⟨a, []⟩
        exact this ▸ List.mem_flatMap.mpr ⟨c', hc', hb⟩
      have hle : start a ≤ start b := by
        obtain rfl | hmem := List.mem_cons.mp hmem
        · exact le_rfl
        · exact hfirst b hmem
      exact (not_le.mp ‹_›).trans_le hle

/-- **Clusters are apart** from each other. -/
theorem pairwise_clusters {l : List α} (hsorted : l.Pairwise fun a b => start a ≤ start b) :
    (clusters start end_ l).Pairwise fun c c' => ∀ a ∈ c.members, ∀ b ∈ c'.members, end_ a < start b := by
  have h : (clusters start end_ l).Pairwise fun c c' => ∀ b ∈ c'.members, c.reach end_ < start b := by
    cases l with
    | nil => exact List.Pairwise.nil
    | cons a l => exact pairwise_clustersFrom l (List.pairwise_cons.mp hsorted).2 _
  exact h.imp fun {c c'} h a ha b hb => (Cluster.reach_lt_iff end_ c (start b)).mp (h b hb) a ha

theorem linked_of_mem_clustersFrom (l : List α) :
    ∀ c : Cluster α, c.Linked start end_ → ∀ c' ∈ clustersFrom start end_ c l, c'.Linked start end_ := by
  induction l with
  | nil =>
    intro c hc c' hc'
    exact (List.mem_singleton.mp hc') ▸ hc
  | cons a l ih =>
    intro c hc c' hc'
    unfold clustersFrom at hc'
    split at hc'
    · exact ih _ (hc.push ‹_›) c' hc'
    · obtain rfl | hc' := List.mem_cons.mp hc'
      · exact hc
      · exact ih _ (Cluster.linked_single a) c' hc'

/-- **Clusters are linked.** -/
theorem linked_of_mem_clusters {l : List α} :
    ∀ c ∈ clusters start end_ l, c.Linked start end_ := by
  cases l with
  | nil => exact fun c hc => absurd hc List.not_mem_nil
  | cons a l => exact linked_of_mem_clustersFrom l _ (Cluster.linked_single a)

/-! ### Where an interval stands -/

theorem exists_split_of_flatMap {cs : List (Cluster α)} {a : α} {back : List α} :
    ∀ front, cs.flatMap Cluster.members = front ++ a :: back →
      ∃ pre c post m₁ m₂, cs = pre ++ c :: post ∧ c.members = m₁ ++ a :: m₂ ∧
        front = pre.flatMap Cluster.members ++ m₁ ∧ back = m₂ ++ post.flatMap Cluster.members := by
  induction cs with
  | nil => exact fun front h => absurd h (by simp)
  | cons c cs ih =>
    intro front h
    rw [List.flatMap_cons] at h
    -- in a later cluster
    have hlater : ∀ rest, front = c.members ++ rest → cs.flatMap Cluster.members = rest ++ a :: back →
        ∃ pre c' post m₁ m₂, c :: cs = pre ++ c' :: post ∧ c'.members = m₁ ++ a :: m₂ ∧
          front = pre.flatMap Cluster.members ++ m₁ ∧ back = m₂ ++ post.flatMap Cluster.members := by
      intro rest hfront hrest
      obtain ⟨pre, c', post, m₁, m₂, rfl, hmem, rfl, hback⟩ := ih rest hrest
      exact ⟨c :: pre, c', post, m₁, m₂, rfl, hmem, by rw [hfront, List.flatMap_cons, List.append_assoc], hback⟩
    obtain ⟨rest, hfront, hrest⟩ | ⟨rest, hmem, hback⟩ := List.append_eq_append_iff.mp h
    · exact hlater rest hfront hrest
    · cases rest with
      | nil => exact hlater [] (by simpa using hmem.symm) hback.symm
      | cons b rest =>
        obtain ⟨hb, htail⟩ := List.cons.inj hback
        subst hb
        exact ⟨[], c, cs, front, rest, rfl, hmem, rfl, htail⟩

/-- The place of an interval in its cluster: what is before and after the cluster is apart from it. -/
structure PlacedIn (start end_ : α → τ) (c : Cluster α) (front : List α) (a : α) (back : List α)
    (m₁ m₂ : List α) : Prop where
  members : c.members = m₁ ++ a :: m₂
  before : ∃ before, front = before ++ m₁ ∧ ∀ e ∈ before, ∀ b ∈ c.members, end_ e < start b
  after : ∃ after, back = m₂ ++ after ∧ ∀ e ∈ after, ∀ b ∈ c.members, end_ b < start e

theorem PlacedIn.of_split {cs pre post : List (Cluster α)} {c : Cluster α} {a : α} {m₁ m₂ : List α}
    (hcs : cs = pre ++ c :: post)
    (hapart : cs.Pairwise fun c c' => ∀ a ∈ c.members, ∀ b ∈ c'.members, end_ a < start b)
    (hmem : c.members = m₁ ++ a :: m₂) :
    PlacedIn start end_ c (pre.flatMap Cluster.members ++ m₁) a (m₂ ++ post.flatMap Cluster.members) m₁ m₂ where
  members := hmem
  before := by
    refine ⟨pre.flatMap Cluster.members, rfl, fun e he b hb => ?_⟩
    obtain ⟨c', hc', he⟩ := List.mem_flatMap.mp he
    rw [hcs] at hapart
    exact (List.pairwise_append.mp hapart).2.2 c' hc' c List.mem_cons_self e he b hb
  after := by
    refine ⟨post.flatMap Cluster.members, rfl, fun e he b hb => ?_⟩
    obtain ⟨c', hc', he⟩ := List.mem_flatMap.mp he
    rw [hcs] at hapart
    exact (List.pairwise_cons.mp (List.pairwise_append.mp hapart).2.1).1 c' hc' b hb e he

/-- Each interval of the list has its place in a cluster. -/
theorem exists_placedIn {l front back : List α} {a : α} (hsorted : l.Pairwise fun a b => start a ≤ start b)
    (hl : l = front ++ a :: back) :
    ∃ c ∈ clusters start end_ l, ∃ m₁ m₂, PlacedIn start end_ c front a back m₁ m₂ := by
  obtain ⟨pre, c, post, m₁, m₂, hcs, hmem, rfl, rfl⟩ :=
    exists_split_of_flatMap front ((flatMap_members_clusters start end_ l).trans hl)
  refine ⟨c, ?_, m₁, m₂, PlacedIn.of_split hcs (pairwise_clusters hsorted) hmem⟩
  rw [hcs]
  exact List.mem_append_right _ List.mem_cons_self

/-- Each interval of a cluster has its place in the list. -/
theorem exists_split_of_mem_clusters {l : List α} (hsorted : l.Pairwise fun a b => start a ≤ start b)
    {c : Cluster α} (hc : c ∈ clusters start end_ l) {m₁ m₂ : List α} {a : α} (hmem : c.members = m₁ ++ a :: m₂) :
    ∃ front back, l = front ++ a :: back ∧ PlacedIn start end_ c front a back m₁ m₂ := by
  obtain ⟨pre, post, hcs⟩ := List.append_of_mem hc
  refine ⟨_, _, ?_, PlacedIn.of_split hcs (pairwise_clusters hsorted) hmem⟩
  calc l = (clusters start end_ l).flatMap Cluster.members := (flatMap_members_clusters start end_ l).symm
    _ = pre.flatMap Cluster.members ++ (c.members ++ post.flatMap Cluster.members) := by
      rw [hcs, List.flatMap_append, List.flatMap_cons]
    _ = _ := by
      rw [hmem]
      simp only [List.append_assoc, List.cons_append]

/-- No interval of a cluster starts before the first one. -/
theorem first_le_of_mem_clusters {l : List α} (hsorted : l.Pairwise fun a b => start a ≤ start b)
    {c : Cluster α} (hc : c ∈ clusters start end_ l) : ∀ a ∈ c.members, start c.first ≤ start a := by
  intro a ha
  obtain ⟨front, back, rfl, hplace⟩ := exists_split_of_mem_clusters hsorted hc
    (show c.members = [] ++ c.first :: c.others from rfl)
  obtain ⟨after, rfl, -⟩ := hplace.after
  obtain rfl | ha := List.mem_cons.mp ha
  · exact le_rfl
  · exact (List.pairwise_cons.mp (List.pairwise_append.mp hsorted).2.1).1 a (List.mem_append_left _ ha)

/-- The start of a cluster divides the list. -/
theorem divided_at_first {l : List α} (hsorted : l.Pairwise fun a b => start a ≤ start b)
    {c : Cluster α} (hc : c ∈ clusters start end_ l) :
    ∀ a ∈ l, end_ a < start c.first ∨ start c.first ≤ start a := by
  intro a ha
  obtain ⟨front, back, rfl, hplace⟩ := exists_split_of_mem_clusters hsorted hc
    (show c.members = [] ++ c.first :: c.others from rfl)
  obtain ⟨before, rfl, hbefore⟩ := hplace.before
  rw [List.append_nil] at ha hsorted
  obtain ha | ha := List.mem_append.mp ha
  · exact .inl (hbefore a ha c.first List.mem_cons_self)
  · refine .inr ?_
    obtain rfl | ha := List.mem_cons.mp ha
    · exact le_rfl
    · exact (List.pairwise_cons.mp (List.pairwise_append.mp hsorted).2.1).1 a ha

/-- Nothing divides a linked cluster. -/
theorem Cluster.Linked.not_divided {c : Cluster α} (h : c.Linked start end_)
    (hordered : ∀ a ∈ c.members, start a ≤ end_ a) (hfirst : ∀ a ∈ c.members, start c.first ≤ start a)
    {a b : α} (ha : a ∈ c.members) (hb : b ∈ c.members) {x : τ} (hend : end_ a < x) (hstart : x ≤ start b) :
    ¬ ∀ e ∈ c.members, end_ e < x ∨ x ≤ start e := by
  intro hdiv
  have hfirst : end_ c.first < x := by
    refine (hdiv c.first List.mem_cons_self).resolve_right fun hle => ?_
    exact absurd (hend.trans_le (hle.trans ((hfirst a ha).trans (hordered a ha)))) (lt_irrefl _)
  have hall : ∀ e ∈ c.members, end_ e < x := by
    refine h.forall_members hfirst fun e he e' _ he' htouch => ?_
    exact (hdiv e he).resolve_right (not_le.mpr (htouch.trans_lt he'))
  exact absurd ((hall b hb).trans_le (hstart.trans (hordered b hb))) (lt_irrefl _)

/-- An interval that is apart from all others is a cluster of its own. -/
theorem others_eq_nil_of_isolated {l front back : List α} {a : α}
    (hsorted : l.Pairwise fun a b => start a ≤ start b) (hordered : ∀ b ∈ l, start b ≤ end_ b)
    (hl : l = front ++ a :: back)
    (hapart : ∀ b ∈ front ++ back, end_ a < start b ∨ end_ b < start a) :
    ∃ c ∈ clusters start end_ l, c.first = a ∧ c.others = [] := by
  obtain ⟨c, hc, m₁, m₂, hplace⟩ : ∃ c ∈ clusters start end_ l, ∃ m₁ m₂,
      PlacedIn start end_ c front a back m₁ m₂ := exists_placedIn hsorted hl
  obtain ⟨hmem, ⟨before, rfl, -⟩, ⟨after, rfl, -⟩⟩ := hplace
  have hlinked := linked_of_mem_clusters c hc
  obtain ⟨first, others⟩ := c
  have hmem : first :: others = m₁ ++ a :: m₂ := hmem
  rw [hl] at hsorted hordered
  have ha := hordered a (by simp)
  cases m₁ with
  | cons b m₁ =>
    -- it would touch an interval before it
    obtain ⟨rfl, rfl⟩ := List.cons.inj hmem
    obtain ⟨e, he, htouch⟩ := hlinked m₁ a m₂ rfl
    have hle : start e ≤ start a :=
      (List.pairwise_append.mp hsorted).2.2 e (List.mem_append_right _ he) a List.mem_cons_self
    obtain hlt | hlt := hapart e (List.mem_append_left _ (List.mem_append_right _ he))
    · exact absurd (hlt.trans_le (hle.trans ha)) (lt_irrefl _)
    · exact absurd (hlt.trans_le htouch) (lt_irrefl _)
  | nil =>
    obtain ⟨rfl, rfl⟩ := List.cons.inj hmem
    refine ⟨_, hc, rfl, ?_⟩
    cases others with
    | nil => rfl
    | cons e others =>
      -- the next one would touch it
      obtain ⟨b, hb, htouch⟩ := hlinked [] e others rfl
      obtain rfl := List.mem_singleton.mp hb
      have hmem : e ∈ e :: others ++ after := List.mem_cons_self
      have hle := (List.pairwise_cons.mp (List.pairwise_append.mp hsorted).2.1).1 e hmem
      have he := hordered e (List.mem_append_right _ (List.mem_cons_of_mem b hmem))
      obtain hlt | hlt := hapart e (List.mem_append_right _ hmem)
      · exact absurd (hlt.trans_le htouch) (lt_irrefl _)
      · exact absurd (hlt.trans_le (hle.trans he)) (lt_irrefl _)
