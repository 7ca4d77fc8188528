import Mathlib.Data.List.Sort

/-!
# Stable sorting by a comparison, and the first elements

A sorting routine that takes a comparison function (`SliceStable`): it promises a sorted list with ties
in their old order where the comparison is a strict weak order on the list (`StrictWeak`), and some
permutation otherwise.

A list that is sorted by one comparison only, and cut after some elements, is to hold its first elements
in the lexicographic order of two comparisons (`KeepsFirst`). It does, whatever the routine, exactly when
the first comparison is a strict weak order and no element that is kept is followed by one that ties with
it and has to go before it by the second (`keepsFirst_iff`).
-/

section StableSort

variable {α : Type} {less rest : α → α → Bool} {l : List α} {a b c : α}

/-- A strict weak order on the elements of a list. -/
structure StrictWeak (less : α → α → Bool) (l : List α) : Prop where
  asymm : ∀ a ∈ l, ∀ b ∈ l, less a b = true → less b a = false
  trans_not : ∀ a ∈ l, ∀ b ∈ l, ∀ c ∈ l, less a b = false → less b c = false → less a c = false

/-- Neither goes before the other. -/
def tied (less : α → α → Bool) (a b : α) : Bool := !less a b && !less b a

theorem tied_iff : tied less a b = true ↔ less a b = false ∧ less b a = false := by
  simp [tied]

theorem tied_comm (a b : α) : tied less a b = tied less b a := Bool.and_comm _ _

namespace StrictWeak

theorem irrefl (h : StrictWeak less l) (ha : a ∈ l) : less a a = false := by
  by_contra hne
  have haa : less a a = true := by simpa using hne
  exact absurd (h.asymm a ha a ha haa) (by simp [haa])

theorem mono {l' : List α} (h : StrictWeak less l) (hsub : ∀ a ∈ l', a ∈ l) : StrictWeak less l' where
  asymm := fun a ha b hb => h.asymm a (hsub a ha) b (hsub b hb)
  trans_not := fun a ha b hb c hc => h.trans_not a (hsub a ha) b (hsub b hb) c (hsub c hc)

theorem congr {less' : α → α → Bool} (h : StrictWeak less l)
    (heq : ∀ a ∈ l, ∀ b ∈ l, less a b = less' a b) : StrictWeak less' l where
  asymm := by
    intro a ha b hb
    rw [← heq a ha b hb, ← heq b hb a ha]
    exact h.asymm a ha b hb
  trans_not := by
    intro a ha b hb c hc
    rw [← heq a ha b hb, ← heq b hb c hc, ← heq a ha c hc]
    exact h.trans_not a ha b hb c hc

/-- What ties with an element goes where it goes. -/
theorem less_of_tied (h : StrictWeak less l) (ha : a ∈ l) (hb : b ∈ l) (hc : c ∈ l)
    (hab : tied less a b = true) : less a c = less b c := by
  obtain ⟨hab, hba⟩ := tied_iff.mp hab
  cases hac : less a c with
  | false => exact (h.trans_not b hb a ha c hc hba hac).symm
  | true =>
    by_contra hbc
    have hbc : less b c = false := by simpa using Ne.symm hbc
    exact absurd (h.trans_not a ha b hb c hc hab hbc) (by simp [hac])

end StrictWeak

/-- `sort.SliceStable`. -/
structure SliceStable (α : Type) where
  sort : (α → α → Bool) → List α → List α
  perm : ∀ less l, (sort less l).Perm l
  sorted : ∀ less l, StrictWeak less l → (sort less l).Pairwise fun a b => less b a = false
  ties : ∀ less l, StrictWeak less l → ∀ x ∈ l, (sort less l).filter (tied less x) = l.filter (tied less x)

/-! ### Insertion sort -/

/-- Goes before the first element that does not have to go before it. -/
def insertBefore (less : α → α → Bool) (a : α) : List α → List α
  | [] => [a]
  | b :: l => if less b a then b :: insertBefore less a l else a :: b :: l

theorem insertBefore_perm (less : α → α → Bool) (a : α) (l : List α) :
    (insertBefore less a l).Perm (a :: l) := by
  induction l with
  | nil => exact .refl _
  | cons b l ih =>
    rw [insertBefore]
    split
    · exact (ih.cons b).trans (.swap a b l)
    · exact .refl _

theorem insertBefore_sorted (h : StrictWeak less (a :: l))
    (hl : l.Pairwise fun a b => less b a = false) :
    (insertBefore less a l).Pairwise fun a b => less b a = false := by
  induction l with
  | nil => exact List.pairwise_singleton _ _
  | cons b l ih =>
    obtain ⟨hb, hl'⟩ := List.pairwise_cons.mp hl
    have hmem : ∀ x ∈ a :: l, x ∈ a :: b :: l := by
      intro x hx
      rcases List.mem_cons.mp hx with rfl | hx
      · exact List.mem_cons_self
      · exact List.mem_cons_of_mem _ (List.mem_cons_of_mem b hx)
    rw [insertBefore]
    split
    · next hba =>
      refine List.pairwise_cons.mpr ⟨fun x hx => ?_, ih (h.mono hmem) hl'⟩
      rcases List.mem_cons.mp ((insertBefore_perm less a l).mem_iff.mp hx) with rfl | hx
      · exact h.asymm b (by simp) x (by simp) hba
      · exact hb x hx
    · next hba =>
      refine List.pairwise_cons.mpr ⟨fun x hx => ?_, hl⟩
      have hba : less b a = false := by simpa using hba
      rcases List.mem_cons.mp hx with rfl | hx
      · exact hba
      · exact h.trans_not x (by simp [hx]) b (by simp) a (by simp) (hb x hx) hba

theorem insertBefore_ties (h : StrictWeak less l) (ha : a ∈ l) {x : α} (hx : x ∈ l) {l' : List α}
    (hsub : ∀ b ∈ l', b ∈ l) :
    (insertBefore less a l').filter (tied less x) = (a :: l').filter (tied less x) := by
  induction l' with
  | nil => rfl
  | cons b l' ih =>
    rw [insertBefore]
    split
    · next hba =>
      -- the two do not tie, so that at most one of them ties with `x`
      have hb := hsub b List.mem_cons_self
      have hnot : ¬ (tied less x a = true ∧ tied less x b = true) := by
        rintro ⟨hxa, hxb⟩
        have hlt : less x a = true := (h.less_of_tied hx hb ha hxb).trans hba
        exact absurd (tied_iff.mp hxa).1 (by simp [hlt])
      rw [List.filter_cons, ih fun c hc => hsub c (List.mem_cons_of_mem b hc)]
      simp only [List.filter_cons]
      split <;> split <;> first | rfl | exact absurd ⟨‹_›, ‹_›⟩ hnot
    · rfl

/-- Insertion sort, which is what Go does with at most twenty elements. -/
def insertionSorted (less : α → α → Bool) (l : List α) : List α := l.foldr (insertBefore less) []

theorem insertionSorted_perm (less : α → α → Bool) (l : List α) : (insertionSorted less l).Perm l := by
  induction l with
  | nil => exact .refl _
  | cons a l ih => exact (insertBefore_perm less a _).trans (ih.cons a)

theorem StrictWeak.insertionSorted (h : StrictWeak less (a :: l)) :
    StrictWeak less (a :: insertionSorted less l) :=
  h.mono fun _ => (((insertionSorted_perm less l).cons a).mem_iff).mp

def SliceStable.insertion (α : Type) : SliceStable α where
  sort := insertionSorted
  perm := insertionSorted_perm
  sorted := fun less l h => by
    induction l with
    | nil => exact List.Pairwise.nil
    | cons a l ih =>
      exact insertBefore_sorted h.insertionSorted (ih (h.mono fun _ => List.mem_cons_of_mem a))
  ties := fun less l h x hx => by
    -- the list that is sorted shrinks, the order stays
    have hgen : ∀ l' : List α, (∀ b ∈ l', b ∈ l) →
        (insertionSorted less l').filter (tied less x) = l'.filter (tied less x) := by
      intro l' hsub
      induction l' with
      | nil => rfl
      | cons b l' ih =>
        have hsub' : ∀ c ∈ l', c ∈ l := fun c hc => hsub c (List.mem_cons_of_mem b hc)
        have hsorted : ∀ c ∈ insertionSorted less l', c ∈ l := fun c hc =>
          hsub' c ((insertionSorted_perm less l').mem_iff.mp hc)
        calc (insertBefore less b (insertionSorted less l')).filter (tied less x)
            = (b :: insertionSorted less l').filter (tied less x) :=
              insertBefore_ties h (hsub b List.mem_cons_self) hx hsorted
          _ = (b :: l').filter (tied less x) := by
              rw [List.filter_cons, List.filter_cons, ih hsub']
    exact hgen l fun _ hb => hb

/-! ### What a sorted list looks like around an element -/

namespace SliceStable

variable (S : SliceStable α)

theorem mem_sort_iff : a ∈ S.sort less l ↔ a ∈ l := (S.perm less l).mem_iff

/-- How many elements a stable sort puts before an element `a` with `l₁` before it. -/
def rank (less : α → α → Bool) (l l₁ : List α) (a : α) : ℕ :=
  l.countP (fun b => less b a) + l₁.countP (tied less a)

/-- The elements before one with its rank: those that are less, and ties. -/
theorem length_eq_rank (h : StrictWeak less l) {s₁ s₂ l₁ : List α}
    (hs : S.sort less l = s₁ ++ a :: s₂) (hties : s₁.filter (tied less a) = l₁.filter (tied less a)) :
    s₁.length = rank less l l₁ a := by
  have hsorted := S.sorted less l h
  have hperm := S.perm less l
  rw [hs] at hsorted hperm
  have hmem : ∀ b ∈ s₁ ++ a :: s₂, b ∈ l := fun b hb => hperm.mem_iff.mp hb
  have ha : a ∈ l := hmem a (by simp)
  obtain ⟨-, htail, hbefore⟩ := List.pairwise_append.mp hsorted
  have hafter := (List.pairwise_cons.mp htail).1
  -- no element after it is less, and one before it is less or ties
  have hcount : l.countP (fun b => less b a) = s₁.countP fun b => less b a := by
    have hnone : (a :: s₂).countP (fun b => less b a) = 0 := by
      rw [List.countP_eq_zero]
      intro b hb
      rcases List.mem_cons.mp hb with rfl | hb
      · simp [h.irrefl ha]
      · simp [hafter b hb]
    rw [← hperm.countP_eq, List.countP_append, hnone, Nat.add_zero]
  have htied : l₁.countP (tied less a) = s₁.countP (tied less a) := by
    rw [List.countP_eq_length_filter, List.countP_eq_length_filter, hties]
  have hnot : s₁.countP (tied less a) = s₁.countP fun b => !less b a := by
    refine List.countP_congr fun b hb => ?_
    have hab : less a b = false := hbefore b hb a (by simp)
    simp [tied, hab]
  rw [rank, hcount, htied, hnot, List.length_eq_countP_add_countP fun b => less b a]
  simp only [Bool.not_eq_true, Bool.decide_eq_false]

end SliceStable

/-! ### The first elements by two comparisons -/

/-- By one comparison, and among ties by another one. -/
def lexLess (less rest : α → α → Bool) (a b : α) : Bool := less a b || (!less b a && rest a b)

theorem lexLess_of_tied (h : tied less a b = true) : lexLess less rest a b = rest a b := by
  obtain ⟨hab, hba⟩ := tied_iff.mp h
  simp [lexLess, hab, hba]

theorem tied_of_tied_lexLess (h : tied (lexLess less rest) a b = true) : tied less a b = true := by
  obtain ⟨hab, hba⟩ := tied_iff.mp h
  simp only [lexLess, Bool.or_eq_false_iff] at hab hba
  exact tied_iff.mpr ⟨hab.1, hba.1⟩

/-- `kept` holds the first `count` elements of the list in an order, and ties as they were. -/
structure KeepsFirst (less : α → α → Bool) (count : ℕ) (l kept : List α) : Prop where
  dropped : ∃ dropped, (kept ++ dropped).Perm l ∧ ∀ a ∈ kept, ∀ b ∈ dropped, less b a = false
  length : kept.length = min count l.length
  sorted : kept.Pairwise fun a b => less b a = false
  ties : ∀ x ∈ kept, (kept.filter (tied less x)).Sublist (l.filter (tied less x))

/-- No element that a stable sort by the first comparison puts among the first `count` has a tie after it
that has to go before it by the second. -/
def TiesFollow (less rest : α → α → Bool) (count : ℕ) (l : List α) : Prop :=
  ∀ l₁ a l₂, l = l₁ ++ a :: l₂ → SliceStable.rank less l l₁ a < count →
    ∀ b ∈ l₂, tied less a b = true → rest b a = false

section KeepsFirst

variable {count : ℕ} (S : SliceStable α)

/-- An element of a stably sorted list, and those after it that tie with it. -/
theorem SliceStable.split_input (h : StrictWeak less l) {s₁ s₂ : List α}
    (hs : S.sort less l = s₁ ++ a :: s₂) :
    ∃ l₁ l₂, l = l₁ ++ a :: l₂ ∧ s₁.length = rank less l l₁ a ∧
      ∀ b ∈ s₂, tied less a b = true → b ∈ l₂ := by
  have ha : a ∈ l := S.mem_sort_iff.mp (by rw [hs]; simp)
  have haa : tied less a a = true := tied_iff.mpr ⟨h.irrefl ha, h.irrefl ha⟩
  have hties := S.ties less l h a ha
  rw [hs, List.filter_append, List.filter_cons, if_pos haa] at hties
  obtain ⟨l₁, l', rfl, hl₁, hl'⟩ := List.filter_eq_append_iff.mp hties.symm
  obtain ⟨l₃, l₂, rfl, hl₃, -, hl₂⟩ := List.filter_eq_cons_iff.mp hl'
  have hnone : l₃.filter (tied less a) = [] := List.filter_eq_nil_iff.mpr hl₃
  refine ⟨l₁ ++ l₃, l₂, by simp, ?_, fun b hb hab => ?_⟩
  · exact S.length_eq_rank h hs (by rw [List.filter_append, hnone, List.append_nil, hl₁])
  · have hb : b ∈ s₂.filter (tied less a) := List.mem_filter.mpr ⟨hb, hab⟩
    rw [← hl₂] at hb
    exact (List.mem_filter.mp hb).1

/-- The same from the list that is sorted. -/
theorem SliceStable.split_output (h : StrictWeak less l) {l₁ l₂ : List α} (hl : l = l₁ ++ a :: l₂) :
    ∃ s₁ s₂, S.sort less l = s₁ ++ a :: s₂ ∧ s₁.length = rank less l l₁ a ∧
      ∀ b ∈ l₂, tied less a b = true → b ∈ s₂ := by
  have ha : a ∈ l := by rw [hl]; simp
  have haa : tied less a a = true := tied_iff.mpr ⟨h.irrefl ha, h.irrefl ha⟩
  have hties : (S.sort less l).filter (tied less a) =
      l₁.filter (tied less a) ++ a :: l₂.filter (tied less a) := by
    rw [S.ties less l h a ha]
    conv_lhs => rw [hl]
    rw [List.filter_append, List.filter_cons, if_pos haa]
  obtain ⟨s₁, s', hs, hs₁, hs'⟩ := List.filter_eq_append_iff.mp hties
  obtain ⟨s₃, s₂, rfl, hs₃, -, hs₂⟩ := List.filter_eq_cons_iff.mp hs'
  have hnone : s₃.filter (tied less a) = [] := List.filter_eq_nil_iff.mpr hs₃
  have hs : S.sort less l = (s₁ ++ s₃) ++ a :: s₂ := by rw [hs]; simp
  refine ⟨s₁ ++ s₃, s₂, hs, ?_, fun b hb hab => ?_⟩
  · exact S.length_eq_rank h hs (by rw [List.filter_append, hnone, List.append_nil, hs₁])
  · have hb : b ∈ l₂.filter (tied less a) := List.mem_filter.mpr ⟨hb, hab⟩
    rw [← hs₂] at hb
    exact (List.mem_filter.mp hb).1

/-- Sorted by the first comparison, no element that is kept has to go after a later one. -/
theorem SliceStable.not_lexLess (h : StrictWeak less l) (hties : TiesFollow less rest count l)
    {s₁ s₂ : List α} (hs : S.sort less l = s₁ ++ a :: s₂) (hcount : s₁.length < count) (hb : b ∈ s₂) :
    lexLess less rest b a = false := by
  have hsorted := S.sorted less l h
  rw [hs] at hsorted
  have hba : less b a = false :=
    (List.pairwise_cons.mp (List.pairwise_append.mp hsorted).2.1).1 b hb
  cases hab : less a b with
  | true => simp [lexLess, hba, hab]
  | false =>
    have htied : tied less a b = true := tied_iff.mpr ⟨hab, hba⟩
    obtain ⟨l₁, l₂, hl, hrank, hafter⟩ := S.split_input h hs
    rw [lexLess_of_tied (tied_comm a b ▸ htied)]
    exact hties l₁ a l₂ hl (hrank ▸ hcount) b (hafter b hb htied) htied

theorem SliceStable.keepsFirst (h : StrictWeak less l) (hties : TiesFollow less rest count l) :
    KeepsFirst (lexLess less rest) count l ((S.sort less l).take count) := by
  set s := S.sort less l with hs
  have hpos : ∀ (i j : ℕ) (hij : i < j) (hj : j < s.length), i < count →
      lexLess less rest s[j] s[i] = false := by
    intro i j hij hj hi
    have hsplit : s = s.take i ++ s[i] :: s.drop (i + 1) := by
      rw [List.getElem_cons_drop, List.take_append_drop]
    have hlength : (s.take i).length = i := List.length_take_of_le (hij.trans hj).le
    refine S.not_lexLess h hties (hs.symm.trans hsplit) (by rwa [hlength]) ?_
    exact List.mem_drop_iff_getElem.mpr ⟨j - (i + 1), by omega, by congr 1; omega⟩
  refine ⟨⟨s.drop count, ?_, ?_⟩, ?_, ?_, ?_⟩
  · rw [List.take_append_drop]
    exact S.perm less l
  · intro a ha b hb
    obtain ⟨i, hi, rfl⟩ := List.mem_take_iff_getElem.mp ha
    obtain ⟨j, hj, rfl⟩ := List.mem_drop_iff_getElem.mp hb
    have hj : count + j < s.length := by omega
    exact hpos i (count + j) (by omega) hj (by omega)
  · rw [List.length_take, (S.perm less l).length_eq]
  · refine List.pairwise_iff_getElem.mpr fun i j hi hj hij => ?_
    rw [List.length_take] at hi hj
    rw [List.getElem_take, List.getElem_take]
    exact hpos i j hij (by omega) (by omega)
  · intro x hx
    have hx : x ∈ l := S.mem_sort_iff.mp (List.mem_of_mem_take hx)
    -- ties in both comparisons are ties in the first one
    have hlex : ∀ l' : List α, l'.filter (tied (lexLess less rest) x) =
        (l'.filter (tied less x)).filter (tied (lexLess less rest) x) := by
      intro l'
      rw [List.filter_filter]
      refine List.filter_congr fun b _ => ?_
      cases hb : tied (lexLess less rest) x b with
      | false => rfl
      | true => rw [tied_of_tied_lexLess hb]; rfl
    rw [hlex l, ← S.ties less l h x hx, ← hlex]
    exact (List.take_sublist count s).filter _

/-- If the first comparison is no strict weak order, an element comes before one it has to follow. -/
theorem exists_perm_of_not_strictWeak (hasymm : ∀ a b, less a b = true → less b a = false)
    (h : ¬ StrictWeak less l) : ∃ a b l', (a :: b :: l').Perm l ∧ less b a = true := by
  have hnot : ¬ ∀ a ∈ l, ∀ b ∈ l, ∀ c ∈ l, less a b = false → less b c = false → less a c = false :=
    fun hall => h ⟨fun a _ b _ => hasymm a b, hall⟩
  push Not at hnot
  obtain ⟨a, ha, b, hb, c, hc, -, -, hac⟩ := hnot
  have hac : less a c = true := by simpa using hac
  have hne : a ≠ c := by
    rintro rfl
    exact absurd (hasymm a a hac) (by simp [hac])
  obtain ⟨p, q, rfl⟩ := List.append_of_mem hc
  have ha : a ∈ p ++ q := by
    rcases List.mem_append.mp ha with ha | ha
    · exact List.mem_append_left q ha
    · exact List.mem_append_right p ((List.mem_cons.mp ha).resolve_left hne)
  obtain ⟨p', q', hpq⟩ := List.append_of_mem ha
  have hrest : (a :: (p' ++ q')).Perm (p ++ q) := by
    rw [hpq]
    exact List.perm_middle.symm
  exact ⟨c, a, p' ++ q', (hrest.cons c).trans List.perm_middle.symm, hac⟩

/-- A routine that gives this permutation of a list that is not in order, and sorts what is. -/
noncomputable def SliceStable.arranged (less : α → α → Bool) (l l' : List α) (hperm : l'.Perm l)
    (hnot : ¬ StrictWeak less l) : SliceStable α :=
  open Classical in
  { sort := fun less₁ l₁ => if less₁ = less ∧ l₁ = l then l' else insertionSorted less₁ l₁
    perm := fun less₁ l₁ => by
      split
      · next h => exact h.2 ▸ hperm
      · exact insertionSorted_perm less₁ l₁
    sorted := fun less₁ l₁ h => by
      rw [if_neg (by rintro ⟨rfl, rfl⟩; exact hnot h)]
      exact (SliceStable.insertion α).sorted less₁ l₁ h
    ties := fun less₁ l₁ h => by
      rw [if_neg (by rintro ⟨rfl, rfl⟩; exact hnot h)]
      exact (SliceStable.insertion α).ties less₁ l₁ h }

theorem SliceStable.arranged_sort {l' : List α} (hperm : l'.Perm l) (hnot : ¬ StrictWeak less l) :
    (SliceStable.arranged less l l' hperm hnot).sort less l = l' := if_pos ⟨rfl, rfl⟩

/-- **What a stable sort by the first comparison keeps** is in the lexicographic order. -/
theorem keepsFirst_iff (hasymm : ∀ a b, less a b = true → less b a = false)
    (hcount : l ≠ [] → 0 < count) :
    (∀ S : SliceStable α, KeepsFirst (lexLess less rest) count l ((S.sort less l).take count)) ↔
      StrictWeak less l ∧ TiesFollow less rest count l := by
  refine ⟨fun hall => ?_, fun h S => S.keepsFirst h.1 h.2⟩
  have hweak : StrictWeak less l := by
    by_contra hnot
    obtain ⟨a, b, l', hperm, hba⟩ := exists_perm_of_not_strictWeak hasymm hnot
    have hlex : lexLess less rest b a = true := by simp [lexLess, hba]
    have hkeeps := hall (.arranged less l _ hperm hnot)
    rw [SliceStable.arranged_sort] at hkeeps
    have hpos : 0 < count := hcount (by rintro rfl; simp at hperm)
    obtain ⟨n, rfl⟩ := Nat.exists_eq_succ_of_ne_zero hpos.ne'
    rw [List.take_succ_cons] at hkeeps
    cases n with
    | zero =>
      -- only the first element is kept, and the second one dropped
      obtain ⟨dropped, hdropped, hnone⟩ := hkeeps.dropped
      have hb : b ∈ dropped := by
        have hcons := hdropped.trans hperm.symm
        rw [List.take_zero, List.singleton_append] at hcons
        exact hcons.cons_inv.mem_iff.mpr List.mem_cons_self
      exact absurd (hnone a (by simp) b hb) (by simp [hlex])
    | succ n =>
      have hsorted := hkeeps.sorted
      rw [List.take_succ_cons] at hsorted
      have hfirst := (List.pairwise_cons.mp hsorted).1 b List.mem_cons_self
      exact absurd hfirst (by simp [hlex])
  refine ⟨hweak, fun l₁ a l₂ hl hrank b hb htied => ?_⟩
  let S := SliceStable.insertion α
  have hkeeps := hall S
  obtain ⟨s₁, s₂, hs, hlength, hafter⟩ := S.split_output hweak hl
  have hb : b ∈ s₂ := hafter b hb htied
  have hlex : lexLess less rest b a = rest b a := lexLess_of_tied (tied_comm a b ▸ htied)
  rw [← hlex]
  have hkept : (S.sort less l).take count = s₁ ++ a :: s₂.take (count - s₁.length - 1) := by
    obtain ⟨n, hn⟩ := Nat.exists_eq_add_of_lt (hlength ▸ hrank)
    rw [hs, List.take_append, List.take_of_length_le (by omega), hn]
    have hrest : s₁.length + n + 1 - s₁.length = n + 1 := by omega
    rw [hrest, List.take_succ_cons]
    rfl
  rw [hkept] at hkeeps
  by_cases hbkept : b ∈ s₂.take (count - s₁.length - 1)
  · exact (List.pairwise_cons.mp (List.pairwise_append.mp hkeeps.sorted).2.1).1 b hbkept
  · obtain ⟨dropped, hdropped, hnone⟩ := hkeeps.dropped
    have hbdropped : b ∈ dropped := by
      have hrest : s₂.take (count - s₁.length - 1) ++ s₂.drop (count - s₁.length - 1) = s₂ :=
        List.take_append_drop _ _
      have hperm : (s₁ ++ a :: s₂.take (count - s₁.length - 1) ++ dropped).Perm
          (s₁ ++ a :: s₂.take (count - s₁.length - 1) ++ s₂.drop (count - s₁.length - 1)) := by
        refine hdropped.trans ?_
        rw [List.append_assoc, List.cons_append, hrest, ← hs]
        exact (S.perm less l).symm
      have hmem := ((List.perm_append_left_iff _).mp hperm).mem_iff (a := b)
      rw [hmem]
      rw [← hrest] at hb
      exact (List.mem_append.mp hb).resolve_left hbkept
    exact hnone a (by simp) b hbdropped

end KeepsFirst

end StableSort
