import BoringPanel.Lib.StableSort

/-!
# Comparing rows by columns

Rows are compared by the first column in which their values differ (`byColumns`). Where one of them has no
value in a column, their names decide. A comparison of values (`Comparison`) may have values that are in no
order with others, such as those that are not numbers.

The comparison of rows is a strict weak order exactly if rows without a value stand, by name, where the
other rows leave a place for them, and rows whose values are in no order are not told apart otherwise
(`strictWeak_byColumns_iff`).
-/

namespace ColumnOrder

/-- A comparison of values, which is a strict weak order on those that are regular. -/
structure Comparison (C : Type) where
  less : C → C → Bool
  regular : C → Bool
  asymm : ∀ v w, less v w = true → less w v = false
  not_trans : ∀ u v w, regular v = true → less u v = false → less v w = false → less u w = false
  /-- Two values are only told apart around an irregular one that is in no order with them. -/
  irregular : ∀ u v w, regular v = false → less u v = false → less v w = false → less u w = true →
    less v u = false ∧ less w v = false

namespace Comparison

variable {C : Type} (cmp : Comparison C) {u v w : C}

/-- Two regular values, neither of which is less. -/
def same (v w : C) : Bool := cmp.regular v && cmp.regular w && !cmp.less v w && !cmp.less w v

theorem same_iff : cmp.same v w = true ↔
    (cmp.regular v = true ∧ cmp.regular w = true) ∧ cmp.less v w = false ∧ cmp.less w v = false := by
  simp only [same, Bool.and_eq_true, Bool.not_eq_true', and_assoc]

theorem same_comm (v w : C) : cmp.same v w = cmp.same w v := by
  simp only [same, Bool.and_comm, Bool.and_left_comm]

theorem less_irrefl (v : C) : cmp.less v v = false := by
  cases h : cmp.less v v with
  | false => rfl
  | true => exact h.symm.trans (cmp.asymm v v h)

theorem same_trans (huv : cmp.same u v = true) (hvw : cmp.same v w = true) : cmp.same u w = true := by
  obtain ⟨⟨hu, hv⟩, huv, hvu⟩ := cmp.same_iff.mp huv
  obtain ⟨⟨-, hw⟩, hvw, hwv⟩ := cmp.same_iff.mp hvw
  exact cmp.same_iff.mpr ⟨⟨hu, hw⟩, cmp.not_trans u v w hv huv hvw, cmp.not_trans w v u hv hwv hvu⟩

theorem not_same_of_less (h : cmp.less v w = true) : cmp.same v w = false := by
  simp only [same, h, Bool.not_true, Bool.and_false, Bool.false_and]

/-- In no order, as a value that is not a number is with all numbers. -/
def Unordered (v w : C) : Prop := cmp.regular v = false ∧ cmp.less v w = false ∧ cmp.less w v = false

end Comparison

/-- A column: the values of rows, where they have one, and how they are compared. -/
structure Column (α C : Type) where
  cell : α → Option C
  cmp : Comparison C

section Columns

variable {α C γ : Type} [LinearOrder γ] (name : α → γ)

/-- By the first column in which two rows differ; by name if one has no value there. -/
def byColumns : List (Column α C) → α → α → Bool
  | [], _, _ => false
  | col :: cols, a, b =>
    match col.cell a, col.cell b with
    | some v, some w => if col.cmp.same v w then byColumns cols a b else col.cmp.less v w
    | _, _ => decide (name a < name b)

/-- The rows have the same values in the columns. -/
def Agree (cols : List (Column α C)) (a b : α) : Prop :=
  ∀ col ∈ cols, ∃ v w, col.cell a = some v ∧ col.cell b = some w ∧ col.cmp.same v w = true

/-- A row comes first in a column: by its value, or by its name where one of the rows has none. -/
def Column.Decides (col : Column α C) (a b : α) : Prop :=
  (∃ v w, col.cell a = some v ∧ col.cell b = some w ∧ col.cmp.less v w = true) ∨
    ((col.cell a = none ∨ col.cell b = none) ∧ name a < name b)

/-- A row goes before another: after columns in which they agree there is one that decides. -/
def GoesBefore (cols : List (Column α C)) (a b : α) : Prop :=
  ∃ pre col post, cols = pre ++ col :: post ∧ Agree pre a b ∧ col.Decides name a b

/-- What keeps the rows in order. -/
structure Orderly (cols : List (Column α C)) (l : List α) : Prop where
  /-- Around the name of a row without a value, the rows that have one are in the order of their names. -/
  missing : ∀ pre col post, cols = pre ++ col :: post → ∀ a ∈ l, ∀ b ∈ l, ∀ c ∈ l,
    Agree pre a b → Agree pre a c → col.cell a = none → col.cell b ≠ none → col.cell c ≠ none →
      name b ≤ name a → name a ≤ name c →
        ¬ GoesBefore name (col :: post) c b ∧ (name b < name c → GoesBefore name (col :: post) b c)
  /-- Rows whose values are in no order with one value are not told apart. -/
  irregular : ∀ pre col post, cols = pre ++ col :: post → ∀ a ∈ l, ∀ b ∈ l, ∀ c ∈ l,
    Agree pre a b → Agree pre a c → ∀ u v w, col.cell a = some u → col.cell b = some v →
      col.cell c = some w → col.cmp.Unordered u v → col.cmp.Unordered u w →
        ¬ GoesBefore name (col :: post) b c

variable {name} {col : Column α C} {cols pre post : List (Column α C)} {a b c : α} {u v w : C}

/-! ### Agreement -/

theorem agree_nil (a b : α) : Agree ([] : List (Column α C)) a b :=
  fun _ hcol => absurd hcol List.not_mem_nil

theorem agree_cons_iff : Agree (col :: cols) a b ↔
    (∃ v w, col.cell a = some v ∧ col.cell b = some w ∧ col.cmp.same v w = true) ∧ Agree cols a b :=
  List.forall_mem_cons

theorem Agree.symm (h : Agree cols a b) : Agree cols b a := by
  intro col hcol
  obtain ⟨v, w, hv, hw, hsame⟩ := h col hcol
  exact ⟨w, v, hw, hv, (col.cmp.same_comm w v).trans hsame⟩

theorem Agree.trans (hab : Agree cols a b) (hbc : Agree cols b c) : Agree cols a c := by
  intro col hcol
  obtain ⟨u, v, hu, hv, huv⟩ := hab col hcol
  obtain ⟨v', w, hv', hw, hvw⟩ := hbc col hcol
  obtain rfl : v = v' := Option.some.inj (hv.symm.trans hv')
  exact ⟨u, w, hu, hw, col.cmp.same_trans huv hvw⟩

theorem Agree.left (h : Agree cols a b) : Agree cols a a := h.trans h.symm

theorem agree_three (hab : Agree cols a b) (hbc : Agree cols b c) :
    ∀ x ∈ [a, b, c], ∀ y ∈ [a, b, c], Agree cols x y := by
  have hfirst : ∀ x ∈ [a, b, c], Agree cols a x := by
    simp only [List.forall_mem_cons, List.not_mem_nil, false_implies, implies_true, and_true]
    exact ⟨hab.left, hab, hab.trans hbc⟩
  exact fun x hx y hy => (hfirst x hx).symm.trans (hfirst y hy)

theorem agree_append_iff : Agree (pre ++ cols) a b ↔ Agree pre a b ∧ Agree cols a b :=
  List.forall_mem_append

/-! ### The comparison -/

theorem byColumns_cons_some (hv : col.cell a = some v) (hw : col.cell b = some w) :
    byColumns name (col :: cols) a b =
      if col.cmp.same v w then byColumns name cols a b else col.cmp.less v w := by
  rw [byColumns, hv, hw]

theorem byColumns_cons_none (h : col.cell a = none ∨ col.cell b = none) :
    byColumns name (col :: cols) a b = decide (name a < name b) := by
  rw [byColumns]
  split
  · next hv hw =>
    rw [hv, hw] at h
    cases h <;> contradiction
  · rfl

theorem byColumns_of_agree (h : Agree pre a b) :
    byColumns name (pre ++ cols) a b = byColumns name cols a b := by
  induction pre with
  | nil => rfl
  | cons col pre ih =>
    obtain ⟨⟨v, w, hv, hw, hsame⟩, hpre⟩ := agree_cons_iff.mp h
    rw [List.cons_append, byColumns_cons_some hv hw, if_pos hsame, ih hpre]

theorem byColumns_of_decides (h : col.Decides name a b) : byColumns name (col :: cols) a b = true := by
  rcases h with ⟨v, w, hv, hw, hless⟩ | ⟨hnone, hname⟩
  · rw [byColumns_cons_some hv hw, if_neg, hless]
    rw [col.cmp.not_same_of_less hless]
    exact Bool.false_ne_true
  · rw [byColumns_cons_none hnone]
    exact decide_eq_true hname

/-- **The comparison says which row goes before.** -/
theorem byColumns_iff : byColumns name cols a b = true ↔ GoesBefore name cols a b := by
  constructor
  · intro h
    induction cols with
    | nil => exact absurd h Bool.false_ne_true
    | cons col cols ih =>
      by_cases hnone : col.cell a = none ∨ col.cell b = none
      · rw [byColumns_cons_none hnone, decide_eq_true_iff] at h
        exact ⟨[], col, cols, rfl, agree_nil a b, .inr ⟨hnone, h⟩⟩
      · obtain ⟨hv, hw⟩ := not_or.mp hnone
        obtain ⟨v, hv⟩ := Option.ne_none_iff_exists'.mp hv
        obtain ⟨w, hw⟩ := Option.ne_none_iff_exists'.mp hw
        rw [byColumns_cons_some hv hw] at h
        split at h
        · next hsame =>
          -- the values are the same, and a later column decides
          obtain ⟨pre, col', post, rfl, hpre, hdecides⟩ := ih h
          exact ⟨col :: pre, col', post, rfl, agree_cons_iff.mpr ⟨⟨v, w, hv, hw, hsame⟩, hpre⟩, hdecides⟩
        · exact ⟨[], col, cols, rfl, agree_nil a b, .inl ⟨v, w, hv, hw, h⟩⟩
  · rintro ⟨pre, col, post, rfl, hpre, hdecides⟩
    rw [byColumns_of_agree hpre]
    exact byColumns_of_decides hdecides

theorem byColumns_eq_false_iff : byColumns name cols a b = false ↔ ¬ GoesBefore name cols a b := by
  rw [← byColumns_iff, Bool.not_eq_true]

theorem byColumns_asymm (h : byColumns name cols a b = true) : byColumns name cols b a = false := by
  induction cols with
  | nil => rfl
  | cons col cols ih =>
    by_cases hnone : col.cell a = none ∨ col.cell b = none
    · rw [byColumns_cons_none hnone, decide_eq_true_iff] at h
      rw [byColumns_cons_none hnone.symm]
      exact decide_eq_false h.asymm
    · obtain ⟨hv, hw⟩ := not_or.mp hnone
      obtain ⟨v, hv⟩ := Option.ne_none_iff_exists'.mp hv
      obtain ⟨w, hw⟩ := Option.ne_none_iff_exists'.mp hw
      rw [byColumns_cons_some hv hw] at h
      rw [byColumns_cons_some hw hv, col.cmp.same_comm]
      split at h
      · next hsame =>
        rw [if_pos hsame]
        exact ih h
      · next hsame =>
        rw [if_neg hsame]
        exact col.cmp.asymm v w h

/-! ### Rows in order -/

variable {l : List α}

theorem Orderly.mono {l' : List α} (h : Orderly name cols l) (hsub : ∀ a ∈ l', a ∈ l) :
    Orderly name cols l' where
  missing := fun pre col post hcols a ha b hb c hc =>
    h.missing pre col post hcols a (hsub a ha) b (hsub b hb) c (hsub c hc)
  irregular := fun pre col post hcols a ha b hb c hc =>
    h.irregular pre col post hcols a (hsub a ha) b (hsub b hb) c (hsub c hc)

/-- Rows with the same value in the first column are in order by the others. -/
theorem Orderly.tail (h : Orderly name (col :: cols) l) (hsame : ∀ a ∈ l, ∀ b ∈ l, Agree [col] a b) :
    Orderly name cols l where
  missing := by
    intro pre col' post hcols a ha b hb c hc hab hac
    exact h.missing (col :: pre) col' post (by rw [hcols, List.cons_append]) a ha b hb c hc
      (agree_append_iff.mpr ⟨hsame a ha b hb, hab⟩) (agree_append_iff.mpr ⟨hsame a ha c hc, hac⟩)
  irregular := by
    intro pre col' post hcols a ha b hb c hc hab hac
    exact h.irregular (col :: pre) col' post (by rw [hcols, List.cons_append]) a ha b hb c hc
      (agree_append_iff.mpr ⟨hsame a ha b hb, hab⟩) (agree_append_iff.mpr ⟨hsame a ha c hc, hac⟩)

/-- One of three rows has no value in the first column. -/
theorem Orderly.not_trans_missing (h : Orderly name (col :: cols) [a, b, c])
    (hnone : col.cell a = none ∨ col.cell b = none ∨ col.cell c = none)
    (hab : byColumns name (col :: cols) a b = false) (hbc : byColumns name (col :: cols) b c = false) :
    byColumns name (col :: cols) a c = false := by
  -- the rows around the name of a row without a value
  have hmissing : ∀ x ∈ [a, b, c], ∀ y ∈ [a, b, c], ∀ z ∈ [a, b, c], col.cell x = none →
      col.cell y ≠ none → col.cell z ≠ none → name y ≤ name x → name x ≤ name z →
      byColumns name (col :: cols) z y = false ∧
        (name y < name z → byColumns name (col :: cols) y z = true) := by
    intro x hx y hy z hz hxn hyn hzn hyx hxz
    rw [byColumns_eq_false_iff, byColumns_iff]
    exact h.missing [] col cols rfl x hx y hy z hz (agree_nil x y) (agree_nil x z) hxn hyn hzn hyx hxz
  have hname : ∀ {x y : α}, col.cell x = none ∨ col.cell y = none →
      (byColumns name (col :: cols) x y = false ↔ name y ≤ name x) := by
    intro x y hxy
    rw [byColumns_cons_none hxy, decide_eq_false_iff_not, not_lt]
  by_cases ha : col.cell a = none
  · rw [hname (.inl ha)] at hab ⊢
    by_cases hb : col.cell b = none
    · exact ((hname (.inl hb)).mp hbc).trans hab
    · by_cases hc : col.cell c = none
      · exact ((hname (.inr hc)).mp hbc).trans hab
      · by_contra hca
        have hca := not_le.mp hca
        have hgoes := (hmissing a (by simp) b (by simp) c (by simp) ha hb hc hab hca.le).2
          (hab.trans_lt hca)
        exact Bool.false_ne_true (hbc.symm.trans hgoes)
  · by_cases hc : col.cell c = none
    · rw [hname (.inr hc)] at hbc ⊢
      by_cases hb : col.cell b = none
      · exact hbc.trans ((hname (.inr hb)).mp hab)
      · by_contra hca
        have hca := not_le.mp hca
        have hgoes := (hmissing c (by simp) a (by simp) b (by simp) hc ha hb hca.le hbc).2
          (hca.trans_le hbc)
        exact Bool.false_ne_true (hab.symm.trans hgoes)
    · have hb : col.cell b = none := (hnone.resolve_left ha).resolve_right hc
      rw [hname (.inr hb)] at hab
      rw [hname (.inl hb)] at hbc
      exact (hmissing b (by simp) c (by simp) a (by simp) hb hc ha hbc hab).1

/-- The value of the row in the middle is not that of the first one. -/
theorem Orderly.not_trans_differ (h : Orderly name (col :: cols) [a, b, c]) (hu : col.cell a = some u)
    (hv : col.cell b = some v) (hw : col.cell c = some w) (huv : ¬ col.cmp.same u v = true)
    (hab : col.cmp.less u v = false) (hbc : col.cmp.less v w = false) :
    byColumns name (col :: cols) a c = false := by
  cases hregular : col.cmp.regular v with
  | true =>
    have huw : ¬ col.cmp.same u w = true := by
      intro huw
      obtain ⟨⟨hru, hrw⟩, -, hwu⟩ := col.cmp.same_iff.mp huw
      have hvu := col.cmp.not_trans v w u hrw hbc hwu
      exact huv (col.cmp.same_iff.mpr ⟨⟨hru, hregular⟩, hab, hvu⟩)
    rw [byColumns_cons_some hu hw, if_neg huw]
    exact col.cmp.not_trans u v w hregular hab hbc
  | false =>
    -- if the two others are told apart, both are in no order with it
    have hapart : col.cmp.less v u = false ∧ col.cmp.less w v = false →
        byColumns name (col :: cols) a c = false := by
      rintro ⟨hvu, hwv⟩
      rw [byColumns_eq_false_iff]
      exact h.irregular [] col cols rfl b (by simp) a (by simp) c (by simp) (agree_nil b a)
        (agree_nil b c) v u w hv hu hw ⟨hregular, hvu, hab⟩ ⟨hregular, hbc, hwv⟩
    by_cases huw : col.cmp.same u w = true
    · obtain ⟨⟨hru, hrw⟩, hluw, hlwu⟩ := col.cmp.same_iff.mp huw
      exact hapart ⟨col.cmp.not_trans v w u hrw hbc hlwu, col.cmp.not_trans w u v hru hlwu hab⟩
    · cases hless : col.cmp.less u w with
      | true => exact hapart (col.cmp.irregular u v w hregular hab hbc hless)
      | false => rw [byColumns_cons_some hu hw, if_neg huw, hless]

theorem Orderly.not_trans (h : Orderly name cols [a, b, c]) (hab : byColumns name cols a b = false)
    (hbc : byColumns name cols b c = false) : byColumns name cols a c = false := by
  induction cols with
  | nil => rfl
  | cons col cols ih =>
    by_cases hnone : col.cell a = none ∨ col.cell b = none ∨ col.cell c = none
    · exact h.not_trans_missing hnone hab hbc
    simp only [not_or, ← ne_eq, Option.ne_none_iff_exists'] at hnone
    obtain ⟨⟨u, hu⟩, ⟨v, hv⟩, ⟨w, hw⟩⟩ := hnone
    rw [byColumns_cons_some hu hv] at hab
    rw [byColumns_cons_some hv hw] at hbc
    have hgoal : byColumns name (col :: cols) a c =
        if col.cmp.same u w then byColumns name cols a c else col.cmp.less u w := byColumns_cons_some hu hw
    by_cases huv : col.cmp.same u v = true
    · obtain ⟨⟨-, hregular⟩, hluv, hlvu⟩ := col.cmp.same_iff.mp huv
      by_cases hvw : col.cmp.same v w = true
      · -- all three have the same value
        rw [if_pos huv] at hab
        rw [if_pos hvw] at hbc
        rw [hgoal, if_pos (col.cmp.same_trans huv hvw)]
        have hpair : ∀ {x y : α} {s t : C}, col.cell x = some s → col.cell y = some t →
            col.cmp.same s t = true → Agree [col] x y := fun hs ht hst =>
          agree_cons_iff.mpr ⟨⟨_, _, hs, ht, hst⟩, agree_nil _ _⟩
        exact ih (h.tail (agree_three (hpair hu hv huv) (hpair hv hw hvw))) hab hbc
      · rw [if_neg hvw] at hbc
        have huw : ¬ col.cmp.same u w = true := fun huw =>
          hvw (col.cmp.same_trans ((col.cmp.same_comm v u).trans huv) huw)
        rw [hgoal, if_neg huw]
        exact col.cmp.not_trans u v w hregular hluv hbc
    · rw [if_neg huv] at hab
      by_cases hvw : col.cmp.same v w = true
      · obtain ⟨⟨hregular, -⟩, hlvw, -⟩ := col.cmp.same_iff.mp hvw
        have huw : ¬ col.cmp.same u w = true := fun huw =>
          huv (col.cmp.same_trans huw ((col.cmp.same_comm w v).trans hvw))
        rw [hgoal, if_neg huw]
        exact col.cmp.not_trans u v w hregular hab hlvw
      · rw [if_neg hvw] at hbc
        exact h.not_trans_differ hu hv hw huv hab hbc

/-- Rows that agree before a column are compared from there. -/
theorem StrictWeak.from (h : StrictWeak (byColumns name (pre ++ cols)) l) (ha : a ∈ l) (hb : b ∈ l)
    (hc : c ∈ l) (hab : Agree pre a b) (hac : Agree pre a c) :
    StrictWeak (byColumns name cols) [a, b, c] := by
  have hagree := agree_three hab (hab.symm.trans hac)
  have hmem : ∀ x ∈ [a, b, c], x ∈ l := by
    simp only [List.forall_mem_cons, List.not_mem_nil, false_implies, implies_true, and_true]
    exact ⟨ha, hb, hc⟩
  refine ⟨fun x _ y _ hxy => byColumns_asymm hxy, fun x hx y hy z hz hxy hyz => ?_⟩
  rw [← byColumns_of_agree (hagree x hx y hy)] at hxy
  rw [← byColumns_of_agree (hagree y hy z hz)] at hyz
  rw [← byColumns_of_agree (hagree x hx z hz)]
  exact h.trans_not x (hmem x hx) y (hmem y hy) z (hmem z hz) hxy hyz

/-- **The comparison is a strict weak order** exactly on rows that are in order. -/
theorem strictWeak_byColumns_iff : StrictWeak (byColumns name cols) l ↔ Orderly name cols l := by
  constructor
  · intro h
    constructor
    · rintro pre col post rfl a ha b hb c hc hab hac hnone - - hba hac'
      have hweak := StrictWeak.from h ha hb hc hab hac
      have hname : ∀ {x : α}, (name a ≤ name x → byColumns name (col :: post) x a = false) ∧
          (name x ≤ name a → byColumns name (col :: post) a x = false) := by
        intro x
        rw [byColumns_cons_none (.inl hnone), byColumns_cons_none (.inr hnone)]
        exact ⟨fun hx => decide_eq_false hx.not_gt, fun hx => decide_eq_false hx.not_gt⟩
      rw [← byColumns_iff, ← byColumns_iff, Bool.not_eq_true]
      refine ⟨hweak.trans_not c (by simp) a (by simp) b (by simp) (hname.1 hac') (hname.2 hba), fun hbc => ?_⟩
      by_contra hgoes
      have hgoes : byColumns name (col :: post) b c = false := by simpa using hgoes
      -- the row without a value goes after the one or before the other
      rcases hba.lt_or_eq with hlt | heq
      · have htrans := hweak.trans_not b (by simp) c (by simp) a (by simp) hgoes (hname.1 hac')
        rw [byColumns_cons_none (.inr hnone), decide_eq_false_iff_not] at htrans
        exact htrans hlt
      · have htrans := hweak.trans_not a (by simp) b (by simp) c (by simp) (hname.2 hba) hgoes
        rw [byColumns_cons_none (.inl hnone), decide_eq_false_iff_not] at htrans
        exact htrans (heq ▸ hbc)
    · rintro pre col post rfl a ha b hb c hc hab hac u v w hu hv hw ⟨hregular, -, hvu⟩ ⟨-, huw, -⟩
      have hweak := StrictWeak.from h ha hb hc hab hac
      have hsame : ∀ x, ¬ col.cmp.same u x = true := by
        intro x hx
        exact Bool.false_ne_true (hregular.symm.trans (col.cmp.same_iff.mp hx).1.1)
      rw [← byColumns_eq_false_iff]
      refine hweak.trans_not b (by simp) a (by simp) c (by simp) ?_ ?_
      · rw [byColumns_cons_some hv hu, col.cmp.same_comm, if_neg (hsame v), hvu]
      · rw [byColumns_cons_some hu hw, if_neg (hsame w), huw]
  · intro h
    refine ⟨fun a _ b _ hab => byColumns_asymm hab, fun a ha b hb c hc => Orderly.not_trans (h.mono ?_)⟩
    simp only [List.forall_mem_cons, List.not_mem_nil, false_implies, implies_true, and_true]
    exact ⟨ha, hb, hc⟩

end Columns

end ColumnOrder
