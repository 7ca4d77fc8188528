import Mathlib.Data.List.Basic

/-!
# Searching with regular expressions

Patterns over any alphabet, and whether they are found in a text (`Regex.test`). A repetition is of one
character, and assertions look at the characters around a place.

What is found in a text is found in a longer one whose other characters do not touch its assertions
(`test_append`).
-/

/-- A pattern. -/
inductive Regex (α : Type) where
  | one (p : α → Bool)
  /-- Up to a number of characters. -/
  | upTo (p : α → Bool) (n : Nat)
  | star (p : α → Bool)
  | seq (r s : Regex α)
  | alt (r s : Regex α)
  | empty
  /-- No text. -/
  | never
  | start
  /-- One of the characters around the place is a word character. -/
  | boundary (word : α → Bool)

namespace Regex

variable {α : Type}

def oneOf (rs : List (Regex α)) : Regex α := rs.foldr alt never

/-- At least one character. -/
def plus (p : α → Bool) : Regex α := seq (one p) (star p)

/-- A text, by a comparison of its characters. -/
def text (same : α → α → Bool) (l : List α) : Regex α := l.foldr (fun c => seq (one (same c))) empty

/-! ### Matches -/

/-- The places after up to `n` characters; a place has what is before it, the last character first, and
what is left. -/
def runs (p : α → Bool) : Nat → List α → List α → List (List α × List α)
  | 0, before, rest => [(before, rest)]
  | _ + 1, before, [] => [(before, [])]
  | n + 1, before, c :: rest =>
    (before, c :: rest) :: if p c then runs p n (c :: before) rest else []

/-- The first character is one of a class. -/
def headIs (p : α → Bool) : List α → Bool
  | [] => false
  | c :: _ => p c

/-- The places where a match from a place may end. -/
def ends : Regex α → List α → List α → List (List α × List α)
  | one _, _, [] => []
  | one p, before, c :: rest => if p c then [(c :: before, rest)] else []
  | upTo p n, before, rest => runs p n before rest
  | star p, before, rest => runs p rest.length before rest
  | seq r s, before, rest => (ends r before rest).flatMap fun e => ends s e.1 e.2
  | alt r s, before, rest => ends r before rest ++ ends s before rest
  | empty, before, rest => [(before, rest)]
  | never, _, _ => []
  | start, before, rest => if before.isEmpty then [(before, rest)] else []
  | boundary word, before, rest =>
    if headIs word before != headIs word rest then [(before, rest)] else []

def testFrom (r : Regex α) : List α → List α → Bool
  | before, [] => !(ends r before []).isEmpty
  | before, c :: rest => !(ends r before (c :: rest)).isEmpty || testFrom r (c :: before) rest

/-- The pattern is found in the text. -/
def test (r : Regex α) (s : List α) : Bool := testFrom r [] s

theorem testFrom_iff {r : Regex α} {before s : List α} : testFrom r before s = true ↔
    ∃ skipped rest e, s = skipped ++ rest ∧ e ∈ ends r (skipped.reverse ++ before) rest := by
  have hends : ∀ before rest, (!(ends r before rest).isEmpty) = true ↔
      ∃ e, e ∈ ends r before rest := by
    intro before rest
    cases ends r before rest with
    | nil => simp
    | cons e es => exact iff_of_true rfl ⟨e, List.mem_cons_self⟩
  induction s generalizing before with
  | nil =>
    rw [testFrom, hends]
    constructor
    · rintro ⟨e, he⟩
      exact ⟨[], [], e, rfl, he⟩
    · rintro ⟨skipped, rest, e, hs, he⟩
      obtain ⟨rfl, rfl⟩ := List.append_eq_nil_iff.mp hs.symm
      exact ⟨e, he⟩
  | cons c s ih =>
    rw [testFrom, Bool.or_eq_true, hends]
    refine (or_congr_right (@ih (c :: before))).trans ?_
    constructor
    · rintro (⟨e, he⟩ | ⟨skipped, rest, e, rfl, he⟩)
      · exact ⟨[], c :: s, e, rfl, he⟩
      · exact ⟨c :: skipped, rest, e, rfl, by simpa using he⟩
    · rintro ⟨skipped, rest, e, hs, he⟩
      cases skipped with
      | nil =>
        rw [List.nil_append] at hs
        subst hs
        exact .inl ⟨e, he⟩
      | cons d skipped =>
        obtain ⟨rfl, rfl⟩ := List.cons.inj hs
        exact .inr ⟨skipped, rest, e, rfl, by simpa using he⟩

theorem test_iff {r : Regex α} {s : List α} : test r s = true ↔
    ∃ skipped rest e, s = skipped ++ rest ∧ e ∈ ends r skipped.reverse rest := by
  rw [test, testFrom_iff]
  simp only [List.append_nil]

/-! ### Longer texts -/

/-- The assertions of a pattern do not see the characters before and after a text. -/
def Apart : Regex α → List α → List α → Prop
  | seq r s, x, y => r.Apart x y ∧ s.Apart x y
  | alt r s, x, y => r.Apart x y ∧ s.Apart x y
  | start, _, _ => False
  | boundary word, x, y => headIs word x = false ∧ headIs word y = false
  | _, _, _ => True

theorem headIs_append {p : α → Bool} {x : List α} (h : headIs p x = false) (s : List α) :
    headIs p (s ++ x) = headIs p s := by
  cases s with
  | nil => exact h
  | cons c s => rfl

theorem runs_append {p : α → Bool} {n m : Nat} {before rest : List α} {e : List α × List α}
    (h : e ∈ runs p n before rest) (hnm : n ≤ m) (x y : List α) :
    (e.1 ++ x, e.2 ++ y) ∈ runs p m (before ++ x) (rest ++ y) := by
  have hfirst : ∀ m before rest, (before, rest) ∈ runs p m before rest := by
    intro m before rest
    cases m with
    | zero => exact List.mem_singleton_self _
    | succ m =>
      cases rest with
      | nil => exact List.mem_singleton_self _
      | cons c rest => exact List.mem_cons_self
  induction n generalizing m before rest with
  | zero =>
    obtain rfl := List.mem_singleton.mp h
    exact hfirst m _ _
  | succ n ih =>
    obtain ⟨m, rfl⟩ : ∃ m', m = m' + 1 := ⟨m - 1, by omega⟩
    cases rest with
    | nil =>
      obtain rfl := List.mem_singleton.mp h
      exact hfirst (m + 1) _ _
    | cons c rest =>
      rw [runs] at h
      rcases List.mem_cons.mp h with rfl | h
      · exact hfirst (m + 1) _ _
      · rw [List.cons_append, runs]
        by_cases hc : p c = true
        · rw [if_pos hc] at h ⊢
          exact List.mem_cons_of_mem _ (ih h (Nat.le_of_succ_le_succ hnm))
        · rw [if_neg hc] at h
          cases h

/-- A match is one in a longer text. -/
theorem ends_append {r : Regex α} {x y before rest : List α} {e : List α × List α}
    (hr : r.Apart x y) (h : e ∈ ends r before rest) :
    (e.1 ++ x, e.2 ++ y) ∈ ends r (before ++ x) (rest ++ y) := by
  induction r generalizing before rest e with
  | one p =>
    cases rest with
    | nil => cases h
    | cons c rest =>
      rw [ends] at h
      rw [List.cons_append, ends]
      by_cases hc : p c = true
      · rw [if_pos hc] at h ⊢
        obtain rfl := List.mem_singleton.mp h
        exact List.mem_singleton_self _
      · rw [if_neg hc] at h
        cases h
  | upTo p n => exact runs_append h (Nat.le_refl n) x y
  | star p => exact runs_append h (by simp) x y
  | seq r s ihr ihs =>
    rw [ends, List.mem_flatMap] at h ⊢
    obtain ⟨d, hd, he⟩ := h
    exact ⟨(d.1 ++ x, d.2 ++ y), ihr hr.1 hd, ihs hr.2 he⟩
  | alt r s ihr ihs =>
    rw [ends, List.mem_append] at h ⊢
    exact h.imp (ihr hr.1) (ihs hr.2)
  | empty =>
    obtain rfl := List.mem_singleton.mp h
    exact List.mem_singleton_self _
  | never => cases h
  | start => exact hr.elim
  | boundary word =>
    rw [ends] at h
    rw [ends, headIs_append hr.1, headIs_append hr.2]
    split at h
    · rename_i hword
      rw [if_pos hword]
      obtain rfl := List.mem_singleton.mp h
      exact List.mem_singleton_self _
    · cases h

/-- A pattern without assertions. -/
def assertionFree : Regex α → Bool
  | seq r s => assertionFree r && assertionFree s
  | alt r s => assertionFree r && assertionFree s
  | start => false
  | boundary _ => false
  | _ => true

theorem apart_of_assertionFree {r : Regex α} (h : r.assertionFree = true) (x y : List α) :
    r.Apart x y := by
  induction r with
  | seq r s ihr ihs =>
    rw [assertionFree, Bool.and_eq_true] at h
    exact ⟨ihr h.1, ihs h.2⟩
  | alt r s ihr ihs =>
    rw [assertionFree, Bool.and_eq_true] at h
    exact ⟨ihr h.1, ihs h.2⟩
  | start => cases h
  | boundary word => cases h
  | _ => trivial

/-- What is found in a text is found in a longer one. -/
theorem test_append {r : Regex α} {x s y : List α} (hr : r.Apart x.reverse y)
    (h : test r s = true) : test r (x ++ (s ++ y)) = true := by
  obtain ⟨skipped, rest, e, rfl, he⟩ := test_iff.mp h
  refine test_iff.mpr ⟨x ++ skipped, rest ++ y, (e.1 ++ x.reverse, e.2 ++ y), ?_, ?_⟩
  · simp only [List.append_assoc]
  · rw [List.reverse_append]
    exact ends_append hr he

/-! ### Texts of one character -/

end Regex
