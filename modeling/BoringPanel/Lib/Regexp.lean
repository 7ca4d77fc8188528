import Mathlib.Data.List.Basic

/-!
# Regular expressions as texts

The part of the syntax of regular expressions in which patterns are written by hand: characters, classes,
counts, lazy repetitions and groups of alternatives, one after the other.

* `Matches`: a text is matched as a whole.
* `matchString`: some part of a text is matched.
* `Covers`: a part of an expression matches a text, whatever comes behind both.
-/

namespace Regexp

/-- The characters that stand for something else. -/
def metachars : List Char := ['\\', '.', '+', '*', '?', '(', ')', '[', ']', '{', '}', '|', '^', '$']

/-- The characters that repeat what they stand behind. -/
def quantifiers : List Char := ['*', '+', '?', '{']

/-- A range of a class; one character is the range of itself. -/
def rangeText (r : Char × Char) : List Char := if r.1 = r.2 then [r.1] else [r.1, '-', r.2]

/-- The ranges of a class: the brackets, the backslash and the caret stand in none, and a hyphen only as the
first character. -/
def isClass (rs : List (Char × Char)) : Bool :=
  !rs.isEmpty && rs.all (fun r => r.1 ≤ r.2 && ['[', ']', '\\', '^'].all fun c => c ≠ r.1 && c ≠ r.2) &&
    rs.tail.all (fun r => r.1 ≠ '-' && r.2 ≠ '-') && rs.head?.all fun r => (r.1 == '-') == (r.2 == '-')

/-- A text without special characters. -/
def isPlain (t : List Char) : Bool := t.all fun c => c ∉ metachars

/-- A character of a class. -/
def InClass (rs : List (Char × Char)) (c : Char) : Prop := ∃ r ∈ rs, r.1 ≤ c ∧ c ≤ r.2

/-- An expression for one character. -/
inductive Atom : List Char → (Char → Prop) → Prop
  | char {c : Char} (h : c ∉ metachars) : Atom [c] (· = c)
  | escaped {c : Char} (h : c ∈ metachars) : Atom ['\\', c] (· = c)
  | ranges (rs : List (Char × Char)) (h : isClass rs) :
      Atom ('[' :: (rs.flatMap rangeText ++ [']'])) (InClass rs)

/-- The expression does not begin with a repetition. -/
def Separate (s : List Char) : Prop := ∀ c, s.head? = some c → c ∉ quantifiers

/-- A text is matched as a whole. -/
inductive Matches : List Char → List Char → Prop
  | nil : Matches [] []
  | atom {a s : List Char} {p : Char → Prop} {c : Char} {w : List Char} (ha : Atom a p) (hc : p c)
      (hs : Separate s) (h : Matches s w) : Matches (a ++ s) (c :: w)
  | count {a s : List Char} {p : Char → Prop} {u w : List Char} (ha : Atom a p) (hu : ∀ c ∈ u, p c)
      (hs : Separate s) (h : Matches s w) :
      Matches (a ++ ('{' :: (toString u.length).toList ++ '}' :: s)) (u ++ w)
  | lazy {a s : List Char} {p : Char → Prop} {u w : List Char} (ha : Atom a p) (hu : ∀ c ∈ u, p c)
      (hs : Separate s) (h : Matches s w) : Matches (a ++ '*' :: '?' :: s) (u ++ w)
  | either {a b s u w : List Char} (ha : isPlain a) (hb : isPlain b)
      (hu : u = a ∨ u = b) (hs : Separate s) (h : Matches s w) :
      Matches ('(' :: a ++ '|' :: b ++ ')' :: s) (u ++ w)

/-- `regexp.MatchString(pattern, s)`. -/
def matchString (pattern s : List Char) : Prop :=
  ∃ before inside after, s = before ++ inside ++ after ∧ Matches pattern inside

/-- A part of an expression that matches a text, whatever comes behind both. -/
def Covers (pattern text : List Char) : Prop :=
  ∀ ⦃s w : List Char⦄, Separate s → Matches s w →
    Separate (pattern ++ s) ∧ Matches (pattern ++ s) (text ++ w)

theorem separate_nil : Separate [] := fun _ h => by cases h

theorem separate_cons {c : Char} (h : c ∉ quantifiers) (s : List Char) : Separate (c :: s) :=
  fun _ hd => Option.some.inj hd ▸ h

/-- An expression for one character does not begin with a repetition. -/
theorem Atom.separate {a : List Char} {p : Char → Prop} (h : Atom a p) (s : List Char) : Separate (a ++ s) := by
  cases h with
  | char h =>
    refine separate_cons (fun hmem => h ?_) s
    revert hmem
    simp only [quantifiers, metachars, List.mem_cons, List.not_mem_nil, or_false]
    rintro (rfl | rfl | rfl | rfl) <;> decide
  | escaped h => exact separate_cons (by decide) _
  | ranges rs h => exact separate_cons (by decide) _

theorem Covers.nil : Covers [] [] := fun _ _ hs h => ⟨hs, h⟩

theorem Covers.append {p q t u : List Char} (hp : Covers p t) (hq : Covers q u) : Covers (p ++ q) (t ++ u) := by
  intro s w hs h
  obtain ⟨hs, h⟩ := hq hs h
  rw [List.append_assoc, List.append_assoc]
  exact hp hs h

theorem Covers.cons {c : Char} (hc : c ∉ metachars) {q u : List Char} (hq : Covers q u) :
    Covers (c :: q) (c :: u) :=
  Covers.append (p := [c]) (t := [c]) (fun _ _ hs h => ⟨(Atom.char hc).separate _, .atom (.char hc) rfl hs h⟩) hq

theorem Covers.matchString {pattern text : List Char} (h : Covers pattern text) : matchString pattern text := by
  refine ⟨[], text, [], by rw [List.nil_append, List.append_nil], ?_⟩
  have hmatches := (h separate_nil .nil).2
  rwa [List.append_nil, List.append_nil] at hmatches

theorem Atom.covers {a : List Char} {p : Char → Prop} (h : Atom a p) {c : Char} (hc : p c) : Covers a [c] :=
  fun _ _ hs hmatches => ⟨h.separate _, .atom h hc hs hmatches⟩

theorem Atom.covers_count {a : List Char} {p : Char → Prop} (h : Atom a p) {u : List Char}
    (hu : ∀ c ∈ u, p c) : Covers (a ++ ('{' :: (toString u.length).toList ++ ['}'])) u := by
  intro s w hs hmatches
  have heq : a ++ ('{' :: (toString u.length).toList ++ ['}']) ++ s =
      a ++ ('{' :: (toString u.length).toList ++ '}' :: s) := by simp
  rw [heq]
  exact ⟨h.separate _, .count h hu hs hmatches⟩

theorem Atom.covers_lazy {a : List Char} {p : Char → Prop} (h : Atom a p) {u : List Char}
    (hu : ∀ c ∈ u, p c) : Covers (a ++ ['*', '?']) u := by
  intro s w hs hmatches
  rw [List.append_assoc]
  exact ⟨h.separate _, .lazy h hu hs hmatches⟩

/-- A text without special characters matches itself. -/
theorem covers_self {t : List Char} (h : isPlain t) : Covers t t := by
  induction t with
  | nil => exact Covers.nil
  | cons c t ih =>
    obtain ⟨hc, ht⟩ := Bool.and_eq_true_iff.mp h
    exact Covers.cons (of_decide_eq_true hc) (ih ht)

theorem covers_either {a b u : List Char} (ha : isPlain a) (hb : isPlain b)
    (hu : u = a ∨ u = b) : Covers ('(' :: a ++ '|' :: b ++ [')']) u := by
  intro s w hs hmatches
  have heq : '(' :: a ++ '|' :: b ++ [')'] ++ s = '(' :: a ++ '|' :: b ++ ')' :: s := by simp
  rw [heq]
  exact ⟨separate_cons (by decide) _, .either ha hb hu hs hmatches⟩

end Regexp
