import Mathlib.Data.List.Basic

/-!
# String literals of the expression language

A string literal stands between two quotes, double or single ones. Its body holds the characters of the text
that it stands for, some of them as escape sequences (`EscapeSequences`), of which those of the backslash and
of the double quote are known.

* `Reads`: the text that the body of a literal stands for.
* `reads_self_iff`: a text that is put between quotes as it is stands for itself only if it has neither the
  quote nor a backslash.
* `escapeText`: a text with backslashes and double quotes escaped.
* `reads_escapeText_iff`: between double quotes it stands for the text, between single quotes only if there is
  no single quote in it.
-/

namespace ExprText

/-- The escape sequences of literals, each with the character that it stands for. -/
class EscapeSequences where
  escape : List Char → Char → Prop
  escape_backslash : ∀ rest c, escape ('\\' :: '\\' :: rest) c ↔ rest = [] ∧ c = '\\'
  escape_quote : ∀ rest c, escape ('\\' :: '"' :: rest) c ↔ rest = [] ∧ c = '"'
  exists_of_escape : ∀ e c, escape e c → ∃ d rest, e = '\\' :: d :: rest

section Reads

variable [EscapeSequences]

open EscapeSequences

/-- The text that the body of a literal stands for. -/
inductive Reads (quote : Char) : List Char → List Char → Prop
  | nil : Reads quote [] []
  | plain {c : Char} {body s : List Char} (hquote : c ≠ quote) (hslash : c ≠ '\\')
      (h : Reads quote body s) : Reads quote (c :: body) (c :: s)
  | escaped {e : List Char} {c : Char} {body s : List Char} (he : escape e c) (h : Reads quote body s) :
      Reads quote (e ++ body) (c :: s)

/-- The characters that end a line; a literal has none of them as they are. -/
def lineEnds : List Char := ['\n', '\r']

/-- A literal of a text. -/
def IsLiteral (text s : List Char) : Prop :=
  ∃ quote ∈ ['"', '\''], ∃ body, text = quote :: (body ++ [quote]) ∧ Reads quote body s

/-- An escape sequence is longer than what it stands for. -/
theorem Reads.length_le {quote : Char} {body s : List Char} (h : Reads quote body s) :
    s.length ≤ body.length ∧ (s.length = body.length → quote ∉ body ∧ '\\' ∉ body) := by
  induction h with
  | nil => exact ⟨Nat.le_refl _, fun _ => ⟨List.not_mem_nil, List.not_mem_nil⟩⟩
  | plain hquote hslash _ ih =>
    refine ⟨Nat.succ_le_succ ih.1, fun heq => ?_⟩
    obtain ⟨hq, hs⟩ := ih.2 (Nat.succ.inj heq)
    exact ⟨List.not_mem_cons_of_ne_of_not_mem hquote.symm hq, List.not_mem_cons_of_ne_of_not_mem hslash.symm hs⟩
  | escaped he _ ih =>
    obtain ⟨d, rest, rfl⟩ := exists_of_escape _ _ he
    simp only [List.length_append, List.length_cons]
    exact ⟨by omega, fun heq => by omega⟩

theorem length_le_of_isLiteral {text s : List Char} (h : IsLiteral text s) : s.length + 2 ≤ text.length := by
  obtain ⟨quote, -, body, rfl, hreads⟩ := h
  have := hreads.length_le.1
  rw [List.length_cons, List.length_append, List.length_singleton]
  omega

theorem reads_of_not_mem {quote : Char} {s : List Char} (hquote : quote ∉ s) (hslash : '\\' ∉ s) :
    Reads quote s s := by
  induction s with
  | nil => exact .nil
  | cons c s ih =>
    rw [List.mem_cons, not_or] at hquote hslash
    exact .plain (Ne.symm hquote.1) (Ne.symm hslash.1) (ih hquote.2 hslash.2)

/-- A text that is put between quotes as it is. -/
theorem reads_self_iff {quote : Char} {s : List Char} : Reads quote s s ↔ quote ∉ s ∧ '\\' ∉ s :=
  ⟨fun h => h.length_le.2 rfl, fun h => reads_of_not_mem h.1 h.2⟩

theorem Reads.append {quote : Char} {body s body' s' : List Char} (h : Reads quote body s)
    (h' : Reads quote body' s') : Reads quote (body ++ body') (s ++ s') := by
  induction h with
  | nil => exact h'
  | plain hquote hslash _ ih => exact .plain hquote hslash ih
  | escaped he _ ih =>
    rw [List.append_assoc]
    exact .escaped he ih

/-! ### Escaped texts -/

/-- What is put for a character. -/
def escapeChar (c : Char) : List Char :=
  if c = '\\' then ['\\', '\\'] else if c = '"' then ['\\', '"'] else [c]

def escapeText (s : List Char) : List Char := s.flatMap escapeChar

theorem Reads.cons_inv {quote c : Char} {text s : List Char} (h : Reads quote text (c :: s)) :
    (∃ body, text = c :: body ∧ c ≠ quote ∧ c ≠ '\\' ∧ Reads quote body s) ∨
      ∃ e body, text = e ++ body ∧ escape e c ∧ Reads quote body s := by
  cases h with
  | plain hquote hslash h => exact .inl ⟨_, rfl, hquote, hslash, h⟩
  | escaped he h => exact .inr ⟨_, _, rfl, he, h⟩

theorem Reads.nil_inv {quote : Char} {body : List Char} (h : Reads quote body []) : body = [] := by
  cases h
  rfl

/-- The first character of a body, where it is no backslash. -/
theorem Reads.tail {quote c : Char} {body s : List Char} (hc : c ≠ '\\') (h : Reads quote (c :: body) s) :
    c ≠ quote ∧ ∃ s', Reads quote body s' := by
  cases s with
  | nil => exact absurd h.nil_inv (List.cons_ne_nil _ _)
  | cons d s =>
    rcases h.cons_inv with ⟨body', heq, hquote, -, h⟩ | ⟨e, body', heq, he, -⟩
    · obtain ⟨rfl, rfl⟩ := List.cons.inj heq
      exact ⟨hquote, s, h⟩
    · obtain ⟨d', rest, rfl⟩ := exists_of_escape _ _ he
      exact absurd (List.cons.inj heq).1 hc

/-- A body that begins with a text without backslashes. -/
theorem Reads.of_plain {quote : Char} {w body : List Char} (hw : '\\' ∉ w) {s : List Char}
    (h : Reads quote (w ++ body) s) : quote ∉ w ∧ ∃ s', Reads quote body s' := by
  induction w generalizing s with
  | nil => exact ⟨List.not_mem_nil, s, h⟩
  | cons c w ih =>
    obtain ⟨hc, hw⟩ := not_or.mp (List.mem_cons.not.mp hw)
    obtain ⟨hquote, s', h⟩ := Reads.tail (Ne.symm hc) h
    obtain ⟨hmem, hrest⟩ := ih hw h
    exact ⟨List.not_mem_cons_of_ne_of_not_mem (Ne.symm hquote) hmem, hrest⟩

theorem Reads.of_backslashes {quote : Char} {body s : List Char} (h : Reads quote ('\\' :: '\\' :: body) s) :
    ∃ s', Reads quote body s' := by
  cases s with
  | nil => exact absurd h.nil_inv (List.cons_ne_nil _ _)
  | cons c s =>
    rcases h.cons_inv with ⟨body', heq, -, hslash, -⟩ | ⟨e, body', heq, he, h⟩
    · exact absurd (List.cons.inj heq).1.symm hslash
    · obtain ⟨d, rest, rfl⟩ := exists_of_escape _ _ he
      obtain ⟨hd, hbody⟩ := List.cons.inj (List.cons.inj heq).2
      rw [← hd] at he
      rw [((escape_backslash rest c).mp he).1] at hbody
      obtain rfl : body = body' := hbody
      exact ⟨s, h⟩

/-- The first character of a text that is escaped. -/
theorem reads_escapeChar_iff {quote : Char} (hquote : quote ∈ ['"', '\'']) {c : Char} {body s : List Char} :
    Reads quote (escapeChar c ++ body) (c :: s) ↔ (c = '\'' → quote ≠ '\'') ∧ Reads quote body s := by
  have hsequence : ∀ {d : Char}, (∀ rest c', escape ('\\' :: d :: rest) c' ↔ rest = [] ∧ c' = d) →
      c = d → (Reads quote ('\\' :: d :: body) (c :: s) ↔ Reads quote body s) := by
    rintro d hd rfl
    constructor
    · intro h
      rcases h.cons_inv with ⟨_, heq, -, hslash, -⟩ | ⟨e, body', heq, he, h⟩
      · exact absurd (List.cons.inj heq).1.symm hslash
      · obtain ⟨d', rest, rfl⟩ := exists_of_escape _ _ he
        obtain ⟨hd', hbody⟩ := List.cons.inj (List.cons.inj heq).2
        rw [← hd'] at he
        rw [((hd rest c).mp he).1] at hbody
        obtain rfl : body = body' := hbody
        exact h
    · exact fun h => .escaped (e := ['\\', c]) ((hd [] c).mpr ⟨rfl, rfl⟩) h
  rw [escapeChar]
  by_cases hslash : c = '\\'
  · rw [if_pos hslash]
    refine (hsequence escape_backslash hslash).trans (iff_and_self.mpr fun _ hc => ?_)
    exact absurd (hslash.symm.trans hc) (by decide)
  rw [if_neg hslash]
  by_cases hdouble : c = '"'
  · rw [if_pos hdouble]
    refine (hsequence escape_quote hdouble).trans (iff_and_self.mpr fun _ hc => ?_)
    exact absurd (hdouble.symm.trans hc) (by decide)
  rw [if_neg hdouble]
  constructor
  · intro h
    rcases h.cons_inv with ⟨body', heq, hquote', -, h⟩ | ⟨e, body', heq, he, -⟩
    · obtain rfl : body = body' := (List.cons.inj heq).2
      exact ⟨fun hc hsingle => hquote' (hc.trans hsingle.symm), h⟩
    · obtain ⟨d, rest, rfl⟩ := exists_of_escape _ _ he
      exact absurd (List.cons.inj heq).1 hslash
  · rintro ⟨hsingle, h⟩
    refine .plain (fun hc => ?_) hslash h
    rcases List.mem_pair.mp hquote with rfl | rfl
    · exact hdouble hc
    · exact hsingle hc rfl

theorem reads_escapeText_iff {quote : Char} (hquote : quote ∈ ['"', '\'']) {s : List Char} :
    Reads quote (escapeText s) s ↔ ('\'' ∈ s → quote ≠ '\'') := by
  induction s with
  | nil => exact iff_of_true .nil fun h => absurd h List.not_mem_nil
  | cons c s ih =>
    rw [escapeText, List.flatMap_cons, reads_escapeChar_iff hquote, ← escapeText, ih, List.mem_cons]
    constructor
    · rintro ⟨hc, hs⟩ (h | h)
      · exact hc h.symm
      · exact hs h
    · exact fun h => ⟨fun hc => h (.inl hc.symm), fun hs => h (.inr hs)⟩

/-- A literal that a text in single quotes begins with. -/
theorem Reads.of_append {s : List Char} : ∀ {body rest rest' : List Char}, Reads '\'' body s →
    body ++ '\'' :: rest = escapeText s ++ '\'' :: rest' → '\'' ∉ s ∧ rest = rest' := by
  induction s with
  | nil =>
    intro body rest rest' h heq
    cases h
    exact ⟨List.not_mem_nil, (List.cons.inj heq).2⟩
  | cons c s ih =>
    intro body rest rest' h heq
    rw [escapeText, List.flatMap_cons, ← escapeText, List.append_assoc] at heq
    rcases h.cons_inv with ⟨body', rfl, hquote, hslash, hs⟩ | ⟨e, body', rfl, he, hs⟩
    · rw [escapeChar, if_neg hslash] at heq
      split at heq
      · exact absurd (List.cons.inj heq).1 hslash
      · obtain ⟨hmem, hrest⟩ := ih hs (List.cons.inj heq).2
        exact ⟨List.not_mem_cons_of_ne_of_not_mem (Ne.symm hquote) hmem, hrest⟩
    · -- The sequence is the one that was put for the character.
      obtain ⟨d, tail, rfl⟩ := exists_of_escape _ _ he
      rw [escapeChar] at heq
      split at heq
      · rename_i hc
        obtain ⟨rfl, hbody⟩ := List.cons.inj (List.cons.inj heq).2
        rw [((escape_backslash tail c).mp he).1] at hbody
        obtain ⟨hmem, hrest⟩ := ih hs hbody
        exact ⟨List.not_mem_cons_of_ne_of_not_mem (by rw [hc]; decide) hmem, hrest⟩
      split at heq
      · rename_i hc
        obtain ⟨rfl, hbody⟩ := List.cons.inj (List.cons.inj heq).2
        rw [((escape_quote tail c).mp he).1] at hbody
        obtain ⟨hmem, hrest⟩ := ih hs hbody
        exact ⟨List.not_mem_cons_of_ne_of_not_mem (by rw [hc]; decide) hmem, hrest⟩
      · rename_i hc _
        exact absurd (List.cons.inj heq).1.symm hc

theorem of_isLiteral_append {text s rest rest' : List Char} (h : IsLiteral text s)
    (heq : text ++ rest = '\'' :: (escapeText s ++ '\'' :: rest')) : '\'' ∉ s ∧ rest = rest' := by
  obtain ⟨quote, -, body, rfl, hreads⟩ := h
  obtain ⟨rfl, heq⟩ := List.cons.inj heq
  exact hreads.of_append ((List.append_assoc body ['\''] rest).symm.trans heq)

end Reads

end ExprText
