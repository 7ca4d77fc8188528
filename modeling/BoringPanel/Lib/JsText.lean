import Mathlib.Data.List.DropRight
import Mathlib.Data.List.Infix

/-!
# Strings of JavaScript

A string is a list of UTF-16 code units. White space is that of `\s` and `trim`. A text whose runs of
white space are replaced by blanks, and which is trimmed, is made of its words (`trim_collapse`), so that
this can be done on each side of a blank (`words_append`).
-/

/-- A string: its UTF-16 code units. -/
abbrev JsText := List UInt16

instance : LawfulBEq JsText := List.instLawfulBEq

namespace JsText

/-- The code units of a character. -/
def units (c : Char) : JsText :=
  if c.toNat < 0x10000 then [c.toNat.toUInt16]
  else [(0xd800 + (c.toNat - 0x10000) / 0x400).toUInt16, (0xdc00 + (c.toNat - 0x10000) % 0x400).toUInt16]

def of (s : String) : JsText := s.toList.flatMap units

def blank : UInt16 := 0x20

/-- The code units of `\s`. -/
def isSpace (c : UInt16) : Bool :=
  c ∈ [0x09, 0x0a, 0x0b, 0x0c, 0x0d, 0x20, 0xa0, 0x1680, 0x2028, 0x2029, 0x202f, 0x205f, 0x3000,
    0xfeff] ∨ (0x2000 ≤ c ∧ c ≤ 0x200a)

/-- A line terminator, which a dot does not match. -/
def isLineTerminator (c : UInt16) : Bool := c ∈ [0x0a, 0x0d, 0x2028, 0x2029]

/-- The lower case of an ASCII letter. -/
def toLower (c : UInt16) : UInt16 := if 0x41 ≤ c ∧ c ≤ 0x5a then c + 0x20 else c

/-- The same character under the flag `i`, where one of the two is ASCII or has no case. -/
def sameLetter (a b : UInt16) : Bool := toLower a == toLower b

def trim (s : JsText) : JsText := (s.rdropWhile isSpace).dropWhile isSpace

/-- The first character is no white space. -/
def startsWord : JsText → Bool
  | [] => false
  | c :: _ => !isSpace c

/-- `replace(/\s+/g, ' ')`: the last character of a run becomes the blank. -/
def collapse : JsText → JsText
  | [] => []
  | c :: s =>
    if isSpace c then if s = [] ∨ startsWord s then blank :: collapse s else collapse s
    else c :: collapse s

/-- `Array.prototype.join`. -/
def join (separator : JsText) : List JsText → JsText
  | [] => []
  | [s] => s
  | s :: t :: rest => s ++ separator ++ join separator (t :: rest)

/-! ### Words -/

/-- The maximal parts without white space. -/
def words : JsText → List JsText
  | [] => []
  | c :: s =>
    if isSpace c then words s
    else match startsWord s, words s with
      | true, w :: rest => (c :: w) :: rest
      | _, ws => [c] :: ws

theorem isSpace_blank : isSpace blank = true := by decide

theorem words_cons_space {c : UInt16} (h : isSpace c = true) (s : JsText) : words (c :: s) = words s := by
  rw [words, if_pos h]

/-- A word that begins goes on with the next one, if there is no white space between them. -/
theorem words_cons {c : UInt16} (h : isSpace c = false) (s : JsText) :
    words (c :: s) = if startsWord s then (c :: (words s).headD []) :: (words s).tail
      else [c] :: words s := by
  have hsome : startsWord s = true → ∃ w rest, words s = w :: rest := by
    intro hs
    cases s with
    | nil => cases hs
    | cons d s =>
      have hd : ¬ isSpace d = true := by simpa [startsWord] using hs
      rw [words, if_neg hd]
      split
      · exact ⟨_, _, rfl⟩
      · exact ⟨_, _, rfl⟩
  rw [words, if_neg (by rw [h]; decide)]
  cases hs : startsWord s with
  | false => rfl
  | true =>
    obtain ⟨w, rest, hw⟩ := hsome hs
    rw [hw]
    rfl

theorem startsWord_append_blank (s t : JsText) :
    startsWord (s ++ blank :: t) = startsWord s := by
  cases s with
  | nil => rfl
  | cons c s => rfl

theorem words_eq_nil_of_startsWord {s : JsText} (h : startsWord s = true) : words s ≠ [] := by
  cases s with
  | nil => cases h
  | cons c s =>
    have hc : isSpace c = false := by simpa [startsWord] using h
    rw [words_cons hc]
    split
    · exact List.cons_ne_nil _ _
    · exact List.cons_ne_nil _ _

/-- A blank is between words. -/
theorem words_append (s t : JsText) : words (s ++ blank :: t) = words s ++ words t := by
  induction s with
  | nil => exact words_cons_space isSpace_blank t
  | cons c s ih =>
    cases hc : isSpace c with
    | true =>
      rw [List.cons_append, words_cons_space hc, words_cons_space hc, ih]
    | false =>
      rw [List.cons_append, words_cons hc, words_cons hc, startsWord_append_blank, ih]
      cases hs : startsWord s with
      | false => rfl
      | true =>
        obtain ⟨w, rest, hw⟩ := List.exists_cons_of_ne_nil (words_eq_nil_of_startsWord hs)
        rw [hw]
        rfl

/-! ### Runs of white space -/

theorem rdropWhile_cons (p : UInt16 → Bool) (c : UInt16) (s : JsText) :
    (c :: s).rdropWhile p =
      if s.rdropWhile p = [] ∧ p c then [] else c :: s.rdropWhile p := by
  simp only [List.rdropWhile, List.reverse_cons, List.dropWhile_append, List.reverse_eq_nil_iff,
    List.isEmpty_iff]
  by_cases hs : List.dropWhile p s.reverse = []
  · rw [if_pos hs, hs]
    cases hc : p c with
    | true => simp [hc]
    | false => simp [hc]
  · rw [if_neg hs]
    simp [hs]

theorem words_cons_of_startsWord {c : UInt16} (hc : isSpace c = false) {s : JsText}
    (hs : startsWord s = true) : ∃ w rest, words s = w :: rest ∧ words (c :: s) = (c :: w) :: rest := by
  obtain ⟨w, rest, hw⟩ := List.exists_cons_of_ne_nil (words_eq_nil_of_startsWord hs)
  refine ⟨w, rest, hw, ?_⟩
  rw [words_cons hc, if_pos hs, hw]
  rfl

theorem ne_nil_of_mem_words {s w : JsText} (h : w ∈ words s) : w ≠ [] ∧ startsWord w = true := by
  have hword : ∀ {c : UInt16} (l : JsText), isSpace c = false →
      c :: l ≠ [] ∧ startsWord (c :: l) = true := by
    intro c l hc
    exact ⟨List.cons_ne_nil _ _, by rw [startsWord, hc]; rfl⟩
  induction s with
  | nil => cases h
  | cons c s ih =>
    cases hc : isSpace c with
    | true =>
      rw [words_cons_space hc] at h
      exact ih h
    | false =>
      cases hs : startsWord s with
      | true =>
        obtain ⟨w', rest, hw', hwords⟩ := words_cons_of_startsWord hc hs
        rw [hwords] at h
        rcases List.mem_cons.mp h with rfl | h
        · exact hword w' hc
        · exact ih (by rw [hw']; exact List.mem_cons_of_mem _ h)
      | false =>
        rw [words_cons hc, hs] at h
        rcases List.mem_cons.mp h with rfl | h
        · exact hword [] hc
        · exact ih h

theorem join_append (separator : JsText) {ws ws' : List JsText} (h : ws ≠ []) (h' : ws' ≠ []) :
    join separator (ws ++ ws') = join separator ws ++ separator ++ join separator ws' := by
  induction ws with
  | nil => exact absurd rfl h
  | cons w ws ih =>
    cases ws with
    | nil =>
      obtain ⟨w', rest, rfl⟩ := List.exists_cons_of_ne_nil h'
      rfl
    | cons w' rest =>
      calc join separator (w :: w' :: rest ++ ws')
          = w ++ separator ++ join separator (w' :: rest ++ ws') := rfl
        _ = w ++ separator ++ (join separator (w' :: rest) ++ separator ++ join separator ws') := by
          rw [ih (List.cons_ne_nil _ _)]
        _ = join separator (w :: w' :: rest) ++ separator ++ join separator ws' := by
          simp only [join, List.append_assoc]

theorem join_cons_cons (separator : JsText) (c : UInt16) (w : JsText) (ws : List JsText) :
    join separator ((c :: w) :: ws) = c :: join separator (w :: ws) := by
  cases ws with
  | nil => rfl
  | cons w' ws => rfl

/-- The joined words begin with a word. -/
theorem startsWord_join {ws : List JsText} (h : ∀ w ∈ ws, startsWord w = true) (hws : ws ≠ [])
    (separator : JsText) : startsWord (join separator ws) = true := by
  obtain ⟨w, rest, rfl⟩ := List.exists_cons_of_ne_nil hws
  have hw := h w List.mem_cons_self
  cases w with
  | nil => cases hw
  | cons c w =>
    rw [join_cons_cons]
    exact hw

theorem ne_nil_of_startsWord {s : JsText} (h : startsWord s = true) : s ≠ [] := by
  rintro rfl
  cases h

/-- What is left at the end after the runs have been replaced: the words, behind a blank if there was
white space in front. -/
theorem rdropWhile_collapse (s : JsText) : (collapse s).rdropWhile isSpace =
    (if startsWord s ∨ words s = [] then [] else [blank]) ++ join [blank] (words s) := by
  have hjoin : ∀ s, words s ≠ [] → join [blank] (words s) ≠ [] := fun s hs =>
    ne_nil_of_startsWord (startsWord_join (fun w hw => (ne_nil_of_mem_words hw).2) hs _)
  induction s with
  | nil => rfl
  | cons c s ih =>
    cases hc : isSpace c with
    | true =>
      have hstarts : ¬ startsWord (c :: s) = true := by simp [startsWord, hc]
      rw [words_cons_space hc, collapse, if_pos hc]
      by_cases hlast : s = [] ∨ startsWord s = true
      · -- the last one of its run
        rw [if_pos hlast, rdropWhile_cons, ih]
        by_cases hwords : words s = []
        · simp [hwords, isSpace_blank, join]
        · have hs : startsWord s = true := hlast.resolve_left (by rintro rfl; exact hwords rfl)
          simp [hs, hwords, hstarts, hjoin s hwords]
      · rw [if_neg hlast, ih]
        have hs : ¬ startsWord s = true := fun hs => hlast (.inr hs)
        simp [hs, hstarts]
    | false =>
      have hstarts : startsWord (c :: s) = true := by simp [startsWord, hc]
      have hfront : startsWord (c :: s) = true ∨ words (c :: s) = [] := .inl hstarts
      rw [if_pos hfront, collapse, if_neg (by rw [hc]; decide), rdropWhile_cons, ih,
        if_neg (by rw [hc]; simp), List.nil_append]
      cases hs : startsWord s with
      | true =>
        obtain ⟨w, rest, hw, hwords⟩ := words_cons_of_startsWord hc hs
        rw [hwords, hw, join_cons_cons]
        rfl
      | false =>
        rw [words_cons hc, hs]
        by_cases hwords : words s = []
        · simp [hwords, join]
        · obtain ⟨w, rest, hw⟩ := List.exists_cons_of_ne_nil hwords
          simp [hw, join]

/-- A text whose white space is normalized is made of its words. -/
theorem trim_collapse (s : JsText) : trim (collapse s) = join [blank] (words s) := by
  rw [trim, rdropWhile_collapse]
  by_cases hwords : words s = []
  · rw [hwords, if_pos (.inr rfl)]
    rfl
  · have hjoin := startsWord_join (fun w hw => (ne_nil_of_mem_words hw).2) hwords [blank]
    -- the blank in front is dropped, and nothing else
    have hdrop : (join [blank] (words s)).dropWhile isSpace = join [blank] (words s) := by
      cases hj : join [blank] (words s) with
      | nil => rfl
      | cons c l =>
        rw [hj] at hjoin
        have hc : isSpace c = false := by simpa [startsWord] using hjoin
        rw [List.dropWhile_cons, hc]
        rfl
    split
    · exact hdrop
    · rw [List.singleton_append, List.dropWhile_cons, if_pos isSpace_blank]
      exact hdrop

theorem words_eq_nil_iff (s : JsText) : words s = [] ↔ trim (collapse s) = [] := by
  rw [trim_collapse]
  constructor
  · intro h
    rw [h]
    rfl
  · intro h
    by_contra hne
    exact ne_nil_of_startsWord
      (startsWord_join (fun w hw => (ne_nil_of_mem_words hw).2) hne _) h

/-- Texts on both sides of a blank. -/
theorem trim_collapse_append (s t : JsText) : trim (collapse (s ++ blank :: t)) =
    if trim (collapse s) = [] then trim (collapse t)
    else if trim (collapse t) = [] then trim (collapse s)
    else trim (collapse s) ++ blank :: trim (collapse t) := by
  split
  · rename_i hs
    rw [trim_collapse, words_append, (words_eq_nil_iff s).mpr hs, List.nil_append, trim_collapse]
  · rename_i hs
    have hs : words s ≠ [] := mt (words_eq_nil_iff s).mp hs
    split
    · rename_i ht
      rw [trim_collapse, words_append, (words_eq_nil_iff t).mpr ht, List.append_nil, trim_collapse]
    · rename_i ht
      have ht : words t ≠ [] := mt (words_eq_nil_iff t).mp ht
      simp only [trim_collapse, words_append]
      rw [join_append [blank] hs ht, List.append_assoc]
      rfl

end JsText
