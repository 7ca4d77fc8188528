import Mathlib.Data.List.Induction

/-!
# Commands of the POSIX shell

How the shell reads a command: quoting, comments, and the splitting into words, up to the expansions.
An operator is active unless it is quoted, escaped, in a comment or in the braces of a parameter; a
substitution is active in double quotes too. The words are without their quotes.
-/

namespace Shell

/-- What may be open when a character is read, besides single quotes. -/
inductive Frame where
  | doubleQuotes
  | braces
deriving DecidableEq

structure State where
  words : List (List Char)
  /-- The word that is being read. -/
  word : Option (List Char)
  frames : List Frame
  singleQuotes : Bool
  escaped : Bool
  /-- The last character was a dollar sign that may begin an expansion. -/
  dollar : Bool
  comment : Bool
  /-- There was an active operator or substitution. -/
  active : Bool

def State.start : State := ⟨[], none, [], false, false, false, false, false⟩

def blanks : List Char := [' ', '\t']

/-- The characters of the control operators and of the redirections. -/
def operators : List Char := ['&', ';', '|', '<', '>', '(', ')', '\n']

def backquote : Char := Char.ofNat 0x60

namespace State

variable (st : State)

def append (l : List Char) : State := { st with word := some (st.word.getD [] ++ l) }

def inDoubleQuotes : Bool := st.frames.head? = some .doubleQuotes

/-- The word ends, if there is one. -/
def split : State := { st with words := st.words ++ st.word.toList, word := none }

/-- The character is an active operator, or the end of an active `$(`, or a backquote. -/
def activates (c : Char) : Bool :=
  if st.comment then c = '\n'
  else if st.singleQuotes ∨ st.escaped then false
  else if c = '(' ∧ st.dollar then true
  else if c = backquote then true
  else st.frames.isEmpty ∧ c ∈ operators

/-- A character that is not quoted. -/
def plainChar (c : Char) : State :=
  let st' := { st with dollar := false }
  if c = '\\' then { st' with escaped := true }
  else if c = '\'' ∧ ¬ st.inDoubleQuotes then { st'.append [] with singleQuotes := true }
  else if c = '"' then
    if st.inDoubleQuotes then { st' with frames := st.frames.tail }
    else { st'.append [] with frames := .doubleQuotes :: st.frames }
  else if c = '$' then { st.append [c] with dollar := !st.dollar }
  else if c = '{' ∧ st.dollar then { st'.append [c] with frames := .braces :: st.frames }
  else if c = '}' ∧ st.frames.head? = some .braces then
    { st'.append [c] with frames := st.frames.tail }
  else if st.frames.isEmpty ∧ (c ∈ blanks ∨ c ∈ operators) then st'.split
  else if st.frames.isEmpty ∧ c = '#' ∧ st.word.isNone then { st' with comment := true }
  else st'.append [c]

/-- The character after a backslash. In double quotes the backslash stays before most of them. -/
def escapedChar (c : Char) : State :=
  let st' := { st with escaped := false, dollar := false }
  if c = '\n' then st'
  else if st.inDoubleQuotes ∧ c ∉ ['$', '"', '\\', backquote] then st'.append ['\\', c]
  else st'.append [c]

def read (c : Char) : State :=
  let st' := { st with active := st.active || st.activates c }
  if st.comment then if c = '\n' then { st' with comment := false } else st'
  else if st.singleQuotes then
    if c = '\'' then { st' with singleQuotes := false } else st'.append [c]
  else if st.escaped then st'.escapedChar c
  else st'.plainChar c

/-- The words, with the one that is being read. -/
def allWords : List (List Char) := st.words ++ st.word.toList

end State

/-- The state after a command. -/
def readAll (command : List Char) : State := command.foldl State.read State.start

theorem readAll_append (before after : List Char) :
    readAll (before ++ after) = after.foldl State.read (readAll before) :=
  List.foldl_append

/-! ### What is read stays -/

namespace State

variable {st st' : State} {c : Char}

/-- The words are still there, and the word that is being read may have grown. -/
def Extends (st st' : State) : Prop :=
  ∃ l rest, st'.allWords = st.words ++ (st.word.map (· ++ l)).toList ++ rest

theorem extends_refl (st : State) : st.Extends st := by
  refine ⟨[], [], ?_⟩
  rw [allWords]
  cases st.word with
  | none => simp
  | some w => simp

/-- A character goes on with the word, or ends it, or does nothing to it. -/
theorem read_cases (st : State) (c : Char) :
    ((st.read c).words = st.words ∧ (st.read c).word = st.word) ∨
      ((st.read c).words = st.words ∧ ∃ l, (st.read c).word = some (st.word.getD [] ++ l)) ∨
      ((st.read c).words = st.words ++ st.word.toList ∧ (st.read c).word = none) := by
  rw [read]
  split
  · split
    · exact .inl ⟨rfl, rfl⟩
    · exact .inl ⟨rfl, rfl⟩
  split
  · split
    · exact .inl ⟨rfl, rfl⟩
    · exact .inr (.inl ⟨rfl, _, rfl⟩)
  split
  · simp only [escapedChar]
    split
    · exact .inl ⟨rfl, rfl⟩
    · split
      · exact .inr (.inl ⟨rfl, _, rfl⟩)
      · exact .inr (.inl ⟨rfl, _, rfl⟩)
  · simp only [plainChar]
    split
    · exact .inl ⟨rfl, rfl⟩
    split
    · exact .inr (.inl ⟨rfl, _, rfl⟩)
    split
    · split
      · exact .inl ⟨rfl, rfl⟩
      · exact .inr (.inl ⟨rfl, _, rfl⟩)
    split
    · exact .inr (.inl ⟨rfl, _, rfl⟩)
    split
    · exact .inr (.inl ⟨rfl, _, rfl⟩)
    split
    · exact .inr (.inl ⟨rfl, _, rfl⟩)
    split
    · exact .inr (.inr ⟨rfl, rfl⟩)
    split
    · exact .inl ⟨rfl, rfl⟩
    · exact .inr (.inl ⟨rfl, _, rfl⟩)

theorem Extends.of_read (h : (st.read c).Extends st') : st.Extends st' := by
  obtain ⟨l, rest, h⟩ := h
  rcases st.read_cases c with ⟨hwords, hword⟩ | ⟨hwords, l', hword⟩ | ⟨hwords, hword⟩
  · rw [hwords, hword] at h
    exact ⟨l, rest, h⟩
  · rw [hwords, hword] at h
    cases hold : st.word with
    | none =>
      refine ⟨[], (l' ++ l) :: rest, ?_⟩
      rw [h, hold]
      simp
    | some w =>
      refine ⟨l' ++ l, rest, ?_⟩
      rw [h, hold]
      simp
  · rw [hwords, hword] at h
    refine ⟨[], rest, ?_⟩
    rw [h]
    cases st.word with
    | none => simp
    | some w => simp

/-- What is read stays, whatever follows. -/
theorem extends_foldl (st : State) (l : List Char) : st.Extends (l.foldl read st) := by
  induction l generalizing st with
  | nil => exact st.extends_refl
  | cons c l ih => exact (ih (st.read c)).of_read

theorem active_read (st : State) (c : Char) : (st.read c).active = (st.active || st.activates c) := by
  rw [read]
  split
  · split <;> rfl
  split
  · split <;> rfl
  split
  · simp only [escapedChar]
    split
    · rfl
    · split <;> rfl
  · simp only [plainChar]
    split
    · rfl
    split
    · rfl
    split
    · split <;> rfl
    split
    · rfl
    split
    · rfl
    split
    · rfl
    split
    · rfl
    split <;> rfl

end State

/-- A command is active from one of its characters on. -/
theorem active_readAll_iff {command : List Char} : (readAll command).active = true ↔
    ∃ before c after, command = before ++ c :: after ∧ (readAll before).activates c = true := by
  have hfold : ∀ (l before : List Char), (l.foldl State.read (readAll before)).active = true ↔
      (readAll before).active = true ∨ ∃ read c after, l = read ++ c :: after ∧
        (readAll (before ++ read)).activates c = true := by
    intro l
    induction l with
    | nil => simp
    | cons c l ih =>
      intro before
      have hread : (readAll before).read c = readAll (before ++ [c]) := by
        rw [readAll_append]
        rfl
      rw [List.foldl_cons, hread, ih, ← hread, State.active_read, Bool.or_eq_true, or_assoc]
      refine or_congr Iff.rfl ?_
      constructor
      · rintro (hc | ⟨read, d, after, rfl, hd⟩)
        · exact ⟨[], c, l, rfl, by simpa using hc⟩
        · exact ⟨c :: read, d, after, rfl, by simpa using hd⟩
      · rintro ⟨read, d, after, hl, hd⟩
        cases read with
        | nil =>
          obtain ⟨rfl, rfl⟩ := List.cons.inj hl
          exact .inl (by simpa using hd)
        | cons e read =>
          obtain ⟨rfl, rfl⟩ := List.cons.inj hl
          exact .inr ⟨read, d, after, rfl, by simpa using hd⟩
  have hall := hfold command []
  simpa [readAll, State.start] using hall

/-! ### Dollar signs -/

namespace State

variable {st : State}

/-- A dollar sign that may begin an expansion is not quoted. -/
def DollarPlain (st : State) : Prop :=
  st.dollar = true → st.comment = false ∧ st.singleQuotes = false ∧ st.escaped = false

theorem DollarPlain.read (h : st.DollarPlain) (c : Char) :
    (st.read c).DollarPlain ∧ ((st.read c).dollar = true → c = '$') := by
  have hread : (st.read c).dollar = true → c = '$' ∧ (st.read c).comment = false ∧
      (st.read c).singleQuotes = false ∧ (st.read c).escaped = false := by
    intro hd
    rw [State.read] at hd ⊢
    by_cases hcomment : st.comment = true
    · -- in a comment, and in single quotes, the last dollar sign is none that begins an expansion
      rw [if_pos hcomment] at hd
      have hdollar : st.dollar = true := by
        split at hd
        · exact hd
        · exact hd
      rw [(h hdollar).1] at hcomment
      cases hcomment
    rw [if_neg hcomment] at hd ⊢
    by_cases hsingle : st.singleQuotes = true
    · rw [if_pos hsingle] at hd
      have hdollar : st.dollar = true := by
        split at hd
        · exact hd
        · exact hd
      rw [(h hdollar).2.1] at hsingle
      cases hsingle
    rw [if_neg hsingle] at hd ⊢
    by_cases hescaped : st.escaped = true
    · rw [if_pos hescaped, escapedChar] at hd
      split at hd
      · cases hd
      · split at hd
        · cases hd
        · cases hd
    rw [if_neg hescaped] at hd ⊢
    have hc : c = '$' := by
      by_contra hne
      simp only [plainChar, if_neg hne] at hd
      split at hd
      · cases hd
      split at hd
      · cases hd
      split at hd
      · split at hd
        · cases hd
        · cases hd
      split at hd
      · cases hd
      split at hd
      · cases hd
      split at hd
      · cases hd
      split at hd
      · cases hd
      · cases hd
    subst hc
    exact ⟨rfl, Bool.eq_false_iff.mpr hcomment, Bool.eq_false_iff.mpr hsingle,
      Bool.eq_false_iff.mpr hescaped⟩
  exact ⟨fun hd => (hread hd).2, fun hd => (hread hd).1⟩

end State

theorem getLast?_of_dollar {before : List Char} (h : (readAll before).dollar = true) :
    before.getLast? = some '$' := by
  have hall : (readAll before).DollarPlain ∧
      ((readAll before).dollar = true → before.getLast? = some '$') := by
    clear h
    induction before using List.reverseRecOn with
    | nil => exact ⟨nofun, nofun⟩
    | append_singleton before c ih =>
      obtain ⟨hplain, hlast⟩ := ih.1.read c
      rw [readAll_append, List.getLast?_append]
      exact ⟨hplain, fun hd => congrArg some (hlast hd)⟩
  exact hall.2 h

end Shell
