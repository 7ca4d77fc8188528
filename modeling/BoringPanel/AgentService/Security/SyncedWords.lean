import BoringPanel.AgentService.Security.CommandRisk
import BoringPanel.Lib.Shell

/-!
# The first words of a command

The tokenizer and the shell read the same words up to the first character that they read in another way
(`Diverges`): until then their states agree (`Synced`).
-/

namespace AgentService

/-- The shell reads a character in another way than `tokenize`, after the tokenizer's state `t` and the
character `last`: white space that is no blank, the end of an empty word in quotes, or a backslash in
double quotes. -/
def Diverges (last : Option Char) (t : Tokenizer) (c : Char) : Prop :=
  t.escaped = false ∧
    (t.quote = none ∧ isSpace c ∧
        (c ∉ Shell.blanks ∨ t.current = [] ∧ (last = some '\'' ∨ last = some '"')) ∨
      t.quote = some .double ∧ c = '\\')

/-! ### Plain characters -/

/-- The characters of the first words. -/
def isPlain (c : Char) : Bool := isNameChar c || c == '/'

theorem isPlain_ne {c : Char} (h : isPlain c) (d : Char) (hd : isPlain d = false) : c ≠ d := by
  rintro rfl
  rw [h] at hd
  cases hd

theorem isSpace_of_isPlain {c : Char} (h : isPlain c) : isSpace c = false := by
  simp only [isPlain, isNameChar, Bool.or_eq_true, decide_eq_true_eq, beq_iff_eq, Char.le_def,
    UInt32.le_iff_toNat_le] at h
  have hn : c.val.toNat = c.toNat := rfl
  by_contra hspace
  simp only [Bool.not_eq_false, isSpace, List.mem_cons, List.not_mem_nil, or_false,
    decide_eq_true_eq] at hspace
  rcases h with (⟨h1, h2⟩ | ⟨h1, h2⟩ | rfl) | rfl
  · have h1' : 97 ≤ c.toNat := h1
    have h2' : c.toNat ≤ 122 := h2
    omega
  · have h1' : 48 ≤ c.toNat := h1
    have h2' : c.toNat ≤ 57 := h2
    omega
  · revert hspace
    decide
  · revert hspace
    decide

theorem isPlain_of_isWrapper {w : List Char} (h : isWrapper w) : ∀ c ∈ w, isPlain c := by
  rw [isWrapper, Bool.and_eq_true, Bool.and_eq_true] at h
  obtain ⟨hbegins, -, hname⟩ := h
  obtain ⟨name, rfl⟩ := List.isPrefixOf_iff_prefix.mp hbegins
  rw [List.drop_left, List.all_eq_true] at hname
  intro c hc
  rcases List.mem_append.mp hc with hc | hc
  · have hdirectory : wrapperDirectory.all isPlain = true := by decide
    exact List.all_eq_true.mp hdirectory c hc
  · rw [isPlain, hname c hc, Bool.true_or]

/-! ### The tokenizer -/

namespace Tokenizer

variable {t : Tokenizer} {c : Char}

theorem run_append (before after : List Char) :
    run (before ++ after) = after.foldl step (run before) :=
  List.foldl_append

theorem run_snoc (before : List Char) (c : Char) : run (before ++ [c]) = (run before).step c :=
  run_append before [c]

/-- A character pushes the token, or goes on with it, or does nothing to it. -/
theorem step_cases (t : Tokenizer) (c : Char) :
    t.step c = t.push ∨ ((t.step c).tokens = t.tokens ∧
      ((t.step c).current = t.current ++ [c] ∨ (t.step c).current = t.current)) := by
  rw [step]
  split
  · exact .inr ⟨rfl, .inl rfl⟩
  split
  · exact .inr ⟨rfl, .inr rfl⟩
  split
  · exact .inr ⟨rfl, .inr rfl⟩
  split
  · exact .inr ⟨rfl, .inr rfl⟩
  split
  · exact .inl rfl
  · exact .inr ⟨rfl, .inl rfl⟩

/-- The tokens have those of a state, and the current one may have grown. -/
def Reaches (t : Tokenizer) (tokens : List (List Char)) : Prop :=
  ∃ l rest, tokens = t.tokens ++ (if t.current = [] then [] else [t.current ++ l]) ++ rest

theorem reaches_push (t : Tokenizer) : t.Reaches t.push.tokens := by
  refine ⟨[], [], ?_⟩
  rw [push]
  by_cases h : t.current = []
  · simp [h]
  · simp [h]

theorem Reaches.of_step {tokens : List (List Char)} (h : (t.step c).Reaches tokens) :
    t.Reaches tokens := by
  obtain ⟨l, rest, h⟩ := h
  rcases t.step_cases c with hpush | ⟨htokens, hcurrent | hcurrent⟩
  · rw [hpush, push] at h
    refine ⟨[], rest, ?_⟩
    rw [h]
    by_cases hempty : t.current = []
    · simp [hempty]
    · simp [hempty]
  · rw [htokens, hcurrent, if_neg (by simp)] at h
    by_cases hempty : t.current = []
    · refine ⟨[], (c :: l) :: rest, ?_⟩
      rw [h, hempty]
      simp
    · refine ⟨c :: l, rest, ?_⟩
      rw [h, if_neg hempty]
      simp
  · rw [htokens, hcurrent] at h
    exact ⟨l, rest, h⟩

theorem reaches_foldl (t : Tokenizer) (l : List Char) : t.Reaches (l.foldl step t).push.tokens := by
  induction l generalizing t with
  | nil => exact t.reaches_push
  | cons c l ih => exact (ih (t.step c)).of_step

/-- The tokens before a place are among the tokens at the end. -/
theorem reaches_run {command before after : List Char} (h : command = before ++ after) :
    (run before).Reaches (run command).push.tokens := by
  rw [h, run_append]
  exact (run before).reaches_foldl after

theorem Reaches.prefix_tokens {tokens : List (List Char)} (h : t.Reaches tokens) :
    t.tokens <+: tokens := by
  obtain ⟨l, rest, rfl⟩ := h
  rw [List.append_assoc]
  exact List.prefix_append _ _

/-- A character that goes on with a token is in it at the end. -/
theorem Reaches.mem {tokens : List (List Char)} (h : (t.step c).Reaches tokens)
    (hstep : (t.step c).current = t.current ++ [c]) (htokens : (t.step c).tokens = t.tokens) :
    ∃ token, tokens[t.tokens.length]? = some token ∧ c ∈ token := by
  obtain ⟨l, rest, h⟩ := h
  rw [htokens, hstep, if_neg (by simp)] at h
  refine ⟨t.current ++ [c] ++ l, ?_, by simp⟩
  rw [h]
  simp

theorem length_tokens_le {before after : List Char} :
    (run before).tokens.length ≤ (run (before ++ after)).tokens.length := by
  induction after generalizing before with
  | nil => exact Nat.le_of_eq (by rw [List.append_nil])
  | cons c after ih =>
    have hone : (run before).tokens.length ≤ (run (before ++ [c])).tokens.length := by
      rw [run_snoc]
      rcases (run before).step_cases c with hpush | ⟨htokens, -⟩
      · rw [hpush, push]
        simp only
        split
        · exact Nat.le_refl _
        · simp
      · exact Nat.le_of_eq (by rw [htokens])
    have hrest := @ih (before ++ [c])
    rw [List.append_assoc] at hrest
    exact Nat.le_trans hone hrest

end Tokenizer

/-! ### The first words -/

/-- The tokenizer and the shell have read the same words. -/
structure Synced (last : Option Char) (t : Tokenizer) (st : Shell.State) : Prop where
  words : st.words = t.tokens
  word : st.word = none ∧ t.current = [] ∨ st.word = some t.current
  frames : st.frames = if t.quote = some .double then [.doubleQuotes] else []
  singleQuotes : st.singleQuotes = decide (t.quote = some .single)
  escaped : st.escaped = t.escaped
  dollar : st.dollar = false
  comment : st.comment = false
  /-- A backslash is in no quotes. -/
  unquoted : t.escaped = true → t.quote = none
  /-- A word that is there and empty was in quotes, which have just ended. -/
  empty : st.word = some [] → t.quote = none → t.escaped = false → last = some '\'' ∨ last = some '"'
  /-- Quotes begin a word. -/
  quoted : t.quote ≠ none ∨ last = some '\'' ∨ last = some '"' → st.word = some t.current

theorem synced_start : Synced none Tokenizer.start Shell.State.start where
  words := rfl
  word := .inl ⟨rfl, rfl⟩
  frames := rfl
  singleQuotes := rfl
  escaped := rfl
  dollar := rfl
  comment := rfl
  unquoted h := by cases h
  empty h := by cases h
  quoted h := by simp [Tokenizer.start] at h

section Synced

variable {last : Option Char} {t : Tokenizer} {st : Shell.State} {c : Char}

theorem Synced.getD_word (h : Synced last t st) : st.word.getD [] = t.current := by
  rcases h.word with ⟨hword, hcurrent⟩ | hword
  · rw [hword, hcurrent]
    rfl
  · rw [hword]
    rfl

/-- The shell goes on with its word by a plain character that is not escaped, in any quotes. -/
theorem read_plain {st : Shell.State} (hcomment : st.comment = false) (hescaped : st.escaped = false)
    (hplain : isPlain c) : st.read c = { st with
      word := some (st.word.getD [] ++ [c]), dollar := st.singleQuotes && st.dollar } := by
  have hne := isPlain_ne hplain
  have hactivates : st.activates c = false := by
    rw [Shell.State.activates, hcomment]
    simp only [Bool.false_eq_true, if_false]
    split
    · rfl
    · rw [if_neg fun h => hne '(' (by decide) h.1, if_neg (hne Shell.backquote (by decide))]
      simp [Shell.operators, hne '&' (by decide), hne ';' (by decide), hne '|' (by decide),
        hne '<' (by decide), hne '>' (by decide), hne '(' (by decide), hne ')' (by decide),
        hne '\n' (by decide)]
  rw [Shell.State.read, hactivates, hcomment]
  simp only [Bool.or_false, Bool.false_eq_true, if_false, hescaped]
  cases hsingle : st.singleQuotes with
  | true =>
    simp only [if_true, if_neg (hne '\'' (by decide)), Bool.true_and]
    rfl
  | false =>
    simp only [Bool.false_eq_true, if_false, Shell.State.plainChar, if_neg (hne '\\' (by decide)),
      hne '\'' (by decide), hne '"' (by decide), hne '$' (by decide), hne '{' (by decide),
      hne '}' (by decide), hne '#' (by decide), false_and, and_false, Bool.false_and, Shell.blanks,
      Shell.operators, List.mem_cons, List.not_mem_nil, or_false, hne ' ' (by decide),
      hne '\t' (by decide), hne '&' (by decide), hne ';' (by decide), hne '|' (by decide),
      hne '<' (by decide), hne '>' (by decide), hne '(' (by decide), hne ')' (by decide),
      hne '\n' (by decide)]
    rfl

/-- The step appends the character to the token. -/
theorem Synced.append (h : Synced last t st) (hescaped : t.escaped = false)
    (hstep : t.step c = { t with current := t.current ++ [c] }) (hplain : isPlain c) :
    Synced (some c) (t.step c) (st.read c) := by
  rw [hstep, read_plain h.comment (h.escaped.trans hescaped) hplain, h.getD_word, h.dollar,
    Bool.and_false]
  refine ⟨h.words, .inr rfl, h.frames, h.singleQuotes, h.escaped, rfl, h.comment, h.unquoted, ?_,
    fun _ => rfl⟩
  intro hempty
  simp at hempty

theorem Synced.step_unquoted (h : Synced last t st) (hescaped : t.escaped = false)
    (hquote : t.quote = none) (hdiverges : ¬ Diverges last t c)
    (hplain : (t.step c).current = t.current ++ [c] → isPlain c) :
    Synced (some c) (t.step c) (st.read c) := by
  have hsingle : st.singleQuotes = false := by rw [h.singleQuotes, hquote]; rfl
  have hframes : st.frames = [] := by rw [h.frames, hquote]; rfl
  by_cases hbackslash : c = '\\'
  · have hstep : t.step c = { t with escaped := true } := by
      simp [Tokenizer.step, hescaped, hquote, hbackslash]
    have hread : st.read c = { st with escaped := true, dollar := false } := by
      rw [Shell.State.read, Shell.State.activates, h.comment, hsingle, h.escaped, hescaped]
      simp [hbackslash, Shell.State.plainChar, Shell.backquote, hframes, Shell.operators]
    rw [hstep, hread]
    refine ⟨h.words, h.word, h.frames, h.singleQuotes, rfl, rfl, h.comment, fun _ => hquote, ?_, ?_⟩
    · rintro - - ⟨⟩
    rintro (hnever | hnever | hnever)
    · exact absurd hquote hnever
    · rw [hbackslash] at hnever
      cases hnever
    · rw [hbackslash] at hnever
      cases hnever
  by_cases hsingleQuote : c = '\''
  · have hstep : t.step c = { t with quote := some .single } := by
      simp [Tokenizer.step, hescaped, hquote, hsingleQuote]
    have hread : st.read c = { st with
        word := some t.current, singleQuotes := true, dollar := false } := by
      rw [Shell.State.read, Shell.State.activates, h.comment, hsingle, h.escaped, hescaped]
      simp [hsingleQuote, Shell.State.plainChar, Shell.backquote, hframes, Shell.operators,
        Shell.State.inDoubleQuotes, Shell.State.append, h.getD_word]
    rw [hstep, hread]
    refine ⟨h.words, .inr rfl, ?_, rfl, h.escaped, rfl, h.comment, ?_,
      fun _ hnone => (by cases hnone), fun _ => rfl⟩
    · rw [hframes]
      rfl
    · intro hnever
      rw [hescaped] at hnever
      cases hnever
  by_cases hdoubleQuote : c = '"'
  · have hstep : t.step c = { t with quote := some .double } := by
      simp [Tokenizer.step, hescaped, hquote, hdoubleQuote]
    have hread : st.read c = { st with
        word := some t.current, frames := [.doubleQuotes], dollar := false } := by
      rw [Shell.State.read, Shell.State.activates, h.comment, hsingle, h.escaped, hescaped]
      simp [hdoubleQuote, Shell.State.plainChar, Shell.backquote, hframes, Shell.operators,
        Shell.State.inDoubleQuotes, Shell.State.append, h.getD_word]
    rw [hstep, hread]
    refine ⟨h.words, .inr rfl, rfl, ?_, h.escaped, rfl, h.comment, ?_,
      fun _ hnone => (by cases hnone), fun _ => rfl⟩
    · rw [hsingle]
      rfl
    · intro hnever
      rw [hescaped] at hnever
      cases hnever
  by_cases hspace : isSpace c = true
  · have hstep : t.step c = t.push := by
      simp [Tokenizer.step, hescaped, hquote, hbackslash, hsingleQuote, hdoubleQuote, hspace]
    have hblank : c ∈ Shell.blanks := by
      by_contra hno
      exact hdiverges ⟨hescaped, .inl ⟨hquote, hspace, .inl hno⟩⟩
    have hread : st.read c = { st with
        words := st.words ++ st.word.toList, word := none, dollar := false } := by
      rw [Shell.State.read, Shell.State.activates, h.comment, hsingle, h.escaped, hescaped]
      rcases List.mem_cons.mp hblank with rfl | hblank
      · simp [Shell.State.plainChar, Shell.backquote, hframes, Shell.operators, Shell.blanks,
          Shell.State.split]
      · obtain rfl := List.mem_singleton.mp hblank
        simp [Shell.State.plainChar, Shell.backquote, hframes, Shell.operators, Shell.blanks,
          Shell.State.split]
    rw [hstep, hread, Tokenizer.push]
    refine ⟨?_, .inl ⟨rfl, rfl⟩, h.frames, h.singleQuotes, h.escaped, rfl, h.comment, ?_,
      fun hsome => (by cases hsome), ?_⟩
    · rcases h.word with ⟨hword, hcurrent⟩ | hword
      · simp [hword, hcurrent, h.words]
      · -- an empty word in quotes would make the difference
        have hnonempty : t.current ≠ [] := by
          intro hcurrent
          refine hdiverges ⟨hescaped, .inl ⟨hquote, hspace, .inr ⟨hcurrent, ?_⟩⟩⟩
          exact h.empty (by rw [hword, hcurrent]) hquote hescaped
        simp [hword, hnonempty, h.words]
    · intro hnever
      rw [hescaped] at hnever
      cases hnever
    · rintro (hnever | hnever | hnever)
      · exact absurd hquote hnever
      · exact absurd (Option.some.inj hnever) hsingleQuote
      · exact absurd (Option.some.inj hnever) hdoubleQuote
  · have hstep : t.step c = { t with current := t.current ++ [c] } := by
      simp [Tokenizer.step, hescaped, hquote, hbackslash, hsingleQuote, hdoubleQuote, hspace]
    exact h.append hescaped hstep (hplain (by rw [hstep]))

/-- A character that the shell reads as the tokenizer does. -/
theorem Synced.step (h : Synced last t st) (hdiverges : ¬ Diverges last t c)
    (hplain : (t.step c).current = t.current ++ [c] → isPlain c) :
    Synced (some c) (t.step c) (st.read c) := by
  cases hescaped : t.escaped with
  | true =>
    -- a character after a backslash, which is in no quotes
    have hquote := h.unquoted hescaped
    have hstep : t.step c = { t with current := t.current ++ [c], escaped := false } := by
      rw [Tokenizer.step, if_pos hescaped]
    have hc := hplain (by rw [hstep])
    have hsingle : st.singleQuotes = false := by rw [h.singleQuotes, hquote]; rfl
    have hframes : st.frames = [] := by rw [h.frames, hquote]; rfl
    have hread : st.read c = { st with
        word := some (t.current ++ [c]), escaped := false, dollar := false } := by
      rw [Shell.State.read, Shell.State.activates, h.comment, hsingle, h.escaped, hescaped]
      simp only [Bool.false_eq_true, if_false, or_true, if_true, Bool.or_false,
        Shell.State.escapedChar, if_neg (isPlain_ne hc '\n' (by decide)),
        Shell.State.inDoubleQuotes, hframes, List.head?_nil, reduceCtorEq, decide_false, false_and,
        Shell.State.append, h.getD_word]
    rw [hstep, hread]
    refine ⟨h.words, .inr rfl, h.frames, h.singleQuotes, rfl, rfl, h.comment,
      fun hnever => (by cases hnever), ?_, fun _ => rfl⟩
    intro hempty
    simp at hempty
  | false =>
    cases hquote : t.quote with
    | none => exact h.step_unquoted hescaped hquote hdiverges hplain
    | some quote =>
      cases quote with
      | single =>
        by_cases hend : c = '\''
        · have hstep : t.step c = { t with quote := none } := by
            simp [Tokenizer.step, hescaped, hquote, hend]
          have hread : st.read c = { st with singleQuotes := false } := by
            rw [Shell.State.read, Shell.State.activates, h.comment, h.singleQuotes, hquote]
            simp [hend]
          rw [hstep, hread]
          refine ⟨h.words, h.word, ?_, rfl, h.escaped, h.dollar, h.comment, fun _ => rfl, ?_,
            fun _ => h.quoted (.inl (by simp [hquote]))⟩
          · have hframes := h.frames
            rw [hquote] at hframes
            exact hframes
          · exact fun _ _ _ => .inl (congrArg some hend)
        · have hstep : t.step c = { t with current := t.current ++ [c] } := by
            simp [Tokenizer.step, hescaped, hquote, hend]
          exact h.append hescaped hstep (hplain (by rw [hstep]))
      | double =>
        by_cases hend : c = '"'
        · have hstep : t.step c = { t with quote := none } := by
            simp [Tokenizer.step, hescaped, hquote, hend]
          have hsingle : st.singleQuotes = false := by rw [h.singleQuotes, hquote]; rfl
          have hframes : st.frames = [.doubleQuotes] := by rw [h.frames, hquote]; rfl
          have hread : st.read c = { st with frames := [] } := by
            rw [Shell.State.read, Shell.State.activates, h.comment, hsingle, h.escaped, hescaped]
            simp [hend, Shell.State.plainChar, Shell.State.inDoubleQuotes, hframes, h.dollar,
              Shell.backquote]
          rw [hstep, hread]
          refine ⟨h.words, h.word, rfl, ?_, h.escaped, h.dollar, h.comment, fun _ => rfl, ?_,
            fun _ => h.quoted (.inl (by simp [hquote]))⟩
          · rw [hsingle]
            rfl
          · exact fun _ _ _ => .inr (congrArg some hend)
        · have hbackslash : c ≠ '\\' := fun hc => hdiverges ⟨hescaped, .inr ⟨hquote, hc⟩⟩
          have hstep : t.step c = { t with current := t.current ++ [c] } := by
            simp [Tokenizer.step, hescaped, hquote, hend, hbackslash]
          exact h.append hescaped hstep (hplain (by rw [hstep]))

end Synced

end AgentService
