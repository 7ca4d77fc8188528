import BoringPanel.Lib.Fallible
import BoringPanel.Lib.LetterCase
import BoringPanel.QueryService.Traces.QueryBuilder
import BoringPanel.QueryService.Resource.Escapes

/-!
# What the condition of `contains` matches

The builders put the search string between two `%`, escaped by `QuoteEscapedStringForContains` for the
literal and for the pattern in one go. A backslash of the string is doubled once, which the literal undoes,
so that in the pattern it stands alone and escapes what comes next: another backslash, the escape of a
wildcard, or the `%` at the end. The condition matches what contains the string if and only if no backslash
stands before one of these (`containsConditions_iff`).
-/

namespace QueryService

open Utils ClickHouse Resource

/-! ### The tokens of the pattern -/

/-- The tokens behind the first `%` of the pattern for a search string. -/
def containsTokens : List Char → List LikeToken
  | [] => [.any]
  | ['\\'] => [.char '%']
  | '\\' :: '\\' :: s => .char '\\' :: containsTokens s
  | '\\' :: '%' :: s => .char '\\' :: .any :: containsTokens s
  | '\\' :: '_' :: s => .char '\\' :: .one :: containsTokens s
  | c :: s => .char c :: containsTokens s

/-- What the literal leaves of the escape of a character. -/
def patternEscape (c : Char) : List Char := if c = '%' ∨ c = '_' then ['\\', c] else [c]

theorem unescape_containsEscape (s rest : List Char) :
    unescape (s.flatMap (containsEscape false) ++ rest) = s.flatMap patternEscape ++ unescape rest := by
  induction s with
  | nil => rfl
  | cons c s ih =>
    rw [List.flatMap_cons, List.flatMap_cons, List.append_assoc, List.append_assoc, ← ih]
    by_cases hpercent : c = '%'
    · subst hpercent
      rfl
    by_cases hunder : c = '_'
    · subst hunder
      rfl
    by_cases hbackslash : c = '\\'
    · subst hbackslash
      rfl
    by_cases hquote : c = '\''
    · subst hquote
      rfl
    have hescape : containsEscape false c = [c] := by simp [containsEscape, quoteEscape, *]
    have hpattern : patternEscape c = [c] := by simp [patternEscape, *]
    rw [hescape, hpattern]
    exact unescape_cons hbackslash _

theorem likeTokens_patternEscape (s : List Char) :
    likeTokens (s.flatMap patternEscape ++ ['%']) = containsTokens s := by
  fun_induction containsTokens s with
  | case1 => rfl
  | case2 => rfl
  | case3 s ih => exact congrArg (LikeToken.char '\\' :: ·) ih
  | case4 s ih => exact congrArg (LikeToken.char '\\' :: LikeToken.any :: ·) ih
  | case5 s ih => exact congrArg (LikeToken.char '\\' :: LikeToken.one :: ·) ih
  | case6 c s hlast hbackslash hpercent hunder ih =>
    rw [← ih, List.flatMap_cons, List.append_assoc]
    by_cases hc : c = '\\'
    · -- A backslash that escapes nothing.
      subst hc
      cases s with
      | nil => exact absurd rfl (hlast rfl)
      | cons d s =>
        have hd : d ∉ patternSpecials := by
          simp only [patternSpecials, List.mem_cons, List.not_mem_nil, or_false, not_or]
          exact ⟨fun h => hbackslash s rfl (h ▸ rfl), fun h => hpercent s rfl (h ▸ rfl),
            fun h => hunder s rfl (h ▸ rfl)⟩
        have hescape : patternEscape d = [d] := by
          simp only [patternSpecials, List.mem_cons, List.not_mem_nil, or_false, not_or] at hd
          rw [patternEscape, if_neg (not_or.mpr hd.2)]
        rw [List.flatMap_cons, hescape]
        exact likeTokens_backslash hd _
    by_cases hwild : c = '%' ∨ c = '_'
    · rcases hwild with rfl | rfl
      · rfl
      · rfl
    · rw [patternEscape, if_neg hwild]
      refine (likeTokens_cons hc _).trans ?_
      rw [wild]
      · rfl
      · exact fun h => hwild (Or.inl h)
      · exact fun h => hwild (Or.inr h)

/-- The body of the literal of the pattern for a search string. -/
def containsPattern (s : String) : String := "%" ++ quoteEscapedStringForContains s false ++ "%"

/-- The tokens of the pattern for a search string. -/
theorem likeTokens_contains (s : String) :
    likeTokens (unescape (containsPattern s).toList) = .any :: containsTokens s.toList := by
  rw [containsPattern, String.toList_append, String.toList_append, toList_quoteEscapedStringForContains]
  show likeTokens (unescape ('%' :: (s.toList.flatMap (containsEscape false) ++ ['%']))) = _
  rw [unescape_cons (by decide), unescape_containsEscape, likeTokens_cons (by decide)]
  exact congrArg (LikeToken.any :: ·) (likeTokens_patternEscape s.toList)

/-! ### Backslashes -/

/-- Every backslash of a text has a character behind it that is no backslash and no wildcard. -/
def BackslashesApart (s : List Char) : Prop :=
  ∀ before after, s = before ++ '\\' :: after → ∃ c ∈ after.head?, c ∉ patternSpecials

theorem BackslashesApart.tail {c : Char} {s : List Char} (h : BackslashesApart (c :: s)) :
    BackslashesApart s := fun before after hs => h (c :: before) after (by rw [hs, List.cons_append])

theorem BackslashesApart.cons {c : Char} {s : List Char} (h : BackslashesApart s)
    (hc : c = '\\' → ∃ d ∈ s.head?, d ∉ patternSpecials) : BackslashesApart (c :: s) := by
  intro before after hs
  rcases List.cons_eq_append_iff.mp hs with ⟨-, hhead⟩ | ⟨before', rfl, hs⟩
  · obtain ⟨rfl, rfl⟩ := List.cons.inj hhead
    exact hc rfl
  · exact h before' after (List.cons.inj hs).2

/-- The tokens are the characters of the string, behind them a `%`. -/
theorem containsTokens_of_apart {s : List Char} (h : BackslashesApart s) :
    containsTokens s = s.map .char ++ [.any] := by
  fun_induction containsTokens s with
  | case1 => rfl
  | case2 =>
    obtain ⟨c, hc, -⟩ := h [] [] rfl
    cases hc
  | case3 s ih =>
    obtain ⟨c, hc, hspecial⟩ := h [] ('\\' :: s) rfl
    cases hc
    exact absurd (by decide) hspecial
  | case4 s ih =>
    obtain ⟨c, hc, hspecial⟩ := h [] ('%' :: s) rfl
    cases hc
    exact absurd (by decide) hspecial
  | case5 s ih =>
    obtain ⟨c, hc, hspecial⟩ := h [] ('_' :: s) rfl
    cases hc
    exact absurd (by decide) hspecial
  | case6 c s _ _ _ _ ih => rw [ih h.tail, List.map_cons, List.cons_append]

theorem length_sample_le (s : List Char) : (sample (containsTokens s)).length ≤ s.length := by
  fun_induction containsTokens s with
  | case1 => exact Nat.le_refl _
  | case2 => exact Nat.le_refl _
  | case3 s ih => exact Nat.le_trans (Nat.succ_le_succ ih) (Nat.le_succ _)
  | case4 s ih => exact Nat.le_trans (Nat.succ_le_succ ih) (Nat.le_succ _)
  | case5 s ih => exact Nat.succ_le_succ (Nat.succ_le_succ ih)
  | case6 c s _ _ _ _ ih => exact Nat.succ_le_succ ih

/-- A string that is, up to the case of letters, the text that its own pattern is sampled by. -/
theorem apart_of_sample {L : LetterCase} {s : List Char}
    (h : s.map L.fold = (sample (containsTokens s)).map L.fold) : BackslashesApart s := by
  have hself : ∀ c ∈ patternSpecials, L.fold c = c := fun c hc => (L.fold_eq_iff c hc c).mpr rfl
  have hlength := congrArg List.length h
  rw [List.length_map, List.length_map] at hlength
  fun_induction containsTokens s with
  | case1 =>
    intro before after hs
    cases before <;> cases hs
  | case2 =>
    -- The `%` of the pattern instead of the last backslash.
    have hhead : L.fold '\\' = L.fold '%' := (List.cons.inj h).1
    rw [hself '\\' (by decide), hself '%' (by decide)] at hhead
    exact absurd hhead (by decide)
  | case3 s ih =>
    have hle := length_sample_le s
    simp only [sample, List.length_cons] at hlength
    omega
  | case4 s ih =>
    have hle := length_sample_le s
    simp only [sample, List.length_cons] at hlength
    omega
  | case5 s ih =>
    have hsecond : L.fold '_' = L.fold 'a' := (List.cons.inj (List.cons.inj h).2).1
    rw [hself '_' (by decide)] at hsecond
    exact absurd ((L.fold_eq_iff '_' (by decide) 'a').mp hsecond.symm) (by decide)
  | case6 c s hlast hbackslash hpercent hunder ih =>
    refine (ih (List.cons.inj h).2 (Nat.succ.inj hlength)).cons fun hc => ?_
    cases s with
    | nil => exact absurd rfl (hlast hc)
    | cons d s =>
      refine ⟨d, rfl, ?_⟩
      simp only [patternSpecials, List.mem_cons, List.not_mem_nil, or_false, not_or]
      exact ⟨fun h => hbackslash s hc (h ▸ rfl), fun h => hpercent s hc (h ▸ rfl),
        fun h => hunder s hc (h ▸ rfl)⟩

/-- The pattern is matched by the texts that contain the string if and only if its backslashes are apart. -/
theorem ilike_contains_iff (L : LetterCase) (s : String) :
    (∀ x : String, ilike L x.toList (containsPattern s).toList ↔ L.Contains x.toList s.toList) ↔
      BackslashesApart s.toList := by
  constructor
  · intro h
    have hpart : L.Contains (String.ofList (sample (containsTokens s.toList))).toList s.toList := by
      have hsample : sample (.any :: containsTokens s.toList) = sample (containsTokens s.toList) := rfl
      rw [← h, ilike, likeTokens_contains, String.toList_ofList, ← hsample]
      exact matches_sample L.fold _
    rw [LetterCase.Contains, String.toList_ofList] at hpart
    refine @apart_of_sample L _ (hpart.eq_of_length_le ?_)
    rw [List.length_map, List.length_map]
    exact length_sample_le _
  · intro h x
    rw [ilike, likeTokens_contains, containsTokens_of_apart h, List.map_cons, List.map_append,
      List.map_map]
    have hchars : s.toList.map (LikeToken.map L.fold ∘ LikeToken.char) =
        (s.toList.map L.fold).map LikeToken.char := by
      rw [List.map_map]
      rfl
    rw [hchars]
    refine matches_within_iff.trans ?_
    constructor
    · rintro ⟨u, v, w, hx, hv⟩
      rw [LetterCase.Contains, hx, matches_chars_iff.mp hv]
      exact ⟨u, w, rfl⟩
    · rintro ⟨u, w, hx⟩
      exact ⟨u, _, w, hx.symm, matches_chars_iff.mpr rfl⟩

/-! ### The conditions of the builders -/

/-- A condition on a column, with the body of the literal of its pattern. -/
structure LikeCondition where
  column : String
  negated : Bool
  /-- `LIKE` between texts in lower case; otherwise `ILIKE`. -/
  lowered : Bool
  body : String

namespace LikeCondition

variable (L : LetterCase) (c : LikeCondition)

def toSql : String :=
  let not := if c.negated then "NOT " else ""
  if c.lowered then "lower(" ++ c.column ++ ") " ++ not ++ "LIKE" ++ " lower('" ++ c.body ++ "')"
  else c.column ++ " " ++ not ++ "ILIKE" ++ " '" ++ c.body ++ "'"

/-- The texts in the column that match the pattern. -/
def MatchedBy (x : String) : Prop :=
  if c.lowered then lowerLike x.toList c.body.toList else ilike L x.toList c.body.toList

/-- The case of letters that the condition does not look at. -/
def letterCase : LetterCase := if c.lowered then .ascii else L

/-- **The condition says that the value contains the string**, or that it does not, up to the case of
letters; and the literal of its pattern ends where the text of the condition has its quote. -/
structure Correct (s : String) : Prop where
  ends : literalBody (c.body ++ "'").toList = some (c.body.toList, [])
  holds : ∀ x, (if c.negated then ¬ c.MatchedBy L x else c.MatchedBy L x) ↔
    if c.negated then ¬ (c.letterCase L).Contains x.toList s.toList
    else (c.letterCase L).Contains x.toList s.toList

end LikeCondition

/-- The escapes leave no quote that ends the literal. -/
theorem literalBody_containsEscape (s rest : List Char) :
    literalBody (s.flatMap (containsEscape false) ++ rest) =
      (literalBody rest).map fun p => (s.flatMap (containsEscape false) ++ p.1, p.2) := by
  induction s with
  | nil => exact Option.map_id'.symm
  | cons c s ih =>
    -- What is put for a character is read as a part of the body.
    have hread : ∀ tail, literalBody (containsEscape false c ++ tail) =
        (literalBody tail).map fun p => (containsEscape false c ++ p.1, p.2) := by
      intro tail
      by_cases hpercent : c = '%'
      · subst hpercent
        rfl
      by_cases hunder : c = '_'
      · subst hunder
        rfl
      by_cases hbackslash : c = '\\'
      · subst hbackslash
        rfl
      by_cases hquote : c = '\''
      · subst hquote
        rfl
      have hescape : containsEscape false c = [c] := by simp [containsEscape, quoteEscape, *]
      rw [hescape]
      exact literalBody_cons hbackslash hquote tail
    rw [List.flatMap_cons, List.append_assoc, hread, ih, Option.map_map]
    refine Option.map_congr fun p _ => ?_
    rw [Function.comp_apply, List.append_assoc]

theorem literalBody_contains (s : String) :
    literalBody (containsPattern s ++ "'").toList = some ((containsPattern s).toList, []) := by
  have hbody : (containsPattern s).toList = '%' :: (s.toList.flatMap (containsEscape false) ++ ['%']) := by
    rw [containsPattern, String.toList_append, String.toList_append, toList_quoteEscapedStringForContains]
    rfl
  rw [String.toList_append, hbody, List.cons_append, List.append_assoc]
  show (literalBody _).map _ = _
  rw [literalBody_containsEscape]
  rfl

/-- The condition on a column for a search string. -/
def containsCondition (column : String) (negated lowered : Bool) (s : String) : LikeCondition :=
  ⟨column, negated, lowered, containsPattern s⟩

theorem LikeCondition.matchedBy_iff (L : LetterCase) (c : LikeCondition) (x : String) :
    c.MatchedBy L x ↔ ilike (c.letterCase L) x.toList c.body.toList := by
  rw [MatchedBy, letterCase]
  split
  · exact lowerLike_iff_ilike _ _
  · exact Iff.rfl

theorem LikeCondition.correct_iff (L : LetterCase) {c : LikeCondition} {s : String}
    (hbody : c.body = containsPattern s) : c.Correct L s ↔ BackslashesApart s.toList := by
  have hholds : (∀ x, (if c.negated then ¬ c.MatchedBy L x else c.MatchedBy L x) ↔
      if c.negated then ¬ (c.letterCase L).Contains x.toList s.toList
      else (c.letterCase L).Contains x.toList s.toList) ↔
      ∀ x : String, ilike (c.letterCase L) x.toList (containsPattern s).toList ↔
        (c.letterCase L).Contains x.toList s.toList := by
    refine forall_congr' fun x => ?_
    rw [c.matchedBy_iff, hbody]
    split
    · exact not_iff_not
    · exact Iff.rfl
  rw [← ilike_contains_iff (c.letterCase L), ← hholds]
  refine ⟨Correct.holds, fun h => ⟨?_, h⟩⟩
  rw [hbody]
  exact literalBody_contains s

theorem toSql_lowered (column : String) (negated : Bool) (s : String) :
    (containsCondition column negated true s).toSql =
      "lower(" ++ column ++ ") " ++ (if negated then "NOT LIKE" else "LIKE") ++ " lower('%" ++
        quoteEscapedStringForContains s false ++ "%')" := by
  rw [LikeCondition.toSql, ← String.toList_inj]
  cases negated with
  | false => simp [containsCondition, containsPattern]
  | true => simp [containsCondition, containsPattern]

theorem toSql_attribute (column : String) (negated : Bool) (s : String) :
    (containsCondition column negated false s).toSql =
      column ++ " " ++ (if negated then "NOT ILIKE" else "ILIKE") ++ " '%" ++
        quoteEscapedStringForContains s false ++ "%'" := by
  rw [LikeCondition.toSql, ← String.toList_inj]
  cases negated with
  | false => simp [containsCondition, containsPattern]
  | true => simp [containsCondition, containsPattern]

section Builders

variable {F : Type} [GoFloat F] [Go.Unicode]

theorem buildAttributeFilter_contains {item : FilterItem F} {s text : String}
    (hop : item.operator = .contains ∨ item.operator = .notContains) (hvalue : item.value = .string s)
    (hkey : item.key.key ≠ "__attrs") (h : Logs.buildAttributeFilter item = .ok text) :
    ∃ column, Logs.getClickhouseKey item.key = some column ∧
      text = (containsCondition column (item.operator = .notContains) (column = Logs.body) s).toSql := by
  rw [Logs.buildAttributeFilter] at h
  obtain ⟨value, -, h⟩ := Fallible.bind_eq_ok h
  rw [if_neg hkey] at h
  obtain ⟨column, hcolumn, h⟩ := Fallible.bind_eq_ok h
  obtain ⟨fmtVal, -, h⟩ := Fallible.bind_eq_ok h
  refine ⟨column, orPanic_ok hcolumn, ?_⟩
  have hilike : Logs.withoutI "ILIKE" = "LIKE" := by decide
  have hnotIlike : Logs.withoutI "NOT ILIKE" = "NOT LIKE" := by decide
  by_cases hbody : column = Logs.body
  · rw [decide_eq_true hbody, toSql_lowered]
    rcases hop with hop | hop
    · rw [hop, hvalue] at h
      simp only [Logs.logOperators, if_pos hbody, hilike] at h
      rw [hop]
      exact (Except.ok.inj h).symm
    · rw [hop, hvalue] at h
      simp only [Logs.logOperators, if_pos hbody, hnotIlike] at h
      rw [hop]
      exact (Except.ok.inj h).symm
  · rw [decide_eq_false hbody, toSql_attribute]
    rcases hop with hop | hop
    · rw [hop, hvalue] at h
      simp only [Logs.logOperators, if_neg hbody] at h
      rw [hop]
      exact (Except.ok.inj h).symm
    · rw [hop, hvalue] at h
      simp only [Logs.logOperators, if_neg hbody] at h
      rw [hop]
      exact (Except.ok.inj h).symm

theorem itemCondition_contains {item : FilterItem F} {s : String} {texts : List String}
    (hop : item.operator = .contains ∨ item.operator = .notContains) (hvalue : item.value = .string s)
    (htype : item.key.type ≠ .resource) (h : Traces.itemCondition item = .ok texts) :
    ∃ column, Traces.getColumnName item.key = some column ∧
      texts = [(containsCondition column (item.operator = .notContains) false s).toSql] := by
  rw [Traces.itemCondition, if_neg htype] at h
  obtain ⟨column, hcolumn, h⟩ := Fallible.bind_eq_ok h
  obtain ⟨value, -, h⟩ := Fallible.bind_eq_ok h
  obtain ⟨fmtVal, -, h⟩ := Fallible.bind_eq_ok h
  refine ⟨column, orPanic_ok hcolumn, ?_⟩
  rw [toSql_attribute]
  rcases hop with hop | hop
  · rw [hop, hvalue] at h
    simp only [Traces.tracesOperatorMappingV3] at h
    rw [hop]
    exact (Except.ok.inj h).symm
  · rw [hop, hvalue] at h
    simp only [Traces.tracesOperatorMappingV3] at h
    rw [hop]
    exact (Except.ok.inj h).symm

/-- **The conditions of the builders for `contains` and `ncontains`** say that the value contains the
search string, or that it does not, if and only if no backslash of the string stands at its end or
before a backslash, a `%` or a `_`. -/
theorem containsConditions_iff (L : LetterCase) {item : FilterItem F} {s : String}
    (hop : item.operator = .contains ∨ item.operator = .notContains) (hvalue : item.value = .string s) :
    (item.key.key ≠ "__attrs" → ∀ text, Logs.buildAttributeFilter item = .ok text →
      ∃ c : LikeCondition, Logs.getClickhouseKey item.key = some c.column ∧
        c.negated = decide (item.operator = .notContains) ∧ text = c.toSql ∧
        (c.Correct L s ↔ BackslashesApart s.toList)) ∧
    (item.key.type ≠ .resource → ∀ texts, Traces.itemCondition item = .ok texts →
      ∃ c : LikeCondition, Traces.getColumnName item.key = some c.column ∧
        c.negated = decide (item.operator = .notContains) ∧ texts = [c.toSql] ∧
        (c.Correct L s ↔ BackslashesApart s.toList)) := by
  constructor
  · intro hkey text h
    obtain ⟨column, hcolumn, htext⟩ := buildAttributeFilter_contains hop hvalue hkey h
    exact ⟨_, hcolumn, rfl, htext, LikeCondition.correct_iff L rfl⟩
  · intro htype texts h
    obtain ⟨column, hcolumn, htexts⟩ := itemCondition_contains hop hvalue htype h
    exact ⟨_, hcolumn, rfl, htexts, LikeCondition.correct_iff L rfl⟩

end Builders

/-! ### Examples -/

/-- A search in a string attribute. -/
def attributeItem (s : String) : FilterItem Int :=
  ⟨⟨"k", .string, .tag, false, false⟩, .string s, .contains⟩

theorem backslashesApart_of_not_mem {s : List Char} (h : '\\' ∉ s) : BackslashesApart s := by
  rintro before after rfl
  exact absurd (List.mem_append_right _ List.mem_cons_self) h

/-- Wildcards and quotes are matched as they are. -/
theorem containsConditions_iff_wildcards : letI := Go.Unicode.ascii
    ∃ (text : String) (c : LikeCondition), Logs.buildAttributeFilter (attributeItem "50%_'") = .ok text ∧
      text = c.toSql ∧ c.Correct .ascii "50%_'" := by
  let _ : Go.Unicode := Go.Unicode.ascii
  obtain ⟨text, htext⟩ : ∃ text, Logs.buildAttributeFilter (attributeItem "50%_'") = .ok text := ⟨_, rfl⟩
  obtain ⟨hlogs, -⟩ := @containsConditions_iff Int _ _ .ascii (attributeItem "50%_'") "50%_'" (Or.inl rfl) rfl
  obtain ⟨c, -, -, hsql, hiff⟩ := hlogs (by decide) text htext
  exact ⟨text, c, htext, hsql, hiff.mpr (backslashesApart_of_not_mem (by decide))⟩

instance (L : LetterCase) (text body : List Char) : Decidable (ilike L text body) :=
  inferInstanceAs (Decidable (Matches _ _))

/-- A value with one backslash matches the search for two. -/
theorem matched_without_second_backslash : letI := Go.Unicode.ascii
    ∃ c : LikeCondition, Logs.buildAttributeFilter (attributeItem "\\\\") = .ok c.toSql ∧
      Traces.itemCondition (attributeItem "\\\\") = .ok [c.toSql] ∧ c.MatchedBy .ascii "\\" ∧
      ¬ (c.letterCase .ascii).Contains "\\".toList "\\\\".toList := by
  let _ : Go.Unicode := Go.Unicode.ascii
  refine ⟨⟨"attributes_string['k']", false, false, "%\\\\\\\\%"⟩, by decide, by decide, ?_, ?_⟩
  · show ilike .ascii _ _
    decide
  · intro h
    exact absurd h.length_le (by decide)

end QueryService
