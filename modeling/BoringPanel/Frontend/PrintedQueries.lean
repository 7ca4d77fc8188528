import BoringPanel.Frontend.LogQL

/-!
# Queries that are printed and parsed again

The tokens of a query are keys, operators, values and connectives in turn (`Follows`). If each of them is printed
as one part (`PrintsParts`), the query that is printed is split into their texts again and has the same tokens,
but for the values of `CONTAINS` and `NCONTAINS`: they are put in single quotes, and the single quotes in them are
removed (`parseQuery_reverseParser`).
-/

namespace Frontend

namespace LogQL

/-! ### The tokens of a query -/

section Tokens

/-- Some tokens that may come after a last one. -/
inductive Follows : Option Token → List Token → Prop
  | nil (prev : Option Token) : Follows prev []
  | key {prev : Option Token} {k : JsText} {rest : List Token}
      (h : ∀ token ∈ prev, token.type = .conditionalOperator) (hrest : Follows (some ⟨.queryKey, .text k⟩) rest) :
      Follows prev (⟨.queryKey, .text k⟩ :: rest)
  | operator {token : Token} {op : JsText} {rest : List Token} (h : token.type = .queryKey)
      (hop : isOneOf (queryOperatorsMultiVal ++ queryOperatorsSingleVal) op = true)
      (hrest : Follows (some ⟨.queryOperator, .text op⟩) rest) :
      Follows (some token) (⟨.queryOperator, .text op⟩ :: rest)
  | value {token : Token} {v : JsText} {rest : List Token} (h : token.type = .queryOperator)
      (hsingle : token.isMultiVal = false) (hrest : Follows (some ⟨.queryValue, .text v⟩) rest) :
      Follows (some token) (⟨.queryValue, .text v⟩ :: rest)
  | list {token : Token} {vs : List JsText} {rest : List Token} (h : token.type = .queryOperator)
      (hmulti : token.isMultiVal = true) (hvs : ∀ v ∈ vs, IsValue v)
      (hrest : Follows (some ⟨.queryValue, .list vs⟩) rest) :
      Follows (some token) (⟨.queryValue, .list vs⟩ :: rest)
  | conditional {token : Token} {op : JsText} {rest : List Token} (h : token.type = .queryValue)
      (hop : isOneOf conditionalOperators op = true)
      (hrest : Follows (some ⟨.conditionalOperator, .text op⟩) rest) :
      Follows (some token) (⟨.conditionalOperator, .text op⟩ :: rest)

/-- The next token of a query that goes on. -/
theorem follows_of_generateQuery {parsedRaw parsedRaw' : List Token} {q : JsText} (hq : Plain q)
    (h : generateQuery parsedRaw q = .ok parsedRaw') : ∃ token, parsedRaw' = parsedRaw ++ [token] ∧
      ∀ rest, Follows (some token) rest → Follows parsedRaw.getLast? (token :: rest) := by
  unfold generateQuery at h
  split at h
  · rename_i hlast
    refine ⟨_, (Except.ok.inj h).symm, fun rest hrest => ?_⟩
    rw [hlast]
    exact .key (fun _ hnone => by cases hnone) hrest
  · rename_i prevToken hlast
    rw [hlast]
    split at h
    · rename_i htype
      refine ⟨_, (Except.ok.inj h).symm, fun rest hrest => .key (fun token htoken => ?_) hrest⟩
      rw [← Option.some.inj htoken]
      exact htype
    · rename_i htype
      split at h
      · rename_i hop
        exact ⟨_, (Except.ok.inj h).symm, fun rest hrest => .operator htype hop hrest⟩
      · cases h
    · rename_i htype
      split at h
      · rename_i hmulti
        split at h
        · rename_i values hvalues
          exact ⟨_, (Except.ok.inj h).symm, fun rest hrest =>
            .list htype hmulti (isValue_of_validateMultiValue hq hvalues) hrest⟩
        · cases h
      · rename_i hsingle
        exact ⟨_, (Except.ok.inj h).symm, fun rest hrest =>
          .value htype (Bool.eq_false_iff.mpr hsingle) hrest⟩
    · rename_i htype
      split at h
      · rename_i hop
        exact ⟨_, (Except.ok.inj h).symm, fun rest hrest => .conditional htype hop hrest⟩
      · cases h

theorem follows_of_generateQueries {parsedRaw : List Token} {qs : List JsText} (hqs : ∀ q ∈ qs, Plain q) :
    ∃ tokens, (generateQueries parsedRaw qs).1 = parsedRaw ++ tokens ∧ Follows parsedRaw.getLast? tokens := by
  induction qs generalizing parsedRaw with
  | nil => exact ⟨[], (List.append_nil _).symm, .nil _⟩
  | cons q qs ih =>
    obtain ⟨hq, hqs⟩ := List.forall_mem_cons.mp hqs
    rw [generateQueries]
    cases hgenerate : generateQuery parsedRaw q with
    | error e => exact ⟨[], (List.append_nil _).symm, .nil _⟩
    | ok parsedRaw' =>
      obtain ⟨token, rfl, hfollows⟩ := follows_of_generateQuery hq hgenerate
      obtain ⟨tokens, htokens, hrest⟩ := @ih (parsedRaw ++ [token]) hqs
      refine ⟨token :: tokens, htokens.trans (List.append_assoc _ _ _), hfollows tokens ?_⟩
      rw [List.getLast?_concat] at hrest
      exact hrest

/-- **The tokens of a query** are keys, operators, values and connectives in turn. -/
theorem follows_parseQuery (q : JsText) : Follows none (parseQuery q) := by
  unfold parseQuery
  split
  · refine .key (fun _ h => by cases h) (.operator rfl (by decide) (.value rfl (by decide) (.nil _)))
  · rename_i parsedRaw _ _ hgenerate
    obtain ⟨tokens, htokens, hfollows⟩ :=
      @follows_of_generateQueries [] (splitter q) fun p hp => plain_of_mem_splitter hp
    rw [hgenerate] at htokens
    obtain rfl : parsedRaw = tokens := htokens
    exact hfollows

end Tokens

/-! ### Printing and parsing again -/

section RoundTrip

/-- The token that is read where a token has been printed: a value of `CONTAINS` or `NCONTAINS` is in single
quotes then, and has no others. -/
def requote (lastToken : Option Token) (query : Token) : Token :=
  match query.value with
  | .text s =>
    if query.type = .queryValue ∧ lastToken.any isStringType = true then
      { query with value := .text (quoted (withoutQuotes s)) }
    else query
  | .list _ => query

def requoted (lastToken : Option Token) : List Token → List Token
  | [] => []
  | query :: rest => requote lastToken query :: requoted (some query) rest

/-- A token is printed as one part: a list is not empty, and the text of a key or a value, as it is read again,
stands alone, or ends the query. -/
def IsPart (token : Token) (atEnd : Bool) : Prop :=
  match token.value with
  | .list vs => vs ≠ []
  | .text s => token.type = .queryKey ∨ token.type = .queryValue → if atEnd then Ends s else Stands s

instance (token : Token) (atEnd : Bool) : Decidable (IsPart token atEnd) := by
  unfold IsPart
  split
  · infer_instance
  · infer_instance

/-- Each token is printed as one part. -/
def PrintsParts (lastToken : Option Token) : List Token → Prop
  | [] => True
  | query :: rest => IsPart (requote lastToken query) rest.isEmpty ∧ PrintsParts (some query) rest

instance decidablePrintsParts : (lastToken : Option Token) → (tokens : List Token) →
    Decidable (PrintsParts lastToken tokens)
  | _, [] => isTrue trivial
  | _, query :: rest => @instDecidableAnd _ _ _ (decidablePrintsParts (some query) rest)

/-- The text of a token. -/
def textOf (token : Token) : JsText :=
  match token.value with
  | .text s => s
  | .list vs => bracketed vs

variable {prev : Option Token} {token : Token} {tokens rest parsedRaw : List Token} {queryString : JsText}

/-- What is printed is the text of the token that is read again. -/
theorem printToken_eq (hfollows : Follows prev (token :: rest))
    (hpart : IsPart (requote prev token) rest.isEmpty) :
    printToken prev token = some (textOf (requote prev token)) := by
  cases hfollows with
  | key h _ => rfl
  | operator h hop _ => rfl
  | conditional h hop _ => rfl
  | @value last v _ h hsingle _ =>
    simp only [printToken, requote, Option.any_some, true_and, if_true]
    split
    · rfl
    · rfl
  | @list last vs _ h hmulti hvs _ =>
    match vs with
    | [] => exact absurd rfl hpart
    | v :: vs => rfl

/-- The text of a token stands alone, or ends the query. -/
theorem part_textOf (hfollows : Follows prev (token :: rest)) (hpart : IsPart (requote prev token) rest.isEmpty) :
    if rest.isEmpty then Ends (textOf (requote prev token)) else Stands (textOf (requote prev token)) := by
  have htext : ∀ {token : Token} {s : JsText}, token.value = .text s →
      token.type = .queryKey ∨ token.type = .queryValue → IsPart token rest.isEmpty →
      if rest.isEmpty then Ends (textOf token) else Stands (textOf token) := by
    intro token s hs htype hpart
    rw [textOf, hs]
    rw [IsPart, hs] at hpart
    exact hpart htype
  have hstands : ∀ {s : JsText}, Stands s → if rest.isEmpty then Ends s else Stands s := by
    intro s hs
    split
    · exact hs.ends
    · exact hs
  cases hfollows with
  | key h _ => exact htext rfl (.inl rfl) hpart
  | operator h hop _ => exact hstands (stands_of_isOneOf (List.subset_append_left _ _) hop)
  | conditional h hop _ => exact hstands (stands_of_isOneOf (List.subset_append_right _ _) hop)
  | @value last v _ h hsingle _ =>
    by_cases hstring : isStringType last = true
    · have hrequote : requote (some last) ⟨.queryValue, .text v⟩ =
          ⟨.queryValue, .text (quoted (withoutQuotes v))⟩ := if_pos ⟨rfl, hstring⟩
      exact htext (congrArg Token.value hrequote) (.inr (congrArg Token.type hrequote)) hpart
    · have hrequote : requote (some last) ⟨.queryValue, .text v⟩ = ⟨.queryValue, .text v⟩ :=
        if_neg fun hc => hstring hc.2
      exact htext (congrArg Token.value hrequote) (.inr (congrArg Token.type hrequote)) hpart
  | @list last vs _ h hmulti hvs _ => exact hstands (stands_bracketed hvs)

theorem ne_nil_of_part {s : JsText} {atEnd : Bool} (h : if atEnd then Ends s else Stands s) : s ≠ [] := by
  cases atEnd with
  | true => exact And.left h
  | false => exact And.left h

theorem Follows.tail (h : Follows prev (token :: rest)) : Follows (some token) rest := by
  cases h with
  | key _ hrest => exact hrest
  | operator _ _ hrest => exact hrest
  | value _ _ hrest => exact hrest
  | list _ _ _ hrest => exact hrest
  | conditional _ _ hrest => exact hrest

/-- The texts of the tokens, each after a blank. -/
def spaced (tokens : List Token) : JsText := (tokens.map textOf).flatMap (blank :: ·)

theorem printTokens_eq (hfollows : Follows prev tokens) (hparts : PrintsParts prev tokens)
    (hne : queryString ≠ []) :
    printTokens queryString prev tokens = some (queryString ++ spaced (requoted prev tokens)) := by
  induction tokens generalizing prev queryString with
  | nil =>
    rw [printTokens, requoted]
    exact congrArg some (List.append_nil _).symm
  | cons token rest ih =>
    obtain ⟨hpart, hrest⟩ := hparts
    have hnext : queryString ++ [blank] ++ textOf (requote prev token) ≠ [] := by simp
    rw [printTokens, printToken_eq hfollows hpart]
    show printTokens ((if queryString ≠ [] then queryString ++ [blank] else queryString) ++ _) (some token)
      rest = _
    rw [if_pos hne, ih hfollows.tail hrest hnext, requoted, spaced, spaced, List.map_cons, List.flatMap_cons]
    simp only [List.append_assoc, List.cons_append, List.nil_append]

theorem reverseParser_eq (hfollows : Follows none (token :: rest)) (hparts : PrintsParts none (token :: rest)) :
    reverseParser (token :: rest) = some (textOf (requote none token) ++ spaced (requoted (some token) rest)) := by
  obtain ⟨hpart, hrest⟩ := hparts
  rw [reverseParser, printTokens, printToken_eq hfollows hpart]
  show printTokens ([] ++ textOf (requote none token)) (some token) rest = _
  rw [List.nil_append]
  exact printTokens_eq hfollows.tail hrest (ne_nil_of_part (part_textOf hfollows hpart))

/-- **What is printed is split into the texts of the tokens.** -/
theorem splitter_printed (hfollows : Follows prev (token :: rest)) (hparts : PrintsParts prev (token :: rest)) :
    splitter (textOf (requote prev token) ++ spaced (requoted (some token) rest)) =
      (requoted prev (token :: rest)).map textOf := by
  induction rest generalizing prev token with
  | nil =>
    have hends : Ends (textOf (requote prev token)) := part_textOf hfollows hparts.1
    show splitter (textOf (requote prev token) ++ []) = [textOf (requote prev token)]
    rw [List.append_nil]
    exact splitter_of_ends hends
  | cons next rest ih =>
    have hstands : Stands (textOf (requote prev token)) := part_textOf hfollows hparts.1
    have hspaced : spaced (requoted (some token) (next :: rest)) =
        blank :: (textOf (requote (some token) next) ++ spaced (requoted (some next) rest)) := rfl
    rw [hspaced, splitter_of_stands hstands, ih hfollows.tail hparts.2]
    rfl

/-- The token that is read again is after the same last token, or after another value. -/
def Alike (prev last : Option Token) : Prop :=
  last = prev ∨ (∃ v, prev = some ⟨.queryValue, v⟩) ∧ ∃ w, last = some ⟨.queryValue, w⟩

theorem alike_requote (prev : Option Token) (token : Token) : Alike (some token) (some (requote prev token)) := by
  obtain ⟨type, value⟩ := token
  unfold requote
  cases value with
  | list vs => exact .inl rfl
  | text s =>
    by_cases h : type = .queryValue ∧ prev.any isStringType = true
    · obtain ⟨rfl, -⟩ := h
      refine .inr ⟨⟨_, rfl⟩, ?_⟩
      dsimp only
      split
      · exact ⟨_, rfl⟩
      · exact ⟨_, rfl⟩
    · exact .inl (congrArg some (if_neg h))

/-- **The text of a token is read as the token.** -/
theorem generateQuery_textOf (hfollows : Follows prev (token :: rest)) (halike : Alike prev parsedRaw.getLast?) :
    generateQuery parsedRaw (textOf (requote prev token)) = .ok (parsedRaw ++ [requote prev token]) := by
  unfold generateQuery
  cases hfollows with
  | @key _ k _ h _ =>
    rcases halike with hlast | ⟨⟨v, rfl⟩, -⟩
    · rw [hlast]
      cases prev with
      | none => rfl
      | some last =>
        have htype := h last rfl
        obtain ⟨type, value⟩ := last
        obtain rfl : type = .conditionalOperator := htype
        rfl
    · cases h _ rfl
  | @operator last op _ h hop _ =>
    obtain ⟨type, value⟩ := last
    obtain rfl : type = .queryKey := h
    rcases halike with hlast | ⟨⟨v, hv⟩, -⟩
    · rw [hlast]
      exact if_pos hop
    · cases hv
  | @value last v _ h hsingle _ =>
    obtain ⟨type, value⟩ := last
    obtain rfl : type = .queryOperator := h
    rcases halike with hlast | ⟨⟨v, hv⟩, -⟩
    · rw [hlast]
      have hrequote : ∃ s, requote (some ⟨.queryOperator, value⟩) ⟨.queryValue, .text v⟩ =
          ⟨.queryValue, .text s⟩ := by
        unfold requote
        dsimp only
        split
        · exact ⟨_, rfl⟩
        · exact ⟨_, rfl⟩
      obtain ⟨s, hs⟩ := hrequote
      rw [hs]
      exact if_neg (Bool.eq_false_iff.mp hsingle)
    · cases hv
  | @list last vs _ h hmulti hvs _ =>
    obtain ⟨type, value⟩ := last
    obtain rfl : type = .queryOperator := h
    rcases halike with hlast | ⟨⟨v, hv⟩, -⟩
    · rw [hlast]
      refine (if_pos hmulti).trans ?_
      have hvalues : validateMultiValue (textOf ⟨.queryValue, .list vs⟩) = some vs :=
        validateMultiValue_bracketed hvs
      have hrequote : requote (some ⟨.queryOperator, value⟩) ⟨.queryValue, .list vs⟩ =
          ⟨.queryValue, .list vs⟩ := rfl
      rw [hrequote, hvalues]
    · cases hv
  | @conditional last op _ h hop _ =>
    have hlast : ∃ w, parsedRaw.getLast? = some ⟨.queryValue, w⟩ := by
      obtain ⟨type, value⟩ := last
      obtain rfl : type = .queryValue := h
      rcases halike with hlast | ⟨-, hlast⟩
      · exact ⟨value, hlast⟩
      · exact hlast
    obtain ⟨w, hw⟩ := hlast
    rw [hw]
    exact if_pos hop

theorem generateQueries_textOf (hfollows : Follows prev tokens) (halike : Alike prev parsedRaw.getLast?) :
    generateQueries parsedRaw ((requoted prev tokens).map textOf) = (parsedRaw ++ requoted prev tokens, none) := by
  induction tokens generalizing prev parsedRaw with
  | nil => rw [requoted, List.append_nil]; rfl
  | cons token rest ih =>
    have hlast : Alike (some token) (parsedRaw ++ [requote prev token]).getLast? := by
      rw [List.getLast?_concat]
      exact alike_requote prev token
    rw [requoted, List.map_cons, generateQueries, generateQuery_textOf hfollows halike]
    refine (ih hfollows.tail hlast).trans ?_
    rw [List.append_assoc]
    rfl

/-- **A query that is printed and parsed again** has the same tokens, but that values of `CONTAINS` and
`NCONTAINS` have been put in single quotes and have no others. -/
theorem parseQuery_reverseParser (q : JsText) (h : PrintsParts none (parseQuery q)) :
    ∃ text, reverseParser (parseQuery q) = some text ∧ parseQuery text = requoted none (parseQuery q) := by
  have hfollows := follows_parseQuery q
  cases htokens : parseQuery q with
  | nil => exact ⟨[], rfl, rfl⟩
  | cons token rest =>
    rw [htokens] at h hfollows
    refine ⟨_, reverseParser_eq hfollows h, ?_⟩
    rw [parseQuery, splitter_printed hfollows h, generateQueries_textOf hfollows (.inl rfl)]
    rfl

def queryOfLists : JsText :=
  JsText.of "OPERATION in ('bcd','xy\\'z') AND FULLTEXT CONTAINS 'hello xyz' or code gte 400"

theorem parseQuery_reverseParser_queryOfLists : ∃ text, reverseParser (parseQuery queryOfLists) = some text ∧
    parseQuery text = requoted none (parseQuery queryOfLists) :=
  parseQuery_reverseParser queryOfLists (by decide +kernel)

/-- A quote in a value of `CONTAINS` is removed. -/
theorem not_parseQuery_reverseParser : ¬ ∀ q : JsText,
    ∃ text, reverseParser (parseQuery q) = some text ∧ parseQuery text = parseQuery q := by
  intro h
  obtain ⟨text, hprinted, hparsed⟩ := h (JsText.of "body CONTAINS 'it\\'s'")
  have htext : reverseParser (parseQuery (JsText.of "body CONTAINS 'it\\'s'")) =
      some (JsText.of "body CONTAINS 'it\\s'") := by decide +kernel
  obtain rfl := Option.some.inj (htext.symm.trans hprinted)
  exact absurd hparsed (by decide +kernel)

end RoundTrip

end LogQL

end Frontend
