import BoringPanel.Lib.JsText

/-!
# The query language of logs

`parseQuery` splits a query at blanks that are not in quotes or brackets, and reads keys, operators, values and
`AND` or `OR` in turn; `reverseParser` prints the tokens again. The values of `IN` and `NIN` are the texts in
single quotes between brackets; the value of `CONTAINS` and `NCONTAINS`, in capital letters, is printed in
single quotes, after its own single quotes have been removed.

The splitter is a loop over the places of the query; it is followed character by character (`splitter_eq`), so
that a text can be said to be one part, whatever comes after it (`Stands`). The values of a list are texts that
are read again where they are printed (`validateMultiValue_bracketed`).
-/

namespace Frontend

namespace LogQL

def blank : UInt16 := 0x20
def quote : UInt16 := 0x27
def openBracket : UInt16 := 0x28
def closeBracket : UInt16 := 0x29
def comma : UInt16 := 0x2c
def backslash : UInt16 := 0x5c

/-- `queryString.slice(start, stop)` -/
def slice (s : JsText) (start stop : Nat) : JsText := (s.take stop).drop start

/-- `queryString[idx - 1]` -/
def before (s : JsText) (idx : Nat) : Option UInt16 := if idx = 0 then none else s[idx - 1]?

/-! ### Splitting -/

structure Splitting where
  splittedParts : List JsText
  start : Nat
  isBracketStart : Bool
  isQuoteStart : Bool
deriving DecidableEq, Repr

def pushPart (queryString : JsText) (idx : Nat) (st : Splitting) : Splitting :=
  { st with splittedParts := st.splittedParts ++ [slice queryString st.start idx], start := idx + 1 }

def splitChar (queryString : JsText) (st : Splitting) (idx : Nat) : Splitting :=
  let currentChar := queryString[idx]?
  if currentChar = some blank then
    if !st.isBracketStart && !st.isQuoteStart then pushPart queryString idx st else st
  else if currentChar = some openBracket then { st with isBracketStart := true }
  else if currentChar = some closeBracket then
    let st := if before queryString idx ≠ some backslash then
        { pushPart queryString (idx + 1) st with isBracketStart := false } else st
    { st with isQuoteStart := false }
  else if currentChar = some quote then
    if st.isQuoteStart then
      if before queryString idx ≠ some backslash && !st.isBracketStart then
        { pushPart queryString (idx + 1) st with isQuoteStart := false }
      else st
    else { st with isQuoteStart := true }
  else st

def splitter (queryString : JsText) : List JsText :=
  let st := (List.range queryString.length).foldl (splitChar queryString) ⟨[], 0, false, false⟩
  let st := if st.start < queryString.length then pushPart queryString queryString.length st else st
  st.splittedParts.filter (· ≠ [])

/-! ### Tokens -/

/-- `QueryTypes` -/
inductive QueryType where
  | queryKey
  | queryOperator
  | queryValue
  | conditionalOperator
deriving DecidableEq, Repr

inductive TokenValue where
  | text (s : JsText)
  | list (values : List JsText)
deriving DecidableEq, Repr

structure Token where
  type : QueryType
  value : TokenValue
deriving DecidableEq, Repr

def queryOperatorsMultiVal : List JsText := ["IN", "NIN"].map JsText.of

def queryOperatorsSingleVal : List JsText := ["GTE", "GT", "LTE", "LT", "CONTAINS", "NCONTAINS"].map JsText.of

def stringTypeQueryOperators : List JsText := ["CONTAINS", "NCONTAINS"].map JsText.of

def conditionalOperators : List JsText := ["AND", "OR"].map JsText.of

/-- One of some words of ASCII letters, in either letter case. -/
def isOneOf (words : List JsText) (s : JsText) : Bool :=
  words.any fun word => word.map JsText.toLower = s.map JsText.toLower

/-! ### Parsing -/

structure MultiValue where
  queryValues : List JsText
  start : Nat
  isQuoteStart : Bool
deriving DecidableEq, Repr

def validateChar (queryToken : JsText) (st : MultiValue) (idx : Nat) : MultiValue :=
  if queryToken[idx]? = some quote then
    if before queryToken idx = some backslash then st
    else if st.isQuoteStart then
      { st with isQuoteStart := false, queryValues := st.queryValues ++ [slice queryToken st.start idx] }
    else { st with isQuoteStart := true, start := idx + 1 }
  else st

/-- The quoted texts between brackets; `none` is `false`. -/
def validateMultiValue (queryToken : JsText) : Option (List JsText) :=
  if queryToken.head? = some openBracket ∧ queryToken.getLast? = some closeBracket then
    some ((List.range' 1 (queryToken.length - 2)).foldl (validateChar queryToken) ⟨[], 0, false⟩).queryValues
  else none

inductive QueryError where
  | invalidQueryPair
  | convertToFullText
deriving DecidableEq, Repr

def Token.isMultiVal (token : Token) : Bool :=
  match token.value with
  | .text op => isOneOf queryOperatorsMultiVal op
  | .list _ => false

def generateQuery (parsedRaw : List Token) (queryToken : JsText) : Except QueryError (List Token) :=
  match parsedRaw.getLast? with
  | none => .ok (parsedRaw ++ [⟨.queryKey, .text queryToken⟩])
  | some prevToken =>
    match prevToken.type with
    | .conditionalOperator => .ok (parsedRaw ++ [⟨.queryKey, .text queryToken⟩])
    | .queryKey =>
      if isOneOf (queryOperatorsMultiVal ++ queryOperatorsSingleVal) queryToken then
        .ok (parsedRaw ++ [⟨.queryOperator, .text queryToken⟩])
      else .error .invalidQueryPair
    | .queryOperator =>
      if prevToken.isMultiVal then
        match validateMultiValue queryToken with
        | some values => .ok (parsedRaw ++ [⟨.queryValue, .list values⟩])
        | none => .error .convertToFullText
      else .ok (parsedRaw ++ [⟨.queryValue, .text queryToken⟩])
    | .queryValue =>
      if isOneOf conditionalOperators queryToken then
        .ok (parsedRaw ++ [⟨.conditionalOperator, .text queryToken⟩])
      else .error .invalidQueryPair

/-- The tokens up to the first error, and that error. -/
def generateQueries (parsedRaw : List Token) : List JsText → List Token × Option QueryError
  | [] => (parsedRaw, none)
  | q :: qs =>
    match generateQuery parsedRaw q with
    | .ok parsedRaw => generateQueries parsedRaw qs
    | .error e => (parsedRaw, some e)

def fullText (queryString : JsText) : List Token :=
  [⟨.queryKey, .text (JsText.of "FULLTEXT")⟩, ⟨.queryOperator, .text (JsText.of "CONTAINS")⟩,
    ⟨.queryValue, .text queryString⟩]

def parseQuery (queryString : JsText) : List Token :=
  match generateQueries [] (splitter queryString) with
  | (_, some .convertToFullText) => fullText queryString
  | (parsedRaw, _) => parsedRaw

/-! ### Printing -/

/-- A value in single quotes. -/
def quoted (s : JsText) : JsText := quote :: s ++ [quote]

/-- `replace(/'/g, '')` -/
def withoutQuotes (s : JsText) : JsText := s.filter (· ≠ quote)

/-- Some values in brackets. -/
def bracketed (values : List JsText) : JsText :=
  openBracket :: JsText.join [comma] (values.map quoted) ++ [closeBracket]

/-- The operator before a value is `CONTAINS` or `NCONTAINS`. -/
def isStringType (lastToken : Token) : Bool :=
  lastToken.type = .queryOperator &&
    match lastToken.value with
    | .text op => op ∈ stringTypeQueryOperators
    | .list _ => false

/-- What is printed for a token; `none` where the type of no last token is read, or an array has no `replace`. -/
def printToken (lastToken : Option Token) (query : Token) : Option JsText :=
  match query.value with
  | .list (value :: values) => some (bracketed (value :: values))
  | value =>
    if query.type = .queryValue then
      match lastToken, value with
      | none, _ => none
      | some lastToken, .text s => some (if isStringType lastToken then quoted (withoutQuotes s) else s)
      | some lastToken, .list _ => if isStringType lastToken then none else some []
    else
      match value with
      | .text s => some s
      | .list _ => some []

def printTokens (queryString : JsText) (lastToken : Option Token) : List Token → Option JsText
  | [] => some queryString
  | query :: rest => do
    let printed ← printToken lastToken query
    let separated := if queryString ≠ [] then queryString ++ [blank] else queryString
    printTokens (separated ++ printed) (some query) rest

def reverseParser (parserQueryArr : List Token) : Option JsText := printTokens [] none parserQueryArr

/-! ### Splitting, character by character -/

section Scan

/-- What a character does to the part that it is in. -/
inductive Outcome where
  /-- The part ends before it. -/
  | cut
  /-- The part ends with it, and the next character is skipped. -/
  | close
  | stay (isBracketStart isQuoteStart : Bool)
deriving DecidableEq, Repr

def outcome (prev : Option UInt16) (isBracketStart isQuoteStart : Bool) (c : UInt16) : Outcome :=
  if c = blank then
    if !isBracketStart && !isQuoteStart then .cut else .stay isBracketStart isQuoteStart
  else if c = openBracket then .stay true isQuoteStart
  else if c = closeBracket then if prev ≠ some backslash then .close else .stay isBracketStart false
  else if c = quote then
    if isQuoteStart then
      if prev ≠ some backslash && !isBracketStart then .close else .stay isBracketStart isQuoteStart
    else .stay isBracketStart true
  else .stay isBracketStart isQuoteStart

/-- The part with one more character, unless that is skipped. -/
def grow (skip : Bool) (part : JsText) (c : UInt16) : JsText := if skip then part else part ++ [c]

theorem grow_false (part : JsText) (c : UInt16) : grow false part c = part ++ [c] := rfl

/-- The parts of what follows `prev`, where `part` is what there is of the first one. -/
def scan (prev : Option UInt16) (skip : Bool) (part : JsText) (isBracketStart isQuoteStart : Bool) :
    JsText → List JsText
  | [] => [part]
  | c :: s =>
    match outcome prev isBracketStart isQuoteStart c with
    | .cut => part :: scan (some c) false [] isBracketStart isQuoteStart s
    | .close => grow skip part c :: scan (some c) true [] false false s
    | .stay isBracketStart isQuoteStart => scan (some c) false (grow skip part c) isBracketStart isQuoteStart s

variable {q : JsText} {st : Splitting} {k : Nat} {c : UInt16} {skip : Bool} {part : JsText}

theorem splitChar_eq (h : q[k]? = some c) :
    splitChar q st k = match outcome (before q k) st.isBracketStart st.isQuoteStart c with
      | .cut => pushPart q k st
      | .close => { pushPart q (k + 1) st with isBracketStart := false, isQuoteStart := false }
      | .stay isBracketStart isQuoteStart =>
        { st with isBracketStart := isBracketStart, isQuoteStart := isQuoteStart } := by
  obtain ⟨parts, start, isBracketStart, isQuoteStart⟩ := st
  unfold splitChar outcome
  simp only [h, Option.some_inj]
  by_cases hblank : c = blank
  · simp only [if_pos hblank]
    cases isBracketStart <;> cases isQuoteStart <;> rfl
  · simp only [if_neg hblank]
    by_cases hopen : c = openBracket
    · simp only [if_pos hopen]
    · simp only [if_neg hopen]
      by_cases hclose : c = closeBracket
      · simp only [if_pos hclose]
        by_cases hback : before q k ≠ some backslash
        · simp only [if_pos hback]
        · simp only [if_neg hback]
      · simp only [if_neg hclose]
        by_cases hquote : c = quote
        · simp only [if_pos hquote]
          by_cases hback : before q k ≠ some backslash
          · cases isBracketStart <;> cases isQuoteStart <;> simp [hback, pushPart]
          · cases isBracketStart <;> cases isQuoteStart <;> simp [hback]
        · simp only [if_neg hquote]

/-- The part that has been read up to `k`. -/
def PartAt (q : JsText) (k : Nat) (start : Nat) (skip : Bool) (part : JsText) : Prop :=
  (skip = false ∧ start ≤ k ∧ part = slice q start k) ∨ (skip = true ∧ start = k + 1 ∧ part = [])

theorem slice_succ {start : Nat} (hstart : start ≤ k) (h : q[k]? = some c) :
    slice q start (k + 1) = slice q start k ++ [c] := by
  have hlt : k < q.length := (List.getElem?_eq_some_iff.mp h).1
  have hget : q[k] = c := (List.getElem?_eq_some_iff.mp h).2
  rw [slice, slice, List.take_succ_eq_append_getElem hlt, hget, List.drop_append_of_le_length]
  rw [List.length_take, Nat.min_eq_left hlt.le]
  exact hstart

theorem slice_self (q : JsText) (k : Nat) : slice q k k = [] := by
  rw [slice, List.drop_eq_nil_iff, List.length_take]
  exact Nat.min_le_left _ _

theorem slice_of_lt (q : JsText) (k : Nat) : slice q (k + 1) k = [] := by
  rw [slice, List.drop_eq_nil_iff, List.length_take]
  exact (Nat.min_le_left _ _).trans (Nat.le_succ k)

theorem PartAt.slice_eq {start : Nat} (h : PartAt q k start skip part) : slice q start k = part := by
  rcases h with ⟨-, -, rfl⟩ | ⟨-, rfl, rfl⟩
  · rfl
  · exact slice_of_lt q k

theorem PartAt.slice_succ_eq {start : Nat} (h : PartAt q k start skip part) (hc : q[k]? = some c) :
    slice q start (k + 1) = grow skip part c := by
  rcases h with ⟨rfl, hstart, rfl⟩ | ⟨rfl, rfl, rfl⟩
  · exact slice_succ hstart hc
  · exact slice_self q (k + 1)

theorem PartAt.grow {start : Nat} (h : PartAt q k start skip part) (hc : q[k]? = some c) :
    PartAt q (k + 1) start false (grow skip part c) := by
  refine .inl ⟨rfl, ?_, (h.slice_succ_eq hc).symm⟩
  rcases h with ⟨-, hstart, -⟩ | ⟨-, rfl, -⟩
  · exact Nat.le_succ_of_le hstart
  · exact Nat.le_refl _

theorem before_succ (h : q[k]? = some c) : before q (k + 1) = some c := by
  rw [before, if_neg (Nat.succ_ne_zero k)]
  exact h

/-- The rest of the loop, and what remains after it. -/
def finish (q : JsText) (st : Splitting) : List JsText :=
  let st := if st.start < q.length then pushPart q q.length st else st
  st.splittedParts.filter (· ≠ [])

theorem finish_eq (h : PartAt q q.length st.start skip part) :
    finish q st = (st.splittedParts ++ [part]).filter (· ≠ []) := by
  unfold finish
  by_cases hlt : st.start < q.length
  · rw [if_pos hlt, ← h.slice_eq]
    rfl
  · rw [if_neg hlt]
    have hnil : part = [] := by
      rcases h with ⟨-, hle, rfl⟩ | ⟨-, -, rfl⟩
      · rw [Nat.le_antisymm hle (Nat.not_lt.mp hlt)]
        exact slice_self q _
      · rfl
    rw [hnil, List.filter_append]
    exact (List.append_nil _).symm

theorem foldl_splitChar (n : Nat) (hn : k + n = q.length) (h : PartAt q k st.start skip part) :
    finish q ((List.range' k n).foldl (splitChar q) st) = (st.splittedParts ++
      scan (before q k) skip part st.isBracketStart st.isQuoteStart (q.drop k)).filter (· ≠ []) := by
  induction n generalizing k st skip part with
  | zero =>
    obtain rfl : k = q.length := hn
    rw [List.drop_length]
    exact finish_eq h
  | succ n ih =>
    have hlt : k < q.length := by omega
    have hc : q[k]? = some q[k] := List.getElem?_eq_getElem hlt
    rw [List.range'_succ, List.foldl_cons, splitChar_eq hc, List.drop_eq_getElem_cons hlt, scan]
    have hbefore := before_succ hc
    have hnext : k + 1 + n = q.length := by omega
    have hafter : ∀ start, start = k + 1 → PartAt q (k + 1) start false [] := by
      rintro start rfl
      exact .inl ⟨rfl, Nat.le_refl _, (slice_self q (k + 1)).symm⟩
    cases outcome (before q k) st.isBracketStart st.isQuoteStart q[k] with
    | cut =>
      refine (@ih (pushPart q k st) _ _ _ hnext (hafter _ rfl)).trans ?_
      rw [hbefore, pushPart, h.slice_eq, List.append_assoc]
      rfl
    | close =>
      have hskip : PartAt q (k + 1) (k + 2) true [] := .inr ⟨rfl, rfl, rfl⟩
      refine (@ih { pushPart q (k + 1) st with isBracketStart := false, isQuoteStart := false } _ _ _ hnext
        hskip).trans ?_
      rw [hbefore, pushPart, h.slice_succ_eq hc, List.append_assoc]
      rfl
    | stay isBracketStart isQuoteStart =>
      refine (@ih { st with isBracketStart := isBracketStart, isQuoteStart := isQuoteStart } _ _ _ hnext
        (h.grow hc)).trans ?_
      rw [hbefore]

/-- **The parts of a query**, character by character. -/
theorem splitter_eq (q : JsText) : splitter q = (scan none false [] false false q).filter (· ≠ []) := by
  have hstart : PartAt q 0 0 false [] := .inl ⟨rfl, Nat.le_refl 0, rfl⟩
  have h := @foldl_splitChar q ⟨[], 0, false, false⟩ _ _ _ q.length (Nat.zero_add _) hstart
  rw [← List.range_eq_range'] at h
  exact h

end Scan

/-! ### Texts that are one part -/

section Reading

/-- How far a text is one part, from some state of the splitter on. -/
inductive Reading where
  /-- It ends a part. -/
  | closed
  /-- No part ends in it. -/
  | pending (isBracketStart isQuoteStart : Bool)
  /-- A part ends before it does. -/
  | broken
deriving DecidableEq, Repr

def reading (prev : Option UInt16) (isBracketStart isQuoteStart : Bool) : JsText → Reading
  | [] => .pending isBracketStart isQuoteStart
  | c :: s =>
    match outcome prev isBracketStart isQuoteStart c with
    | .cut => .broken
    | .close => if s = [] then .closed else .broken
    | .stay isBracketStart isQuoteStart => reading (some c) isBracketStart isQuoteStart s

/-- A text that is one part, whatever follows after a blank: its quotes and brackets are closed. -/
def Stands (s : JsText) : Prop :=
  s ≠ [] ∧ (reading none false false s = .closed ∨ reading none false false s = .pending false false)

/-- A text that is one part at the end of a query. -/
def Ends (s : JsText) : Prop := s ≠ [] ∧ reading none false false s ≠ .broken

instance (s : JsText) : Decidable (Stands s) := by unfold Stands; infer_instance

instance (s : JsText) : Decidable (Ends s) := by unfold Ends; infer_instance

theorem Stands.ends {s : JsText} (h : Stands s) : Ends s := by
  refine ⟨h.1, fun hbroken => ?_⟩
  rcases h.2 with hread | hread
  · rw [hbroken] at hread
    cases hread
  · rw [hbroken] at hread
    cases hread

/-- The last character, or the one before the text. -/
def lastOf (prev : Option UInt16) : JsText → Option UInt16
  | [] => prev
  | c :: s => lastOf (some c) s

theorem lastOf_append (prev : Option UInt16) (s t : JsText) : lastOf prev (s ++ t) = lastOf (lastOf prev s) t := by
  induction s generalizing prev with
  | nil => rfl
  | cons c s ih => exact ih (some c)

variable {prev : Option UInt16} {part r s : JsText} {isBracketStart isQuoteStart b d : Bool}

theorem scan_of_pending (h : reading prev isBracketStart isQuoteStart r = .pending b d) (s : JsText) :
    scan prev false part isBracketStart isQuoteStart (r ++ s) = scan (lastOf prev r) false (part ++ r) b d s := by
  induction r generalizing prev part isBracketStart isQuoteStart with
  | nil =>
    obtain ⟨rfl, rfl⟩ := Reading.pending.inj h
    rw [List.append_nil]
    rfl
  | cons c r ih =>
    rw [reading] at h
    rw [List.cons_append, scan, lastOf]
    split at h
    · cases h
    · split at h <;> cases h
    · refine (ih h).trans ?_
      rw [grow_false, List.append_assoc]
      rfl

theorem scan_of_closed (h : reading prev isBracketStart isQuoteStart r = .closed) (s : JsText) :
    scan prev false part isBracketStart isQuoteStart (r ++ s) =
      (part ++ r) :: scan (lastOf prev r) true [] false false s := by
  induction r generalizing prev part isBracketStart isQuoteStart with
  | nil => cases h
  | cons c r ih =>
    rw [reading] at h
    rw [List.cons_append, scan, lastOf]
    split at h
    · cases h
    · split at h
      · rename_i hnil
        rw [hnil]
        rfl
      · cases h
    · refine (ih h).trans ?_
      rw [grow_false, List.append_assoc]
      rfl

/-- Only a backslash before the first character matters. -/
theorem outcome_congr {prev prev' : Option UInt16} (h : prev ≠ some backslash) (h' : prev' ≠ some backslash)
    (c : UInt16) : outcome prev isBracketStart isQuoteStart c = outcome prev' isBracketStart isQuoteStart c := by
  simp [outcome, h, h']

theorem scan_congr {prev prev' : Option UInt16} (h : prev ≠ some backslash) (h' : prev' ≠ some backslash)
    {skip : Bool} (s : JsText) : scan prev skip part isBracketStart isQuoteStart s =
      scan prev' skip part isBracketStart isQuoteStart s := by
  cases s with
  | nil => rfl
  | cons c s => rw [scan, scan, outcome_congr h h']

theorem scan_blank (prev : Option UInt16) (skip : Bool) (part s : JsText) :
    scan prev skip part false false (blank :: s) = part :: scan none false [] false false s := by
  have hcut : outcome prev false false blank = .cut := rfl
  rw [scan, hcut]
  exact congrArg (part :: ·) (scan_congr (by decide) (by decide) s)

/-- **A text that stands alone is the first part.** -/
theorem splitter_of_stands (h : Stands r) (s : JsText) : splitter (r ++ blank :: s) = r :: splitter s := by
  rw [splitter_eq, splitter_eq]
  rcases h.2 with hread | hread
  · rw [scan_of_closed hread, scan_blank, List.filter_cons_of_pos (by simpa using h.1),
      List.filter_cons_of_neg (by simp)]
    rfl
  · rw [scan_of_pending hread, scan_blank, List.filter_cons_of_pos (by simpa using h.1)]
    rfl

/-- **A text that ends a query is its only part.** -/
theorem splitter_of_ends (h : Ends r) : splitter r = [r] := by
  rw [splitter_eq, ← List.append_nil r]
  cases hread : reading none false false r with
  | broken => exact absurd hread h.2
  | closed =>
    rw [scan_of_closed hread, scan, List.filter_cons_of_pos (by simpa using h.1)]
    simp
  | pending b d =>
    rw [scan_of_pending hread, scan, List.filter_cons_of_pos (by simpa using h.1)]
    simp

/-- A text without blanks, quotes and brackets stands alone. -/
theorem stands_of_plain (hne : r ≠ []) (h : ∀ c ∈ r, c ∉ [blank, quote, openBracket, closeBracket]) :
    Stands r := by
  refine ⟨hne, .inr ?_⟩
  suffices hread : ∀ prev, reading prev false false r = .pending false false from hread none
  clear hne
  induction r with
  | nil => exact fun _ => rfl
  | cons c r ih =>
    obtain ⟨hc, hr⟩ := List.forall_mem_cons.mp h
    simp only [List.mem_cons, List.not_mem_nil, or_false, not_or] at hc
    intro prev
    have hstay : outcome prev false false c = .stay false false := by
      simp [outcome, hc.1, hc.2.1, hc.2.2.1, hc.2.2.2]
    rw [reading, hstay]
    exact ih hr (some c)

/-- The operators and connectives are such texts. -/
theorem stands_of_isOneOf {words : List JsText} (hwords : words ⊆ queryOperatorsMultiVal ++
      queryOperatorsSingleVal ++ conditionalOperators) (h : isOneOf words r = true) : Stands r := by
  obtain ⟨word, hword, heq⟩ := List.any_eq_true.mp h
  have heq : word.map JsText.toLower = r.map JsText.toLower := of_decide_eq_true heq
  have hletters : (queryOperatorsMultiVal ++ queryOperatorsSingleVal ++ conditionalOperators).all (fun word =>
      !word.isEmpty && word.all fun c =>
        !(List.contains [blank, quote, openBracket, closeBracket] (JsText.toLower c))) = true := by decide +kernel
  have hletters := List.all_eq_true.mp hletters word (hwords hword)
  obtain ⟨hne, hword⟩ : word ≠ [] ∧
      ∀ c ∈ word, JsText.toLower c ∉ [blank, quote, openBracket, closeBracket] := by
    simpa using hletters
  refine stands_of_plain ?_ fun c hc hmem => ?_
  · rintro rfl
    exact hne (List.map_eq_nil_iff.mp heq)
  · have hlower : [blank, quote, openBracket, closeBracket].all (fun c => JsText.toLower c == c) = true := by
      decide +kernel
    have hin : JsText.toLower c ∈ word.map JsText.toLower := heq ▸ List.mem_map_of_mem hc
    obtain ⟨d, hd, hcd⟩ := List.mem_map.mp hin
    refine hword d hd ?_
    rw [hcd, of_decide_eq_true (List.all_eq_true.mp hlower c hmem)]
    exact hmem

end Reading

/-! ### Brackets and quotes after a backslash -/

section Escaped

/-- Closing brackets come after a backslash. -/
def bracketsEscaped (prev : Option UInt16) : JsText → Bool
  | [] => true
  | c :: s => (c ≠ closeBracket || prev = some backslash) && bracketsEscaped (some c) s

/-- Quotes come after a backslash. -/
def quotesEscaped (prev : Option UInt16) : JsText → Bool
  | [] => true
  | c :: s => (c ≠ quote || prev = some backslash) && quotesEscaped (some c) s

variable {prev : Option UInt16} {s t : JsText}

theorem bracketsEscaped_append : bracketsEscaped prev (s ++ t) =
    (bracketsEscaped prev s && bracketsEscaped (lastOf prev s) t) := by
  induction s generalizing prev with
  | nil => rfl
  | cons c s ih => rw [List.cons_append, bracketsEscaped, bracketsEscaped, ih, Bool.and_assoc]; rfl

theorem quotesEscaped_append : quotesEscaped prev (s ++ t) =
    (quotesEscaped prev s && quotesEscaped (lastOf prev s) t) := by
  induction s generalizing prev with
  | nil => rfl
  | cons c s ih => rw [List.cons_append, quotesEscaped, quotesEscaped, ih, Bool.and_assoc]; rfl

/-- Within brackets nothing ends a part but a bracket that is not after a backslash. -/
theorem reading_bracketed (h : bracketsEscaped prev s = true) (hlast : lastOf prev s ≠ some backslash)
    (isQuoteStart : Bool) : reading prev true isQuoteStart (s ++ [closeBracket]) = .closed := by
  induction s generalizing prev isQuoteStart with
  | nil =>
    have hclose : outcome prev true isQuoteStart closeBracket = .close := if_pos hlast
    rw [List.nil_append, reading, hclose]
    rfl
  | cons c s ih =>
    rw [bracketsEscaped, Bool.and_eq_true] at h
    have hstay : ∃ isQuoteStart', outcome prev true isQuoteStart c = .stay true isQuoteStart' := by
      unfold outcome
      by_cases hblank : c = blank
      · exact ⟨isQuoteStart, by rw [if_pos hblank]; rfl⟩
      · rw [if_neg hblank]
        by_cases hopen : c = openBracket
        · exact ⟨isQuoteStart, by rw [if_pos hopen]⟩
        · rw [if_neg hopen]
          by_cases hclose : c = closeBracket
          · have hprev : prev = some backslash := by simpa [hclose] using h.1
            exact ⟨false, by rw [if_pos hclose, if_neg (not_not_intro hprev)]⟩
          · rw [if_neg hclose]
            by_cases hquote : c = quote
            · refine ⟨true, ?_⟩
              rw [if_pos hquote]
              cases isQuoteStart
              · rfl
              · simp
            · exact ⟨isQuoteStart, by rw [if_neg hquote]⟩
    obtain ⟨isQuoteStart', houtcome⟩ := hstay
    rw [List.cons_append, reading, houtcome]
    exact ih h.2 hlast isQuoteStart'

/-- A part whose closing brackets, but its last character, come after a backslash. -/
def Plain : JsText → Prop
  | [] => True
  | c :: s => bracketsEscaped (some c) s.dropLast = true

/-- A part that has been begun, and the character that it ends with. -/
def Begun (prev : Option UInt16) : JsText → Prop
  | [] => True
  | c :: s => bracketsEscaped (some c) s = true ∧ lastOf (some c) s = prev

theorem Begun.plain (h : Begun prev s) : Plain s := by
  cases s with
  | nil => trivial
  | cons c s =>
    show bracketsEscaped (some c) s.dropLast = true
    rcases List.eq_nil_or_concat' s with rfl | ⟨init, last, rfl⟩
    · rfl
    · have hescaped := h.1
      rw [bracketsEscaped_append, Bool.and_eq_true] at hescaped
      rw [List.dropLast_concat]
      exact hescaped.1

theorem Begun.plain_grow (h : Begun prev s) (skip : Bool) (c : UInt16) : Plain (grow skip s c) := by
  cases skip with
  | true => exact h.plain
  | false =>
    cases s with
    | nil => rfl
    | cons d s =>
      show bracketsEscaped (some d) (s ++ [c]).dropLast = true
      rw [List.dropLast_concat]
      exact h.1

theorem Begun.grow {skip : Bool} (h : Begun prev s) (hskip : skip = true → s = []) {c : UInt16}
    (hc : c = closeBracket → prev = some backslash) : Begun (some c) (grow skip s c) := by
  cases skip with
  | true => rw [hskip rfl]; trivial
  | false =>
    cases s with
    | nil => exact ⟨rfl, rfl⟩
    | cons d s =>
      refine ⟨?_, lastOf_append _ _ _⟩
      show bracketsEscaped (some d) (s ++ [c]) = true
      rw [bracketsEscaped_append, h.1, h.2, Bool.true_and, bracketsEscaped, Bool.and_eq_true]
      refine ⟨?_, rfl⟩
      by_cases hclose : c = closeBracket
      · simp [hc hclose]
      · simp [hclose]

theorem plain_of_mem_scan {skip isBracketStart isQuoteStart : Bool} {part p : JsText} (h : Begun prev part)
    (hskip : skip = true → part = []) (hp : p ∈ scan prev skip part isBracketStart isQuoteStart s) : Plain p := by
  induction s generalizing prev skip part isBracketStart isQuoteStart with
  | nil => exact List.mem_singleton.mp hp ▸ h.plain
  | cons c s ih =>
    rw [scan] at hp
    split at hp
    · rcases List.mem_cons.mp hp with rfl | hp
      · exact h.plain
      · exact ih (show Begun (some c) [] from trivial) (fun hc => absurd hc Bool.false_ne_true) hp
    · rcases List.mem_cons.mp hp with rfl | hp
      · exact h.plain_grow skip c
      · exact ih (show Begun (some c) [] from trivial) (fun _ => rfl) hp
    · rename_i houtcome
      refine ih (h.grow hskip fun hclose => ?_) (fun hc => absurd hc Bool.false_ne_true) hp
      by_contra hprev
      rw [hclose] at houtcome
      have hcut : outcome prev isBracketStart isQuoteStart closeBracket = .close := if_pos hprev
      rw [hcut] at houtcome
      cases houtcome

theorem plain_of_mem_splitter {q p : JsText} (hp : p ∈ splitter q) : Plain p := by
  rw [splitter_eq] at hp
  exact plain_of_mem_scan (show Begun none [] from trivial) (fun h => absurd h Bool.false_ne_true)
    (List.mem_of_mem_filter hp)

end Escaped

/-! ### Values in brackets -/

section Values

/-- A text between quotes that do not come after a backslash. -/
structure IsValue (v : JsText) : Prop where
  quotes : quotesEscaped (some quote) v = true
  brackets : bracketsEscaped (some quote) v = true
  last : lastOf (some quote) v ≠ some backslash

/-- The quoted texts of what follows `prev`, where `value` is what there is of the first one. -/
def scanValues (prev : Option UInt16) (isQuoteStart : Bool) (value : JsText) : JsText → List JsText
  | [] => []
  | c :: s =>
    if c = quote then
      if prev = some backslash then scanValues (some c) isQuoteStart (value ++ [c]) s
      else if isQuoteStart then value :: scanValues (some c) false [] s
      else scanValues (some c) true [] s
    else scanValues (some c) isQuoteStart (value ++ [c]) s

variable {prev : Option UInt16} {q s v value : JsText} {vs : List JsText} {st : MultiValue} {k : Nat}

/-- The loop over the characters between the brackets. -/
theorem foldl_validateChar (n : Nat) (hn : k + n + 1 = q.length)
    (h : st.isQuoteStart = true → st.start ≤ k ∧ value = slice q st.start k) :
    ((List.range' k n).foldl (validateChar q) st).queryValues =
      st.queryValues ++ scanValues (before q k) st.isQuoteStart value (q.drop k).dropLast := by
  induction n generalizing k st value with
  | zero =>
    have hlength : (q.drop k).dropLast = [] := by
      refine List.length_eq_zero_iff.mp ?_
      rw [List.length_dropLast, List.length_drop]
      omega
    rw [hlength]
    exact (List.append_nil _).symm
  | succ n ih =>
    have hlt : k < q.length := by omega
    have hc : q[k]? = some q[k] := List.getElem?_eq_getElem hlt
    have hne : q.drop (k + 1) ≠ [] := by
      intro hnil
      have hlength := congrArg List.length hnil
      rw [List.length_drop, List.length_nil] at hlength
      omega
    have hnext : k + 1 + n + 1 = q.length := by omega
    have hgrow : st.isQuoteStart = true → st.start ≤ k + 1 ∧ value ++ [q[k]] = slice q st.start (k + 1) := by
      intro hquote
      obtain ⟨hstart, rfl⟩ := h hquote
      exact ⟨Nat.le_succ_of_le hstart, (slice_succ hstart hc).symm⟩
    rw [List.range'_succ, List.foldl_cons, List.drop_eq_getElem_cons hlt, List.dropLast_cons_of_ne_nil hne,
      scanValues, validateChar]
    have hiff : q[k]? = some quote ↔ q[k] = quote := by rw [hc, Option.some_inj]
    by_cases hquote : q[k] = quote
    · rw [if_pos (hiff.mpr hquote), if_pos hquote]
      by_cases hback : before q k = some backslash
      · rw [if_pos hback, if_pos hback, ih hnext hgrow, before_succ hc]
      · rw [if_neg hback, if_neg hback]
        by_cases hopen : st.isQuoteStart = true
        · rw [if_pos hopen, if_pos hopen]
          refine (@ih [] _ _ hnext fun hc => absurd hc Bool.false_ne_true).trans ?_
          rw [before_succ hc, (h hopen).2, List.append_assoc]
          rfl
        · rw [if_neg hopen, if_neg hopen]
          refine (ih hnext fun _ => ⟨Nat.le_refl _, (slice_self q (k + 1)).symm⟩).trans ?_
          rw [before_succ hc]
    · rw [if_neg (mt hiff.mp hquote), if_neg hquote, ih hnext hgrow, before_succ hc]

/-- **The values of a text in brackets**, character by character. -/
theorem validateMultiValue_brackets (s : JsText) :
    validateMultiValue (openBracket :: s ++ [closeBracket]) = some (scanValues (some openBracket) false [] s) := by
  have hends : (openBracket :: s ++ [closeBracket]).head? = some openBracket ∧
      (openBracket :: s ++ [closeBracket]).getLast? = some closeBracket := ⟨rfl, List.getLast?_concat⟩
  have hlength : 1 + ((openBracket :: s ++ [closeBracket]).length - 2) + 1 =
      (openBracket :: s ++ [closeBracket]).length := by
    simp only [List.length_append, List.length_cons, List.length_nil]
    omega
  rw [validateMultiValue, if_pos hends,
    @foldl_validateChar _ [] _ 1 _ hlength fun hc => absurd hc Bool.false_ne_true]
  refine congrArg some ?_
  have hinner : ((openBracket :: s ++ [closeBracket]).drop 1).dropLast = s := List.dropLast_concat
  rw [hinner]
  rfl

/-- The values of a part without other closing brackets. -/
theorem isValue_of_mem_scanValues {isQuoteStart : Bool} (hs : bracketsEscaped prev s = true)
    (hvalue : isQuoteStart = true → quotesEscaped (some quote) value = true ∧
      bracketsEscaped (some quote) value = true ∧ lastOf (some quote) value = prev)
    (hv : v ∈ scanValues prev isQuoteStart value s) : IsValue v := by
  induction s generalizing prev isQuoteStart value with
  | nil => cases hv
  | cons c s ih =>
    rw [bracketsEscaped, Bool.and_eq_true] at hs
    have hgrow : (c = quote → prev = some backslash) → isQuoteStart = true →
        quotesEscaped (some quote) (value ++ [c]) = true ∧
          bracketsEscaped (some quote) (value ++ [c]) = true ∧ lastOf (some quote) (value ++ [c]) = some c := by
      intro hc hquote
      obtain ⟨hquotes, hbrackets, hlast⟩ := hvalue hquote
      refine ⟨?_, ?_, lastOf_append _ _ _⟩
      · rw [quotesEscaped_append, hquotes, hlast, Bool.true_and, quotesEscaped, Bool.and_eq_true]
        refine ⟨?_, rfl⟩
        by_cases heq : c = quote
        · simp [hc heq]
        · simp [heq]
      · rw [bracketsEscaped_append, hbrackets, hlast, Bool.true_and, bracketsEscaped, Bool.and_eq_true]
        exact ⟨hs.1, rfl⟩
    rw [scanValues] at hv
    split at hv
    · rename_i hquote
      split at hv
      · rename_i hback
        exact ih hs.2 (hgrow fun _ => hback) hv
      · rename_i hback
        split at hv
        · rename_i hopen
          rcases List.mem_cons.mp hv with rfl | hv
          · obtain ⟨hquotes, hbrackets, hlast⟩ := hvalue hopen
            exact ⟨hquotes, hbrackets, hlast ▸ hback⟩
          · exact ih hs.2 (fun hc => absurd hc Bool.false_ne_true) hv
        · exact ih hs.2 (fun _ => ⟨rfl, rfl, by rw [hquote]; rfl⟩) hv
    · rename_i hquote
      exact ih hs.2 (hgrow fun hc => absurd hc hquote) hv

/-- A value that is read back. -/
theorem scanValues_value (h : quotesEscaped prev v = true) (s : JsText) :
    scanValues prev true value (v ++ s) = scanValues (lastOf prev v) true (value ++ v) s := by
  induction v generalizing prev value with
  | nil => rw [List.append_nil]; rfl
  | cons c v ih =>
    rw [quotesEscaped, Bool.and_eq_true] at h
    have hstep : scanValues prev true value (c :: (v ++ s)) =
        scanValues (some c) true (value ++ [c]) (v ++ s) := by
      rw [scanValues]
      by_cases hquote : c = quote
      · rw [if_pos hquote, if_pos (by simpa [hquote] using h.1)]
      · rw [if_neg hquote]
    rw [List.cons_append, hstep, ih h.2, List.append_assoc]
    rfl

theorem scanValues_quoted (hv : IsValue v) (hprev : prev ≠ some backslash) (s : JsText) :
    scanValues prev false value (quoted v ++ s) = v :: scanValues (some quote) false [] s := by
  have hstart : scanValues prev false value (quote :: (v ++ quote :: s)) =
      scanValues (some quote) true [] (v ++ quote :: s) := by
    rw [scanValues, if_pos rfl, if_neg hprev]
    rfl
  have hquoted : quoted v ++ s = quote :: (v ++ quote :: s) := by simp [quoted]
  rw [hquoted, hstart, scanValues_value hv.quotes, scanValues, if_pos rfl, if_neg hv.last, if_pos rfl]
  rfl

/-- The characters between the brackets that are printed. -/
theorem scanValues_join (hvs : ∀ v ∈ vs, IsValue v) (hprev : prev ≠ some backslash) :
    scanValues prev false value (JsText.join [comma] (vs.map quoted)) = vs := by
  induction vs generalizing prev value with
  | nil => rfl
  | cons v vs ih =>
    obtain ⟨hv, hvs⟩ := List.forall_mem_cons.mp hvs
    cases vs with
    | nil =>
      have h : scanValues prev false value (quoted v ++ []) = v :: scanValues (some quote) false [] [] :=
        scanValues_quoted hv hprev []
      rw [List.append_nil] at h
      exact h
    | cons w vs =>
      have hjoin : JsText.join [comma] ((v :: w :: vs).map quoted) =
          quoted v ++ comma :: JsText.join [comma] ((w :: vs).map quoted) := by
        rw [List.map_cons, List.map_cons, JsText.join, List.append_assoc]
        rfl
      have hcomma : ∀ s, scanValues (some quote) false [] (comma :: s) = scanValues (some comma) false [comma] s :=
        fun s => if_neg (by decide)
      rw [hjoin, scanValues_quoted hv hprev, hcomma, ih hvs (by decide)]

theorem bracketsEscaped_join (hvs : ∀ v ∈ vs, IsValue v) (hprev : prev ≠ some backslash) :
    bracketsEscaped prev (JsText.join [comma] (vs.map quoted)) = true ∧
      lastOf prev (JsText.join [comma] (vs.map quoted)) ≠ some backslash := by
  have hquoted : ∀ {prev : Option UInt16} {v : JsText}, IsValue v → bracketsEscaped prev (quoted v) = true ∧
      lastOf prev (quoted v) = some quote := by
    intro prev v hv
    have hsplit : quoted v = quote :: (v ++ [quote]) := rfl
    refine ⟨?_, lastOf_append _ _ _⟩
    rw [hsplit, bracketsEscaped, bracketsEscaped_append, hv.brackets]
    rfl
  induction vs generalizing prev with
  | nil => exact ⟨rfl, hprev⟩
  | cons v vs ih =>
    obtain ⟨hv, hvs⟩ := List.forall_mem_cons.mp hvs
    cases vs with
    | nil =>
      refine ⟨(hquoted hv).1, ?_⟩
      have hlast : lastOf prev (quoted v) = some quote := (hquoted hv).2
      exact fun hc => absurd (hlast.symm.trans hc) (by decide)
    | cons w vs =>
      have hjoin : JsText.join [comma] ((v :: w :: vs).map quoted) =
          quoted v ++ comma :: JsText.join [comma] ((w :: vs).map quoted) := by
        rw [List.map_cons, List.map_cons, JsText.join, List.append_assoc]
        rfl
      obtain ⟨hbrackets, hlast⟩ := @ih (some comma) hvs (by decide)
      rw [hjoin, bracketsEscaped_append, lastOf_append, (hquoted hv).1, (hquoted hv).2]
      exact ⟨hbrackets, hlast⟩

/-- **Values that are printed are read back.** -/
theorem validateMultiValue_bracketed (hvs : ∀ v ∈ vs, IsValue v) :
    validateMultiValue (bracketed vs) = some vs := by
  rw [bracketed, validateMultiValue_brackets, scanValues_join hvs (by decide)]

theorem stands_bracketed (hvs : ∀ v ∈ vs, IsValue v) : Stands (bracketed vs) := by
  obtain ⟨hbrackets, hlast⟩ := @bracketsEscaped_join (some openBracket) _ hvs (by decide)
  have hopen : reading none false false (bracketed vs) =
      reading (some openBracket) true false (JsText.join [comma] (vs.map quoted) ++ [closeBracket]) := rfl
  exact ⟨List.cons_ne_nil _ _, .inl (hopen.trans (reading_bracketed hbrackets hlast false))⟩

/-- **The values of a part** are quoted texts. -/
theorem isValue_of_validateMultiValue (hq : Plain q) (h : validateMultiValue q = some vs) :
    ∀ v ∈ vs, IsValue v := by
  have hends : q.head? = some openBracket ∧ q.getLast? = some closeBracket := by
    by_contra hc
    rw [validateMultiValue, if_neg hc] at h
    cases h
  obtain ⟨t, rfl⟩ := List.head?_eq_some_iff.mp hends.1
  rcases List.eq_nil_or_concat' t with rfl | ⟨s, c, rfl⟩
  · exact absurd (Option.some.inj hends.2) (by decide)
  · have hlast : (openBracket :: s ++ [c]).getLast? = some closeBracket := hends.2
    rw [List.getLast?_concat, Option.some_inj] at hlast
    subst hlast
    have hvalues : validateMultiValue (openBracket :: s ++ [closeBracket]) = some vs := h
    rw [validateMultiValue_brackets, Option.some_inj] at hvalues
    have hplain : bracketsEscaped (some openBracket) (s ++ [closeBracket]).dropLast = true := hq
    rw [List.dropLast_concat] at hplain
    intro v hv
    exact @isValue_of_mem_scanValues _ _ _ _ false hplain
      (fun hc => absurd hc Bool.false_ne_true) (hvalues ▸ hv)

end Values

end LogQL

end Frontend
