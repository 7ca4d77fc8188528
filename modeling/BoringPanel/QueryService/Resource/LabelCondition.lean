import BoringPanel.Lib.ClickHouse
import BoringPanel.Lib.JsonText
import BoringPanel.QueryService.Resource.QueryBuilder

/-!
# Conditions on resource labels

What the conditions of the resource sub-query say about the labels of a row. The builders write
texts; `LabelCondition` is what they write, `toSql` the text, and `Holds` its meaning for a row whose
column `labels` is the JSON text of a label map.

* `buildResourceFilter_eq_toSql`, `buildResourceIndexFilter_eq_toSql`: the texts of the builders.
-/

namespace QueryService.Resource

open Utils

/-! ### Conditions -/

/-- The right-hand side of a comparison. -/
inductive Literal where
  | string (s : String)
  | array (ss : List String)
  /-- numbers and booleans -/
  | other (text : String)
deriving DecidableEq, Repr

def Literal.toSql : Literal → String
  | .string s => quoted s
  | .array ss => "[" ++ Go.join "," (ss.map quoted) ++ "]"
  | .other text => text

inductive Comparison where
  | eq
  | ne
  | lt
  | le
  | gt
  | ge
  | in
  | notIn
deriving DecidableEq, Repr

def Comparison.toSql : Comparison → String
  | .eq => "="
  | .ne => "!="
  | .lt => "<"
  | .le => "<="
  | .gt => ">"
  | .ge => ">="
  | .in => "IN"
  | .notIn => "NOT IN"

/-- A condition on the column `labels`. The text of a `LIKE` pattern is the body of its literal. -/
inductive LabelCondition where
  /-- `simpleJSONHas(labels, 'key')` -/
  | has (negated : Bool) (key : String)
  /-- `match(simpleJSONExtractString(labels, 'key'), rhs)` -/
  | regex (negated : Bool) (key : String) (rhs : Literal)
  /-- `simpleJSONExtractString(labels, 'key') c rhs` -/
  | compare (c : Comparison) (key : String) (rhs : Literal)
  /-- `simpleJSONExtractString(lower(labels), 'key') LIKE 'body'` -/
  | valueLike (negated : Bool) (key body : String)
  /-- `labels like 'body'` -/
  | labelsLike (negated : Bool) (body : String)
  /-- `lower(labels) like 'body'` -/
  | lowerLike (negated : Bool) (body : String)
  /-- `(labels like 'body' OR ...)`, `(labels not like 'body' AND ...)` -/
  | labelsLikes (negated : Bool) (bodies : List String)
  /-- `(simpleJSONHas(labels, 'key') AND labels like '%key%')` -/
  | presence (key : String)

def LabelCondition.toSql : LabelCondition → String
  | .has negated key =>
    (if negated then "not " else "") ++ "simpleJSONHas(labels, '" ++ key ++ "')"
  | .regex negated key rhs =>
    (if negated then "NOT " else "") ++ "match(simpleJSONExtractString(labels, '" ++ key ++ "'), " ++
      rhs.toSql ++ ")"
  | .compare c key rhs =>
    "simpleJSONExtractString(labels, '" ++ key ++ "') " ++ c.toSql ++ " " ++ rhs.toSql
  | .valueLike negated key body =>
    "simpleJSONExtractString(lower(labels), '" ++ key ++ "') " ++
      (if negated then "NOT LIKE" else "LIKE") ++ " '" ++ body ++ "'"
  | .labelsLike negated body =>
    "labels " ++ (if negated then "not like" else "like") ++ " '" ++ body ++ "'"
  | .lowerLike negated body =>
    "lower(labels) " ++ (if negated then "not like" else "like") ++ " '" ++ body ++ "'"
  | .labelsLikes negated bodies =>
    "(" ++ Go.join (if negated then " AND " else " OR ") (bodies.map fun body =>
      "labels " ++ (if negated then "not like" else "like") ++ " '" ++ body ++ "'") ++ ")"
  | .presence key =>
    "(" ++ "simpleJSONHas(labels, '" ++ key ++ "')" ++ " AND " ++ "labels like '%" ++ key ++ "%')"

/-- The server, and how the labels came into the column: the JSON writer, the functions on JSON
texts, `match`, and what a comparison of a text with a number gives. -/
structure Server where
  writer : JsonWriter
  json : JsonSearch writer
  regex : List Char → List Char → Bool
  other : Comparison → List Char → String → Bool

/-- The members of a label map. -/
def members (row : Go.Map String) : List (List Char × List Char) :=
  row.entries.map fun e => (e.1.toList, e.2.toList)

namespace Server

variable (S : Server)

/-- The column `labels`. -/
def labels (row : Go.Map String) : List Char := S.writer.objectText (members row)

/-- `lower(labels)`. -/
def lowerLabels (row : Go.Map String) : List Char := (S.labels row).map Char.toLower

/-- A comparison of a text. With a list only `IN` and `NOT IN` compare; other comparisons with a list
are refused, so that no row is returned. -/
def Compares (text : List Char) : Comparison → Literal → Prop
  | .eq, .string s => text = s.toList
  | .ne, .string s => text ≠ s.toList
  | .lt, .string s => text < s.toList
  | .le, .string s => text < s.toList ∨ text = s.toList
  | .gt, .string s => s.toList < text
  | .ge, .string s => s.toList < text ∨ text = s.toList
  | .in, .string s => text = s.toList
  | .notIn, .string s => text ≠ s.toList
  | .in, .array ss => ∃ s ∈ ss, text = s.toList
  | .notIn, .array ss => ∀ s ∈ ss, text ≠ s.toList
  | _, .array _ => False
  | c, .other rhs => S.other c text rhs

/-- A condition, or its negation. -/
def signed (negated : Bool) (p : Prop) : Prop := if negated then ¬ p else p

/-- **The row satisfies the condition.** -/
def Holds (row : Go.Map String) : LabelCondition → Prop
  | .has negated key => signed negated (S.json.has (S.labels row) (ClickHouse.unescape key.toList))
  | .regex negated key rhs =>
    match rhs with
    | .string s => signed negated
        (S.regex (S.json.extract (S.labels row) (ClickHouse.unescape key.toList)) s.toList)
    | _ => False
  | .compare c key rhs =>
    S.Compares (S.json.extract (S.labels row) (ClickHouse.unescape key.toList)) c rhs
  | .valueLike negated key body =>
    signed negated (ClickHouse.like
      (S.json.extract (S.lowerLabels row) (ClickHouse.unescape key.toList)) body.toList)
  | .labelsLike negated body => signed negated (ClickHouse.like (S.labels row) body.toList)
  | .lowerLike negated body => signed negated (ClickHouse.like (S.lowerLabels row) body.toList)
  | .labelsLikes negated bodies =>
    signed negated (∃ body ∈ bodies, ClickHouse.like (S.labels row) body.toList)
  | .presence key => S.json.has (S.labels row) (ClickHouse.unescape key.toList) ∧
    ClickHouse.like (S.labels row) ("%" ++ key ++ "%").toList

end Server

/-! ### What the builders write -/

variable {F : Type} [GoFloat F]

/-- The literal that `ClickHouseFormattedValue` writes. -/
def toLiteral : GoValue F → Literal
  | .string s => .string s
  | .array vs =>
    match strings? vs with
    | some ss => .array ss
    | none => .other ((clickHouseFormattedValue (.array vs)).getD "")
  | v => .other ((clickHouseFormattedValue v).getD "")

theorem toSql_toLiteral {value : GoValue F} {chFmtVal : String}
    (h : clickHouseFormattedValue value = some chFmtVal) : (toLiteral value).toSql = chFmtVal := by
  cases value with
  | string s => exact Option.some.inj h
  | array vs =>
    rw [toLiteral]
    cases hvs : strings? vs with
    | none =>
      simp only [Literal.toSql, h, Option.getD_some]
    | some ss =>
      cases vs with
      | nil =>
        cases hvs
        exact Option.some.inj h
      | cons v vs =>
        cases v with
        | string s =>
          obtain ⟨ss', hss', rfl⟩ := Option.map_eq_some_iff.mp hvs
          rw [clickHouseFormattedValue, hss'] at h
          exact Option.some.inj h
        | _ => cases hvs
  | nil => simp only [toLiteral, h, Literal.toSql, Option.getD_some]
  | bool b => simp only [toLiteral, h, Literal.toSql, Option.getD_some]
  | int n => simp only [toLiteral, h, Literal.toSql, Option.getD_some]
  | float x => simp only [toLiteral, h, Literal.toSql, Option.getD_some]
  | object es => simp only [toLiteral, h, Literal.toSql, Option.getD_some]

variable [Go.Unicode]

/-- The exact condition of an item; `none` for an operator that resources do not have. -/
def filterCondition (key : String) (op : FilterOperator) (value : GoValue F) :
    Option LabelCondition :=
  let rhs := toLiteral value
  let lowerValue := Go.toLower (value.formatS false)
  let containsBody := "%" ++ quoteEscapedStringForContains lowerValue false ++ "%"
  let likeBody := quoteEscapedString lowerValue
  match op with
  | .equal => some (.compare .eq key rhs)
  | .notEqual => some (.compare .ne key rhs)
  | .lessThan => some (.compare .lt key rhs)
  | .lessThanOrEq => some (.compare .le key rhs)
  | .greaterThan => some (.compare .gt key rhs)
  | .greaterThanOrEq => some (.compare .ge key rhs)
  | .in => some (.compare .in key rhs)
  | .notIn => some (.compare .notIn key rhs)
  | .contains => some (.valueLike false key containsBody)
  | .notContains => some (.valueLike true key containsBody)
  | .like => some (.valueLike false key likeBody)
  | .notLike => some (.valueLike true key likeBody)
  | .regex => some (.regex false key rhs)
  | .notRegex => some (.regex true key rhs)
  | .exists => some (.has false key)
  | .notExists => some (.has true key)
  | .has => none
  | .notHas => none

/-- The body of the pattern for a value of a key. -/
def valueBody (key : String) (v : String) : String :=
  "%\"" ++ key ++ "\":\"" ++ quoteEscapedStringForContains v true ++ "\"%"

/-- The index condition of an item; `none` where there is none. -/
def indexCondition (key : String) (op : FilterOperator) (value : GoValue F) :
    Option LabelCondition :=
  let strVal := value.formatS false
  let containsBody := "%" ++ key ++ "%" ++ quoteEscapedStringForContains strVal true ++ "%"
  let lowerContainsBody :=
    "%" ++ key ++ "%" ++ Go.toLower (quoteEscapedStringForContains strVal true) ++ "%"
  let lowerLikeBody := "%" ++ key ++ "%" ++ Go.toLower (quoteEscapedString strVal) ++ "%"
  match op with
  | .contains => some (.lowerLike false lowerContainsBody)
  | .notContains => some (.lowerLike true lowerContainsBody)
  | .like => some (.lowerLike false lowerLikeBody)
  | .notLike => some (.lowerLike true lowerLikeBody)
  | .equal => some (.labelsLike false containsBody)
  | .notEqual => some (.labelsLike true containsBody)
  | .regex => none
  | .notRegex => none
  | .in =>
    if stringValues value = [] then none
    else some (.labelsLikes false ((stringValues value).map (valueBody key)))
  | .notIn =>
    if stringValues value = [] then none
    else some (.labelsLikes true ((stringValues value).map (valueBody key)))
  | _ => some (.labelsLike false ("%" ++ key ++ "%"))

omit [Go.Unicode] in
theorem presenceCondition_eq_toSql (key : String) :
    presenceCondition key = (LabelCondition.presence key).toSql := by
  unfold presenceCondition LabelCondition.toSql
  apply String.toList_inj.mp
  simp

theorem buildResourceFilter_eq_toSql {key : String} {op : FilterOperator} {value : GoValue F}
    {logsOp chFmtVal : String} (hop : resourceLogOperators op = some logsOp)
    (hfmt : clickHouseFormattedValue value = some chFmtVal) :
    buildResourceFilter logsOp key op value =
      (filterCondition key op value).map LabelCondition.toSql := by
  have hrhs := toSql_toLiteral hfmt
  rw [buildResourceFilter, hfmt]
  cases op
  all_goals cases hop
  all_goals
    refine congrArg some (String.toList_inj.mp ?_)
    unfold LabelCondition.toSql
    simp [Comparison.toSql, hrhs, Go.formatS]

omit [GoFloat F] [Go.Unicode] in
theorem buildIndexFilterForInOperator_eq_toSql {key : String} {op : FilterOperator}
    {value : GoValue F} (hne : stringValues value ≠ []) :
    buildIndexFilterForInOperator key op value =
      (LabelCondition.labelsLikes (op = .notIn)
        ((stringValues value).map (valueBody key))).toSql := by
  have hlen : 0 < (stringValues value).length := List.length_pos_iff.mpr hne
  have hbody (sqlOp v : String) : "labels " ++ sqlOp ++ " '%\"" ++ key ++ "\":\"" ++
      quoteEscapedStringForContains v true ++ "\"%'" =
        "labels " ++ sqlOp ++ " '" ++ valueBody key v ++ "'" := by
    rw [valueBody]
    apply String.toList_inj.mp
    simp
  rw [buildIndexFilterForInOperator, if_pos hlen]
  unfold LabelCondition.toSql
  by_cases hop : op = .notIn
  · simp only [hop, if_true, hbody, List.map_map, Function.comp_def, decide_true]
  · simp only [hop, if_false, hbody, List.map_map, Function.comp_def, decide_false,
      Bool.false_eq_true]

theorem buildResourceIndexFilter_eq_toSql (key : String) (op : FilterOperator)
    (value : GoValue F) : buildResourceIndexFilter key op value =
      ((indexCondition key op value).map LabelCondition.toSql).getD "" := by
  have hin (hop : op = .in ∨ op = .notIn) : buildIndexFilterForInOperator key op value =
      ((if stringValues value = [] then none
        else some (LabelCondition.labelsLikes (op = .notIn)
          ((stringValues value).map (valueBody key)))).map LabelCondition.toSql).getD "" := by
    by_cases hne : stringValues value = []
    · rw [if_pos hne, buildIndexFilterForInOperator, if_neg (by simp [hne])]
      rfl
    · rw [if_neg hne, buildIndexFilterForInOperator_eq_toSql hne]
      rfl
  unfold buildResourceIndexFilter
  cases op
  case «in» => exact hin (.inl rfl)
  case notIn => exact hin (.inr rfl)
  case regex => rfl
  case notRegex => rfl
  all_goals
    refine String.toList_inj.mp ?_
    unfold indexCondition LabelCondition.toSql
    simp

end QueryService.Resource
