import BoringPanel.QueryService.Parser

/-!
# References to variables

What the references of a request stand for, stated on their own: a filter value that is a reference
has the value of the variable (`substitutedValue`), and all references of a text are replaced at once,
the longest one where several begin (`substitutedText`). `Substituted` is the request that results; no
order of the variables enters.

`RequestOk` is the condition under which the code arrives there. The code trims a filter value and
looks up what is left, which need not be a reference (`ValueOk`); and it searches a text for one
pattern after the other, so that what it finds may be part of a longer name, or of a value that has
been put in (`TextOk`).
-/

namespace QueryService
namespace Parser

open Substitution

variable {F : Type} [GoFloat F]

/-! ### Filter values -/

/-- The text before a closing delimiter at its end. -/
def beforeClose (close : String) (s : List Char) : Option String :=
  if close.toList <:+ s then some (.ofList (s.take (s.length - close.length))) else none

/-- The name in an action of a template, with or without the dot of a field. -/
def actionName (action : String) : String :=
  match (Go.trim action " ").toList with
  | '.' :: name => .ofList name
  | name => .ofList name

/-- The name in `{{name}}` or `{{ .name }}`, in `[[name]]` or in `$name`. -/
def referredName (x : String) : Option String :=
  match x.toList with
  | '\x7b' :: '\x7b' :: s => (beforeClose "\x7d\x7d" s).map actionName
  | '[' :: '[' :: s => beforeClose "]]" s
  | '$' :: s => some (.ofList s)
  | _ => none

/-- The value of the variable that a text refers to. -/
def referredValue (vars : Go.Map (GoValue F)) (x : String) : Option (GoValue F) :=
  (referredName x).bind vars.lookup

/-- The elements that an element of a list stands for. -/
def substitutedElements (vars : Go.Map (GoValue F)) (v : GoValue F) : List (GoValue F) :=
  match v with
  | .string x =>
    match referredValue vars x with
    | some (.array ws) => ws
    | some w => [w]
    | none => [v]
  | v => [v]

/-- **A filter value** with its references replaced. -/
def substitutedValue (vars : Go.Map (GoValue F)) (value : GoValue F) : GoValue F :=
  match value with
  | .string x => (referredValue vars x).getD value
  | .array [.string x] => (referredValue vars x).getD value
  | .array vs => .array (vs.flatMap (substitutedElements vars))
  | v => v

/-- What the code looks up for a filter value. -/
def trimmedName (x : String) : String := Go.trim x "\x7b[.$]\x7d"

/-- **The text names what it refers to**: trimming it gives the name of a variable with a certain
value exactly if it is a reference to one. The text itself may stand for itself. -/
def NamesReferred (vars : Go.Map (GoValue F)) (x : String) (value : GoValue F) : Prop :=
  ∀ v, v ≠ value → (vars.lookup (trimmedName x) = some v ↔ referredValue vars x = some v)

/-- **The condition on a filter value.** In a list of several values there is no reference, and the
first one does not look like one. -/
def ValueOk (vars : Go.Map (GoValue F)) (value : GoValue F) : Prop :=
  match value with
  | .string x => NamesReferred vars x value
  | .array [.string x] => NamesReferred vars x value
  | .array (.string x :: vs) =>
    (∀ v, vars.lookup (trimmedName x) = some v →
      v = .array ((.string x :: vs).flatMap (substitutedElements vars))) ∧
    (vars.lookup (trimmedName x) = none →
      (.string x :: vs).flatMap (substitutedElements vars) = .string x :: vs)
  | .array vs => vs.flatMap (substitutedElements vars) = vs
  | _ => True

/-! ### Texts -/

/-- The ways to write a reference. -/
inductive Form where
  | curly
  | square
  | dollar
  /-- A field of the template. -/
  | field
deriving DecidableEq, Repr

structure Reference where
  name : String
  form : Form
deriving DecidableEq, Repr

def Reference.write (r : Reference) : String :=
  match r.form with
  | .curly => "\x7b\x7b" ++ r.name ++ "\x7d\x7d"
  | .square => "[[" ++ r.name ++ "]]"
  | .dollar => "$" ++ r.name
  | .field => "\x7b\x7b." ++ r.name ++ "\x7d\x7d"

/-- How the value of a variable is written. -/
def written (vars : Go.Map (GoValue F)) (name : String) : List Char :=
  ((vars.lookup name).map fun v => v.formatV.toList).getD []

/-- References to the variables `vars`, and to the fields of the template. -/
def references (vars fields : Go.Map (GoValue F)) : Refs Char Reference where
  pattern r := r.write.toList
  value r := match r.form with
    | .field => written fields r.name
    | _ => written vars r.name

/-- A name that a template accepts as a field. -/
def isIdentifier (name : String) : Bool :=
  match name.toList with
  | [] => false
  | c :: s => (c.isAlpha || c = '_') && s.all fun c => c.isAlphanum || c = '_'

/-- The references to a variable that the code replaces, in its order. -/
def plainReferences (name : String) : List Reference :=
  [⟨name, .curly⟩, ⟨name, .square⟩, ⟨name, .dollar⟩]

def namesOf (vars : Go.Map (GoValue F)) : List String := vars.entries.map Prod.fst

/-- All references that there are. -/
def allReferences (vars fields : Go.Map (GoValue F)) : List Reference :=
  (namesOf vars).flatMap plainReferences ++
    ((namesOf fields).filter isIdentifier).map fun name => ⟨name, .field⟩

/-- The segments of a text. -/
def segments (vars fields : Go.Map (GoValue F)) (text : String) : List (Seg Char Reference) :=
  parse (references vars fields) (allReferences vars fields) text.toList

/-- **A text** with its references replaced. -/
def substitutedText (vars fields : Go.Map (GoValue F)) (text : String) : String :=
  .ofList (substitute (references vars fields) (segments vars fields text))

def substitutedQueries (vars fields : Go.Map (GoValue F)) (queries : List (String × TextQuery)) :
    List (String × TextQuery) :=
  queries.map fun e =>
    (e.1, if e.2.disabled then e.2
      else { e.2 with query := substitutedText vars fields e.2.query })

/-- **The condition on a text.** `m` are the variables that are visited, in any order: those of the
request, or the reserved ones too. -/
structure TextOk (vars fields m : Go.Map (GoValue F)) (text : String) : Prop where
  /-- The variables of the request have their values. -/
  same : ∀ r, .ref r ∈ segments vars fields text → r.form ≠ .field →
    m.lookup r.name = vars.lookup r.name
  /-- At every step, what is found are references. -/
  safe : ∀ names : List String, names.Perm (namesOf m) →
    Safe (references m fields) (segments vars fields text) [] (names.flatMap plainReferences)
  /-- In the end, what the template takes for an action is a field. -/
  marks : Marks (references m fields) "\x7b\x7b".toList ((namesOf m).flatMap plainReferences)
    (segments vars fields text)

/-- The condition on the texts of a request, visited in their order. -/
def QueriesOk (vars fields : Go.Map (GoValue F)) :
    List (String × TextQuery) → Go.Map (GoValue F) → Prop
  | [], _ => True
  | (_, query) :: rest, m =>
    if query.disabled then QueriesOk vars fields rest m
    else TextOk vars fields m query.query ∧ QueriesOk vars fields rest fields

/-! ### Requests -/

/-- The start of the range that is returned. -/
def QueryRangeParamsV3.returnedStart (p : QueryRangeParamsV3 F) : Int :=
  if p.panelType = .value ∧ p.queryType = .promQL then p.end_ else p.start

/-- The fields of the templates: the variables, and the reserved ones. -/
def QueryRangeParamsV3.fields (p : QueryRangeParamsV3 F) (vars : Go.Map (GoValue F)) :
    Go.Map (GoValue F) :=
  assignReservedVarsV3 p.returnedStart p.end_ vars

/-- The variables that are returned: with the reserved ones if a text has been rendered. -/
def returnedVariables (vars fields : Go.Map (GoValue F)) (queries : List (String × TextQuery)) :
    Go.Map (GoValue F) :=
  if queries.all fun e => e.2.disabled then vars else fields

/-- **The parameters that should be returned.** -/
def substitutedParams (p : QueryRangeParamsV3 F) : Except Failure (QueryRangeParamsV3 F) := do
  let vars ← formatVariables p.queryType p.vars
  let fields := p.fields vars
  match p.queryType with
  | .builder =>
    let builderQueries ←
      replaceFilterVariables (substitutedValue p.vars) p.builderQueries
    pure { p with builderQueries := builderQueries, vars := vars }
  | .clickHouseSQL =>
    pure { p with
      clickHouseQueries := substitutedQueries vars fields p.clickHouseQueries
      vars := returnedVariables vars fields p.clickHouseQueries }
  | .promQL =>
    pure { p with
      start := p.returnedStart
      promQueries := substitutedQueries vars fields p.promQueries
      vars := returnedVariables vars fields p.promQueries }
  | .unknown => pure { p with vars := vars }

/-- **The condition on a request.** -/
def RequestOk (p : QueryRangeParamsV3 F) : Prop :=
  match p.queryType with
  | .builder => ∀ e ∈ p.builderQueries, ∀ fs, e.2.filters = some fs →
      ∀ item ∈ fs.items, ValueOk p.vars item.value
  | .clickHouseSQL => ∀ vars, formatVariables p.queryType p.vars = .ok vars →
      QueriesOk vars (p.fields vars) p.clickHouseQueries vars
  | .promQL => ∀ vars, formatVariables p.queryType p.vars = .ok vars →
      QueriesOk vars (p.fields vars) p.promQueries vars
  | .unknown => True

/-! ### The template engine -/

/-- The fields of a template, on their own. -/
def fieldReferences (fields : Go.Map (GoValue F)) : Refs Char String where
  pattern name := (Reference.write ⟨name, .field⟩).toList
  value name := written fields name

/-- **What the engine is for**: in a text where every `{{` begins a field `{{.name}}` with a value, the
fields are replaced by their values, and the rest is copied. -/
def RendersFields (engine : TemplateEngine F) : Prop :=
  ∀ (fields : Go.Map (GoValue F)) (segs : List (Seg Char String)),
    (∀ name, .ref name ∈ segs → isIdentifier name ∧ (fields.lookup name).isSome) →
    Marks (fieldReferences fields) "\x7b\x7b".toList [] segs →
    engine (.ofList (render (fieldReferences fields) [] segs)) fields =
      .ok (.ofList (substitute (fieldReferences fields) segs))

end Parser
end QueryService
