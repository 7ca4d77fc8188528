import BoringPanel.Lib.ExprText
import Mathlib.Algebra.Group.Nat.Defs

/-!
# Paths and conditions of the expression language

A path goes from a variable into maps and arrays, by names (`.name` and `?.name`) and by what stands between
brackets. What is not there is nil, and going on from nil is an error, except by `?.name`, which ends the path.

* `Value.resolve`: what a path leads to, where nothing is an error.
* `evalSteps`: what an expression evaluates to, or an error.
* `Cond`: conditions on paths, with what they evaluate to.

The two agree on the paths that are never asked of a value of another kind (`Fits`): a path whose steps are all
optional always (`evalSteps_optional`), and any other if it leads to something (`evalSteps_of_resolve`).
-/

namespace ExprText

/-- A value of an expression. -/
inductive Value
  | nil
  /-- A number, a boolean or a text. -/
  | scalar (text : String)
  | map (entries : List (List Char × Value))
  | array (items : List Value)

/-- What is asked of a value. -/
inductive Access
  | key (k : List Char)
  | index (n : Nat)

namespace Value

def isNil : Value → Bool
  | nil => true
  | _ => false

/-- A missing entry is nil; a missing item is an error. -/
def fetch? : Value → Access → Option Value
  | map entries, .key k => some ((entries.lookup k).getD nil)
  | array items, .index n => items[n]?
  | _, _ => none

/-- The value is a container of the kind that is asked for. -/
def Accepts : Value → Access → Prop
  | map _, .key _ => True
  | array _, .index _ => True
  | _, _ => False

def length? : Value → Option Nat
  | map entries => some entries.length
  | array items => some items.length
  | _ => none

theorem isNil_iff {v : Value} : v.isNil = true ↔ v = nil := by
  cases v <;> simp [isNil]

end Value

/-- A step of a path: by a name, or by what stands between brackets and what it evaluates to. -/
inductive Step (R : Type)
  | field (optional : Bool) (name : List Char)
  | bracket (inner : List Char) (access : R → Option Access)

structure FieldPath (R : Type) where
  root : List Char
  steps : List (Step R)

/-- What expressions are evaluated in. -/
class Environment (R : Type) where
  /-- The value of a variable. -/
  root : R → List Char → Value
  /-- The texts of computed keys and indices. -/
  Computes : List Char → (R → Option Access) → Prop

namespace Step

variable {R : Type}

/-- `["key"]`, by the body of the literal. -/
def key (body k : List Char) : Step R := bracket ('"' :: (body ++ ['"'])) fun _ => some (.key k)

/-- `[n]`. -/
def index (n : Nat) : Step R := bracket (toString n).toList fun _ => some (.index n)

def isField : Step R → Bool
  | field _ _ => true
  | bracket _ _ => false

def access : Step R → R → Option Access
  | field _ name, _ => some (.key name)
  | bracket _ access, r => access r

/-- The step with `?.` for `.`. -/
def optional : Step R → Step R
  | field _ name => field true name
  | s => s

def text : Step R → List Char
  | field true name => '?' :: '.' :: name
  | field false name => '.' :: name
  | bracket inner _ => '[' :: (inner ++ [']'])

/-- From nil, the step ends the path. -/
def ends : Step R → Value → Bool
  | field true _, .nil => true
  | _, _ => false

/-- What the step leads to, where nothing is an error. -/
def next (r : R) (v : Value) (s : Step R) : Value := ((s.access r).bind v.fetch?).getD .nil

end Step

section Eval

variable {R : Type} (r : R)

open Step

/-- What the steps lead to. -/
def resolve (v : Value) (steps : List (Step R)) : Value := steps.foldl (next r) v

/-- What the steps evaluate to; `none` is an error. -/
def evalSteps : Value → List (Step R) → Option Value
  | v, [] => some v
  | v, s :: steps => if s.ends v then some .nil else
      ((s.access r).bind v.fetch?).bind fun w => evalSteps w steps

/-- Each value on the way that is not nil is a container of the kind that is asked for. -/
def Fits : Value → List (Step R) → Prop
  | _, [] => True
  | v, s :: steps => (v ≠ .nil → ∃ a, s.access r = some a ∧ v.Accepts a) ∧ Fits (next r v s) steps

variable {r}

theorem next_nil (s : Step R) : next r .nil s = .nil := by
  rw [next]
  cases s.access r with
  | none => rfl
  | some a => rfl

@[simp] theorem access_optional (s : Step R) : s.optional.access r = s.access r := by
  cases s <;> rfl

theorem resolve_nil (steps : List (Step R)) : resolve r .nil steps = .nil := by
  induction steps with
  | nil => rfl
  | cons s steps ih =>
    rw [resolve, List.foldl_cons, next_nil]
    exact ih

theorem resolve_cons (v : Value) (s : Step R) (steps : List (Step R)) :
    resolve r v (s :: steps) = resolve r (next r v s) steps := rfl

theorem resolve_append (v : Value) (steps rest : List (Step R)) :
    resolve r v (steps ++ rest) = resolve r (resolve r v steps) rest := List.foldl_append

theorem resolve_optional (v : Value) (steps : List (Step R)) :
    resolve r v (steps.map optional) = resolve r v steps := by
  have hnext : ∀ (v : Value) (s : Step R), next r v s.optional = next r v s := fun v s => by
    rw [next, next, access_optional]
  rw [resolve, resolve, List.foldl_map]
  exact congrArg (fun f => steps.foldl f v) (funext fun v => funext (hnext v))

theorem fits_append {v : Value} {steps rest : List (Step R)} :
    Fits r v (steps ++ rest) ↔ Fits r v steps ∧ Fits r (resolve r v steps) rest := by
  induction steps generalizing v with
  | nil => exact (and_iff_right trivial).symm
  | cons s steps ih => rw [List.cons_append, Fits, Fits, ih, and_assoc, resolve_cons]

theorem not_ends {v : Value} (h : v ≠ .nil) (s : Step R) : s.ends v = false := by
  cases v with
  | nil => exact absurd rfl h
  | _ => cases s with
    | field o name => cases o <;> rfl
    | bracket inner access => rfl

theorem evalSteps_cons {v : Value} {s : Step R} (h : s.ends v = false) (steps : List (Step R)) :
    evalSteps r v (s :: steps) = ((s.access r).bind v.fetch?).bind fun w => evalSteps r w steps := by
  rw [evalSteps, if_neg (by rw [h]; decide)]

theorem next_eq_of_fetch {v w : Value} {s : Step R} (h : (s.access r).bind v.fetch? = some w) :
    next r v s = w := by
  rw [next, h]
  rfl

/-- A path that leads to something evaluates to it. -/
theorem evalSteps_of_resolve {v : Value} {steps : List (Step R)} (h : resolve r v steps ≠ .nil) :
    evalSteps r v steps = some (resolve r v steps) := by
  induction steps generalizing v with
  | nil => rfl
  | cons s steps ih =>
    rw [resolve_cons] at h ⊢
    have hv : v ≠ .nil := by
      rintro rfl
      exact h (by rw [next_nil, resolve_nil])
    have hfetch : (s.access r).bind v.fetch? = some (next r v s) := by
      cases hw : (s.access r).bind v.fetch? with
      | none =>
        have hnext : next r v s = .nil := by
          rw [next, hw]
          rfl
        exact absurd (by rw [hnext, resolve_nil]) h
      | some w => rw [next_eq_of_fetch hw]
    rw [evalSteps_cons (not_ends hv s), hfetch]
    exact ih h

/-- What a path evaluates to, if it is not nil, is what it leads to. -/
theorem resolve_of_evalSteps {v w : Value} {steps : List (Step R)} (h : evalSteps r v steps = some w)
    (hw : w ≠ .nil) : resolve r v steps = w := by
  induction steps generalizing v with
  | nil => exact Option.some.inj h
  | cons s steps ih =>
    rw [evalSteps] at h
    split at h
    · exact absurd (Option.some.inj h).symm hw
    · obtain ⟨x, hx, hrest⟩ := Option.bind_eq_some_iff.mp h
      rw [resolve_cons, next_eq_of_fetch hx]
      exact ih hrest

/-- Evaluation goes on from a value that is not nil. -/
theorem evalSteps_append {v w : Value} {steps : List (Step R)} (h : evalSteps r v steps = some w)
    (hw : w ≠ .nil) (rest : List (Step R)) : evalSteps r v (steps ++ rest) = evalSteps r w rest := by
  induction steps generalizing v with
  | nil => rw [Option.some.inj h, List.nil_append]
  | cons s steps ih =>
    rw [evalSteps] at h
    split at h
    · exact absurd (Option.some.inj h).symm hw
    · rename_i hends
      obtain ⟨x, hx, hrest⟩ := Option.bind_eq_some_iff.mp h
      rw [List.cons_append, evalSteps_cons (Bool.eq_false_iff.mpr hends), hx]
      exact ih hrest

/-- Names that are all optional evaluate to what they lead to. -/
theorem evalSteps_optional {v : Value} {names : List (Step R)} (hnames : ∀ s ∈ names, s.isField)
    (h : Fits r v names) : evalSteps r v (names.map optional) = some (resolve r v names) := by
  induction names generalizing v with
  | nil => rfl
  | cons s names ih =>
    obtain ⟨haccepts, hrest⟩ := h
    obtain ⟨hs, hrestNames⟩ := List.forall_mem_cons.mp hnames
    cases s with
    | bracket inner access => cases hs
    | field o name =>
      rw [List.map_cons, resolve_cons]
      cases v with
      | nil =>
        rw [next_nil, resolve_nil]
        rfl
      | map entries => exact ih hrestNames hrest
      | scalar text =>
        obtain ⟨a, -, haccepts⟩ := haccepts (by simp)
        exact haccepts.elim
      | array items =>
        obtain ⟨a, ha, haccepts⟩ := haccepts (by simp)
        cases ha
        exact haccepts.elim

end Eval

/-! ### Conditions -/

/-- A condition: a path is not nil, what a path leads to is longer than an index, and two of them. -/
inductive Cond (R : Type)
  | notNil (p : FieldPath R)
  | longer (p : FieldPath R) (inner : List Char) (access : R → Option Access)
  | and (c d : Cond R)

namespace FieldPath

variable {R : Type}

def text (p : FieldPath R) : List Char := p.root ++ p.steps.flatMap Step.text

variable [Environment R]

def eval (r : R) (p : FieldPath R) : Option Value := evalSteps r (Environment.root r p.root) p.steps

/-- What the path leads to. -/
def value (r : R) (p : FieldPath R) : Value := resolve r (Environment.root r p.root) p.steps

end FieldPath

namespace Cond

variable {R : Type}

def text : Cond R → List Char
  | notNil p => p.text ++ " != nil".toList
  | longer p inner _ => "len(".toList ++ p.text ++ ") > ".toList ++ inner
  | and c d => c.text ++ " && ".toList ++ d.text

variable [Environment R]

/-- What a condition evaluates to; `none` is an error. -/
def eval (r : R) : Cond R → Option Bool
  | notNil p => (p.eval r).map fun v => !v.isNil
  | longer p _ access => ((p.eval r).bind Value.length?).bind fun length =>
      match access r with
      | some (.index n) => some (n < length)
      | _ => none
  | and c d => (c.eval r).bind fun b => if b then d.eval r else some false

theorem eval_and_true {r : R} {c d : Cond R} :
    (and c d).eval r = some true ↔ c.eval r = some true ∧ d.eval r = some true := by
  rw [eval]
  cases c.eval r with
  | none => simp
  | some b => cases b <;> simp

theorem eval_and_of_true {r : R} {c d : Cond R} (h : c.eval r = some true) : (and c d).eval r = d.eval r := by
  rw [eval, h]
  rfl

theorem eval_and_of_false {r : R} {c d : Cond R} (h : c.eval r = some false) :
    (and c d).eval r = some false := by
  rw [eval, h]
  rfl

theorem eval_notNil {r : R} {p : FieldPath R} {v : Value} (h : p.eval r = some v) :
    (notNil p).eval r = some !v.isNil := by
  rw [eval, h]
  rfl

/-- A path that is not nil leads to something. -/
theorem value_of_eval_notNil {r : R} {p : FieldPath R} (h : (notNil p).eval r = some true) : p.value r ≠ .nil := by
  rw [eval] at h
  obtain ⟨v, hv, hnil⟩ := Option.map_eq_some_iff.mp h
  have hne : v ≠ .nil := by
    rintro rfl
    cases hnil
  rw [FieldPath.value, resolve_of_evalSteps hv hne]
  exact hne

end Cond

/-! ### What is written -/

/-- The characters of names: the letters and digits, and all that are not of ASCII. -/
def isNameChar (c : Char) : Bool := c.isAlphanum || c = '_' || c = '$' || 128 ≤ c.toNat

def isName (name : List Char) : Bool := !name.isEmpty && name.all isNameChar

section Written

variable [EscapeSequences] {R : Type}

/-- The step of a field path: a name, a literal key or an index. -/
inductive IsFieldStep : Step R → Prop
  | field {optional : Bool} {name : List Char} (h : isName name) : IsFieldStep (.field optional name)
  | key {body k : List Char} (h : Reads '"' body k) (hline : ∀ c ∈ lineEnds, c ∉ body) :
      IsFieldStep (.key body k)
  | index {n : Nat} (h : n < 2 ^ 63) : IsFieldStep (.index n)

variable [Environment R]

/-- The text of the step is one, and means what the step says. -/
inductive Step.Written : Step R → Prop
  | field {s : Step R} (h : IsFieldStep s) : Step.Written s
  | computed {inner : List Char} {access : R → Option Access} (h : Environment.Computes inner access) :
      Step.Written (.bracket inner access)

def FieldPath.Written (p : FieldPath R) : Prop := isName p.root ∧ ∀ s ∈ p.steps, s.Written

def Cond.Written : Cond R → Prop
  | .notNil p => p.Written
  | .longer p inner access => p.Written ∧ (Step.bracket inner access).Written
  | .and c d => c.Written ∧ d.Written

theorem Step.Written.optional {s : Step R} (h : s.Written) : s.optional.Written := by
  cases s with
  | bracket inner access => exact h
  | field o name =>
    cases h with
    | field h =>
      cases h with
      | field hname => exact .field (.field hname)

end Written

end ExprText
