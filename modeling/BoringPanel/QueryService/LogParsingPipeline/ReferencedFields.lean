import BoringPanel.QueryService.LogParsingPipeline.FieldChecks

/-!
# Fields that an expression references

`fieldsReferencedInExprNotNilCheck` collects the texts of the member accesses of an expression that begin with
`attributes` or `resource`, and writes the conditions that the deepest of them are not nil. A text is deepest
if no other one begins with it, by its characters, so that `attributes.a` counts as a part of `attributes.ab`
and is not checked. Neither is an access whose text has two question marks in a row, even in a key.
-/

namespace QueryService.LogParsingPipeline

open ExprText

/-! ### The functions -/

/-- A node of an expression: a member access, or any other node with its operator. -/
inductive Node
  | member (node property : Node) (optional : Bool)
  | other (operator : String) (children : List Node)

mutual

/-- The member accesses in the order of `ast.Walk`, which visits a node after its children. -/
def Node.members : Node → List Node
  | .member node property optional => node.members ++ property.members ++ [.member node property optional]
  | .other _ children => membersOfAll children

def membersOfAll : List Node → List Node
  | [] => []
  | node :: nodes => node.members ++ membersOfAll nodes

end

mutual

/-- The member accesses that are not in an operand of `??`. -/
def Node.membersOutside : Node → List Node
  | .member node property optional =>
    node.membersOutside ++ property.membersOutside ++ [.member node property optional]
  | .other operator children => if operator = "??" then [] else membersOutsideAll children

def membersOutsideAll : List Node → List Node
  | [] => []
  | node :: nodes => node.membersOutside ++ membersOutsideAll nodes

end

section Functions

/-- The parser, the text of a node and the compiler of the expression library. -/
structure ExprLibrary where
  parse : List Char → Except String Node
  print : Node → List Char
  compile : List Char → Except String Unit

variable (lib : ExprLibrary)

/-- `logFieldsInExprExtractor.Visit`: the access is collected. -/
def isReferenced (memberRef : List Char) : Bool :=
  !decide ("??".toList <:+: memberRef) &&
    ("attributes".toList.isPrefixOf memberRef || "resource".toList.isPrefixOf memberRef)

def logFieldsReferencedInExpr (expr : List Char) : Except String (List (List Char)) :=
  match lib.parse expr with
  | .error err => .error ("could not parse expr: " ++ err)
  | .ok exprAst => .ok ((exprAst.members.map lib.print).filter isReferenced)

def deepestFieldRefs (referencedFields : List (List Char)) : List (List Char) :=
  referencedFields.filter fun field =>
    !referencedFields.any fun e => byteLength field < byteLength e && field.isPrefixOf e

def fieldsReferencedInExprNotNilCheck (expr : List Char) : Except BuildError (List Char) :=
  match logFieldsReferencedInExpr lib expr with
  | .error err =>
    .error (.error ("couldn't extract log fields referenced in expr " ++ String.ofList expr ++ ": " ++ err))
  | .ok referencedFields => do
    let fieldExprChecks ← (deepestFieldRefs referencedFields).mapM fun field => do
      let checkExpr ← wrapBuildError ("could not create nil check for " ++ String.ofList field)
        (fieldNotNilCheck lib.compile field)
      return '(' :: (checkExpr ++ [')'])
    return List.intercalate " && ".toList fieldExprChecks

end Functions

/-! ### Deepest references -/

/-- Each reference is the beginning of a deepest one. -/
theorem exists_deepest {refs : List (List Char)} {field : List Char} (h : field ∈ refs) :
    ∃ e ∈ deepestFieldRefs refs, field <+: e := by
  -- By induction on the bytes that a reference has less than all of them.
  induction hn : (refs.map byteLength).sum - byteLength field using Nat.strong_induction_on generalizing field with
  | _ n ih =>
    by_cases hdeepest : field ∈ deepestFieldRefs refs
    · exact ⟨field, hdeepest, List.prefix_rfl⟩
    have hlonger : ∃ e ∈ refs, byteLength field < byteLength e ∧ field <+: e := by
      rw [deepestFieldRefs, List.mem_filter, not_and, Bool.not_eq_true', Bool.not_eq_false] at hdeepest
      obtain ⟨e, he, hlonger⟩ := List.any_eq_true.mp (hdeepest h)
      rw [Bool.and_eq_true, decide_eq_true_iff, List.isPrefixOf_iff_prefix] at hlonger
      exact ⟨e, he, hlonger⟩
    obtain ⟨e, he, hlt, hstarts⟩ := hlonger
    have hle : byteLength e ≤ (refs.map byteLength).sum := List.le_sum_of_mem (List.mem_map_of_mem he)
    obtain ⟨deepest, hmem, hrest⟩ := ih _ (by omega) he rfl
    exact ⟨deepest, hmem, hstarts.trans hrest⟩

mutual

theorem Node.mem_members : ∀ (node : Node) {n : Node}, n ∈ node.membersOutside → n ∈ node.members
  | .member node property optional, n, h => by
    rw [Node.membersOutside, List.mem_append, List.mem_append] at h
    rw [Node.members, List.mem_append, List.mem_append]
    exact h.imp_left (Or.imp node.mem_members property.mem_members)
  | .other operator children, n, h => by
    rw [Node.membersOutside] at h
    split at h
    · exact absurd h List.not_mem_nil
    · exact mem_membersOfAll children h

theorem mem_membersOfAll : ∀ (nodes : List Node) {n : Node},
    n ∈ membersOutsideAll nodes → n ∈ membersOfAll nodes
  | [], _, h => h
  | node :: nodes, n, h => by
    rw [membersOutsideAll, List.mem_append] at h
    rw [membersOfAll, List.mem_append]
    exact h.imp node.mem_members (mem_membersOfAll nodes)

end

/-- What is known of each element, where all have succeeded, in terms of what the results are made of. -/
theorem exists_map_of_mapM {α β γ ε : Type} {f : α → Except ε β} {g : γ → β} {Q : α → γ → Prop} {l : List α}
    {l' : List β} (h : l.mapM f = .ok l') (hf : ∀ a ∈ l, ∀ b, f a = .ok b → ∃ c, b = g c ∧ Q a c) :
    ∃ cs : List γ, l' = cs.map g ∧ (∀ c ∈ cs, ∃ a ∈ l, Q a c) ∧ ∀ a ∈ l, ∃ c ∈ cs, Q a c := by
  have hrel := Fallible.forall₂_of_mapM h
  clear h
  induction hrel with
  | nil => exact ⟨[], rfl, fun _ h => absurd h List.not_mem_nil, fun _ h => absurd h List.not_mem_nil⟩
  | cons hab _ ih =>
    obtain ⟨ha, hrest⟩ := List.forall_mem_cons.mp hf
    obtain ⟨c, rfl, hc⟩ := ha _ hab
    obtain ⟨cs, rfl, hleft, hright⟩ := ih hrest
    refine ⟨c :: cs, rfl, List.forall_mem_cons.mpr ⟨⟨_, List.mem_cons_self, hc⟩, fun c' hc' => ?_⟩,
      List.forall_mem_cons.mpr ⟨⟨c, List.mem_cons_self, hc⟩, fun a ha => ?_⟩⟩
    · obtain ⟨a, ha, hQ⟩ := hleft c' hc'
      exact ⟨a, List.mem_cons_of_mem _ ha, hQ⟩
    · obtain ⟨c', hc', hQ⟩ := hright a ha
      exact ⟨c', List.mem_cons_of_mem _ hc', hQ⟩

/-! ### Texts of names -/

section Texts

variable {R : Type}

/-- A step does not begin with a character of a name. -/
theorem not_isNameChar_of_head {steps : List (Step R)} {c : Char} (h : (steps.flatMap Step.text).head? = some c) :
    isNameChar c = false := by
  cases steps with
  | nil => cases h
  | cons s steps =>
    cases s with
    | bracket inner access =>
      obtain rfl := Option.some.inj h
      decide
    | field o name =>
      cases o with
      | true =>
        obtain rfl := Option.some.inj h
        decide
      | false =>
        obtain rfl := Option.some.inj h
        decide

/-- A name ends where a step begins. -/
theorem eq_of_name_append {name name' rest rest' : List Char} (h : isName name) (h' : isName name')
    (hrest : ∀ c, rest.head? = some c → isNameChar c = false)
    (hrest' : ∀ c, rest'.head? = some c → isNameChar c = false) (heq : name ++ rest = name' ++ rest') :
    name = name' ∧ rest = rest' := by
  have htake : ∀ {name rest : List Char}, isName name → (∀ c, rest.head? = some c → isNameChar c = false) →
      (name ++ rest).takeWhile isNameChar = name := by
    intro name rest h hrest
    have hall : ∀ c ∈ name, isNameChar c := List.all_eq_true.mp (Bool.and_eq_true_iff.mp h).2
    rw [List.takeWhile_append_of_pos hall]
    cases rest with
    | nil => rw [List.takeWhile_nil, List.append_nil]
    | cons c rest => rw [List.takeWhile_cons_of_neg (by rw [hrest c rfl]; decide), List.append_nil]
  have hname : name = name' := by rw [← htake h hrest, heq, htake h' hrest']
  rw [hname] at heq
  exact ⟨hname, List.append_cancel_left heq⟩

variable [EscapeSequences] [LogRecords R]

/-- Names are read in one way from their text. -/
theorem eq_of_text_names {steps names : List (Step R)} (hwritten : ∀ s ∈ steps, s.Written)
    (hnames : AreNames names) (heq : steps.flatMap Step.text = names.flatMap Step.text) : steps = names := by
  induction names generalizing steps with
  | nil =>
    cases steps with
    | nil => rfl
    | cons s steps =>
      cases s with
      | bracket inner access => cases heq
      | field o name => cases o <;> cases heq
  | cons t names ih =>
    obtain ⟨⟨o, name, rfl, hname⟩, hothers⟩ := List.forall_mem_cons.mp hnames
    cases steps with
    | nil => cases o <;> cases heq
    | cons s steps =>
      obtain ⟨hs, hsteps⟩ := List.forall_mem_cons.mp hwritten
      obtain ⟨o', name', rfl, hname'⟩ : ∃ o' name', s = .field o' name' ∧ isName name' := by
        cases s with
        | bracket inner access => cases o <;> cases heq
        | field o' name' =>
          cases hs with
          | field h =>
            cases h with
            | field hname' => exact ⟨o', name', rfl, hname'⟩
      have hrest : name' ++ steps.flatMap Step.text = name ++ names.flatMap Step.text →
          Step.field o' name' :: steps = Step.field o' name :: names := by
        intro h
        obtain ⟨rfl, hrest⟩ := eq_of_name_append hname' hname (fun _ => not_isNameChar_of_head)
          (fun _ => not_isNameChar_of_head) h
        rw [ih hsteps hothers hrest]
      cases o with
      | true =>
        cases o' with
        | true => exact hrest (List.cons.inj (List.cons.inj heq).2).2
        | false => exact absurd (List.cons.inj heq).1 (by decide)
      | false =>
        cases o' with
        | true => exact absurd (List.cons.inj heq).1 (by decide)
        | false => exact hrest (List.cons.inj heq).2

/-- A path of names is read in one way from its text. -/
theorem eq_of_text {p q : FieldPath R} (hp : p.Written) (hq : q.Written) (hnames : AreNames q.steps)
    (h : p.text = q.text) : p = q := by
  obtain ⟨hroot, hsteps⟩ := eq_of_name_append hp.1 hq.1 (fun _ => not_isNameChar_of_head)
    (fun _ => not_isNameChar_of_head) h
  exact congrArg₂ FieldPath.mk hroot (eq_of_text_names hp.2 hnames hsteps)

/-- The condition that a path of names is not nil is read in one way from its text. -/
theorem eq_of_cond_text {c : Cond R} {q : FieldPath R} (hc : c.Written) (hq : q.Written)
    (hnames : AreNames q.steps) (h : c.text = (Cond.notNil q).text) : c = .notNil q := by
  have hnot : ∀ d ∈ ['&', '('], d ∉ (Cond.notNil q).text := by
    intro d hd hmem
    have hchar : isNameChar d = false ∧ d ≠ '.' ∧ d ≠ '?' ∧ d ∉ " != nil".toList := by
      rcases List.mem_pair.mp hd with rfl | rfl <;> decide
    rcases List.mem_append.mp hmem with hmem | hmem
    · rcases List.mem_append.mp hmem with hmem | hmem
      · exact not_mem_of_isName hchar.1 hq.1 hmem
      · exact not_mem_names hchar.1 hchar.2.1 hchar.2.2.1 hnames hmem
    · exact hchar.2.2.2 hmem
  cases c with
  | notNil p => rw [eq_of_text hc hq hnames (List.append_cancel_right h)]
  | longer p inner access =>
    refine absurd ?_ (hnot '(' (by decide))
    rw [← h]
    simp [Cond.text]
  | and c d =>
    refine absurd ?_ (hnot '&' (by decide))
    rw [← h]
    simp [Cond.text]

end Texts

/-! ### What the condition says -/

section References

variable [EscapeSequences] {R : Type} [LogRecords R] (lib : ExprLibrary)

/-- The references that are collected. -/
def collected (exprAst : Node) : List (List Char) := (exprAst.members.map lib.print).filter isReferenced

/-- A field of the attributes or the resource that an expression references, outside of the operands of `??`. -/
def References (exprAst : Node) (p : FieldPath R) : Prop :=
  (∃ n ∈ exprAst.membersOutside, lib.print n = p.text) ∧ IsRecord p.root ∧ p.Written

/-- The condition is a list of conditions, and if they are true, none of the fields is nil. -/
def ChecksReferences (R : Type) [LogRecords R] (exprAst : Node) (check : List Char) : Prop :=
  ∃ conds : List (Cond R), (∀ c ∈ conds, c.Written) ∧
    check = List.intercalate " && ".toList (conds.map fun c => '(' :: (c.text ++ [')'])) ∧
    ∀ r, (∀ c ∈ conds, c.eval r = some true) → ∀ p, References lib exprAst p → p.value r ≠ .nil

/-- No field has two question marks in a row, the deepest references are paths whose brackets are kept, and a
field whose text one of them begins with is a part of its path. -/
def Covered (R : Type) [LogRecords R] (exprAst : Node) : Prop :=
  (∀ p : FieldPath R, References lib exprAst p → ¬ "??".toList <:+: p.text) ∧
    ∀ t ∈ deepestFieldRefs (collected lib exprAst), ∃ q : FieldPath R, t = q.text ∧ q.Written ∧ KeptPath q.steps ∧
      ∀ p : FieldPath R, References lib exprAst p → p.text <+: t → p.root = q.root ∧ p.steps <+: q.steps

variable {lib}

omit [EscapeSequences] [LogRecords R] in
theorem fieldsReferencedInExprNotNilCheck_eq {expr : List Char} {exprAst : Node}
    (hparse : lib.parse expr = .ok exprAst) : fieldsReferencedInExprNotNilCheck lib expr = (do
      let fieldExprChecks ← (deepestFieldRefs (collected lib exprAst)).mapM fun field => do
        let checkExpr ← wrapBuildError ("could not create nil check for " ++ String.ofList field)
          (fieldNotNilCheck lib.compile field)
        return '(' :: (checkExpr ++ [')'])
      return List.intercalate " && ".toList fieldExprChecks) := by
  rw [fieldsReferencedInExprNotNilCheck, logFieldsReferencedInExpr, hparse]
  rfl

theorem collected_of_references {exprAst : Node} {p : FieldPath R} (h : References lib exprAst p)
    (hmarks : ¬ "??".toList <:+: p.text) : p.text ∈ collected lib exprAst := by
  obtain ⟨⟨n, hn, hprint⟩, hrecord, -⟩ := h
  refine List.mem_filter.mpr ⟨hprint ▸ List.mem_map_of_mem (exprAst.mem_members hn), ?_⟩
  have hstarts : p.root.isPrefixOf p.text := List.isPrefixOf_iff_prefix.mpr ⟨p.steps.flatMap Step.text, rfl⟩
  rw [isReferenced, Bool.and_eq_true, Bool.not_eq_true', decide_eq_false_iff_not, Bool.or_eq_true]
  refine ⟨hmarks, ?_⟩
  rcases hrecord with hroot | hroot
  · exact .inl (hroot ▸ hstarts)
  · exact .inr (hroot ▸ hstarts)

omit [EscapeSequences] in
/-- A part of a path that leads to something leads to something. -/
theorem value_of_prefix {p q : FieldPath R} (hroot : p.root = q.root) (hsteps : p.steps <+: q.steps) {r : R}
    (h : q.value r ≠ .nil) : p.value r ≠ .nil := by
  obtain ⟨rest, hrest⟩ := hsteps
  intro hnil
  refine h ?_
  rw [FieldPath.value, ← hrest, resolve_append, ← hroot]
  exact (congrArg (fun v => resolve r v rest) hnil).trans (resolve_nil rest)

omit [EscapeSequences] in
theorem length_of_collected {exprAst : Node} {t : List Char} (h : t ∈ collected lib exprAst) : 2 ≤ t.length := by
  have hstarts := (Bool.and_eq_true_iff.mp (List.mem_filter.mp h).2).2
  rcases Bool.or_eq_true_iff.mp hstarts with h | h
  · exact Nat.le_trans (by decide) (List.isPrefixOf_iff_prefix.mp h).length_le
  · exact Nat.le_trans (by decide) (List.isPrefixOf_iff_prefix.mp h).length_le

/-- The condition of a reference for which there is one. -/
theorem exists_isCheck_of_ok {compile : List Char → Except String Unit} {q : FieldPath R} (hwritten : q.Written)
    (hkept : KeptPath q.steps) (hcompile : CompilesPrefixes compile q) (hrejects : RejectsCut compile q)
    (hlength : 2 ≤ q.text.length) {check : List Char} (h : fieldNotNilCheck compile q.text = .ok check) :
    ∃ c : Cond R, check = c.text ∧ IsCheck q c := by
  have hascii : isAscii q.text := by
    by_contra hascii
    cases h.symm.trans (fieldNotNilCheck_panic (hcompile q.steps [] (List.append_nil _).symm) hascii hlength)
  have hopen : NoOpening q.steps := by
    by_contra hopen
    obtain ⟨text, htext⟩ := (fieldNotNilCheck_of_isAscii hwritten.1 hwritten.2 hascii hcompile hrejects).2 hopen
    cases h.symm.trans htext
  obtain ⟨c, hc, hcheck⟩ := exists_isCheck hwritten.1 hwritten.2 hascii hcompile hopen hkept
  exact ⟨c, Except.ok.inj (h.symm.trans hc), hcheck⟩

omit [EscapeSequences] in
/-- A condition that is written for a reference between brackets. -/
theorem eq_of_check {field check : List Char} {compile : List Char → Except String Unit} {text : String}
    (h : (do
      let checkExpr ← wrapBuildError text (fieldNotNilCheck compile field)
      return '(' :: (checkExpr ++ [')'])) = (.ok check : Except BuildError (List Char))) :
    ∃ checkExpr, fieldNotNilCheck compile field = .ok checkExpr ∧ check = '(' :: (checkExpr ++ [')']) := by
  cases hfield : fieldNotNilCheck compile field with
  | error err =>
    rw [hfield] at h
    cases err <;> cases h
  | ok checkExpr =>
    rw [hfield] at h
    exact ⟨checkExpr, rfl, (Except.ok.inj h).symm⟩

end References

/-! ### An example -/

/-- The parser and the printer for one expression. -/
def libraryOf (expr : List Char) (exprAst : Node) : ExprLibrary where
  parse text := if text = expr then .ok exprAst else .error "unexpected token"
  print
    | .member (.other root _) (.other name _) false => root.toList ++ '.' :: name.toList
    | _ => []
  compile _ := .ok ()

theorem parse_libraryOf (expr : List Char) (exprAst : Node) : (libraryOf expr exprAst).parse expr = .ok exprAst :=
  if_pos rfl

/-- `root.name + root'.name'`. -/
def sumOf (root name root' name' : String) : Node :=
  .other "+" [.member (.other root []) (.other name []) false, .member (.other root' []) (.other name' []) false]

def recordField (root name : String) : FieldPath RecordFields := ⟨root.toList, [.field false name.toList]⟩

theorem fieldNotNilCheck_recordField {root name : String} {compile : List Char → Except String Unit}
    (hroot : isName root.toList) (hname : isName name.toList) (hascii : isAscii (recordField root name).text)
    (hcompile : ∀ s, compile s = .ok ()) :
    fieldNotNilCheck compile (recordField root name).text =
      .ok (root.toList ++ '?' :: '.' :: name.toList ++ " != nil".toList) := by
  have hnames : AreNames (recordField root name).steps :=
    fun s hs => ⟨false, name.toList, List.mem_singleton.mp hs, hname⟩
  refine (fieldNotNilCheck_names hroot hnames hascii (hcompile _)).trans ?_
  simp [Cond.text, FieldPath.text, recordField, Step.optional, Step.text]

theorem written_recordField [EscapeSequences] {root name : String} (hroot : isName root.toList)
    (hname : isName name.toList) : (recordField root name).Written :=
  ⟨hroot, fun _ hs => List.mem_singleton.mp hs ▸ .field (.field hname)⟩

theorem membersOutside_sumOf (root name root' name' : String) : (sumOf root name root' name').membersOutside =
    [.member (.other root []) (.other name []) false, .member (.other root' []) (.other name' []) false] := by
  rw [sumOf, Node.membersOutside, if_neg (by decide)]
  simp [membersOutsideAll, Node.membersOutside]

/-- The fields that a sum references. -/
theorem references_sum [EscapeSequences] {expr : List Char} {root name root' name' : String}
    (hroot : isName root.toList) (hname : isName name.toList) (hroot' : isName root'.toList)
    (hname' : isName name'.toList) {p : FieldPath RecordFields}
    (h : References (libraryOf expr (sumOf root name root' name')) (sumOf root name root' name') p) :
    p = recordField root name ∨ p = recordField root' name' := by
  obtain ⟨⟨n, hn, hprint⟩, -, hwritten⟩ := h
  have hnames : ∀ {name : String} (root : String), isName name.toList → AreNames (recordField root name).steps :=
    fun root hname s hs => ⟨false, _, List.mem_singleton.mp hs, hname⟩
  have htext : ∀ root name : String, root.toList ++ '.' :: name.toList = (recordField root name).text :=
    fun root name => by simp [FieldPath.text, recordField, Step.text]
  rw [membersOutside_sumOf] at hn
  rcases List.mem_pair.mp hn with rfl | rfl
  · exact .inl (eq_of_text hwritten (written_recordField hroot hname) (hnames root hname)
      (hprint.symm.trans (htext root name)))
  · exact .inr (eq_of_text hwritten (written_recordField hroot' hname') (hnames root' hname')
      (hprint.symm.trans (htext root' name')))

/-- A record without `a`. -/
def withoutA : RecordFields := ⟨.nil, [("ab".toList, .scalar "1")], []⟩

end QueryService.LogParsingPipeline
