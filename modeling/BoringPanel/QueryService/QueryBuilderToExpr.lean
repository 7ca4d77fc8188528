import BoringPanel.Lib.ExprText
import BoringPanel.Lib.Fallible
import BoringPanel.QueryService.Resource.Escapes

/-!
# Filters as expressions

`Parse` of `queryBuilderToExpr` writes the filter of a pipeline as an expression of the expression language:
each item as a condition, and the operator of the filter between them. The compiler of the language is a
parameter, and so are the escape sequences of its literals.

A string value is escaped and quoted. The key of an attribute is quoted as it is, other keys are not quoted at
all; strings of a list are escaped for double quotes and put into single ones; and a list that begins with a
number is printed as it is. So not every key and value stands in the expression as a literal of its own
(`meets_iff`).
-/

namespace QueryService.QueryBuilderToExpr

open ExprText Utils

/-- A filter item; the operator and the type of the key are any texts. -/
structure FilterItem (F : Type) where
  key : String
  type : String
  operator : String
  value : GoValue F

structure FilterSet (F : Type) where
  operator : String
  items : List (FilterItem F)

/-- `logOperatorsToExpr`. -/
def logOperatorsToExpr (operator : String) : Option String :=
  [("=", "=="), ("!=", "!="), ("<", "<"), ("<=", "<="), (">", ">"), (">=", ">="), ("contains", "contains"),
    ("ncontains", "not contains"), ("regex", "matches"), ("nregex", "not matches"), ("in", "in"),
    ("nin", "not in"), ("exists", "in"), ("nexists", "not in")].lookup operator

def quoteEscapedString (str : String) : String :=
  let str := Go.replaceAll str "\\" "\\\\"
  Go.replaceAll str "\"" "\\\""

section Parse

variable {F : Type} [GoFloat F] [Go.Unicode]

def getName (item : FilterItem F) : String :=
  if item.type = "tag" then "attributes[\"" ++ item.key ++ "\"]"
  else if item.type = "resource" then "resource[\"" ++ item.key ++ "\"]"
  else item.key

def getTypeName (type : String) : String :=
  if type = "tag" then "attributes" else if type = "resource" then "resource" else ""

/-- `fmt.Sprintf("'%s'", quoteEscapedString(s))`. -/
def singleQuoted (s : String) : String := "'" ++ quoteEscapedString s ++ "'"

/-- `exprFormattedValue`; `none` where a type assertion panics. -/
def exprFormattedValue : GoValue F → Option String
  | .int n => some (toString n)
  | .float x => some (GoFloat.formatF x)
  | .string s => some ("\"" ++ quoteEscapedString s ++ "\"")
  | .bool b => some (toString b)
  | .array (.string s :: vs) => (strings? (.string s :: vs)).map fun ss =>
      "[" ++ Go.join "," (ss.map singleQuoted) ++ "]"
  -- numbers and booleans
  | .array (.int n :: vs) => some (Go.join "," (Go.fields (GoValue.array (.int n :: vs)).formatV))
  | .array (.float x :: vs) => some (Go.join "," (Go.fields (GoValue.array (.float x :: vs)).formatV))
  | .array (.bool b :: vs) => some (Go.join "," (Go.fields (GoValue.array (.bool b :: vs)).formatV))
  | _ => some ""

/-- The condition of an item, with the operator of the expression language. -/
def filterText (item : FilterItem F) (op : String) : Option String :=
  if item.operator = "exists" ∨ item.operator = "nexists" then
    (exprFormattedValue (.string item.key : GoValue F)).map fun key =>
      key ++ " " ++ op ++ " " ++ getTypeName item.type
  else
    (exprFormattedValue item.value).map fun value =>
      let name := getName item
      let filter := if item.operator = "contains" ∨ item.operator = "ncontains" then
          "lower(" ++ name ++ ") " ++ op ++ " lower(" ++ value ++ ")"
        else name ++ " " ++ op ++ " " ++ value
      -- no operators on nil values
      if item.operator ≠ "=" ∧ item.operator ≠ "!=" then name ++ " != nil && " ++ filter else filter

variable (compile : String → Except String Unit)

def parseItem (item : FilterItem F) : Except BuildError String :=
  match logOperatorsToExpr item.operator with
  | none => .error (.error "operator not supported")
  | some op =>
    match filterText item op with
    | none => .error .panic
    | some filter =>
      match compile filter with
      | .error err => .error (.error err)
      | .ok _ => .ok filter

/-- `strings.Join(res, " "+strings.ToLower(filters.Operator)+" ")`. -/
def joinFilters (filters : FilterSet F) (res : List String) : String :=
  Go.join (" " ++ Go.toLower filters.operator ++ " ") res

def parse (filters : Option (FilterSet F)) : Except BuildError String :=
  match filters with
  | none => .error .panic
  | some filters =>
    match filters.items.mapM (parseItem compile) with
    | .error err => .error err
    | .ok res =>
      match compile (joinFilters filters res) with
      | .error err => .error (.error err)
      | .ok _ => .ok (joinFilters filters res)

end Parse

/-! ### Words -/

/-- A text without white space. -/
def IsWord (w : String) : Prop := w ≠ "" ∧ ∀ c ∈ w.toList, Go.isSpace c = false

instance (w : String) : Decidable (IsWord w) :=
  decidable_of_iff (w ≠ "" ∧ (w.toList.all fun c => !Go.isSpace c) = true) (by simp [IsWord])

/-- The words of a text with blanks between them, and the same words with commas. -/
def Worded (s t : String) : Prop :=
  ∃ words, words ≠ [] ∧ (∀ w ∈ words, IsWord w) ∧ s = Go.join " " words ∧ t = Go.join "," words

theorem fieldsFrom_append {w : List Char} (hw : ∀ c ∈ w, Go.isSpace c = false) (word s : List Char) :
    Go.fieldsFrom word (w ++ s) = Go.fieldsFrom (word ++ w) s := by
  induction w generalizing word with
  | nil => rw [List.nil_append, List.append_nil]
  | cons c w ih =>
    rw [List.cons_append, Go.fieldsFrom, hw c List.mem_cons_self, if_neg Bool.false_ne_true,
      ih fun d hd => hw d (List.mem_cons_of_mem _ hd), List.append_assoc]
    rfl

theorem fields_join {words : List String} (hwords : ∀ w ∈ words, IsWord w) :
    Go.fields (Go.join " " words) = words := by
  fun_induction Go.join " " words with
  | case1 => rfl
  | case2 w =>
    obtain ⟨hne, hspace⟩ := hwords w List.mem_cons_self
    have hw := fieldsFrom_append hspace [] []
    rw [List.append_nil, List.nil_append] at hw
    rw [Go.fields, hw, Go.fieldsFrom, if_neg (by simpa using hne), String.ofList_toList]
  | case3 w w' rest ih =>
    obtain ⟨hne, hspace⟩ := hwords w List.mem_cons_self
    have hrest := ih fun v hv => hwords v (List.mem_cons_of_mem _ hv)
    rw [Go.fields] at hrest
    rw [Go.fields, String.toList_append, String.toList_append, List.append_assoc, fieldsFrom_append hspace,
      List.nil_append]
    show Go.fieldsFrom w.toList (' ' :: (Go.join " " (w' :: rest)).toList) = _
    rw [Go.fieldsFrom, if_pos (by decide), if_neg (by simpa using hne), hrest, String.ofList_toList]

theorem Worded.fields {s t : String} (h : Worded s t) : Go.join "," (Go.fields s) = t := by
  obtain ⟨words, -, hwords, rfl, rfl⟩ := h
  rw [fields_join hwords]

theorem worded_of_isWord {w : String} (h : IsWord w) : Worded w w :=
  ⟨[w], List.cons_ne_nil _ _, List.forall_mem_singleton.mpr h, rfl, rfl⟩

theorem join_append {words words' : List String} (h : words ≠ []) (h' : words' ≠ []) (sep : String) :
    Go.join sep (words ++ words') = Go.join sep words ++ sep ++ Go.join sep words' := by
  obtain ⟨w', rest', rfl⟩ := List.exists_cons_of_ne_nil h'
  fun_induction Go.join sep words with
  | case1 => exact absurd rfl h
  | case2 w => rfl
  | case3 w w₂ rest ih =>
    rw [List.cons_append, List.cons_append, Go.join, ← List.cons_append, ih (List.cons_ne_nil _ _)]
    simp only [String.append_assoc]

theorem Worded.append {s t s' t' : String} (h : Worded s t) (h' : Worded s' t') :
    Worded (s ++ " " ++ s') (t ++ "," ++ t') := by
  obtain ⟨words, hne, hwords, rfl, rfl⟩ := h
  obtain ⟨words', hne', hwords', rfl, rfl⟩ := h'
  refine ⟨words ++ words', List.append_ne_nil_of_left_ne_nil hne _, ?_, ?_, ?_⟩
  · exact fun w hw => (List.mem_append.mp hw).elim (hwords w) (hwords' w)
  · rw [join_append hne hne']
  · rw [join_append hne hne']

theorem isWord_append {w w' : String} (h : IsWord w) (h' : IsWord w') : IsWord (w ++ w') := by
  refine ⟨fun heq => h.1 (String.append_eq_empty_iff.mp heq).1, fun c hc => ?_⟩
  rw [String.toList_append] at hc
  exact (List.mem_append.mp hc).elim (h.2 c) (h'.2 c)

theorem join_modifyHead (start sep w : String) (words : List String) :
    Go.join sep ((start ++ w) :: words) = start ++ Go.join sep (w :: words) := by
  cases words with
  | nil => rfl
  | cons w' words => simp only [Go.join, String.append_assoc]

/-- The first of the words begins with something. -/
theorem Worded.prepend {s t start : String} (hstart : IsWord start) (h : Worded s t) :
    Worded (start ++ s) (start ++ t) := by
  obtain ⟨words, hne, hwords, rfl, rfl⟩ := h
  obtain ⟨w, rest, rfl⟩ := List.exists_cons_of_ne_nil hne
  obtain ⟨hw, hrest⟩ := List.forall_mem_cons.mp hwords
  refine ⟨(start ++ w) :: rest, List.cons_ne_nil _ _, ?_, ?_, ?_⟩
  · exact List.forall_mem_cons.mpr ⟨isWord_append hstart hw, hrest⟩
  · rw [join_modifyHead]
  · rw [join_modifyHead]

theorem join_concat (sep w tail : String) (words : List String) :
    Go.join sep (words ++ [w ++ tail]) = Go.join sep (words ++ [w]) ++ tail := by
  cases words with
  | nil => rfl
  | cons w' words =>
    rw [join_append (List.cons_ne_nil _ _) (List.cons_ne_nil _ _),
      join_append (List.cons_ne_nil _ _) (List.cons_ne_nil _ _), Go.join, Go.join, String.append_assoc,
      String.append_assoc, String.append_assoc]

/-- The last of the words ends in something. -/
theorem Worded.concat {s t tail : String} (htail : IsWord tail) (h : Worded s t) :
    Worded (s ++ tail) (t ++ tail) := by
  obtain ⟨words, hne, hwords, rfl, rfl⟩ := h
  obtain ⟨rest, w, rfl⟩ := (List.eq_nil_or_concat' words).resolve_left hne
  refine ⟨rest ++ [w ++ tail], List.append_ne_nil_of_right_ne_nil _ (List.cons_ne_nil _ _), ?_, ?_, ?_⟩
  · intro v hv
    rcases List.mem_append.mp hv with hv | hv
    · exact hwords v (List.mem_append_left _ hv)
    · rw [List.mem_singleton.mp hv]
      exact isWord_append (hwords w (List.mem_append_right _ List.mem_cons_self)) htail
  · rw [join_concat]
  · rw [join_concat]

/-- Words with commas between them are no longer than the text that they are from. -/
theorem length_join_fieldsFrom (word s : List Char) :
    (Go.join "," (Go.fieldsFrom word s)).length ≤ word.length + s.length := by
  fun_induction Go.fieldsFrom word s with
  | case1 => exact Nat.zero_le _
  | case2 word h => simp [Go.join]
  | case3 c s hspace ih => exact ih.trans (by simp)
  | case4 word c s hspace hne ih =>
    rw [List.length_nil, Nat.zero_add] at ih
    cases hrest : Go.fieldsFrom [] s with
    | nil => simp [Go.join]
    | cons w rest =>
      rw [hrest] at ih
      rw [Go.join, String.length_append, String.length_append, String.length_ofList, List.length_cons]
      have hcomma : ",".length = 1 := rfl
      omega
  | case5 word c s hspace ih =>
    refine ih.trans ?_
    simp
    omega

/-! ### Literals of values -/

section Literals

variable {F : Type} [GoFloat F] [EscapeSequences]

mutual

/-- A text is a literal of a value, where `number` writes the numbers outside of lists. -/
def ValueLiteral (number : F → String) : GoValue F → String → Prop
  | .nil, _ => False
  | .bool b, text => text = toString b
  | .int n, text => text = toString n
  | .float x, text => text = number x
  | .string s, text => IsLiteral text.toList s.toList
  | .array vs, text => ∃ texts, ValueLiterals vs texts ∧ text = "[" ++ Go.join "," texts ++ "]"
  | .object _, _ => False

def ValueLiterals : List (GoValue F) → List String → Prop
  | [], texts => texts = []
  | v :: vs, texts => ∃ text rest, texts = text :: rest ∧ ValueLiteral GoFloat.formatV v text ∧
      ValueLiterals vs rest

end

mutual

/-- Numbers, booleans, and lists of these. -/
def plain : GoValue F → Bool
  | .bool _ => true
  | .int _ => true
  | .float _ => true
  | .array vs => plainAll vs
  | _ => false

def plainAll : List (GoValue F) → Bool
  | [] => true
  | v :: vs => plain v && plainAll vs

end

omit [GoFloat F] [EscapeSequences] in
theorem length_join_cons_cons (sep s t : String) (rest : List String) :
    (Go.join sep (s :: t :: rest)).length = s.length + sep.length + (Go.join sep (t :: rest)).length := by
  rw [Go.join, String.length_append, String.length_append]

mutual

/-- The literal of a value is no shorter than the value as it is printed, and as long only without strings. -/
theorem length_formatV_le : ∀ {v : GoValue F} {text : String}, ValueLiteral GoFloat.formatV v text →
    v.formatV.length ≤ text.length ∧ (v.formatV.length = text.length → plain v)
  | .nil, _, h => False.elim h
  | .bool b, _, h => ⟨(congrArg String.length h).ge, fun _ => rfl⟩
  | .int n, _, h => ⟨(congrArg String.length h).ge, fun _ => rfl⟩
  | .float x, _, h => ⟨(congrArg String.length h).ge, fun _ => rfl⟩
  | .string s, text, h => by
    have hlength := length_le_of_isLiteral h
    rw [String.length_toList, String.length_toList] at hlength
    rw [GoValue.formatV]
    exact ⟨by omega, fun heq => by omega⟩
  | .array vs, _, h => by
    obtain ⟨texts, htexts, rfl⟩ := h
    obtain ⟨hle, heq⟩ := length_formatVs_le htexts
    rw [GoValue.formatV, String.length_append, String.length_append, String.length_append,
      String.length_append]
    exact ⟨by omega, fun h => heq (by omega)⟩
  | .object _, _, h => False.elim h

theorem length_formatVs_le : ∀ {vs : List (GoValue F)} {texts : List String}, ValueLiterals vs texts →
    (GoValue.formatVs vs).length ≤ (Go.join "," texts).length ∧
      ((GoValue.formatVs vs).length = (Go.join "," texts).length → plainAll vs)
  | [], _, h => by
    obtain rfl := h
    exact ⟨le_rfl, fun _ => rfl⟩
  | [v], _, h => by
    obtain ⟨text, rest, rfl, hv, hrest⟩ := h
    obtain rfl := hrest
    obtain ⟨hle, heq⟩ := length_formatV_le hv
    refine ⟨hle, fun h => ?_⟩
    rw [plainAll, heq h]
    rfl
  | v :: w :: vs, _, h => by
    obtain ⟨text, rest, rfl, hv, hrest⟩ := h
    obtain ⟨hle, heq⟩ := length_formatV_le hv
    obtain ⟨hles, heqs⟩ := length_formatVs_le hrest
    obtain ⟨text', rest', rfl, -, -⟩ := hrest
    have hcomma : ",".length = 1 := rfl
    have hblank : " ".length = 1 := rfl
    rw [length_join_cons_cons, GoValue.formatVs, String.length_append, String.length_append]
    refine ⟨by omega, fun h => ?_⟩
    rw [plainAll, heq (by omega), heqs (by omega)]
    rfl

end

/-! ### Lists of numbers -/

omit [GoFloat F] [EscapeSequences] in
theorem isWord_repr (n : Nat) : IsWord n.repr := by
  have hne : (n.repr).toList ≠ [] := by
    rw [Nat.toList_repr]
    exact Nat.toDigits_ne_nil
  refine ⟨fun h => hne (by rw [h]; rfl), fun c hc => ?_⟩
  rw [Nat.toList_repr] at hc
  have hdigit := Nat.isDigit_of_mem_toDigits (by decide) (by decide) hc
  have hbounds : 48 ≤ c.toNat ∧ c.toNat ≤ 57 := by
    simpa [Char.isDigit, UInt32.le_iff_toNat_le] using hdigit
  rw [Go.isSpace, decide_eq_false_iff_not]
  simp only [List.mem_cons, List.not_mem_nil, or_false]
  omega

omit [GoFloat F] [EscapeSequences] in
theorem isWord_toString_int (n : Int) : IsWord (toString n) := by
  cases n with
  | ofNat n => exact isWord_repr n
  | negSucc n => exact isWord_append (show IsWord "-" by decide) (isWord_repr (n + 1))

omit [GoFloat F] [EscapeSequences] in
theorem isWord_toString_bool (b : Bool) : IsWord (toString b) := by
  cases b with
  | false => decide
  | true => decide

mutual

/-- A value without texts is printed as words, which with commas between them are a literal of it. -/
theorem exists_worded (hnumber : ∀ x : F, IsWord (GoFloat.formatV x)) : ∀ {v : GoValue F}, plain v →
    ∃ text, Worded v.formatV text ∧ ValueLiteral GoFloat.formatV v text
  | .bool b, _ => ⟨_, worded_of_isWord (isWord_toString_bool b), rfl⟩
  | .int n, _ => ⟨_, worded_of_isWord (isWord_toString_int n), rfl⟩
  | .float x, _ => ⟨_, worded_of_isWord (hnumber x), rfl⟩
  | .array [], _ => ⟨"[]", worded_of_isWord (show IsWord "[]" by decide), [], rfl, rfl⟩
  | .array (v :: vs), h => by
    obtain ⟨texts, hworded, hliterals⟩ := exists_worded_list hnumber h (List.cons_ne_nil v vs)
    refine ⟨_, ?_, texts, hliterals, rfl⟩
    exact (hworded.prepend (show IsWord "[" by decide)).concat (show IsWord "]" by decide)
  | .nil, h => by cases h
  | .string _, h => by cases h
  | .object _, h => by cases h

theorem exists_worded_list (hnumber : ∀ x : F, IsWord (GoFloat.formatV x)) : ∀ {vs : List (GoValue F)},
    plainAll vs → vs ≠ [] →
    ∃ texts, Worded (GoValue.formatVs vs) (Go.join "," texts) ∧ ValueLiterals vs texts
  | [], _, hne => absurd rfl hne
  | [v], h, _ => by
    obtain ⟨text, hworded, hliteral⟩ := exists_worded hnumber (Bool.and_eq_true_iff.mp h).1
    exact ⟨[text], hworded, text, [], rfl, hliteral, rfl⟩
  | v :: w :: vs, h, _ => by
    obtain ⟨hv, hvs⟩ := Bool.and_eq_true_iff.mp h
    obtain ⟨text, hworded, hliteral⟩ := exists_worded hnumber hv
    obtain ⟨texts, hwordeds, hliterals⟩ := exists_worded_list hnumber hvs (List.cons_ne_nil w vs)
    obtain ⟨text', rest, rfl, hrest⟩ := hliterals
    exact ⟨text :: text' :: rest, hworded.append hwordeds, text, _, rfl, hliteral, text', rest, rfl, hrest⟩

end

/-- A list that is printed is a literal of itself if and only if there are only numbers and booleans in it. -/
theorem valueLiteral_fields_iff (hnumber : ∀ x : F, IsWord (GoFloat.formatV x)) (number : F → String)
    (vs : List (GoValue F)) :
    ValueLiteral number (.array vs) (Go.join "," (Go.fields (GoValue.array vs).formatV)) ↔ plainAll vs := by
  constructor
  · intro h
    have hliteral : ValueLiteral GoFloat.formatV (.array vs) (Go.join "," (Go.fields (GoValue.array vs).formatV)) := h
    obtain ⟨hle, heq⟩ := length_formatV_le hliteral
    have hshort := length_join_fieldsFrom [] (GoValue.array vs).formatV.toList
    rw [List.length_nil, Nat.zero_add, String.length_toList] at hshort
    exact heq (le_antisymm hle hshort)
  · intro h
    obtain ⟨text, hworded, hliteral⟩ := exists_worded hnumber (v := .array vs) h
    rw [hworded.fields]
    exact hliteral

/-! ### Values -/

omit [GoFloat F] [EscapeSequences] in
theorem toList_quoteEscapedString (s : String) : (quoteEscapedString s).toList = escapeText s.toList := by
  simp only [quoteEscapedString, Go.toList_replaceAll]
  rw [show "\\".toList = ['\\'] from rfl, show "\"".toList = ['"'] from rfl,
    Substitution.replaceAll_singleton, Substitution.replaceAll_singleton, List.flatMap_assoc, escapeText]
  refine List.flatMap_congr fun c _ => ?_
  by_cases hc : c = '\\'
  · subst hc
    decide
  · rw [escapeChar, if_neg hc, if_neg hc]
    simp

omit [GoFloat F] [EscapeSequences] in
theorem toList_singleQuoted (s : String) :
    (singleQuoted s).toList = '\'' :: (escapeText s.toList ++ ['\'']) := by
  rw [singleQuoted, String.toList_append, String.toList_append, toList_quoteEscapedString]
  rfl

theorem isLiteral_singleQuoted {s : String} (h : '\'' ∉ s.toList) :
    IsLiteral (singleQuoted s).toList s.toList :=
  ⟨'\'', by decide, _, toList_singleQuoted s, (reads_escapeText_iff (by decide)).mpr fun hmem => absurd hmem h⟩

omit [GoFloat F] [EscapeSequences] in
theorem strings?_eq_some {vs : List (GoValue F)} {ss : List String} (h : strings? vs = some ss) :
    vs = ss.map .string := by
  fun_induction strings? vs generalizing ss with
  | case1 => rw [← Option.some.inj h]; rfl
  | case2 s vs ih =>
    obtain ⟨ss', hss', rfl⟩ := Option.map_eq_some_iff.mp h
    rw [ih hss']
    rfl
  | case3 => cases h

theorem valueLiterals_map_string {ss : List String} (h : ∀ s ∈ ss, '\'' ∉ s.toList) :
    ValueLiterals (ss.map (GoValue.string (F := F))) (ss.map singleQuoted) := by
  induction ss with
  | nil => rfl
  | cons s ss ih =>
    obtain ⟨hs, hss⟩ := List.forall_mem_cons.mp h
    exact ⟨_, _, rfl, isLiteral_singleQuoted hs, ih hss⟩

/-- Literals that are joined to the text of the list hold no single quotes. -/
theorem not_mem_of_valueLiterals {ss : List String} : ∀ {texts : List String},
    ValueLiterals (ss.map (GoValue.string (F := F))) texts →
    Go.join "," texts = Go.join "," (ss.map singleQuoted) → ∀ s ∈ ss, '\'' ∉ s.toList := by
  induction ss with
  | nil => exact fun _ _ s hs => absurd hs List.not_mem_nil
  | cons s ss ih =>
    rintro _ ⟨text, rest, rfl, hs, hss⟩ heq
    cases ss with
    | nil =>
      obtain rfl := hss
      have hlist : text.toList ++ [] = '\'' :: (escapeText s.toList ++ ['\'']) := by
        rw [List.append_nil, ← toList_singleQuoted]
        exact congrArg String.toList heq
      exact List.forall_mem_singleton.mpr (of_isLiteral_append hs hlist).1
    | cons s' ss =>
      obtain ⟨text', rest', rfl, hs', hrest⟩ := hss
      have hlist : text.toList ++ ',' :: (Go.join "," (text' :: rest')).toList = '\'' ::
          (escapeText s.toList ++ '\'' :: ',' :: (Go.join "," ((s' :: ss).map singleQuoted)).toList) := by
        simpa [Go.join, toList_singleQuoted] using congrArg String.toList heq
      obtain ⟨hmem, hlist⟩ := of_isLiteral_append hs hlist
      have htail : Go.join "," (text' :: rest') = Go.join "," ((s' :: ss).map singleQuoted) :=
        String.toList_injective (List.cons.inj hlist).2
      exact List.forall_mem_cons.mpr ⟨hmem, ih ⟨text', rest', rfl, hs', hrest⟩ htail⟩

/-- A value whose text is a literal of it: a list of texts has no single quotes, and a list that begins with a
number or a boolean has no texts. -/
def WellQuoted : GoValue F → Prop
  | .bool _ => True
  | .int _ => True
  | .float _ => True
  | .string _ => True
  | .array (.string s :: vs) => ∃ ss, strings? (.string s :: vs) = some ss ∧ ∀ s ∈ ss, '\'' ∉ s.toList
  | .array (.bool _ :: vs) => plainAll vs
  | .array (.int _ :: vs) => plainAll vs
  | .array (.float _ :: vs) => plainAll vs
  | _ => False

/-- A list that begins with a text and holds something else. -/
def mixed : GoValue F → Bool
  | .array (.string s :: vs) => (strings? (.string s :: vs)).isNone
  | _ => false

omit [EscapeSequences] in
theorem exprFormattedValue_eq_none_iff {v : GoValue F} : exprFormattedValue v = none ↔ mixed v := by
  match v with
  | .array (.string s :: vs) =>
    rw [exprFormattedValue, Option.map_eq_none_iff, mixed, Option.isNone_iff_eq_none]
  | .nil | .bool _ | .int _ | .float _ | .string _ | .object _ | .array [] | .array (.nil :: _)
  | .array (.bool _ :: _) | .array (.int _ :: _) | .array (.float _ :: _) | .array (.array _ :: _)
  | .array (.object _ :: _) => simp [exprFormattedValue, mixed]

theorem not_valueLiteral_empty (vs : List (GoValue F)) : ¬ ValueLiteral GoFloat.formatF (.array vs) "" := by
  rintro ⟨texts, -, h⟩
  have hlength := congrArg String.length h
  rw [String.length_append, String.length_append, String.length_empty] at hlength
  have hopen : "[".length = 1 := rfl
  omega

theorem isLiteral_doubleQuoted (s : String) : IsLiteral ("\"" ++ quoteEscapedString s ++ "\"").toList s.toList := by
  refine ⟨'"', List.mem_cons_self, escapeText s.toList, ?_, (reads_escapeText_iff List.mem_cons_self).mpr ?_⟩
  · rw [String.toList_append, String.toList_append, toList_quoteEscapedString]
    rfl
  · exact fun _ => by decide

theorem valueLiteral_strings_iff {vs : List (GoValue F)} {ss : List String} (h : strings? vs = some ss) :
    ValueLiteral GoFloat.formatF (.array vs) ("[" ++ Go.join "," (ss.map singleQuoted) ++ "]") ↔
      ∀ s ∈ ss, '\'' ∉ s.toList := by
  rw [strings?_eq_some h]
  constructor
  · rintro ⟨texts, htexts, heq⟩
    refine not_mem_of_valueLiterals htexts (String.toList_injective ?_)
    simpa using (congrArg String.toList heq).symm
  · exact fun hss => ⟨_, valueLiterals_map_string hss, rfl⟩

/-- The text of a value is a literal of it. -/
theorem valueLiteral_iff (hnumber : ∀ x : F, IsWord (GoFloat.formatV x)) {v : GoValue F} {text : String}
    (h : exprFormattedValue v = some text) : ValueLiteral GoFloat.formatF v text ↔ WellQuoted v := by
  match v with
  | .nil => exact Iff.rfl
  | .object _ => exact Iff.rfl
  | .bool _ => exact iff_of_true (Option.some.inj h).symm trivial
  | .int _ => exact iff_of_true (Option.some.inj h).symm trivial
  | .float _ => exact iff_of_true (Option.some.inj h).symm trivial
  | .string s => exact iff_of_true (Option.some.inj h ▸ isLiteral_doubleQuoted s) trivial
  | .array (.string s :: vs) =>
    obtain ⟨ss, hss, rfl⟩ := Option.map_eq_some_iff.mp h
    rw [valueLiteral_strings_iff hss, WellQuoted, hss]
    simp
  | .array (.bool _ :: vs) => exact Option.some.inj h ▸ valueLiteral_fields_iff hnumber _ _
  | .array (.int _ :: vs) => exact Option.some.inj h ▸ valueLiteral_fields_iff hnumber _ _
  | .array (.float _ :: vs) => exact Option.some.inj h ▸ valueLiteral_fields_iff hnumber _ _
  | .array [] | .array (.nil :: _) | .array (.array _ :: _) | .array (.object _ :: _) =>
    exact iff_of_false (Option.some.inj h ▸ not_valueLiteral_empty _) id

end Literals

/-! ### Conditions of items -/

section Items

variable {F : Type} [GoFloat F] [Go.Unicode] [EscapeSequences]

/-- The item asks whether there is an attribute with the key. -/
def FilterItem.isExistence (item : FilterItem F) : Bool :=
  item.operator = "exists" || item.operator = "nexists"

/-- The key is that of an attribute, of the log or of its resource. -/
def FilterItem.isAttribute (item : FilterItem F) : Bool := item.type = "tag" || item.type = "resource"

/-- The text that is put for the key of an item. -/
def keyText (item : FilterItem F) : String :=
  if item.isExistence then "\"" ++ quoteEscapedString item.key ++ "\""
  else if item.isAttribute then "\"" ++ item.key ++ "\""
  else item.key

/-- The condition of an item around the texts of its key and its value. -/
def template (item : FilterItem F) (op key value : String) : String :=
  if item.isExistence then key ++ " " ++ op ++ " " ++ getTypeName item.type
  else
    let name := if item.isAttribute then getTypeName item.type ++ "[" ++ key ++ "]" else key
    let filter := if item.operator = "contains" ∨ item.operator = "ncontains" then
        "lower(" ++ name ++ ") " ++ op ++ " lower(" ++ value ++ ")"
      else name ++ " " ++ op ++ " " ++ value
    if item.operator ≠ "=" ∧ item.operator ≠ "!=" then name ++ " != nil && " ++ filter else filter

omit [GoFloat F] [Go.Unicode] [EscapeSequences] in
theorem getName_eq {item : FilterItem F} (h : item.isExistence = false) :
    getName item = if item.isAttribute then getTypeName item.type ++ "[" ++ keyText item ++ "]" else keyText item := by
  rw [getName, keyText, h, if_neg Bool.false_ne_true, FilterItem.isAttribute, getTypeName]
  by_cases htag : item.type = "tag"
  · simp [htag, String.append_assoc]
    rfl
  by_cases hresource : item.type = "resource"
  · simp [hresource, String.append_assoc]
    rfl
  · simp [htag, hresource]

/-- The text of the value, where the condition has one. -/
def valueText (item : FilterItem F) : Option String :=
  if item.isExistence then some "" else exprFormattedValue item.value

omit [Go.Unicode] [EscapeSequences] in
theorem filterText_eq (item : FilterItem F) (op : String) :
    filterText item op = (valueText item).map fun value => template item op (keyText item) value := by
  by_cases hexists : item.isExistence
  · have hoperator : item.operator = "exists" ∨ item.operator = "nexists" := by
      simpa [FilterItem.isExistence] using hexists
    rw [filterText, if_pos hoperator, valueText, if_pos hexists, Option.map_some, template, if_pos hexists,
      keyText, if_pos hexists]
    rfl
  · have hoperator : ¬ (item.operator = "exists" ∨ item.operator = "nexists") := by
      simpa [FilterItem.isExistence] using hexists
    rw [filterText, if_neg hoperator, valueText, if_neg hexists, getName_eq (Bool.eq_false_iff.mpr hexists)]
    refine congrArg (Option.map · _) (funext fun value => ?_)
    rw [template, if_neg hexists]

/-- The condition of an item, whose key and whose value stand in it as literals. -/
structure ItemCondition (item : FilterItem F) (condition : String) : Prop where
  key : IsLiteral (keyText item).toList item.key.toList
  value : item.isExistence = false → ∃ text, exprFormattedValue item.value = some text ∧
    ValueLiteral GoFloat.formatF item.value text
  eq : ∃ op text, logOperatorsToExpr item.operator = some op ∧ valueText item = some text ∧
    condition = template item op (keyText item) text

/-- The operators between conditions. -/
def logicalOperators : List String := ["and", "or", "&&", "||"]

/-- The conditions of the items with a logical operator between them. -/
structure Confined (filters : FilterSet F) (q : String) : Prop where
  items : ∃ conditions, List.Forall₂ ItemCondition filters.items conditions ∧ q = joinFilters filters conditions
  operator : 2 ≤ filters.items.length → ∃ op ∈ logicalOperators, Go.fields (Go.toLower filters.operator) = [op]

/-- An item whose key and whose value are put as literals. -/
def QuotedItem (item : FilterItem F) : Prop :=
  item.isExistence ∨
    item.isAttribute ∧ '"' ∉ item.key.toList ∧ '\\' ∉ item.key.toList ∧ WellQuoted item.value

omit [GoFloat F] [Go.Unicode] in
theorem isLiteral_quoted_iff (key : String) :
    IsLiteral ("\"" ++ key ++ "\"").toList key.toList ↔ '"' ∉ key.toList ∧ '\\' ∉ key.toList := by
  have htext : ("\"" ++ key ++ "\"").toList = '"' :: (key.toList ++ ['"']) := by simp
  rw [htext, ← reads_self_iff]
  constructor
  · rintro ⟨quote, -, body, heq, hreads⟩
    obtain ⟨rfl, hbody⟩ := List.cons.inj heq
    rwa [← List.append_cancel_right hbody] at hreads
  · exact fun h => ⟨'"', List.mem_cons_self, _, rfl, h⟩

omit [GoFloat F] [Go.Unicode] in
theorem isLiteral_keyText_iff (item : FilterItem F) : IsLiteral (keyText item).toList item.key.toList ↔
    item.isExistence ∨ item.isAttribute ∧ '"' ∉ item.key.toList ∧ '\\' ∉ item.key.toList := by
  rw [keyText]
  by_cases hexists : item.isExistence
  · rw [if_pos hexists]
    exact iff_of_true (isLiteral_doubleQuoted item.key) (.inl hexists)
  rw [if_neg hexists]
  by_cases hattribute : item.isAttribute
  · rw [if_pos hattribute, isLiteral_quoted_iff]
    simp [hexists, hattribute]
  · rw [if_neg hattribute]
    -- A key is no literal of itself, since it is too short.
    refine iff_of_false (fun h => ?_) (by simp [hexists, hattribute])
    have hlength := length_le_of_isLiteral h
    omega

/-! ### The whole filter -/

variable (compile : String → Except String Unit)

/-- The condition that the code writes for an item. -/
def condition (item : FilterItem F) : String :=
  ((logOperatorsToExpr item.operator).bind (filterText item)).getD ""

/-- An item whose condition is written and compiles. -/
def Accepted (item : FilterItem F) : Prop :=
  ∃ op filter, logOperatorsToExpr item.operator = some op ∧ filterText item op = some filter ∧
    compile filter = .ok ()

omit [Go.Unicode] [EscapeSequences] in
theorem parseItem_ok_iff {item : FilterItem F} {filter : String} :
    parseItem compile item = .ok filter ↔ Accepted compile item ∧ filter = condition item := by
  rw [parseItem, Accepted, condition]
  cases logOperatorsToExpr item.operator with
  | none => simp
  | some op =>
    cases hfilter : filterText item op with
    | none => simp [hfilter]
    | some filter' =>
      cases hcompile : compile filter' with
      | error err => simp [hfilter, hcompile]
      | ok u => simp [hfilter, hcompile, eq_comm]

omit [Go.Unicode] [EscapeSequences] in
theorem parseItem_panic_iff {item : FilterItem F} : parseItem compile item = .error .panic ↔
    (logOperatorsToExpr item.operator).isSome ∧ item.isExistence = false ∧ mixed item.value := by
  rw [parseItem]
  cases logOperatorsToExpr item.operator with
  | none => simp
  | some op =>
    dsimp only
    have hpanic : filterText item op = none ↔ item.isExistence = false ∧ mixed item.value := by
      rw [filterText_eq, Option.map_eq_none_iff, valueText]
      by_cases hexists : item.isExistence
      · simp [hexists]
      · simp [hexists, exprFormattedValue_eq_none_iff]
    cases hfilter : filterText item op with
    | none => simpa using hpanic.mp hfilter
    | some filter =>
      rw [hfilter] at hpanic
      cases hcompile : compile filter with
      | error err => simpa [hcompile] using hpanic
      | ok u => simpa [hcompile] using hpanic

/-- The filter is an error or an expression in which keys and values are literals. -/
structure Meets (filters : Option (FilterSet F)) : Prop where
  noPanic : parse compile filters ≠ .error .panic
  confined : ∀ q, parse compile filters = .ok q → ∃ fs, filters = some fs ∧ Confined fs q

/-- No item that is reached has a mixed list, and in a filter that compiles all items are quoted. -/
structure Safe (filters : FilterSet F) : Prop where
  reached : ∀ before item after, filters.items = before ++ item :: after →
    (∀ b ∈ before, Accepted compile b) → (logOperatorsToExpr item.operator).isSome →
    item.isExistence = false → mixed item.value = false
  quoted : (∀ item ∈ filters.items, Accepted compile item) →
    compile (joinFilters filters (filters.items.map condition)) = .ok () →
    (2 ≤ filters.items.length → ∃ op ∈ logicalOperators, Go.fields (Go.toLower filters.operator) = [op]) ∧
      ∀ item ∈ filters.items, QuotedItem item

omit [Go.Unicode] [EscapeSequences] in
theorem mapM_parseItem {items : List (FilterItem F)} {res : List String} :
    items.mapM (parseItem compile) = .ok res ↔
      (∀ item ∈ items, Accepted compile item) ∧ res = items.map condition := by
  have hokay : ∀ {res : List String}, items.mapM (parseItem compile) = .ok res →
      (∀ item ∈ items, Accepted compile item) ∧ res = items.map condition := by
    intro res h
    have hforall := Fallible.forall₂_of_mapM h
    clear h
    induction hforall with
    | nil => exact ⟨fun item hitem => absurd hitem List.not_mem_nil, rfl⟩
    | cons hitem _ ih =>
      obtain ⟨haccepted, rfl⟩ := (parseItem_ok_iff compile).mp hitem
      exact ⟨List.forall_mem_cons.mpr ⟨haccepted, ih.1⟩, congrArg (List.cons _) ih.2⟩
  constructor
  · exact hokay
  · rintro ⟨haccepted, rfl⟩
    obtain ⟨res, hres⟩ := Fallible.exists_mapM_ok (f := parseItem compile) fun item hitem =>
      ⟨_, (parseItem_ok_iff compile).mpr ⟨haccepted item hitem, rfl⟩⟩
    rw [hres, (hokay hres).2]

omit [EscapeSequences] in
theorem parse_ok_iff {filters : FilterSet F} {q : String} : parse compile (some filters) = .ok q ↔
    (∀ item ∈ filters.items, Accepted compile item) ∧
      compile (joinFilters filters (filters.items.map condition)) = .ok () ∧
      q = joinFilters filters (filters.items.map condition) := by
  rw [parse]
  have hmap := fun res => @mapM_parseItem F _ compile filters.items res
  cases hitems : filters.items.mapM (parseItem compile) with
  | error err =>
    refine iff_of_false (fun h => by cases h) fun h => ?_
    cases hitems.symm.trans ((hmap _).mpr ⟨h.1, rfl⟩)
  | ok res =>
    obtain ⟨haccepted, rfl⟩ := (hmap _).mp hitems
    dsimp only
    cases hcompile : compile (joinFilters filters (filters.items.map condition)) with
    | error err => simp
    | ok u =>
      constructor
      · exact fun h => ⟨haccepted, rfl, (Except.ok.inj h).symm⟩
      · rintro ⟨-, -, rfl⟩
        rfl

omit [EscapeSequences] in
theorem parse_panic_iff {filters : FilterSet F} : parse compile (some filters) = .error .panic ↔
    ∃ before item after, filters.items = before ++ item :: after ∧ (∀ b ∈ before, Accepted compile b) ∧
      (logOperatorsToExpr item.operator).isSome ∧ item.isExistence = false ∧ mixed item.value := by
  have hparse : parse compile (some filters) = .error .panic ↔
      filters.items.mapM (parseItem compile) = .error .panic := by
    rw [parse]
    cases filters.items.mapM (parseItem compile) with
    | error err => simp
    | ok res =>
      dsimp only
      cases compile (joinFilters filters res) with
      | error err => simp
      | ok u => simp
  rw [hparse, Fallible.mapM_eq_error_iff]
  have haccepted : ∀ b : FilterItem F, (∃ filter, parseItem compile b = .ok filter) ↔ Accepted compile b := by
    intro b
    simp [parseItem_ok_iff]
  simp only [haccepted, parseItem_panic_iff]

omit [Go.Unicode] in
theorem itemCondition_iff (hnumber : ∀ x : F, IsWord (GoFloat.formatV x)) {item : FilterItem F}
    (haccepted : Accepted compile item) : ItemCondition item (condition item) ↔ QuotedItem item := by
  obtain ⟨op, filter, hop, hfilter, -⟩ := haccepted
  obtain ⟨text, htext, rfl⟩ := Option.map_eq_some_iff.mp ((filterText_eq item op).symm.trans hfilter)
  have heq : condition item = template item op (keyText item) text := by
    rw [condition, hop, Option.bind_some, hfilter, Option.getD_some]
  have hvalue : item.isExistence = false → ((∃ text, exprFormattedValue item.value = some text ∧
      ValueLiteral GoFloat.formatF item.value text) ↔ WellQuoted item.value) := by
    intro hexists
    rw [valueText, hexists, if_neg Bool.false_ne_true] at htext
    rw [htext, ← valueLiteral_iff hnumber htext]
    simp
  constructor
  · intro h
    rcases (isLiteral_keyText_iff item).mp h.key with hexists | ⟨hattribute, hquote, hslash⟩
    · exact .inl hexists
    · by_cases hexists : item.isExistence
      · exact .inl hexists
      · have hfalse := Bool.eq_false_iff.mpr hexists
        exact .inr ⟨hattribute, hquote, hslash, (hvalue hfalse).mp (h.value hfalse)⟩
  · intro h
    refine ⟨(isLiteral_keyText_iff item).mpr ?_, fun hexists => ?_, op, text, hop, htext, heq⟩
    · exact h.imp_right fun h => ⟨h.1, h.2.1, h.2.2.1⟩
    · rcases h with h | h
      · rw [hexists] at h
        cases h
      · exact (hvalue hexists).mpr h.2.2.2

theorem confined_iff (hnumber : ∀ x : F, IsWord (GoFloat.formatV x)) {filters : FilterSet F}
    (haccepted : ∀ item ∈ filters.items, Accepted compile item) :
    Confined filters (joinFilters filters (filters.items.map condition)) ↔
      (2 ≤ filters.items.length → ∃ op ∈ logicalOperators, Go.fields (Go.toLower filters.operator) = [op]) ∧
        ∀ item ∈ filters.items, QuotedItem item := by
  constructor
  · intro h
    refine ⟨h.operator, ?_⟩
    obtain ⟨conditions, hconditions, -⟩ := h.items
    intro item hitem
    obtain ⟨condition', hcondition⟩ : ∃ c, ItemCondition item c := by
      clear h haccepted
      generalize filters.items = items at hitem hconditions
      induction hconditions with
      | nil => cases hitem
      | cons hc _ ih =>
        rcases List.mem_cons.mp hitem with rfl | hitem
        · exact ⟨_, hc⟩
        · exact ih hitem
    refine (itemCondition_iff compile hnumber (haccepted item hitem)).mp ?_
    obtain ⟨op, text, hop, htext, rfl⟩ := hcondition.eq
    have heq : condition item = template item op (keyText item) text := by
      rw [condition, hop, Option.bind_some, filterText_eq, htext]
      rfl
    exact heq ▸ hcondition
  · rintro ⟨hoperator, hitems⟩
    refine ⟨⟨_, List.forall₂_map_right_iff.mpr (List.forall₂_same.mpr fun item hitem => ?_), rfl⟩, hoperator⟩
    exact (itemCondition_iff compile hnumber (haccepted item hitem)).mpr (hitems item hitem)

/-- A filter is written as an error or as conditions whose keys and values are literals, without panicking, if
and only if it is there and safe. -/
theorem meets_iff (hnumber : ∀ x : F, IsWord (GoFloat.formatV x)) (filters : Option (FilterSet F)) :
    Meets compile filters ↔ ∃ fs, filters = some fs ∧ Safe compile fs := by
  cases filters with
  | none => exact iff_of_false (fun h => h.noPanic rfl) (by rintro ⟨fs, h, -⟩; cases h)
  | some filters =>
    constructor
    · intro h
      refine ⟨filters, rfl, fun before item after hitems hbefore hop hexists => ?_, fun haccepted hcompile => ?_⟩
      · rw [Bool.eq_false_iff]
        exact fun hmixed => h.noPanic ((parse_panic_iff compile).mpr
          ⟨before, item, after, hitems, hbefore, hop, hexists, hmixed⟩)
      · obtain ⟨fs, hfs, hconfined⟩ := h.confined _ ((parse_ok_iff compile).mpr ⟨haccepted, hcompile, rfl⟩)
        obtain rfl := Option.some.inj hfs
        exact (confined_iff compile hnumber haccepted).mp hconfined
    · rintro ⟨fs, hfs, hsafe⟩
      obtain rfl := Option.some.inj hfs
      constructor
      · intro hpanic
        obtain ⟨before, item, after, hitems, hbefore, hop, hexists, hmixed⟩ := (parse_panic_iff compile).mp hpanic
        rw [hsafe.reached before item after hitems hbefore hop hexists] at hmixed
        cases hmixed
      · intro q hq
        obtain ⟨haccepted, hcompile, rfl⟩ := (parse_ok_iff compile).mp hq
        exact ⟨filters, rfl, (confined_iff compile hnumber haccepted).mpr (hsafe.quoted haccepted hcompile)⟩

end Items

/-! ### Examples -/

/-- The escape sequences of the backslash and the quotes. -/
@[reducible] def plainEscapes : EscapeSequences where
  escape e c := e = ['\\', c] ∧ c ∈ ['\\', '"', '\'']
  escape_backslash rest c := by
    constructor
    · rintro ⟨h, -⟩
      obtain ⟨rfl, rfl⟩ : '\\' = c ∧ rest = [] := by simpa using h
      exact ⟨rfl, rfl⟩
    · rintro ⟨rfl, rfl⟩
      exact ⟨rfl, by decide⟩
  escape_quote rest c := by
    constructor
    · rintro ⟨h, -⟩
      obtain ⟨rfl, rfl⟩ : '"' = c ∧ rest = [] := by simpa using h
      exact ⟨rfl, rfl⟩
    · rintro ⟨rfl, rfl⟩
      exact ⟨rfl, by decide⟩
  exists_of_escape e c h := ⟨c, [], h.1⟩

def methodIsGet : FilterItem Int := ⟨"method", "tag", "=", .string "GET"⟩

/-- A condition on an attribute that is one of the texts. -/
def methodIn (texts : List String) : FilterItem Int := ⟨"method", "tag", "in", .array (texts.map .string)⟩

theorem meets_iff_get : letI := plainEscapes
    letI := Go.Unicode.ascii
    Meets (fun _ => .ok ()) (some ⟨"AND", [methodIsGet, methodIn ["GET", "a\"b"]]⟩) := by
  let _ := plainEscapes
  let _ := Go.Unicode.ascii
  refine (meets_iff (fun _ => .ok ()) isWord_toString_int _).mpr ⟨_, rfl, fun before item after hitems _ _ _ => ?_,
    fun _ _ => ⟨fun _ => ⟨"and", by decide, by decide⟩, ?_⟩⟩
  · have hmem : item ∈ [methodIsGet, methodIn ["GET", "a\"b"]] := by
      rw [show [methodIsGet, methodIn ["GET", "a\"b"]] = before ++ item :: after from hitems]
      exact List.mem_append_right _ List.mem_cons_self
    rcases List.mem_pair.mp hmem with rfl | rfl
    · rfl
    · rfl
  · intro item hitem
    rcases List.mem_pair.mp hitem with rfl | rfl
    · exact .inr ⟨rfl, by decide, by decide, trivial⟩
    · exact .inr ⟨rfl, by decide, by decide, _, rfl, by decide⟩

/-- A request without a filter, and a text of a list that ends its literal. -/
theorem not_meets_none : letI := plainEscapes
    letI := Go.Unicode.ascii
    ¬ Meets (F := Int) (fun _ => .ok ()) none ∧
      ¬ Meets (fun _ => .ok ()) (some ⟨"AND", [methodIn ["x'] or true or 'a' in ['y"]]⟩) := by
  let _ := plainEscapes
  let _ := Go.Unicode.ascii
  refine ⟨fun h => h.noPanic rfl, fun h => ?_⟩
  have haccepted : ∀ item ∈ [methodIn ["x'] or true or 'a' in ['y"]], Accepted (fun _ => .ok ()) item :=
    List.forall_mem_singleton.mpr ⟨"in", _, rfl, rfl, rfl⟩
  obtain ⟨fs, hfs, hconfined⟩ := h.confined _ ((parse_ok_iff _).mpr ⟨haccepted, rfl, rfl⟩)
  obtain rfl := Option.some.inj hfs
  have hquoted := ((confined_iff _ isWord_toString_int haccepted).mp hconfined).2
  rcases hquoted _ List.mem_cons_self with hexists | ⟨-, -, -, ss, hss, hsingle⟩
  · cases hexists
  · obtain rfl := Option.some.inj hss
    exact absurd (hsingle _ List.mem_cons_self) (by decide)

end QueryService.QueryBuilderToExpr
