import BoringPanel.Lib.ExprPaths
import BoringPanel.QueryService.LogParsingPipeline.PipelineBuilder
import BoringPanel.QueryService.QueryBuilderToExpr

/-!
# Conditions that fields are not nil

`fieldNotNilCheck` writes the condition under which a field of a log record is not nil, from the text of its
path. The text is cut before its last opening bracket: the condition of what is before the bracket comes first,
and then that of the whole path, whose names behind the bracket are made optional.

The cut is found by reversing the text, with the number of its bytes for the number of its characters. A text
that is not ASCII panics, therefore, and a bracket in a key is taken for one around a key.
-/

namespace QueryService.LogParsingPipeline

open ExprText

/-! ### The functions -/

/-- `len(s)`: the number of bytes. -/
def byteLength (s : List Char) : Nat := (s.map Char.utf8Size).sum

/-- The loop of `reverseString` from `i` on; an index that is out of range panics. -/
def swapFrom (bytes : Nat) : Nat → Nat → List Char → Except BuildError (List Char)
  | 0, _, r => .ok r
  | n + 1, i, r =>
    let j := bytes - 1 - i
    match r[i]?, r[j]? with
    | some c, some d => swapFrom bytes n (i + 1) ((r.set i d).set j c)
    | _, _ => .error .panic

def reverseString (s : List Char) : Except BuildError (List Char) := swapFrom (byteLength s) (s.length / 2) 0 s

/-- `strings.SplitAfterN` for a separator of one character and at least one part. -/
def splitAfterN (sep : Char) : Nat → List Char → List (List Char)
  | _, [] => [[]]
  | n, c :: s =>
    if 2 ≤ n then
      if c = sep then [c] :: splitAfterN sep (n - 1) s else (splitAfterN sep n s).modifyHead (c :: ·)
    else [c :: s]

/-- `strings.SplitAfter`. -/
def splitAfter (sep : Char) (s : List Char) : List (List Char) := splitAfterN sep (s.length + 1) s

def rSplitAfterN (str : List Char) (sep : Char) (n : Nat) : Except BuildError (List (List Char)) := do
  let reversedStr ← reverseString str
  (splitAfterN sep n reversedStr).reverse.mapM reverseString

/-- The helper of `fieldNotNilCheck` that turns `.` into `?.`. -/
def optionalChainedPath (path : List Char) : List Char :=
  Substitution.replaceAll ['.'] ['?', '.'] (Substitution.replaceAll ['?', '.'] ['.'] path)

/-- A key stands between quotes. -/
def quoted (s : List Char) : Bool := s.contains '\'' || s.contains '"'

/-- The condition for what is before the bracket, which log records always have in one of two cases, and the
condition for the whole path. -/
def joinCheck (collection collectionNotNilCheck fullPathCheck : List Char) : List Char :=
  if collection = "attributes".toList ∨ collection = "resource".toList then fullPathCheck
  else collectionNotNilCheck ++ " && ".toList ++ fullPathCheck

/-- The condition for a path with brackets, from its parts and the condition for the first of them. -/
def bracketCheck (collection access collectionNotNilCheck : List Char) : Except BuildError (List Char) :=
  let suffixParts := splitAfter ']' access
  let first := suffixParts.headD []
  let fullPath := collection ++ first ++ suffixParts[1]?.elim [] optionalChainedPath
  let fullPathCheck := fullPath ++ " != nil".toList
  if quoted first then .ok (joinCheck collection collectionNotNilCheck fullPathCheck)
  -- The slice without the brackets.
  else if first.length < 2 then .error .panic
  else .ok (joinCheck collection collectionNotNilCheck ("len(".toList ++ collection ++ ") > ".toList ++
    (first.drop 1).dropLast ++ " && ".toList ++ fullPathCheck))

/-! ### The end of the recursion -/

theorem length_swapFrom {bytes n i : Nat} {r s : List Char} (h : swapFrom bytes n i r = .ok s) :
    s.length = r.length := by
  induction n generalizing i r with
  | zero => rw [Except.ok.inj h]
  | succ n ih =>
    rw [swapFrom] at h
    split at h
    · rw [ih h, List.length_set, List.length_set]
    · cases h

theorem splitAfterN_one (sep : Char) (s : List Char) : splitAfterN sep 1 s = [s] := by
  cases s <;> rfl

theorem splitAfterN_two {sep : Char} {s first second : List Char} {parts : List (List Char)}
    (h : splitAfterN sep 2 s = first :: second :: parts) : first ≠ [] ∧ s = first ++ second ∧ parts = [] := by
  induction s generalizing first with
  | nil => cases h
  | cons c s ih =>
    rw [splitAfterN, if_pos (by decide)] at h
    split at h
    · rw [splitAfterN_one] at h
      obtain ⟨hfirst, h⟩ := List.cons.inj h
      obtain ⟨hsecond, hparts⟩ := List.cons.inj h
      rw [← hfirst, ← hsecond]
      exact ⟨List.cons_ne_nil _ _, rfl, hparts.symm⟩
    · cases hs : splitAfterN sep 2 s with
      | nil =>
        rw [hs] at h
        cases h
      | cons first' rest =>
        rw [hs] at h
        obtain ⟨rfl, rfl⟩ := List.cons.inj h
        obtain ⟨-, rfl, hparts⟩ := ih hs
        exact ⟨List.cons_ne_nil _ _, rfl, hparts⟩

/-- What is before the last separator is shorter. -/
theorem length_lt_of_rSplitAfterN {str collection access : List Char} {sep : Char} {parts : List (List Char)}
    (h : rSplitAfterN str sep 2 = .ok (collection :: access :: parts)) : collection.length < str.length := by
  obtain ⟨reversed, hreversed, h⟩ := Fallible.bind_eq_ok h
  have hlength := length_swapFrom hreversed
  have hparts := Fallible.forall₂_of_mapM h
  cases hsplit : splitAfterN sep 2 reversed with
  | nil =>
    rw [hsplit] at hparts
    cases hparts
  | cons first rest =>
    cases rest with
    | nil =>
      rw [hsplit] at hparts
      cases hparts with
      | cons _ hrest => cases hrest
    | cons second rest =>
      obtain ⟨hne, heq, rfl⟩ := splitAfterN_two hsplit
      rw [hsplit] at hparts
      cases hparts with
      | cons hcollection _ =>
        have hfirst := List.length_pos_of_ne_nil hne
        rw [length_swapFrom hcollection, ← hlength, heq, List.length_append]
        omega

section FieldNotNilCheck

variable (compile : List Char → Except String Unit)

def fieldNotNilCheck (fieldPath : List Char) : Except BuildError (List Char) :=
  match compile fieldPath with
  | .error err => .error (.error ("invalid fieldPath " ++ String.ofList fieldPath ++ ": " ++ err))
  | .ok _ =>
    match h : rSplitAfterN fieldPath '[' 2 with
    | .error err => .error err
    | .ok (collection :: access :: _) =>
      have := length_lt_of_rSplitAfterN h
      (wrapBuildError ("couldn't generate nil check for " ++ String.ofList collection)
        (fieldNotNilCheck collection)).bind (bracketCheck collection access)
    | .ok _ => .ok (optionalChainedPath fieldPath ++ " != nil".toList)
termination_by fieldPath.length

end FieldNotNilCheck

/-! ### Texts of ASCII -/

def isAscii (s : List Char) : Bool := s.all fun c => c.toNat < 128

theorem length_le_byteLength (s : List Char) : s.length ≤ byteLength s := by
  induction s with
  | nil => exact Nat.le_refl 0
  | cons c s ih =>
    have hc := c.utf8Size_pos
    rw [byteLength, List.map_cons, List.sum_cons, ← byteLength, List.length_cons]
    omega

/-- A text has as many bytes as characters only if it is of ASCII. -/
theorem byteLength_eq_iff {s : List Char} : byteLength s = s.length ↔ isAscii s := by
  induction s with
  | nil => exact iff_of_true rfl rfl
  | cons c s ih =>
    have hpos := c.utf8Size_pos
    have hle := length_le_byteLength s
    rw [byteLength, List.map_cons, List.sum_cons, ← byteLength, List.length_cons, isAscii, List.all_cons, ← isAscii,
      Bool.and_eq_true, ← ih, decide_eq_true_iff]
    have hc : c.utf8Size = 1 ↔ c.toNat < 128 := Char.utf8Size_eq_one_iff.trans Nat.lt_succ_iff.symm
    rw [← hc]
    constructor
    · exact fun h => ⟨by omega, by omega⟩
    · rintro ⟨h, h'⟩
      rw [h, h', Nat.add_comm]

/-- The loop, where there are as many bytes as characters: the first `i` characters and the last ones are
swapped. -/
theorem swapFrom_eq {s : List Char} {n i : Nat} {r : List Char} (hn : n + i = s.length / 2)
    (hr : ∀ m, r[m]? = if m < i ∨ s.length - i ≤ m then s.reverse[m]? else s[m]?) :
    swapFrom s.length n i r = .ok s.reverse := by
  induction n generalizing i r with
  | zero =>
    refine congrArg Except.ok (List.ext_getElem? fun m => ?_)
    rw [hr m]
    split
    · rfl
    · -- Only the one in the middle is left.
      have hlt : m < s.length := by omega
      have hmiddle : s.length - 1 - m = m := by omega
      rw [List.getElem?_reverse hlt, hmiddle]
  | succ n ih =>
    have hi : i < s.length := by omega
    have hj : s.length - 1 - i < s.length := by omega
    have hlen : r.length = s.length := by
      refine Nat.le_antisymm (List.getElem?_eq_none_iff.mp ?_) (List.getElem?_eq_none_iff.mp ?_)
      · rw [hr, if_pos (by omega), List.getElem?_eq_none_iff, List.length_reverse]
      · have hnone : r[r.length]? = none := List.getElem?_eq_none_iff.mpr (Nat.le_refl _)
        rw [hr] at hnone
        split at hnone
        · rw [List.getElem?_eq_none_iff, List.length_reverse] at hnone
          exact List.getElem?_eq_none_iff.mpr hnone
        · exact hnone
    have hri : r[i]? = some s[i] := by
      rw [hr, if_neg (by omega), List.getElem?_eq_getElem hi]
    have hrj : r[s.length - 1 - i]? = some s[s.length - 1 - i] := by
      rw [hr, if_neg (by omega), List.getElem?_eq_getElem hj]
    rw [swapFrom, hri, hrj]
    refine ih (by omega) fun m => ?_
    rw [List.getElem?_set, List.getElem?_set, hr m, List.length_set, hlen]
    by_cases hmj : s.length - 1 - i = m
    · have hback : s.length - 1 - m = i := by omega
      rw [if_pos hmj, if_pos hj, if_pos (by omega), List.getElem?_reverse (hmj ▸ hj), hback,
        List.getElem?_eq_getElem hi]
    · rw [if_neg hmj]
      by_cases hmi : i = m
      · rw [if_pos hmi, if_pos hi, if_pos (by omega), List.getElem?_reverse (hmi ▸ hi), ← hmi,
          List.getElem?_eq_getElem hj]
      · rw [if_neg hmi]
        exact if_congr (by omega) rfl rfl

theorem reverseString_eq {s : List Char} (h : isAscii s) : reverseString s = .ok s.reverse := by
  rw [reverseString, byteLength_eq_iff.mpr h]
  refine swapFrom_eq (Nat.add_zero _) fun m => ?_
  split
  · rename_i hm
    have hm : s.length ≤ m := by omega
    rw [List.getElem?_eq_none_iff.mpr hm, List.getElem?_eq_none_iff.mpr (by rwa [List.length_reverse])]
  · rfl

theorem reverseString_panic {s : List Char} (h : ¬ isAscii s) (hlength : 2 ≤ s.length) :
    reverseString s = .error .panic := by
  have hlt : s.length < byteLength s :=
    Nat.lt_of_le_of_ne (length_le_byteLength s) fun heq => h (byteLength_eq_iff.mp heq.symm)
  obtain ⟨n, hn⟩ : ∃ n, s.length / 2 = n + 1 := ⟨s.length / 2 - 1, by omega⟩
  have hnone : s[byteLength s - 1 - 0]? = none := List.getElem?_eq_none_iff.mpr (by omega)
  rw [reverseString, hn, swapFrom, hnone]
  cases s[0]? <;> rfl

theorem isAscii_append {s t : List Char} : isAscii (s ++ t) ↔ isAscii s ∧ isAscii t := by
  rw [isAscii, List.all_append, Bool.and_eq_true, isAscii, isAscii]

theorem isAscii_reverse {s : List Char} : isAscii s.reverse ↔ isAscii s := by
  rw [isAscii, List.all_reverse, isAscii]

/-! ### Parts -/

theorem splitAfterN_of_not_mem {sep : Char} {n : Nat} {s : List Char} (h : sep ∉ s) : splitAfterN sep n s = [s] := by
  induction s with
  | nil => cases n <;> rfl
  | cons c s ih =>
    obtain ⟨hc, hs⟩ := not_or.mp (List.mem_cons.not.mp h)
    rw [splitAfterN, if_neg (Ne.symm hc), ih hs]
    exact ite_self _

theorem splitAfterN_append {sep : Char} {n : Nat} (hn : 2 ≤ n) {u : List Char} (h : sep ∉ u) (s : List Char) :
    splitAfterN sep n (u ++ sep :: s) = (u ++ [sep]) :: splitAfterN sep (n - 1) s := by
  induction u with
  | nil => rw [List.nil_append, splitAfterN, if_pos hn, if_pos rfl, List.nil_append]
  | cons c u ih =>
    obtain ⟨hc, hu⟩ := not_or.mp (List.mem_cons.not.mp h)
    rw [List.cons_append, splitAfterN, if_pos hn, if_neg (Ne.symm hc), ih hu]
    rfl

theorem rSplitAfterN_of_not_mem {sep : Char} {s : List Char} (hascii : isAscii s) (h : sep ∉ s) :
    rSplitAfterN s sep 2 = .ok [s] := by
  rw [rSplitAfterN, reverseString_eq hascii]
  change (splitAfterN sep 2 s.reverse).reverse.mapM reverseString = _
  rw [splitAfterN_of_not_mem (by rwa [List.mem_reverse])]
  change (do return [← reverseString s.reverse]) = _
  rw [reverseString_eq (isAscii_reverse.mpr hascii), List.reverse_reverse]
  rfl

/-- The cut before the last separator. -/
theorem rSplitAfterN_append {sep : Char} {s t : List Char} (hascii : isAscii (s ++ sep :: t)) (h : sep ∉ t) :
    rSplitAfterN (s ++ sep :: t) sep 2 = .ok [s, sep :: t] := by
  have hreverse : (s ++ sep :: t).reverse = t.reverse ++ sep :: s.reverse := by simp
  obtain ⟨hs, ht⟩ := isAscii_append.mp hascii
  rw [rSplitAfterN, reverseString_eq hascii]
  change (splitAfterN sep 2 (s ++ sep :: t).reverse).reverse.mapM reverseString = _
  rw [hreverse, splitAfterN_append (by decide) (by rwa [List.mem_reverse]), splitAfterN_one]
  change (do return [← reverseString s.reverse, ← reverseString (t.reverse ++ [sep])]) = _
  rw [← List.reverse_cons, reverseString_eq (isAscii_reverse.mpr hs), reverseString_eq (isAscii_reverse.mpr ht),
    List.reverse_reverse, List.reverse_reverse]
  rfl

theorem rSplitAfterN_panic {sep : Char} {s : List Char} (h : ¬ isAscii s) (hlength : 2 ≤ s.length) (n : Nat) :
    rSplitAfterN s sep n = .error .panic := by
  rw [rSplitAfterN, reverseString_panic h hlength]
  rfl

/-! ### Names -/

section Names

variable {R : Type}

/-- The names behind a part of a path. -/
def AreNames (names : List (Step R)) : Prop := ∀ s ∈ names, ∃ o name, s = .field o name ∧ isName name

theorem not_mem_of_isName {c : Char} (hc : isNameChar c = false) {name : List Char} (h : isName name) : c ∉ name := by
  intro hmem
  rw [isName, Bool.and_eq_true, List.all_eq_true] at h
  rw [h.2 c hmem] at hc
  cases hc

theorem replaceAll_skip {d : Char} {old new w : List Char} (hd : d ∉ w) (rest : List Char) :
    Substitution.replaceAll (d :: old) new (w ++ rest) = w ++ Substitution.replaceAll (d :: old) new rest := by
  refine Substitution.replaceAll_append_of_not_prefix (List.cons_ne_nil d old) w fun u v huv hv hstarts => hd ?_
  obtain ⟨c, v, rfl⟩ := List.exists_cons_of_ne_nil hv
  obtain ⟨tail, htail⟩ := hstarts
  rw [(List.cons.inj htail).1, huv]
  exact List.mem_append_right u List.mem_cons_self

/-- The text of a name behind a dot. -/
def dotted : Step R → List Char
  | .field _ name => '.' :: name
  | .bracket _ _ => []

theorem replaceAll_optional {names : List (Step R)} (h : AreNames names) :
    Substitution.replaceAll ['?', '.'] ['.'] (names.flatMap Step.text) = names.flatMap dotted := by
  induction names with
  | nil => exact Substitution.replaceAll_nil _ (by decide)
  | cons s names ih =>
    obtain ⟨⟨o, name, rfl, hname⟩, hnames⟩ := List.forall_mem_cons.mp h
    have hskip := @replaceAll_skip '?' ['.'] ['.'] name (not_mem_of_isName (by decide) hname)
      (names.flatMap Step.text)
    rw [List.flatMap_cons, List.flatMap_cons]
    cases o with
    | true =>
      change Substitution.replaceAll _ _ (['?', '.'] ++ (name ++ names.flatMap Step.text)) = _
      rw [Substitution.replaceAll_append _ (by decide), hskip, ih hnames]
      rfl
    | false =>
      change Substitution.replaceAll _ _ ('.' :: (name ++ names.flatMap Step.text)) = _
      rw [Substitution.replaceAll_cons _ (by decide) (by simp), hskip, ih hnames]
      rfl

theorem replaceAll_dotted {names : List (Step R)} (h : AreNames names) :
    Substitution.replaceAll ['.'] ['?', '.'] (names.flatMap dotted) =
      (names.map Step.optional).flatMap Step.text := by
  induction names with
  | nil => exact Substitution.replaceAll_nil _ (by decide)
  | cons s names ih =>
    obtain ⟨⟨o, name, rfl, hname⟩, hnames⟩ := List.forall_mem_cons.mp h
    have hskip := @replaceAll_skip '.' [] ['?', '.'] name (not_mem_of_isName (by decide) hname)
      (names.flatMap dotted)
    rw [List.flatMap_cons, List.map_cons, List.flatMap_cons]
    change Substitution.replaceAll _ _ (['.'] ++ (name ++ names.flatMap dotted)) = _
    rw [Substitution.replaceAll_append _ (by decide), hskip, ih hnames]
    rfl

/-- The names of a path are made optional. -/
theorem optionalChainedPath_names {w : List Char} (hdot : '.' ∉ w) (hmark : '?' ∉ w) {names : List (Step R)}
    (h : AreNames names) : optionalChainedPath (w ++ names.flatMap Step.text) =
      w ++ (names.map Step.optional).flatMap Step.text := by
  rw [optionalChainedPath, replaceAll_skip hmark, replaceAll_optional h, replaceAll_skip hdot, replaceAll_dotted h]

theorem not_mem_names {c : Char} (hc : isNameChar c = false) (hdot : c ≠ '.') (hmark : c ≠ '?')
    {names : List (Step R)} (h : AreNames names) : c ∉ names.flatMap Step.text := by
  intro hmem
  obtain ⟨s, hs, hmem⟩ := List.mem_flatMap.mp hmem
  obtain ⟨o, name, rfl, hname⟩ := h s hs
  have hnot := not_mem_of_isName hc hname
  cases o with
  | true =>
    rcases List.mem_cons.mp hmem with h | hmem
    · exact hmark h
    · exact (List.mem_cons.mp hmem).elim hdot hnot
  | false => exact (List.mem_cons.mp hmem).elim hdot hnot

end Names

/-! ### Brackets -/

/-- What stands between brackets is kept by the cut behind the first closing bracket: there is none in it, or
one in a literal at the end of the path that has quotes before it and no names to make optional behind it. -/
def KeptBracket (inner : List Char) (last : Bool) : Prop :=
  ']' ∉ inner ∨ last ∧ ∃ u v, inner = u ++ ']' :: v ∧ ']' ∉ u ∧ ']' ∉ v ∧ quoted u ∧
    optionalChainedPath (v ++ [']']) = v ++ [']']

section Brackets

variable {R : Type}

/-- The condition for a path whose last bracket is given, without what comes before it. -/
def guarded (root : List Char) (before : List (Step R)) (inner : List Char) (access : R → Option Access)
    (names : List (Step R)) : Cond R :=
  let notNil := .notNil ⟨root, before ++ .bracket inner access :: names.map Step.optional⟩
  if quoted inner then notNil else .and (.longer ⟨root, before⟩ inner access) notNil

theorem quoted_append (s t : List Char) : quoted (s ++ t) = (quoted s || quoted t) := by
  rw [Bool.eq_iff_iff]
  simp only [quoted, Bool.or_eq_true, List.contains_iff_mem, List.mem_append]
  tauto

theorem quoted_toString (n : Nat) : quoted (toString n).toList = false := by
  have hdigit : ∀ c ∈ (toString n).toList, c.isDigit := fun c hc =>
    Nat.isDigit_of_mem_toDigits (by decide) (by decide) (Nat.toList_repr (n := n) ▸ hc)
  rw [quoted, Bool.or_eq_false_iff, List.contains_eq_mem, List.contains_eq_mem, decide_eq_false_iff_not,
    decide_eq_false_iff_not]
  exact ⟨fun h => absurd (hdigit _ h) (by decide), fun h => absurd (hdigit _ h) (by decide)⟩

theorem splitAfter_append {sep : Char} {u : List Char} (h : sep ∉ u) (s : List Char) :
    splitAfter sep (u ++ sep :: s) = (u ++ [sep]) :: splitAfterN sep (u.length + s.length + 1) s := by
  have hlength : (u ++ sep :: s).length = u.length + s.length + 1 := by simp [Nat.add_assoc]
  rw [splitAfter, hlength, splitAfterN_append (by omega) h]
  rfl

theorem bracketCheck_quoted {collection access first second : List Char} {rest : List (List Char)}
    (hsplit : splitAfter ']' access = first :: second :: rest) (h : quoted first = true) (c : List Char) :
    bracketCheck collection access c = .ok (joinCheck collection c
      (collection ++ first ++ optionalChainedPath second ++ " != nil".toList)) := by
  rw [bracketCheck, hsplit]
  exact if_pos h

theorem bracketCheck_index {collection access first second : List Char} {rest : List (List Char)}
    (hsplit : splitAfter ']' access = first :: second :: rest) (h : quoted first = false) (hlength : 2 ≤ first.length)
    (c : List Char) : bracketCheck collection access c = .ok (joinCheck collection c
      ("len(".toList ++ collection ++ ") > ".toList ++ (first.drop 1).dropLast ++ " && ".toList ++
        (collection ++ first ++ optionalChainedPath second ++ " != nil".toList))) := by
  rw [bracketCheck, hsplit]
  exact (if_neg (by rw [List.headD_cons, h]; decide)).trans (if_neg (Nat.not_lt.mpr hlength))

theorem text_brackets (root inner : List Char) (access : R → Option Access) (before names : List (Step R)) :
    (FieldPath.mk root (before ++ .bracket inner access :: names)).text =
      (FieldPath.mk root before).text ++ ('[' :: (inner ++ [']'])) ++ names.flatMap Step.text := by
  simp [FieldPath.text, Step.text]

theorem quoted_brackets (s : List Char) : quoted ('[' :: (s ++ [']'])) = quoted s := by
  have hopen : quoted ['['] = false := by decide
  have hclose : quoted [']'] = false := by decide
  rw [← List.singleton_append, quoted_append, quoted_append, hopen, hclose, Bool.or_false, Bool.false_or]

/-- The condition that is written for the last bracket of a path. -/
theorem bracketCheck_eq {root inner : List Char} {access : R → Option Access} {before names : List (Step R)}
    (hnames : AreNames names) (hkept : KeptBracket inner names.isEmpty) (c : List Char) :
    bracketCheck (FieldPath.mk root before).text ((Step.bracket inner access :: names).flatMap Step.text) c =
      .ok (joinCheck (FieldPath.mk root before).text c (guarded root before inner access names).text) := by
  have htext := text_brackets root inner access before (names.map Step.optional)
  rcases hkept with hclosed | ⟨hlast, u, v, rfl, hu, hv, hquoted, hrest⟩
  · have hsplit : splitAfter ']' ((Step.bracket inner access :: names).flatMap Step.text) =
        ['[' :: (inner ++ [']']), names.flatMap Step.text] := by
      have heq : (Step.bracket inner access :: names).flatMap Step.text =
          ('[' :: inner) ++ ']' :: names.flatMap Step.text := by simp [Step.text]
      rw [heq, splitAfter_append (by simpa using hclosed),
        splitAfterN_of_not_mem (not_mem_names (by decide) (by decide) (by decide) hnames)]
      rfl
    have hnamesText := optionalChainedPath_names (w := []) List.not_mem_nil List.not_mem_nil hnames
    rw [List.nil_append, List.nil_append] at hnamesText
    cases hq : quoted inner with
    | true =>
      rw [bracketCheck_quoted hsplit (by rw [quoted_brackets, hq]), hnamesText, ← htext, guarded, if_pos hq]
      rfl
    | false =>
      have hinner : ('[' :: (inner ++ [']'])).tail.dropLast = inner := List.dropLast_concat
      rw [bracketCheck_index hsplit (by rw [quoted_brackets, hq]) (by simp), hnamesText, ← htext, guarded,
        if_neg (by rw [hq]; decide), List.drop_one, hinner]
      rfl
  · obtain rfl := List.isEmpty_iff.mp hlast
    have hsplit : splitAfter ']' ((Step.bracket (u ++ ']' :: v) access :: []).flatMap Step.text) =
        ['[' :: (u ++ [']']), v ++ [']'], []] := by
      have heq : (Step.bracket (u ++ ']' :: v) access :: []).flatMap Step.text =
          ('[' :: u) ++ ']' :: (v ++ ']' :: []) := by simp [Step.text]
      rw [heq, splitAfter_append (by simpa using hu), splitAfterN_append (by simp; omega) hv]
      rfl
    have hall : quoted (u ++ ']' :: v) = true := by rw [quoted_append, hquoted, Bool.true_or]
    have hfull : (FieldPath.mk root before).text ++ '[' :: (u ++ [']']) ++ (v ++ [']']) =
        (FieldPath.mk root (before ++ .bracket (u ++ ']' :: v) access :: [])).text := by
      rw [text_brackets]
      simp
    rw [bracketCheck_quoted hsplit (by rw [quoted_brackets, hquoted]), hrest, hfull, guarded, if_pos hall]
    rfl

end Brackets

/-! ### What the conditions say -/

/-- The name of a variable whose value is always a map. -/
def IsRecord (root : List Char) : Prop := root = "attributes".toList ∨ root = "resource".toList

/-- Records of logs: the attributes and the resource are maps. -/
class LogRecords (R : Type) extends Environment R where
  container : ∀ (r : R) (name : List Char), IsRecord name → ∃ entries, root r name = .map entries

section Checks

variable [EscapeSequences] {R : Type} [LogRecords R]

/-- The condition is one for a field: if it is true, the path leads to something; and for the paths of fields in
records whose values are of the kinds that are asked for, it is true or false, and tells which. -/
structure IsCheck (p : FieldPath R) (c : Cond R) : Prop where
  written : c.Written
  sound : ∀ r, c.eval r = some true → p.value r ≠ .nil
  exact : (∀ s ∈ p.steps, IsFieldStep s) → ∀ r, Fits r (Environment.root r p.root) p.steps →
    c.eval r = some !(p.value r).isNil

theorem areNames_of_written {names : List (Step R)} (hnames : ∀ s ∈ names, s.isField)
    (h : ∀ s ∈ names, s.Written) : AreNames names := by
  intro s hs
  have hfield := hnames s hs
  cases h s hs with
  | computed h => cases hfield
  | field h =>
    cases h with
    | field hname => exact ⟨_, _, rfl, hname⟩
    | key h hline => cases hfield
    | index h => cases hfield

theorem written_map_optional {names : List (Step R)} (h : ∀ s ∈ names, s.Written) :
    ∀ s ∈ names.map Step.optional, s.Written := by
  intro s hs
  obtain ⟨t, ht, rfl⟩ := List.mem_map.mp hs
  exact (h t ht).optional

/-- A path of names. -/
theorem isCheck_names {root : List Char} {names : List (Step R)} (hroot : isName root)
    (hwritten : ∀ s ∈ names, s.Written) (hnames : ∀ s ∈ names, s.isField) :
    IsCheck ⟨root, names⟩ (.notNil ⟨root, names.map Step.optional⟩) where
  written := ⟨hroot, written_map_optional hwritten⟩
  sound r h := by
    have hvalue := Cond.value_of_eval_notNil h
    rwa [FieldPath.value, resolve_optional] at hvalue
  exact _ r hfits := Cond.eval_notNil (evalSteps_optional hnames hfits)

theorem written_guarded {root inner : List Char} {access : R → Option Access} {before names : List (Step R)}
    (hroot : isName root) (hwritten : ∀ s ∈ before ++ .bracket inner access :: names, s.Written) :
    (guarded root before inner access names).Written := by
  obtain ⟨hbefore, hrest⟩ := List.forall_mem_append.mp hwritten
  obtain ⟨hbracket, hnames⟩ := List.forall_mem_cons.mp hrest
  have hpath : (FieldPath.mk root (before ++ .bracket inner access :: names.map Step.optional)).Written :=
    ⟨hroot, List.forall_mem_append.mpr ⟨hbefore, List.forall_mem_cons.mpr ⟨hbracket, written_map_optional hnames⟩⟩⟩
  rw [guarded]
  split
  · exact hpath
  · exact ⟨⟨⟨hroot, hbefore⟩, hbracket⟩, hpath⟩

omit [EscapeSequences] in
theorem value_bracket (r : R) (root inner : List Char) (access : R → Option Access) (before names : List (Step R)) :
    (FieldPath.mk root (before ++ .bracket inner access :: names.map Step.optional)).value r =
      (FieldPath.mk root (before ++ .bracket inner access :: names)).value r := by
  rw [FieldPath.value, FieldPath.value, resolve_append, resolve_append, resolve_cons, resolve_cons, resolve_optional]

omit [EscapeSequences] in
theorem guarded_sound {r : R} {root inner : List Char} {access : R → Option Access} {before names : List (Step R)}
    (h : (guarded root before inner access names).eval r = some true) :
    (FieldPath.mk root (before ++ .bracket inner access :: names)).value r ≠ .nil := by
  rw [← value_bracket]
  rw [guarded] at h
  split at h
  · exact Cond.value_of_eval_notNil h
  · exact Cond.value_of_eval_notNil (Cond.eval_and_true.mp h).2

/-- The condition for the last bracket, where what is before it is not nil. -/
theorem guarded_exact {r : R} {root inner : List Char} {access : R → Option Access} {before names : List (Step R)}
    (hnames : ∀ s ∈ names, s.isField) {w : Value}
    (hw : evalSteps r (Environment.root r root) before = some w) (hne : w ≠ .nil)
    (hstep : IsFieldStep (.bracket inner access)) (hfits : Fits r w (.bracket inner access :: names)) :
    (guarded root before inner access names).eval r =
      some !(resolve r w (.bracket inner access :: names)).isNil := by
  obtain ⟨haccepts, hrest⟩ := hfits
  obtain ⟨a, ha, haccepts⟩ := haccepts hne
  have hpath : ∀ {x : Value}, w.fetch? a = some x →
      (FieldPath.mk root (before ++ .bracket inner access :: names.map Step.optional)).eval r =
        some (resolve r w (.bracket inner access :: names)) := by
    intro x hx
    have hfetch : ((Step.bracket inner access).access r).bind w.fetch? = some x := by rw [ha]; exact hx
    rw [next_eq_of_fetch hfetch] at hrest
    rw [FieldPath.eval, evalSteps_append hw hne, evalSteps_cons (not_ends hne _), hfetch, resolve_cons,
      next_eq_of_fetch hfetch]
    exact evalSteps_optional hnames hrest
  cases hstep with
  | key h hline =>
    obtain rfl := Option.some.inj ha
    cases w with
    | map entries =>
      rw [guarded, if_pos (by simp [quoted])]
      exact Cond.eval_notNil (hpath rfl)
    | nil => exact haccepts.elim
    | scalar text => exact haccepts.elim
    | array items => exact haccepts.elim
  | index h =>
    rename_i n
    obtain rfl := Option.some.inj ha
    cases w with
    | array items =>
      rw [guarded, if_neg (by rw [quoted_toString]; decide)]
      have hlonger : (Cond.longer ⟨root, before⟩ (toString n).toList fun _ => some (.index n)).eval r =
          some (decide (n < items.length)) := by
        rw [Cond.eval, FieldPath.eval, hw]
        rfl
      by_cases hn : n < items.length
      · rw [Cond.eval_and_of_true (by rw [hlonger, decide_eq_true hn])]
        exact Cond.eval_notNil (hpath (List.getElem?_eq_getElem hn))
      · -- There is no such item.
        have hnext : Step.next r (.array items) (.index n) = .nil := by
          have hnone : Value.fetch? (.array items) (.index n) = none :=
            List.getElem?_eq_none_iff.mpr (Nat.not_lt.mp hn)
          change ((Value.array items).fetch? (.index n)).getD .nil = .nil
          rw [hnone]
          rfl
        rw [Cond.eval_and_of_false (by rw [hlonger, decide_eq_false hn])]
        change _ = some !(resolve r (Step.next r (.array items) (.index n)) names).isNil
        rw [hnext, resolve_nil]
        rfl
    | nil => exact haccepts.elim
    | scalar text => exact haccepts.elim
    | map entries => exact haccepts.elim

/-- A path whose last bracket has something before it that is checked first. -/
theorem IsCheck.bracket {root inner : List Char} {access : R → Option Access} {before names : List (Step R)}
    {c : Cond R} (hcheck : IsCheck ⟨root, before⟩ c) (hroot : isName root)
    (hwritten : ∀ s ∈ before ++ .bracket inner access :: names, s.Written) (hnames : ∀ s ∈ names, s.isField) :
    IsCheck ⟨root, before ++ .bracket inner access :: names⟩ (.and c (guarded root before inner access names)) where
  written := ⟨hcheck.written, written_guarded hroot hwritten⟩
  sound r h := guarded_sound (Cond.eval_and_true.mp h).2
  exact hfield r hfits := by
    obtain ⟨hbefore, hrest⟩ := fits_append.mp hfits
    have hcond := hcheck.exact (fun s hs => hfield s (List.mem_append_left _ hs)) r hbefore
    have hvalue : (FieldPath.mk root (before ++ .bracket inner access :: names)).value r =
        resolve r ((FieldPath.mk root before).value r) (.bracket inner access :: names) := resolve_append _ _ _
    rw [hvalue]
    cases hnil : ((FieldPath.mk root before).value r).isNil with
    | true =>
      rw [Cond.eval_and_of_false (by rw [hcond, hnil]; rfl), Value.isNil_iff.mp hnil, resolve_nil]
      rfl
    | false =>
      have hne : (FieldPath.mk root before).value r ≠ .nil := fun h => by
        rw [Value.isNil_iff.mpr h] at hnil
        cases hnil
      rw [Cond.eval_and_of_true (by rw [hcond, hnil]; rfl)]
      exact guarded_exact hnames (evalSteps_of_resolve hne) hne
        (hfield _ (List.mem_append_right _ List.mem_cons_self)) hrest

/-- A path into the attributes or the resource, which are not checked. -/
theorem isCheck_record {root inner : List Char} {access : R → Option Access} {names : List (Step R)}
    (hrecord : IsRecord root) (hroot : isName root)
    (hwritten : ∀ s ∈ .bracket inner access :: names, s.Written) (hnames : ∀ s ∈ names, s.isField) :
    IsCheck ⟨root, .bracket inner access :: names⟩ (guarded root [] inner access names) where
  written := written_guarded hroot hwritten
  sound r h := guarded_sound h
  exact hfield r hfits := by
    obtain ⟨entries, hentries⟩ := LogRecords.container r root hrecord
    have hne : Environment.root r root ≠ .nil := by
      rw [hentries]
      exact Value.noConfusion
    exact guarded_exact hnames rfl hne (hfield _ List.mem_cons_self) hfits

end Checks

/-! ### The recursion -/

section Recursion

variable {R : Type}

/-- The paths up to a step are expressions. -/
def CompilesPrefixes (compile : List Char → Except String Unit) (p : FieldPath R) : Prop :=
  ∀ before rest, p.steps = before ++ rest → compile (FieldPath.mk p.root before).text = .ok ()

/-- What ends between brackets is no expression. -/
def RejectsCut (compile : List Char → Except String Unit) (p : FieldPath R) : Prop :=
  ∀ before inner access rest u v, p.steps = before ++ .bracket inner access :: rest → inner = u ++ '[' :: v →
    ∃ err, compile ((FieldPath.mk p.root before).text ++ '[' :: u) = .error err

/-- There is no opening bracket between the brackets. -/
def NoOpening (steps : List (Step R)) : Prop := ∀ inner access, .bracket inner access ∈ steps → '[' ∉ inner

/-- What stands between the brackets of a path is kept. -/
def KeptPath (steps : List (Step R)) : Prop :=
  ∀ before inner access rest, steps = before ++ .bracket inner access :: rest →
    KeptBracket inner (rest.head?.all fun s => !s.isField)

/-- What stands between the brackets of a step. -/
def innerText : Step R → List Char
  | .field _ _ => []
  | .bracket inner _ => inner

theorem not_mem_inner {c : Char} {steps : List (Step R)} (h : c ∉ steps.flatMap innerText) {inner : List Char}
    {access : R → Option Access} (hmem : .bracket inner access ∈ steps) : c ∉ inner :=
  fun hc => h (List.mem_flatMap.mpr ⟨_, hmem, hc⟩)

/-- Brackets without a closing bracket between them are kept. -/
theorem kept_of_not_mem {steps : List (Step R)} (h : ']' ∉ steps.flatMap innerText) : KeptPath steps :=
  fun before _ _ _ heq => .inl (not_mem_inner h (heq ▸ List.mem_append_right before List.mem_cons_self))

theorem rejectsCut_of_noOpening {compile : List Char → Except String Unit} {p : FieldPath R} (h : NoOpening p.steps) :
    RejectsCut compile p := fun before inner access _ u _ heq hinner =>
  absurd (hinner ▸ List.mem_append_right u List.mem_cons_self)
    (h inner access (heq ▸ List.mem_append_right before List.mem_cons_self))

/-- A path has names only, or a last bracket. -/
theorem exists_split (steps : List (Step R)) : (∀ s ∈ steps, s.isField) ∨
    ∃ before inner access names, steps = before ++ .bracket inner access :: names ∧ ∀ s ∈ names, s.isField := by
  induction steps with
  | nil => exact .inl fun _ h => absurd h List.not_mem_nil
  | cons s steps ih =>
    rcases ih with hnames | ⟨before, inner, access, names, rfl, hnames⟩
    · cases s with
      | field o name => exact .inl (List.forall_mem_cons.mpr ⟨rfl, hnames⟩)
      | bracket inner access => exact .inr ⟨[], inner, access, steps, rfl, hnames⟩
    · exact .inr ⟨s :: before, inner, access, names, rfl, hnames⟩

theorem isEmpty_of_names {names : List (Step R)} (h : ∀ s ∈ names, s.isField) :
    (names.head?.all fun s => !s.isField) = names.isEmpty := by
  cases names with
  | nil => rfl
  | cons s names =>
    rw [List.head?_cons, Option.all_some, h s List.mem_cons_self]
    rfl

theorem KeptPath.left {before rest : List (Step R)} {inner : List Char} {access : R → Option Access}
    (h : KeptPath (before ++ .bracket inner access :: rest)) : KeptPath before := by
  intro start inner' access' tail heq
  have hkept := h start inner' access' (tail ++ .bracket inner access :: rest) (by rw [heq]; simp)
  cases tail with
  | nil => exact hkept
  | cons s tail => exact hkept

theorem CompilesPrefixes.left {compile : List Char → Except String Unit} {root : List Char}
    {before rest : List (Step R)} (h : CompilesPrefixes compile ⟨root, before ++ rest⟩) :
    CompilesPrefixes compile ⟨root, before⟩ := fun start tail heq =>
  h start (tail ++ rest) (by rw [show before = start ++ tail from heq, List.append_assoc])

theorem RejectsCut.left {compile : List Char → Except String Unit} {root : List Char}
    {before rest : List (Step R)} (h : RejectsCut compile ⟨root, before ++ rest⟩) :
    RejectsCut compile ⟨root, before⟩ := fun start inner access tail u v heq =>
  h start inner access (tail ++ rest) u v (by
    rw [show before = start ++ .bracket inner access :: tail from heq, List.append_assoc, List.cons_append])

theorem text_append (root : List Char) (before rest : List (Step R)) :
    (FieldPath.mk root (before ++ rest)).text = (FieldPath.mk root before).text ++ rest.flatMap Step.text := by
  rw [FieldPath.text, FieldPath.text, List.flatMap_append, List.append_assoc]

variable {compile : List Char → Except String Unit}

theorem fieldNotNilCheck_error {s : List Char} {err : BuildError} (hcompile : compile s = .ok ())
    (h : rSplitAfterN s '[' 2 = .error err) : fieldNotNilCheck compile s = .error err := by
  rw [fieldNotNilCheck, hcompile]
  dsimp only
  split
  · rename_i heq
    exact congrArg Except.error (Except.error.inj (heq.symm.trans h))
  · rename_i heq
    cases heq.symm.trans h
  · rename_i heq
    cases heq.symm.trans h

theorem fieldNotNilCheck_single {s part : List Char} (hcompile : compile s = .ok ())
    (h : rSplitAfterN s '[' 2 = .ok [part]) :
    fieldNotNilCheck compile s = .ok (optionalChainedPath s ++ " != nil".toList) := by
  rw [fieldNotNilCheck, hcompile]
  dsimp only
  split
  · rename_i heq
    cases heq.symm.trans h
  · rename_i heq
    cases heq.symm.trans h
  · rfl

theorem fieldNotNilCheck_pair {s collection access : List Char} (hcompile : compile s = .ok ())
    (h : rSplitAfterN s '[' 2 = .ok [collection, access]) :
    fieldNotNilCheck compile s = (wrapBuildError ("couldn't generate nil check for " ++ String.ofList collection)
      (fieldNotNilCheck compile collection)).bind (bracketCheck collection access) := by
  rw [fieldNotNilCheck, hcompile]
  dsimp only
  split
  · rename_i heq
    cases heq.symm.trans h
  · rename_i heq
    cases heq.symm.trans h
    rfl
  · rename_i hne heq
    exact absurd (heq.symm.trans h) (by simpa using hne _ _ _)

theorem fieldNotNilCheck_panic {s : List Char} (hcompile : compile s = .ok ()) (hascii : ¬ isAscii s)
    (hlength : 2 ≤ s.length) : fieldNotNilCheck compile s = .error .panic :=
  fieldNotNilCheck_error hcompile (rSplitAfterN_panic hascii hlength 2)

theorem fieldNotNilCheck_names {root : List Char} {names : List (Step R)} (hroot : isName root)
    (hnames : AreNames names) (hascii : isAscii (FieldPath.mk root names).text)
    (hcompile : compile (FieldPath.mk root names).text = .ok ()) :
    fieldNotNilCheck compile (FieldPath.mk root names).text =
      .ok (Cond.notNil (FieldPath.mk root (names.map Step.optional))).text := by
  have hopen : '[' ∉ (FieldPath.mk root names).text := fun h => by
    rcases List.mem_append.mp h with h | h
    · exact not_mem_of_isName (by decide) hroot h
    · exact not_mem_names (by decide) (by decide) (by decide) hnames h
  rw [fieldNotNilCheck_single hcompile (rSplitAfterN_of_not_mem hascii hopen), FieldPath.text,
    optionalChainedPath_names (not_mem_of_isName (by decide) hroot) (not_mem_of_isName (by decide) hroot) hnames]
  rfl

theorem fieldNotNilCheck_bracket {root inner : List Char} {access : R → Option Access} {before names : List (Step R)}
    (hopen : '[' ∉ inner) (hnames : AreNames names)
    (hascii : isAscii (FieldPath.mk root (before ++ .bracket inner access :: names)).text)
    (hcompile : compile (FieldPath.mk root (before ++ .bracket inner access :: names)).text = .ok ()) :
    fieldNotNilCheck compile (FieldPath.mk root (before ++ .bracket inner access :: names)).text =
      (wrapBuildError ("couldn't generate nil check for " ++ String.ofList (FieldPath.mk root before).text)
        (fieldNotNilCheck compile (FieldPath.mk root before).text)).bind
          (bracketCheck (FieldPath.mk root before).text ((Step.bracket inner access :: names).flatMap Step.text)) := by
  have heq : (Step.bracket inner access :: names).flatMap Step.text =
      '[' :: (inner ++ [']'] ++ names.flatMap Step.text) := by simp [Step.text]
  have htail : '[' ∉ inner ++ [']'] ++ names.flatMap Step.text := by
    rw [List.mem_append, List.mem_append, not_or, not_or]
    exact ⟨⟨hopen, by decide⟩, not_mem_names (by decide) (by decide) (by decide) hnames⟩
  rw [text_append, heq] at hascii hcompile ⊢
  exact fieldNotNilCheck_pair hcompile (rSplitAfterN_append hascii htail)

/-- Only a variable has a name as its text. -/
theorem text_eq_name_iff {root name : List Char} {before : List (Step R)} (hname : isName name) :
    (FieldPath.mk root before).text = name ↔ before = [] ∧ root = name := by
  constructor
  · intro h
    cases before with
    | nil => exact ⟨rfl, by rwa [FieldPath.text, List.flatMap_nil, List.append_nil] at h⟩
    | cons s before =>
      obtain ⟨c, hc, hmem⟩ : ∃ c, isNameChar c = false ∧ c ∈ s.text := by
        cases s with
        | bracket inner access => exact ⟨'[', by decide, List.mem_cons_self⟩
        | field o name =>
          cases o with
          | true => exact ⟨'?', by decide, List.mem_cons_self⟩
          | false => exact ⟨'.', by decide, List.mem_cons_self⟩
      refine absurd ?_ (not_mem_of_isName hc hname)
      rw [← h, FieldPath.text, List.flatMap_cons]
      exact List.mem_append_right _ (List.mem_append_left _ hmem)
  · rintro ⟨rfl, rfl⟩
    rw [FieldPath.text, List.flatMap_nil, List.append_nil]

theorem joinCheck_record {root : List Char} (h : IsRecord root) (c : List Char) (fullPathCheck : List Char) :
    joinCheck (FieldPath.mk (R := R) root []).text c fullPathCheck = fullPathCheck := by
  rw [joinCheck, FieldPath.text, List.flatMap_nil, List.append_nil]
  exact if_pos h

theorem joinCheck_and {root : List Char} {before : List (Step R)} (h : ¬ (before = [] ∧ IsRecord root))
    (c d : Cond R) : joinCheck (FieldPath.mk root before).text c.text d.text = (Cond.and c d).text := by
  have hname : isName "attributes".toList ∧ isName "resource".toList := ⟨by decide, by decide⟩
  exact if_neg (by rwa [text_eq_name_iff hname.1, text_eq_name_iff hname.2, ← and_or_left])

/-- Behind an opening bracket of a text there is a closing one, if there is one at all. -/
theorem bracketCheck_ok {s : List Char} (hclose : ']' ∈ s) (collection c : List Char) :
    ∃ check, bracketCheck collection ('[' :: s) c = .ok check := by
  obtain ⟨u, v, rfl, hu⟩ := List.eq_append_cons_of_mem hclose
  have hsplit : splitAfter ']' ('[' :: (u ++ ']' :: v)) = ('[' :: (u ++ [']'])) ::
      splitAfterN ']' (('[' :: u).length + v.length + 1) v := by
    have hopen : ']' ∉ '[' :: u := by simpa using hu
    exact splitAfter_append hopen v
  rw [bracketCheck, hsplit]
  by_cases hquoted : quoted ('[' :: (u ++ [']']))
  · exact ⟨_, if_pos hquoted⟩
  · exact ⟨_, (if_neg hquoted).trans (if_neg (by simp))⟩

theorem exists_last {c : Char} {s : List Char} (h : c ∈ s) : ∃ u v, s = u ++ c :: v ∧ c ∉ v := by
  obtain ⟨u, v, heq, hu⟩ := List.eq_append_cons_of_mem (List.mem_reverse.mpr h)
  refine ⟨v.reverse, u.reverse, ?_, by rwa [List.mem_reverse]⟩
  rw [← List.reverse_reverse s, heq]
  simp

/-- An opening bracket between the last brackets cuts the path there. -/
theorem fieldNotNilCheck_cut {root inner : List Char} {access : R → Option Access} {before names : List (Step R)}
    (hopen : '[' ∈ inner) (hnames : AreNames names)
    (hascii : isAscii (FieldPath.mk root (before ++ .bracket inner access :: names)).text)
    (hcompile : compile (FieldPath.mk root (before ++ .bracket inner access :: names)).text = .ok ())
    (hrejects : RejectsCut compile ⟨root, before ++ .bracket inner access :: names⟩) :
    ∃ text, fieldNotNilCheck compile (FieldPath.mk root (before ++ .bracket inner access :: names)).text =
      .error (.error text) := by
  obtain ⟨u, v, heq, hv⟩ := exists_last hopen
  obtain ⟨err, herr⟩ := hrejects before inner access names u v rfl heq
  have htext : (FieldPath.mk root (before ++ .bracket inner access :: names)).text =
      ((FieldPath.mk root before).text ++ '[' :: u) ++ '[' :: (v ++ [']'] ++ names.flatMap Step.text) := by
    rw [text_brackets, heq]
    simp
  have htail : '[' ∉ v ++ [']'] ++ names.flatMap Step.text := by
    rw [List.mem_append, List.mem_append, not_or, not_or]
    exact ⟨⟨hv, by decide⟩, not_mem_names (by decide) (by decide) (by decide) hnames⟩
  rw [htext] at hascii hcompile ⊢
  rw [fieldNotNilCheck_pair hcompile (rSplitAfterN_append hascii htail), fieldNotNilCheck, herr]
  exact ⟨_, rfl⟩

section Written

variable [EscapeSequences] [LogRecords R]

/-- **The condition of a path** that is of ASCII and whose brackets are kept. -/
theorem exists_isCheck {root : List Char} (hroot : isName root) {steps : List (Step R)}
    (hwritten : ∀ s ∈ steps, s.Written) (hascii : isAscii (FieldPath.mk root steps).text)
    (hcompile : CompilesPrefixes compile ⟨root, steps⟩) (hopen : NoOpening steps) (hkept : KeptPath steps) :
    ∃ c : Cond R, fieldNotNilCheck compile (FieldPath.mk root steps).text = .ok c.text ∧ IsCheck ⟨root, steps⟩ c := by
  -- By induction on the length of the path; the recursion goes on before the last bracket.
  induction hn : steps.length using Nat.strong_induction_on generalizing steps with
  | _ n ih =>
    have hwhole := hcompile steps [] (List.append_nil steps).symm
    rcases exists_split steps with hnames | ⟨before, inner, access, names, rfl, hnames⟩
    · exact ⟨_, fieldNotNilCheck_names hroot (areNames_of_written hnames hwritten) hascii hwhole,
        isCheck_names hroot hwritten hnames⟩
    · obtain ⟨hbefore, hrest⟩ := List.forall_mem_append.mp hwritten
      have hare := areNames_of_written hnames (List.forall_mem_cons.mp hrest).2
      have hbracket := hkept before inner access names rfl
      rw [isEmpty_of_names hnames] at hbracket
      have hasciiBefore : isAscii (FieldPath.mk root before).text := by
        rw [text_append] at hascii
        exact (isAscii_append.mp hascii).1
      have hshorter : before.length < n := by
        rw [← hn, List.length_append, List.length_cons]
        omega
      obtain ⟨c, hc, hcheck⟩ := ih before.length hshorter hbefore hasciiBefore hcompile.left
        (fun inner' access' h => hopen inner' access' (List.mem_append_left _ h)) hkept.left rfl
      have heq : fieldNotNilCheck compile (FieldPath.mk root (before ++ .bracket inner access :: names)).text =
          .ok (joinCheck (FieldPath.mk root before).text c.text (guarded root before inner access names).text) := by
        rw [fieldNotNilCheck_bracket (hopen inner access (List.mem_append_right _ List.mem_cons_self)) hare hascii
          hwhole, hc]
        exact bracketCheck_eq hare hbracket c.text
      rw [heq]
      by_cases hrecord : before = [] ∧ IsRecord root
      · obtain ⟨rfl, hrecord⟩ := hrecord
        rw [joinCheck_record hrecord]
        exact ⟨_, rfl, isCheck_record hrecord hroot hwritten hnames⟩
      · rw [joinCheck_and hrecord]
        exact ⟨_, rfl, hcheck.bracket hroot hwritten hnames⟩

/-- A path of ASCII has a condition, unless there is an opening bracket between its brackets. -/
theorem fieldNotNilCheck_of_isAscii {root : List Char} (hroot : isName root) {steps : List (Step R)}
    (hwritten : ∀ s ∈ steps, s.Written) (hascii : isAscii (FieldPath.mk root steps).text)
    (hcompile : CompilesPrefixes compile ⟨root, steps⟩) (hrejects : RejectsCut compile ⟨root, steps⟩) :
    (NoOpening steps → ∃ check, fieldNotNilCheck compile (FieldPath.mk root steps).text = .ok check) ∧
      (¬ NoOpening steps → ∃ text, fieldNotNilCheck compile (FieldPath.mk root steps).text = .error (.error text)) := by
  induction hn : steps.length using Nat.strong_induction_on generalizing steps with
  | _ n ih =>
    have hwhole := hcompile steps [] (List.append_nil steps).symm
    rcases exists_split steps with hnames | ⟨before, inner, access, names, rfl, hnames⟩
    · have hnone : NoOpening steps := fun inner access h => absurd (hnames _ h) Bool.false_ne_true
      exact ⟨fun _ => ⟨_, fieldNotNilCheck_names hroot (areNames_of_written hnames hwritten) hascii hwhole⟩,
        fun h => absurd hnone h⟩
    obtain ⟨hbefore, hrest⟩ := List.forall_mem_append.mp hwritten
    have hare := areNames_of_written hnames (List.forall_mem_cons.mp hrest).2
    by_cases hopen : '[' ∈ inner
    · have hmem : .bracket inner access ∈ before ++ .bracket inner access :: names :=
        List.mem_append_right _ List.mem_cons_self
      exact ⟨fun h => absurd hopen (h inner access hmem),
        fun _ => fieldNotNilCheck_cut hopen hare hascii hwhole hrejects⟩
    have hasciiBefore : isAscii (FieldPath.mk root before).text := by
      rw [text_append] at hascii
      exact (isAscii_append.mp hascii).1
    have hshorter : before.length < n := by
      rw [← hn, List.length_append, List.length_cons]
      omega
    have hiff : NoOpening (before ++ .bracket inner access :: names) ↔ NoOpening before := by
      refine ⟨fun h inner' access' hmem => h inner' access' (List.mem_append_left _ hmem), fun h => ?_⟩
      intro inner' access' hmem
      rcases List.mem_append.mp hmem with hmem | hmem
      · exact h inner' access' hmem
      · rcases List.mem_cons.mp hmem with heq | hmem
        · cases heq
          exact hopen
        · exact absurd (hnames _ hmem) Bool.false_ne_true
    obtain ⟨hok, herror⟩ := ih before.length hshorter hbefore hasciiBefore hcompile.left hrejects.left rfl
    rw [hiff, fieldNotNilCheck_bracket hopen hare hascii hwhole]
    constructor
    · intro h
      obtain ⟨c, hc⟩ := hok h
      rw [hc]
      have hclose : ']' ∈ inner ++ [']'] ++ names.flatMap Step.text := by simp
      have htext : (Step.bracket inner access :: names).flatMap Step.text =
          '[' :: (inner ++ [']'] ++ names.flatMap Step.text) := by simp [Step.text]
      rw [htext]
      exact bracketCheck_ok hclose _ c
    · intro h
      obtain ⟨text, htext⟩ := herror h
      rw [htext]
      exact ⟨_, rfl⟩

end Written

end Recursion

/-! ### Fields of log records -/

/-- A log record, as far as its fields are paths. -/
structure RecordFields where
  body : Value
  attributes : List (List Char × Value)
  resource : List (List Char × Value)

instance : LogRecords RecordFields where
  root r name := if name = "body".toList then r.body else if name = "attributes".toList then .map r.attributes
    else if name = "resource".toList then .map r.resource else .nil
  Computes _ _ := False
  container r name h := by
    rcases h with rfl | rfl
    · exact ⟨r.attributes, rfl⟩
    · exact ⟨r.resource, rfl⟩

section Fields

variable [EscapeSequences] {R : Type} [LogRecords R]

/-- What is written for a path is the condition that the path does not lead to nil, in the records whose values
are of the kinds that are asked for. -/
def ChecksField (compile : List Char → Except String Unit) (p : FieldPath R) : Prop :=
  ∃ c : Cond R, c.Written ∧ fieldNotNilCheck compile p.text = .ok c.text ∧
    ∀ r, Fits r (Environment.root r p.root) p.steps → c.eval r = some !(p.value r).isNil

theorem checksField_of_kept {compile : List Char → Except String Unit} {p : FieldPath R}
    (hroot : p.root ∈ ["body".toList, "attributes".toList, "resource".toList])
    (hsteps : ∀ s ∈ p.steps, IsFieldStep s) (hcompile : CompilesPrefixes compile p)
    (hrejects : RejectsCut compile p) :
    (fieldNotNilCheck compile p.text = .error .panic ↔ ¬ isAscii p.text) ∧
      ((∃ check, fieldNotNilCheck compile p.text = .ok check) ↔ isAscii p.text ∧ NoOpening p.steps) ∧
      (isAscii p.text → NoOpening p.steps → KeptPath p.steps → ChecksField compile p) := by
  have hname : isName p.root ∧ 2 ≤ p.root.length := by
    simp only [List.mem_cons, List.not_mem_nil, or_false] at hroot
    rcases hroot with h | h | h <;> rw [h] <;> decide
  have hwritten : ∀ s ∈ p.steps, s.Written := fun s hs => .field (hsteps s hs)
  have hpanic : ¬ isAscii p.text → fieldNotNilCheck compile p.text = .error .panic := fun h =>
    fieldNotNilCheck_panic (hcompile p.steps [] (List.append_nil _).symm) h
      (Nat.le_trans hname.2 (by rw [FieldPath.text, List.length_append]; omega))
  have hresult := fun h : isAscii p.text => fieldNotNilCheck_of_isAscii hname.1 hwritten h hcompile hrejects
  refine ⟨⟨fun h hascii => ?_, hpanic⟩, ⟨?_, fun h => (hresult h.1).1 h.2⟩, fun hascii hopen hkept => ?_⟩
  · by_cases hopen : NoOpening p.steps
    · obtain ⟨check, hcheck⟩ := (hresult hascii).1 hopen
      cases h.symm.trans hcheck
    · obtain ⟨text, htext⟩ := (hresult hascii).2 hopen
      cases h.symm.trans htext
  · rintro ⟨check, hcheck⟩
    have hascii : isAscii p.text := by
      by_contra hascii
      cases hcheck.symm.trans (hpanic hascii)
    refine ⟨hascii, ?_⟩
    by_contra hopen
    obtain ⟨text, htext⟩ := (hresult hascii).2 hopen
    cases hcheck.symm.trans htext
  · obtain ⟨c, hc, hcheck⟩ := exists_isCheck hname.1 hwritten hascii hcompile hopen hkept
    exact ⟨c, hcheck.written, hc, hcheck.exact hsteps⟩

end Fields

/-- `attributes.order["product.ids"][0].id`. -/
def productId : FieldPath RecordFields :=
  ⟨"attributes".toList, [.field false "order".toList, .key "product.ids".toList "product.ids".toList, .index 0,
    .field false "id".toList]⟩

theorem checksField_productId : letI := QueryBuilderToExpr.plainEscapes
    ChecksField (fun _ => .ok ()) productId := by
  let _ := QueryBuilderToExpr.plainEscapes
  have hreads : Reads '"' "product.ids".toList "product.ids".toList :=
    reads_of_not_mem (by decide) (by decide)
  have hline : ∀ c ∈ lineEnds, c ∉ "product.ids".toList := by simp [lineEnds]
  have hkey : IsFieldStep (R := RecordFields) (.key "product.ids".toList "product.ids".toList) := .key hreads hline
  have hindex : IsFieldStep (R := RecordFields) (.index 0) := .index (by decide)
  have horder : IsFieldStep (R := RecordFields) (.field false "order".toList) := .field (by decide)
  have hid : IsFieldStep (R := RecordFields) (.field false "id".toList) := .field (by decide)
  have hsteps : ∀ s ∈ productId.steps, IsFieldStep s := by
    intro s hs
    rcases List.mem_cons.mp hs with rfl | hs
    · exact horder
    rcases List.mem_cons.mp hs with rfl | hs
    · exact hkey
    rcases List.mem_pair.mp hs with rfl | rfl
    · exact hindex
    · exact hid
  have hascii : isAscii productId.text := by decide
  have hopen : NoOpening productId.steps := fun _ _ => not_mem_inner (by decide)
  exact (checksField_of_kept (by decide) hsteps (fun _ _ _ => rfl) (rejectsCut_of_noOpening hopen)).2.2 hascii hopen
    (kept_of_not_mem (by decide))

/-- A name that is not of ASCII. -/
theorem not_checksField_unicode : letI := QueryBuilderToExpr.plainEscapes
    ¬ ChecksField (fun _ => .ok ()) (⟨"attributes".toList, [.field false ['é']]⟩ : FieldPath RecordFields) := by
  let _ := QueryBuilderToExpr.plainEscapes
  rintro ⟨c, -, hc, -⟩
  rw [fieldNotNilCheck_panic rfl (by decide) (by decide)] at hc
  cases hc

end QueryService.LogParsingPipeline
