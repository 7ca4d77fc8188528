import BoringPanel.QueryService.Resource.Escapes

/-!
# The conditions for the index

Whether the condition that `buildResourceIndexFilter` adds for the index keeps every row that the
exact condition of `buildResourceFilter` returns. It does for an operator that needs the key to be
there, when its values are written in the column as the pattern expects; the negative operators, and
those that an absent key satisfies, lose rows.

* `IndexSafe`: the items for which no row is lost.
* `neverExcludes_of_indexSafe`: they lose none.
-/

namespace QueryService.Resource

open Utils ClickHouse

variable {F : Type} [GoFloat F]

/-! ### The items for which no row is lost -/

/-- The value, if it is a string. -/
def string? : GoValue F → Option String
  | .string s => some s
  | _ => none

/-- The items whose condition for the index holds for every row that the exact condition returns. -/
def IndexSafe (key : String) (op : FilterOperator) (value : GoValue F) : Prop :=
  let text := (value.formatS false).toList
  match op with
  | .exists | .greaterThan | .regex | .notRegex => True
  | .notExists => False
  -- a comparison with a list returns no row
  | .equal => ∀ s ∈ string? value, s ≠ "" ∧ ∀ c ∈ s.toList, IndexPlain c
  | .notEqual | .lessThanOrEq => string? value = none
  | .lessThan => ∀ s ∈ string? value, s = ""
  | .greaterThanOrEq => ∀ s ∈ string? value, s ≠ ""
  | .contains => text ≠ [] ∧ ∀ c ∈ text, IndexPlain c
  | .notContains => text = [] ∨ key.toList.any Char.isUpper
  | .like => (∃ c ∈ text, c ≠ '%') ∧ ∀ c ∈ text, JsonPlain c ∧ c ≠ '_'
  | .notLike => text ≠ [] ∧ (∀ c ∈ text, c = '%') ∨ key.toList.any Char.isUpper
  | .in => ∀ s ∈ stringValues value, s ≠ "" ∧ ∀ c ∈ s.toList, IndexPlain c
  | .notIn => stringValues value = []
  -- refused
  | .has | .notHas => True

/-- A key that stands in the column as it stands in the pattern, and in a literal. -/
structure OrdinaryKey (key : String) : Prop where
  plain : ∀ c ∈ key.toList, JsonPlain c ∧ c ≠ '\''
  searchable : Searchable key.toList
  /-- Something that not every JSON text contains. -/
  literal : ∃ c ∈ key.toList, c ∉ ['%', '_', '{', '}']

/-- Values that stand in the column as the pattern expects. -/
def OrdinaryValue (op : FilterOperator) (value : GoValue F) : Prop :=
  match op with
  | .like | .notLike => ∀ c ∈ (value.formatS false).toList, JsonPlain c ∧ c ≠ '_'
  | .contains | .notContains => ∀ c ∈ (value.formatS false).toList, IndexPlain c
  | _ => ∀ s ∈ stringValues value, ∀ c ∈ s.toList, IndexPlain c

/-- What the values of an item are after the cast: texts, or nothing that the index looks at. -/
inductive CastValue : FilterOperator → GoValue F → Prop where
  | string (op : FilterOperator) (s : String) : CastValue op (.string s)
  | array (op : FilterOperator) (ss : List String) : CastValue op (.array (ss.map .string))
  | existence {op : FilterOperator} (hop : op = .exists ∨ op = .notExists) : CastValue op .nil
  | other {op : FilterOperator} (hop : op = .in ∨ op = .notIn) {value : GoValue F}
    (h : stringValues value = []) : CastValue op value

/-! ### Where the key stands in the column -/

namespace OrdinaryKey

variable {key : String} (hkey : OrdinaryKey key)

include hkey

theorem backslash : '\\' ∉ key.toList := fun h => JsonPlain.ne_backslash (hkey.plain _ h).1 rfl

theorem unescape : ClickHouse.unescape key.toList = key.toList := by
  have := unescape_append hkey.backslash []
  simpa [ClickHouse.unescape] using this

theorem jsonPlain : ∀ c ∈ key.toList, JsonPlain c := fun c hc => (hkey.plain c hc).1

end OrdinaryKey

section Column

variable {W : JsonWriter} {J : JsonSearch W} {l : List (List Char × List Char)} {key : String}

/-- The pattern `%key%` matches where the key is found. -/
theorem like_key_of_has (hkey : '\\' ∉ key.toList)
    (h : J.has (W.objectText l) key.toList) : like (W.objectText l) ("%" ++ key ++ "%").toList := by
  obtain ⟨u, w, htext⟩ := (J.has_iff _ _).mp h
  rw [(reads_key hkey).like_iff, ← htext]
  have := matches_within (u := u ++ ['"']) (w := ['"', ':'] ++ w) (matches_wild key.toList)
  simpa [jsonNeedle] using this

/-- The pattern `%value%`. -/
theorem reads_within {value : String} {ts : List LikeToken} (hvalue : Reads value.toList ts) :
    Reads ("%" ++ value ++ "%").toList (.any :: (ts ++ [.any])) := by
  have hany : Reads ['%'] [.any] := fun _ => rfl
  have h := hany.append (hvalue.append hany)
  simpa using h

/-- What is found stands behind its key. -/
theorem matches_keyValue_of_extract (hkey : Searchable key.toList) {p v q : List Char}
    {ts : List LikeToken} (hx : J.extract (W.objectText l) key.toList = p ++ v ++ q)
    (hne : J.extract (W.objectText l) key.toList ≠ []) (hv : Matches ts (W.body v)) :
    Matches (.any :: (key.toList.map wild ++ .any :: (ts ++ [.any]))) (W.objectText l) := by
  obtain ⟨u, w, htext⟩ := J.extract_eq hkey hne
  have hparts : W.objectText l = (u ++ ['"']) ++ key.toList ++ (['"', ':', '"'] ++ W.body p) ++
      W.body v ++ (W.body q ++ '"' :: w) := by
    rw [htext, hx]
    simp [jsonNeedle, JsonWriter.body_append]
  rw [hparts]
  exact matches_between (matches_wild _) hv

/-- The pattern `%key%` matches where a text is found. -/
theorem like_key_of_extract (hkey : OrdinaryKey key)
    (hne : J.extract (W.objectText l) key.toList ≠ []) :
    like (W.objectText l) ("%" ++ key ++ "%").toList := by
  refine like_key_of_has (J := J) hkey.backslash ?_
  rw [J.has_iff]
  by_contra hnone
  exact hne (J.extract_none _ _ hnone)

/-- The pattern `%"key":"value"%` matches where the value is found. -/
theorem like_valueBody_of_extract (hkey : OrdinaryKey key) {value : String}
    (hvalue : ∀ c ∈ value.toList, IndexPlain c) (hne : value ≠ "")
    (hx : J.extract (W.objectText l) key.toList = value.toList) :
    like (W.objectText l) (valueBody key value).toList := by
  obtain ⟨u, w, htext⟩ := J.extract_eq (l := l) hkey.searchable
    (by rw [hx]; exact fun h => hne (String.toList_eq_nil_iff.mp h))
  rw [hx] at htext
  rw [(reads_valueBody W hkey.backslash hvalue).like_iff, htext]
  have hquoted : Matches (.char '"' :: ((W.body value.toList).map .char ++ [.char '"']))
      ('"' :: W.body value.toList ++ ['"']) := by
    have h := (matches_chars_iff (l := '"' :: W.body value.toList ++ ['"'])).mpr rfl
    simpa using h
  have hmiddle : Matches ((jsonNeedle key.toList).map wild ++
      (.char '"' :: ((W.body value.toList).map .char ++ [.char '"'])))
      (jsonNeedle key.toList ++ ('"' :: W.body value.toList ++ ['"'])) :=
    matches_append_iff.mpr ⟨_, _, rfl, matches_wild _, hquoted⟩
  have h := matches_within (u := u) (w := w) hmiddle
  simpa using h

/-- A text that matches a pattern of plain characters matches it as the writer puts it. -/
theorem matches_body {ts : List LikeToken} (hts : ∀ c, .char c ∈ ts → JsonPlain c)
    (hone : .one ∉ ts) {s : List Char} (h : Matches ts s) : Matches ts (W.body s) := by
  induction ts generalizing s with
  | nil =>
    obtain rfl := matches_nil_iff.mp h
    exact matches_nil_iff.mpr rfl
  | cons t ts ih =>
    have ih := fun {s} => @ih (fun c hc => hts c (List.mem_cons_of_mem _ hc))
      (fun h => hone (List.mem_cons_of_mem _ h)) s
    cases t with
    | any =>
      obtain ⟨u, v, rfl, hv⟩ := matches_any_iff.mp h
      exact matches_any_iff.mpr ⟨W.body u, W.body v, W.body_append u v, ih hv⟩
    | one => exact absurd List.mem_cons_self hone
    | char c =>
      obtain ⟨v, rfl, hv⟩ := matches_char_iff.mp h
      refine matches_char_iff.mpr ⟨W.body v, ?_, ih hv⟩
      rw [JsonWriter.body_cons, W.escape_plain c (hts c List.mem_cons_self)]
      rfl

/-- A pattern of `%` alone matches every text. -/
theorem matches_percents {v : List Char} (hne : v ≠ []) (hall : ∀ c ∈ v, c = '%') (s : List Char) :
    Matches (v.map wild) s := by
  induction v generalizing s with
  | nil => exact absurd rfl hne
  | cons c v ih =>
    obtain rfl := hall c List.mem_cons_self
    by_cases hv : v = []
    · rw [hv]
      exact matches_any s
    · refine matches_any_iff.mpr ⟨[], s, rfl, ?_⟩
      exact ih hv (fun d hd => hall d (List.mem_cons_of_mem _ hd)) s

end Column

/-! ### Rows that the index keeps -/

theorem Server.lowerLabels_eq (S : Server) (row : Go.Map String) :
    S.lowerLabels row = S.writer.objectText (JsonWriter.lowerMembers (members row)) :=
  S.writer.map_toLower_objectText _

section Holds

variable {S : Server} {row : Go.Map String} {negated : Bool} {key body : String}

@[simp] theorem signed_false {P : Prop} : Server.signed false P ↔ P := Iff.rfl

@[simp] theorem signed_true {P : Prop} : Server.signed true P ↔ ¬ P := Iff.rfl

theorem holds_has : S.Holds row (.has negated key) ↔
    Server.signed negated (S.json.has (S.labels row) (ClickHouse.unescape key.toList)) := Iff.rfl

theorem holds_compare {c : Comparison} {rhs : Literal} : S.Holds row (.compare c key rhs) ↔
    S.Compares (S.json.extract (S.labels row) (ClickHouse.unescape key.toList)) c rhs := Iff.rfl

theorem holds_valueLike : S.Holds row (.valueLike negated key body) ↔ Server.signed negated
    (like (S.json.extract (S.lowerLabels row) (ClickHouse.unescape key.toList)) body.toList) :=
  Iff.rfl

theorem holds_labelsLike : S.Holds row (.labelsLike negated body) ↔
    Server.signed negated (like (S.labels row) body.toList) := Iff.rfl

theorem holds_lowerLike : S.Holds row (.lowerLike negated body) ↔
    Server.signed negated (like (S.lowerLabels row) body.toList) := Iff.rfl

theorem holds_labelsLikes {bodies : List String} : S.Holds row (.labelsLikes negated bodies) ↔
    Server.signed negated (∃ body ∈ bodies, like (S.labels row) body.toList) := Iff.rfl

end Holds

section Kept

-- This linter would evaluate the conditions.
set_option linter.constructorNameAsVariable false

variable {S : Server} {key : String} (hkey : OrdinaryKey key) {row : Go.Map String}

include hkey

/-- A comparison that the empty text does not satisfy finds the key. -/
theorem kept_compare {c : Comparison} {rhs : Literal} (hnil : ¬ S.Compares [] c rhs)
    (h : S.Holds row (.compare c key rhs)) :
    S.Holds row (.labelsLike false ("%" ++ key ++ "%")) := by
  rw [holds_compare, hkey.unescape] at h
  rw [holds_labelsLike, signed_false]
  exact like_key_of_extract (J := S.json) hkey fun hempty => hnil (hempty ▸ h)

theorem kept_equal {v : String} (hne : v ≠ "") (hplain : ∀ c ∈ v.toList, IndexPlain c)
    (h : S.Holds row (.compare .eq key (.string v))) :
    S.Holds row (.labelsLike false
      ("%" ++ key ++ "%" ++ quoteEscapedStringForContains v true ++ "%")) := by
  have hx : S.json.extract (S.labels row) key.toList = v.toList := by
    rw [holds_compare, hkey.unescape] at h
    exact h
  have hvalue : Reads (quoteEscapedStringForContains v true).toList
      ((S.writer.body v.toList).map .char) := by
    rw [toList_quoteEscapedStringForContains]
    exact reads_index S.writer hplain
  have hnil : S.json.extract (S.labels row) key.toList ≠ [] := by
    rw [hx]
    exact fun hempty => hne (String.toList_eq_nil_iff.mp hempty)
  rw [holds_labelsLike, signed_false, (reads_keyValue hkey.backslash hvalue).like_iff]
  have hparts : S.json.extract (S.labels row) key.toList = [] ++ v.toList ++ [] := by
    rw [hx, List.append_nil, List.nil_append]
  exact matches_keyValue_of_extract hkey.searchable hparts hnil (matches_chars_iff.mpr rfl)

theorem kept_in {vs : List String} {v : String} (hmem : v ∈ vs) (hne : v ≠ "")
    (hplain : ∀ c ∈ v.toList, IndexPlain c)
    (hx : S.json.extract (S.labels row) (ClickHouse.unescape key.toList) = v.toList) :
    S.Holds row (.labelsLikes false (vs.map (valueBody key))) := by
  rw [hkey.unescape] at hx
  exact ⟨_, List.mem_map_of_mem hmem, like_valueBody_of_extract hkey hplain hne hx⟩

/-- A key with a character that a text does not have is not in it. -/
theorem not_like_of_not_mem {c : Char} (hc : c ∈ key.toList) (hwild : c ≠ '%' ∧ c ≠ '_')
    {text : List Char} (hnot : c ∉ text) (rest : String) :
    ¬ like text ("%" ++ key ++ "%" ++ rest).toList := by
  intro h
  have htokens := reads_key hkey.backslash rest.toList
  rw [← String.toList_append] at htokens
  rw [like, htokens] at h
  have hchar : wild c = .char c := by
    rw [wild]
    · exact hwild.1
    · exact hwild.2
  refine hnot (mem_of_matches h ?_)
  rw [← hchar]
  simp only [List.cons_append, List.append_assoc, List.mem_cons, List.mem_append]
  exact .inr (.inl (List.mem_map_of_mem hc))

/-- A key with a capital is not in the labels in lower case. -/
theorem not_like_of_upper (hupper : key.toList.any Char.isUpper) (rest : String) :
    ¬ like (S.lowerLabels row) ("%" ++ key ++ "%" ++ rest).toList := by
  obtain ⟨c, hc, hcupper⟩ := List.any_eq_true.mp hupper
  refine not_like_of_not_mem hkey hc ⟨?_, ?_⟩ (fun hmem => ?_) rest
  · rintro rfl
    cases hcupper
  · rintro rfl
    cases hcupper
  · obtain ⟨d, -, rfl⟩ := List.mem_map.mp hmem
    rw [Char.isUpper_toLower_eq_false] at hcupper
    cases hcupper

variable [Go.Unicode]

omit hkey in
theorem indexPlain_toLower {v : String} (hplain : ∀ c ∈ v.toList, IndexPlain c) :
    ∀ c ∈ (Go.toLower v).toList, IndexPlain c := by
  intro c hc
  rw [Go.toList_toLower] at hc
  obtain ⟨d, hd, rfl⟩ := List.mem_map.mp hc
  rcases hplain d hd with rfl | hd
  · exact .inl (toLower_special (by simp [specials]))
  · exact .inr (jsonPlain_toLower hd)

theorem kept_contains {v : String} (hne : v ≠ "") (hplain : ∀ c ∈ v.toList, IndexPlain c)
    (h : S.Holds row (.valueLike false key
      ("%" ++ quoteEscapedStringForContains (Go.toLower v) false ++ "%"))) :
    S.Holds row (.lowerLike false
      ("%" ++ key ++ "%" ++ Go.toLower (quoteEscapedStringForContains v true) ++ "%")) := by
  have hlower := indexPlain_toLower hplain
  have hbackslash : '\\' ∉ (Go.toLower v).toList := fun hmem => (hlower _ hmem).ne_backslash rfl
  rw [holds_valueLike, signed_false, hkey.unescape, S.lowerLabels_eq,
    (reads_within (reads_contains hbackslash)).like_iff] at h
  obtain ⟨p, w, q, hpart, hw⟩ := matches_within_iff.mp h
  obtain rfl := matches_chars_iff.mp hw
  have hvalue : Reads (Go.toLower (quoteEscapedStringForContains v true)).toList
      ((S.writer.body (Go.toLower v).toList).map .char) := by
    rw [toList_toLower_containsEscaped]
    exact reads_index S.writer hlower
  rw [holds_lowerLike, signed_false, (reads_keyValue hkey.backslash hvalue).like_iff,
    S.lowerLabels_eq]
  refine matches_keyValue_of_extract hkey.searchable hpart ?_ (matches_chars_iff.mpr rfl)
  rw [hpart]
  intro hempty
  have hv : (Go.toLower v).toList = [] := by
    simp only [List.append_eq_nil_iff] at hempty
    exact hempty.1.2
  rw [Go.toList_toLower, List.map_eq_nil_iff] at hv
  exact hne (String.toList_eq_nil_iff.mp hv)

omit hkey in
/-- A pattern without `_` in lower case: each character but `%` stands for itself. -/
theorem lowerPattern {v : String} (hplain : ∀ c ∈ v.toList, JsonPlain c ∧ c ≠ '_') {d : Char}
    (hd : d ∈ v.toList) (hdpercent : d ≠ '%') :
    (∀ c ∈ (Go.toLower v).toList, JsonPlain c) ∧
      (∀ c ∈ (Go.toLower v).toList, c = '%' ∨ wild c = .char c) ∧
      .char (Go.Unicode.toLower d) ∈ (Go.toLower v).toList.map wild := by
  -- No other character becomes one of the pattern.
  have hspecial : ∀ c ∈ v.toList, ∀ e ∈ ['%', '_'], Go.Unicode.toLower c = e → c = e := by
    intro c _ e he h
    have hmem : Go.Unicode.toLower c ∈ specials := by
      rw [h]
      fin_cases he <;> simp [specials]
    exact (eq_of_toLower_special hmem).symm.trans h
  have hchar : ∀ c ∈ v.toList, Go.Unicode.toLower c = '%' ∨
      wild (Go.Unicode.toLower c) = .char (Go.Unicode.toLower c) := by
    intro c hc
    by_cases hpercent : Go.Unicode.toLower c = '%'
    · exact .inl hpercent
    · right
      rw [wild]
      · exact hpercent
      · exact fun hunder => (hplain c hc).2 (hspecial c hc '_' (by simp) hunder)
  simp only [Go.toList_toLower, List.forall_mem_map]
  refine ⟨fun c hc => jsonPlain_toLower (hplain c hc).1, hchar, ?_⟩
  have hdwild := (hchar d hd).resolve_left fun h => hdpercent (hspecial d hd '%' (by simp) h)
  rw [← hdwild]
  exact List.mem_map_of_mem (List.mem_map_of_mem hd)

theorem kept_like {v : String} (hne : ∃ c ∈ v.toList, c ≠ '%')
    (hplain : ∀ c ∈ v.toList, JsonPlain c ∧ c ≠ '_')
    (h : S.Holds row (.valueLike false key (quoteEscapedString (Go.toLower v)))) :
    S.Holds row (.lowerLike false
      ("%" ++ key ++ "%" ++ Go.toLower (quoteEscapedString v) ++ "%")) := by
  obtain ⟨d, hd, hdpercent⟩ := hne
  obtain ⟨hlower, hchar, hdlower⟩ := lowerPattern hplain hd hdpercent
  have hbackslash : '\\' ∉ (Go.toLower v).toList :=
    fun hmem => JsonPlain.ne_backslash (hlower _ hmem) rfl
  rw [holds_valueLike, signed_false, hkey.unescape, S.lowerLabels_eq, toList_quoteEscapedString,
    (reads_like hbackslash).like_iff] at h
  have hvalue : Reads (Go.toLower (quoteEscapedString v)).toList ((Go.toLower v).toList.map wild) := by
    rw [toList_toLower_quoteEscaped]
    exact reads_like hbackslash
  -- The pattern has a character that is no wildcard, which is in the text that it matches.
  have hnil : S.json.extract (S.writer.objectText (JsonWriter.lowerMembers (members row)))
      key.toList ≠ [] := List.ne_nil_of_mem (mem_of_matches h hdlower)
  rw [holds_lowerLike, signed_false, (reads_keyValue hkey.backslash hvalue).like_iff,
    S.lowerLabels_eq]
  have hparts (x : List Char) : x = [] ++ x ++ [] := by simp
  refine matches_keyValue_of_extract hkey.searchable (hparts _) hnil (matches_body ?_ ?_ h)
  · intro c hc
    obtain ⟨e, he, hwild⟩ := List.mem_map.mp hc
    rcases hchar e he with rfl | htoken
    · cases hwild
    · rw [htoken] at hwild
      obtain rfl := LikeToken.char.inj hwild
      exact hlower e he
  · intro hmem
    obtain ⟨e, he, hwild⟩ := List.mem_map.mp hmem
    rcases hchar e he with rfl | htoken
    · cases hwild
    · rw [htoken] at hwild
      cases hwild

end Kept

/-! ### The items that are safe -/

omit [GoFloat F] in
theorem strings?_map_string (ss : List String) :
    strings? (ss.map (GoValue.string (F := F))) = some ss := by
  induction ss with
  | nil => rfl
  | cons s ss ih => rw [List.map_cons, strings?, ih, Option.map_some]

theorem toLiteral_map_string (ss : List String) :
    toLiteral (GoValue.array (F := F) (ss.map .string)) = .array ss := by
  rw [toLiteral, strings?_map_string]

omit [GoFloat F] in
theorem stringValues_map_string (ss : List String) :
    stringValues (GoValue.array (F := F) (ss.map .string)) = ss := by
  rw [stringValues, List.filterMap_map]
  exact List.filterMap_some

omit [GoFloat F] in
/-- The values of an operator that compares with one value, or is given a list. -/
theorem CastValue.string_or_array {op : FilterOperator} {value : GoValue F} (h : CastValue op value)
    (hop : op ∉ [.exists, .notExists, .in, .notIn]) :
    (∃ s, value = .string s) ∨ ∃ ss : List String, value = .array (ss.map .string) := by
  cases h with
  | string s => exact .inl ⟨s, rfl⟩
  | array ss => exact .inr ⟨ss, rfl⟩
  | existence h =>
    rcases h with rfl | rfl
    · simp at hop
    · simp at hop
  | other h =>
    rcases h with rfl | rfl
    · simp at hop
    · simp at hop

variable [Go.Unicode]

/-- **No row that the exact condition returns is excluded by the condition for the index.** -/
def NeverExcludes (S : Server) (key : String) (op : FilterOperator) (value : GoValue F) : Prop :=
  ∀ row, ∀ c ∈ filterCondition key op value, ∀ i ∈ indexCondition key op value,
    S.Holds row c → S.Holds row i

section Safe

set_option linter.constructorNameAsVariable false

variable {S : Server} {key : String} {op : FilterOperator} {value : GoValue F}

/-- One condition implies the other. -/
theorem neverExcludes_of_holds {c i : LabelCondition} (hfilter : filterCondition key op value = some c)
    (hindex : indexCondition key op value = some i)
    (h : ∀ row, S.Holds row c → S.Holds row i) : NeverExcludes S key op value := by
  intro row c' hc i' hi
  obtain rfl := Option.some.inj (hfilter.symm.trans hc)
  obtain rfl := Option.some.inj (hindex.symm.trans hi)
  exact h row

/-- A comparison with a list returns no row, one with a text is looked at. -/
theorem neverExcludes_compare {c : Comparison} {i : LabelCondition} (hcast : CastValue op value)
    (hop : op ∉ [.exists, .notExists, .in, .notIn]) (hc : c ≠ .in ∧ c ≠ .notIn)
    (hfilter : filterCondition key op value = some (.compare c key (toLiteral value)))
    (hindex : indexCondition key op value = some i)
    (h : ∀ s, value = .string s → ∀ row, S.Holds row (.compare c key (.string s)) → S.Holds row i) :
    NeverExcludes S key op value := by
  refine neverExcludes_of_holds hfilter hindex fun row hrow => ?_
  rcases hcast.string_or_array hop with ⟨s, rfl⟩ | ⟨ss, rfl⟩
  · exact h s rfl row hrow
  · rw [toLiteral_map_string, holds_compare] at hrow
    cases c with
    | «in» => exact absurd rfl hc.1
    | notIn => exact absurd rfl hc.2
    | eq => exact hrow.elim
    | ne => exact hrow.elim
    | lt => exact hrow.elim
    | le => exact hrow.elim
    | gt => exact hrow.elim
    | ge => exact hrow.elim

theorem neverExcludes_in (hkey : OrdinaryKey key) (hcast : CastValue .in value)
    (hsafe : ∀ s ∈ stringValues value, s ≠ "" ∧ ∀ c ∈ s.toList, IndexPlain c) :
    NeverExcludes S key .in value := by
  by_cases hnone : stringValues value = []
  · intro row c _ i hi
    simp [indexCondition, hnone] at hi
  have hindex : indexCondition key .in value =
      some (.labelsLikes false ((stringValues value).map (valueBody key))) := if_neg hnone
  refine neverExcludes_of_holds rfl hindex fun row h => ?_
  rw [holds_compare] at h
  obtain ⟨s, hs, hx⟩ : ∃ s ∈ stringValues value,
      S.json.extract (S.labels row) (ClickHouse.unescape key.toList) = s.toList := by
    cases hcast with
    | string s => exact ⟨s, List.mem_singleton_self s, h⟩
    | array ss =>
      rw [toLiteral_map_string] at h
      rw [stringValues_map_string]
      exact h
    | existence hop => rcases hop with hop | hop <;> cases hop
    | other _ hvalues => exact absurd hvalues hnone
  exact kept_in hkey hs (hsafe s hs).1 (hsafe s hs).2 hx

theorem neverExcludes_contains (hkey : OrdinaryKey key) (hne : value.formatS false ≠ "")
    (hplain : ∀ c ∈ (value.formatS false).toList, IndexPlain c) :
    NeverExcludes S key .contains value := by
  have hfilter : filterCondition key .contains value = some (.valueLike false key
      ("%" ++ quoteEscapedStringForContains (Go.toLower (value.formatS false)) false ++ "%")) := rfl
  have hindex : indexCondition key .contains value = some (.lowerLike false ("%" ++ key ++ "%" ++
      Go.toLower (quoteEscapedStringForContains (value.formatS false) true) ++ "%")) := rfl
  exact neverExcludes_of_holds hfilter hindex fun row => kept_contains hkey hne hplain

theorem neverExcludes_like (hkey : OrdinaryKey key)
    (hne : ∃ c ∈ (value.formatS false).toList, c ≠ '%')
    (hplain : ∀ c ∈ (value.formatS false).toList, JsonPlain c ∧ c ≠ '_') :
    NeverExcludes S key .like value := by
  have hfilter : filterCondition key .like value = some (.valueLike false key
      (quoteEscapedString (Go.toLower (value.formatS false)))) := rfl
  have hindex : indexCondition key .like value = some (.lowerLike false ("%" ++ key ++ "%" ++
      Go.toLower (quoteEscapedString (value.formatS false)) ++ "%")) := rfl
  exact neverExcludes_of_holds hfilter hindex fun row => kept_like hkey hne hplain

/-- A text that contains nothing is never without it. -/
theorem neverExcludes_notContains (hkey : OrdinaryKey key)
    (hsafe : value.formatS false = "" ∨ key.toList.any Char.isUpper) :
    NeverExcludes S key .notContains value := by
  have hfilter : filterCondition key .notContains value = some (.valueLike true key
      ("%" ++ quoteEscapedStringForContains (Go.toLower (value.formatS false)) false ++ "%")) := rfl
  have hindex : indexCondition key .notContains value = some (.lowerLike true ("%" ++ key ++ "%" ++
      Go.toLower (quoteEscapedStringForContains (value.formatS false) true) ++ "%")) := rfl
  refine neverExcludes_of_holds hfilter hindex fun row h => ?_
  rw [holds_lowerLike, signed_true]
  rcases hsafe with hempty | hupper
  · rw [hempty, holds_valueLike, signed_true] at h
    refine absurd ?_ h
    have hnone : Reads (quoteEscapedStringForContains (Go.toLower "") false).toList [] := by
      rw [toList_quoteEscapedStringForContains, Go.toList_toLower]
      exact reads_nil
    rw [(reads_within hnone).like_iff]
    exact matches_any_iff.mpr ⟨[], _, rfl, matches_any _⟩
  · rw [String.append_assoc]
    exact not_like_of_upper hkey hupper _

/-- A text matches `%` alone. -/
theorem neverExcludes_notLike (hkey : OrdinaryKey key)
    (hsafe : (value.formatS false).toList ≠ [] ∧ (∀ c ∈ (value.formatS false).toList, c = '%') ∨
      key.toList.any Char.isUpper) : NeverExcludes S key .notLike value := by
  have hfilter : filterCondition key .notLike value = some (.valueLike true key
      (quoteEscapedString (Go.toLower (value.formatS false)))) := rfl
  have hindex : indexCondition key .notLike value = some (.lowerLike true ("%" ++ key ++ "%" ++
      Go.toLower (quoteEscapedString (value.formatS false)) ++ "%")) := rfl
  refine neverExcludes_of_holds hfilter hindex fun row h => ?_
  rw [holds_lowerLike, signed_true]
  rcases hsafe with ⟨hne, hall⟩ | hupper
  · have hsame : (value.formatS false).toList.map Go.Unicode.toLower =
        (value.formatS false).toList := by
      refine (List.map_congr_left fun c hc => ?_).trans (List.map_id _)
      rw [hall c hc]
      exact toLower_special (by simp [specials])
    have hbackslash : '\\' ∉ (value.formatS false).toList := fun hmem => by
      cases hall _ hmem
    rw [holds_valueLike, signed_true, toList_quoteEscapedString, Go.toList_toLower, hsame,
      (reads_like hbackslash).like_iff] at h
    exact absurd (matches_percents hne hall _) h
  · rw [String.append_assoc]
    exact not_like_of_upper hkey hupper _

/-- **A safe item loses no row.** -/
theorem neverExcludes_of_indexSafe (hkey : OrdinaryKey key) (hcast : CastValue op value)
    (hsafe : IndexSafe key op value) : NeverExcludes S key op value := by
  cases op with
  | equal =>
    refine neverExcludes_compare hcast (by simp) (by simp) rfl rfl ?_
    rintro s rfl row h
    exact kept_equal hkey (hsafe s rfl).1 (hsafe s rfl).2 h
  | notEqual =>
    refine neverExcludes_compare hcast (by simp) (by simp) rfl rfl ?_
    rintro s rfl
    cases hsafe
  | lessThan =>
    refine neverExcludes_compare hcast (by simp) (by simp) rfl rfl ?_
    rintro s rfl row h
    refine kept_compare hkey ?_ h
    rw [hsafe s rfl]
    exact List.not_lt_nil _
  | lessThanOrEq =>
    refine neverExcludes_compare hcast (by simp) (by simp) rfl rfl ?_
    rintro s rfl
    cases hsafe
  | greaterThan =>
    refine neverExcludes_compare hcast (by simp) (by simp) rfl rfl ?_
    rintro s rfl row h
    exact kept_compare hkey (List.not_lt_nil _) h
  | greaterThanOrEq =>
    refine neverExcludes_compare hcast (by simp) (by simp) rfl rfl ?_
    rintro s rfl row h
    refine kept_compare hkey ?_ h
    rintro (hlt | heq)
    · exact List.not_lt_nil _ hlt
    · exact hsafe s rfl (String.toList_eq_nil_iff.mp heq.symm)
  | «in» => exact neverExcludes_in hkey hcast hsafe
  | notIn =>
    have hnone : stringValues value = [] := hsafe
    intro row c _ i hi
    simp [indexCondition, hnone] at hi
  | contains =>
    have hne : value.formatS false ≠ "" := fun h => hsafe.1 (String.toList_eq_nil_iff.mpr h)
    exact neverExcludes_contains hkey hne hsafe.2
  | notContains =>
    exact neverExcludes_notContains hkey (hsafe.imp_left String.toList_eq_nil_iff.mp)
  | regex =>
    intro row c _ i hi
    cases hi
  | notRegex =>
    intro row c _ i hi
    cases hi
  | like => exact neverExcludes_like hkey hsafe.1 hsafe.2
  | notLike => exact neverExcludes_notLike hkey hsafe
  | «exists» =>
    refine neverExcludes_of_holds rfl rfl fun row h => ?_
    rw [holds_has, signed_false, hkey.unescape] at h
    rw [holds_labelsLike, signed_false]
    exact like_key_of_has hkey.backslash h
  | notExists => exact hsafe.elim
  | has =>
    intro row c hc
    cases hc
  | notHas =>
    intro row c hc
    cases hc

end Safe

end QueryService.Resource
