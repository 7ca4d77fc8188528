import Mathlib
import BoringPanel.QueryService.Resource.LabelCondition

/-!
# What the escaped values match

The escapes of `utils/format.go` one character at a time, and the tokens that a `LIKE` pattern reads
them as: in a condition on a value the characters of the value, and in a condition on the column
`labels` the characters that the JSON writer has put for them.
-/

/-- The letters of ASCII only. -/
@[reducible] def Go.Unicode.ascii : Go.Unicode where
  toLower := Char.toLower
  toLower_ascii _ _ := rfl
  toLower_letter c hc := by
    have hupper : c.isUpper := by
      by_contra h
      exact hc (Char.toLower_eq_of_not_isUpper h)
    left
    rw [Char.isLower_toLower_eq_isAlpha, Char.isAlpha, hupper, Bool.true_or]

namespace QueryService.Resource

open Utils ClickHouse

/-! ### The escapes, character by character -/

/-- What `QuoteEscapedString` puts for a character. -/
def quoteEscape (c : Char) : List Char :=
  if c = '\\' then ['\\', '\\'] else if c = '\'' then ['\\', '\''] else [c]

/-- What `QuoteEscapedStringForContains` puts for a character. -/
def containsEscape (isIndex : Bool) (c : Char) : List Char :=
  if c = '"' ∧ isIndex then ['\\', '\\', '\\', '\\', '"']
  else if c = '%' then ['\\', '%']
  else if c = '_' then ['\\', '_']
  else quoteEscape c

theorem toList_quoteEscapedString (s : String) :
    (quoteEscapedString s).toList = s.toList.flatMap quoteEscape := by
  simp only [quoteEscapedString, Go.toList_replaceAll]
  rw [show "\\".toList = ['\\'] from rfl, show "'".toList = ['\''] from rfl,
    Substitution.replaceAll_singleton, Substitution.replaceAll_singleton, List.flatMap_assoc]
  refine List.flatMap_congr fun c _ => ?_
  by_cases hc : c = '\\'
  · subst hc
    decide
  · rw [quoteEscape, if_neg hc, if_neg hc]
    simp

theorem toList_quoteEscapedStringForContains (s : String) (isIndex : Bool) :
    (quoteEscapedStringForContains s isIndex).toList =
      s.toList.flatMap (containsEscape isIndex) := by
  have hindex (t : String) : (if isIndex then Go.replaceAll t "\"" "\\\\\\\\\"" else t).toList =
      t.toList.flatMap fun c => if c = '"' ∧ isIndex then ['\\', '\\', '\\', '\\', '"'] else [c] := by
    cases isIndex with
    | false => simp
    | true =>
      rw [if_pos rfl, Go.toList_replaceAll, show "\"".toList = ['"'] from rfl,
        Substitution.replaceAll_singleton]
      simp
  simp only [quoteEscapedStringForContains, Go.toList_replaceAll, hindex,
    toList_quoteEscapedString]
  rw [show "%".toList = ['%'] from rfl, show "_".toList = ['_'] from rfl,
    Substitution.replaceAll_singleton, Substitution.replaceAll_singleton, List.flatMap_assoc,
    List.flatMap_assoc, List.flatMap_assoc]
  refine List.flatMap_congr fun c _ => ?_
  by_cases hq : c = '"' ∧ isIndex
  · obtain ⟨rfl, rfl⟩ := hq
    decide
  by_cases hbackslash : c = '\\'
  · subst hbackslash
    cases isIndex <;> decide
  by_cases hquote : c = '\''
  · subst hquote
    cases isIndex <;> decide
  rw [containsEscape, if_neg hq, quoteEscape, if_neg hbackslash, if_neg hquote]
  by_cases hpercent : c = '%'
  · subst hpercent
    cases isIndex <;> decide
  by_cases hunder : c = '_'
  · subst hunder
    cases isIndex <;> decide
  simp [hq, hpercent, hunder]

/-! ### Lower case -/

section Lower

variable [Go.Unicode]

open Go.Unicode (toLower)

/-- The characters that the escapes are about. -/
def specials : List Char := ['\\', '\'', '"', '%', '_']

theorem toLower_special {c : Char} (hc : c ∈ specials) : toLower c = c := by
  rw [Go.Unicode.toLower_ascii c (by fin_cases hc <;> decide)]
  fin_cases hc <;> decide

/-- No other character becomes a special one. -/
theorem eq_of_toLower_special {c : Char} (hc : toLower c ∈ specials) : toLower c = c := by
  by_contra h
  rcases Go.Unicode.toLower_letter c h with hlower | ⟨hlarge, -⟩
  · generalize toLower c = d at hc hlower
    fin_cases hc <;> cases hlower
  · generalize toLower c = d at hc hlarge
    fin_cases hc <;> exact absurd hlarge (by decide)

omit [Go.Unicode] in
theorem quoteEscape_special {c : Char} (hc : c ∈ specials) : ∀ d ∈ quoteEscape c, d ∈ specials := by
  fin_cases hc <;> simp [quoteEscape, specials]

omit [Go.Unicode] in
theorem containsEscape_special {c : Char} (hc : c ∈ specials) (isIndex : Bool) :
    ∀ d ∈ containsEscape isIndex c, d ∈ specials := by
  cases isIndex <;> fin_cases hc <;> simp [containsEscape, quoteEscape, specials]

theorem map_toLower_containsEscape (isIndex : Bool) (c : Char) :
    (containsEscape isIndex c).map toLower = containsEscape isIndex (toLower c) := by
  by_cases hc : c ∈ specials
  · rw [toLower_special hc]
    refine (List.map_congr_left (g := id) fun d hd =>
      toLower_special (containsEscape_special hc isIndex d hd)).trans (List.map_id _)
  · have hc' : toLower c ∉ specials := fun h => hc (eq_of_toLower_special h ▸ h)
    simp only [specials, List.mem_cons, List.not_mem_nil, or_false, not_or] at hc hc'
    simp [containsEscape, quoteEscape, hc, hc']

theorem map_toLower_quoteEscape (c : Char) :
    (quoteEscape c).map toLower = quoteEscape (toLower c) := by
  by_cases hc : c ∈ specials
  · rw [toLower_special hc]
    refine (List.map_congr_left (g := id) fun d hd =>
      toLower_special (quoteEscape_special hc d hd)).trans (List.map_id _)
  · have hc' : toLower c ∉ specials := fun h => hc (eq_of_toLower_special h ▸ h)
    simp only [specials, List.mem_cons, List.not_mem_nil, or_false, not_or] at hc hc'
    simp [quoteEscape, hc, hc']

/-- The pattern in lower case is the pattern of the lower-case value. -/
theorem toList_toLower_containsEscaped (s : String) (isIndex : Bool) :
    (Go.toLower (quoteEscapedStringForContains s isIndex)).toList =
      (Go.toLower s).toList.flatMap (containsEscape isIndex) := by
  rw [Go.toList_toLower, toList_quoteEscapedStringForContains, Go.toList_toLower,
    List.map_flatMap, List.flatMap_map]
  exact List.flatMap_congr fun c _ => map_toLower_containsEscape isIndex c

theorem toList_toLower_quoteEscaped (s : String) :
    (Go.toLower (quoteEscapedString s)).toList = (Go.toLower s).toList.flatMap quoteEscape := by
  rw [Go.toList_toLower, toList_quoteEscapedString, Go.toList_toLower, List.map_flatMap,
    List.flatMap_map]
  exact List.flatMap_congr fun c _ => map_toLower_quoteEscape c

omit [Go.Unicode] in
theorem isLower_bounds {c : Char} (h : c.isLower) : 97 ≤ c.toNat ∧ c.toNat ≤ 122 := by
  simp only [Char.isLower, Bool.and_eq_true, decide_eq_true_eq, ge_iff_le,
    UInt32.le_iff_toNat_le] at h
  exact h

omit [Go.Unicode] in
theorem isUpper_bounds {c : Char} (h : c.isUpper) : 65 ≤ c.toNat ∧ c.toNat ≤ 90 := by
  simp only [Char.isUpper, decide_eq_true_eq, ge_iff_le, UInt32.le_iff_toNat_le] at h
  exact h

omit [Go.Unicode] in
/-- A character with another number. -/
theorem ne_of_toNat {c d : Char} (h : c.toNat ≠ d.toNat) : c ≠ d := fun hcd => h (hcd ▸ rfl)

theorem jsonPlain_toLower {c : Char} (hc : JsonPlain c) : JsonPlain (toLower c) := by
  by_cases h : toLower c = c
  · rwa [h]
  have hplain {d : Char} (hd : 97 ≤ d.toNat ∧ d.toNat ≤ 122 ∨
      128 ≤ d.toNat ∧ d.toNat ∉ [0x2028, 0x2029]) : JsonPlain d := by
    simp only [List.mem_cons, List.not_mem_nil, or_false, not_or] at hd
    refine ⟨by omega, by omega, by omega, by omega, ?_⟩
    simp only [List.mem_cons, List.not_mem_nil, or_false, not_or]
    refine ⟨?_, ?_, ?_, ?_, ?_⟩
    all_goals
      refine ne_of_toNat ?_
      simp only [Char.reduceToNat]
      omega
  exact hplain ((Go.Unicode.toLower_letter c h).imp isLower_bounds id)

/-- What `strings.ToLower` returns has no capital of ASCII. -/
theorem asciiLower_toLower (c : Char) : (toLower c).toLower = toLower c := by
  refine Char.toLower_eq_of_not_isUpper fun hupper => ?_
  obtain ⟨hl, hu⟩ := isUpper_bounds hupper
  by_cases h : toLower c = c
  · rw [h] at hupper hu
    rw [Go.Unicode.toLower_ascii c (by omega)] at h
    rw [← h, Char.isUpper_toLower_eq_false] at hupper
    cases hupper
  · rcases Go.Unicode.toLower_letter c h with hlower | ⟨hlarge, -⟩
    · have := isLower_bounds hlower
      omega
    · omega

end Lower

/-! ### How the patterns are read -/

/-- A character that the pattern for the index expects as the JSON writer has put it. -/
def IndexPlain (c : Char) : Prop := c = '"' ∨ JsonPlain c

instance (c : Char) : Decidable (IndexPlain c) := inferInstanceAs (Decidable (_ ∨ _))

theorem JsonPlain.ne_backslash {c : Char} (hc : JsonPlain c) : c ≠ '\\' := by
  rintro rfl
  exact absurd hc (by decide)

theorem IndexPlain.ne_backslash {c : Char} (hc : IndexPlain c) : c ≠ '\\' := by
  rintro rfl
  exact absurd hc (by decide)

theorem reads_quoteEscape {c : Char} (hc : c ≠ '\\') : Reads (quoteEscape c) [wild c] := by
  rw [quoteEscape, if_neg hc]
  split
  · rename_i hquote
    subst hquote
    exact fun _ => rfl
  · exact reads_wild (a := [c]) (by simpa using hc.symm)

/-- In a condition on a value a character stands for itself. -/
theorem reads_containsEscape {c : Char} (hc : c ≠ '\\') (isIndex : Bool)
    (hquote : ¬ (c = '"' ∧ isIndex)) : Reads (containsEscape isIndex c) [.char c] := by
  rw [containsEscape, if_neg hquote]
  split
  · rename_i hpercent
    subst hpercent
    exact fun _ => rfl
  split
  · rename_i hunder
    subst hunder
    exact fun _ => rfl
  rename_i hpercent hunder
  have hwild : wild c = .char c := by rw [wild] <;> assumption
  rw [← hwild]
  exact reads_quoteEscape hc

/-- In a condition on the column a character stands for what the writer has put. -/
theorem reads_containsEscape_index (W : JsonWriter) {c : Char} (hc : IndexPlain c) :
    Reads (containsEscape true c) ((W.escape c).map .char) := by
  by_cases hquote : c = '"'
  · subst hquote
    rw [W.escape_quote]
    exact fun _ => rfl
  · rw [W.escape_plain c (hc.resolve_left hquote)]
    exact reads_containsEscape hc.ne_backslash true fun h => hquote h.1

theorem reads_contains {s : String} (hs : '\\' ∉ s.toList) :
    Reads (quoteEscapedStringForContains s false).toList (s.toList.map .char) := by
  rw [toList_quoteEscapedStringForContains, ← List.flatMap_pure_eq_map]
  exact reads_flatMap fun c hc => reads_containsEscape (fun h => hs (h ▸ hc)) false (by simp)

theorem reads_like {s : List Char} (hs : '\\' ∉ s) : Reads (s.flatMap quoteEscape) (s.map wild) := by
  rw [← List.flatMap_pure_eq_map]
  exact reads_flatMap fun c hc => reads_quoteEscape fun h => hs (h ▸ hc)

theorem reads_index (W : JsonWriter) {s : List Char} (hs : ∀ c ∈ s, IndexPlain c) :
    Reads (s.flatMap (containsEscape true)) ((W.body s).map .char) := by
  rw [JsonWriter.body, List.map_flatMap]
  exact reads_flatMap fun c hc => reads_containsEscape_index W (hs c hc)

/-- The pattern `%key%value%`. -/
theorem reads_keyValue {key value : String} {ts : List LikeToken} (hkey : '\\' ∉ key.toList)
    (hvalue : Reads value.toList ts) :
    Reads ("%" ++ key ++ "%" ++ value ++ "%").toList
      (.any :: (key.toList.map wild ++ .any :: (ts ++ [.any]))) := by
  have hany : Reads ['%'] [.any] := fun _ => rfl
  have := hany.append ((reads_wild hkey).append (hany.append (hvalue.append hany)))
  simpa using this

/-- The pattern `%key%`. -/
theorem reads_key {key : String} (hkey : '\\' ∉ key.toList) :
    Reads ("%" ++ key ++ "%").toList (.any :: (key.toList.map wild ++ [.any])) := by
  have hany : Reads ['%'] [.any] := fun _ => rfl
  have := hany.append ((reads_wild hkey).append hany)
  simpa using this

/-- The pattern `%"key":"value"%`. -/
theorem reads_valueBody (W : JsonWriter) {key value : String} (hkey : '\\' ∉ key.toList)
    (hvalue : ∀ c ∈ value.toList, IndexPlain c) :
    Reads (valueBody key value).toList
      (.any :: ((jsonNeedle key.toList).map wild ++
        (.char '"' :: ((W.body value.toList).map .char ++ [.char '"'])) ++ [.any])) := by
  have hany : Reads ['%'] [.any] := fun _ => rfl
  have hquote : Reads ['"'] [.char '"'] := fun _ => rfl
  have hneedle : Reads (jsonNeedle key.toList) ((jsonNeedle key.toList).map wild) :=
    reads_wild (by simpa [jsonNeedle] using hkey)
  have hval := reads_index W hvalue
  rw [← toList_quoteEscapedStringForContains] at hval
  have := hany.append ((hneedle.append (hquote.append (hval.append hquote))).append hany)
  simpa [valueBody, jsonNeedle] using this

end QueryService.Resource
