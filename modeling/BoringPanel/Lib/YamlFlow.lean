import BoringPanel.Lib.Yaml

/-!
# Documents on one line

A writer that puts every value in flow style and every string in quotes, and the reader that inverts
it (`flow_lawful`): no text of a value begins another one (`flowText_append_inj`), and a dollar sign
is written as it is (`flowText_mapStrings`).
-/

namespace Yaml

/-! ### The text of a value -/

/-- A character of a quoted scalar. -/
def quote (c : Char) : List Char := if c = '"' ∨ c = '\\' then ['\\', c] else [c]

/-- A quoted scalar. -/
def quoted (s : String) : List Char := '"' :: (s.toList.flatMap quote ++ ['"'])

mutual

/-- The text of a value on one line. -/
def flowText : Value → List Char
  | .null => ['~']
  | .str s => quoted s
  | .other text json => '!' :: (if json then 'j' else 'n') :: quoted text
  | .seq items => '[' :: (flowItems items ++ [']'])
  | .map entries => '{' :: (flowEntries entries ++ ['}'])

def flowItems : List Value → List Char
  | [] => []
  | v :: vs => flowText v ++ ',' :: flowItems vs

def flowEntries : Entries → List Char
  | [] => []
  | (k, v) :: es => quoted k ++ ':' :: (flowText v ++ ',' :: flowEntries es)

end

theorem quote_append_inj {c d : Char} {s t : List Char} (h : quote c ++ s = quote d ++ t) :
    c = d ∧ s = t := by
  unfold quote at h
  split_ifs at h with hc hd hd
  · simpa using h
  · exact absurd (Or.inr (List.cons.inj h).1.symm) hd
  · exact absurd (Or.inr (List.cons.inj h).1) hc
  · simpa using h

theorem quote_append_ne {c : Char} {s t : List Char} : quote c ++ s ≠ '"' :: t := by
  unfold quote
  split_ifs with hc
  · simp
  · intro h
    exact hc (Or.inl (List.cons.inj h).1)

theorem flatMap_quote_inj {s s' t t' : List Char}
    (h : s.flatMap quote ++ '"' :: t = s'.flatMap quote ++ '"' :: t') : s = s' ∧ t = t' := by
  induction s generalizing s' with
  | nil =>
    cases s' with
    | nil => exact ⟨rfl, (List.cons.inj h).2⟩
    | cons d s' =>
      rw [List.flatMap_cons, List.append_assoc] at h
      exact absurd h.symm quote_append_ne
  | cons c s ih =>
    rw [List.flatMap_cons, List.append_assoc] at h
    cases s' with
    | nil => exact absurd h quote_append_ne
    | cons d s' =>
      rw [List.flatMap_cons, List.append_assoc] at h
      obtain ⟨rfl, hrest⟩ := quote_append_inj h
      obtain ⟨rfl, ht⟩ := ih hrest
      exact ⟨rfl, ht⟩

theorem quoted_append_inj {s s' : String} {t t' : List Char} (h : quoted s ++ t = quoted s' ++ t') :
    s = s' ∧ t = t' := by
  have hbody : s.toList.flatMap quote ++ '"' :: t = s'.toList.flatMap quote ++ '"' :: t' := by
    simpa [quoted] using h
  exact (flatMap_quote_inj hbody).imp_left String.toList_inj.mp

/-- What the text of a value begins with. -/
theorem exists_flowText_eq (v : Value) : ∃ c s, flowText v = c :: s ∧ c ≠ ']' := by
  cases v with
  | null => exact ⟨_, _, rfl, by decide⟩
  | str s => exact ⟨_, _, rfl, by decide⟩
  | other text json => exact ⟨_, _, rfl, by decide⟩
  | seq items => exact ⟨_, _, rfl, by decide⟩
  | map entries => exact ⟨_, _, rfl, by decide⟩

theorem flowText_append_ne (v : Value) {s t : List Char} : flowText v ++ s ≠ ']' :: t := by
  obtain ⟨c, u, hv, hc⟩ := exists_flowText_eq v
  rw [hv]
  exact fun h => hc (List.cons.inj h).1

mutual

/-- No text of a value begins another one. -/
theorem flowText_append_inj : ∀ (v v' : Value) {t t' : List Char},
    flowText v ++ t = flowText v' ++ t' → v = v' ∧ t = t'
  | .null, v', t, t', h => by
    cases v' with
    | null => exact ⟨rfl, (List.cons.inj h).2⟩
    | _ => simp [flowText, quoted] at h
  | .str s, v', t, t', h => by
    cases v' with
    | str s' => exact (quoted_append_inj h).imp_left (congrArg _)
    | _ => simp [flowText, quoted] at h
  | .other text json, v', t, t', h => by
    cases v' with
    | other text' json' =>
      simp only [flowText, List.cons_append, List.cons.injEq, true_and] at h
      obtain ⟨rfl, ht⟩ := quoted_append_inj h.2
      have hj : json = json' := by
        cases json <;> cases json' <;> simp at h ⊢
      exact ⟨by rw [hj], ht⟩
    | _ => simp [flowText, quoted] at h
  | .seq items, v', t, t', h => by
    cases v' with
    | seq items' =>
      simp only [flowText, List.cons_append, List.append_assoc, List.cons.injEq, true_and,
        List.nil_append] at h
      exact (flowItems_append_inj items items' h).imp_left (congrArg _)
    | _ => simp [flowText, quoted] at h
  | .map entries, v', t, t', h => by
    cases v' with
    | map entries' =>
      simp only [flowText, List.cons_append, List.append_assoc, List.cons.injEq, true_and,
        List.nil_append] at h
      exact (flowEntries_append_inj entries entries' h).imp_left (congrArg _)
    | _ => simp [flowText, quoted] at h

theorem flowItems_append_inj : ∀ (vs vs' : List Value) {t t' : List Char},
    flowItems vs ++ ']' :: t = flowItems vs' ++ ']' :: t' → vs = vs' ∧ t = t'
  | [], [], t, t', h => ⟨rfl, (List.cons.inj h).2⟩
  | [], v' :: vs', t, t', h => by
    rw [flowItems, flowItems, List.append_assoc] at h
    exact absurd h.symm (flowText_append_ne v')
  | v :: vs, [], t, t', h => by
    rw [flowItems, flowItems, List.append_assoc] at h
    exact absurd h (flowText_append_ne v)
  | v :: vs, v' :: vs', t, t', h => by
    rw [flowItems, flowItems, List.append_assoc, List.append_assoc] at h
    obtain ⟨rfl, hrest⟩ := flowText_append_inj v v' h
    obtain ⟨rfl, ht⟩ := flowItems_append_inj vs vs' (List.cons.inj hrest).2
    exact ⟨rfl, ht⟩

theorem flowEntries_append_inj : ∀ (es es' : Entries) {t t' : List Char},
    flowEntries es ++ '}' :: t = flowEntries es' ++ '}' :: t' → es = es' ∧ t = t'
  | [], [], t, t', h => ⟨rfl, (List.cons.inj h).2⟩
  | [], (k', v') :: es', t, t', h => by simp [flowEntries, quoted] at h
  | (k, v) :: es, [], t, t', h => by simp [flowEntries, quoted] at h
  | (k, v) :: es, (k', v') :: es', t, t', h => by
    simp only [flowEntries, List.append_assoc, List.cons_append] at h
    obtain ⟨rfl, hv⟩ := quoted_append_inj h
    obtain ⟨rfl, hrest⟩ := flowText_append_inj v v' (List.cons.inj hv).2
    obtain ⟨rfl, ht⟩ := flowEntries_append_inj es es' (List.cons.inj hrest).2
    exact ⟨rfl, ht⟩

end

open Classical in
/-- The library that writes in flow style and reads what it writes. -/
noncomputable def flow : Library where
  marshal v := String.ofList (flowText v)
  unmarshal text :=
    if h : ∃ v : Value, v.Canonical ∧ String.ofList (flowText v) = text then .ok h.choose
    else .error "yaml: no document"

theorem flow_unmarshal {v : Value} (h : v.Canonical) :
    flow.unmarshal (String.ofList (flowText v)) = .ok v := by
  have hex : ∃ w : Value, w.Canonical ∧ String.ofList (flowText w) = String.ofList (flowText v) :=
    ⟨v, h, rfl⟩
  have hlist : flowText hex.choose ++ [] = flowText v ++ [] := by
    have := congrArg String.toList hex.choose_spec.2
    simpa using this
  rw [flow]
  exact (dif_pos hex).trans (congrArg Except.ok (flowText_append_inj _ _ hlist).1)

/-! ### Dollar signs in flow style -/

/-- What is put in the place of a character. -/
def dollar (c : Char) : List Char := if c = '$' then ['$', '$', '$'] else [c]

theorem toList_escapeDollars (s : String) :
    (escapeDollars s).toList = s.toList.flatMap dollar := by
  rw [escapeDollars, Go.toList_replaceAll]
  exact Substitution.replaceAll_singleton ['$', '$', '$'] '$' s.toList

theorem flatMap_dollar_eq_self {s : List Char} (h : '$' ∉ s) : s.flatMap dollar = s := by
  induction s with
  | nil => rfl
  | cons c s ih =>
    rw [List.mem_cons, not_or] at h
    rw [List.flatMap_cons, ih h.2, dollar, if_neg (Ne.symm h.1)]
    rfl

theorem flatMap_dollar_lt {s t : List Char} (h : s < t) : s.flatMap dollar < t.flatMap dollar := by
  induction s generalizing t with
  | nil =>
    cases t with
    | nil => exact absurd h (lt_irrefl _)
    | cons d t =>
      rw [List.flatMap_cons, dollar]
      split_ifs <;> exact List.nil_lt_cons _ _
  | cons c s ih =>
    cases t with
    | nil => exact absurd h (List.not_lt_nil _)
    | cons d t =>
      rw [List.flatMap_cons, List.flatMap_cons]
      rcases List.cons_lt_cons_iff.mp h with hcd | ⟨rfl, hst⟩
      · unfold dollar
        split_ifs with hc hd hd
        · exact absurd (hc.trans hd.symm) hcd.ne
        · exact List.cons_lt_cons_iff.mpr (Or.inl (hc ▸ hcd))
        · exact List.cons_lt_cons_iff.mpr (Or.inl (hd ▸ hcd))
        · exact List.cons_lt_cons_iff.mpr (Or.inl hcd)
      · have := ih hst
        unfold dollar at this ⊢
        split_ifs <;> simpa [List.cons_lt_cons_iff] using this

theorem flatMap_quote_dollar (s : List Char) :
    (s.flatMap dollar).flatMap quote = (s.flatMap quote).flatMap dollar := by
  induction s with
  | nil => rfl
  | cons c s ih =>
    rw [List.flatMap_cons, List.flatMap_append, ih, List.flatMap_cons, List.flatMap_append]
    congr 1
    by_cases hd : c = '$'
    · subst hd
      rfl
    · rw [dollar, if_neg hd, List.flatMap_singleton, quote]
      refine (flatMap_dollar_eq_self ?_).symm
      split
      · simp [Ne.symm hd]
      · simp [Ne.symm hd]

theorem quoted_escapeDollars (s : String) :
    quoted (escapeDollars s) = (quoted s).flatMap dollar := by
  have hbody : (escapeDollars s).toList.flatMap quote = (s.toList.flatMap quote).flatMap dollar := by
    rw [toList_escapeDollars, flatMap_quote_dollar]
  have hquote : ∀ u : List Char, ('"' :: u).flatMap dollar = '"' :: u.flatMap dollar := fun u => rfl
  rw [quoted, quoted, hbody, hquote, List.flatMap_append]
  rfl

theorem flowItems_mapItems {vs : List Value}
    (h : ∀ v ∈ vs, flowText (v.mapStrings escapeDollars) = (flowText v).flatMap dollar) :
    flowItems (mapItems escapeDollars vs) = (flowItems vs).flatMap dollar := by
  induction vs with
  | nil => rfl
  | cons v vs ih =>
    rw [mapItems, flowItems, flowItems, h v List.mem_cons_self,
      ih fun w hw => h w (List.mem_cons_of_mem _ hw), List.flatMap_append]
    rfl

theorem flowEntries_mapEntries {es : Entries}
    (h : ∀ e ∈ es, flowText (e.2.mapStrings escapeDollars) = (flowText e.2).flatMap dollar) :
    flowEntries (mapEntries escapeDollars es) = (flowEntries es).flatMap dollar := by
  induction es with
  | nil => rfl
  | cons e es ih =>
    obtain ⟨k, v⟩ := e
    have hv := h (k, v) List.mem_cons_self
    have hcolon : ∀ u : List Char, (':' :: u).flatMap dollar = ':' :: u.flatMap dollar :=
      fun u => rfl
    have hcomma : ∀ u : List Char, (',' :: u).flatMap dollar = ',' :: u.flatMap dollar :=
      fun u => rfl
    rw [mapEntries, flowEntries, flowEntries, quoted_escapeDollars,
      ih fun w hw => h w (List.mem_cons_of_mem _ hw), List.flatMap_append, hcolon,
      List.flatMap_append, hcomma, hv]

/-- The text of the escaped value is the escaped text. -/
theorem flowText_mapStrings {v : Value} (h : v.Canonical) :
    flowText (v.mapStrings escapeDollars) = (flowText v).flatMap dollar := by
  induction h with
  | null => rfl
  | str s => exact quoted_escapeDollars s
  | @other text json htext =>
    rw [Value.mapStrings, flatMap_dollar_eq_self]
    have hquote : '$' ∉ text.toList.flatMap quote := by
      rw [List.mem_flatMap]
      rintro ⟨c, hc, hmem⟩
      have hne : c ≠ '$' := fun heq => htext (heq ▸ hc)
      unfold quote at hmem
      split at hmem
      · simp [hne.symm] at hmem
      · simp [hne.symm] at hmem
    cases json <;> simp [flowText, quoted, hquote]
  | seq _ ih =>
    rw [Value.mapStrings, flowText, flowText, flowItems_mapItems ih]
    change _ = '[' :: (_ ++ [']']).flatMap dollar
    rw [List.flatMap_append]
    rfl
  | map _ _ ih =>
    rw [Value.mapStrings, flowText, flowText, flowEntries_mapEntries ih]
    change _ = '{' :: (_ ++ ['}']).flatMap dollar
    rw [List.flatMap_append]
    rfl

theorem escapeDollars_lt {s t : String} (h : s < t) : escapeDollars s < escapeDollars t := by
  rw [String.lt_iff_toList_lt] at *
  rw [toList_escapeDollars, toList_escapeDollars]
  exact flatMap_dollar_lt h

theorem mapItems_eq_map (f : String → String) (vs : List Value) :
    mapItems f vs = vs.map (Value.mapStrings f) := by
  induction vs with
  | nil => rfl
  | cons v vs ih => rw [mapItems, ih, List.map_cons]

theorem mapEntries_eq_map (f : String → String) (es : Entries) :
    mapEntries f es = es.map fun e => (f e.1, e.2.mapStrings f) := by
  induction es with
  | nil => rfl
  | cons e es ih =>
    obtain ⟨k, v⟩ := e
    rw [mapEntries, ih, List.map_cons]

theorem canonical_escape {v : Value} (h : v.Canonical) :
    (v.mapStrings escapeDollars).Canonical := by
  induction h with
  | null => exact .null
  | str s => exact .str _
  | other json htext => exact .other json htext
  | seq _ ih =>
    rw [Value.mapStrings, mapItems_eq_map]
    exact .seq (List.forall_mem_map.mpr ih)
  | map hs _ ih =>
    rw [Value.mapStrings, mapEntries_eq_map]
    refine .map (List.pairwise_map.mpr (hs.imp escapeDollars_lt)) ?_
    exact List.forall_mem_map.mpr ih

theorem flow_lawful : flow.Lawful where
  canonical text v h := by
    simp only [flow] at h
    split at h
    · rename_i hex
      rw [← Except.ok.inj h]
      exact hex.choose_spec.1
    · cases h
  unmarshal_marshal v h := flow_unmarshal h
  unmarshal_escapeDollars v h := by
    have htext : escapeDollars (flow.marshal v) =
        String.ofList (flowText (v.mapStrings escapeDollars)) := by
      rw [← String.toList_inj, toList_escapeDollars, flowText_mapStrings h, flow]
      simp
    rw [htext]
    exact flow_unmarshal (canonical_escape h)

end Yaml
