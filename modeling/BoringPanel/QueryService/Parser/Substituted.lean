import BoringPanel.QueryService.Parser.FieldTemplate
import Mathlib.Data.List.Permutation

/-!
# References are replaced, in whatever order

Under the condition of `RequestOk` the parameters that `ParseQueryRangeParams` returns are those in
which every reference has the value of its variable, for every order in which the variables are
visited.
-/

namespace QueryService
namespace Parser

open Substitution

variable {F : Type} [GoFloat F]

/-! ### One text -/

section Text

variable {vars fields m : Go.Map (GoValue F)} {text : String}

theorem toList_replaceVariable (query name : String) (v : GoValue F) {R : Refs Char Reference}
    (hpattern : ∀ r, R.pattern r = r.write.toList)
    (hvalue : ∀ r ∈ plainReferences name, R.value r = v.formatV.toList) :
    (replaceVariable query name v.formatV).toList =
      (plainReferences name).foldl (fun s r => replaceAll (R.pattern r) (R.value r) s)
        query.toList := by
  have hcurly := hvalue ⟨name, .curly⟩ (by simp [plainReferences])
  have hsquare := hvalue ⟨name, .square⟩ (by simp [plainReferences])
  have hdollar := hvalue ⟨name, .dollar⟩ (by simp [plainReferences])
  simp only [plainReferences, List.foldl_cons, List.foldl_nil, hpattern, hcurly, hsquare, hdollar,
    replaceVariable, Go.toList_replaceAll, Reference.write]

/-- The loop over the variables, as replacements of references one after the other. -/
theorem toList_replaceVariables {R : Refs Char Reference}
    (hpattern : ∀ r, R.pattern r = r.write.toList) (entries : List (String × GoValue F)) :
    ∀ query : String, (∀ e ∈ entries, ∀ r ∈ plainReferences e.1, R.value r = e.2.formatV.toList) →
      (replaceVariables query entries).toList =
        ((entries.map Prod.fst).flatMap plainReferences).foldl
          (fun s r => replaceAll (R.pattern r) (R.value r) s) query.toList := by
  induction entries with
  | nil => exact fun query _ => rfl
  | cons e entries ih =>
    intro query hvalue
    rw [List.map_cons, List.flatMap_cons, List.foldl_append,
      ← toList_replaceVariable query e.1 e.2 hpattern (hvalue e List.mem_cons_self)]
    exact ih _ fun e' he' => hvalue e' (List.mem_cons_of_mem e he')

theorem nodup_plainReferences {names : List String} (h : names.Nodup) :
    (names.flatMap plainReferences).Nodup := by
  refine List.nodup_flatMap.mpr ⟨fun name _ => by simp [plainReferences], ?_⟩
  refine h.imp fun hne => ?_
  intro r hr hr'
  simp only [plainReferences, List.mem_cons, List.not_mem_nil, or_false] at hr hr'
  rcases hr with rfl | rfl | rfl <;> simp [hne] at hr'

theorem mem_plainReferences {names : List String} {r : Reference} :
    r ∈ names.flatMap plainReferences ↔ r.name ∈ names ∧ r.form ≠ .field := by
  obtain ⟨name, form⟩ := r
  cases form <;> simp [plainReferences]

theorem write_ne_nil (r : Reference) : r.write.toList ≠ [] := by
  obtain ⟨name, form⟩ := r
  cases form <;> simp [Reference.write]

/-- The values of the visited variables. -/
theorem references_value {e : String × GoValue F} (he : e ∈ m.entries) {r : Reference}
    (hr : r ∈ plainReferences e.1) : (references m fields).value r = e.2.formatV.toList := by
  have hlookup : m.lookup e.1 = some e.2 := Go.Map.lookup_of_mem he
  simp only [plainReferences, List.mem_cons, List.not_mem_nil, or_false] at hr
  rcases hr with rfl | rfl | rfl <;> simp [references, written, hlookup]

/-- **The loop replaces the references**, in whatever order it visits the variables. -/
theorem TextOk.replaceVariables_eq (h : TextOk vars fields m text)
    (order : Go.MapOrder (GoValue F)) :
    (replaceVariables text (order.order m)).toList =
      render (references m fields) ((namesOf m).flatMap plainReferences)
        (segments vars fields text) := by
  have hperm : ((order.order m).map Prod.fst).Perm (namesOf m) := (order.perm m).map _
  have hnd : ((order.order m).map Prod.fst).Nodup := hperm.nodup_iff.mpr m.nodup
  have htext : render (references m fields) [] (segments vars fields text) = text.toList :=
    render_parse (R := references vars fields) _ _
  calc (replaceVariables text (order.order m)).toList
      = (((order.order m).map Prod.fst).flatMap plainReferences).foldl
          (fun s r => replaceAll ((references m fields).pattern r) ((references m fields).value r) s)
          text.toList :=
        toList_replaceVariables (fun _ => rfl) _ _ fun e he r hr =>
          references_value ((order.perm m).mem_iff.mp he) hr
    _ = render (references m fields) (((order.order m).map Prod.fst).flatMap plainReferences ++ [])
          (segments vars fields text) := by
        rw [← htext]
        refine foldl_replaceAll _ (fun r _ => write_ne_nil r) [] ?_ (h.safe _ hperm)
        rw [List.append_nil]
        exact nodup_plainReferences hnd
    _ = render (references m fields) ((namesOf m).flatMap plainReferences)
          (segments vars fields text) := by
        refine render_congr _ (fun r => ?_) _
        rw [List.append_nil, mem_plainReferences, mem_plainReferences, hperm.mem_iff]

theorem mem_segments {r : Reference} (h : .ref r ∈ segments vars fields text) :
    (r.form ≠ .field ∧ r.name ∈ namesOf vars) ∨
      (r.form = .field ∧ r.name ∈ namesOf fields ∧ isIdentifier r.name) := by
  rcases List.mem_append.mp (mem_of_mem_parse h) with h | h
  · exact .inl (mem_plainReferences.mp h).symm
  · obtain ⟨name, hname, rfl⟩ := List.mem_map.mp h
    exact .inr ⟨rfl, List.mem_filter.mp hname⟩

/-- **A text is rendered as it should be**, in whatever order the variables are visited. -/
theorem TextOk.engine_eq {engine : TemplateEngine F} (hengine : RendersFields engine)
    (h : TextOk vars fields m text) (hnames : ∀ name ∈ namesOf vars, name ∈ namesOf m)
    (order : Go.MapOrder (GoValue F)) :
    engine (replaceVariables text (order.order m)) fields =
      .ok (substitutedText vars fields text) := by
  set segs := segments vars fields text with hsegs
  set done := (namesOf m).flatMap plainReferences with hdone
  -- what the loop leaves are fields
  have hleft : ∀ r, .ref r ∈ segs → r ∉ done →
      r.form = .field ∧ r.name ∈ namesOf fields ∧ isIdentifier r.name := by
    intro r hr hrdone
    rcases mem_segments hr with ⟨hform, hname⟩ | hfield
    · exact absurd (mem_plainReferences.mpr ⟨hnames _ hname, hform⟩) hrdone
    · exact hfield
  have hpattern : ∀ r, .ref r ∈ segs → r ∉ done →
      (fieldReferences fields).pattern r.name = (references m fields).pattern r := by
    intro r hr hrdone
    obtain ⟨name, form⟩ := r
    obtain ⟨rfl, -⟩ := hleft _ hr hrdone
    rfl
  have hvalue : ∀ r, .ref r ∈ segs → r ∉ done →
      (fieldReferences fields).value r.name = (references m fields).value r := by
    intro r hr hrdone
    obtain ⟨name, form⟩ := r
    obtain ⟨rfl, -⟩ := hleft _ hr hrdone
    rfl
  have hrendered := hengine fields (freeze (references m fields) Reference.name done segs)
    (by
      intro name hname
      obtain ⟨r, hr, hrdone, rfl⟩ := mem_of_mem_freeze hname
      obtain ⟨-, hmem, hident⟩ := hleft r hr hrdone
      exact ⟨hident, Go.Map.mem_keys_iff.mp hmem⟩)
    (h.marks.freeze hpattern)
  have htext : replaceVariables text (order.order m) =
      .ofList (render (fieldReferences fields) []
        (freeze (references m fields) Reference.name done segs)) := by
    rw [render_freeze hpattern, ← h.replaceVariables_eq order, String.ofList_toList]
  have hsame : substitute (references m fields) segs = substitute (references vars fields) segs := by
    refine substitute_congr fun r hr => ?_
    obtain ⟨name, form⟩ := r
    cases form with
    | field => rfl
    | curly => exact congrArg (fun v => (Option.map _ v).getD []) (h.same _ hr (by simp))
    | square => exact congrArg (fun v => (Option.map _ v).getD []) (h.same _ hr (by simp))
    | dollar => exact congrArg (fun v => (Option.map _ v).getD []) (h.same _ hr (by simp))
  rw [htext, hrendered, substitute_freeze hvalue, hsame]
  rfl

end Text

/-! ### The texts of a request -/

section Queries

variable {vars fields m : Go.Map (GoValue F)} {start end_ : Int}

omit [GoFloat F] in
/-- Adding the reserved variables again changes nothing. -/
theorem assignReservedVarsV3_idem (vars : Go.Map (GoValue F)) :
    assignReservedVarsV3 start end_ (assignReservedVarsV3 start end_ vars) =
      assignReservedVarsV3 start end_ vars :=
  Go.Map.setAll_setAll (by simp [reservedVars]) vars

omit [GoFloat F] in
theorem namesOf_subset {name : String} (h : name ∈ namesOf vars) :
    name ∈ namesOf (assignReservedVarsV3 start end_ vars) :=
  Go.Map.mem_keys_setAll h

/-- **The texts of a request are rendered as they should be**, whatever the orders. The variables that
are visited are those of the request, or the reserved ones too. -/
theorem QueriesOk.renderQueries_eq {engine : TemplateEngine F} (hengine : RendersFields engine)
    (orders : Nat → Go.MapOrder (GoValue F)) (hfields : fields = assignReservedVarsV3 start end_ vars)
    (queries : List (String × TextQuery)) :
    ∀ m, (m = vars ∨ m = fields) → QueriesOk vars fields queries m →
      renderQueries engine orders start end_ queries m =
        .ok (substitutedQueries vars fields queries, returnedVariables m fields queries) := by
  induction queries with
  | nil => exact fun m _ _ => rfl
  | cons e queries ih =>
    obtain ⟨name, query⟩ := e
    intro m hm hok
    by_cases hdisabled : query.disabled = true
    · rw [QueriesOk, if_pos hdisabled] at hok
      have hall : (((name, query) :: queries).all fun e => e.2.disabled) =
          queries.all fun e => e.2.disabled := by
        rw [List.all_cons, hdisabled, Bool.true_and]
      rw [renderQueries, if_pos hdisabled, ih m hm hok, returnedVariables, returnedVariables, hall]
      simp [substitutedQueries, hdisabled, pure, Except.pure]
    · rw [QueriesOk, if_neg hdisabled] at hok
      -- the reserved variables are added now, or have been
      have hadd : assignReservedVarsV3 start end_ m = fields := by
        rcases hm with rfl | rfl
        · exact hfields.symm
        · rw [hfields]
          exact assignReservedVarsV3_idem vars
      have hnames : ∀ name ∈ namesOf vars, name ∈ namesOf m := by
        rcases hm with rfl | rfl
        · exact fun _ h => h
        · exact fun _ h => hfields ▸ namesOf_subset h
      have htext := hok.1.engine_eq hengine hnames (orders queries.length)
      rw [renderQueries, if_neg hdisabled]
      simp only [hadd, htext, ih fields (.inr rfl) hok.2]
      simp [substitutedQueries, returnedVariables, hdisabled, pure, Except.pure, Except.mapError]

end Queries

/-! ### Filter values -/

section Values

variable {vars : Go.Map (GoValue F)}

omit [GoFloat F] in
theorem getD_eq_iff_of_ne {α : Type} {a : Option α} {d v : α} (hv : v ≠ d) :
    a.getD d = v ↔ a = some v := by
  cases a with
  | none => simp [hv.symm]
  | some x => simp

omit [GoFloat F] in
theorem getD_eq_getD_iff {α : Type} {a b : Option α} {d : α} :
    a.getD d = b.getD d ↔ ∀ v, v ≠ d → (a = some v ↔ b = some v) := by
  constructor
  · intro h v hv
    rw [← getD_eq_iff_of_ne hv, ← getD_eq_iff_of_ne hv, h]
  · intro h
    by_cases ha : a.getD d = d
    · by_cases hb : b.getD d = d
      · rw [ha, hb]
      · exact (getD_eq_iff_of_ne hb).mpr ((h _ hb).mpr ((getD_eq_iff_of_ne hb).mp rfl))
    · exact ((getD_eq_iff_of_ne ha).mpr ((h _ ha).mp ((getD_eq_iff_of_ne ha).mp rfl))).symm

omit [GoFloat F] in
/-- **A filter value is replaced as it should be** exactly under its condition. -/
theorem replaceValue_eq_iff (value : GoValue F) :
    replaceValue vars value = substitutedValue vars value ↔ ValueOk vars value := by
  cases value with
  | nil => exact iff_of_true rfl trivial
  | bool b => exact iff_of_true rfl trivial
  | int n => exact iff_of_true rfl trivial
  | float x => exact iff_of_true rfl trivial
  | object entries => exact iff_of_true rfl trivial
  | string x => exact getD_eq_getD_iff
  | array vs =>
    -- a first element that is no string leaves the list alone
    have hother : ∀ v (ws : List (GoValue F)), (∀ x, v ≠ .string x) → vs = v :: ws →
        (replaceValue vars (.array vs) = substitutedValue vars (.array vs) ↔
          ValueOk vars (.array vs)) := by
      rintro v ws hv rfl
      have hsub : substitutedValue vars (.array (v :: ws)) =
          .array ((v :: ws).flatMap (substitutedElements vars)) := by
        cases v <;> first | rfl | exact absurd rfl (hv _)
      have hrep : replaceValue vars (.array (v :: ws)) = .array (v :: ws) := by
        cases v <;> first | rfl | exact absurd rfl (hv _)
      have hok : ValueOk vars (.array (v :: ws)) ↔
          (v :: ws).flatMap (substitutedElements vars) = v :: ws := by
        cases v <;> first | rfl | exact absurd rfl (hv _)
      rw [hsub, hrep, hok, GoValue.array.injEq]
      exact eq_comm
    cases vs with
    | nil => exact iff_of_true rfl rfl
    | cons v ws =>
      cases v with
      | string x =>
        cases ws with
        | nil => exact getD_eq_getD_iff
        | cons w ws =>
          change (vars.lookup (trimmedName x)).getD _ = GoValue.array _ ↔ _ ∧ _
          cases vars.lookup (trimmedName x) with
          | none => simp [eq_comm]
          | some y => simp
      | nil => exact hother _ ws (fun _ => by simp) rfl
      | bool b => exact hother _ ws (fun _ => by simp) rfl
      | int n => exact hother _ ws (fun _ => by simp) rfl
      | float x => exact hother _ ws (fun _ => by simp) rfl
      | array us => exact hother _ ws (fun _ => by simp) rfl
      | object entries => exact hother _ ws (fun _ => by simp) rfl

variable {f g : GoValue F → GoValue F}

theorem replaceItems_congr {items : List (FilterItem F)}
    (h : ∀ item ∈ items, f item.value = g item.value) :
    replaceItems f items = replaceItems g items := by
  induction items with
  | nil => rfl
  | cons item items ih =>
    rw [replaceItems, replaceItems, h item List.mem_cons_self,
      ih fun i hi => h i (List.mem_cons_of_mem item hi)]

theorem replaceFilterVariables_congr {queries : List (String × BuilderQuery F)}
    (h : ∀ e ∈ queries, ∀ fs, e.2.filters = some fs →
      ∀ item ∈ fs.items, f item.value = g item.value) :
    replaceFilterVariables f queries = replaceFilterVariables g queries := by
  induction queries with
  | nil => rfl
  | cons e queries ih =>
    obtain ⟨name, query⟩ := e
    rw [replaceFilterVariables, replaceFilterVariables,
      ih fun e he => h e (List.mem_cons_of_mem _ he)]
    cases hfs : query.filters with
    | none => rfl
    | some fs =>
      have := replaceItems_congr (h _ List.mem_cons_self fs hfs)
      simp only [this]

/-- What is returned holds the new values. -/
theorem replaceItems_ok {items items' : List (FilterItem F)} (h : replaceItems f items = .ok items') :
    items'.map FilterItem.value = items.map fun item => f item.value := by
  induction items generalizing items' with
  | nil => cases h; rfl
  | cons item items ih =>
    rw [replaceItems] at h
    cases hc : checkValues { item with value := f item.value } with
    | error e => simp [hc] at h
    | ok u =>
      cases hr : replaceItems f items with
      | error e => simp [hc, hr] at h
      | ok rest =>
        simp only [hc, hr, Go.ok_bind, pure, Except.pure, Except.ok.injEq] at h
        rw [← h, List.map_cons, List.map_cons, ih hr]

/-- One query after the other. -/
theorem replaceFilterVariables_cons {name : String} {query : BuilderQuery F}
    {queries queries' : List (String × BuilderQuery F)}
    (h : replaceFilterVariables f ((name, query) :: queries) = .ok queries') :
    ∃ filters rest, (∀ fs, query.filters = some fs →
        ∃ items, replaceItems f fs.items = .ok items ∧ filters = some { fs with items := items }) ∧
      replaceFilterVariables f queries = .ok rest ∧
      queries' = (name, { query with filters := filters }) :: rest := by
  rw [replaceFilterVariables] at h
  cases hfs : query.filters with
  | none =>
    cases hrest : replaceFilterVariables f queries with
    | error e => simp [hfs, hrest, pure, Except.pure] at h
    | ok rest =>
      simp only [hfs, hrest, Go.ok_bind, pure, Except.pure, Except.ok.injEq] at h
      exact ⟨none, rest, by simp, rfl, h.symm⟩
  | some fs =>
    cases hitems : replaceItems f fs.items with
    | error e => simp [hfs, hitems] at h
    | ok items =>
      cases hrest : replaceFilterVariables f queries with
      | error e => simp [hfs, hitems, hrest, pure, Except.pure] at h
      | ok rest =>
        simp only [hfs, hitems, hrest, Go.ok_bind, pure, Except.pure, Except.ok.injEq] at h
        refine ⟨some { fs with items := items }, rest, ?_, rfl, h.symm⟩
        rintro fs' hfs'
        obtain rfl := Option.some.inj hfs'
        exact ⟨items, hitems, rfl⟩

/-- Two replacements that return the same queries replace each value the same way. -/
theorem replaceFilterVariables_inj {queries queries' : List (String × BuilderQuery F)}
    (hf : replaceFilterVariables f queries = .ok queries')
    (hg : replaceFilterVariables g queries = .ok queries') :
    ∀ e ∈ queries, ∀ fs, e.2.filters = some fs →
      ∀ item ∈ fs.items, f item.value = g item.value := by
  induction queries generalizing queries' with
  | nil => exact fun e he => absurd he List.not_mem_nil
  | cons e queries ih =>
    obtain ⟨name, query⟩ := e
    obtain ⟨filters, rest, hfilters, hrest, rfl⟩ := replaceFilterVariables_cons hf
    obtain ⟨filters', rest', hfilters', hrest', hsame⟩ := replaceFilterVariables_cons hg
    obtain ⟨hhead, rfl⟩ := List.cons.inj hsame
    obtain rfl : filters = filters' :=
      congrArg (fun e : String × BuilderQuery F => e.2.filters) hhead
    intro e he fs hfs item hitem
    rcases List.mem_cons.mp he with rfl | he
    · obtain ⟨items, hf', rfl⟩ := hfilters fs hfs
      obtain ⟨items', hg', heq'⟩ := hfilters' fs hfs
      obtain rfl : items = items' := congrArg FilterSet.items (Option.some.inj heq')
      have hvalues : fs.items.map (fun item => f item.value) = fs.items.map fun item => g item.value :=
        (replaceItems_ok hf').symm.trans (replaceItems_ok hg')
      exact List.map_inj_left.mp hvalues item hitem
    · exact ih hrest hrest' e he fs hfs item hitem

end Values

/-! ### Requests -/

/-- A request whose texts and values meet the condition. -/
theorem RequestOk.parseQueryRangeParams_eq {engine : TemplateEngine F}
    (hengine : RendersFields engine) {p : QueryRangeParamsV3 F} (hok : RequestOk p)
    (orders : Nat → Go.MapOrder (GoValue F)) :
    parseQueryRangeParams engine orders p = substitutedParams p := by
  unfold parseQueryRangeParams substitutedParams
  unfold RequestOk at hok
  cases hvars : formatVariables p.queryType p.vars with
  | error e => rfl
  | ok vars =>
    cases htype : p.queryType with
    | unknown => simp
    | builder =>
      rw [htype] at hok
      have hvalues : replaceFilterVariables (replaceValue p.vars) p.builderQueries =
          replaceFilterVariables (substitutedValue p.vars) p.builderQueries :=
        replaceFilterVariables_congr fun e he fs hfs item hitem =>
          (replaceValue_eq_iff item.value).mpr (hok e he fs hfs item hitem)
      simp [hvalues]
    | clickHouseSQL =>
      rw [htype] at hok hvars
      have htexts : renderQueries engine orders p.returnedStart p.end_ p.clickHouseQueries vars =
          .ok (substitutedQueries vars (p.fields vars) p.clickHouseQueries,
            returnedVariables vars (p.fields vars) p.clickHouseQueries) :=
        (hok vars hvars).renderQueries_eq hengine orders rfl _ vars (.inl rfl)
      have hstart : p.returnedStart = p.start := by simp [QueryRangeParamsV3.returnedStart, htype]
      rw [hstart] at htexts
      simp [htexts]
    | promQL =>
      rw [htype] at hok hvars
      have htexts : renderQueries engine orders p.returnedStart p.end_ p.promQueries vars =
          .ok (substitutedQueries vars (p.fields vars) p.promQueries,
            returnedVariables vars (p.fields vars) p.promQueries) :=
        (hok vars hvars).renderQueries_eq hengine orders rfl _ vars (.inl rfl)
      have hstart : p.returnedStart = if p.panelType = .value then p.end_ else p.start := by
        simp [QueryRangeParamsV3.returnedStart, htype]
      rw [hstart] at htexts
      simp [htexts, hstart]

/-- The values of a builder query that is returned as it should be meet the condition. -/
theorem requestOk_of_builder {engine : TemplateEngine F} {p q : QueryRangeParamsV3 F}
    {orders : Nat → Go.MapOrder (GoValue F)} (htype : p.queryType = .builder)
    (hq : substitutedParams p = .ok q) (hparse : parseQueryRangeParams engine orders p = .ok q) :
    RequestOk p := by
  have hvars : formatVariables p.queryType p.vars = .ok .empty := by rw [htype]; rfl
  unfold RequestOk
  rw [htype]
  simp only [substitutedParams, htype] at hq
  simp only [parseQueryRangeParams, htype] at hparse
  cases hgood : replaceFilterVariables (substitutedValue p.vars) p.builderQueries with
  | error e => simp [hgood, formatVariables, pure, Except.pure] at hq
  | ok good =>
    cases hcode : replaceFilterVariables (replaceValue p.vars) p.builderQueries with
    | error e => simp [hcode, formatVariables, pure, Except.pure] at hparse
    | ok code =>
      simp [hgood, formatVariables, pure, Except.pure] at hq
      simp [hcode, formatVariables, pure, Except.pure] at hparse
      have hsame : good = code := by
        rw [← hq] at hparse
        exact (congrArg QueryRangeParamsV3.builderQueries hparse).symm
      rw [hsame] at hgood
      intro e he fs hfs item hitem
      exact (replaceValue_eq_iff item.value).mp
        (replaceFilterVariables_inj hcode hgood e he fs hfs item hitem)

section Examples

/-- A PromQL request with two variables. -/
def promRequest (vars : Go.Map (GoValue Int)) (query : String) : QueryRangeParamsV3 Int where
  start := 0
  end_ := 60000
  panelType := .graph
  queryType := .promQL
  builderQueries := []
  clickHouseQueries := []
  promQueries := [("A", ⟨query, false⟩)]
  vars := vars

/-- The variables `a` and `ab`. -/
def prefixVars : Go.Map (GoValue Int) where
  entries := [("a", .string "x"), ("ab", .string "y")]
  nodup := by decide

/-- The variables `a` and `b`. -/
def plainVars : Go.Map (GoValue Int) where
  entries := [("a", .string "x"), ("b", .string "y")]
  nodup := by decide

/-- The query `$a{{.b}}`. -/
theorem requestOk_plain : RequestOk (promRequest plainVars "$a\x7b\x7b.b\x7d\x7d") := by
  intro vars hvars
  obtain rfl := Except.ok.inj hvars
  refine ⟨⟨?_, ?_, ?_⟩, trivial⟩
  · intro r _ _
    rfl
  · intro names hnames
    rw [← List.mem_permutations'] at hnames
    revert names
    decide +kernel
  · decide +kernel

end Examples

end Parser
end QueryService
