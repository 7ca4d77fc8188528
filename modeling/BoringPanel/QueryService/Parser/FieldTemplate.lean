import BoringPanel.QueryService.Parser.References

/-!
# Templates with fields

A template engine for texts whose actions are fields only: it refuses any other text with an action,
and is what the requests of a dashboard need of `text/template` (`rendersFields_fieldTemplate`).
-/

namespace QueryService
namespace Parser

open Substitution

variable {F : Type} [GoFloat F]

/-- The names that may stand in an action. -/
def fieldNames (fields : Go.Map (GoValue F)) : List String := (namesOf fields).filter isIdentifier

/-- Outside of the fields there is no action. -/
def noAction : List (Seg Char String) → Bool
  | .lit '\x7b' :: .lit '\x7b' :: _ => false
  | .lit '\x7b' :: .ref _ :: _ => false
  | _ :: segs => noAction segs
  | [] => true

/-- The fields are replaced by their values, the rest is copied. -/
def fieldTemplate : TemplateEngine F := fun text fields =>
  let segs := parse (fieldReferences fields) (fieldNames fields) text.toList
  if noAction segs then .ok (.ofList (substitute (fieldReferences fields) segs))
  else .error "template: unexpected action"

section Fields

variable {fields : Go.Map (GoValue F)} {segs : List (Seg Char String)}

theorem fieldPattern (name : String) :
    (fieldReferences fields).pattern name =
      "\x7b\x7b".toList ++ ('.' :: (name.toList ++ "\x7d\x7d".toList)) := by
  simp [fieldReferences, Reference.write]

theorem text_ne_nil (seg : Seg Char String) : seg.text (fieldReferences fields) [] ≠ [] := by
  cases seg with
  | lit c => simp [Seg.text]
  | ref name => simp [Seg.text, fieldPattern]

/-- Where an action begins there is a field. -/
theorem eq_ref_of_marks (h : Marks (fieldReferences fields) "\x7b\x7b".toList [] segs)
    {before after : List (Seg Char String)} {seg : Seg Char String}
    (hsegs : segs = before ++ seg :: after) {v : List Char}
    (hv : render (fieldReferences fields) [] (seg :: after) = "\x7b\x7b".toList ++ v) :
    ∃ name, seg = .ref name := by
  obtain ⟨before', name, after', hsegs', -, hbefore⟩ :=
    h (render (fieldReferences fields) [] before) v (by
      rw [hsegs, render_append, hv, List.append_assoc])
  have hsame : before' = before :=
    eq_of_render_eq (R := fieldReferences fields) (fun seg _ => text_ne_nil seg)
      ⟨_, hsegs'.symm⟩ ⟨_, hsegs.symm⟩ hbefore
  rw [hsegs, hsame] at hsegs'
  exact ⟨name, (List.cons.inj (List.append_cancel_left hsegs')).1⟩

theorem noAction_of_marks (h : Marks (fieldReferences fields) "\x7b\x7b".toList [] segs) :
    noAction segs = true := by
  have hsuffix : ∀ before after, segs = before ++ after → noAction after = true := by
    intro before after
    induction after generalizing before with
    | nil => exact fun _ => rfl
    | cons seg after ih =>
      intro hsegs
      have hrest : noAction after = true := ih (before ++ [seg]) (by simp [hsegs])
      -- two braces in a row would begin an action
      have hbrace : ∀ next rest, seg = .lit '\x7b' → after = next :: rest →
          ∀ w, next.text (fieldReferences fields) [] ≠ '\x7b' :: w := by
        rintro next rest rfl rfl w hw
        obtain ⟨name, hname⟩ := eq_ref_of_marks h hsegs
          (v := w ++ render (fieldReferences fields) [] rest) (by
            rw [render_cons, render_cons, hw]
            rfl)
        cases hname
      cases seg with
      | ref name => exact hrest
      | lit c =>
        by_cases hc : c = '\x7b'
        · subst hc
          cases after with
          | nil => rfl
          | cons next rest =>
            cases next with
            | ref name =>
              exact absurd (fieldPattern name) (hbrace _ rest rfl rfl _)
            | lit d =>
              by_cases hd : d = '\x7b'
              · subst hd
                exact absurd rfl (hbrace _ rest rfl rfl [])
              · unfold noAction
                split <;> simp_all
        · unfold noAction
          split <;> simp_all
  exact hsuffix [] segs rfl

/-- A field is read up to its first closing brace. -/
theorem eq_of_fieldPattern_prefix {name name' : String} (hident : isIdentifier name)
    (hident' : isIdentifier name') {rest : List Char}
    (h : (fieldReferences fields).pattern name' <+: (fieldReferences fields).pattern name ++ rest) :
    name' = name := by
  have hclosed : ∀ n : String, isIdentifier n → ∀ v,
      (n.toList ++ '\x7d' :: v).takeWhile (· ≠ '\x7d') = n.toList := by
    intro n hn v
    have hall : ∀ c ∈ n.toList, c ≠ '\x7d' := by
      intro c hc
      unfold isIdentifier at hn
      split at hn
      · rename_i heq
        simp [heq] at hc
      · rename_i d s heq
        rw [heq] at hc
        simp only [Bool.and_eq_true, Bool.or_eq_true, List.all_eq_true] at hn
        rcases List.mem_cons.mp hc with rfl | hc
        · rintro rfl
          revert hn
          simp +decide
        · rintro rfl
          have := hn.2 _ hc
          revert this
          decide
    rw [List.takeWhile_append_of_pos (by simpa using hall)]
    simp
  obtain ⟨v, hv⟩ := h
  rw [fieldPattern, fieldPattern, List.append_assoc, List.append_assoc] at hv
  have hv' : name'.toList ++ '\x7d' :: '\x7d' :: v = name.toList ++ '\x7d' :: '\x7d' :: rest := by
    have := (List.cons.inj (List.append_cancel_left hv)).2
    simpa using this
  have htake := congrArg (List.takeWhile (· ≠ '\x7d')) hv'
  have hleft := hclosed name' hident' ('\x7d' :: v)
  have hright := hclosed name hident ('\x7d' :: rest)
  refine String.toList_inj.mp ?_
  rw [← hleft, ← hright]
  exact htake

/-- The scan finds the fields. -/
theorem parse_fields (hnames : ∀ name, .ref name ∈ segs →
      isIdentifier name ∧ (fields.lookup name).isSome)
    (h : Marks (fieldReferences fields) "\x7b\x7b".toList [] segs) :
    parse (fieldReferences fields) (fieldNames fields)
      (render (fieldReferences fields) [] segs) = segs := by
  refine parse_render (fun before c after hsegs => ?_) (fun before name after hsegs => ?_)
  · by_contra hlong
    obtain ⟨name, hname⟩ := Option.ne_none_iff_exists'.mp hlong
    obtain ⟨-, -, v, hv⟩ := mem_of_longest hname
    rw [fieldPattern, List.append_assoc] at hv
    obtain ⟨name', hname'⟩ := eq_ref_of_marks h hsegs (show render _ [] (.lit c :: after) = _ from hv.symm)
    cases hname'
  · obtain ⟨hident, hsome⟩ := hnames name (by simp [hsegs])
    have hmem : name ∈ fieldNames fields :=
      List.mem_filter.mpr ⟨Go.Map.mem_keys_iff.mpr hsome, hident⟩
    have hne : (fieldReferences fields).pattern name ≠ [] := by
      rw [fieldPattern]
      simp
    refine ⟨hne, ?_⟩
    set s := (fieldReferences fields).pattern name ++ render (fieldReferences fields) [] after with hs
    have hcand : name ∈ (fieldNames fields).filter fun r =>
        (fieldReferences fields).pattern r ≠ [] ∧ (fieldReferences fields).pattern r <+: s :=
      List.mem_filter.mpr ⟨hmem, by simpa using ⟨hne, ⟨_, rfl⟩⟩⟩
    obtain ⟨found, hfound⟩ := Option.isSome_iff_exists.mp
      (show (longest (fieldReferences fields) (fieldNames fields) s).isSome by
        by_contra hnone
        rw [Option.not_isSome_iff_eq_none] at hnone
        rw [List.argmax_eq_none.mp hnone] at hcand
        exact absurd hcand List.not_mem_nil)
    obtain ⟨hfmem, -, hfpre⟩ := mem_of_longest hfound
    have hfident : isIdentifier found := (List.mem_filter.mp hfmem).2
    rw [hfound, eq_of_fieldPattern_prefix hident hfident hfpre]

end Fields

/-- **The engine renders fields.** -/
theorem rendersFields_fieldTemplate : RendersFields (fieldTemplate (F := F)) := by
  intro fields segs hnames h
  unfold fieldTemplate
  rw [String.toList_ofList, parse_fields hnames h]
  simp only [noAction_of_marks h, if_true]

end Parser
end QueryService
