import BoringPanel.Lib.JsText
import Mathlib.Tactic.Ring

/-!
# Texts that are joined without the empty ones

`texts.filter(Boolean).join(separator)` (`joinPresent`), which may be done in groups
(`joinPresent_map_joinPresent`). A text that is joined with itself is the same if it is empty or there is
one of it (`copies_eq_self_iff`), and copies of copies are copies (`joinPresent_map_copies`).
-/

namespace JsText

variable (separator : JsText)

def joinPresent (texts : List JsText) : JsText := join separator (texts.filter (· ≠ []))

/-- A text that is joined with itself. -/
def copies (k : Nat) (t : JsText) : JsText := joinPresent separator (List.replicate k t)

variable {separator}

theorem join_ne_nil {texts : List JsText} (h : ∀ t ∈ texts, t ≠ []) (hne : texts ≠ []) :
    join separator texts ≠ [] := by
  obtain ⟨t, rest, rfl⟩ := List.exists_cons_of_ne_nil hne
  obtain ⟨c, t, rfl⟩ := List.exists_cons_of_ne_nil (h t List.mem_cons_self)
  rw [join_cons_cons]
  exact List.cons_ne_nil _ _

theorem joinPresent_eq_nil_iff {texts : List JsText} :
    joinPresent separator texts = [] ↔ texts.filter (· ≠ []) = [] := by
  constructor
  · intro h
    by_contra hne
    refine join_ne_nil (fun t ht => ?_) hne h
    exact of_decide_eq_true (List.mem_filter.mp ht).2
  · intro h
    unfold joinPresent
    rw [h]
    rfl

theorem joinPresent_append (texts others : List JsText) :
    joinPresent separator (texts ++ others) =
      joinPresent separator [joinPresent separator texts, joinPresent separator others] := by
  by_cases h : texts.filter (· ≠ []) = []
  · have hleft : joinPresent separator texts = [] := joinPresent_eq_nil_iff.mpr h
    rw [hleft]
    unfold joinPresent
    rw [List.filter_append, h, List.nil_append, List.filter_cons_of_neg (by simp)]
    by_cases h' : others.filter (· ≠ []) = []
    · rw [h']
      rfl
    · have hne : join separator (others.filter (· ≠ [])) ≠ [] := fun hc => h' (joinPresent_eq_nil_iff.mp hc)
      rw [List.filter_cons_of_pos (by simpa using hne)]
      rfl
  · have hleft : joinPresent separator texts ≠ [] := fun hc => h (joinPresent_eq_nil_iff.mp hc)
    by_cases h' : others.filter (· ≠ []) = []
    · have hright : joinPresent separator others = [] := joinPresent_eq_nil_iff.mpr h'
      rw [hright]
      unfold joinPresent at hleft ⊢
      rw [List.filter_append, h', List.append_nil, List.filter_cons_of_pos (by simpa using hleft),
        List.filter_cons_of_neg (by simp)]
      rfl
    · have hright : joinPresent separator others ≠ [] := fun hc => h' (joinPresent_eq_nil_iff.mp hc)
      unfold joinPresent at hleft hright ⊢
      rw [List.filter_append, join_append separator h h', List.filter_cons_of_pos (by simpa using hleft),
        List.filter_cons_of_pos (by simpa using hright)]
      rfl

theorem joinPresent_singleton (t : JsText) : joinPresent separator [t] = t := by
  by_cases h : t = []
  · rw [h]
    rfl
  · unfold joinPresent
    rw [List.filter_cons_of_pos (by simpa using h)]
    rfl

/-- **Groups that have been joined** are joined to the same text. -/
theorem joinPresent_map_joinPresent (separator : JsText) (groups : List (List JsText)) :
    joinPresent separator (groups.map (joinPresent separator)) = joinPresent separator groups.flatten := by
  induction groups with
  | nil => rfl
  | cons group rest ih =>
    calc joinPresent separator ((group :: rest).map (joinPresent separator))
        = joinPresent separator ([joinPresent separator group] ++ rest.map (joinPresent separator)) := rfl
      _ = joinPresent separator [joinPresent separator group, joinPresent separator rest.flatten] := by
        rw [joinPresent_append, joinPresent_singleton, ih]
      _ = joinPresent separator (group :: rest).flatten := by
        rw [List.flatten_cons, joinPresent_append]

theorem copies_one (t : JsText) : copies separator 1 t = t := joinPresent_singleton t

theorem flatten_replicates (ks : List Nat) (t : JsText) :
    (ks.map fun k => List.replicate k t).flatten = List.replicate ks.sum t := by
  induction ks with
  | nil => rfl
  | cons k rest ih => rw [List.map_cons, List.flatten_cons, ih, List.sum_cons, List.replicate_append_replicate]

/-- **Copies that are joined** are so many copies. -/
theorem joinPresent_map_copies (separator : JsText) (ks : List Nat) (t : JsText) :
    joinPresent separator (ks.map fun k => copies separator k t) = copies separator ks.sum t := by
  have hgroups := joinPresent_map_joinPresent separator (ks.map fun k => List.replicate k t)
  rw [List.map_map, flatten_replicates] at hgroups
  exact hgroups

theorem copies_copies (j k : Nat) (t : JsText) : copies separator j (copies separator k t) = copies separator (k * j) t := by
  have h := joinPresent_map_copies separator (List.replicate j k) t
  rw [List.map_replicate, List.sum_replicate_nat, Nat.mul_comm] at h
  exact h

/-- **The same text** is joined of copies only if it is empty or there is one. -/
theorem copies_eq_self_iff (hseparator : separator ≠ []) (k : Nat) (t : JsText) :
    copies separator k t = t ↔ t = [] ∨ k = 1 := by
  constructor
  · intro h
    by_cases ht : t = []
    · exact .inl ht
    · refine .inr ?_
      have hfilter : (List.replicate k t).filter (· ≠ []) = List.replicate k t := by
        refine List.filter_eq_self.mpr fun s hs => ?_
        rw [List.eq_of_mem_replicate hs]
        exact decide_eq_true ht
      rcases k with _ | _ | k
      · exact absurd h.symm ht
      · rfl
      · -- two copies are longer than one
        have hlength := congrArg List.length h
        unfold copies joinPresent at hlength
        rw [hfilter, List.replicate_succ, List.replicate_succ, join, List.length_append, List.length_append] at hlength
        have hpos := List.length_pos_iff.mpr hseparator
        omega
  · rintro (rfl | rfl)
    · refine joinPresent_eq_nil_iff.mpr (List.filter_eq_nil_iff.mpr fun s hs => ?_)
      rw [List.eq_of_mem_replicate hs]
      simp
    · exact copies_one t

/-! ### Lengths -/

theorem join_eq_intercalate (separator : JsText) (texts : List JsText) :
    join separator texts = separator.intercalate texts := by
  induction texts with
  | nil => rfl
  | cons t rest ih =>
    cases rest with
    | nil => exact (List.intercalate_singleton).symm
    | cons t' rest => rw [join, ih, List.intercalate_cons_cons]

theorem length_join (separator : JsText) (texts : List JsText) :
    (join separator texts).length = (texts.map List.length).sum + (texts.length - 1) * separator.length := by
  induction texts with
  | nil => simp [join]
  | cons t rest ih =>
    cases rest with
    | nil => simp [join]
    | cons t' rest =>
      rw [join, List.length_append, List.length_append, ih]
      simp only [List.map_cons, List.sum_cons, List.length_cons, Nat.add_sub_cancel]
      ring

/-- It is not longer without the empty texts. -/
theorem length_joinPresent_le (separator : JsText) (texts : List JsText) :
    (joinPresent separator texts).length ≤ (join separator texts).length := by
  have hsum : ∀ texts : List JsText, ((texts.filter (· ≠ [])).map List.length).sum = (texts.map List.length).sum := by
    intro texts
    induction texts with
    | nil => rfl
    | cons t rest ih =>
      by_cases h : t = []
      · rw [List.filter_cons_of_neg (by simpa using h), ih, h]
        simp
      · rw [List.filter_cons_of_pos (by simpa using h), List.map_cons, List.map_cons, List.sum_cons, List.sum_cons, ih]
  have hlength : (texts.filter (· ≠ [])).length ≤ texts.length := List.length_filter_le _ _
  unfold joinPresent
  rw [length_join, length_join, hsum]
  exact Nat.add_le_add_left (Nat.mul_le_mul_right _ (Nat.sub_le_sub_right hlength 1)) _

end JsText
