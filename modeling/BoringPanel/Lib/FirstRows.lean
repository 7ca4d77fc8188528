import Mathlib.Data.List.Basic

/-!
# The first rows, filtered

A list is cut to a limit, and what is wanted is the first of those elements that pass a filter
(`FirstOf`). If the list is cut before it is filtered, that is so only when nothing behind the cut passes
the filter, or everything before it does (`firstOf_filter_take_iff`).
-/

namespace FirstRows

variable {α : Type} {before : α → α → Bool} {limit : Nat} {rows all kept : List α}

/-- As many elements as the limit admits are kept, and those that are not come behind them. -/
structure FirstOf (before : α → α → Bool) (limit : Nat) (all kept : List α) : Prop where
  rest : ∃ others, (kept ++ others).Perm all ∧ ∀ a ∈ kept, ∀ b ∈ others, before a b = true
  length : kept.length = min limit all.length

/-- What is cut first, and filtered then. -/
theorem firstOf_filter_take_iff (hperm : rows.Perm all) (hsorted : rows.Pairwise fun a b => before a b = true)
    (p : α → Bool) {cut : Nat} (hcut : cut ≤ limit) :
    FirstOf before limit (all.filter p) ((rows.take cut).filter p) ↔
      (∀ a ∈ rows.drop cut, p a = false) ∨ cut = limit ∧ ∀ a ∈ rows.take cut, p a = true := by
  have hsplit : (rows.take cut).filter p ++ (rows.drop cut).filter p = rows.filter p := by
    rw [← List.filter_append, List.take_append_drop]
  have hall : (rows.filter p).Perm (all.filter p) := hperm.filter p
  have hlength : ((rows.take cut).filter p).length + ((rows.drop cut).filter p).length =
      (all.filter p).length := by
    rw [← List.length_append, hsplit, hall.length_eq]
  have htake : ((rows.take cut).filter p).length ≤ cut :=
    Nat.le_trans (List.length_filter_le _ _) (List.length_take_le _ _)
  constructor
  · intro h
    by_cases hbehind : (rows.drop cut).filter p = []
    · left
      intro a ha
      simpa using List.filter_eq_nil_iff.mp hbehind a ha
    · right
      -- something is left out, so that the limit is reached
      have hpos : 0 < ((rows.drop cut).filter p).length := List.length_pos_of_ne_nil hbehind
      have hkept := h.length
      have heq : cut = limit := by omega
      refine ⟨heq, ?_⟩
      have hfull : ((rows.take cut).filter p).length = (rows.take cut).length := by
        refine Nat.le_antisymm (List.length_filter_le _ _) ?_
        exact Nat.le_trans (List.length_take_le _ _) (by omega)
      exact List.length_filter_eq_length_iff.mp hfull
  · intro h
    refine ⟨⟨(rows.drop cut).filter p, ?_, ?_⟩, ?_⟩
    · rw [hsplit]
      exact hall
    · intro a ha b hb
      have hsorted' := hsorted
      rw [← List.take_append_drop cut rows] at hsorted'
      exact (List.pairwise_append.mp hsorted').2.2 a (List.mem_of_mem_filter ha) b (List.mem_of_mem_filter hb)
    · rcases h with hbehind | ⟨rfl, hbefore⟩
      · have hnil : (rows.drop cut).filter p = [] := by simpa [List.filter_eq_nil_iff] using hbehind
        rw [hnil] at hlength
        simp only [List.length_nil] at hlength
        omega
      · -- the list is cut, or it was not longer
        have hfull : ((rows.take cut).filter p).length = (rows.take cut).length :=
          List.length_filter_eq_length_iff.mpr hbefore
        rw [List.length_take] at hfull
        by_cases hshort : rows.length ≤ cut
        · rw [List.drop_eq_nil_of_le hshort] at hlength
          simp only [List.filter_nil, List.length_nil] at hlength
          omega
        · omega

end FirstRows
