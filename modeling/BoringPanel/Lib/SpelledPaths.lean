import Mathlib.Data.List.Nodup

/-!
# Paths that are spelled with a separator

A path of texts is written with a separator before each of them (`spell`). The texts may hold the
separator themselves, so that different paths may be written alike: those that have the same words, where
the texts are cut at the separator too (`spell_eq_iff`).
-/

namespace SpelledPaths

variable {α : Type} [DecidableEq α] (separator : α)

def spell (path : List (List α)) : List α := path.flatMap (separator :: ·)

/-- The texts of a path, cut at the separator. -/
def words (path : List (List α)) : List (List α) := path.flatMap fun text => text.splitOn separator

variable {separator}

omit [DecidableEq α] in
theorem spell_append (path rest : List (List α)) :
    spell separator (path ++ rest) = spell separator path ++ spell separator rest := List.flatMap_append

theorem words_append (path rest : List (List α)) :
    words separator (path ++ rest) = words separator path ++ words separator rest := List.flatMap_append

omit [DecidableEq α] in
theorem spell_eq_intercalate (path : List (List α)) :
    spell separator path = [separator].intercalate ([] :: path) := by
  induction path with
  | nil => rfl
  | cons text rest ih =>
    unfold spell at ih ⊢
    rw [List.flatMap_cons, ih, List.intercalate_cons_cons]
    cases rest with
    | nil => simp
    | cons next others => simp [List.intercalate_cons_cons]

/-- A text is written as its words are. -/
theorem spell_words (path : List (List α)) : spell separator (words separator path) = spell separator path := by
  induction path with
  | nil => rfl
  | cons text rest ih =>
    have htext : spell separator (text.splitOn separator) = separator :: text := by
      have hne := List.splitOn_ne_nil separator text
      rw [spell_eq_intercalate, List.intercalate_cons_of_ne_nil hne, List.intercalate_splitOn]
      rfl
    change spell separator (text.splitOn separator ++ words separator rest) = _
    rw [spell_append, htext, ih]
    rfl

theorem separator_notMem_splitOn {text word : List α} (h : word ∈ text.splitOn separator) : separator ∉ word := by
  induction text generalizing word with
  | nil =>
    obtain rfl : word = [] := List.mem_singleton.mp h
    exact List.not_mem_nil
  | cons c rest ih =>
    rw [List.splitOn_cons_eq_if_modifyHead] at h
    split at h
    · rcases List.mem_cons.mp h with rfl | h
      · exact List.not_mem_nil
      · exact ih h
    · rename_i hc
      obtain ⟨first, others, hsplit⟩ := List.exists_cons_of_ne_nil (List.splitOn_ne_nil separator rest)
      rw [hsplit, List.modifyHead_cons] at h
      rcases List.mem_cons.mp h with rfl | h
      · intro hmem
        rcases List.mem_cons.mp hmem with rfl | hmem
        · exact hc (beq_self_eq_true _)
        · exact ih (hsplit ▸ List.mem_cons_self) hmem
      · exact ih (hsplit ▸ List.mem_cons_of_mem _ h)

theorem separator_notMem_words {path : List (List α)} {word : List α} (h : word ∈ words separator path) :
    separator ∉ word := by
  obtain ⟨text, -, hword⟩ := List.mem_flatMap.mp h
  exact separator_notMem_splitOn hword

/-- A path that is not empty has a word. -/
theorem words_ne_nil {path : List (List α)} (h : path ≠ []) : words separator path ≠ [] := by
  obtain ⟨text, rest, rfl⟩ := List.exists_cons_of_ne_nil h
  intro hnil
  have happend : text.splitOn separator ++ words separator rest = [] := hnil
  exact List.splitOn_ne_nil separator text (List.append_eq_nil_iff.mp happend).1

/-- **Paths that are written alike** have the same words. -/
theorem spell_eq_iff (path path' : List (List α)) :
    spell separator path = spell separator path' ↔ words separator path = words separator path' := by
  have hsplit : ∀ p : List (List α), (spell separator p).splitOn separator = [] :: words separator p := by
    intro p
    rw [← spell_words, spell_eq_intercalate]
    refine List.splitOn_intercalate separator (fun word hword => ?_) (List.cons_ne_nil _ _)
    rcases List.mem_cons.mp hword with rfl | hword
    · exact List.not_mem_nil
    · exact separator_notMem_words hword
  constructor
  · intro h
    have hwords := hsplit path
    rw [h, hsplit path'] at hwords
    exact (List.cons.inj hwords).2.symm
  · intro h
    rw [← spell_words, h, spell_words]

end SpelledPaths
