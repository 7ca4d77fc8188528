import Mathlib.Data.List.Infix
import Mathlib.Data.List.Nodup

/-!
# Names with a mark where they are taken

Names are given one after the other. A name that is taken already gets a mark, and the marked name is
not looked up again, so it may be taken as well. The names given are distinct if and only if no marked
name is the plain name of an earlier one (`nodup_newNames_iff`), provided that marks of one kind are
not given twice.

The names in use after a list are described without the names given (`InUse`), by the list alone.
-/

namespace MarkedNames

variable {α ι : Type} (mark : α → ι → α)

section Names

variable [DecidableEq α]

/-- The name given after those that are taken. -/
def nextName (taken : List α) (p : α × ι) : α := if p.1 ∈ taken then mark p.1 p.2 else p.1

/-- The names given to a list, one after the other. -/
def newNames (taken : List α) : List (α × ι) → List α
  | [] => []
  | p :: ps => nextName mark taken p :: newNames (taken ++ [nextName mark taken p]) ps

theorem length_newNames (ps : List (α × ι)) :
    ∀ taken, (newNames mark taken ps).length = ps.length := by
  induction ps with
  | nil => exact fun _ => rfl
  | cons p ps ih =>
    intro taken
    rw [newNames, List.length_cons, List.length_cons, ih]

theorem newNames_concat (ps : List (α × ι)) (p : α × ι) : ∀ taken,
    newNames mark taken (ps ++ [p]) =
      newNames mark taken ps ++ [nextName mark (taken ++ newNames mark taken ps) p] := by
  induction ps with
  | nil =>
    intro taken
    rw [List.nil_append, newNames, newNames, newNames, List.append_nil, List.nil_append]
  | cons q ps ih =>
    intro taken
    rw [List.cons_append, newNames, ih, newNames, List.cons_append, List.append_assoc,
      List.singleton_append]

end Names

/-- A name in use after a list: that of an entry, or the name of an entry with its mark, where that
name was in use before the entry. -/
inductive InUse : List (α × ι) → α → Prop
  | own {ps : List (α × ι)} {p : α × ι} (hp : p ∈ ps) : InUse ps p.1
  | marked {ps before : List (α × ι)} {p : α × ι} (hp : before ++ [p] <+: ps)
      (h : InUse before p.1) : InUse ps (mark p.1 p.2)

/-- An entry whose name is in use, and whose name with its mark is the name of an earlier entry. -/
def Clash (ps : List (α × ι)) : Prop :=
  ∃ before p, before ++ [p] <+: ps ∧ InUse mark before p.1 ∧ mark p.1 p.2 ∈ before.map Prod.fst

variable {mark} {ps : List (α × ι)} {p : α × ι} {n : α}

theorem InUse.concat (h : InUse mark ps n) : InUse mark (ps ++ [p]) n := by
  cases h with
  | own hp => exact .own (List.mem_append_left _ hp)
  | marked hp h => exact .marked (hp.trans (List.prefix_append _ _)) h

theorem inUse_concat_iff : InUse mark (ps ++ [p]) n ↔
    InUse mark ps n ∨ n = p.1 ∨ (InUse mark ps p.1 ∧ n = mark p.1 p.2) := by
  constructor
  · intro h
    cases h with
    | own hp =>
      rcases List.mem_append.mp hp with hp | hp
      · exact Or.inl (.own hp)
      · rw [List.mem_singleton.mp hp]
        exact Or.inr (Or.inl rfl)
    | marked hp h =>
      rcases List.prefix_concat_iff.mp hp with heq | hp
      · obtain ⟨rfl, hlast⟩ := List.append_inj' heq rfl
        rw [← List.singleton_inj.mp hlast]
        exact Or.inr (Or.inr ⟨h, rfl⟩)
      · exact Or.inl (.marked hp h)
  · rintro (h | rfl | ⟨h, rfl⟩)
    · exact h.concat
    · exact .own (List.mem_append_right _ (List.mem_singleton_self p))
    · exact .marked (List.prefix_refl _) h

theorem clash_concat_iff : Clash mark (ps ++ [p]) ↔
    Clash mark ps ∨ (InUse mark ps p.1 ∧ mark p.1 p.2 ∈ ps.map Prod.fst) := by
  constructor
  · rintro ⟨before, q, hq, huse, hmem⟩
    rcases List.prefix_concat_iff.mp hq with heq | hq
    · obtain ⟨rfl, hlast⟩ := List.append_inj' heq rfl
      rw [← List.singleton_inj.mp hlast]
      exact Or.inr ⟨huse, hmem⟩
    · exact Or.inl ⟨before, q, hq, huse, hmem⟩
  · rintro (⟨before, q, hq, h⟩ | ⟨huse, hmem⟩)
    · exact ⟨before, q, hq.trans (List.prefix_append _ _), h⟩
    · exact ⟨ps, p, List.prefix_refl _, huse, hmem⟩

theorem not_clash_nil : ¬ Clash mark ([] : List (α × ι)) := by
  rintro ⟨before, p, hp, -⟩
  exact List.append_ne_nil_of_right_ne_nil _ (List.cons_ne_nil _ _) (List.prefix_nil.mp hp)

variable [DecidableEq α]

/-- The names given are those in use. -/
theorem mem_newNames_iff : n ∈ newNames mark [] ps ↔ InUse mark ps n := by
  induction ps using List.reverseRecOn generalizing n with
  | nil =>
    refine iff_of_false List.not_mem_nil fun h => ?_
    cases h with
    | own hp => cases hp
    | marked hp _ =>
      exact List.append_ne_nil_of_right_ne_nil _ (List.cons_ne_nil _ _) (List.prefix_nil.mp hp)
  | append_singleton ps p ih =>
    rw [newNames_concat, List.mem_append, List.mem_singleton, List.nil_append, ih,
      inUse_concat_iff]
    refine or_congr_right' fun hn => ?_
    by_cases huse : InUse mark ps p.1
    · -- The plain name is in use before, so only the marked one can be new.
      rw [nextName, if_pos (ih.mpr huse)]
      exact ⟨fun h => Or.inr ⟨huse, h⟩, fun h => h.elim (fun h => absurd (h ▸ huse) hn) And.right⟩
    · rw [nextName, if_neg fun h => huse (ih.mp h)]
      exact ⟨Or.inl, fun h => h.elim id fun h => absurd h.1 huse⟩

/-- The names given are distinct if and only if no name with a mark is that of an earlier entry. -/
theorem nodup_newNames_iff (hmark : ∀ a b i j, mark a i = mark b j → i = j)
    (hps : (ps.map Prod.snd).Nodup) : (newNames mark [] ps).Nodup ↔ ¬ Clash mark ps := by
  induction ps using List.reverseRecOn with
  | nil => exact iff_of_true List.nodup_nil not_clash_nil
  | append_singleton ps p ih =>
    rw [List.map_append, List.nodup_append] at hps
    rw [newNames_concat, List.nodup_append_comm, List.singleton_append, List.nodup_cons, List.nil_append,
      ih hps.1, clash_concat_iff, not_or, and_comm]
    refine and_congr_right fun _ => not_congr ?_
    rw [mem_newNames_iff]
    by_cases huse : InUse mark ps p.1
    · rw [nextName, if_pos (mem_newNames_iff.mpr huse)]
      constructor
      · intro h
        -- Another entry with the same mark would have the same index.
        refine ⟨huse, ?_⟩
        generalize he : mark p.1 p.2 = m at h
        cases h with
        | own hp => exact List.mem_map_of_mem hp
        | marked hp h =>
          rename_i q
          have hmem : q.2 ∈ ps.map Prod.snd := List.mem_map_of_mem
            (hp.subset (List.mem_append_right _ (List.mem_singleton_self q)))
          exact absurd (hmark _ _ _ _ he).symm (hps.2.2 _ hmem _ (List.mem_singleton_self _))
      · rintro ⟨-, hmem⟩
        obtain ⟨q, hq, he⟩ := List.mem_map.mp hmem
        rw [← he]
        exact .own hq
    · rw [nextName, if_neg fun h => huse (mem_newNames_iff.mp h)]
      exact iff_of_false huse fun h => huse h.1

end MarkedNames
