import BoringPanel.Lib.Runs
import Mathlib.Data.List.Count
import Mathlib.Data.List.Nodup

/-!
# Insertions that are followed up

Parties that insert a new key into a table, and later write to a log that they have. The log of a key
that nobody is about to write to it has the key once (`Sound.count_logged`), however the parties are
interleaved.
-/

/-- The keys of the table, the key that a party has inserted and not logged yet, and the log. -/
structure FollowUps (ι κ : Type) where
  keys : List κ
  pending : ι → Option κ
  logged : List κ

namespace FollowUps

variable {ι κ : Type} [DecidableEq ι] [DecidableEq κ]

/-- What a party does; the keys that it inserts are new. -/
inductive Step : FollowUps ι κ → FollowUps ι κ → Prop
  | skip (s : FollowUps ι κ) : Step s s
  | insert {s : FollowUps ι κ} {i : ι} {k : κ} (hidle : s.pending i = none) (hnew : k ∉ s.keys) :
      Step s ⟨s.keys ++ [k], Function.update s.pending i (some k), s.logged⟩
  | log {s : FollowUps ι κ} {i : ι} {k : κ} (hpending : s.pending i = some k) :
      Step s ⟨s.keys, Function.update s.pending i none, s.logged ++ [k]⟩

/-- The invariant. -/
structure Sound (s : FollowUps ι κ) : Prop where
  nodup : s.keys.Nodup
  /-- No key is pending twice. -/
  injective : ∀ i j k, s.pending i = some k → s.pending j = some k → i = j
  pending_mem : ∀ i k, s.pending i = some k → k ∈ s.keys
  logged_mem : ∀ k ∈ s.logged, k ∈ s.keys
  /-- What is pending has not been logged. -/
  pending_notMem : ∀ i k, s.pending i = some k → k ∉ s.logged
  /-- All else has been logged once. -/
  count_logged : ∀ k ∈ s.keys, (∀ i, s.pending i ≠ some k) →
    s.logged.countP (fun k' => k' = k) = 1

variable {s t : FollowUps ι κ}

omit [DecidableEq ι] in
theorem sound_empty : Sound (⟨[], fun _ => none, []⟩ : FollowUps ι κ) where
  nodup := List.nodup_nil
  injective := nofun
  pending_mem := nofun
  logged_mem := nofun
  pending_notMem := nofun
  count_logged := nofun

theorem Sound.insert (h : s.Sound) {i : ι} {k : κ} (hidle : s.pending i = none) (hnew : k ∉ s.keys) :
    Sound ⟨s.keys ++ [k], Function.update s.pending i (some k), s.logged⟩ := by
  -- a party has the new key pending, or what it had before
  have hcases : ∀ {j k'}, Function.update s.pending i (some k) j = some k' →
      j = i ∧ k' = k ∨ s.pending j = some k' ∧ k' ∈ s.keys := by
    intro j k' hj
    by_cases hji : j = i
    · rw [hji, Function.update_self] at hj
      exact .inl ⟨hji, (Option.some.inj hj).symm⟩
    · rw [Function.update_of_ne hji] at hj
      exact .inr ⟨hj, h.pending_mem j k' hj⟩
  refine ⟨?_, ?_, ?_, ?_, ?_, ?_⟩
  · refine List.nodup_append.mpr ⟨h.nodup, List.nodup_singleton k, ?_⟩
    rintro a ha b hb rfl
    exact hnew (List.mem_singleton.mp hb ▸ ha)
  · intro j j' k' hj hj'
    rcases hcases hj with ⟨rfl, rfl⟩ | ⟨hj, hmem⟩
    · rcases hcases hj' with ⟨rfl, -⟩ | ⟨-, hmem⟩
      · rfl
      · exact absurd hmem hnew
    · rcases hcases hj' with ⟨-, rfl⟩ | ⟨hj', -⟩
      · exact absurd hmem hnew
      · exact h.injective j j' k' hj hj'
  · intro j k' hj
    rcases hcases hj with ⟨-, rfl⟩ | ⟨-, hmem⟩
    · exact List.mem_append_right _ List.mem_cons_self
    · exact List.mem_append_left _ hmem
  · exact fun k' hk' => List.mem_append_left _ (h.logged_mem k' hk')
  · intro j k' hj
    rcases hcases hj with ⟨-, rfl⟩ | ⟨hj, -⟩
    · exact fun hlogged => hnew (h.logged_mem _ hlogged)
    · exact h.pending_notMem j k' hj
  · intro k' hk' hquiet
    have hne : k' ≠ k := by
      rintro rfl
      exact hquiet i (Function.update_self i _ _)
    have hkeys : k' ∈ s.keys := (List.mem_append.mp hk').resolve_right fun hk' =>
      hne (List.mem_singleton.mp hk')
    refine h.count_logged k' hkeys fun j hj => hquiet j ?_
    have hji : j ≠ i := by
      rintro rfl
      rw [hidle] at hj
      cases hj
    exact (Function.update_of_ne hji _ _).trans hj

theorem Sound.log (h : s.Sound) {i : ι} {k : κ} (hpending : s.pending i = some k) :
    Sound ⟨s.keys, Function.update s.pending i none, s.logged ++ [k]⟩ := by
  have hold : ∀ {j k'}, Function.update s.pending i none j = some k' → j ≠ i ∧ s.pending j = some k' := by
    intro j k' hj
    have hji : j ≠ i := by
      rintro rfl
      rw [Function.update_self] at hj
      cases hj
    rw [Function.update_of_ne hji] at hj
    exact ⟨hji, hj⟩
  refine ⟨h.nodup, ?_, ?_, ?_, ?_, ?_⟩
  · exact fun j j' k' hj hj' => h.injective j j' k' (hold hj).2 (hold hj').2
  · exact fun j k' hj => h.pending_mem j k' (hold hj).2
  · intro k' hk'
    rcases List.mem_append.mp hk' with hk' | hk'
    · exact h.logged_mem k' hk'
    · rw [List.mem_singleton.mp hk']
      exact h.pending_mem i k hpending
  · intro j k' hj hk'
    obtain ⟨hji, hj⟩ := hold hj
    rcases List.mem_append.mp hk' with hk' | hk'
    · exact h.pending_notMem j k' hj hk'
    · rw [List.mem_singleton.mp hk'] at hj
      exact hji (h.injective j i k hj hpending)
  · intro k' hk' hquiet
    show (s.logged ++ [k]).countP _ = 1
    rw [List.countP_append, List.countP_singleton]
    by_cases hkk : k' = k
    · -- it had not been logged before
      have hnone : s.logged.countP (fun l => l = k') = 0 := by
        refine List.countP_eq_zero.mpr fun l hl hlk => h.pending_notMem i k hpending ?_
        rwa [← hkk, ← of_decide_eq_true hlk]
      rw [hnone, hkk, if_pos (decide_eq_true rfl)]
    · have hcount : s.logged.countP (fun l => l = k') = 1 := by
        refine h.count_logged k' hk' fun j hj => hquiet j ?_
        have hji : j ≠ i := by
          rintro rfl
          rw [hpending] at hj
          exact hkk (Option.some.inj hj).symm
        exact (Function.update_of_ne hji _ _).trans hj
      rw [hcount, if_neg (by simpa using Ne.symm hkk)]

theorem Sound.step (h : s.Sound) (hstep : Step s t) : t.Sound := by
  cases hstep with
  | skip => exact h
  | insert hidle hnew => exact h.insert hidle hnew
  | log hpending => exact h.log hpending

end FollowUps
