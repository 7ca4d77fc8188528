import Mathlib.Data.List.Chain
import Mathlib.Data.List.Nodup
import Mathlib.Data.List.Flatten

/-!
# Walks of bounded length

A depth-first enumeration of the walks of a graph that visit no node twice. From each node it follows the
first few edges that lead to new nodes, and it ends where there are none or where there is no room left.

Its walks are simple and cannot be extended (`walk_of_mem`). With parallel edges several walks visit the
same nodes: walks from a node visit the same nodes if and only if they have the same ends at each step
(`map_target_eq_iff`).
-/

namespace BoundedWalks

variable {V E : Type}

/-- The edges follow one another from a node. -/
def Follows (target : E → V) (out : V → List E) : V → List E → Prop
  | _, [] => True
  | v, e :: walk => e ∈ out v ∧ Follows target out (target e) walk

/-- Where a walk from a node ends. -/
def endOf (target : E → V) : V → List E → V
  | v, [] => v
  | _, e :: walk => endOf target (target e) walk

variable [DecidableEq V] (target : E → V) (out : V → List E) (branching : Nat)

/-- The edges to new nodes. -/
def fresh (visited : List V) (v : V) : List E := (out v).filter fun e => target e ∉ visited

/-- The walks from a node with room for some edges. -/
def walks : Nat → V → List V → List (List E)
  | 0, _, _ => [[]]
  | room + 1, v, visited =>
    if (fresh target out visited v).isEmpty then [[]]
    else ((fresh target out visited v).take branching).flatMap fun e =>
      (walks room (target e) (visited ++ [target e])).map (e :: ·)

/-- A walk of the enumeration. -/
structure Walk (room : Nat) (v : V) (visited : List V) (walk : List E) : Prop where
  follows : Follows target out v walk
  simple : visited.Nodup → (visited ++ walk.map target).Nodup
  length_le : walk.length ≤ room
  ends : walk.length = room ∨ ∀ e ∈ out (endOf target v walk), target e ∈ visited ++ walk.map target

variable {target out branching} {room : Nat} {v : V} {visited : List V} {e : E} {walk : List E}

theorem mem_fresh : e ∈ fresh target out visited v ↔ e ∈ out v ∧ target e ∉ visited := by
  rw [fresh, List.mem_filter, decide_eq_true_eq]

theorem Walk.cons (he : e ∈ fresh target out visited v)
    (h : Walk target out room (target e) (visited ++ [target e]) walk) :
    Walk target out (room + 1) v visited (e :: walk) := by
  obtain ⟨hout, hnew⟩ := mem_fresh.mp he
  refine ⟨⟨hout, h.follows⟩, fun hvisited => ?_, Nat.succ_le_succ h.length_le, ?_⟩
  · rw [List.map_cons, List.append_cons]
    refine h.simple (List.nodup_append.mpr ⟨hvisited, List.nodup_singleton _, ?_⟩)
    intro w hw w' hw' heq
    rw [List.mem_singleton] at hw'
    exact hnew (hw' ▸ heq ▸ hw)
  · refine h.ends.imp (congrArg Nat.succ) fun hends e' he' => ?_
    rw [List.map_cons, List.append_cons]
    exact hends e' he'

/-- **The walks are simple and go on as long as they can.** -/
theorem walk_of_mem (h : walk ∈ walks target out branching room v visited) :
    Walk target out room v visited walk := by
  induction room generalizing v visited walk with
  | zero =>
    obtain rfl := List.mem_singleton.mp h
    exact ⟨trivial, fun hvisited => by simpa using hvisited, Nat.le_refl 0, .inl rfl⟩
  | succ room ih =>
    rw [walks] at h
    split at h
    · rename_i hnone
      obtain rfl := List.mem_singleton.mp h
      refine ⟨trivial, fun hvisited => by simpa using hvisited, Nat.zero_le _, .inr fun e he => ?_⟩
      by_contra hnew
      have hmem : e ∈ fresh target out visited v :=
        mem_fresh.mpr ⟨he, fun hvisited => hnew (List.mem_append_left _ hvisited)⟩
      rw [List.isEmpty_iff.mp hnone] at hmem
      exact absurd hmem List.not_mem_nil
    · obtain ⟨e, he, hwalk⟩ := List.mem_flatMap.mp h
      obtain ⟨rest, hrest, rfl⟩ := List.mem_map.mp hwalk
      exact (ih hrest).cons (List.mem_of_mem_take he)

omit [DecidableEq V] in
/-- Walks visit the same nodes if their edges have the same ends. -/
theorem map_target_eq_iff {source : E → V} (hsource : ∀ v, ∀ e ∈ out v, source e = v) {walk' : List E}
    (h : Follows target out v walk) (h' : Follows target out v walk') :
    walk.map target = walk'.map target ↔
      walk.map (fun e => (source e, target e)) = walk'.map fun e => (source e, target e) := by
  constructor
  · intro heq
    induction walk generalizing v walk' with
    | nil =>
      cases walk' with
      | nil => rfl
      | cons e' walk' => cases heq
    | cons e walk ih =>
      cases walk' with
      | nil => cases heq
      | cons e' walk' =>
        obtain ⟨htarget, hrest⟩ := List.cons.inj heq
        have hends : (source e, target e) = (source e', target e') := by
          rw [hsource v e h.1, hsource v e' h'.1, htarget]
        rw [List.map_cons, List.map_cons, hends, ih h.2 (htarget ▸ h'.2) hrest]
  · intro heq
    have hsnd := congrArg (List.map Prod.snd) heq
    rw [List.map_map, List.map_map] at hsnd
    exact hsnd

end BoundedWalks
