import Mathlib.Data.List.Defs

/-!
# Chunks of a list

`List.toChunks` cuts a list into parts of a given length. The parts join to the list
(`flatten_toChunks`), none is empty and none is longer (`bounds_of_mem_toChunks`).
-/

namespace List

variable {α : Type} {n : Nat}

/-- A chunk is full, or takes one more element. -/
theorem toChunks_go_cons (x : α) (l : List α) (chunk : Array α) (chunks : Array (List α)) :
    toChunks.go n (x :: l) chunk chunks =
      if chunk.size = n then toChunks.go n l #[x] (chunks.push chunk.toList)
      else toChunks.go n l (chunk.push x) chunks := by
  simp [toChunks.go]

theorem flatten_toChunks_go (l : List α) (chunk : Array α) (chunks : Array (List α)) :
    (toChunks.go n l chunk chunks).flatten = chunks.toList.flatten ++ (chunk.toList ++ l) := by
  induction l generalizing chunk chunks with
  | nil => simp [toChunks.go]
  | cons x l ih =>
    rw [toChunks_go_cons]
    split
    · rw [ih]
      simp
    · rw [ih]
      simp

/-- A chunk that is pushed is in the bounds. -/
theorem bounds_push_chunk {chunk : Array α} {chunks : Array (List α)} (hpos : 0 < chunk.size)
    (hsize : chunk.size ≤ n) (hchunks : ∀ c ∈ chunks.toList, c ≠ [] ∧ c.length ≤ n) :
    ∀ c ∈ (chunks.push chunk.toList).toList, c ≠ [] ∧ c.length ≤ n := by
  intro c hc
  rw [Array.toList_push] at hc
  rcases List.mem_append.mp hc with hc | hc
  · exact hchunks c hc
  · rw [List.mem_singleton.mp hc]
    exact ⟨List.ne_nil_of_length_pos (by rwa [Array.length_toList]), by rwa [Array.length_toList]⟩

theorem bounds_of_mem_toChunks_go {l : List α} {chunk : Array α} {chunks : Array (List α)}
    (hpos : 0 < chunk.size) (hsize : chunk.size ≤ n) (hchunks : ∀ c ∈ chunks.toList, c ≠ [] ∧ c.length ≤ n) :
    ∀ c ∈ toChunks.go n l chunk chunks, c ≠ [] ∧ c.length ≤ n := by
  induction l generalizing chunk chunks with
  | nil =>
    rw [toChunks.go]
    exact bounds_push_chunk hpos hsize hchunks
  | cons x l ih =>
    rw [toChunks_go_cons]
    split
    · exact ih Nat.one_pos (Nat.le_trans hpos hsize) (bounds_push_chunk hpos hsize hchunks)
    · refine ih ?_ ?_ hchunks
      · rw [Array.size_push]
        exact Nat.succ_pos _
      · rw [Array.size_push]
        omega

theorem toChunks_cons (h : 0 < n) (x : α) (l : List α) : (x :: l).toChunks n = toChunks.go n l #[x] #[] := by
  obtain ⟨m, rfl⟩ := Nat.exists_eq_add_of_lt h
  simp [toChunks]

theorem flatten_toChunks (n : Nat) (l : List α) : (l.toChunks n).flatten = l := by
  match n, l with
  | n, [] => cases n with
    | _ => rfl
  | 0, x :: l => simp [toChunks]
  | n + 1, x :: l =>
    rw [toChunks_cons (Nat.succ_pos n), flatten_toChunks_go]
    rfl

theorem bounds_of_mem_toChunks (h : 0 < n) (l : List α) : ∀ c ∈ l.toChunks n, c ≠ [] ∧ c.length ≤ n := by
  cases l with
  | nil =>
    cases n with
    | _ => exact fun c hc => nomatch hc
  | cons x l =>
    rw [toChunks_cons h]
    exact bounds_of_mem_toChunks_go Nat.one_pos h (fun c hc => nomatch hc)

end List
