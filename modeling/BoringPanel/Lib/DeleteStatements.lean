import BoringPanel.Lib.ClickHouse

/-!
# `DELETE` statements in ClickHouse

Conditions on the rows of a table, the rows that a list of `DELETE` statements leaves, and when they
spare the rows of a kind (`spares_iff`): when no statement's condition holds of such a row. A condition
may select from another table, which the statements before it must not have touched.
-/

namespace ClickHouse

/-- A row: texts, and maps, in which a missing key gives the empty text. What the row is for does not
stand in a column. -/
structure Row (α : Type) where
  info : α
  text : String → String
  map : String → String → String

abbrev Tables (α : Type) := String → List (Row α)

inductive Condition where
  /-- `column['key'] = 'value'` -/
  | mapEq (column key value : String)
  /-- `column = 'value'` -/
  | eq (column value : String)
  /-- `startsWith(column, 'start')` -/
  | startsWith (column start : String)
  /-- `column LIKE 'body'` -/
  | like (column body : String)
  /-- `JSONExtractString(column, 'key') = 'value'` -/
  | jsonEq (column key value : String)
  | or (c d : Condition)
  /-- `column IN (SELECT column FROM table WHERE ...)` -/
  | inSelect (column table : String) (c : Condition)
deriving DecidableEq

structure Delete where
  table : String
  condition : Condition
deriving DecidableEq

namespace Condition

def toSql : Condition → String
  | mapEq column key value => column ++ "['" ++ key ++ "'] = '" ++ value ++ "'"
  | eq column value => column ++ " = '" ++ value ++ "'"
  | startsWith column start => "startsWith(" ++ column ++ ", '" ++ start ++ "')"
  | like column body => column ++ " LIKE '" ++ body ++ "'"
  | jsonEq column key value =>
    "JSONExtractString(" ++ column ++ ", '" ++ key ++ "') = '" ++ value ++ "'"
  | or c d => c.toSql ++ " OR " ++ d.toSql
  | inSelect column table c =>
    column ++ " IN (SELECT " ++ column ++ " FROM " ++ table ++ " WHERE " ++ c.toSql ++ ")"

/-- The tables that a condition selects from. -/
def selects : Condition → List String
  | or c d => c.selects ++ d.selects
  | inSelect _ table c => table :: c.selects
  | _ => []

end Condition

def Delete.toSql (s : Delete) : String :=
  "ALTER TABLE " ++ s.table ++ " DELETE WHERE " ++ s.condition.toSql ++
    " SETTINGS mutations_sync = 1"

section Semantics

variable {α : Type} (jsonExtractString : String → String → String) (db : Tables α)

/-- The condition holds of a row. -/
def Condition.Holds : Condition → Row α → Prop
  | .mapEq column key value, r => r.map column key = value
  | .eq column value, r => r.text column = value
  | .startsWith column start, r => start.toList <+: (r.text column).toList
  | .like column body, r => ClickHouse.like (r.text column).toList body.toList
  | .jsonEq column key value, r => jsonExtractString (r.text column) key = value
  | .or c d, r => Holds c r ∨ Holds d r
  | .inSelect column table c, r => ∃ r' ∈ db table, Holds c r' ∧ r'.text column = r.text column

instance Condition.decidableHolds : (c : Condition) → (r : Row α) →
    Decidable (c.Holds jsonExtractString db r)
  | .mapEq column key value, r => inferInstanceAs (Decidable (r.map column key = value))
  | .eq column value, r => inferInstanceAs (Decidable (r.text column = value))
  | .startsWith column start, r =>
    inferInstanceAs (Decidable (start.toList <+: (r.text column).toList))
  | .like column body, r =>
    inferInstanceAs (Decidable (ClickHouse.like (r.text column).toList body.toList))
  | .jsonEq column key value, r =>
    inferInstanceAs (Decidable (jsonExtractString (r.text column) key = value))
  | .or c d, r =>
    have := decidableHolds c r
    have := decidableHolds d r
    inferInstanceAs (Decidable (_ ∨ _))
  | .inSelect column table c, r =>
    have := fun r' => decidableHolds c r'
    inferInstanceAs (Decidable (∃ r' ∈ db table, c.Holds jsonExtractString db r' ∧
      r'.text column = r.text column))

/-- The tables after the statement. -/
def Delete.exec (s : Delete) : Tables α :=
  Function.update db s.table
    ((db s.table).filter fun r => ¬ s.condition.Holds jsonExtractString db r)

/-- The tables after the statements, one after the other. -/
def run (statements : List Delete) : Tables α :=
  statements.foldl (fun db s => s.exec jsonExtractString db) db

end Semantics

variable {α : Type} {jsonExtractString : String → String → String} {db db' : Tables α}
  {statements : List Delete} {r : Row α} {t : String}

/-- More rows in the tables, more rows that are selected. -/
theorem Condition.Holds.mono {c : Condition} (hsub : ∀ t, ∀ r ∈ db' t, r ∈ db t)
    (h : c.Holds jsonExtractString db' r) : c.Holds jsonExtractString db r := by
  induction c generalizing r with
  | or c d ihc ihd => exact Or.imp ihc ihd h
  | inSelect column table c ih =>
    obtain ⟨r', hr', hc, heq⟩ := h
    exact ⟨r', hsub table r' hr', ih hc, heq⟩
  | _ => exact h

theorem Condition.holds_congr {c : Condition} (heq : ∀ t ∈ c.selects, db t = db' t) :
    c.Holds jsonExtractString db r ↔ c.Holds jsonExtractString db' r := by
  induction c generalizing r with
  | or c d ihc ihd =>
    exact or_congr (ihc fun t ht => heq t (List.mem_append_left _ ht))
      (ihd fun t ht => heq t (List.mem_append_right _ ht))
  | inSelect column table c ih =>
    have hrest : ∀ t ∈ c.selects, db t = db' t := fun t ht => heq t (List.mem_cons_of_mem table ht)
    simp only [Holds, heq table List.mem_cons_self, ih hrest]
  | _ => exact Iff.rfl

theorem run_append (l₁ l₂ : List Delete) : run jsonExtractString db (l₁ ++ l₂) =
    run jsonExtractString (run jsonExtractString db l₁) l₂ := List.foldl_append ..

theorem mem_exec {s : Delete} : r ∈ s.exec jsonExtractString db t ↔
    r ∈ db t ∧ (t = s.table → ¬ s.condition.Holds jsonExtractString db r) := by
  unfold Delete.exec
  by_cases ht : t = s.table
  · subst ht
    simp
  · simp [ht]

/-- Statements only delete. -/
theorem mem_of_mem_run : r ∈ run jsonExtractString db statements t → r ∈ db t := by
  induction statements using List.reverseRecOn with
  | nil => exact id
  | append_singleton statements s ih =>
    intro h
    rw [run_append] at h
    exact ih (mem_exec.mp h).1

/-- Other tables stay as they are. -/
theorem run_of_ne (h : ∀ s ∈ statements, s.table ≠ t) :
    run jsonExtractString db statements t = db t := by
  induction statements using List.reverseRecOn with
  | nil => rfl
  | append_singleton statements s ih =>
    rw [run_append, ← ih fun s' hs' => h s' (List.mem_append_left _ hs')]
    exact Function.update_of_ne (h s (by simp)).symm _ _

/-- **The statements spare the rows of a kind, however many are executed, exactly if no condition holds
of such a row.** -/
theorem spares_iff {P : Row α → Prop}
    (hselects : statements.Pairwise fun s s' => s.table ∉ s'.condition.selects) :
    (∀ k t r, r ∈ db t → P r → r ∈ run jsonExtractString db (statements.take k) t) ↔
      ∀ s ∈ statements, ∀ r ∈ db s.table, P r → ¬ s.condition.Holds jsonExtractString db r := by
  constructor
  · intro h s hs r hr hP hholds
    obtain ⟨l₁, l₂, rfl⟩ := List.append_of_mem hs
    have htake : (l₁ ++ s :: l₂).take (l₁.length + 1) = l₁ ++ [s] := by
      rw [List.take_length_add_append]
      rfl
    have hmem := h (l₁.length + 1) s.table r hr hP
    rw [htake, run_append] at hmem
    refine (mem_exec.mp hmem).2 rfl ((Condition.holds_congr fun t ht => ?_).mp hholds)
    refine (run_of_ne fun s' hs' => ?_).symm
    rintro rfl
    exact (List.pairwise_append.mp hselects).2.2 s' hs' s List.mem_cons_self ht
  · intro h k t r hr hP
    have hfirst : ∀ s ∈ statements.take k, s ∈ statements := fun s hs => List.mem_of_mem_take hs
    generalize statements.take k = l at hfirst
    induction l using List.reverseRecOn with
    | nil => exact hr
    | append_singleton l s ih =>
      rw [run_append]
      refine mem_exec.mpr ⟨ih fun s' hs' => hfirst s' (List.mem_append_left _ hs'), ?_⟩
      rintro rfl hholds
      -- what a condition selects now was there before
      exact h s (hfirst s (by simp)) r hr hP (hholds.mono fun t r => mem_of_mem_run)

end ClickHouse
