import BoringPanel.Lib.CallQueue
import BoringPanel.Lib.JsText

/-!
# The database client

`WasmSQLiteClient`: a database in memory, which is written to its file after each call that writes. The
calls take effect one at a time in their order, and each of them settles. A call that is rejected may
still have changed the database in memory: its transaction, if it has one, is committed before the file is
written (`keepsOnFailure_iff_oneAtATime`).

SQLite is a parameter, with what it documents of transactions. The file has the contents of the database.
-/

namespace AgentService.WasmSQLite

open CallQueue

/-! ### Statements -/

/-- `DatabaseValue`; numbers are a parameter. -/
inductive DatabaseValue (N : Type) where
  | string (s : JsText)
  | number (n : N)
  | bigint (n : Int)
  | boolean (b : Bool)
  | bytes (b : List UInt8)
  | null

inductive SqlValue (N : Type) where
  | string (s : JsText)
  | number (n : N)
  | bytes (b : List UInt8)
  | null

structure DatabaseStatement (N : Type) where
  sql : JsText
  args : List (DatabaseValue N)

def bindValue {N : Type} (toNumber : Int → N) : DatabaseValue N → SqlValue N
  | .boolean b => .number (toNumber (if b then 1 else 0))
  | .bigint n => .number (toNumber n)
  | .string s => .string s
  | .number n => .number n
  | .bytes b => .bytes b
  | .null => .null

def bindValues {N : Type} (toNumber : Int → N) (values : List (DatabaseValue N)) : List (SqlValue N) :=
  values.map (bindValue toNumber)

/-- What follows the white space and the comments `--` at the beginning; `true` is within a comment. -/
def statementStart : Bool → JsText → JsText
  | _, [] => []
  | true, c :: s => statementStart (c ≠ 0x0a) s
  | false, c :: s =>
    if JsText.isSpace c then statementStart false s
    else if c = 0x2d ∧ s.head? = some 0x2d then statementStart true s
    else c :: s

def writeKeywords : List JsText :=
  ["INSERT", "UPDATE", "DELETE", "REPLACE", "CREATE", "ALTER", "DROP", "PRAGMA", "VACUUM", "BEGIN", "COMMIT",
    "ROLLBACK"].map JsText.of

def isWrite (sql : JsText) : Bool :=
  writeKeywords.any fun keyword =>
    (keyword.map JsText.toLower).isPrefixOf ((statementStart false sql).map JsText.toLower)

/-! ### SQLite -/

/-- An open database: its contents and, in a transaction, those that a rollback restores. -/
structure Connection (D : Type) where
  contents : D
  saved : Option D

/-- The database after it was closed and opened again: an open transaction is rolled back. -/
def Connection.reopened {D : Type} (c : Connection D) : Connection D := ⟨c.saved.getD c.contents, none⟩

def beginImmediate : JsText := JsText.of "BEGIN IMMEDIATE"

def commit : JsText := JsText.of "COMMIT"

def rollback : JsText := JsText.of "ROLLBACK"

/-- What the client uses of `sql.js`: a prepared statement that is bound and stepped to its end, and
`database.run`. -/
structure SqlJs (N D R E : Type) where
  toNumber : Int → N
  step : Connection D → JsText → List (SqlValue N) → Connection D × Except E R
  exec : Connection D → JsText → Connection D × Except E Unit
  /-- There is no transaction within another one. -/
  exec_begin : ∀ c, (∃ err, exec c beginImmediate = (c, .error err)) ∨
    c.saved = none ∧ exec c beginImmediate = (⟨c.contents, some c.contents⟩, .ok ())
  /-- The transaction remains open when it cannot be committed, or is rolled back. -/
  exec_commit : ∀ c, (∃ err, exec c commit = (c, .error err) ∨ exec c commit = (c.reopened, .error err)) ∨
    c.saved ≠ none ∧ exec c commit = (⟨c.contents, none⟩, .ok ())
  /-- Without a transaction there is nothing to restore. -/
  exec_rollback : ∀ c, (exec c rollback).1 = c.reopened

/-! ### The client -/

inductive Rejection (E : Type) where
  | sql (err : E)
  | closed
  | file

/-- The client: its database, until it is closed, and the file. -/
structure World (D : Type) where
  database : Option (Connection D)
  file : Option D

def contentsOf {D : Type} (database : Option (Connection D)) : Option D :=
  database.map Connection.contents

def World.contents {D : Type} (w : World D) : Option D := contentsOf w.database

inductive Mode where
  | read
  | write
deriving DecidableEq

inductive Call (N : Type) where
  | execute (statement : DatabaseStatement N)
  | batch (statements : List (DatabaseStatement N)) (mode : Mode)
  | close

def Call.closes {N : Type} : Call N → Bool
  | .execute _ => false
  | .batch _ _ => false
  | .close => true

section Client

variable {N D R E : Type} (lib : SqlJs N D R E)

/-- A use of a database that may be closed. -/
def use {α : Type} (f : Connection D → Connection D × Except E α) :
    Option (Connection D) → Option (Connection D) × Except (Rejection E) α
  | none => (none, .error .closed)
  | some c => (some (f c).1, (f c).2.mapError .sql)

def run (statement : DatabaseStatement N) (database : Option (Connection D)) :
    Option (Connection D) × Except (Rejection E) R :=
  use (fun c => lib.step c statement.sql (bindValues lib.toNumber statement.args)) database

/-- `statements.map((statement) => this.run(statement))` -/
def runAll : List (DatabaseStatement N) → Option (Connection D) →
    Option (Connection D) × Except (Rejection E) (List R)
  | [], database => (database, .ok [])
  | statement :: statements, database =>
    match run lib statement database with
    | (left, .error err) => (left, .error err)
    | (left, .ok result) =>
      ((runAll statements left).1, (runAll statements left).2.map (result :: ·))

/-- One of the statements of the transaction, if there is one. -/
def control (transaction : Bool) (sql : JsText) (database : Option (Connection D)) :
    Option (Connection D) × Except (Rejection E) Unit :=
  if transaction then use (fun c => lib.exec c sql) database else (database, .ok ())

/-- What `execute` does before it writes the file, and whether it does. -/
def executed (statement : DatabaseStatement N) (database : Option (Connection D)) :
    Option (Connection D) × Except (Rejection E) (List R × Bool) :=
  match run lib statement database with
  | (left, .error err) => (left, .error err)
  | (left, .ok result) => (left, .ok ([result], isWrite statement.sql))

/-- The same for `batch`. The transaction is not open anymore when the file is written. -/
def batched (statements : List (DatabaseStatement N)) (transaction : Bool)
    (database : Option (Connection D)) :
    Option (Connection D) × Except (Rejection E) (List R × Bool) :=
  match control lib transaction beginImmediate database with
  | (left, .error err) => (left, .error err)
  | (left, .ok ()) =>
    match runAll lib statements left with
    | (left, .error err) => ((control lib transaction rollback left).1, .error err)
    | (left, .ok results) =>
      match control lib transaction commit left with
      | (left, .error err) => ((control lib transaction rollback left).1, .error err)
      | (left, .ok ()) =>
        (left, .ok (results, transaction || statements.any fun statement => isWrite statement.sql))

def queried : Call N → Option (Connection D) →
    Option (Connection D) × Except (Rejection E) (List R × Bool)
  | .execute statement => executed lib statement
  | .batch statements mode => batched lib statements (mode = .write)
  | .close => fun database => (database, .ok ([], true))

/-! ### Writing the file -/

/-- What `persist` waits for. -/
inductive Saving (D : Type) where
  | mkdir
  /-- The temporary file has these contents when this succeeds. -/
  | writeFile (bytes : D)
  | rename (bytes : D)

structure Pending (D R : Type) where
  saving : Saving D
  results : List R
  closing : Bool

def start (call : Call N) (w : World D) :
    World D × (Pending D R ⊕ Except (Rejection E) (List R)) :=
  match queried lib call w.database with
  | (left, .error err) => ({ w with database := left }, .inr (.error err))
  | (left, .ok (results, false)) => ({ w with database := left }, .inr (.ok results))
  | (left, .ok (results, true)) =>
    ({ w with database := left }, .inl ⟨.mkdir, results, call.closes⟩)

/-- The file system has answered, whether it could do what was asked. -/
def resume (pending : Pending D R) (done : Bool) (w : World D) :
    World D × (Pending D R ⊕ Except (Rejection E) (List R)) :=
  if done then
    match pending.saving with
    | .mkdir =>
      match w.database with
      | none => (w, .inr (.error .closed))
      -- `export` closes the database and opens it again
      | some c => ({ w with database := some c.reopened },
          .inl { pending with saving := .writeFile c.reopened.contents })
    | .writeFile bytes => (w, .inl { pending with saving := .rename bytes })
    | .rename bytes => ({ database := if pending.closing then none else w.database, file := some bytes },
        .inr (.ok pending.results))
  else (w, .inr (.error .file))

def Saving.rank : Saving D → Nat
  | .mkdir => 2
  | .writeFile _ => 1
  | .rename _ => 0

/-- The operations of a client. -/
def client : Operations (Call N) (Pending D R) Bool (World D) (Except (Rejection E) (List R)) where
  start := start lib
  resume := resume
  rank pending := pending.saving.rank
  rank_resume pending done w pending' h := by
    unfold resume at h
    split at h
    · split at h
      · rename_i hsaving
        rw [hsaving]
        split at h
        · cases h
        · obtain rfl := Sum.inl.inj h
          exact Nat.one_lt_two
      · rename_i hsaving
        obtain rfl := Sum.inl.inj h
        rw [hsaving]
        exact Nat.one_pos
      · cases h
    · cases h

/-- What the file system cannot do while a call is in progress. -/
structure Faults where
  mkdir : Bool
  writeFile : Bool
  rename : Bool
deriving Inhabited

def Faults.some (faults : Faults) : Bool := faults.mkdir || faults.writeFile || faults.rename

/-- `persist`, with nothing in between. -/
def persist (faults : Faults) (w : World D) : World D × Except (Rejection E) Unit :=
  if faults.mkdir then (w, .error .file)
  else match w.database with
    | none => (w, .error .closed)
    | some c =>
      if faults.writeFile || faults.rename then
        ({ w with database := some c.reopened }, .error .file)
      else (⟨some c.reopened, some c.reopened.contents⟩, .ok ())

/-- The end of a call that writes the file. -/
def finish (closing : Bool) (results : List R) (faults : Faults) (w : World D) :
    World D × Except (Rejection E) (List R) :=
  match persist faults w with
  | (left, .error err) => (left, .error err)
  | (left, .ok ()) => ({ left with database := if closing then none else left.database }, .ok results)

/-- A call, with nothing in between. -/
def perform (call : Call N) (faults : Faults) (w : World D) :
    World D × Except (Rejection E) (List R) :=
  match queried lib call w.database with
  | (left, .error err) => ({ w with database := left }, .error err)
  | (left, .ok (results, false)) => ({ w with database := left }, .ok results)
  | (left, .ok (results, true)) => finish call.closes results faults { w with database := left }

end Client

/-! ### One call after another -/

section Performs

variable {N D R E : Type} {lib : SqlJs N D R E} {call : Call N} {w w' : World D}
  {o : Except (Rejection E) (List R)}

theorem ends_mkdir_iff {results : List R} {closing : Bool} :
    Ends (client lib) (w, .inl ⟨.mkdir, results, closing⟩) w' o ↔
      ∃ faults, finish closing results faults w = (w', o) := by
  obtain ⟨database, file⟩ := w
  rw [ends_inl_iff]
  constructor
  · -- each answer is one of the faults, or none of them
    rintro ⟨_ | _, h⟩
    · obtain ⟨rfl, rfl⟩ := ends_inr_iff.mp h
      exact ⟨⟨true, false, false⟩, rfl⟩
    · cases database with
      | none =>
        obtain ⟨rfl, rfl⟩ := ends_inr_iff.mp h
        exact ⟨⟨false, false, false⟩, rfl⟩
      | some c =>
        obtain ⟨_ | _, h⟩ := ends_inl_iff.mp h
        · obtain ⟨rfl, rfl⟩ := ends_inr_iff.mp h
          exact ⟨⟨false, true, false⟩, rfl⟩
        · obtain ⟨_ | _, h⟩ := ends_inl_iff.mp h
          · obtain ⟨rfl, rfl⟩ := ends_inr_iff.mp h
            exact ⟨⟨false, false, true⟩, rfl⟩
          · obtain ⟨rfl, rfl⟩ := ends_inr_iff.mp h
            exact ⟨⟨false, false, false⟩, rfl⟩
  · rintro ⟨⟨mkdir, writeFile, rename⟩, h⟩
    cases mkdir with
    | true =>
      obtain ⟨rfl, rfl⟩ := Prod.mk.inj h
      exact ⟨false, ends_inr_iff.mpr ⟨rfl, rfl⟩⟩
    | false =>
      refine ⟨true, ?_⟩
      cases database with
      | none =>
        obtain ⟨rfl, rfl⟩ := Prod.mk.inj h
        exact ends_inr_iff.mpr ⟨rfl, rfl⟩
      | some c =>
        refine ends_inl_iff.mpr ?_
        cases writeFile with
        | true =>
          obtain ⟨rfl, rfl⟩ := Prod.mk.inj h
          exact ⟨false, ends_inr_iff.mpr ⟨rfl, rfl⟩⟩
        | false =>
          refine ⟨true, ends_inl_iff.mpr ⟨!rename, ?_⟩⟩
          cases rename with
          | true =>
            obtain ⟨rfl, rfl⟩ := Prod.mk.inj h
            exact ends_inr_iff.mpr ⟨rfl, rfl⟩
          | false =>
            obtain ⟨rfl, rfl⟩ := Prod.mk.inj h
            exact ends_inr_iff.mpr ⟨rfl, rfl⟩

/-- What a call ends in, alone. -/
theorem performs_iff : Performs (client lib) call w w' o ↔ ∃ faults, perform lib call faults w = (w', o) := by
  show Ends (client lib) (start lib call w) w' o ↔ _
  unfold start perform
  rcases queried lib call w.database with ⟨left, err | ⟨results, writes⟩⟩
  · refine ends_inr_iff.trans ?_
    simp
  · cases writes with
    | false =>
      refine ends_inr_iff.trans ?_
      simp
    | true => exact ends_mkdir_iff

end Performs

/-! ### A call that is rejected -/

section Rejected

variable {N D R E : Type} (lib : SqlJs N D R E)

/-- A call that is rejected has changed neither the database nor the file. -/
def KeepsOnFailure (call : Call N) (faults : Faults) (w : World D) : Prop :=
  ∀ left err, perform lib call faults w = (left, .error err) →
    left.contents = w.contents ∧ left.file = w.file

/-- What is left when the file cannot be written. -/
def unwritten (faults : Faults) (database : Option (Connection D)) : Option (Connection D) :=
  if faults.mkdir then database else database.map Connection.reopened

/-- Without a transaction, nothing was changed: by the statements up to one that fails, or by all of them
if they write and the file cannot be written. -/
def HarmlessOutside (statements : List (DatabaseStatement N)) (faults : Faults) (w : World D) : Prop :=
  match runAll lib statements w.database with
  | (left, .error _) => contentsOf left = w.contents
  | (left, .ok _) => (statements.any fun statement => isWrite statement.sql) = true →
      faults.some = true → contentsOf (unwritten faults left) = w.contents

/-- In a transaction, a rollback restores what was there if a statement or the end of the transaction
fails, and the statements have changed nothing if the file cannot be written. -/
def HarmlessInside (statements : List (DatabaseStatement N)) (faults : Faults) (c : Connection D) : Prop :=
  match runAll lib statements (some ⟨c.contents, some c.contents⟩) with
  | (left, .error _) => contentsOf (left.map Connection.reopened) = some c.contents
  | (left, .ok _) => ∀ d ∈ left, match (lib.exec d commit).2 with
    | .error _ => d.reopened.contents = c.contents
    | .ok _ => faults.some = true → d.contents = c.contents

def Harmless (call : Call N) (faults : Faults) (w : World D) : Prop :=
  match call with
  | .execute statement => HarmlessOutside lib [statement] faults w
  | .batch statements .read => HarmlessOutside lib statements faults w
  | .batch statements .write => ∀ c ∈ w.database, (lib.exec c beginImmediate).2.isOk = true →
      HarmlessInside lib statements faults c
  | .close => faults.some = true → contentsOf (unwritten faults w.database) = w.contents

variable {lib} {faults : Faults} {w : World D} {database : Option (Connection D)}

theorem use_fst_eq_none {α : Type} {f : Connection D → Connection D × Except E α} :
    (use f database).1 = none ↔ database = none := by
  cases database with
  | none => exact iff_of_true rfl rfl
  | some c => exact iff_of_false (Option.some_ne_none _) (Option.some_ne_none _)

theorem runAll_fst_eq_none {statements : List (DatabaseStatement N)} :
    (runAll lib statements database).1 = none ↔ database = none := by
  induction statements generalizing database with
  | nil => exact Iff.rfl
  | cons statement statements ih =>
    have hrun : (run lib statement database).1 = none ↔ database = none := use_fst_eq_none
    unfold runAll
    revert hrun
    rcases run lib statement database with ⟨left, err | result⟩
    · exact id
    · exact ih.trans

section Finish

variable {closing : Bool} {results : List R} {file : Option D}

theorem finish_of_fault (c : Connection D) (hfault : faults.some = true) :
    finish (E := E) closing results faults ⟨some c, file⟩ =
      (⟨unwritten faults (some c), file⟩, .error .file) := by
  obtain ⟨mkdir, writeFile, rename⟩ := faults
  cases mkdir with
  | true => rfl
  | false =>
    have hlater : (writeFile || rename) = true := hfault
    simp [finish, persist, unwritten, hlater]

theorem finish_of_no_fault (c : Connection D) (hfault : faults.some = false) :
    finish (E := E) closing results faults ⟨some c, file⟩ =
      (⟨if closing then none else some c.reopened, some c.reopened.contents⟩, .ok results) := by
  obtain ⟨mkdir, writeFile, rename⟩ := faults
  obtain ⟨⟨rfl, rfl⟩, rfl⟩ : (mkdir = false ∧ writeFile = false) ∧ rename = false := by
    simpa [Faults.some] using hfault
  rfl

theorem finish_of_closed : ∃ err, finish (E := E) closing results faults ⟨none, file⟩ =
    (⟨none, file⟩, .error err) := by
  obtain ⟨mkdir, writeFile, rename⟩ := faults
  cases mkdir with
  | true => exact ⟨.file, rfl⟩
  | false => exact ⟨.closed, rfl⟩

/-- The end of a call that writes the file, when it is rejected. -/
theorem finish_keeps_iff (hopen : database = none → w.database = none) :
    (∀ left (err : Rejection E), finish closing results faults ⟨database, w.file⟩ = (left, .error err) →
      left.contents = w.contents ∧ left.file = w.file) ↔
      (faults.some = true → contentsOf (unwritten faults database) = w.contents) := by
  cases database with
  | none =>
    have hw : w.contents = none := by
      rw [World.contents, hopen rfl]
      rfl
    obtain ⟨err, hfinish⟩ : ∃ err : Rejection E, finish closing results faults ⟨none, w.file⟩ =
        (⟨none, w.file⟩, .error err) := finish_of_closed
    refine iff_of_true ?_ ?_
    · intro left err h
      rw [hfinish] at h
      obtain ⟨rfl, -⟩ := Prod.mk.inj h
      exact ⟨hw.symm, rfl⟩
    · intro _
      rw [hw, unwritten]
      split
      · rfl
      · rfl
  | some c =>
    cases hfault : faults.some with
    | false =>
      rw [finish_of_no_fault c hfault]
      simp
    | true =>
      rw [finish_of_fault c hfault]
      simp [World.contents]

end Finish

section Queried

variable {call : Call N} {left : Option (Connection D)} {results : List R} {err : Rejection E}

theorem keeps_iff_of_error (h : queried lib call w.database = (left, .error err)) :
    KeepsOnFailure lib call faults w ↔ contentsOf left = w.contents := by
  have hperform : perform lib call faults w = (⟨left, w.file⟩, .error err) := by
    rw [perform, h]
  rw [KeepsOnFailure, hperform]
  simp [World.contents]

theorem keeps_of_read (h : queried lib call w.database = (left, .ok (results, false))) :
    KeepsOnFailure lib call faults w := by
  intro left' err hperform
  rw [perform, h] at hperform
  cases hperform

theorem keeps_iff_of_write (h : queried lib call w.database = (left, .ok (results, true)))
    (hopen : left = none → w.database = none) :
    KeepsOnFailure lib call faults w ↔
      (faults.some = true → contentsOf (unwritten faults left) = w.contents) := by
  have hperform : perform lib call faults w = finish call.closes results faults ⟨left, w.file⟩ := by
    rw [perform, h]
  rw [KeepsOnFailure, hperform]
  exact finish_keeps_iff hopen

end Queried

variable {statement : DatabaseStatement N} {statements : List (DatabaseStatement N)}

theorem keeps_execute_iff :
    KeepsOnFailure lib (.execute statement) faults w ↔ HarmlessOutside lib [statement] faults w := by
  rcases hrun : run lib statement w.database with ⟨left, err | result⟩
  · have hqueried : queried lib (.execute statement) w.database = (left, .error err) := by
      simp [queried, executed, hrun]
    rw [keeps_iff_of_error hqueried]
    simp [HarmlessOutside, runAll, hrun]
  · have hqueried : queried lib (.execute statement) w.database =
        (left, .ok ([result], isWrite statement.sql)) := by
      simp [queried, executed, hrun]
    have hopen : left = none → w.database = none := by
      rintro rfl
      exact use_fst_eq_none.mp (congrArg Prod.fst hrun)
    cases hwrite : isWrite statement.sql with
    | false =>
      rw [hwrite] at hqueried
      refine iff_of_true (keeps_of_read hqueried) ?_
      simp [HarmlessOutside, runAll, hrun, hwrite, Except.map]
    | true =>
      rw [hwrite] at hqueried
      rw [keeps_iff_of_write hqueried hopen]
      simp [HarmlessOutside, runAll, hrun, hwrite, Except.map]

theorem keeps_read_iff :
    KeepsOnFailure lib (.batch statements .read) faults w ↔ HarmlessOutside lib statements faults w := by
  unfold HarmlessOutside
  rcases hrun : runAll lib statements w.database with ⟨left, err | results⟩
  · have hqueried : queried lib (.batch statements .read) w.database = (left, .error err) := by
      simp [queried, batched, control, hrun]
    exact keeps_iff_of_error hqueried
  · have hqueried : queried lib (.batch statements .read) w.database =
        (left, .ok (results, statements.any fun statement => isWrite statement.sql)) := by
      simp [queried, batched, control, hrun]
    have hopen : left = none → w.database = none := by
      rintro rfl
      exact runAll_fst_eq_none.mp (congrArg Prod.fst hrun)
    cases hwrite : statements.any fun statement => isWrite statement.sql with
    | false =>
      rw [hwrite] at hqueried
      refine iff_of_true (keeps_of_read hqueried) ?_
      intro h
      cases h
    | true =>
      rw [hwrite] at hqueried
      rw [keeps_iff_of_write hqueried hopen]
      simp

theorem control_true (sql : JsText) (c : Connection D) : control lib true sql (some c) =
    (some (lib.exec c sql).1, (lib.exec c sql).2.mapError .sql) := rfl

/-- A rollback restores what was there when the transaction began. -/
theorem control_rollback (left : Option (Connection D)) :
    (control lib true rollback left).1 = left.map Connection.reopened := by
  cases left with
  | none => rfl
  | some d => exact congrArg some (lib.exec_rollback d)

theorem reopened_reopened (c : Connection D) : c.reopened.reopened = c.reopened := rfl

theorem keeps_write_iff : KeepsOnFailure lib (.batch statements .write) faults w ↔
    ∀ c ∈ w.database, (lib.exec c beginImmediate).2.isOk = true → HarmlessInside lib statements faults c := by
  obtain ⟨database, file⟩ := w
  cases database with
  | none =>
    have hqueried : queried lib (.batch statements .write) none = (none, .error .closed) := rfl
    rw [keeps_iff_of_error hqueried]
    simp [World.contents]
  | some c =>
    rcases lib.exec_begin c with ⟨err, hbegin⟩ | ⟨-, hbegin⟩
    · have hqueried : queried lib (.batch statements .write) (some c) = (some c, .error (.sql err)) := by
        simp [queried, batched, control, use, hbegin, Except.mapError]
      rw [keeps_iff_of_error hqueried]
      simp [World.contents, hbegin, Except.isOk, Except.toBool]
    · have hopened : control lib true beginImmediate (some c) =
          (some ⟨c.contents, some c.contents⟩, .ok ()) := by
        simp [control, use, hbegin, Except.mapError]
      have hharmless : (∀ d ∈ some c, (lib.exec d beginImmediate).2.isOk = true →
          HarmlessInside lib statements faults d) ↔ HarmlessInside lib statements faults c := by
        simp [hbegin, Except.isOk, Except.toBool]
      rw [hharmless, HarmlessInside]
      rcases hrun : runAll lib statements (some ⟨c.contents, some c.contents⟩) with ⟨left, err | results⟩
      · have hqueried : queried lib (.batch statements .write) (some c) =
            (left.map Connection.reopened, .error err) := by
          have hrollback : (control lib true rollback left).1 = left.map Connection.reopened :=
            control_rollback left
          rw [← hrollback]
          simp [queried, batched, hopened, hrun]
        exact keeps_iff_of_error hqueried
      · -- the statements have run, so that the database is open
        obtain ⟨d, rfl⟩ : ∃ d, left = some d := by
          refine Option.ne_none_iff_exists'.mp fun hnone => ?_
          have := runAll_fst_eq_none.mp ((congrArg Prod.fst hrun).trans hnone)
          cases this
        simp only [Option.mem_def, Option.some.injEq, forall_eq']
        have hend : control lib true commit (some d) =
            (some (lib.exec d commit).1, (lib.exec d commit).2.mapError .sql) := control_true commit d
        rcases lib.exec_commit d with ⟨err, hcommit | hcommit⟩ | ⟨-, hcommit⟩
        · rw [hcommit] at hend
          have hqueried : queried lib (.batch statements .write) (some c) =
              (some d.reopened, .error (.sql err)) := by
            simp [queried, batched, hopened, hrun, hend, control_rollback, Except.mapError]
          rw [keeps_iff_of_error hqueried, hcommit]
          exact Option.some_inj
        · rw [hcommit] at hend
          have hqueried : queried lib (.batch statements .write) (some c) =
              (some d.reopened, .error (.sql err)) := by
            simp [queried, batched, hopened, hrun, hend, control_rollback, Except.mapError, reopened_reopened]
          rw [keeps_iff_of_error hqueried, hcommit]
          exact Option.some_inj
        · rw [hcommit] at hend
          have hqueried : queried lib (.batch statements .write) (some c) =
              (some ⟨d.contents, none⟩, .ok (results, true)) := by
            simp [queried, batched, hopened, hrun, hend, Except.mapError]
          have hleft : contentsOf (unwritten faults (some ⟨d.contents, none⟩)) = some d.contents := by
            rw [unwritten]
            split
            · rfl
            · rfl
          rw [keeps_iff_of_write hqueried (by simp), hcommit, hleft]
          exact imp_congr_right fun _ => Option.some_inj

/-- **When a call that is rejected has changed nothing.** -/
theorem keepsOnFailure_iff {call : Call N} : KeepsOnFailure lib call faults w ↔ Harmless lib call faults w := by
  cases call with
  | execute statement => exact keeps_execute_iff
  | batch statements mode =>
    cases mode with
    | read => exact keeps_read_iff
    | write => exact keeps_write_iff
  | close => exact keeps_iff_of_write rfl id

/-! Statements that leave the transaction to `batch` -/

/-- A statement that leaves an open transaction open, and that changes nothing when it fails. -/
def Ordinary (lib : SqlJs N D R E) (statement : DatabaseStatement N) : Prop :=
  ∀ c args, (lib.step c statement.sql args).1.saved = c.saved ∧
    ((lib.step c statement.sql args).2.isOk = false → (lib.step c statement.sql args).1.contents = c.contents)

theorem saved_runAll (hordinary : ∀ statement ∈ statements, Ordinary lib statement) {c d : Connection D}
    (h : d ∈ (runAll lib statements (some c)).1) : d.saved = c.saved := by
  induction statements generalizing c with
  | nil =>
    obtain rfl := Option.some.inj h
    rfl
  | cons statement statements ih =>
    obtain ⟨left, result, hrun, hsaved⟩ : ∃ left result,
        run lib statement (some c) = (some left, result) ∧ left.saved = c.saved :=
      ⟨_, _, rfl, (hordinary statement List.mem_cons_self c _).1⟩
    rw [runAll, hrun] at h
    cases result with
    | error err =>
      obtain rfl := Option.some.inj h
      exact hsaved
    | ok result =>
      calc d.saved = left.saved := ih (fun s hs => hordinary s (List.mem_cons_of_mem _ hs)) h
        _ = c.saved := hsaved

/-- **A batch of such statements takes effect as a whole or not at all**, unless the file cannot be written. -/
theorem keepsOnFailure_write_of_ordinary (hordinary : ∀ statement ∈ statements, Ordinary lib statement)
    (hfaults : faults.some = false) : KeepsOnFailure lib (.batch statements .write) faults w := by
  refine keepsOnFailure_iff.mpr ?_
  intro c _ _
  have hreopened : ∀ d ∈ (runAll lib statements (some ⟨c.contents, some c.contents⟩)).1,
      d.reopened.contents = c.contents := by
    intro d hd
    rw [Connection.reopened, saved_runAll hordinary hd]
    rfl
  have hopen : (runAll lib statements (some ⟨c.contents, some c.contents⟩)).1 ≠ none := fun hnone =>
    absurd (runAll_fst_eq_none.mp hnone) (Option.some_ne_none _)
  unfold HarmlessInside
  revert hreopened hopen
  rcases runAll lib statements (some ⟨c.contents, some c.contents⟩) with ⟨left, err | results⟩
  · intro hreopened hopen
    obtain ⟨d, rfl⟩ := Option.ne_none_iff_exists'.mp hopen
    exact congrArg some (hreopened d rfl)
  · intro hreopened _ d hd
    split
    · exact hreopened d hd
    · intro hfault
      rw [hfaults] at hfault
      cases hfault

end Rejected

/-- **When a call that is rejected has changed nothing, and how concurrent calls take effect**: each of
them as if it were alone, in the order of the calls, and in the end all of them. -/
theorem keepsOnFailure_iff_oneAtATime {N D R E : Type} (lib : SqlJs N D R E) :
    (∀ call faults w, KeepsOnFailure lib call faults w ↔ Harmless lib call faults w) ∧
      (∀ call w w' o, Performs (client lib) call w w' o ↔ ∃ faults, perform lib call faults w = (w', o)) ∧
      (∀ w as s, Run (Step (client lib)) ⟨w, []⟩ as s →
        Serial (client lib) w s ∧ s.calls.map Prod.fst = called as) ∧
      ∀ ex : Execution (client lib), ex.Fair → ∀ (n i : Nat) call stage,
        (ex.state n).calls[i]? = some (call, stage) →
          ∃ k, n ≤ k ∧ ∃ o, (ex.state k).calls[i]? = some (call, Stage.settled o) :=
  ⟨fun _ _ _ => keepsOnFailure_iff, fun _ _ _ _ => performs_iff,
    fun _ _ _ h => ⟨serial_of_run h, calls_of_run h⟩, fun _ hfair _ _ _ _ h => Execution.settles hfair h⟩

/-! ### A file that cannot be written -/

section Examples

/-- Each statement adds one to the contents. -/
def counting : SqlJs Unit Nat Unit Unit where
  toNumber _ := ()
  step c _ _ := (⟨c.contents + 1, c.saved⟩, .ok ())
  exec c sql :=
    if sql = beginImmediate then
      if c.saved = none then (⟨c.contents, some c.contents⟩, .ok ()) else (c, .error ())
    else if sql = commit then
      if c.saved = none then (c, .error ()) else (⟨c.contents, none⟩, .ok ())
    else (c.reopened, if c.saved = none then .error () else .ok ())
  exec_begin c := by
    by_cases hsaved : c.saved = none
    · exact .inr ⟨hsaved, by simp [hsaved]⟩
    · exact .inl ⟨(), by simp [hsaved]⟩
  exec_commit c := by
    have hne : commit ≠ beginImmediate := by decide
    by_cases hsaved : c.saved = none
    · exact .inl ⟨(), .inl (by simp [hne, hsaved])⟩
    · exact .inr ⟨hsaved, by simp [hne, hsaved]⟩
  exec_rollback c := by
    have hbegin : rollback ≠ beginImmediate := by decide
    have hcommit : rollback ≠ commit := by decide
    simp [hbegin, hcommit]

def insertStatement : DatabaseStatement Unit := ⟨JsText.of "INSERT INTO t VALUES (1)", []⟩

/-- The batch is rejected in a transaction that is open already. -/
theorem keepsOnFailure_write_of_ordinary_insert :
    KeepsOnFailure counting (.batch [insertStatement] .write) ⟨false, false, false⟩ ⟨some ⟨0, some 0⟩, some 0⟩ :=
  keepsOnFailure_write_of_ordinary (fun _ _ _ _ => ⟨rfl, nofun⟩) rfl

/-- The row is inserted although the file cannot be replaced. -/
theorem not_keepsOnFailure_insert : ¬ ∀ (call : Call Unit) (faults : Faults) (w : World Nat),
    KeepsOnFailure counting call faults w := by
  intro h
  have hkept := (h (.execute insertStatement) ⟨false, false, true⟩ ⟨some ⟨0, none⟩, some 0⟩
    ⟨some ⟨1, none⟩, some 0⟩ .file rfl).1
  cases hkept

end Examples

end AgentService.WasmSQLite
