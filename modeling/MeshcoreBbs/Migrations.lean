import MeshcoreBbs.Lib.Coroutine
import MeshcoreBbs.Text

/-!
# Migrations that are cut short

`connect` and `_run_migrations` over SQL statements of any kind, each committed on its own.
The version is written after the last statement of a script: a process that stops inside a
script leaves statements that the version does not vouch for, and the next start runs them
again.  `restart_completes_iff` says when a restart still gets every script done once.
-/

namespace Bbs

open Coroutine

namespace Migrations

variable {Sql σ : Type}

inductive DbOp (Sql : Type)
  | pragma (setting : Text)
  | userVersion
  | statement (sql : Sql)
  | setUserVersion (version : Nat)

@[reducible] def DbOp.Res : DbOp Sql → Type
  | userVersion => Nat
  | _ => Unit

/-- A program on the one connection. -/
abbrev Connection (Sql : Type) := Coroutine (DbOp Sql) DbOp.Res

abbrev request (op : DbOp Sql) : Connection Sql op.Res := perform op

/-- The database file: what the statements have made of it, `user_version`, and the
statements themselves. -/
structure DbFile (Sql σ : Type) where
  schema : σ
  userVersion : Nat
  executed : List Sql
  deriving DecidableEq

section Definitions

variable (exec : Sql → σ → Option σ) (scripts : List (List Sql))

def DbOp.run : (op : DbOp Sql) → DbFile Sql σ → Option op.Res × DbFile Sql σ
  | pragma _, db => (some (), db)
  | userVersion, db => (some db.userVersion, db)
  | statement sql, db =>
    match exec sql db.schema with
    | some schema => (some (), { db with schema, executed := db.executed ++ [sql] })
    | none => (none, db)
  | setUserVersion version, db => (some (), { db with userVersion := version })

/-- `executescript`. -/
def executescript (script : List Sql) : Connection Sql Unit :=
  forEach (fun sql => request (.statement sql)) script

/-- The body of the loop in `_run_migrations`, for `MIGRATIONS[i]`. -/
def applyMigration (migration : List Sql × Nat) : Connection Sql Unit := do
  executescript migration.1
  request (.setUserVersion (migration.2 + 1))

def runMigrations : Connection Sql Unit := do
  let current ← request .userVersion
  forEach applyMigration (scripts.zipIdx.drop current)

def connect : Connection Sql Unit := do
  request (.pragma (lit "journal_mode=WAL"))
  request (.pragma (lit "foreign_keys=ON"))
  request (.pragma (lit "synchronous=NORMAL"))
  request (.pragma (lit "busy_timeout=5000"))
  runMigrations scripts

/-- The statements one after the other. -/
def execs : List Sql → σ → Option σ
  | [], schema => some schema
  | sql :: sqls, schema => (exec sql schema).bind (execs sqls)

/-- A database that the first `version` scripts have made from `schema₀`. -/
structure UpTo (schema₀ : σ) (version : Nat) (db : DbFile Sql σ) : Prop where
  userVersion : db.userVersion = version
  executed : db.executed = (scripts.take version).flatten
  schema : execs exec (scripts.take version).flatten schema₀ = some db.schema

/-- `connect` has succeeded, with every script applied once and the version to say so. -/
def Completes (result : Option Unit × DbFile Sql σ) : Prop :=
  result.1 = some () ∧ result.2.executed = scripts.flatten ∧
    result.2.userVersion = scripts.length

/-- How many statements of a script whose version is not written are among the first `n`
statements, those that write a version included. -/
def inProgress : List (List Sql) → Nat → Nat
  | [], _ => 0
  | script :: rest, n => if n ≤ script.length then n else inProgress rest (n - script.length - 1)

end Definitions

section Restart

variable {exec : Sql → σ → Option σ} {scripts : List (List Sql)} {db db' : DbFile Sql σ}

theorem execs_append (as bs : List Sql) (schema : σ) :
    execs exec (as ++ bs) schema = (execs exec as schema).bind (execs exec bs) := by
  induction as generalizing schema with
  | nil => rfl
  | cons sql as ih =>
    rw [List.cons_append, execs, execs, Option.bind_assoc]
    exact congrArg _ (funext ih)

theorem execs_of_append {as bs : List Sql} {schema : σ}
    (h : (execs exec (as ++ bs) schema).isSome = true) :
    ∃ schema', execs exec as schema = some schema' ∧ (execs exec bs schema').isSome = true := by
  rw [execs_append] at h
  cases has : execs exec as schema with
  | none =>
    rw [has] at h
    cases h
  | some schema' =>
    rw [has] at h
    exact ⟨schema', rfl, h⟩

/-! ## A run to the end -/

theorem run_statement {sql : Sql} {schema : σ} (h : exec sql db.schema = some schema) :
    DbOp.run exec (.statement sql) db =
      (some (), { db with schema, executed := db.executed ++ [sql] }) := by
  rw [DbOp.run, h]

theorem run_executescript {script : List Sql} {schema : σ}
    (h : execs exec script db.schema = some schema) :
    (executescript script).run (DbOp.run exec) db =
      (some (), { db with schema, executed := db.executed ++ script }) := by
  induction script generalizing db with
  | nil =>
    cases h
    rw [List.append_nil]
    rfl
  | cons sql script ih =>
    obtain ⟨next, hsql, hrest⟩ := Option.bind_eq_some_iff.mp h
    rw [executescript, forEach, run_bind_of_some ((run_perform ..).trans (run_statement hsql))]
    refine (@ih { db with schema := next, executed := db.executed ++ [sql] } hrest).trans ?_
    rw [List.append_assoc, List.singleton_append]

theorem executescript_raises {script : List Sql} (h : execs exec script db.schema = none) :
    ((executescript script).run (DbOp.run exec) db).1 = none := by
  induction script generalizing db with
  | nil => cases h
  | cons sql script ih =>
    rw [executescript, forEach]
    cases hsql : exec sql db.schema with
    | none =>
      have hraise : (request (.statement sql)).run (DbOp.run exec) db = (none, db) := by
        rw [run_perform, DbOp.run, hsql]
      rw [run_bind, hraise, Option.elim_none]
    | some next =>
      rw [execs, hsql, Option.bind_some] at h
      rw [run_bind_of_some ((run_perform ..).trans (run_statement hsql))]
      exact ih h

/-- The rest of the migrations from the version that the file has. -/
theorem run_migrations {i : Nat} {todo : List (List Sql)} {schema : σ}
    (hi : db.userVersion = i) (h : execs exec todo.flatten db.schema = some schema) :
    (forEach applyMigration (todo.zipIdx i)).run (DbOp.run exec) db =
      (some (), ⟨schema, i + todo.length, db.executed ++ todo.flatten⟩) := by
  induction todo generalizing i db with
  | nil =>
    cases h
    subst hi
    simp only [List.flatten_nil, List.append_nil]
    rfl
  | cons script todo ih =>
    rw [List.flatten_cons, execs_append] at h
    obtain ⟨next, hscript, hrest⟩ := Option.bind_eq_some_iff.mp h
    rw [List.zipIdx_cons, forEach, applyMigration, bind_assoc,
      run_bind_of_some (run_executescript hscript)]
    refine (@ih ⟨next, i + 1, db.executed ++ script⟩ (i + 1) rfl hrest).trans ?_
    rw [List.length_cons, List.flatten_cons, List.append_assoc, Nat.add_right_comm, Nat.add_assoc]

theorem migrations_raise {i : Nat} {todo : List (List Sql)}
    (h : execs exec todo.flatten db.schema = none) :
    ((forEach applyMigration (todo.zipIdx i)).run (DbOp.run exec) db).1 = none := by
  induction todo generalizing i db with
  | nil => cases h
  | cons script todo ih =>
    rw [List.zipIdx_cons, forEach, applyMigration, bind_assoc]
    cases hscript : execs exec script db.schema with
    | none => rw [run_bind, executescript_raises hscript, Option.elim_none]
    | some next =>
      rw [List.flatten_cons, execs_append, hscript, Option.bind_some] at h
      rw [run_bind_of_some (run_executescript hscript)]
      exact @ih ⟨next, i + 1, db.executed ++ script⟩ _ h

theorem drop_zipIdx {α : Type} (k : Nat) (l : List α) (i : Nat) :
    (l.zipIdx i).drop k = (l.drop k).zipIdx (i + k) := by
  induction k generalizing l i with
  | zero => rfl
  | succ k ih =>
    cases l with
    | nil => rfl
    | cons a l => rw [List.zipIdx_cons, List.drop_succ_cons, List.drop_succ_cons, ih,
        Nat.add_right_comm, Nat.add_assoc]

theorem run_connect (scripts : List (List Sql)) (db : DbFile Sql σ) :
    (connect scripts).run (DbOp.run exec) db =
      (forEach applyMigration ((scripts.drop db.userVersion).zipIdx db.userVersion)).run
        (DbOp.run exec) db := by
  show (forEach applyMigration (scripts.zipIdx.drop db.userVersion)).run (DbOp.run exec) db = _
  rw [drop_zipIdx, Nat.zero_add]

/-! ## A run that is stopped -/

/-- Stopped inside the script, or before its version is written. -/
theorem after_executescript_le {script : List Sql} {schema : σ} {n : Nat}
    {m : Unit → Connection Sql Unit} (h : execs exec script db.schema = some schema)
    (hn : n ≤ script.length) : ∃ schema', execs exec (script.take n) db.schema = some schema' ∧
      (executescript script >>= m).after (DbOp.run exec) n db =
        { db with schema := schema', executed := db.executed ++ script.take n } := by
  induction script generalizing db n with
  | nil =>
    cases Nat.le_zero.mp hn
    exact ⟨db.schema, rfl, by simp⟩
  | cons sql script ih =>
    cases n with
    | zero => exact ⟨db.schema, rfl, by simp⟩
    | succ n =>
      obtain ⟨next, hsql, hrest⟩ := Option.bind_eq_some_iff.mp h
      obtain ⟨schema', hexec, hafter⟩ :=
        @ih { db with schema := next, executed := db.executed ++ [sql] } _ hrest
          (Nat.le_of_succ_le_succ hn)
      refine ⟨schema', ?_, ?_⟩
      · rw [List.take_succ_cons, execs, hsql, Option.bind_some, hexec]
      · rw [executescript, forEach, bind_assoc, after_perform_bind (run_statement hsql)]
        refine hafter.trans ?_
        rw [List.take_succ_cons, List.append_assoc, List.singleton_append]

/-- Stopped after the script. -/
theorem after_executescript_add {script : List Sql} {schema : σ} (n : Nat)
    {m : Unit → Connection Sql Unit} (h : execs exec script db.schema = some schema) :
    (executescript script >>= m).after (DbOp.run exec) (script.length + n) db =
      (m ()).after (DbOp.run exec) n { db with schema, executed := db.executed ++ script } := by
  induction script generalizing db with
  | nil =>
    cases h
    rw [List.append_nil, List.length_nil, Nat.zero_add]
    rfl
  | cons sql script ih =>
    obtain ⟨next, hsql, hrest⟩ := Option.bind_eq_some_iff.mp h
    rw [executescript, forEach, bind_assoc, List.length_cons, Nat.add_right_comm,
      after_perform_bind (run_statement hsql)]
    refine (@ih { db with schema := next, executed := db.executed ++ [sql] } hrest).trans ?_
    rw [List.append_assoc, List.singleton_append]

/-- Where the migrations stand when they are stopped: `done` is written, and the first
`partly` statements of `todo` have run. -/
structure Stopped (exec : Sql → σ → Option σ) (db stopped : DbFile Sql σ)
    (done todo : List (List Sql)) (partly : Nat) : Prop where
  partly_le : partly ≤ todo.flatten.length
  userVersion : stopped.userVersion = db.userVersion + done.length
  executed : stopped.executed = db.executed ++ (done.flatten ++ todo.flatten.take partly)
  schema : execs exec (done.flatten ++ todo.flatten.take partly) db.schema = some stopped.schema

theorem stopped_at {i : Nat} {todo : List (List Sql)} (hi : db.userVersion = i)
    (h : (execs exec todo.flatten db.schema).isSome = true) (n : Nat) :
    ∃ done todo', todo = done ++ todo' ∧
      Stopped exec db ((forEach applyMigration (todo.zipIdx i)).after (DbOp.run exec) n db) done
        todo' (inProgress todo n) := by
  induction todo generalizing i db n with
  | nil =>
    have hstop : (forEach applyMigration (([] : List (List Sql)).zipIdx i)).after (DbOp.run exec)
        n db = db := after_finish ..
    rw [hstop]
    exact ⟨[], [], rfl, Nat.zero_le _, rfl, (List.append_nil _).symm, rfl⟩
  | cons script todo ih =>
    rw [List.flatten_cons] at h
    obtain ⟨next, hscript, hrest⟩ := execs_of_append h
    rw [List.zipIdx_cons, forEach, applyMigration, bind_assoc, inProgress]
    split
    · next hn =>
      obtain ⟨schema', hexec, hafter⟩ := after_executescript_le
        (m := fun _ => request (.setUserVersion (i + 1)) >>= fun _ =>
          forEach applyMigration (todo.zipIdx (i + 1))) hscript hn
      refine ⟨[], script :: todo, rfl, ?_, ?_, ?_, ?_⟩
      · rw [List.flatten_cons, List.length_append]
        omega
      all_goals rw [hafter]
      · rfl
      · simp [List.take_append_of_le_length hn]
      · simpa [List.take_append_of_le_length hn] using hexec
    · next hn =>
      obtain ⟨k, rfl⟩ : ∃ k, n = script.length + (k + 1) := ⟨n - script.length - 1, by omega⟩
      rw [after_executescript_add _ hscript, after_perform_bind rfl]
      obtain ⟨done, todo', rfl, hstop⟩ :=
        @ih ⟨next, i + 1, db.executed ++ script⟩ (i + 1) rfl hrest k
      rw [show script.length + (k + 1) - script.length - 1 = k by omega]
      refine ⟨script :: done, todo', rfl, hstop.partly_le, ?_, ?_, ?_⟩
      · rw [hstop.userVersion, List.length_cons, hi]
        dsimp only
        omega
      · rw [hstop.executed, List.flatten_cons, List.append_assoc, List.append_assoc]
      · rw [List.flatten_cons, List.append_assoc, execs_append, hscript]
        exact hstop.schema

/-! ## The restart -/

/-- The version is read after four pragmas. -/
theorem after_connect (scripts : List (List Sql)) (n : Nat) (db : DbFile Sql σ) :
    (connect scripts).after (DbOp.run exec) n db =
      (forEach applyMigration ((scripts.drop db.userVersion).zipIdx db.userVersion)).after
        (DbOp.run exec) (n - 5) db := by
  match n with
  | 0 | 1 | 2 | 3 | 4 => exact (after_zero ..).symm
  | n + 5 =>
    show (forEach applyMigration (scripts.zipIdx.drop db.userVersion)).after
      (DbOp.run exec) n db = _
    rw [drop_zipIdx, Nat.zero_add]
    rfl

/-- **When a restart completes.**  The process stops after `n` operations of `connect` on a
database that the first `start` scripts have made.  The next `connect` gets every script done
exactly once, and the version to say so, exactly if no statement has run of a script whose
version was not written. -/
theorem restart_completes_iff {schema₀ : σ} {start : Nat}
    (hall : (execs exec scripts.flatten schema₀).isSome = true)
    (hdb : UpTo exec scripts schema₀ start db) (n : Nat) :
    Completes scripts ((connect scripts).run (DbOp.run exec)
        ((connect scripts).after (DbOp.run exec) n db)) ↔
      start ≤ scripts.length ∧ inProgress (scripts.drop start) (n - 5) = 0 := by
  obtain ⟨rfl, hexecuted, hschema⟩ := hdb
  have hsplit : scripts.flatten =
      (scripts.take db.userVersion).flatten ++ (scripts.drop db.userVersion).flatten := by
    rw [← List.flatten_append, List.take_append_drop]
  have hlater : (execs exec (scripts.drop db.userVersion).flatten db.schema).isSome = true := by
    rw [hsplit, execs_append, hschema] at hall
    exact hall
  obtain ⟨done, todo, htodo, hstop⟩ := stopped_at rfl hlater (n - 5)
  rw [after_connect]
  generalize (forEach applyMigration ((scripts.drop db.userVersion).zipIdx db.userVersion)).after
    (DbOp.run exec) (n - 5) db = stopped at hstop ⊢
  generalize inProgress (scripts.drop db.userVersion) (n - 5) = partly at hstop ⊢
  have hflat : (scripts.drop db.userVersion).flatten = done.flatten ++ todo.flatten := by
    rw [htodo, List.flatten_append]
  have hlength : scripts.length - db.userVersion = done.length + todo.length := by
    rw [← List.length_drop, htodo, List.length_append]
  have hrest : scripts.drop stopped.userVersion = todo := by
    rw [hstop.userVersion, ← List.drop_drop, htodo, List.drop_left]
  rw [run_connect, hrest]
  constructor
  · rintro ⟨hok, hexecuted', hversion⟩
    cases hexec : execs exec todo.flatten stopped.schema with
    | none =>
      rw [migrations_raise hexec] at hok
      cases hok
    | some schema =>
      rw [run_migrations rfl hexec] at hexecuted' hversion
      have hcount := congrArg List.length hexecuted'
      have hle := hstop.partly_le
      dsimp only at hversion
      rw [hstop.userVersion] at hversion
      simp only [hstop.executed, hexecuted, hsplit, hflat, List.length_append, List.length_take]
        at hcount
      omega
  · rintro ⟨hle, rfl⟩
    have hdone : execs exec done.flatten db.schema = some stopped.schema := by
      simpa using hstop.schema
    rw [hflat, execs_append, hdone, Option.bind_some] at hlater
    obtain ⟨schema, hexec⟩ := Option.isSome_iff_exists.mp hlater
    rw [run_migrations rfl hexec]
    refine ⟨rfl, ?_, ?_⟩
    · simp [hstop.executed, hexecuted, hsplit, hflat]
    · dsimp only
      rw [hstop.userVersion]
      omega

end Restart

/-! ## The scripts of the repository -/

/-- The kinds of statement in `MIGRATIONS`, with the columns that they name. -/
inductive Ddl
  | createTable (table : Text) (columns : List Text)
  | createIndex (index table : Text) (columns : List Text)
  | addColumn (table column : Text)
  deriving DecidableEq

structure Schema where
  tables : List (Text × List Text) := []
  indexes : List Text := []
  deriving DecidableEq

/-- Tables and indexes share their names. -/
def Schema.hasName (schema : Schema) (name : Text) : Bool :=
  schema.tables.any (fun table => table.1 = name) || schema.indexes.contains name

def Ddl.exec : Ddl → Schema → Option Schema
  | createTable table columns, schema =>
    if schema.hasName table then none
    else some { schema with tables := schema.tables ++ [(table, columns)] }
  | createIndex index table columns, schema =>
    if schema.hasName index then none
    else if schema.tables.any fun t => t.1 = table && columns.all t.2.contains then
      some { schema with indexes := schema.indexes ++ [index] }
    else none
  | addColumn table column, schema =>
    if schema.tables.any fun t => t.1 = table && !t.2.contains column then
      some { schema with tables := schema.tables.map fun t =>
        if t.1 = table then (t.1, t.2 ++ [column]) else t }
    else none

def migrations : List (List Ddl) := [
  [.createTable (lit "users") [lit "pubkey", lit "display_name", lit "display_name_lc",
      lit "adv_name", lit "first_seen", lit "last_seen", lit "msg_count", lit "onboarded",
      lit "motd_sent", lit "banned", lit "banned_reason"],
    .createIndex (lit "idx_users_display") (lit "users") [lit "display_name_lc"],
    .createTable (lit "sessions") [lit "pubkey", lit "state", lit "updated_at"],
    .createTable (lit "boards") [lit "slug", lit "description", lit "created_at"],
    .createTable (lit "board_posts") [lit "id", lit "board_slug", lit "author_pubkey", lit "body",
      lit "ts", lit "deleted"],
    .createIndex (lit "idx_posts_board_ts") (lit "board_posts") [lit "board_slug", lit "ts"],
    .createTable (lit "mail") [lit "id", lit "from_pubkey", lit "to_pubkey", lit "body",
      lit "sent_at", lit "read_at", lit "deleted"],
    .createIndex (lit "idx_mail_to_unread") (lit "mail") [lit "to_pubkey", lit "read_at",
      lit "deleted"],
    .createTable (lit "news_feeds") [lit "id", lit "slug", lit "url", lit "enabled"],
    .createTable (lit "news_items") [lit "id", lit "feed_id", lit "title", lit "url", lit "ts",
      lit "hash"],
    .createIndex (lit "idx_news_ts") (lit "news_items") [lit "ts"],
    .createTable (lit "weather_cache") [lit "location_key", lit "payload", lit "fetched_at"],
    .createTable (lit "rate_limits") [lit "pubkey", lit "bucket", lit "window_start", lit "count"],
    .createTable (lit "audit_log") [lit "id", lit "ts", lit "actor_pubkey", lit "action",
      lit "detail"],
    .createTable (lit "outbound_queue") [lit "id", lit "to_pubkey", lit "body", lit "enqueued_at",
      lit "attempts", lit "next_attempt", lit "status", lit "priority"],
    .createIndex (lit "idx_outbound_pending") (lit "outbound_queue") [lit "status",
      lit "priority", lit "next_attempt"]],
  [.addColumn (lit "users") (lit "last_hops")],
  [.addColumn (lit "outbound_queue") (lit "trigger_command"),
    .addColumn (lit "outbound_queue") (lit "msg_kind")],
  [.createTable (lit "outbound_pause") [lit "pubkey", lit "paused_until"]]]

/-- A new file. -/
def newFile : DbFile Ddl Schema := ⟨{}, 0, []⟩

theorem upTo_newFile : UpTo Ddl.exec migrations {} 0 newFile := ⟨rfl, rfl, rfl⟩

/-- Stopped when the first script and its version are written. -/
theorem restart_completes_iff_between : Completes migrations
    ((connect migrations).run (DbOp.run Ddl.exec)
      ((connect migrations).after (DbOp.run Ddl.exec) 22 newFile)) :=
  (restart_completes_iff (by decide +kernel) upTo_newFile 22).mpr (by decide +kernel)

/-- Stopped after `CREATE TABLE users`: the restart fails, for the table exists. -/
theorem restart_fails : (execs Ddl.exec migrations.flatten {}).isSome = true ∧
    UpTo Ddl.exec migrations {} 0 newFile ∧
    ((connect migrations).run (DbOp.run Ddl.exec)
      ((connect migrations).after (DbOp.run Ddl.exec) 6 newFile)).1 = none ∧
    ¬ Completes migrations ((connect migrations).run (DbOp.run Ddl.exec)
      ((connect migrations).after (DbOp.run Ddl.exec) 6 newFile)) := by
  have hraise : ((connect migrations).run (DbOp.run Ddl.exec)
      ((connect migrations).after (DbOp.run Ddl.exec) 6 newFile)).1 = none := by decide +kernel
  refine ⟨by decide +kernel, upTo_newFile, hraise, fun h => ?_⟩
  cases hraise.symm.trans h.1

end Migrations

end Bbs
