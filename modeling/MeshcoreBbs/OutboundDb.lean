import Mathlib.Data.List.Sort
import Mathlib.Logic.Function.Basic
import MeshcoreBbs.Lib.RowTable
import MeshcoreBbs.Text

/-!
# The outbound tables (`db.py`, outbound queue section)

`outbound_queue`, `outbound_pause` and `audit_log`, with one function for each
SQL statement on them.  A Python accessor that awaits between two statements is
split here into its statements; the tasks that run them are in the modules on
the worker and on the requests.

SQLite may return either of two rows that tie in `ORDER BY priority DESC,
enqueued_at ASC`, so `claimNextOutbound` takes the chosen row as an argument and
checks it.
-/

namespace Bbs

abbrev Pubkey := Text

/-- `status` of an outbound row. -/
inductive Status
  | pending
  | sent
  | failed
  | dropped
  | cancelled
  deriving DecidableEq, Repr

/-- Columns of `outbound_queue` other than `id`. -/
structure OutboundRow where
  toPubkey : Pubkey
  body : Text
  enqueuedAt : Int
  attempts : Nat := 0
  nextAttempt : Int
  status : Status := .pending
  priority : Int := 0
  triggerCommand : Option Text := none
  msgKind : Text := lit "response"
  deriving DecidableEq

structure OutboundMessage extends OutboundRow where
  id : Nat
  deriving DecidableEq

structure AuditRow where
  ts : Int
  actorPubkey : Option Pubkey
  action : Text
  detail : Text
  deriving DecidableEq

/-- The tables that the outbound worker and the queue requests share;
`outbound_pause` is keyed by recipient. -/
structure Db where
  outbound : RowTable OutboundRow
  pause : Pubkey → Option Int
  audit : List AuditRow

/-- A new database. -/
def Db.empty : Db := ⟨.empty, fun _ => none, []⟩

/-- The row that `enqueue_outbound` inserts. -/
def newOutboundRow (toPubkey : Pubkey) (body : Text) (now priority : Int)
    (triggerCommand : Option Text) (msgKind : Text) : OutboundRow :=
  { toPubkey := toPubkey, body := body, enqueuedAt := now, nextAttempt := now,
    priority := priority, triggerCommand := triggerCommand, msgKind := msgKind }

def outboundRowToMessage (id : Nat) (row : OutboundRow) : OutboundMessage :=
  { row with id := id, msgKind := if row.msgKind.isEmpty then lit "response" else row.msgKind }

namespace Db

variable (db : Db)

def enqueueOutbound (row : OutboundRow) : Db :=
  { db with outbound := db.outbound.insert row }

/-- `status = 'pending' AND next_attempt <= now`. -/
def ready (now : Int) (row : OutboundRow) : Bool :=
  row.status = .pending && row.nextAttempt ≤ now

/-- `a` may come before `b` in `ORDER BY priority DESC, enqueued_at ASC`. -/
def ordersBefore (a b : OutboundRow) : Bool :=
  b.priority < a.priority || (a.priority = b.priority && a.enqueuedAt ≤ b.enqueuedAt)

/-- `claim_next_outbound`, with the row that SQLite returns; `none` when it may not
return that row. -/
def claimNextOutbound (now : Int) : Option Nat → Option (Option OutboundMessage)
  | none => if db.outbound.rows.all fun p => !ready now p.2 then some none else none
  | some id =>
    match db.outbound.get? id with
    | none => none
    | some row =>
      if ready now row && db.outbound.rows.all fun p => !ready now p.2 || ordersBefore row p.2 then
        some (some (outboundRowToMessage id row))
      else none

def setStatus (id : Nat) (status : Status) : Db :=
  { db with outbound := db.outbound.modify id fun row => { row with status } }

def markOutboundSent (id : Nat) : Db := db.setStatus id .sent

def markOutboundFailed (id : Nat) : Db := db.setStatus id .failed

/-- `SELECT COALESCE(MAX(enqueued_at), 0)` over the pending rows. -/
def maxEnqueuedAt : Int :=
  (((db.outbound.rows.filter fun p => p.2.status = .pending).map fun p => p.2.enqueuedAt).max?).getD 0

/-- The `UPDATE` of `reschedule_outbound` with `requeue_to_back`. -/
def requeueOutbound (id : Nat) (nextAttempt : Int) (attempts : Nat) (backAt : Int) : Db :=
  { db with outbound := db.outbound.modify id fun row =>
      { row with nextAttempt, attempts, enqueuedAt := backAt } }

def dropStaleOutbound (beforeTs : Int) : Db :=
  { db with outbound := db.outbound.mapRows fun _ row =>
      if row.status = .pending ∧ row.enqueuedAt < beforeTs then { row with status := .dropped }
      else row }

def outboundPendingDepth : Nat :=
  (db.outbound.rows.filter fun p => p.2.status = .pending).length

def getPendingOutbound (id : Nat) : Option OutboundMessage :=
  match db.outbound.get? id with
  | some row => if row.status = .pending then some (outboundRowToMessage id row) else none
  | none => none

/-- The `UPDATE` of `cancel_outbound`. -/
def setCancelled (id : Nat) : Db := db.setStatus id .cancelled

/-- The `INSERT` of `pause_outbound_recipient`. -/
def setPause (pubkey : Pubkey) (pausedUntil : Int) : Db :=
  { db with pause := Function.update db.pause pubkey (some pausedUntil) }

/-- The `DELETE` of `get_outbound_pause_until`. -/
def deletePause (pubkey : Pubkey) : Db :=
  { db with pause := Function.update db.pause pubkey none }

/-- The rows that `pause_outbound_recipient` goes through. -/
def pendingFor (pubkey : Pubkey) : List OutboundMessage :=
  (db.outbound.rows.filter fun p => p.2.status = .pending && p.2.toPubkey = pubkey).map fun p =>
    outboundRowToMessage p.1 p.2

/-- `ORDER BY priority DESC, enqueued_at ASC, id ASC`. -/
def listedBefore (a b : OutboundMessage) : Bool :=
  b.priority < a.priority || (a.priority = b.priority &&
    (a.enqueuedAt < b.enqueuedAt || (a.enqueuedAt = b.enqueuedAt && a.id ≤ b.id)))

def listPendingOutbound (limit : Nat) : List OutboundMessage :=
  (((db.outbound.rows.filter fun p => p.2.status = .pending).map fun p =>
    outboundRowToMessage p.1 p.2).insertionSort fun a b => listedBefore a b = true).take limit

def purgeOldAudit (beforeTs : Int) : Db :=
  { db with audit := db.audit.filter fun row => beforeTs ≤ row.ts }

/-- The `INSERT` of `audit`. -/
def writeAudit (row : AuditRow) : Db :=
  { db with audit := db.audit ++ [row] }

variable {db}

/-! ## What each statement does to a row -/

@[simp] theorem outboundRowToMessage_id (id : Nat) (row : OutboundRow) :
    (outboundRowToMessage id row).id = id := rfl

theorem ready_iff (now : Int) (row : OutboundRow) :
    ready now row = true ↔ row.status = .pending ∧ row.nextAttempt ≤ now := by
  simp [ready]

/-- The claim returns a ready row that no other ready row precedes strictly. -/
theorem claimNextOutbound_some {now : Int} {pick : Option Nat} {msg : OutboundMessage}
    (h : db.claimNextOutbound now pick = some (some msg)) :
    ∃ id row, pick = some id ∧ db.outbound.get? id = some row ∧ msg = outboundRowToMessage id row ∧
      ready now row = true ∧
      ∀ j other, db.outbound.get? j = some other → ready now other = true →
        ordersBefore row other = true := by
  cases pick with
  | none =>
    simp only [claimNextOutbound] at h
    split at h <;> simp at h
  | some id =>
    simp only [claimNextOutbound] at h
    split at h
    · cases h
    · next row hrow =>
      split at h
      · next hc =>
        simp only [Option.some.injEq] at h
        simp only [Bool.and_eq_true, List.all_eq_true, Bool.or_eq_true, Bool.not_eq_true'] at hc
        refine ⟨id, row, rfl, hrow, h.symm, hc.1, fun j other hj hr => ?_⟩
        rcases hc.2 (j, other) ((db.outbound.mem_rows_iff j other).mpr hj) with h1 | h1
        · rw [hr] at h1
          cases h1
        · exact h1
      · cases h

theorem claimNextOutbound_none {now : Int} {pick : Option Nat}
    (h : db.claimNextOutbound now pick = some none) {id : Nat} {row : OutboundRow}
    (hrow : db.outbound.get? id = some row) : ready now row = false := by
  cases pick with
  | none =>
    simp only [claimNextOutbound] at h
    split at h
    · next hall =>
      simpa using List.all_eq_true.mp hall (id, row) ((db.outbound.mem_rows_iff id row).mpr hrow)
    · cases h
  | some id =>
    simp only [claimNextOutbound] at h
    split at h
    · cases h
    · split at h <;> simp at h

theorem getPendingOutbound_some {id : Nat} {msg : OutboundMessage}
    (h : db.getPendingOutbound id = some msg) :
    ∃ row, db.outbound.get? id = some row ∧ row.status = .pending ∧
      msg = outboundRowToMessage id row := by
  unfold getPendingOutbound at h
  split at h
  · next row hrow =>
    split at h
    · next hp => exact ⟨row, hrow, hp, (Option.some.inj h).symm⟩
    · cases h
  · cases h

theorem mem_pendingFor {pk : Pubkey} {msg : OutboundMessage} :
    msg ∈ db.pendingFor pk ↔
      ∃ id row, db.outbound.get? id = some row ∧ row.status = .pending ∧ row.toPubkey = pk ∧
        msg = outboundRowToMessage id row := by
  simp only [pendingFor, List.mem_map, List.mem_filter, Bool.and_eq_true, decide_eq_true_eq]
  constructor
  · rintro ⟨⟨id, row⟩, ⟨hm, hp, hk⟩, rfl⟩
    exact ⟨id, row, (db.outbound.mem_rows_iff id row).mp hm, hp, hk, rfl⟩
  · rintro ⟨id, row, hg, hp, hk, rfl⟩
    exact ⟨(id, row), ⟨(db.outbound.mem_rows_iff id row).mpr hg, hp, hk⟩, rfl⟩

end Db

/-! ## Statements -/

/-- A statement queued on the connection; `read` stands for any `SELECT`. -/
inductive Stmt
  | read
  | enqueueOutbound (row : OutboundRow)
  | markOutboundSent (id : Nat)
  | markOutboundFailed (id : Nat)
  | requeueOutbound (id : Nat) (nextAttempt : Int) (attempts : Nat) (backAt : Int)
  | dropStaleOutbound (beforeTs : Int)
  | setCancelled (id : Nat)
  | setPause (pubkey : Pubkey) (pausedUntil : Int)
  | deletePause (pubkey : Pubkey)
  | writeAudit (row : AuditRow)

namespace Stmt

def run (db : Db) : Stmt → Db
  | read => db
  | enqueueOutbound row => db.enqueueOutbound row
  | markOutboundSent id => db.markOutboundSent id
  | markOutboundFailed id => db.markOutboundFailed id
  | requeueOutbound id next attempts backAt => db.requeueOutbound id next attempts backAt
  | dropStaleOutbound beforeTs => db.dropStaleOutbound beforeTs
  | setCancelled id => db.setCancelled id
  | setPause pk pausedUntil => db.setPause pk pausedUntil
  | deletePause pk => db.deletePause pk
  | writeAudit row => db.writeAudit row

/-- What the statement makes of the contents of row `j`. -/
def onRow (j : Nat) (row : OutboundRow) : Stmt → OutboundRow
  | markOutboundSent id => if j = id then { row with status := .sent } else row
  | markOutboundFailed id => if j = id then { row with status := .failed } else row
  | requeueOutbound id next attempts backAt =>
    if j = id then { row with nextAttempt := next, attempts := attempts, enqueuedAt := backAt }
    else row
  | dropStaleOutbound beforeTs =>
    if row.status = .pending ∧ row.enqueuedAt < beforeTs then { row with status := .dropped }
    else row
  | setCancelled id => if j = id then { row with status := .cancelled } else row
  | _ => row

/-- The pause table after the statement, at `pk`. -/
def onPause (pk : Pubkey) (stored : Option Int) : Stmt → Option Int
  | setPause pk' pausedUntil => if pk = pk' then some pausedUntil else stored
  | deletePause pk' => if pk = pk' then none else stored
  | _ => stored

theorem seq_run (db : Db) (st : Stmt) :
    (st.run db).outbound.seq =
      match st with
      | enqueueOutbound _ => db.outbound.seq + 1
      | _ => db.outbound.seq := by
  cases st <;> rfl

/-- A row stays and only its contents change. -/
theorem get?_run_of_some {db : Db} {j : Nat} {row : OutboundRow}
    (h : db.outbound.get? j = some row) (st : Stmt) :
    (st.run db).outbound.get? j = some (st.onRow j row) := by
  cases st with
  | enqueueOutbound new => exact RowTable.get?_insert_of_some h new
  | markOutboundSent id | markOutboundFailed id | setCancelled id | requeueOutbound id =>
    refine (RowTable.get?_modify _ _ _ _).trans ?_
    simp only [h, onRow]
    split <;> rfl
  | dropStaleOutbound beforeTs =>
    refine (RowTable.get?_mapRows _ _ _).trans ?_
    simp only [h, onRow, Option.map_some]
  | _ => exact h

/-- A row after a statement is an old row or the one it inserted. -/
theorem get?_run {db : Db} {st : Stmt} {j : Nat} {row' : OutboundRow}
    (h : (st.run db).outbound.get? j = some row') :
    (∃ row, db.outbound.get? j = some row ∧ row' = st.onRow j row) ∨
      st = .enqueueOutbound row' ∧ j = db.outbound.seq + 1 := by
  cases hj : db.outbound.get? j with
  | some row =>
    rw [get?_run_of_some hj, Option.some.injEq] at h
    exact .inl ⟨row, rfl, h.symm⟩
  | none =>
    cases st with
    | enqueueOutbound new =>
      have h := (RowTable.get?_insert _ _ _).symm.trans h
      rw [hj] at h
      split at h
      · next hseq =>
        cases h
        exact .inr ⟨rfl, hseq⟩
      · cases h
    | markOutboundSent id | markOutboundFailed id | setCancelled id | requeueOutbound id =>
      have h := (RowTable.get?_modify _ _ _ _).symm.trans h
      simp [hj] at h
    | dropStaleOutbound beforeTs =>
      have h := (RowTable.get?_mapRows _ _ _).symm.trans h
      simp [hj] at h
    | _ => cases hj.symm.trans h

/-- Only an insertion makes a row. -/
theorem get?_run_eq {db : Db} {st : Stmt} (hnew : ∀ row, st ≠ .enqueueOutbound row) (j : Nat) :
    (st.run db).outbound.get? j = (db.outbound.get? j).map fun row => st.onRow j row := by
  cases hj : db.outbound.get? j with
  | some row => exact get?_run_of_some hj st
  | none =>
    cases hj' : (st.run db).outbound.get? j with
    | none => rfl
    | some row' =>
      rcases get?_run hj' with ⟨row, hrow, -⟩ | ⟨hst, -⟩
      · cases hj.symm.trans hrow
      · exact absurd hst (hnew row')

@[simp] theorem pause_run (db : Db) (st : Stmt) (pk : Pubkey) :
    (st.run db).pause pk = st.onPause pk (db.pause pk) := by
  cases st <;> simp [run, onPause, Db.enqueueOutbound, Db.markOutboundSent, Db.markOutboundFailed,
    Db.setStatus, Db.requeueOutbound, Db.dropStaleOutbound, Db.setCancelled, Db.setPause,
    Db.deletePause, Db.writeAudit, Function.update_apply]

@[simp] theorem onRow_priority (st : Stmt) (j : Nat) (row : OutboundRow) :
    (st.onRow j row).priority = row.priority := by
  cases st <;> simp only [onRow] <;> split <;> rfl

/-- No statement makes a settled row pending again. -/
theorem pending_of_onRow {st : Stmt} {j : Nat} {row : OutboundRow}
    (h : (st.onRow j row).status = .pending) : row.status = .pending := by
  cases st <;> simp only [onRow] at h <;> first | exact h | (split at h <;> simp_all)

end Stmt

end Bbs
