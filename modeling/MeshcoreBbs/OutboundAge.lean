import MeshcoreBbs.OutboundFairness
import MeshcoreBbs.OutboundRestarts

/-!
# Old messages

`_tick` drops the pending rows whose `enqueued_at` is more than a day old, but
every deferral rewrites that column to put the row at the back, so a message can
be sent any time after it was first inserted (`aged_sent`).

`enqueued_at` is the time of the insertion until the row is first put back, and from then on
lies between the time of the last put-back and the back of the queue at that time
(`enqueuedAt_linked`).  So the rule holds in the runs in which no row that is still pending after
a day has been put back too late (`aged_never_sent`), and a put-back that is late by the clock
breaks it (`kept_of_late`).
-/

namespace Bbs

/-! ## Put-backs and their times -/

/-- A row was put back in this second. -/
structure Deferred where
  id : Nat
  second : Int
  deriving DecidableEq

/-- The statement of the step, if it has one, takes effect. -/
def Act.takesEffect : Act → Bool
  | .worker env => env.call ≠ .raises
  | _ => true

/-- The row of the table that the step puts back: deferred or retried by the worker, or moved or
paused by a queue action. -/
def deferred (s : State) (a : Act) : Option Deferred :=
  (puttingBack s a).bind fun (id, _) =>
    if a.takesEffect && (s.db.outbound.get? id).isSome then some ⟨id, ⌊s.clock⌋⟩ else none

/-- Where these put-backs have moved the back of the queue: one second beyond the last of them, or
more when they come faster than one a second. -/
def queueBack (start : Int) : List Deferred → Int
  | [] => start
  | d :: log => max d.second (queueBack start log) + 1

/-- The put-backs up to the last one of the row. -/
def upToLast (id : Nat) (log : List Deferred) : List Deferred := log.dropWhile fun d => d.id ≠ id

/-- `id` was inserted more than `MAX_AGE_SECONDS` before the second `now`. -/
def InsertedBefore (hist : List Event) (now : Int) (id : Nat) : Prop :=
  ∃ call index row, ∃ time : ℚ, .inserted call index id row time ∈ hist ∧
    time + maxAgeSeconds < now

/-- When a tick starts, no row that was inserted more than a day ago and is still pending has been
put back within the day: neither by the clock, nor by the back of the queue. -/
def putBackInTime (start : Int) (s : State) (log : List Deferred) : Act → Bool
  | .worker _ =>
    match s.worker.pc with
    | .sleeping _ => s.hist.all fun e =>
      match e with
      | .inserted _ _ id _ time => !(time + maxAgeSeconds < ⌊s.clock⌋) ||
          !((s.db.outbound.get? id).any fun row => row.status = .pending) ||
          (upToLast id log).isEmpty || queueBack start (upToLast id log) + maxAgeSeconds < ⌊s.clock⌋
      | _ => true
    | _ => true
  | _ => true

section Queue

variable {start : Int} {log : List Deferred} {id : Nat} {d : Deferred}

theorem le_queueBack : start ≤ queueBack start log := by
  induction log with
  | nil => exact le_refl _
  | cons d log ih =>
    rw [queueBack]
    omega

theorem upToLast_cons_self : upToLast d.id (d :: log) = d :: log :=
  List.dropWhile_cons_of_neg (by simp)

theorem upToLast_cons_of_ne (h : d.id ≠ id) : upToLast id (d :: log) = upToLast id log :=
  List.dropWhile_cons_of_pos (by simpa using h)

/-- A row that was never put back. -/
theorem upToLast_eq_nil (h : ∀ d ∈ log, d.id ≠ id) : upToLast id log = [] := by
  rw [upToLast, List.dropWhile_eq_nil_iff]
  exact fun d hd => decide_eq_true (h d hd)

end Queue

variable {limits : LimitsConfig} {s s' : State} {a : Act} {start : Int} {log : List Deferred}
  {row : OutboundRow}

/-! ## What a step does to `enqueued_at` -/

/-- The maximum that was read for a row that is to be put back. -/
def MaxRead (s : State) (m : Int) : Prop :=
  (∃ now id next attempts ending, s.worker.pc = .requeueing now id next attempts m ending) ∨
    (∃ id msg now, .moveBackMax id msg now m ∈ s.tasks) ∨
    ∃ origin pk pausedUntil row rows, .pauseMax origin pk pausedUntil row rows m ∈ s.tasks

theorem maxRead_of_puttingBack {id : Nat} {m : Int} (h : puttingBack s a = some (id, m)) :
    MaxRead s m := by
  cases a with
  | worker env =>
    simp only [puttingBack] at h
    split at h
    · next hpc =>
      cases h
      exact .inl ⟨_, _, _, _, _, hpc⟩
    · cases h
  | serve call =>
    simp only [puttingBack] at h
    split at h
    · next ht =>
      cases h
      exact .inr (.inl ⟨_, _, _, List.mem_of_getElem? ht⟩)
    · next ht =>
      cases h
      exact .inr (.inr ⟨_, _, _, _, _, List.mem_of_getElem? ht⟩)
    · cases h
  | wait | spawn => cases h

/-- A maximum that is kept was kept before, or has just been read. -/
theorem maxRead_step (hs : Step limits s a s') {m : Int} (h : MaxRead s' m) :
    MaxRead s m ∨ m = s.db.maxEnqueuedAt := by
  rcases h with ⟨now, id, next, attempts, ending, hpc⟩ | ⟨id, msg, now, ht⟩ |
    ⟨origin, pk, pausedUntil, row, rows, ht⟩
  · have hworker {env : Env} {mv : WorkerMove} (hm : s.worker.Case limits s.clock s.db env mv)
        (hpc : mv.worker.pc = .requeueing now id next attempts m ending) : m = s.db.maxEnqueuedAt := by
      cases hm <;> cases hpc <;> rfl
    cases hs with
    | wait | spawn | serve => exact .inl (.inl ⟨_, _, _, _, _, hpc⟩)
    | quiet hm | returns hm => exact .inr (hworker hm hpc)
    | raises | raisesAfter => cases hpc
  · rcases hs.tasks ht with ht | hreq | ⟨call, t, st, evs, -, -, hm, -⟩
    · exact .inl (.inr (.inl ⟨_, _, _, ht⟩))
    · cases hreq
    · cases hm
      exact .inr rfl
  · rcases hs.tasks ht with ht | hreq | ⟨call, t, st, evs, -, -, hm, -⟩
    · exact .inl (.inr (.inr ⟨_, _, _, _, _, ht⟩))
    · cases hreq
    · cases hm
      exact .inr rfl

theorem deferred_eq_some {d : Deferred} (h : deferred s a = some d) : ∃ m,
    puttingBack s a = some (d.id, m) ∧ a.takesEffect = true ∧
      (s.db.outbound.get? d.id).isSome = true ∧ d.second = ⌊s.clock⌋ := by
  obtain ⟨⟨id, m⟩, hback, h⟩ := Option.bind_eq_some_iff.mp h
  obtain ⟨hok, h⟩ := Option.ite_none_right_eq_some.mp h
  cases h
  rw [Bool.and_eq_true] at hok
  exact ⟨m, hback, hok.1, hok.2, rfl⟩

theorem Worker.Case.requeueing {env : Env} {m : WorkerMove} {now : Int} {id : Nat}
    {next maxEnqueuedAt : Int} {attempts : Nat} {ending : TickEnd}
    (hm : s.worker.Case limits s.clock s.db env m)
    (hpc : s.worker.pc = .requeueing now id next attempts maxEnqueuedAt ending) :
    m.stmt = some (.requeueOutbound id next attempts (max ⌊s.clock⌋ maxEnqueuedAt + 1)) := by
  cases hm with
  | requeue hpc' =>
    cases hpc.symm.trans hpc'
    rfl
  | defer hdef => cases (hpc ▸ hdef.held :)
  | sendStart hun => cases (hpc ▸ hun.held :)
  | _ hpc' => cases hpc.symm.trans hpc'

/-- The row that is put back. -/
theorem deferred_spec {d : Deferred} (h : deferred s a = some d) (hs : Step limits s a s') :
    d.second = ⌊s.clock⌋ ∧ (s.db.outbound.get? d.id).isSome = true ∧
      ∃ next attempts m, MaxRead s m ∧
        s'.db = s.db.requeueOutbound d.id next attempts (max ⌊s.clock⌋ m + 1) := by
  obtain ⟨m, hback, heffect, hrow, hsecond⟩ := deferred_eq_some h
  have hread := maxRead_of_puttingBack hback
  refine ⟨hsecond, hrow, ?_⟩
  generalize d.id = id at hback ⊢
  cases hs with
  | wait | spawn => cases hback
  | quiet hm hst =>
    simp only [puttingBack] at hback
    split at hback
    · next hpc => cases hst.symm.trans (hm.requeueing hpc)
    · cases hback
  | raises hm hst hcall =>
    rw [Act.takesEffect, hcall] at heffect
    cases heffect
  | returns hm hst | raisesAfter hm hst =>
    simp only [puttingBack] at hback
    split at hback
    · next hpc =>
      cases hback
      cases hst.symm.trans (hm.requeueing hpc)
      exact ⟨_, _, m, hread, rfl⟩
    · cases hback
  | serve ht hm =>
    simp only [puttingBack, ht] at hback
    cases hm with
    | moveBackWrite | pauseRequeue =>
      cases hback
      exact ⟨_, _, m, hread, rfl⟩
    | _ => cases hback

/-- A statement that takes effect. -/
theorem Step.effect (hs : Step limits s a s') :
    s'.db = s.db ∨ ∃ st, s'.db = st.run s.db ∧ Issued s a st ∧ a.takesEffect = true := by
  cases hs with
  | wait | quiet | raises | spawn => exact .inl rfl
  | returns hm hst hcall | raisesAfter hm hst hcall =>
    exact .inr ⟨_, rfl, hm.issued hst, by simp [Act.takesEffect, hcall]⟩
  | serve ht hm => exact .inr ⟨_, rfl, hm.issued ht, rfl⟩

/-- A step that puts no row back leaves the `enqueued_at` of the rows. -/
theorem enqueuedAt_kept (hs : Step limits s a s') (h : deferred s a = none) {id : Nat}
    {row : OutboundRow} (hrow : s.db.outbound.get? id = some row) : ∃ row',
    s'.db.outbound.get? id = some row' ∧ row'.enqueuedAt = row.enqueuedAt ∧
      (row'.status = .pending → row.status = .pending) := by
  rcases hs.effect with hdb | ⟨st, hdb, hiss, heffect⟩
  · exact ⟨row, hdb ▸ hrow, rfl, fun hp => hp⟩
  · refine ⟨st.onRow id row, hdb ▸ Stmt.get?_run_of_some hrow st, ?_, Stmt.pending_of_onRow⟩
    cases st with
    | requeueOutbound id' next attempts backAt =>
      obtain ⟨m, hback, -⟩ := puttingBack_of_issued hiss
      have hne : id ≠ id' := by
        rintro rfl
        simp [deferred, hback, heffect, hrow] at h
      rw [Stmt.onRow, if_neg hne]
    | markOutboundSent | markOutboundFailed | setCancelled | dropStaleOutbound =>
      rw [Stmt.onRow]
      split <;> rfl
    | _ => rfl

/-- A row that was not there has just been inserted, with a time of enqueueing that has come. -/
theorem Step.born (hs : Step limits s a s')
    (hreplying : ∀ reply now index packets, .replyInsert reply now index packets ∈ s.tasks →
      now ≤ ⌊s.clock⌋) {id : Nat} {row : OutboundRow} (hnew : s.db.outbound.get? id = none)
    (hrow : s'.db.outbound.get? id = some row) :
    id = s.db.outbound.seq + 1 ∧ row.enqueuedAt ≤ ⌊s.clock⌋ := by
  have hworker {env : Env} {m : WorkerMove} {st : Stmt}
      (hm : s.worker.Case limits s.clock s.db env m) (hst : m.stmt = some st) :
      ¬ (st.run s.db).outbound.get? id = some row := by
    intro hrow
    rcases Stmt.get?_run hrow with ⟨row', hrow', -⟩ | ⟨rfl, -⟩
    · cases hnew.symm.trans hrow'
    · exact hm.not_enqueue hst row rfl
  cases hs with
  | wait | quiet | raises | spawn => cases hnew.symm.trans hrow
  | returns hm hst | raisesAfter hm hst => exact absurd hrow (hworker hm hst)
  | serve ht hm =>
    rcases Stmt.get?_run hrow with ⟨row', hrow', -⟩ | ⟨rfl, hid⟩
    · cases hnew.symm.trans hrow'
    · refine ⟨hid, ?_⟩
      cases hm with
      | firstPacket => exact le_refl _
      | nextPacket => exact hreplying _ _ _ _ (List.mem_of_getElem? ht)
      | pauseReturn hst => rcases hst with hst | ⟨detail, hst⟩ <;> cases hst

/-! ## The column and the times -/

/-- Neither the clock nor a put-back has gone beyond. -/
def farthest (start : Int) (s : State) (log : List Deferred) : Int :=
  max ⌊s.clock⌋ (queueBack start log)

/-- The `enqueued_at` of the pending row `id`, in terms of insertion and put-backs. -/
def LinkedRow (start : Int) (hist : List Event) (log : List Deferred) (id : Nat) (row : OutboundRow) :
    Prop :=
  match upToLast id log with
  | [] => ∀ call index first, ∀ t : ℚ, .inserted call index id first t ∈ hist → row.enqueuedAt ≤ t
  | d :: older => d.second < row.enqueuedAt ∧ row.enqueuedAt ≤ queueBack start (d :: older)

structure Linked (start : Int) (s : State) (log : List Deferred) : Prop where
  known : ∀ d ∈ log, d.id ≤ s.db.outbound.seq
  reads : ∀ m, MaxRead s m → m ≤ farthest start s log
  bound : ∀ id row, s.db.outbound.get? id = some row → row.status = .pending →
    row.enqueuedAt ≤ farthest start s log
  rows : ∀ id row, s.db.outbound.get? id = some row → row.status = .pending →
    LinkedRow start s.hist log id row

theorem Db.maxEnqueuedAt_le {db : Db} {m : Int} (h0 : 0 ≤ m)
    (h : ∀ id row, db.outbound.get? id = some row → row.status = .pending → row.enqueuedAt ≤ m) :
    db.maxEnqueuedAt ≤ m := by
  unfold Db.maxEnqueuedAt
  cases hmax : ((db.outbound.rows.filter fun p => p.2.status = .pending).map
      fun p => p.2.enqueuedAt).max? with
  | none => exact h0
  | some x =>
    obtain ⟨⟨id, row⟩, hmem, rfl⟩ := List.mem_map.mp (List.max?_mem hmax)
    rw [List.mem_filter, decide_eq_true_eq] at hmem
    exact h id row ((db.outbound.mem_rows_iff id row).mp hmem.1) hmem.2

theorem Db.le_maxEnqueuedAt {db : Db} {id : Nat} (hrow : db.outbound.get? id = some row)
    (hpend : row.status = .pending) : row.enqueuedAt ≤ db.maxEnqueuedAt := by
  have hmem : row.enqueuedAt ∈ (db.outbound.rows.filter fun p => p.2.status = .pending).map
      fun p => p.2.enqueuedAt := by
    refine List.mem_map.mpr ⟨(id, row), List.mem_filter.mpr ⟨?_, decide_eq_true hpend⟩, rfl⟩
    exact (db.outbound.mem_rows_iff id row).mpr hrow
  unfold Db.maxEnqueuedAt
  cases hmax : ((db.outbound.rows.filter fun p => p.2.status = .pending).map
      fun p => p.2.enqueuedAt).max? with
  | none =>
    rw [List.max?_eq_none_iff.mp hmax] at hmem
    cases hmem
  | some x => exact (List.max?_eq_some_iff.mp hmax).2 _ hmem

theorem farthest_le (hs : Step limits s a s') (d : Option Deferred) :
    farthest start s log ≤ farthest start s' (d.toList ++ log) := by
  have hclock := Int.floor_le_floor hs.clock_le
  unfold farthest
  cases d with
  | none => exact max_le_max hclock (le_refl _)
  | some d =>
    show _ ≤ max _ (max d.second (queueBack start log) + 1)
    omega

/-- What is known of a row stays while it is not put back. -/
theorem LinkedRow.step (hs : Step limits s a s') {id : Nat} {row row' : OutboundRow}
    (hrow : s.db.outbound.get? id = some row) (heq : row'.enqueuedAt = row.enqueuedAt)
    (h : LinkedRow start s.hist log id row) : LinkedRow start s'.hist log id row' := by
  unfold LinkedRow at h ⊢
  rw [heq]
  cases hlog : upToLast id log with
  | nil =>
    rw [hlog] at h
    intro call index first t he
    rcases hs.inserted he with he | ⟨-, rfl, -⟩
    · exact h call index first t he
    · have := RowTable.get?_le_seq hrow
      omega
  | cons d older =>
    rw [hlog] at h
    exact h

/-- A new row has the time of its insertion. -/
theorem LinkedRow.born (hs : Step limits s a s') (hclock : row.enqueuedAt ≤ ⌊s.clock⌋)
    (hknown : Known s) (hlog : ∀ d ∈ log, d.id ≤ s.db.outbound.seq) :
    LinkedRow start s'.hist log (s.db.outbound.seq + 1) row := by
  have hnil : upToLast (s.db.outbound.seq + 1) log = [] := by
    refine upToLast_eq_nil fun d hd heq => ?_
    have := hlog d hd
    omega
  unfold LinkedRow
  rw [hnil]
  intro call index first t he
  rcases hs.inserted he with he | ⟨-, -, rfl, -⟩
  · have := hknown call index _ first t he
    omega
  · exact Int.le_floor.mp hclock

/-- A put-back says nothing about the other rows. -/
theorem LinkedRow.other {hist : List Event} {d : Deferred} {id : Nat}
    (h : LinkedRow start hist log id row) (hid : d.id ≠ id) :
    LinkedRow start hist (d :: log) id row := by
  unfold LinkedRow at h ⊢
  rw [upToLast_cons_of_ne hid]
  exact h

/-- The row that is put back goes beyond the clock and beyond what was read. -/
theorem linkedRow_putBack {hist : List Event} {d : Deferred} {now m : Int} (hsecond : d.second = now)
    (hm : m ≤ max now (queueBack start log)) (hrow : row.enqueuedAt = max now m + 1) :
    row.enqueuedAt ≤ queueBack start (d :: log) ∧ LinkedRow start hist (d :: log) d.id row := by
  have hback : queueBack start (d :: log) = max now (queueBack start log) + 1 := by
    rw [queueBack, hsecond]
  have hle : row.enqueuedAt ≤ queueBack start (d :: log) := by omega
  refine ⟨hle, ?_⟩
  unfold LinkedRow
  rw [upToLast_cons_self]
  show d.second < row.enqueuedAt ∧ row.enqueuedAt ≤ queueBack start (d :: log)
  refine ⟨?_, hle⟩
  omega

/-- A pending row after a step. -/
theorem Linked.afterStep (h : Linked start s log) (hknown : Known s)
    (hreplying : ∀ reply now index packets, .replyInsert reply now index packets ∈ s.tasks →
      now ≤ ⌊s.clock⌋) (hs : Step limits s a s') {id : Nat}
    (hrow : s'.db.outbound.get? id = some row) (hpend : row.status = .pending) :
    row.enqueuedAt ≤ farthest start s' ((deferred s a).toList ++ log) ∧
      LinkedRow start s'.hist ((deferred s a).toList ++ log) id row := by
  have hfar : farthest start s log ≤ farthest start s' ((deferred s a).toList ++ log) :=
    farthest_le hs _
  cases hdef : deferred s a with
  | none =>
    rw [hdef] at hfar
    cases hold : s.db.outbound.get? id with
    | none =>
      obtain ⟨rfl, hclock⟩ := hs.born hreplying hold hrow
      exact ⟨hclock.trans ((le_max_left _ _).trans hfar), .born hs hclock hknown h.known⟩
    | some row₀ =>
      obtain ⟨row', hrow', heq, hkept⟩ := enqueuedAt_kept hs hdef hold
      cases hrow.symm.trans hrow'
      have hp₀ := hkept hpend
      refine ⟨?_, (h.rows id row₀ hold hp₀).step hs hold heq⟩
      rw [heq]
      exact (h.bound id row₀ hold hp₀).trans hfar
  | some d =>
    rw [hdef] at hfar
    obtain ⟨hsecond, -, next, attempts, m, hread, hdb⟩ := deferred_spec hdef hs
    rw [hdb] at hrow
    have hrow : (Stmt.run s.db (.requeueOutbound d.id next attempts
      (max ⌊s.clock⌋ m + 1))).outbound.get? id = some row := hrow
    rcases Stmt.get?_run hrow with ⟨row₀, hold, rfl⟩ | ⟨hst, -⟩
    · by_cases hid : d.id = id
      · subst hid
        have hafter : (Stmt.onRow d.id row₀ (.requeueOutbound d.id next attempts
            (max ⌊s.clock⌋ m + 1))).enqueuedAt = max ⌊s.clock⌋ m + 1 := by
          rw [Stmt.onRow, if_pos rfl]
        obtain ⟨hle, hlinked⟩ := linkedRow_putBack hsecond (h.reads m hread) hafter
        exact ⟨hle.trans (le_max_right _ _), hlinked⟩
      · have hsame : Stmt.onRow id row₀ (.requeueOutbound d.id next attempts (max ⌊s.clock⌋ m + 1)) =
            row₀ := if_neg (Ne.symm hid)
        rw [hsame] at hpend ⊢
        exact ⟨(h.bound id row₀ hold hpend).trans hfar,
          ((h.rows id row₀ hold hpend).step hs hold rfl).other hid⟩
    · cases hst

theorem linked_step (h : Linked start s log) (h0 : 0 ≤ start) (hknown : Known s)
    (hreplying : ∀ reply now index packets, .replyInsert reply now index packets ∈ s.tasks →
      now ≤ ⌊s.clock⌋) (hs : Step limits s a s') :
    Linked start s' ((deferred s a).toList ++ log) where
  known d hd := by
    have hseq := hs.seq_le
    rcases List.mem_append.mp hd with hd | hd
    · obtain ⟨-, hrow, -⟩ := deferred_spec (Option.mem_toList.mp hd) hs
      obtain ⟨row, hrow⟩ := Option.isSome_iff_exists.mp hrow
      exact (RowTable.get?_le_seq hrow).trans hseq
    · exact (h.known d hd).trans hseq
  reads m hread := by
    refine le_trans ?_ (farthest_le hs _)
    rcases maxRead_step hs hread with hread | rfl
    · exact h.reads m hread
    · refine Db.maxEnqueuedAt_le ?_ h.bound
      exact (h0.trans le_queueBack).trans (le_max_right _ _)
  bound id row hrow hpend := (h.afterStep hknown hreplying hs hrow hpend).1
  rows id row hrow hpend := (h.afterStep hknown hreplying hs hrow hpend).2

/-- The worker is stopped, or a new process starts. -/
theorem Linked.of_stop (h : Linked start s log) (hdb : s'.db = s.db) (hhist : s'.hist = s.hist)
    (hclock : s'.clock = s.clock) (hreads : ∀ m, MaxRead s' m → MaxRead s m) :
    Linked start s' log where
  known d hd := hdb ▸ h.known d hd
  reads m hread := by
    rw [farthest, hclock]
    exact h.reads m (hreads m hread)
  bound id row hrow hpend := by
    rw [farthest, hclock]
    exact h.bound id row (hdb ▸ hrow) hpend
  rows id row hrow hpend := by
    rw [hhist]
    exact h.rows id row (hdb ▸ hrow) hpend

/-! ## The service with the log of its put-backs -/

/-- The row that a step of the service puts back. -/
def serviceDeferred (v : Service) : ServiceAct → Option Deferred
  | .act a => deferred v.state a
  | _ => none

def agingStep (limits : LimitsConfig) : Service × List Deferred → ServiceAct →
    Option (Service × List Deferred) :=
  Machine.logged (serviceStep limits) serviceDeferred

/-- The back of the queue that the first process finds. -/
def Service.queueStart (v : Service) : Int := max 0 v.state.db.maxEnqueuedAt

def putsBackInTime (start : Int) (p : Service × List Deferred) : ServiceAct → Bool
  | .act a => putBackInTime start p.1.state p.2 a
  | _ => true

variable {v v₀ v' : Service} {b : ServiceAct}

theorem Books.known {base : Nat → Nat} (h : Books base v) : Known v.state := by
  intro call index id first time he
  obtain ⟨-, -, row, hrow, -⟩ := h.rows call index id first time he
  exact RowTable.get?_le_seq hrow

theorem deferred_sleeping {env : Env} {wake : ℚ} (hpc : s.worker.pc = .sleeping wake) :
    deferred s (.worker env) = none := by
  simp [deferred, puttingBack, hpc]

theorem linked_service {base : Nat → Nat} (h : Linked start v.state log) (h0 : 0 ≤ start)
    (hbooks : Books base v) (hs : ServiceStep limits v b v') :
    Linked start v'.state ((serviceDeferred v b).toList ++ log) := by
  cases hs with
  | worker _ _ hs | spawn hs | other hs => exact linked_step h h0 hbooks.known hbooks.replying hs
  | leave _ _ hhead =>
    have hpc : ∃ wake, v.state.worker.pc = .sleeping wake := by
      cases hpc : v.state.worker.pc with
      | sleeping wake => exact ⟨wake, rfl⟩
      | _ => simp [hpc, WorkerPc.atLoopHead] at hhead
    obtain ⟨wake, hpc⟩ := hpc
    rw [serviceDeferred, deferred_sleeping hpc]
    exact h
  | stop => exact h
  | cancel =>
    refine h.of_stop rfl rfl rfl ?_
    rintro m (⟨now, id, next, attempts, ending, hpc⟩ | hread)
    · cases hpc
    · exact .inr hread
  | restart =>
    refine h.of_stop rfl rfl rfl ?_
    rintro m (⟨now, id, next, attempts, ending, hpc⟩ | ⟨id, msg, now, ht⟩ |
      ⟨origin, pk, pausedUntil, row, rows, ht⟩)
    · cases hpc
    · cases ht
    · cases ht

theorem linked_start (h : ServiceStart v) : Linked v.queueStart v.state [] where
  known d hd := by cases hd
  reads m hread := by
    rcases hread with ⟨now, id, next, attempts, ending, hpc⟩ | ⟨id, msg, now, ht⟩ |
      ⟨origin, pk, pausedUntil, row, rows, ht⟩
    · rw [h.state.worker] at hpc
      cases hpc
    · rw [h.state.tasks] at ht
      cases ht
    · rw [h.state.tasks] at ht
      cases ht
  bound id row hrow hpend :=
    ((Db.le_maxEnqueuedAt hrow hpend).trans (le_max_right 0 _)).trans (le_max_right _ _)
  rows id row hrow hpend call index first t he := by
    rw [h.state.hist] at he
    cases he

theorem linked_run (h0 : ServiceStart v₀) {ok : Service × List Deferred → ServiceAct → Prop}
    (hrun : Machine.Run (agingStep limits) ok (v₀, []) (v, log)) :
    Books (startAttempts v₀.state) v ∧ Linked v₀.queueStart v.state log := by
  refine hrun.invariant (P := fun p =>
    Books (startAttempts v₀.state) p.1 ∧ Linked v₀.queueStart p.1.state p.2) ?_
    ⟨books_start h0, linked_start h0⟩
  rintro ⟨u, log⟩ b ⟨u', log'⟩ ⟨hbooks, hlinked⟩ - hs
  obtain ⟨hs, rfl⟩ := Machine.logged_eq_some hs
  have hs := serviceStep_cases hs
  exact ⟨books_step hbooks hs, linked_service hlinked (le_max_left 0 _) hbooks hs⟩

/-- **What `enqueued_at` says of the age of a message.**  In every run, with crashes, restarts,
database errors and queue actions at any point, the `enqueued_at` of a pending row is at most the
time of its insertion until it is first put back.  From then on it is beyond the second in which
it was last put back, and at most the back of the queue at that time. -/
theorem enqueuedAt_linked (h0 : ServiceStart v₀) (hrun : ServiceRuns limits v₀ v) :
    ∃ log, Machine.Run (agingStep limits) (fun _ _ => True) (v₀, []) (v, log) ∧
      ∀ id row, v.state.db.outbound.get? id = some row → row.status = .pending →
        LinkedRow v₀.queueStart v.state.hist log id row := by
  obtain ⟨log, hlog⟩ : ∃ log, Machine.Run (agingStep limits) (fun _ _ => True) (v₀, []) (v, log) :=
    hrun.log
  exact ⟨log, hlog, (linked_run h0 hlog).2.rows⟩

/-! ## Old rows are dropped -/

theorem putBackInTime_spec {env : Env} {wake : ℚ}
    (hok : putBackInTime start s log (.worker env) = true) (hpc : s.worker.pc = .sleeping wake)
    {id : Nat} (hold : InsertedBefore s.hist ⌊s.clock⌋ id)
    (hrow : s.db.outbound.get? id = some row) (hpend : row.status = .pending) :
    upToLast id log = [] ∨ queueBack start (upToLast id log) + maxAgeSeconds < ⌊s.clock⌋ := by
  obtain ⟨call, index, first, t, he, hlt⟩ := hold
  simp only [putBackInTime, hpc, List.all_eq_true] at hok
  simpa [hlt, hrow, hpend] using hok _ he

/-- An old row that has been put back in time looks old. -/
theorem stale_of_putBackInTime {env : Env} {wake : ℚ} (h : Linked start s log)
    (hok : putBackInTime start s log (.worker env) = true) (hpc : s.worker.pc = .sleeping wake)
    {id : Nat} (hold : InsertedBefore s.hist ⌊s.clock⌋ id)
    (hrow : s.db.outbound.get? id = some row) (hpend : row.status = .pending) :
    row.enqueuedAt < ⌊s.clock⌋ - maxAgeSeconds := by
  have hback := putBackInTime_spec hok hpc hold hrow hpend
  have hlinked := h.rows id row hrow hpend
  unfold LinkedRow at hlinked
  cases hlog : upToLast id log with
  | nil =>
    -- never put back: `enqueued_at` is still the time of the insertion
    rw [hlog] at hlinked
    obtain ⟨call, index, first, t, he, hlt⟩ := hold
    have hle := hlinked call index first t he
    have hlt : ((row.enqueuedAt + maxAgeSeconds : ℤ) : ℚ) < (⌊s.clock⌋ : ℤ) := by
      push_cast
      linarith
    have := Int.cast_lt.mp hlt
    omega
  | cons d older =>
    rw [hlog] at hlinked hback
    have hle := hlinked.2
    rcases hback with hnil | hback
    · cases hnil
    · omega

structure Aged (s : State) : Prop where
  tickPast : TickPast s
  /-- No row that is too old for the tick in progress is still pending. -/
  dropped : ∀ now id row, s.worker.pc.tick = some now → InsertedBefore s.hist now id →
    s.db.outbound.get? id = some row → row.status ≠ .pending
  held : ∀ now msg, s.worker.pc.tick = some now → s.worker.pc.held = some msg →
    ¬ InsertedBefore s.hist now msg.id
  sent : ∀ id pk tick time, .sendStart id pk tick time ∈ s.hist →
    tick ≤ ⌊s.clock⌋ ∧ ¬ InsertedBefore s.hist tick id

/-- A row inserted in this step is not old. -/
theorem insertedBefore_step (hs : Step limits s a s') {now : Int} (hnow : now ≤ ⌊s.clock⌋) {id : Nat}
    (h : InsertedBefore s'.hist now id) : InsertedBefore s.hist now id := by
  obtain ⟨call, index, row, time, he, hlt⟩ := h
  rcases hs.mem_hist he with he | ⟨-, -, rfl⟩
  · exact ⟨call, index, row, time, he, hlt⟩
  · have h1 : ((now : ℤ) : ℚ) ≤ s.clock := Int.le_floor.mp hnow
    have h2 : (0 : ℚ) ≤ maxAgeSeconds := by norm_num [maxAgeSeconds]
    linarith

theorem InsertedBefore.le_seq {now : Int} {id : Nat} (h : InsertedBefore s.hist now id)
    (hknown : Known s) : id ≤ s.db.outbound.seq := by
  obtain ⟨call, index, row, time, he, -⟩ := h
  exact hknown call index id row time he

/-- When a tick is in progress after the step, no row that is too old for it is pending. -/
theorem Aged.dropped_step (h : Aged s) (hlinked : Linked start s log) (hknown : Known s)
    (hok : putBackInTime start s log a = true) (hs : Step limits s a s') {now : Int} {id : Nat}
    (htick : s'.worker.pc.tick = some now) (hold : InsertedBefore s'.hist now id)
    (hrow : s'.db.outbound.get? id = some row) : row.status ≠ .pending := by
  intro hpend
  rcases hs.tick htick with htick | ⟨env, wake, rfl, hpc, rfl, -, -, hdb, hhist⟩
  · have hold := insertedBefore_step hs (h.tickPast now htick) hold
    have hid := hold.le_seq hknown
    rcases hs.stmt with hdb | ⟨st, hdb, -⟩
    · exact h.dropped now id row htick hold (hdb ▸ hrow) hpend
    · rw [hdb] at hrow
      rcases Stmt.get?_run hrow with ⟨row', hrow', rfl⟩ | ⟨-, rfl⟩
      · exact h.dropped now id row' htick hold hrow' (Stmt.pending_of_onRow hpend)
      · omega
  · -- the tick begins: what looks old enough is dropped, and every old row does
    rw [hhist] at hold
    rw [hdb] at hrow
    have hrow : (Stmt.run s.db (.dropStaleOutbound (⌊s.clock⌋ - maxAgeSeconds))).outbound.get? id =
      some row := hrow
    rcases Stmt.get?_run hrow with ⟨row', hrow', rfl⟩ | ⟨hst, -⟩
    · have hp := Stmt.pending_of_onRow hpend
      have hstale := stale_of_putBackInTime hlinked hok hpc hold hrow' hp
      simp [Stmt.onRow, hp, hstale] at hpend
    · cases hst

theorem aged_step (h : Aged s) (hlinked : Linked start s log) (hknown : Known s)
    (hs : Step limits s a s') (hok : putBackInTime start s log a = true) : Aged s' where
  tickPast := tickPast_step h.tickPast hs
  dropped now id row htick hold hrow := h.dropped_step hlinked hknown hok hs htick hold hrow
  held now msg htick hheld hold := by
    rcases hs.held hheld with ⟨hheld', htick', -⟩ | ⟨env, now', rfl, hpc, hpc', hdb, hclaim⟩
    · rw [htick'] at htick
      exact h.held now msg htick hheld' (insertedBefore_step hs (h.tickPast now htick) hold)
    · obtain ⟨id, row, -, hrow, rfl, hready, -⟩ := Db.claimNextOutbound_some hclaim
      exact h.dropped_step hlinked hknown hok hs htick hold (hdb ▸ hrow)
        ((Db.ready_iff _ _).mp hready).1
  sent id pk tick time he := by
    have hclock := Int.floor_le_floor hs.clock_le
    rcases hs.mem_hist he with he | ⟨env, msg, rfl, hun, rfl, rfl, rfl⟩
    · obtain ⟨hle, hnot⟩ := h.sent id pk tick time he
      exact ⟨hle.trans hclock, fun hold => hnot (insertedBefore_step hs hle hold)⟩
    · have hle := h.tickPast tick hun.tick
      exact ⟨hle.trans hclock,
        fun hold => h.held tick msg hun.tick hun.held (insertedBefore_step hs hle hold)⟩

/-- The worker is stopped, or a new process starts. -/
theorem Aged.of_stop (h : Aged s) (hhist : s'.hist = s.hist) (hclock : s'.clock = s.clock)
    (htick : s'.worker.pc.tick = none) : Aged s' where
  tickPast now hnow := by cases htick.symm.trans hnow
  dropped now id row hnow := by cases htick.symm.trans hnow
  held now msg hnow := by cases htick.symm.trans hnow
  sent id pk tick time he := by
    rw [hhist] at he ⊢
    rw [hclock]
    exact h.sent id pk tick time he

theorem aged_service {base : Nat → Nat} (h : Aged v.state) (hlinked : Linked start v.state log)
    (hbooks : Books base v) (hok : putsBackInTime start (v, log) b = true)
    (hs : ServiceStep limits v b v') : Aged v'.state := by
  cases hs with
  | worker _ _ hs | spawn hs | other hs => exact aged_step h hlinked hbooks.known hs hok
  | leave | stop => exact h
  | cancel | restart => exact h.of_stop rfl rfl rfl

theorem aged_start (h : ServiceStart v) : Aged v.state where
  tickPast now htick := by
    rw [h.state.worker] at htick
    cases htick
  dropped now id row htick := by
    rw [h.state.worker] at htick
    cases htick
  held now msg htick := by
    rw [h.state.worker] at htick
    cases htick
  sent id pk tick time he := by
    rw [h.state.hist] at he
    cases he

theorem aged_run (h0 : ServiceStart v₀)
    (hrun : Machine.Run (agingStep limits) (fun p b => putsBackInTime v₀.queueStart p b = true)
      (v₀, []) (v, log)) : Aged v.state := by
  refine (hrun.invariant (P := fun p => (Books (startAttempts v₀.state) p.1 ∧
    Linked v₀.queueStart p.1.state p.2) ∧ Aged p.1.state) ?_
    ⟨⟨books_start h0, linked_start h0⟩, aged_start h0⟩).2
  rintro ⟨u, log⟩ b ⟨u', log'⟩ ⟨⟨hbooks, hlinked⟩, haged⟩ hok hs
  obtain ⟨hs, rfl⟩ := Machine.logged_eq_some hs
  have hs := serviceStep_cases hs
  exact ⟨⟨books_step hbooks hs, linked_service hlinked (le_max_left 0 _) hbooks hs⟩,
    aged_service haged hlinked hbooks hok hs⟩

/-- A tick drops the pending rows that are too old for it. -/
theorem aged_dropped {env : Env} {now : Int} (h : Aged s) (hlinked : Linked start s log)
    (hok : putBackInTime start s log (.worker env) = true) (hs : Step limits s (.worker env) s')
    (hpc : s'.worker.pc = .dropped now) {id : Nat} (hold : InsertedBefore s'.hist now id)
    (hrow : s.db.outbound.get? id = some row) (hpend : row.status = .pending) :
    s'.db.outbound.get? id = some { row with status := .dropped } := by
  rcases hs.tick (by rw [hpc]; rfl) with htick | ⟨env', wake, ha, hpc', rfl, -, -, hdb, hhist⟩
  · exact absurd hpend
      (h.dropped now id row htick (insertedBefore_step hs (h.tickPast now htick) hold) hrow)
  · rw [hhist] at hold
    have hstale := stale_of_putBackInTime hlinked hok hpc' hold hrow hpend
    rw [hdb]
    refine (Stmt.get?_run_of_some hrow (.dropStaleOutbound (⌊s.clock⌋ - maxAgeSeconds))).trans ?_
    simp [Stmt.onRow, hpend, hstale]

/-- **No message is sent in a tick more than a day after its insertion**, in the runs in
which no old row was put back within the day before a tick; the tick drops the old rows. -/
theorem aged_never_sent (h0 : ServiceStart v₀)
    (hrun : Machine.Run (agingStep limits) (fun p b => putsBackInTime v₀.queueStart p b = true)
      (v₀, []) (v, log)) :
    (∀ id pk (tick : Int) time call index row t, .sendStart id pk tick time ∈ v.state.hist →
      .inserted call index id row t ∈ v.state.hist → (tick : ℚ) ≤ t + maxAgeSeconds) ∧
    ∀ env v' now call index id row row' (t : ℚ),
      putsBackInTime v₀.queueStart (v, log) (.act (.worker env)) = true →
      serviceStep limits v (.act (.worker env)) = some v' → v'.state.worker.pc = .dropped now →
      .inserted call index id row t ∈ v'.state.hist → t + maxAgeSeconds < now →
      v.state.db.outbound.get? id = some row' → row'.status = .pending →
      v'.state.db.outbound.get? id = some { row' with status := .dropped } := by
  have h := aged_run h0 hrun
  constructor
  · intro id pk tick time call index row t hsent hins
    by_contra hlt
    exact (h.sent id pk tick time hsent).2 ⟨call, index, row, t, hins, lt_of_not_ge hlt⟩
  · intro env v' now call index id row row' t hok hs hpc hins hlt hrow hpend
    cases serviceStep_cases hs with
    | worker _ _ hstep =>
      exact aged_dropped h (linked_run h0 hrun).2 hok hstep hpc ⟨call, index, row, t, hins, hlt⟩
        hrow hpend
    | leave _ _ hhead =>
      have hpc : v.state.worker.pc = .dropped now := hpc
      rw [hpc] at hhead
      cases hhead
    | other _ hw => exact absurd rfl (hw env)

/-- A row put back late, whatever its age, is not dropped by the tick. -/
theorem kept_of_late (h0 : ServiceStart v₀) {ok : Service × List Deferred → ServiceAct → Prop}
    (hrun : Machine.Run (agingStep limits) ok (v₀, []) (v, log)) {env : Env} {now : Int}
    (hs : serviceStep limits v (.act (.worker env)) = some v') (hidle : v.state.worker.pc.tick = none)
    (htick : v'.state.worker.pc.tick = some now) {id : Nat} {d : Deferred} {older : List Deferred}
    (hlast : upToLast id log = d :: older) (hlate : now ≤ d.second + 1 + maxAgeSeconds)
    (hrow : v.state.db.outbound.get? id = some row) (hpend : row.status = .pending) :
    v'.state.db.outbound.get? id = some row := by
  have hlinked := (linked_run h0 hrun).2.rows id row hrow hpend
  unfold LinkedRow at hlinked
  rw [hlast] at hlinked
  cases serviceStep_cases hs with
  | worker _ _ hstep =>
    rcases hstep.tick htick with htick | ⟨env', wake, -, -, rfl, -, -, hdb, -⟩
    · cases hidle.symm.trans htick
    · have hyoung : ¬ row.enqueuedAt < ⌊v.state.clock⌋ - maxAgeSeconds := by
        have := hlinked.1
        omega
      rw [hdb]
      refine (Stmt.get?_run_of_some hrow (.dropStaleOutbound (⌊v.state.clock⌋ - maxAgeSeconds))).trans ?_
      simp [Stmt.onRow, hyoung]
  | leave => cases hidle.symm.trans htick
  | other _ hw => exact absurd rfl (hw env)

/-- One reply goes out.  The next one, to the same recipient, is put back in the second after, and
still waits a day later. -/
def sentAndPutBack : List ServiceAct :=
  replyAndClaim.map .act ++ [.act (.worker {}), .act (.worker {}), .act (.worker {}),
    .act (.spawn (.enqueueReply { pk := lit "aa", text := lit "hi" })), .act (.serve 1),
    .act (.serve 1), .act (.wait 101), .act (.worker {}), .act (.worker { pick := some 2 }),
    .act (.worker {}), .act (.worker {}), .act (.worker {}), .act (.worker {}), .act (.wait 86600)]

theorem aged_never_sent_putBack : ∃ v log v' row,
    Machine.Run (agingStep {}) (fun p b => putsBackInTime emptyStart.serve.queueStart p b = true)
      (emptyStart.serve, []) (v, log) ∧
    .sendStart 1 (lit "aa") 100 100 ∈ v.state.hist ∧ .inserted 0 1 1 hiRow 100 ∈ v.state.hist ∧
    ((100 : Int) : ℚ) ≤ 100 + maxAgeSeconds ∧
    log = [⟨2, 101⟩] ∧ .inserted 1 1 2 hiRow 100 ∈ v.state.hist ∧
    v.state.db.outbound.get? 2 = some row ∧ row.status = .pending ∧
    serviceStep {} v (.act (.worker {})) = some v' ∧ v'.state.worker.pc = .dropped 86600 ∧
    v'.state.db.outbound.get? 2 = some { row with status := .dropped } := by
  obtain ⟨⟨v, log⟩, hrun, hp⟩ := Machine.exists_run (agingStep {})
    (putsBackInTime emptyStart.serve.queueStart)
    (p := fun p => decide (Event.sendStart 1 (lit "aa") 100 100 ∈ p.1.state.hist ∧
        Event.inserted 0 1 1 hiRow 100 ∈ p.1.state.hist ∧ p.2 = [⟨2, 101⟩] ∧
        Event.inserted 1 1 2 hiRow 100 ∈ p.1.state.hist) &&
      (p.1.state.db.outbound.get? 2).any (fun row => row.status = .pending) &&
      putsBackInTime emptyStart.serve.queueStart p (.act (.worker {})) &&
      (serviceStep {} p.1 (.act (.worker {}))).any fun v' => v'.state.worker.pc = .dropped 86600)
    (s := (emptyStart.serve, [])) sentAndPutBack (by decide +kernel)
  simp only [Bool.and_eq_true, decide_eq_true_eq, Option.any_eq_true] at hp
  obtain ⟨⟨⟨⟨hsent, hins, hlog, hins₂⟩, row, hrow, hpend⟩, hok⟩, v', hs, hpc⟩ := hp
  have h := aged_never_sent emptyStart_initial.serve hrun
  have hmem : .inserted 1 1 2 hiRow 100 ∈ v'.state.hist := (serviceStep_cases hs).hist_mono hins₂
  exact ⟨v, log, v', row, hrun, hsent, hins, h.1 _ _ _ _ _ _ _ _ hsent hins, hlog, hins₂, hrow, hpend,
    hs, hpc, h.2 _ _ _ _ _ _ _ _ _ hok hs hpc hmem (by norm_num [maxAgeSeconds]) hrow hpend⟩

/-- The radio is down at the only attempt on the first day; the message goes out after it. -/
theorem aged_sent : ∃ s, Initial emptyStart ∧ Runs {} anyStep emptyStart s ∧
    .sendStart 1 (lit "aa") 90000 90000 ∈ s.hist ∧ .inserted 0 1 1 hiRow 100 ∈ s.hist ∧
    ¬ ((90000 : Int) : ℚ) ≤ 100 + maxAgeSeconds := by
  obtain ⟨s, hrun, hp⟩ := Machine.exists_run (step {}) anyStep
    (p := fun s => decide (Event.sendStart 1 (lit "aa") 90000 90000 ∈ s.hist ∧
      Event.inserted 0 1 1 hiRow 100 ∈ s.hist))
    (s := emptyStart)
    (replyAndClaim ++ [.wait 86000, .worker { radioAvailable := false }, .worker {}, .worker {},
      .wait 90000, .worker {}, .worker { pick := some 1 }, .worker {}, .worker {}])
    (by decide +kernel)
  rw [decide_eq_true_eq] at hp
  exact ⟨s, emptyStart_initial, hrun, hp.1, hp.2, by norm_num [maxAgeSeconds]⟩

end Bbs
