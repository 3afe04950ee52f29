import MeshcoreBbs.Mailbox
import MeshcoreBbs.OutboundRestarts
import MeshcoreBbs.Replies

/-!
# The whole process

The requests and the outbound worker with the queue actions of the dashboard, on one clock and one
database.  A request that takes its turn goes on to its next await.

A reply is the one thing that both sides have: a few operations in the middle of a request, and a
task of the queue.  `Stage` is what is left of the request and where that task is, and `stage_op` what
the next operation does to both.
-/

namespace Bbs

open Coroutine Dispatcher Replies

/-- The operations at which a task waits.  The others are code between two awaits. -/
def Op.awaited : Op → Bool
  | time | config | logCommand .. | popPending _ | setPending .. | getLastNotifyAt _
  | setLastNotifyAt .. => false
  | _ => true

/-- A queue action or a listing; the replies are made by the requests. -/
def Task.ofDashboard : Task → Bool
  | enqueueReply _ | replyDepth .. | replyInsert .. => false
  | _ => true

/-- The clock and the tables are those of `tasks`. -/
structure Host where
  tasks : Mailbox.Tasks
  service : Service

inductive HostAct
  | request (r : Request)
  | turn (i : Nat)
  | outside (e : Outside)
  /-- the worker, the dashboard's queue actions, the shutdown, or time passes -/
  | queue (b : ServiceAct)
  | restart

def ServiceAct.ofQueue : ServiceAct → Bool
  | .restart => false
  | .act (.spawn task) => task.ofDashboard
  | _ => true

/-- The service, with the clock and the tables of the process. -/
def Service.on (v : Service) (w : World) : Service :=
  { v with state := { v.state with clock := w.clock, db := w.queue } }

namespace Host

variable (limits : LimitsConfig) (sv : Services) (h : Host)

/-- The worker and the queue actions. -/
def view : Service := h.service.on h.tasks.state

/-- What they leave. -/
def put (v : Service) : Host where
  tasks := { h.tasks with state := { h.tasks.state with clock := v.state.clock, queue := v.state.db } }
  service := v

def step : HostAct → Option Host
  | .request r =>
    some { h with tasks := { h.tasks with tasks := h.tasks.tasks ++ [(r, r.prog sv)] } }
  | .turn i =>
    (h.tasks.turn (Op.run sv.py) Op.awaited i).map fun tasks => { h with tasks := tasks }
  | .outside e =>
    match e with
    | .wait _ => none
    | .queue _ => none
    | e => (e.run h.tasks.state).map fun w => { h with tasks := { h.tasks with state := w } }
  | .queue b => if b.ofQueue then (serviceStep limits h.view b).map h.put else none
  | .restart => (serviceStep limits h.view .restart).map fun v =>
    { tasks := ⟨{ h.tasks.state with pending := fun _ => none, lastNotifyAt := fun _ => none }, []⟩
      service := v }

def start (w : World) : Host where
  tasks := ⟨w, []⟩
  service := State.serve { clock := w.clock, db := w.queue }

/-! ## The two sides of a statement -/

end Host

section Sides

variable {limits : LimitsConfig} {clock : ℚ} {db : Db}

/-- The limit at which replies are turned away is not the worker's. -/
abbrev LimitsConfig.withDepth (limits : LimitsConfig) (depth : Nat) : LimitsConfig :=
  { limits with outboundQueueMaxDepth := depth }

/-- Only `audit` reads or writes the audit log. -/
theorem Stmt.run_audit (st : Stmt) (db : Db) (audit : List AuditRow) :
    ∃ audit', st.run { db with audit := audit } = { st.run db with audit := audit' } := by
  cases st with
  | writeAudit row => exact ⟨audit ++ [row], rfl⟩
  | _ => exact ⟨audit, rfl⟩

theorem Worker.move_audit (w : Worker) (env : Env) (depth : Nat) (audit : List AuditRow) :
    w.move (limits.withDepth depth) clock { db with audit := audit } env = w.move limits clock db env := by
  unfold Worker.move
  split <;> rfl

theorem Worker.step_audit {w w' : Worker} {env : Env} {db' : Db} {evs : List Event} (depth : Nat)
    (audit : List AuditRow) (hs : w.step limits clock db env = some (w', db', evs)) :
    ∃ audit', w.step (limits.withDepth depth) clock { db with audit := audit } env =
      some (w', { db' with audit := audit' }, evs) := by
  simp only [Worker.step, Option.map_eq_some_iff] at hs
  obtain ⟨m, hm, heq⟩ := hs
  have hmove := (w.move_audit env depth audit).trans hm
  simp only [Worker.step, hmove, Option.map_some]
  cases hst : m.stmt with
  | none =>
    simp only [hst] at heq
    cases heq
    exact ⟨audit, rfl⟩
  | some st =>
    obtain ⟨audit', hrun⟩ := st.run_audit db audit
    cases hcall : env.call with
    | raises =>
      simp only [hst, hcall] at heq
      cases heq
      exact ⟨audit, rfl⟩
    | _ =>
      simp only [hst, hcall] at heq
      cases heq
      exact ⟨audit', by simp only [hrun]⟩

/-- The row that is inserted. -/
def Event.insertedRow : Event → Option OutboundRow
  | .inserted _ _ _ row _ => some row
  | _ => none

theorem Worker.Case.quiet {w : Worker} {env : Env} {m : WorkerMove}
    (hm : w.Case limits clock db env m) : ∀ e ∈ m.effects ++ m.events, e.insertedRow = none := by
  cases hm <;> simp [Event.insertedRow]

theorem Worker.step_quiet {w w' : Worker} {env : Env} {db' : Db} {evs : List Event}
    (hs : w.step limits clock db env = some (w', db', evs)) : ∀ e ∈ evs, e.insertedRow = none := by
  simp only [Worker.step, Option.map_eq_some_iff] at hs
  obtain ⟨m, hm, heq⟩ := hs
  have hevs : evs ⊆ m.effects ++ m.events := by
    split at heq <;> cases heq <;> simp
  exact fun e he => (Worker.move_cases hm).quiet e (hevs he)

theorem Task.move_audit {t t' : Task} {st : Stmt} {evs : List Event} {call : Nat} (depth call' : Nat)
    (audit : List AuditRow) (ht : t.ofDashboard = true) (hm : t.move limits clock db call = some (t', st, evs)) :
    t.move (limits.withDepth depth) clock { db with audit := audit } call' = some (t', st, evs) := by
  rw [← hm]
  cases t with
  | enqueueReply | replyDepth | replyInsert => cases ht
  | removeRead id found | moveBackRead id found | pauseUserRead id found => cases found <;> rfl
  | pauseRows origin pk pausedUntil rows => cases rows <;> rfl
  | _ => rfl

/-- A task of the dashboard stays one, and inserts nothing. -/
theorem Task.Case.quiet {t t' : Task} {st : Stmt} {evs : List Event} {call : Nat}
    (hm : t.Case limits clock db call t' st evs) (ht : t.ofDashboard = true) :
    t'.ofDashboard = true ∧ (∀ e ∈ evs, e.insertedRow = none) ∧ ∀ row, st ≠ .enqueueOutbound row := by
  cases hm with
  | readDepth | refuse | firstPacket | noPacket | nextPacket | lastPacket => cases ht
  | pauseReturn hst =>
    refine ⟨rfl, by simp [Event.insertedRow], fun row hrow => ?_⟩
    rcases hst with rfl | ⟨detail, rfl⟩ <;> cases hrow
  | _ => exact ⟨rfl, by simp [Event.insertedRow], nofun⟩

end Sides

namespace Host

/-! ## A request in the middle of a reply -/

section Stages

variable (origin : Origin) (reply : Reply)

def insertAll (now : Int) (packets : List Text) : Prog Unit :=
  forEach (fun p => call (.enqueueOutbound origin (reply.row now p))) packets

/-- The reply is not turned away. -/
def accept : Prog Unit := do
  let now := ⌊← call .time⌋
  insertAll origin reply now (Format.splitPackets reply.text Format.defaultPacketBytes)

/-- The depth of the queue is known. -/
def judge (depth : Nat) : Prog Unit := do
  let cfg ← call .config
  if reply.refused cfg.limits depth then pure () else accept origin reply

theorem enqueueReply_eq :
    enqueueReply origin reply = call .outboundPendingDepth >>= judge origin reply := rfl

variable {origin reply}

/-- What is left of a request, and the task that stands for its reply.  `now` is the second in which
the request takes its turn, if it does. -/
inductive Stage (depth : Nat) (now : Option Int) : Prog Unit → Option Task → Prop
  | between {m t} (hm : InReplies m) : Stage depth now m t
  | judging {origin reply d f m} (hm : m = (judge origin reply d).andThen f) (hd : d < depth)
      (hf : ∀ r, InReplies (f r)) : Stage depth now m (some (.replyDepth reply d))
  | accepted {origin reply d f m} (hm : m = (accept origin reply).andThen f) (hd : d < depth)
      (hf : ∀ r, InReplies (f r)) : Stage depth now m (some (.replyDepth reply d))
  | timed {origin reply d f m s packet packets}
      (hm : m = (insertAll origin reply s (packet :: packets)).andThen f) (hnow : now = some s)
      (hd : d < depth)
      (hsplit : Format.splitPackets reply.text Format.defaultPacketBytes = packet :: packets)
      (hf : ∀ r, InReplies (f r)) : Stage depth now m (some (.replyDepth reply d))
  | inserting {origin reply f m s index packet packets}
      (hm : m = (insertAll origin reply s (packet :: packets)).andThen f)
      (hf : ∀ r, InReplies (f r)) :
      Stage depth now m (some (.replyInsert reply s index (packet :: packets)))

/-- What the queue sees of an operation of a request. -/
inductive Performs (limits : LimitsConfig) (w : World) (t : Option Task) (op : Op) :
    Option Task → Prop
  | mute (hop : Mute op) : Performs limits w t op t
  | begins {reply : Reply} (hop : op = .outboundPendingDepth) :
      Performs limits w t op (some (.replyDepth reply w.queue.outboundPendingDepth))
  | inserts {t₀ t' : Task} {origin : Origin} {row : OutboundRow} {index : Nat} (ht : t = some t₀)
      (hop : op = .enqueueOutbound origin row)
      (hmove : ∀ db call, t₀.move limits w.clock db call =
        some (t', .enqueueOutbound row, [.inserted call index (db.outbound.seq + 1) row w.clock])) :
      Performs limits w t op (some t')

variable {depth : Nat} {now : Option Int} {m : Prog Unit} {t : Option Task}

/-- Until it takes its turn, the second does not matter. -/
theorem Stage.of_none (h : Stage depth none m t) : Stage depth now m t := by
  cases h with
  | between hm => exact .between hm
  | judging hm hd hf => exact .judging hm hd hf
  | accepted hm hd hf => exact .accepted hm hd hf
  | timed _ hnow => cases hnow
  | inserting hm hf => exact .inserting hm hf

theorem Stage.finish {r : Option Unit} (h : Stage depth now (.finish r) t) :
    Stage depth none (.finish r) t := by
  cases h with
  | between hm => exact .between hm
  | judging hm | accepted hm | timed hm | inserting hm => cases hm

/-- The packets that are left, or what comes after the reply. -/
theorem stage_insertAll {f : Option Unit → Prog Unit} (hf : ∀ r, InReplies (f r)) (s : Int)
    (index : Nat) (packets : List Text) :
    Stage depth now ((insertAll origin reply s packets).andThen f)
      (some (.replyInsert reply s index packets)) := by
  cases packets with
  | nil => exact .between (hf (some ()))
  | cons packet packets => exact .inserting rfl hf

/-- **What the next operation does to the stage.** -/
theorem stage_op (sv : Services) (limits : LimitsConfig) {w : World} {op : Op}
    {k : Option op.Res → Prog Unit}
    (hdepth : w.queue.outboundPendingDepth < depth) (h : Stage depth (some w.now) (.await op k) t) :
    ∃ t', Performs (limits.withDepth depth) w t op t' ∧
      Stage depth (if op.awaited then none else some w.now) (k (op.run sv.py w).1) t' := by
  cases h with
  | between hm =>
    cases hm with
    | quiet hop hk => exact ⟨t, .mute hop, .between (hk _ fun hr => Op.mayRaise_of_run hr)⟩
    | part hp hm hf =>
      obtain ⟨origin, reply, rfl⟩ := hp
      cases hm
      exact ⟨_, .begins rfl, .judging rfl hdepth hf⟩
  | @judging origin reply d f _ hm hd hf =>
    cases hm
    refine ⟨_, .mute rfl, ?_⟩
    show Stage depth _ ((if reply.refused w.cfg.limits d then pure () else accept origin reply :
      Prog Unit).andThen f) _
    by_cases href : reply.refused w.cfg.limits d = true
    · rw [if_pos href]
      exact .between (hf (some ()))
    · rw [if_neg href]
      exact .accepted rfl hd hf
  | @accepted origin reply d f _ hm hd hf =>
    cases hm
    refine ⟨_, .mute rfl, ?_⟩
    show Stage depth _ ((insertAll origin reply w.now
      (Format.splitPackets reply.text Format.defaultPacketBytes)).andThen f) _
    cases hsplit : Format.splitPackets reply.text Format.defaultPacketBytes with
    | nil => exact .between (hf (some ()))
    | cons packet packets => exact .timed rfl rfl hd hsplit hf
  | @timed origin reply d f _ s packet packets hm hnow hd hsplit hf =>
    cases hm
    cases hnow
    have href : reply.refused (limits.withDepth depth) d = false := by
      simp [Reply.refused, hd]
    have hmove : ∀ db call, (Task.replyDepth reply d).move (limits.withDepth depth) w.clock db call =
        some (.replyInsert reply w.now 1 packets, .enqueueOutbound (reply.row w.now packet),
          [.inserted call 1 (db.outbound.seq + 1) (reply.row w.now packet) w.clock]) := by
      intro db call
      simp [Task.move, href, hsplit, Task.insertNext, World.now]
    exact ⟨_, .inserts rfl rfl hmove, stage_insertAll hf _ 1 packets⟩
  | @inserting origin reply f _ s index packet packets hm hf =>
    cases hm
    exact ⟨_, .inserts rfl rfl fun db call => rfl, stage_insertAll hf s (index + 1) packets⟩

end Stages

end Host

end Bbs
