import MeshcoreBbs.Lib.Machine
import MeshcoreBbs.OutboundRequests

/-!
# The worker and its neighbours, interleaved

A state holds the clock, the tables, the worker's memory and every request
made so far; `hist` is the history of events, latest first.  An action lets
time pass, moves the worker or a request to its next await, or starts a new
request, in any order.

`step_cases` splits a step into the actions; `Step.hist` says that the history only
grows.
-/

namespace Bbs

structure State where
  clock : ℚ
  db : Db
  worker : Worker := Worker.init
  tasks : List Task := []
  hist : List Event := []

inductive Act
  | wait (t : ℚ)
  | worker (env : Env)
  | spawn (task : Task)
  | serve (call : Nat)

def step (limits : LimitsConfig) (s : State) : Act → Option State
  | .wait t => if s.clock ≤ t then some { s with clock := t } else none
  | .worker env =>
    (s.worker.step limits s.clock s.db env).map fun (w, db, evs) =>
      { s with worker := w, db := db, hist := evs ++ s.hist }
  | .spawn task => if task.isRequest then some { s with tasks := s.tasks ++ [task] } else none
  | .serve call =>
    (s.tasks[call]?).bind fun t =>
      (t.move limits s.clock s.db call).map fun (t', st, evs) =>
        { s with db := st.run s.db, tasks := s.tasks.set call t', hist := evs ++ s.hist }

/-- A process just started on the tables it found. -/
structure Initial (s : State) : Prop where
  worker : s.worker = Worker.init
  tasks : s.tasks = []
  hist : s.hist = []

/-- A reply of one packet to `aa`. -/
def hiRow : OutboundRow := newOutboundRow (lit "aa") (lit "hi") 100 10 none (lit "response")

/-- A new database, a hundred seconds into the epoch. -/
def emptyStart : State := { clock := 100, db := Db.empty }

theorem emptyStart_initial : Initial emptyStart := ⟨rfl, rfl, rfl⟩

/-- One message waits in the queue. -/
def oneMessage : State := { clock := 100, db := Db.empty.enqueueOutbound hiRow }

theorem oneMessage_initial : Initial oneMessage := ⟨rfl, rfl, rfl⟩

/-- A reply of one packet, from the request to the worker's claim of it. -/
def replyAndClaim : List Act :=
  [.spawn (.enqueueReply { pk := lit "aa", text := lit "hi" }), .serve 0, .serve 0, .worker {},
    .worker { pick := some 1 }, .worker {}]

/-- The cases of a step.  `quiet`: the worker's segment ends without a database call;
`returns`, `raises`, `raisesAfter`: it ends with one. -/
inductive Step (limits : LimitsConfig) (s : State) : Act → State → Prop
  | wait {t} (h : s.clock ≤ t) : Step limits s (.wait t) { s with clock := t }
  | quiet {env m} (hm : s.worker.Case limits s.clock s.db env m) (hst : m.stmt = none) :
      Step limits s (.worker env) { s with worker := m.worker, hist := m.events ++ s.hist }
  | returns {env m st} (hm : s.worker.Case limits s.clock s.db env m) (hst : m.stmt = some st)
      (hcall : env.call = .returns) :
      Step limits s (.worker env)
        { s with worker := m.worker, db := st.run s.db, hist := m.effects ++ m.events ++ s.hist }
  | raises {env m st} (hm : s.worker.Case limits s.clock s.db env m) (hst : m.stmt = some st)
      (hcall : env.call = .raises) :
      Step limits s (.worker env) { s with worker := m.worker.abort, hist := m.events ++ s.hist }
  | raisesAfter {env m st} (hm : s.worker.Case limits s.clock s.db env m) (hst : m.stmt = some st)
      (hcall : env.call = .raisesAfter) :
      Step limits s (.worker env)
        { s with
          worker := m.worker.abort, db := st.run s.db, hist := m.effects ++ m.events ++ s.hist }
  | spawn {task} (h : task.isRequest = true) :
      Step limits s (.spawn task) { s with tasks := s.tasks ++ [task] }
  | serve {call t t' st evs} (ht : s.tasks[call]? = some t)
      (hm : t.Case limits s.clock s.db call t' st evs) :
      Step limits s (.serve call)
        { s with db := st.run s.db, tasks := s.tasks.set call t', hist := evs ++ s.hist }

variable {limits : LimitsConfig} {s s' : State} {a : Act}

theorem step_cases (h : step limits s a = some s') : Step limits s a s' := by
  cases a with
  | wait t =>
    simp only [step] at h
    split at h
    · next ht =>
      cases h
      exact .wait ht
    · cases h
  | worker env =>
    simp only [step, Worker.step, Option.map_map, Option.map_eq_some_iff] at h
    obtain ⟨m, hm, rfl⟩ := h
    have hm := Worker.move_cases hm
    cases hst : m.stmt with
    | none => simpa [hst] using Step.quiet hm hst
    | some st =>
      cases hcall : env.call with
      | returns => simpa [hst, hcall] using Step.returns hm hst hcall
      | raises => simpa [hst, hcall] using Step.raises hm hst hcall
      | raisesAfter => simpa [hst, hcall] using Step.raisesAfter hm hst hcall
  | spawn task =>
    simp only [step] at h
    split at h
    · next ht =>
      cases h
      exact .spawn ht
    · cases h
  | serve call =>
    simp only [step, Option.bind_eq_some_iff, Option.map_eq_some_iff] at h
    obtain ⟨t, ht, ⟨t', st, evs⟩, hm, rfl⟩ := h
    exact .serve ht (Task.move_cases hm)

/-! ## What a step can do -/

/-- The statements that the action `a` can run in `s`. -/
def Issued (s : State) (a : Act) : Stmt → Prop
  | .read => True
  | .enqueueOutbound _ => ∃ call, a = .serve call
  | .markOutboundSent id => ∃ env now msg, a = .worker env ∧ s.worker.pc = .sending now msg ∧
      env.outcome = .ok ∧ msg.id = id
  | .markOutboundFailed id => ∃ env now msg, a = .worker env ∧ s.worker.pc = .sending now msg ∧
      maxAttempts ≤ msg.attempts + 1 ∧ msg.id = id
  | .requeueOutbound id next attempts backAt => ∃ maxEnqueuedAt,
    backAt = max ⌊s.clock⌋ maxEnqueuedAt + 1 ∧
    ((∃ env now ending, a = .worker env ∧
        s.worker.pc = .requeueing now id next attempts maxEnqueuedAt ending) ∨
      (∃ call msg, a = .serve call ∧ msg.attempts = attempts ∧
        s.tasks[call]? = some (.moveBackMax id msg next maxEnqueuedAt)) ∨
      ∃ call origin pk pausedUntil row rows, a = .serve call ∧ row.id = id ∧
        row.attempts = attempts ∧ next = max row.nextAttempt pausedUntil ∧
        s.tasks[call]? = some (.pauseMax origin pk pausedUntil row rows maxEnqueuedAt))
  | .dropStaleOutbound beforeTs => ∃ env wake, a = .worker env ∧ s.worker.pc = .sleeping wake ∧
      beforeTs = ⌊s.clock⌋ - maxAgeSeconds
  | .setCancelled id => ∃ call msg, a = .serve call ∧
      s.tasks[call]? = some (.removeRead id (some msg))
  | .setPause pk pausedUntil => ∃ call t seconds, a = .serve call ∧ s.tasks[call]? = some t ∧
      pausedUntil = ⌊s.clock⌋ + seconds ∧
      (t = .pauseRecipient pk seconds ∨ ∃ id msg, t = .pauseUserRead id (some msg) ∧
        pk = msg.toPubkey ∧ seconds = outboundPauseSeconds)
  | .deletePause pk =>
    (∃ env now msg pausedUntil, a = .worker env ∧ msg.toPubkey = pk ∧
      s.worker.pc = .pauseRead now msg (some pausedUntil) ∧ pausedUntil ≤ ⌊s.clock⌋) ∨
    ∃ call cached pausedUntil messages, a = .serve call ∧ pausedUntil ≤ ⌊s.clock⌋ ∧
      s.tasks[call]? = some (.listingRead cached pk (some pausedUntil) messages)
  | .writeAudit _ => True

/-- The events that the action `a` can add to the history of `s`. -/
def Recorded (s : State) (a : Act) : Event → Prop
  | .inserted call _ id _ time => a = .serve call ∧ id = s.db.outbound.seq + 1 ∧ time = s.clock
  | .sendStart id pk tick time => ∃ env msg, a = .worker env ∧
      Unpaused s.clock s.worker.pc tick msg ∧ id = msg.id ∧ pk = msg.toPubkey ∧ time = s.clock
  | .sendEnd id pk outcome time => ∃ env now msg, a = .worker env ∧
      s.worker.pc = .sending now msg ∧ id = msg.id ∧ pk = msg.toPubkey ∧
      outcome = env.outcome ∧ time = s.clock
  | .requeued id => ∃ next attempts backAt,
      Issued s a (.requeueOutbound id next attempts backAt)
  | .failedAudit id => ∃ env now msg outcome attempts, a = .worker env ∧ msg.id = id ∧
      s.worker.pc = .failing now msg outcome attempts
  | .cancelReturned id => ∃ call msg, a = .serve call ∧
      s.tasks[call]? = some (.removeWritten id msg)
  | .pauseReturned pk pausedUntil => ∃ call origin, a = .serve call ∧
      s.tasks[call]? = some (.pauseRows origin pk pausedUntil [])

theorem Worker.Case.issued {env : Env} {m : WorkerMove} {st : Stmt}
    (hm : s.worker.Case limits s.clock s.db env m) (hst : m.stmt = some st) :
    Issued s (.worker env) st := by
  cases hm with
  | tick hpc => cases hst; exact ⟨env, _, rfl, hpc, rfl⟩
  | clearPause hpc hpast => cases hst; exact .inl ⟨env, _, _, _, rfl, rfl, hpc, hpast⟩
  | sendOk hpc hout => cases hst; exact ⟨env, _, _, rfl, hpc, hout, rfl⟩
  | giveUp hpc _ hmax => cases hst; exact ⟨env, _, _, rfl, hpc, hmax, rfl⟩
  | requeue hpc => cases hst; exact ⟨_, rfl, .inl ⟨env, _, _, rfl, hpc⟩⟩
  | sendStart | sleep => cases hst
  | _ => cases hst; trivial

theorem Task.Case.issued {call : Nat} {t t' : Task} {st : Stmt} {evs : List Event}
    (ht : s.tasks[call]? = some t) (hm : t.Case limits s.clock s.db call t' st evs) :
    Issued s (.serve call) st := by
  cases hm with
  | firstPacket | nextPacket => exact ⟨call, rfl⟩
  | pauseUserWrite => exact ⟨call, _, _, rfl, ht, rfl, .inr ⟨_, _, rfl, rfl, rfl⟩⟩
  | pauseDirectWrite => exact ⟨call, _, _, rfl, ht, rfl, .inl rfl⟩
  | cancel => exact ⟨call, _, rfl, ht⟩
  | moveBackWrite => exact ⟨_, rfl, .inr (.inl ⟨call, _, rfl, rfl, ht⟩)⟩
  | pauseRequeue => exact ⟨_, rfl, .inr (.inr ⟨call, _, _, _, _, _, rfl, rfl, rfl, rfl, ht⟩)⟩
  | listClear hpast => exact .inr ⟨call, _, _, _, rfl, hpast, ht⟩
  | pauseReturn hst =>
    rcases hst with rfl | ⟨row, rfl⟩
    · trivial
    · trivial
  | _ => trivial

/-- A statement that moves a row to the back is on record. -/
def Logged (hist : List Event) : Stmt → Prop
  | .requeueOutbound id _ _ _ => .requeued id ∈ hist
  | _ => True

theorem Worker.Case.logged {env : Env} {m : WorkerMove} {st : Stmt}
    (hm : s.worker.Case limits s.clock s.db env m) (hst : m.stmt = some st) :
    Logged (m.effects ++ m.events ++ s.hist) st := by
  cases hm with
  | sendStart | sleep => cases hst
  | requeue => cases hst; simp [Logged]
  | _ => cases hst; trivial

theorem Task.Case.logged {call : Nat} {t t' : Task} {st : Stmt} {evs : List Event}
    (hm : t.Case limits s.clock s.db call t' st evs) : Logged (evs ++ s.hist) st := by
  cases hm with
  | moveBackWrite | pauseRequeue => simp [Logged]
  | pauseReturn hst =>
    rcases hst with rfl | ⟨row, rfl⟩
    · trivial
    · trivial
  | _ => trivial

/-- A step runs at most one statement. -/
theorem Step.stmt (h : Step limits s a s') :
    s'.db = s.db ∨ ∃ st, s'.db = st.run s.db ∧ Issued s a st ∧ Logged s'.hist st := by
  cases h with
  | wait | quiet | raises | spawn => exact .inl rfl
  | returns hm hst | raisesAfter hm hst => exact .inr ⟨_, rfl, hm.issued hst, hm.logged hst⟩
  | serve ht hm => exact .inr ⟨_, rfl, hm.issued ht, hm.logged⟩

/-- A segment of the worker has at most one event, before or with its statement. -/
theorem Worker.Case.recorded {env : Env} {m : WorkerMove}
    (hm : s.worker.Case limits s.clock s.db env m) :
    m.events = [] ∧ m.effects = [] ∨
      ∃ e, Recorded s (.worker env) e ∧
        (m.events = [e] ∧ m.effects = [] ∨ m.events = [] ∧ m.effects = [e]) := by
  cases hm with
  | sendStart hun =>
    refine .inr ⟨_, ?_, .inl ⟨rfl, rfl⟩⟩
    exact ⟨env, _, rfl, hun, rfl, rfl, rfl⟩
  | sendOk hpc hout =>
    refine .inr ⟨_, ?_, .inl ⟨rfl, rfl⟩⟩
    exact ⟨env, _, _, rfl, hpc, rfl, rfl, hout.symm, rfl⟩
  | giveUp hpc | retry hpc =>
    refine .inr ⟨_, ?_, .inl ⟨rfl, rfl⟩⟩
    exact ⟨env, _, _, rfl, hpc, rfl, rfl, rfl, rfl⟩
  | audit hpc =>
    refine .inr ⟨_, ?_, .inr ⟨rfl, rfl⟩⟩
    exact ⟨env, _, _, _, _, rfl, rfl, hpc⟩
  | requeue hpc =>
    refine .inr ⟨_, ?_, .inr ⟨rfl, rfl⟩⟩
    exact ⟨_, _, _, _, rfl, .inl ⟨env, _, _, rfl, hpc⟩⟩
  | _ => exact .inl ⟨rfl, rfl⟩

theorem Task.Case.recorded {call : Nat} {t t' : Task} {st : Stmt} {evs : List Event}
    (ht : s.tasks[call]? = some t) (hm : t.Case limits s.clock s.db call t' st evs) :
    evs = [] ∨ ∃ e, Recorded s (.serve call) e ∧ evs = [e] := by
  cases hm with
  | firstPacket | nextPacket =>
    refine .inr ⟨_, ?_, rfl⟩
    exact ⟨rfl, rfl, rfl⟩
  | cancelReturn | pauseReturn =>
    refine .inr ⟨_, ?_, rfl⟩
    exact ⟨call, _, rfl, ht⟩
  | moveBackWrite =>
    refine .inr ⟨_, ?_, rfl⟩
    exact ⟨_, _, _, _, rfl, .inr (.inl ⟨call, _, rfl, rfl, ht⟩)⟩
  | pauseRequeue =>
    refine .inr ⟨_, ?_, rfl⟩
    exact ⟨_, _, _, _, rfl, .inr (.inr ⟨call, _, _, _, _, _, rfl, rfl, rfl, rfl, ht⟩)⟩
  | _ => exact .inl rfl

/-- The history grows by at most one event, which the step accounts for. -/
theorem Step.hist (h : Step limits s a s') :
    s'.hist = s.hist ∨ ∃ e, Recorded s a e ∧ s'.hist = e :: s.hist := by
  cases h with
  | wait | spawn => exact .inl rfl
  | quiet hm | raises hm =>
    rcases hm.recorded with ⟨hev, -⟩ | ⟨e, hrec, ⟨hev, -⟩ | ⟨hev, -⟩⟩
    · exact .inl (by simp [hev])
    · exact .inr ⟨e, hrec, by simp [hev]⟩
    · exact .inl (by simp [hev])
  | returns hm | raisesAfter hm =>
    rcases hm.recorded with ⟨hev, heff⟩ | ⟨e, hrec, ⟨hev, heff⟩ | ⟨hev, heff⟩⟩
    · exact .inl (by simp [hev, heff])
    · exact .inr ⟨e, hrec, by simp [hev, heff]⟩
    · exact .inr ⟨e, hrec, by simp [hev, heff]⟩
  | serve ht hm =>
    rcases hm.recorded ht with hev | ⟨e, hrec, hev⟩
    · exact .inl (by simp [hev])
    · exact .inr ⟨e, hrec, by simp [hev]⟩

theorem Step.mem_hist (h : Step limits s a s') {e : Event} (he : e ∈ s'.hist) :
    e ∈ s.hist ∨ Recorded s a e := by
  rcases h.hist with heq | ⟨e', hrec, heq⟩
  · exact .inl (heq ▸ he)
  · rw [heq, List.mem_cons] at he
    exact he.elim (fun he => .inr (he ▸ hrec)) .inl

theorem justified_step {P : Event → List Event → Prop} (h : Machine.Justified P s.hist)
    (hs : Step limits s a s') (hP : ∀ e, Recorded s a e → P e s.hist) :
    Machine.Justified P s'.hist := by
  rcases hs.hist with heq | ⟨e, hrec, heq⟩
  · rwa [heq]
  · rw [heq]
    exact ⟨hP e hrec, h⟩

theorem Step.hist_mono (h : Step limits s a s') {e : Event} (he : e ∈ s.hist) : e ∈ s'.hist := by
  rcases h.hist with heq | ⟨e', -, heq⟩
  · rwa [heq]
  · rw [heq]
    exact List.mem_cons_of_mem _ he

theorem Step.clock_le (h : Step limits s a s') : s.clock ≤ s'.clock := by
  cases h with
  | wait h => exact h
  | _ => exact le_refl _

theorem Worker.Case.held {env : Env} {m : WorkerMove} {msg : OutboundMessage}
    (hm : s.worker.Case limits s.clock s.db env m) (h : m.worker.pc.held = some msg) :
    s.worker.pc.held = some msg ∧ m.worker.pc.tick = s.worker.pc.tick ∧
        (∀ now, s.worker.pc ≠ .sending now msg) ∨
      ∃ now, s.worker.pc = .dropped now ∧ m.worker.pc = .claimed now msg ∧ m.stmt = some .read ∧
        s.db.claimNextOutbound now env.pick = some (some msg) := by
  cases hm with
  | claim hpc hclaim =>
    cases h
    exact .inr ⟨_, hpc, rfl, rfl, hclaim⟩
  | readPause hpc | clearPause hpc =>
    cases h
    exact .inl ⟨by rw [hpc]; rfl, by rw [hpc]; rfl, by simp [hpc]⟩
  | sendStart hun =>
    cases h
    exact .inl ⟨hun.held, by rw [hun.tick]; rfl, fun now => hun.not_sending now _⟩
  | _ => cases h

/-- The worker holds a row because it held it before and did not send it in this step,
or it has just claimed it. -/
theorem Step.held (h : Step limits s a s') {msg : OutboundMessage}
    (hheld : s'.worker.pc.held = some msg) :
    s.worker.pc.held = some msg ∧ s'.worker.pc.tick = s.worker.pc.tick ∧
        (∀ env now, a = .worker env → s.worker.pc ≠ .sending now msg) ∨
      ∃ env now, a = .worker env ∧ s.worker.pc = .dropped now ∧ s'.worker.pc = .claimed now msg ∧
        s'.db = s.db ∧ s.db.claimNextOutbound now env.pick = some (some msg) := by
  cases h with
  | wait | spawn | serve => exact .inl ⟨hheld, rfl, nofun⟩
  | raises | raisesAfter => cases hheld
  | quiet hm hst =>
    refine (hm.held hheld).imp (fun ⟨h, htick, hne⟩ => ⟨h, htick, fun _ now _ => hne now⟩) ?_
    rintro ⟨now, -, -, hst', -⟩
    rw [hst] at hst'
    cases hst'
  | returns hm hst =>
    refine (hm.held hheld).imp (fun ⟨h, htick, hne⟩ => ⟨h, htick, fun _ now _ => hne now⟩) ?_
    rintro ⟨now, hpc, hpc', hst', hclaim⟩
    rw [hst] at hst'
    cases hst'
    exact ⟨_, now, rfl, hpc, hpc', rfl, hclaim⟩

theorem Worker.Case.tick_eq {env : Env} {m : WorkerMove} {now : Int}
    (hm : s.worker.Case limits s.clock s.db env m) (h : m.worker.pc.tick = some now) :
    s.worker.pc.tick = some now ∨
      ∃ wake, s.worker.pc = .sleeping wake ∧ now = ⌊s.clock⌋ ∧ wake ≤ s.clock ∧
        m.stmt = some (.dropStaleOutbound (now - maxAgeSeconds)) ∧ m.effects ++ m.events = [] := by
  cases hm with
  | tick hpc hwake =>
    cases h
    exact .inr ⟨_, hpc, rfl, hwake, rfl, rfl⟩
  | claim hpc | readPause hpc | clearPause hpc | giveUp hpc | retry hpc =>
    cases h
    rw [hpc]
    exact .inl rfl
  | defer hdef =>
    cases h
    exact .inl hdef.tick
  | sendStart hun =>
    cases h
    exact .inl hun.tick
  | _ => cases h

/-- A tick is in progress because it was, or has just begun and dropped the stale rows. -/
theorem Step.tick (h : Step limits s a s') {now : Int} (htick : s'.worker.pc.tick = some now) :
    s.worker.pc.tick = some now ∨
      ∃ env wake, a = .worker env ∧ s.worker.pc = .sleeping wake ∧ now = ⌊s.clock⌋ ∧
        wake ≤ s.clock ∧ s'.clock = s.clock ∧
        s'.db = s.db.dropStaleOutbound (now - maxAgeSeconds) ∧ s'.hist = s.hist := by
  cases h with
  | wait | spawn | serve => exact .inl htick
  | raises | raisesAfter => cases htick
  | quiet hm hst =>
    refine (hm.tick_eq htick).imp_right ?_
    rintro ⟨wake, -, -, -, hst', -⟩
    rw [hst] at hst'
    cases hst'
  | returns hm hst =>
    refine (hm.tick_eq htick).imp_right ?_
    rintro ⟨wake, hpc, hnow, hwake, hst', hevs⟩
    rw [hst] at hst'
    cases hst'
    exact ⟨_, wake, rfl, hpc, hnow, hwake, rfl, rfl, by rw [hevs]; rfl⟩

theorem Step.tasks (h : Step limits s a s') {t' : Task} (ht' : t' ∈ s'.tasks) :
    t' ∈ s.tasks ∨ t'.isRequest = true ∨
      ∃ call t st evs, a = .serve call ∧ s.tasks[call]? = some t ∧
        t.Case limits s.clock s.db call t' st evs ∧ s'.db = st.run s.db ∧
        s'.hist = evs ++ s.hist := by
  cases h with
  | spawn h =>
    rcases List.mem_append.mp ht' with ht' | ht'
    · exact .inl ht'
    · rw [List.mem_singleton.mp ht']
      exact .inr (.inl h)
  | serve ht hm =>
    rcases List.mem_or_eq_of_mem_set ht' with ht' | rfl
    · exact .inl ht'
    · exact .inr (.inr ⟨_, _, _, _, rfl, ht, hm, rfl, rfl⟩)
  | _ => exact .inl ht'

/-- A tick does not run ahead of the clock. -/
def TickPast (s : State) : Prop := ∀ now, s.worker.pc.tick = some now → now ≤ ⌊s.clock⌋

theorem tickPast_step (h : TickPast s) (hs : Step limits s a s') : TickPast s' := by
  intro now htick
  have hclock := Int.floor_le_floor hs.clock_le
  rcases hs.tick htick with htick | ⟨env, wake, -, -, rfl, -⟩
  · have := h now htick
    omega
  · exact hclock

/-- A request is where it was, or has made the step. -/
theorem Step.task_keep (h : Step limits s a s') {call : Nat} {t : Task}
    (ht : s.tasks[call]? = some t) :
    s'.tasks[call]? = some t ∨ ∃ t' st evs, a = .serve call ∧ s'.tasks[call]? = some t' ∧
      t.Case limits s.clock s.db call t' st evs := by
  have hlen : call < s.tasks.length := (List.getElem?_eq_some_iff.mp ht).1
  cases h with
  | spawn => exact .inl (by simp [List.getElem?_append_left hlen, ht])
  | @serve k t₀ t' st evs ht₀ hm =>
    by_cases hk : k = call
    · subst hk
      rw [ht] at ht₀
      cases ht₀
      exact .inr ⟨t', st, evs, rfl, List.getElem?_set_self hlen, hm⟩
    · exact .inl ((List.getElem?_set_ne hk).trans ht)
  | _ => exact .inl ht

theorem Step.task_get (h : Step limits s a s') {call : Nat} {t' : Task}
    (ht' : s'.tasks[call]? = some t') :
    s.tasks[call]? = some t' ∨ t'.isRequest = true ∨
      ∃ t st evs, a = .serve call ∧ s.tasks[call]? = some t ∧
        t.Case limits s.clock s.db call t' st evs := by
  cases h with
  | @spawn task htask =>
    rw [List.getElem?_append] at ht'
    split at ht'
    · exact .inl ht'
    · have := List.eq_of_mem_singleton (List.mem_of_getElem? ht')
      exact .inr (.inl (this ▸ htask))
  | @serve k t₀ t₁ st evs ht₀ hm =>
    by_cases hk : k = call
    · subst hk
      rw [List.getElem?_set_self (List.getElem?_eq_some_iff.mp ht₀).1] at ht'
      cases ht'
      exact .inr (.inr ⟨t₀, st, evs, rfl, ht₀, hm⟩)
    · exact .inl ((List.getElem?_set_ne hk).symm.trans ht')
  | _ => exact .inl ht'

theorem Step.seq_le (h : Step limits s a s') : s.db.outbound.seq ≤ s'.db.outbound.seq := by
  rcases h.stmt with hdb | ⟨st, hdb, -, -⟩
  · rw [hdb]
  · rw [hdb, Stmt.seq_run]
    split <;> omega

/-- The reply behind call `call` is about to insert its packet number `index + 1`. -/
def Inserting (s : State) (call : Nat) (reply : Reply) (now : Int) (index : Nat) : Prop :=
  (∃ depth, s.tasks[call]? = some (.replyDepth reply depth) ∧ now = ⌊s.clock⌋ ∧ index = 0) ∨
    ∃ packets, s.tasks[call]? = some (.replyInsert reply now index packets)

/-- A new insertion on record is the row that the step inserted for a reply. -/
theorem Step.inserted (h : Step limits s a s') {call index id : Nat} {row : OutboundRow} {time : ℚ}
    (he : .inserted call index id row time ∈ s'.hist) :
    .inserted call index id row time ∈ s.hist ∨
      a = .serve call ∧ id = s.db.outbound.seq + 1 ∧ time = s.clock ∧
        s'.db = s.db.enqueueOutbound row ∧
        ∃ reply now i packet packets, index = i + 1 ∧ row = reply.row now packet ∧
          Inserting s call reply now i ∧
          s'.tasks[call]? = some (.replyInsert reply now (i + 1) packets) := by
  rcases h.mem_hist he with he' | hrec
  · exact .inl he'
  · obtain ⟨rfl, rfl, rfl⟩ := hrec
    cases h with
    | serve ht hm =>
      have hlen : call < s.tasks.length := (List.getElem?_eq_some_iff.mp ht).1
      rcases List.mem_append.mp he with hev | hev
      · refine .inr ⟨rfl, rfl, rfl, ?_⟩
        clear he
        cases hm with
        | firstPacket =>
          cases List.eq_of_mem_singleton hev
          exact ⟨rfl, _, _, 0, _, _, rfl, rfl, .inl ⟨_, ht, rfl, rfl⟩, List.getElem?_set_self hlen⟩
        | nextPacket =>
          cases List.eq_of_mem_singleton hev
          exact ⟨rfl, _, _, _, _, _, rfl, rfl, .inr ⟨_, ht⟩, List.getElem?_set_self hlen⟩
        | _ => simp at hev
      · exact .inl hev

/-- Every insertion on record is in the table. -/
def Known (s : State) : Prop :=
  ∀ call index id row time, .inserted call index id row time ∈ s.hist → id ≤ s.db.outbound.seq

theorem known_step (h : Known s) (hs : Step limits s a s') : Known s' := by
  intro call index id row time he
  rcases hs.inserted he with he | ⟨-, rfl, -, hdb, -⟩
  · exact (h call index id row time he).trans hs.seq_le
  · rw [hdb]
    exact le_refl _

/-- Runs whose every step meets `ok`. -/
abbrev Runs (limits : LimitsConfig) (ok : State → Act → Bool) (s t : State) : Prop :=
  Machine.Run (step limits) (fun s a => ok s a = true) s t

/-- The condition on a step that all steps meet. -/
def anyStep (_ : State) (_ : Act) : Bool := true

end Bbs
