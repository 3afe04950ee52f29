import MeshcoreBbs.OutboundAttempts

/-!
# The worker as a service

`start`, `stop` and the process around the worker.  `stop` sets a flag that `_run` looks at
between two ticks, and after `drain_timeout_seconds` cancels the task wherever it waits.  A
restart, after an exit or a crash at any point, keeps the tables and the clock and nothing else:
the worker starts anew and the requests under way are gone.

`lost` and `requested` are there for the properties: the transmissions whose end was never
recorded, and every request made so far.
-/

namespace Bbs

/-- `drain_timeout_seconds`. -/
def drainTimeoutSeconds : ℚ := 30

structure Service where
  state : State
  /-- When `stop` was called. -/
  stopAt : Option ℚ := none
  exited : Bool := false
  lost : List Nat := []
  requested : List Task := []

inductive ServiceAct
  | act (a : Act)
  | stop
  | cancel
  | restart

/-- The row whose transmission is under way. -/
def WorkerPc.inFlight : WorkerPc → List Nat
  | .sending _ msg => [msg.id]
  | _ => []

/-- The row that was transmitted, if the error of `mark_outbound_sent` leaves it pending. -/
def WorkerPc.unmarked (env : Env) : WorkerPc → List Nat
  | .sending _ msg => if env.outcome = .ok ∧ env.call = .raises then [msg.id] else []
  | _ => []

/-- The sleep of `_run` is over, and `while not self._stop.is_set()` comes next. -/
def WorkerPc.atLoopHead (clock : ℚ) : WorkerPc → Bool
  | .sleeping wake => wake ≤ clock
  | _ => false

/-- The task is cancelled: nothing of it runs again. -/
def State.cancelWorker (s : State) : State := { s with worker := s.worker.abort }

/-- A new process on the same tables. -/
def State.reboot (s : State) : State := { s with worker := Worker.init, tasks := [] }

def serviceStep (limits : LimitsConfig) (v : Service) : ServiceAct → Option Service
  | .act (.worker env) =>
    if v.exited then none
    else if v.stopAt.isSome ∧ v.state.worker.pc.atLoopHead v.state.clock then
      some { v with exited := true }
    else (step limits v.state (.worker env)).map fun t =>
      { v with state := t, lost := v.state.worker.pc.unmarked env ++ v.lost }
  | .act (.spawn task) => (step limits v.state (.spawn task)).map fun t =>
      { v with state := t, requested := task :: v.requested }
  | .act a => (step limits v.state a).map fun t => { v with state := t }
  | .stop => some { v with stopAt := some (v.stopAt.getD v.state.clock) }
  | .cancel => v.stopAt.bind fun since =>
      if v.exited = false ∧ since + drainTimeoutSeconds ≤ v.state.clock then
        some { v with
          state := v.state.cancelWorker
          exited := true
          lost := v.state.worker.pc.inFlight ++ v.lost }
      else none
  | .restart =>
    some { v with
      state := v.state.reboot
      stopAt := none
      exited := false
      lost := v.state.worker.pc.inFlight ++ v.lost }

/-- A process just started on the tables it found. -/
structure ServiceStart (v : Service) : Prop where
  state : Initial v.state
  running : v.exited = false
  stopAt : v.stopAt = none
  lost : v.lost = []
  requested : v.requested = []

/-- The service over a state of the worker and its neighbours. -/
def State.serve (s : State) : Service := { state := s }

theorem Initial.serve {s : State} (h : Initial s) : ServiceStart s.serve := ⟨h, rfl, rfl, rfl, rfl⟩

inductive ServiceStep (limits : LimitsConfig) (v : Service) : ServiceAct → Service → Prop
  | worker {env t} (hlive : v.exited = false)
      (hgo : v.stopAt.isSome → v.state.worker.pc.atLoopHead v.state.clock = false)
      (hs : Step limits v.state (.worker env) t) :
      ServiceStep limits v (.act (.worker env))
        { v with state := t, lost := v.state.worker.pc.unmarked env ++ v.lost }
  | leave {env} (hlive : v.exited = false) (hstop : v.stopAt.isSome)
      (hhead : v.state.worker.pc.atLoopHead v.state.clock = true) :
      ServiceStep limits v (.act (.worker env)) { v with exited := true }
  | spawn {task t} (hs : Step limits v.state (.spawn task) t) :
      ServiceStep limits v (.act (.spawn task))
        { v with state := t, requested := task :: v.requested }
  | other {a t} (hs : Step limits v.state a t) (hw : ∀ env, a ≠ .worker env)
      (hn : ∀ task, a ≠ .spawn task) : ServiceStep limits v (.act a) { v with state := t }
  | stop : ServiceStep limits v .stop { v with stopAt := some (v.stopAt.getD v.state.clock) }
  | cancel {since} (hstop : v.stopAt = some since) (hlive : v.exited = false)
      (hlate : since + drainTimeoutSeconds ≤ v.state.clock) :
      ServiceStep limits v .cancel
        { v with
          state := v.state.cancelWorker
          exited := true
          lost := v.state.worker.pc.inFlight ++ v.lost }
  | restart :
      ServiceStep limits v .restart
        { v with
          state := v.state.reboot
          stopAt := none
          exited := false
          lost := v.state.worker.pc.inFlight ++ v.lost }

variable {limits : LimitsConfig} {s s' : State} {a : Act} {v v' : Service} {b : ServiceAct}

theorem serviceStep_cases (h : serviceStep limits v b = some v') : ServiceStep limits v b v' := by
  cases b with
  | act a =>
    cases a with
    | worker env =>
      simp only [serviceStep] at h
      split at h
      · cases h
      · next hlive =>
        have hlive : v.exited = false := by simpa using hlive
        split at h
        · next hhead =>
          cases h
          exact .leave hlive hhead.1 hhead.2
        · next hhead =>
          rw [Option.map_eq_some_iff] at h
          obtain ⟨t, ht, rfl⟩ := h
          refine .worker hlive (fun hstop => ?_) (step_cases ht)
          simpa [hstop] using hhead
    | spawn task =>
      simp only [serviceStep, Option.map_eq_some_iff] at h
      obtain ⟨t, ht, rfl⟩ := h
      exact .spawn (step_cases ht)
    | wait time =>
      simp only [serviceStep, Option.map_eq_some_iff] at h
      obtain ⟨t, ht, rfl⟩ := h
      exact .other (step_cases ht) (by simp) (by simp)
    | serve call =>
      simp only [serviceStep, Option.map_eq_some_iff] at h
      obtain ⟨t, ht, rfl⟩ := h
      exact .other (step_cases ht) (by simp) (by simp)
  | stop =>
    cases h
    exact .stop
  | cancel =>
    simp only [serviceStep, Option.bind_eq_some_iff] at h
    obtain ⟨since, hstop, h⟩ := h
    split at h
    · next hc =>
      cases h
      exact .cancel hstop hc.1 hc.2
    · cases h
  | restart =>
    cases h
    exact .restart

/-- Runs of the service. -/
abbrev ServiceRuns (limits : LimitsConfig) (v v' : Service) : Prop :=
  Machine.Run (serviceStep limits) (fun _ _ => True) v v'

/-- What the worker's steps, a cancellation and a restart keep holds of the state all along. -/
theorem ServiceStep.keeps {P : State → Prop} (h : ServiceStep limits v b v')
    (hstep : ∀ s a s', P s → Step limits s a s' → P s')
    (hcancel : ∀ s, P s → P s.cancelWorker) (hreboot : ∀ s, P s → P s.reboot) (hp : P v.state) :
    P v'.state := by
  cases h with
  | worker _ _ hs | spawn hs | other hs => exact hstep _ _ _ hp hs
  | leave | stop => exact hp
  | cancel => exact hcancel _ hp
  | restart => exact hreboot _ hp

/-- The history of the service only grows. -/
theorem ServiceStep.hist_mono (h : ServiceStep limits v b v') {e : Event} (he : e ∈ v.state.hist) :
    e ∈ v'.state.hist := by
  cases h with
  | worker _ _ hs | spawn hs | other hs => exact hs.hist_mono he
  | leave | stop | cancel | restart => exact he

theorem ServiceStep.requested_mono (h : ServiceStep limits v b v') {task : Task}
    (ht : task ∈ v.requested) : task ∈ v'.requested := by
  cases h with
  | spawn => exact List.mem_cons_of_mem _ ht
  | worker | leave | other | stop | cancel | restart => exact ht

theorem ServiceStep.clock_le (h : ServiceStep limits v b v') : v.state.clock ≤ v'.state.clock := by
  cases h with
  | worker _ _ hs | spawn hs | other hs => exact hs.clock_le
  | leave | stop | cancel | restart => exact le_refl _

/-! ## What becomes of a row in a step -/

/-- How a step leaves the row `id`. -/
inductive RowStep (s s' : State) (id : Nat) (row : OutboundRow) : OutboundRow → Prop
  | kept : RowStep s s' id row row
  | moved {next attempts backAt} (hback : ⌊s.clock⌋ < backAt) : RowStep s s' id row
      { row with nextAttempt := next, attempts := attempts, enqueuedAt := backAt }
  | sent {now msg} (hpc : s.worker.pc = .sending now msg) (hid : msg.id = id)
      (hend : .sendEnd id msg.toPubkey .ok s.clock ∈ s'.hist) :
      RowStep s s' id row { row with status := .sent }
  | failed {now msg} (hpc : s.worker.pc = .sending now msg) (hid : msg.id = id)
      (hmax : maxAttempts ≤ msg.attempts + 1) (hend : failures id s'.hist = failures id s.hist + 1) :
      RowStep s s' id row { row with status := .failed }
  | dropped (hpend : row.status = .pending) (hold : row.enqueuedAt + maxAgeSeconds < ⌊s.clock⌋) :
      RowStep s s' id row { row with status := .dropped }
  | cancelled {call : Nat} {msg : OutboundMessage}
      (ht : s.tasks[call]? = some (Task.removeRead id (some msg))) :
      RowStep s s' id row { row with status := .cancelled }

theorem Worker.Case.rowStep {env : Env} {m : WorkerMove} {st : Stmt} {id : Nat} {row : OutboundRow}
    (hm : s.worker.Case limits s.clock s.db env m) (hst : m.stmt = some st)
    (hhist : s'.hist = m.effects ++ m.events ++ s.hist) :
    RowStep s s' id row (st.onRow id row) := by
  cases hm with
  | tick hpc =>
    cases hst
    simp only [Stmt.onRow]
    split
    · next hc =>
      refine .dropped hc.1 ?_
      have := hc.2
      omega
    · exact .kept
  | sendOk hpc =>
    cases hst
    simp only [Stmt.onRow]
    split
    · next hid =>
      subst hid
      refine .sent hpc rfl ?_
      rw [hhist]
      simp
    · exact .kept
  | giveUp hpc hout hmax =>
    cases hst
    simp only [Stmt.onRow]
    split
    · next hid =>
      subst hid
      refine .failed hpc rfl hmax ?_
      rw [hhist]
      simp [hout]
    · exact .kept
  | requeue hpc =>
    cases hst
    simp only [Stmt.onRow]
    split
    · exact .moved (by omega)
    · exact .kept
  | sendStart | sleep => cases hst
  | _ =>
    cases hst
    exact .kept

theorem Task.Case.rowStep {call : Nat} {t t' : Task} {st : Stmt} {evs : List Event} {id : Nat}
    {row : OutboundRow} (ht : s.tasks[call]? = some t)
    (hm : t.Case limits s.clock s.db call t' st evs) : RowStep s s' id row (st.onRow id row) := by
  cases hm with
  | cancel =>
    simp only [Stmt.onRow]
    split
    · next hid =>
      subst hid
      exact .cancelled ht
    · exact .kept
  | moveBackWrite | pauseRequeue =>
    simp only [Stmt.onRow]
    split
    · exact .moved (by omega)
    · exact .kept
  | pauseReturn hst =>
    rcases hst with rfl | ⟨detail, rfl⟩
    · exact .kept
    · exact .kept
  | _ => exact .kept

/-- A row stays in the table; a step changes it in one of the ways of `RowStep`. -/
theorem Step.row (hs : Step limits s a s') {id : Nat} {row : OutboundRow}
    (hrow : s.db.outbound.get? id = some row) :
    ∃ row', s'.db.outbound.get? id = some row' ∧ RowStep s s' id row row' := by
  cases hs with
  | wait | quiet | raises | spawn => exact ⟨row, hrow, .kept⟩
  | returns hm hst | raisesAfter hm hst =>
    exact ⟨_, Stmt.get?_run_of_some hrow _, hm.rowStep hst rfl⟩
  | serve ht hm => exact ⟨_, Stmt.get?_run_of_some hrow _, hm.rowStep ht⟩

/-- Who a message goes to, what it says and how urgent it is never changes. -/
theorem RowStep.fixed {id : Nat} {row row' : OutboundRow} (h : RowStep s s' id row row') :
    row'.toPubkey = row.toPubkey ∧ row'.body = row.body ∧ row'.priority = row.priority ∧
      row'.triggerCommand = row.triggerCommand ∧ row'.msgKind = row.msgKind := by
  cases h <;> exact ⟨rfl, rfl, rfl, rfl, rfl⟩

end Bbs
