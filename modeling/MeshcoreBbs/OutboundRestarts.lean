import MeshcoreBbs.OutboundService
import MeshcoreBbs.OutboundSettled

/-!
# No reply is lost

Whatever crashes, restarts, database errors and queue actions happen in between, a row that was
inserted is still there with its recipient and text, and its status has its reason
(`rows_accounted`).  A row is transmitted again only after a transmission that failed or whose
end was not recorded (`resends_bounded`).
-/

namespace Bbs

variable {limits : LimitsConfig} {s s' : State} {a : Act} {v v' : Service} {b : ServiceAct}
  {base : Nat → Nat}

/-! ## Attempts and failed transmissions -/

/-- The rows of which a request has read the attempts, to write them back. -/
def Task.copies : Task → List (Nat × Nat)
  | moveBackRead id (some msg) => [(id, msg.attempts)]
  | moveBackMax id msg _ _ => [(id, msg.attempts)]
  | pauseRows _ _ _ rows => rows.map fun row => (row.id, row.attempts)
  | pauseMax _ _ _ row rows _ => (row :: rows).map fun row => (row.id, row.attempts)
  | _ => []

theorem Task.copies_of_isRequest {t : Task} (h : t.isRequest = true) : t.copies = [] := by
  cases t <;> first | rfl | cases h

/-- No row, plan or copy shows more attempts than transmissions of the row have failed,
`base` attempts apart. -/
structure AttemptsMade (base : Nat → Nat) (s : State) : Prop where
  rows : ∀ id row, s.db.outbound.get? id = some row → row.attempts ≤ base id + failures id s.hist
  held : ∀ msg, s.worker.pc.held = some msg → msg.attempts ≤ base msg.id + failures msg.id s.hist
  planned : ∀ now id next attempts m ending,
    s.worker.pc = .requeueing now id next attempts m ending →
    attempts ≤ base id + failures id s.hist
  copies : ∀ t ∈ s.tasks, ∀ id attempts, (id, attempts) ∈ t.copies →
    attempts ≤ base id + failures id s.hist

theorem failures_le (h : Step limits s a s') (r : Nat) : failures r s.hist ≤ failures r s'.hist := by
  rcases h.hist with heq | ⟨e, -, heq⟩
  · rw [heq]
  · rw [heq]
    simp only [failures, List.countP_cons]
    omega

theorem Worker.Case.plan {env : Env} {m : WorkerMove}
    (hm : s.worker.Case limits s.clock s.db env m) {now : Int} {id k : Nat} {next x : Int}
    {ending : TickEnd} (hpc : m.worker.pc = .requeueing now id next k x ending) :
    ∃ msg, s.worker.pc.held = some msg ∧ msg.id = id ∧ (k = msg.attempts ∨ k = msg.attempts + 1 ∧
      failures id (m.effects ++ m.events ++ s.hist) = failures id s.hist + 1) := by
  cases hm with
  | defer hdef =>
    cases hpc
    exact ⟨_, hdef.held, rfl, .inl rfl⟩
  | retry h hout =>
    cases hpc
    exact ⟨_, by rw [h]; rfl, rfl, .inr ⟨rfl, by simp [hout]⟩⟩
  | _ => cases hpc

theorem Task.Case.copies {call : Nat} {t t' : Task} {st : Stmt} {evs : List Event}
    (hm : t.Case limits s.clock s.db call t' st evs) {id k : Nat} (h : (id, k) ∈ t'.copies) :
    (id, k) ∈ t.copies ∨ ∃ row, s.db.outbound.get? id = some row ∧ row.attempts = k := by
  cases hm with
  | @moveBackRead id' =>
    cases hmsg : s.db.getPendingOutbound id' with
    | none =>
      rw [hmsg] at h
      cases h
    | some msg =>
      rw [hmsg] at h
      simp only [Task.copies, List.mem_singleton, Prod.mk.injEq] at h
      obtain ⟨rfl, rfl⟩ := h
      obtain ⟨row, hrow, -, rfl⟩ := Db.getPendingOutbound_some hmsg
      exact .inr ⟨row, hrow, rfl⟩
  | pauseSelect =>
    simp only [Task.copies, List.mem_map] at h
    obtain ⟨msg, hmsg, heq⟩ := h
    cases heq
    obtain ⟨id', row, hrow, -, -, rfl⟩ := Db.mem_pendingFor.mp hmsg
    exact .inr ⟨row, hrow, rfl⟩
  | moveBackMax | pauseMax => exact .inl h
  | pauseRequeue =>
    refine .inl ?_
    simp only [Task.copies, List.map_cons, List.mem_cons] at h ⊢
    exact .inr h
  | _ => cases h

/-- A new row starts without attempts. -/
theorem Task.Case.fresh {call : Nat} {t t' : Task} {row : OutboundRow} {evs : List Event}
    (hm : t.Case limits s.clock s.db call t' (.enqueueOutbound row) evs) : row.attempts = 0 := by
  cases hm with
  | firstPacket | nextPacket => rfl
  | pauseReturn hst => rcases hst with hst | ⟨detail, hst⟩ <;> cases hst

theorem Step.fresh (hs : Step limits s a s') {id : Nat} {row : OutboundRow}
    (hnew : s.db.outbound.get? id = none) (hrow : s'.db.outbound.get? id = some row) :
    row.attempts = 0 := by
  have hold : ∀ {env m st}, s.worker.Case limits s.clock s.db env m → m.stmt = some st →
      (st.run s.db).outbound.get? id = some row → False := by
    intro env m st hm hst hrow
    rcases Stmt.get?_run hrow with ⟨row', hrow', -⟩ | ⟨rfl, -⟩
    · cases hnew.symm.trans hrow'
    · cases hm <;> cases hst
  cases hs with
  | wait | quiet | raises | spawn => cases hnew.symm.trans hrow
  | returns hm hst | raisesAfter hm hst => exact (hold hm hst hrow).elim
  | serve ht hm =>
    rcases Stmt.get?_run hrow with ⟨row', hrow', -⟩ | ⟨rfl, -⟩
    · cases hnew.symm.trans hrow'
    · exact hm.fresh

/-- What a step writes back as attempts was planned or read before. -/
theorem AttemptsMade.of_issued (h : AttemptsMade base s) {id k : Nat} {next backAt : Int}
    (hst : Issued s a (.requeueOutbound id next k backAt)) : k ≤ base id + failures id s.hist := by
  obtain ⟨m, -, ⟨env, now, ending, -, hpc⟩ | ⟨call, msg, -, rfl, ht⟩ |
    ⟨call, origin, pk, pausedUntil, row, rows, -, rfl, rfl, -, ht⟩⟩ := hst
  · exact h.planned _ _ _ _ _ _ hpc
  · exact h.copies _ (List.mem_of_getElem? ht) _ _ (by simp [Task.copies])
  · exact h.copies _ (List.mem_of_getElem? ht) _ _ (by simp [Task.copies])

theorem attemptsMade_step (h : AttemptsMade base s) (hs : Step limits s a s') :
    AttemptsMade base s' := by
  have hmono : ∀ {id k}, k ≤ base id + failures id s.hist → k ≤ base id + failures id s'.hist := by
    intro id k hk
    have := failures_le hs id
    omega
  refine ⟨fun id row hrow => hmono ?_, fun msg hheld => ?_, ?_, ?_⟩
  · cases hold : s.db.outbound.get? id with
    | none =>
      rw [hs.fresh hold hrow]
      omega
    | some row₀ =>
      have h0 := h.rows id row₀ hold
      rcases hs.stmt with hdb | ⟨st, hdb, hiss, -⟩
      · rw [hdb, hold] at hrow
        cases hrow
        exact h0
      · rw [hdb, Stmt.get?_run_of_some hold] at hrow
        cases hrow
        by_cases hst : ∃ next k backAt, st = .requeueOutbound id next k backAt
        · obtain ⟨next, k, backAt, rfl⟩ := hst
          simpa [Stmt.onRow] using h.of_issued hiss
        · rw [onRow_attempts fun next k backAt heq => hst ⟨next, k, backAt, heq⟩]
          exact h0
  · rcases hs.held hheld with ⟨hheld, -⟩ | ⟨env, now, -, -, -, -, hclaim⟩
    · exact hmono (h.held msg hheld)
    · obtain ⟨id, row, -, hrow, rfl, -⟩ := Db.claimNextOutbound_some hclaim
      exact hmono (h.rows id row hrow)
  · intro now id next k x ending hpc
    have hwork : ∀ {env m}, s.worker.Case limits s.clock s.db env m →
        m.worker.pc = .requeueing now id next k x ending →
        failures id (m.effects ++ m.events ++ s.hist) = failures id s'.hist →
        k ≤ base id + failures id s'.hist := by
      intro env m hm hpc hhist
      obtain ⟨msg, hheld, rfl, hk | ⟨hk, hfail⟩⟩ := hm.plan hpc
      · rw [hk]
        exact hmono (h.held msg hheld)
      · have := h.held msg hheld
        omega
    cases hs with
    | wait | spawn | serve => exact hmono (h.planned _ _ _ _ _ _ hpc)
    | raises | raisesAfter => cases hpc
    | quiet hm hst =>
      refine hwork hm hpc ?_
      cases hm with
      | sendStart | sleep => rfl
      | _ => cases hst
    | returns hm => exact hwork hm hpc rfl
  · intro t' ht' id k hk
    rcases hs.tasks ht' with ht' | hreq | ⟨call, t, st, evs, -, ht, hm, -⟩
    · exact hmono (h.copies t' ht' id k hk)
    · rw [Task.copies_of_isRequest hreq] at hk
      cases hk
    · rcases hm.copies hk with hk | ⟨row, hrow, rfl⟩
      · exact hmono (h.copies t (List.mem_of_getElem? ht) id k hk)
      · exact hmono (h.rows id row hrow)

theorem attemptsMade_initial (h : Initial s) : AttemptsMade (startAttempts s) s where
  rows id row hrow := by
    simp only [startAttempts, hrow, Option.map_some, Option.getD_some]
    omega
  held msg hmsg := by
    rw [h.worker] at hmsg
    cases hmsg
  planned now id next k x ending hpc := by simp [h.worker, Worker.init] at hpc
  copies t ht := by
    rw [h.tasks] at ht
    cases ht

/-- A worker that forgets what it held has no more attempts to its name. -/
theorem AttemptsMade.forget (h : AttemptsMade base s) {w : Worker} {tasks : List Task}
    (hheld : w.pc.held = none)
    (hplan : ∀ now id next k x ending, w.pc ≠ .requeueing now id next k x ending)
    (htasks : ∀ t ∈ tasks, t ∈ s.tasks) :
    AttemptsMade base { s with worker := w, tasks := tasks } where
  rows := h.rows
  held msg hmsg := by
    rw [hheld] at hmsg
    cases hmsg
  planned now id next k x ending hpc := absurd hpc (hplan now id next k x ending)
  copies t ht := h.copies t (htasks t ht)

theorem attemptsMade_service (h : AttemptsMade base v.state) (hs : ServiceStep limits v b v') :
    AttemptsMade base v'.state := by
  refine hs.keeps (fun s a s' h hs => attemptsMade_step h hs) (fun s h => ?_) (fun s h => ?_) h
  · exact h.forget rfl (by simp [Worker.abort]) (fun t ht => ht)
  · exact h.forget rfl (by simp [Worker.init]) (by simp)

/-! ## Every row is accounted for -/

/-- What must have happened for the inserted row `first` to have this status. -/
def Accounts (v : Service) (id : Nat) (first : OutboundRow) : Status → Prop
  | .pending => True
  | .sent => ∃ t, .sendEnd id first.toPubkey .ok t ∈ v.state.hist
  | .failed => maxAttempts ≤ failures id v.state.hist
  | .dropped => first.enqueuedAt + maxAgeSeconds < ⌊v.state.clock⌋
  | .cancelled => Task.remove id ∈ v.requested

/-- Row `id` of the table is what has become of `first`. -/
structure Accounted (v : Service) (id : Nat) (first row : OutboundRow) : Prop where
  toPubkey : row.toPubkey = first.toPubkey
  body : row.body = first.body
  priority : row.priority = first.priority
  triggerCommand : row.triggerCommand = first.triggerCommand
  msgKind : row.msgKind = first.msgKind
  enqueuedAt : first.enqueuedAt ≤ row.enqueuedAt
  status : Accounts v id first row.status

/-- The row that a remove was asked for, until it is cancelled. -/
def Task.removing : Task → Option Nat
  | remove id => some id
  | removeRead id _ => some id
  | _ => none

theorem Task.eq_remove {t : Task} {id : Nat} (hreq : t.isRequest = true)
    (h : t.removing = some id) : t = .remove id := by
  cases t with
  | remove id' =>
    cases h
    rfl
  | removeRead => cases hreq
  | _ => cases h

structure Books (base : Nat → Nat) (v : Service) : Prop where
  attempts : AttemptsMade base v.state
  unborn : ∀ id, v.state.db.outbound.seq < id → base id = 0
  /-- What the worker holds goes to the recipient of the row. -/
  held : ∀ msg, v.state.worker.pc.held = some msg →
    ∃ row, v.state.db.outbound.get? msg.id = some row ∧ row.toPubkey = msg.toPubkey
  removing : ∀ t ∈ v.state.tasks, ∀ id, t.removing = some id → .remove id ∈ v.requested
  /-- The time at which a reply enqueues its packets has passed. -/
  replying : ∀ reply now index packets, .replyInsert reply now index packets ∈ v.state.tasks →
    now ≤ ⌊v.state.clock⌋
  rows : ∀ call index id first time, .inserted call index id first time ∈ v.state.hist →
    base id = 0 ∧ first.enqueuedAt ≤ ⌊v.state.clock⌋ ∧
      ∃ row, v.state.db.outbound.get? id = some row ∧ Accounted v id first row

theorem ServiceStep.failures_le (hs : ServiceStep limits v b v') (r : Nat) :
    failures r v.state.hist ≤ failures r v'.state.hist := by
  cases hs with
  | worker _ _ hs | spawn hs | other hs => exact Bbs.failures_le hs r
  | leave | stop | cancel | restart => exact le_refl _

theorem Accounts.mono {id : Nat} {first : OutboundRow} {status : Status}
    (h : Accounts v id first status) (hs : ServiceStep limits v b v') :
    Accounts v' id first status := by
  cases status with
  | pending => trivial
  | sent =>
    obtain ⟨t, ht⟩ := h
    exact ⟨t, hs.hist_mono ht⟩
  | failed => exact Nat.le_trans h (hs.failures_le id)
  | dropped => exact lt_of_lt_of_le h (Int.floor_le_floor hs.clock_le)
  | cancelled => exact hs.requested_mono h

theorem Accounted.mono {id : Nat} {first row : OutboundRow} (h : Accounted v id first row)
    (hs : ServiceStep limits v b v') : Accounted v' id first row :=
  { h with status := h.status.mono hs }

/-- The row after a step is accounted for. -/
theorem Books.row (h : Books base v) (hs : ServiceStep limits v b v') {id : Nat}
    {first row row' : OutboundRow} (hacc : Accounted v id first row) (hbase : base id = 0)
    (hfirst : first.enqueuedAt ≤ ⌊v.state.clock⌋) (hrow : v.state.db.outbound.get? id = some row)
    (hr : RowStep v.state v'.state id row row') : Accounted v' id first row' := by
  obtain ⟨hpk, hbody, hprio, htrig, hkind, henq, hstat⟩ := hacc
  have hclock := Int.floor_le_floor hs.clock_le
  cases hr with
  | kept => exact ⟨hpk, hbody, hprio, htrig, hkind, henq, hstat.mono hs⟩
  | @moved _ _ backAt hback =>
    refine ⟨hpk, hbody, hprio, htrig, hkind, ?_, hstat.mono hs⟩
    show first.enqueuedAt ≤ backAt
    omega
  | @sent now msg hpc hid hend =>
    refine ⟨hpk, hbody, hprio, htrig, hkind, henq, v.state.clock, ?_⟩
    obtain ⟨row₁, hrow₁, hto⟩ := h.held msg (by rw [hpc]; rfl)
    rw [hid, hrow] at hrow₁
    cases hrow₁
    rw [← hpk, hto]
    exact hend
  | @failed now msg hpc hid hmax hend =>
    refine ⟨hpk, hbody, hprio, htrig, hkind, henq, ?_⟩
    have := h.attempts.held msg (by rw [hpc]; rfl)
    rw [hid, hbase] at this
    show maxAttempts ≤ _
    omega
  | dropped hpend hold =>
    refine ⟨hpk, hbody, hprio, htrig, hkind, henq, ?_⟩
    show _ < _
    omega
  | cancelled ht =>
    refine ⟨hpk, hbody, hprio, htrig, hkind, henq, hs.requested_mono ?_⟩
    exact h.removing _ (List.mem_of_getElem? ht) id rfl

theorem Task.Case.removing {call : Nat} {t t' : Task} {st : Stmt} {evs : List Event}
    (hm : t.Case limits s.clock s.db call t' st evs) {id : Nat} (h : t'.removing = some id) :
    t.removing = some id := by
  cases hm with
  | removeRead => exact h
  | _ => cases h

theorem Task.Case.replying {call : Nat} {t t' : Task} {st : Stmt} {evs : List Event}
    (hm : t.Case limits s.clock s.db call t' st evs) {reply : Reply} {now : Int} {index : Nat}
    {packets : List Text} (h : t' = .replyInsert reply now index packets) :
    now = ⌊s.clock⌋ ∨ ∃ i rest, t = .replyInsert reply now i rest := by
  cases hm with
  | firstPacket =>
    cases h
    exact .inl rfl
  | nextPacket =>
    cases h
    exact .inr ⟨_, _, rfl⟩
  | _ => cases h

/-- What the worker holds still goes to the recipient of its row. -/
theorem Books.held_step (h : Books base v) (hs : Step limits v.state a s') {msg : OutboundMessage}
    (hheld : s'.worker.pc.held = some msg) :
    ∃ row, s'.db.outbound.get? msg.id = some row ∧ row.toPubkey = msg.toPubkey := by
  rcases hs.held hheld with ⟨hheld, -⟩ | ⟨env, now, -, -, -, hdb, hclaim⟩
  · obtain ⟨row, hrow, hto⟩ := h.held msg hheld
    obtain ⟨row', hrow', hr⟩ := hs.row hrow
    exact ⟨row', hrow', hr.fixed.1.trans hto⟩
  · obtain ⟨id, row, -, hrow, rfl, -⟩ := Db.claimNextOutbound_some hclaim
    exact ⟨row, hdb ▸ hrow, rfl⟩

/-- A step of the worker, a request or the clock keeps the books. -/
theorem Books.of_step (h : Books base v) (hserv : ServiceStep limits v b v')
    (hs : Step limits v.state a v'.state)
    (hnew : ∀ t ∈ v'.state.tasks, ∀ id, t = .remove id → .remove id ∈ v'.requested) :
    Books base v' where
  attempts := attemptsMade_service h.attempts hserv
  unborn id hid := h.unborn id (lt_of_le_of_lt hs.seq_le hid)
  held msg hheld := h.held_step hs hheld
  removing t ht id hrem := by
    rcases hs.tasks ht with ht' | hreq | ⟨call, t₀, st, evs, -, ht₀, hm, -⟩
    · exact hserv.requested_mono (h.removing t ht' id hrem)
    · exact hnew t ht id (Task.eq_remove hreq hrem)
    · exact hserv.requested_mono (h.removing t₀ (List.mem_of_getElem? ht₀) id (hm.removing hrem))
  replying reply now index packets ht := by
    have hclock := Int.floor_le_floor hs.clock_le
    rcases hs.tasks ht with ht | hreq | ⟨call, t, st, evs, -, ht, hm, -⟩
    · exact (h.replying reply now index packets ht).trans hclock
    · cases hreq
    · rcases hm.replying rfl with rfl | ⟨i, rest, rfl⟩
      · exact hclock
      · exact (h.replying reply now i rest (List.mem_of_getElem? ht)).trans hclock
  rows call index id first time he := by
    have hclock := Int.floor_le_floor hs.clock_le
    rcases hs.inserted he with he | ⟨-, rfl, -, hdb, reply, now, i, packet, packets, -, rfl, hins, -⟩
    · obtain ⟨hbase, hfirst, row, hrow, hacc⟩ := h.rows call index id first time he
      obtain ⟨row', hrow', hr⟩ := hs.row hrow
      exact ⟨hbase, hfirst.trans hclock, row', hrow', h.row hserv hacc hbase hfirst hrow hr⟩
    · refine ⟨h.unborn _ (Nat.lt_succ_self _), ?_, reply.row now packet, ?_, ?_⟩
      · rcases hins with ⟨depth, -, rfl, -⟩ | ⟨rest, ht⟩
        · exact hclock
        · exact (h.replying _ _ _ _ (List.mem_of_getElem? ht)).trans hclock
      · rw [hdb]
        refine (RowTable.get?_insert _ _ _).trans ?_
        simp
      · exact ⟨rfl, rfl, rfl, rfl, rfl, le_refl _, trivial⟩

/-- A step that only stops or replaces the worker and drops requests keeps the books. -/
theorem Books.of_stop (h : Books base v) (hserv : ServiceStep limits v b v')
    (hdb : v'.state.db = v.state.db) (hhist : v'.state.hist = v.state.hist)
    (hclock : v'.state.clock = v.state.clock) (htasks : ∀ t ∈ v'.state.tasks, t ∈ v.state.tasks)
    (hheld : ∀ msg, v'.state.worker.pc.held = some msg → v.state.worker.pc.held = some msg) :
    Books base v' where
  attempts := attemptsMade_service h.attempts hserv
  unborn id hid := h.unborn id (hdb ▸ hid)
  held msg hmsg := by
    rw [hdb]
    exact h.held msg (hheld msg hmsg)
  removing t ht id hrem := hserv.requested_mono (h.removing t (htasks t ht) id hrem)
  replying reply now index packets ht := by
    rw [hclock]
    exact h.replying reply now index packets (htasks _ ht)
  rows call index id first time he := by
    rw [hhist] at he
    obtain ⟨hbase, hfirst, row, hrow, hacc⟩ := h.rows call index id first time he
    rw [hdb, hclock]
    exact ⟨hbase, hfirst, row, hrow, hacc.mono hserv⟩

theorem books_step (h : Books base v) (hs : ServiceStep limits v b v') : Books base v' := by
  have hserv := hs
  have hold : ∀ t ∈ v.state.tasks, ∀ id, t = .remove id → .remove id ∈ v.requested := by
    intro t ht id heq
    exact h.removing t ht id (by rw [heq]; rfl)
  cases hs with
  | worker hlive hgo hs =>
    refine h.of_step hserv hs fun t ht id heq => ?_
    rcases hs.tasks ht with ht | hreq | ⟨call, t₀, st, evs, ha, -⟩
    · exact hold t ht id heq
    · cases hs <;> exact hold t ht id heq
    · cases ha
  | @spawn task t hs =>
    refine h.of_step hserv hs fun t' ht' id heq => ?_
    cases hs with
    | spawn =>
      rcases List.mem_append.mp ht' with ht' | ht'
      · exact List.mem_cons_of_mem _ (hold t' ht' id heq)
      · rw [← heq, List.mem_singleton.mp ht']
        exact List.mem_cons_self
  | other hs hw hn =>
    refine h.of_step hserv hs fun t ht id heq => ?_
    rcases hs.tasks ht with ht' | hreq | ⟨call, t₀, st, evs, -, ht₀, hm, -⟩
    · exact hold t ht' id heq
    · cases hs with
      | spawn => exact absurd rfl (hn _)
      | wait => exact hold t ht id heq
      | quiet | returns | raises | raisesAfter => exact absurd rfl (hw _)
      | serve ht₀ hm =>
        rcases List.mem_or_eq_of_mem_set ht with ht' | rfl
        · exact hold t ht' id heq
        · cases hm <;> cases heq
    · subst heq
      cases hm
  | leave | stop => exact h.of_stop hserv rfl rfl rfl (fun t ht => ht) (fun msg hmsg => hmsg)
  | cancel =>
    refine h.of_stop hserv rfl rfl rfl (fun t ht => ht) fun msg hmsg => ?_
    cases hmsg
  | restart =>
    refine h.of_stop hserv rfl rfl rfl (fun t ht => ?_) fun msg hmsg => ?_
    · cases ht
    · cases hmsg

theorem books_start (h : ServiceStart v) : Books (startAttempts v.state) v where
  attempts := attemptsMade_initial h.state
  unborn id hid := by
    cases hrow : v.state.db.outbound.get? id with
    | none => simp [startAttempts, hrow]
    | some row =>
      have := RowTable.get?_le_seq hrow
      omega
  held msg hmsg := by
    rw [h.state.worker] at hmsg
    cases hmsg
  removing t ht := by
    rw [h.state.tasks] at ht
    cases ht
  replying reply now index packets ht := by
    rw [h.state.tasks] at ht
    cases ht
  rows call index id first time he := by
    rw [h.state.hist] at he
    cases he

/-- **No reply is lost.**  In every run, with crashes, restarts, shutdowns, database errors and
queue actions at any point, an inserted row is still in the table with its recipient, text and
priority.  It is pending, or it has a transmission that ended `OK`, at least `MAX_ATTEMPTS` that
failed, more than a day since it was enqueued, or a request to remove it. -/
theorem rows_accounted {v₀ : Service} (h0 : ServiceStart v₀) (hrun : ServiceRuns limits v₀ v)
    {call index id : Nat} {first : OutboundRow} {time : ℚ}
    (he : .inserted call index id first time ∈ v.state.hist) :
    ∃ row, v.state.db.outbound.get? id = some row ∧ Accounted v id first row := by
  have h : Books (startAttempts v₀.state) v :=
    hrun.invariant (fun _ _ _ h _ hs => books_step h (serviceStep_cases hs)) (books_start h0)
  exact (h.rows call index id first time he).2.2

/-- The reply of `replyAndClaim` is cut off by a crash while it is transmitted, and transmitted
again by the new process. -/
def crashedSend : List ServiceAct :=
  replyAndClaim.map .act ++ [.act (.worker {}), .restart, .act (.worker {}),
    .act (.worker { pick := some 1 }), .act (.worker {}), .act (.worker {}), .act (.worker {})]

theorem rows_accounted_crash : ∃ v row, ServiceRuns {} emptyStart.serve v ∧
    .inserted 0 1 1 hiRow 100 ∈ v.state.hist ∧ v.state.db.outbound.get? 1 = some row ∧
    Accounted v 1 hiRow row ∧ row.status = .sent ∧ starts 1 v.state.hist = 2 := by
  obtain ⟨v, hrun, hp⟩ := Machine.exists_run (serviceStep {}) (fun _ _ => true)
    (p := fun v => decide (starts 1 v.state.hist = 2 ∧
      Event.inserted 0 1 1 hiRow 100 ∈ v.state.hist) &&
      (v.state.db.outbound.get? 1).any fun row => row.status = .sent)
    (s := emptyStart.serve) crashedSend (by decide +kernel)
  simp only [Bool.and_eq_true, decide_eq_true_eq, Option.any_eq_true] at hp
  obtain ⟨⟨hstarts, he⟩, row', hrow', hsent⟩ := hp
  have hrun : ServiceRuns {} emptyStart.serve v := hrun.mono fun _ _ _ => trivial
  obtain ⟨row, hrow, hacc⟩ := rows_accounted emptyStart_initial.serve hrun he
  cases hrow.symm.trans hrow'
  exact ⟨v, _, hrun, he, hrow, hacc, hsent, hstarts⟩

/-! ## Repeated transmissions -/

/-- The row may be transmitted, and is not being transmitted. -/
def RowOpen (r : Nat) (s : State) : Prop :=
  (∀ k, s.worker.pc.phase r ≠ .sending k) ∧
    (IsPending s.db r ∨ ∃ k, s.worker.pc.phase r = .holding k)

theorem WorkerPc.phase_sending {pc : WorkerPc} {r k : Nat} (h : pc.phase r = .sending k) :
    ∃ now msg, pc = .sending now msg ∧ msg.id = r := by
  cases pc with
  | sending now msg =>
    simp only [WorkerPc.phase] at h
    split at h
    · next heq => exact ⟨now, msg, rfl, heq⟩
    · cases h
  | claimed | pauseRead | pauseCleared =>
    simp only [WorkerPc.phase] at h
    split at h <;> cases h
  | requeueing =>
    simp only [WorkerPc.phase] at h
    split at h
    · split at h <;> cases h
    · cases h
  | _ => cases h

/-- What a step has to do with the transmissions of `r`; `lost` are those it loses. -/
inductive SendStep (r : Nat) (s s' : State) (lost : List Nat) : Prop
  | aside (hstarts : starts r s'.hist = starts r s.hist)
      (hfail : failures r s'.hist = failures r s.hist)
      (hopen : RowOpen r s' → RowOpen r s ∨ s.db.outbound.seq < r)
  | start (hopen : RowOpen r s) (hseq : r ≤ s.db.outbound.seq)
      (hstarts : starts r s'.hist = starts r s.hist + 1)
      (hfail : failures r s'.hist = failures r s.hist) (hsending : ¬ RowOpen r s')
  | failed (hstarts : starts r s'.hist = starts r s.hist)
      (hfail : failures r s'.hist = failures r s.hist + 1)
  | marked (hstarts : starts r s'.hist = starts r s.hist)
      (hfail : failures r s'.hist = failures r s.hist) (hclosed : ¬ RowOpen r s')
  | lost (hstarts : starts r s'.hist = starts r s.hist)
      (hfail : failures r s'.hist = failures r s.hist) (hlost : lost.count r = 1)

/-- The worker's segment is not about `r`, or does not end a transmission of it. -/
theorem Worker.Case.aside {env : Env} {m : WorkerMove} {r : Nat}
    (hm : s.worker.Case limits s.clock s.db env m) (hidle : ∀ k, s.worker.pc.phase r ≠ .sending k)
    (hstart : ∀ k, m.worker.pc.phase r ≠ .sending k) (effects : List Event)
    (heff : effects = m.effects ∨ effects = []) :
    starts r (effects ++ m.events ++ s.hist) = starts r s.hist ∧
      failures r (effects ++ m.events ++ s.hist) = failures r s.hist := by
  cases hm with
  | @sendStart now msg hun =>
    have hne : msg.id ≠ r := fun heq => hstart msg.attempts (by simp [WorkerPc.phase, heq])
    rcases heff with rfl | rfl <;> simp [hne]
  | @sendOk now msg hpc | @giveUp now msg hpc | @retry now msg hpc =>
    have hne : msg.id ≠ r := fun heq => hidle msg.attempts (by simp [WorkerPc.phase, heq, hpc])
    rcases heff with rfl | rfl <;> simp [hne]
  | _ => rcases heff with rfl | rfl <;> simp

/-- The worker comes to hold a row by claiming it, and it claims pending rows. -/
theorem Worker.Case.open_of_holding {env : Env} {m : WorkerMove} {r k : Nat}
    (hm : s.worker.Case limits s.clock s.db env m) (h : m.worker.pc.phase r = .holding k) :
    RowOpen r s := by
  cases hm with
  | @claim now msg hpc hclaim =>
    obtain ⟨id, row, -, hrow, rfl, hready, -⟩ := Db.claimNextOutbound_some hclaim
    simp only [Worker.goto_pc, WorkerPc.phase] at h
    split at h
    · next heq =>
      refine ⟨by simp [hpc, WorkerPc.phase], .inl ⟨row, ?_, ((Db.ready_iff _ _).mp hready).1⟩⟩
      rw [← heq]
      exact hrow
    · cases h
  | readPause hpc | clearPause hpc =>
    have h : s.worker.pc.phase r = .holding k := by rw [hpc]; exact h
    exact ⟨by simp [h], .inr ⟨k, h⟩⟩
  | @defer now msg next hdef =>
    simp only [Worker.goto_pc, WorkerPc.phase] at h
    split at h <;> simp at h
  | @sendStart now msg hun =>
    simp only [WorkerPc.phase] at h
    split at h <;> cases h
  | @retry now msg hpc =>
    simp only [Worker.goto_pc, WorkerPc.phase] at h
    split at h <;> simp at h
  | _ => cases h

theorem Worker.Case.not_enqueue {env : Env} {m : WorkerMove} {st : Stmt}
    (hm : s.worker.Case limits s.clock s.db env m) (hst : m.stmt = some st) (row : OutboundRow) :
    st ≠ .enqueueOutbound row := by
  rintro rfl
  cases hm <;> cases hst

theorem isPending_run {db : Db} {st : Stmt} {r : Nat} (hnew : ∀ row, st ≠ .enqueueOutbound row)
    (h : IsPending (st.run db) r) : IsPending db r := by
  obtain ⟨row', hrow', hp⟩ := h
  obtain ⟨row, hrow, hp, -⟩ := pending_run st hrow' hp hnew
  exact ⟨row, hrow, hp⟩

theorem sendStep_aside {env : Env} {m : WorkerMove} {r : Nat} {st? : Option Stmt} {w : Worker}
    {effects : List Event} (hm : s.worker.Case limits s.clock s.db env m)
    (hidle : ∀ k, s.worker.pc.phase r ≠ .sending k) (hstart : ∀ k, m.worker.pc.phase r ≠ .sending k)
    (hw : w = m.worker ∨ w = m.worker.abort) (hst : st? = m.stmt ∨ st? = none)
    (heff : effects = m.effects ∨ effects = []) (lost : List Nat) :
    SendStep r s { s with
      worker := w
      db := st?.elim s.db (Stmt.run s.db)
      hist := effects ++ m.events ++ s.hist } lost := by
  obtain ⟨hstarts, hfail⟩ := hm.aside hidle hstart effects heff
  refine .aside hstarts hfail fun hopen => .inl ?_
  rcases hopen.2 with hpend | ⟨k, hk⟩
  · refine ⟨hidle, .inl ?_⟩
    cases st? with
    | none => exact hpend
    | some st =>
      rcases hst with hst | hst
      · exact isPending_run (hm.not_enqueue hst.symm) hpend
      · cases hst
  · rcases hw with rfl | rfl
    · exact hm.open_of_holding hk
    · cases hk

/-- A row marked sent is not pending. -/
theorem not_pending_sent (db : Db) (r : Nat) : ¬ IsPending ((Stmt.markOutboundSent r).run db) r := by
  rintro ⟨row', hrow', hp⟩
  obtain ⟨row, -, -, rfl⟩ := pending_run (.markOutboundSent r) hrow' hp (by simp)
  simp [Stmt.onRow] at hp

/-- The end of a transmission of `r`. -/
theorem sendStep_end {env : Env} {now : Int} {msg : OutboundMessage}
    (hs : Step limits s (.worker env) s') (hpc : s.worker.pc = .sending now msg) :
    SendStep msg.id s s' (s.worker.pc.unmarked env) := by
  have hcase : ∀ {m}, s.worker.Case limits s.clock s.db env m →
      env.outcome = .ok ∧ m.stmt = some (.markOutboundSent msg.id) ∧
          m.events = [.sendEnd msg.id msg.toPubkey .ok s.clock] ∧ m.effects = [] ∧
          m.worker.pc = .ended .sent ∨
        env.outcome ≠ .ok ∧ m.stmt.isSome ∧
          m.events = [.sendEnd msg.id msg.toPubkey env.outcome s.clock] ∧ m.effects = [] := by
    intro m hm
    cases hm with
    | sendOk hpc' hout =>
      cases hpc.symm.trans hpc'
      exact .inl ⟨hout, rfl, rfl, rfl, rfl⟩
    | giveUp hpc' hout | retry hpc' hout =>
      cases hpc.symm.trans hpc'
      exact .inr ⟨hout, rfl, rfl, rfl⟩
    | defer hdef =>
      cases hdef with
      | paused hpc' => cases hpc.symm.trans hpc'
      | throttled hun | radioDown hun => exact absurd hpc (hun.not_sending _ _)
    | sendStart hun => exact absurd hpc (hun.not_sending _ _)
    | tick hpc' | claimNone hpc' | claim hpc' | readPause hpc' | clearPause hpc' | audit hpc'
    | requeue hpc' | sleep hpc' => cases hpc.symm.trans hpc'
  cases hs with
  | quiet hm hst =>
    rcases hcase hm with ⟨-, hst', -⟩ | ⟨-, hst', -⟩
    · cases hst.symm.trans hst'
    · rw [hst] at hst'
      cases hst'
  | @returns _ m _ hm hst | @raisesAfter _ m _ hm hst =>
    rcases hcase hm with ⟨-, hst', hev, heff, hend⟩ | ⟨hout, -, hev, heff⟩
    · cases hst.symm.trans hst'
      refine .marked (by simp [hev, heff]) (by simp [hev, heff]) ?_
      rintro ⟨-, hp | ⟨k, hk⟩⟩
      · exact not_pending_sent _ _ hp
      · simp [hend, WorkerPc.phase, Worker.abort] at hk
    · exact .failed (by simp [hev, heff]) (by simp [hev, heff, hout])
  | raises hm hst hcall =>
    rcases hcase hm with ⟨hout, -, hev, -⟩ | ⟨hout, -, hev, -⟩
    · refine .lost (by simp [hev]) (by simp [hev]) ?_
      simp [hpc, WorkerPc.unmarked, hout, hcall]
    · exact .failed (by simp [hev]) (by simp [hev, hout])

/-- A transmission begins with the row in hand, and without a statement. -/
theorem Worker.Case.begins {env : Env} {m : WorkerMove} {r k : Nat}
    (hm : s.worker.Case limits s.clock s.db env m) (h : m.worker.pc.phase r = .sending k) :
    m.stmt = none ∧ s.worker.pc.phase r = .holding k ∧
      ∃ msg, s.worker.pc.held = some msg ∧ msg.id = r ∧
        m.events = [.sendStart r msg.toPubkey (s.worker.pc.tick.getD 0) s.clock] := by
  cases hm with
  | @sendStart now msg hun =>
    simp only [WorkerPc.phase] at h
    split at h
    · next heq =>
      cases h
      refine ⟨rfl, ?_, msg, hun.held, heq, ?_⟩
      · rw [hun.phase, if_pos heq]
      · simp [hun.tick, heq]
    · cases h
  | claim | readPause | clearPause | defer | retry =>
    simp only [Worker.goto_pc, WorkerPc.phase] at h
    split at h <;> simp at h
  | _ => cases h

theorem sendStep_worker {env : Env} (hs : Step limits s (.worker env) s')
    (hheld : ∀ msg, s.worker.pc.held = some msg → msg.id ≤ s.db.outbound.seq) (r : Nat) :
    SendStep r s s' (s.worker.pc.unmarked env) := by
  by_cases hsend : ∃ now msg, s.worker.pc = .sending now msg ∧ msg.id = r
  · obtain ⟨now, msg, hpc, rfl⟩ := hsend
    exact sendStep_end hs hpc
  · have hidle : ∀ k, s.worker.pc.phase r ≠ .sending k :=
      fun k hk => hsend (WorkerPc.phase_sending hk)
    have hquiet : ∀ {m : WorkerMove} {st}, s.worker.Case limits s.clock s.db env m →
        m.stmt = some st → ∀ k, m.worker.pc.phase r ≠ .sending k := by
      intro m st hm hst k hk
      cases hst.symm.trans (hm.begins hk).1
    cases hs with
    | @quiet _ m hm hst =>
      by_cases hk : ∃ k, m.worker.pc.phase r = .sending k
      · obtain ⟨k, hk⟩ := hk
        obtain ⟨-, hhold, msg, hmsg, hid, hev⟩ := hm.begins hk
        refine .start ⟨hidle, .inr ⟨k, hhold⟩⟩ (hid ▸ hheld msg hmsg) (by simp [hev]) (by simp [hev]) ?_
        exact fun hopen => hopen.1 k hk
      · have heff : ([] : List Event) = m.effects ∨ ([] : List Event) = [] := .inr rfl
        exact sendStep_aside hm hidle (fun k h => hk ⟨k, h⟩) (.inl rfl) (.inr rfl) heff _
    | returns hm hst =>
      exact sendStep_aside hm hidle (hquiet hm hst) (.inl rfl) (.inl hst.symm) (.inl rfl) _
    | raises hm hst =>
      exact sendStep_aside hm hidle (hquiet hm hst) (.inr rfl) (.inr rfl) (.inr rfl) _
    | raisesAfter hm hst =>
      exact sendStep_aside hm hidle (hquiet hm hst) (.inr rfl) (.inl hst.symm) (.inl rfl) _

/-- Requests and the clock have no part in transmissions. -/
theorem sendStep_other (hs : Step limits s a s') (hw : ∀ env, a ≠ .worker env) (r : Nat)
    (lost : List Nat) : SendStep r s s' lost := by
  cases hs with
  | wait | spawn => exact .aside rfl rfl .inl
  | quiet | returns | raises | raisesAfter => exact absurd rfl (hw _)
  | serve ht hm =>
    obtain ⟨hfail, hstarts⟩ := hm.counts (r := r) s.hist
    refine .aside hstarts hfail fun hopen => ?_
    rcases hopen.2 with ⟨row', hrow', hp⟩ | hk
    · rcases Stmt.get?_run hrow' with ⟨row, hrow, rfl⟩ | ⟨-, rfl⟩
      · exact .inl ⟨hopen.1, .inl ⟨row, hrow, Stmt.pending_of_onRow hp⟩⟩
      · exact .inr (Nat.lt_succ_self _)
    · exact .inl ⟨hopen.1, .inr hk⟩

/-- The transmissions of `r` begun, against those known to have failed and those lost. -/
structure Credit (r : Nat) (v : Service) : Prop where
  most : starts r v.state.hist ≤ failures r v.state.hist + v.lost.count r + 1
  even : RowOpen r v.state → starts r v.state.hist ≤ failures r v.state.hist + v.lost.count r
  unborn : v.state.db.outbound.seq < r → starts r v.state.hist = 0
  held : ∀ msg, v.state.worker.pc.held = some msg → msg.id ≤ v.state.db.outbound.seq

theorem Credit.of_step {r : Nat} (h : Credit r v) {lost : List Nat}
    (hs : Step limits v.state a v'.state) (hsend : SendStep r v.state v'.state lost)
    (hlost : v'.lost = lost ++ v.lost) : Credit r v' := by
  obtain ⟨hmost, heven, hunborn, hheld⟩ := h
  have hseq := hs.seq_le
  have hcount : v'.lost.count r = lost.count r + v.lost.count r := by rw [hlost, List.count_append]
  have hheld' : ∀ msg, v'.state.worker.pc.held = some msg → msg.id ≤ v'.state.db.outbound.seq := by
    intro msg hmsg
    rcases hs.held hmsg with ⟨hmsg, -⟩ | ⟨env, now, -, -, -, -, hclaim⟩
    · have := hheld msg hmsg
      omega
    · obtain ⟨id, row, -, hrow, rfl, -⟩ := Db.claimNextOutbound_some hclaim
      exact (RowTable.get?_le_seq hrow).trans hseq
  cases hsend with
  | aside hstarts hfail hopen =>
    refine ⟨by omega, fun ho => ?_, fun hr => ?_, hheld'⟩
    · rcases hopen ho with ho | hr
      · have := heven ho
        omega
      · have := hunborn hr
        omega
    · have := hunborn (by omega)
      omega
  | start hopen hr hstarts hfail hsending =>
    have := heven hopen
    exact ⟨by omega, fun ho => absurd ho hsending, fun hlt => by omega, hheld'⟩
  | failed hstarts hfail =>
    refine ⟨by omega, fun _ => by omega, fun hr => ?_, hheld'⟩
    have := hunborn (by omega)
    omega
  | marked hstarts hfail hclosed =>
    refine ⟨by omega, fun ho => absurd ho hclosed, fun hr => ?_, hheld'⟩
    have := hunborn (by omega)
    omega
  | lost hstarts hfail hone =>
    refine ⟨by omega, fun _ => by omega, fun hr => ?_, hheld'⟩
    have := hunborn (by omega)
    omega

/-- The worker is taken away, and with it the transmission under way. -/
theorem Credit.of_stop {r : Nat} (h : Credit r v) (hdb : v'.state.db = v.state.db)
    (hhist : v'.state.hist = v.state.hist) (hphase : v'.state.worker.pc.phase r = .idle)
    (hheld : v'.state.worker.pc.held = none)
    (hlost : v'.lost = v.state.worker.pc.inFlight ++ v.lost) : Credit r v' := by
  have hcount : v'.lost.count r = v.state.worker.pc.inFlight.count r + v.lost.count r := by
    rw [hlost, List.count_append]
  have hmost := h.most
  refine ⟨by rw [hhist]; omega, fun ho => ?_, fun hr => ?_, fun msg hmsg => ?_⟩
  · rw [hhist]
    by_cases hsend : ∃ k, v.state.worker.pc.phase r = .sending k
    · have hone : v.state.worker.pc.inFlight.count r = 1 := by
        obtain ⟨k, hk⟩ := hsend
        obtain ⟨now, msg, hpc, heq⟩ := WorkerPc.phase_sending hk
        simp [hpc, WorkerPc.inFlight, heq]
      omega
    · have heven := h.even ⟨fun k hk => hsend ⟨k, hk⟩, .inl ?_⟩
      · omega
      · rcases ho.2 with hp | ⟨k, hk⟩
        · exact hdb ▸ hp
        · cases hphase.symm.trans hk
  · rw [hhist]
    exact h.unborn (hdb ▸ hr)
  · rw [hheld] at hmsg
    cases hmsg

theorem credit_step {r : Nat} (h : Credit r v) (hs : ServiceStep limits v b v') : Credit r v' := by
  cases hs with
  | worker _ _ hs => exact h.of_step hs (sendStep_worker hs h.held r) rfl
  | spawn hs => exact h.of_step hs (sendStep_other hs (by simp) r []) rfl
  | other hs hw => exact h.of_step hs (sendStep_other hs hw r []) rfl
  | leave | stop => exact ⟨h.most, h.even, h.unborn, h.held⟩
  | cancel | restart => exact h.of_stop rfl rfl rfl rfl rfl

theorem credit_start (h : ServiceStart v) (r : Nat) : Credit r v := by
  refine ⟨?_, fun _ => ?_, fun _ => ?_, fun msg hmsg => ?_⟩
  · simp [h.state.hist]
  · simp [h.state.hist]
  · simp [h.state.hist]
  · rw [h.state.worker] at hmsg
    cases hmsg

/-- **A row is transmitted again only after a failure or a loss.**  In every run, with crashes,
restarts, shutdowns, database errors and queue actions at any point, the transmissions of a row
are at most one more than those that ended `NO_ACK` or `ERROR` and those that were cut off or
whose success could not be recorded; a row that is pending while no transmission is under way has none
to spare. -/
theorem resends_bounded {v₀ : Service} (h0 : ServiceStart v₀) (hrun : ServiceRuns limits v₀ v)
    (r : Nat) :
    starts r v.state.hist ≤ failures r v.state.hist + v.lost.count r + 1 ∧
      (IsPending v.state.db r → v.state.worker.pc.inFlight = [] →
        starts r v.state.hist ≤ failures r v.state.hist + v.lost.count r) := by
  have h : Credit r v :=
    hrun.invariant (fun _ _ _ h _ hs => credit_step h (serviceStep_cases hs)) (credit_start h0 r)
  refine ⟨h.most, fun hp hidle => h.even ⟨fun k hk => ?_, .inl hp⟩⟩
  obtain ⟨now, msg, hpc, -⟩ := WorkerPc.phase_sending hk
  simp [hpc, WorkerPc.inFlight] at hidle

theorem resends_bounded_crash : ∃ v, ServiceRuns {} emptyStart.serve v ∧
    starts 1 v.state.hist = 2 ∧ failures 1 v.state.hist = 0 ∧ v.lost = [1] ∧
    starts 1 v.state.hist ≤ failures 1 v.state.hist + v.lost.count 1 + 1 := by
  obtain ⟨v, hrun, hp⟩ := Machine.exists_run (serviceStep {}) (fun _ _ => true)
    (p := fun v => decide (starts 1 v.state.hist = 2 ∧ failures 1 v.state.hist = 0 ∧ v.lost = [1]))
    (s := emptyStart.serve) crashedSend (by decide +kernel)
  rw [decide_eq_true_eq] at hp
  have hrun : ServiceRuns {} emptyStart.serve v := hrun.mono fun _ _ _ => trivial
  exact ⟨v, hrun, hp.1, hp.2.1, hp.2.2, (resends_bounded emptyStart_initial.serve hrun 1).1⟩

/-! ## Shutdown -/

/-- Transmissions begun. -/
def sendStarts (hist : List Event) : Nat :=
  hist.countP fun e => match e with
    | .sendStart _ _ _ _ => true
    | _ => false

/-- The tick in progress may still begin a transmission. -/
def WorkerPc.maySend : WorkerPc → Bool
  | .dropped _ => true
  | .claimed _ _ => true
  | .pauseRead _ _ _ => true
  | .pauseCleared _ _ => true
  | _ => false

/-- What the worker may still begin once it is told to stop. -/
def Service.pledged (v : Service) : Nat :=
  if v.exited = false ∧ v.state.worker.pc.maySend = true then 1 else 0

theorem Unpaused.maySend {clock : ℚ} {pc : WorkerPc} {now : Int} {msg : OutboundMessage}
    (h : Unpaused clock pc now msg) : pc.maySend = true := by
  cases h <;> rfl

/-- Outside the start of a tick, a segment does not gain the right to send; to send uses it. -/
theorem Worker.Case.pledge {env : Env} {m : WorkerMove}
    (hm : s.worker.Case limits s.clock s.db env m)
    (hhead : s.worker.pc.atLoopHead s.clock = false) (effects : List Event)
    (heff : effects = m.effects ∨ effects = []) :
    sendStarts (effects ++ m.events ++ s.hist) + (if m.worker.pc.maySend then 1 else 0) ≤
      sendStarts s.hist + (if s.worker.pc.maySend then 1 else 0) := by
  cases hm with
  | tick hpc hwake => simp [hpc, WorkerPc.atLoopHead, hwake] at hhead
  | sendStart hun =>
    rw [hun.maySend]
    rcases heff with rfl | rfl <;> simp [sendStarts, WorkerPc.maySend]
  | claim hpc | readPause hpc | clearPause hpc =>
    rcases heff with rfl | rfl <;> simp [hpc, WorkerPc.maySend, sendStarts]
  | _ => rcases heff with rfl | rfl <;> simp [sendStarts, WorkerPc.maySend, Worker.afterTick]

theorem pledged_step (hstop : v.stopAt.isSome) (hb : b ≠ .restart)
    (hs : ServiceStep limits v b v') :
    v'.stopAt.isSome ∧ sendStarts v'.state.hist + v'.pledged ≤ sendStarts v.state.hist + v.pledged := by
  have hserve : ∀ {call : Nat} {t t' st evs}, Task.Case limits v.state.clock v.state.db call t t' st evs →
      sendStarts (evs ++ v.state.hist) = sendStarts v.state.hist := by
    intro call t t' st evs hm
    cases hm <;> simp [sendStarts]
  have habort : ∀ w : Worker, w.abort.pc.maySend = false := fun w => rfl
  cases hs with
  | worker hlive hgo hs =>
    refine ⟨hstop, ?_⟩
    have hhead := hgo hstop
    simp only [Service.pledged, hlive, true_and]
    cases hs with
    | quiet hm => exact hm.pledge hhead [] (.inr rfl)
    | returns hm => exact hm.pledge hhead _ (.inl rfl)
    | raises hm =>
      have := hm.pledge hhead [] (.inr rfl)
      simp only [List.nil_append, habort, Bool.false_eq_true, if_false] at this ⊢
      omega
    | raisesAfter hm =>
      have := hm.pledge hhead _ (.inl rfl)
      simp only [habort, Bool.false_eq_true, if_false] at this ⊢
      omega
  | leave hlive => exact ⟨hstop, by simp [Service.pledged]⟩
  | spawn hs =>
    cases hs with
    | spawn => exact ⟨hstop, le_refl _⟩
  | other hs hw =>
    refine ⟨hstop, ?_⟩
    cases hs with
    | wait | spawn => exact le_refl _
    | quiet | returns | raises | raisesAfter => exact absurd rfl (hw _)
    | serve ht hm =>
      rw [hserve hm]
      exact le_refl _
  | stop => exact ⟨rfl, le_refl _⟩
  | cancel =>
    refine ⟨hstop, ?_⟩
    simp [Service.pledged, State.cancelWorker]
  | restart => exact absurd rfl hb

/-- **A shutdown lets at most the tick in progress send.**  After `stop` was called, and until
the next start of the process, at most one more transmission begins, whatever is queued, and
only if the worker was in the middle of a tick that had not come to its transmission; none
begins once the worker has left. -/
theorem stop_sends_at_most_one (hstop : v.stopAt.isSome)
    (hrun : Machine.Run (serviceStep limits) (fun _ b => b ≠ .restart) v v') :
    sendStarts v'.state.hist ≤ sendStarts v.state.hist +
      if v.exited = false ∧ v.state.worker.pc.maySend = true then 1 else 0 := by
  have h : v'.stopAt.isSome ∧
      sendStarts v'.state.hist + v'.pledged ≤ sendStarts v.state.hist + v.pledged := by
    refine hrun.invariant (P := fun u => u.stopAt.isSome ∧
      sendStarts u.state.hist + u.pledged ≤ sendStarts v.state.hist + v.pledged)
      (fun u b u' h hb hs => ?_) ⟨hstop, le_refl _⟩
    obtain ⟨hstop', hle⟩ := pledged_step h.1 hb (serviceStep_cases hs)
    exact ⟨hstop', hle.trans h.2⟩
  have := h.2
  simp only [Service.pledged] at this
  omega

/-- `stop` was called while the worker had message 1 in hand. -/
def toldToStop : Service where
  state := { oneMessage with
    worker := Worker.init.goto (.claimed 100 (outboundRowToMessage 1 hiRow)) }
  stopAt := some 100

theorem stop_sends_at_most_one_claimed : ∃ v, toldToStop.stopAt.isSome ∧
    Machine.Run (serviceStep {}) (fun _ b => b ≠ .restart) toldToStop v ∧ v.exited = true ∧
    sendStarts v.state.hist = 1 ∧ sendStarts v.state.hist ≤ 0 + 1 := by
  obtain ⟨v, hrun, hp⟩ := Machine.exists_run (serviceStep {})
    (fun _ b => match b with | .restart => false | _ => true)
    (p := fun v => decide (v.exited = true ∧ sendStarts v.state.hist = 1)) (s := toldToStop)
    (List.replicate 4 (.act (.worker {})) ++ [.act (.wait 200), .act (.worker {})])
    (by decide +kernel)
  rw [decide_eq_true_eq] at hp
  have hrun : Machine.Run (serviceStep {}) (fun _ b => b ≠ .restart) toldToStop v := by
    refine hrun.mono fun _ b hb heq => ?_
    subst heq
    cases hb
  exact ⟨v, rfl, hrun, hp.1, hp.2, stop_sends_at_most_one rfl hrun⟩

end Bbs
