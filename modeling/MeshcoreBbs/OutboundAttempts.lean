import MeshcoreBbs.OutboundSystem

/-!
# Counting attempts

The worker and the operator's actions read `attempts`, await, and write it back.
If a move-back or a pause writes back a number that the worker has changed in the
meantime, a failed transmission is forgotten (`attempts_lost`).  As long as each
write-back finds the number it read, `attempts` is the number of failed
transmissions and no row is transmitted more than `MAX_ATTEMPTS` times
(`attempts_counted`).

`Counted` is the invariant for a single row; where the row stands with the worker is its
`Phase`.
-/

namespace Bbs

/-- Transmissions of `r` that ended `NO_ACK` or `ERROR`. -/
def failures (r : Nat) (hist : List Event) : Nat :=
  hist.countP fun e => match e with
    | .sendEnd id _ outcome _ => id = r && outcome ≠ .ok
    | _ => false

/-- Transmissions of `r` begun. -/
def starts (r : Nat) (hist : List Event) : Nat :=
  hist.countP fun e => match e with
    | .sendStart id _ _ _ => id = r
    | _ => false

/-- What a row is to the worker; the argument is the number of attempts it will go by. -/
inductive Phase
  | idle
  | holding (attempts : Nat)
  | sending (attempts : Nat)
  | deferring (attempts : Nat)
  | recording (attempts : Nat)
  deriving DecidableEq

def WorkerPc.phase (r : Nat) : WorkerPc → Phase
  | .claimed _ msg => if msg.id = r then .holding msg.attempts else .idle
  | .pauseRead _ msg _ => if msg.id = r then .holding msg.attempts else .idle
  | .pauseCleared _ msg => if msg.id = r then .holding msg.attempts else .idle
  | .sending _ msg => if msg.id = r then .sending msg.attempts else .idle
  | .requeueing _ id _ attempts _ ending =>
    if id = r then if ending = .retried then .recording attempts else .deferring attempts else .idle
  | _ => .idle

section Counts

variable (r : Nat) (hist : List Event)

@[simp] theorem failures_nil : failures r [] = 0 := rfl

@[simp] theorem starts_nil : starts r [] = 0 := rfl

@[simp] theorem failures_sendStart (id : Nat) (pk : Pubkey) (tick : Int) (t : ℚ) :
    failures r (.sendStart id pk tick t :: hist) = failures r hist := by
  simp [failures]

@[simp] theorem starts_sendStart (id : Nat) (pk : Pubkey) (tick : Int) (t : ℚ) :
    starts r (.sendStart id pk tick t :: hist) = starts r hist + if id = r then 1 else 0 := by
  simp [starts, List.countP_cons]

@[simp] theorem failures_sendEnd (id : Nat) (pk : Pubkey) (outcome : SendOutcome) (t : ℚ) :
    failures r (.sendEnd id pk outcome t :: hist) =
      failures r hist + if id = r ∧ outcome ≠ .ok then 1 else 0 := by
  simp [failures, List.countP_cons]

@[simp] theorem starts_sendEnd (id : Nat) (pk : Pubkey) (outcome : SendOutcome) (t : ℚ) :
    starts r (.sendEnd id pk outcome t :: hist) = starts r hist := by
  simp [starts]

@[simp] theorem failures_requeued (id : Nat) : failures r (.requeued id :: hist) = failures r hist := by
  simp [failures]

@[simp] theorem starts_requeued (id : Nat) : starts r (.requeued id :: hist) = starts r hist := by
  simp [starts]

@[simp] theorem failures_failedAudit (id : Nat) :
    failures r (.failedAudit id :: hist) = failures r hist := by
  simp [failures]

@[simp] theorem starts_failedAudit (id : Nat) :
    starts r (.failedAudit id :: hist) = starts r hist := by
  simp [starts]

end Counts

/-- The number of attempts that a row with `base` attempts cannot exceed. -/
def attemptsCap (base : Nat) : Nat := max maxAttempts (base + 1)

/-- The books on a pending row. -/
def Tally (base r : Nat) (hist : List Event) (row : OutboundRow) : Phase → Prop
  | .idle => row.attempts = base + failures r hist ∧ starts r hist = failures r hist ∧
      base + failures r hist < attemptsCap base
  | .holding k => k = row.attempts ∧ row.attempts = base + failures r hist ∧
      starts r hist = failures r hist ∧ base + failures r hist < attemptsCap base
  | .sending k => k = row.attempts ∧ row.attempts = base + failures r hist ∧
      starts r hist = failures r hist + 1 ∧ base + failures r hist < attemptsCap base
  | .deferring k => k = row.attempts ∧ row.attempts = base + failures r hist ∧
      starts r hist = failures r hist ∧ base + failures r hist < attemptsCap base
  | .recording k => k = row.attempts + 1 ∧ k = base + failures r hist ∧
      starts r hist = failures r hist ∧ base + failures r hist < attemptsCap base

/-- Room for one more transmission while the worker holds the row. -/
def Room (base r : Nat) (hist : List Event) : Phase → Prop
  | .holding _ => base + starts r hist < attemptsCap base
  | _ => base + starts r hist ≤ attemptsCap base

structure Counted (base r : Nat) (s : State) : Prop where
  tally : ∀ row, s.db.outbound.get? r = some row → row.status = .pending →
    Tally base r s.hist row (s.worker.pc.phase r)
  room : Room base r s.hist (s.worker.pc.phase r)
  unborn : s.db.outbound.seq < r → base = 0 ∧ starts r s.hist = 0 ∧ failures r s.hist = 0
  held : ∀ msg, s.worker.pc.held = some msg → msg.id ≤ s.db.outbound.seq
  planned : ∀ now id next attempts m ending,
    s.worker.pc = .requeueing now id next attempts m ending → id ≤ s.db.outbound.seq

/-- The row and the attempts that a move-back or a pause writes back in this step. -/
def writesBack (s : State) : Act → Option (Nat × Nat)
  | .serve call =>
    match s.tasks[call]? with
    | some (.moveBackMax id msg _ _) => some (id, msg.attempts)
    | some (.pauseMax _ _ _ row _ _) => some (row.id, row.attempts)
    | _ => none
  | _ => none

/-- The write-back finds the number that it read. -/
def sameAttempts (s : State) (back : Nat × Nat) : Bool :=
  (s.db.outbound.get? back.1).all fun row => !(row.status = .pending) || row.attempts = back.2

def callReturns : Act → Bool
  | .worker env => env.call = .returns
  | _ => true

def attemptsKept (s : State) (a : Act) : Bool :=
  callReturns a && (writesBack s a).all (sameAttempts s)

variable {limits : LimitsConfig} {s s' : State} {a : Act} {base r : Nat} {hist : List Event}
  {row row' : OutboundRow}

theorem Tally.of_attempts {ph : Phase} (h : Tally base r hist row ph)
    (heq : row'.attempts = row.attempts) : Tally base r hist row' ph := by
  cases ph <;> simp only [Tally, heq] <;> exact h

/-- A pending row was pending before any statement but the one that inserts it. -/
theorem pending_run {db : Db} (st : Stmt) (hrow : (st.run db).outbound.get? r = some row')
    (hpend : row'.status = .pending) (hnew : ∀ row, st ≠ .enqueueOutbound row) :
    ∃ row, db.outbound.get? r = some row ∧ row.status = .pending ∧ row' = st.onRow r row := by
  rcases Stmt.get?_run hrow with ⟨row, hrow', rfl⟩ | ⟨hst, -⟩
  · exact ⟨row, hrow', Stmt.pending_of_onRow hpend, rfl⟩
  · exact absurd hst (hnew row')

/-- Only a move to the back writes `attempts`. -/
theorem onRow_attempts {st : Stmt} (hst : ∀ next attempts backAt,
    st ≠ .requeueOutbound r next attempts backAt) :
    (st.onRow r row).attempts = row.attempts := by
  cases st with
  | requeueOutbound id next attempts backAt =>
    have : r ≠ id := fun heq => hst next attempts backAt (heq ▸ rfl)
    simp [Stmt.onRow, this]
  | markOutboundSent | markOutboundFailed | setCancelled | dropStaleOutbound =>
    simp only [Stmt.onRow]
    split <;> rfl
  | _ => rfl

theorem Counted.phase_idle (h : Counted base r s) (hr : s.db.outbound.seq < r) :
    s.worker.pc.phase r = .idle := by
  have hheld := h.held
  have hplanned := h.planned
  cases hpc : s.worker.pc with
  | claimed now msg | pauseRead now msg | pauseCleared now msg | sending now msg =>
    rw [hpc] at hheld
    have := hheld msg rfl
    simp only [WorkerPc.phase, ite_eq_right_iff]
    omega
  | requeueing now id next attempts m ending =>
    have := hplanned now id next attempts m ending hpc
    simp only [WorkerPc.phase, ite_eq_right_iff]
    omega
  | _ => rfl

/-- Requests have no part in transmissions. -/
theorem Task.Case.counts {call : Nat} {t t' : Task} {st : Stmt} {evs : List Event}
    (hm : t.Case limits s.clock s.db call t' st evs) (hist : List Event) :
    failures r (evs ++ hist) = failures r hist ∧ starts r (evs ++ hist) = starts r hist := by
  cases hm <;> simp [failures, starts]

theorem counted_serve (h : Counted base r s) {call : Nat} {t t' : Task} {st : Stmt}
    {evs : List Event} (hkeep : ∀ back, writesBack s (.serve call) = some back → back.1 = r →
      sameAttempts s back = true)
    (ht : s.tasks[call]? = some t) (hm : t.Case limits s.clock s.db call t' st evs) :
    Counted base r
      { s with db := st.run s.db, tasks := s.tasks.set call t', hist := evs ++ s.hist } := by
  obtain ⟨hfail, hstart⟩ := hm.counts (r := r) s.hist
  have hseq : s.db.outbound.seq ≤ (st.run s.db).outbound.seq := by
    rw [Stmt.seq_run]
    split <;> omega
  refine ⟨?_, ?_, ?_, fun msg hmsg => (h.held msg hmsg).trans hseq,
    fun now id next k m e hpc => (h.planned now id next k m e hpc).trans hseq⟩
  · intro row' hrow' hpend
    have htally : ∀ {row ph}, Tally base r s.hist row ph → Tally base r (evs ++ s.hist) row ph := by
      intro row ph h
      cases ph <;> simp only [Tally, hfail, hstart] at h ⊢ <;> exact h
    rcases Stmt.get?_run hrow' with ⟨row, hrow, rfl⟩ | ⟨rfl, hr⟩
    · have hp := Stmt.pending_of_onRow hpend
      refine htally ((h.tally row hrow hp).of_attempts ?_)
      by_cases hst : ∃ next k backAt, st = .requeueOutbound r next k backAt
      · obtain ⟨next, k, backAt, rfl⟩ := hst
        have hsame : row.attempts = k := by
          cases hm with
          | @moveBackWrite _ msg =>
            have := hkeep (r, msg.attempts) (by simp only [writesBack, ht]) rfl
            simpa [sameAttempts, hrow, hp] using this
          | @pauseRequeue _ _ _ back =>
            have := hkeep (back.id, back.attempts) (by simp only [writesBack, ht]) rfl
            simpa [sameAttempts, hrow, hp] using this
          | pauseReturn hst => rcases hst with hst | ⟨_, hst⟩ <;> cases hst
        simp [Stmt.onRow, hsame]
      · refine onRow_attempts fun next k backAt heq => hst ⟨next, k, backAt, heq⟩
    · have hidle := h.phase_idle (by omega)
      obtain ⟨hb, hs0, hf0⟩ := h.unborn (by omega)
      have hk : row'.attempts = 0 := by
        cases hm with
        | firstPacket | nextPacket => rfl
        | pauseReturn hst => rcases hst with hst | ⟨_, hst⟩ <;> cases hst
      refine htally ?_
      show Tally base r s.hist row' (s.worker.pc.phase r)
      rw [hidle]
      simp [Tally, hb, hs0, hf0, hk, attemptsCap, maxAttempts]
  · have := h.room
    show Room base r (evs ++ s.hist) (s.worker.pc.phase r)
    cases hph : s.worker.pc.phase r <;> rw [hph] at this <;> simp only [Room, hstart] at this ⊢ <;>
      exact this
  · intro hr
    show base = 0 ∧ starts r (evs ++ s.hist) = 0 ∧ failures r (evs ++ s.hist) = 0
    rw [hfail, hstart]
    exact h.unborn (lt_of_le_of_lt hseq hr)

theorem Unpaused.phase {clock : ℚ} {pc : WorkerPc} {now : Int} {msg : OutboundMessage}
    (h : Unpaused clock pc now msg) :
    pc.phase r = if msg.id = r then .holding msg.attempts else .idle := by
  cases h <;> rfl

theorem Worker.Deferral.phase {clock : ℚ} {env : Env} {w : Worker} {now next : Int}
    {msg : OutboundMessage} (h : w.Deferral limits clock env now msg next) :
    w.pc.phase r = if msg.id = r then .holding msg.attempts else .idle := by
  cases h with
  | paused hpc => rw [hpc]; rfl
  | throttled hun | radioDown hun => exact hun.phase

/-- The books after a segment of the worker: `ht` and `hr` are those before it. -/
theorem Worker.Case.tally {env : Env} {m : WorkerMove}
    (hm : s.worker.Case limits s.clock s.db env m)
    (ht : ∀ row, s.db.outbound.get? r = some row → row.status = .pending →
      Tally base r s.hist row (s.worker.pc.phase r))
    (hrow : (m.stmt.elim s.db (Stmt.run s.db)).outbound.get? r = some row')
    (hpend : row'.status = .pending) :
    Tally base r (m.effects ++ m.events ++ s.hist) row' (m.worker.pc.phase r) := by
  cases hm with
  | tick hpc =>
    obtain ⟨row, hold, hp, rfl⟩ := pending_run (.dropStaleOutbound _) hrow hpend (by simp)
    have htally := ht row hold hp
    rw [hpc] at htally
    exact htally.of_attempts (onRow_attempts (by simp))
  | claimNone hpc =>
    have htally := ht row' hrow hpend
    rwa [hpc] at htally
  | @claim now msg hpc hclaim =>
    have htally := ht row' hrow hpend
    rw [hpc] at htally
    obtain ⟨id, row, -, hid, rfl, -⟩ := Db.claimNextOutbound_some hclaim
    show Tally base r s.hist row' (if id = r then _ else _)
    split
    · next heq =>
      subst heq
      cases hrow.symm.trans hid
      exact ⟨rfl, htally⟩
    · exact htally
  | readPause hpc =>
    have htally := ht row' hrow hpend
    rwa [hpc] at htally
  | clearPause hpc =>
    have htally := ht row' hrow hpend
    rwa [hpc] at htally
  | @defer now msg next hdef =>
    have htally := ht row' hrow hpend
    rw [hdef.phase] at htally
    show Tally base r s.hist row' (if msg.id = r then _ else _)
    split
    · next heq =>
      rw [if_pos heq] at htally
      exact htally
    · next heq =>
      rw [if_neg heq] at htally
      exact htally
  | @sendStart now msg hun =>
    have htally := ht row' hrow hpend
    rw [hun.phase] at htally
    show Tally base r (_ :: s.hist) row' (if msg.id = r then _ else _)
    split
    · next heq =>
      rw [if_pos heq] at htally
      obtain ⟨hk, hatt, hst, hcap⟩ := htally
      simp only [Tally, failures_sendStart, starts_sendStart, heq, if_true]
      exact ⟨hk, hatt, by omega, hcap⟩
    · next heq =>
      rw [if_neg heq] at htally
      simpa [Tally, heq] using htally
  | @sendOk now msg hpc =>
    obtain ⟨row, hold, hp, rfl⟩ := pending_run (.markOutboundSent _) hrow hpend (by simp)
    have hne : r ≠ msg.id := by
      rintro rfl
      simp [Stmt.onRow] at hpend
    have htally := ht row hold hp
    rw [hpc, WorkerPc.phase, if_neg hne.symm] at htally
    have hbooks : Tally base r (.sendEnd msg.id msg.toPubkey .ok s.clock :: s.hist) row .idle := by
      simpa [Tally] using htally
    exact hbooks.of_attempts (onRow_attempts (by simp))
  | @giveUp now msg hpc =>
    obtain ⟨row, hold, hp, rfl⟩ := pending_run (.markOutboundFailed _) hrow hpend (by simp)
    have hne : r ≠ msg.id := by
      rintro rfl
      simp [Stmt.onRow] at hpend
    have htally := ht row hold hp
    rw [hpc, WorkerPc.phase, if_neg hne.symm] at htally
    have hbooks : Tally base r (.sendEnd msg.id msg.toPubkey env.outcome s.clock :: s.hist) row
        .idle := by
      simpa [Tally, hne.symm] using htally
    exact hbooks.of_attempts (onRow_attempts (by simp))
  | @retry now msg hpc hout hmax =>
    have htally := ht row' hrow hpend
    rw [hpc, WorkerPc.phase] at htally
    show Tally base r (_ :: s.hist) row' (if msg.id = r then _ else _)
    split
    · next heq =>
      rw [if_pos heq] at htally
      obtain ⟨hk, hatt, hst, -⟩ := htally
      simp only [if_true, Tally, failures_sendEnd, starts_sendEnd, heq, hout, ne_eq,
        not_false_eq_true, and_self]
      have : maxAttempts ≤ attemptsCap base := le_max_left _ _
      exact ⟨by omega, by omega, by omega, by omega⟩
    · next heq =>
      rw [if_neg heq] at htally
      simpa [Tally, heq] using htally
  | audit hpc =>
    have htally := ht row' hrow hpend
    rw [hpc] at htally
    show Tally base r (_ :: s.hist) row' .idle
    simpa [Tally, WorkerPc.phase] using htally
  | @requeue now id next k maxEnqueuedAt ending hpc =>
    obtain ⟨row, hold, hp, rfl⟩ := pending_run (.requeueOutbound _ _ _ _) hrow hpend (by simp)
    have htally := ht row hold hp
    rw [hpc, WorkerPc.phase] at htally
    show Tally base r (_ :: s.hist) _ .idle
    split at htally
    · next heq =>
      subst heq
      simp only [Stmt.onRow, if_true, Tally, failures_requeued, starts_requeued]
      split at htally
      · exact ⟨htally.2.1, htally.2.2.1, htally.2.2.2⟩
      · obtain ⟨hk, hatt, hst, hcap⟩ := htally
        exact ⟨by omega, hst, hcap⟩
    · next heq =>
      have hne : r ≠ id := fun h => heq h.symm
      simpa [Tally, Stmt.onRow, hne] using htally
  | sleep hpc =>
    have htally := ht row' hrow hpend
    rwa [hpc] at htally

theorem Room.le {ph : Phase} (h : Room base r hist ph) :
    base + starts r hist ≤ attemptsCap base := by
  cases ph <;> simp only [Room] at h <;> omega

theorem Worker.Case.room {env : Env} {m : WorkerMove}
    (hm : s.worker.Case limits s.clock s.db env m) (h : Counted base r s) :
    Room base r (m.effects ++ m.events ++ s.hist) (m.worker.pc.phase r) := by
  have hr := h.room
  have hle := hr.le
  cases hm with
  | @claim now msg hpc hclaim =>
    obtain ⟨id, row, -, hid, rfl, hready, -⟩ := Db.claimNextOutbound_some hclaim
    show Room base r s.hist (if id = r then _ else _)
    split
    · next heq =>
      subst heq
      have := h.tally row hid ((Db.ready_iff _ _).mp hready).1
      rw [hpc] at this
      obtain ⟨-, hst, hcap⟩ := this
      show base + starts id s.hist < _
      omega
    · exact hle
  | readPause hpc | clearPause hpc =>
    rw [hpc] at hr
    exact hr
  | @defer now msg next hdef =>
    show Room base r s.hist (if msg.id = r then _ else _)
    split <;> exact hle
  | @sendStart now msg hun =>
    rw [hun.phase] at hr
    show Room base r (_ :: s.hist) (if msg.id = r then _ else _)
    split
    · next heq =>
      rw [if_pos heq] at hr
      simp only [Room, starts_sendStart, heq, if_true] at hr ⊢
      omega
    · next heq =>
      simp only [Room, starts_sendStart, heq, if_false]
      exact hle
  | @retry now msg hpc =>
    show Room base r (_ :: s.hist) (if msg.id = r then _ else _)
    split <;> simpa [Room] using hle
  | sendOk | giveUp | audit | requeue =>
    show Room base r (_ :: s.hist) .idle
    simpa [Room] using hle
  | tick | claimNone | sleep => exact hle

theorem Worker.Case.planned {env : Env} {m : WorkerMove}
    (hm : s.worker.Case limits s.clock s.db env m) {now : Int} {id k : Nat} {next x : Int}
    {ending : TickEnd} (hpc : m.worker.pc = .requeueing now id next k x ending) :
    ∃ msg, s.worker.pc.held = some msg ∧ msg.id = id := by
  cases hm with
  | defer hdef =>
    cases hpc
    exact ⟨_, hdef.held, rfl⟩
  | retry h =>
    cases hpc
    exact ⟨_, by rw [h]; rfl, rfl⟩
  | _ => cases hpc

/-- Only what the worker holds is sent. -/
theorem Worker.Case.counts {env : Env} {m : WorkerMove}
    (hm : s.worker.Case limits s.clock s.db env m)
    (hheld : ∀ msg, s.worker.pc.held = some msg → msg.id ≠ r) :
    starts r (m.effects ++ m.events ++ s.hist) = starts r s.hist ∧
      failures r (m.effects ++ m.events ++ s.hist) = failures r s.hist := by
  cases hm with
  | sendStart hun =>
    have := hheld _ hun.held
    simp [this]
  | sendOk hpc | giveUp hpc | retry hpc =>
    have := hheld _ (by rw [hpc]; rfl)
    simp [this]
  | _ => simp

theorem counted_worker (h : Counted base r s) {env : Env} {m : WorkerMove}
    (hm : s.worker.Case limits s.clock s.db env m) :
    Counted base r { s with
      worker := m.worker
      db := m.stmt.elim s.db (Stmt.run s.db)
      hist := m.effects ++ m.events ++ s.hist } := by
  have hseq : (m.stmt.elim s.db (Stmt.run s.db)).outbound.seq = s.db.outbound.seq := by
    cases hm <;> rfl
  refine ⟨fun row' hrow' hpend => hm.tally h.tally hrow' hpend, hm.room h, ?_, ?_, ?_⟩
  · intro hr
    have hr : s.db.outbound.seq < r := hseq ▸ hr
    obtain ⟨hb, hs0, hf0⟩ := h.unborn hr
    obtain ⟨h1, h2⟩ := hm.counts (r := r) fun msg hmsg => by
      have := h.held msg hmsg
      omega
    exact ⟨hb, h1.trans hs0, h2.trans hf0⟩
  · intro msg hmsg
    show msg.id ≤ (m.stmt.elim s.db (Stmt.run s.db)).outbound.seq
    rw [hseq]
    rcases hm.held hmsg with ⟨hmsg, -⟩ | ⟨now, -, -, -, hclaim⟩
    · exact h.held msg hmsg
    · obtain ⟨id, row, -, hid, rfl, -⟩ := Db.claimNextOutbound_some hclaim
      exact RowTable.get?_le_seq hid
  · intro now id next k x ending hpc
    show id ≤ (m.stmt.elim s.db (Stmt.run s.db)).outbound.seq
    rw [hseq]
    obtain ⟨msg, hmsg, rfl⟩ := hm.planned hpc
    exact h.held msg hmsg

theorem counted_step (h : Counted base r s) (hret : callReturns a = true)
    (hkeep : ∀ back, writesBack s a = some back → back.1 = r → sameAttempts s back = true)
    (hs : Step limits s a s') : Counted base r s' := by
  cases hs with
  | wait | spawn => exact ⟨h.tally, h.room, h.unborn, h.held, h.planned⟩
  | @quiet env m hm hst =>
    have := counted_worker h hm
    have heff : m.effects = [] := by
      cases hm with
      | sendStart | sleep => rfl
      | _ => cases hst
    rwa [hst, heff] at this
  | returns hm hst =>
    have := counted_worker h hm
    rwa [hst] at this
  | raises hm hst hcall | raisesAfter hm hst hcall => simp [callReturns, hcall] at hret
  | serve ht hm => exact counted_serve h hkeep ht hm

/-- `attempts` of row `id` when the process started; new rows start from 0. -/
def startAttempts (s : State) (id : Nat) : Nat := ((s.db.outbound.get? id).map (·.attempts)).getD 0

theorem counted_initial (h : Initial s) (r : Nat) : Counted (startAttempts s r) r s where
  tally row hrow _ := by
    show Tally (startAttempts s r) r s.hist row (s.worker.pc.phase r)
    rw [h.worker, h.hist]
    simp [Worker.init, WorkerPc.phase, Tally, startAttempts, hrow, attemptsCap]
  room := by
    rw [h.worker, h.hist]
    simp [Worker.init, WorkerPc.phase, Room, attemptsCap]
  unborn hr := by
    rw [h.hist]
    refine ⟨?_, rfl, rfl⟩
    cases hrow : s.db.outbound.get? r with
    | none => simp [startAttempts, hrow]
    | some row =>
      have := RowTable.get?_le_seq hrow
      omega
  held msg hmsg := by
    rw [h.worker] at hmsg
    cases hmsg
  planned now id next k x ending hpc := by simp [h.worker, Worker.init] at hpc

/-- **`attempts` counts the failed transmissions**, in every run in which the move-backs and
pauses write back the number they find and no database call of the worker raises: whenever
the worker sleeps, every pending row has its starting attempts plus its failures since.  No
row is transmitted more than `MAX_ATTEMPTS` times, over its whole life. -/
theorem attempts_counted {s₀ : State} (h0 : Initial s₀) (hrun : Runs limits attemptsKept s₀ s) :
    (∀ wake, s.worker.pc = .sleeping wake → ∀ id row, s.db.outbound.get? id = some row →
      row.status = .pending → row.attempts = startAttempts s₀ id + failures id s.hist) ∧
    ∀ id, starts id s.hist ≤ maxAttempts ∧ (startAttempts s₀ id < maxAttempts →
      startAttempts s₀ id + starts id s.hist ≤ maxAttempts) := by
  have h : ∀ r, Counted (startAttempts s₀ r) r s := fun r => by
    refine hrun.invariant (fun s a s' h hok hs => ?_) (counted_initial h0 r)
    simp only [attemptsKept, Bool.and_eq_true, Option.all_eq_true] at hok
    exact counted_step h hok.1 (fun back hback _ => hok.2 back hback) (step_cases hs)
  refine ⟨fun wake hpc id row hrow hpend => ?_, fun id => ?_⟩
  · have := (h id).tally row hrow hpend
    rw [hpc] at this
    exact this.1
  · have := (h id).room.le
    simp only [attemptsCap, maxAttempts] at this ⊢
    omega

/-- The worker sends message 1 and the send fails. -/
def failedSend : List Act :=
  [.worker {}, .worker { pick := some 1 }, .worker {}, .worker {}, .worker { outcome := .noAck }]

/-- The worker is asleep and no request is in progress. -/
def atRest (s : State) : Bool :=
  (match s.worker.pc with | .sleeping _ => true | _ => false) && s.tasks.all fun t => !t.inProgress

theorem sleeping_of_atRest (h : atRest s = true) : ∃ wake, s.worker.pc = .sleeping wake := by
  rw [atRest, Bool.and_eq_true] at h
  have h := h.1
  split at h
  · next wake hpc => exact ⟨wake, hpc⟩
  · cases h

theorem attempts_counted_once : ∃ s row, Runs {} attemptsKept oneMessage s ∧
    s.db.outbound.get? 1 = some row ∧ row.attempts = startAttempts oneMessage 1 + failures 1 s.hist ∧
    failures 1 s.hist = 1 := by
  obtain ⟨s, hrun, hp⟩ := Machine.exists_run (step {}) attemptsKept
    (p := fun s => atRest s && decide (failures 1 s.hist = 1) &&
      (s.db.outbound.get? 1).any fun row => row.status = .pending)
    (s := oneMessage)
    (failedSend ++ [.worker {}, .worker {}, .spawn (.moveBack 1), .serve 0, .serve 0, .serve 0,
      .serve 0])
    (by decide +kernel)
  simp only [Bool.and_eq_true, decide_eq_true_eq, Option.any_eq_true] at hp
  obtain ⟨⟨hrest, hfail⟩, row, hrow, hpend⟩ := hp
  obtain ⟨wake, hpc⟩ := sleeping_of_atRest hrest
  exact ⟨s, row, hrun, hrow, (attempts_counted oneMessage_initial hrun).1 wake hpc 1 row hrow hpend,
    hfail⟩

/-- A move-back that read the row before the send failed writes the old number over the
worker's. -/
theorem attempts_lost : ∃ s row, Initial oneMessage ∧ Runs {} anyStep oneMessage s ∧
    atRest s = true ∧ s.db.outbound.get? 1 = some row ∧ row.status = .pending ∧
    row.attempts = 0 ∧ failures 1 s.hist = 1 := by
  obtain ⟨s, hrun, hp⟩ := Machine.exists_run (step {}) anyStep
    (p := fun s => atRest s && decide (failures 1 s.hist = 1) &&
      (s.db.outbound.get? 1).any fun row => decide (row.status = .pending ∧ row.attempts = 0))
    (s := oneMessage)
    ([.spawn (.moveBack 1), .serve 0, .serve 0] ++ failedSend ++
      [.worker {}, .serve 0, .serve 0, .worker {}])
    (by decide +kernel)
  simp only [Bool.and_eq_true, decide_eq_true_eq, Option.any_eq_true] at hp
  obtain ⟨⟨hrest, hfail⟩, row, hrow, hpend, hzero⟩ := hp
  exact ⟨s, row, oneMessage_initial, hrun, hrest, hrow, hpend, hzero, hfail⟩

end Bbs
