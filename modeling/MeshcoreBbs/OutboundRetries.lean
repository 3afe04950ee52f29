import MeshcoreBbs.OutboundAttempts
import MeshcoreBbs.RowLife

/-!
# Retries

The worker and the tables live by the rules of `RowLife`: seen from one row, each
step of a run is no step at all or a `LifeStep` (`life_evolves`).  The runs are those in which
nobody removes the row or moves it back, pauses complete between ticks and no
database call raises.  So a row is transmitted at most `MAX_ATTEMPTS` times, waits
out its backoffs and ends `sent` or `failed` for the right reason
(`retries_lawful`).

`attempts` stops one short on a row that has failed: `mark_outbound_failed` does not
write the last attempt (`failed_attempts_lag`).
-/

namespace Bbs

/-! ## A row as a life -/

/-- Transmissions of `r` that ended `OK`. -/
def successes (r : Nat) (hist : List Event) : Nat :=
  hist.countP fun e => match e with
    | .sendEnd id _ outcome _ => id = r && outcome = .ok
    | _ => false

/-- Audit rows on the failure of `r`. -/
def failedAudits (r : Nat) (hist : List Event) : Nat :=
  hist.countP fun e => match e with
    | .failedAudit id => id = r
    | _ => false

/-- A row begun with `base` attempts, after one more event. -/
def Ledger.record (base r : Nat) (e : Event) (l : Ledger) : Ledger :=
  match e with
  | .sendStart id _ _ _ => if id = r then { l with starts := l.starts + 1 } else l
  | .sendEnd id _ outcome t =>
    if id = r then
      if outcome = .ok then { l with successes := l.successes + 1 }
      else { l with
        failures := l.failures + 1
        waits := (⌊t⌋ + backoffBaseSeconds * 2 ^ (base + l.failures)) :: l.waits }
    else l
  | .failedAudit id => if id = r then { l with audits := l.audits + 1 } else l
  | _ => l

def ledger (base r : Nat) : List Event → Ledger
  | [] => {}
  | e :: hist => (ledger base r hist).record base r e

namespace WorkerPc

/-- The stage of a pending row that may be tried again from `next` on. -/
def stage (r : Nat) (next : Int) : WorkerPc → Stage
  | .claimed _ msg => if msg.id = r then .held else .waiting next
  | .pauseRead _ msg _ => if msg.id = r then .held else .waiting next
  | .pauseCleared _ msg => if msg.id = r then .held else .waiting next
  | .sending _ msg => if msg.id = r then .sending else .waiting next
  | .requeueing _ id planned _ _ ending =>
    if id = r then if ending = .retried then .recording planned else .deferring planned
    else .waiting next
  | _ => .waiting next

/-- The worker has just marked row `r` failed and will write the audit row. -/
def isFailing (r : Nat) : WorkerPc → Bool
  | .failing _ msg _ _ => msg.id = r
  | _ => false

/-- The row that the tick is about. -/
def inHand : WorkerPc → Option Nat
  | .failing _ msg _ _ => some msg.id
  | .requeueing _ id _ _ _ _ => some id
  | pc => pc.held.map (·.id)

/-- What the worker remembers of row `r` is what the table says. -/
structure Agrees (r : Nat) (row? : Option OutboundRow) (pc : WorkerPc) : Prop where
  held : ∀ msg, pc.held = some msg → msg.id = r →
    ∃ row, row? = some row ∧ row.status = .pending ∧ msg.attempts = row.attempts
  requeueing : ∀ now next k m ending, pc = .requeueing now r next k m ending →
    ∃ row, row? = some row ∧ row.status = .pending ∧
      k = row.attempts + if ending = .retried then 1 else 0
  failing : pc.isFailing r = true → ∃ row, row? = some row ∧ row.status = .failed

end WorkerPc

def OutboundRow.stage (r : Nat) (pc : WorkerPc) (row : OutboundRow) : Stage :=
  match row.status with
  | .pending => pc.stage r row.nextAttempt
  | .sent => .sent
  | .failed => if pc.isFailing r then .failing else .failed
  | .dropped => .dropped
  | .cancelled => .cancelled

/-- The life of row `r`, from its contents, the worker and the history. -/
def lifeOf (base r : Nat) (row? : Option OutboundRow) (pc : WorkerPc) (hist : List Event) : Life where
  toLedger := ledger base r hist
  stage := row?.elim .absent (·.stage r pc)
  attempts := row?.elim 0 (·.attempts)

def life (base r : Nat) (s : State) : Life :=
  lifeOf base r (s.db.outbound.get? r) s.worker.pc s.hist

variable {limits : LimitsConfig} {s s' : State} {a : Act} {base r : Nat} {hist : List Event}
  {row : OutboundRow} {row? : Option OutboundRow}

theorem lifeOf_pending (hp : row.status = .pending) (pc : WorkerPc) (hist : List Event) :
    lifeOf base r (some row) pc hist =
      { toLedger := ledger base r hist, stage := pc.stage r row.nextAttempt,
        attempts := row.attempts } := by
  simp [lifeOf, OutboundRow.stage, hp]

theorem lifeOf_congr {pc pc' : WorkerPc} {hist' : List Event}
    (hl : ledger base r hist' = ledger base r hist) (hst : ∀ next, pc'.stage r next = pc.stage r next)
    (hf : pc'.isFailing r = pc.isFailing r) :
    lifeOf base r row? pc' hist' = lifeOf base r row? pc hist := by
  have : ∀ row : OutboundRow, row.stage r pc' = row.stage r pc := by
    intro row
    unfold OutboundRow.stage
    rw [hf]
    split <;> simp only [hst]
  simp only [lifeOf, this, hl]

/-- A step as the row sees it. -/
def Evolves (base : Nat) (now : Int) (l l' : Life) : Prop := l' = l ∨ LifeStep base now l l'

theorem Evolves.step {now : Int} {l l' l₁ : Life} (h : LifeStep base now l l₁) (heq : l' = l₁) :
    Evolves base now l l' :=
  .inr (heq ▸ h)

theorem Unpaused.stage {clock : ℚ} {pc : WorkerPc} {now : Int} {msg : OutboundMessage}
    (h : Unpaused clock pc now msg) (next : Int) :
    pc.stage r next = if msg.id = r then .held else .waiting next := by
  cases h <;> rfl

theorem Worker.Deferral.stage {clock : ℚ} {env : Env} {w : Worker} {now next : Int}
    {msg : OutboundMessage} (h : w.Deferral limits clock env now msg next) (n : Int) :
    w.pc.stage r n = if msg.id = r then .held else .waiting n := by
  cases h with
  | paused hpc => rw [hpc]; rfl
  | throttled hun | radioDown hun => exact hun.stage n

namespace WorkerPc

variable {pc : WorkerPc}

theorem inHand_of_held {msg : OutboundMessage} (h : pc.held = some msg) :
    pc.inHand = some msg.id := by
  cases pc with
  | claimed | pauseRead | pauseCleared | sending =>
    cases h
    rfl
  | _ => cases h

theorem stage_of_other (h : pc.inHand ≠ some r) (next : Int) : pc.stage r next = .waiting next := by
  cases pc with
  | claimed | pauseRead | pauseCleared | sending | requeueing =>
    exact if_neg fun heq => h (congrArg some heq)
  | _ => rfl

theorem isFailing_of_other (h : pc.inHand ≠ some r) : pc.isFailing r = false := by
  cases pc with
  | failing now msg => exact decide_eq_false fun heq => h (congrArg some heq)
  | _ => rfl

end WorkerPc

/-- A segment that is about another row leaves the life of row `r` alone, except that a new
tick may drop it. -/
theorem Worker.Case.other {env : Env} {m : WorkerMove}
    (hm : s.worker.Case limits s.clock s.db env m) (h : s.worker.pc.inHand ≠ some r)
    (h' : m.worker.pc.inHand ≠ some r) (hdrop : ∀ ts, m.stmt ≠ some (.dropStaleOutbound ts)) :
    lifeOf base r (row?.map fun row => m.stmt.elim row (Stmt.onRow r row)) m.worker.pc
      (m.effects ++ m.events ++ hist) = lifeOf base r row? s.worker.pc hist := by
  have hled : ledger base r (m.effects ++ m.events ++ hist) = ledger base r hist := by
    cases hm with
    | sendStart hun =>
      have hne : _ ≠ r := fun heq => h (heq ▸ WorkerPc.inHand_of_held hun.held)
      exact if_neg hne
    | sendOk hpc | giveUp hpc | retry hpc | audit hpc =>
      have hne : _ ≠ r := fun heq => h (by rw [hpc, ← heq]; rfl)
      exact if_neg hne
    | _ => rfl
  have hrow : ∀ row : OutboundRow, m.stmt.elim row (Stmt.onRow r row) = row := by
    intro row
    cases hm with
    | tick => exact absurd rfl (hdrop _)
    | sendOk hpc | giveUp hpc | requeue hpc =>
      have hne : ¬ r = _ := fun heq => h (by rw [hpc, heq]; rfl)
      exact if_neg hne
    | _ => rfl
  simp only [hrow, Option.map_id']
  refine lifeOf_congr hled (fun next => ?_) ?_
  · rw [WorkerPc.stage_of_other h, WorkerPc.stage_of_other h']
  · rw [WorkerPc.isFailing_of_other h, WorkerPc.isFailing_of_other h']

/-- What row `r` sees of a segment of the worker. -/
theorem worker_evolves {env : Env} {m : WorkerMove}
    (hm : s.worker.Case limits s.clock s.db env m) (hpast : TickPast s)
    (hag : s.worker.pc.Agrees r (s.db.outbound.get? r)) :
    Evolves base ⌊s.clock⌋ (life base r s)
      (lifeOf base r ((s.db.outbound.get? r).map fun row => m.stmt.elim row (Stmt.onRow r row))
        m.worker.pc (m.effects ++ m.events ++ s.hist)) := by
  have hother := fun h h' hdrop => (Or.inl (hm.other h h' hdrop) : Evolves base ⌊s.clock⌋
    (lifeOf base r (s.db.outbound.get? r) s.worker.pc s.hist) (lifeOf base r _ m.worker.pc _))
  have hsome {id : Nat} (heq : id ≠ r) : some id ≠ some r := fun h => heq (Option.some.inj h)
  have hended : ∀ ending, (WorkerPc.ended ending).inHand ≠ some r := by
    simp [WorkerPc.inHand, WorkerPc.held]
  unfold life
  cases hm with
  | tick hpc =>
    cases hrow : s.db.outbound.get? r with
    | none => exact .inl rfl
    | some row =>
      rw [hpc]
      by_cases hstale : row.status = .pending ∧ row.enqueuedAt < ⌊s.clock⌋ - maxAgeSeconds
      · refine .step (.drop row.nextAttempt ?_) ?_
        · simp [lifeOf_pending hstale.1, WorkerPc.stage]
        · simp [lifeOf, Stmt.onRow, hstale, OutboundRow.stage]
      · left
        simp only [Option.map_some, Option.elim_some, Stmt.onRow, if_neg hstale]
        exact lifeOf_congr rfl (fun _ => rfl) rfl
  | claimNone hpc =>
    exact hother (by simp [hpc, WorkerPc.inHand, WorkerPc.held]) (hended _) (by simp)
  | @sleep ending hpc =>
    exact hother (hpc ▸ hended ending)
      (by simp [Worker.afterTick, WorkerPc.inHand, WorkerPc.held]) (by simp)
  | readPause hpc | clearPause hpc =>
    left
    rw [hpc]
    simp only [Option.elim_some, Stmt.onRow, Option.map_id']
    exact lifeOf_congr rfl (fun _ => rfl) rfl
  | @claim now msg hpc hclaim =>
    obtain ⟨id, row, -, hid, rfl, hready, -⟩ := Db.claimNextOutbound_some hclaim
    have hp := (Db.ready_iff _ _).mp hready
    have hnow := hpast now (by rw [hpc]; rfl)
    by_cases heq : id = r
    · subst heq
      refine .step (.claim row.nextAttempt ?_ (hp.2.trans hnow)) ?_
      · simp [hid, hpc, lifeOf_pending hp.1, WorkerPc.stage]
      · simp [hid, Stmt.onRow, lifeOf_pending hp.1, WorkerPc.stage, outboundRowToMessage]
    · exact hother (by simp [hpc, WorkerPc.inHand, WorkerPc.held])
        (hsome heq) (by simp)
  | @defer now msg next hdef =>
    by_cases heq : msg.id = r
    · obtain ⟨row, hrow, hp, -⟩ := hag.held _ hdef.held heq
      refine .step (.defer next ?_) ?_
      · simp [hrow, lifeOf_pending hp, hdef.stage, heq]
      · simp [hrow, Stmt.onRow, lifeOf_pending hp, WorkerPc.stage, heq]
    · have hne := hsome heq
      exact hother (by rwa [WorkerPc.inHand_of_held hdef.held]) hne (by simp)
  | @sendStart now msg hun =>
    by_cases heq : msg.id = r
    · obtain ⟨row, hrow, hp, -⟩ := hag.held _ hun.held heq
      refine .step (.start ?_) ?_
      · simp [hrow, lifeOf_pending hp, hun.stage, heq]
      · simp [hrow, lifeOf_pending hp, WorkerPc.stage, heq, ledger, Ledger.record]
    · have hne := hsome heq
      exact hother (by rwa [WorkerPc.inHand_of_held hun.held]) hne (by simp)
  | @sendOk now msg hpc =>
    by_cases heq : msg.id = r
    · obtain ⟨row, hrow, hp, -⟩ := hag.held msg (by rw [hpc]; rfl) heq
      refine .step (.succeed ?_) ?_
      · simp [hrow, hpc, lifeOf_pending hp, WorkerPc.stage, heq]
      · simp [hrow, lifeOf, hp, OutboundRow.stage, Stmt.onRow, heq, ledger, Ledger.record]
    · have hne := hsome heq
      exact hother (by rwa [hpc]) (hended _) (by simp)
  | @giveUp now msg hpc hout hmax =>
    by_cases heq : msg.id = r
    · obtain ⟨row, hrow, hp, hk⟩ := hag.held msg (by rw [hpc]; rfl) heq
      refine .step (.giveUp ?_ ?_) ?_
      · simp [hrow, hpc, lifeOf_pending hp, WorkerPc.stage, heq]
      · simpa [hrow, lifeOf, ← hk] using hmax
      · simp [hrow, lifeOf, hout, OutboundRow.stage, Stmt.onRow, heq, ledger, Ledger.record,
          WorkerPc.isFailing]
    · have hne := hsome heq
      exact hother (by rwa [hpc]) hne (by simp)
  | @retry now msg hpc hout hmax =>
    by_cases heq : msg.id = r
    · obtain ⟨row, hrow, hp, hk⟩ := hag.held msg (by rw [hpc]; rfl) heq
      refine .step (.retry ?_ ?_) ?_
      · simp [hrow, hpc, lifeOf_pending hp, WorkerPc.stage, heq]
      · simpa [hrow, lifeOf, ← hk] using hmax
      · simp [hrow, lifeOf_pending hp, hout, Stmt.onRow, heq, ledger, Ledger.record,
          WorkerPc.stage, hk]
    · have hne := hsome heq
      exact hother (by rwa [hpc]) hne (by simp)
  | @audit now msg outcome k hpc =>
    by_cases heq : msg.id = r
    · obtain ⟨row, hrow, hf⟩ := hag.failing (by simp [hpc, WorkerPc.isFailing, heq])
      refine .step (.audit ?_) ?_
      · simp [hrow, hpc, lifeOf, hf, OutboundRow.stage, WorkerPc.isFailing, heq]
      · simp [hrow, lifeOf, hf, OutboundRow.stage, Stmt.onRow, heq, ledger, Ledger.record,
          WorkerPc.isFailing]
    · have hne := hsome heq
      exact hother (by rwa [hpc]) (hended _) (by simp)
  | @requeue now id next k x ending hpc =>
    by_cases heq : id = r
    · subst heq
      obtain ⟨row, hrow, hp, hk⟩ := hag.requeueing _ _ _ _ _ hpc
      by_cases hend : ending = .retried
      · refine .step (.record next ?_) ?_
        · simp [hrow, hpc, lifeOf_pending hp, WorkerPc.stage, hend]
        · simp [hrow, lifeOf, hp, hk, hend, OutboundRow.stage, Stmt.onRow, ledger, Ledger.record,
            WorkerPc.stage]
      · refine .step (.putBack next ?_) ?_
        · simp [hrow, hpc, lifeOf_pending hp, WorkerPc.stage, hend]
        · simp [hrow, lifeOf, hp, hk, hend, OutboundRow.stage, Stmt.onRow, ledger, Ledger.record,
            WorkerPc.stage]
    · have hne := hsome heq
      exact hother (by rwa [hpc]) (hended _) (by simp)

/-! ## Requests that leave the row to the worker -/

namespace Task

/-- The row that a remove or a move-back was asked for. -/
def target : Task → Option Nat
  | remove id => some id
  | removeRead id _ => some id
  | removeWritten id _ => some id
  | moveBack id => some id
  | moveBackRead id _ => some id
  | moveBackMax id _ _ _ => some id
  | moveBackWritten id _ => some id
  | _ => none

def isPause : Task → Bool
  | pauseUser _ => true
  | pauseUserRead _ _ => true
  | pauseRecipient _ _ => true
  | pauseWritten _ _ _ => true
  | pauseRows _ _ _ _ => true
  | pauseMax _ _ _ _ _ _ => true
  | _ => false

/-- The rows that a pause has read and not yet written back. -/
def snapshot : Task → List OutboundMessage
  | pauseRows _ _ _ rows => rows
  | pauseMax _ _ _ row rows _ => row :: rows
  | _ => []

end Task

/-- No pause is under way. -/
def pauseFree (s : State) : Bool := s.tasks.all fun t => !(t.isPause && t.inProgress)

/-- The conditions of the retry rules on a step: no database error, no remove or move-back
of row `r`, and pauses begin and return between ticks. -/
def undisturbed (r : Nat) (s : State) : Act → Bool
  | .wait _ => true
  | .worker env => decide (env.call = .returns) &&
      match s.worker.pc with
      | .sleeping _ => pauseFree s
      | _ => true
  | .spawn t => decide (t.target ≠ some r)
  | .serve call => decide (s.worker.pc.tick = none) || (s.tasks[call]?).all fun t => !t.isPause

/-- Row `r` is left to the worker during its ticks. -/
structure Undisturbed (base r : Nat) (s : State) : Prop where
  past : TickPast s
  agrees : s.worker.pc.Agrees r (s.db.outbound.get? r)
  apart : ∀ t ∈ s.tasks, t.target ≠ some r
  calm : s.worker.pc.tick ≠ none → pauseFree s = true
  snapshot : ∀ t ∈ s.tasks, ∀ back ∈ t.snapshot, back.id = r →
    ∃ row, s.db.outbound.get? r = some row ∧ row.status = .pending ∧
      row.attempts = back.attempts ∧ (life base r s).Allows (max back.nextAttempt ⌊s.clock⌋)

theorem Task.Case.target {call : Nat} {t t' : Task} {st : Stmt} {evs : List Event}
    (hm : t.Case limits s.clock s.db call t' st evs) (h : t'.target = some r) :
    t.target = some r := by
  cases hm <;> first | exact h | cases h

theorem Task.Case.isPause {call : Nat} {t t' : Task} {st : Stmt} {evs : List Event}
    (hm : t.Case limits s.clock s.db call t' st evs) (h : t'.isPause = true) :
    t.isPause = true := by
  cases hm <;> first | rfl | cases h

theorem Task.Case.ledger {call : Nat} {t t' : Task} {st : Stmt} {evs : List Event}
    (hm : t.Case limits s.clock s.db call t' st evs) (hist : List Event) :
    Bbs.ledger base r (evs ++ hist) = Bbs.ledger base r hist := by
  cases hm <;> rfl

/-- A request with another target writes row `r` only for a pause. -/
theorem Task.Case.onRow {call : Nat} {t t' : Task} {st : Stmt} {evs : List Event}
    (hm : t.Case limits s.clock s.db call t' st evs) (row : OutboundRow) (h : t.target ≠ some r) :
    st.onRow r row = row ∨ t.isPause = true ∧ ∃ back ∈ t.snapshot, ∃ pausedUntil backAt,
      back.id = r ∧
      st = .requeueOutbound r (max back.nextAttempt pausedUntil) back.attempts backAt := by
  cases hm with
  | cancel | moveBackWrite =>
    left
    exact if_neg fun heq => h (congrArg some heq.symm)
  | @pauseRequeue _ _ pausedUntil back =>
    by_cases heq : back.id = r
    · right
      exact ⟨rfl, back, by simp [Task.snapshot], pausedUntil, _, heq, by rw [heq]⟩
    · left
      exact if_neg fun h => heq h.symm
  | pauseReturn hst =>
    left
    rcases hst with rfl | ⟨_, rfl⟩ <;> rfl
  | _ => exact .inl rfl

namespace WorkerPc

variable {pc : WorkerPc}

theorem stage_of_no_tick (h : pc.tick = none) (next : Int) : pc.stage r next = .waiting next := by
  cases pc with
  | sleeping | ended => rfl
  | _ => cases h

theorem Agrees.of_no_tick (h : pc.tick = none) : pc.Agrees r row? := by
  refine ⟨fun msg hmsg => ?_, fun now next k m ending hpc => ?_, fun hf => ?_⟩
  · cases pc with
    | sleeping | ended => cases hmsg
    | _ => cases h
  · rw [hpc] at h
    cases h
  · cases pc with
    | sleeping | ended => cases hf
    | _ => cases h

theorem Agrees.stage_none (h : pc.Agrees r none) (next : Int) : pc.stage r next = .waiting next := by
  have hheld : ∀ msg, pc.held = some msg → msg.id ≠ r := fun msg hmsg heq => by
    obtain ⟨row, hrow, -⟩ := h.held msg hmsg heq
    cases hrow
  have hreq := h.requeueing
  cases pc with
  | claimed now msg | pauseRead now msg | pauseCleared now msg | sending now msg =>
    exact if_neg (hheld msg rfl)
  | requeueing now id planned k m ending =>
    refine if_neg fun heq => ?_
    obtain ⟨row, hrow, -⟩ := hreq now planned k m ending (by rw [heq])
    cases hrow
  | _ => rfl

/-- The worker's memory stays right while status and attempts of the row do. -/
theorem Agrees.of_row {row?' : Option OutboundRow} (h : pc.Agrees r row?)
    (hrow : ∀ row, row? = some row →
      ∃ row', row?' = some row' ∧ row'.status = row.status ∧ row'.attempts = row.attempts) :
    pc.Agrees r row?' := by
  refine ⟨fun msg hmsg heq => ?_, fun now next k m ending hpc => ?_, fun hf => ?_⟩
  · obtain ⟨row, hr, hp, hk⟩ := h.held msg hmsg heq
    obtain ⟨row', hr', hp', hk'⟩ := hrow row hr
    exact ⟨row', hr', hp'.trans hp, hk.trans hk'.symm⟩
  · obtain ⟨row, hr, hp, hk⟩ := h.requeueing now next k m ending hpc
    obtain ⟨row', hr', hp', hk'⟩ := hrow row hr
    exact ⟨row', hr', hp'.trans hp, by rw [hk', hk]⟩
  · obtain ⟨row, hr, hfd⟩ := h.failing hf
    obtain ⟨row', hr', hfd', -⟩ := hrow row hr
    exact ⟨row', hr', hfd'.trans hfd⟩

end WorkerPc

theorem Worker.Case.agrees {env : Env} {m : WorkerMove}
    (hm : s.worker.Case limits s.clock s.db env m)
    (hag : s.worker.pc.Agrees r (s.db.outbound.get? r)) :
    m.worker.pc.Agrees r
      ((s.db.outbound.get? r).map fun row => m.stmt.elim row (Stmt.onRow r row)) := by
  refine ⟨fun msg hmsg heq => ?_, fun now next k x ending hpc' => ?_, fun hf => ?_⟩
  · cases hm with
    | claim hpc hclaim =>
      cases hmsg
      obtain ⟨id, row, -, hid, rfl, hready, -⟩ := Db.claimNextOutbound_some hclaim
      cases heq
      exact ⟨row, by simp [hid, Stmt.onRow], ((Db.ready_iff _ _).mp hready).1, rfl⟩
    | readPause hpc | clearPause hpc =>
      cases hmsg
      obtain ⟨row, hrow, h⟩ := hag.held msg (by rw [hpc]; rfl) heq
      exact ⟨row, by simp [hrow, Stmt.onRow], h⟩
    | sendStart hun =>
      cases hmsg
      obtain ⟨row, hrow, h⟩ := hag.held msg hun.held heq
      exact ⟨row, by simp [hrow], h⟩
    | _ => cases hmsg
  · cases hm with
    | @defer now' msg next' hdef =>
      obtain ⟨rfl, hid, rfl, rfl, rfl, rfl⟩ := by simpa using hpc'
      obtain ⟨row, hrow, hp, hk⟩ := hag.held msg hdef.held hid
      exact ⟨row, by simp [hrow, Stmt.onRow], hp, by simp [hk]⟩
    | @retry now' msg hpc =>
      obtain ⟨rfl, hid, rfl, rfl, rfl, rfl⟩ := by simpa using hpc'
      obtain ⟨row, hrow, hp, hk⟩ := hag.held msg (by rw [hpc]; rfl) hid
      exact ⟨row, by simp [hrow, Stmt.onRow], hp, by simp [hk]⟩
    | sleep => cases hpc'
    | _ => simp at hpc'
  · cases hm with
    | @giveUp now msg hpc =>
      have hid : msg.id = r := by simpa [WorkerPc.isFailing] using hf
      obtain ⟨row, hrow, -⟩ := hag.held msg (by rw [hpc]; rfl) hid
      exact ⟨_, by simp [hrow]; rfl, by simp [Stmt.onRow, hid]⟩
    | _ => cases hf

/-- What row `r` sees of a request. -/
theorem serve_evolves {call : Nat} {t t' : Task} {st : Stmt} {evs : List Event}
    (h : Undisturbed base r s) (hok : undisturbed r s (.serve call) = true)
    (ht : s.tasks[call]? = some t) (hm : t.Case limits s.clock s.db call t' st evs) :
    Evolves base ⌊s.clock⌋ (life base r s)
      (life base r
        { s with db := st.run s.db, tasks := s.tasks.set call t', hist := evs ++ s.hist }) := by
  have hmem := List.mem_of_getElem? ht
  unfold life
  dsimp only
  cases hrow : s.db.outbound.get? r with
  | none =>
    cases hrow' : (st.run s.db).outbound.get? r with
    | none => exact .inl (lifeOf_congr (hm.ledger _) (fun _ => rfl) rfl)
    | some row' =>
      rcases Stmt.get?_run hrow' with ⟨row, hrow', -⟩ | ⟨hst, -⟩
      · cases hrow.symm.trans hrow'
      · have hnew : row'.status = .pending ∧ row'.attempts = 0 := by
          cases hm with
          | firstPacket | nextPacket =>
            cases hst
            exact ⟨rfl, rfl⟩
          | pauseReturn hst' => rcases hst' with rfl | ⟨_, rfl⟩ <;> cases hst
          | _ => cases hst
        have hag := h.agrees
        rw [hrow] at hag
        refine .step (.insert row'.nextAttempt rfl) ?_
        rw [lifeOf_pending hnew.1, hag.stage_none, hm.ledger, hnew.2]
        rfl
  | some row =>
    rw [Stmt.get?_run_of_some hrow]
    rcases hm.onRow row (h.apart t hmem) with hsame | ⟨hpause, back, hback, p, x, hid, rfl⟩
    · left
      rw [hsame]
      exact lifeOf_congr (hm.ledger _) (fun _ => rfl) rfl
    · have htick : s.worker.pc.tick = none := by simpa [undisturbed, ht, hpause] using hok
      obtain ⟨row₀, hrow₀, hp, hk, hall⟩ := h.snapshot t hmem back hback hid
      cases hrow.symm.trans hrow₀
      refine .step (.pause row.nextAttempt (max back.nextAttempt p) ?_ ?_) ?_
      · rw [lifeOf_pending hp, WorkerPc.stage_of_no_tick htick]
      · rw [life, hrow] at hall
        exact hall.mono (max_le_max_right _ (le_max_left _ _))
      · simp [lifeOf, Stmt.onRow, OutboundRow.stage, hp, WorkerPc.stage_of_no_tick htick, hm.ledger,
          hk]

/-- The state after a segment of the worker that raises no error. -/
theorem Step.worker_state {env : Env} (h : Step limits s (.worker env) s')
    (hret : env.call = .returns) :
    ∃ m, s.worker.Case limits s.clock s.db env m ∧ s'.worker = m.worker ∧ s'.clock = s.clock ∧
      s'.tasks = s.tasks ∧ s'.hist = m.effects ++ m.events ++ s.hist ∧
      ∀ r, s'.db.outbound.get? r =
        (s.db.outbound.get? r).map fun row => m.stmt.elim row (Stmt.onRow r row) := by
  cases h with
  | @quiet _ m hm hst =>
    refine ⟨m, hm, rfl, rfl, rfl, ?_, fun r => by simp [hst]⟩
    cases hm with
    | sendStart | sleep => rfl
    | _ => cases hst
  | @returns _ m st hm hst =>
    refine ⟨m, hm, rfl, rfl, rfl, rfl, fun r => ?_⟩
    rw [hst]
    have hnew : ∀ row, st ≠ .enqueueOutbound row := by
      rintro row rfl
      cases hm with
      | sendStart | sleep => cases hst
      | _ => cases hst
    exact Stmt.get?_run_eq hnew r
  | raises _ _ hcall | raisesAfter _ _ hcall => cases hret.symm.trans hcall

theorem life_evolves (h : Undisturbed base r s) (hok : undisturbed r s a = true)
    (hs : Step limits s a s') : Evolves base ⌊s.clock⌋ (life base r s) (life base r s') := by
  cases a with
  | wait t | spawn t =>
    cases hs
    exact .inl rfl
  | worker env =>
    simp only [undisturbed, Bool.and_eq_true, decide_eq_true_eq] at hok
    obtain ⟨m, hm, hw, -, -, hhist, hrow⟩ := hs.worker_state hok.1
    have hevolves : Evolves base ⌊s.clock⌋ (life base r s) _ := worker_evolves hm h.past h.agrees
    rwa [← hrow, ← hw, ← hhist] at hevolves
  | serve call =>
    cases hs with
    | serve ht hm => exact serve_evolves h hok ht hm

theorem snapshot_of_pauseFree (h : pauseFree s = true) {t : Task} (ht : t ∈ s.tasks) :
    t.snapshot = [] := by
  have := List.all_eq_true.mp h t ht
  cases t <;> first | rfl | simp [Task.isPause, Task.inProgress, Task.isRequest] at this

theorem Task.Case.snapshot {call : Nat} {t t' : Task} {st : Stmt} {evs : List Event}
    (hm : t.Case limits s.clock s.db call t' st evs) {back : OutboundMessage}
    (h : back ∈ t'.snapshot) :
    back ∈ t.snapshot ∨ t.isPause = true ∧ st = .read ∧ ∃ pk, back ∈ s.db.pendingFor pk := by
  cases hm with
  | pauseSelect => exact .inr ⟨rfl, rfl, _, h⟩
  | pauseMax => exact .inl h
  | pauseRequeue => exact .inl (List.mem_cons_of_mem _ h)
  | _ => cases h

/-- A request does not touch what the retry rules read. -/
theorem Undisturbed.serve_keeps (h : Undisturbed base r s) {call : Nat} {t t' : Task} {st : Stmt}
    {evs : List Event} (ht : s.tasks[call]? = some t)
    (hm : t.Case limits s.clock s.db call t' st evs) (hrow : s.db.outbound.get? r = some row) :
    ∃ row', (st.run s.db).outbound.get? r = some row' ∧ row'.status = row.status ∧
      row'.attempts = row.attempts := by
  have hmem := List.mem_of_getElem? ht
  refine ⟨_, Stmt.get?_run_of_some hrow st, ?_⟩
  rcases hm.onRow row (h.apart t hmem) with hsame | ⟨-, back, hback, p, x, hid, rfl⟩
  · rw [hsame]
    exact ⟨rfl, rfl⟩
  · obtain ⟨row₀, hrow₀, -, hk, -⟩ := h.snapshot t hmem back hback hid
    cases hrow.symm.trans hrow₀
    simp [Stmt.onRow, hk]

theorem undisturbed_serve (h : Undisturbed base r s)
    (hlaw : (life base r s).Lawful base ⌊s.clock⌋) {call : Nat}
    (hok : undisturbed r s (.serve call) = true) {t t' : Task} {st : Stmt} {evs : List Event}
    (ht : s.tasks[call]? = some t) (hm : t.Case limits s.clock s.db call t' st evs) :
    Undisturbed base r
      { s with db := st.run s.db, tasks := s.tasks.set call t', hist := evs ++ s.hist } := by
  have hmem := List.mem_of_getElem? ht
  have hwaits : ∀ n, (life base r s).Allows n → (life base r
      { s with db := st.run s.db, tasks := s.tasks.set call t', hist := evs ++ s.hist }).Allows n := by
    intro n hn b hb
    refine hn b ?_
    rwa [life, lifeOf, hm.ledger] at hb
  have hold : ∀ u ∈ s.tasks, ∀ back ∈ u.snapshot, back.id = r →
      ∃ row, (st.run s.db).outbound.get? r = some row ∧ row.status = .pending ∧
        row.attempts = back.attempts ∧
        (life base r s).Allows (max back.nextAttempt ⌊s.clock⌋) := by
    intro u hu back hback hid
    obtain ⟨row, hrow, hp, hk, hall⟩ := h.snapshot u hu back hback hid
    obtain ⟨row', hrow', hp', hk'⟩ := h.serve_keeps ht hm hrow
    exact ⟨row', hrow', hp'.trans hp, hk'.trans hk, hall⟩
  refine ⟨h.past, h.agrees.of_row fun row hrow => h.serve_keeps ht hm hrow, ?_, ?_, ?_⟩
  · intro u hu htarget
    rcases List.mem_or_eq_of_mem_set hu with hu | rfl
    · exact h.apart u hu htarget
    · exact h.apart t hmem (hm.target htarget)
  · intro htick
    have hpause : t.isPause = false := by simpa [undisturbed, htick, ht] using hok
    have hcalm := List.all_eq_true.mp (h.calm htick)
    refine List.all_eq_true.mpr fun u hu => ?_
    rcases List.mem_or_eq_of_mem_set hu with hu | rfl
    · exact hcalm u hu
    · cases hu' : u.isPause with
      | false => rfl
      | true => cases hpause.symm.trans (hm.isPause hu')
  · intro u hu back hback hid
    rcases List.mem_or_eq_of_mem_set hu with hu | rfl
    · obtain ⟨row, hrow, hp, hk, hall⟩ := hold u hu back hback hid
      exact ⟨row, hrow, hp, hk, hwaits _ hall⟩
    · rcases hm.snapshot hback with hback | ⟨hpause, rfl, pk, hback⟩
      · obtain ⟨row, hrow, hp, hk, hall⟩ := hold t hmem back hback hid
        exact ⟨row, hrow, hp, hk, hwaits _ hall⟩
      · have htick : s.worker.pc.tick = none := by simpa [undisturbed, ht, hpause] using hok
        obtain ⟨id, row, hrow, hp, -, rfl⟩ := Db.mem_pendingFor.mp hback
        obtain rfl : id = r := hid
        refine ⟨row, hrow, hp, rfl, hwaits _ ?_⟩
        have hlife : (life base id s).stage = .waiting row.nextAttempt := by
          rw [life, hrow, lifeOf_pending hp, WorkerPc.stage_of_no_tick htick]
        rw [Life.Lawful, hlife] at hlaw
        exact hlaw.2.2

theorem Worker.Case.of_ended {env : Env} {m : WorkerMove} {ending : TickEnd}
    (hm : s.worker.Case limits s.clock s.db env m) (hpc : s.worker.pc = .ended ending) :
    m.stmt = none ∧ m.effects ++ m.events = [] := by
  have htick : s.worker.pc.tick = none := by rw [hpc]; rfl
  cases hm with
  | sleep => exact ⟨rfl, rfl⟩
  | defer hdef => cases htick.symm.trans hdef.tick
  | sendStart hun => cases htick.symm.trans hun.tick
  | _ hpc' => cases hpc.symm.trans hpc'

theorem undisturbed_worker (h : Undisturbed base r s) {env : Env}
    (hok : undisturbed r s (.worker env) = true) (hs : Step limits s (.worker env) s') :
    Undisturbed base r s' := by
  simp only [undisturbed, Bool.and_eq_true, decide_eq_true_eq] at hok
  obtain ⟨m, hm, hw, hclock, htasks, hhist, hrow⟩ := hs.worker_state hok.1
  have hfree : pauseFree s' = pauseFree s := by rw [pauseFree, htasks, pauseFree]
  refine ⟨tickPast_step h.past hs, ?_, ?_, ?_, ?_⟩
  · rw [hrow, hw]
    exact hm.agrees h.agrees
  · rw [htasks]
    exact h.apart
  · intro htick
    rw [hfree]
    obtain ⟨now, hnow⟩ := Option.ne_none_iff_exists'.mp htick
    rcases hs.tick hnow with hold | ⟨_, wake, -, hpc, -⟩
    · exact h.calm (by simp [hold])
    · simpa [hpc] using hok.2
  · intro t ht back hback hid
    rw [htasks] at ht
    have hno : pauseFree s = true → False := fun hfree => by
      rw [snapshot_of_pauseFree hfree ht] at hback
      cases hback
    cases hpc : s.worker.pc with
    | sleeping wake =>
      rw [hpc] at hok
      exact (hno hok.2).elim
    | ended ending =>
      obtain ⟨hst, hev⟩ := hm.of_ended hpc
      obtain ⟨row, hold, hp, hk, hall⟩ := h.snapshot t ht back hback hid
      have hlife : (life base r s').waits = (life base r s).waits := by
        simp [life, lifeOf, hhist, hev]
      refine ⟨row, by simp [hrow, hst, hold], hp, hk, ?_⟩
      rwa [Life.Allows, hlife, hclock]
    | _ => exact (hno (h.calm (by simp [hpc, WorkerPc.tick]))).elim

theorem undisturbed_step (h : Undisturbed base r s)
    (hlaw : (life base r s).Lawful base ⌊s.clock⌋) (hok : undisturbed r s a = true)
    (hs : Step limits s a s') : Undisturbed base r s' := by
  have hpast := tickPast_step h.past hs
  cases a with
  | wait t =>
    cases hs with
    | wait hle =>
      refine ⟨hpast, h.agrees, h.apart, h.calm, ?_⟩
      intro u hu back hback hid
      obtain ⟨row, hrow, hp, hk, hall⟩ := h.snapshot u hu back hback hid
      exact ⟨row, hrow, hp, hk, hall.mono (max_le_max_left _ (Int.floor_le_floor hle))⟩
  | worker env => exact undisturbed_worker h hok hs
  | spawn t =>
    cases hs with
    | spawn hreq =>
      have hnew : ∀ u, u ∈ s.tasks ++ [t] → u ∈ s.tasks ∨ u = t := by simp
      refine ⟨h.past, h.agrees, ?_, ?_, ?_⟩
      · intro u hu
        rcases hnew u hu with hu | rfl
        · exact h.apart u hu
        · simpa [undisturbed] using hok
      · intro htick
        have hcalm := List.all_eq_true.mp (h.calm htick)
        refine List.all_eq_true.mpr fun u hu => ?_
        rcases hnew u hu with hu | rfl
        · exact hcalm u hu
        · simp [Task.inProgress, hreq]
      · intro u hu back hback hid
        rcases hnew u hu with hu | rfl
        · exact h.snapshot u hu back hback hid
        · cases u with
          | pauseRows | pauseMax => cases hreq
          | _ => cases hback
  | serve call =>
    cases hs with
    | serve ht hm => exact undisturbed_serve h hlaw hok ht hm

theorem undisturbed_initial (h : Initial s) (base r : Nat) : Undisturbed base r s := by
  have hpc : s.worker.pc = .sleeping 0 := by rw [h.worker]; rfl
  refine ⟨?_, .of_no_tick (by rw [hpc]; rfl), ?_, ?_, ?_⟩
  · intro now htick
    rw [hpc] at htick
    cases htick
  · simp [h.tasks]
  · simp [hpc, WorkerPc.tick]
  · simp [h.tasks]

/-- Row `r` does not exist yet, or waits with attempts to spare. -/
def FreshRow (r : Nat) (s : State) : Prop :=
  ∀ row, s.db.outbound.get? r = some row → row.status = .pending ∧ row.attempts < maxAttempts

theorem lawful_initial (h : Initial s) (hfresh : FreshRow r s) :
    (life (startAttempts s r) r s).Lawful (startAttempts s r) ⌊s.clock⌋ := by
  unfold life
  rw [h.worker, h.hist]
  cases hrow : s.db.outbound.get? r with
  | none => simp [Life.Lawful, lifeOf, startAttempts, hrow, ledger]
  | some row =>
    obtain ⟨hp, hlt⟩ := hfresh row hrow
    rw [lifeOf_pending hp]
    simp [Life.Lawful, Worker.init, WorkerPc.stage, Life.Books, startAttempts, hrow, ledger, hlt,
      Life.Allows]

/-- A transmission of `r` begins after every backoff and after no success. -/
def Permitted (base r : Nat) (e : Event) (past : List Event) : Prop :=
  match e with
  | .sendStart id _ _ t =>
    id = r → (ledger base r past).successes = 0 ∧ ∀ b ∈ (ledger base r past).waits, b ≤ ⌊t⌋
  | _ => True

theorem permitted_step (h : Undisturbed base r s) (hlaw : (life base r s).Lawful base ⌊s.clock⌋)
    (hj : Machine.Justified (Permitted base r) s.hist) (hs : Step limits s a s') :
    Machine.Justified (Permitted base r) s'.hist := by
  refine justified_step hj hs fun e hrec => ?_
  cases e with
  | sendStart id pk tick t =>
    rintro rfl
    obtain ⟨env, msg, -, hun, rfl, -, rfl⟩ := hrec
    obtain ⟨row, hrow, hp, -⟩ := h.agrees.held msg hun.held rfl
    have hlife : (life base msg.id s).stage = .held := by
      rw [life, hrow, lifeOf_pending hp]
      simp [hun.stage]
    rw [Life.Lawful, hlife] at hlaw
    exact ⟨hlaw.1.2.2.1, hlaw.2.2⟩
  | _ => trivial

/-- The retry rules hold in every undisturbed run. -/
theorem lawful_run {s₀ : State} (h0 : Initial s₀) (hfresh : FreshRow r s₀)
    (hrun : Runs limits (undisturbed r) s₀ s) :
    (life (startAttempts s₀ r) r s).Lawful (startAttempts s₀ r) ⌊s.clock⌋ ∧
      Machine.Justified (Permitted (startAttempts s₀ r) r) s.hist := by
  have h := hrun.invariant (P := fun s => Undisturbed (startAttempts s₀ r) r s ∧
    (life (startAttempts s₀ r) r s).Lawful (startAttempts s₀ r) ⌊s.clock⌋ ∧
    Machine.Justified (Permitted (startAttempts s₀ r) r) s.hist) ?_
    ⟨undisturbed_initial h0 _ r, lawful_initial h0 hfresh, by rw [h0.hist]; trivial⟩
  · exact h.2
  rintro s a s' ⟨hun, hlaw, hj⟩ hok hs
  have hs := step_cases hs
  refine ⟨undisturbed_step hun hlaw hok hs, ?_, permitted_step hun hlaw hj hs⟩
  have hlaw' : (life (startAttempts s₀ r) r s').Lawful (startAttempts s₀ r) ⌊s.clock⌋ := by
    rcases life_evolves hun hok hs with heq | hstep
    · rwa [heq]
    · exact Life.lawful_step hlaw hstep
  exact Life.lawful_later hlaw' (Int.floor_le_floor hs.clock_le)

/-! ## The ledger and the history -/

theorem ledger_eq (base r : Nat) (hist : List Event) : (ledger base r hist).starts = starts r hist ∧
    (ledger base r hist).failures = failures r hist ∧
    (ledger base r hist).successes = successes r hist ∧
    (ledger base r hist).audits = failedAudits r hist := by
  induction hist with
  | nil => exact ⟨rfl, rfl, rfl, rfl⟩
  | cons e hist ih =>
    obtain ⟨h1, h2, h3, h4⟩ := ih
    simp only [ledger, Ledger.record, starts, failures, successes, failedAudits,
      List.countP_cons] at *
    cases e with
    | sendEnd id pk outcome t =>
      by_cases hid : id = r
      · cases outcome <;> simp [*]
      · simp [*]
    | sendStart id | failedAudit id => by_cases hid : id = r <;> simp [*]
    | _ => simp [*]

theorem mem_waits {newer older : List Event} {pk : Pubkey} {outcome : SendOutcome} {t : ℚ}
    (hout : outcome ≠ .ok) :
    ⌊t⌋ + backoffBaseSeconds * 2 ^ (base + failures r older) ∈
      (ledger base r (newer ++ .sendEnd r pk outcome t :: older)).waits := by
  induction newer with
  | nil =>
    rw [← (ledger_eq base r older).2.1]
    simp [ledger, Ledger.record, hout]
  | cons e newer ih =>
    show _ ∈ (Ledger.record base r e (ledger base r (newer ++ _))).waits
    unfold Ledger.record
    split
    · split <;> exact ih
    · split
      · split
        · exact ih
        · exact List.mem_cons_of_mem _ ih
      · exact ih
    · split <;> exact ih
    · exact ih

/-- Rows of the audit log on failed messages. -/
def failedRows (db : Db) : Nat := db.audit.countP fun row => row.action = lit "outbound_failed"

def failedEvents (hist : List Event) : Nat :=
  hist.countP fun e => match e with
    | .failedAudit _ => true
    | _ => false

theorem failedRows_run (db : Db) (st : Stmt) :
    failedRows (st.run db) = failedRows db +
      match st with
      | .writeAudit row => if row.action = lit "outbound_failed" then 1 else 0
      | _ => 0 := by
  cases st with
  | writeAudit row =>
    show (db.audit ++ [row]).countP _ = _
    simp [failedRows, List.countP_append, List.countP_cons]
  | _ => rfl

/-- The audit log has a row on a failed message for each time the worker wrote one. -/
theorem failedRows_step (hs : Step limits s a s') :
    failedRows s'.db + failedEvents s.hist = failedRows s.db + failedEvents s'.hist := by
  have hother : lit "queue_remove" ≠ lit "outbound_failed" ∧
      lit "queue_move_back" ≠ lit "outbound_failed" ∧
      lit "queue_pause_user" ≠ lit "outbound_failed" := by decide
  cases hs with
  | wait | spawn => rfl
  | quiet hm hst | raises hm hst =>
    cases hm <;> simp [failedEvents] at hst ⊢
  | returns hm hst | raisesAfter hm hst =>
    show failedRows (Stmt.run s.db _) + _ = _
    rw [failedRows_run]
    cases hm with
    | sendStart | sleep => cases hst
    | audit => cases hst; simp [failedEvents, Worker.auditFailed]; omega
    | _ => cases hst; simp [failedEvents]
  | serve ht hm =>
    show failedRows (Stmt.run s.db _) + _ = _
    rw [failedRows_run]
    cases hm with
    | cancelReturn | moveBackReturn => simp [failedEvents, Task.auditRow, hother]
    | pauseReturn hst =>
      rcases hst with rfl | ⟨_, rfl⟩ <;> simp [failedEvents, Task.auditRow, hother]
    | _ => simp [failedEvents]

theorem WorkerPc.stage_isOpen (pc : WorkerPc) (next : Int) : (pc.stage r next).isOpen = true := by
  unfold WorkerPc.stage
  split
  · split <;> rfl
  · split <;> rfl
  · split <;> rfl
  · split <;> rfl
  · split
    · split <;> rfl
    · rfl
  · rfl

theorem WorkerPc.phase_of_stage {pc : WorkerPc} {next n : Int} (h : pc.stage r next = .recording n) :
    ∃ k, pc.phase r = .recording k := by
  unfold WorkerPc.stage at h
  split at h
  · split at h <;> cases h
  · split at h <;> cases h
  · split at h <;> cases h
  · split at h <;> cases h
  · next id planned k m ending =>
    split at h
    · next hid =>
      split at h
      · next hend => exact ⟨k, by simp [WorkerPc.phase, hid, hend]⟩
      · cases h
    · cases h
  · cases h

/-- What the retry rules say of a row in the table. -/
theorem row_lawful {now : Int} {pc : WorkerPc}
    (h : (lifeOf base r (some row) pc hist).Lawful base now) :
    ((∀ k, pc.phase r ≠ .recording k) →
        row.attempts + (if row.status = .failed then 1 else 0) = base + failures r hist) ∧
      successes r hist = (if row.status = .sent then 1 else 0) ∧
      (row.status = .failed ↔ base + failures r hist = maxAttempts) ∧
      (pc.isFailing r = false → failedAudits r hist = if row.status = .failed then 1 else 0) := by
  obtain ⟨-, hf, hsu, hau⟩ := ledger_eq base r hist
  cases hst : row.status with
  | pending =>
    rw [lifeOf_pending hst] at h
    obtain ⟨hs, ha, hlt, hk⟩ := h.of_open (pc.stage_isOpen _)
    simp only [hf, hsu, hau] at hs ha hlt hk
    refine ⟨fun hph => hk fun n hn => ?_, hs, ?_, fun _ => ha⟩
    · obtain ⟨k, hk⟩ := WorkerPc.phase_of_stage hn
      exact hph k hk
    · simp only [reduceCtorEq, false_iff]
      omega
  | sent | dropped =>
    simp only [Life.Lawful, Life.Books, lifeOf, Option.elim_some, OutboundRow.stage, hst, hf, hsu,
      hau] at h
    simp only [reduceCtorEq, if_false, if_true, false_iff]
    obtain ⟨⟨hk, -, hs, ha⟩, hlt⟩ := h
    exact ⟨fun _ => hk, hs, by omega, fun _ => ha⟩
  | failed =>
    simp only [lifeOf, Option.elim_some, OutboundRow.stage, hst] at h
    simp only [reduceCtorEq, if_false, if_true, true_iff]
    cases hfail : pc.isFailing r with
    | true =>
      simp only [Life.Lawful, Life.Books, hfail, if_true, hf, hsu, hau] at h
      obtain ⟨⟨hk, -, hs, -⟩, heq⟩ := h
      exact ⟨fun _ => hk, hs, heq, nofun⟩
    | false =>
      simp only [Life.Lawful, Life.Books, hfail, hf, hsu, hau] at h
      obtain ⟨⟨hk, -, hs, ha⟩, heq⟩ := h
      exact ⟨fun _ => hk, hs, heq, fun _ => ha⟩
  | cancelled =>
    simp only [Life.Lawful, lifeOf, Option.elim_some, OutboundRow.stage, hst] at h

/-- **The retry rules**, in every run in which nobody removes row `r` or moves it back, pauses
complete between ticks and no database call raises.  The row is transmitted at most
`MAX_ATTEMPTS` times; no transmission begins after a success or before the backoff of an
earlier failure is over; `attempts` is the number of failures, less the last one of a failed
row; `sent` means one success, `failed` means `MAX_ATTEMPTS` failures and one audit row. -/
theorem retries_lawful {s₀ : State} (h0 : Initial s₀) (hfresh : FreshRow r s₀)
    (hrun : Runs limits (undisturbed r) s₀ s) :
    startAttempts s₀ r + starts r s.hist ≤ maxAttempts ∧
    (∀ newer pk tick t' past, s.hist = newer ++ .sendStart r pk tick t' :: past →
      successes r past = 0 ∧
      ∀ mid pk' outcome t older, past = mid ++ .sendEnd r pk' outcome t :: older → outcome ≠ .ok →
        ⌊t⌋ + backoffBaseSeconds * 2 ^ (startAttempts s₀ r + failures r older) ≤ ⌊t'⌋) ∧
    (∀ row, s.db.outbound.get? r = some row →
      ((∀ k, s.worker.pc.phase r ≠ .recording k) →
        row.attempts + (if row.status = .failed then 1 else 0) =
          startAttempts s₀ r + failures r s.hist) ∧
      successes r s.hist = (if row.status = .sent then 1 else 0) ∧
      (row.status = .failed ↔ startAttempts s₀ r + failures r s.hist = maxAttempts) ∧
      (s.worker.pc.isFailing r = false →
        failedAudits r s.hist = if row.status = .failed then 1 else 0)) ∧
    failedRows s.db = failedRows s₀.db + failedEvents s.hist := by
  obtain ⟨hlaw, hj⟩ := lawful_run h0 hfresh hrun
  refine ⟨?_, fun newer pk tick t' past heq => ?_, fun row hrow => ?_, ?_⟩
  · have := hlaw.starts_le
    rwa [← (ledger_eq (startAttempts s₀ r) r s.hist).1]
  · obtain ⟨hs, hw⟩ := Machine.justified_iff.mp hj newer _ past heq rfl
    rw [(ledger_eq _ r past).2.2.1] at hs
    refine ⟨hs, fun mid pk' outcome t older hpast hout => hw _ ?_⟩
    rw [hpast]
    exact mem_waits hout
  · rw [life, hrow] at hlaw
    exact row_lawful hlaw
  · refine hrun.invariant
      (P := fun s => failedRows s.db = failedRows s₀.db + failedEvents s.hist) ?_ ?_
    · intro s a s' h _ hs
      have := failedRows_step (step_cases hs)
      omega
    · rw [h0.hist]
      rfl

/-- A whole tick in which the send of message 1 fails. -/
def failedTick : List Act := failedSend ++ [.worker {}, .worker {}]

theorem oneMessage_fresh : FreshRow 1 oneMessage := by
  intro row hrow
  have : oneMessage.db.outbound.get? 1 = some hiRow := rfl
  cases this.symm.trans hrow
  exact ⟨rfl, by decide⟩

/-- The second transmission succeeds, after a radio outage and a pause. -/
theorem retries_lawful_second : ∃ s row, Runs {} (undisturbed 1) oneMessage s ∧
    s.db.outbound.get? 1 = some row ∧ row.status = .sent ∧ successes 1 s.hist = 1 ∧
    starts 1 s.hist ≤ maxAttempts := by
  obtain ⟨s, hrun, hp⟩ := Machine.exists_run (step {}) (undisturbed 1)
    (p := fun s => (s.db.outbound.get? 1).any fun row => row.status = .sent)
    (s := oneMessage)
    (failedTick ++ [.wait 130, .worker {}, .worker { pick := some 1 }, .worker {},
      .worker { radioAvailable := false }, .worker {}, .worker {},
      .spawn (.pauseUser 1), .serve 0, .serve 0, .serve 0, .serve 0, .serve 0, .serve 0,
      .wait 1930, .worker {}, .worker { pick := some 1 }, .worker {}, .worker {}, .worker {},
      .worker {}])
    (by decide +kernel)
  simp only [Option.any_eq_true, decide_eq_true_eq] at hp
  obtain ⟨row, hrow, hsent⟩ := hp
  obtain ⟨hstarts, -, hrows, -⟩ := retries_lawful oneMessage_initial oneMessage_fresh hrun
  obtain ⟨-, hsucc, -⟩ := hrows row hrow
  rw [if_pos hsent] at hsucc
  exact ⟨s, row, hrun, hrow, hsent, hsucc, le_trans (Nat.le_add_left _ _) hstarts⟩

/-- Five transmissions failed and `attempts` says four. -/
theorem failed_attempts_lag : ∃ s row, Initial oneMessage ∧ FreshRow 1 oneMessage ∧
    Runs {} (undisturbed 1) oneMessage s ∧ atRest s = true ∧ s.db.outbound.get? 1 = some row ∧
    row.status = .failed ∧ row.attempts = 4 ∧ startAttempts oneMessage 1 = 0 ∧
    failures 1 s.hist = 5 := by
  obtain ⟨s, hrun, hp⟩ := Machine.exists_run (step {}) (undisturbed 1)
    (p := fun s => atRest s && decide (failures 1 s.hist = 5) &&
      (s.db.outbound.get? 1).any fun row => decide (row.status = .failed ∧ row.attempts = 4))
    (s := oneMessage)
    (failedTick ++ [.wait 130] ++ failedTick ++ [.wait 190] ++ failedTick ++ [.wait 310] ++
      failedTick ++ [.wait 550] ++ failedTick)
    (by decide +kernel)
  simp only [Bool.and_eq_true, decide_eq_true_eq, Option.any_eq_true] at hp
  obtain ⟨⟨hrest, hfail⟩, row, hrow, hst, hfour⟩ := hp
  exact ⟨s, row, oneMessage_initial, oneMessage_fresh, hrun, hrest, hrow, hst, hfour, rfl, hfail⟩

end Bbs
