import Mathlib.Data.Rat.Floor
import Mathlib.Tactic.Linarith
import MeshcoreBbs.Config
import MeshcoreBbs.OutboundDb

/-!
# The outbound worker (`outbound.py`)

`_tick` and the loop `_run` around it, cut at the awaits.  A step is the code
between two awaits and ends with the statement it queues on the connection; the
connection serves statements in order, so the statement takes effect in that
step.  A `commit` is taken together with the statement before it.

Clock readings are rationals, `int(time.time())` is `⌊clock⌋`.  `Env` holds what
the worker cannot decide: which of the tied rows SQLite returns, whether the
radio is up, the outcome of a send, and whether the database call raises.

`Worker.move_cases` lists what a step can do.
-/

namespace Bbs

inductive SendOutcome
  | ok
  | noAck
  | error
  deriving DecidableEq, Repr

def SendOutcome.value : SendOutcome → Text
  | ok => lit "ok"
  | noAck => lit "no_ack"
  | error => lit "error"

def maxAttempts : Nat := 5

def maxAgeSeconds : Int := 24 * 3600

def backoffBaseSeconds : Int := 30

/-- `outbound_min_interval_ms` in seconds. -/
def LimitsConfig.minGap (limits : LimitsConfig) : ℚ := limits.outboundMinIntervalMs / 1000

/-- `outbound_per_recipient_min_interval_ms` in seconds. -/
def LimitsConfig.recipMinGap (limits : LimitsConfig) : ℚ :=
  limits.outboundPerRecipientMinIntervalMs / 1000

/-- What a run is judged by: calls and returns seen from outside, and the
statements that the properties count. -/
inductive Event
  | inserted (call index id : Nat) (row : OutboundRow) (time : ℚ)
  | sendStart (id : Nat) (pk : Pubkey) (tick : Int) (time : ℚ)
  | sendEnd (id : Nat) (pk : Pubkey) (outcome : SendOutcome) (time : ℚ)
  | requeued (id : Nat)
  | failedAudit (id : Nat)
  | cancelReturned (id : Nat)
  | pauseReturned (pk : Pubkey) (pausedUntil : Int)
  deriving DecidableEq

/-- How a tick ended; `_tick` returns `False` for `deferred` only, and a tick that
raised counts as `deferred`. -/
inductive TickEnd
  | deferred
  | sent
  | failed
  | retried
  deriving DecidableEq, Repr

/-- Where the worker waits; the argument `now` is the time of the tick. -/
inductive WorkerPc
  | sleeping (wake : ℚ)
  | dropped (now : Int)
  | claimed (now : Int) (msg : OutboundMessage)
  | pauseRead (now : Int) (msg : OutboundMessage) (stored : Option Int)
  | pauseCleared (now : Int) (msg : OutboundMessage)
  | sending (now : Int) (msg : OutboundMessage)
  | failing (now : Int) (msg : OutboundMessage) (outcome : SendOutcome) (attempts : Nat)
  | requeueing (now : Int) (id : Nat) (nextAttempt : Int) (attempts : Nat) (maxEnqueuedAt : Int)
      (ending : TickEnd)
  | ended (ending : TickEnd)
  deriving DecidableEq

structure Worker where
  pc : WorkerPc
  lastSendAt : ℚ := 0
  lastSendTo : Pubkey → ℚ := fun _ => 0
  sendsAttempted : Nat := 0
  sendsSucceeded : Nat := 0
  sendsFailed : Nat := 0

/-- The worker just started. -/
def Worker.init : Worker := { pc := .sleeping 0 }

/-- A database call returns, or raises without or after its effect (a failing commit). -/
inductive DbCall
  | returns
  | raises
  | raisesAfter
  deriving DecidableEq

structure Env where
  pick : Option Nat := none
  radioAvailable : Bool := true
  outcome : SendOutcome := .ok
  call : DbCall := .returns

/-- The worker's next segment: its state if the call returns, the statement it queues
if any, what happens before the statement and what the statement's effect records. -/
structure WorkerMove where
  worker : Worker
  stmt : Option Stmt := none
  events : List Event := []
  effects : List Event := []

namespace Worker

variable (limits : LimitsConfig) (clock : ℚ) (db : Db) (env : Env) (w : Worker)

def goto (pc : WorkerPc) : Worker := { w with pc := pc }

@[simp] theorem goto_pc (pc : WorkerPc) : (w.goto pc).pc = pc := rfl

/-- `reschedule_outbound` up to its `SELECT COALESCE(MAX(enqueued_at), 0)`. -/
def reschedule (now : Int) (id : Nat) (nextAttempt : Int) (attempts : Nat) (ending : TickEnd) :
    WorkerMove :=
  { worker := w.goto (.requeueing now id nextAttempt attempts db.maxEnqueuedAt ending)
    stmt := some .read }

/-- `_tick` once the recipient is found not to be paused: throttle, radio, send. -/
def sendOrDefer (now : Int) (msg : OutboundMessage) : WorkerMove :=
  let lastToRecip := w.lastSendTo msg.toPubkey
  if lastToRecip ≠ 0 ∧ clock - lastToRecip < limits.recipMinGap then
    w.reschedule db now msg.id (⌊lastToRecip + limits.recipMinGap⌋ + 1) msg.attempts .deferred
  else if !env.radioAvailable then
    w.reschedule db now msg.id (⌊clock⌋ + min backoffBaseSeconds 15) msg.attempts .deferred
  else
    { worker := { w with pc := .sending now msg, sendsAttempted := w.sendsAttempted + 1 }
      events := [.sendStart msg.id msg.toPubkey now clock] }

/-- The worker's memory after a send. -/
def noteSend (pk : Pubkey) : Worker :=
  { w with lastSendAt := clock, lastSendTo := Function.update w.lastSendTo pk clock }

/-- `_tick` from the return of `send_msg`. -/
def afterSend (now : Int) (msg : OutboundMessage) : WorkerMove :=
  let w := w.noteSend clock msg.toPubkey
  let ended := Event.sendEnd msg.id msg.toPubkey env.outcome clock
  let attempts := msg.attempts + 1
  if env.outcome = .ok then
    { worker := w.goto (.ended .sent), stmt := some (.markOutboundSent msg.id), events := [ended] }
  else if maxAttempts ≤ attempts then
    { worker := w.goto (.failing now msg env.outcome attempts)
      stmt := some (.markOutboundFailed msg.id), events := [ended] }
  else
    { w.reschedule db now msg.id (⌊clock⌋ + backoffBaseSeconds * 2 ^ (attempts - 1)) attempts
        .retried with events := [ended] }

def auditFailed (msg : OutboundMessage) (outcome : SendOutcome) (attempts : Nat) : AuditRow where
  ts := ⌊clock⌋
  actorPubkey := none
  action := lit "outbound_failed"
  detail := lit "to=" ++ msg.toPubkey.take 12 ++ lit " outcome=" ++ outcome.value ++
    lit " attempts=" ++ decimal attempts

/-- `_run` after a tick: the counters, then the sleep before the next one. -/
def afterTick (ending : TickEnd) : Worker :=
  let elapsed := clock - w.lastSendAt
  { w with
    pc := .sleeping (if ending = .deferred then clock + 1 / 2
      else if elapsed < limits.minGap then clock + (limits.minGap - elapsed) else clock)
    sendsSucceeded := if ending = .sent then w.sendsSucceeded + 1 else w.sendsSucceeded
    sendsFailed := if ending = .failed then w.sendsFailed + 1 else w.sendsFailed }

def move : Option WorkerMove :=
  match w.pc with
  | .sleeping wake =>
    if wake ≤ clock then
      some { worker := w.goto (.dropped ⌊clock⌋)
             stmt := some (.dropStaleOutbound (⌊clock⌋ - maxAgeSeconds)) }
    else none
  | .dropped now =>
    (db.claimNextOutbound now env.pick).map fun msg =>
      { worker := w.goto (msg.elim (.ended .deferred) (.claimed now)), stmt := some .read }
  | .claimed now msg =>
    some { worker := w.goto (.pauseRead now msg (db.pause msg.toPubkey)), stmt := some .read }
  | .pauseRead now msg none => some (w.sendOrDefer limits clock db env now msg)
  | .pauseRead now msg (some pausedUntil) =>
    some <| if pausedUntil ≤ ⌊clock⌋ then
        { worker := w.goto (.pauseCleared now msg), stmt := some (.deletePause msg.toPubkey) }
      else if now < pausedUntil then
        w.reschedule db now msg.id pausedUntil msg.attempts .deferred
      else w.sendOrDefer limits clock db env now msg
  | .pauseCleared now msg => some (w.sendOrDefer limits clock db env now msg)
  | .sending now msg => some (w.afterSend clock db env now msg)
  | .failing _ msg outcome attempts =>
    some { worker := w.goto (.ended .failed)
           stmt := some (.writeAudit (auditFailed clock msg outcome attempts))
           effects := [.failedAudit msg.id] }
  | .requeueing _ id nextAttempt attempts maxEnqueuedAt ending =>
    some { worker := w.goto (.ended ending)
           stmt := some (.requeueOutbound id nextAttempt attempts (max ⌊clock⌋ maxEnqueuedAt + 1))
           effects := [.requeued id] }
  | .ended ending => some { worker := w.afterTick limits clock ending }

/-- The tick is left by the exception of a database call. -/
def abort : Worker := w.goto (.ended .deferred)

def step : Option (Worker × Db × List Event) :=
  (w.move limits clock db env).map fun m =>
    match m.stmt, env.call with
    | none, _ => (m.worker, db, m.events)
    | some st, .returns => (m.worker, st.run db, m.effects ++ m.events)
    | some _, .raises => (m.worker.abort, db, m.events)
    | some st, .raisesAfter => (m.worker.abort, st.run db, m.effects ++ m.events)

end Worker

/-! ## What a step can do -/

namespace WorkerPc

/-- The row the worker has claimed and may still send, or is sending. -/
def held : WorkerPc → Option OutboundMessage
  | claimed _ msg => some msg
  | pauseRead _ msg _ => some msg
  | pauseCleared _ msg => some msg
  | sending _ msg => some msg
  | _ => none

/-- The time of the tick in progress. -/
def tick : WorkerPc → Option Int
  | sleeping _ => none
  | dropped now => some now
  | claimed now _ => some now
  | pauseRead now _ _ => some now
  | pauseCleared now _ => some now
  | sending now _ => some now
  | failing now _ _ _ => some now
  | requeueing now _ _ _ _ _ => some now
  | ended _ => none

end WorkerPc

/-- `_tick` goes on to the throttle check: no pause is stored, or it has passed. -/
inductive Unpaused (clock : ℚ) : WorkerPc → Int → OutboundMessage → Prop
  | absent {now msg} : Unpaused clock (.pauseRead now msg none) now msg
  | past {now msg pausedUntil} (hclock : ⌊clock⌋ < pausedUntil) (hnow : pausedUntil ≤ now) :
      Unpaused clock (.pauseRead now msg (some pausedUntil)) now msg
  | cleared {now msg} : Unpaused clock (.pauseCleared now msg) now msg

namespace Worker

variable (limits : LimitsConfig) (clock : ℚ) (db : Db) (env : Env) (w : Worker)

def Throttled (msg : OutboundMessage) : Prop :=
  w.lastSendTo msg.toPubkey ≠ 0 ∧ clock - w.lastSendTo msg.toPubkey < limits.recipMinGap

/-- The three reasons to put the claimed row back, with the time of its next attempt. -/
inductive Deferral (now : Int) (msg : OutboundMessage) : Int → Prop
  | paused {next} (hpc : w.pc = .pauseRead now msg (some next)) (hclock : ⌊clock⌋ < next)
      (hnow : now < next) : Deferral now msg next
  | throttled (hun : Unpaused clock w.pc now msg) (hthr : w.Throttled limits clock msg) :
      Deferral now msg (⌊w.lastSendTo msg.toPubkey + limits.recipMinGap⌋ + 1)
  | radioDown (hun : Unpaused clock w.pc now msg) (hthr : ¬ w.Throttled limits clock msg)
      (hradio : env.radioAvailable = false) :
      Deferral now msg (⌊clock⌋ + min backoffBaseSeconds 15)

inductive Case : WorkerMove → Prop
  | tick {wake} (hpc : w.pc = .sleeping wake) (hwake : wake ≤ clock) :
      Case { worker := w.goto (.dropped ⌊clock⌋)
             stmt := some (.dropStaleOutbound (⌊clock⌋ - maxAgeSeconds)) }
  | claimNone {now} (hpc : w.pc = .dropped now)
      (hclaim : db.claimNextOutbound now env.pick = some none) :
      Case { worker := w.goto (.ended .deferred), stmt := some .read }
  | claim {now msg} (hpc : w.pc = .dropped now)
      (hclaim : db.claimNextOutbound now env.pick = some (some msg)) :
      Case { worker := w.goto (.claimed now msg), stmt := some .read }
  | readPause {now msg} (hpc : w.pc = .claimed now msg) :
      Case { worker := w.goto (.pauseRead now msg (db.pause msg.toPubkey)), stmt := some .read }
  | clearPause {now msg pausedUntil} (hpc : w.pc = .pauseRead now msg (some pausedUntil))
      (hpast : pausedUntil ≤ ⌊clock⌋) :
      Case { worker := w.goto (.pauseCleared now msg), stmt := some (.deletePause msg.toPubkey) }
  | defer {now msg next} (hdef : w.Deferral limits clock env now msg next) :
      Case { worker := w.goto
               (.requeueing now msg.id next msg.attempts db.maxEnqueuedAt .deferred)
             stmt := some .read }
  | sendStart {now msg} (hun : Unpaused clock w.pc now msg) (hthr : ¬ w.Throttled limits clock msg)
      (hradio : env.radioAvailable = true) :
      Case { worker := { w with pc := .sending now msg, sendsAttempted := w.sendsAttempted + 1 }
             events := [.sendStart msg.id msg.toPubkey now clock] }
  | sendOk {now msg} (hpc : w.pc = .sending now msg) (hout : env.outcome = .ok) :
      Case { worker := (w.noteSend clock msg.toPubkey).goto (.ended .sent)
             stmt := some (.markOutboundSent msg.id)
             events := [.sendEnd msg.id msg.toPubkey .ok clock] }
  | giveUp {now msg} (hpc : w.pc = .sending now msg) (hout : env.outcome ≠ .ok)
      (hmax : maxAttempts ≤ msg.attempts + 1) :
      Case { worker := (w.noteSend clock msg.toPubkey).goto
               (.failing now msg env.outcome (msg.attempts + 1))
             stmt := some (.markOutboundFailed msg.id)
             events := [.sendEnd msg.id msg.toPubkey env.outcome clock] }
  | retry {now msg} (hpc : w.pc = .sending now msg) (hout : env.outcome ≠ .ok)
      (hmax : msg.attempts + 1 < maxAttempts) :
      Case { worker := (w.noteSend clock msg.toPubkey).goto (.requeueing now msg.id
               (⌊clock⌋ + backoffBaseSeconds * 2 ^ msg.attempts) (msg.attempts + 1)
               db.maxEnqueuedAt .retried)
             stmt := some .read
             events := [.sendEnd msg.id msg.toPubkey env.outcome clock] }
  | audit {now msg outcome attempts} (hpc : w.pc = .failing now msg outcome attempts) :
      Case { worker := w.goto (.ended .failed)
             stmt := some (.writeAudit (auditFailed clock msg outcome attempts))
             effects := [.failedAudit msg.id] }
  | requeue {now id next attempts maxEnqueuedAt ending}
      (hpc : w.pc = .requeueing now id next attempts maxEnqueuedAt ending) :
      Case { worker := w.goto (.ended ending)
             stmt := some (.requeueOutbound id next attempts (max ⌊clock⌋ maxEnqueuedAt + 1))
             effects := [.requeued id] }
  | sleep {ending} (hpc : w.pc = .ended ending) : Case { worker := w.afterTick limits clock ending }

variable {limits clock db env w}

theorem sendOrDefer_cases {now : Int} {msg : OutboundMessage} (hun : Unpaused clock w.pc now msg) :
    w.Case limits clock db env (w.sendOrDefer limits clock db env now msg) := by
  unfold sendOrDefer
  dsimp only
  split
  · next hthr => exact .defer (.throttled hun hthr)
  · next hthr =>
    cases hradio : env.radioAvailable with
    | false => exact .defer (.radioDown hun hthr hradio)
    | true => exact .sendStart hun hthr hradio

theorem afterSend_cases {now : Int} {msg : OutboundMessage} (hpc : w.pc = .sending now msg) :
    w.Case limits clock db env (w.afterSend clock db env now msg) := by
  unfold afterSend
  dsimp only
  split
  · next hout =>
    rw [hout]
    exact .sendOk hpc hout
  · next hout =>
    split
    · next hmax => exact .giveUp hpc hout hmax
    · next hmax => exact .retry hpc hout (Nat.lt_of_not_le hmax)

theorem move_cases {m : WorkerMove} (h : w.move limits clock db env = some m) :
    w.Case limits clock db env m := by
  unfold move at h
  split at h
  · next wake hpc =>
    split at h
    · next hwake =>
      cases h
      exact .tick hpc hwake
    · cases h
  · next now hpc =>
    rw [Option.map_eq_some_iff] at h
    obtain ⟨msg, hclaim, rfl⟩ := h
    cases msg with
    | none => exact .claimNone hpc hclaim
    | some msg => exact .claim hpc hclaim
  · next now msg hpc =>
    cases h
    exact .readPause hpc
  · next now msg hpc =>
    cases h
    exact sendOrDefer_cases (hpc ▸ .absent)
  · next now msg pausedUntil hpc =>
    rw [Option.some.injEq] at h
    subst h
    split
    · next hpast => exact .clearPause hpc hpast
    · next hpast =>
      split
      · next hnow => exact .defer (.paused hpc (Int.lt_of_not_ge hpast) hnow)
      · next hnow =>
        exact sendOrDefer_cases (hpc ▸ .past (Int.lt_of_not_ge hpast) (Int.le_of_not_gt hnow))
  · next now msg hpc =>
    cases h
    exact sendOrDefer_cases (hpc ▸ .cleared)
  · next now msg hpc =>
    cases h
    exact afterSend_cases hpc
  · next now msg outcome attempts hpc =>
    cases h
    exact .audit hpc
  · next now id next attempts maxEnqueuedAt ending hpc =>
    cases h
    exact .requeue hpc
  · next ending hpc =>
    cases h
    exact .sleep hpc

end Worker

theorem Unpaused.held {clock : ℚ} {pc : WorkerPc} {now : Int} {msg : OutboundMessage}
    (h : Unpaused clock pc now msg) : pc.held = some msg := by
  cases h <;> rfl

theorem Unpaused.tick {clock : ℚ} {pc : WorkerPc} {now : Int} {msg : OutboundMessage}
    (h : Unpaused clock pc now msg) : pc.tick = some now := by
  cases h <;> rfl

theorem Unpaused.not_sending {clock : ℚ} {pc : WorkerPc} {now : Int} {msg : OutboundMessage}
    (h : Unpaused clock pc now msg) : ∀ now' msg', pc ≠ .sending now' msg' := by
  cases h <;> simp

namespace Worker.Deferral

variable {limits : LimitsConfig} {clock : ℚ} {env : Env} {w : Worker} {now next : Int}
  {msg : OutboundMessage}

theorem held (h : w.Deferral limits clock env now msg next) : w.pc.held = some msg := by
  cases h with
  | paused hpc => rw [hpc]; rfl
  | throttled hun | radioDown hun => exact hun.held

theorem tick (h : w.Deferral limits clock env now msg next) : w.pc.tick = some now := by
  cases h with
  | paused hpc => rw [hpc]; rfl
  | throttled hun | radioDown hun => exact hun.tick

/-- A deferred row is not ready in the current second. -/
theorem clock_lt (h : w.Deferral limits clock env now msg next) : ⌊clock⌋ < next := by
  cases h with
  | paused _ hclock => exact hclock
  | throttled _ hthr =>
    have hlt : clock ≤ w.lastSendTo msg.toPubkey + limits.recipMinGap := by
      have := hthr.2
      linarith
    have := Int.floor_le_floor hlt
    omega
  | radioDown =>
    have : (0 : Int) < min backoffBaseSeconds 15 := by decide
    omega

end Worker.Deferral

end Bbs
