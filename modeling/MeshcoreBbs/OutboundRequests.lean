import MeshcoreBbs.Format
import MeshcoreBbs.OutboundWorker

/-!
# The other users of the outbound tables

`_enqueue_reply` of the dispatcher, the queue actions and `build_queue` of the
dashboard, cut at their awaits like the worker.  Paths and names that
`build_queue` looks up on the way do not touch these tables.

`Task.move_cases` lists what a step can do.
-/

namespace Bbs

def priorityNormal : Int := 10

def priorityNotification : Int := 1

def outboundPauseSeconds : Int := 30 * 60

/-- The arguments of `_enqueue_reply`. -/
structure Reply where
  pk : Pubkey
  text : Text
  priority : Int := priorityNormal
  triggerCommand : Option Text := none
  deriving DecidableEq

namespace Reply

variable (reply : Reply)

def msgKind : Text :=
  if reply.priority < priorityNormal then lit "notification" else lit "response"

/-- A low-priority reply is refused when the queue is full. -/
def refused (limits : LimitsConfig) (depth : Nat) : Bool :=
  limits.outboundQueueMaxDepth ≤ depth && reply.priority < priorityNormal

def row (now : Int) (packet : Text) : OutboundRow :=
  newOutboundRow reply.pk packet now reply.priority reply.triggerCommand reply.msgKind

end Reply

/-- Where a request waits.  In a pause, `origin` is the id of the message it was
requested for on the dashboard, `none` for a direct call. -/
inductive Task
  | enqueueReply (reply : Reply)
  | replyDepth (reply : Reply) (depth : Nat)
  | replyInsert (reply : Reply) (now : Int) (index : Nat) (packets : List Text)
  | remove (id : Nat)
  | removeRead (id : Nat) (found : Option OutboundMessage)
  | removeWritten (id : Nat) (msg : OutboundMessage)
  | moveBack (id : Nat)
  | moveBackRead (id : Nat) (found : Option OutboundMessage)
  | moveBackMax (id : Nat) (msg : OutboundMessage) (now maxEnqueuedAt : Int)
  | moveBackWritten (id : Nat) (msg : OutboundMessage)
  | pauseUser (id : Nat)
  | pauseUserRead (id : Nat) (found : Option OutboundMessage)
  | pauseRecipient (pk : Pubkey) (seconds : Int)
  | pauseWritten (origin : Option Nat) (pk : Pubkey) (pausedUntil : Int)
  | pauseRows (origin : Option Nat) (pk : Pubkey) (pausedUntil : Int)
      (rows : List OutboundMessage)
  | pauseMax (origin : Option Nat) (pk : Pubkey) (pausedUntil : Int)
      (row : OutboundMessage) (rows : List OutboundMessage) (maxEnqueuedAt : Int)
  | buildQueue
  | listing (cached : List Pubkey) (messages : List OutboundMessage)
  | listingRead (cached : List Pubkey) (pk : Pubkey) (stored : Option Int)
      (messages : List OutboundMessage)
  | done
  deriving DecidableEq

namespace Task

/-- A request that has not started. -/
def isRequest : Task → Bool
  | enqueueReply _ => true
  | remove _ => true
  | moveBack _ => true
  | pauseUser _ => true
  | pauseRecipient _ _ => true
  | buildQueue => true
  | _ => false

/-- A request in the middle of its work. -/
def inProgress (t : Task) : Bool := !t.isRequest && t ≠ done

variable (limits : LimitsConfig) (clock : ℚ) (db : Db) (call : Nat)

def auditRow (action detail : Text) : AuditRow := ⟨⌊clock⌋, none, action, detail⟩

/-- `id=… to=…` of the audit rows on queue actions. -/
def auditTarget (id : Nat) (pk : Pubkey) : Text :=
  lit "id=" ++ decimal id ++ lit " to=" ++ pk.take 12

/-- The loop over the packets of a reply. -/
def insertNext (reply : Reply) (now : Int) (index : Nat) : List Text → Task × Stmt × List Event
  | [] => (done, .read, [])
  | packet :: packets =>
    (replyInsert reply now (index + 1) packets, .enqueueOutbound (reply.row now packet),
      [.inserted call (index + 1) (db.outbound.seq + 1) (reply.row now packet) clock])

/-- The `INSERT` of `pause_outbound_recipient`. -/
def startPause (origin : Option Nat) (pk : Pubkey) (seconds : Int) :
    Task × Stmt × List Event :=
  (pauseWritten origin pk (⌊clock⌋ + seconds), .setPause pk (⌊clock⌋ + seconds), [])

/-- `pause_outbound_recipient` returns; the dashboard then writes its audit row. -/
def endPause (origin : Option Nat) (pk : Pubkey) (pausedUntil : Int) :
    Task × Stmt × List Event :=
  (done,
    origin.elim .read fun id => .writeAudit <| auditRow clock (lit "queue_pause_user") <|
      auditTarget id pk ++ lit " until=" ++ decimalInt pausedUntil ++ lit " seconds=" ++
        decimalInt outboundPauseSeconds,
    [.pauseReturned pk pausedUntil])

/-- `build_queue` from the next message on whose recipient is not cached. -/
def listNext (cached : List Pubkey) (messages : List OutboundMessage) :
    Task × Stmt × List Event :=
  match messages.dropWhile fun msg => msg.toPubkey ∈ cached with
  | [] => (done, .read, [])
  | msg :: messages =>
    (listingRead (msg.toPubkey :: cached) msg.toPubkey (db.pause msg.toPubkey) messages, .read, [])

def move : Task → Option (Task × Stmt × List Event)
  | enqueueReply reply => some (replyDepth reply db.outboundPendingDepth, .read, [])
  | replyDepth reply depth => some <|
    if reply.refused limits depth then (done, .read, [])
    else insertNext clock db call reply ⌊clock⌋ 0
      (Format.splitPackets reply.text Format.defaultPacketBytes)
  | replyInsert reply now index packets => some (insertNext clock db call reply now index packets)
  | remove id => some (removeRead id (db.getPendingOutbound id), .read, [])
  | removeRead _ none => some (done, .read, [])
  | removeRead id (some msg) => some (removeWritten id msg, .setCancelled id, [])
  | removeWritten id msg =>
    some (done, .writeAudit (auditRow clock (lit "queue_remove") (auditTarget id msg.toPubkey)),
      [.cancelReturned id])
  | moveBack id => some (moveBackRead id (db.getPendingOutbound id), .read, [])
  | moveBackRead _ none => some (done, .read, [])
  | moveBackRead id (some msg) => some (moveBackMax id msg ⌊clock⌋ db.maxEnqueuedAt, .read, [])
  | moveBackMax id msg now maxEnqueuedAt =>
    some (moveBackWritten id msg,
      .requeueOutbound id now msg.attempts (max ⌊clock⌋ maxEnqueuedAt + 1), [.requeued id])
  | moveBackWritten id msg =>
    some (done, .writeAudit (auditRow clock (lit "queue_move_back") (auditTarget id msg.toPubkey)),
      [])
  | pauseUser id => some (pauseUserRead id (db.getPendingOutbound id), .read, [])
  | pauseUserRead _ none => some (done, .read, [])
  | pauseUserRead id (some msg) =>
    some (startPause clock (some id) msg.toPubkey outboundPauseSeconds)
  | pauseRecipient pk seconds => some (startPause clock none pk seconds)
  | pauseWritten origin pk pausedUntil =>
    some (pauseRows origin pk pausedUntil (db.pendingFor pk), .read, [])
  | pauseRows origin pk pausedUntil [] => some (endPause clock origin pk pausedUntil)
  | pauseRows origin pk pausedUntil (row :: rows) =>
    some (pauseMax origin pk pausedUntil row rows db.maxEnqueuedAt, .read, [])
  | pauseMax origin pk pausedUntil row rows maxEnqueuedAt =>
    some (pauseRows origin pk pausedUntil rows,
      .requeueOutbound row.id (max row.nextAttempt pausedUntil) row.attempts
        (max ⌊clock⌋ maxEnqueuedAt + 1),
      [.requeued row.id])
  | buildQueue => some (listing [] (db.listPendingOutbound 100), .read, [])
  | listing cached messages => some (listNext db cached messages)
  | listingRead cached pk stored messages => some <|
    match stored with
    | some pausedUntil =>
      if pausedUntil ≤ ⌊clock⌋ then (listing cached messages, .deletePause pk, [])
      else (listing cached messages, .read, [])
    | none => (listing cached messages, .read, [])
  | done => none

/-! ## What a step can do -/

inductive Case : Task → Task → Stmt → List Event → Prop
  | readDepth {reply} :
      Case (enqueueReply reply) (replyDepth reply db.outboundPendingDepth) .read []
  | refuse {reply depth} (href : reply.refused limits depth = true) :
      Case (replyDepth reply depth) done .read []
  | firstPacket {reply depth packet packets} (href : reply.refused limits depth = false)
      (hsplit : Format.splitPackets reply.text Format.defaultPacketBytes = packet :: packets) :
      Case (replyDepth reply depth) (replyInsert reply ⌊clock⌋ 1 packets)
        (.enqueueOutbound (reply.row ⌊clock⌋ packet))
        [.inserted call 1 (db.outbound.seq + 1) (reply.row ⌊clock⌋ packet) clock]
  | noPacket {reply depth} (href : reply.refused limits depth = false)
      (hsplit : Format.splitPackets reply.text Format.defaultPacketBytes = []) :
      Case (replyDepth reply depth) done .read []
  | nextPacket {reply now index packet packets} :
      Case (replyInsert reply now index (packet :: packets))
        (replyInsert reply now (index + 1) packets)
        (.enqueueOutbound (reply.row now packet))
        [.inserted call (index + 1) (db.outbound.seq + 1) (reply.row now packet) clock]
  | lastPacket {reply now index} : Case (replyInsert reply now index []) done .read []
  | removeRead {id} : Case (remove id) (removeRead id (db.getPendingOutbound id)) .read []
  | removeMissing {id} : Case (.removeRead id none) done .read []
  | cancel {id msg} : Case (.removeRead id (some msg)) (removeWritten id msg) (.setCancelled id) []
  | cancelReturn {id msg} :
      Case (removeWritten id msg) done
        (.writeAudit (auditRow clock (lit "queue_remove") (auditTarget id msg.toPubkey)))
        [.cancelReturned id]
  | moveBackRead {id} : Case (moveBack id) (moveBackRead id (db.getPendingOutbound id)) .read []
  | moveBackMissing {id} : Case (.moveBackRead id none) done .read []
  | moveBackMax {id msg} :
      Case (.moveBackRead id (some msg)) (moveBackMax id msg ⌊clock⌋ db.maxEnqueuedAt) .read []
  | moveBackWrite {id msg now maxEnqueuedAt} :
      Case (.moveBackMax id msg now maxEnqueuedAt) (moveBackWritten id msg)
        (.requeueOutbound id now msg.attempts (max ⌊clock⌋ maxEnqueuedAt + 1))
        [.requeued id]
  | moveBackReturn {id msg} :
      Case (moveBackWritten id msg) done
        (.writeAudit (auditRow clock (lit "queue_move_back") (auditTarget id msg.toPubkey))) []
  | pauseUserRead {id} : Case (pauseUser id) (pauseUserRead id (db.getPendingOutbound id)) .read []
  | pauseUserMissing {id} : Case (.pauseUserRead id none) done .read []
  | pauseUserWrite {id msg} :
      Case (.pauseUserRead id (some msg))
        (pauseWritten (some id) msg.toPubkey (⌊clock⌋ + outboundPauseSeconds))
        (.setPause msg.toPubkey (⌊clock⌋ + outboundPauseSeconds)) []
  | pauseDirectWrite {pk seconds} :
      Case (.pauseRecipient pk seconds) (pauseWritten none pk (⌊clock⌋ + seconds))
        (.setPause pk (⌊clock⌋ + seconds)) []
  | pauseSelect {origin pk pausedUntil} :
      Case (pauseWritten origin pk pausedUntil)
        (pauseRows origin pk pausedUntil (db.pendingFor pk)) .read []
  | pauseMax {origin pk pausedUntil row rows} :
      Case (pauseRows origin pk pausedUntil (row :: rows))
        (pauseMax origin pk pausedUntil row rows db.maxEnqueuedAt) .read []
  | pauseRequeue {origin pk pausedUntil row rows maxEnqueuedAt} :
      Case (.pauseMax origin pk pausedUntil row rows maxEnqueuedAt)
        (pauseRows origin pk pausedUntil rows)
        (.requeueOutbound row.id (max row.nextAttempt pausedUntil) row.attempts
          (max ⌊clock⌋ maxEnqueuedAt + 1))
        [.requeued row.id]
  | pauseReturn {origin pk pausedUntil st} (hst : st = .read ∨
      ∃ detail, st = .writeAudit (auditRow clock (lit "queue_pause_user") detail)) :
      Case (pauseRows origin pk pausedUntil []) done st [.pauseReturned pk pausedUntil]
  | listQueue : Case buildQueue (listing [] (db.listPendingOutbound 100)) .read []
  | listDone {cached messages} : Case (listing cached messages) done .read []
  | listRead {cached messages pk messages'} :
      Case (listing cached messages) (listingRead (pk :: cached) pk (db.pause pk) messages') .read []
  | listClear {cached pk pausedUntil messages} (hpast : pausedUntil ≤ ⌊clock⌋) :
      Case (listingRead cached pk (some pausedUntil) messages) (listing cached messages)
        (.deletePause pk) []
  | listKeep {cached pk stored messages} :
      Case (listingRead cached pk stored messages) (listing cached messages) .read []

variable {limits clock db call}

theorem move_cases {t t' : Task} {st : Stmt} {evs : List Event}
    (h : t.move limits clock db call = some (t', st, evs)) :
    Case limits clock db call t t' st evs := by
  cases t with
  | enqueueReply reply =>
    cases h
    exact .readDepth
  | replyDepth reply depth =>
    simp only [move, Option.some.injEq] at h
    split at h
    · next href =>
      cases h
      exact .refuse href
    · next href =>
      cases hsplit : Format.splitPackets reply.text Format.defaultPacketBytes with
      | nil =>
        rw [hsplit] at h
        cases h
        exact .noPacket (by simpa using href) hsplit
      | cons packet packets =>
        rw [hsplit] at h
        cases h
        exact .firstPacket (by simpa using href) hsplit
  | replyInsert reply now index packets =>
    cases packets with
    | nil =>
      cases h
      exact .lastPacket
    | cons packet packets =>
      cases h
      exact .nextPacket
  | remove id =>
    cases h
    exact .removeRead
  | removeRead id found =>
    cases found with
    | none =>
      cases h
      exact .removeMissing
    | some msg =>
      cases h
      exact .cancel
  | removeWritten id msg =>
    cases h
    exact .cancelReturn
  | moveBack id =>
    cases h
    exact .moveBackRead
  | moveBackRead id found =>
    cases found with
    | none =>
      cases h
      exact .moveBackMissing
    | some msg =>
      cases h
      exact .moveBackMax
  | moveBackMax id msg now maxEnqueuedAt =>
    cases h
    exact .moveBackWrite
  | moveBackWritten id msg =>
    cases h
    exact .moveBackReturn
  | pauseUser id =>
    cases h
    exact .pauseUserRead
  | pauseUserRead id found =>
    cases found with
    | none =>
      cases h
      exact .pauseUserMissing
    | some msg =>
      cases h
      exact .pauseUserWrite
  | pauseRecipient pk seconds =>
    cases h
    exact .pauseDirectWrite
  | pauseWritten origin pk pausedUntil =>
    cases h
    exact .pauseSelect
  | pauseRows origin pk pausedUntil rows =>
    cases rows with
    | nil =>
      cases h
      cases origin with
      | none => exact .pauseReturn (.inl rfl)
      | some id => exact .pauseReturn (.inr ⟨_, rfl⟩)
    | cons row rows =>
      cases h
      exact .pauseMax
  | pauseMax origin pk pausedUntil row rows maxEnqueuedAt =>
    cases h
    exact .pauseRequeue
  | buildQueue =>
    cases h
    exact .listQueue
  | listing cached messages =>
    simp only [move, listNext, Option.some.injEq] at h
    split at h
    · cases h
      exact .listDone
    · cases h
      exact .listRead
  | listingRead cached pk stored messages =>
    simp only [move, Option.some.injEq] at h
    split at h
    · split at h
      · next hpast =>
        cases h
        exact .listClear hpast
      · cases h
        exact .listKeep
    · cases h
      exact .listKeep
  | done => cases h

end Task

end Bbs
