import MeshcoreBbs.Gates
import MeshcoreBbs.Packing

/-!
# One answer to each message

Every command answers once, whatever its arguments and whatever raises (`command_answered`), and
so does the onboarding.  A message that is served causes one call of `_enqueue_reply` at normal
priority (`answered_once`).
-/

namespace Bbs

open Coroutine Dispatcher

/-! ## The rows of a run -/

/-- The rows that an operation inserts. -/
def Op.inserted : Op → List OutboundRow
  | enqueueOutbound _ row => [row]
  | _ => []

/-- A run adds the rows that its operations insert. -/
theorem run_inserted {α : Type} (py : Py) (m : Prog α) (w : World) :
    (m.run (Op.run py) w).2.outboundRows =
      w.outboundRows ++ (m.trace (Op.run py) w).flatMap Op.inserted := by
  refine run_eq_append (fun op w => ?_) m w
  rw [World.run_outboundRows]
  cases op with
  | enqueueOutbound => rfl
  | _ => exact (List.append_nil _).symm

/-- The rows of a reply at normal priority. -/
theorem inserted_reply (py : Py) (origin : Origin) {reply : Reply}
    (h : reply.priority = priorityNormal) (w : World) :
    ((enqueueReply origin reply).trace (Op.run py) w).flatMap Op.inserted = w.rowsOf reply := by
  have hrefused : w.refuses reply = false := by
    simp [World.refuses, Reply.refused, h]
  have hrows := run_inserted py (enqueueReply origin reply) w
  rw [run_enqueueReply, World.enqueued, hrefused, if_neg Bool.false_ne_true,
    World.outboundRows_insertRows] at hrows
  exact (List.append_cancel_left hrows).symm

theorem priority_rowsOf {w : World} {reply : Reply} : ∀ row ∈ w.rowsOf reply,
    row.priority = reply.priority := by
  intro row hrow
  obtain ⟨packet, -, rfl⟩ := List.mem_map.mp hrow
  rfl

theorem rowsOf_ne_nil (w : World) (reply : Reply) : w.rowsOf reply ≠ [] := by
  have hpackets := Format.splitPackets_ne_nil (by decide : 4 ≤ Format.defaultPacketBytes) reply.text
  rw [World.rowsOf, Ne, List.map_eq_nil_iff]
  exact hpackets

namespace Answers

/-! ## Definitions -/

/-- The operation inserts no row of normal priority. -/
def Silent (op : Op) : Prop := ∀ row ∈ op.inserted, row.priority ≠ priorityNormal

/-- No call of `_enqueue_reply` among the operations has normal priority. -/
def NoNormalCall (py : Py) (ops : List Op) : Prop := ∀ (origin : Origin) (reply : Reply) (w : World),
  (enqueueReply origin reply).trace (Op.run py) w <:+: ops → reply.priority ≠ priorityNormal

/-- A call of `_enqueue_reply` for `pk` at normal priority. -/
def IsAnswer (pk : Pubkey) (p : Prog Unit) : Prop :=
  ∃ reply : Reply, reply.pk = pk ∧ reply.priority = priorityNormal ∧ p = enqueueReply .answer reply

/-- The program makes one such call, or raises before it. -/
abbrev AnswersOnce (py : Py) (pk : Pubkey) {α : Type} (m : Prog α) : Prop :=
  m.Once (Op.run py) Silent (IsAnswer pk)

theorem silent_of_none {op : Op} (h : op.inserted = []) : Silent op := by
  rw [Silent, h]
  exact List.forall_mem_nil _

theorem silent_of_reads (op : Op) (h : op.Reads) : Silent op := by
  cases op with
  | enqueueOutbound => cases h
  | _ => exact silent_of_none rfl

theorem silent_of_low {origin : Origin} (row : OutboundRow)
    (h : row.priority = priorityNotification) : Silent (.enqueueOutbound origin row) := by
  intro row' hrow
  obtain rfl := List.mem_singleton.mp hrow
  rw [h]
  decide

/-- A call at normal priority is not silent. -/
theorem noNormalCall_of_silent {py : Py} {ops : List Op} (h : ∀ op ∈ ops, Silent op) :
    NoNormalCall py ops := by
  intro origin reply w hcall hnormal
  obtain ⟨row, hrow⟩ := List.exists_mem_of_ne_nil _ (rowsOf_ne_nil w reply)
  have hinserted := hrow
  rw [← inserted_reply py origin hnormal w] at hinserted
  obtain ⟨op, hop, hmem⟩ := List.mem_flatMap.mp hinserted
  exact h op (hcall.subset hop) row hmem ((priority_rowsOf row hrow).trans hnormal)

instance (pk : Pubkey) : Op.Allows pk Silent where
  reads := silent_of_reads
  audits _ _ _ := silent_of_none rfl
  rates _ _ _ := silent_of_none rfl
  motd := silent_of_none rfl
  mails _ _ := silent_of_none rfl
  mail _ := silent_of_none rfl

variable {sv : Services} {py : Py} {pk : Pubkey} {parsed : ParsedCommand} {v : Text}

theorem quiet_of_does {α : Type} {m : Prog α} (h : m.Does Silent) : m.Quiet (Op.run py) Silent :=
  h.performs py

/-- The run from `w` makes one such call. -/
abbrev Answered (py : Py) (w : World) (pk : Pubkey) {α : Type} (m : Prog α) : Prop :=
  m.OnceFrom (Op.run py) Silent (IsAnswer pk) w

/-! ## Rules -/

theorem answer_once (text : Text) (verb : Option Text) :
    AnswersOnce py pk (answer pk text verb) := by
  apply once_part
  · exact ⟨_, rfl, rfl, rfl⟩
  · intro w
    simp [answer, run_enqueueReply]

theorem AnswersOnce.bind {α β : Type} {m : Prog α} {f : α → Prog β} (hm : m.Does Silent)
    (hf : ∀ a, AnswersOnce py pk (f a)) : AnswersOnce py pk (m >>= f) :=
  .after (quiet_of_does hm) hf

/-- An answer, then something else that does not raise. -/
theorem answer_then {f : Unit → Prog Unit} (text : Text) (verb : Option Text)
    (hf : (f ()).Runs Silent) : AnswersOnce py pk (answer pk text verb >>= f) := by
  apply Once.before (answer_once text verb)
  · intro _
    exact quiet_of_does hf.does
  · intro _ w hnone
    obtain ⟨a, ha⟩ := hf.exists_some py w
    cases ha.symm.trans hnone

theorem Answered.bind {α β : Type} {m : Prog α} {f : α → Prog β} {w : World} (hm : m.Runs Silent)
    (hf : ∀ a w, Answered py w pk (f a)) : Answered py w pk (m >>= f) := by
  obtain ⟨a, ha⟩ := hm.exists_some py w
  exact .after (Prod.ext ha rfl) (quiet_of_does hm.does) (hf a _)

theorem answer_answered (text : Text) (verb : Option Text) (w : World) :
    Answered py w pk (answer pk text verb) :=
  onceFrom_part ⟨_, rfl, rfl, rfl⟩ w

theorem once_ite {c : Prop} {_ : Decidable c} {t e : Prog Unit} (ht : c → AnswersOnce py pk t)
    (he : ¬ c → AnswersOnce py pk e) : AnswersOnce py pk (if c then t else e) := by
  split
  · next hc => exact ht hc
  · next hc => exact he hc

/-! ## Commands -/

theorem whoami_once : AnswersOnce py pk (handleWhoami pk v) := by
  refine .bind (read_does silent_of_reads trivial) ?_
  intro user
  split
  · exact answer_once ..
  · exact answer_once ..

theorem who_once : AnswersOnce py pk (handleWho pk v) := by
  refine .bind (read_does silent_of_reads trivial) ?_
  intro users
  refine once_ite (fun _ => answer_once ..) fun _ => ?_
  refine .bind (read_does silent_of_reads trivial) ?_
  intro now
  exact answer_once ..

theorem ping_once {inbound : InboundMessage} :
    AnswersOnce py inbound.pubkey (handlePing inbound v) := by
  apply AnswersOnce.bind (pingPath_runs silent_of_reads).does
  intro path
  exact answer_once ..

theorem name_once : AnswersOnce py pk (handleName sv pk parsed v) := by
  unfold handleName
  split
  · exact answer_once ..
  · exact .bind (trySetName_runs fun _ => silent_of_none rfl).does fun _ => answer_once ..

theorem news_once : AnswersOnce py pk (handleNews sv pk parsed v) := by
  unfold handleNews
  split
  · exact once_raise
  · refine .bind (read_does silent_of_reads trivial) ?_
    intro items
    exact once_ite (fun _ => answer_once ..) fun _ => answer_once ..

theorem wx_once : AnswersOnce py pk (handleWx sv pk v) := by
  apply AnswersOnce.bind (summaryFor_does silent_of_reads (silent_of_none rfl) fun _ _ _ => silent_of_none rfl)
  intro text
  exact answer_once ..

theorem read_once : AnswersOnce py pk (handleRead sv pk parsed v) := by
  unfold handleRead
  split
  · exact answer_once ..
  · apply AnswersOnce.bind (maybeInt_does ..)
    intro page
    apply AnswersOnce.bind (readText_does silent_of_reads ..)
    intro text
    exact answer_once ..

theorem post_once : AnswersOnce py pk (handlePost sv pk parsed v) := by
  unfold handlePost
  split
  · exact answer_once ..
  · refine .bind (read_does silent_of_reads trivial) ?_
    intro cfg
    apply AnswersOnce.bind (consumeAll_runs silent_of_reads fun _ _ _ => silent_of_none rfl).does
    intro refused
    split
    · exact answer_once ..
    · refine once_ite (fun _ => answer_once ..) fun _ => ?_
      apply AnswersOnce.bind (post_does silent_of_reads fun _ _ _ => silent_of_none rfl)
      intro text
      exact answer_once ..

theorem onMailId_once {usage : Text} {f : Nat → Prog Text} (hf : ∀ id, (f id).Does Silent) :
    AnswersOnce py pk (onMailId sv usage f pk parsed v) := by
  unfold onMailId
  split
  · exact answer_once ..
  · refine once_ite (fun _ => answer_once ..) fun _ => ?_
    split
    · exact once_raise
    · apply AnswersOnce.bind (hf _)
      intro text
      exact answer_once ..

theorem readmail_once : AnswersOnce py pk (handleReadmail sv pk parsed v) :=
  onMailId_once fun _ => readMail_does fun _ => silent_of_none rfl

theorem deleteMail_once : AnswersOnce py pk (handleDeleteMail sv pk parsed v) := by
  apply onMailId_once
  intro id
  exact .bind (call_does (silent_of_none rfl)) fun _ => sat_pure trivial

/-- The mail is announced after the answer. -/
theorem send_once : AnswersOnce py pk (handleSend sv pk parsed v) := by
  unfold handleSend
  split
  · exact answer_once ..
  · refine once_ite (fun _ => answer_once ..) fun _ => ?_
    refine .bind (read_does silent_of_reads trivial) ?_
    intro cfg
    apply AnswersOnce.bind (mailLimit_runs (fun _ => silent_of_none rfl) _).does
    intro refused
    split
    · exact answer_once ..
    · refine once_ite (fun _ => answer_once ..) fun _ => ?_
      apply AnswersOnce.bind (send_does (fun _ _ _ => silent_of_none rfl) ..)
      intro sent
      apply answer_then
      split
      · split
        · exact maybeNotifyRecipient_runs silent_of_reads (fun _ => silent_of_none rfl)
            fun row _ => silent_of_low row
        · exact sat_pure rfl
      · exact sat_pure rfl

theorem status_once : AnswersOnce py pk (handleStatus sv pk v) := by
  refine .bind (read_does silent_of_reads trivial) ?_
  intro now
  refine .bind (read_does silent_of_reads trivial) ?_
  intro depth
  exact answer_once ..

theorem advert_once : AnswersOnce py pk (handleAdvert sv pk v) := by
  refine once_ite (fun _ => answer_once ..) fun _ => ?_
  apply AnswersOnce.bind (call_does (silent_of_none rfl))
  intro _
  apply AnswersOnce.bind (call_does (silent_of_none rfl))
  intro _
  exact answer_once ..

/-- The broadcast goes out after the answer. -/
theorem release_once : AnswersOnce py pk (releaseBroadcast pk v) := by
  apply AnswersOnce.bind (confirmBroadcast_runs (silent_of_none rfl)).does
  intro confirmed
  apply answer_then
  apply sat_forEach
  intro r _
  split
  · exact enqueueReply_runs silent_of_reads fun _ _ => silent_of_low _ rfl
  · exact sat_pure rfl

theorem broadcast_once : AnswersOnce py pk (handleBroadcast sv pk parsed v) := by
  refine once_ite (fun _ => release_once) fun _ => once_ite (fun _ => answer_once ..) fun _ => ?_
  apply AnswersOnce.bind (stageBroadcast_runs (fun _ => silent_of_none rfl) _).does
  intro reply
  exact answer_once ..

theorem admin_once : AnswersOnce py pk (handleAdmin sv pk parsed v) := by
  refine once_ite (fun _ => answer_once ..) fun _ => ?_
  refine once_ite (fun _ => ?_) fun _ => once_ite (fun _ => ?_) fun _ =>
    once_ite (fun _ => ?_) fun _ => once_ite (fun _ => ?_) fun _ =>
    once_ite (fun _ => broadcast_once) fun _ => answer_once ..
  · split
    · exact answer_once ..
    · exact .bind (ban_runs (fun _ _ => silent_of_none rfl) ..).does fun _ => answer_once ..
  · split
    · exact answer_once ..
    · exact .bind (unban_runs (fun _ => silent_of_none rfl) _).does fun _ => answer_once ..
  · split
    · exact answer_once ..
    · exact .bind (addBoard_does silent_of_reads fun _ _ _ => silent_of_none rfl) fun _ =>
        answer_once ..
  · split
    · exact answer_once ..
    · exact .bind (deleteBoard_does silent_of_reads (fun _ => silent_of_none rfl)
        fun _ => silent_of_none rfl) fun _ => answer_once ..

variable {inbound : InboundMessage}

/-- **Every command answers once**, unless it raises before. -/
theorem dispatch_once : AnswersOnce py inbound.pubkey (dispatch sv inbound parsed) := by
  unfold dispatch
  dsimp only
  refine once_ite (fun _ => answer_once ..) fun _ => ?_
  refine once_ite (fun _ => who_once) fun _ => ?_
  refine once_ite (fun _ => ping_once) fun _ => ?_
  refine once_ite (fun _ => whoami_once) fun _ => ?_
  refine once_ite (fun _ => name_once) fun _ => ?_
  refine once_ite (fun _ => news_once) fun _ => ?_
  refine once_ite (fun _ => wx_once) fun _ => ?_
  refine once_ite (fun _ => .bind (listText_runs silent_of_reads).does fun _ => answer_once ..)
    fun _ => ?_
  refine once_ite (fun _ => read_once) fun _ => ?_
  refine once_ite (fun _ => post_once) fun _ => ?_
  refine once_ite (fun _ => .bind (countsText_runs silent_of_reads _).does fun _ => answer_once ..)
    fun _ => ?_
  refine once_ite (fun _ => .bind (maybeInt_does ..) fun page => .bind (inboxText_does page) fun _ =>
    answer_once ..) fun _ => ?_
  refine once_ite (fun _ => readmail_once) fun _ => ?_
  refine once_ite (fun _ => send_once) fun _ => ?_
  refine once_ite (fun _ => deleteMail_once) fun _ => ?_
  refine once_ite (fun _ => status_once) fun _ => ?_
  refine once_ite (fun _ => advert_once) fun _ => ?_
  exact once_ite (fun _ => admin_once) fun _ => answer_once ..

/-- **Whatever raises in a command**, it is answered once. -/
theorem command_answered (w : World) :
    Answered py w inbound.pubkey (handleCommand sv inbound parsed) := by
  refine .bind (call_runs (silent_of_none rfl) id) fun _ w => ?_
  have hafter (text : Text) (verb : Option Text) (w : World) :
      ((answer inbound.pubkey text verb).run (Op.run py) w).1 = some () := by
    rw [answer, run_enqueueReply]
  refine (dispatch_once.orElse (answer_once ..)).ended w () ?_
  rw [run_orElse]
  cases (dispatch sv inbound parsed).run (Op.run py) w with
  | mk r w' =>
    cases r with
    | none => exact hafter ..
    | some a => rfl

theorem onboarding_answered (w : World) :
    Answered py w inbound.pubkey (handleOnboarding sv inbound) := by
  have hwelcome : Answered py w inbound.pubkey (do
      let cfg ← call .config
      answer inbound.pubkey (Services.welcomeText cfg.bbs.name) none : Prog Unit) :=
    .bind (call_runs (silent_of_none rfl) id) fun _ => answer_answered _ _
  unfold handleOnboarding
  dsimp only
  split
  · exact hwelcome
  · split
    · exact hwelcome
    · split
      · exact answer_answered ..
      · exact .bind (trySetName_runs fun _ => silent_of_none rfl) fun _ => answer_answered _ _

theorem route_answered (user : User) (w : World) :
    Answered py w inbound.pubkey (route sv inbound user) := by
  unfold route
  split
  · exact onboarding_answered w
  · split
    · exact answer_answered ..
    · exact command_answered w

/-! ## Messages -/

variable {w : World}

/-- The rate limits let the message through. -/
def LetsThrough (sv : Services) (w : World) (inbound : InboundMessage) : Prop :=
  sv.isAdmin inbound.pubkey = true ∨ inbound.hops = some 0 ∨ Gates.HasRoom w inbound

theorem limited_answered (user : User) (h : LetsThrough sv w inbound) :
    Answered sv.py w inbound.pubkey (limited sv inbound user) := by
  obtain ⟨rates, hconsume, -⟩ := Gates.run_consumeInbound_of_room h
  exact .after hconsume (quiet_of_does consumeInbound_does) (route_answered user _)

/-- The notices of a new user use up no limit. -/
theorem letsThrough_notified (display : Text) (h : LetsThrough sv w inbound) : LetsThrough sv
    ((notifyAdminsNewUser sv display inbound.pubkey).run (Op.run sv.py) w).2 inbound := by
  have hdoes : (notifyAdminsNewUser sv display inbound.pubkey).Does fun op =>
      op.Reads ∨ ∃ row, op = .enqueueOutbound .newUser row :=
    (notifyAdminsNewUser_runs (fun _ => .inl) (fun row _ => .inr ⟨row, rfl⟩) display).does
  refine hdoes.keeps (I := fun w => LetsThrough sv w inbound) (fun op hop w hw => ?_) w h
  rcases hop with hread | ⟨row, rfl⟩
  · rw [hread.run]
    exact hw
  · exact hw

theorem serve_answered (user : User) (isNew : Bool) (h : LetsThrough sv w inbound) :
    Answered sv.py w inbound.pubkey (serve sv inbound user isNew) := by
  rw [serve_eq]
  split
  · have hnotify : (notifyAdminsNewUser sv (displayOf user.displayName inbound.advName
        (inbound.pubkey.take 12)) inbound.pubkey).Runs Silent :=
      notifyAdminsNewUser_runs silent_of_reads silent_of_low _
    obtain ⟨a, ha⟩ := hnotify.exists_some sv.py w
    exact .after (Prod.ext ha rfl) (quiet_of_does hnotify.does)
      (limited_answered user (letsThrough_notified _ h))
  · exact limited_answered user h

theorem message_answered (hself : inbound.pubkey ≠ sv.py.lower sv.selfPubkey)
    (hban : w.isBanned inbound.pubkey = false) (h : LetsThrough sv w inbound) :
    Answered sv.py w inbound.pubkey (handleInbound sv inbound) := by
  have htime : (call .time).run (Op.run sv.py) w = (some w.clock, w) := rfl
  have htouch (w : World) (now : Int) : (call (.touchUser inbound.pubkey now inbound.hops)).run
      (Op.run sv.py) w =
        (some (), { w with users := w.users.touchUser inbound.pubkey now inbound.hops }) := rfl
  have hupsert (now : Int) : (upsertUserFirstSeen inbound.pubkey inbound.advName now).Does Silent :=
    upsertUserFirstSeen_does silent_of_reads (fun _ _ => silent_of_none rfl)
      (fun _ _ => silent_of_none rfl) inbound.advName now
  unfold handleInbound
  rw [if_neg hself]
  refine .after htime (quiet_of_does (call_does (silent_of_none rfl))) ?_
  refine .after (run_upsertUserFirstSeen ..) (quiet_of_does (hupsert _)) ?_
  refine .after (htouch ..) (quiet_of_does (call_does (silent_of_none rfl))) ?_
  rw [← banned_sender] at hban
  have hnotBanned : ¬ (sender w inbound).1.banned = true := by simp [hban]
  show Answered sv.py (received w inbound) inbound.pubkey (
    if (sender w inbound).1.banned then pure ()
    else serve sv inbound (sender w inbound).1 (sender w inbound).2)
  rw [if_neg hnotBanned]
  exact serve_answered _ _ h

/-- **One answer.**  A message of a sender who is neither the BBS nor banned, and whom the rate
limits let through, causes one call of `_enqueue_reply` for the sender at normal priority.  The
call inserts a row for each packet of its text, at least one; neither another call nor another
row of the run has normal priority. -/
theorem answered_once (hself : inbound.pubkey ≠ sv.py.lower sv.selfPubkey)
    (hban : w.isBanned inbound.pubkey = false) (hlimits : LetsThrough sv w inbound) :
    ∃ (reply : Reply) (w₁ : World) (before after : List Op),
      reply.pk = inbound.pubkey ∧ reply.priority = priorityNormal ∧
      (handleInbound sv inbound).trace (Op.run sv.py) w =
        before ++ (enqueueReply .answer reply).trace (Op.run sv.py) w₁ ++ after ∧
      NoNormalCall sv.py before ∧ NoNormalCall sv.py after ∧ (∀ op ∈ before ++ after, Silent op) ∧
      w₁.rowsOf reply ≠ [] ∧
      ((handleInbound sv inbound).run (Op.run sv.py) w).2.outboundRows = w.outboundRows ++
        (before.flatMap Op.inserted ++ w₁.rowsOf reply ++ after.flatMap Op.inserted) := by
  obtain ⟨p, w₁, before, after, ⟨reply, hpk, hpriority, rfl⟩, htrace, hbefore, hafter⟩ :=
    message_answered hself hban hlimits
  refine ⟨reply, w₁, before, after, hpk, hpriority, htrace, noNormalCall_of_silent hbefore,
    noNormalCall_of_silent hafter, List.forall_mem_append.mpr ⟨hbefore, hafter⟩, ?_, ?_⟩
  · exact rowsOf_ne_nil w₁ reply
  · rw [run_inserted, htrace, List.flatMap_append, List.flatMap_append,
      inserted_reply _ _ hpriority]

/-- A newcomer writes while the queue is full. -/
theorem answered_once_full : ∃ (w w₁ : World) (msg : InboundMessage) (reply : Reply)
    (before after : List Op), w.cfg.limits.outboundQueueMaxDepth ≤ w.queue.outboundPendingDepth ∧
      reply.pk = msg.pubkey ∧ w₁.rowsOf reply ≠ [] ∧
      ((handleInbound Process.asciiServices msg).run (Op.run asciiPy) w).2.outboundRows =
        w.outboundRows ++
          (before.flatMap Op.inserted ++ w₁.rowsOf reply ++ after.flatMap Op.inserted) := by
  let w : World := { World.start 0 with cfg := { limits := { outboundQueueMaxDepth := 0 } } }
  let msg : InboundMessage := { pubkey := lit "bb", body := lit "hi" }
  have hself : msg.pubkey ≠ Process.asciiServices.py.lower Process.asciiServices.selfPubkey := by
    decide
  have hroom : Gates.HasRoom w msg := fun _ _ => rfl
  obtain ⟨reply, w₁, before, after, hpk, -, -, -, -, -, hrows, hadded⟩ :=
    answered_once (w := w) hself rfl (.inr (.inr hroom))
  exact ⟨w, w₁, msg, reply, before, after, Int.le_refl 0, hpk, hrows, hadded⟩

end Answers

end Bbs
