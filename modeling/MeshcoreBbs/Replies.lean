import MeshcoreBbs.Answers
import MeshcoreBbs.Lib.Parts

/-!
# All rows come in replies

Whatever a request asks for and whatever its operations are answered, it inserts rows into the
outbound queue in no other way than by whole calls of `_enqueue_reply` (`request_replies`).
-/

namespace Bbs

open Coroutine Dispatcher

namespace Replies

/-- The operation inserts no row. -/
def Mute (op : Op) : Prop := op.inserted = []

def IsReply (p : Prog Unit) : Prop := ∃ origin reply, p = enqueueReply origin reply

/-- The rows of the program come in replies. -/
abbrev InReplies {α : Type} (m : Prog α) : Prop :=
  m.Parts (fun op r => r = none → op.MayRaise) Mute IsReply

theorem mute {op : Op} (h : op.inserted = []) : Mute op := h

theorem mute_of_reads (op : Op) (h : op.Reads) : Mute op := by
  cases op with
  | enqueueOutbound => cases h
  | _ => rfl

instance (pk : Pubkey) : Op.Allows pk Mute where
  reads := mute_of_reads
  audits _ _ _ := rfl
  rates _ _ _ := rfl
  motd := rfl
  mails _ _ := rfl
  mail _ := rfl

/-! ## Rules -/

theorem reply_replies (origin : Origin) (reply : Reply) : InReplies (enqueueReply origin reply) :=
  parts_part ⟨origin, reply, rfl⟩

theorem answer_replies (pk : Pubkey) (text : Text) (verb : Option Text) :
    InReplies (answer pk text verb) :=
  reply_replies ..

theorem replies_of_does {α : Type} {m : Prog α} (h : m.Does Mute) : InReplies m :=
  h.parts fun _ hnone => hnone rfl

theorem replies_bind {α β : Type} {m : Prog α} {f : α → Prog β} (hm : m.Does Mute)
    (hf : ∀ a, InReplies (f a)) : InReplies (m >>= f) :=
  (replies_of_does hm).bind hf

theorem replies_ite {c : Prop} {_ : Decidable c} {α : Type} {t e : Prog α} (ht : c → InReplies t)
    (he : ¬ c → InReplies e) : InReplies (if c then t else e) := by
  split
  · next hc => exact ht hc
  · next hc => exact he hc

theorem replies_pure {α : Type} (a : α) : InReplies (pure a : Prog α) := .finish _

/-- Some text is made without rows, and answered. -/
theorem answer_with_replies {m : Prog Text} (hm : m.Does Mute) (pk : Pubkey) (verb : Option Text) :
    InReplies (m >>= fun text => answer pk text verb) :=
  replies_bind hm fun _ => answer_replies ..

/-! ## Commands -/

variable {sv : Services} {pk : Pubkey} {parsed : ParsedCommand} {v : Text}

theorem whoami_replies : InReplies (handleWhoami pk v) := by
  refine replies_bind (read_does mute_of_reads trivial) ?_
  intro user
  split
  · exact answer_replies ..
  · exact answer_replies ..

theorem who_replies : InReplies (handleWho pk v) := by
  refine replies_bind (read_does mute_of_reads trivial) ?_
  intro users
  refine replies_ite (fun _ => answer_replies ..) fun _ => ?_
  exact replies_bind (read_does mute_of_reads trivial) fun _ => answer_replies ..

theorem ping_replies {inbound : InboundMessage} : InReplies (handlePing inbound v) :=
  replies_bind (pingPath_runs mute_of_reads).does fun _ => answer_replies ..

theorem name_replies : InReplies (handleName sv pk parsed v) := by
  unfold handleName
  split
  · exact answer_replies ..
  · exact answer_with_replies (trySetName_runs fun _ => mute rfl).does pk _

theorem news_replies : InReplies (handleNews sv pk parsed v) := by
  unfold handleNews
  split
  · exact .finish none
  · refine replies_bind (read_does mute_of_reads trivial) ?_
    intro items
    exact replies_ite (fun _ => answer_replies ..) fun _ => answer_replies ..

theorem wx_replies : InReplies (handleWx sv pk v) :=
  answer_with_replies (summaryFor_does mute_of_reads rfl fun _ _ _ => rfl) pk _

theorem read_replies : InReplies (handleRead sv pk parsed v) := by
  unfold handleRead
  split
  · exact answer_replies ..
  · refine replies_bind (maybeInt_does ..) ?_
    intro page
    exact answer_with_replies (readText_does mute_of_reads ..) pk _

theorem post_replies : InReplies (handlePost sv pk parsed v) := by
  unfold handlePost
  split
  · exact answer_replies ..
  · refine replies_bind (read_does mute_of_reads trivial) ?_
    intro cfg
    refine replies_bind (consumeAll_runs mute_of_reads fun _ _ _ => rfl).does ?_
    intro refused
    split
    · exact answer_replies ..
    · refine replies_ite (fun _ => answer_replies ..) fun _ => ?_
      exact answer_with_replies (post_does mute_of_reads fun _ _ _ => rfl) pk _

theorem onMailId_replies {usage : Text} {f : Nat → Prog Text} (hf : ∀ id, (f id).Does Mute) :
    InReplies (onMailId sv usage f pk parsed v) := by
  unfold onMailId
  split
  · exact answer_replies ..
  · refine replies_ite (fun _ => answer_replies ..) fun _ => ?_
    split
    · exact .finish none
    · exact answer_with_replies (hf _) pk _

theorem deleteMail_replies : InReplies (handleDeleteMail sv pk parsed v) := by
  apply onMailId_replies
  intro id
  exact .bind (call_does rfl) fun _ => sat_pure trivial

/-- The notice to the recipient is a reply too. -/
theorem maybeNotifyRecipient_replies {recipientPk : Pubkey} :
    InReplies (maybeNotifyRecipient sv recipientPk) := by
  refine replies_bind (read_does mute_of_reads trivial) ?_
  intro user
  split
  · exact replies_pure ()
  · refine replies_ite (fun _ => replies_pure ()) fun _ => ?_
    refine replies_bind (read_does mute_of_reads trivial) ?_
    intro now
    refine replies_ite (fun _ => replies_pure ()) fun _ => ?_
    refine replies_bind (read_does mute_of_reads trivial) ?_
    intro now
    refine replies_bind (shouldNotify_runs mute_of_reads rfl).does ?_
    intro notify
    refine replies_ite (fun _ => replies_pure ()) fun _ => ?_
    exact replies_bind (read_does mute_of_reads trivial) fun _ => reply_replies ..

theorem send_replies : InReplies (handleSend sv pk parsed v) := by
  unfold handleSend
  split
  · exact answer_replies ..
  · refine replies_ite (fun _ => answer_replies ..) fun _ => ?_
    refine replies_bind (read_does mute_of_reads trivial) ?_
    intro cfg
    refine replies_bind (mailLimit_runs (fun _ => rfl) _).does ?_
    intro refused
    split
    · exact answer_replies ..
    · refine replies_ite (fun _ => answer_replies ..) fun _ => ?_
      refine replies_bind (send_does (fun _ _ _ => rfl) ..) ?_
      intro sent
      refine (answer_replies ..).bind fun _ => ?_
      split
      · exact replies_ite (fun _ => maybeNotifyRecipient_replies) fun _ => replies_pure ()
      · exact replies_pure ()

theorem status_replies : InReplies (handleStatus sv pk v) := by
  refine replies_bind (read_does mute_of_reads trivial) ?_
  intro now
  exact replies_bind (read_does mute_of_reads trivial) fun _ => answer_replies ..

theorem advert_replies : InReplies (handleAdvert sv pk v) := by
  refine replies_ite (fun _ => answer_replies ..) fun _ => ?_
  exact replies_bind (call_does rfl) fun _ => replies_bind (call_does rfl) fun _ => answer_replies ..

theorem release_replies : InReplies (releaseBroadcast pk v) := by
  refine replies_bind (confirmBroadcast_runs (mute rfl)).does ?_
  intro confirmed
  refine (answer_replies ..).bind fun _ => parts_forEach ?_
  intro r _
  exact replies_ite (fun _ => reply_replies ..) fun _ => replies_pure ()

theorem broadcast_replies : InReplies (handleBroadcast sv pk parsed v) := by
  refine replies_ite (fun _ => release_replies) fun _ => ?_
  refine replies_ite (fun _ => answer_replies ..) fun _ => ?_
  exact answer_with_replies (stageBroadcast_runs (fun _ => rfl) _).does pk _

theorem admin_replies : InReplies (handleAdmin sv pk parsed v) := by
  refine replies_ite (fun _ => answer_replies ..) fun _ => ?_
  refine replies_ite (fun _ => ?_) fun _ => replies_ite (fun _ => ?_) fun _ =>
    replies_ite (fun _ => ?_) fun _ => replies_ite (fun _ => ?_) fun _ =>
    replies_ite (fun _ => broadcast_replies) fun _ => answer_replies ..
  · split
    · exact answer_replies ..
    · exact answer_with_replies (ban_runs (fun _ _ => rfl) ..).does pk _
  · split
    · exact answer_replies ..
    · exact answer_with_replies (unban_runs (fun _ => rfl) _).does pk _
  · split
    · exact answer_replies ..
    · exact answer_with_replies (addBoard_does mute_of_reads fun _ _ _ => rfl) pk _
  · split
    · exact answer_replies ..
    · exact answer_with_replies (deleteBoard_does mute_of_reads (fun _ => rfl) fun _ => rfl) pk _

variable {inbound : InboundMessage}

theorem dispatch_replies : InReplies (dispatch sv inbound parsed) := by
  unfold dispatch
  dsimp only
  refine replies_ite (fun _ => answer_replies ..) fun _ => ?_
  refine replies_ite (fun _ => who_replies) fun _ => ?_
  refine replies_ite (fun _ => ping_replies) fun _ => ?_
  refine replies_ite (fun _ => whoami_replies) fun _ => ?_
  refine replies_ite (fun _ => name_replies) fun _ => ?_
  refine replies_ite (fun _ => news_replies) fun _ => ?_
  refine replies_ite (fun _ => wx_replies) fun _ => ?_
  refine replies_ite (fun _ => answer_with_replies (listText_runs mute_of_reads).does _ _) fun _ => ?_
  refine replies_ite (fun _ => read_replies) fun _ => ?_
  refine replies_ite (fun _ => post_replies) fun _ => ?_
  refine replies_ite (fun _ => answer_with_replies (countsText_runs mute_of_reads _).does _ _)
    fun _ => ?_
  refine replies_ite (fun _ => replies_bind (maybeInt_does ..) fun page =>
    answer_with_replies (inboxText_does page) _ _) fun _ => ?_
  refine replies_ite (fun _ => onMailId_replies fun _ => readMail_does fun _ => rfl) fun _ => ?_
  refine replies_ite (fun _ => send_replies) fun _ => ?_
  refine replies_ite (fun _ => deleteMail_replies) fun _ => ?_
  refine replies_ite (fun _ => status_replies) fun _ => ?_
  refine replies_ite (fun _ => advert_replies) fun _ => ?_
  exact replies_ite (fun _ => admin_replies) fun _ => answer_replies ..

/-! ## Messages -/

theorem handleOnboarding_replies : InReplies (handleOnboarding sv inbound) := by
  have hwelcome : InReplies (do
      let cfg ← call .config
      answer inbound.pubkey (Services.welcomeText cfg.bbs.name) none : Prog Unit) :=
    replies_bind (read_does mute_of_reads trivial) fun _ => answer_replies ..
  unfold handleOnboarding
  dsimp only
  split
  · exact hwelcome
  · split
    · exact hwelcome
    · split
      · exact answer_replies ..
      · exact answer_with_replies (trySetName_runs fun _ => mute rfl).does _ _

theorem route_replies (user : User) : InReplies (route sv inbound user) := by
  unfold route
  split
  · exact handleOnboarding_replies
  · split
    · exact answer_replies ..
    · exact replies_bind (call_does rfl) fun _ => dispatch_replies.orElse (answer_replies ..)

theorem limited_replies (user : User) : InReplies (limited sv inbound user) := by
  refine replies_bind consumeInbound_does ?_
  intro refused
  split
  · refine replies_bind (checkAndConsume_runs mute_of_reads fun _ => rfl).does ?_
    intro decision
    exact replies_ite (fun _ => answer_replies ..) fun _ => replies_pure ()
  · exact route_replies user

theorem serve_replies (user : User) (isNew : Bool) : InReplies (serve sv inbound user isNew) := by
  have hnotify : InReplies (notifyAdminsNewUser sv
      (displayOf user.displayName inbound.advName (inbound.pubkey.take 12)) inbound.pubkey) := by
    refine replies_bind (read_does mute_of_reads trivial) fun cfg => parts_forEach ?_
    intro adminPk _
    exact replies_ite (fun _ => reply_replies ..) fun _ => replies_pure ()
  rw [serve_eq]
  exact replies_ite (fun _ => hnotify.bind fun _ => limited_replies user) fun _ =>
    limited_replies user

theorem handleInbound_replies : InReplies (handleInbound sv inbound) := by
  refine replies_ite (fun _ => replies_pure ()) fun _ => ?_
  refine replies_bind (read_does mute_of_reads trivial) ?_
  intro now
  refine replies_bind (upsertUserFirstSeen_does mute_of_reads (fun _ _ => rfl) (fun _ _ => rfl) ..) ?_
  intro user
  refine replies_bind (call_does rfl) fun _ => ?_
  exact replies_ite (fun _ => replies_pure ()) fun _ => serve_replies ..

theorem mailNotifyJob_replies : InReplies (Scheduler.mailNotifyJob sv) := by
  refine replies_bind (read_does mute_of_reads trivial) fun recipients => ?_
  refine replies_bind (read_does mute_of_reads trivial) fun now => parts_forEach ?_
  intro pk _
  refine replies_bind (read_does mute_of_reads trivial) ?_
  intro user
  split
  · exact replies_pure ()
  · refine replies_ite (fun _ => replies_pure ()) fun _ => ?_
    refine replies_bind (shouldNotify_runs mute_of_reads rfl).does ?_
    intro notify
    refine replies_ite (fun _ => replies_pure ()) fun _ => ?_
    exact replies_bind (read_does mute_of_reads trivial) fun _ => reply_replies ..

/-- **Rows come in replies only.** -/
theorem request_replies (r : Request) : InReplies (r.prog sv) := by
  by_cases hnotify : r = .mailNotify
  · rw [hnotify]
    exact mailNotifyJob_replies
  · rcases r.inbound_or with ⟨msg, rfl⟩ | hjob
    · exact handleInbound_replies
    · refine replies_of_does ((request_does sv hjob).weaken fun op hop => ?_)
      cases op with
      | enqueueOutbound => exact absurd hop.1 hnotify
      | _ => rfl

end Replies

end Bbs
