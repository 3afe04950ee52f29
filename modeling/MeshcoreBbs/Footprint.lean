import MeshcoreBbs.Jobs

/-!
# What each program may touch

`Op.OfCommand sv pk verb` lists the operations that a command of `pk` may perform, and
`dispatch_does` says that it performs no others.
-/

namespace Bbs

open Coroutine

namespace Op

/-- Operations that leave the world as it is, show nobody's mail and ask nobody outside. -/
def Reads : Op → Prop
  | time | config | resolveInboundPath _ | getUser _ | getUserByName _ | findUsersByNameSubstring _
  | getUserByPrefix _ | allUserPubkeys | recentActiveUsers _ | listBoards | getBoard _
  | listPosts .. | getPost _ | countUnread _ | countTotalMail _ | usersWithUnreadMail
  | recentNews .. | getWeatherCache _ | getRateWindow .. | outboundPendingDepth | getLastNotifyAt _ => True
  | _ => False

theorem check_snd {α : Type} (ok : Bool) (w : World) (a : α) : (check ok w (a, w)).2 = w := by
  unfold check
  split <;> rfl

theorem Reads.run {op : Op} (h : op.Reads) (py : Py) (w : World) : (op.run py w).2 = w := by
  cases op <;> first | rfl | exact check_snd _ _ _ | cases h

/-- The buckets that only `POST` consumes. -/
def PostBucket (bucket : Text) : Prop := bucket = lit "post_hour" ∨ bucket = lit "post_day"

instance : DecidablePred PostBucket := fun _ => inferInstanceAs (Decidable (_ ∨ _))

/-- The buckets that a message consumes whatever it asks for. -/
def InboundBucket (bucket : Text) : Prop :=
  bucket = lit "inbound_min" ∨ bucket = lit "inbound_hour" ∨ bucket = lit "rate_notify"

theorem InboundBucket.not_postBucket {bucket : Text} (h : InboundBucket bucket) :
    ¬ PostBucket bucket := by
  rcases h with rfl | rfl | rfl
  · decide
  · decide
  · decide

/-- What every command of `pk` may do: read, answer `pk`, and write rows of its own. -/
def Ordinary (pk : Pubkey) : Op → Prop
  | enqueueOutbound origin row => origin = .answer ∧ row.toPubkey = pk
  | setRateWindow pk' bucket _ => pk' = pk ∧ ¬ PostBucket bucket
  | setDisplayName pk' _ | markMotdSent pk' | addPost _ pk' .. | listMail pk' .. | getMail _ pk' =>
    pk' = pk
  | logCommand .. | sendAdvert | fetchWeather | setWeatherCache .. | seeUser .. | insertUser ..
  | touchUser .. | touchUserActivity .. | setBanned .. | addBoard .. | deletePostsOf _
  | deleteBoard _ | deletePost _ | addMail .. | markMailRead .. | deleteMail ..
  | purgeOldReadMail _ | purgeOldAudit _ | popPending _ | setPending .. | setLastNotifyAt .. => False
  | _ => True

theorem Reads.ordinary {op : Op} (h : op.Reads) (pk : Pubkey) : op.Ordinary pk := by
  cases op <;> trivial

/-- What single verbs add to that. -/
def Special (sv : Services) (pk : Pubkey) (verb : Text) : Op → Prop
  | setRateWindow pk' bucket _ =>
    (verb = lit "POST" ∧ PostBucket bucket ∨ verb = lit "SEND" ∧ bucket = lit "mail_day") ∧ pk' = pk
  | addMail fromPk .. => verb = lit "SEND" ∧ fromPk = pk
  | setLastNotifyAt .. => verb = lit "SEND"
  | enqueueOutbound .newMail _ => verb = lit "SEND"
  | markMailRead .. => verb = lit "READMAIL"
  | deleteMail _ viewer => verb = lit "DELETE" ∧ viewer = pk
  | fetchWeather | setWeatherCache .. => verb = lit "WX"
  | sendAdvert => verb = lit "ADVERT" ∧ sv.isAdmin pk = true
  | setBanned _ banned _ => verb = (if banned then lit "ADMIN BAN" else lit "ADMIN UNBAN") ∧
      sv.isAdmin pk = true
  | addBoard .. => verb = lit "ADMIN BOARD ADD" ∧ sv.isAdmin pk = true
  | deletePostsOf _ | deleteBoard _ => verb = lit "ADMIN BOARD DEL" ∧ sv.isAdmin pk = true
  | popPending admin | setPending admin _ | enqueueOutbound (.broadcast admin) _ =>
    verb = lit "ADMIN BROADCAST" ∧ sv.isAdmin pk = true ∧ admin = pk
  | _ => False

def OfCommand (sv : Services) (pk : Pubkey) (verb : Text) (op : Op) : Prop :=
  op.Ordinary pk ∨ op.Special sv pk verb

end Op

section Rules

variable {α β : Type} {P : Op → Prop}

/-- `m` performs only operations with `P`. -/
abbrev Prog.Does (m : Prog α) (P : Op → Prop) : Prop := m.Sat Op.MayRaise P fun _ => True

/-- It does so and does not raise. -/
abbrev Prog.Runs (m : Prog α) (P : Op → Prop) : Prop :=
  m.Sat Op.MayRaise P fun r => r.isSome = true

theorem Prog.Runs.does {m : Prog α} (h : m.Runs P) : m.Does P := h.mono fun _ _ => trivial

theorem call_runs {op : Op} (hop : P op) (hn : ¬ op.MayRaise) : (call op).Runs P :=
  sat_perform hop (fun _ => rfl) fun h => absurd h hn

theorem call_does {op : Op} (hop : P op) : (call op).Does P :=
  sat_perform hop (fun _ => trivial) fun _ => trivial

theorem Prog.Does.bind {m : Prog α} {f : α → Prog β} (h : m.Does P) (hf : ∀ a, (f a).Does P) :
    (m >>= f).Does P :=
  h.seq (fun _ => trivial) hf

theorem Prog.Runs.bind {m : Prog α} {f : α → Prog β} (h : m.Runs P) (hf : ∀ a, (f a).Runs P) :
    (m >>= f).Runs P :=
  h.seq nofun hf

/-- Every operation that a run performs has `P`. -/
theorem Prog.Does.performs {m : Prog α} (h : m.Does P) (py : Py) (w : World) :
    ∀ op ∈ m.trace (Op.run py) w, P op :=
  Sat.trace h (fun _ _ => Op.mayRaise_of_run) w

/-- What the operations with `P` keep, the program keeps. -/
theorem Prog.Does.keeps {py : Py} {m : Prog α} {I : World → Prop} (h : m.Does P)
    (hI : ∀ op : Op, P op → ∀ w, I w → I (op.run py w).2) : m.Keeps (Op.run py) I :=
  fun _ hw => h.invariant (fun _ _ => Op.mayRaise_of_run) (fun op w hop => hI op hop w) hw

theorem Prog.Runs.exists_some {m : Prog α} (h : m.Runs P) (py : Py) (w : World) :
    ∃ a, (m.run (Op.run py) w).1 = some a :=
  Option.isSome_iff_exists.mp (h.outcome (fun _ _ => Op.mayRaise_of_run) w)

theorem does_ite {c : Prop} {_ : Decidable c} {t e : Prog α} (ht : c → t.Does P) (he : ¬ c → e.Does P) :
    (if c then t else e).Does P := by
  split
  · next hc => exact ht hc
  · next hc => exact he hc

end Rules

/-! ## Programs that several requests share

`P` allows the reads and what is asked for besides. -/

section Shared

variable {sv : Services} {P : Op → Prop} (hread : ∀ op : Op, op.Reads → P op)

include hread

theorem read_runs {op : Op} (hop : op.Reads) (hn : ¬ op.MayRaise) : (call op).Runs P :=
  call_runs (hread op hop) hn

theorem read_does {op : Op} (hop : op.Reads) : (call op).Does P := call_does (hread op hop)

theorem nameOf_runs (pk : Pubkey) : (Services.nameOf pk).Runs P :=
  .bind (read_runs hread trivial id) fun _ => sat_pure rfl

theorem enqueueReply_runs {origin : Origin} {reply : Reply}
    (hrow : ∀ now p, P (.enqueueOutbound origin (reply.row now p))) :
    (Dispatcher.enqueueReply origin reply).Runs P := by
  refine .bind (read_runs hread trivial id) fun depth => ?_
  refine .bind (read_runs hread trivial id) fun cfg => ?_
  split
  · exact sat_pure rfl
  · refine .bind (read_runs hread trivial id) fun now => ?_
    exact sat_forEach fun p _ => call_runs (hrow _ p) id

theorem summaryFor_does (hfetch : P .fetchWeather)
    (hset : ∀ key payload now, P (.setWeatherCache key payload now)) :
    sv.summaryFor.Does P := by
  refine .bind (read_does hread trivial) fun now => .bind (read_does hread trivial) fun cached => ?_
  split
  · exact sat_pure trivial
  · refine .bind (call_does hfetch) fun data => ?_
    split
    · exact sat_pure trivial
    · refine .bind (call_does (hset ..)) fun _ => ?_
      split
      · exact sat_pure trivial
      · exact sat_raise trivial

theorem post_does {slug : Text} {pk : Pubkey} {body : Text}
    (hadd : ∀ slug body now, P (.addPost slug pk body now)) : (sv.post slug pk body).Does P := by
  unfold Services.post
  dsimp only
  split
  · exact sat_pure trivial
  · refine .bind (read_does hread trivial) fun board => ?_
    split
    · exact sat_pure trivial
    · split
      · exact sat_pure trivial
      · split
        · exact sat_pure trivial
        · refine .bind (read_does hread trivial) fun now => ?_
          exact .bind (call_does (hadd ..)) fun id => sat_pure trivial

theorem addBoard_does {slug description : Text}
    (hadd : ∀ slug description now, P (.addBoard slug description now)) :
    (sv.addBoard slug description).Does P := by
  unfold Services.addBoard
  dsimp only
  split
  · exact sat_pure trivial
  · refine .bind (read_does hread trivial) fun board => ?_
    split
    · exact sat_pure trivial
    · refine .bind (read_does hread trivial) fun now => ?_
      exact .bind (call_does (hadd ..)) fun _ => sat_pure trivial

theorem deleteBoard_does {slug : Text} (hposts : ∀ slug, P (.deletePostsOf slug))
    (hboard : ∀ slug, P (.deleteBoard slug)) : (sv.deleteBoard slug).Does P := by
  unfold Services.deleteBoard
  refine .bind (read_does hread trivial) fun board => ?_
  split
  · exact sat_pure trivial
  · exact .bind (call_does (hposts _)) fun _ => .bind (call_does (hboard _)) fun _ => sat_pure trivial

theorem shouldNotify_runs {pk : Pubkey} {now : ℚ} (hset : P (.setLastNotifyAt pk now)) :
    (sv.shouldNotify pk now).Runs P := by
  refine .bind (read_runs hread trivial id) fun last => ?_
  split
  · exact .bind (call_runs hset id) fun _ => sat_pure rfl
  · exact sat_pure rfl

theorem checkAndConsume_runs {pk : Pubkey} {bucket : Text} {limit : RateLimit}
    (hset : ∀ window, P (.setRateWindow pk bucket window)) :
    (RateLimiter.checkAndConsume pk bucket limit).Runs P := by
  refine .bind (read_runs hread trivial id) fun now => ?_
  refine .bind (read_runs hread trivial id) fun window => ?_
  split
  · exact .bind (call_runs (hset _) id) fun _ => sat_pure rfl
  · split
    · exact .bind (call_runs (hset _) id) fun _ => sat_pure rfl
    · split
      · exact sat_pure rfl
      · exact .bind (call_runs (hset _) id) fun _ => sat_pure rfl

theorem consumeAll_runs {pk : Pubkey} {limits : List (Text × RateLimit)}
    (hset : ∀ limit ∈ limits, ∀ window, P (.setRateWindow pk limit.1 window)) :
    (Dispatcher.consumeAll pk limits).Runs P := by
  induction limits with
  | nil => exact sat_pure rfl
  | cons limit limits ih =>
    obtain ⟨bucket, limit⟩ := limit
    refine .bind (checkAndConsume_runs hread (hset _ List.mem_cons_self)) fun d => ?_
    split
    · exact ih fun limit hlimit => hset limit (List.mem_cons_of_mem _ hlimit)
    · exact sat_pure rfl

theorem pingPath_runs {inbound : InboundMessage} : (Dispatcher.pingPath inbound).Runs P := by
  unfold Dispatcher.pingPath
  split
  · exact sat_pure rfl
  · split
    · exact read_runs hread trivial id
    · exact sat_pure rfl

theorem renderPost_runs (p : Nat × BoardPostRow) : (Services.renderPost p).Runs P :=
  .bind (nameOf_runs hread _) fun _ => sat_pure rfl

theorem readText_does (slug : Text) (page : Nat) : (sv.readText slug page).Does P := by
  refine .bind (read_does hread trivial) fun board => ?_
  split
  · exact sat_pure trivial
  · refine .bind (read_does hread trivial) fun posts => ?_
    split
    · exact sat_pure trivial
    · refine .bind (Prog.Runs.does (sat_collect fun p _ => renderPost_runs hread p)) fun lines => ?_
      dsimp only
      split
      · exact sat_pure trivial
      · exact sat_pure trivial

theorem listText_runs : Services.listText.Runs P := by
  refine .bind (read_runs hread trivial id) fun boards => ?_
  split
  · exact sat_pure rfl
  · exact sat_pure rfl

theorem countsText_runs (viewer : Pubkey) : (Services.countsText viewer).Runs P :=
  .bind (read_runs hread trivial id) fun _ => .bind (read_runs hread trivial id) fun _ => sat_pure rfl

theorem inboxLine_runs (m : Mail) : (Services.inboxLine m).Runs P :=
  .bind (nameOf_runs hread _) fun _ => sat_pure rfl

theorem renderInbox_runs (page : Nat) (mails : List Mail) :
    (Services.renderInbox page mails).Runs P := by
  unfold Services.renderInbox
  split
  · exact sat_pure rfl
  · refine Prog.Runs.bind (sat_collect fun m _ => inboxLine_runs hread m) fun lines => ?_
    dsimp only
    split
    · exact sat_pure rfl
    · exact sat_pure rfl

theorem resolveByPrefix_runs (identifier : Text) : (sv.resolveByPrefix identifier).Runs P := by
  unfold Services.resolveByPrefix
  dsimp only
  split
  · refine .bind (read_runs hread trivial id) fun user => ?_
    split <;> exact sat_pure rfl
  · exact sat_pure rfl

theorem resolveRecipient_runs (identifier : Text) : (sv.resolveRecipient identifier).Runs P := by
  have hloose : (sv.resolveLoosely identifier).Runs P := by
    refine .bind (read_runs hread trivial id) fun partials => ?_
    split
    · exact resolveByPrefix_runs hread _
    · exact sat_pure rfl
    · exact sat_pure rfl
  unfold Services.resolveRecipient
  split
  · exact sat_pure rfl
  · refine .bind (read_runs hread trivial id) fun user => ?_
    split
    · split
      · exact sat_pure rfl
      · exact hloose
    · exact hloose

end Shared

/-! ## What every command needs -/

/-- The name that a command asks for. -/
def ParsedCommand.newName (parsed : ParsedCommand) : Option Text :=
  if parsed.verb = lit "NAME" then parsed.args.head? else none

/-- `P` allows what any command of `pk` may do before it answers: read, and the writes that are
nobody's concern. -/
class Op.Allows (pk : Pubkey) (P : Op → Prop) : Prop where
  reads : ∀ op : Op, op.Reads → P op
  audits : ∀ actor action detail, P (.audit actor action detail)
  rates : ∀ bucket window, InboundBucket bucket → P (.setRateWindow pk bucket window)
  motd : P (.markMotdSent pk)
  mails : ∀ limit offset, P (.listMail pk limit offset)
  mail : ∀ id, P (.getMail id pk)

/-- And it allows the answer. -/
class Op.Admits (pk : Pubkey) (P : Op → Prop) : Prop extends Op.Allows pk P where
  answers : ∀ row : OutboundRow, row.toPubkey = pk → P (.enqueueOutbound .answer row)

theorem Op.Admits.weaken {pk : Pubkey} {P P' : Op → Prop} (h : Op.Admits pk P)
    (hP : ∀ op, P op → P' op) : Op.Admits pk P' where
  reads op hop := hP op (h.reads op hop)
  answers row hrow := hP _ (h.answers row hrow)
  audits _ _ _ := hP _ (h.audits ..)
  rates bucket window hbucket := hP _ (h.rates bucket window hbucket)
  motd := hP _ h.motd
  mails _ _ := hP _ (h.mails ..)
  mail _ := hP _ (h.mail _)

instance (pk : Pubkey) : Op.Admits pk (Op.Ordinary pk) where
  reads _ h := h.ordinary pk
  answers _ h := ⟨rfl, h⟩
  audits _ _ _ := trivial
  rates _ _ h := ⟨rfl, h.not_postBucket⟩
  motd := rfl
  mails _ _ := rfl
  mail _ := rfl

instance (sv : Services) (pk : Pubkey) (verb : Text) : Op.Admits pk (Op.OfCommand sv pk verb) :=
  Op.Admits.weaken (inferInstanceAs (Op.Admits pk (Op.Ordinary pk))) fun _ => .inl

section Ordinary

variable {sv : Services} {pk : Pubkey} {P : Op → Prop}

theorem admits_reads (pk : Pubkey) [h : Op.Allows pk P] (op : Op) (hop : op.Reads) : P op :=
  h.reads op hop

namespace Dispatcher

/-! ## Programs that a command runs before it answers -/

section Allows

variable [hP : Op.Allows pk P]

/-- A name is set when it is valid. -/
theorem trySetName_runs {name : Text}
    (hname : Names.validateName sv.py.lower name = none → P (.setDisplayName pk name)) :
    (sv.trySetName pk name).Runs P := by
  unfold Services.trySetName
  split
  · exact sat_pure rfl
  · next hvalid =>
    refine .bind (call_runs (hname hvalid) id) fun ok => ?_
    split
    · exact sat_pure rfl
    · exact .bind (call_runs (hP.audits ..) id) fun _ => .bind (call_runs hP.motd id) fun _ =>
        sat_pure rfl

theorem inboxText_does (page : Nat) : (Services.inboxText pk page).Does P :=
  .bind (call_does (hP.mails ..)) fun mails => (renderInbox_runs (admits_reads pk) page mails).does

theorem readMail_does {id : Nat} (hmark : ∀ now, P (.markMailRead id now)) :
    (Services.readMail pk id).Does P := by
  refine .bind (call_does (hP.mail _)) fun m => ?_
  split
  · exact sat_pure trivial
  · refine .bind (nameOf_runs (admits_reads pk) _).does fun sname => ?_
    exact .bind (read_does (admits_reads pk) trivial) fun now => .bind (call_does (hmark _)) fun _ =>
      sat_pure trivial

theorem send_does (hadd : ∀ toPk body now, P (.addMail pk toPk body now)) (recipientId body : Text) :
    (sv.send pk recipientId body).Does P := by
  refine .bind (resolveRecipient_runs (admits_reads pk) _).does fun resolution => ?_
  dsimp only
  split
  · exact sat_pure trivial
  · split
    · exact sat_pure trivial
    · split
      · exact sat_pure trivial
      · split
        · exact sat_pure trivial
        · refine .bind (read_does (admits_reads pk) trivial) fun now => ?_
          exact .bind (call_does (hadd ..)) fun id => sat_pure trivial

theorem postLimits_runs
    (hpost : ∀ bucket, Op.PostBucket bucket → ∀ window, P (.setRateWindow pk bucket window))
    (limits : LimitsConfig) : (consumeAll pk (postLimits limits)).Runs P := by
  refine consumeAll_runs (admits_reads pk) fun limit hlimit window => ?_
  simp only [postLimits, List.mem_cons, List.not_mem_nil, or_false] at hlimit
  rcases hlimit with rfl | rfl
  · exact hpost _ (.inl rfl) window
  · exact hpost _ (.inr rfl) window

theorem mailLimit_runs (hday : ∀ window, P (.setRateWindow pk (lit "mail_day") window))
    (limit : RateLimit) : (consumeAll pk [(lit "mail_day", limit)]).Runs P := by
  refine consumeAll_runs (admits_reads pk) fun limit hlimit window => ?_
  obtain rfl := List.mem_singleton.mp hlimit
  exact hday window

theorem ban_runs (hset : ∀ target reason, P (.setBanned target true reason)) (target reason : Text) :
    (Services.ban pk target reason).Runs P := by
  refine .bind (read_runs (admits_reads pk) trivial id) fun user => ?_
  split
  · exact sat_pure rfl
  · split
    · exact sat_pure rfl
    · refine .bind (call_runs (hset ..) id) fun _ => ?_
      exact .bind (call_runs (hP.audits ..) id) fun _ => sat_pure rfl

theorem unban_runs (hset : ∀ target, P (.setBanned target false none)) (target : Text) :
    (Services.unban pk target).Runs P := by
  refine .bind (read_runs (admits_reads pk) trivial id) fun user => ?_
  split
  · exact sat_pure rfl
  · refine .bind (call_runs (hset _) id) fun _ => ?_
    exact .bind (call_runs (hP.audits ..) id) fun _ => sat_pure rfl

theorem stageBroadcast_runs (hset : ∀ pending, P (.setPending pk pending)) (text : Text) :
    (Services.stageBroadcast pk text).Runs P :=
  .bind (read_runs (admits_reads pk) trivial id) fun _ => .bind (call_runs (hset _) id) fun _ =>
    sat_pure rfl

theorem confirmBroadcast_runs (hpop : P (.popPending pk)) :
    (Services.confirmBroadcast pk).Runs P := by
  refine .bind (call_runs hpop id) fun pending => ?_
  split
  · exact sat_pure rfl
  · refine .bind (read_runs (admits_reads pk) trivial id) fun now => ?_
    dsimp only
    split
    · exact sat_pure rfl
    · refine .bind (read_runs (admits_reads pk) trivial id) fun recipients => ?_
      exact .bind (call_runs (hP.audits ..) id) fun _ => sat_pure rfl

end Allows

end Dispatcher

namespace Dispatcher

section Admits

variable [hP : Op.Admits pk P]

theorem answer_runs (text : Text) (verb : Option Text) : (answer pk text verb).Runs P :=
  enqueueReply_runs (admits_reads pk) fun _ _ => hP.answers _ rfl

/-! ## Commands that only read, or write the rows of the sender -/

variable {parsed : ParsedCommand} {v : Text}

theorem handleWhoami_runs : (handleWhoami pk v).Runs P := by
  refine .bind (read_runs (admits_reads pk) trivial id) fun user => ?_
  split
  · exact answer_runs ..
  · exact answer_runs ..

theorem handleWho_runs : (handleWho pk v).Runs P := by
  refine .bind (read_runs (admits_reads pk) trivial id) fun users => ?_
  split
  · exact answer_runs ..
  · exact .bind (read_runs (admits_reads pk) trivial id) fun now => answer_runs ..

theorem handlePing_runs {inbound : InboundMessage} [Op.Admits inbound.pubkey P] :
    (handlePing inbound v).Runs P :=
  .bind (pingPath_runs (admits_reads inbound.pubkey)) fun _ => answer_runs ..

theorem handleName_runs (hname : ∀ name ∈ parsed.args.head?,
    Names.validateName sv.py.lower name = none → P (.setDisplayName pk name)) :
    (handleName sv pk parsed v).Runs P := by
  unfold handleName
  split
  · exact answer_runs ..
  · next name _ hargs =>
    have hhead : name ∈ parsed.args.head? := by simp [hargs]
    exact .bind (trySetName_runs (hname name hhead)) fun reply => answer_runs ..

theorem handleNews_does : (handleNews sv pk parsed v).Does P := by
  unfold handleNews
  split
  · exact sat_raise trivial
  · refine .bind (read_does (admits_reads pk) trivial) fun items => ?_
    split
    · exact (answer_runs ..).does
    · exact (answer_runs ..).does

theorem handleWx_does (hspecial : ∀ op : Op, op.Special sv pk (lit "WX") → P op) :
    (handleWx sv pk v).Does P := by
  refine .bind (summaryFor_does (admits_reads pk) (hspecial _ rfl) fun _ _ _ => hspecial _ rfl)
    fun _ => ?_
  exact (answer_runs ..).does

omit hP in
theorem maybeInt_does (args : List Text) (idx : Nat) : (maybeInt sv args idx).Does P := by
  unfold maybeInt
  split
  · exact sat_pure trivial
  · split
    · split
      · exact sat_pure trivial
      · exact sat_raise trivial
    · exact sat_pure trivial

theorem handleRead_does : (handleRead sv pk parsed v).Does P := by
  unfold handleRead
  split
  · exact (answer_runs ..).does
  · exact .bind (maybeInt_does ..) fun page => .bind (readText_does (admits_reads pk) ..) fun text =>
      (answer_runs ..).does

theorem handleStatus_runs : (handleStatus sv pk v).Runs P :=
  .bind (read_runs (admits_reads pk) trivial id) fun _ =>
    .bind (read_runs (admits_reads pk) trivial id) fun _ => answer_runs ..

/-! ## Commands with a permission of their own -/

theorem onMailId_does {usage : Text} {f : Nat → Prog Text} (hf : ∀ id, (f id).Does P) :
    (onMailId sv usage f pk parsed v).Does P := by
  unfold onMailId
  split
  · exact (answer_runs ..).does
  · split
    · exact (answer_runs ..).does
    · split
      · exact sat_raise trivial
      · exact .bind (hf _) fun text => (answer_runs ..).does

theorem handlePost_does (hspecial : ∀ op : Op, op.Special sv pk (lit "POST") → P op)
    (hadd : ∀ slug body now, P (.addPost slug pk body now)) : (handlePost sv pk parsed v).Does P := by
  unfold handlePost
  split
  · exact (answer_runs ..).does
  · refine .bind (read_does (admits_reads pk) trivial) fun cfg => ?_
    refine .bind (postLimits_runs (fun _ hbucket window => hspecial _ ⟨.inl ⟨rfl, hbucket⟩, rfl⟩)
      _).does fun refused => ?_
    split
    · exact (answer_runs ..).does
    · dsimp only
      split
      · exact (answer_runs ..).does
      · exact .bind (post_does (admits_reads pk) hadd) fun text => (answer_runs ..).does

theorem handleReadmail_does (hspecial : ∀ op : Op, op.Special sv pk (lit "READMAIL") → P op) :
    (handleReadmail sv pk parsed v).Does P :=
  onMailId_does fun _ => readMail_does fun _ => hspecial _ rfl

theorem handleDeleteMail_does (hspecial : ∀ op : Op, op.Special sv pk (lit "DELETE") → P op) :
    (handleDeleteMail sv pk parsed v).Does P :=
  onMailId_does fun _ => .bind (call_does (hspecial _ ⟨rfl, rfl⟩)) fun _ => sat_pure trivial

omit hP in
theorem maybeNotifyRecipient_runs (hread : ∀ op : Op, op.Reads → P op) {recipientPk : Pubkey}
    (hset : ∀ t, P (.setLastNotifyAt recipientPk t))
    (hrow : ∀ row : OutboundRow, row.toPubkey = recipientPk → row.priority = priorityNotification →
      P (.enqueueOutbound .newMail row)) : (maybeNotifyRecipient sv recipientPk).Runs P := by
  refine .bind (read_runs hread trivial id) fun recipient => ?_
  split
  · exact sat_pure rfl
  · split
    · exact sat_pure rfl
    · refine .bind (read_runs hread trivial id) fun now => ?_
      split
      · exact sat_pure rfl
      · refine .bind (read_runs hread trivial id) fun now => ?_
        refine .bind (shouldNotify_runs hread (hset _)) fun notify => ?_
        split
        · exact sat_pure rfl
        · refine .bind (read_runs hread trivial id) fun unread => ?_
          exact enqueueReply_runs hread fun _ _ => hrow _ rfl rfl

section Send

variable (hspecial : ∀ op : Op, op.Special sv pk (lit "SEND") → P op)

include hspecial

theorem handleSend_does : (handleSend sv pk parsed v).Does P := by
  unfold handleSend
  split
  · exact (answer_runs ..).does
  · split
    · exact (answer_runs ..).does
    · refine .bind (read_does (admits_reads pk) trivial) fun cfg => ?_
      refine .bind (mailLimit_runs (fun _ => hspecial _ ⟨.inr ⟨rfl, rfl⟩, rfl⟩) _).does
        fun refused => ?_
      split
      · exact (answer_runs ..).does
      · dsimp only
        split
        · exact (answer_runs ..).does
        · refine .bind (send_does (fun _ _ _ => hspecial _ ⟨rfl, rfl⟩) ..) fun sent => ?_
          refine .bind (answer_runs ..).does fun _ => ?_
          split
          · split
            · exact (maybeNotifyRecipient_runs (admits_reads pk) (fun _ => hspecial _ rfl)
                fun _ _ _ => hspecial _ rfl).does
            · exact sat_pure trivial
          · exact sat_pure trivial

end Send

theorem handleAdvert_runs (hspecial : ∀ op : Op, op.Special sv pk (lit "ADVERT") → P op) :
    (handleAdvert sv pk v).Runs P := by
  unfold handleAdvert
  split
  · exact answer_runs ..
  · next hadmin =>
    refine .bind (call_runs (hspecial _ ⟨rfl, by simpa using hadmin⟩) id) fun _ => ?_
    exact .bind (call_runs (hP.audits ..) id) fun _ => answer_runs ..

section Admin

variable (hadmin : sv.isAdmin pk = true)

include hadmin

section Broadcast

variable (hspecial : ∀ op : Op, op.Special sv pk (lit "ADMIN BROADCAST") → P op)

include hspecial

theorem releaseBroadcast_runs : (releaseBroadcast pk v).Runs P := by
  refine .bind (confirmBroadcast_runs (hspecial _ ⟨rfl, hadmin, rfl⟩)) fun confirmed =>
    .bind (answer_runs ..) fun _ => ?_
  refine sat_forEach fun r _ => ?_
  split
  · exact enqueueReply_runs (admits_reads pk) fun _ _ => hspecial _ ⟨rfl, hadmin, rfl⟩
  · exact sat_pure rfl

theorem handleBroadcast_runs : (handleBroadcast sv pk parsed v).Runs P := by
  unfold handleBroadcast
  split
  · exact releaseBroadcast_runs hadmin hspecial
  · dsimp only
    split
    · exact answer_runs ..
    · exact .bind (stageBroadcast_runs (fun _ => hspecial _ ⟨rfl, hadmin, rfl⟩) _) fun reply =>
        answer_runs ..

end Broadcast

end Admin

theorem handleAdmin_does (hspecial : ∀ op : Op, op.Special sv pk parsed.verb → P op) :
    (handleAdmin sv pk parsed v).Does P := by
  unfold handleAdmin
  dsimp only
  split
  · exact (answer_runs ..).does
  · next hadmin =>
    have hadmin : sv.isAdmin pk = true := by simpa using hadmin
    split
    · next hv =>
      split
      · exact (answer_runs ..).does
      · rw [hv] at hspecial
        exact .bind (ban_runs (fun _ _ => hspecial _ ⟨rfl, hadmin⟩) ..).does fun reply =>
          (answer_runs ..).does
    split
    · next hv =>
      split
      · exact (answer_runs ..).does
      · rw [hv] at hspecial
        exact .bind (unban_runs (fun _ => hspecial _ ⟨rfl, hadmin⟩) _).does fun reply =>
          (answer_runs ..).does
    split
    · next hv =>
      rw [hv] at hspecial
      split
      · exact (answer_runs ..).does
      · exact .bind (addBoard_does (admits_reads pk) fun _ _ _ => hspecial _ ⟨rfl, hadmin⟩)
          fun reply => (answer_runs ..).does
    split
    · next hv =>
      rw [hv] at hspecial
      split
      · exact (answer_runs ..).does
      · exact .bind (deleteBoard_does (admits_reads pk) (fun _ => hspecial _ ⟨rfl, hadmin⟩)
          fun _ => hspecial _ ⟨rfl, hadmin⟩) fun reply => (answer_runs ..).does
    split
    · next hv => exact (handleBroadcast_runs hadmin (hv ▸ hspecial)).does
    · exact (answer_runs ..).does

end Admits

/-- **A command performs what every command needs, sets a valid name for `NAME`, adds a post
for `POST`, and performs the special operations of its verb.** -/
theorem dispatch_does {inbound : InboundMessage} {parsed : ParsedCommand}
    [hP : Op.Admits inbound.pubkey P]
    (hname : ∀ name ∈ parsed.newName, Names.validateName sv.py.lower name = none →
      P (.setDisplayName inbound.pubkey name))
    (hpost : parsed.verb = lit "POST" → ∀ slug body now, P (.addPost slug inbound.pubkey body now))
    (hspecial : ∀ op : Op, op.Special sv inbound.pubkey parsed.verb → P op) :
    (dispatch sv inbound parsed).Does P := by
  unfold dispatch
  dsimp only
  refine does_ite (fun _ => (answer_runs ..).does) fun _ => ?_
  refine does_ite (fun _ => handleWho_runs.does) fun _ => ?_
  refine does_ite (fun _ => handlePing_runs.does) fun _ => ?_
  refine does_ite (fun _ => handleWhoami_runs.does) fun _ => ?_
  refine does_ite (fun hv => (handleName_runs fun name hmem => hname name ?_).does) fun _ => ?_
  · rw [ParsedCommand.newName, if_pos hv]
    exact hmem
  refine does_ite (fun _ => handleNews_does) fun _ => ?_
  refine does_ite (fun hv => handleWx_does (hv ▸ hspecial)) fun _ => ?_
  refine does_ite (fun _ => .bind (listText_runs (admits_reads inbound.pubkey)).does fun _ =>
    (answer_runs ..).does) fun _ => ?_
  refine does_ite (fun _ => handleRead_does) fun _ => ?_
  refine does_ite (fun hv => handlePost_does (hv ▸ hspecial) (hpost hv)) fun _ => ?_
  refine does_ite (fun _ => .bind (countsText_runs (admits_reads inbound.pubkey) _).does fun _ =>
    (answer_runs ..).does) fun _ => ?_
  refine does_ite (fun _ => .bind (maybeInt_does ..) fun _ => .bind (inboxText_does _) fun _ =>
    (answer_runs ..).does) fun _ => ?_
  refine does_ite (fun hv => handleReadmail_does (hv ▸ hspecial)) fun _ => ?_
  refine does_ite (fun hv => handleSend_does (hv ▸ hspecial)) fun _ => ?_
  refine does_ite (fun hv => handleDeleteMail_does (hv ▸ hspecial)) fun _ => ?_
  refine does_ite (fun _ => handleStatus_runs.does) fun _ => ?_
  refine does_ite (fun hv => (handleAdvert_runs (hv ▸ hspecial)).does) fun _ => ?_
  refine does_ite (fun _ => handleAdmin_does hspecial) fun _ => (answer_runs ..).does

/-- **A command performs only the operations of its verb.** -/
theorem dispatch_ofCommand {inbound : InboundMessage} {parsed : ParsedCommand} :
    (dispatch sv inbound parsed).Does (Op.OfCommand sv inbound.pubkey parsed.verb) :=
  dispatch_does (fun _ _ _ => .inl rfl) (fun _ _ _ _ => .inl rfl) fun _ => .inr

end Dispatcher

end Ordinary

end Bbs
