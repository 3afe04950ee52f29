import MeshcoreBbs.Footprint

/-!
# The running process

A `Request` is something the process does by itself or is asked for; `Outside` is what
changes the world otherwise.  Requests are taken here one after the other, as the event
pump takes the messages; the module on the mailbox lets them wait in turns.

`weather_refresh`, `mail_notify` and the other jobs, and the requests of the dashboard, are tasks of
their own, which in the program may be under way while a message is handled.  In the runs of `step`
each of them is one step.
-/

namespace Bbs

inductive Request
  | inbound (msg : InboundMessage)
  | meshActivity (pubkey : Option Pubkey)
  | mailNotify
  | weatherRefresh
  | auditPrune
  | boardsCreate (slug description : Text)
  | boardsDelete (slug : Text)
  | boardPostsCreate (slug authorPubkey body : Text)
  | boardPostsDelete (slug : Text) (postId : Nat)
  | advert

def Request.prog (sv : Services) : Request → Prog Unit
  | inbound msg => Dispatcher.handleInbound sv msg
  | meshActivity pubkey => Dispatcher.recordMeshActivity sv pubkey
  | mailNotify => Scheduler.mailNotifyJob sv
  | weatherRefresh => Scheduler.wxJob sv
  | auditPrune => Scheduler.auditPruneJob sv
  | boardsCreate slug description => Dashboard.apiBoardsCreate sv slug description
  | boardsDelete slug => Dashboard.apiBoardsDelete sv slug
  | boardPostsCreate slug authorPubkey body => Dashboard.apiBoardPostsCreate sv slug authorPubkey body
  | boardPostsDelete slug postId => Dashboard.apiBoardPostsDelete sv slug postId
  | advert => Dashboard.apiAdvert

theorem Request.inbound_or (r : Request) :
    (∃ msg, r = .inbound msg) ∨ ∀ msg, r ≠ .inbound msg := by
  cases r with
  | inbound msg => exact .inl ⟨msg, rfl⟩
  | _ => exact .inr fun _ h => nomatch h

/-- Time passes, a configuration is loaded, the worker or a queue action runs a statement,
the feeds are refreshed, and the weather service and the radio change their answers.  Rows
come into the outbound queue through requests only. -/
inductive Outside
  | wait (t : ℚ)
  | reload (cfg : Config)
  | queue (st : Stmt)
  | news (feeds : RowTable NewsFeedRow) (items : RowTable NewsItemRow)
  | weather (answer : Option Json)
  | paths (inboundPath : Pubkey → List Text)

def Outside.run (w : World) : Outside → Option World
  | wait t => if w.clock ≤ t then some { w with clock := t } else none
  | reload cfg => some { w with cfg := cfg }
  | queue (.enqueueOutbound _) => none
  | queue st => some { w with queue := st.run w.queue }
  | news feeds items => some { w with feeds := feeds, newsItems := items }
  | weather answer => some { w with weatherAnswer := answer }
  | paths inboundPath => some { w with inboundPath := inboundPath }

/-- What is outside moves the clock forward and leaves alone what the requests write. -/
structure Outside.Frame (w w' : World) : Prop where
  store : w'.toStore = w.toStore
  boards : w'.boards = w.boards
  posts : w'.posts = w.posts
  rates : w'.rates = w.rates
  weatherCache : w'.weatherCache = w.weatherCache
  pending : w'.pending = w.pending
  lastNotifyAt : w'.lastNotifyAt = w.lastNotifyAt
  record : w'.record = w.record
  clock : w.clock ≤ w'.clock

theorem Outside.frame {w w' : World} {e : Outside} (h : e.run w = some w') : Frame w w' := by
  cases e with
  | wait t =>
    rw [run] at h
    split at h
    · next ht =>
      cases h
      exact ⟨rfl, rfl, rfl, rfl, rfl, rfl, rfl, rfl, ht⟩
    · cases h
  | queue st =>
    cases st <;> first
      | (cases h; exact ⟨rfl, rfl, rfl, rfl, rfl, rfl, rfl, rfl, le_refl _⟩)
      | cases h
  | _ =>
    cases h
    exact ⟨rfl, rfl, rfl, rfl, rfl, rfl, rfl, rfl, le_refl _⟩

/-- What the requests other than messages may do.  Only the notifications enqueue anything, only
the pruning removes mail, and only the refresh asks for the weather. -/
def Op.OfRequest (r : Request) : Op → Prop
  | enqueueOutbound origin _ => r = .mailNotify ∧ origin = .newMail
  | purgeOldReadMail _ => r = .auditPrune
  | fetchWeather | setWeatherCache .. => r = .weatherRefresh
  | logCommand .. | seeUser .. | insertUser .. | touchUser .. | setDisplayName .. | markMotdSent _
  | setBanned .. | addMail .. | listMail .. | getMail .. | markMailRead .. | deleteMail ..
  | setRateWindow .. | popPending _ | setPending .. => False
  | _ => True

/-- Only the dashboard posts, and only when it is asked to. -/
def Op.OfJob (r : Request) : Op → Prop
  | addPost .. => False
  | op => op.OfRequest r

theorem Op.OfJob.ofRequest {r : Request} {op : Op} (h : op.OfJob r) : op.OfRequest r := by
  cases op with
  | addPost => cases h
  | _ => exact h

theorem Op.Reads.ofJob {r : Request} (op : Op) (h : op.Reads) : op.OfJob r := by
  cases op <;> trivial

section Requests

open Coroutine

variable (sv : Services)

theorem notifyUser_runs (now : Int) (pk : Pubkey) :
    (Scheduler.notifyUser sv now pk).Runs (Op.OfJob .mailNotify) := by
  refine .bind (read_runs Op.Reads.ofJob trivial id) fun user => ?_
  split
  · exact sat_pure rfl
  · split
    · exact sat_pure rfl
    · refine .bind (shouldNotify_runs Op.Reads.ofJob trivial) fun notify => ?_
      split
      · exact sat_pure rfl
      · refine .bind (read_runs Op.Reads.ofJob trivial id) fun unread => ?_
        exact enqueueReply_runs Op.Reads.ofJob fun _ _ => ⟨rfl, rfl⟩

theorem mailNotifyJob_runs : (Scheduler.mailNotifyJob sv).Runs (Op.OfJob .mailNotify) := by
  refine .bind (read_runs Op.Reads.ofJob trivial id) fun recipients => ?_
  refine .bind (read_runs Op.Reads.ofJob trivial id) fun now => ?_
  exact sat_forEach fun pk _ => notifyUser_runs sv _ pk

theorem auditPruneJob_does : (Scheduler.auditPruneJob sv).Does (Op.OfJob .auditPrune) := by
  refine .bind (call_does trivial) fun now => .bind (call_does trivial) fun _ => ?_
  refine does_ite (fun _ => sat_pure trivial) fun _ => ?_
  exact .bind (call_does trivial) fun now => call_does rfl

theorem apiBoardsCreate_does (slug description : Text) :
    (Dashboard.apiBoardsCreate sv slug description).Does
      (Op.OfJob (.boardsCreate slug description)) := by
  refine does_ite (fun _ => sat_pure trivial) fun _ => ?_
  refine .bind (addBoard_does Op.Reads.ofJob fun _ _ _ => trivial) fun reply => ?_
  exact does_ite (fun _ => sat_pure trivial) fun _ => call_does trivial

theorem apiBoardsDelete_does (slug : Text) :
    (Dashboard.apiBoardsDelete sv slug).Does (Op.OfJob (.boardsDelete slug)) := by
  refine does_ite (fun _ => sat_pure trivial) fun _ => ?_
  refine .bind (deleteBoard_does Op.Reads.ofJob (fun _ => trivial) fun _ => trivial)
    fun reply => ?_
  exact does_ite (fun _ => sat_pure trivial) fun _ => call_does trivial

theorem apiBoardPostsCreate_of_post {P : Op → Prop} (hread : ∀ op : Op, op.Reads → P op)
    (haudit : ∀ actor action detail, P (.audit actor action detail)) {slug authorPubkey body : Text}
    (hpost : ∀ slug pk, (sv.post slug pk body).Does P) :
    (Dashboard.apiBoardPostsCreate sv slug authorPubkey body).Does P := by
  refine does_ite (fun _ => sat_pure trivial) fun _ => ?_
  refine .bind (read_does hread trivial) fun user => ?_
  split
  · exact sat_pure trivial
  · refine .bind (hpost ..) fun reply => ?_
    exact does_ite (fun _ => sat_pure trivial) fun _ => call_does (haudit ..)

theorem apiBoardPostsCreate_does {P : Op → Prop} (hread : ∀ op : Op, op.Reads → P op)
    (hadd : ∀ slug pk body now, P (.addPost slug pk body now))
    (haudit : ∀ actor action detail, P (.audit actor action detail))
    (slug authorPubkey body : Text) :
    (Dashboard.apiBoardPostsCreate sv slug authorPubkey body).Does P :=
  apiBoardPostsCreate_of_post sv hread haudit fun _ _ => post_does hread fun _ _ _ => hadd ..

theorem apiBoardPostsDelete_does (slug : Text) (postId : Nat) :
    (Dashboard.apiBoardPostsDelete sv slug postId).Does
      (Op.OfJob (.boardPostsDelete slug postId)) := by
  refine .bind (call_does trivial) fun post => ?_
  split
  · exact sat_pure trivial
  · refine does_ite (fun _ => sat_pure trivial) fun _ => .bind (call_does trivial) fun ok => ?_
    exact does_ite (fun _ => sat_pure trivial) fun _ => call_does trivial

/-- A job or a dashboard request performs its own operations and posts nothing, but for the one
that posts. -/
theorem job_does {r : Request} (hr : ∀ msg, r ≠ .inbound msg)
    (hpost : ∀ slug author body, r ≠ .boardPostsCreate slug author body) :
    (r.prog sv).Does (Op.OfJob r) := by
  cases r with
  | inbound msg => exact absurd rfl (hr msg)
  | meshActivity pubkey =>
    cases pubkey with
    | none => exact sat_pure trivial
    | some pubkey =>
      refine does_ite (fun _ => sat_pure trivial) fun _ => .bind (call_does trivial) fun now => ?_
      exact .bind (call_does trivial) fun _ => sat_pure trivial
  | mailNotify => exact (mailNotifyJob_runs sv).does
  | weatherRefresh =>
    exact .bind (summaryFor_does Op.Reads.ofJob rfl fun _ _ _ => rfl) fun _ => sat_pure trivial
  | auditPrune => exact auditPruneJob_does sv
  | boardsCreate slug description => exact apiBoardsCreate_does sv slug description
  | boardsDelete slug => exact apiBoardsDelete_does sv slug
  | boardPostsCreate slug author body => exact absurd rfl (hpost slug author body)
  | boardPostsDelete slug postId => exact apiBoardPostsDelete_does sv slug postId
  | advert => exact .bind (call_does trivial) fun _ => call_does trivial

/-- **A job or a dashboard request performs only its own operations.** -/
theorem request_does {r : Request} (hr : ∀ msg, r ≠ .inbound msg) :
    (r.prog sv).Does (Op.OfRequest r) := by
  by_cases hpost : ∃ slug author body, r = .boardPostsCreate slug author body
  · obtain ⟨slug, author, body, rfl⟩ := hpost
    exact apiBoardPostsCreate_does sv (fun _ hop => (Op.Reads.ofJob _ hop).ofRequest)
      (fun _ _ _ _ => trivial) (fun _ _ _ => trivial) slug author body
  · exact (job_does sv hr fun slug author body h => hpost ⟨slug, author, body, h⟩).weaken
      fun _ => Op.OfJob.ofRequest

end Requests

/-! ## Runs -/

namespace Process

inductive Act
  | request (r : Request)
  | outside (e : Outside)

/-- A request, from its beginning to its end, or something else. -/
def step (sv : Services) (w : World) : Act → Option World
  | .request r => some ((r.prog sv).run (Op.run sv.py) w).2
  | .outside e => e.run w

/-- The clock does not go back, and no time passes while a request is handled. -/
theorem now_step {sv : Services} {w w' : World} {a : Act} (hs : step sv w a = some w') :
    w.now ≤ w'.now ∧ ∀ r, a = .request r → w'.now = w.now := by
  cases a with
  | request r =>
    cases hs
    have hop (op : Op) (w : World) : (op.run sv.py w).2.clock = w.clock := Op.run_clock
    have hclock := Coroutine.keeps_of_ops (I := fun w' => w'.clock = w.clock)
      (fun op w' hw => (hop op w').trans hw) (r.prog sv) w rfl
    have hnow : ((r.prog sv).run (Op.run sv.py) w).2.now = w.now := congrArg Int.floor hclock
    exact ⟨le_of_eq hnow.symm, fun _ _ => hnow⟩
  | outside e => exact ⟨Int.floor_le_floor (Outside.frame hs).clock, fun _ h => by cases h⟩

/-- A process just started on the tables it found. -/
structure Fresh (w : World) : Prop where
  pending : w.pending = fun _ => none
  lastNotifyAt : w.lastNotifyAt = fun _ => none
  record : w.record = []

/-! ## A sample -/

/-- The admin is `aa`. -/
def asciiServices : Services :=
  { py := asciiPy, bbs := { adminPubkeys := [lit "aa"] }, selfPubkey := lit "ff" }

def asciiConfig : Config := { bbs := asciiServices.bbs }

/-- A direct message. -/
def fromUser (pk : Pubkey) (body : String) : Act :=
  .request (.inbound { pubkey := pk, body := lit body, hops := some 0 })

/-- `ann` and `bob` join. -/
def twoJoin : List Act :=
  [fromUser (lit "aa") "hi", fromUser (lit "aa") "NAME ann", fromUser (lit "bb") "hi",
    fromUser (lit "bb") "NAME bob"]

theorem fresh_start (clock : ℚ) : Fresh (World.start clock) := ⟨rfl, rfl, rfl⟩

end Process

end Bbs
