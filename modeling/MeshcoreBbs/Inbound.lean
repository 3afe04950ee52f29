import MeshcoreBbs.Footprint

/-!
# The way of an inbound message

`run_handleInbound` gives the world in which the ban check is made.  `serve_keeps` and
`Op.Reception` cover everything up to the command itself.
-/

namespace Bbs

open Coroutine

/-- What happens to a message before its command. -/
def Op.Reception (pk : Pubkey) : Op → Prop
  | seeUser pk' .. | insertUser pk' .. | touchUser pk' .. => pk' = pk
  | enqueueOutbound .newUser _ => True
  | op => op.Ordinary pk

theorem Op.Ordinary.reception {pk : Pubkey} (op : Op) (h : op.Ordinary pk) : op.Reception pk := by
  cases op with
  | enqueueOutbound origin row =>
    cases origin <;> first | exact h | trivial
  | seeUser => cases h
  | insertUser => cases h
  | touchUser => cases h
  | _ => exact h

/-- `P` allows besides what the reception of a message does to the row of its sender, and the
notices of a new user. -/
class Op.Receives (pk : Pubkey) (P : Op → Prop) : Prop extends Op.Admits pk P where
  sees : ∀ advName now, P (.seeUser pk advName now)
  inserts : ∀ advName now, P (.insertUser pk advName now)
  touches : ∀ now hops, P (.touchUser pk now hops)
  notices : ∀ row, P (.enqueueOutbound .newUser row)

theorem Op.Receives.weaken {pk : Pubkey} {P P' : Op → Prop} (h : Op.Receives pk P)
    (hP : ∀ op, P op → P' op) : Op.Receives pk P' where
  toAdmits := h.toAdmits.weaken hP
  sees _ _ := hP _ (h.sees ..)
  inserts _ _ := hP _ (h.inserts ..)
  touches _ _ := hP _ (h.touches ..)
  notices _ := hP _ (h.notices _)

instance (pk : Pubkey) : Op.Receives pk (Op.Reception pk) where
  toAdmits := Op.Admits.weaken (inferInstanceAs (Op.Admits pk (Op.Ordinary pk)))
    Op.Ordinary.reception
  sees _ _ := rfl
  inserts _ _ := rfl
  touches _ _ := rfl
  notices _ := trivial

namespace Dispatcher

variable {sv : Services} {inbound : InboundMessage} {P : Op → Prop}

theorem upsertUserFirstSeen_does {pk : Pubkey} (hread : ∀ op : Op, op.Reads → P op)
    (hsee : ∀ advName now, P (.seeUser pk advName now))
    (hinsert : ∀ advName now, P (.insertUser pk advName now)) (advName : Option Text) (now : Int) :
    (upsertUserFirstSeen pk advName now).Does P := by
  refine .bind (read_does hread trivial) fun user => ?_
  split
  · exact .bind (call_does (hsee ..)) fun _ => sat_pure trivial
  · refine .bind (call_does (hinsert ..)) fun _ => .bind (read_does hread trivial) fun user => ?_
    split
    · exact sat_raise trivial
    · exact sat_pure trivial

theorem notifyAdminsNewUser_runs {pk : Pubkey} (hread : ∀ op : Op, op.Reads → P op)
    (hrow : ∀ row : OutboundRow, row.priority = priorityNotification →
      P (.enqueueOutbound .newUser row)) (display : Text) :
    (notifyAdminsNewUser sv display pk).Runs P := by
  refine .bind (read_runs hread trivial id) fun cfg => sat_forEach fun admin _ => ?_
  split
  · exact enqueueReply_runs hread fun _ _ => hrow _ rfl
  · exact sat_pure rfl

section Receives

variable {pk : Pubkey} [hP : Op.Receives pk P]

theorem upsert_does (advName : Option Text) (now : Int) :
    (upsertUserFirstSeen pk advName now).Does P :=
  upsertUserFirstSeen_does hP.reads hP.sees hP.inserts advName now

theorem notifyAdminsNewUser_does (display : Text) : (notifyAdminsNewUser sv display pk).Does P :=
  (notifyAdminsNewUser_runs hP.reads (fun row _ => hP.notices row) display).does

end Receives

/-- The name that a message asks for, at the onboarding or later. -/
def askedName (sv : Services) (inbound : InboundMessage) : Option Text :=
  (Commands.parse sv.py inbound.body).bind ParsedCommand.newName

theorem askedName_of_parse {parsed : ParsedCommand}
    (h : Commands.parse sv.py inbound.body = some parsed) :
    askedName sv inbound = parsed.newName := by
  rw [askedName, h, Option.bind_some]

theorem consumeInbound_does [hP : Op.Allows inbound.pubkey P] : (consumeInbound sv inbound).Does P := by
  refine does_ite (fun _ => .bind (read_does hP.reads trivial) fun cfg =>
    (consumeAll_runs hP.reads fun limit hlimit window => ?_).does) fun _ => sat_pure trivial
  simp only [inboundLimits, List.mem_cons, List.not_mem_nil, or_false] at hlimit
  rcases hlimit with rfl | rfl
  · exact hP.rates _ window (.inl rfl)
  · exact hP.rates _ window (.inr (.inl rfl))

section Admits

variable [hP : Op.Admits inbound.pubkey P]

theorem replyThrottled_does (d : Decision) : (replyThrottled inbound.pubkey d).Does P := by
  refine .bind (checkAndConsume_runs hP.reads fun window => hP.rates _ window (.inr (.inr rfl))).does
    fun _ => ?_
  exact does_ite (fun _ => (answer_runs ..).does) fun _ => sat_pure trivial

theorem handleOnboarding_does
    (hname : ∀ name ∈ askedName sv inbound, Names.validateName sv.py.lower name = none →
      P (.setDisplayName inbound.pubkey name)) : (handleOnboarding sv inbound).Does P := by
  have hwelcome : (do
      let cfg ← call .config
      answer inbound.pubkey (Services.welcomeText cfg.bbs.name) none : Prog Unit).Does P :=
    .bind (read_does hP.reads trivial) fun _ => (answer_runs ..).does
  unfold handleOnboarding
  dsimp only
  split
  · exact hwelcome
  · next parsed hparse =>
    refine does_ite (fun _ => hwelcome) fun hv => ?_
    split
    · exact (answer_runs ..).does
    · next name _ hargs =>
      have hasked : name ∈ askedName sv inbound := by
        rw [Option.mem_def, askedName_of_parse hparse, ParsedCommand.newName, if_pos (not_not.mp hv),
          hargs]
        rfl
      exact .bind (trySetName_runs (hname name hasked)).does fun _ => (answer_runs ..).does

end Admits

/-! ## The run up to the ban check -/

/-- The sender as `upsert_user_first_seen` returns it, and whether it is new. -/
def sender (w : World) (inbound : InboundMessage) : User × Bool :=
  (w.users.upsertUserFirstSeen inbound.pubkey inbound.advName w.now).2

theorem sender_of_some {w : World} {u : User} (h : w.users.getUser inbound.pubkey = some u) :
    sender w inbound = (u, false) := by
  rw [sender, UserTable.upsertUserFirstSeen_of_some h]

theorem sender_of_none {w : World} (h : w.users.getUser inbound.pubkey = none) : sender w inbound =
    ({ pubkey := inbound.pubkey, advName := inbound.advName, firstSeen := w.now, lastSeen := w.now },
      true) := by
  rw [sender, UserTable.upsertUserFirstSeen_of_none h]

theorem banned_sender (w : World) (inbound : InboundMessage) :
    (sender w inbound).1.banned = w.isBanned inbound.pubkey := by
  rw [World.isBanned]
  cases hfind : w.users.getUser inbound.pubkey with
  | some u =>
    rw [sender_of_some hfind]
    rfl
  | none =>
    rw [sender_of_none hfind]
    rfl

/-- The row of the sender is there and up to date. -/
def received (w : World) (inbound : InboundMessage) : World :=
  let users := (w.users.upsertUserFirstSeen inbound.pubkey inbound.advName w.now).1
  { w with users := users.touchUser inbound.pubkey w.now inbound.hops }

theorem isSome_getUser_received (w : World) (inbound : InboundMessage) :
    ((received w inbound).users.getUser inbound.pubkey).isSome = true := by
  have hupdate {t t' : UserTable} {f : User → User}
      (hrows : t'.rows = t.rows.map (updateRow inbound.pubkey f)) (hf : ∀ u, (f u).pubkey = u.pubkey)
      (h : (t.getUser inbound.pubkey).isSome = true) : (t'.getUser inbound.pubkey).isSome = true := by
    rw [UserTable.getUser_of_map hrows (UserTable.updateRow_pubkey hf _), Option.isSome_map]
    exact h
  refine hupdate (t := (w.users.upsertUserFirstSeen inbound.pubkey inbound.advName w.now).1) rfl
    (fun _ => rfl) ?_
  cases hfind : w.users.getUser inbound.pubkey with
  | some u =>
    rw [UserTable.upsertUserFirstSeen_of_some hfind]
    exact hupdate rfl (fun _ => rfl) (hfind ▸ rfl : (w.users.getUser _).isSome = true)
  | none =>
    rw [UserTable.upsertUserFirstSeen_of_none hfind, UserTable.getUser_insertStub hfind]
    rfl

theorem run_upsertUserFirstSeen (py : Py) (w : World) (pk : Pubkey) (advName : Option Text)
    (now : Int) :
    (upsertUserFirstSeen pk advName now).run (Op.run py) w =
      (some (w.users.upsertUserFirstSeen pk advName now).2,
        { w with users := (w.users.upsertUserFirstSeen pk advName now).1 }) := by
  unfold upsertUserFirstSeen
  cases hfind : w.users.getUser pk with
  | some existing =>
    rw [UserTable.upsertUserFirstSeen_of_some hfind]
    simp [Op.run, hfind]
  | none =>
    rw [UserTable.upsertUserFirstSeen_of_none hfind]
    have hget : (call (.getUser pk)).run (Op.run py) w = (some none, w) := by
      rw [run_perform, Op.run, hfind]
    have hinsert : (call (.insertUser pk advName now)).run (Op.run py) w =
        (some (), { w with users := w.users.insertStub pk advName now hfind }) :=
      (run_perform ..).trans (Op.run_insertUser hfind)
    rw [run_bind_of_some hget]
    dsimp only
    rw [run_bind_of_some hinsert]
    simp [Op.run, UserTable.getUser_insertStub]

/-- A message is received, and served unless its sender is banned. -/
theorem leads_received [hP : Op.Receives inbound.pubkey P] (w : World)
    (hself : inbound.pubkey ≠ sv.py.lower sv.selfPubkey) :
    (handleInbound sv inbound).Leads (Op.run sv.py) P w
      (if (sender w inbound).1.banned then pure ()
        else serve sv inbound (sender w inbound).1 (sender w inbound).2) (received w inbound) := by
  have htime : (call .time).run (Op.run sv.py) w = (some w.clock, w) := rfl
  have hreads : (call .time).Does P := read_does hP.reads trivial
  have hupsert : (upsertUserFirstSeen inbound.pubkey inbound.advName w.now).Does P := upsert_does ..
  have htouch : (call (.touchUser inbound.pubkey w.now inbound.hops)).Does P :=
    call_does (hP.touches ..)
  unfold handleInbound
  rw [if_neg hself]
  refine (leads_bind htime (hreads.performs sv.py _)).trans ?_
  refine (leads_bind (run_upsertUserFirstSeen ..) (hupsert.performs sv.py _)).trans ?_
  exact leads_bind rfl (htouch.performs sv.py _)

theorem run_handleInbound (w : World) (hself : inbound.pubkey ≠ sv.py.lower sv.selfPubkey) :
    (handleInbound sv inbound).run (Op.run sv.py) w =
      if (sender w inbound).1.banned then (some (), received w inbound)
      else (serve sv inbound (sender w inbound).1 (sender w inbound).2).run (Op.run sv.py)
        (received w inbound) := by
  rw [(leads_received (P := Op.Reception inbound.pubkey) w hself).run]
  split
  · rfl
  · rfl

/-- What the operations on the row of the sender keep, the reception keeps. -/
theorem received_induction (py : Py) (P : Op → Prop) [hP : Op.Receives inbound.pubkey P]
    {I : World → Prop} {w : World} (hrec : ∀ op : Op, P op → ∀ w, I w → I (op.run py w).2) (hw : I w) :
    I (received w inbound) := by
  have hup : I ((upsertUserFirstSeen inbound.pubkey inbound.advName w.now).run (Op.run py) w).2 :=
    (upsert_does (P := P) ..).keeps hrec w hw
  rw [run_upsertUserFirstSeen] at hup
  exact hrec (.touchUser inbound.pubkey w.now inbound.hops) (hP.touches ..) _ hup

/-- Before the step: the message comes from a user who is onboarded and not banned. -/
def Admitted (sv : Services) (w : World) (inbound : InboundMessage) : Prop :=
  inbound.pubkey ≠ sv.py.lower sv.selfPubkey ∧
    ∃ u, w.users.getUser inbound.pubkey = some u ∧ u.eligible = true

theorem admitted_of_sender {w : World} (hself : inbound.pubkey ≠ sv.py.lower sv.selfPubkey)
    (hban : (sender w inbound).1.banned = false) (hon : (sender w inbound).1.onboarded = true) :
    Admitted sv w inbound := by
  refine ⟨hself, ?_⟩
  unfold sender at hban hon
  cases hfind : w.users.getUser inbound.pubkey with
  | none =>
    rw [UserTable.upsertUserFirstSeen_of_none hfind] at hon
    cases hon
  | some u =>
    rw [UserTable.upsertUserFirstSeen_of_some hfind] at hban hon
    dsimp only at hban hon
    exact ⟨u, rfl, by simp [User.eligible, hban, hon]⟩

/-- After the notices: the limits, and what the message asks for. -/
def limited (sv : Services) (inbound : InboundMessage) (user : User) : Prog Unit := do
  match ← consumeInbound sv inbound with
  | some d => replyThrottled inbound.pubkey d
  | none => route sv inbound user

theorem serve_eq (sv : Services) (inbound : InboundMessage) (user : User) (isNew : Bool) :
    serve sv inbound user isNew =
      if isNew then do
        notifyAdminsNewUser sv (displayOf user.displayName inbound.advName (inbound.pubkey.take 12))
          inbound.pubkey
        limited sv inbound user
      else limited sv inbound user := by
  cases isNew <;> rfl

/-! ## The message as a whole -/

section Message

variable [hP : Op.Receives inbound.pubkey P]
  (hname : ∀ name ∈ askedName sv inbound, Names.validateName sv.py.lower name = none →
    P (.setDisplayName inbound.pubkey name))

include hname

theorem limited_does {user : User}
    (hcmd : user.onboarded = true → ∀ parsed, Commands.parse sv.py inbound.body = some parsed →
      (handleCommand sv inbound parsed).Does P) : (limited sv inbound user).Does P := by
  have hroute : (route sv inbound user).Does P := by
    unfold route
    split
    · exact handleOnboarding_does hname
    · next hon =>
      split
      · exact (answer_runs ..).does
      · next parsed hparse => exact hcmd (by simpa using hon) parsed hparse
  refine .bind consumeInbound_does fun refused => ?_
  split
  · exact replyThrottled_does _
  · exact hroute

theorem serve_does {user : User} {isNew : Bool}
    (hcmd : user.onboarded = true → ∀ parsed, Commands.parse sv.py inbound.body = some parsed →
      (handleCommand sv inbound parsed).Does P) : (serve sv inbound user isNew).Does P := by
  rw [serve_eq]
  split
  · exact .bind (notifyAdminsNewUser_does _) fun _ => limited_does hname hcmd
  · exact limited_does hname hcmd

/-- **A message does what receiving it does, and its command.** -/
theorem handleInbound_does
    (hcmd : ∀ parsed, Commands.parse sv.py inbound.body = some parsed →
      (handleCommand sv inbound parsed).Does P) : (handleInbound sv inbound).Does P := by
  refine does_ite (fun _ => sat_pure trivial) fun _ => ?_
  refine .bind (read_does hP.reads trivial) fun now => ?_
  refine .bind (upsert_does ..) fun (user, isNew) => ?_
  refine .bind (call_does (hP.touches ..)) fun _ => ?_
  exact does_ite (fun _ => sat_pure trivial) fun _ => serve_does hname fun _ => hcmd

end Message

theorem handleCommand_of_dispatch [hP : Op.Admits inbound.pubkey P] {parsed : ParsedCommand}
    (hlog : P (.logCommand inbound.pubkey inbound.body)) (h : (dispatch sv inbound parsed).Does P) :
    (handleCommand sv inbound parsed).Does P := by
  refine .bind (call_does hlog) fun _ => .orElse ?_
  refine h.mono fun r _ => ?_
  cases r with
  | none => exact (answer_runs ..).does
  | some u => trivial

theorem handleCommand_does [hP : Op.Admits inbound.pubkey P] {parsed : ParsedCommand}
    (hlog : P (.logCommand inbound.pubkey inbound.body))
    (hname : ∀ name ∈ parsed.newName, Names.validateName sv.py.lower name = none →
      P (.setDisplayName inbound.pubkey name))
    (hpost : parsed.verb = lit "POST" → ∀ slug body now, P (.addPost slug inbound.pubkey body now))
    (hspecial : ∀ op : Op, op.Special sv inbound.pubkey parsed.verb → P op) :
    (handleCommand sv inbound parsed).Does P :=
  handleCommand_of_dispatch hlog (dispatch_does hname hpost hspecial)

/-- What handling a message may perform: its reception, and the operations of its verb. -/
def OfMessage (sv : Services) (inbound : InboundMessage) (op : Op) : Prop :=
  op.Reception inbound.pubkey ∨ op = .logCommand inbound.pubkey inbound.body ∨
    ∃ parsed, Commands.parse sv.py inbound.body = some parsed ∧
      op.Special sv inbound.pubkey parsed.verb

/-- **A message performs only the operations of its reception and of its verb.** -/
theorem handleInbound_ofMessage : (handleInbound sv inbound).Does (OfMessage sv inbound) := by
  have hreception : Op.Receives inbound.pubkey (Op.Reception inbound.pubkey) := inferInstance
  have : Op.Receives inbound.pubkey (OfMessage sv inbound) := hreception.weaken fun _ => .inl
  exact handleInbound_does (fun _ _ _ => .inl rfl) fun parsed hparse =>
    handleCommand_does (.inr (.inl rfl)) (fun _ _ _ => .inl rfl) (fun _ _ _ _ => .inl rfl)
      fun _ hop => .inr (.inr ⟨parsed, hparse, hop⟩)

/-! ## What a message keeps -/

theorem limited_keeps {I : World → Prop} {user : User}
    (hord : ∀ op : Op, op.Ordinary inbound.pubkey → ∀ w, I w → I (op.run sv.py w).2)
    (hcmd : user.onboarded = true → ∀ parsed, Commands.parse sv.py inbound.body = some parsed →
      (handleCommand sv inbound parsed).Keeps (Op.run sv.py) I) :
    (limited sv inbound user).Keeps (Op.run sv.py) I := by
  have hordinary {α : Type} {m : Prog α} (h : m.Does (Op.Ordinary inbound.pubkey)) :
      m.Keeps (Op.run sv.py) I := h.keeps hord
  have hroute : (route sv inbound user).Keeps (Op.run sv.py) I := by
    unfold route
    split
    · exact hordinary (handleOnboarding_does fun _ _ _ => rfl)
    · next hon =>
      split
      · exact hordinary (answer_runs ..).does
      · next parsed hparse => exact hcmd (by simpa using hon) parsed hparse
  refine .bind (hordinary consumeInbound_does) fun refused => ?_
  split
  · exact hordinary (replyThrottled_does _)
  · exact hroute

section Keeps

variable {I : World → Prop}
  (hrec : ∀ op : Op, op.Reception inbound.pubkey → ∀ w, I w → I (op.run sv.py w).2)

include hrec

theorem keeps_of_reception {α : Type} {m : Prog α} (h : m.Does (Op.Reception inbound.pubkey)) :
    m.Keeps (Op.run sv.py) I :=
  h.keeps hrec

theorem serve_keeps {user : User} {isNew : Bool}
    (hcmd : user.onboarded = true → ∀ parsed, Commands.parse sv.py inbound.body = some parsed →
      (handleCommand sv inbound parsed).Keeps (Op.run sv.py) I) :
    (serve sv inbound user isNew).Keeps (Op.run sv.py) I := by
  have hlimits := limited_keeps (fun op hop => hrec op hop.reception) hcmd
  rw [serve_eq]
  split
  · exact .bind (keeps_of_reception hrec (notifyAdminsNewUser_does ..)) fun _ => hlimits
  · exact hlimits

/-- What the operations of the reception keep, and the command of an admitted sender keeps,
a message keeps. -/
theorem handleInbound_keeps {w : World}
    (hcmd : Admitted sv w inbound → ∀ parsed, Commands.parse sv.py inbound.body = some parsed →
      (handleCommand sv inbound parsed).Keeps (Op.run sv.py) I) (hw : I w) :
    I ((handleInbound sv inbound).run (Op.run sv.py) w).2 := by
  by_cases hself : inbound.pubkey = sv.py.lower sv.selfPubkey
  · unfold handleInbound
    rw [if_pos hself]
    exact hw
  · have hreceived : I (received w inbound) :=
      received_induction sv.py (Op.Reception inbound.pubkey) hrec hw
    rw [run_handleInbound w hself]
    split
    · exact hreceived
    · next hban =>
      refine serve_keeps hrec (fun hon => hcmd ?_) _ hreceived
      exact admitted_of_sender hself (by simpa using hban) hon

end Keeps

end Dispatcher

end Bbs
