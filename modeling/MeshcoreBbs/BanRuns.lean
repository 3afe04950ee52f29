import MeshcoreBbs.Bans
import MeshcoreBbs.EventPump
import MeshcoreBbs.Lib.Rely
import MeshcoreBbs.Notices

/-!
# Runs without rows for banned users

The notices of a new user and the job that notifies of mail do not look at the flag.  In the runs in
which no such notice begins when those it goes to are banned, and nobody is banned while the job is in
the middle of a notice to him (`Spares`), no row is ever inserted for a user who is banned, however
the requests take turns (`unsent_while_banned`).
-/

namespace Bbs

open Coroutine

namespace Bans

/-! ## The condition -/

/-- The notice to `pk` that `should_notify` has let through is not at its end. -/
def Underway (pk : Pubkey) (m : Prog Unit) : Prop :=
  ∃ (n : Prog Unit) (f : Option Unit → Prog Unit), m = n.andThen f ∧ (∀ r, n ≠ .finish r) ∧
    Relation.ReflTransGen (fun m n => Next n m) (Notices.granted pk) n

/-- If the program is at the beginning of a notice that does not look at the flag, none of those it
goes to is banned. -/
def Clear (sv : Services) : Request → Prog Unit → World → Prop
  | .inbound msg, m, w => ∀ display f,
      m = (Dispatcher.notifyAdminsNewUser sv display msg.pubkey).andThen f →
      ∀ admin ∈ w.cfg.bbs.adminPubkeys, sv.py.lower admin ≠ sv.py.lower msg.pubkey →
        w.isBanned (sv.py.lower admin) = false
  | .mailNotify, m, w => ∀ pk now k, m = .await (.setLastNotifyAt pk now) k → w.isBanned pk = false
  | _, _, _ => True

/-- The task that takes its turn. -/
def turnOf (p : Pump) : PumpAct → Option Nat
  | .pump => p.handling
  | .resume i => some i
  | _ => none

/-- No notice that does not look at the flag begins to a banned user, and nobody is banned in the
middle of one. -/
structure Spares (sv : Services) (p : Pump) (a : PumpAct) : Prop where
  begins : ∀ i r m, turnOf p a = some i → p.tasks.tasks[i]? = some (r, m) →
    Clear sv r m p.tasks.state
  bans : ∀ i r pk reason k, turnOf p a = some i →
    p.tasks.tasks[i]? = some (r, .await (.setBanned pk true reason) k) →
      ∀ m, (.mailNotify, m) ∈ p.tasks.tasks → ¬ Underway pk m

/-! ## The programs -/

/-- What a request relies on while it waits. -/
def Rely : Request → Prog Unit → World → World → Prop
  | .inbound _, _, s, t => SameBans s t
  | .mailNotify, m, s, t => ∀ pk, Underway pk m → s.isBanned pk = false → t.isBanned pk = false
  | _, _, _, _ => True

variable {sv : Services} {r : Request} {m : Prog Unit} {w : World} {pk : Pubkey}

theorem SameBans.rely {s t : World} (h : SameBans s t) : Rely r m s t := by
  cases r with
  | inbound msg => exact h
  | mailNotify => exact fun pk _ hs => (h pk).trans hs
  | _ => trivial

theorem rely_trans {s t u : World} (h : Rely r m s t) (h' : Rely r m t u) : Rely r m s u := by
  cases r with
  | inbound msg => exact SameBans.trans h h'
  | mailNotify => exact fun pk hpk hs => h' pk hpk (h pk hpk hs)
  | _ => trivial

/-- The request keeps its promise in the runs whose steps are clear. -/
abbrev Trusts (sv : Services) (r : Request) (m : Prog Unit) (w : World) : Prop :=
  Coroutine.Trusts (Op.run sv.py) (Rely r) (Clear sv r) (Guarantee r) m w

/-! ### The job -/

/-- Rows to `pk` only, and no ban. -/
def OnlyTo (pk : Pubkey) : Op → Prop
  | .enqueueOutbound _ row => row.toPubkey = pk
  | .setBanned .. => False
  | _ => True

theorem onlyTo_of_reads (op : Op) (h : op.Reads) : OnlyTo pk op := by
  cases op <;> trivial

theorem granted_does : (Notices.granted pk).Does (OnlyTo pk) :=
  .bind (read_does onlyTo_of_reads trivial) fun _ =>
    (enqueueReply_runs onlyTo_of_reads fun _ _ => rfl).does

/-- A notice goes to somebody who was not banned when it began, and is not before its end. -/
theorem granted_trusts {f : Option Unit → Prog Unit} (hf : ∀ r w, Trusts sv .mailNotify (f r) w)
    {n : Prog Unit} (hleft : Relation.ReflTransGen (fun m n => Next n m) (Notices.granted pk) n)
    (hdoes : n.Does (OnlyTo pk)) (hw : w.isBanned pk = false) :
    Trusts sv .mailNotify (n.andThen f) w := by
  induction n generalizing w with
  | finish r => exact hf r w
  | await op k ih =>
    obtain ⟨hop, hsome, hnone⟩ := hdoes
    refine trusts_await fun t hR _ => ?_
    have ht : t.isBanned pk = false := hR pk ⟨.await op k, f, rfl, nofun, hleft⟩ hw
    have hkeep : (op.run sv.py t).2.isBanned pk = false := by
      refine (Op.run_isBanned (fun p banned reason heq => ?_) pk).trans ht
      rw [heq] at hop
      exact hop
    refine ⟨?_, ih _ (hleft.tail (.after op k _)) ?_ hkeep⟩
    · cases op with
      | enqueueOutbound origin row =>
        have hto : row.toPubkey = pk := hop
        show t.isBanned row.toPubkey = false
        rw [hto]
        exact ht
      | setBanned => cases hop
      | _ => trivial
    · cases hr : (op.run sv.py t).1 with
      | none => exact hnone (Op.mayRaise_of_run hr)
      | some a => exact hsome a

theorem read_passes {op : Op} (hop : op.Reads) : (call op).Passes (Op.run sv.py)
    (Rely .mailNotify) (Clear sv .mailNotify) (Guarantee .mailNotify) := by
  refine Sat.passes (call_does hop) (fun _ _ => Op.mayRaise_of_run) fun op w hop => ?_
  cases op <;> trivial

theorem notice_passes (pk : Pubkey) (now : ℚ) : (Notices.notice sv pk now).Passes (Op.run sv.py)
    (Rely .mailNotify) (Clear sv .mailNotify) (Guarantee .mailNotify) := by
  intro f hf w
  refine trusts_await fun t _ _ => ⟨trivial, ?_⟩
  show Trusts sv .mailNotify (((if sv.due (t.lastNotifyAt pk) now then do
      call (.setLastNotifyAt pk now)
      pure true
    else pure false) >>= fun notify => if !notify then pure () else Notices.granted pk : Prog Unit).andThen f) t
  cases sv.due (t.lastNotifyAt pk) now with
  | false => exact hf (some ()) t
  | true =>
    refine trusts_await fun u _ hclear => ⟨trivial, ?_⟩
    exact granted_trusts hf .refl granted_does (hclear pk now _ rfl)

theorem mailNotifyJob_trusts (w : World) : Trusts sv .mailNotify (Scheduler.mailNotifyJob sv) w := by
  refine Passes.trusts (Passes.bind (read_passes ?_) fun recipients =>
    Passes.bind (read_passes ?_) fun now => ?_) w
  · trivial
  · trivial
  refine passes_forEach (fun pk => Passes.bind (read_passes ?_) fun user => ?_) recipients
  · trivial
  split
  · exact passes_finish _
  · split
    · exact passes_finish _
    · exact notice_passes pk _

/-! ### Messages -/

section Inbound

variable {msg : InboundMessage}

/-- The sender, as he is found or inserted, is banned if his row says so. -/
theorem upsert_safe (now : Int) (w : World) :
    (Dispatcher.upsertUserFirstSeen msg.pubkey msg.advName now).Safe (Op.run sv.py) SameBans
      (Guarantee (.inbound msg))
      (fun r t => ∀ sender, r = some sender → t.isBanned msg.pubkey = sender.1.banned) w := by
  have hfound {t : World} {u : User} (h : t.users.getUser msg.pubkey = some u) :
      t.isBanned msg.pubkey = u.banned := by
    rw [World.isBanned, h]
    rfl
  refine .bind (safe_perform fun t _ => ⟨trivial, ?_⟩)
  dsimp only [Op.run, Option.elim_some]
  cases hget : t.users.getUser msg.pubkey with
  | some existing =>
    refine .bind (safe_perform fun u hu => ⟨trivial, fun sender hsender => ?_⟩)
    cases hsender
    exact (sameBans_run (by simp) _).trans ((hu _).trans (hfound hget))
  | none =>
    refine .bind (safe_perform fun u _ => ⟨trivial, ?_⟩)
    cases ((Op.insertUser msg.pubkey msg.advName now).run sv.py u).1 with
    | none =>
      intro sender hsender
      cases hsender
    | some _ =>
      refine .bind (safe_perform fun v _ => ⟨trivial, ?_⟩)
      dsimp only [Op.run, Option.elim_some]
      cases hget' : v.users.getUser msg.pubkey with
      | none =>
        intro sender hsender
        cases hsender
      | some user =>
        intro sender hsender
        cases hsender
        exact hfound hget'

theorem Serves.trusts {Q : Unit → World → Prop} (h : Serves sv msg m Q w) :
    Trusts sv (.inbound msg) m w := by
  rw [← andThen_finish m]
  exact Safe.trusts h (fun _ _ _ h => h) fun _ _ _ => trivial

/-- The notices of a new user, begun when those they go to are not banned. -/
theorem notifyAdmins_trusts {display : Text} {user : User} (hw : w.isBanned msg.pubkey = false) :
    Trusts sv (.inbound msg) (do
      Dispatcher.notifyAdminsNewUser sv display msg.pubkey
      Dispatcher.limited sv msg user) w := by
  rw [bind_eq_andThen]
  refine trusts_await fun t hR hclear => ⟨trivial, ?_⟩
  have hclear := hclear display _ rfl
  have ht : t.isBanned msg.pubkey = false := (hR _).trans hw
  let admins := (t.cfg.bbs.adminPubkeys.map sv.py.lower).filter fun pk => pk ≠ sv.py.lower msg.pubkey
  have hfree : Unbanned (msg.pubkey :: admins) t := by
    refine fun pk hpk => ?_
    rcases List.mem_cons.mp hpk with rfl | hpk
    · exact ht
    · obtain ⟨hpk, hne⟩ := List.mem_filter.mp hpk
      obtain ⟨admin, hadmin, rfl⟩ := List.mem_map.mp hpk
      exact hclear admin hadmin (of_decide_eq_true hne)
  have hdoes : Prog.Does (forEach (fun adminPk => if sv.py.lower adminPk ≠ sv.py.lower msg.pubkey then
      Dispatcher.push .newUser (sv.py.lower adminPk) (lit "New user: " ++ display ++ lit " (" ++
        msg.pubkey.take 12 ++ lit ")") else pure ()) t.cfg.bbs.adminPubkeys)
      (Harmless (msg.pubkey :: admins)) := by
    refine Prog.Runs.does (sat_forEach fun admin hadmin => ?_)
    split
    · next hne =>
      refine push_harmless (List.mem_cons_of_mem _ ?_) ..
      exact List.mem_filter.mpr ⟨List.mem_map_of_mem hadmin, decide_eq_true hne⟩
    · exact sat_pure rfl
  refine Safe.trusts (serves_harmless hdoes hfree) (fun _ _ _ h => h) fun r u hu => ?_
  cases r with
  | none => trivial
  | some _ =>
    exact (limited_serves user hu.1).trusts

theorem handleInbound_trusts (msg : InboundMessage) (w : World) :
    Trusts sv (.inbound msg) (Dispatcher.handleInbound sv msg) w := by
  unfold Dispatcher.handleInbound
  split
  · trivial
  · refine Safe.trusts_bind (S := SameBans) (safe_perform fun t _ => ⟨trivial, fun now _ => ?_⟩)
      fun _ _ _ h => h
    refine Safe.trusts_bind ((upsert_safe ⌊now⌋ t).mono fun r u hu sender hsender => ?_)
      fun _ _ _ h => h
    have hsender := hu sender hsender
    obtain ⟨user, isNew⟩ := sender
    refine Safe.trusts_bind (S := SameBans) (safe_perform fun v hv => ⟨trivial, fun _ _ => ?_⟩)
      fun _ _ _ h => h
    have hban : World.isBanned ((Op.touchUser msg.pubkey ⌊now⌋ msg.hops).run sv.py v).2 msg.pubkey =
        user.banned := (sameBans_run (by simp) _).trans ((hv _).trans hsender)
    split
    · trivial
    · next hfree =>
      have hfree := hban.trans (by simpa using hfree)
      rw [Dispatcher.serve_eq]
      split
      · exact notifyAdmins_trusts hfree
      · exact (limited_serves user hfree).trusts

end Inbound

/-- No other request enqueues rows or bans anybody. -/
theorem request_trusts (r : Request) (w : World) : Trusts sv r (r.prog sv) w := by
  rcases r.inbound_or with ⟨msg, rfl⟩ | hr
  · exact handleInbound_trusts msg w
  · by_cases hnotify : r = .mailNotify
    · rw [hnotify]
      exact mailNotifyJob_trusts w
    · refine Passes.trusts (Sat.passes (request_does sv hr) (fun _ _ => Op.mayRaise_of_run) ?_) w
      intro op w hop
      cases op with
      | enqueueOutbound => exact absurd hop.1 hnotify
      | setBanned => cases hop
      | _ => trivial

/-! ## Runs -/

theorem toBanned_run {py : Py} {op : Op} (hw : ∀ e ∈ w.record, e.toBanned = false)
    (h : Guarantee r op w) : ∀ e ∈ (op.run py w).2.record, e.toBanned = false := by
  rw [Op.run_record]
  cases op with
  | enqueueOutbound origin row => exact List.forall_mem_cons.mpr ⟨h, hw⟩
  | logCommand | sendAdvert => exact List.forall_mem_cons.mpr ⟨rfl, hw⟩
  | _ => exact hw

structure Sparing (sv : Services) (w : World) (p : Pump) : Prop where
  order : Pump.InOrder sv w p
  trusting : Pool.Trusting (Op.run sv.py) Rely (Clear sv) Guarantee p.tasks
  record : ∀ e ∈ p.tasks.state.record, e.toBanned = false

variable {p p' : Pump} {b : PumpAct}

/-- What a task in its turn does to what the others rely on. -/
theorem Sparing.rely_resume (h : Sparing sv w p) (hspares : Spares sv p b) {i j : Nat}
    {r r' : Request} {op op' : Op} {k : Option op.Res → Prog Unit} {k' : Option op'.Res → Prog Unit}
    (hb : turnOf p b = some j) (hj : p.tasks.tasks[j]? = some (r', .await op' k')) (hij : i ≠ j)
    (hi : p.tasks.tasks[i]? = some (r, .await op k)) :
    Rely r (.await op k) p.tasks.state (op'.run sv.py p.tasks.state).2 := by
  by_cases hset : ∃ pk banned reason, op' = .setBanned pk banned reason
  · obtain ⟨pk, banned, reason, rfl⟩ := hset
    obtain ⟨msg, rfl⟩ := h.trusting.guarantee hj (sameBans_refl _).rely (hspares.begins j _ _ hb hj)
    have hawaited {i : Nat} {msg : InboundMessage} {op : Op} {k : Option op.Res → Prog Unit}
        (hi : p.tasks.tasks[i]? = some (.inbound msg, .await op k)) : p.handling = some i := by
      rcases h.order.ended i _ _ hi rfl with hawait | ⟨res, heq⟩
      · exact hawait
      · cases heq
    cases r with
    -- the pump awaits one message at a time
    | inbound msg' => exact absurd (Option.some.inj ((hawaited hi).symm.trans (hawaited hj))) hij
    | mailNotify =>
      refine fun pk' hunder hfree => Op.isBanned_setBanned (fun hbanned heq => ?_) hfree
      subst hbanned heq
      exact hspares.bans j _ _ reason k' hb hj _ (List.mem_of_getElem? hi) hunder
    | _ => trivial
  · push Not at hset
    exact (sameBans_run hset).rely

/-- A step of the tasks, by the pump's handler or by others. -/
theorem Sparing.of_tasks (h : Sparing sv w p) (hspares : Spares sv p b)
    {a : Pool.Act Request Outside} {tasks : Mailbox.Tasks} (hs : Mailbox.step sv p.tasks a = some tasks)
    (hturn : ∀ i, a = .resume i → turnOf p b = some i)
    (hspawn : ∀ r, a = .spawn r → r.ofPump = false) : Sparing sv w { p with tasks := tasks } := by
  refine ⟨h.order.of_tasks hs hspawn, ?_, ?_⟩
  · refine h.trusting.step (fun _ _ s => (sameBans_refl s).rely) (fun _ _ _ _ _ => rely_trans)
      request_trusts hs (fun i r m ha hi => hspares.begins i r m (hturn i ha) hi) fun i r op k ha hi => ?_
    cases Pool.step_cases hs with
    | spawn => exact (sameBans_refl _).rely
    | outside he =>
      have hstore := (Outside.frame he).store
      refine SameBans.rely fun pk => ?_
      rw [World.isBanned, World.isBanned, hstore]
    | resume hj =>
      exact h.rely_resume hspares (hturn _ rfl) hj (fun hij => ha (by rw [hij])) hi
  · cases Pool.step_cases hs with
    | spawn => exact h.record
    | outside he =>
      show ∀ e ∈ World.record _, e.toBanned = false
      rw [(Outside.frame he).record]
      exact h.record
    | resume hj =>
      exact toBanned_run h.record (h.trusting.guarantee hj (sameBans_refl _).rely
        (hspares.begins _ _ _ (hturn _ rfl) hj))

theorem sparing_take (h : Sparing sv w p) (hidle : p.handling = none) {event : TransportEvent}
    {events : List TransportEvent} (hevents : p.events = event :: events) :
    Sparing sv w (p.take sv event events) := by
  have horder := Pump.inOrder_take h.order hidle hevents
  cases hreq : event.request with
  | none =>
    have htasks : (p.take sv event events).tasks = p.tasks := by simp only [Pump.take, hreq]
    exact ⟨horder, htasks ▸ h.trusting, htasks ▸ h.record⟩
  | some r =>
    have htasks : (p.take sv event events).tasks =
        ⟨p.tasks.state, p.tasks.tasks ++ [(r, r.prog sv)]⟩ := by simp only [Pump.take, hreq]
    refine ⟨horder, ?_, ?_⟩
    · rw [htasks]
      intro i r' m hi
      rw [List.getElem?_append] at hi
      split at hi
      · exact h.trusting i r' m hi
      · cases List.eq_of_mem_singleton (List.mem_of_getElem? hi)
        exact request_trusts r _
    · rw [htasks]
      exact h.record

theorem sparing_step (h : Sparing sv w p) (hspares : Spares sv p b) (hs : p.step sv b = some p') :
    Sparing sv w p' := by
  cases Pump.step_cases hs with
  | put => exact ⟨Pump.inOrder_step h.order .put, h.trusting, h.record⟩
  | take hidle hevents => exact sparing_take h hidle hevents
  | done hhandling hi => exact ⟨Pump.inOrder_step h.order (.done hhandling hi), h.trusting, h.record⟩
  | handle hhandling hi htasks =>
    refine h.of_tasks hspares htasks (fun j hj => ?_) (by simp)
    cases hj
    exact hhandling
  | other htasks _ hspawn _ hturn =>
    refine h.of_tasks hspares htasks (fun j hj => ?_) hspawn
    rw [hturn j hj]
    rfl

theorem sparing_start (hfresh : Process.Fresh w) (metrics : Option Metrics) :
    Sparing sv w (Pump.start w metrics) where
  order := Pump.inOrder_start sv w metrics
  trusting _ _ _ hi := by simp [Pump.start] at hi
  record := by simp [Pump.start, hfresh.record]

/-- **Nothing is enqueued for a banned user**, in any run that spares them: however messages, jobs and
dashboard requests take turns, no row was inserted while the user it goes to was banned. -/
theorem unsent_while_banned {metrics : Option Metrics} (hfresh : Process.Fresh w)
    (hrun : Machine.Run (Pump.step sv) (Spares sv) (Pump.start w metrics) p) :
    ∀ e ∈ p.tasks.state.record, e.toBanned = false :=
  (hrun.invariant (fun _ _ _ h hspares hs => sparing_step h hspares hs)
    (sparing_start hfresh metrics)).record

/-! ## Samples -/

/-- `Spares` as a check. -/
def sparesNow (sv : Services) (p : Pump) (b : PumpAct) : Bool :=
  match (turnOf p b).bind fun i => p.tasks.tasks[i]? with
  | some (.inbound msg, .await .config _) => p.tasks.state.cfg.bbs.adminPubkeys.all fun admin =>
      sv.py.lower admin = sv.py.lower msg.pubkey || !p.tasks.state.isBanned (sv.py.lower admin)
  | some (.mailNotify, .await (.setLastNotifyAt pk _) _) => !p.tasks.state.isBanned pk
  | some (_, .await (.setBanned _ true _) _) => p.tasks.tasks.all fun
      | (.mailNotify, .await ..) => false
      | _ => true
  | _ => true

theorem spares_of_sparesNow (h : sparesNow sv p b = true) : Spares sv p b := by
  constructor
  · intro i r m hb hi
    simp only [sparesNow, hb, Option.bind_some, hi] at h
    cases r with
    | inbound msg =>
      rintro display f rfl admin hadmin hne
      have hadmin := List.all_eq_true.mp h admin hadmin
      simpa [hne] using hadmin
    | mailNotify =>
      rintro pk now k rfl
      simpa using h
    | _ => trivial
  · rintro i r pk reason k hb hi m hm ⟨n, f, rfl, hn, -⟩
    simp only [sparesNow, hb, Option.bind_some, hi] at h
    have hfree := List.all_eq_true.mp h _ hm
    cases n with
    | finish res => exact hn res rfl
    | await op k => cases hfree

/-- A message comes from `pk`, and the pump goes on `turns` times. -/
def said (pk : Pubkey) (body : String) (turns : Nat) : List PumpAct :=
  .put (Pump.messageFrom pk body) :: List.replicate turns .pump

/-- `bob` has mail that he has not read. -/
def mailBob : List PumpAct :=
  said (lit "aa") "hi" 13 ++ said (lit "aa") "NAME ann" 13 ++ said (lit "bb") "hi" 13 ++
    said (lit "bb") "NAME bob" 13 ++ [.outside (.reload Process.asciiConfig)] ++
    said (lit "aa") "SEND bob hi" 22

/-- The job notifies `bob`, then `ann` bans him, somebody new comes, and the job runs again. -/
theorem unsent_to_bob : ∃ p, Machine.Run (Pump.step Process.asciiServices)
      (Spares Process.asciiServices) (Pump.start (World.start 100) none) p ∧
    p.tasks.state.isBanned (lit "bb") = true ∧ ∀ e ∈ p.tasks.state.record, e.toBanned = false := by
  obtain ⟨p, hrun, hban⟩ := Machine.exists_run (Pump.step Process.asciiServices)
    (sparesNow Process.asciiServices) (p := fun p => p.tasks.state.isBanned (lit "bb"))
    (mailBob ++ [.outside (.wait 720)] ++ said (lit "bb") "HELP" 11 ++
      .spawn .mailNotify :: List.replicate 10 (.resume 6) ++ said (lit "aa") "ADMIN BAN bb" 14 ++
      said (lit "cc") "hi" 17 ++ .spawn .mailNotify :: List.replicate 4 (.resume 9))
    (s := Pump.start (World.start 100) none) (by decide +kernel)
  have hspares := hrun.mono fun _ _ => spares_of_sparesNow
  exact ⟨p, hspares, hban, unsent_while_banned (Process.fresh_start 100) hspares⟩

/-- Ten minutes after the ban a packet of `bob` is overheard, and the job notifies him of the mail. -/
theorem sent_while_banned : ∃ p, Machine.Run (Pump.step Process.asciiServices) (fun _ _ => True)
      (Pump.start (World.start 100) none) p ∧
    p.tasks.state.isBanned (lit "bb") = true ∧ ∃ e ∈ p.tasks.state.record, e.toBanned = true := by
  obtain ⟨p, hrun, hp⟩ := Machine.exists_run (Pump.step Process.asciiServices) (fun _ _ => true)
    (p := fun p => p.tasks.state.isBanned (lit "bb") && p.tasks.state.record.any Entry.toBanned)
    (mailBob ++ [.outside (.wait 110)] ++ said (lit "aa") "ADMIN BAN bb" 14 ++
      [.outside (.wait 720), .put { type := .meshActivity, pubkey := some (lit "bb") }] ++
      List.replicate 4 .pump ++ .spawn .mailNotify :: List.replicate 10 (.resume 7))
    (s := Pump.start (World.start 100) none) (by decide +kernel)
  rw [Bool.and_eq_true, List.any_eq_true] at hp
  exact ⟨p, hrun.mono fun _ _ _ => trivial, hp⟩

end Bans

end Bbs
