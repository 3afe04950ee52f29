import MeshcoreBbs.Limits
import MeshcoreBbs.Privileges
import MeshcoreBbs.UserNames

/-!
# The gates before a command

What a message does before its command is `Harmless`.  So a message that changes more has come
through the gates, and the parties of every mail have names (`gates_sound`).
-/

namespace Bbs

open Coroutine Dispatcher RateLimiter

namespace Gates

/-! ## Before the command -/

/-- What a message of `pk` may do before its command: nothing privileged, nothing to mail and
posts, and to no other user's row. -/
def Harmless (pk : Pubkey) : Op → Prop
  | .seeUser pk' .. | .insertUser pk' .. | .touchUser pk' .. | .setDisplayName pk' _
  | .markMotdSent pk' => pk' = pk
  | .touchUserActivity .. | .addPost .. | .deletePost _ | .addMail .. | .markMailRead ..
  | .deleteMail .. | .purgeOldReadMail _ => False
  | op => op.Unprivileged

instance (pk : Pubkey) : Op.Receives pk (Harmless pk) where
  reads op hop := by cases op <;> first | exact id | cases hop
  answers _ _ := id
  audits _ _ _ := id
  rates _ _ _ := id
  motd := rfl
  mails _ _ := id
  mail _ := id
  sees _ _ := rfl
  inserts _ _ := rfl
  touches _ _ := rfl
  notices _ := id

/-- What the gates guard is the same. -/
structure Untouched (pk : Pubkey) (w w' : World) : Prop extends SameRule w w' where
  mail : w'.mail = w.mail
  posts : w'.posts = w.posts
  others : ∀ pk', pk' ≠ pk → w'.users.getUser pk' = w.users.getUser pk'

variable {py : Py} {op : Op} {w w' w₀ : World} {pk : Pubkey}

theorem Untouched.refl (pk : Pubkey) (w : World) : Untouched pk w w :=
  ⟨.refl w, rfl, rfl, fun _ _ => rfl⟩

theorem Harmless.unprivileged (h : Harmless pk op) : op.Unprivileged := by
  cases op <;> first | exact id | exact h

theorem run_posts (h : Harmless pk op) : (op.run py w).2.posts = w.posts := by
  have hstep := op.run_posts py w
  generalize (op.run py w).2.posts = posts at hstep ⊢
  cases hstep with
  | same hsame => exact hsame
  | insert | delete => cases h
  | clear => exact absurd trivial h

theorem run_mail (h : Harmless pk op) : (op.run py w).2.mail = w.mail := by
  cases op with
  | addMail | markMailRead | deleteMail | purgeOldReadMail => cases h
  | insertUser =>
    rw [Op.run]
    split <;> rfl
  | _ => first | rfl | exact Op.check_frame (fun w => w.mail) rfl

theorem getUser_of_update {t t' : UserTable} {f : User → User}
    (hrows : t'.rows = t.rows.map (updateRow pk f)) (hf : ∀ u, (f u).pubkey = u.pubkey) {pk' : Pubkey}
    (hpk : pk' ≠ pk) : t'.getUser pk' = t.getUser pk' := by
  rw [UserTable.getUser_of_map hrows (UserTable.updateRow_pubkey hf pk)]
  cases hfind : t.getUser pk' with
  | none => rfl
  | some u =>
    have hu : u.pubkey = pk' := by simpa using List.find?_some hfind
    rw [Option.map_some, updateRow, if_neg (hu ▸ hpk)]

theorem run_others (h : Harmless pk op) {pk' : Pubkey} (hpk : pk' ≠ pk) :
    (op.run py w).2.users.getUser pk' = w.users.getUser pk' := by
  cases op with
  | seeUser | touchUser | markMotdSent =>
    cases h
    refine getUser_of_update rfl (fun u => ?_) hpk
    rfl
  | insertUser _ advName now =>
    cases h
    rw [Op.run]
    split
    · next hnone =>
      have hrows : (w.users.insertStub pk advName now hnone).rows =
        w.users.rows ++ [{ pubkey := pk, advName := advName, firstSeen := now, lastSeen := now }] := rfl
      unfold UserTable.getUser
      rw [hrows, List.find?_append, List.find?_singleton, if_neg (by simpa using hpk.symm),
        Option.or_none]
    · rfl
  | setDisplayName =>
    cases h
    rw [Op.run]
    dsimp only
    unfold UserTable.setDisplayName
    split
    · refine getUser_of_update rfl (fun u => ?_) hpk
      rfl
    · rfl
  | addMail | touchUserActivity => cases h
  | setBanned => exact absurd trivial h
  | _ => first | rfl | exact Op.check_frame (fun w => w.users.getUser pk') rfl

theorem Untouched.step (hw : Untouched pk w₀ w) (h : Harmless pk op) :
    Untouched pk w₀ (op.run py w).2 where
  toSameRule := hw.toSameRule.step h.unprivileged
  mail := (run_mail h).trans hw.mail
  posts := (run_posts h).trans hw.posts
  others pk' hpk := (run_others h hpk).trans (hw.others pk' hpk)

/-! ## The gates -/

variable {sv : Services} {msg : InboundMessage}

/-- Both inbound limits have room. -/
def HasRoom (w : World) (msg : InboundMessage) : Prop :=
  ∀ limit ∈ inboundLimits w.cfg.limits msg.hops,
    (consume limit.2 w.now (w.rates msg.pubkey limit.1)).1.allowed = true

/-- The message comes through all gates: its sender is not the BBS, has a name and is not banned,
and its limits have room or do not count. -/
structure Passes (sv : Services) (w : World) (msg : InboundMessage) : Prop where
  other : msg.pubkey ≠ sv.py.lower sv.selfPubkey
  user : ∃ u, w.users.getUser msg.pubkey = some u ∧ u.banned = false ∧ u.onboarded = true
  room : sv.isAdmin msg.pubkey = true ∨ msg.hops = some 0 ∨ HasRoom w msg

theorem run_consumeInbound (hadmin : sv.isAdmin msg.pubkey = false) (hhops : msg.hops ≠ some 0)
    (w : World) : (consumeInbound sv msg).run (Op.run sv.py) w =
      (some (consumeWindows w.now (inboundLimits w.cfg.limits msg.hops) (w.rates msg.pubkey)).1,
        { w with
          rates := Function.update w.rates msg.pubkey
            (consumeWindows w.now (inboundLimits w.cfg.limits msg.hops) (w.rates msg.pubkey)).2 }) := by
  unfold consumeInbound
  rw [if_pos (by simp [hadmin, hhops])]
  exact (run_bind_of_some (run_perform ..) _).trans (run_consumeAll ..)

theorem hasRoom_iff : HasRoom w msg ↔ (consumeWindows w.now (inboundLimits w.cfg.limits msg.hops)
    (w.rates msg.pubkey)).1 = none := by
  refine (consumeWindows_eq_none_iff ?_).symm
  simp only [inboundLimits, List.map_cons, List.map_nil]
  decide

/-- A message of a user with a name who is not banned comes to its limits. -/
theorem leads_limited {P : Op → Prop} [hP : Op.Receives msg.pubkey P]
    (hself : msg.pubkey ≠ sv.py.lower sv.selfPubkey) {u : User}
    (hu : w.users.getUser msg.pubkey = some u) (hban : u.banned = false) :
    (handleInbound sv msg).Leads (Op.run sv.py) P w (limited sv msg u) (received w msg) := by
  have hleads : (handleInbound sv msg).Leads (Op.run sv.py) P w _ (received w msg) :=
    leads_received w hself
  rw [sender_of_some hu, if_neg (by simp [hban]), serve_eq, if_neg Bool.false_ne_true] at hleads
  exact hleads

/-- **A message that does not pass does nothing but what it may do before its command.** -/
theorem performs_stopped {P : Op → Prop} [hP : Op.Receives msg.pubkey P]
    (hname : ∀ name, P (.setDisplayName msg.pubkey name)) (h : ¬ Passes sv w msg) :
    ∀ op ∈ (handleInbound sv msg).trace (Op.run sv.py) w, P op := by
  by_cases hself : msg.pubkey = sv.py.lower sv.selfPubkey
  · unfold handleInbound
    rw [if_pos hself]
    exact List.forall_mem_nil _
  by_cases hban : (sender w msg).1.banned = true
  · refine (leads_received w hself).forall_trace ?_
    rw [if_pos hban]
    exact List.forall_mem_nil _
  have hban : (sender w msg).1.banned = false := by simpa using hban
  by_cases hon : (sender w msg).1.onboarded = true
  · obtain ⟨-, u, hfind, -⟩ := admitted_of_sender hself hban hon
    rw [sender_of_some hfind] at hban hon
    have hroom (hpass : sv.isAdmin msg.pubkey = true ∨ msg.hops = some 0 ∨ HasRoom w msg) : False :=
      h ⟨hself, ⟨u, hfind, hban, hon⟩, hpass⟩
    have hadmin : sv.isAdmin msg.pubkey = false := by simpa using fun hadmin => hroom (.inl hadmin)
    have hrun := run_consumeInbound hadmin (fun hhops => hroom (.inr (.inl hhops)))
      (received w msg)
    have hconsume : (consumeInbound sv msg).Does P := consumeInbound_does
    refine (leads_limited hself hfind hban).forall_trace ?_
    refine (leads_bind hrun (hconsume.performs sv.py _)).forall_trace ?_
    cases hrefused : (consumeWindows (received w msg).now
      (inboundLimits (received w msg).cfg.limits msg.hops) ((received w msg).rates msg.pubkey)).1 with
    | none => exact absurd (hasRoom_iff.mpr hrefused) fun hlimits => hroom (.inr (.inr hlimits))
    | some d => exact (replyThrottled_does d).performs sv.py _
  · refine (leads_received w hself).forall_trace ?_
    rw [if_neg (by simp [hban])]
    exact (serve_does (fun name _ _ => hname name) fun hon' => absurd hon' hon).performs sv.py _

/-- **A message that does not pass leaves everything guarded as it was.** -/
theorem handleInbound_untouched (h : ¬ Passes sv w msg) :
    Untouched msg.pubkey w ((handleInbound sv msg).run (Op.run sv.py) w).2 :=
  run_keeps (fun _ _ hop hw => hw.step hop)
    (performs_stopped (P := Harmless msg.pubkey) (fun _ => rfl) h) (.refl _ w)

/-- Limits that do not count, or have room, let the message through. -/
theorem run_consumeInbound_of_room
    (h : sv.isAdmin msg.pubkey = true ∨ msg.hops = some 0 ∨ HasRoom w msg) : ∃ rates,
    (consumeInbound sv msg).run (Op.run sv.py) w = (some none, { w with rates := rates }) ∧
    ∀ pk bucket, ¬ Op.InboundBucket bucket → rates pk bucket = w.rates pk bucket := by
  by_cases hfree : sv.isAdmin msg.pubkey = true ∨ msg.hops = some 0
  · refine ⟨w.rates, ?_, fun _ _ _ => rfl⟩
    unfold consumeInbound
    rw [if_neg (by simpa [or_iff_not_imp_left] using hfree)]
    rfl
  · obtain ⟨hadmin, hhops⟩ := not_or.mp hfree
    have hroom : HasRoom w msg := (h.resolve_left hadmin).resolve_left hhops
    have hother : sv.isAdmin msg.pubkey = false := by simpa using hadmin
    have hrun := run_consumeInbound hother hhops w
    rw [hasRoom_iff.mp hroom] at hrun
    refine ⟨_, hrun, fun pk bucket hbucket => ?_⟩
    by_cases hpk : pk = msg.pubkey
    · rw [hpk, Function.update_self]
      refine consumeWindows_of_notMem fun hmem => hbucket ?_
      simp only [inboundLimits, List.map_cons, List.map_nil, List.mem_cons, List.not_mem_nil,
        or_false] at hmem
      rcases hmem with hmem | hmem
      · exact .inl hmem
      · exact .inr (.inl hmem)
    · rw [Function.update_of_ne hpk]

/-- **A message that passes comes to its command**, and only the inbound buckets are charged. -/
theorem leads_command (h : Passes sv w msg) {parsed : ParsedCommand}
    (hparse : Commands.parse sv.py msg.body = some parsed) : ∃ rates,
    (handleInbound sv msg).Leads (Op.run sv.py) (Op.Reception msg.pubkey) w
      (handleCommand sv msg parsed) { received w msg with rates := rates } ∧
    ∀ pk bucket, ¬ Op.InboundBucket bucket → rates pk bucket = w.rates pk bucket := by
  obtain ⟨u, hu, hban, hon⟩ := h.user
  have hroom : sv.isAdmin msg.pubkey = true ∨ msg.hops = some 0 ∨ HasRoom (received w msg) msg :=
    h.room
  obtain ⟨rates, hrun, hrates⟩ := run_consumeInbound_of_room hroom
  have hconsume : (consumeInbound sv msg).Does (Op.Reception msg.pubkey) := consumeInbound_does
  have hroute : route sv msg u = handleCommand sv msg parsed := by
    unfold route
    rw [hon, hparse]
    rfl
  refine ⟨rates, (leads_limited h.other hu hban).trans ?_, hrates⟩
  rw [← hroute]
  exact leads_bind hrun (hconsume.performs sv.py _)

/-! ## The parties of a mail -/

/-- `pk` is an onboarded user. -/
def Registered (t : UserTable) (pk : Pubkey) : Prop :=
  ∃ u ∈ t.rows, u.pubkey = pk ∧ u.onboarded = true

theorem Registered.stays {t t' : UserTable} (h : Registered t pk) (hstays : UserNames.Stays t t') :
    Registered t' pk := by
  obtain ⟨u, hu, rfl, hon⟩ := h
  exact hstays u hu hon

/-- The parties of every mail are registered, and so are `pks`. -/
structure Parties (pks : List Pubkey) (w : World) : Prop where
  mail : ∀ id m, w.mail.get? id = some m →
    Registered w.users m.fromPubkey ∧ Registered w.users m.toPubkey
  users : ∀ pk ∈ pks, Registered w.users pk

def StoresNothing : Op → Prop
  | .addMail .. => False
  | _ => True

instance (pk : Pubkey) : Op.Admits pk StoresNothing where
  reads op hop := by cases op <;> trivial
  answers _ _ := trivial
  audits _ _ _ := trivial
  rates _ _ _ := trivial
  motd := trivial
  mails _ _ := trivial
  mail _ := trivial

theorem storesNothing_of_reception (op : Op) (h : op.Reception pk) : StoresNothing op := by
  cases op <;> trivial

variable {pks : List Pubkey}

theorem Parties.step (hw : Parties pks w) (hop : StoresNothing op) : Parties pks (op.run py w).2 := by
  have hstays := UserNames.stays_op py op w
  refine ⟨fun id m hm => ?_, fun pk hpk => (hw.users pk hpk).stays hstays⟩
  obtain ⟨old, hold, hfrom, hto⟩ :=
    Mailbox.mail_old (fun _ _ _ _ hadd => by simp [hadd, StoresNothing] at hop) hm
  rw [hfrom, hto]
  exact ⟨(hw.mail id old hold).1.stays hstays, (hw.mail id old hold).2.stays hstays⟩

theorem keeps_of_storesNothing {α : Type} {m : Prog α} (h : m.Does StoresNothing) :
    m.Keeps (Op.run py) (Parties pks) :=
  h.keeps fun _ hop _ hw => hw.step hop

theorem Parties.stored (hw : Parties [pk] w) {u : User} (hu : u ∈ w.users.rows)
    (helig : u.eligible = true) (body : Text) (now : Int) : Parties [pk] { w with
      toStore := { w.toStore with mail := w.mail.insert (newMail pk u.pubkey body now) } } := by
  refine ⟨fun id m hm => ?_, hw.users⟩
  have hm : (w.mail.insert (newMail pk u.pubkey body now)).get? id = some m := hm
  rw [RowTable.get?_insert] at hm
  split at hm
  · cases hm
    rw [User.eligible, Bool.and_eq_true] at helig
    exact ⟨hw.users pk (List.mem_singleton_self pk), u, hu, rfl, helig.1⟩
  · exact hw.mail id m hm

theorem send_keeps (recipientId body v : Text) :
    (sv.send pk recipientId body >>= Bans.afterSend sv pk v).Keeps (Op.run sv.py) (Parties [pk]) := by
  intro w hw
  have hafter (sent : Bool × Text × Option User) : (Bans.afterSend sv pk v sent).Does StoresNothing :=
    Bans.afterSend_does (fun _ _ _ => trivial) fun _ _ _ _ => trivial
  rw [run_bind, Services.run_send]
  cases hsend : MailService.send sv.py.lower sv.maxBodyChars w.toStore pk recipientId body w.now with
  | mk reply store =>
    have hstored : Parties [pk] { w with toStore := store } := by
      rcases MailService.send_cases hsend with ⟨rfl, -⟩ | ⟨u, hu, helig, -, rfl⟩
      · exact hw
      · exact hw.stored hu helig (strip body) w.now
    cases reply with
    | none => exact hstored
    | some reply => exact keeps_of_storesNothing (hafter _) _ hstored

theorem command_keeps (parsed : ParsedCommand) :
    (handleCommand sv msg parsed).Keeps (Op.run sv.py) (Parties [msg.pubkey]) := by
  have hdispatch : (dispatch sv msg parsed).Keeps (Op.run sv.py) (Parties [msg.pubkey]) := by
    obtain ⟨verb, args, rest⟩ := parsed
    by_cases hsend : verb = lit "SEND"
    · rw [hsend]
      exact Bans.dispatch_send_keeps args rest
        (fun op hop _ hw => hw.step (storesNothing_of_reception op hop.reception))
        fun _ _ => send_keeps _ _ _
    · refine keeps_of_storesNothing (dispatch_does (fun _ _ _ => trivial) (fun _ _ _ _ => trivial)
        fun op hop => ?_)
      cases op with
      | addMail => exact absurd hop.1 hsend
      | _ => trivial
  exact .bind (keeps_of_storesNothing (call_does trivial)) fun _ =>
    hdispatch.orElse (keeps_of_storesNothing (answer_runs ..).does)

theorem handleInbound_parties (hw : Parties [] w) :
    Parties [] ((handleInbound sv msg).run (Op.run sv.py) w).2 := by
  by_cases hadmitted : Admitted sv w msg
  · obtain ⟨-, u, hfind, helig⟩ := hadmitted
    rw [User.eligible, Bool.and_eq_true] at helig
    have hpk : u.pubkey = msg.pubkey := by simpa using List.find?_some hfind
    have hsender : Parties [msg.pubkey] w := by
      refine ⟨hw.mail, fun pk hmem => ?_⟩
      rw [List.mem_singleton.mp hmem]
      exact ⟨u, List.mem_of_find?_eq_some hfind, hpk, helig.1⟩
    have hkept : Parties [msg.pubkey] ((handleInbound sv msg).run (Op.run sv.py) w).2 :=
      handleInbound_keeps (fun op hop _ hw => hw.step (storesNothing_of_reception op hop))
        (fun _ parsed _ => command_keeps parsed) hsender
    exact ⟨hkept.mail, List.forall_mem_nil _⟩
  · exact handleInbound_keeps (I := Parties [])
      (fun op hop _ hw => hw.step (storesNothing_of_reception op hop))
      (fun h => absurd h hadmitted) hw

theorem parties_step {a : Process.Act} (hw : Parties [] w) (hs : Process.step sv w a = some w') :
    Parties [] w' := by
  cases a with
  | outside e =>
    have hstore := (Outside.frame hs).store
    refine ⟨?_, List.forall_mem_nil _⟩
    rw [hstore]
    exact hw.mail
  | request r =>
    cases hs
    obtain ⟨msg, rfl⟩ | hr := r.inbound_or
    · exact handleInbound_parties hw
    · refine keeps_of_storesNothing ((request_does sv hr).weaken fun op hop => ?_) w hw
      cases op <;> trivial

/-- `pk` is a user with a display name. -/
def HasName (t : UserTable) (pk : Pubkey) : Prop :=
  ∃ u ∈ t.rows, u.pubkey = pk ∧ u.displayName.isSome = true

theorem Registered.hasName {t : UserTable} {lower : Text → Text}
    (ht : UserNames.WellNamed lower t) (h : Registered t pk) : HasName t pk := by
  obtain ⟨u, hu, rfl, hon⟩ := h
  exact ⟨u, hu, rfl, (ht u hu).onboarded.mp hon⟩

/-- **The gates are sound.**  In every reachable state, a message that changes what they guard has
passed them, and both parties of every mail are users with a name. -/
theorem gates_sound {clock : ℚ}
    (hrun : Machine.Run (Process.step sv) (fun _ _ => True) (World.start clock) w) :
    (∀ msg w', Process.step sv w (.request (.inbound msg)) = some w' →
      ¬ Untouched msg.pubkey w w' → Passes sv w msg) ∧
      ∀ id mail, w.mail.get? id = some mail →
        HasName w.users mail.fromPubkey ∧ HasName w.users mail.toPubkey := by
  constructor
  · intro msg w' hs htouched
    cases hs
    exact not_not.mp fun h => htouched (handleInbound_untouched h)
  · intro id mail hmail
    have hnames := UserNames.wellNamed_of_run hrun
    have hparties := hrun.invariant (P := Parties [])
      (fun _ _ _ hw _ hs => parties_step hw hs) ⟨nofun, List.forall_mem_nil _⟩
    obtain ⟨hfrom, hto⟩ := hparties.mail id mail hmail
    exact ⟨hfrom.hasName hnames, hto.hasName hnames⟩

/-- `ann` writes to `bob`. -/
theorem gates_sound_send : ∃ w w', Process.step Process.asciiServices w
    (Process.fromUser (lit "aa") "SEND bob hi") = some w' ∧ ¬ Untouched (lit "aa") w w' ∧
    Passes Process.asciiServices w { pubkey := lit "aa", body := lit "SEND bob hi", hops := some 0 } := by
  obtain ⟨w, hrun, hw⟩ := Machine.exists_run (Process.step Process.asciiServices) (fun _ _ => true)
    (p := fun w => w.mail.seq = 0 ∧ ((Process.step Process.asciiServices w
      (Process.fromUser (lit "aa") "SEND bob hi")).any fun w' => w'.mail.seq = 1)) (s := World.start 0)
    Process.twoJoin (by decide +kernel)
  obtain ⟨hbefore, hafter⟩ := of_decide_eq_true hw
  obtain ⟨w', hs, hseq⟩ := (Option.any_eq_true ..).mp hafter
  have htouched : ¬ Untouched (lit "aa") w w' := by
    intro h
    have hsame := congrArg RowTable.seq h.mail
    rw [of_decide_eq_true hseq, hbefore] at hsame
    cases hsame
  exact ⟨w, w', hs, htouched, (gates_sound (hrun.mono fun _ _ _ => trivial)).1 _ _ hs htouched⟩

end Gates

end Bbs
