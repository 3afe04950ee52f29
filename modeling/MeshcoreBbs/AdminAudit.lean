import MeshcoreBbs.Privileges

/-!
# The audit log of the admin commands

An admin's message is `Idle` or audited once, as `docs/OPERATIONS.md` has it, except where it adds
or deletes a board: the routes of the dashboard audit that, the commands do not
(`audited_iff`).
-/

namespace Bbs

open Coroutine Dispatcher

def Entry.isRelease : Entry → Bool
  | inserted (.broadcast _) _ _ => true
  | _ => false

/-- How many rows of broadcasts were inserted. -/
def World.releases (w : World) : Nat := w.record.countP Entry.isRelease

namespace AdminAudit

/-! ## Definitions -/

/-- No ban flag and no board has changed, no advert was sent and no broadcast released. -/
structure Idle (w w' : World) : Prop where
  flags : ∀ pk, w'.isBanned pk = w.isBanned pk
  boards : w'.boards = w.boards
  adverts : w'.adverts = w.adverts
  releases : w'.releases = w.releases

/-- One row was added to the audit log, with `pk` as its actor. -/
def AuditedOnce (pk : Pubkey) (w w' : World) : Prop :=
  ∃ row : AuditRow, row.actorPubkey = some pk ∧ w'.queue.audit = w.queue.audit ++ [row]

/-- The command adds a board that does not exist, or deletes one that does. -/
def OnBoard (sv : Services) (w : World) (parsed : ParsedCommand) : Prop :=
  ∃ slug ∈ parsed.args.head?,
    (parsed.verb = lit "ADMIN BOARD ADD" ∧ Services.isSlug (sv.py.lower slug) = true ∧
      w.getBoard (sv.py.lower (sv.py.lower slug)) = none) ∨
    (parsed.verb = lit "ADMIN BOARD DEL" ∧
      (w.getBoard (sv.py.lower (sv.py.lower slug))).isSome = true)

/-- The message is such a command of a user who is served. -/
def ChangesBoards (sv : Services) (w : World) (msg : InboundMessage) : Prop :=
  Admitted sv w msg ∧ ∃ parsed, Commands.parse sv.py msg.body = some parsed ∧ OnBoard sv w parsed

/-! ## Operations -/

/-- The operation does nothing that an admin answers for. -/
def Idles : Op → Prop
  | .sendAdvert | .setBanned .. | .addBoard .. | .deleteBoard _
  | .enqueueOutbound (.broadcast _) _ => False
  | _ => True

/-- The operation leaves the audit log alone. -/
def NoAudit : Op → Prop
  | .audit .. | .purgeOldAudit _ => False
  | _ => True

variable {sv : Services} {msg : InboundMessage} {w w' w₀ : World} {op : Op} {pk : Pubkey}

theorem idles_of_reads (op : Op) (h : op.Reads) : Idles op := by
  cases op <;> trivial

theorem noAudit_of_reads (op : Op) (h : op.Reads) : NoAudit op := by
  cases op <;> trivial

theorem idles_of_reception {pk : Pubkey} (op : Op) (h : op.Reception pk) : Idles op := by
  cases op with
  | enqueueOutbound origin row => cases origin <;> first | trivial | cases h.1
  | _ => trivial

instance (pk : Pubkey) : Op.Admits pk Idles :=
  (inferInstance : Op.Admits pk (Op.Reception pk)).weaken idles_of_reception

theorem Idle.refl (w : World) : Idle w w := ⟨fun _ => rfl, rfl, rfl, rfl⟩

theorem run_idle_boards {py : Py} (h : Idles op) : (op.run py w).2.boards = w.boards := by
  refine Op.run_boards ?_ ?_
  · rintro slug description now rfl
    exact h
  · rintro slug rfl
    exact h

theorem Idle.step {py : Py} (hw : Idle w₀ w) (h : Idles op) : Idle w₀ (op.run py w).2 where
  flags pk := by
    refine (Op.run_isBanned (fun p banned reason hop => ?_) pk).trans (hw.flags pk)
    rw [hop] at h
    exact h
  boards := (run_idle_boards h).trans hw.boards
  adverts := by
    refine (Op.run_adverts ?_).trans hw.adverts
    rintro rfl
    exact h
  releases := by
    rw [← hw.releases, World.releases, World.releases, Op.run_record]
    cases op with
    | enqueueOutbound origin row =>
      cases origin with
      | broadcast => cases h
      | _ => exact List.countP_cons_of_neg nofun
    | logCommand => exact List.countP_cons_of_neg nofun
    | sendAdvert => cases h
    | _ => rfl

theorem run_audit {py : Py} (h : NoAudit op) : (op.run py w).2.queue.audit = w.queue.audit := by
  cases op with
  | audit | purgeOldAudit => cases h
  | insertUser | addMail =>
    rw [Op.run]
    split <;> rfl
  | _ => first | rfl | exact Op.check_frame (fun w => w.queue.audit) rfl

/-! ## One command -/

/-- Nothing has happened yet. -/
structure Before (w₀ w : World) : Prop extends Idle w₀ w where
  audit : w.queue.audit = w₀.queue.audit

/-- Nothing has happened, or it was audited. -/
def Fine (pk : Pubkey) (w₀ w : World) : Prop := Idle w₀ w ∨ AuditedOnce pk w₀ w

/-- Where nothing had happened, the program leaves it fine. -/
def Audits (sv : Services) (pk : Pubkey) (w₀ : World) {α : Type} (m : Prog α) : Prop :=
  ∀ w, Before w₀ w → Fine pk w₀ (m.run (Op.run sv.py) w).2

theorem Fine.step (hw : Fine pk w₀ w) (hidle : Idles op) (haudit : NoAudit op) :
    Fine pk w₀ (op.run sv.py w).2 := by
  rcases hw with hw | ⟨row, hactor, hrow⟩
  · exact .inl (hw.step hidle)
  · exact .inr ⟨row, hactor, (run_audit haudit).trans hrow⟩

theorem answer_does (text : Text) (verb : Option Text) :
    (answer pk text verb).Does fun op => Idles op ∧ NoAudit op :=
  (enqueueReply_runs (fun op hop => ⟨idles_of_reads op hop, noAudit_of_reads op hop⟩)
    fun _ _ => ⟨trivial, trivial⟩).does

theorem answer_fine (text : Text) (verb : Option Text) :
    (answer pk text verb).Keeps (Op.run sv.py) (Fine pk w₀) := by
  refine (answer_does text verb).keeps ?_
  rintro op ⟨hidle, haudit⟩ w hw
  exact hw.step hidle haudit

theorem audits_of_idles {α : Type} {m : Prog α} (h : m.Does Idles) : Audits sv pk w₀ m :=
  fun w hw => .inl (h.keeps (fun _ hop _ hw => hw.step hop) w hw.toIdle)

theorem audits_answer {m : Prog Text} (h : Audits sv pk w₀ m) (verb : Option Text) :
    Audits sv pk w₀ (m >>= fun text => answer pk text verb) := by
  intro w hw
  have hfine := h w hw
  rw [run_bind]
  cases (m.run (Op.run sv.py) w).1 with
  | none => exact hfine
  | some text => exact answer_fine _ _ _ hfine

theorem advert_audits (v : Text) : Audits sv pk w₀ (handleAdvert sv pk v) := by
  intro w hw
  unfold handleAdvert
  split
  · exact answer_fine _ _ _ (.inl hw.toIdle)
  · exact answer_fine _ _ _ (.inr ⟨_, rfl, congrArg (· ++ _) hw.audit⟩)

theorem ban_audits (target reason : Text) : Audits sv pk w₀ (Services.ban pk target reason) := by
  intro w hw
  have hget : (call (.getUserByPrefix target)).run (Op.run sv.py) w =
    (some (w.users.getUserByPrefix sv.py.lower target), w) := rfl
  unfold Services.ban
  rw [run_bind_of_some hget]
  cases w.users.getUserByPrefix sv.py.lower target with
  | none => exact .inl hw.toIdle
  | some u =>
    dsimp only
    split
    · exact .inl hw.toIdle
    · exact .inr ⟨_, rfl, congrArg (· ++ _) hw.audit⟩

theorem unban_audits (target : Text) : Audits sv pk w₀ (Services.unban pk target) := by
  intro w hw
  have hget : (call (.getUserByPrefix target)).run (Op.run sv.py) w =
    (some (w.users.getUserByPrefix sv.py.lower target), w) := rfl
  unfold Services.unban
  rw [run_bind_of_some hget]
  cases w.users.getUserByPrefix sv.py.lower target with
  | none => exact .inl hw.toIdle
  | some u => exact .inr ⟨_, rfl, congrArg (· ++ _) hw.audit⟩

theorem release_noAudit (status text : Text) (recipients : List Pubkey) (v : Text) : Prog.Does (do
    answer pk status (some v)
    forEach (fun r => if r ≠ pk then push (.broadcast pk) r text else pure ()) recipients) NoAudit := by
  refine .bind (enqueueReply_runs noAudit_of_reads fun _ _ => trivial).does fun _ => Prog.Runs.does ?_
  refine sat_forEach fun r _ => ?_
  split
  · exact enqueueReply_runs noAudit_of_reads fun _ _ => trivial
  · exact sat_pure rfl

/-- A confirmation is audited before the first row goes out. -/
theorem release_audits (v : Text) : Audits sv pk w₀ (releaseBroadcast pk v) := by
  intro w hw
  have hop : Idle w₀ ((Op.popPending pk).run sv.py w).2 := hw.toIdle.step trivial
  have hpopped : Idle w₀ (Broadcast.popped w pk) := hop
  have hnobody (status : Text) {w : World} (hw : Idle w₀ w) :
      Fine pk w₀ (Coroutine.run (Op.run sv.py) (answer pk status (some v) >>= fun _ => pure ()) w).2 :=
    Keeps.bind (answer_fine _ _) (fun _ => keeps_pure ()) _ (.inl hw)
  unfold releaseBroadcast
  rw [run_bind, Broadcast.run_confirmBroadcast]
  cases w.pending pk with
  | none => exact hnobody _ hpopped
  | some pending =>
    dsimp only
    split
    · exact hnobody _ hpopped
    · have haudited : AuditedOnce pk w₀ (Broadcast.audited w pk pending.text) :=
        ⟨_, rfl, congrArg (· ++ _) hw.audit⟩
      exact .inr ((release_noAudit ..).keeps (I := AuditedOnce pk w₀)
        (fun _ hop _ ⟨row, hactor, hrow⟩ => ⟨row, hactor, (run_audit hop).trans hrow⟩) _ haudited)

theorem broadcast_audits {parsed : ParsedCommand} (v : Text) :
    Audits sv pk w₀ (handleBroadcast sv pk parsed v) := by
  unfold handleBroadcast
  split
  · exact release_audits v
  · dsimp only
    split
    · exact audits_of_idles (answer_runs ..).does
    · refine audits_answer (audits_of_idles ?_) _
      exact .bind (call_does trivial) fun _ => .bind (call_does trivial) fun _ => sat_pure trivial

/-! ## Boards -/

theorem addBoard_audits {slug description : Text}
    (h : Services.isSlug (sv.py.lower slug) = true →
      w₀.getBoard (sv.py.lower (sv.py.lower slug)) ≠ none) :
    Audits sv pk w₀ (sv.addBoard slug description) := by
  intro w hw
  have hget : (call (.getBoard (sv.py.lower slug))).run (Op.run sv.py) w =
    (some (w.getBoard (sv.py.lower (sv.py.lower slug))), w) := rfl
  unfold Services.addBoard
  dsimp only
  split
  · exact .inl hw.toIdle
  · next hslug =>
    rw [run_bind_of_some hget]
    cases hboard : w.getBoard (sv.py.lower (sv.py.lower slug)) with
    | some board => exact .inl hw.toIdle
    | none =>
      rw [World.getBoard, hw.boards] at hboard
      exact absurd hboard (h (by simpa using hslug))

theorem deleteBoard_audits {slug : Text}
    (h : w₀.getBoard (sv.py.lower (sv.py.lower slug)) = none) :
    Audits sv pk w₀ (sv.deleteBoard slug) := by
  intro w hw
  have hget : (call (.getBoard (sv.py.lower slug))).run (Op.run sv.py) w =
    (some (w.getBoard (sv.py.lower (sv.py.lower slug))), w) := rfl
  have hboard : w.getBoard (sv.py.lower (sv.py.lower slug)) = none := by
    rw [World.getBoard, hw.boards]
    exact h
  unfold Services.deleteBoard
  dsimp only
  rw [run_bind_of_some hget, hboard]
  exact .inl hw.toIdle

theorem handleAdmin_audits {parsed : ParsedCommand} {v : Text} (hboard : ¬ OnBoard sv w₀ parsed) :
    Audits sv pk w₀ (handleAdmin sv pk parsed v) := by
  have hanswer (text : Text) : Audits sv pk w₀ (answer pk text (some v)) :=
    audits_of_idles (answer_runs ..).does
  unfold handleAdmin
  dsimp only
  split
  · exact hanswer _
  split
  · split
    · exact hanswer _
    · exact audits_answer (ban_audits _ _) _
  split
  · split
    · exact hanswer _
    · exact audits_answer (unban_audits _) _
  split
  · next hverb =>
    split
    · exact hanswer _
    · next slug _ hargs =>
      refine audits_answer (addBoard_audits fun hslug hnone => hboard ?_) _
      exact ⟨slug, by simp [hargs], .inl ⟨hverb, hslug, hnone⟩⟩
  split
  · next hverb =>
    split
    · exact hanswer _
    · next slug _ hargs =>
      refine audits_answer (deleteBoard_audits (Option.not_isSome_iff_eq_none.mp fun hsome => ?_)) _
      exact hboard ⟨slug, by simp [hargs], .inr ⟨hverb, hsome⟩⟩
  split
  · exact broadcast_audits _
  · exact hanswer _

def adminVerbs : List Text :=
  [lit "ADMIN BAN", lit "ADMIN UNBAN", lit "ADMIN BOARD ADD", lit "ADMIN BOARD DEL",
    lit "ADMIN BROADCAST"]

theorem dispatch_admin {parsed : ParsedCommand} (h : parsed.verb ∈ adminVerbs) :
    dispatch sv msg parsed = handleAdmin sv msg.pubkey parsed parsed.verb := by
  obtain ⟨verb, args, rest⟩ := parsed
  simp only [adminVerbs, List.mem_cons, List.not_mem_nil, or_false] at h
  rcases h with rfl | rfl | rfl | rfl | rfl <;> rfl

/-- **A command is idle or audited**, unless it adds or deletes a board. -/
theorem dispatch_audits {parsed : ParsedCommand} (hboard : ¬ OnBoard sv w₀ parsed) :
    Audits sv msg.pubkey w₀ (dispatch sv msg parsed) := by
  by_cases hadvert : parsed.verb = lit "ADVERT"
  · obtain ⟨verb, args, rest⟩ := parsed
    subst hadvert
    exact advert_audits _
  by_cases hadmin : parsed.verb ∈ adminVerbs
  · rw [dispatch_admin hadmin]
    exact handleAdmin_audits hboard
  refine audits_of_idles (dispatch_does (fun _ _ _ => trivial) (fun _ _ _ _ => trivial) fun op hop => ?_)
  cases op with
  | sendAdvert => exact absurd hop.1 hadvert
  | setBanned pk banned reason =>
    refine absurd ?_ hadmin
    rw [hop.1]
    cases banned <;> simp [adminVerbs]
  | addBoard => exact absurd (by simp [hop.1, adminVerbs]) hadmin
  | deleteBoard => exact absurd (by simp [hop.1, adminVerbs]) hadmin
  | enqueueOutbound origin row =>
    cases origin with
    | broadcast => exact absurd (by simp [hop.1, adminVerbs]) hadmin
    | newMail => trivial
    | answer => cases hop
    | newUser => cases hop
  | _ => trivial

/-! ## The message -/

theorem before_received (sv : Services) (w : World) (msg : InboundMessage) :
    Before w (received w msg) where
  toIdle := received_induction sv.py (Op.Reception msg.pubkey)
    (fun op hop _ hw => hw.step (idles_of_reception op hop)) (.refl w)
  audit := rfl

/-- The message of an admin who is served. -/
theorem run_admin (hadmin : sv.isAdmin msg.pubkey = true) (hadmitted : Admitted sv w msg) :
    (handleInbound sv msg).run (Op.run sv.py) w =
      (match Commands.parse sv.py msg.body with
        | none => answer msg.pubkey (lit "? Empty. Try: HELP") none
        | some parsed => handleCommand sv msg parsed).run (Op.run sv.py) (received w msg) := by
  obtain ⟨hself, u, hfind, helig⟩ := hadmitted
  rw [User.eligible, Bool.and_eq_true, Bool.not_eq_true'] at helig
  rw [run_handleInbound w hself, sender_of_some hfind, if_neg (by simp [helig.2]), serve_eq]
  have hconsume : consumeInbound sv msg = pure none := by
    unfold consumeInbound
    rw [hadmin]
    rfl
  unfold limited route
  rw [hconsume, helig.1]
  rfl

theorem command_fine {parsed : ParsedCommand} (hboard : ¬ OnBoard sv w₀ parsed) (hw : Before w₀ w) :
    Fine msg.pubkey w₀ ((handleCommand sv msg parsed).run (Op.run sv.py) w).2 := by
  have hlog : (call (.logCommand msg.pubkey msg.body)).run (Op.run sv.py) w =
    (some (), Broadcast.logged w msg.pubkey msg.body) := rfl
  have hidle : Idle w₀ ((Op.logCommand msg.pubkey msg.body).run sv.py w).2 := hw.toIdle.step trivial
  have hlogged : Before w₀ (Broadcast.logged w msg.pubkey msg.body) := ⟨hidle, hw.audit⟩
  have hfine : Fine msg.pubkey w₀ ((dispatch sv msg parsed).run (Op.run sv.py)
      (Broadcast.logged w msg.pubkey msg.body)).2 := dispatch_audits hboard _ hlogged
  unfold handleCommand
  rw [run_bind_of_some hlog, run_orElse]
  cases ((dispatch sv msg parsed).run (Op.run sv.py)
    (Broadcast.logged w msg.pubkey msg.body)).1 with
  | none => exact answer_fine _ _ _ hfine
  | some _ => exact hfine

theorem message_fine (hadmin : sv.isAdmin msg.pubkey = true) (h : ¬ ChangesBoards sv w msg) :
    Fine msg.pubkey w ((handleInbound sv msg).run (Op.run sv.py) w).2 := by
  by_cases hadmitted : Admitted sv w msg
  · rw [run_admin hadmin hadmitted]
    cases hparse : Commands.parse sv.py msg.body with
    | none => exact answer_fine _ _ _ (.inl (before_received sv w msg).toIdle)
    | some parsed =>
      exact command_fine (fun hboard => h ⟨hadmitted, parsed, hparse, hboard⟩)
        (before_received sv w msg)
  · exact .inl (handleInbound_keeps (I := Idle w)
      (fun op hop _ hw => hw.step (idles_of_reception op hop)) (absurd · hadmitted) (.refl w))

/-! ## What the commands on boards leave out -/

/-- The boards have changed and the audit log has not. -/
structure Unaudited (w w' : World) : Prop where
  boards : w'.boards ≠ w.boards
  audit : w'.queue.audit = w.queue.audit

theorem answer_unaudited (text : Text) (verb : Option Text) :
    (answer pk text verb).Keeps (Op.run sv.py) (Unaudited w₀) := by
  refine (answer_does text verb).keeps ?_
  rintro op ⟨hidle, haudit⟩ w hw
  constructor
  · rw [run_idle_boards hidle]
    exact hw.boards
  · rw [run_audit haudit]
    exact hw.audit

/-- A program that changes the boards without an audit, and answers. -/
theorem command_unaudited {parsed : ParsedCommand} {m : Prog Text} {v : Text}
    (hdispatch : dispatch sv msg parsed = m >>= fun text => answer msg.pubkey text (some v))
    (hm : m.Does NoAudit)
    (hboards : ∀ w₁ : World, w₁.boards = w.boards → (m.run (Op.run sv.py) w₁).2.boards ≠ w.boards) :
    Unaudited w ((handleCommand sv msg parsed).run (Op.run sv.py) (received w msg)).2 := by
  let w₁ := Broadcast.logged (received w msg) msg.pubkey msg.body
  have hlog : (call (.logCommand msg.pubkey msg.body)).run (Op.run sv.py) (received w msg) =
    (some (), w₁) := rfl
  have hstep : Unaudited w (m.run (Op.run sv.py) w₁).2 :=
    ⟨hboards w₁ rfl, hm.keeps (I := fun w' => w'.queue.audit = w.queue.audit)
      (fun _ hop _ hw => (run_audit hop).trans hw) w₁ rfl⟩
  have hbody : Unaudited w ((dispatch sv msg parsed).run (Op.run sv.py) w₁).2 := by
    rw [hdispatch, run_bind]
    cases (m.run (Op.run sv.py) w₁).1 with
    | none => exact hstep
    | some text => exact answer_unaudited _ _ _ hstep
  unfold handleCommand
  rw [run_bind_of_some hlog, run_orElse]
  cases ((dispatch sv msg parsed).run (Op.run sv.py) w₁).1 with
  | none => exact answer_unaudited _ _ _ hbody
  | some _ => exact hbody

theorem addBoard_changes (w : World) (slug description : Text)
    (hslug : Services.isSlug (sv.py.lower slug) = true)
    (hnone : w.getBoard (sv.py.lower (sv.py.lower slug)) = none) :
    ((sv.addBoard slug description).run (Op.run sv.py) w).2.boards ≠ w.boards := by
  have hget : (call (.getBoard (sv.py.lower slug))).run (Op.run sv.py) w =
    (some (w.getBoard (sv.py.lower (sv.py.lower slug))), w) := rfl
  have htime : (call .time).run (Op.run sv.py) w = (some w.clock, w) := rfl
  unfold Services.addBoard
  dsimp only
  rw [hslug, if_neg (by simp), run_bind_of_some hget, hnone]
  dsimp only
  rw [run_bind_of_some htime, run_bind, run_perform, Op.run, hnone]
  simp [Op.check]

theorem deleteBoard_changes (w : World) (slug : Text)
    (hsome : (w.getBoard (sv.py.lower (sv.py.lower slug))).isSome = true) :
    ((sv.deleteBoard slug).run (Op.run sv.py) w).2.boards ≠ w.boards := by
  have hget : (call (.getBoard (sv.py.lower slug))).run (Op.run sv.py) w =
    (some (w.getBoard (sv.py.lower (sv.py.lower slug))), w) := rfl
  obtain ⟨board, hboard⟩ := Option.isSome_iff_exists.mp hsome
  have hmem := List.mem_of_find?_eq_some hboard
  have hfound : board.slug = sv.py.lower (sv.py.lower slug) := by simpa using List.find?_some hboard
  let posts := w.deletePostsOf (sv.py.lower (sv.py.lower slug))
  have hfree : (posts.rows.all fun p => p.2.boardSlug ≠ sv.py.lower (sv.py.lower slug)) = true := by
    simp [posts, World.deletePostsOf, RowTable.filterRows]
  unfold Services.deleteBoard
  dsimp only
  rw [run_bind_of_some hget, hboard]
  dsimp only
  rw [run_bind, run_perform, Op.run, Option.elim_some, run_bind, run_perform, Op.run, Op.check,
    if_pos hfree]
  intro hsame
  have hkept : board ∈ w.boards.filter fun b => b.slug ≠ sv.py.lower (sv.py.lower slug) := by
    rw [show (w.boards.filter fun b => b.slug ≠ sv.py.lower (sv.py.lower slug)) = w.boards from hsame]
    exact hmem
  simp [hfound] at hkept

theorem board_unaudited {parsed : ParsedCommand} (hadmin : sv.isAdmin msg.pubkey = true)
    (hboard : OnBoard sv w parsed) :
    Unaudited w ((handleCommand sv msg parsed).run (Op.run sv.py) (received w msg)).2 := by
  obtain ⟨verb, args, rest⟩ := parsed
  obtain ⟨slug, hslug, hboard⟩ := hboard
  obtain ⟨args, rfl⟩ : ∃ more, args = slug :: more := List.head?_eq_some_iff.mp hslug
  rcases hboard with ⟨rfl, hvalid, hnone⟩ | ⟨rfl, hsome⟩
  · have hdispatch : dispatch sv msg ⟨lit "ADMIN BOARD ADD", slug :: args, rest⟩ =
        sv.addBoard slug (stripLeading sv.py slug rest) >>= fun text =>
          answer msg.pubkey text (some (lit "ADMIN BOARD ADD")) := by
      rw [dispatch_admin (by simp [adminVerbs]), handleAdmin, hadmin]
      rfl
    refine command_unaudited hdispatch (addBoard_does noAudit_of_reads fun _ _ _ => trivial)
      fun w₁ hw₁ => ?_
    have hnone₁ : w₁.getBoard (sv.py.lower (sv.py.lower slug)) = none := by
      rw [World.getBoard, hw₁]
      exact hnone
    exact hw₁ ▸ addBoard_changes w₁ slug _ hvalid hnone₁
  · have hdispatch : dispatch sv msg ⟨lit "ADMIN BOARD DEL", slug :: args, rest⟩ =
        sv.deleteBoard slug >>= fun text =>
          answer msg.pubkey text (some (lit "ADMIN BOARD DEL")) := by
      rw [dispatch_admin (by simp [adminVerbs]), handleAdmin, hadmin]
      rfl
    refine command_unaudited hdispatch
      (deleteBoard_does noAudit_of_reads (fun _ => trivial) fun _ => trivial) fun w₁ hw₁ => ?_
    have hsome₁ : (w₁.getBoard (sv.py.lower (sv.py.lower slug))).isSome = true := by
      rw [World.getBoard, hw₁]
      exact hsome
    exact hw₁ ▸ deleteBoard_changes w₁ slug hsome₁

/-- **An admin's action is audited once**, exactly if it does not add or delete a board. -/
theorem audited_iff (hadmin : sv.isAdmin msg.pubkey = true)
    (hs : Process.step sv w (.request (.inbound msg)) = some w') :
    (¬ Idle w w' → AuditedOnce msg.pubkey w w') ↔ ¬ ChangesBoards sv w msg := by
  cases hs
  constructor
  · rintro haudited ⟨hadmitted, parsed, hparse, hboard⟩
    have hunaudited : Unaudited w ((handleInbound sv msg).run (Op.run sv.py) w).2 := by
      rw [run_admin hadmin hadmitted, hparse]
      exact board_unaudited hadmin hboard
    obtain ⟨row, -, hrow⟩ := haudited fun hidle => hunaudited.boards hidle.boards
    have hlength := congrArg List.length (hrow.symm.trans hunaudited.audit)
    simp at hlength
  · exact fun h hidle => (message_fine hadmin h).resolve_left hidle

/-- `ann` sends an advert. -/
theorem audited_iff_advert : ∃ w w', Process.step Process.asciiServices w
    (Process.fromUser (lit "aa") "ADVERT") = some w' ∧ w'.adverts = 1 ∧ AuditedOnce (lit "aa") w w' := by
  obtain ⟨w, hrun, hw⟩ := Machine.exists_run (Process.step Process.asciiServices) (fun _ _ => true)
    (p := fun w => w.adverts = 0 ∧ ((Process.step Process.asciiServices w
      (Process.fromUser (lit "aa") "ADVERT")).any fun w' => w'.adverts = 1)) (s := World.start 0)
    Process.twoJoin (by decide +kernel)
  obtain ⟨hbefore, hafter⟩ := of_decide_eq_true hw
  obtain ⟨w', hs, hadverts⟩ := (Option.any_eq_true ..).mp hafter
  have hadverts := of_decide_eq_true hadverts
  refine ⟨w, w', hs, hadverts, (audited_iff (by decide) hs).mpr ?_ fun hidle => ?_⟩
  · rintro ⟨-, parsed, hparse, slug, hslug, -⟩
    have hargs : (Commands.parse asciiPy (lit "ADVERT")).all fun parsed => parsed.args = [] := by
      decide +kernel
    have hparse : Commands.parse asciiPy (lit "ADVERT") = some parsed := hparse
    rw [hparse, Option.all_some, decide_eq_true_iff] at hargs
    rw [hargs] at hslug
    cases hslug
  · rw [hidle.adverts, hbefore] at hadverts
    cases hadverts

/-- `ann` adds a board. -/
theorem board_added_unaudited : ∃ w w',
    Machine.Run (Process.step Process.asciiServices) (fun _ _ => True) (World.start 0) w ∧
    Process.asciiServices.isAdmin (lit "aa") = true ∧
    Process.step Process.asciiServices w (Process.fromUser (lit "aa") "ADMIN BOARD ADD news") =
      some w' ∧ ¬ Idle w w' ∧ ¬ AuditedOnce (lit "aa") w w' := by
  obtain ⟨w, hrun, hw⟩ := Machine.exists_run (Process.step Process.asciiServices) (fun _ _ => true)
    (p := fun w => (Process.step Process.asciiServices w
      (Process.fromUser (lit "aa") "ADMIN BOARD ADD news")).any fun w' =>
        w'.boards.length ≠ w.boards.length ∧ w'.queue.audit = w.queue.audit) (s := World.start 0)
    Process.twoJoin (by decide +kernel)
  obtain ⟨w', hs, hafter⟩ := (Option.any_eq_true ..).mp hw
  obtain ⟨hboards, haudit⟩ := of_decide_eq_true hafter
  refine ⟨w, w', hrun.mono fun _ _ _ => trivial, by decide, hs, fun hidle => ?_, ?_⟩
  · exact hboards (congrArg List.length hidle.boards)
  · rintro ⟨row, -, hrow⟩
    have hlength := congrArg List.length (hrow.symm.trans haudit)
    simp at hlength

end AdminAudit

end Bbs
