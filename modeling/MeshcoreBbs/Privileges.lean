import MeshcoreBbs.Bans
import MeshcoreBbs.Mailbox

/-!
# What a message without privileges can do

Boards, bans, staged broadcasts and adverts are changed by the operations of `Op.Privileged`,
and those are for admins (`unprivileged_does`).  `Due` says to whom a message may cause rows.
-/

namespace Bbs

open Coroutine Dispatcher

namespace Op

/-- What only admins may do. -/
def Privileged : Op → Prop
  | sendAdvert | setBanned .. | addBoard .. | deletePostsOf _ | deleteBoard _ | popPending _
  | setPending .. | enqueueOutbound (.broadcast _) _ => True
  | _ => False

/-- What any sender may have done. -/
def Unprivileged (op : Op) : Prop := ¬ op.Privileged

theorem Reception.unprivileged {pk : Pubkey} {op : Op} (h : op.Reception pk) : op.Unprivileged := by
  cases op with
  | enqueueOutbound origin row => cases origin <;> first | exact id | cases h.1
  | _ => first | exact id | cases h

theorem Special.unprivileged {sv : Services} {pk : Pubkey} {verb : Text} {op : Op}
    (h : op.Special sv pk verb) (hpk : sv.isAdmin pk = false) : op.Unprivileged := by
  have hadmin : sv.isAdmin pk ≠ true := by simp [hpk]
  cases op with
  | enqueueOutbound origin row =>
    cases origin with
    | broadcast => exact absurd h.2.1 hadmin
    | _ => exact id
  | sendAdvert | setBanned | addBoard | deletePostsOf | deleteBoard => exact absurd h.2 hadmin
  | popPending | setPending => exact absurd h.2.1 hadmin
  | _ => exact id

end Op

/-- How often an advert was sent. -/
def World.adverts (w : World) : Nat := w.record.count .advert

/-- Boards, bans, staged broadcasts and adverts are the same. -/
structure SameRule (w w' : World) : Prop where
  boards : w'.boards = w.boards
  bans : ∀ pk, w'.ban pk = w.ban pk
  pending : w'.pending = w.pending
  adverts : w'.adverts = w.adverts

section Frame

variable {py : Py} {op : Op} {w w' w₀ : World}

theorem Op.run_adverts (h : op ≠ sendAdvert) : (op.run py w).2.adverts = w.adverts := by
  unfold World.adverts
  rw [run_record]
  cases op with
  | sendAdvert => exact absurd rfl h
  | logCommand | enqueueOutbound => simp
  | _ => rfl

theorem Op.Unprivileged.ne (h : op.Unprivileged) {op' : Op} (h' : op'.Privileged) : op ≠ op' := by
  rintro rfl
  exact h h'

theorem SameRule.refl (w : World) : SameRule w w := ⟨rfl, fun _ => rfl, rfl, rfl⟩

theorem SameRule.step (hw : SameRule w₀ w) (h : op.Unprivileged) :
    SameRule w₀ (op.run py w).2 where
  boards := (Op.run_boards (fun _ _ _ => h.ne trivial) fun _ => h.ne trivial).trans hw.boards
  bans pk := by
    refine (Op.run_ban (fun p banned reason hop => ?_) pk).trans (hw.bans pk)
    exact h (hop ▸ trivial)
  pending := by
    rw [Op.run_pending, ← hw.pending]
    cases op <;> first | rfl | exact absurd trivial h
  adverts := (Op.run_adverts (h.ne trivial)).trans hw.adverts

end Frame

namespace Privileges

variable {sv : Services} {msg : InboundMessage} {w w' : World}

/-- **A sender who is not an admin has no privileged operation done.** -/
theorem unprivileged_does (hpk : sv.isAdmin msg.pubkey = false) :
    (handleInbound sv msg).Does Op.Unprivileged := by
  apply handleInbound_ofMessage.weaken
  rintro op (hop | rfl | ⟨parsed, -, hop⟩)
  · exact hop.unprivileged
  · exact id
  · exact hop.unprivileged hpk

/-! ## Whom the rows are for -/

/-- Whom a message may cause a row for, between `w` and `w'`: its sender, an admin when the sender
is new, and the addressee of a mail that it stored. -/
def Due (sv : Services) (msg : InboundMessage) (w w' : World) (pk : Pubkey) : Prop :=
  pk = msg.pubkey ∨
    (w.users.getUser msg.pubkey = none ∧ ∃ admin ∈ w.cfg.bbs.adminPubkeys, pk = sv.py.lower admin) ∨
    ∃ id mail, w'.mail.get? id = some mail ∧ w.mail.seq < id ∧ mail.fromPubkey = msg.pubkey ∧
      mail.toPubkey = pk

/-- The rows that came in between are due, and rows for `pks` would be. -/
structure OnlyDue (sv : Services) (msg : InboundMessage) (w : World) (pks : List Pubkey)
    (w' : World) : Prop where
  cfg : w'.cfg = w.cfg
  mail : w.mail.seq ≤ w'.mail.seq
  rows : ∃ new, w'.outboundRows = w.outboundRows ++ new ∧
    ∀ row ∈ new, Due sv msg w w' row.toPubkey
  due : ∀ pk ∈ pks, Due sv msg w w' pk

/-- Rows are inserted for `pks`, and no mail is purged. -/
def RowsFor (pks : List Pubkey) : Op → Prop
  | .enqueueOutbound _ row => row.toPubkey ∈ pks
  | .purgeOldReadMail _ => False
  | _ => True

theorem rowsFor_of_reads {pks : List Pubkey} (op : Op) (h : op.Reads) : RowsFor pks op := by
  cases op <;> trivial

theorem rowsFor_of_ordinary {pk : Pubkey} {pks : List Pubkey} (op : Op) (h : op.Ordinary pk) :
    RowsFor (pk :: pks) op := by
  cases op with
  | enqueueOutbound origin row =>
    rw [RowsFor, h.2]
    exact List.mem_cons_self
  | _ => trivial

instance (pk : Pubkey) (pks : List Pubkey) : Op.Admits pk (RowsFor (pk :: pks)) :=
  (inferInstance : Op.Admits pk (Op.Ordinary pk)).weaken rowsFor_of_ordinary

variable {w₀ : World} {op : Op} {pks : List Pubkey}

theorem Due.later {pk : Pubkey} (h : Due sv msg w₀ w pk)
    (hmail : ∀ id m, w.mail.get? id = some m → ∃ m', w'.mail.get? id = some m' ∧
      m'.fromPubkey = m.fromPubkey ∧ m'.toPubkey = m.toPubkey) : Due sv msg w₀ w' pk := by
  rcases h with h | h | ⟨id, m, hm, hid, hfrom, hto⟩
  · exact .inl h
  · exact .inr (.inl h)
  · obtain ⟨m', hm', hfrom', hto'⟩ := hmail id m hm
    exact .inr (.inr ⟨id, m', hm', hid, hfrom'.trans hfrom, hto'.trans hto⟩)

theorem OnlyDue.step (hw : OnlyDue sv msg w₀ pks w) (hop : RowsFor pks op) :
    OnlyDue sv msg w₀ pks (op.run sv.py w).2 := by
  have hkept (id : Nat) (m : MailRow) : w.mail.get? id = some m →
      ∃ m', (op.run sv.py w).2.mail.get? id = some m' ∧ m'.fromPubkey = m.fromPubkey ∧
        m'.toPubkey = m.toPubkey :=
    Mailbox.mail_kept (fun _ hpurge => by simp [hpurge, RowsFor] at hop) sv.py
  obtain ⟨new, hnew, hdue⟩ := hw.rows
  have hold : ∀ row ∈ new, Due sv msg w₀ (op.run sv.py w).2 row.toPubkey :=
    fun row hrow => (hdue row hrow).later hkept
  refine ⟨Op.run_cfg.trans hw.cfg, hw.mail.trans (Mailbox.rely_run sv.py op w).seq, ?_,
    fun pk hpk => (hw.due pk hpk).later hkept⟩
  rw [World.run_outboundRows, hnew]
  cases op with
  | enqueueOutbound origin row =>
    refine ⟨new ++ [row], List.append_assoc .., fun row' hrow' => ?_⟩
    rcases List.mem_append.mp hrow' with hrow' | hrow'
    · exact hold row' hrow'
    · rw [List.mem_singleton.mp hrow']
      exact (hw.due _ hop).later hkept
  | _ => exact ⟨new, rfl, hold⟩

theorem OnlyDue.mono {pks' : List Pubkey} (hw : OnlyDue sv msg w₀ pks w) (h : pks' ⊆ pks) :
    OnlyDue sv msg w₀ pks' w :=
  ⟨hw.cfg, hw.mail, hw.rows, fun pk hpk => hw.due pk (h hpk)⟩

theorem OnlyDue.insert (hw : OnlyDue sv msg w₀ pks w) {pk : Pubkey} (h : Due sv msg w₀ w pk) :
    OnlyDue sv msg w₀ (pk :: pks) w :=
  ⟨hw.cfg, hw.mail, hw.rows, List.forall_mem_cons.mpr ⟨h, hw.due⟩⟩

theorem keeps_of_rowsFor {α : Type} {m : Prog α} (h : m.Does (RowsFor pks)) :
    m.Keeps (Op.run sv.py) (OnlyDue sv msg w₀ pks) :=
  h.keeps fun _ hop _ hw => hw.step hop

/-! ## The message -/

/-- A mail of the sender makes its addressee due. -/
theorem OnlyDue.stored (hw : OnlyDue sv msg w₀ pks w) (toPk : Pubkey) (body : Text) (now : Int) :
    OnlyDue sv msg w₀ (toPk :: pks) { w with
      toStore := { w.toStore with mail := w.mail.insert (newMail msg.pubkey toPk body now) } } := by
  obtain ⟨new, hnew, hdue⟩ := hw.rows
  have hkept (id : Nat) (m : MailRow) (hm : w.mail.get? id = some m) :
      ∃ m', (w.mail.insert (newMail msg.pubkey toPk body now)).get? id = some m' ∧
        m'.fromPubkey = m.fromPubkey ∧ m'.toPubkey = m.toPubkey :=
    ⟨m, RowTable.get?_insert_of_some hm _, rfl, rfl⟩
  have hold : OnlyDue sv msg w₀ pks { w with
      toStore := { w.toStore with mail := w.mail.insert (newMail msg.pubkey toPk body now) } } :=
    ⟨hw.cfg, hw.mail.trans (Nat.le_succ _), ⟨new, hnew, fun row hrow => (hdue row hrow).later hkept⟩,
      fun pk hpk => (hw.due pk hpk).later hkept⟩
  refine hold.insert (.inr (.inr
    ⟨w.mail.seq + 1, newMail msg.pubkey toPk body now, ?_, Nat.lt_succ_of_le hw.mail, rfl, rfl⟩))
  show (w.mail.insert _).get? (w.mail.seq + 1) = _
  rw [RowTable.get?_insert, if_pos rfl]

theorem send_keeps (recipientId body v : Text) :
    (sv.send msg.pubkey recipientId body >>= Bans.afterSend sv msg.pubkey v).Keeps (Op.run sv.py)
      (OnlyDue sv msg w₀ [msg.pubkey]) := by
  intro w hw
  rw [run_bind, Services.run_send]
  cases hsend : MailService.send sv.py.lower sv.maxBodyChars w.toStore msg.pubkey recipientId body
    w.now with
  | mk reply store =>
    dsimp only
    rcases MailService.send_cases hsend with ⟨rfl, hnone⟩ | ⟨u, -, -, hu, rfl⟩
    · cases reply with
      | none => exact hw
      | some reply =>
        have hafter : (Bans.afterSend sv msg.pubkey v (Services.asTuple reply)).Does
            (RowsFor [msg.pubkey]) :=
          Bans.afterSend_does (fun _ _ _ => trivial) fun u hu => nomatch hnone.symm.trans hu
        exact keeps_of_rowsFor hafter _ hw
    · have hstored := hw.stored u.pubkey (strip body) w.now
      cases reply with
      | none => cases hu
      | some reply =>
        have hafter : (Bans.afterSend sv msg.pubkey v (Services.asTuple reply)).Does
            (RowsFor [msg.pubkey, u.pubkey]) := by
          refine Bans.afterSend_does (fun _ _ _ => trivial) fun u' hu' row hrow => ?_
          cases hu.symm.trans hu'
          simp [RowsFor, hrow]
        exact (keeps_of_rowsFor hafter _ (hstored.mono (by simp))).mono (by simp)

theorem command_keeps (hpk : sv.isAdmin msg.pubkey = false) (parsed : ParsedCommand) :
    (handleCommand sv msg parsed).Keeps (Op.run sv.py) (OnlyDue sv msg w₀ [msg.pubkey]) := by
  have hdispatch : (dispatch sv msg parsed).Keeps (Op.run sv.py) (OnlyDue sv msg w₀ [msg.pubkey]) := by
    obtain ⟨verb, args, rest⟩ := parsed
    by_cases hsend : verb = lit "SEND"
    · rw [hsend]
      exact Bans.dispatch_send_keeps args rest
        (fun op hop _ hw => hw.step (rowsFor_of_ordinary op hop)) fun _ _ => send_keeps _ _ _
    refine keeps_of_rowsFor (dispatch_ofCommand.weaken fun op hop => ?_)
    rcases hop with hop | hop
    · exact rowsFor_of_ordinary op hop
    · cases op with
      | enqueueOutbound origin row =>
        cases origin with
        | newMail => exact absurd hop hsend
        | broadcast => exact absurd hop.2.1 (by simp [hpk])
        | answer => cases hop
        | newUser => cases hop
      | _ => trivial
  exact .bind (keeps_of_rowsFor (call_does trivial)) fun _ =>
    hdispatch.orElse (keeps_of_rowsFor (answer_runs ..).does)

/-- The admins are due when the sender is new. -/
theorem notifyAdmins_keeps (hnew : w₀.users.getUser msg.pubkey = none) (display : Text) :
    (notifyAdminsNewUser sv display msg.pubkey).Keeps (Op.run sv.py)
      (OnlyDue sv msg w₀ [msg.pubkey]) := by
  intro w hw
  have hconfig : (call .config).run (Op.run sv.py) w = (some w.cfg, w) := rfl
  unfold notifyAdminsNewUser
  rw [run_bind_of_some hconfig]
  refine keeps_forEach (fun admin hadmin => ?_) w hw
  split
  · intro w' hw'
    have hdue : Due sv msg w₀ w' (sv.py.lower admin) :=
      .inr (.inl ⟨hnew, admin, hw.cfg ▸ hadmin, rfl⟩)
    have hpush (text : Text) : (push .newUser (sv.py.lower admin) text).Does
        (RowsFor (sv.py.lower admin :: [msg.pubkey])) :=
      (enqueueReply_runs rowsFor_of_reads fun _ _ => List.mem_cons_self).does
    exact (keeps_of_rowsFor (hpush _) w' (hw'.insert hdue)).mono (by simp)
  · exact keeps_pure ()

theorem serve_keeps (hpk : sv.isAdmin msg.pubkey = false) :
    (serve sv msg (sender w₀ msg).1 (sender w₀ msg).2).Keeps (Op.run sv.py)
      (OnlyDue sv msg w₀ [msg.pubkey]) := by
  have hlimited (user : User) : (limited sv msg user).Keeps (Op.run sv.py)
      (OnlyDue sv msg w₀ [msg.pubkey]) :=
    limited_keeps (fun op hop _ hw => hw.step (rowsFor_of_ordinary op hop))
      fun _ parsed _ => command_keeps hpk parsed
  rw [serve_eq]
  cases hfind : w₀.users.getUser msg.pubkey with
  | some u =>
    rw [sender_of_some hfind]
    exact hlimited _
  | none =>
    rw [sender_of_none hfind]
    exact .bind (notifyAdmins_keeps hfind _) fun _ => hlimited _

/-- **A message of a sender who is not an admin** leaves boards, bans, staged broadcasts and adverts
alone, and causes rows only for those who are due. -/
theorem message_of_user (hpk : sv.isAdmin msg.pubkey = false)
    (hs : Process.step sv w (.request (.inbound msg)) = some w') :
    SameRule w w' ∧ ∃ new, w'.outboundRows = w.outboundRows ++ new ∧
      ∀ row ∈ new, Due sv msg w w' row.toPubkey := by
  cases hs
  have hrule : SameRule w ((handleInbound sv msg).run (Op.run sv.py) w).2 :=
    (unprivileged_does hpk).keeps (fun _ hop _ hw => hw.step hop) w (.refl w)
  have hstart (users : UserTable) : OnlyDue sv msg w [msg.pubkey] { w with users := users } :=
    ⟨rfl, le_refl _, ⟨[], (List.append_nil _).symm, fun _ h => nomatch h⟩,
      fun pk hmem => .inl (List.mem_singleton.mp hmem)⟩
  have hdue : OnlyDue sv msg w [msg.pubkey] ((handleInbound sv msg).run (Op.run sv.py) w).2 := by
    by_cases hself : msg.pubkey = sv.py.lower sv.selfPubkey
    · unfold handleInbound
      rw [if_pos hself]
      exact hstart w.users
    rw [run_handleInbound w hself]
    split
    · exact hstart _
    · exact serve_keeps hpk _ (hstart _)
  exact ⟨hrule, hdue.rows⟩

/-- `bob`, who has joined as `ann` has, asks for her ban; the one row is the answer to him. -/
theorem message_of_user_ban : ∃ w w' row,
    Machine.Run (Process.step Process.asciiServices) (fun _ _ => True) (World.start 0) w ∧
    (w.users.getUserByName asciiPy.lower (lit "ann")).isSome = true ∧
    Process.step Process.asciiServices w (Process.fromUser (lit "bb") "ADMIN BAN ann") = some w' ∧
    SameRule w w' ∧ w'.outboundRows = w.outboundRows ++ [row] ∧ row.toPubkey = lit "bb" := by
  obtain ⟨w, hrun, hw⟩ := Machine.exists_run (Process.step Process.asciiServices) (fun _ _ => true)
    (p := fun w => (w.users.getUserByName asciiPy.lower (lit "ann")).isSome &&
      (w.users.getUser (lit "bb")).isSome &&
      (Process.step Process.asciiServices w (Process.fromUser (lit "bb") "ADMIN BAN ann")).any
        fun w' => w'.mail.seq = 0 && w'.outboundRows.length = w.outboundRows.length + 1)
    (s := World.start 0) Process.twoJoin (by decide +kernel)
  simp only [Bool.and_eq_true] at hw
  obtain ⟨⟨hann, hbob⟩, hafter⟩ := hw
  obtain ⟨w', hs, hw'⟩ := (Option.any_eq_true ..).mp hafter
  rw [Bool.and_eq_true, decide_eq_true_iff, decide_eq_true_iff] at hw'
  obtain ⟨hseq, hlen⟩ := hw'
  obtain ⟨hrule, new, hnew, hdue⟩ := message_of_user (by decide) hs
  rw [hnew, List.length_append, Nat.add_left_cancel_iff, List.length_eq_one_iff] at hlen
  obtain ⟨row, rfl⟩ := hlen
  refine ⟨w, w', row, hrun.mono fun _ _ _ => trivial, hann, hs, hrule, hnew, ?_⟩
  rcases hdue row (List.mem_singleton_self _) with hto | ⟨hnone, -⟩ | ⟨id, mail, hmail, hid, -⟩
  · exact hto
  · rw [hnone] at hbob
    cases hbob
  · -- no mail has come
    have := RowTable.get?_le_seq hmail
    omega

end Privileges

end Bbs
