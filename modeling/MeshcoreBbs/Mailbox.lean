import MeshcoreBbs.Inbound
import MeshcoreBbs.Lib.Machine
import MeshcoreBbs.Process

/-!
# Who can do what to a mail

Here the requests wait for their operations, and others act meanwhile.  `mark_mail_read` does
not ask for the addressee; that the mail it marks is the reader's rests on the lookup before
it, on what others cannot do in between (`Rely`) and on ids that are never given out again.

`fate_of_step` says what a step of such a run does to a mail, and `shown_to_addressee` to whom
an operation shows it.
-/

namespace Bbs

open Coroutine Dispatcher

namespace Mailbox

/-! ## What an operation does to the mail -/

inductive MailStep (mail : RowTable MailRow) : Op → RowTable MailRow → Prop
  | same {op : Op} : MailStep mail op mail
  | insert {op : Op} (fromPk toPk : Pubkey) (body : Text) (now : Int) :
      MailStep mail op (mail.insert (newMail fromPk toPk body now))
  | read {id : Nat} {now : Int} : MailStep mail (.markMailRead id now)
      (mail.modify id fun row => if row.readAt.isNone then { row with readAt := some now } else row)
  | delete {id : Nat} {viewer : Pubkey} : MailStep mail (.deleteMail id viewer)
      (mail.modify id fun row => if row.toPubkey = viewer then { row with deleted := true } else row)
  | purge {beforeTs : Int} : MailStep mail (.purgeOldReadMail beforeTs)
      (mail.filterRows fun _ row => !row.readAt.any (· < beforeTs))

theorem mailStep_check {α : Type} {op : Op} {ok : Bool} {w : World} {answer : α × World}
    (h : MailStep w.mail op answer.2.mail) : MailStep w.mail op (Op.check ok w answer).2.mail := by
  unfold Op.check
  split
  · exact h
  · exact .same

theorem run_mail (py : Py) (op : Op) (w : World) : MailStep w.mail op (op.run py w).2.mail := by
  cases op with
  | insertUser =>
    rw [Op.run]
    split <;> exact .same
  | addMail fromPk toPk body now =>
    rw [Op.run, Store.addMail]
    split
    · exact .same
    · next store id hadd =>
      split at hadd
      · cases hadd
        exact .insert ..
      · cases hadd
  | markMailRead id now => exact mailStep_check .read
  | deleteMail id viewer => exact mailStep_check .delete
  | purgeOldReadMail beforeTs => exact .purge
  | _ => first | exact .same | exact mailStep_check .same

/-- What an operation makes of the row `m` with the id `id`. -/
inductive RowFate (op : Op) (id : Nat) (m : MailRow) : Option MailRow → Prop
  | kept : RowFate op id m (some m)
  | read {now : Int} (hop : op = .markMailRead id now) (hunread : m.readAt = none) :
      RowFate op id m (some { m with readAt := some now })
  | deleted (hop : op = .deleteMail id m.toPubkey) (hin : m.deleted = false) :
      RowFate op id m (some { m with deleted := true })
  | purged {beforeTs readAt : Int} (hop : op = .purgeOldReadMail beforeTs)
      (hread : m.readAt = some readAt) (hold : readAt < beforeTs) : RowFate op id m none

section Row

variable {mail mail' : RowTable MailRow} {op : Op} {id : Nat} {m : MailRow}

theorem rowFate_of_step (h : MailStep mail op mail') (hm : mail.get? id = some m) :
    RowFate op id m (mail'.get? id) := by
  cases h with
  | same =>
    rw [hm]
    exact .kept
  | insert =>
    rw [RowTable.get?_insert_of_some hm]
    exact .kept
  | @read id' now =>
    rw [RowTable.get?_modify, hm, Option.map_some]
    split
    · next hid =>
      subst hid
      cases hunread : m.readAt with
      | none => exact .read rfl hunread
      | some readAt => exact .kept
    · exact .kept
  | @delete id' viewer =>
    rw [RowTable.get?_modify, hm, Option.map_some]
    split
    · next hid =>
      subst hid
      split
      · next hto =>
        subst hto
        cases hin : m.deleted with
        | false => exact .deleted rfl hin
        | true =>
          have hsame : { m with deleted := true } = m := by rw [← hin]
          rw [hsame]
          exact .kept
      · exact .kept
    · exact .kept
  | @purge beforeTs =>
    rw [RowTable.get?_filterRows, hm, Option.filter_some]
    split
    · exact .kept
    · next hold =>
      obtain ⟨readAt, hread, hlt⟩ := (Option.any_eq_true ..).mp (by simpa using hold)
      exact .purged rfl hread (of_decide_eq_true hlt)

/-- A row that is gone does not come back. -/
theorem none_of_step (h : MailStep mail op mail') (hm : mail.get? id = none) (hid : id ≤ mail.seq) :
    mail'.get? id = none := by
  cases h with
  | same => exact hm
  | insert => rw [RowTable.get?_insert, if_neg (by omega), hm]
  | read => rw [RowTable.get?_modify, hm, Option.map_none, ite_self]
  | delete => rw [RowTable.get?_modify, hm, Option.map_none, ite_self]
  | purge => rw [RowTable.get?_filterRows, hm, Option.filter_none]

theorem seq_le_of_step (h : MailStep mail op mail') : mail.seq ≤ mail'.seq := by
  cases h with
  | insert => exact Nat.le_succ _
  | _ => exact le_refl _

theorem RowFate.toPubkey {row : MailRow} (h : RowFate op id m (some row)) :
    row.toPubkey = m.toPubkey := by
  cases h <;> rfl

theorem RowFate.fromPubkey {row : MailRow} (h : RowFate op id m (some row)) :
    row.fromPubkey = m.fromPubkey := by
  cases h <;> rfl

end Row

/-- Nothing but the purge removes a mail, and its parties stay. -/
theorem mail_kept {op : Op} (hop : ∀ beforeTs, op ≠ .purgeOldReadMail beforeTs) (py : Py) {w : World}
    {id : Nat} {m : MailRow} (hm : w.mail.get? id = some m) :
    ∃ m', (op.run py w).2.mail.get? id = some m' ∧ m'.fromPubkey = m.fromPubkey ∧
      m'.toPubkey = m.toPubkey := by
  have hfate := rowFate_of_step (run_mail py op w) hm
  cases hrow : (op.run py w).2.mail.get? id with
  | none =>
    rw [hrow] at hfate
    cases hfate with
    | purged hpurge => exact absurd hpurge (hop _)
  | some m' =>
    rw [hrow] at hfate
    exact ⟨m', rfl, hfate.fromPubkey, hfate.toPubkey⟩

/-- A mail that is there after any operation but `add_mail` was there before it. -/
theorem mail_old {op : Op} (hop : ∀ fromPk toPk body now, op ≠ .addMail fromPk toPk body now) {py : Py}
    {w : World} {id : Nat} {m : MailRow} (hm : (op.run py w).2.mail.get? id = some m) :
    ∃ old, w.mail.get? id = some old ∧ m.fromPubkey = old.fromPubkey ∧ m.toPubkey = old.toPubkey := by
  have hseq : (op.run py w).2.mail.seq = w.mail.seq := by
    cases op with
    | addMail => exact absurd rfl (hop _ _ _ _)
    | insertUser =>
      rw [Op.run]
      split <;> rfl
    | _ => first | rfl | exact Op.check_frame (fun w => w.mail.seq) rfl
  cases hold : w.mail.get? id with
  | none =>
    have hid : id ≤ w.mail.seq := hseq ▸ RowTable.get?_le_seq hm
    cases (none_of_step (run_mail py op w) hold hid).symm.trans hm
  | some old =>
    have hfate := rowFate_of_step (run_mail py op w) hold
    rw [hm] at hfate
    exact ⟨old, rfl, hfate.fromPubkey, hfate.toPubkey⟩

/-! ## What others do meanwhile -/

/-- No row changes its addressee, and no id is given out again. -/
structure Rely (s t : World) : Prop where
  clock : s.clock ≤ t.clock
  seq : s.mail.seq ≤ t.mail.seq
  addressee : ∀ id row, t.mail.get? id = some row → id ≤ s.mail.seq →
    ∃ old, s.mail.get? id = some old ∧ row.toPubkey = old.toPubkey

theorem rely_refl (s : World) : Rely s s := ⟨le_refl _, le_refl _, fun _ row h _ => ⟨row, h, rfl⟩⟩

theorem rely_trans (s t u : World) (hst : Rely s t) (htu : Rely t u) : Rely s u where
  clock := hst.clock.trans htu.clock
  seq := hst.seq.trans htu.seq
  addressee := by
    intro id row hrow hid
    obtain ⟨row', hrow', hto⟩ := htu.addressee id row hrow (hid.trans hst.seq)
    obtain ⟨old, hold, hto'⟩ := hst.addressee id row' hrow' hid
    exact ⟨old, hold, hto.trans hto'⟩

theorem rely_run (py : Py) (op : Op) (s : World) : Rely s (op.run py s).2 := by
  have hstep := run_mail py op s
  refine ⟨Op.run_clock.ge, seq_le_of_step hstep, fun id row hrow hid => ?_⟩
  cases hold : s.mail.get? id with
  | none => cases (none_of_step hstep hold hid).symm.trans hrow
  | some old =>
    have hfate := rowFate_of_step hstep hold
    rw [hrow] at hfate
    exact ⟨old, rfl, hfate.toPubkey⟩

theorem rely_outside {s t : World} {e : Outside} (h : e.run s = some t) : Rely s t := by
  have hframe := Outside.frame h
  refine ⟨hframe.clock, ?_, ?_⟩
  · rw [hframe.store]
  · rw [hframe.store]
    exact fun _ row hrow _ => ⟨row, hrow, rfl⟩

/-- The mail with this id, if it is still there, is addressed to `pk`. -/
def Addressed (id : Nat) (pk : Pubkey) (s : World) : Prop :=
  id ≤ s.mail.seq ∧ ∀ row, s.mail.get? id = some row → row.toPubkey = pk

theorem Addressed.rely {id : Nat} {pk : Pubkey} (s t : World) (hR : Rely s t)
    (h : Addressed id pk s) : Addressed id pk t := by
  refine ⟨h.1.trans hR.seq, fun row hrow => ?_⟩
  obtain ⟨old, hold, hto⟩ := hR.addressee id row hrow h.1
  exact hto.trans (h.2 old hold)

/-! ## What a request promises -/

section Guarantee

variable (sv : Services)

/-- The message is this command on the mail with this id. -/
def Asks (verb : Text) (id : Nat) (msg : InboundMessage) : Prop :=
  ∃ parsed a, Commands.parse sv.py msg.body = some parsed ∧ parsed.verb = verb ∧
    parsed.args.head? = some a ∧ sv.py.int a = some id

def Guarantee (r : Request) : Op → World → Prop
  | .getMail _ viewer, _ | .listMail viewer .., _ => ∃ msg, r = .inbound msg ∧ msg.pubkey = viewer
  | .markMailRead id _, s =>
    ∃ msg, r = .inbound msg ∧ Asks sv (lit "READMAIL") id msg ∧ Addressed id msg.pubkey s
  | .deleteMail id viewer, _ =>
    ∃ msg, r = .inbound msg ∧ Asks sv (lit "DELETE") id msg ∧ msg.pubkey = viewer
  | .purgeOldReadMail beforeTs, s => r = .auditPrune ∧ 0 < sv.mail.readRetentionDays ∧
      beforeTs ≤ s.now - sv.mail.readRetentionDays * 86400
  | _, _ => True

end Guarantee

section Meets

variable {sv : Services} {r : Request} {msg : InboundMessage}

/-- The operations of `m` meet the guarantee of `r` while others act. -/
abbrev Meets {α : Type} (sv : Services) (r : Request) (m : Prog α) : Prop :=
  Coroutine.Meets (Op.run sv.py) Rely (Guarantee sv r) m

theorem guarantee_of_ordinary (op : Op) (s : World) (h : op.Ordinary msg.pubkey) :
    Guarantee sv (.inbound msg) op s := by
  cases op with
  | getMail => exact ⟨msg, rfl, h.symm⟩
  | listMail => exact ⟨msg, rfl, h.symm⟩
  | markMailRead | deleteMail | purgeOldReadMail => cases h
  | _ => trivial

theorem guarantee_of_reception (op : Op) (s : World) (h : op.Reception msg.pubkey) :
    Guarantee sv (.inbound msg) op s := by
  cases op with
  | enqueueOutbound | seeUser | insertUser | touchUser => trivial
  | _ => exact guarantee_of_ordinary _ s h

theorem guarantee_of_command {verb : Text} (hread : verb ≠ lit "READMAIL")
    (hdelete : verb ≠ lit "DELETE") (op : Op) (s : World) (h : op.OfCommand sv msg.pubkey verb) :
    Guarantee sv (.inbound msg) op s := by
  rcases h with h | h
  · exact guarantee_of_ordinary op s h
  · cases op with
    | markMailRead => exact absurd h hread
    | deleteMail => exact absurd h.1 hdelete
    | getMail | listMail | purgeOldReadMail => cases h
    | _ => trivial

theorem guarantee_of_request (hprune : r ≠ .auditPrune) (op : Op) (s : World)
    (h : op.OfRequest r) : Guarantee sv r op s := by
  cases op with
  | purgeOldReadMail => exact absurd h hprune
  | getMail | listMail | markMailRead | deleteMail => cases h
  | _ => trivial

theorem meets_of_does {α : Type} {m : Prog α} {P : Op → Prop} (h : m.Does P)
    (hP : ∀ op s, P op → Guarantee sv r op s) : Meets sv r m :=
  h.meets (fun _ _ => Op.mayRaise_of_run) hP

theorem ordinary_meets {α : Type} {m : Prog α} (h : m.Does (Op.Ordinary msg.pubkey)) :
    Meets sv (.inbound msg) m :=
  meets_of_does h guarantee_of_ordinary

theorem reception_meets {α : Type} {m : Prog α} (h : m.Does (Op.Reception msg.pubkey)) :
    Meets sv (.inbound msg) m :=
  meets_of_does h guarantee_of_reception

/-! ## The requests keep their promise -/

theorem auditPruneJob_meets : Meets sv .auditPrune (Scheduler.auditPruneJob sv) := by
  have hcall {op : Op} (h : ∀ s, Guarantee sv .auditPrune op s) : Meets sv .auditPrune (call op) :=
    fun _ => safe_perform fun t _ => ⟨h t, trivial⟩
  refine .bind (hcall fun _ => trivial) fun now => .bind (hcall fun _ => trivial) fun _ => ?_
  unfold Services.purgeOldRead
  split
  · exact meets_pure ()
  · next hdays =>
    refine fun s => .bind (safe_perform fun t _ => ⟨trivial, ?_⟩)
    refine safe_perform fun u hR => ⟨⟨rfl, not_le.mp hdays, ?_⟩, trivial⟩
    have : ⌊t.clock⌋ ≤ ⌊u.clock⌋ := Int.floor_mono hR.clock
    simp only [World.now]
    omega

/-- The mail is looked up under the reader's key, and marked when the lookup has found it. -/
theorem readMail_meets {id : Nat} (hasks : Asks sv (lit "READMAIL") id msg) :
    Meets sv (.inbound msg) (Services.readMail msg.pubkey id) := by
  refine fun s => .bind (safe_perform fun t _ => ⟨⟨msg, rfl, rfl⟩, ?_⟩)
  simp only [Op.run, Op.check]
  split
  · dsimp only [Option.elim_some]
    cases hfound : t.getMail id msg.pubkey with
    | none => trivial
    | some m =>
      have hmine : Addressed id msg.pubkey t := by
        obtain ⟨row, hrow, ⟨hto, -⟩, -⟩ := (Store.getMail_eq_some_iff _).mp hfound
        refine ⟨RowTable.get?_le_seq hrow, fun row' hrow' => ?_⟩
        cases hrow.symm.trans hrow'
        exact hto
      have hname := Sat.safe (R := Rely) (G := Guarantee sv (.inbound msg))
        (I := Addressed id msg.pubkey) (nameOf_runs (fun _ h => h) m.fromPubkey)
        (fun _ s (h : (Op.run sv.py _ s).1 = none) => Op.mayRaise_of_run h)
        (fun op s hop _ => guarantee_of_ordinary op s (hop.ordinary _)) Addressed.rely
        (fun op s _ => Addressed.rely _ _ (rely_run sv.py op s)) hmine
      refine .bind (hname.mono fun sname u hu => ?_)
      cases sname with
      | none => trivial
      | some sname =>
        refine .bind (safe_perform fun v huv => ⟨trivial, ?_⟩)
        refine .bind (safe_perform fun x hvx => ⟨⟨msg, rfl, hasks, ?_⟩, ?_⟩)
        · exact Addressed.rely _ _ hvx (Addressed.rely _ _ huv hu.1)
        · cases ((Op.markMailRead id ⌊v.clock⌋).run sv.py x).1 <;> trivial
  · trivial

theorem deleteMail_meets {id : Nat} (hasks : Asks sv (lit "DELETE") id msg) :
    Meets sv (.inbound msg) (Services.deleteMail msg.pubkey id) :=
  .bind (fun _ => safe_perform fun _ _ => ⟨⟨msg, rfl, hasks, rfl⟩, trivial⟩) fun _ => meets_pure _

theorem onMailId_meets {parsed : ParsedCommand} {usage verb : Text} {f : Nat → Prog Text}
    (hparse : Commands.parse sv.py msg.body = some parsed) (hverb : parsed.verb = verb)
    (hf : ∀ id, Asks sv verb id msg → Meets sv (.inbound msg) (f id)) :
    Meets sv (.inbound msg) (onMailId sv usage f msg.pubkey parsed verb) := by
  have hanswer (text : Text) : Meets sv (.inbound msg) (answer msg.pubkey text (some verb)) :=
    ordinary_meets (answer_runs ..).does
  unfold onMailId
  split
  · exact hanswer _
  · next a args hargs =>
    split
    · exact hanswer _
    · split
      · exact fun _ => trivial
      · next id hid =>
        have hasks : Asks sv verb id msg :=
          ⟨parsed, a, hparse, hverb, by rw [hargs]; rfl, hid⟩
        exact .bind (hf id hasks) hanswer

theorem dispatch_meets {parsed : ParsedCommand}
    (hparse : Commands.parse sv.py msg.body = some parsed) :
    Meets sv (.inbound msg) (dispatch sv msg parsed) := by
  by_cases hread : parsed.verb = lit "READMAIL"
  · have hdispatch : dispatch sv msg parsed =
        handleReadmail sv msg.pubkey parsed (lit "READMAIL") := by
      simp only [dispatch, hread]
      rfl
    rw [hdispatch]
    exact onMailId_meets hparse hread fun _ => readMail_meets
  by_cases hdelete : parsed.verb = lit "DELETE"
  · have hdispatch : dispatch sv msg parsed =
        handleDeleteMail sv msg.pubkey parsed (lit "DELETE") := by
      simp only [dispatch, hdelete]
      rfl
    rw [hdispatch]
    exact onMailId_meets hparse hdelete fun _ => deleteMail_meets
  · exact meets_of_does dispatch_ofCommand (guarantee_of_command hread hdelete)

theorem route_meets (user : User) : Meets sv (.inbound msg) (route sv msg user) := by
  unfold route
  split
  · exact ordinary_meets (handleOnboarding_does fun _ _ _ => rfl)
  · split
    · exact ordinary_meets (answer_runs ..).does
    · next parsed hparse =>
      have hlog : Meets sv (.inbound msg) (call (.logCommand msg.pubkey msg.body)) :=
        fun _ => safe_perform fun _ _ => ⟨trivial, trivial⟩
      exact .bind hlog fun _ =>
        .orElse (dispatch_meets hparse) (ordinary_meets (answer_runs ..).does)

theorem serve_meets (user : User) (isNew : Bool) :
    Meets sv (.inbound msg) (serve sv msg user isNew) := by
  have hlimits : Meets sv (.inbound msg) (limited sv msg user) := by
    refine .bind (ordinary_meets consumeInbound_does) fun refused => ?_
    split
    · exact ordinary_meets (replyThrottled_does ..)
    · exact route_meets user
  rw [serve_eq]
  split
  · exact .bind (reception_meets (notifyAdminsNewUser_does ..)) fun _ => hlimits
  · exact hlimits

theorem handleInbound_meets : Meets sv (.inbound msg) (handleInbound sv msg) := by
  unfold handleInbound
  split
  · exact meets_pure ()
  · refine .bind (reception_meets (call_does trivial)) fun now => ?_
    refine .bind (reception_meets (upsert_does ..)) fun (user, isNew) => ?_
    refine .bind (reception_meets (call_does rfl)) fun _ => ?_
    split
    · exact meets_pure ()
    · exact serve_meets user isNew

theorem request_meets (r : Request) : Meets sv r (r.prog sv) := by
  rcases r.inbound_or with ⟨msg, rfl⟩ | hr
  · exact handleInbound_meets
  · by_cases hprune : r = .auditPrune
    · rw [hprune]
      exact auditPruneJob_meets
    · exact meets_of_does (request_does sv hr) (guarantee_of_request hprune)

end Meets

/-! ## Runs -/

section Runs

/-- The process, whose requests take turns at their operations. -/
abbrev Tasks := Pool Op Op.Res World Request

def step (sv : Services) : Tasks → Pool.Act Request Outside → Option Tasks :=
  Pool.step (Op.run sv.py) (Request.prog sv) fun w e => e.run w

theorem clock_le {sv : Services} {p p' : Tasks} {a : Pool.Act Request Outside}
    (hs : step sv p a = some p') : p.state.clock ≤ p'.state.clock := by
  cases Pool.step_cases hs with
  | spawn => exact le_refl _
  | resume => exact Op.run_clock.ge
  | outside he => exact (Outside.frame he).clock

theorem sound (sv : Services) :
    Pool.Sound (Op.run sv.py) (Request.prog sv) (fun w e => Outside.run w e) Rely (Guarantee sv) where
  trans := rely_trans
  op _ op s _ := rely_run sv.py op s
  outside _ _ _ h := rely_outside h
  prog r s := request_meets r s

/-- The step is taken for this command on the mail with this id, sent by `pk`. -/
def By (sv : Services) (p : Tasks) (a : Pool.Act Request Outside) (verb : Text) (id : Nat)
    (pk : Pubkey) : Prop :=
  ∃ i msg m, a = .resume i ∧ p.tasks[i]? = some (.inbound msg, m) ∧ msg.pubkey = pk ∧
    Asks sv verb id msg

/-- What a step may make of the row `m` with the id `id`. -/
inductive Fate (sv : Services) (p : Tasks) (a : Pool.Act Request Outside) (id : Nat) (m : MailRow) :
    Option MailRow → Prop
  | kept : Fate sv p a id m (some m)
  | read {now : Int} (hunread : m.readAt = none) (hby : By sv p a (lit "READMAIL") id m.toPubkey) :
      Fate sv p a id m (some { m with readAt := some now })
  | deleted (hin : m.deleted = false) (hby : By sv p a (lit "DELETE") id m.toPubkey) :
      Fate sv p a id m (some { m with deleted := true })
  | purged {i : Nat} {job : Prog Unit} {readAt : Int} (ha : a = .resume i)
      (hjob : p.tasks[i]? = some (.auditPrune, job)) (hdays : 0 < sv.mail.readRetentionDays)
      (hread : m.readAt = some readAt)
      (hold : sv.mail.readRetentionDays * 86400 < p.state.now - readAt) : Fate sv p a id m none

/-- The answer shows the mail with the id `id`. -/
def Shows (w : World) (id : Nat) : Op → Prop
  | .getMail id' viewer => ∃ m ∈ w.getMail id' viewer, m.id = id
  | .listMail viewer limit offset => ∃ m ∈ w.listMail viewer limit offset, m.id = id
  | _ => False

variable {sv : Services} {w₀ : World} {p p' : Tasks} {a : Pool.Act Request Outside} {id : Nat}
  {m : MailRow}

theorem guarantee_of_run {ok : Tasks → Pool.Act Request Outside → Prop}
    (hrun : Machine.Run (step sv) ok ⟨w₀, []⟩ p) {i : Nat} {r : Request} {op : Op}
    {k : Option op.Res → Prog Unit} (hi : p.tasks[i]? = some (r, .await op k)) :
    Guarantee sv r op p.state :=
  (sound sv).guarantee rely_refl rfl hrun hi

theorem fate_of_step {ok : Tasks → Pool.Act Request Outside → Prop}
    (hrun : Machine.Run (step sv) ok ⟨w₀, []⟩ p) (hs : step sv p a = some p')
    (hm : p.state.mail.get? id = some m) : Fate sv p a id m (p'.state.mail.get? id) := by
  cases Pool.step_cases hs with
  | spawn =>
    rw [hm]
    exact .kept
  | outside he =>
    rw [(Outside.frame he).store, hm]
    exact .kept
  | @resume i r op k hi =>
    have hpromise := guarantee_of_run hrun hi
    have hfate := rowFate_of_step (run_mail sv.py op p.state) hm
    dsimp only
    generalize (op.run sv.py p.state).2.mail.get? id = row at hfate ⊢
    cases hfate with
    | kept => exact .kept
    | read hop hunread =>
      subst hop
      obtain ⟨msg, rfl, hasks, -, hmine⟩ := hpromise
      exact .read hunread ⟨i, msg, _, rfl, hi, (hmine m hm).symm, hasks⟩
    | deleted hop hin =>
      subst hop
      obtain ⟨msg, rfl, hasks, hmine⟩ := hpromise
      exact .deleted hin ⟨i, msg, _, rfl, hi, hmine, hasks⟩
    | purged hop hread hold =>
      subst hop
      obtain ⟨rfl, hdays, hcutoff⟩ := hpromise
      exact .purged rfl hi hdays hread (by omega)

theorem listMail_mem {store : Store} {pk : Pubkey} {limit offset : Nat} {mail : Mail}
    (h : mail ∈ store.listMail pk limit offset) :
    ∃ row, store.mail.get? mail.id = some row ∧ row.toPubkey = pk ∧ row.deleted = false := by
  obtain ⟨⟨id, row⟩, hrow, rfl⟩ := List.mem_map.mp h
  have hmem := List.mem_of_mem_drop (List.mem_of_mem_take hrow)
  rw [Store.inbox, List.mem_insertionSort, List.mem_filter, Store.visible_iff] at hmem
  exact ⟨row, (store.mail.mem_rows_iff id row).mp hmem.1, hmem.2⟩

/-- An operation shows a mail to nobody but its addressee. -/
theorem shown_to_addressee {ok : Tasks → Pool.Act Request Outside → Prop}
    (hrun : Machine.Run (step sv) ok ⟨w₀, []⟩ p) {i : Nat} {r : Request} {op : Op}
    {k : Option op.Res → Prog Unit} (hi : p.tasks[i]? = some (r, .await op k))
    (hshows : Shows p.state id op) (hm : p.state.mail.get? id = some m) :
    ∃ msg, r = .inbound msg ∧ msg.pubkey = m.toPubkey := by
  have hpromise := guarantee_of_run hrun hi
  cases op with
  | getMail id' viewer =>
    obtain ⟨msg, hr, hviewer⟩ := hpromise
    obtain ⟨mail, hmail, hid⟩ := hshows
    obtain ⟨row, hrow, ⟨hto, -⟩, rfl⟩ := (Store.getMail_eq_some_iff _).mp hmail
    have hid : id' = id := hid
    subst hid
    cases hrow.symm.trans hm
    exact ⟨msg, hr, hviewer.trans hto.symm⟩
  | listMail viewer limit offset =>
    obtain ⟨msg, hr, hviewer⟩ := hpromise
    obtain ⟨mail, hmail, rfl⟩ := hshows
    obtain ⟨row, hrow, hto, -⟩ := listMail_mem hmail
    cases hrow.symm.trans hm
    exact ⟨msg, hr, hviewer.trans hto.symm⟩
  | _ => cases hshows

/-- **Mailbox integrity**: what becomes of a mail in a step of any run, and who is shown it. -/
theorem mailbox_integrity (hrun : Machine.Run (step sv) (fun _ _ => True) ⟨w₀, []⟩ p)
    (hm : p.state.mail.get? id = some m) :
    (∀ a p', step sv p a = some p' → Fate sv p a id m (p'.state.mail.get? id)) ∧
    ∀ (i : Nat) (r : Request) (op : Op) (k : Option op.Res → Prog Unit),
      p.tasks[i]? = some (r, .await op k) → Shows p.state id op →
        ∃ msg, r = .inbound msg ∧ msg.pubkey = m.toPubkey :=
  ⟨fun _ _ hs => fate_of_step hrun hs hm,
    fun _ _ _ _ hi hshows => shown_to_addressee hrun hi hshows hm⟩

/-- `ann` and `bob` have joined, and `ann` has sent `bob` a mail. -/
def mailed : World :=
  (Process.twoJoin ++ [Process.fromUser (lit "aa") "SEND bob hello"]).foldl
    (fun w a => (Process.step Process.asciiServices w a).getD w) (World.start 0)

/-- `bob` reads the mail, up to the operation that marks it. -/
def reading : List (Pool.Act Request Outside) :=
  .spawn (.inbound { pubkey := lit "bb", body := lit "READMAIL 1", hops := some 0 }) ::
    List.replicate 8 (.resume 0)

theorem mailbox_integrity_read : ∃ p p' m m',
    Machine.Run (step Process.asciiServices) (fun _ _ => True) ⟨mailed, []⟩ p ∧
    step Process.asciiServices p (.resume 0) = some p' ∧
    p.state.mail.get? 1 = some m ∧ p'.state.mail.get? 1 = some m' ∧
    m.readAt = none ∧ m'.readAt = some 0 ∧
    Fate Process.asciiServices p (.resume 0) 1 m (some m') := by
  have hrun := Machine.exists_run (step Process.asciiServices) (fun _ _ => true) reading
    (p := fun p => (step Process.asciiServices p (.resume 0)).any fun p' =>
      (p.state.mail.get? 1).any fun m => (p'.state.mail.get? 1).any fun m' =>
        m.readAt = none && m'.readAt = some 0)
    (s := ⟨mailed, []⟩) (by decide +kernel)
  obtain ⟨p, hrun, hp⟩ := hrun
  obtain ⟨p', hs, hp⟩ := (Option.any_eq_true ..).mp hp
  obtain ⟨m, hm, hp⟩ := (Option.any_eq_true ..).mp hp
  obtain ⟨m', hm', hp⟩ := (Option.any_eq_true ..).mp hp
  rw [Bool.and_eq_true, decide_eq_true_iff, decide_eq_true_iff] at hp
  have hall := hrun.mono fun _ _ _ => trivial
  exact ⟨p, p', m, m', hall, hs, hm, hm', hp.1, hp.2, hm' ▸ (mailbox_integrity hall hm).1 _ _ hs⟩

end Runs

end Mailbox

end Bbs
