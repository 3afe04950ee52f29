import MeshcoreBbs.Broadcast
import MeshcoreBbs.Sending

/-!
# Rows for users who are not banned

Answers, mails and broadcasts go to users who are not banned: whatever others do meanwhile, a
message enqueues rows for such users only (`limited_serves`), since nobody else bans anybody.
The notices of a new user and the job that notifies of mail do not look at the flag.
-/

namespace Bbs

open Coroutine

/-- The addressee was banned when the row was inserted. -/
def Entry.toBanned : Entry → Bool
  | inserted _ _ banned => banned
  | _ => false

/-! ## The flag -/

/-- `banned` and `banned_reason` of a pubkey; one that is not a user is not banned. -/
def World.ban (w : World) (pk : Pubkey) : Bool × Option Text :=
  (w.users.getUser pk).elim (false, none) fun u => (u.banned, u.bannedReason)

theorem World.isBanned_eq (w : World) (pk : Pubkey) : w.isBanned pk = (w.ban pk).1 := by
  rw [isBanned, ban]
  cases w.users.getUser pk <;> rfl

namespace Op

variable {py : Py} {op : Op} {w : World}

theorem ban_of_map {w w' : World} {f : User → User} (hrows : w'.users.rows = w.users.rows.map f)
    (hf : ∀ u, (f u).pubkey = u.pubkey)
    (hban : ∀ u, ((f u).banned, (f u).bannedReason) = (u.banned, u.bannedReason)) (pk : Pubkey) :
    w'.ban pk = w.ban pk := by
  rw [World.ban, World.ban, UserTable.getUser_of_map hrows hf]
  cases w.users.getUser pk with
  | none => rfl
  | some u => exact hban u

theorem ban_of_update {w w' : World} {f : User → User} {p : Pubkey}
    (hrows : w'.users.rows = w.users.rows.map (updateRow p f)) (hf : ∀ u, (f u).pubkey = u.pubkey)
    (hban : ∀ u, ((f u).banned, (f u).bannedReason) = (u.banned, u.bannedReason)) (pk : Pubkey) :
    w'.ban pk = w.ban pk := by
  refine ban_of_map hrows (UserTable.updateRow_pubkey hf p) (fun u => ?_) pk
  unfold updateRow
  split
  · exact hban u
  · rfl

/-- A stub is not banned. -/
theorem ban_insertUser {p : Pubkey} {advName : Option Text} {now : Int} (pk : Pubkey) :
    ((insertUser p advName now).run py w).2.ban pk = w.ban pk := by
  rw [run]
  split
  · next hnone =>
    have hrows : (w.users.insertStub p advName now hnone).rows =
      w.users.rows ++ [{ pubkey := p, advName := advName, firstSeen := now, lastSeen := now }] := rfl
    unfold World.ban UserTable.getUser
    rw [hrows, List.find?_append]
    cases w.users.rows.find? fun u => u.pubkey = pk with
    | some u => rfl
    | none =>
      rw [Option.none_or, List.find?_singleton]
      split <;> rfl
  · rfl

theorem ban_setDisplayName {p : Pubkey} {name : Text} (pk : Pubkey) :
    ((setDisplayName p name).run py w).2.ban pk = w.ban pk := by
  rw [run]
  dsimp only
  unfold UserTable.setDisplayName
  split
  · refine ban_of_update rfl (fun u => ?_) (fun u => ?_) pk <;> rfl
  · rfl

/-- Only `set_banned` changes a flag or its reason. -/
theorem run_ban (h : ∀ p banned reason, op ≠ setBanned p banned reason) (pk : Pubkey) :
    (op.run py w).2.ban pk = w.ban pk := by
  cases op with
  | setBanned p banned reason => exact absurd rfl (h p banned reason)
  | insertUser => exact ban_insertUser pk
  | setDisplayName => exact ban_setDisplayName pk
  | seeUser | touchUser | touchUserActivity | markMotdSent =>
    refine ban_of_update rfl (fun u => ?_) (fun u => ?_) pk <;> rfl
  | addMail =>
    rw [run]
    split
    · rfl
    · next hadd =>
      exact congrArg (fun t => (UserTable.getUser t pk).elim (false, none) fun u =>
        (u.banned, u.bannedReason)) (Store.users_addMail hadd)
  | _ => first | rfl | exact check_frame (World.ban · pk) rfl

theorem run_isBanned (h : ∀ p banned reason, op ≠ setBanned p banned reason) (pk : Pubkey) :
    (op.run py w).2.isBanned pk = w.isBanned pk := by
  rw [World.isBanned_eq, World.isBanned_eq, run_ban h]

theorem isBanned_setBanned {p pk : Pubkey} {banned : Bool} {reason : Option Text}
    (h : banned = true → p ≠ pk) (hpk : w.isBanned pk = false) :
    ((setBanned p banned reason).run py w).2.isBanned pk = false := by
  have hrows : (w.users.setBanned p banned reason).rows = w.users.rows.map (updateRow p fun u =>
    { u with banned := banned, bannedReason := reason }) := rfl
  have hkey (u : User) : (updateRow p (fun u : User =>
      { u with banned := banned, bannedReason := reason }) u).pubkey = u.pubkey := by
    unfold updateRow
    split <;> rfl
  have hget := UserTable.getUser_of_map hrows hkey pk
  show ((w.users.setBanned p banned reason).getUser pk).any User.banned = false
  rw [hget, Option.any_map]
  unfold World.isBanned at hpk
  cases hfind : w.users.getUser pk with
  | none => rfl
  | some u =>
    have hupk : u.pubkey = pk := by simpa using List.find?_some hfind
    rw [hfind, Option.any_some] at hpk
    rw [Option.any_some]
    unfold updateRow
    split
    · next hp =>
      cases hb : banned with
      | false => rfl
      | true => exact absurd (hp.symm.trans hupk) (h hb)
    · exact hpk

end Op

namespace Bans

/-! ## While others act -/

/-- The same users are banned. -/
def SameBans (s t : World) : Prop := ∀ pk, t.isBanned pk = s.isBanned pk

/-- Rows go to users who are not banned, and only messages ban. -/
def Guarantee (r : Request) : Op → World → Prop
  | .enqueueOutbound _ row, w => w.isBanned row.toPubkey = false
  | .setBanned .., _ => ∃ msg, r = .inbound msg
  | _, _ => True

/-- None of these users is banned. -/
def Unbanned (pks : List Pubkey) (w : World) : Prop := ∀ pk ∈ pks, w.isBanned pk = false

/-- Rows for these users only, and none of them is banned. -/
def Harmless (pks : List Pubkey) : Op → Prop
  | .enqueueOutbound _ row => row.toPubkey ∈ pks
  | .setBanned p banned _ => banned = true → p ∉ pks
  | _ => True

/-- No row and no ban. -/
def Idle : Op → Prop
  | .enqueueOutbound .. | .setBanned .. => False
  | _ => True

variable {py : Py} {op : Op} {w : World} {pks : List Pubkey} {pk : Pubkey}

theorem sameBans_refl (w : World) : SameBans w w := fun _ => rfl

theorem SameBans.trans {s t u : World} (h : SameBans s t) (h' : SameBans t u) : SameBans s u :=
  fun pk => (h' pk).trans (h pk)

theorem sameBans_run (h : ∀ p banned reason, op ≠ .setBanned p banned reason) :
    SameBans w (op.run py w).2 :=
  Op.run_isBanned h

theorem Idle.sameBans (h : Idle op) : SameBans w (op.run py w).2 := by
  refine sameBans_run fun p banned reason hop => ?_
  rw [hop] at h
  exact h

theorem Unbanned.same {w' : World} (hw : Unbanned pks w) (h : SameBans w w') : Unbanned pks w' :=
  fun pk hpk => (h pk).trans (hw pk hpk)

theorem Unbanned.step (hw : Unbanned pks w) (hop : Harmless pks op) :
    Unbanned pks (op.run py w).2 := by
  intro pk hpk
  cases op with
  | setBanned p banned reason =>
    exact Op.isBanned_setBanned (fun hb heq => hop hb (heq ▸ hpk)) (hw pk hpk)
  | _ => exact (Op.run_isBanned (by simp) pk).trans (hw pk hpk)

theorem Unbanned.guarantee {msg : InboundMessage} (hw : Unbanned pks w) (hop : Harmless pks op) :
    Guarantee (.inbound msg) op w := by
  cases op with
  | enqueueOutbound origin row => exact hw _ hop
  | setBanned => exact ⟨msg, rfl⟩
  | _ => trivial

theorem harmless_of_reads (op : Op) (h : op.Reads) : Harmless pks op := by
  cases op <;> trivial

theorem harmless_of_ordinary (hpk : pk ∈ pks) (h : op.Ordinary pk) : Harmless pks op := by
  cases op with
  | enqueueOutbound origin row =>
    obtain ⟨-, rfl⟩ := h
    exact hpk
  | setBanned => cases h
  | _ => trivial

instance (pk : Pubkey) (pks : List Pubkey) : Op.Admits pk (Harmless (pk :: pks)) :=
  (inferInstance : Op.Admits pk (Op.Ordinary pk)).weaken fun _ =>
    harmless_of_ordinary List.mem_cons_self

theorem ordinary_harmless {α : Type} {m : Prog α} (hpk : pk ∈ pks) (h : m.Does (Op.Ordinary pk)) :
    m.Does (Harmless pks) :=
  h.weaken fun _ => harmless_of_ordinary hpk

theorem answer_harmless (hpk : pk ∈ pks) (text : Text) (verb : Option Text) :
    (Dispatcher.answer pk text verb).Does (Harmless pks) :=
  ordinary_harmless hpk (Dispatcher.answer_runs ..).does

theorem push_harmless (hpk : pk ∈ pks) (origin : Origin) (text : Text) :
    (Dispatcher.push origin pk text).Runs (Harmless pks) :=
  enqueueReply_runs harmless_of_reads fun _ _ => hpk

section Serves

variable {α β : Type} {sv : Services} {msg : InboundMessage} {m : Prog α} {f : α → Prog β}
  {Q : α → World → Prop} {Q' : β → World → Prop}

/-- The message keeps its promise whatever others do, its sender stays welcome, and what it answers
has `Q`. -/
def Serves (sv : Services) (msg : InboundMessage) (m : Prog α) (Q : α → World → Prop) (w : World) :
    Prop :=
  m.Safe (Op.run sv.py) SameBans (Guarantee (.inbound msg))
    (fun r t => t.isBanned msg.pubkey = false ∧ ∀ a, r = some a → Q a t) w

theorem serves_pure {a : α} (hw : w.isBanned msg.pubkey = false) (ha : Q a w) :
    Serves sv msg (pure a) Q w := by
  refine ⟨hw, fun a' h => ?_⟩
  cases h
  exact ha

theorem Serves.bind (h : Serves sv msg m Q w)
    (hf : ∀ a t, t.isBanned msg.pubkey = false → Q a t → Serves sv msg (f a) Q' t) :
    Serves sv msg (m >>= f) Q' w := by
  refine Safe.bind (h.mono fun r t ht => ?_)
  cases r with
  | none => exact ⟨ht.1, nofun⟩
  | some a => exact hf a t ht.1 (ht.2 a rfl)

theorem Serves.orElse {handler : Prog α} (h : Serves sv msg m Q w)
    (hh : ∀ t, t.isBanned msg.pubkey = false → Serves sv msg handler Q t) :
    Serves sv msg (m.orElse handler) Q w := by
  refine Safe.orElse (h.mono fun r t ht => ?_)
  cases r with
  | none => exact hh t ht.1
  | some a => exact ⟨ht.1, fun a' heq => ht.2 a' heq⟩

theorem Serves.mono (h : Serves sv msg m Q w) {Q₁ : α → World → Prop} (hQ : ∀ a t, Q a t → Q₁ a t) :
    Serves sv msg m Q₁ w :=
  Safe.mono h fun _ t ht => ⟨ht.1, fun a ha => hQ a t (ht.2 a ha)⟩

theorem serves_harmless (h : m.Does (Harmless (msg.pubkey :: pks)))
    (hw : Unbanned (msg.pubkey :: pks) w) :
    Serves sv msg m (fun _ t => Unbanned (msg.pubkey :: pks) t) w := by
  have hsafe := h.safe (R := SameBans) (G := Guarantee (.inbound msg))
    (I := Unbanned (msg.pubkey :: pks)) (fun _ s (h : (Op.run sv.py _ s).1 = none) =>
      Op.mayRaise_of_run h) (fun op s hop hs => hs.guarantee hop) (fun s t hst hs => hs.same hst)
    (fun op s hop hs => hs.step hop) hw
  exact hsafe.mono fun r t ht => ⟨ht.1 _ List.mem_cons_self, fun _ _ => ht.1⟩

/-- What concerns the sender alone. -/
theorem serves_own (h : m.Does (Harmless [msg.pubkey])) (hw : w.isBanned msg.pubkey = false) :
    Serves sv msg m (fun _ _ => True) w := by
  refine (serves_harmless h fun pk hpk => ?_).mono fun _ _ _ => trivial
  rwa [List.mem_singleton.mp hpk]

/-- An answer of the world, in which the same users are banned as before. -/
theorem serves_call {op : Op} {Q : op.Res → World → Prop} (hop : Idle op)
    (hw : w.isBanned msg.pubkey = false)
    (hQ : ∀ u a, SameBans w u → (op.run sv.py u).1 = some a →
      SameBans u (op.run sv.py u).2 → Q a (op.run sv.py u).2) : Serves sv msg (call op) Q w := by
  refine safe_perform fun u hu => ⟨?_, ?_, fun a ha => hQ u a hu ha hop.sameBans⟩
  · cases op with
    | enqueueOutbound | setBanned => cases hop
    | _ => trivial
  · exact (hop.sameBans _).trans ((hu _).trans hw)

end Serves

/-! ## Commands -/

variable {sv : Services} {inbound msg : InboundMessage}

theorem harmless_of_command {verb : Text} (h : op.OfCommand sv pk verb) (hpk : pk ∈ pks)
    (hsend : verb ≠ lit "SEND") (hban : verb ≠ lit "ADMIN BAN")
    (hbroadcast : verb ≠ lit "ADMIN BROADCAST") : Harmless pks op := by
  rcases h with h | h
  · exact harmless_of_ordinary hpk h
  · cases op with
    | enqueueOutbound origin row =>
      cases origin with
      | newMail => exact absurd h hsend
      | broadcast admin => exact absurd h.1 hbroadcast
      | answer => cases h
      | newUser => cases h
    | setBanned p banned reason =>
      rintro rfl
      exact absurd h.1 hban
    | _ => trivial

/-- Nobody bans himself. -/
theorem ban_harmless (target reason : Text) : (Services.ban pk target reason).Does (Harmless [pk]) := by
  refine .bind (call_does trivial) fun user => ?_
  split
  · exact sat_pure trivial
  · next user hself =>
    refine does_ite (fun _ => sat_pure trivial) fun hself => ?_
    refine .bind (call_does fun _ hmem => hself (List.mem_singleton.mp hmem)) fun _ => ?_
    exact .bind (call_does trivial) fun _ => sat_pure trivial

theorem dispatch_ban (args : List Text) (rest : Text) :
    (Dispatcher.dispatch sv inbound ⟨lit "ADMIN BAN", args, rest⟩).Does
      (Harmless [inbound.pubkey]) := by
  have hmem : inbound.pubkey ∈ [inbound.pubkey] := List.mem_singleton_self _
  show (Dispatcher.handleAdmin sv inbound.pubkey ⟨lit "ADMIN BAN", args, rest⟩
    (lit "ADMIN BAN")).Does _
  refine does_ite (fun _ => answer_harmless hmem ..) fun _ => ?_
  refine does_ite (fun _ => ?_) fun hverb => absurd rfl hverb
  cases args with
  | nil => exact answer_harmless hmem ..
  | cons target reason => exact .bind (ban_harmless ..) fun reply => answer_harmless hmem ..

/-! ## Mail -/

theorem isBanned_of_eligible {u : User} (hu : u ∈ w.users.rows) (helig : u.eligible = true) :
    w.isBanned u.pubkey = false := by
  rw [World.isBanned, UserTable.getUser_of_mem hu, Option.any_some]
  unfold User.eligible at helig
  rw [Bool.and_eq_true, Bool.not_eq_true'] at helig
  exact helig.2

/-- What `SEND` does with the outcome of `send`. -/
def afterSend (sv : Services) (pk : Pubkey) (v : Text) (sent : Bool × Text × Option User) : Prog Unit := do
  Dispatcher.answer pk sent.2.1 (some v)
  match sent.2.2 with
  | some recipient => if sent.1 then Dispatcher.maybeNotifyRecipient sv recipient.pubkey else pure ()
  | none => pure ()

theorem afterSend_does {P : Op → Prop} [hP : Op.Admits pk P] {sent : Bool × Text × Option User}
    {v : Text} (hset : ∀ u, sent.2.2 = some u → ∀ t, P (.setLastNotifyAt u.pubkey t))
    (hrow : ∀ u, sent.2.2 = some u → ∀ row : OutboundRow, row.toPubkey = u.pubkey →
      P (.enqueueOutbound .newMail row)) : (afterSend sv pk v sent).Does P := by
  refine .bind (Dispatcher.answer_runs ..).does fun _ => ?_
  split
  · next recipient hu =>
    exact does_ite (fun _ => (Dispatcher.maybeNotifyRecipient_runs hP.reads (hset _ hu)
      fun row hpk _ => hrow _ hu row hpk).does) fun _ => sat_pure trivial
  · exact sat_pure trivial

theorem serves_nobody {α : Type} {found : α → Option User} {a : α}
    (hw : w.isBanned msg.pubkey = false) (ha : found a = none) :
    Serves sv msg (pure a) (fun r t => ∀ u, found r = some u → t.isBanned u.pubkey = false) w := by
  refine serves_pure hw fun u hu => ?_
  rw [ha] at hu
  cases hu

theorem serves_found {user : User} (hw : w.isBanned msg.pubkey = false)
    (hfree : w.isBanned user.pubkey = false) :
    Serves sv msg (pure ({ user := some user } : RecipientResolution))
      (fun res t => ∀ u, res.user = some u → t.isBanned u.pubkey = false) w := by
  refine serves_pure hw fun u hu => ?_
  cases hu
  exact hfree

theorem resolveByPrefix_serves (hw : w.isBanned msg.pubkey = false) (identifier : Text) :
    Serves sv msg (sv.resolveByPrefix identifier)
      (fun res t => ∀ u, res.user = some u → t.isBanned u.pubkey = false) w := by
  unfold Services.resolveByPrefix
  dsimp only
  split
  · refine .bind (Q := fun found t => ∀ u ∈ found, u.eligible = true → t.isBanned u.pubkey = false)
      (serves_call trivial hw fun t a _ ha _ u hu helig => ?_) fun found t ht hfound => ?_
    · cases ha
      exact isBanned_of_eligible (List.mem_of_find?_eq_some hu) helig
    · split
      · next byPrefix =>
        by_cases helig : byPrefix.eligible = true
        · rw [if_pos helig]
          exact serves_found ht (hfound _ rfl helig)
        · rw [if_neg helig]
          exact serves_nobody ht rfl
      · exact serves_nobody ht rfl
  · exact serves_nobody hw rfl

theorem resolveLoosely_serves (hw : w.isBanned msg.pubkey = false) (identifier : Text) :
    Serves sv msg (sv.resolveLoosely identifier)
      (fun res t => ∀ u, res.user = some u → t.isBanned u.pubkey = false) w := by
  refine .bind (Q := fun found t => ∀ u ∈ found, t.isBanned u.pubkey = false)
    (serves_call trivial hw fun t a _ ha _ u hu => ?_) fun found t ht hfound => ?_
  · cases ha
    obtain ⟨hmem, helig⟩ := MailService.mem_findUsers hu
    exact isBanned_of_eligible hmem helig
  · split
    · exact resolveByPrefix_serves ht identifier
    · next u => exact serves_found ht (hfound u (List.mem_singleton_self u))
    · exact serves_nobody ht rfl

/-- `resolve_recipient` finds nobody who is banned. -/
theorem resolve_serves (hw : w.isBanned msg.pubkey = false) (identifier : Text) :
    Serves sv msg (sv.resolveRecipient identifier)
      (fun res t => ∀ u, res.user = some u → t.isBanned u.pubkey = false) w := by
  unfold Services.resolveRecipient
  split
  · exact serves_nobody hw rfl
  · refine .bind (Q := fun found t => ∀ u ∈ found, u.eligible = true → t.isBanned u.pubkey = false)
      (serves_call trivial hw fun t a _ ha _ u hu helig => ?_) fun found t ht hfound => ?_
    · cases ha
      exact isBanned_of_eligible (List.mem_of_find?_eq_some hu) helig
    · split
      · next byName =>
        split
        · next helig => exact serves_found ht (hfound _ rfl helig)
        · exact resolveLoosely_serves ht identifier
      · exact resolveLoosely_serves ht identifier

/-- The mail is stored for a recipient who is not banned. -/
theorem send_serves (hw : w.isBanned msg.pubkey = false) (recipientId body : Text) :
    Serves sv msg (sv.send msg.pubkey recipientId body)
      (fun sent t => ∀ u, sent.2.2 = some u → t.isBanned u.pubkey = false) w := by
  refine .bind (resolve_serves hw recipientId) fun resolution t ht hfound => ?_
  dsimp only
  split
  · exact serves_nobody ht rfl
  · split
    · exact serves_nobody ht rfl
    · next recipient hrecipient =>
      have hfree := hfound recipient hrecipient
      split
      · exact serves_nobody ht rfl
      · split
        · exact serves_nobody ht rfl
        · refine .bind (Q := fun _ t => t.isBanned recipient.pubkey = false)
            (serves_call trivial ht fun u a hu _ hsame => ?_) fun time t ht hfree => ?_
          · exact (hsame _).trans ((hu _).trans hfree)
          · refine .bind (Q := fun _ t => t.isBanned recipient.pubkey = false)
              (serves_call trivial ht fun u a hu _ hsame => ?_) fun mailId t ht hfree => ?_
            · exact (hsame _).trans ((hu _).trans hfree)
            · refine serves_pure ht fun v hv => ?_
              cases hv
              exact hfree

/-- A mail is announced to its recipient, who is not banned. -/
theorem afterSend_serves {sent : Bool × Text × Option User} (v : Text)
    (hw : w.isBanned msg.pubkey = false)
    (hsent : ∀ u, sent.2.2 = some u → w.isBanned u.pubkey = false) :
    Serves sv msg (afterSend sv msg.pubkey v sent) (fun _ _ => True) w := by
  have hafter : (afterSend sv msg.pubkey v sent).Does
      (Harmless (msg.pubkey :: (sent.2.2.map User.pubkey).toList)) :=
    afterSend_does (fun _ _ _ => trivial) fun u hu row hrow => by simp [Harmless, hu, hrow]
  refine (serves_harmless hafter fun pk hpk => ?_).mono fun _ _ _ => trivial
  rcases List.mem_cons.mp hpk with rfl | hpk
  · exact hw
  · rw [Option.mem_toList, Option.map_eq_some_iff] at hpk
    obtain ⟨u, hu, rfl⟩ := hpk
    exact hsent u hu

theorem dispatch_send_serves (args : List Text) (rest : Text) (hw : w.isBanned msg.pubkey = false) :
    Serves sv msg (Dispatcher.dispatch sv msg ⟨lit "SEND", args, rest⟩) (fun _ _ => True) w := by
  have hanswer (text : Text) (w : World) (hw : w.isBanned msg.pubkey = false) :
      Serves sv msg (Dispatcher.answer msg.pubkey text (some (lit "SEND"))) (fun _ _ => True) w :=
    serves_own (answer_harmless (List.mem_singleton_self _) ..) hw
  show Serves sv msg (Dispatcher.handleSend sv msg.pubkey ⟨lit "SEND", args, rest⟩ (lit "SEND")) _ w
  unfold Dispatcher.handleSend
  dsimp only
  split
  · exact hanswer _ w hw
  split
  · exact hanswer _ w hw
  refine .bind (serves_own (call_does trivial) hw) fun cfg t ht _ => ?_
  refine .bind (serves_own (ordinary_harmless (List.mem_singleton_self _)
    (Dispatcher.mailLimit_runs (fun _ => ⟨rfl, by decide⟩) _).does) ht) fun refused t ht _ => ?_
  split
  · exact hanswer _ t ht
  split
  · exact hanswer _ t ht
  exact .bind (send_serves ht ..) fun sent t ht hsent => afterSend_serves _ ht hsent

/-- What the ordinary operations and the mail itself keep, `SEND` keeps. -/
theorem dispatch_send_keeps {I : World → Prop} (args : List Text) (rest : Text)
    (hord : ∀ op : Op, op.Ordinary inbound.pubkey → ∀ w, I w → I (op.run sv.py w).2)
    (hsend : ∀ recipientId body, (sv.send inbound.pubkey recipientId body >>=
      afterSend sv inbound.pubkey (lit "SEND")).Keeps (Op.run sv.py) I) :
    (Dispatcher.dispatch sv inbound ⟨lit "SEND", args, rest⟩).Keeps (Op.run sv.py) I := by
  have hordinary {α : Type} {m : Prog α} (h : m.Does (Op.Ordinary inbound.pubkey)) :
      m.Keeps (Op.run sv.py) I := h.keeps hord
  have hanswer (text : Text) : (Dispatcher.answer inbound.pubkey text (some (lit "SEND"))).Keeps
      (Op.run sv.py) I := hordinary (Dispatcher.answer_runs ..).does
  show (Dispatcher.handleSend sv inbound.pubkey ⟨lit "SEND", args, rest⟩ (lit "SEND")).Keeps _ _
  unfold Dispatcher.handleSend
  dsimp only
  split
  · exact hanswer _
  split
  · exact hanswer _
  refine .bind (hordinary (call_does trivial)) fun cfg => ?_
  refine .bind (hordinary (Dispatcher.mailLimit_runs (fun _ => ⟨rfl, by decide⟩) _).does) fun refused => ?_
  split
  · exact hanswer _
  split
  · exact hanswer _
  exact hsend _ _

/-! ## Broadcasts -/

theorem isBanned_of_all (hpk : pk ∈ w.users.allUserPubkeys) : w.isBanned pk = false := by
  obtain ⟨u, hu, rfl⟩ := List.mem_map.mp hpk
  obtain ⟨hmem, hban⟩ := List.mem_filter.mp hu
  rw [World.isBanned, UserTable.getUser_of_mem hmem, Option.any_some]
  simpa using hban

/-- The recipients of a broadcast are not banned. -/
theorem confirm_serves (hw : w.isBanned msg.pubkey = false) :
    Serves sv msg (Services.confirmBroadcast msg.pubkey)
      (fun confirmed t => ∀ pk ∈ confirmed.2.1, t.isBanned pk = false) w := by
  refine .bind (serves_own (call_does trivial) hw) fun pending t ht _ => ?_
  split
  · exact serves_pure ht nofun
  · refine .bind (serves_own (call_does trivial) ht) fun now t ht _ => ?_
    dsimp only
    split
    · exact serves_pure ht nofun
    · refine .bind (Q := fun recipients t => ∀ pk ∈ recipients, t.isBanned pk = false)
        (serves_call trivial ht fun u a _ ha _ pk hpk => ?_) fun recipients t ht hfree => ?_
      · cases ha
        exact isBanned_of_all hpk
      · refine .bind (Q := fun _ t => ∀ pk ∈ recipients, t.isBanned pk = false)
          (serves_call trivial ht fun u _ hu _ hsame pk hpk => ?_) fun _ t ht hfree => ?_
        · exact (hsame pk).trans ((hu pk).trans (hfree pk hpk))
        · exact serves_pure ht hfree

theorem release_serves (v : Text) (hw : w.isBanned msg.pubkey = false) :
    Serves sv msg (Dispatcher.releaseBroadcast msg.pubkey v) (fun _ _ => True) w := by
  refine .bind (confirm_serves hw) fun confirmed t ht hfree => ?_
  obtain ⟨status, recipients, body⟩ := confirmed
  have hdoes : Prog.Does (do
      Dispatcher.answer msg.pubkey status (some v)
      forEach (fun r => if r ≠ msg.pubkey then Dispatcher.push (.broadcast msg.pubkey) r body
        else pure ()) recipients) (Harmless (msg.pubkey :: recipients)) := by
    refine .bind (answer_harmless List.mem_cons_self ..) fun _ => Prog.Runs.does ?_
    refine sat_forEach fun r hr => ?_
    split
    · exact push_harmless (List.mem_cons_of_mem _ hr) ..
    · exact sat_pure rfl
  refine (serves_harmless hdoes fun pk hpk => ?_).mono fun _ _ _ => trivial
  rcases List.mem_cons.mp hpk with rfl | hpk
  · exact ht
  · exact hfree pk hpk

theorem dispatch_broadcast_serves (args : List Text) (rest : Text)
    (hw : w.isBanned msg.pubkey = false) :
    Serves sv msg (Dispatcher.dispatch sv msg ⟨lit "ADMIN BROADCAST", args, rest⟩)
      (fun _ _ => True) w := by
  have hmem : msg.pubkey ∈ [msg.pubkey] := List.mem_singleton_self _
  have hanswer (text : Text) : (Dispatcher.answer msg.pubkey text
      (some (lit "ADMIN BROADCAST"))).Does (Harmless [msg.pubkey]) := answer_harmless hmem ..
  cases hadmin : sv.isAdmin msg.pubkey with
  | false =>
    show Serves sv msg (Dispatcher.handleAdmin sv msg.pubkey ⟨lit "ADMIN BROADCAST", args, rest⟩
      (lit "ADMIN BROADCAST")) _ w
    unfold Dispatcher.handleAdmin
    rw [hadmin]
    exact serves_own (hanswer _) hw
  | true =>
    rw [Broadcast.dispatch_broadcast msg args rest hadmin]
    unfold Dispatcher.handleBroadcast
    split
    · exact release_serves _ hw
    · refine serves_own (does_ite (fun _ => hanswer _) fun _ => ?_) hw
      refine .bind (.bind (call_does trivial) fun now => ?_) fun reply => hanswer reply
      exact .bind (call_does trivial) fun _ => sat_pure trivial

/-! ## Any message -/

theorem dispatch_serves (parsed : ParsedCommand) (hw : w.isBanned msg.pubkey = false) :
    Serves sv msg (Dispatcher.dispatch sv msg parsed) (fun _ _ => True) w := by
  obtain ⟨verb, args, rest⟩ := parsed
  by_cases hsend : verb = lit "SEND"
  · rw [hsend]
    exact dispatch_send_serves args rest hw
  by_cases hban : verb = lit "ADMIN BAN"
  · rw [hban]
    exact serves_own (dispatch_ban args rest) hw
  by_cases hbroadcast : verb = lit "ADMIN BROADCAST"
  · rw [hbroadcast]
    exact dispatch_broadcast_serves args rest hw
  · refine serves_own (Dispatcher.dispatch_ofCommand.weaken fun op hop => ?_) hw
    exact harmless_of_command hop (List.mem_singleton_self _) hsend hban hbroadcast

/-- The limits, and what the message asks for. -/
theorem limited_serves (user : User) (hw : w.isBanned msg.pubkey = false) :
    Serves sv msg (Dispatcher.limited sv msg user) (fun _ _ => True) w := by
  have hown {α : Type} {m : Prog α} (h : m.Does (Op.Ordinary msg.pubkey)) (w : World)
      (hw : w.isBanned msg.pubkey = false) : Serves sv msg m (fun _ _ => True) w :=
    serves_own (ordinary_harmless (List.mem_singleton_self _) h) hw
  refine .bind (hown Dispatcher.consumeInbound_does w hw) fun refused t ht _ => ?_
  split
  · exact hown (Dispatcher.replyThrottled_does _) t ht
  · unfold Dispatcher.route
    split
    · exact hown (Dispatcher.handleOnboarding_does fun _ _ _ => rfl) t ht
    · split
      · exact hown (Dispatcher.answer_runs ..).does t ht
      · next parsed _ =>
        refine .bind (serves_own (call_does trivial) ht) fun _ t ht _ => ?_
        exact .orElse (dispatch_serves parsed ht) (hown (Dispatcher.answer_runs ..).does)

end Bans

end Bbs
