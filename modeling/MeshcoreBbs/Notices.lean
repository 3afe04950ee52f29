import Mathlib.Data.Nat.Digits.Defs
import MeshcoreBbs.Lib.Parts
import MeshcoreBbs.Mailbox
import MeshcoreBbs.Packing

/-!
# Programs that ask before they notify

`SEND` and `mail_notify_job` tell the recipient of new mail when `should_notify` says so, which looks
at the time of the last notice and sets it without an await in between.  The notice itself is enqueued
some awaits later, and the time that the job asks with may be old by then.

`Noticing` says of a program that it enqueues a notice only after `should_notify` has let it, one for
each time; that is so of all requests (`request_noticing`).
-/

namespace Bbs

open Coroutine Dispatcher

namespace Notices

/-- The operation has no part in notices. -/
def Plain : Op → Prop
  | .enqueueOutbound .newMail _ | .setLastNotifyAt .. => False
  | _ => True

/-- What the world may answer while its clock is between `lo` and `hi`. -/
def May (lo : Int) (hi : ℚ) : (op : Op) → Option op.Res → Prop
  | .time, some t => lo ≤ t ∧ t ≤ hi
  | .countUnread _, some n => n ≤ 2 ^ 63
  | op, r => r = none → op.MayRaise

variable (sv : Services) (lo : Int) (hi : ℚ)

/-- The program may still enqueue a notice to `owed`, and asks before it enqueues others. -/
inductive Noticing {α : Type} : Option Pubkey → Prog α → Prop
  | finish {owed} (r : Option α) : Noticing owed (.finish r)
  | quiet {owed op k} (hop : Plain op) (hk : ∀ r, May lo hi op r → Noticing owed (k r)) :
      Noticing owed (.await op k)
  | ask {owed pk k} {now : ℚ} {next : Option ℚ → Option Unit → Prog α} (hlo : lo ≤ now)
      (hhi : now ≤ hi)
      (hdue : ∀ last, sv.due last now = true →
        k (some last) = .await (.setLastNotifyAt pk now) (next last))
      (hnext : ∀ last r, Noticing (some pk) (next last r))
      (hnot : ∀ last, sv.due last now = false → Noticing owed (k (some last))) :
      Noticing owed (.await (.getLastNotifyAt pk) k)
  | enqueue {pk row k} (hto : row.toPubkey = pk) (hk : ∀ r, Noticing none (k r)) :
      Noticing (some pk) (.await (.enqueueOutbound .newMail row) k)
  | lapse {pk m} (hm : Noticing none m) : Noticing (some pk) m

/-! ### Rules -/

section Rules

variable {sv lo hi} {α β : Type} {m : Prog α} {owed : Option Pubkey} {pk : Pubkey}

theorem may_none {op : Op} (h : May lo hi op none) : op.MayRaise := by
  cases op <;> exact h rfl

theorem Noticing.of_none (h : Noticing sv lo hi none m) : Noticing sv lo hi owed m := by
  cases owed with
  | none => exact h
  | some pk => exact .lapse h

theorem Noticing.andThen (h : Noticing sv lo hi owed m) {f : Option α → Prog β}
    (hf : ∀ r, Noticing sv lo hi none (f r)) : Noticing sv lo hi owed (m.andThen f) := by
  induction h with
  | finish r => exact (hf r).of_none
  | quiet hop _ ih => exact .quiet hop fun r hr => ih r hr
  | @ask owed pk k now next hlo hhi hdue _ _ ih ihnot =>
    have hdue' : ∀ last, sv.due last now = true →
        (k (some last)).andThen f = .await (.setLastNotifyAt pk now) fun r => (next last r).andThen f := by
      intro last hlast
      rw [hdue last hlast]
      rfl
    exact .ask hlo hhi hdue' ih ihnot
  | enqueue hto _ ih => exact .enqueue hto ih
  | lapse _ ih => exact .lapse ih

theorem Noticing.bind (h : Noticing sv lo hi owed m) {f : α → Prog β}
    (hf : ∀ a, Noticing sv lo hi none (f a)) : Noticing sv lo hi owed (m >>= f) := by
  rw [bind_eq_andThen]
  refine h.andThen fun r => ?_
  cases r with
  | none => exact .finish none
  | some a => exact hf a

theorem Noticing.orElse {handler : Prog α} (h : Noticing sv lo hi owed m)
    (hh : Noticing sv lo hi none handler) : Noticing sv lo hi owed (m.orElse handler) := by
  rw [orElse_eq_andThen]
  refine h.andThen fun r => ?_
  cases r with
  | none => exact hh
  | some a => exact .finish (some a)

theorem noticing_of_does (h : m.Does Plain) : Noticing sv lo hi owed m := by
  induction m with
  | finish r => exact .finish r
  | await op k ih =>
    obtain ⟨hop, hsome, hnone⟩ := h
    refine .quiet hop fun r hr => ih r ?_
    cases r with
    | none => exact hnone (may_none hr)
    | some a => exact hsome a

theorem noticing_forEach {f : β → Prog Unit} {as : List β}
    (h : ∀ a ∈ as, Noticing sv lo hi none (f a)) : Noticing sv lo hi none (forEach f as) := by
  induction as with
  | nil => exact .finish _
  | cons a as ih =>
    refine (h a List.mem_cons_self).bind fun _ => ?_
    exact ih fun b hb => h b (List.mem_cons_of_mem a hb)

theorem noticing_ite {c : Prop} {_ : Decidable c} {t e : Prog α} (ht : c → Noticing sv lo hi owed t)
    (he : ¬ c → Noticing sv lo hi owed e) : Noticing sv lo hi owed (if c then t else e) := by
  split
  · next hc => exact ht hc
  · next hc => exact he hc

theorem noticing_pure (a : α) : Noticing sv lo hi owed (pure a : Prog α) := .finish _

/-- Some operations without notices come first. -/
theorem noticing_bind {f : α → Prog β} (hm : m.Does Plain)
    (hf : ∀ a, Noticing sv lo hi none (f a)) : Noticing sv lo hi owed (m >>= f) :=
  (noticing_of_does hm).bind hf

/-- The clock is between its bounds. -/
theorem noticing_time {f : ℚ → Prog β}
    (hf : ∀ t : ℚ, lo ≤ t → t ≤ hi → Noticing sv lo hi owed (f t)) :
    Noticing sv lo hi owed (call .time >>= f) := by
  refine .quiet trivial fun r hr => ?_
  cases r with
  | none => exact absurd (may_none hr) id
  | some t => exact hf t hr.1 hr.2

/-! ### A notice -/

theorem splitPackets_of_le {text : Text} {packetBytes : Nat} (h : utf8Len text ≤ packetBytes) :
    ∃ packet, Format.splitPackets text packetBytes = [packet] := by
  have hle : utf8Len (rstripNewlines text) ≤ utf8Len text := by
    obtain ⟨rest, hrest⟩ := List.rdropWhile_prefix (· == '\n') text
    have hlen : utf8Len (rstripNewlines text) + utf8Len rest = utf8Len text :=
      (utf8Len_append ..).symm.trans (congrArg utf8Len hrest)
    omega
  unfold Format.splitPackets
  dsimp only
  split
  · exact ⟨_, rfl⟩
  · rw [if_pos (hle.trans h)]
    exact ⟨_, rfl⟩

/-- A notice fits in one packet. -/
theorem newMailText_packet {unread : Nat} (h : unread ≤ 2 ^ 63) :
    ∃ packet, Format.splitPackets (newMailText unread) Format.defaultPacketBytes = [packet] := by
  refine splitPackets_of_le ?_
  have hlen : (decimal unread).length ≤ 19 := Nat.toDigits_length 10 unread 19 (by omega) (by omega)
  have hfirst : utf8Len (lit "! ") = 2 := by decide
  have hlast : utf8Len (lit " new mail. INBOX to view.") = 25 := by decide
  rw [newMailText, utf8Len_append, utf8Len_append, utf8Len_decimal, hfirst, hlast]
  show _ ≤ 140
  omega

/-- The rest of a notice, once it is let through. -/
def granted (pk : Pubkey) : Prog Unit := do
  let unread ← call (.countUnread pk)
  push .newMail pk (newMailText unread)

theorem push_noticing {text packet : Text}
    (hpacket : Format.splitPackets text Format.defaultPacketBytes = [packet]) :
    Noticing sv lo hi (some pk) (push .newMail pk text) := by
  refine .quiet trivial fun depth _ => ?_
  cases depth with
  | none => exact .finish none
  | some depth =>
    refine .quiet trivial fun cfg _ => ?_
    cases cfg with
    | none => exact .finish none
    | some cfg =>
      refine noticing_ite (fun _ => noticing_pure ()) fun _ => ?_
      rw [hpacket]
      refine .quiet trivial fun now _ => ?_
      cases now with
      | none => exact .finish none
      | some now =>
        refine .enqueue rfl fun r => ?_
        cases r with
        | none => exact .finish none
        | some _ => exact .finish _

theorem granted_noticing : Noticing sv lo hi (some pk) (granted pk) := by
  refine .quiet trivial fun r hr => ?_
  cases r with
  | none => exact absurd (may_none hr) id
  | some unread =>
    obtain ⟨packet, hpacket⟩ := newMailText_packet hr
    exact push_noticing hpacket

variable (sv) in
def notice (pk : Pubkey) (now : ℚ) : Prog Unit := do
  let notify ← sv.shouldNotify pk now
  if !notify then pure () else granted pk

theorem notice_noticing {now : ℚ} (hlo : lo ≤ now) (hhi : now ≤ hi) :
    Noticing sv lo hi none (notice sv pk now) := by
  have hdue : ∀ last, sv.due last now = true →
      ((if sv.due last now then do call (.setLastNotifyAt pk now); pure true else pure false) >>=
        fun notify => if !notify then pure () else granted pk : Prog Unit) =
      .await (.setLastNotifyAt pk now) fun r => r.elim (.finish none) fun _ => granted pk := by
    intro last hlast
    rw [if_pos hlast]
    refine congrArg (Coroutine.await (Op.setLastNotifyAt pk now)) (funext fun r => ?_)
    cases r <;> rfl
  refine Noticing.ask hlo hhi hdue (fun last r => ?_) fun last hlast => ?_
  · cases r with
    | none => exact .finish none
    | some _ => exact granted_noticing
  · show Noticing sv lo hi none ((if sv.due last now then _ else pure false : Prog Bool) >>= _)
    rw [if_neg (by simp [hlast])]
    exact noticing_pure ()

end Rules

/-! ### Requests -/

section Requests

variable {sv lo hi} {pk : Pubkey} {parsed : ParsedCommand} {v : Text}

theorem plain_of_reads (op : Op) (h : op.Reads) : Plain op := by
  cases op with
  | setLastNotifyAt | enqueueOutbound => cases h
  | _ => trivial

instance (pk : Pubkey) : Op.Admits pk Plain where
  reads := plain_of_reads
  audits _ _ _ := trivial
  rates _ _ _ := trivial
  motd := trivial
  mails _ _ := trivial
  mail _ := trivial
  answers _ _ := trivial

/-- Only `SEND` gives notice. -/
theorem plain_of_command {verb : Text} (hverb : verb ≠ lit "SEND") (op : Op)
    (h : op.OfCommand sv pk verb) : Plain op := by
  cases op with
  | setLastNotifyAt =>
    rcases h with h | h
    · cases h
    · exact hverb h
  | enqueueOutbound origin row =>
    cases origin with
    | newMail =>
      rcases h with h | h
      · cases h.1
      · exact hverb h
    | _ => trivial
  | _ => trivial

theorem maybeNotifyRecipient_noticing {recipientPk : Pubkey} :
    Noticing sv lo hi none (maybeNotifyRecipient sv recipientPk) := by
  refine noticing_bind (read_does plain_of_reads trivial) ?_
  intro user
  split
  · exact noticing_pure ()
  · refine noticing_ite (fun _ => noticing_pure ()) fun _ => noticing_time ?_
    intro now _ _
    refine noticing_ite (fun _ => noticing_pure ()) fun _ => noticing_time ?_
    intro now hlo hhi
    exact notice_noticing hlo hhi

theorem send_noticing : Noticing sv lo hi none (handleSend sv pk parsed v) := by
  have hanswer (text : Text) : Noticing sv lo hi none (answer pk text (some v)) :=
    noticing_of_does (answer_runs ..).does
  unfold handleSend
  split
  · exact hanswer _
  · refine noticing_ite (fun _ => hanswer _) fun _ => ?_
    refine noticing_bind (read_does plain_of_reads trivial) ?_
    intro cfg
    refine noticing_bind (mailLimit_runs (fun _ => trivial) _).does ?_
    intro refused
    split
    · exact hanswer _
    · refine noticing_ite (fun _ => hanswer _) fun _ => ?_
      refine noticing_bind (send_does (fun _ _ _ => trivial) ..) ?_
      intro sent
      refine (hanswer _).bind fun _ => ?_
      split
      · exact noticing_ite (fun _ => maybeNotifyRecipient_noticing) fun _ => noticing_pure ()
      · exact noticing_pure ()

variable {inbound : InboundMessage}

theorem dispatch_noticing : Noticing sv lo hi none (dispatch sv inbound parsed) := by
  by_cases hsend : parsed.verb = lit "SEND"
  · have hdispatch : dispatch sv inbound parsed =
        handleSend sv inbound.pubkey parsed (lit "SEND") := by
      simp only [dispatch, hsend]
      rfl
    rw [hdispatch]
    exact send_noticing
  · exact noticing_of_does (dispatch_ofCommand.weaken (plain_of_command hsend))

theorem handleInbound_noticing : Noticing sv lo hi none (handleInbound sv inbound) := by
  have hroute (user : User) : Noticing sv lo hi none (route sv inbound user) := by
    unfold route
    split
    · exact noticing_of_does (handleOnboarding_does fun _ _ _ => trivial)
    · split
      · exact noticing_of_does (answer_runs ..).does
      · refine noticing_bind (call_does trivial) fun _ => ?_
        exact dispatch_noticing.orElse (noticing_of_does (answer_runs ..).does)
  have hlimited (user : User) : Noticing sv lo hi none (limited sv inbound user) := by
    refine noticing_bind consumeInbound_does ?_
    intro refused
    split
    · exact noticing_of_does (replyThrottled_does _)
    · exact hroute user
  refine noticing_ite (fun _ => noticing_pure ()) fun _ => ?_
  refine noticing_bind (read_does plain_of_reads trivial) ?_
  intro now
  refine noticing_bind (upsertUserFirstSeen_does plain_of_reads (fun _ _ => trivial)
    (fun _ _ => trivial) ..) ?_
  intro user
  refine noticing_bind (call_does trivial) fun _ => ?_
  refine noticing_ite (fun _ => noticing_pure ()) fun _ => ?_
  rw [serve_eq]
  refine noticing_ite (fun _ => ?_) fun _ => hlimited _
  exact noticing_bind (notifyAdminsNewUser_runs plain_of_reads (fun _ _ => trivial) _).does fun _ =>
    hlimited _

/-- The job asks for all its recipients with the time at which it begins. -/
theorem mailNotifyJob_noticing : Noticing sv lo hi none (Scheduler.mailNotifyJob sv) := by
  refine noticing_bind (read_does plain_of_reads trivial) fun recipients => noticing_time ?_
  intro now hlo hhi
  refine noticing_forEach fun pk _ => ?_
  refine noticing_bind (read_does plain_of_reads trivial) ?_
  intro user
  split
  · exact noticing_pure ()
  · refine noticing_ite (fun _ => noticing_pure ()) fun _ => ?_
    exact notice_noticing (Int.cast_le.mpr (Int.le_floor.mpr hlo)) ((Int.floor_le now).trans hhi)

/-- No other job and no request of the dashboard gives notice. -/
theorem job_plain {r : Request} (hr : ∀ msg, r ≠ .inbound msg) (hnotify : r ≠ .mailNotify) :
    (r.prog sv).Does Plain := by
  have hread := plain_of_reads
  have haudit (actor : Option Pubkey) (action detail : Text) :
      (call (.audit actor action detail)).Does Plain := call_does trivial
  cases r with
  | inbound msg => exact absurd rfl (hr msg)
  | mailNotify => exact absurd rfl hnotify
  | meshActivity pubkey =>
    cases pubkey with
    | none => exact sat_pure trivial
    | some pubkey =>
      refine does_ite (fun _ => sat_pure trivial) fun _ => .bind (call_does trivial) fun now => ?_
      exact .bind (call_does trivial) fun _ => sat_pure trivial
  | weatherRefresh =>
    exact .bind (summaryFor_does hread trivial fun _ _ _ => trivial) fun _ => sat_pure trivial
  | auditPrune =>
    refine .bind (call_does trivial) fun now => .bind (call_does trivial) fun _ => ?_
    refine does_ite (fun _ => sat_pure trivial) fun _ => ?_
    exact .bind (call_does trivial) fun now => call_does trivial
  | boardsCreate slug description =>
    refine does_ite (fun _ => sat_pure trivial) fun _ => ?_
    refine .bind (addBoard_does hread fun _ _ _ => trivial) fun reply => ?_
    exact does_ite (fun _ => sat_pure trivial) fun _ => haudit ..
  | boardsDelete slug =>
    refine does_ite (fun _ => sat_pure trivial) fun _ => ?_
    refine .bind (deleteBoard_does hread (fun _ => trivial) fun _ => trivial) fun reply => ?_
    exact does_ite (fun _ => sat_pure trivial) fun _ => haudit ..
  | boardPostsCreate slug author body =>
    exact apiBoardPostsCreate_does sv hread (fun _ _ _ _ => trivial) (fun _ _ _ => trivial) ..
  | boardPostsDelete slug postId =>
    refine .bind (call_does trivial) fun post => ?_
    split
    · exact sat_pure trivial
    · refine does_ite (fun _ => sat_pure trivial) fun _ => .bind (call_does trivial) fun ok => ?_
      exact does_ite (fun _ => sat_pure trivial) fun _ => haudit ..
  | advert => exact .bind (call_does trivial) fun _ => haudit ..

theorem request_noticing (r : Request) : Noticing sv lo hi none (r.prog sv) := by
  by_cases hnotify : r = .mailNotify
  · rw [hnotify]
    exact mailNotifyJob_noticing
  · rcases r.inbound_or with ⟨msg, rfl⟩ | hjob
    · exact handleInbound_noticing
    · exact noticing_of_does (job_plain hjob hnotify)

end Requests

end Notices

end Bbs
