import MeshcoreBbs.Gates
import MeshcoreBbs.InternalErrors
import MeshcoreBbs.PostLimits

/-!
# What a post or a mail is charged

`POST` and `SEND` consume their limits before they try to store anything.  `Charged` says what
an attempt leaves of the windows and of the tables, and `Wasted` is one that pays and stores nothing.
-/

namespace Bbs

open Coroutine Dispatcher RateLimiter

/-- What `POST` and `SEND` store. -/
inductive Kind
  | post
  | mail
  deriving DecidableEq

/-- The last id given out in the table: it grows with every row stored, and only then. -/
def World.lastId (w : World) : Kind → Nat
  | .post => w.posts.seq
  | .mail => w.mail.seq

namespace Quotas

/-- The buckets of a post or a mail. -/
def buckets : Kind → List Text
  | .post => [lit "post_hour", lit "post_day"]
  | .mail => [lit "mail_day"]

theorem not_inboundBucket_of_mem {kind : Kind} {bucket : Text} (h : bucket ∈ buckets kind) :
    ¬ Op.InboundBucket bucket := by
  cases kind with
  | post =>
    simp only [buckets, List.mem_cons, List.not_mem_nil, or_false] at h
    rcases h with rfl | rfl
    · unfold Op.InboundBucket
      decide
    · unfold Op.InboundBucket
      decide
  | mail =>
    obtain rfl := List.mem_singleton.mp h
    unfold Op.InboundBucket
    decide

/-! ## What charges and stores nothing -/

/-- Everything but a limit of `POST` or `SEND`, a new post and a new mail. -/
def Quiet : Op → Prop
  | .setRateWindow _ bucket _ => Op.InboundBucket bucket
  | .addPost .. | .addMail .. => False
  | _ => True

instance (pk : Pubkey) : Op.Receives pk Quiet where
  reads op hop := by cases op <;> first | exact hop | trivial
  answers _ _ := trivial
  audits _ _ _ := trivial
  rates _ _ h := h
  motd := trivial
  mails _ _ := trivial
  mail _ := trivial
  sees _ _ := trivial
  inserts _ _ := trivial
  touches _ _ := trivial
  notices _ := trivial

/-- Nothing is charged to a post or a mail and nothing is stored. -/
structure Alike (w w' : World) : Prop where
  rates : ∀ pk bucket, ¬ Op.InboundBucket bucket → w'.rates pk bucket = w.rates pk bucket
  lastId : ∀ kind, w'.lastId kind = w.lastId kind

variable {py : Py} {sv : Services} {op : Op} {w w' w₀ : World} {pk : Pubkey} {bucket : Text}
  {msg : InboundMessage}

theorem Alike.refl (w : World) : Alike w w := ⟨fun _ _ _ => rfl, fun _ => rfl⟩

theorem run_rates (h : Quiet op) (hbucket : ¬ Op.InboundBucket bucket) :
    (op.run py w).2.rates pk bucket = w.rates pk bucket := by
  cases op with
  | setRateWindow pk' bucket' window =>
    have hne : bucket ≠ bucket' := fun heq => hbucket (heq ▸ h)
    show w.setRate pk' bucket' window pk bucket = _
    unfold World.setRate
    by_cases hpk : pk = pk'
    · rw [hpk, Function.update_self, Function.update_of_ne hne]
    · rw [Function.update_of_ne hpk]
  | insertUser | addMail =>
    rw [Op.run]
    split <;> rfl
  | _ => first | rfl | exact Op.check_frame (fun w => w.rates pk bucket) rfl

theorem run_lastId (h : Quiet op) (kind : Kind) : (op.run py w).2.lastId kind = w.lastId kind := by
  cases op with
  | addPost | addMail => cases h
  | insertUser =>
    rw [Op.run]
    split <;> rfl
  | _ =>
    cases kind <;> first
      | rfl
      | exact Op.check_frame (fun w => w.posts.seq) rfl
      | exact Op.check_frame (fun w => w.mail.seq) rfl

theorem Alike.step (hw : Alike w₀ w) (h : Quiet op) : Alike w₀ (op.run py w).2 where
  rates pk bucket hbucket := (run_rates h hbucket).trans (hw.rates pk bucket hbucket)
  lastId kind := (run_lastId h kind).trans (hw.lastId kind)

theorem alike_of_does {α : Type} {m : Prog α} (h : m.Does Quiet) (hw : Alike w₀ w) :
    Alike w₀ (m.run (Op.run py) w).2 :=
  h.keeps (fun _ hop _ hw => hw.step hop) w hw

theorem alike_answer (text : Text) (verb : Option Text) (hw : Alike w₀ w) :
    Alike w₀ ((answer pk text verb).run (Op.run py) w).2 :=
  alike_of_does (answer_runs ..).does hw

/-! ## Attempts -/

end Quotas

/-- A `POST` or a `SEND` that consumes its limits. -/
inductive Attempt
  | post (slug body : Text)
  | mail (recipientId body : Text)

namespace Attempt

def kind : Attempt → Kind
  | post .. => .post
  | mail .. => .mail

/-- The limits, in the order in which they are consumed. -/
def limits (limits : LimitsConfig) : Attempt → List (Text × RateLimit)
  | post .. => postLimits limits
  | mail .. => [(lit "mail_day", ⟨limits.mailSendPerDay, 86400⟩)]

/-- The body may be stored. -/
def BodyFits (sv : Services) (body : Text) : Prop :=
  strip body ≠ [] ∧ ((strip body).length : Int) ≤ sv.maxBodyChars

instance (sv : Services) (body : Text) : Decidable (BodyFits sv body) :=
  inferInstanceAs (Decidable (_ ∧ _))

/-- What is attempted can be stored: the board is there, or one user answers to the identifier. -/
def Storable (sv : Services) (w : World) : Attempt → Prop
  | post slug body => Services.isSlug (sv.py.lower slug) = true ∧
      (w.getBoard (sv.py.lower (sv.py.lower slug))).isSome = true ∧ BodyFits sv body
  | mail recipientId body =>
    let resolution := MailService.resolveRecipient sv.py.lower w.users recipientId
    resolution.ambiguousNames.getD [] = [] ∧ resolution.user.isSome = true ∧ BodyFits sv body

instance (sv : Services) (w : World) (a : Attempt) : Decidable (a.Storable sv w) :=
  match a with
  | post .. => inferInstanceAs (Decidable (_ ∧ _))
  | mail .. => inferInstanceAs (Decidable (_ ∧ _))

end Attempt

namespace Quotas

variable {py : Py} {sv : Services} {op : Op} {w w' w₀ : World} {pk : Pubkey} {bucket : Text}
  {msg : InboundMessage} {a : Attempt} {now : Int} {windows : Windows}
  {limits : List (Text × RateLimit)}

/-- What a parsed command attempts. -/
def attemptOf (sv : Services) (parsed : ParsedCommand) : Option Attempt :=
  match parsed.args with
  | [] => none
  | first :: _ =>
    let body := stripLeading sv.py first parsed.rest
    if parsed.verb = lit "POST" then some (.post first body)
    else if parsed.verb = lit "SEND" ∧ parsed.rest ≠ [] then some (.mail first body)
    else none

def attempt (sv : Services) (msg : InboundMessage) : Option Attempt :=
  (Commands.parse sv.py msg.body).bind (attemptOf sv)

theorem map_fst_limits (cfg : LimitsConfig) (a : Attempt) :
    (a.limits cfg).map Prod.fst = buckets a.kind := by
  cases a <;> rfl

theorem nodup_buckets (kind : Kind) : (buckets kind).Nodup := by
  cases kind <;> decide

theorem mem_buckets_of_mem {cfg : LimitsConfig} {limit : Text × RateLimit}
    (h : limit ∈ a.limits cfg) : limit.1 ∈ buckets a.kind := by
  rw [← map_fst_limits cfg]
  exact List.mem_map_of_mem h

/-! ## The windows after the limits -/

/-- All of the limits have room. -/
def Room (now : Int) (limits : List (Text × RateLimit)) (windows : Windows) : Prop :=
  ∀ limit ∈ limits, ¬ Full limit.2 now (windows limit.1)

theorem allowed_iff {limit : RateLimit} {window : Option RateWindow} :
    (consume limit now window).1.allowed = true ↔ ¬ Full limit now window := by
  by_cases hfull : Full limit now window
  · obtain ⟨current, -, hconsume⟩ := consume_of_full hfull
    rw [hconsume]
    exact iff_of_false Bool.false_ne_true (not_not.mpr hfull)
  · rw [consume_of_not_full hfull]
    exact iff_of_true rfl hfull

theorem room_iff (hlimits : (limits.map Prod.fst).Nodup) :
    (consumeWindows now limits windows).1 = none ↔ Room now limits windows := by
  rw [consumeWindows_eq_none_iff hlimits]
  exact forall₂_congr fun _ _ => allowed_iff

/-- Charging a window changes it. -/
theorem charge_ne {limit : RateLimit} (hlimit : 0 < limit.windowSeconds) (window : Option RateWindow) :
    some (charge limit now window) ≠ window := by
  cases window with
  | none => exact Option.some_ne_none _
  | some current =>
    obtain ⟨windowStart, count⟩ := current
    intro h
    simp only [charge, Option.some.injEq] at h
    split at h
    · rw [RateWindow.mk.injEq] at h
      omega
    · rw [RateWindow.mk.injEq] at h
      omega

theorem consumeWindows_of_full {bucket : Text} {limit : RateLimit}
    (h : Full limit now (windows bucket)) :
    (consumeWindows now ((bucket, limit) :: limits) windows).2 = windows := by
  obtain ⟨current, hcurrent, hconsume⟩ := consume_of_full h
  rw [consumeWindows, hconsume, if_neg Bool.false_ne_true, ← hcurrent]
  exact Function.update_eq_self ..

/-- The first limit is charged when it has room. -/
theorem consumeWindows_first {bucket : Text} {limit : RateLimit}
    (hlimits : bucket ∉ limits.map Prod.fst) (h : ¬ Full limit now (windows bucket)) :
    (consumeWindows now ((bucket, limit) :: limits) windows).2 bucket =
      some (charge limit now (windows bucket)) := by
  rw [consumeWindows, consume_of_not_full h, if_pos rfl, consumeWindows_of_notMem hlimits,
    Function.update_self]

/-- All limits are charged when they have room. -/
theorem consumeWindows_of_room (hlimits : (limits.map Prod.fst).Nodup) (h : Room now limits windows) :
    ∀ limit ∈ limits, (consumeWindows now limits windows).2 limit.1 =
      some (charge limit.2 now (windows limit.1)) := by
  induction limits generalizing windows with
  | nil => exact fun _ hmem => absurd hmem List.not_mem_nil
  | cons first limits ih =>
    obtain ⟨bucket, limit⟩ := first
    obtain ⟨hbucket, hlimits⟩ := List.nodup_cons.mp hlimits
    obtain ⟨hfirst, hrest⟩ := List.forall_mem_cons.mp h
    refine List.forall_mem_cons.mpr ⟨consumeWindows_first hbucket hfirst, fun other hmem => ?_⟩
    have hother (window : Option RateWindow) : ∀ other ∈ limits,
        Function.update windows bucket window other.1 = windows other.1 := by
      intro other hmem
      refine Function.update_of_ne (fun heq => hbucket ?_) ..
      exact List.mem_map.mpr ⟨other, hmem, heq⟩
    rw [consumeWindows, consume_of_not_full hfirst, if_pos rfl]
    rw [ih hlimits (fun other hmem => by rw [hother _ other hmem]; exact hrest other hmem) other hmem,
      hother _ other hmem]

/-! ## What storing leaves -/

/-- A row of the attempt's kind is stored exactly when it can be, and nothing is charged. -/
structure Stores (sv : Services) (a : Attempt) (w w' : World) : Prop where
  rates : ∀ pk bucket, ¬ Op.InboundBucket bucket → w'.rates pk bucket = w.rates pk bucket
  stored : a.Storable sv w → w'.lastId a.kind = w.lastId a.kind + 1
  unstored : ¬ a.Storable sv w → w'.lastId a.kind = w.lastId a.kind
  other : ∀ kind, kind ≠ a.kind → w'.lastId kind = w.lastId kind

theorem stores_of_not_storable (h : ¬ a.Storable sv w) (hw : Alike w w') : Stores sv a w w' where
  rates := hw.rates
  stored hs := absurd hs h
  unstored _ := hw.lastId _
  other kind _ := hw.lastId kind

theorem Stores.alike {w'' : World} (h : Stores sv a w w') (h' : Alike w' w'') :
    Stores sv a w w'' where
  rates pk bucket hbucket := (h'.rates pk bucket hbucket).trans (h.rates pk bucket hbucket)
  stored hs := (h'.lastId _).trans (h.stored hs)
  unstored hs := (h'.lastId _).trans (h.unstored hs)
  other kind hkind := (h'.lastId kind).trans (h.other kind hkind)

theorem not_bodyFits_nil (sv : Services) : ¬ Attempt.BodyFits sv [] := fun h => h.1 rfl

/-- `BoardsService.post` by a user. -/
theorem post_stores (slug body : Text) (hpk : (w.users.getUser pk).isSome = true) :
    Stores sv (.post slug body) w ((sv.post slug pk body).run (Op.run sv.py) w).2 := by
  have hget : (call (.getBoard (sv.py.lower slug))).run (Op.run sv.py) w =
    (some (w.getBoard (sv.py.lower (sv.py.lower slug))), w) := rfl
  have htime : (call .time).run (Op.run sv.py) w = (some w.clock, w) := rfl
  have hnot (h : ¬ Attempt.Storable sv w (.post slug body)) : Stores sv (.post slug body) w w :=
    stores_of_not_storable h (.refl w)
  unfold Services.post
  dsimp only
  split
  · next hslug => exact hnot fun h => by simp [h.1] at hslug
  next hslug =>
  rw [run_bind_of_some hget]
  cases hfind : w.getBoard (sv.py.lower (sv.py.lower slug)) with
  | none =>
    refine hnot fun h => ?_
    have hsome := h.2.1
    rw [hfind] at hsome
    cases hsome
  | some board =>
    dsimp only
    split
    · next hempty => exact hnot fun h => h.2.2.1 hempty
    next hempty =>
    split
    · next hlong => exact hnot fun h => absurd h.2.2.2 (by omega)
    next hlong =>
    have hstorable : Attempt.Storable sv w (.post slug body) := by
      refine ⟨by simpa using hslug, by rw [hfind]; rfl, hempty, by omega⟩
    rw [run_bind_of_some htime]
    show Stores sv _ w (Coroutine.run (Op.run sv.py) (call (.addPost (sv.py.lower slug) pk _ _) >>= _) w).2
    rw [run_bind, run_perform, Op.run, hfind, hpk]
    refine ⟨fun _ _ _ => rfl, fun _ => rfl, fun h => absurd hstorable h, fun kind hkind => ?_⟩
    cases kind with
    | post => exact absurd rfl hkind
    | mail => rfl

/-- `MailService.send` by a user. -/
theorem send_stores (recipientId body : Text) (hpk : (w.users.getUser pk).isSome = true) :
    Stores sv (.mail recipientId body) w ((sv.send pk recipientId body).run (Op.run sv.py) w).2 := by
  have hnot (h : ¬ Attempt.Storable sv w (.mail recipientId body)) :
      Stores sv (.mail recipientId body) w w :=
    stores_of_not_storable h (.refl w)
  rw [Services.run_send]
  unfold MailService.send
  dsimp only
  split
  · next hnames => exact hnot fun h => hnames h.1
  next hnames =>
  split
  · next hnone =>
    refine hnot fun h => ?_
    have hsome := h.2.1
    rw [hnone] at hsome
    cases hsome
  next recipient hres =>
  split
  · next hempty => exact hnot fun h => h.2.2.1 hempty
  next hempty =>
  split
  · next hlong => exact hnot fun h => absurd h.2.2.2 (by omega)
  next hlong =>
  have hstorable : Attempt.Storable sv w (.mail recipientId body) := by
    refine ⟨not_not.mp hnames, ?_, hempty, by omega⟩
    rw [hres]
    rfl
  have hto := UserTable.getUser_of_mem (MailService.resolveRecipient_user hres).1
  have hadd : w.toStore.addMail pk recipient.pubkey (strip body) w.now = some (_, _) :=
    if_pos (by rw [hpk, hto]; rfl)
  rw [hadd]
  refine ⟨fun _ _ _ => rfl, fun _ => rfl, fun h => absurd hstorable h, fun kind hkind => ?_⟩
  cases kind with
  | post => rfl
  | mail => exact absurd rfl hkind

/-- Nothing that follows charges or stores. -/
theorem Stores.bind {α β : Type} {m : Prog α} {f : α → Prog β}
    (h : Stores sv a w (m.run (Op.run sv.py) w).2) (hf : ∀ x, (f x).Does Quiet) :
    Stores sv a w ((m >>= f).run (Op.run sv.py) w).2 := by
  rw [run_bind]
  cases hm : m.run (Op.run sv.py) w with
  | mk result w' =>
    rw [hm] at h
    cases result with
    | none => exact h
    | some x => exact h.alike (alike_of_does (hf x) (.refl w'))

/-! ## A command -/

/-- The world after the limits of the attempt. -/
def consumed (a : Attempt) (pk : Pubkey) (w : World) : World :=
  { w with
    rates := Function.update w.rates pk
      (consumeWindows w.now (a.limits w.cfg.limits) (w.rates pk)).2 }

/-- The limits are consumed first; then the attempt stores what it can when they had room. -/
structure Charged (a : Attempt) (pk : Pubkey) (storable : Prop) (w w' : World) : Prop where
  own : ∀ bucket, ¬ Op.InboundBucket bucket → w'.rates pk bucket =
    (consumeWindows w.now (a.limits w.cfg.limits) (w.rates pk)).2 bucket
  others : ∀ pk', pk' ≠ pk → ∀ bucket, ¬ Op.InboundBucket bucket →
    w'.rates pk' bucket = w.rates pk' bucket
  stored : Room w.now (a.limits w.cfg.limits) (w.rates pk) → storable →
    w'.lastId a.kind = w.lastId a.kind + 1
  unstored : ¬ (Room w.now (a.limits w.cfg.limits) (w.rates pk) ∧ storable) →
    w'.lastId a.kind = w.lastId a.kind
  other : ∀ kind, kind ≠ a.kind → w'.lastId kind = w.lastId kind

theorem lastId_consumed (kind : Kind) : (consumed a pk w).lastId kind = w.lastId kind := by
  cases kind <;> rfl

theorem storable_consumed : a.Storable sv (consumed a pk w) ↔ a.Storable sv w := by
  cases a <;> exact Iff.rfl

theorem consumed_own (bucket : Text) : (consumed a pk w).rates pk bucket =
    (consumeWindows w.now (a.limits w.cfg.limits) (w.rates pk)).2 bucket := by
  show Function.update w.rates pk _ pk bucket = _
  rw [Function.update_self]

theorem consumed_others {pk' : Pubkey} (hpk : pk' ≠ pk) (bucket : Text) :
    (consumed a pk w).rates pk' bucket = w.rates pk' bucket := by
  show Function.update w.rates pk _ pk' bucket = _
  rw [Function.update_of_ne hpk]

theorem charged_of_refused (hroom : ¬ Room w.now (a.limits w.cfg.limits) (w.rates pk))
    (h : Alike (consumed a pk w) w') : Charged a pk (a.Storable sv w) w w' where
  own bucket hbucket := (h.rates pk bucket hbucket).trans (consumed_own bucket)
  others _ hpk bucket hbucket := (h.rates _ bucket hbucket).trans (consumed_others hpk bucket)
  stored hroom' := absurd hroom' hroom
  unstored _ := (h.lastId _).trans (lastId_consumed _)
  other kind _ := (h.lastId kind).trans (lastId_consumed kind)

theorem charged_of_room (hroom : Room w.now (a.limits w.cfg.limits) (w.rates pk))
    (h : Stores sv a (consumed a pk w) w') : Charged a pk (a.Storable sv w) w w' where
  own bucket hbucket := (h.rates pk bucket hbucket).trans (consumed_own bucket)
  others _ hpk bucket hbucket := (h.rates _ bucket hbucket).trans (consumed_others hpk bucket)
  stored _ hs := by
    rw [h.stored (storable_consumed.mpr hs), lastId_consumed]
  unstored hnot := by
    rw [h.unstored fun hs => hnot ⟨hroom, storable_consumed.mp hs⟩, lastId_consumed]
  other kind hkind := (h.other kind hkind).trans (lastId_consumed kind)

theorem nodup_limits (cfg : LimitsConfig) (a : Attempt) : ((a.limits cfg).map Prod.fst).Nodup := by
  rw [map_fst_limits]
  exact nodup_buckets a.kind

/-- The limits, and what is left to do when they have room. -/
theorem run_limits (sv : Services) (a : Attempt) (pk : Pubkey) (w : World) :
    ∃ refused, (consumeAll pk (a.limits w.cfg.limits)).run (Op.run sv.py) w =
        (some refused, consumed a pk w) ∧
      (refused = none ↔ Room w.now (a.limits w.cfg.limits) (w.rates pk)) :=
  ⟨_, run_consumeAll .., room_iff (nodup_limits ..)⟩

variable {parsed : ParsedCommand} {v first : Text} {rest : List Text}

theorem handlePost_charged (hpk : (w.users.getUser pk).isSome = true)
    (hargs : parsed.args = first :: rest) :
    let a := Attempt.post first (stripLeading sv.py first parsed.rest)
    Charged a pk (a.Storable sv w) w ((handlePost sv pk parsed v).run (Op.run sv.py) w).2 := by
  dsimp only
  have hconfig : (call .config).run (Op.run sv.py) w = (some w.cfg, w) := rfl
  obtain ⟨refused, hrun, hroom⟩ := run_limits sv
    (.post first (stripLeading sv.py first parsed.rest)) pk w
  unfold handlePost
  rw [hargs]
  dsimp only
  have hlimits : postLimits w.cfg.limits =
    (Attempt.post first (stripLeading sv.py first parsed.rest)).limits w.cfg.limits := rfl
  rw [run_bind_of_some hconfig, hlimits, run_bind_of_some hrun]
  cases refused with
  | some d => exact charged_of_refused (fun h => by cases hroom.mpr h) (alike_answer _ _ (.refl _))
  | none =>
    refine charged_of_room (hroom.mp rfl) ?_
    dsimp only
    split
    · next hempty =>
      refine stores_of_not_storable (fun h => ?_) (alike_answer _ _ (.refl _))
      exact not_bodyFits_nil sv (hempty ▸ h.2.2)
    · refine Stores.bind ?_ fun text => (answer_runs ..).does
      exact post_stores (w := consumed _ pk w) first _ hpk

theorem handleSend_charged (hpk : (w.users.getUser pk).isSome = true)
    (hargs : parsed.args = first :: rest) (hrest : parsed.rest ≠ []) :
    let a := Attempt.mail first (stripLeading sv.py first parsed.rest)
    Charged a pk (a.Storable sv w) w ((handleSend sv pk parsed v).run (Op.run sv.py) w).2 := by
  dsimp only
  have hconfig : (call .config).run (Op.run sv.py) w = (some w.cfg, w) := rfl
  obtain ⟨refused, hrun, hroom⟩ := run_limits sv
    (.mail first (stripLeading sv.py first parsed.rest)) pk w
  unfold handleSend
  rw [hargs]
  dsimp only
  rw [if_neg hrest, run_bind_of_some hconfig]
  have hlimits : [(lit "mail_day", (⟨w.cfg.limits.mailSendPerDay, 86400⟩ : RateLimit))] =
    (Attempt.mail first (stripLeading sv.py first parsed.rest)).limits w.cfg.limits := rfl
  rw [hlimits, run_bind_of_some hrun]
  cases refused with
  | some d => exact charged_of_refused (fun h => by cases hroom.mpr h) (alike_answer _ _ (.refl _))
  | none =>
    refine charged_of_room (hroom.mp rfl) ?_
    dsimp only
    split
    · next hempty =>
      refine stores_of_not_storable (fun h => ?_) (alike_answer _ _ (.refl _))
      exact not_bodyFits_nil sv (hempty ▸ h.2.2)
    · refine Stores.bind ?_ fun sent => ?_
      · exact send_stores (w := consumed _ pk w) first _ hpk
      · exact Bans.afterSend_does (fun _ _ _ => trivial) fun _ _ _ _ => trivial

theorem dispatch_send (h : parsed.verb = lit "SEND") :
    dispatch sv msg parsed = handleSend sv msg.pubkey parsed (lit "SEND") := by
  simp only [dispatch, h]
  rfl

theorem dispatch_charged (hpk : (w.users.getUser msg.pubkey).isSome = true)
    (ha : attemptOf sv parsed = some a) :
    Charged a msg.pubkey (a.Storable sv w) w ((dispatch sv msg parsed).run (Op.run sv.py) w).2 := by
  unfold attemptOf at ha
  split at ha
  · cases ha
  next first rest hargs =>
  dsimp only at ha
  split at ha
  · next hpost =>
    cases ha
    rw [PostLimits.dispatch_post hpost]
    exact handlePost_charged hpk hargs
  split at ha
  · next hsend =>
    cases ha
    rw [dispatch_send hsend.1]
    exact handleSend_charged hpk hargs hsend.2
  · cases ha

/-- A command that attempts nothing. -/
theorem dispatch_quiet (ha : attemptOf sv parsed = none) : (dispatch sv msg parsed).Does Quiet := by
  unfold attemptOf at ha
  by_cases hpost : parsed.verb = lit "POST"
  · rw [PostLimits.dispatch_post hpost]
    unfold handlePost
    cases hargs : parsed.args with
    | nil => exact (answer_runs ..).does
    | cons first rest =>
      rw [hargs] at ha
      simp [hpost] at ha
  by_cases hsend : parsed.verb = lit "SEND"
  · rw [dispatch_send hsend]
    unfold handleSend
    cases hargs : parsed.args with
    | nil => exact (answer_runs ..).does
    | cons first rest =>
      rw [hargs] at ha
      have hrest : parsed.rest = [] := by
        by_contra hne
        dsimp only at ha
        rw [if_neg hpost, if_pos ⟨hsend, hne⟩] at ha
        cases ha
      dsimp only
      rw [if_pos hrest]
      exact (answer_runs ..).does
  refine dispatch_does (fun _ _ _ => trivial) (fun h => absurd h hpost) fun op hop => ?_
  cases op with
  | setRateWindow =>
    rcases hop.1 with h | h
    · exact absurd h.1 hpost
    · exact absurd h.1 hsend
  | addMail => exact absurd hop.1 hsend
  | addPost => cases hop
  | _ => trivial

/-! ## A message -/

theorem Charged.alike {storable : Prop} {w'' : World} (h : Charged a pk storable w w')
    (h' : Alike w' w'') : Charged a pk storable w w'' where
  own bucket hbucket := (h'.rates _ bucket hbucket).trans (h.own bucket hbucket)
  others _ hpk bucket hbucket := (h'.rates _ bucket hbucket).trans (h.others _ hpk bucket hbucket)
  stored hroom hs := (h'.lastId _).trans (h.stored hroom hs)
  unstored hnot := (h'.lastId _).trans (h.unstored hnot)
  other kind hkind := (h'.lastId kind).trans (h.other kind hkind)

theorem room_congr {windows' : Windows} {cfg : LimitsConfig}
    (h : ∀ bucket, ¬ Op.InboundBucket bucket → windows' bucket = windows bucket) :
    Room now (a.limits cfg) windows' ↔ Room now (a.limits cfg) windows := by
  refine forall₂_congr fun limit hmem => ?_
  rw [h limit.1 (not_inboundBucket_of_mem (mem_buckets_of_mem hmem))]

/-- What comes before the limits neither charges nor stores. -/
theorem Charged.of_alike {storable : Prop} (hw : Alike w₀ w) (hnow : w.now = w₀.now)
    (hcfg : w.cfg = w₀.cfg) (h : Charged a pk storable w w') : Charged a pk storable w₀ w' := by
  have hroom : Room w₀.now (a.limits w₀.cfg.limits) (w.rates pk) ↔
    Room w₀.now (a.limits w₀.cfg.limits) (w₀.rates pk) := room_congr (hw.rates pk)
  constructor
  · intro bucket hbucket
    rw [h.own bucket hbucket, hnow, hcfg]
    exact (consumeWindows_congr (fun limit hmem => not_inboundBucket_of_mem (mem_buckets_of_mem hmem))
      (hw.rates pk)).2 bucket hbucket
  · intro pk' hpk bucket hbucket
    rw [h.others pk' hpk bucket hbucket]
    exact hw.rates pk' bucket hbucket
  · intro hr hs
    rw [h.stored (by rw [hnow, hcfg]; exact hroom.mpr hr) hs, hw.lastId]
  · intro hnot
    rw [h.unstored (by rw [hnow, hcfg, hroom]; exact hnot), hw.lastId]
  · intro kind hkind
    rw [h.other kind hkind, hw.lastId]

theorem alike_received (py : Py) (w : World) (msg : InboundMessage) : Alike w (received w msg) :=
  received_induction py Quiet (fun _ hop _ hw => hw.step hop) (.refl w)

theorem handleCommand_charged (hpk : (w.users.getUser msg.pubkey).isSome = true)
    (ha : attemptOf sv parsed = some a) :
    Charged a msg.pubkey (a.Storable sv w) w
      ((handleCommand sv msg parsed).run (Op.run sv.py) w).2 := by
  have hlog : (call (.logCommand msg.pubkey msg.body)).run (Op.run sv.py) w =
    (some (), { w with record := .command msg.pubkey msg.body w.now :: w.record }) := rfl
  have hlogged : Alike w { w with record := .command msg.pubkey msg.body w.now :: w.record } :=
    ⟨fun _ _ _ => rfl, fun kind => by cases kind <;> rfl⟩
  have hstorable : a.Storable sv { w with record := .command msg.pubkey msg.body w.now :: w.record } ↔
      a.Storable sv w := by
    cases a <;> exact Iff.rfl
  have hcharged := dispatch_charged (w := { w with
    record := .command msg.pubkey msg.body w.now :: w.record }) hpk ha
  rw [hstorable] at hcharged
  refine Charged.of_alike hlogged rfl rfl ?_
  unfold handleCommand
  rw [run_bind_of_some hlog, run_orElse]
  cases (Coroutine.run (Op.run sv.py) (dispatch sv msg parsed)
    { w with record := .command msg.pubkey msg.body w.now :: w.record }).1 with
  | some u => exact hcharged
  | none => exact hcharged.alike (alike_answer _ _ (.refl _))

/-- **A message that attempts nothing, or does not pass, is charged nothing and stores nothing.** -/
theorem message_alike (h : ¬ (Gates.Passes sv w msg ∧ (attempt sv msg).isSome = true)) :
    Alike w ((handleInbound sv msg).run (Op.run sv.py) w).2 := by
  by_cases hpasses : Gates.Passes sv w msg
  · have hnone : attempt sv msg = none := by simpa [hpasses] using h
    refine alike_of_does (handleInbound_does (fun _ _ _ => trivial) fun parsed hparse => ?_) (.refl w)
    have hquiet : attemptOf sv parsed = none := by
      rw [attempt, hparse] at hnone
      exact hnone
    refine .bind (call_does trivial) fun _ => .orElse ?_
    have hdispatch : (dispatch sv msg parsed).Does Quiet := dispatch_quiet hquiet
    refine hdispatch.mono fun r _ => ?_
    cases r with
    | none => exact (answer_runs ..).does
    | some u => trivial
  · exact run_keeps (fun _ _ hop hw => hw.step hop)
      (Gates.performs_stopped (P := Quiet) (fun _ => trivial) hpasses) (.refl w)

/-- **A message that passes and attempts something is charged, and stores what it can.** -/
theorem message_charged (h : Gates.Passes sv w msg) (ha : attempt sv msg = some a) :
    Charged a msg.pubkey (a.Storable sv (received w msg)) w
      ((handleInbound sv msg).run (Op.run sv.py) w).2 := by
  obtain ⟨parsed, hparse, hattempt⟩ := Option.bind_eq_some_iff.mp ha
  obtain ⟨rates, hleads, hrates⟩ := Gates.leads_command h hparse
  have hw : Alike w { received w msg with rates := rates } := by
    refine ⟨hrates, fun kind => ?_⟩
    rw [← (alike_received sv.py w msg).lastId kind]
    cases kind <;> rfl
  have hstorable : a.Storable sv { received w msg with rates := rates } ↔
      a.Storable sv (received w msg) := by
    cases a <;> exact Iff.rfl
  rw [hleads.run, ← hstorable]
  exact Charged.of_alike hw rfl rfl
    (handleCommand_charged (isSome_getUser_received w msg) hattempt)

/-! ## One message -/

/-- No post and no mail is stored. -/
def NothingStored (w w' : World) : Prop := ∀ kind, w'.lastId kind = w.lastId kind

/-- The counters of `pk` for posts and mail are as they were. -/
def SameCounters (pk : Pubkey) (w w' : World) : Prop :=
  ∀ kind, ∀ bucket ∈ buckets kind, w'.rates pk bucket = w.rates pk bucket

/-- The message is charged for nothing: its first limit has room, but another one has none or
what it attempts cannot be stored. -/
def Wasted (sv : Services) (w : World) (msg : InboundMessage) : Prop :=
  Gates.Passes sv w msg ∧ ∃ a ∈ attempt sv msg,
    (∃ first ∈ (a.limits w.cfg.limits).head?, ¬ Full first.2 w.now (w.rates msg.pubkey first.1)) ∧
    ¬ (Room w.now (a.limits w.cfg.limits) (w.rates msg.pubkey) ∧ a.Storable sv (received w msg))

theorem Alike.sameCounters (h : Alike w w') : SameCounters pk w w' :=
  fun _ bucket hbucket => h.rates pk bucket (not_inboundBucket_of_mem hbucket)

theorem limits_eq_cons (cfg : LimitsConfig) (a : Attempt) :
    ∃ first rest, a.limits cfg = first :: rest ∧ 0 < first.2.windowSeconds := by
  cases a with
  | post =>
    refine ⟨_, _, rfl, ?_⟩
    show (0 : Int) < 3600
    omega
  | mail =>
    refine ⟨_, _, rfl, ?_⟩
    show (0 : Int) < 86400
    omega

/-- When the first limit has no room the counters stay. -/
theorem Charged.same_of_full {storable : Prop} (h : Charged a pk storable w w')
    {first : Text × RateLimit} {rest : List (Text × RateLimit)}
    (hlimits : a.limits w.cfg.limits = first :: rest) (hfull : Full first.2 w.now (w.rates pk first.1)) :
    SameCounters pk w w' := by
  intro kind bucket hbucket
  rw [h.own bucket (not_inboundBucket_of_mem hbucket), hlimits]
  exact congrFun (consumeWindows_of_full hfull) bucket

/-- When it has room its counter changes. -/
theorem Charged.changed {storable : Prop} (h : Charged a pk storable w w')
    {first : Text × RateLimit} {rest : List (Text × RateLimit)}
    (hlimits : a.limits w.cfg.limits = first :: rest) (hpos : 0 < first.2.windowSeconds)
    (hroom : ¬ Full first.2 w.now (w.rates pk first.1)) : ¬ SameCounters pk w w' := by
  intro hsame
  have hnodup := nodup_limits w.cfg.limits a
  have hmem : first.1 ∈ buckets a.kind := by
    rw [← map_fst_limits w.cfg.limits, hlimits]
    exact List.mem_cons_self
  rw [hlimits, List.map_cons, List.nodup_cons] at hnodup
  have hown := h.own first.1 (not_inboundBucket_of_mem hmem)
  rw [hlimits, consumeWindows_first hnodup.1 hroom, hsame a.kind first.1 hmem] at hown
  exact charge_ne hpos _ hown.symm

/-- **A message that stores nothing leaves the counters of its sender exactly when it is not
charged for nothing.** -/
theorem sameCounters_iff (sv : Services) (w : World) (msg : InboundMessage) :
    let w' := ((handleInbound sv msg).run (Op.run sv.py) w).2
    (NothingStored w w' → SameCounters msg.pubkey w w') ↔ ¬ Wasted sv w msg := by
  dsimp only
  by_cases hattempt : Gates.Passes sv w msg ∧ (attempt sv msg).isSome = true
  · obtain ⟨hpasses, hsome⟩ := hattempt
    obtain ⟨a, ha⟩ := Option.isSome_iff_exists.mp hsome
    have hcharged := message_charged hpasses ha
    obtain ⟨first, rest, hlimits, hpos⟩ := limits_eq_cons w.cfg.limits a
    have hwasted : Wasted sv w msg ↔ ¬ Full first.2 w.now (w.rates msg.pubkey first.1) ∧
        ¬ (Room w.now (a.limits w.cfg.limits) (w.rates msg.pubkey) ∧
          a.Storable sv (received w msg)) := by
      have hhead : (a.limits w.cfg.limits).head? = some first := by
        rw [hlimits]
        rfl
      constructor
      · rintro ⟨-, a', ha', ⟨first', hfirst, hroom⟩, hnot⟩
        cases ha.symm.trans ha'
        cases hhead.symm.trans hfirst
        exact ⟨hroom, hnot⟩
      · rintro ⟨hroom, hnot⟩
        exact ⟨hpasses, a, ha, ⟨first, hhead, hroom⟩, hnot⟩
    rw [hwasted]
    by_cases hfull : Full first.2 w.now (w.rates msg.pubkey first.1)
    · exact iff_of_true (fun _ => hcharged.same_of_full hlimits hfull) fun h => h.1 hfull
    by_cases hstored : Room w.now (a.limits w.cfg.limits) (w.rates msg.pubkey) ∧
        a.Storable sv (received w msg)
    · refine iff_of_true (fun hnothing => ?_) fun h => h.2 hstored
      have hid := hcharged.stored hstored.1 hstored.2
      have hsame := hnothing a.kind
      omega
    · refine iff_of_false (fun h => hcharged.changed hlimits hpos hfull (h fun kind => ?_)) ?_
      · by_cases hkind : kind = a.kind
        · rw [hkind]
          exact hcharged.unstored hstored
        · exact hcharged.other kind hkind
      · exact fun h => h ⟨hfull, hstored⟩
  · refine iff_of_true (fun _ => (message_alike hattempt).sameCounters) ?_
    rintro ⟨hpasses, a, ha, -⟩
    exact hattempt ⟨hpasses, Option.isSome_iff_exists.mpr ⟨a, ha⟩⟩

end Quotas

end Bbs
