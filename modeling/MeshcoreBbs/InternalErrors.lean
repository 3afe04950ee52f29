import MeshcoreBbs.Inbound
import MeshcoreBbs.Limits
import MeshcoreBbs.Process
import MeshcoreBbs.Sending

/-!
# Commands that end in an internal error

`str.isdigit` accepts digits that `int` does not, and an id or a page can be too large for
SQLite.  `Answerable` lists what the six commands with such arguments need, and
`dispatch_finishes_iff` says that nothing else raises.
-/

namespace Bbs

open Coroutine Dispatcher

/-- Whatever the operations: what counts here is that none raises. -/
abbrev Op.Any : Op → Prop := fun _ => True

instance (pk : Pubkey) : Op.Admits pk Op.Any where
  reads _ _ := trivial
  answers _ _ := trivial
  audits _ _ _ := trivial
  rates _ _ _ := trivial
  motd := trivial
  mails _ _ := trivial
  mail _ := trivial

theorem any_of_reads (op : Op) (_ : op.Reads) : op.Any := trivial

/-- The program does not raise. -/
def Finishes {α : Type} (py : Py) (m : Prog α) (w : World) : Prop :=
  (m.run (Op.run py) w).1.isSome = true

section Rules

variable {α β : Type} {py : Py} {m : Prog α} {f : α → Prog β} {w : World}

theorem Prog.Runs.finishes (h : m.Runs Op.Any) : Finishes py m w :=
  h.outcome (fun _ _ => Op.mayRaise_of_run) w

theorem finishes_pure (a : α) : Finishes py (pure a : Prog α) w := rfl

theorem not_finishes_raise : ¬ Finishes py (raise : Prog α) w := nofun

theorem finishes_bind_of_some {a : α} {w' : World} (h : m.run (Op.run py) w = (some a, w')) :
    Finishes py (m >>= f) w ↔ Finishes py (f a) w' := by
  rw [Finishes, Finishes, run_bind_of_some h]

/-- What follows does not raise. -/
theorem finishes_bind_iff (hf : ∀ a w', Finishes py (f a) w') :
    Finishes py (m >>= f) w ↔ Finishes py m w := by
  rw [Finishes, Finishes, run_bind]
  cases (m.run (Op.run py) w).1 with
  | none => exact Iff.rfl
  | some a => exact iff_of_true (hf a _) rfl

theorem finishes_check {op : Op} {ok : Bool} {answer : op.Res × World}
    (h : op.run py w = Op.check ok w answer) : Finishes py (call op) w ↔ ok = true := by
  rw [Finishes, run_perform, h]
  cases ok <;> simp [Op.check]

end Rules

/-! ## Arguments -/

/-- The number that `_maybe_int` reads; `none`: `int` raises. -/
def pageOf (sv : Services) (args : List Text) (idx : Nat) : Option Nat :=
  match args[idx]? with
  | none => some 1
  | some a => if sv.py.isdigit a then sv.py.int a else some 1

theorem maybeInt_eq (sv : Services) (args : List Text) (idx : Nat) :
    maybeInt sv args idx = (pageOf sv args idx).elim raise pure := by
  unfold maybeInt pageOf
  cases args[idx]? with
  | none => rfl
  | some a =>
    dsimp only
    by_cases hdigits : sv.py.isdigit a = true
    · rw [if_pos hdigits, if_pos hdigits]
      cases sv.py.int a <;> rfl
    · rw [if_neg hdigits, if_neg hdigits]
      rfl

/-- A weather summary can be made. -/
def summaryReady (sv : Services) (w : World) : Bool :=
  (sv.cachedSummary (w.weatherCache Services.weatherKey) w.now).isSome ||
    w.weatherAnswer.all fun data => (Weather.formatSummary sv.py data sv.weather.locationName).isSome

theorem cachedSummary_isSome_iff (sv : Services) (cached : Option (Json × Int)) (now : Int) :
    (sv.cachedSummary cached now).isSome ↔ ∃ data fetchedAt, cached = some (data, fetchedAt) ∧
      now - fetchedAt < sv.weather.cacheObservationSeconds ∧ Weather.Readable sv.py data := by
  unfold Services.cachedSummary
  cases cached with
  | none => simp
  | some cached =>
    obtain ⟨data, fetchedAt⟩ := cached
    dsimp only
    split
    · next hfresh => simp [Weather.formatSummary_isSome_iff, hfresh]
    · next hold => simp [hold]

/-- The cached document is fresh and readable, or the weather service does not answer, or with a
readable document. -/
theorem summaryReady_iff (sv : Services) (w : World) : summaryReady sv w = true ↔
    (∃ data fetchedAt, w.weatherCache Services.weatherKey = some (data, fetchedAt) ∧
      w.now - fetchedAt < sv.weather.cacheObservationSeconds ∧ Weather.Readable sv.py data) ∨
    ∀ data, w.weatherAnswer = some data → Weather.Readable sv.py data := by
  unfold summaryReady
  rw [Bool.or_eq_true, cachedSummary_isSome_iff, Option.all_eq_true]
  simp only [Weather.formatSummary_isSome_iff]

/-- `NEWS` reads its arguments, and the rows of all pages so far can be asked for. -/
def newsReady (sv : Services) (args : List Text) : Prop :=
  ∃ feed page, newsArgs sv args = some (feed, page) ∧ fits (newsPerPage * page) = true

/-- `READ` of a board that is there can skip the pages before. -/
def readReady (sv : Services) (w : World) (args : List Text) : Prop :=
  ∀ slug, args.head? = some slug → ∃ page, pageOf sv args 1 = some page ∧
    ((w.getBoard (sv.py.lower (sv.py.lower slug))).isSome = true →
      fits ((page - 1) * Services.postsPerPage) = true)

/-- `INBOX` can skip the pages before. -/
def inboxReady (sv : Services) (args : List Text) : Prop :=
  ∃ page, pageOf sv args 0 = some page ∧ fits (Services.inboxOffset page) = true

/-- Digits are the number of a row. -/
def mailIdReady (sv : Services) (args : List Text) : Prop :=
  ∀ a, args.head? = some a → sv.py.isdigit a = true →
    ∃ id, sv.py.int a = some id ∧ fits id = true

/-- What the command needs of its arguments and of the world. -/
def Answerable (sv : Services) (w : World) (parsed : ParsedCommand) : Prop :=
  if parsed.verb = lit "NEWS" then newsReady sv parsed.args
  else if parsed.verb = lit "WX" then summaryReady sv w = true
  else if parsed.verb = lit "READ" then readReady sv w parsed.args
  else if parsed.verb = lit "INBOX" then inboxReady sv parsed.args
  else if parsed.verb = lit "READMAIL" then mailIdReady sv parsed.args
  else if parsed.verb = lit "DELETE" then mailIdReady sv parsed.args
  else True

section Handlers

variable {sv : Services} {w : World} {pk : Pubkey} {parsed : ParsedCommand} {v : Text}

theorem answer_finishes (text : Text) (verb : Option Text) (w : World) :
    Finishes sv.py (answer pk text verb) w :=
  (answer_runs ..).finishes

theorem handleNews_finishes :
    Finishes sv.py (handleNews sv pk parsed v) w ↔ newsReady sv parsed.args := by
  unfold handleNews newsReady
  cases hargs : newsArgs sv parsed.args with
  | none => exact iff_of_false not_finishes_raise (by simp)
  | some args =>
    obtain ⟨feed, page⟩ := args
    have hanswer (items : List (Nat × NewsItemRow)) (w' : World) : Finishes sv.py (
        if (items.drop ((page - 1) * newsPerPage)).take newsPerPage = [] then
          answer pk (if page = 1 then lit "No news." else
            lit "No more news (page " ++ decimal page ++ lit ").") (some v)
        else answer pk (joinLines (newsLines feed page items)) (some v)) w' := by
      split <;> exact answer_finishes ..
    dsimp only
    rw [finishes_bind_iff hanswer, finishes_check rfl]
    simp

theorem handleWx_finishes :
    Finishes sv.py (handleWx sv pk v) w ↔ summaryReady sv w = true := by
  have htime : (call .time).run (Op.run sv.py) w = (some w.clock, w) := rfl
  have hcache : (call (.getWeatherCache Services.weatherKey)).run (Op.run sv.py) w =
    (some (w.weatherCache Services.weatherKey), w) := rfl
  have hfetch : (call .fetchWeather).run (Op.run sv.py) w = (some w.weatherAnswer, w) := rfl
  unfold handleWx
  rw [finishes_bind_iff fun text w' => answer_finishes text _ w']
  unfold Services.summaryFor summaryReady
  rw [finishes_bind_of_some htime, finishes_bind_of_some hcache]
  have hnow : ⌊w.clock⌋ = w.now := rfl
  rw [hnow]
  cases sv.cachedSummary (w.weatherCache Services.weatherKey) w.now with
  | some text => exact iff_of_true (finishes_pure _) rfl
  | none =>
    dsimp only
    unfold Services.fetchSummary
    rw [finishes_bind_of_some hfetch]
    cases w.weatherAnswer with
    | none => exact iff_of_true (finishes_pure _) rfl
    | some data =>
      have hset : (call (.setWeatherCache Services.weatherKey data w.now)).run (Op.run sv.py) w =
        (some (), _) := rfl
      dsimp only
      rw [finishes_bind_of_some hset]
      rw [Option.isSome_none, Bool.false_or, Option.all_some]
      cases Weather.formatSummary sv.py data sv.weather.locationName with
      | none => exact iff_of_false not_finishes_raise Bool.false_ne_true
      | some text => exact iff_of_true (finishes_pure _) rfl

/-! ## Boards -/

theorem readText_finishes (slug : Text) (page : Nat) : Finishes sv.py (sv.readText slug page) w ↔
    ((w.getBoard (sv.py.lower (sv.py.lower slug))).isSome = true →
      fits ((page - 1) * Services.postsPerPage) = true) := by
  have hboard : (call (.getBoard (sv.py.lower slug))).run (Op.run sv.py) w =
    (some (w.getBoard (sv.py.lower (sv.py.lower slug))), w) := rfl
  unfold Services.readText
  rw [finishes_bind_of_some hboard]
  cases w.getBoard (sv.py.lower (sv.py.lower slug)) with
  | none => exact iff_of_true (finishes_pure _) (by simp)
  | some board =>
    dsimp only
    rw [finishes_bind_iff, finishes_check rfl]
    · simp [fits, Services.postsPerPage]
    · intro posts w'
      split
      · exact finishes_pure _
      · have hlines : Prog.Runs (collect Services.renderPost posts) Op.Any :=
          sat_collect fun p _ => renderPost_runs any_of_reads p
        rw [finishes_bind_iff]
        · exact hlines.finishes
        · intro lines w'
          split <;> exact finishes_pure _

theorem handleRead_finishes :
    Finishes sv.py (handleRead sv pk parsed v) w ↔ readReady sv w parsed.args := by
  unfold handleRead readReady
  cases hargs : parsed.args with
  | nil => exact iff_of_true (answer_finishes ..) (by simp)
  | cons slug args =>
    rw [maybeInt_eq]
    dsimp only
    cases hpage : pageOf sv (slug :: args) 1 with
    | none => exact iff_of_false not_finishes_raise (by simp)
    | some page =>
      rw [Option.elim_some, pure_bind, finishes_bind_iff fun text w' => answer_finishes text _ w',
        readText_finishes]
      simp

/-- A post by a user goes in. -/
theorem post_finishes (slug body : Text) (hpk : (w.users.getUser pk).isSome = true) :
    Finishes sv.py (sv.post slug pk body) w := by
  have hboard : (call (.getBoard (sv.py.lower slug))).run (Op.run sv.py) w =
    (some (w.getBoard (sv.py.lower (sv.py.lower slug))), w) := rfl
  have htime : (call .time).run (Op.run sv.py) w = (some w.clock, w) := rfl
  unfold Services.post
  dsimp only
  split
  · exact finishes_pure _
  rw [finishes_bind_of_some hboard]
  cases hfind : w.getBoard (sv.py.lower (sv.py.lower slug)) with
  | none => exact finishes_pure _
  | some board =>
    dsimp only
    split
    · exact finishes_pure _
    split
    · exact finishes_pure _
    rw [finishes_bind_of_some htime, finishes_bind_iff fun _ _ => finishes_pure _, finishes_check rfl,
      hfind, hpk]
    rfl

theorem handlePost_finishes (hpk : (w.users.getUser pk).isSome = true) :
    Finishes sv.py (handlePost sv pk parsed v) w := by
  have hconfig : (call .config).run (Op.run sv.py) w = (some w.cfg, w) := rfl
  unfold handlePost
  split
  · exact answer_finishes ..
  rw [finishes_bind_of_some hconfig, finishes_bind_of_some (run_consumeAll ..)]
  split
  · exact answer_finishes ..
  dsimp only
  split
  · exact answer_finishes ..
  rw [finishes_bind_iff fun text w' => answer_finishes text _ w']
  exact post_finishes _ _ hpk

theorem addBoard_finishes (slug description : Text) :
    Finishes sv.py (sv.addBoard slug description) w := by
  have hboard : (call (.getBoard (sv.py.lower slug))).run (Op.run sv.py) w =
    (some (w.getBoard (sv.py.lower (sv.py.lower slug))), w) := rfl
  have htime : (call .time).run (Op.run sv.py) w = (some w.clock, w) := rfl
  unfold Services.addBoard
  dsimp only
  split
  · exact finishes_pure _
  rw [finishes_bind_of_some hboard]
  cases hfind : w.getBoard (sv.py.lower (sv.py.lower slug)) with
  | some board => exact finishes_pure _
  | none =>
    dsimp only
    rw [finishes_bind_of_some htime, finishes_bind_iff fun _ _ => finishes_pure _, finishes_check rfl,
      hfind]
    rfl

/-- The posts of the board are gone before the board. -/
theorem deleteBoard_finishes (slug : Text) : Finishes sv.py (sv.deleteBoard slug) w := by
  have hboard : (call (.getBoard (sv.py.lower slug))).run (Op.run sv.py) w =
    (some (w.getBoard (sv.py.lower (sv.py.lower slug))), w) := rfl
  have hposts (slug : Text) : (call (.deletePostsOf slug)).run (Op.run sv.py) w =
    (some (), { w with posts := w.deletePostsOf slug }) := rfl
  unfold Services.deleteBoard
  dsimp only
  rw [finishes_bind_of_some hboard]
  cases w.getBoard (sv.py.lower (sv.py.lower slug)) with
  | none => exact finishes_pure _
  | some board =>
    dsimp only
    rw [finishes_bind_of_some (hposts _), finishes_bind_iff fun _ _ => finishes_pure _,
      finishes_check rfl, List.all_eq_true]
    intro p hp
    exact (List.mem_filter.mp hp).2

/-! ## Mail -/

theorem inboxText_finishes (page : Nat) : Finishes sv.py (Services.inboxText pk page) w ↔
    fits (Services.inboxOffset page) = true := by
  unfold Services.inboxText
  have hrender (mails : List Mail) : (Services.renderInbox page mails).Runs Op.Any :=
    renderInbox_runs any_of_reads page mails
  rw [finishes_bind_iff fun mails w' => (hrender mails).finishes, finishes_check rfl]
  simp [fits, Services.inboxPageSize]

theorem readMail_finishes (id : Nat) : Finishes sv.py (Services.readMail pk id) w ↔ fits id = true := by
  unfold Services.readMail
  rw [Finishes, run_bind, run_perform]
  cases hfits : fits id with
  | false => simp [Op.run, Op.check, hfits]
  | true =>
    simp only [Op.run, Op.check, hfits, if_true, Option.elim_some, iff_true]
    cases w.getMail id pk with
    | none => rfl
    | some m =>
      have hname : Finishes sv.py (Services.nameOf m.fromPubkey) w :=
        (nameOf_runs any_of_reads _).finishes
      refine (finishes_bind_iff fun sname w' => ?_).mpr hname
      have htime : (call .time).run (Op.run sv.py) w' = (some w'.clock, w') := rfl
      rw [finishes_bind_of_some htime, finishes_bind_iff fun _ _ => finishes_pure _,
        finishes_check rfl]
      exact hfits

theorem deleteMail_finishes (id : Nat) :
    Finishes sv.py (Services.deleteMail pk id) w ↔ fits id = true := by
  unfold Services.deleteMail
  rw [finishes_bind_iff fun _ _ => finishes_pure _, finishes_check rfl]

theorem handleInbox_finishes : Finishes sv.py (do
      let page ← maybeInt sv parsed.args 0
      let text ← Services.inboxText pk page
      answer pk text (some v)) w ↔ inboxReady sv parsed.args := by
  unfold inboxReady
  rw [maybeInt_eq]
  cases hpage : pageOf sv parsed.args 0 with
  | none => exact iff_of_false not_finishes_raise (by simp)
  | some page =>
    rw [Option.elim_some, pure_bind, finishes_bind_iff fun text w' => answer_finishes text _ w',
      inboxText_finishes]
    simp

/-- The commands on a mail need an id that fits. -/
theorem onMailId_finishes {usage : Text} {f : Nat → Prog Text}
    (hf : ∀ id, Finishes sv.py (f id) w ↔ fits id = true) :
    Finishes sv.py (onMailId sv usage f pk parsed v) w ↔ mailIdReady sv parsed.args := by
  unfold onMailId mailIdReady
  cases hargs : parsed.args with
  | nil => exact iff_of_true (answer_finishes ..) (by simp)
  | cons a args =>
    dsimp only
    cases hdigits : sv.py.isdigit a with
    | false => exact iff_of_true (answer_finishes ..) (by simp [hdigits])
    | true =>
      cases hint : sv.py.int a with
      | none => exact iff_of_false not_finishes_raise (by simp [hdigits, hint])
      | some id =>
        show Finishes sv.py (f id >>= fun text => answer pk text (some v)) w ↔ _
        rw [finishes_bind_iff fun text w' => answer_finishes text _ w', hf]
        simp [hdigits, hint]

theorem send_isSome {lower : Text → Text} {maxBodyChars : Int} {store : Store}
    {fromPk recipientId body : Text} {now : Int} (hfrom : (store.users.getUser fromPk).isSome = true) :
    (MailService.send lower maxBodyChars store fromPk recipientId body now).1.isSome = true := by
  unfold MailService.send
  dsimp only
  split
  · rfl
  split
  · rfl
  · next recipient hres =>
    split
    · rfl
    split
    · rfl
    have hto := UserTable.getUser_of_mem (MailService.resolveRecipient_user hres).1
    have hadd : store.addMail fromPk recipient.pubkey (strip body) now = some (_, _) :=
      if_pos (by rw [hfrom, hto]; rfl)
    rw [hadd]
    rfl

theorem handleSend_finishes (hpk : (w.users.getUser pk).isSome = true) :
    Finishes sv.py (handleSend sv pk parsed v) w := by
  have hconfig : (call .config).run (Op.run sv.py) w = (some w.cfg, w) := rfl
  unfold handleSend
  split
  · exact answer_finishes ..
  split
  · exact answer_finishes ..
  rw [finishes_bind_of_some hconfig, finishes_bind_of_some (run_consumeAll ..)]
  split
  · exact answer_finishes ..
  dsimp only
  split
  · exact answer_finishes ..
  rw [finishes_bind_iff]
  · rw [Finishes, Services.run_send, Option.isSome_map]
    exact send_isSome hpk
  · intro sent w'
    rw [finishes_bind_iff]
    · exact answer_finishes ..
    · intro _ w''
      split
      · split
        · have hnotify (r : Pubkey) : (maybeNotifyRecipient sv r).Runs Op.Any :=
            maybeNotifyRecipient_runs any_of_reads (fun _ => trivial) fun _ _ _ => trivial
          exact (hnotify _).finishes
        · exact finishes_pure _
      · exact finishes_pure _

/-! ## Commands -/

theorem finishes_ite {α : Type} {c : Prop} {_ : Decidable c} {t e : Prog α}
    (ht : c → Finishes sv.py t w) (he : ¬ c → Finishes sv.py e w) :
    Finishes sv.py (if c then t else e) w := by
  split
  · next hc => exact ht hc
  · next hc => exact he hc

/-- An answer with what a program returns. -/
theorem answer_with_finishes {m : Prog Text} (h : Finishes sv.py m w) (verb : Option Text) :
    Finishes sv.py (m >>= fun text => answer pk text verb) w :=
  (finishes_bind_iff fun text w' => answer_finishes text _ w').mpr h

theorem handleAdmin_finishes : Finishes sv.py (handleAdmin sv pk parsed v) w := by
  unfold handleAdmin
  dsimp only
  split
  · exact answer_finishes ..
  · next hadmin =>
    have hadmin : sv.isAdmin pk = true := by simpa using hadmin
    refine finishes_ite (fun _ => ?_) fun _ => ?_
    · split
      · exact answer_finishes ..
      · exact answer_with_finishes (ban_runs (fun _ _ => trivial) ..).finishes _
    refine finishes_ite (fun _ => ?_) fun _ => ?_
    · split
      · exact answer_finishes ..
      · exact answer_with_finishes (unban_runs (fun _ => trivial) _).finishes _
    refine finishes_ite (fun _ => ?_) fun _ => ?_
    · split
      · exact answer_finishes ..
      · exact answer_with_finishes (addBoard_finishes ..) _
    refine finishes_ite (fun _ => ?_) fun _ => ?_
    · split
      · exact answer_finishes ..
      · exact answer_with_finishes (deleteBoard_finishes _) _
    exact finishes_ite (fun _ => (handleBroadcast_runs hadmin fun _ _ => trivial).finishes) fun _ => answer_finishes ..

variable {inbound : InboundMessage}

/-- The verbs with a number or a weather report raise only for it. -/
theorem dispatch_other (hpk : (w.users.getUser inbound.pubkey).isSome = true)
    (hnews : parsed.verb ≠ lit "NEWS") (hwx : parsed.verb ≠ lit "WX")
    (hread : parsed.verb ≠ lit "READ") (hinbox : parsed.verb ≠ lit "INBOX")
    (hreadmail : parsed.verb ≠ lit "READMAIL") (hdelete : parsed.verb ≠ lit "DELETE") :
    Finishes sv.py (dispatch sv inbound parsed) w := by
  unfold dispatch
  dsimp only
  refine finishes_ite (fun _ => answer_finishes ..) fun _ => ?_
  refine finishes_ite (fun _ => handleWho_runs.finishes) fun _ => ?_
  refine finishes_ite (fun _ => handlePing_runs.finishes) fun _ => ?_
  refine finishes_ite (fun _ => handleWhoami_runs.finishes) fun _ => ?_
  refine finishes_ite (fun _ => (handleName_runs fun _ _ _ => trivial).finishes) fun _ => ?_
  refine finishes_ite (absurd · hnews) fun _ => finishes_ite (absurd · hwx) fun _ => ?_
  refine finishes_ite (fun _ => answer_with_finishes (listText_runs any_of_reads).finishes _) fun _ => ?_
  refine finishes_ite (absurd · hread) fun _ => ?_
  refine finishes_ite (fun _ => handlePost_finishes hpk) fun _ => ?_
  refine finishes_ite (fun _ => answer_with_finishes (countsText_runs any_of_reads _).finishes _) fun _ => ?_
  refine finishes_ite (absurd · hinbox) fun _ => finishes_ite (absurd · hreadmail) fun _ => ?_
  refine finishes_ite (fun _ => handleSend_finishes hpk) fun _ => ?_
  refine finishes_ite (absurd · hdelete) fun _ => ?_
  refine finishes_ite (fun _ => handleStatus_runs.finishes) fun _ => ?_
  refine finishes_ite (fun _ => (handleAdvert_runs fun _ _ => trivial).finishes) fun _ => ?_
  exact finishes_ite (fun _ => handleAdmin_finishes) fun _ => answer_finishes ..

/-- **A command of a user ends without an internal error**, exactly if its arguments are in
range. -/
theorem dispatch_finishes_iff (hpk : (w.users.getUser inbound.pubkey).isSome = true) :
    Finishes sv.py (dispatch sv inbound parsed) w ↔ Answerable sv w parsed := by
  obtain ⟨verb, args, rest⟩ := parsed
  unfold Answerable
  dsimp only
  by_cases hnews : verb = lit "NEWS"
  · rw [if_pos hnews, hnews]
    exact handleNews_finishes
  by_cases hwx : verb = lit "WX"
  · rw [if_neg hnews, if_pos hwx, hwx]
    exact handleWx_finishes
  by_cases hread : verb = lit "READ"
  · rw [if_neg hnews, if_neg hwx, if_pos hread, hread]
    exact handleRead_finishes
  by_cases hinbox : verb = lit "INBOX"
  · rw [if_neg hnews, if_neg hwx, if_neg hread, if_pos hinbox, hinbox]
    exact handleInbox_finishes
  by_cases hreadmail : verb = lit "READMAIL"
  · rw [if_neg hnews, if_neg hwx, if_neg hread, if_neg hinbox, if_pos hreadmail, hreadmail]
    exact onMailId_finishes readMail_finishes
  by_cases hdelete : verb = lit "DELETE"
  · rw [if_neg hnews, if_neg hwx, if_neg hread, if_neg hinbox, if_neg hreadmail, if_pos hdelete,
      hdelete]
    exact onMailId_finishes deleteMail_finishes
  · rw [if_neg hnews, if_neg hwx, if_neg hread, if_neg hinbox, if_neg hreadmail, if_neg hdelete]
    exact iff_of_true (dispatch_other hpk hnews hwx hread hinbox hreadmail hdelete) trivial

end Handlers

/-! ## Samples -/

instance {α : Type} (py : Py) (m : Prog α) (w : World) : Decidable (Finishes py m w) :=
  inferInstanceAs (Decidable (_ = true))

/-- A direct message of `bob`. -/
def fromBob (body : String) : InboundMessage := { pubkey := lit "bb", body := lit body, hops := some 0 }

theorem dispatch_finishes_readmail : ∃ w,
    Machine.Run (Process.step Process.asciiServices) (fun _ _ => true) (World.start 100) w ∧
    Finishes asciiPy (dispatch Process.asciiServices (fromBob "READMAIL 7")
      ⟨lit "READMAIL", [lit "7"], lit "7"⟩) w := by
  obtain ⟨w, hrun, hbob⟩ := Machine.exists_run (Process.step Process.asciiServices) (fun _ _ => true)
    (p := fun w => (w.users.getUser (lit "bb")).isSome) Process.twoJoin (s := World.start 100)
    (by decide +kernel)
  have hsender : (w.users.getUser (fromBob "READMAIL 7").pubkey).isSome = true := hbob
  have hiff : Finishes Process.asciiServices.py (dispatch Process.asciiServices
      (fromBob "READMAIL 7") ⟨lit "READMAIL", [lit "7"], lit "7"⟩) w ↔
      Answerable Process.asciiServices w ⟨lit "READMAIL", [lit "7"], lit "7"⟩ :=
    dispatch_finishes_iff hsender
  refine ⟨w, hrun, hiff.mpr ?_⟩
  intro a ha _
  cases ha
  exact ⟨7, by decide, by decide⟩

/-- `isdigit` accepts `²`, and `int` raises. -/
theorem internal_error_readmail : ∃ w,
    Machine.Run (Process.step Process.asciiServices) (fun _ _ => true) (World.start 100) w ∧
    (w.users.getUser (lit "bb")).any User.eligible = true ∧ ∃ parsed,
      Commands.parse asciiPy (fromBob "READMAIL ²").body = some parsed ∧
      ¬ Finishes asciiPy (dispatch Process.asciiServices (fromBob "READMAIL ²") parsed) w := by
  obtain ⟨w, hrun, hw⟩ := Machine.exists_run (Process.step Process.asciiServices) (fun _ _ => true)
    (p := fun w => (w.users.getUser (lit "bb")).any User.eligible &&
      !decide (Finishes asciiPy (dispatch Process.asciiServices (fromBob "READMAIL ²")
        ⟨lit "READMAIL", [lit "²"], lit "²"⟩) w)) Process.twoJoin (s := World.start 100)
    (by decide +kernel)
  rw [Bool.and_eq_true, Bool.not_eq_true', decide_eq_false_iff_not] at hw
  exact ⟨w, hrun, hw.1, _, by decide +kernel, hw.2⟩

end Bbs
