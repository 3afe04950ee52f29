import MeshcoreBbs.Inbound
import MeshcoreBbs.Limits
import MeshcoreBbs.Lib.Machine
import MeshcoreBbs.Process

/-!
# The wait that a refused post is told

A `POST` is charged to the hour and then to the day, and a refusal names the wait of the
limit that refused.  `retry_iff` says when a `POST` after that wait is not refused again: the
other limit must have room by then.
-/

namespace Bbs

open Coroutine RateLimiter Dispatcher

/-- The windows of `post_hour` and `post_day`. -/
abbrev PostWindows := Option RateWindow × Option RateWindow

def World.postWindows (w : World) (pk : Pubkey) : PostWindows :=
  (w.rates pk (lit "post_hour"), w.rates pk (lit "post_day"))

namespace RateLimiter

/-! ## One window -/

variable {limit : RateLimit} {now : Int} {window : Option RateWindow}

/-- The window is open and has no room. -/
def Full (limit : RateLimit) (now : Int) (window : Option RateWindow) : Prop :=
  ∃ current ∈ window, now < current.windowStart + limit.windowSeconds ∧ limit.limit ≤ current.count

/-- The window after a call that is allowed. -/
def charge (limit : RateLimit) (now : Int) : Option RateWindow → RateWindow
  | none => ⟨now, 1⟩
  | some ⟨windowStart, count⟩ =>
    if windowStart + limit.windowSeconds ≤ now then ⟨now, 1⟩ else ⟨windowStart, count + 1⟩

theorem consume_of_not_full (h : ¬ Full limit now window) :
    consume limit now window = ({ allowed := true }, charge limit now window) := by
  cases window with
  | none => rfl
  | some current =>
    obtain ⟨windowStart, count⟩ := current
    have hroom : now < windowStart + limit.windowSeconds → ¬ limit.limit ≤ count :=
      fun hopen hcount => h ⟨_, rfl, hopen, hcount⟩
    simp only [consume, charge]
    split
    · next hover => rw [if_pos (by omega)]
    · next hopen => rw [if_neg (by have := hroom (by omega); omega), if_neg (by omega)]

theorem consume_of_full (h : Full limit now window) : ∃ current, window = some current ∧
    consume limit now window = ({ allowed := false
                                  retryInSeconds :=
                                    current.windowStart + limit.windowSeconds - now }, current) := by
  obtain ⟨current, hcurrent, hopen, hcount⟩ := h
  refine ⟨current, hcurrent, ?_⟩
  rw [hcurrent]
  simp only [consume, retryIn]
  rw [if_neg (by omega), if_pos (by omega), max_eq_right (by omega)]
  congr 2
  omega

/-- At the end of the window. -/
theorem not_full_of_over {current : RateWindow} {seconds : Int} (h : limit.windowSeconds = seconds) :
    ¬ Full limit (current.windowStart + seconds) (some current) := by
  rintro ⟨_, ⟨⟩, hopen, -⟩
  omega

end RateLimiter

namespace PostLimits

/-! ## The two windows of a post -/

def hourLimit (limits : LimitsConfig) : RateLimit := ⟨limits.postPerHour, 3600⟩

def dayLimit (limits : LimitsConfig) : RateLimit := ⟨limits.postPerDay, 86400⟩

/-- The refusal, if any, and the windows after it. -/
def consumePost (limits : LimitsConfig) (now : Int) (windows : PostWindows) :
    Option Decision × PostWindows :=
  let hour := consume (hourLimit limits) now windows.1
  let day := consume (dayLimit limits) now windows.2
  if hour.1.allowed then (if day.1.allowed then none else some day.1, (some hour.2, some day.2))
  else (some hour.1, (some hour.2, windows.2))

theorem consumeWindows_postLimits (limits : LimitsConfig) (now : Int) (windows : Windows) :
    let consumed := consumeWindows now (postLimits limits) windows
    (consumed.1, (consumed.2 (lit "post_hour"), consumed.2 (lit "post_day"))) =
      consumePost limits now (windows (lit "post_hour"), windows (lit "post_day")) := by
  have hne : lit "post_day" ≠ lit "post_hour" := by decide
  have hlimits : postLimits limits =
    [(lit "post_hour", hourLimit limits), (lit "post_day", dayLimit limits)] := rfl
  simp only [hlimits, consumeWindows, consumePost, Function.update_of_ne hne]
  generalize consume (hourLimit limits) now (windows (lit "post_hour")) = hour
  generalize consume (dayLimit limits) now (windows (lit "post_day")) = day
  split
  · split
    · simp [Function.update_of_ne hne.symm]
    · simp [Function.update_of_ne hne.symm]
  · simp [Function.update_of_ne hne]

/-- The limits of `POST`, as they are consumed. -/
theorem run_postLimits (py : Py) (pk : Pubkey) (limits : LimitsConfig) (w : World) :
    ∃ w', (consumeAll pk (postLimits limits)).run (Op.run py) w =
        (some (consumePost limits w.now (w.postWindows pk)).1, w') ∧
      w'.postWindows pk = (consumePost limits w.now (w.postWindows pk)).2 := by
  have hwindows := consumeWindows_postLimits limits w.now (w.rates pk)
  refine ⟨_, (run_consumeAll py pk (postLimits limits) w).trans (Prod.ext ?_ rfl), ?_⟩
  · exact congrArg some (congrArg Prod.fst hwindows)
  · simp only [World.postWindows, Function.update_self]
    exact congrArg Prod.snd hwindows

/-- The limit that does not refuse a post at `now` has room when the one that does is over: the
day at the end of the hour, or the hour, with this post, at the end of the day. -/
def Retriable (limits limits' : LimitsConfig) (now : Int) (windows : PostWindows) : Prop :=
  (∀ hour ∈ windows.1, Full (hourLimit limits) now (some hour) →
    ¬ Full (dayLimit limits') (hour.windowStart + 3600) windows.2) ∧
  (¬ Full (hourLimit limits) now windows.1 → ∀ day ∈ windows.2,
    ¬ Full (hourLimit limits') (day.windowStart + 86400) (some (charge (hourLimit limits) now windows.1)))

variable {limits limits' : LimitsConfig} {now : Int} {windows : PostWindows} {d : Decision}

theorem consumePost_of_hour_full {hour : RateWindow} (hhour : windows.1 = some hour)
    (h : Full (hourLimit limits) now windows.1) : consumePost limits now windows =
      (some ⟨false, hour.windowStart + 3600 - now⟩, windows) := by
  obtain ⟨_, hcurrent, hconsume⟩ := consume_of_full h
  cases hhour.symm.trans hcurrent
  unfold consumePost
  rw [hconsume]
  exact Prod.ext rfl (Prod.ext hhour.symm rfl)

theorem consumePost_of_day_full {day : RateWindow} (hday : windows.2 = some day)
    (hhour : ¬ Full (hourLimit limits) now windows.1) (h : Full (dayLimit limits) now windows.2) :
    consumePost limits now windows = (some ⟨false, day.windowStart + 86400 - now⟩,
      (some (charge (hourLimit limits) now windows.1), windows.2)) := by
  obtain ⟨_, hcurrent, hconsume⟩ := consume_of_full h
  cases hday.symm.trans hcurrent
  unfold consumePost
  rw [hconsume, consume_of_not_full hhour, hday]
  rfl

theorem consumePost_eq_none_iff : (consumePost limits now windows).1 = none ↔
    ¬ Full (hourLimit limits) now windows.1 ∧ ¬ Full (dayLimit limits) now windows.2 := by
  by_cases hhour : Full (hourLimit limits) now windows.1
  · obtain ⟨hour, hcurrent, -⟩ := consume_of_full hhour
    simp [consumePost_of_hour_full hcurrent hhour, hhour]
  · by_cases hday : Full (dayLimit limits) now windows.2
    · obtain ⟨day, hcurrent, -⟩ := consume_of_full hday
      simp [consumePost_of_day_full hcurrent hhour hday, hday]
    · simp [consumePost, consume_of_not_full hhour, consume_of_not_full hday, hhour, hday]

/-- After the wait. -/
theorem retriable_iff (h : (consumePost limits now windows).1 = some d) :
    (consumePost limits' (now + d.retryInSeconds) (consumePost limits now windows).2).1 = none ↔
      Retriable limits limits' now windows := by
  rw [consumePost_eq_none_iff]
  by_cases hhour : Full (hourLimit limits) now windows.1
  · obtain ⟨hour, hcurrent, -⟩ := consume_of_full hhour
    rw [consumePost_of_hour_full hcurrent hhour] at h ⊢
    cases h
    have hover : ¬ Full (hourLimit limits') (hour.windowStart + 3600) (some hour) :=
      not_full_of_over rfl
    have hend : now + (hour.windowStart + 3600 - now) = hour.windowStart + 3600 := by omega
    dsimp only
    rw [hend, hcurrent]
    rw [hcurrent] at hhour
    constructor
    · rintro ⟨-, hday⟩
      refine ⟨?_, fun hfull => absurd (hcurrent ▸ hhour) hfull⟩
      intro hour' hhour' _
      cases hcurrent.symm.trans hhour'
      exact hday
    · exact fun hretry => ⟨hover, hretry.1 hour hcurrent hhour⟩
  · obtain ⟨day, hcurrent, hconsume⟩ : ∃ day, windows.2 = some day ∧
        Full (dayLimit limits) now windows.2 := by
      by_contra hnone
      have hday : ¬ Full (dayLimit limits) now windows.2 := by
        intro hfull
        obtain ⟨day, hcurrent, -⟩ := consume_of_full hfull
        exact hnone ⟨day, hcurrent, hfull⟩
      cases h.symm.trans (consumePost_eq_none_iff.mpr ⟨hhour, hday⟩)
    rw [consumePost_of_day_full hcurrent hhour hconsume] at h ⊢
    cases h
    have hover : ¬ Full (dayLimit limits') (day.windowStart + 86400) (some day) :=
      not_full_of_over rfl
    have hend : now + (day.windowStart + 86400 - now) = day.windowStart + 86400 := by omega
    dsimp only
    rw [hend, hcurrent]
    constructor
    · rintro ⟨hfree, -⟩
      refine ⟨?_, ?_⟩
      · intro hour hhour' hfull
        exact absurd (hhour' ▸ hfull) hhour
      · intro _ day' hday'
        cases hcurrent.symm.trans hday'
        exact hfree
    · exact fun hretry => ⟨hretry.2 hhour day hcurrent, hover⟩

/-! ## What leaves the windows of a post alone -/

/-- Everything but the limits of a `POST` by `pk`. -/
def Spares (pk : Pubkey) : Op → Prop
  | .setRateWindow pk' bucket _ => pk' = pk → ¬ Op.PostBucket bucket
  | _ => True

section Frame

variable {sv : Services} {pk : Pubkey} {w : World}

theorem run_postWindows {op : Op} (h : Spares pk op) :
    (op.run sv.py w).2.postWindows pk = w.postWindows pk := by
  cases op with
  | setRateWindow pk' bucket window =>
    by_cases hpk : pk = pk'
    · subst hpk
      have hbucket := h rfl
      simp only [Op.PostBucket, not_or] at hbucket
      simp only [World.postWindows, Op.run, World.setRate, Function.update_self]
      rw [Function.update_of_ne (Ne.symm hbucket.1), Function.update_of_ne (Ne.symm hbucket.2)]
    · simp only [World.postWindows, Op.run, World.setRate]
      rw [Function.update_of_ne hpk]
  | insertUser | addMail =>
    rw [Op.run]
    split <;> rfl
  | _ => first | rfl | exact Op.check_frame (fun w => w.postWindows pk) rfl

theorem spares_of_ordinary {pk' : Pubkey} (op : Op) (h : op.Ordinary pk') : Spares pk op := by
  cases op with
  | setRateWindow => exact fun _ => h.2
  | _ => trivial

instance (pk' : Pubkey) : Op.Admits pk' (Spares pk) :=
  (inferInstance : Op.Admits pk' (Op.Ordinary pk')).weaken spares_of_ordinary

theorem spares_of_reception {pk' : Pubkey} (op : Op) (h : op.Reception pk') : Spares pk op := by
  cases op with
  | setRateWindow => exact fun _ => h.2
  | _ => trivial

theorem spares_of_request {r : Request} (op : Op) (h : op.OfRequest r) : Spares pk op := by
  cases op with
  | setRateWindow => cases h
  | _ => trivial

theorem spares_of_command {pk' : Pubkey} {verb : Text} (hpost : pk' = pk → verb ≠ lit "POST")
    (op : Op) (h : op.OfCommand sv pk' verb) : Spares pk op := by
  rcases h with h | h
  · exact spares_of_ordinary op h
  · cases op with
    | setRateWindow =>
      intro hpk
      rcases h.1 with h' | h'
      · exact absurd h'.1 (hpost (h.2.symm.trans hpk))
      · rw [h'.2]
        decide
    | _ => trivial

theorem postWindows_keeps {α : Type} {m : Prog α} (h : m.Does (Spares pk)) (windows : PostWindows) :
    m.Keeps (Op.run sv.py) fun w => w.postWindows pk = windows :=
  h.keeps fun _ hop _ hw => (run_postWindows hop).trans hw

end Frame

/-! ## A message -/

section Message

variable (sv : Services)

/-- The command of a `POST`. -/
def postOf (inbound : InboundMessage) : Option ParsedCommand :=
  (Commands.parse sv.py inbound.body).filter fun parsed => parsed.verb = lit "POST"

/-- The world in which `_handle_post` consumes its limits, when a message comes that far. -/
def checkedIn (w : World) (inbound : InboundMessage) : Option World :=
  let consumed := (consumeInbound sv inbound).run (Op.run sv.py) (received w inbound)
  if inbound.pubkey ≠ sv.py.lower sv.selfPubkey ∧
      (w.users.getUser inbound.pubkey).any User.eligible ∧ consumed.1 = some none ∧
      (postOf sv inbound).any fun parsed => parsed.args ≠ [] then
    some ((Op.logCommand inbound.pubkey inbound.body).run sv.py consumed.2).2
  else none

/-- The refusal by the limits of `POST`, of a message that they refuse. -/
def refusal (w : World) (inbound : InboundMessage) : Option Decision :=
  (checkedIn sv w inbound).bind fun w' =>
    ((consumeAll inbound.pubkey (postLimits w'.cfg.limits)).run (Op.run sv.py) w').1.join

variable {sv} {w w' : World} {inbound : InboundMessage}

/-- The inbound limits change the windows only. -/
theorem run_consumeInbound (sv : Services) (inbound : InboundMessage) (w : World) : ∃ refused rates,
    (consumeInbound sv inbound).run (Op.run sv.py) w = (some refused, { w with rates := rates }) := by
  unfold consumeInbound
  split
  · exact ⟨_, _, (run_bind_of_some (run_perform ..) _).trans (run_consumeAll ..)⟩
  · exact ⟨none, w.rates, rfl⟩

/-- Where the limits are consumed, time and configuration are as before the message, and so are
the windows of the post. -/
theorem checkedIn_frame (h : checkedIn sv w inbound = some w') :
    w'.now = w.now ∧ w'.cfg = w.cfg ∧ ∀ pk, w'.postWindows pk = w.postWindows pk := by
  unfold checkedIn at h
  dsimp only at h
  split at h
  · cases h
    obtain ⟨refused, rates, hrun⟩ := run_consumeInbound sv inbound (received w inbound)
    refine ⟨by rw [hrun]; rfl, by rw [hrun]; rfl, fun pk => ?_⟩
    exact postWindows_keeps consumeInbound_does _ (received w inbound) rfl
  · cases h

theorem dispatch_post {parsed : ParsedCommand} (h : parsed.verb = lit "POST") :
    dispatch sv inbound parsed = handlePost sv inbound.pubkey parsed (lit "POST") := by
  simp only [dispatch, h]
  rfl

/-- The message is answered by its `POST`. -/
theorem run_checkedIn (h : checkedIn sv w inbound = some w') :
    ∃ parsed slug, parsed.args.head? = some slug ∧
      (handleInbound sv inbound).run (Op.run sv.py) w =
        ((handlePost sv inbound.pubkey parsed (lit "POST")).orElse
          (answer inbound.pubkey (lit "! Internal error.") (some (lit "POST")))).run
          (Op.run sv.py) w' := by
  unfold checkedIn at h
  dsimp only at h
  split at h
  · next hcond =>
    obtain ⟨hself, heligible, hconsumed, hpost⟩ := hcond
    cases h
    obtain ⟨u, hu, heligible⟩ := (Option.any_eq_true ..).mp heligible
    obtain ⟨parsed, hparsed, hargs⟩ := (Option.any_eq_true ..).mp hpost
    obtain ⟨hparse, hverb⟩ := Option.filter_eq_some_iff.mp hparsed
    obtain ⟨slug, hslug⟩ : ∃ slug, parsed.args.head? = some slug := by
      cases hhead : parsed.args with
      | nil => simp [hhead] at hargs
      | cons slug _ => exact ⟨slug, rfl⟩
    rw [User.eligible, Bool.and_eq_true, Bool.not_eq_true'] at heligible
    refine ⟨parsed, slug, hslug, ?_⟩
    rw [run_handleInbound w hself, sender_of_some hu, heligible.2]
    obtain ⟨refused, rates, hrun⟩ := run_consumeInbound sv inbound (received w inbound)
    rw [hrun] at hconsumed ⊢
    cases hconsumed
    have hroute : route sv inbound u = handleCommand sv inbound parsed := by
      unfold route
      rw [heligible.1, hparse]
      rfl
    rw [if_neg Bool.false_ne_true]
    dsimp only
    rw [serve_eq, if_neg Bool.false_ne_true, limited, run_bind_of_some hrun]
    dsimp only
    rw [hroute, handleCommand, run_bind, run_perform, dispatch_post (of_decide_eq_true hverb),
      of_decide_eq_true hverb]
    rfl
  · cases h

theorem refusal_of_checkedIn (h : checkedIn sv w inbound = some w') :
    refusal sv w inbound =
      (consumePost w.cfg.limits w.now (w.postWindows inbound.pubkey)).1 := by
  obtain ⟨hnow, hcfg, hwindows⟩ := checkedIn_frame h
  obtain ⟨_, hrun, -⟩ := run_postLimits sv.py inbound.pubkey w'.cfg.limits w'
  rw [refusal, h, Option.bind_some, hrun, hcfg, hnow, hwindows, Option.join_some]

/-- A refused post is answered with the wait, and its windows are as the limits leave them. -/
theorem run_refused {d : Decision} (h : refusal sv w inbound = some d) : ∃ w',
    (handleInbound sv inbound).run (Op.run sv.py) w =
      (some (), ((answer inbound.pubkey (rateLimited d) (some (lit "POST"))).run (Op.run sv.py) w').2) ∧
    w'.postWindows inbound.pubkey =
      (consumePost w.cfg.limits w.now (w.postWindows inbound.pubkey)).2 := by
  obtain ⟨w₁, hchecked, -⟩ := Option.bind_eq_some_iff.mp h
  obtain ⟨hnow, hcfg, hwindows⟩ := checkedIn_frame hchecked
  obtain ⟨w₂, hrun, hafter⟩ := run_postLimits sv.py inbound.pubkey w₁.cfg.limits w₁
  rw [hcfg, hnow, hwindows] at hrun hafter
  rw [refusal_of_checkedIn hchecked] at h
  rw [h] at hrun
  obtain ⟨parsed, slug, hslug, hcommand⟩ := run_checkedIn hchecked
  have hpost : (handlePost sv inbound.pubkey parsed (lit "POST")).run (Op.run sv.py) w₁ =
      (answer inbound.pubkey (rateLimited d) (some (lit "POST"))).run (Op.run sv.py) w₂ := by
    have hconfig : (call .config).run (Op.run sv.py) w₁ = (some w.cfg, w₁) := by
      rw [run_perform, Op.run, hcfg]
    obtain ⟨args, hargs⟩ := List.head?_eq_some_iff.mp hslug
    unfold handlePost
    rw [hargs]
    dsimp only
    rw [run_bind_of_some hconfig, run_bind_of_some hrun]
  have hanswer : (answer inbound.pubkey (rateLimited d) (some (lit "POST"))).Runs
      (Op.Ordinary inbound.pubkey) := answer_runs ..
  obtain ⟨_, hdone⟩ := hanswer.exists_some sv.py w₂
  refine ⟨w₂, ?_, hafter⟩
  rw [hcommand, run_orElse, hpost, hdone]
  rfl

end Message

/-! ## The wait -/

section Retry

variable {sv : Services} {w w₁ w₂ : World} {first second : InboundMessage} {d : Decision}

/-- No message of `pk` is a `POST`. -/
def NoPost (sv : Services) (pk : Pubkey) (_ : World) (a : Process.Act) : Prop :=
  ∀ msg, a = .request (.inbound msg) → msg.pubkey = pk → postOf sv msg = none

theorem step_postWindows {pk : Pubkey} {a : Process.Act} (ha : NoPost sv pk w a)
    (hs : Process.step sv w a = some w₁) : w₁.postWindows pk = w.postWindows pk := by
  cases a with
  | outside e =>
    rw [World.postWindows, (Outside.frame hs).rates]
    rfl
  | request r =>
    cases hs
    rcases r.inbound_or with ⟨msg, rfl⟩ | hr
    · refine handleInbound_keeps (I := fun w' => w'.postWindows pk = w.postWindows pk)
        (fun op hop w' hw => (run_postWindows (spares_of_reception op hop)).trans hw)
        (fun _ parsed hparse => ?_) rfl
      have hverb : msg.pubkey = pk → parsed.verb ≠ lit "POST" := by
        intro hpk hverb
        have hnone := ha msg rfl hpk
        rw [postOf, hparse, Option.filter_some, if_pos (decide_eq_true hverb)] at hnone
        cases hnone
      have hdispatch : (dispatch sv msg parsed).Does (Spares pk) :=
        dispatch_ofCommand.weaken (spares_of_command hverb)
      have hanswer : (answer msg.pubkey (lit "! Internal error.") (some parsed.verb)).Does (Spares pk) :=
        (answer_runs ..).does
      have hlog : (call (.logCommand msg.pubkey msg.body)).Does (Spares pk) := call_does trivial
      exact .bind (postWindows_keeps hlog _) fun _ =>
        .orElse (postWindows_keeps hdispatch _) (postWindows_keeps hanswer _)
    · exact postWindows_keeps ((request_does sv hr).weaken spares_of_request) _ _ rfl

theorem postWindows_of_run {pk : Pubkey} (hrun : Machine.Run (Process.step sv) (NoPost sv pk) w w₁) :
    w₁.postWindows pk = w.postWindows pk :=
  hrun.invariant (P := fun w' => w'.postWindows pk = w.postWindows pk)
    (fun _ _ _ h ha hs => (step_postWindows ha hs).trans h) rfl

/-- **A post after the wait that a refusal named.** -/
theorem retry_iff (hrefused : refusal sv w first = some d)
    (hfirst : Process.step sv w (.request (.inbound first)) = some w₁)
    (hrun : Machine.Run (Process.step sv) (NoPost sv first.pubkey) w₁ w₂)
    (hsender : second.pubkey = first.pubkey) (htime : w₂.now = w.now + d.retryInSeconds) :
    refusal sv w₂ second = none ↔ ((checkedIn sv w₂ second).isSome →
      Retriable w.cfg.limits w₂.cfg.limits w.now (w.postWindows first.pubkey)) := by
  obtain ⟨w₃, hhandled, hafter⟩ := run_refused hrefused
  have hwindows : w₂.postWindows first.pubkey =
      (consumePost w.cfg.limits w.now (w.postWindows first.pubkey)).2 := by
    have hanswer : (answer first.pubkey (rateLimited d) (some (lit "POST"))).Does
        (Spares first.pubkey) :=
      (answer_runs ..).does
    cases hfirst
    rw [postWindows_of_run hrun, ← hafter]
    show ((handleInbound sv first).run (Op.run sv.py) w).2.postWindows first.pubkey = _
    rw [hhandled]
    exact postWindows_keeps hanswer _ w₃ rfl
  have hd : (consumePost w.cfg.limits w.now (w.postWindows first.pubkey)).1 = some d := by
    obtain ⟨w', hchecked, -⟩ := Option.bind_eq_some_iff.mp hrefused
    exact (refusal_of_checkedIn hchecked).symm.trans hrefused
  cases hchecked : checkedIn sv w₂ second with
  | none => simp [refusal, hchecked]
  | some w' =>
    rw [refusal_of_checkedIn hchecked, hsender, hwindows, htime, retriable_iff hd]
    simp

end Retry

/-! ## A sample -/

def bobPosts : InboundMessage := { pubkey := lit "bb", body := lit "POST b hi", hops := some 0 }

/-- `bob` joins at 0 and posts under these limits, and time passes. -/
def postedAtZero (perHour perDay : Int) (t : ℚ) : List Process.Act :=
  .outside (.reload { Process.asciiConfig with
    limits := { postPerHour := perHour, postPerDay := perDay } }) ::
  Process.twoJoin ++ [.request (.inbound bobPosts), .outside (.wait t)]

/-- After another post. -/
def reposted (w : World) : World :=
  ((handleInbound Process.asciiServices bobPosts).run (Op.run asciiPy) w).2

/-- That post is refused, and the wait that it is told ends at `t`. -/
def refusedUntil (w : World) (t : ℚ) : Bool :=
  (refusal Process.asciiServices w bobPosts).any (fun d => ⌊t⌋ = w.now + d.retryInSeconds) &&
    (reposted w).clock ≤ t

theorem wait_of_refusedUntil {w : World} {t : ℚ} (h : refusedUntil w t = true) : ∃ d,
    refusal Process.asciiServices w bobPosts = some d ∧
    Machine.Run (Process.step Process.asciiServices) (NoPost Process.asciiServices bobPosts.pubkey)
      (reposted w) { reposted w with clock := t } ∧
    ⌊t⌋ = w.now + d.retryInSeconds := by
  rw [refusedUntil, Bool.and_eq_true, decide_eq_true_iff] at h
  obtain ⟨d, hd, htime⟩ := (Option.any_eq_true ..).mp h.1
  exact ⟨d, hd, .tail .refl (a := .outside (.wait t)) nofun (if_pos h.2), of_decide_eq_true htime⟩

/-- Refused by the hour, and posted when it is over. -/
theorem retry_iff_hour : ∃ w d, refusal Process.asciiServices w bobPosts = some d ∧
    refusal Process.asciiServices { reposted w with clock := 3600 } bobPosts = none ∧
    Retriable w.cfg.limits (reposted w).cfg.limits w.now (w.postWindows (lit "bb")) := by
  obtain ⟨w, -, hw⟩ := Machine.exists_run (Process.step Process.asciiServices) (fun _ _ => true)
    (postedAtZero 1 5 600)
    (p := fun w => refusedUntil w 3600 &&
      (refusal Process.asciiServices { reposted w with clock := 3600 } bobPosts = none &&
        (checkedIn Process.asciiServices { reposted w with clock := 3600 } bobPosts).isSome))
    (s := World.start 0) (by decide +kernel)
  simp only [Bool.and_eq_true, decide_eq_true_iff] at hw
  obtain ⟨huntil, hnone, hchecked⟩ := hw
  obtain ⟨d, hd, hwait, htime⟩ := wait_of_refusedUntil huntil
  exact ⟨w, d, hd, hnone, (retry_iff hd rfl hwait rfl htime).mp hnone hchecked⟩

/-- Refused by the day, and posted when it is over: the hour refuses the post. -/
theorem retry_refused : ∃ w w₁ w₂ d d',
    Machine.Run (Process.step Process.asciiServices) (fun _ _ => True) (World.start 0) w ∧
    refusal Process.asciiServices w bobPosts = some d ∧
    Process.step Process.asciiServices w (.request (.inbound bobPosts)) = some w₁ ∧
    Machine.Run (Process.step Process.asciiServices) (NoPost Process.asciiServices bobPosts.pubkey)
      w₁ w₂ ∧
    w₂.now = w.now + d.retryInSeconds ∧ refusal Process.asciiServices w₂ bobPosts = some d' := by
  obtain ⟨w, hrun, hw⟩ := Machine.exists_run (Process.step Process.asciiServices) (fun _ _ => true)
    (postedAtZero 1 1 86000)
    (p := fun w => refusedUntil w 86400 &&
      (refusal Process.asciiServices { reposted w with clock := 86400 } bobPosts).isSome)
    (s := World.start 0) (by decide +kernel)
  rw [Bool.and_eq_true] at hw
  obtain ⟨d, hd, hwait, htime⟩ := wait_of_refusedUntil hw.1
  obtain ⟨d', hd'⟩ := Option.isSome_iff_exists.mp hw.2
  exact ⟨w, _, _, d, d', hrun.mono fun _ _ _ => trivial, hd, rfl, hwait, htime, hd'⟩

end PostLimits

end Bbs
