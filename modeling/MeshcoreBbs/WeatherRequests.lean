import MeshcoreBbs.Gates
import MeshcoreBbs.Process

/-!
# The requests to the weather service

`WX` has no limit of its own: it asks the weather service when the cache gives no summary, and only
an answer is cached.  `Asks` is a message that comes so far.  In a run in which each of them is
answered by a document with a summary, the requests of a user are `Spaced`.

`weather_refresh` is one step of these runs, as a message is: what the job does to the cache between
its own look at it and its answer, while a `WX` is under way, is not among them.
-/

namespace Bbs

open Coroutine Dispatcher

namespace WeatherRequests

def isFetch : Op → Bool
  | .fetchWeather => true
  | _ => false

/-- Neither asks the weather service nor caches a document. -/
def Dry : Op → Prop
  | .fetchWeather | .setWeatherCache .. => False
  | _ => True

theorem dry_of_reception {pk : Pubkey} (op : Op) (h : op.Reception pk) : Dry op := by
  cases op <;> first | exact trivial | exact h

instance (pk : Pubkey) : Op.Receives pk Dry :=
  Op.Receives.weaken (P := Op.Reception pk) inferInstance dry_of_reception

/-- The cached document. -/
def cached (w : World) : Option (Json × Int) := w.weatherCache Services.weatherKey

/-- The cache gives no summary. -/
def Stale (sv : Services) (w : World) : Prop := sv.cachedSummary (cached w) w.now = none

instance (sv : Services) (w : World) : Decidable (Stale sv w) :=
  inferInstanceAs (Decidable (_ = none))

variable {α β : Type} {py : Py} {sv : Services} {op : Op} {w w' : World} {msg : InboundMessage}
  {m : Prog α}

theorem countP_of_dry {ops : List Op} (h : ∀ op ∈ ops, Dry op) : ops.countP isFetch = 0 := by
  rw [List.countP_eq_zero]
  intro op hop hfetch
  have hdry := h op hop
  cases op with
  | fetchWeather => exact hdry
  | _ => cases hfetch

theorem run_cached (h : Dry op) : cached (op.run py w).2 = cached w := by
  cases op with
  | setWeatherCache => cases h
  | insertUser | addMail =>
    rw [Op.run]
    split <;> rfl
  | _ => first | rfl | exact Op.check_frame cached rfl

theorem cached_of_dry (h : ∀ op ∈ m.trace (Op.run py) w, Dry op) :
    cached (m.run (Op.run py) w).2 = cached w :=
  run_keeps (I := fun w' => cached w' = cached w) (fun _ _ hop hw => (run_cached hop).trans hw) h rfl

/-! ## Looking the weather up -/

/-- A program that looks the weather up once: it asks when the cache is stale, and caches the
document that it gets. -/
structure Looks (sv : Services) (m : Prog α) (w : World) : Prop where
  requests : (m.trace (Op.run sv.py) w).countP isFetch = if Stale sv w then 1 else 0
  cache : cached (m.run (Op.run sv.py) w).2 =
    if Stale sv w then (w.weatherAnswer.map fun data => (data, w.now)).or (cached w) else cached w

/-- Nothing before has to do with the weather. -/
theorem Looks.of_leads {n : Prog α} {t : World} (hn : Looks sv n t)
    (h : m.Leads (Op.run sv.py) Dry w n t) (hcached : cached t = cached w) (hclock : t.clock = w.clock)
    (hanswer : t.weatherAnswer = w.weatherAnswer) : Looks sv m w := by
  have hnow : t.now = w.now := congrArg Int.floor hclock
  have hstale : Stale sv t = Stale sv w := by rw [Stale, Stale, hcached, hnow]
  obtain ⟨ops, htrace, hops⟩ := h.trace
  constructor
  · rw [htrace, List.countP_append, countP_of_dry hops, hn.requests, Nat.zero_add]
    simp only [hstale]
  · rw [h.run, hn.cache, hanswer, hcached, hnow]
    simp only [hstale]

/-- Nothing after has to do with the weather. -/
theorem Looks.bind {f : α → Prog β} (h : Looks sv m w) (hf : ∀ a, (f a).Does Dry) :
    Looks sv (m >>= f) w := by
  have hrequests := h.requests
  have hcache := h.cache
  constructor
  · rw [trace_bind, List.countP_append, hrequests]
    cases (m.run (Op.run sv.py) w).1 with
    | none => rfl
    | some a =>
      have hdry := (hf a).performs sv.py (m.run (Op.run sv.py) w).2
      rw [Option.elim_some, countP_of_dry hdry, Nat.add_zero]
  · rw [run_bind]
    cases (m.run (Op.run sv.py) w).1 with
    | none => exact hcache
    | some a => exact (cached_of_dry ((hf a).performs sv.py _)).trans hcache

theorem Looks.orElse {handler : Prog α} (h : Looks sv m w) (hhandler : handler.Does Dry) :
    Looks sv (m.orElse handler) w := by
  have hrequests := h.requests
  have hcache := h.cache
  constructor
  · rw [trace_orElse, List.countP_append, hrequests]
    cases (m.run (Op.run sv.py) w).1 with
    | none =>
      have hdry := hhandler.performs sv.py (m.run (Op.run sv.py) w).2
      rw [Option.elim_none, countP_of_dry hdry, Nat.add_zero]
    | some a => rfl
  · rw [run_orElse]
    cases (m.run (Op.run sv.py) w).1 with
    | none => exact (cached_of_dry (hhandler.performs sv.py _)).trans hcache
    | some a => exact hcache

/-- `summary_for` behind the cache. -/
theorem fetchSummary_looks (hstale : Stale sv w) : Looks sv (sv.fetchSummary w.now) w := by
  unfold Services.fetchSummary
  cases hanswer : w.weatherAnswer with
  | none =>
    have hfetch : (call .fetchWeather).run (Op.run sv.py) w = (some none, w) := by
      rw [run_perform, Op.run, hanswer]
    constructor
    · rw [if_pos hstale, trace_bind, hfetch]
      rfl
    · rw [if_pos hstale, run_bind_of_some hfetch, hanswer]
      rfl
  | some data =>
    have hfetch : (call .fetchWeather).run (Op.run sv.py) w = (some (some data), w) := by
      rw [run_perform, Op.run, hanswer]
    have hset : (call (.setWeatherCache Services.weatherKey data w.now)).run (Op.run sv.py) w =
      (some (), _) := rfl
    have hcached : Function.update w.weatherCache Services.weatherKey (some (data, w.now))
      Services.weatherKey = some (data, w.now) := Function.update_self ..
    constructor
    · rw [if_pos hstale, trace_bind, hfetch]
      dsimp only [Option.elim_some]
      rw [trace_bind, hset]
      cases Weather.formatSummary sv.py data sv.weather.locationName with
      | none => rfl
      | some text => rfl
    · rw [if_pos hstale, run_bind_of_some hfetch]
      dsimp only
      rw [run_bind_of_some hset, hanswer]
      cases Weather.formatSummary sv.py data sv.weather.locationName with
      | none => exact hcached
      | some text => exact hcached

/-- **`summary_for` asks once when the cache is stale, and not at all otherwise.** -/
theorem summaryFor_looks (sv : Services) (w : World) : Looks sv sv.summaryFor w := by
  have htime : (call .time).run (Op.run sv.py) w = (some w.clock, w) := rfl
  have hcache : (call (.getWeatherCache Services.weatherKey)).run (Op.run sv.py) w =
    (some (cached w), w) := rfl
  have htimeDry : (call .time).Does Dry := call_does trivial
  have hcacheDry : (call (.getWeatherCache Services.weatherKey)).Does Dry := call_does trivial
  unfold Services.summaryFor
  refine Looks.of_leads ?_ ((leads_bind htime (htimeDry.performs sv.py w)).trans
    (leads_bind hcache (hcacheDry.performs sv.py w))) rfl rfl rfl
  cases hsummary : sv.cachedSummary (cached w) ⌊w.clock⌋ with
  | some text =>
    have hfresh : ¬ Stale sv w := fun hstale => by
      have hnone : sv.cachedSummary (cached w) ⌊w.clock⌋ = none := hstale
      rw [hsummary] at hnone
      cases hnone
    constructor
    · rw [if_neg hfresh]
      rfl
    · rw [if_neg hfresh]
      rfl
  | none => exact fetchSummary_looks hsummary

theorem handleWx_looks (pk : Pubkey) (v : Text) (w : World) : Looks sv (handleWx sv pk v) w :=
  (summaryFor_looks sv w).bind fun _ => (answer_runs ..).does

/-! ## A message -/

/-- The message comes to its `WX`. -/
structure Wants (sv : Services) (w : World) (msg : InboundMessage) : Prop where
  passes : Gates.Passes sv w msg
  verb : ∃ parsed, Commands.parse sv.py msg.body = some parsed ∧ parsed.verb = lit "WX"

theorem handleCommand_looks {parsed : ParsedCommand} (hverb : parsed.verb = lit "WX") (w : World) :
    Looks sv (handleCommand sv msg parsed) w := by
  have hdispatch : dispatch sv msg parsed = handleWx sv msg.pubkey (lit "WX") := by
    simp only [dispatch, hverb]
    rfl
  have hlog : (call (.logCommand msg.pubkey msg.body)).run (Op.run sv.py) w = (some (), _) := rfl
  have hdry : (call (.logCommand msg.pubkey msg.body)).Does Dry := call_does trivial
  have hlooks (w : World) : Looks sv (dispatch sv msg parsed) w := by
    rw [hdispatch]
    exact handleWx_looks ..
  unfold handleCommand
  exact Looks.of_leads (.orElse (hlooks _) (answer_runs ..).does)
    (leads_bind hlog (hdry.performs sv.py w)) rfl rfl rfl

/-- **A message that comes to its `WX` looks the weather up.** -/
theorem message_looks (h : Wants sv w msg) : Looks sv (handleInbound sv msg) w := by
  obtain ⟨hpasses, parsed, hparse, hverb⟩ := h
  obtain ⟨rates, hleads, -⟩ := Gates.leads_command hpasses hparse
  exact (handleCommand_looks hverb _).of_leads (hleads.mono dry_of_reception) rfl rfl rfl

/-- **No other message has to do with the weather.** -/
theorem message_dry (h : ¬ Wants sv w msg) :
    ∀ op ∈ (handleInbound sv msg).trace (Op.run sv.py) w, Dry op := by
  by_cases hpasses : Gates.Passes sv w msg
  · have hdry : (handleInbound sv msg).Does Dry := by
      refine handleInbound_does (fun _ _ _ => trivial) fun parsed hparse => ?_
      refine handleCommand_does trivial (fun _ _ _ => trivial) (fun _ _ _ _ => trivial) fun op hop => ?_
      cases op with
      | fetchWeather => exact h ⟨hpasses, parsed, hparse, hop⟩
      | setWeatherCache => exact h ⟨hpasses, parsed, hparse, hop⟩
      | _ => exact trivial
    exact hdry.performs sv.py w
  · exact Gates.performs_stopped (P := Dry) (fun _ => trivial) hpasses

/-- The message asks the weather service. -/
structure Asks (sv : Services) (w : World) (msg : InboundMessage) : Prop extends Wants sv w msg where
  stale : Stale sv w

/-- The weather service answers with a document that has a summary. -/
def Answered (sv : Services) (w : World) : Prop :=
  ∃ data ∈ w.weatherAnswer,
    (Weather.formatSummary sv.py data sv.weather.locationName).isSome = true

/-- The requests that a message causes. -/
def requests (sv : Services) (w : World) (msg : InboundMessage) : Nat :=
  ((handleInbound sv msg).trace (Op.run sv.py) w).countP isFetch

theorem requests_of_asks (h : Asks sv w msg) : requests sv w msg = 1 :=
  (message_looks h.toWants).requests.trans (if_pos h.stale)

theorem requests_of_not_asks (h : ¬ Asks sv w msg) : requests sv w msg = 0 := by
  by_cases hwants : Wants sv w msg
  · have hfresh : ¬ Stale sv w := fun hstale => h ⟨hwants, hstale⟩
    exact (message_looks hwants).requests.trans (if_neg hfresh)
  · exact countP_of_dry (message_dry hwants)

theorem cached_of_asks (h : Asks sv w msg) :
    cached ((handleInbound sv msg).run (Op.run sv.py) w).2 =
      (w.weatherAnswer.map fun data => (data, w.now)).or (cached w) :=
  (message_looks h.toWants).cache.trans (if_pos h.stale)

theorem not_stale_of_cached {data : Json} {fetchedAt : Int}
    (hcached : cached w = some (data, fetchedAt))
    (hage : w.now - fetchedAt < sv.weather.cacheObservationSeconds)
    (hformat : (Weather.formatSummary sv.py data sv.weather.locationName).isSome = true) :
    ¬ Stale sv w := by
  intro hstale
  rw [Stale, hcached, Services.cachedSummary, if_pos hage] at hstale
  rw [hstale] at hformat
  cases hformat

/-- A message that asks leaves the cache stale unless it is answered. -/
theorem stale_after_iff (hc : 0 < sv.weather.cacheObservationSeconds) (h : Asks sv w msg) :
    Stale sv ((handleInbound sv msg).run (Op.run sv.py) w).2 ↔ ¬ Answered sv w := by
  have hcached := cached_of_asks h
  have hstep : Process.step sv w (.request (.inbound msg)) = some _ := rfl
  have hnow : ((handleInbound sv msg).run (Op.run sv.py) w).2.now = w.now :=
    (Process.now_step hstep).2 _ rfl
  cases hanswer : w.weatherAnswer with
  | none =>
    rw [hanswer] at hcached
    refine iff_of_true ?_ fun ⟨data, hdata, _⟩ => ?_
    · rw [Stale, hcached, hnow]
      exact h.stale
    · rw [hanswer] at hdata
      cases hdata
  | some data =>
    rw [hanswer] at hcached
    have hage : w.now - w.now < sv.weather.cacheObservationSeconds := by omega
    rw [Stale, hcached, hnow, Option.map_some, Option.some_or, Services.cachedSummary, if_pos hage,
      Answered, hanswer]
    simp

/-! ## Runs -/

/-- A request that a message of `sender` caused. -/
structure Fetch where
  sender : Pubkey
  clock : ℚ
  deriving DecidableEq

/-- The second of the request, as `int(time.time())` gives it. -/
def Fetch.now (e : Fetch) : Int := ⌊e.clock⌋

/-- The world, and the requests so far, latest first. -/
structure Ledger where
  world : World
  fetches : List Fetch

def newFetches (sv : Services) (w : World) : Process.Act → List Fetch
  | .request (.inbound msg) => List.replicate (requests sv w msg) ⟨msg.pubkey, w.clock⟩
  | _ => []

def step (sv : Services) (s : Ledger) (a : Process.Act) : Option Ledger :=
  (Process.step sv s.world a).map fun w' => ⟨w', newFetches sv s.world a ++ s.fetches⟩

/-- Whenever `pk` asks, a document with a summary comes back. -/
def Provided (sv : Services) (pk : Pubkey) (s : Ledger) (a : Process.Act) : Prop :=
  ∀ msg, a = .request (.inbound msg) → msg.pubkey = pk → Asks sv s.world msg → Answered sv s.world

/-- The requests of `pk` from the second `t` on and before `u`. -/
def Ledger.inSeconds (s : Ledger) (pk : Pubkey) (t u : Int) : Nat :=
  s.fetches.countP fun e => e.sender = pk ∧ t ≤ e.now ∧ e.now < u

/-- The requests of `pk` in `[t, u)`. -/
def Ledger.between (s : Ledger) (pk : Pubkey) (t u : ℚ) : Nat :=
  s.fetches.countP fun e => e.sender = pk ∧ t ≤ e.clock ∧ e.clock < u

variable {s s' : Ledger} {pk : Pubkey} {a : Process.Act}

/-- Until the cache is out of date again it holds the document of the last request of `pk`, and the
requests of `pk` are as far apart. -/
structure Spaced (sv : Services) (pk : Pubkey) (s : Ledger) : Prop where
  cache : ∀ e ∈ s.fetches, e.sender = pk →
    s.world.now - e.now < sv.weather.cacheObservationSeconds →
    ∃ data, cached s.world = some (data, e.now) ∧
      (Weather.formatSummary sv.py data sv.weather.locationName).isSome = true
  apart : (s.fetches.filter fun e => e.sender = pk).Pairwise fun later earlier =>
    sv.weather.cacheObservationSeconds ≤ later.now - earlier.now

theorem Spaced.age_of_stale (h : Spaced sv pk s) (hstale : Stale sv s.world) {e : Fetch}
    (he : e ∈ s.fetches) (hsender : e.sender = pk) :
    sv.weather.cacheObservationSeconds ≤ s.world.now - e.now := by
  by_contra hage
  obtain ⟨data, hcached, hformat⟩ := h.cache e he hsender (by omega)
  exact not_stale_of_cached hcached (by omega) hformat hstale

theorem dry_of_request {r : Request} (hr : r ≠ .weatherRefresh) (op : Op) (h : op.OfRequest r) :
    Dry op := by
  cases op with
  | fetchWeather => exact hr h
  | setWeatherCache => exact hr h
  | _ => exact trivial

/-- **A cache that is not stale is left alone.** -/
theorem cached_step (hs : Process.step sv w a = some w') (hfresh : ¬ Stale sv w) :
    cached w' = cached w := by
  cases a with
  | request r =>
    cases hs
    obtain ⟨msg, rfl⟩ | hr := r.inbound_or
    · by_cases hwants : Wants sv w msg
      · exact (message_looks hwants).cache.trans (if_neg hfresh)
      · exact cached_of_dry (message_dry hwants)
    · by_cases hrefresh : r = .weatherRefresh
      · subst hrefresh
        have hlooks : Looks sv (Scheduler.wxJob sv) w :=
          (summaryFor_looks sv w).bind fun _ => sat_pure trivial
        exact hlooks.cache.trans (if_neg hfresh)
      · have hdry : (r.prog sv).Does Dry :=
          (request_does sv hr).weaken (dry_of_request hrefresh)
        exact cached_of_dry (hdry.performs sv.py w)
  | outside e => exact congrFun (Outside.frame hs).weatherCache _

/-- A step without a request. -/
theorem Spaced.quiet (h : Spaced sv pk s) (hs : Process.step sv s.world a = some s'.world)
    (hfetches : s'.fetches = s.fetches) : Spaced sv pk s' := by
  constructor
  · intro e he hsender hage
    rw [hfetches] at he
    have hnow := (Process.now_step hs).1
    obtain ⟨data, hcached, hformat⟩ := h.cache e he hsender (by omega)
    refine ⟨data, ?_, hformat⟩
    rw [cached_step hs (not_stale_of_cached hcached (by omega) hformat), hcached]
  · rw [hfetches]
    exact h.apart

/-- A step with a request, which is answered when it is one of `pk`. -/
theorem Spaced.asked (h : Spaced sv pk s) (hasks : Asks sv s.world msg)
    (hprovided : msg.pubkey = pk → Answered sv s.world)
    (hworld : s'.world = ((handleInbound sv msg).run (Op.run sv.py) s.world).2)
    (hfetches : s'.fetches = ⟨msg.pubkey, s.world.clock⟩ :: s.fetches) : Spaced sv pk s' := by
  have hstep : Process.step sv s.world (.request (.inbound msg)) = some s'.world := by
    rw [hworld]
    rfl
  have hnow : s'.world.now = s.world.now := (Process.now_step hstep).2 _ rfl
  constructor
  · intro e he hsender hage
    rw [hfetches] at he
    rcases List.mem_cons.mp he with rfl | he
    · obtain ⟨data, hdata, hformat⟩ := hprovided hsender
      refine ⟨data, ?_, hformat⟩
      rw [hworld, cached_of_asks hasks, Option.mem_def.mp hdata]
      rfl
    · -- the cache was stale, so what `pk` asked before is too old
      have hold := h.age_of_stale hasks.stale he hsender
      omega
  · rw [hfetches, List.filter_cons]
    split
    · refine List.pairwise_cons.mpr ⟨fun e he => ?_, h.apart⟩
      obtain ⟨he, hsender⟩ := List.mem_filter.mp he
      exact h.age_of_stale hasks.stale he (of_decide_eq_true hsender)
    · exact h.apart

theorem spaced_step (h : Spaced sv pk s) (ha : Provided sv pk s a) (hs : step sv s a = some s') :
    Spaced sv pk s' := by
  obtain ⟨w', hw', rfl⟩ := Option.map_eq_some_iff.mp hs
  by_cases hasks : ∃ msg, a = .request (.inbound msg) ∧ Asks sv s.world msg
  · obtain ⟨msg, rfl, hasks⟩ := hasks
    refine h.asked hasks (fun hpk => ha msg rfl hpk hasks) ?_ ?_
    · cases hw'
      rfl
    · show List.replicate (requests sv s.world msg) _ ++ s.fetches = _
      rw [requests_of_asks hasks]
      rfl
  · refine h.quiet hw' ?_
    have hnone : newFetches sv s.world a = [] := by
      unfold newFetches
      split
      · next msg =>
        rw [requests_of_not_asks fun h => hasks ⟨msg, rfl, h⟩]
        rfl
      · rfl
    show newFetches sv s.world a ++ s.fetches = s.fetches
    rw [hnone, List.nil_append]

theorem spaced_of_run (hrun : Machine.Run (step sv) (Provided sv pk) ⟨w, []⟩ s) : Spaced sv pk s :=
  hrun.invariant (P := Spaced sv pk) (fun _ _ _ h ha hs => spaced_step h ha hs)
    ⟨fun _ he => absurd he List.not_mem_nil, List.Pairwise.nil⟩

/-- At most one of what excludes each other. -/
theorem countP_le_one_of_pairwise {p : α → Bool} {l : List α}
    (h : l.Pairwise fun x y => ¬ (p x = true ∧ p y = true)) : l.countP p ≤ 1 := by
  induction l with
  | nil => exact Nat.zero_le 1
  | cons x l ih =>
    obtain ⟨hx, hl⟩ := List.pairwise_cons.mp h
    rw [List.countP_cons]
    split
    · next hpx =>
      have hnone : l.countP p = 0 := List.countP_eq_zero.mpr fun y hy hpy => hx y hy ⟨hpx, hpy⟩
      omega
    · exact ih hl

theorem Spaced.countP_le_one (h : Spaced sv pk s) {q : Fetch → Prop} [DecidablePred q]
    (hq : ∀ later earlier : Fetch,
      sv.weather.cacheObservationSeconds ≤ later.now - earlier.now → ¬ (q later ∧ q earlier)) :
    (s.fetches.countP fun e => e.sender = pk ∧ q e) ≤ 1 := by
  have hfilter : (s.fetches.countP fun e => e.sender = pk ∧ q e) =
      (s.fetches.filter fun e => e.sender = pk).countP fun e => q e := by
    rw [List.countP_filter]
    refine List.countP_congr fun e _ => ?_
    simp [and_comm]
  rw [hfilter]
  refine countP_le_one_of_pairwise (h.apart.imp fun {later earlier} hapart => ?_)
  simpa using hq later earlier hapart

/-- **At most one request of a user in a minute.**  A message that asks leaves the user free to ask
again at once exactly when no document with a summary comes back; and in a run in which one always
does when `pk` asks, at most one request of `pk` falls in any 60 seconds.  The messages, the jobs and
the requests of the dashboard are handled one after the other. -/
theorem one_request_a_minute (sv : Services) (hc : 60 ≤ sv.weather.cacheObservationSeconds) :
    (∀ w msg, Asks sv w msg →
      (Stale sv ((handleInbound sv msg).run (Op.run sv.py) w).2 ↔ ¬ Answered sv w)) ∧
    ∀ pk w s, Machine.Run (step sv) (Provided sv pk) ⟨w, []⟩ s →
      (∀ t : Int, s.inSeconds pk t (t + 60) ≤ 1) ∧
      (60 < sv.weather.cacheObservationSeconds → ∀ t : ℚ, s.between pk t (t + 60) ≤ 1) := by
  refine ⟨fun w msg hasks => stale_after_iff (by omega) hasks, fun pk w s hrun => ?_⟩
  have hspaced := spaced_of_run hrun
  refine ⟨fun t => hspaced.countP_le_one fun later earlier hapart => ?_,
    fun hlong t => hspaced.countP_le_one fun later earlier hapart => ?_⟩
  · rintro ⟨⟨-, hlater⟩, hearlier, -⟩
    omega
  · rintro ⟨⟨-, hlater⟩, hearlier, -⟩
    -- rounded to seconds the requests are 61 apart
    have hapart : earlier.now + 61 ≤ later.now := by omega
    have hnow : (earlier.now : ℚ) + 61 ≤ later.now := by exact_mod_cast hapart
    have hfloor : (later.now : ℚ) ≤ later.clock := Int.floor_le _
    have hceil : earlier.clock < (earlier.now : ℚ) + 1 := Int.lt_floor_add_one _
    linarith

/-! ## A sample -/

/-- The weather service answers with a document that has a summary. -/
def answers (sv : Services) (s : Ledger) (_ : Process.Act) : Bool :=
  s.world.weatherAnswer.any fun data =>
    (Weather.formatSummary sv.py data sv.weather.locationName).isSome

theorem provided_of_answers (h : answers sv s a = true) : Provided sv pk s a := by
  rintro msg - - -
  obtain ⟨data, hdata, hformat⟩ := (Option.any_eq_true ..).mp h
  exact ⟨data, hdata, hformat⟩

/-- `bob` asks for the weather, and again after ten seconds. -/
def twoWx : List Process.Act :=
  Process.twoJoin ++ [Process.fromUser (lit "bb") "WX", .outside (.wait 10),
    Process.fromUser (lit "bb") "WX"]

/-- An empty document has a summary, and is cached. -/
theorem one_request_a_minute_one : ∃ s s' : Ledger,
    (Stale Process.asciiServices ((handleInbound Process.asciiServices
      { pubkey := lit "bb", body := lit "WX", hops := some 0 }).run
        (Op.run Process.asciiServices.py) s.world).2 ↔ ¬ Answered Process.asciiServices s.world) ∧
    s'.fetches = [⟨lit "bb", 0⟩] ∧ s'.inSeconds (lit "bb") 0 60 ≤ 1 ∧
    s'.between (lit "bb") 0 60 ≤ 1 := by
  have hc : 60 ≤ Process.asciiServices.weather.cacheObservationSeconds := by decide
  obtain ⟨hiff, hruns⟩ := one_request_a_minute Process.asciiServices hc
  obtain ⟨s, -, hs⟩ := Machine.exists_run (step Process.asciiServices) (fun _ _ => true)
    (s := ⟨World.start 0, []⟩)
    (p := fun s => Stale Process.asciiServices s.world ∧
      (s.world.users.getUser (lit "bb")).any fun u => !u.banned && u.onboarded)
    Process.twoJoin (by decide +kernel)
  obtain ⟨s', hrun, hs'⟩ := Machine.exists_run (step Process.asciiServices)
    (answers Process.asciiServices)
    (s := ⟨{ World.start 0 with weatherAnswer := some (.obj []) }, []⟩)
    (p := fun s => s.fetches = [⟨lit "bb", 0⟩]) twoWx (by decide +kernel)
  obtain ⟨hstale, huser⟩ := of_decide_eq_true hs
  obtain ⟨u, hu, hfree⟩ := (Option.any_eq_true ..).mp huser
  obtain ⟨hseconds, hreal⟩ := hruns (lit "bb") _ s' (hrun.mono fun _ _ => provided_of_answers)
  rw [Bool.and_eq_true, Bool.not_eq_true'] at hfree
  have hpasses : Gates.Passes Process.asciiServices s.world
      { pubkey := lit "bb", body := lit "WX", hops := some 0 } :=
    ⟨by decide, ⟨u, hu, hfree⟩, .inr (.inl rfl)⟩
  refine ⟨s, s', hiff s.world _ ⟨⟨hpasses, _, rfl, rfl⟩, hstale⟩, of_decide_eq_true hs',
    hseconds 0, ?_⟩
  have hminute := hreal (by decide) 0
  rwa [zero_add] at hminute

/-- The weather service does not answer, and is asked twice. -/
theorem two_requests : ∃ s : Ledger,
    Machine.Run (step Process.asciiServices) (fun _ _ => True) ⟨World.start 0, []⟩ s ∧
    60 ≤ Process.asciiServices.weather.cacheObservationSeconds ∧
    s.between (lit "bb") 0 60 = 2 ∧ s.inSeconds (lit "bb") 0 60 = 2 := by
  obtain ⟨s, hrun, hs⟩ := Machine.exists_run (step Process.asciiServices) (fun _ _ => true)
    (s := ⟨World.start 0, []⟩)
    (p := fun s => s.between (lit "bb") 0 60 = 2 ∧ s.inSeconds (lit "bb") 0 60 = 2)
    twoWx (by decide +kernel)
  exact ⟨s, hrun.mono fun _ _ _ => trivial, by decide, of_decide_eq_true hs⟩

end WeatherRequests

end Bbs
