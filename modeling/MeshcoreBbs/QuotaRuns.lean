import MeshcoreBbs.QuotaCharges

/-!
# Runs in which nothing is charged in vain

`Ledger` adds to the world what the messages stored, latest first.  In a run without a `Wasted`
message of a user every count of his post and mail windows is `Backed` by rows that he stored since
the window began.
-/

namespace Bbs

open Coroutine Dispatcher RateLimiter

namespace Quotas

/-- A row stored by a message. -/
structure Stored where
  sender : Pubkey
  kind : Kind
  time : Int
  deriving DecidableEq

structure Ledger where
  world : World
  stored : List Stored

/-- What the step stores for a message. -/
def newlyStored (w w' : World) : Process.Act → List Stored
  | .request (.inbound msg) =>
    ([Kind.post, Kind.mail].filter fun kind => w.lastId kind < w'.lastId kind).map fun kind =>
      ⟨msg.pubkey, kind, w.now⟩
  | _ => []

def step (sv : Services) (s : Ledger) (a : Process.Act) : Option Ledger :=
  (Process.step sv s.world a).map fun w' => ⟨w', newlyStored s.world w' a ++ s.stored⟩

/-- No message of `pk` is charged for nothing. -/
def NotWasted (sv : Services) (pk : Pubkey) (s : Ledger) (a : Process.Act) : Prop :=
  ∀ msg, a = .request (.inbound msg) → msg.pubkey = pk → ¬ Wasted sv s.world msg

/-- The rows that `pk` stored after `t`. -/
def Ledger.storedAfter (s : Ledger) (pk : Pubkey) (kind : Kind) (t : Int) : Nat :=
  s.stored.countP fun e => e.sender = pk ∧ e.kind = kind ∧ t < e.time

variable {sv : Services} {s s' : Ledger} {pk : Pubkey} {kind : Kind} {t t' : Int}

theorem storedAfter_le {new : List Stored} (h : s'.stored = new ++ s.stored) :
    s.storedAfter pk kind t ≤ s'.storedAfter pk kind t := by
  unfold Ledger.storedAfter
  rw [h, List.countP_append]
  omega

theorem storedAfter_lt {new : List Stored} (h : s'.stored = new ++ s.stored) {time : Int}
    (hnew : ⟨pk, kind, time⟩ ∈ new) (htime : t < time) :
    s.storedAfter pk kind t + 1 ≤ s'.storedAfter pk kind t := by
  have hpos : 0 < new.countP fun e => e.sender = pk ∧ e.kind = kind ∧ t < e.time := by
    rw [List.countP_pos_iff]
    exact ⟨_, hnew, by simpa using htime⟩
  unfold Ledger.storedAfter
  rw [h, List.countP_append]
  omega

theorem storedAfter_anti (h : t ≤ t') : s.storedAfter pk kind t' ≤ s.storedAfter pk kind t := by
  refine List.countP_mono_left fun e _ he => ?_
  rw [decide_eq_true_iff] at he ⊢
  exact ⟨he.1, he.2.1, by omega⟩

/-! ## Windows and rows -/

/-- The count of the window is at most the number of rows stored since it began. -/
def BackedWindow (s : Ledger) (pk : Pubkey) (kind : Kind) (window : RateWindow) : Prop :=
  window.windowStart ≤ s.world.now ∧
    window.count ≤ s.storedAfter pk kind (window.windowStart - 1)

/-- Every window of `pk` for posts and mail is backed. -/
def Backed (s : Ledger) (pk : Pubkey) : Prop :=
  ∀ kind, ∀ bucket ∈ buckets kind, ∀ window ∈ s.world.rates pk bucket, BackedWindow s pk kind window

theorem BackedWindow.later {window : RateWindow} (h : BackedWindow s pk kind window)
    (hnow : s.world.now ≤ s'.world.now) {new : List Stored} (hstored : s'.stored = new ++ s.stored) :
    BackedWindow s' pk kind window := by
  have hcount : s.storedAfter pk kind (window.windowStart - 1) ≤
    s'.storedAfter pk kind (window.windowStart - 1) := storedAfter_le hstored
  exact ⟨h.1.trans hnow, h.2.trans (by exact_mod_cast hcount)⟩

/-- A row stored now backs the charge. -/
theorem backedWindow_charge {limit : RateLimit} {window : Option RateWindow}
    (h : ∀ current ∈ window, BackedWindow s pk kind current) (hnow : s'.world.now = s.world.now)
    {new : List Stored} (hstored : s'.stored = new ++ s.stored)
    (hnew : ⟨pk, kind, s.world.now⟩ ∈ new) :
    BackedWindow s' pk kind (charge limit s.world.now window) := by
  have hfresh : BackedWindow s' pk kind ⟨s.world.now, 1⟩ := by
    have hlt := storedAfter_lt (t := s.world.now - 1) hstored hnew (by omega)
    refine ⟨by rw [hnow], ?_⟩
    dsimp only
    omega
  cases window with
  | none => exact hfresh
  | some current =>
    obtain ⟨hstart, hcount⟩ := h current rfl
    obtain ⟨windowStart, count⟩ := current
    rw [charge]
    split
    · exact hfresh
    · have hlt := storedAfter_lt (t := windowStart - 1) hstored hnew (by dsimp only at hstart; omega)
      refine ⟨by rw [hnow]; exact hstart, ?_⟩
      dsimp only at hcount ⊢
      omega

/-! ## Steps -/

theorem kind_unique {kind' : Kind} {bucket : Text} (h : bucket ∈ buckets kind)
    (h' : bucket ∈ buckets kind') : kind = kind' := by
  have hdisjoint : ∀ bucket ∈ buckets .post, bucket ∉ buckets .mail := by decide
  cases kind with
  | post =>
    cases kind' with
    | post => rfl
    | mail => exact absurd h' (hdisjoint bucket h)
  | mail =>
    cases kind' with
    | post => exact absurd h (hdisjoint bucket h')
    | mail => rfl

theorem Backed.congr (h : Backed s pk) (hnow : s.world.now ≤ s'.world.now) {new : List Stored}
    (hstored : s'.stored = new ++ s.stored) (hrates : SameCounters pk s.world s'.world) :
    Backed s' pk := by
  intro kind bucket hbucket window hwindow
  rw [hrates kind bucket hbucket] at hwindow
  exact (h kind bucket hbucket window hwindow).later hnow hstored

theorem run_rates_of_request {py : Py} {r : Request} {op : Op} {w : World} (h : op.OfRequest r) :
    (op.run py w).2.rates = w.rates := by
  cases op with
  | setRateWindow => cases h
  | insertUser | addMail =>
    rw [Op.run]
    split <;> rfl
  | _ => first | rfl | exact Op.check_frame World.rates rfl

/-- Only messages charge anything. -/
theorem rates_step {w w' : World} {a : Process.Act} (hs : Process.step sv w a = some w')
    (ha : ∀ msg, a ≠ .request (.inbound msg)) : w'.rates = w.rates := by
  cases a with
  | request r =>
    obtain ⟨msg, rfl⟩ | hr := r.inbound_or
    · exact absurd rfl (ha msg)
    · cases hs
      exact (request_does sv hr).keeps (I := fun w' => w'.rates = w.rates)
        (fun _ hop _ hw => (run_rates_of_request hop).trans hw) w rfl
  | outside e => exact (Outside.frame hs).rates

/-- The row of a message that is stored. -/
theorem mem_newlyStored {w w' : World} {msg : InboundMessage} (h : w.lastId kind < w'.lastId kind) :
    ⟨msg.pubkey, kind, w.now⟩ ∈ newlyStored w w' (.request (.inbound msg)) := by
  refine List.mem_map.mpr ⟨kind, List.mem_filter.mpr ⟨?_, by simpa using h⟩, rfl⟩
  cases kind with
  | post => exact List.mem_cons_self
  | mail => exact List.mem_cons_of_mem _ List.mem_cons_self

theorem Charged.same_of_other {a : Attempt} {pk pk' : Pubkey} {storable : Prop} {w w' : World}
    (h : Charged a pk storable w w') (hpk : pk' ≠ pk) : SameCounters pk' w w' :=
  fun _ bucket hbucket => h.others pk' hpk bucket (not_inboundBucket_of_mem hbucket)

/-- An attempt that stores something is backed by it. -/
theorem Backed.charged (h : Backed s pk) {a : Attempt} {storable : Prop}
    (hcharged : Charged a pk storable s.world s'.world)
    (hroom : Room s.world.now (a.limits s.world.cfg.limits) (s.world.rates pk))
    (hnow : s'.world.now = s.world.now) {new : List Stored} (hstored : s'.stored = new ++ s.stored)
    (hnew : ⟨pk, a.kind, s.world.now⟩ ∈ new) : Backed s' pk := by
  intro kind bucket hbucket window hwindow
  rw [hcharged.own bucket (not_inboundBucket_of_mem hbucket)] at hwindow
  by_cases hmem : bucket ∈ (a.limits s.world.cfg.limits).map Prod.fst
  · obtain ⟨limit, hlimit, rfl⟩ := List.mem_map.mp hmem
    have hkind : kind = a.kind := by
      rw [map_fst_limits] at hmem
      exact kind_unique hbucket hmem
    rw [consumeWindows_of_room (nodup_limits ..) hroom limit hlimit] at hwindow
    cases hwindow
    refine backedWindow_charge (fun current hcurrent => ?_) hnow hstored (hkind ▸ hnew)
    exact h kind limit.1 hbucket current hcurrent
  · rw [consumeWindows_of_notMem hmem] at hwindow
    exact (h kind bucket hbucket window hwindow).later (le_of_eq hnow.symm) hstored

/-- A message of `pk` that is not wasted leaves the windows of `pk` backed, and so does one of
another. -/
theorem backed_message {msg : InboundMessage} (h : Backed s pk)
    (hwasted : msg.pubkey = pk → ¬ Wasted sv s.world msg) (hworld : s'.world =
      ((handleInbound sv msg).run (Op.run sv.py) s.world).2)
    (hstored : s'.stored = newlyStored s.world s'.world (.request (.inbound msg)) ++ s.stored) :
    Backed s' pk := by
  have hstep : Process.step sv s.world (.request (.inbound msg)) = some s'.world := by
    rw [hworld]
    rfl
  have hnow : s'.world.now = s.world.now := (Process.now_step hstep).2 _ rfl
  have hkeep (hsame : SameCounters pk s.world s'.world) : Backed s' pk :=
    h.congr (le_of_eq hnow.symm) hstored hsame
  by_cases hattempt : Gates.Passes sv s.world msg ∧ (attempt sv msg).isSome = true
  · obtain ⟨hpasses, hsome⟩ := hattempt
    obtain ⟨a, ha⟩ := Option.isSome_iff_exists.mp hsome
    have hcharged := message_charged hpasses ha
    rw [← hworld] at hcharged
    rcases eq_or_ne pk msg.pubkey with rfl | hpk
    · by_cases hdone : Room s.world.now (a.limits s.world.cfg.limits) (s.world.rates msg.pubkey) ∧
          a.Storable sv (received s.world msg)
      · obtain ⟨hroom, hstorable⟩ := hdone
        have hid : s.world.lastId a.kind < s'.world.lastId a.kind := by
          rw [hcharged.stored hroom hstorable]
          omega
        exact h.charged hcharged hroom hnow hstored (mem_newlyStored hid)
      · -- the first limit has no room, or the message would be wasted
        obtain ⟨first, rest, hlimits, -⟩ := limits_eq_cons s.world.cfg.limits a
        have hfull : Full first.2 s.world.now (s.world.rates msg.pubkey first.1) := by
          by_contra hroom
          refine hwasted rfl ⟨hpasses, a, ha, ⟨first, ?_, hroom⟩, hdone⟩
          rw [hlimits]
          rfl
        exact hkeep (hcharged.same_of_full hlimits hfull)
    · exact hkeep (hcharged.same_of_other hpk)
  · have halike := message_alike hattempt
    rw [← hworld] at halike
    exact hkeep halike.sameCounters

theorem backed_step {a : Process.Act} (h : Backed s pk) (ha : NotWasted sv pk s a)
    (hs : step sv s a = some s') : Backed s' pk := by
  obtain ⟨w', hw', rfl⟩ := Option.map_eq_some_iff.mp hs
  by_cases hmsg : ∃ msg, a = .request (.inbound msg)
  · obtain ⟨msg, rfl⟩ := hmsg
    refine backed_message h (ha msg rfl) ?_ rfl
    cases hw'
    rfl
  · have hrates := rates_step hw' fun msg heq => hmsg ⟨msg, heq⟩
    refine h.congr (Process.now_step hw').1 rfl fun kind bucket _ => ?_
    exact congrFun (congrFun hrates pk) bucket

theorem backed_of_run {clock : ℚ}
    (hrun : Machine.Run (step sv) (NotWasted sv pk) ⟨World.start clock, []⟩ s) : Backed s pk :=
  hrun.invariant (P := fun s => Backed s pk) (fun _ _ _ h ha hs => backed_step h ha hs)
    fun _ _ _ _ hwindow => by cases hwindow

/-- A limit that refuses is backed by as many rows, all of them in its window. -/
theorem Backed.of_refused (h : Backed s pk) {a : Attempt} {limit : Text × RateLimit}
    (hlimit : limit ∈ a.limits s.world.cfg.limits)
    (hrefused : (consume limit.2 s.world.now (s.world.rates pk limit.1)).1.allowed = false) :
    limit.2.limit ≤ s.storedAfter pk a.kind (s.world.now - limit.2.windowSeconds) := by
  have hfull : Full limit.2 s.world.now (s.world.rates pk limit.1) := by
    by_contra hroom
    rw [allowed_iff.mpr hroom] at hrefused
    cases hrefused
  obtain ⟨current, hcurrent, hopen, hcount⟩ := hfull
  obtain ⟨-, hbacked⟩ := h a.kind limit.1 (mem_buckets_of_mem hlimit) current hcurrent
  have hanti : s.storedAfter pk a.kind (current.windowStart - 1) ≤
    s.storedAfter pk a.kind (s.world.now - limit.2.windowSeconds) := storedAfter_anti (by omega)
  omega

/-- **Posts and mails charged when stored.**  A message that stores nothing leaves the counters of
its sender exactly when it is not charged for nothing; and in a run in which no message of a user is,
a limit refuses him only when he stored as many posts or mails in its window. -/
theorem charged_when_stored (sv : Services) :
    (∀ w msg w', Process.step sv w (.request (.inbound msg)) = some w' →
      ((NothingStored w w' → SameCounters msg.pubkey w w') ↔ ¬ Wasted sv w msg)) ∧
    ∀ pk clock s, Machine.Run (step sv) (NotWasted sv pk) ⟨World.start clock, []⟩ s →
      ∀ a : Attempt, ∀ limit ∈ a.limits s.world.cfg.limits,
        (consume limit.2 s.world.now (s.world.rates pk limit.1)).1.allowed = false →
        limit.2.limit ≤ s.storedAfter pk a.kind (s.world.now - limit.2.windowSeconds) := by
  constructor
  · intro w msg w' hs
    cases hs
    exact sameCounters_iff sv w msg
  · intro pk clock s hrun a limit hlimit hrefused
    exact (backed_of_run hrun).of_refused hlimit hrefused

/-! ## A sample -/

/-- A message of `pk` attempts nothing, or stores what it attempts. -/
def storesAll (sv : Services) (pk : Pubkey) (s : Ledger) : Process.Act → Bool
  | .request (.inbound msg) => msg.pubkey ≠ pk || (attempt sv msg).all fun a =>
    (consumeWindows s.world.now (a.limits s.world.cfg.limits) (s.world.rates msg.pubkey)).1 = none &&
      a.Storable sv (received s.world msg)
  | _ => true

theorem notWasted_of_storesAll {a : Process.Act} (h : storesAll sv pk s a = true) :
    NotWasted sv pk s a := by
  rintro msg rfl rfl ⟨-, attempted, ha, -, hnot⟩
  rw [storesAll, decide_eq_false (not_not.mpr rfl), Bool.false_or, Option.mem_def.mp ha,
    Option.all_some, Bool.and_eq_true, decide_eq_true_iff, decide_eq_true_iff,
    room_iff (nodup_limits ..)] at h
  exact hnot h

/-- One post an hour, a board `b`, and `ann` and `bob` have joined. -/
def onePerHour : List Process.Act :=
  [.outside (.reload { Process.asciiConfig with limits := { postPerHour := 1 } }),
    .request (.boardsCreate (lit "b") [])] ++ Process.twoJoin

/-- A post of `ann` is charged in vain; `bob` posts, and the limit refuses his next post. -/
theorem charged_when_stored_one : ∃ (s : Ledger) (w' : World),
    (consume ⟨1, 3600⟩ s.world.now (s.world.rates (lit "bb") (lit "post_hour"))).1.allowed = false ∧
    1 ≤ s.storedAfter (lit "bb") .post (s.world.now - 3600) ∧
    Process.step Process.asciiServices s.world (Process.fromUser (lit "bb") "POST b hi") = some w' ∧
    (NothingStored s.world w' → SameCounters (lit "bb") s.world w') := by
  obtain ⟨s, hrun, hs⟩ := Machine.exists_run (step Process.asciiServices)
    (storesAll Process.asciiServices (lit "bb")) (s := ⟨World.start 0, []⟩)
    (p := fun s => s.world.cfg.limits.postPerHour = 1 ∧
      (consume ⟨1, 3600⟩ s.world.now (s.world.rates (lit "bb") (lit "post_hour"))).1.allowed = false)
    (onePerHour ++ [Process.fromUser (lit "aa") "POST nosuch hi",
      Process.fromUser (lit "bb") "POST b hi"]) (by decide +kernel)
  obtain ⟨hcfg, hrefused⟩ := of_decide_eq_true hs
  have hlimit : (lit "post_hour", ⟨1, 3600⟩) ∈
      (Attempt.post (lit "b") (lit "hi")).limits s.world.cfg.limits := by
    unfold Attempt.limits postLimits
    rw [hcfg]
    exact List.mem_cons_self
  obtain ⟨hiff, hruns⟩ := charged_when_stored Process.asciiServices
  refine ⟨s, _, hrefused, ?_, rfl, (hiff s.world _ _ rfl).mpr ?_⟩
  · have hle : (1 : Int) ≤ s.storedAfter (lit "bb") .post (s.world.now - 3600) :=
      hruns (lit "bb") 0 s (hrun.mono fun _ _ => notWasted_of_storesAll) _ _ hlimit hrefused
    exact_mod_cast hle
  · rintro ⟨-, a, ha, ⟨first, hfirst, hroom⟩, -⟩
    have hattempt : attempt Process.asciiServices
        { pubkey := lit "bb", body := lit "POST b hi", hops := some 0 } =
          some (.post (lit "b") (lit "hi")) := rfl
    cases hattempt.symm.trans ha
    have hhead : first = (lit "post_hour", ⟨1, 3600⟩) := by
      rw [Attempt.limits, postLimits, hcfg] at hfirst
      exact (Option.some.inj hfirst).symm
    rw [hhead] at hroom
    exact absurd (allowed_iff.mpr hroom) (by rw [hrefused]; exact Bool.false_ne_true)

/-- `bob` has stored nothing, and is refused after a post to a board that does not exist. -/
theorem charged_unstored : ∃ s s' : Ledger,
    Machine.Run (step Process.asciiServices) (fun _ _ => True) ⟨World.start 0, []⟩ s ∧
    step Process.asciiServices s (Process.fromUser (lit "bb") "POST nosuch hi") = some s' ∧
    NothingStored s.world s'.world ∧ ¬ SameCounters (lit "bb") s.world s'.world ∧
    s'.world.cfg.limits.postPerHour = 1 ∧
    (consume ⟨1, 3600⟩ s'.world.now (s'.world.rates (lit "bb") (lit "post_hour"))).1.allowed = false ∧
    s'.stored = [] := by
  obtain ⟨s, hrun, hs⟩ := Machine.exists_run (step Process.asciiServices) (fun _ _ => true)
    (s := ⟨World.start 0, []⟩)
    (p := fun s => (step Process.asciiServices s (Process.fromUser (lit "bb") "POST nosuch hi")).any
      fun s' => (s'.world.lastId .post, s'.world.lastId .mail) =
          (s.world.lastId .post, s.world.lastId .mail) ∧
        s'.world.rates (lit "bb") (lit "post_hour") ≠ s.world.rates (lit "bb") (lit "post_hour") ∧
        s'.world.cfg.limits.postPerHour = 1 ∧
        (consume ⟨1, 3600⟩ s'.world.now (s'.world.rates (lit "bb") (lit "post_hour"))).1.allowed =
          false ∧ s'.stored = [])
    onePerHour (by decide +kernel)
  obtain ⟨s', hs', hp⟩ := (Option.any_eq_true ..).mp hs
  obtain ⟨hids, hrates, hcfg, hrefused, hstored⟩ := of_decide_eq_true hp
  rw [Prod.mk.injEq] at hids
  refine ⟨s, s', hrun.mono fun _ _ _ => trivial, hs', fun kind => ?_, fun hsame => ?_, hcfg, hrefused,
    hstored⟩
  · cases kind with
    | post => exact hids.1
    | mail => exact hids.2
  · exact hrates (hsame .post _ List.mem_cons_self)

end Quotas

end Bbs
