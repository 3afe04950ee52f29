import MeshcoreBbs.RateWindows

/-!
# What the rate limiter decides

`allowed_iff_below` holds the decisions against the counting rule of `FixedWindow`: a call is
allowed while fewer than `limit` calls were, in the window of its key.  The table is the last
window of the calls allowed (`table_step`), so the two agree except on a call that opens a window
under a limit of zero or less, which is let through.

`denied_until` is about a refusal and the seconds it names: the window that refuses ends at
exactly that second, and until then nothing but a higher limit gets a call through.
-/

namespace Bbs.RateLimiter

open FixedWindow

section Runs

variable {py : Py} {pk : Pubkey} {bucket : Text} {W : Int} {s s' : Calls}

/-- The calls for a key are for windows of `W` seconds. -/
def Windows (pk : Pubkey) (bucket : Text) (W : Int) (_ : Calls) : Act → Prop
  | .wait _ => True
  | .checkAndConsume pk' bucket' limit => pk' = pk ∧ bucket' = bucket → limit.windowSeconds = W

instance (pk : Pubkey) (bucket : Text) (W : Int) (s : Calls) (a : Act) :
    Decidable (Windows pk bucket W s a) :=
  match a with
  | .wait _ => isTrue trivial
  | .checkAndConsume .. => inferInstanceAs (Decidable (_ → _))

/-! ## The counting rule -/

/-- The seconds of the calls that were allowed for a key, latest first. -/
def Calls.times (s : Calls) (pk : Pubkey) (bucket : Text) : List Int :=
  (s.ofKey pk bucket).map Admitted.time

/-- The calls that were allowed in the key's current window. -/
def Calls.inWindow (s : Calls) (pk : Pubkey) (bucket : Text) (W : Int) : ℤ :=
  counted W s.world.now (lastWindow W (s.times pk bucket))

/-- The last window opened by an allowed call has not expired. -/
def Calls.Live (s : Calls) (pk : Pubkey) (bucket : Text) (W : Int) : Prop :=
  Open W s.world.now (lastWindow W (s.times pk bucket))

/-- The row of a key is the last window of its allowed calls. -/
def Calls.Stored (s : Calls) (pk : Pubkey) (bucket : Text) (W : Int) : Prop :=
  (s.world.rates pk bucket).map windowOf = lastWindow W (s.times pk bucket)

theorem stored_step {a : Act} (h : s.Stored pk bucket W) (ha : Windows pk bucket W s a)
    (hs : step py s a = some s') : s'.Stored pk bucket W := by
  cases a with
  | wait t =>
    obtain ⟨rfl, _⟩ := step_wait hs
    exact h
  | checkAndConsume pk' bucket' limit =>
    by_cases hkey : pk' = pk ∧ bucket' = bucket
    · obtain ⟨rfl, rfl⟩ := hkey
      have hW : limit.windowSeconds = W := ha ⟨rfl, rfl⟩
      subst hW
      have hstep := step_lastWindow limit.limit s.world.now h
      rw [← consume_eq_step] at hstep
      unfold Calls.Stored Calls.times
      rw [rates_call hs, ofKey_call hs, Option.map_some, hstep]
      simp only
      split
      · rfl
      · rfl
    · unfold Calls.Stored Calls.times
      rw [rates_other hkey hs, ofKey_other hkey hs]
      exact h

theorem stored_of_run {w : World} (hempty : w.rates = fun _ _ => none)
    (hrun : Machine.Run (step py) (Windows pk bucket W) { world := w } s) :
    s.Stored pk bucket W := by
  refine hrun.invariant (fun s a s' h ha hs => stored_step h ha hs) ?_
  unfold Calls.Stored
  rw [hempty]
  rfl

/-- **The counting rule**: a call is allowed when fewer calls than its limit were, in the window
of its key; but the call that opens a window is allowed under any limit. -/
theorem allowed_iff_below {w : World} (hempty : w.rates = fun _ _ => none)
    (hrun : Machine.Run (step py) (Windows pk bucket W) { world := w } s) (limit : Int) :
    s.Stored pk bucket W ∧
    ((((checkAndConsume pk bucket ⟨limit, W⟩).run (Op.run py) s.world).1.any Decision.allowed = true ↔
        s.inWindow pk bucket W < limit) ↔ s.Live pk bucket W ∨ 0 < limit) := by
  have hstored := stored_of_run hempty hrun
  refine ⟨hstored, ?_⟩
  have hdecision : ((checkAndConsume pk bucket ⟨limit, W⟩).run (Op.run py) s.world).1.any
      Decision.allowed =
      (FixedWindow.step W limit s.world.now (lastWindow W (s.times pk bucket))).1 := by
    rw [run_checkAndConsume, ← hstored]
    exact congrArg Prod.fst (consume_eq_step ⟨limit, W⟩ s.world.now (s.world.rates pk bucket))
  rw [hdecision]
  exact step_iff_counted

/-- Two calls are allowed under a limit of two, and then a third one under a limit of three. -/
theorem allowed_iff_below_two : ∃ s, Machine.Run (step asciiPy)
    (Windows (lit "aa") (lit "post_hour") 3600) { world := .start 0 } s ∧
    s.times (lit "aa") (lit "post_hour") = [100, 0] ∧
    ((((checkAndConsume (lit "aa") (lit "post_hour") ⟨3, 3600⟩).run (Op.run asciiPy)
      s.world).1.any Decision.allowed = true) ↔
      s.inWindow (lit "aa") (lit "post_hour") 3600 < 3) := by
  obtain ⟨s, hrun, hs⟩ := Machine.exists_run (step asciiPy)
    (fun s a => decide (Windows (lit "aa") (lit "post_hour") 3600 s a))
    (p := fun s => s.times (lit "aa") (lit "post_hour") = [100, 0])
    (s := { world := .start 0 })
    [.checkAndConsume (lit "aa") (lit "post_hour") ⟨2, 3600⟩, .wait 100,
      .checkAndConsume (lit "aa") (lit "post_hour") ⟨2, 3600⟩, .wait 200,
      .checkAndConsume (lit "aa") (lit "post_hour") ⟨2, 3600⟩]
    (by decide +kernel)
  have hwindows := hrun.mono fun s a => of_decide_eq_true
  exact ⟨s, hwindows, of_decide_eq_true hs,
    (allowed_iff_below rfl hwindows 3).2.mpr (.inr (by decide))⟩

/-- Nothing was allowed before the first call, and a limit of zero allows it. -/
theorem first_call_under_zero :
    Machine.Run (step asciiPy) (Windows (lit "aa") (lit "post_hour") 3600)
      { world := .start 0 } { world := .start 0 } ∧
    ¬ ((((checkAndConsume (lit "aa") (lit "post_hour") ⟨0, 3600⟩).run (Op.run asciiPy)
      (World.start 0)).1.any Decision.allowed = true) ↔
      Calls.inWindow { world := .start 0 } (lit "aa") (lit "post_hour") 3600 < 0) := by
  refine ⟨.refl, ?_⟩
  decide +kernel

/-! ## Refusals -/

/-- The row of a key has been started in the past. -/
def Calls.Started (s : Calls) (pk : Pubkey) (bucket : Text) : Prop :=
  ∀ window ∈ s.world.rates pk bucket, window.windowStart ≤ s.world.now

theorem consume_windowStart (limit : RateLimit) {now : Int} {current : Option RateWindow}
    (h : ∀ window ∈ current, window.windowStart ≤ now) :
    (consume limit now current).2.windowStart ≤ now := by
  cases current with
  | none => exact le_refl now
  | some window =>
    have hstart : window.windowStart ≤ now := h window rfl
    rw [consume]
    split
    · exact le_refl now
    · split
      · exact hstart
      · exact hstart

theorem started_step {a : Act} (h : s.Started pk bucket) (hs : step py s a = some s') :
    s'.Started pk bucket := by
  cases a with
  | wait t =>
    obtain ⟨rfl, hnow⟩ := step_wait hs
    intro window hwindow
    exact (h window hwindow).trans hnow
  | checkAndConsume pk' bucket' limit =>
    intro window hwindow
    rw [now_call hs]
    by_cases hkey : pk' = pk ∧ bucket' = bucket
    · obtain ⟨rfl, rfl⟩ := hkey
      rw [rates_call hs] at hwindow
      cases hwindow
      exact consume_windowStart limit h
    · rw [rates_other hkey hs] at hwindow
      exact h window hwindow

theorem started_of_run {ok : Calls → Act → Prop} {w : World} (hempty : w.rates = fun _ _ => none)
    (hrun : Machine.Run (step py) ok { world := w } s) : s.Started pk bucket := by
  refine hrun.invariant (fun s a s' h _ hs => started_step h hs) ?_
  intro window hwindow
  rw [hempty] at hwindow
  cases hwindow

/-- What a refusal says about the row that it found. -/
theorem consume_denied {limit : RateLimit} {now r : Int} {current : Option RateWindow}
    (h : (consume limit now current).1 = { allowed := false, retryInSeconds := r }) :
    ∃ windowStart count, current = some ⟨windowStart, count⟩ ∧ now - windowStart < limit.windowSeconds ∧
      limit.limit ≤ count ∧ r = limit.windowSeconds - (now - windowStart) ∧
      (consume limit now current).2 = ⟨windowStart, count⟩ := by
  cases current with
  | none => cases h
  | some window =>
    obtain ⟨windowStart, count⟩ := window
    refine ⟨windowStart, count, rfl, ?_⟩
    rw [consume] at h ⊢
    split at h
    · cases h
    · next hlive =>
      split at h
      · next hfull =>
        rw [if_neg hlive, if_pos hfull]
        have hr : retryIn limit now windowStart = r := congrArg Decision.retryInSeconds h
        unfold retryIn at hr
        refine ⟨by omega, by omega, by omega, rfl⟩
      · cases h

/-- The calls for a key are for windows of `W` seconds and come before the second `stop`. -/
def Earlier (pk : Pubkey) (bucket : Text) (W stop : Int) (s : Calls) : Act → Prop
  | .wait _ => True
  | .checkAndConsume pk' bucket' limit =>
    pk' = pk ∧ bucket' = bucket → limit.windowSeconds = W ∧ s.world.now < stop

instance (pk : Pubkey) (bucket : Text) (W stop : Int) (s : Calls) (a : Act) :
    Decidable (Earlier pk bucket W stop s a) :=
  match a with
  | .wait _ => isTrue trivial
  | .checkAndConsume .. => inferInstanceAs (Decidable (_ → _))

/-- The row of a key holds a full window, which ends at `stop`. -/
def Calls.Full (s : Calls) (pk : Pubkey) (bucket : Text) (W limit stop : Int) : Prop :=
  ∃ count, limit ≤ count ∧ s.world.rates pk bucket = some ⟨stop - W, count⟩

variable {limit : RateLimit} {stop : Int}

theorem full_step {L : Int} {a : Act} (h : s.Full pk bucket W L stop)
    (ha : Earlier pk bucket W stop s a) (hs : step py s a = some s') :
    s'.Full pk bucket W L stop := by
  obtain ⟨count, hcount, hrow⟩ := h
  cases a with
  | wait t =>
    obtain ⟨rfl, _⟩ := step_wait hs
    exact ⟨count, hcount, hrow⟩
  | checkAndConsume pk' bucket' limit =>
    by_cases hkey : pk' = pk ∧ bucket' = bucket
    · obtain ⟨rfl, rfl⟩ := hkey
      obtain ⟨rfl, hnow⟩ := ha ⟨rfl, rfl⟩
      have hlive : ¬ limit.windowSeconds ≤ s.world.now - (stop - limit.windowSeconds) := by omega
      unfold Calls.Full
      rw [rates_call hs, hrow, consume, if_neg hlive]
      split
      · exact ⟨count, hcount, rfl⟩
      · exact ⟨count + 1, by omega, rfl⟩
    · refine ⟨count, hcount, ?_⟩
      rw [rates_other hkey hs]
      exact hrow

theorem now_step {a : Act} (hs : step py s a = some s') : s.world.now ≤ s'.world.now := by
  cases a with
  | wait t => exact (step_wait hs).2
  | checkAndConsume pk' bucket' limit => exact (now_call hs).ge

/-- A full window stays as long as it lasts, whatever limits the calls of its key have. -/
theorem full_of_run {L : Int} (h : s.Full pk bucket W L stop)
    (hrun : Machine.Run (step py) (Windows pk bucket W) s s') (hnow : s'.world.now < stop) :
    s'.Full pk bucket W L stop := by
  have hkept : s'.world.now < stop → s'.Full pk bucket W L stop := by
    refine hrun.invariant (P := fun t => t.world.now < stop → t.Full pk bucket W L stop)
      (fun t a t' h ha hs hnow' => ?_) (fun _ => h)
    have hbefore : t.world.now < stop := (now_step hs).trans_lt hnow'
    refine full_step (h hbefore) ?_ hs
    cases a with
    | wait t => exact trivial
    | checkAndConsume pk' bucket' limit => exact fun hkey => ⟨ha hkey, hbefore⟩
  exact hkept hnow

theorem Calls.Full.denied (h : s.Full pk bucket limit.windowSeconds limit.limit stop)
    (hnow : s.world.now < stop) :
    (consume limit s.world.now (s.world.rates pk bucket)).1.allowed = false := by
  obtain ⟨count, hcount, hrow⟩ := h
  have hlive : ¬ limit.windowSeconds ≤ s.world.now - (stop - limit.windowSeconds) := by omega
  have hfull : limit.limit < count + 1 := by omega
  rw [hrow, consume, if_neg hlive, if_pos hfull]

theorem Calls.Full.ended {L : Int} (h : s.Full pk bucket W L stop) (hnow : stop ≤ s.world.now)
    (limit : Int) :
    (consume ⟨limit, W⟩ s.world.now (s.world.rates pk bucket)).1.allowed = true := by
  obtain ⟨count, _, hrow⟩ := h
  have hended : W ≤ s.world.now - (stop - W) := by omega
  rw [hrow, consume, if_pos hended]

/-- **A refusal is exact**: nothing is stored, the same call is refused until the second that it
names, and the first call from that second on is allowed.  The limiter reads the clock in whole
seconds, rounded down, and so are the times here. -/
theorem denied_until {w w' : World} (hempty : w.rates = fun _ _ => none)
    (hreach : Machine.Run (step py) (fun _ _ => True) { world := w } s)
    {r : Int} (hdenied : (checkAndConsume pk bucket limit).run (Op.run py) s.world =
      (some { allowed := false, retryInSeconds := r }, w')) :
    (1 ≤ r ∧ r ≤ limit.windowSeconds) ∧ w'.rates = s.world.rates ∧
    (∀ t, Machine.Run (step py) (Windows pk bucket limit.windowSeconds) { s with world := w' } t →
      t.world.now < s.world.now + r →
      ((checkAndConsume pk bucket limit).run (Op.run py) t.world).1.map Decision.allowed =
        some false) ∧
    ∀ t, Machine.Run (step py) (Earlier pk bucket limit.windowSeconds (s.world.now + r))
        { s with world := w' } t →
      s.world.now + r ≤ t.world.now →
      ∀ limit', ((checkAndConsume pk bucket ⟨limit', limit.windowSeconds⟩).run (Op.run py)
        t.world).1.map Decision.allowed = some true := by
  rw [run_checkAndConsume, Prod.mk.injEq, Option.some.injEq] at hdenied
  obtain ⟨hdecision, rfl⟩ := hdenied
  obtain ⟨windowStart, count, hrow, hlive, hcount, hr, hwindow⟩ := consume_denied hdecision
  have hstart : windowStart ≤ s.world.now := started_of_run hempty hreach _ hrow
  have hsame : s.world.setRate pk bucket
      (consume limit s.world.now (s.world.rates pk bucket)).2 = s.world.rates := by
    rw [hwindow]
    exact setRate_self hrow
  have hfull : ∀ u : World, u.rates = s.world.rates → Calls.Full { s with world := u } pk bucket
      limit.windowSeconds limit.limit (s.world.now + r) := by
    intro u hu
    refine ⟨count, hcount, ?_⟩
    have hstop : s.world.now + r - limit.windowSeconds = windowStart := by omega
    rw [hstop]
    exact (congrFun (congrFun hu pk) bucket).trans hrow
  refine ⟨⟨by omega, by omega⟩, hsame, fun t hrun hnow => ?_, fun t hrun hnow limit' => ?_⟩
  · rw [run_checkAndConsume, Option.map_some, (full_of_run (hfull _ hsame) hrun hnow).denied hnow]
  · have hkept := hrun.invariant (fun _ _ _ h ha hs => full_step h ha hs) (hfull _ hsame)
    rw [run_checkAndConsume, Option.map_some]
    exact congrArg some (hkept.ended hnow limit')

/-- Refused at second 200 for 3400 seconds. -/
theorem denied_until_two : ∃ s w', Machine.Run (step asciiPy) (fun _ _ => True)
    { world := .start 0 } s ∧
    (checkAndConsume (lit "aa") (lit "post_hour") ⟨2, 3600⟩).run (Op.run asciiPy) s.world =
      (some { allowed := false, retryInSeconds := 3400 }, w') ∧
    w'.rates = s.world.rates ∧
    ((checkAndConsume (lit "aa") (lit "post_hour") ⟨2, 3600⟩).run (Op.run asciiPy) w').1.map
      Decision.allowed = some false := by
  obtain ⟨s, hrun, hs⟩ := Machine.exists_run (step asciiPy) (fun _ _ => true)
    (p := fun s => s.world.now = 200 ∧ ((checkAndConsume (lit "aa") (lit "post_hour")
      ⟨2, 3600⟩).run (Op.run asciiPy) s.world).1 =
        some { allowed := false, retryInSeconds := 3400 })
    (s := { world := .start 0 })
    [.checkAndConsume (lit "aa") (lit "post_hour") ⟨2, 3600⟩, .wait 100,
      .checkAndConsume (lit "aa") (lit "post_hour") ⟨3, 3600⟩, .wait 200]
    (by decide +kernel)
  obtain ⟨hnow, hdecision⟩ := of_decide_eq_true hs
  have hrun : Machine.Run (step asciiPy) (fun _ _ => True) { world := .start 0 } s :=
    hrun.mono fun _ _ _ => trivial
  obtain ⟨w', hdenied⟩ : ∃ w', (checkAndConsume (lit "aa") (lit "post_hour") ⟨2, 3600⟩).run
      (Op.run asciiPy) s.world = (some { allowed := false, retryInSeconds := 3400 }, w') :=
    ⟨_, Prod.ext hdecision rfl⟩
  obtain ⟨_, hsame, hbefore, _⟩ := denied_until rfl hrun hdenied
  have hclock : w'.now = s.world.now := by
    rw [run_checkAndConsume] at hdenied
    exact (congrArg (fun answer => World.now answer.2) hdenied).symm
  refine ⟨s, w', hrun, hdenied, hsame, hbefore { s with world := w' } .refl ?_⟩
  show w'.now < s.world.now + 3400
  omega

end Runs

end Bbs.RateLimiter
