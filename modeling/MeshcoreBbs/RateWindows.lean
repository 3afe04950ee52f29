import MeshcoreBbs.Lib.FixedWindow
import MeshcoreBbs.Lib.Machine
import MeshcoreBbs.RateLimit

/-!
# What the rate limiter lets through

Any calls of `check_and_consume` run one after the other on the table, under a clock that does
not go back.  The table of one key is a `FixedWindow` counter (`tracks_step`), so the calls of
the key that were allowed are `Windowed`.
-/

namespace Bbs.RateLimiter

open FixedWindow

/-- An allowed call: the seconds that it read and the start of the window stored after it. -/
structure Call extends Admitted Int where
  pk : Pubkey
  bucket : Text

/-- The world, and the calls allowed so far, latest first. -/
structure Calls where
  world : World
  allowed : List Call := []

inductive Act
  | wait (t : ℚ)
  | checkAndConsume (pk : Pubkey) (bucket : Text) (limit : RateLimit)

def step (py : Py) (s : Calls) : Act → Option Calls
  | .wait t => if s.world.clock ≤ t then some { s with world := { s.world with clock := t } } else none
  | .checkAndConsume pk bucket limit =>
    let (decision, w) := (checkAndConsume pk bucket limit).run (Op.run py) s.world
    let start := (w.rates pk bucket).elim 0 RateWindow.windowStart
    let call : Call := { time := s.world.now, start := start, pk := pk, bucket := bucket }
    some ⟨w, if decision.any Decision.allowed then call :: s.allowed else s.allowed⟩

/-- The calls for a key have windows of `W` seconds and limits between `1` and `L`. -/
def Limited (pk : Pubkey) (bucket : Text) (W : Int) (L : ℕ) (_ : Calls) : Act → Prop
  | .wait _ => True
  | .checkAndConsume pk' bucket' limit =>
    pk' = pk ∧ bucket' = bucket → limit.windowSeconds = W ∧ 1 ≤ limit.limit ∧ limit.limit ≤ L

instance (pk : Pubkey) (bucket : Text) (W : Int) (L : ℕ) (s : Calls) (a : Act) :
    Decidable (Limited pk bucket W L s a) :=
  match a with
  | .wait _ => isTrue trivial
  | .checkAndConsume .. => inferInstanceAs (Decidable (_ → _))

/-- The allowed calls for a key. -/
def Calls.ofKey (s : Calls) (pk : Pubkey) (bucket : Text) : List (Admitted Int) :=
  (s.allowed.filter fun c => c.pk = pk ∧ c.bucket = bucket).map Call.toAdmitted

def windowOf (w : RateWindow) : Window Int := ⟨w.windowStart, w.count⟩

theorem consume_eq_step (limit : RateLimit) (now : Int) (current : Option RateWindow) :
    ((consume limit now current).1.allowed, windowOf (consume limit now current).2) =
      FixedWindow.step limit.windowSeconds limit.limit now (current.map windowOf) := by
  cases current with
  | none => rfl
  | some w =>
    have hiff : w.windowStart + limit.windowSeconds ≤ now ↔
        limit.windowSeconds ≤ now - w.windowStart := by omega
    simp only [consume, Option.map_some, FixedWindow.step, windowOf, hiff]
    split
    · rfl
    · split <;> rfl

section Runs

variable {py : Py} {pk : Pubkey} {bucket : Text} {W : Int} {L : ℕ} {s s' : Calls}

/-- The table and the allowed calls of one key. -/
def Calls.Tracks (s : Calls) (pk : Pubkey) (bucket : Text) (W : Int) (L : ℕ) : Prop :=
  FixedWindow.Tracks W L s.world.now ((s.world.rates pk bucket).map windowOf) (s.ofKey pk bucket)

/-- A call, by what `consume` decides. -/
theorem step_call (s : Calls) (pk : Pubkey) (bucket : Text) (limit : RateLimit) :
    step py s (.checkAndConsume pk bucket limit) =
      let consumed := consume limit s.world.now (s.world.rates pk bucket)
      let call : Call := ⟨⟨s.world.now, consumed.2.windowStart⟩, pk, bucket⟩
      some ⟨{ s.world with rates := s.world.setRate pk bucket consumed.2 },
        if consumed.1.allowed then call :: s.allowed else s.allowed⟩ := by
  simp [step, run_checkAndConsume, World.setRate]

theorem rates_call {limit : RateLimit} (hs : step py s (.checkAndConsume pk bucket limit) = some s') :
    s'.world.rates pk bucket = some (consume limit s.world.now (s.world.rates pk bucket)).2 := by
  rw [step_call, Option.some.injEq] at hs
  subst hs
  simp only [World.setRate, Function.update_self]

/-- The windows of the other keys stay. -/
theorem rates_other {pk' : Pubkey} {bucket' : Text} {limit : RateLimit}
    (hne : ¬ (pk' = pk ∧ bucket' = bucket))
    (hs : step py s (.checkAndConsume pk' bucket' limit) = some s') :
    s'.world.rates pk bucket = s.world.rates pk bucket := by
  rw [step_call, Option.some.injEq] at hs
  subst hs
  show World.setRate s.world pk' bucket' _ pk bucket = s.world.rates pk bucket
  unfold World.setRate
  by_cases hpk : pk = pk'
  · subst hpk
    rw [Function.update_self, Function.update_of_ne fun hb => hne ⟨rfl, hb.symm⟩]
  · rw [Function.update_of_ne hpk]

theorem ofKey_call {limit : RateLimit} (hs : step py s (.checkAndConsume pk bucket limit) = some s') :
    s'.ofKey pk bucket =
      let consumed := consume limit s.world.now (s.world.rates pk bucket)
      if consumed.1.allowed then ⟨s.world.now, consumed.2.windowStart⟩ :: s.ofKey pk bucket
      else s.ofKey pk bucket := by
  rw [step_call, Option.some.injEq] at hs
  subst hs
  unfold Calls.ofKey
  simp only
  split
  · rw [List.filter_cons_of_pos (by simp), List.map_cons]
  · rfl

theorem ofKey_other {pk' : Pubkey} {bucket' : Text} {limit : RateLimit}
    (hne : ¬ (pk' = pk ∧ bucket' = bucket))
    (hs : step py s (.checkAndConsume pk' bucket' limit) = some s') :
    s'.ofKey pk bucket = s.ofKey pk bucket := by
  rw [step_call, Option.some.injEq] at hs
  subst hs
  unfold Calls.ofKey
  simp only
  split
  · rw [List.filter_cons_of_neg (by simpa using hne)]
  · rfl

theorem now_call {limit : RateLimit} (hs : step py s (.checkAndConsume pk bucket limit) = some s') :
    s'.world.now = s.world.now := by
  rw [step_call, Option.some.injEq] at hs
  subst hs
  rfl

theorem step_wait {t : ℚ} (hs : step py s (.wait t) = some s') :
    s' = { s with world := { s.world with clock := t } } ∧ s.world.now ≤ s'.world.now := by
  rw [step] at hs
  split at hs
  · next ht =>
    cases hs
    exact ⟨rfl, Int.floor_mono ht⟩
  · cases hs

theorem tracks_call (hW : 1 ≤ W) (h : s.Tracks pk bucket W L) {limit : RateLimit}
    (hlimit : limit.windowSeconds = W ∧ 1 ≤ limit.limit ∧ limit.limit ≤ L)
    (hs : step py s (.checkAndConsume pk bucket limit) = some s') : s'.Tracks pk bucket W L := by
  obtain ⟨rfl, hlow, hhigh⟩ := hlimit
  have hstep := FixedWindow.Tracks.step h (by omega) (le_refl _) hlow hhigh
  rw [← consume_eq_step] at hstep
  unfold Calls.Tracks
  rw [now_call hs, rates_call hs, ofKey_call hs]
  exact hstep

theorem tracks_other (h : s.Tracks pk bucket W L) {pk' : Pubkey} {bucket' : Text}
    {limit : RateLimit} (hne : ¬ (pk' = pk ∧ bucket' = bucket))
    (hs : step py s (.checkAndConsume pk' bucket' limit) = some s') : s'.Tracks pk bucket W L := by
  unfold Calls.Tracks
  rw [now_call hs, rates_other hne hs, ofKey_other hne hs]
  exact h

theorem tracks_step (hW : 1 ≤ W) (h : s.Tracks pk bucket W L) {a : Act}
    (ha : Limited pk bucket W L s a) (hs : step py s a = some s') : s'.Tracks pk bucket W L := by
  cases a with
  | wait t =>
    obtain ⟨rfl, hnow⟩ := step_wait hs
    exact h.wait hnow
  | checkAndConsume pk' bucket' limit =>
    by_cases hkey : pk' = pk ∧ bucket' = bucket
    · obtain ⟨rfl, rfl⟩ := hkey
      exact tracks_call hW h (ha ⟨rfl, rfl⟩) hs
    · exact tracks_other h hkey hs

/-- **Any interval of the length of a window**: the calls of a key that are allowed.  The limiter reads
the clock in whole seconds, rounded down, and the times of calls and the ends of intervals are those
seconds. -/
theorem allowed_windowed {w : World} (hempty : w.rates = fun _ _ => none) (hW : 1 ≤ W)
    (hrun : Machine.Run (step py) (Limited pk bucket W L) { world := w } s) :
    (∀ call ∈ s.ofKey pk bucket, call.start ≤ call.time ∧ call.time < call.start + W) ∧
    (∀ start, (s.ofKey pk bucket).countP (fun call => call.start = start) ≤ L) ∧
    ∀ t, (s.ofKey pk bucket).countP (fun call => t ≤ call.time ∧ call.time < t + W) ≤ 2 * L - 1 := by
  have htracks : s.Tracks pk bucket W L := by
    refine hrun.invariant (fun s a s' h ha hs => tracks_step hW h ha hs) ?_
    unfold Calls.Tracks Calls.ofKey
    rw [hempty]
    exact .init W _ L
  exact ⟨htracks.windowed.within, htracks.windowed.bounded, htracks.windowed.countP_interval⟩

/-- Two calls allowed in an hour, a third refused, and one more when the hour is over. -/
theorem allowed_windowed_three : ∃ s, Machine.Run (step asciiPy)
    (Limited (lit "aa") (lit "post_hour") 3600 2) { world := .start 0 } s ∧
    (s.ofKey (lit "aa") (lit "post_hour")).map Admitted.time = [3600, 100, 0] ∧
    ∀ t, (s.ofKey (lit "aa") (lit "post_hour")).countP
      (fun call => t ≤ call.time ∧ call.time < t + 3600) ≤ 3 := by
  obtain ⟨s, hrun, hs⟩ := Machine.exists_run (step asciiPy)
    (fun s a => decide (Limited (lit "aa") (lit "post_hour") 3600 2 s a))
    (p := fun s => (s.ofKey (lit "aa") (lit "post_hour")).map Admitted.time = [3600, 100, 0])
    (s := { world := .start 0 })
    [.checkAndConsume (lit "aa") (lit "post_hour") ⟨2, 3600⟩, .wait 100,
      .checkAndConsume (lit "aa") (lit "post_hour") ⟨2, 3600⟩, .wait 200,
      .checkAndConsume (lit "aa") (lit "post_hour") ⟨1, 3600⟩,
      .checkAndConsume (lit "bb") (lit "post_hour") ⟨9, 60⟩, .wait 3600,
      .checkAndConsume (lit "aa") (lit "post_hour") ⟨1, 3600⟩]
    (by decide +kernel)
  have hlimited := hrun.mono fun s a => of_decide_eq_true
  exact ⟨s, hlimited, of_decide_eq_true hs, (allowed_windowed rfl (by decide) hlimited).2.2⟩

end Runs

end Bbs.RateLimiter
