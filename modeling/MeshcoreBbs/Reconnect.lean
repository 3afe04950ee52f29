import Mathlib.Algebra.Order.Archimedean.Basic
import Mathlib.Algebra.Order.BigOperators.Group.Finset
import Mathlib.Tactic.NormNum
import MeshcoreBbs.Lib.Fair
import MeshcoreBbs.Lib.SleepLoop

/-!
# The reconnect supervisor (`_reconnect_supervisor`)

It sleeps, looks at the link, and tries to restore it if it is down; the library gains and loses the
link meanwhile.  The sleep doubles with every failure in a row, up to a minute, so few attempts are
made in a long outage (`reconnect_backs_off`), and there is always another one
(`reconnect_goes_on`).

`row` counts the failures since `since`, when the supervisor last saw the link up or restored it; both
are there for the properties, and so is `restored`, the number of events put.
-/

namespace Bbs

namespace Reconnect

inductive Outcome
  /-- the link is up without an attempt -/
  | up
  | restored
  | failed
  deriving DecidableEq

/-- `backoff`, after what happened. -/
def nextBackoff (backoff : ℚ) : Outcome → ℚ
  | .up => 1
  | .restored => 1
  | .failed => min (backoff * 2) 60

structure Supervisor where
  clock : ℚ
  /-- `self._mc is not None` -/
  companion : Bool := true
  isConnected : Bool := true
  /-- the task has not ended -/
  running : Bool := true
  sleeper : SleepLoop.Sleeper ℚ
  /-- `connect` has returned, and the contacts are awaited -/
  loading : Bool := false
  restored : Nat := 0
  row : Nat := 0
  since : ℚ

inductive Act
  | wait (t : ℚ)
  /-- the library gains or loses the link -/
  | link (isConnected : Bool)
  | stop
  /-- the sleep is over -/
  | wake
  /-- `connect` returns, or it raises or takes too long -/
  | connected (ok : Bool)
  | loaded

namespace Supervisor

variable (s : Supervisor)

def reset : Supervisor := { s with row := 0, since := s.clock }

def step : Act → Option Supervisor
  | .wait t => if s.clock ≤ t then some { s with clock := t } else none
  | .link isConnected => some { s with isConnected := isConnected }
  | .stop => some { s with running := false, companion := false }
  | .wake =>
    if !s.running then none
    else if !s.companion then
      if s.sleeper.due s.clock then some { s with running := false } else none
    else if s.isConnected then
      (s.sleeper.skip nextBackoff id s.clock .up).map fun sleeper => { s.reset with sleeper := sleeper }
    else (s.sleeper.begin s.clock).map fun sleeper => { s with sleeper := sleeper }
  | .connected ok =>
    if !s.running || s.loading then none
    else if ok then
      match s.sleeper.phase with
      | .asleep _ => none
      | .busy _ => some { s with loading := true }
    else
      (s.sleeper.finish nextBackoff id s.clock .failed).map fun sleeper =>
        { s with sleeper := sleeper, row := s.row + 1 }
  | .loaded =>
    if !s.running || !s.loading then none
    else
      (s.sleeper.finish nextBackoff id s.clock .restored).map fun sleeper =>
        { s.reset with sleeper := sleeper, loading := false, restored := s.restored + 1 }

/-- `start` has made the task. -/
def start (clock : ℚ) : Supervisor where
  clock := clock
  sleeper := { pause := 1, phase := .asleep (clock + 1) }
  since := clock

/-- The attempts since the supervisor last saw the link up or restored it. -/
def attempts : Nat :=
  match s.sleeper.phase with
  | .asleep _ => s.row
  | .busy _ => s.row + 1

inductive Step : Act → Supervisor → Prop
  | wait {t} (ht : s.clock ≤ t) : Step (.wait t) { s with clock := t }
  | link {isConnected} : Step (.link isConnected) { s with isConnected := isConnected }
  | stop : Step .stop { s with running := false, companion := false }
  | exit (hrunning : s.running = true) (hgone : s.companion = false) : Step .wake { s with running := false }
  | up {sleeper} (hrunning : s.running = true) (hup : s.isConnected = true)
      (hs : s.sleeper.skip nextBackoff id s.clock .up = some sleeper) :
      Step .wake { s.reset with sleeper := sleeper }
  | attempt {sleeper} (hrunning : s.running = true) (hdown : s.isConnected = false)
      (hs : s.sleeper.begin s.clock = some sleeper) : Step .wake { s with sleeper := sleeper }
  | connected {since} (hrunning : s.running = true) (hloading : s.loading = false)
      (hphase : s.sleeper.phase = .busy since) : Step (.connected true) { s with loading := true }
  | failed {sleeper} (hrunning : s.running = true) (hloading : s.loading = false)
      (hs : s.sleeper.finish nextBackoff id s.clock .failed = some sleeper) :
      Step (.connected false) { s with sleeper := sleeper, row := s.row + 1 }
  | loaded {sleeper} (hrunning : s.running = true) (hloading : s.loading = true)
      (hs : s.sleeper.finish nextBackoff id s.clock .restored = some sleeper) :
      Step .loaded { s.reset with sleeper := sleeper, loading := false, restored := s.restored + 1 }

variable {s} {s' : Supervisor} {a : Act}

theorem step_cases (h : s.step a = some s') : s.Step a s' := by
  cases a with
  | wait t =>
    simp only [step] at h
    split at h
    · next ht =>
      cases h
      exact .wait ht
    · cases h
  | link isConnected =>
    cases h
    exact .link
  | stop =>
    cases h
    exact .stop
  | wake =>
    simp only [step, Bool.not_eq_eq_eq_not, Bool.not_true] at h
    split at h
    · cases h
    · next hrunning =>
      rw [Bool.not_eq_false] at hrunning
      split at h
      · next hgone =>
        split at h
        · cases h
          exact .exit hrunning hgone
        · cases h
      · split at h
        · next hup =>
          rw [Option.map_eq_some_iff] at h
          obtain ⟨sleeper, hs, rfl⟩ := h
          exact .up hrunning hup hs
        · next hdown =>
          rw [Option.map_eq_some_iff] at h
          obtain ⟨sleeper, hs, rfl⟩ := h
          exact .attempt hrunning (by simpa using hdown) hs
  | connected ok =>
    simp only [step, Bool.or_eq_true, Bool.not_eq_eq_eq_not, Bool.not_true] at h
    split at h
    · cases h
    · next hgo =>
      rw [not_or, Bool.not_eq_false, Bool.not_eq_true] at hgo
      cases ok with
      | true =>
        simp only [if_true] at h
        split at h
        · cases h
        · next since hphase =>
          cases h
          exact .connected hgo.1 hgo.2 hphase
      | false =>
        simp only [Bool.false_eq_true, if_false, Option.map_eq_some_iff] at h
        obtain ⟨sleeper, hs, rfl⟩ := h
        exact .failed hgo.1 hgo.2 hs
  | loaded =>
    simp only [step, Bool.or_eq_true, Bool.not_eq_eq_eq_not, Bool.not_true] at h
    split at h
    · cases h
    · next hgo =>
      rw [not_or, Bool.not_eq_false, Bool.not_eq_false] at hgo
      rw [Option.map_eq_some_iff] at h
      obtain ⟨sleeper, hs, rfl⟩ := h
      exact .loaded hgo.1 hgo.2 hs

/-! ## Few attempts in a long outage -/

/-- The sleep after `i` failures in a row. -/
def backoff (i : Nat) : ℚ := min (2 ^ i) 60

/-- The sleeps before `n` attempts. -/
def sleeps (n : Nat) : ℚ := ∑ i ∈ Finset.range n, backoff i

theorem one_le_backoff (i : Nat) : 1 ≤ backoff i :=
  le_min (one_le_pow₀ (by norm_num)) (by norm_num)

theorem nextBackoff_failed (i : Nat) : nextBackoff (backoff i) .failed = backoff (i + 1) := by
  unfold nextBackoff backoff
  rw [pow_succ]
  rcases le_total ((2 : ℚ) ^ i) 60 with hle | hle
  · rw [min_eq_left hle]
  · rw [min_eq_right hle, min_eq_right (by norm_num), min_eq_right (by linarith)]

theorem sleeps_succ (n : Nat) : sleeps (n + 1) = sleeps n + backoff n := Finset.sum_range_succ _ _

theorem sleeps_nonneg (n : Nat) : 0 ≤ sleeps n :=
  Finset.sum_nonneg fun i _ => zero_le_one.trans (one_le_backoff i)

theorem backoff_of_six_le {i : Nat} (hi : 6 ≤ i) : backoff i = 60 := by
  have hpow : (2 : ℚ) ^ 6 ≤ 2 ^ i := pow_le_pow_right₀ (by norm_num) hi
  exact min_eq_right (by norm_num at hpow; linarith)

/-- After five attempts, there is one in a minute. -/
theorem sixty_mul_le (n : Nat) : 60 * (n : ℚ) ≤ sleeps n + 300 := by
  by_cases hn : n ≤ 5
  · have hcast : (n : ℚ) ≤ 5 := by exact_mod_cast hn
    have := sleeps_nonneg n
    linarith
  · have h6 : 6 ≤ n := by omega
    induction n, h6 using Nat.le_induction with
    | base => norm_num [sleeps, backoff, Finset.sum_range_succ]
    | succ n h6 ih =>
      have := ih (by omega)
      rw [sleeps_succ, backoff_of_six_le h6]
      push_cast
      linarith

/-- What holds of the sleeper in an outage. -/
structure Backed (s : Supervisor) : Prop where
  pause : s.sleeper.pause = backoff s.row
  spaced : ∃ first, s.sleeper.Spaced first 1 s.clock
  asleep : ∀ wake, s.sleeper.phase = .asleep wake → s.since + sleeps (s.row + 1) ≤ wake
  busy : ∀ t, s.sleeper.phase = .busy t → s.since + sleeps (s.row + 1) ≤ t ∧ t ≤ s.clock
  elapsed : s.since + sleeps s.row ≤ s.clock

theorem one_le_nextBackoff (i : Nat) (o : Outcome) : 1 ≤ nextBackoff (backoff i) o := by
  cases o with
  | up => exact le_refl _
  | restored => exact le_refl _
  | failed =>
    rw [nextBackoff_failed]
    exact one_le_backoff _

theorem Backed.sleeper (h : Backed s) {sleeper : SleepLoop.Sleeper ℚ}
    (hs : s.sleeper.Step nextBackoff id s.clock sleeper) :
    ∃ first, sleeper.Spaced first 1 s.clock := by
  obtain ⟨first, hspaced⟩ := h.spaced
  refine ⟨first, hspaced.step zero_le_one (fun o => ?_) hs⟩
  rw [h.pause]
  exact one_le_nextBackoff s.row o

/-- After a sleep of a second, there is no outage yet. -/
theorem backed_reset {u : Supervisor} (hrow : u.row = 0) (hsince : u.since = u.clock)
    (hpause : u.sleeper.pause = 1) (hphase : u.sleeper.phase = .asleep (u.clock + 1))
    (hspaced : ∃ first, u.sleeper.Spaced first 1 u.clock) : Backed u where
  pause := by simp [hpause, hrow, backoff]
  spaced := hspaced
  asleep wake hwake := by
    rw [hphase, SleepLoop.Phase.asleep.injEq] at hwake
    rw [← hwake, hrow, hsince]
    norm_num [sleeps, backoff]
  busy := by simp [hphase]
  elapsed := by simp [hrow, hsince, sleeps]

theorem backed_step (h : Backed s) (hs : s.Step a s') : Backed s' := by
  cases hs with
  | wait ht =>
    obtain ⟨first, hspaced⟩ := h.spaced
    refine ⟨h.pause, ⟨first, hspaced.wait ht⟩, h.asleep, fun t hphase => ?_, h.elapsed.trans ht⟩
    obtain ⟨hlow, hle⟩ := h.busy t hphase
    exact ⟨hlow, hle.trans ht⟩
  | link => exact ⟨h.pause, h.spaced, h.asleep, h.busy, h.elapsed⟩
  | stop => exact ⟨h.pause, h.spaced, h.asleep, h.busy, h.elapsed⟩
  | exit => exact ⟨h.pause, h.spaced, h.asleep, h.busy, h.elapsed⟩
  | connected => exact ⟨h.pause, h.spaced, h.asleep, h.busy, h.elapsed⟩
  | up _ _ hs =>
    have hspaced := h.sleeper (SleepLoop.Sleeper.step_of_skip hs)
    obtain ⟨-, -, -, rfl⟩ := SleepLoop.Sleeper.skip_eq_some hs
    exact backed_reset rfl rfl rfl rfl hspaced
  | attempt _ _ hs =>
    have hspaced := h.sleeper (SleepLoop.Sleeper.step_of_begin hs)
    obtain ⟨wake, hphase, hdue, rfl⟩ := SleepLoop.Sleeper.begin_eq_some hs
    refine ⟨h.pause, hspaced, by simp, fun t ht => ?_, h.elapsed⟩
    cases ht
    exact ⟨(h.asleep wake hphase).trans hdue, le_refl _⟩
  | failed _ _ hs =>
    have hspaced := h.sleeper (SleepLoop.Sleeper.step_of_finish hs)
    obtain ⟨since, hphase, rfl⟩ := SleepLoop.Sleeper.finish_eq_some hs
    have hpause : nextBackoff s.sleeper.pause .failed = backoff (s.row + 1) := by
      rw [h.pause, nextBackoff_failed]
    obtain ⟨hlow, hle⟩ := h.busy since hphase
    refine ⟨hpause, hspaced, fun wake hwake => ?_, by simp [SleepLoop.Sleeper.sleep], hlow.trans hle⟩
    cases hwake
    rw [sleeps_succ, hpause]
    show _ ≤ s.clock + backoff (s.row + 1)
    linarith
  | loaded _ _ hs =>
    have hspaced := h.sleeper (SleepLoop.Sleeper.step_of_finish hs)
    obtain ⟨since, -, rfl⟩ := SleepLoop.Sleeper.finish_eq_some hs
    exact backed_reset rfl rfl rfl rfl hspaced

theorem backed_start (clock : ℚ) : Backed (start clock) :=
  backed_reset rfl rfl rfl rfl ⟨clock, SleepLoop.Sleeper.spaced_start (by simp)⟩

/-- **A long outage sees few attempts.**  In every run, whatever the library does and however the
attempts end, the `n` attempts since the supervisor last saw the link up or restored it took at least
the sum of the first `n` of the sleeps 1, 2, 4, ..., 32, 60, 60, ..., so there are at most five and one
a minute; and at most `n` attempts begin within `n` seconds at any time.  A link that comes up and is
lost again between two looks at it counts as down throughout. -/
theorem reconnect_backs_off {clock : ℚ}
    (hrun : Machine.Run step (fun _ _ => True) (start clock) s) :
    s.since + ∑ i ∈ Finset.range s.attempts, min ((2 : ℚ) ^ i) 60 ≤ s.clock ∧
    (s.attempts : ℚ) ≤ 5 + (s.clock - s.since) / 60 ∧
    ∀ (a : ℚ) (n : Nat), (s.sleeper.starts.filter fun t => a ≤ t ∧ t < a + n * 1).length ≤ n := by
  have h : Backed s :=
    hrun.invariant (fun _ _ _ h _ hs => backed_step h (step_cases hs)) (backed_start clock)
  have hsum : s.since + sleeps s.attempts ≤ s.clock := by
    unfold attempts
    split
    · exact h.elapsed
    · next t hphase =>
      obtain ⟨hlow, hle⟩ := h.busy t hphase
      exact hlow.trans hle
  obtain ⟨first, hspaced⟩ := h.spaced
  refine ⟨hsum, ?_, fun a n => SleepLoop.count_le hspaced.starts.1⟩
  have := sixty_mul_le s.attempts
  linarith

theorem reconnect_backs_off_twice : ∃ s, Machine.Run step (fun _ _ => True) (start 0) s ∧
    s.attempts = 2 ∧ s.clock = 3 ∧ (s.attempts : ℚ) ≤ 5 + (s.clock - s.since) / 60 := by
  obtain ⟨s, hrun, hp⟩ := Machine.exists_run step (fun _ _ => true)
    (p := fun s => decide (s.attempts = 2 ∧ s.clock = 3)) (s := start 0)
    [.link false, .wait 1, .wake, .connected false, .wait 3, .wake] (by decide +kernel)
  rw [decide_eq_true_eq] at hp
  have hrun : Machine.Run step (fun _ _ => True) (start 0) s := hrun.mono fun _ _ _ => trivial
  exact ⟨s, hrun, hp.1, hp.2, (reconnect_backs_off hrun).2.1⟩

/-! ## Another attempt -/

section Executions

/-- What the supervisor does itself. -/
def OfSupervisor : Act → Prop
  | .wake => True
  | .connected _ => True
  | .loaded => True
  | _ => False

/-- The supervisor is there, and awaits the contacts only after a connect. -/
structure Alive (s : Supervisor) : Prop where
  running : s.running = true
  companion : s.companion = true
  loading : s.loading = true → ∃ since, s.sleeper.phase = .busy since

/-- How far it is from its next sleep. -/
def stage (s : Supervisor) : Nat :=
  match s.sleeper.phase with
  | .asleep _ => 0
  | .busy _ => if s.loading then 1 else 2

/-- The way to the `n`-th attempt. -/
def toAttempt (n : Nat) (s : Supervisor) : Nat × Nat := (n - s.sleeper.starts.length, s.stage)

theorem alive_step (h : Alive s) (ha : a ≠ .stop) (hs : s.Step a s') : Alive s' := by
  cases hs with
  | wait => exact ⟨h.running, h.companion, h.loading⟩
  | link => exact ⟨h.running, h.companion, h.loading⟩
  | stop => exact absurd rfl ha
  | exit _ hgone =>
    rw [h.companion] at hgone
    cases hgone
  | up _ _ hs =>
    obtain ⟨wake, hphase, -, rfl⟩ := SleepLoop.Sleeper.skip_eq_some hs
    refine ⟨h.running, h.companion, fun hloading => ?_⟩
    obtain ⟨since, hbusy⟩ := h.loading hloading
    rw [hphase] at hbusy
    cases hbusy
  | attempt _ _ hs =>
    obtain ⟨wake, -, -, rfl⟩ := SleepLoop.Sleeper.begin_eq_some hs
    exact ⟨h.running, h.companion, fun _ => ⟨_, rfl⟩⟩
  | connected _ _ hphase => exact ⟨h.running, h.companion, fun _ => ⟨_, hphase⟩⟩
  | failed _ hloading _ =>
    refine ⟨h.running, h.companion, fun hl => ?_⟩
    rw [hloading] at hl
    cases hl
  | loaded => exact ⟨h.running, h.companion, by simp⟩

theorem toAttempt_own {n : Nat} (h : Alive s) (hdown : s.isConnected = false) (hs : s.Step a s')
    (ha : OfSupervisor a) (hn : s.sleeper.starts.length < n) :
    Prod.Lex (· < ·) (· < ·) (toAttempt n s') (toAttempt n s) := by
  cases hs with
  | wait => exact ha.elim
  | link => exact ha.elim
  | stop => exact ha.elim
  | exit _ hgone =>
    rw [h.companion] at hgone
    cases hgone
  | up _ hup =>
    rw [hdown] at hup
    cases hup
  | attempt _ _ hs =>
    obtain ⟨wake, hphase, -, rfl⟩ := SleepLoop.Sleeper.begin_eq_some hs
    refine .left _ _ ?_
    simp only [SleepLoop.Sleeper.starts, hphase, List.length_cons] at hn ⊢
    omega
  | connected _ hloading hphase =>
    refine .right _ ?_
    simp [stage, hphase, hloading]
  | failed _ hloading hs =>
    obtain ⟨since, hphase, rfl⟩ := SleepLoop.Sleeper.finish_eq_some hs
    simp only [toAttempt, SleepLoop.Sleeper.starts, hphase, SleepLoop.Sleeper.sleep, List.map_cons]
    refine .right _ ?_
    simp [stage, hphase, hloading]
  | loaded _ hloading hs =>
    obtain ⟨since, hphase, rfl⟩ := SleepLoop.Sleeper.finish_eq_some hs
    simp only [toAttempt, SleepLoop.Sleeper.starts, hphase, SleepLoop.Sleeper.sleep, List.map_cons]
    refine .right _ ?_
    simp [stage, hphase, hloading]

/-- Nothing else moves the sleeper. -/
theorem sleeper_other (hs : s.Step a s') (ha : ¬ OfSupervisor a) :
    s'.sleeper = s.sleeper ∧ s'.loading = s.loading := by
  cases hs with
  | wait => exact ⟨rfl, rfl⟩
  | link => exact ⟨rfl, rfl⟩
  | stop => exact ⟨rfl, rfl⟩
  | _ => exact absurd trivial ha

theorem clock_step (hs : s.Step a s') : s.clock ≤ s'.clock := by
  cases hs with
  | wait ht => exact ht
  | _ => exact le_refl _

theorem enabled_due (h : Alive s) (hdown : s.isConnected = false) {wake : ℚ}
    (hphase : s.sleeper.phase = .asleep wake) (hdue : wake ≤ s.clock) :
    Machine.Enabled step OfSupervisor s := by
  refine ⟨.wake, trivial, ?_⟩
  simp [step, h.running, h.companion, hdown, SleepLoop.Sleeper.begin, SleepLoop.Sleeper.due, hphase,
    hdue]

theorem enabled_busy (h : Alive s) {since : ℚ} (hphase : s.sleeper.phase = .busy since) :
    Machine.Enabled step OfSupervisor s := by
  cases hloading : s.loading with
  | true => exact ⟨.loaded, trivial, by simp [step, h.running, hloading, SleepLoop.Sleeper.finish, hphase]⟩
  | false =>
    exact ⟨.connected false, trivial, by
      simp [step, h.running, hloading, SleepLoop.Sleeper.finish, hphase]⟩

variable {e : Machine.Execution step} {clock : ℚ}

/-- **There is always another attempt.**  In every run without end in which the transport is not
stopped, time goes on and the supervisor is not held up for ever: if from some time on the link
stays down, attempts to restore it go on for ever, however many have failed. -/
theorem reconnect_goes_on (h0 : e.state 0 = start clock) (hstop : ∀ n, e.act n ≠ .stop)
    (hclock : ∀ t : ℚ, ∃ n, t ≤ (e.state n).clock) (hfair : e.WeaklyFair OfSupervisor) {m : Nat}
    (hdown : ∀ n, m ≤ n → (e.state n).isConnected = false) (times : Nat) :
    ∃ n, m ≤ n ∧ times ≤ (e.state n).sleeper.starts.length := by
  have halive : ∀ n, Alive (e.state n) := fun n =>
    e.always (m := 0) (h0 ▸ ⟨rfl, rfl, by simp [start]⟩)
      (fun k _ h => alive_step h (hstop k) (step_cases (e.next k))) (Nat.zero_le n)
  have hmono : ∀ {k n}, k ≤ n → (e.state k).clock ≤ (e.state n).clock := fun {k n} hkn =>
    e.always (P := fun s => (e.state k).clock ≤ s.clock) (le_refl _)
      (fun i _ hi => hi.trans (clock_step (step_cases (e.next i)))) hkn
  have hgo : e.InfinitelyOften OfSupervisor := by
    refine hfair.infinitelyOften fun n hnone => ?_
    have hsame : ∀ k, n ≤ k → (e.state k).sleeper = (e.state n).sleeper := fun k hk =>
      e.always (P := fun s => s.sleeper = (e.state n).sleeper) rfl
        (fun i hi h => (sleeper_other (step_cases (e.next i)) (hnone i hi)).1.trans h) hk
    cases hphase : (e.state n).sleeper.phase with
    | busy since =>
      exact ⟨n, le_refl _, fun k hk => enabled_busy (halive k) ((hsame k hk) ▸ hphase)⟩
    | asleep wake =>
      obtain ⟨k, hk⟩ := hclock wake
      refine ⟨max (max n m) k, by omega, fun i hi => ?_⟩
      exact enabled_due (halive i) (hdown i (by omega)) ((hsame i (by omega)) ▸ hphase)
        (hk.trans (hmono (by omega)))
  refine Machine.Execution.reaches (μ := toAttempt times)
    (g := fun s => times ≤ s.sleeper.starts.length) (wellFounded_lt.prod_lex wellFounded_lt) hgo
    (fun n hn hfew => ?_) (fun n hn hfew ha => ?_)
  · by_cases ha : OfSupervisor (e.act n)
    · exact .inr (toAttempt_own (halive n) (hdown n hn) (step_cases (e.next n)) ha (not_le.mp hfew))
    · obtain ⟨hsleeper, hloading⟩ := sleeper_other (step_cases (e.next n)) ha
      left
      simp [toAttempt, stage, hsleeper, hloading]
  · exact toAttempt_own (halive n) (hdown n hn) (step_cases (e.next n)) ha (not_le.mp hfew)

end Executions

theorem isConnected_own (hs : s.Step a s') (ha : OfSupervisor a) : s'.isConnected = s.isConnected := by
  cases hs with
  | link => exact ha.elim
  | _ => rfl

theorem step_wait {t : ℚ} (ht : s.clock ≤ t) : s.step (.wait t) = some { s with clock := t } :=
  if_pos ht

theorem reconnect_goes_on_thousand : ∃ e : Machine.Execution step, e.state 0 = start 0 ∧
    ∃ n, 1 ≤ n ∧ 1000 ≤ (e.state n).sleeper.starts.length := by
  -- the link goes down at once; then time goes on at every other step, and in between the
  -- supervisor does what it can
  obtain ⟨e, h0, hinv, hok⟩ := Machine.Execution.exists_of_strategy step
    (I := fun n s => (n ≠ 0 → s.isConnected = false) ∧ (((n - 1) / 2 : Nat) : ℚ) ≤ s.clock)
    (s := start 0)
    (R := fun n s a => a ≠ .stop ∧ (n % 2 = 1 → Machine.Enabled step OfSupervisor s → OfSupervisor a))
    ⟨fun h => absurd rfl h, by norm_num [start]⟩ (by
    intro n s hs
    obtain ⟨hdown, hclock⟩ := hs
    by_cases hn : n % 2 = 1
    · have hhalf : (n + 1 - 1) / 2 = (n - 1) / 2 := by omega
      rw [← hhalf] at hclock
      by_cases henabled : Machine.Enabled step OfSupervisor s
      · obtain ⟨a, ha, hsome⟩ := henabled
        obtain ⟨s', hs'⟩ := Option.isSome_iff_exists.mp hsome
        refine ⟨a, s', ⟨fun hstop => ?_, fun _ _ => ha⟩, hs', fun _ => ?_,
          hclock.trans (clock_step (step_cases hs'))⟩
        · rw [hstop] at ha
          exact ha
        · rw [isConnected_own (step_cases hs') ha]
          exact hdown (by omega)
      · exact ⟨.wait s.clock, _, ⟨by simp, fun _ h => absurd h henabled⟩, step_wait (le_refl _),
          fun _ => hdown (by omega), hclock⟩
    · by_cases hzero : n = 0
      · subst hzero
        exact ⟨.link false, _, ⟨by simp, fun h => absurd h hn⟩, rfl, fun _ => rfl, hclock⟩
      · have hle : s.clock ≤ s.clock + 1 := by linarith
        refine ⟨.wait (s.clock + 1), _, ⟨by simp, fun h => absurd h hn⟩, step_wait hle,
          fun _ => hdown hzero, ?_⟩
        have hhalf : (n + 1 - 1) / 2 = (n - 1) / 2 + 1 := by omega
        rw [hhalf]
        push_cast
        show _ ≤ s.clock + 1
        linarith)
  refine ⟨e, h0, reconnect_goes_on h0 (fun n => (hok n).1) (fun t => ?_) (fun n hn => ?_)
    (fun n hn => (hinv n).1 (by omega)) 1000⟩
  · obtain ⟨k, hk⟩ := exists_nat_ge t
    refine ⟨2 * k + 1, hk.trans (le_trans ?_ (hinv (2 * k + 1)).2)⟩
    rw [Nat.cast_le]
    omega
  · exact ⟨2 * n + 1, by omega, (hok (2 * n + 1)).2 (by omega) (hn (2 * n + 1) (by omega))⟩

end Supervisor

end Reconnect

end Bbs
