import MeshcoreBbs.Lib.Fair
import MeshcoreBbs.Lib.SleepLoop
import MeshcoreBbs.Mailbox

/-!
# The loops of the scheduled jobs (`scheduler.py`, `services/news.py`)

`start_all` makes a task of each job: it sleeps, awaits the job, logs what the job raises, and
sleeps again.  The jobs that use the tables of the world are among the tasks of the mailbox module;
the others, of which only the time that they take is seen here, are busy until they end.

A job never runs beside itself, nor before its interval has passed since it ended
(`jobs_keep_time`), and none ever stops running (`jobs_go_on`).
-/

namespace Bbs

namespace Scheduler

/-- `min(30, interval_seconds // 10 or 1)`. -/
def stagger (intervalSeconds : Int) : Int :=
  min 30 (if intervalSeconds / 10 = 0 then 1 else intervalSeconds / 10)

/-- A job, its interval and its sleep before the first run; `request` is what it runs on the
tables. -/
structure Job where
  first : Int
  intervalSeconds : Int
  request : Option Request := none

/-- `loop(name, interval_seconds, fn)`. -/
def loop (intervalSeconds : Int) (request : Option Request) : Job where
  first := stagger intervalSeconds
  intervalSeconds := intervalSeconds
  request := request

/-- The tasks of `start_all`. -/
def startAll (refreshIntervalSeconds : Int) : List Job :=
  [{ first := 5, intervalSeconds := refreshIntervalSeconds },  -- `schedule_news_refresh`
    loop 3600 (some .weatherRefresh), loop 300 (some .mailNotify),
    loop 86400 none,  -- `contact_prune_job`
    loop (86400 * 7) none,  -- `db_vacuum_job`
    loop 86400 (some .auditPrune),
    loop (6 * 3600) none,  -- `time_sync_job`
    loop (12 * 3600) none]  -- `advert_job`

/-- Only the scheduler makes these requests. -/
def ofScheduler : Request → Bool
  | .weatherRefresh => true
  | .mailNotify => true
  | .auditPrune => true
  | _ => false

/-- `asyncio.sleep` does not wait for a time that is over. -/
def sleepTime (seconds : Int) : ℚ := max 0 (seconds : ℚ)

structure JobLoop where
  job : Job
  sleeper : SleepLoop.Sleeper Unit
  /-- the task of its request -/
  awaited : Option Nat := none

/-- The process with the loops of its jobs. -/
structure Loops where
  tasks : Mailbox.Tasks
  loops : List JobLoop

inductive LoopsAct
  | begin (j : Nat)
  | run (j : Nat)
  | other (a : Pool.Act Request Outside)

deriving instance DecidableEq for Request

variable (sv : Services)

namespace JobLoop

variable (jl : JobLoop)

def finish (clock : ℚ) : Option JobLoop :=
  (jl.sleeper.finish (fun p (_ : Unit) => p) (fun _ => sleepTime jl.job.intervalSeconds) clock ()).map
    fun sleeper => { jl with sleeper := sleeper, awaited := none }

end JobLoop

namespace Loops

variable (s : Loops)

def clock : ℚ := s.tasks.state.clock

/-- Others may do this: it is not for a loop to do. -/
def free : Pool.Act Request Outside → Bool
  | .spawn r => !ofScheduler r
  | .resume i => s.loops.all fun jl => jl.awaited ≠ some i
  | .outside _ => true

/-- The job of loop `j` is called. -/
def begun (j : Nat) (jl : JobLoop) (sleeper : SleepLoop.Sleeper Unit) : Loops :=
  match jl.job.request with
  | none => { s with loops := s.loops.set j { jl with sleeper := sleeper } }
  | some r =>
    { tasks := { s.tasks with tasks := s.tasks.tasks ++ [(r, r.prog sv)] }
      loops := s.loops.set j
        { jl with sleeper := sleeper, awaited := some s.tasks.tasks.length } }

def step : LoopsAct → Option Loops
  | .begin j =>
    s.loops[j]?.bind fun jl =>
      (jl.sleeper.begin s.clock).map fun sleeper => s.begun sv j jl sleeper
  | .run j =>
    s.loops[j]?.bind fun jl =>
      match jl.awaited with
      | none => (jl.finish s.clock).map fun jl => { s with loops := s.loops.set j jl }
      | some i =>
        match s.tasks.tasks[i]? with
        | some (_, .finish _) => (jl.finish s.clock).map fun jl => { s with loops := s.loops.set j jl }
        | _ => (Mailbox.step sv s.tasks (.resume i)).map fun tasks => { s with tasks := tasks }
  | .other a =>
    if s.free a then (Mailbox.step sv s.tasks a).map fun tasks => { s with tasks := tasks } else none

def start (w : World) (jobs : List Job) : Loops where
  tasks := ⟨w, []⟩
  loops := jobs.map fun job =>
    { job := job, sleeper := { pause := (), phase := .asleep (w.clock + sleepTime job.first) } }

inductive Step : LoopsAct → Loops → Prop
  | begin {j jl sleeper} (hj : s.loops[j]? = some jl) (hs : jl.sleeper.begin s.clock = some sleeper) :
      Step (.begin j) (s.begun sv j jl sleeper)
  /-- the job ends: its task has, or it has none -/
  | finish {j jl jl'} (hj : s.loops[j]? = some jl) (hs : jl.finish s.clock = some jl')
      (hended : ∀ i, jl.awaited = some i → ∃ r res, s.tasks.tasks[i]? = some (r, .finish res)) :
      Step (.run j) { s with loops := s.loops.set j jl' }
  | resume {j jl i r op k tasks} (hj : s.loops[j]? = some jl) (hi : jl.awaited = some i)
      (hawait : s.tasks.tasks[i]? = some (r, .await op k))
      (hs : Mailbox.step sv s.tasks (.resume i) = some tasks) : Step (.run j) { s with tasks := tasks }
  | other {a tasks} (hfree : s.free a = true) (hs : Mailbox.step sv s.tasks a = some tasks) :
      Step (.other a) { s with tasks := tasks }

variable {sv s} {s' : Loops} {a : LoopsAct}

theorem step_cases (h : s.step sv a = some s') : s.Step sv a s' := by
  cases a with
  | begin j =>
    simp only [step, Option.bind_eq_some_iff, Option.map_eq_some_iff] at h
    obtain ⟨jl, hj, sleeper, hs, rfl⟩ := h
    exact .begin hj hs
  | run j =>
    simp only [step, Option.bind_eq_some_iff] at h
    obtain ⟨jl, hj, h⟩ := h
    split at h
    · next hnone =>
      rw [Option.map_eq_some_iff] at h
      obtain ⟨jl', hs, rfl⟩ := h
      refine .finish hj hs fun i hi => ?_
      rw [hnone] at hi
      cases hi
    · next i hi =>
      split at h
      · next r res hend =>
        rw [Option.map_eq_some_iff] at h
        obtain ⟨jl', hs, rfl⟩ := h
        refine .finish hj hs fun i' hi' => ?_
        cases hi.symm.trans hi'
        exact ⟨r, res, hend⟩
      · rw [Option.map_eq_some_iff] at h
        obtain ⟨tasks, hs, rfl⟩ := h
        cases Pool.step_cases hs with
        | resume hawait => exact .resume hj hi hawait hs
  | other a =>
    simp only [step] at h
    split at h
    · next hfree =>
      rw [Option.map_eq_some_iff] at h
      obtain ⟨tasks, hs, rfl⟩ := h
      exact .other hfree hs
    · cases h

/-! ## Times -/

/-- A loop among the tasks, in a process that was started at `began`. -/
structure Good (began : ℚ) (p : Mailbox.Tasks) (jl : JobLoop) : Prop where
  spaced : jl.sleeper.Spaced (began + sleepTime jl.job.first) (sleepTime jl.job.intervalSeconds)
    p.state.clock
  awaited : ∀ i, jl.awaited = some i → ∃ r m, jl.job.request = some r ∧ p.tasks[i]? = some (r, m)
  busy : ∀ r, jl.job.request = some r →
    (jl.awaited = none ↔ ∃ wake, jl.sleeper.phase = .asleep wake)
  counted : ∀ r, jl.job.request = some r →
    (p.tasks.map Prod.fst).count r = jl.sleeper.starts.length

variable {began : ℚ} {p p' : Mailbox.Tasks} {jl jl' : JobLoop}

theorem sleepTime_nonneg (seconds : Int) : 0 ≤ sleepTime seconds := le_max_left _ _

theorem Good.mono (h : Good began p jl) (hclock : p.state.clock ≤ p'.state.clock)
    (hstay : ∀ (i : Nat) (r : Request) (m : Prog Unit), p.tasks[i]? = some (r, m) →
      ∃ m', p'.tasks[i]? = some (r, m'))
    (hcount : ∀ r, jl.job.request = some r →
      (p'.tasks.map Prod.fst).count r = (p.tasks.map Prod.fst).count r) : Good began p' jl where
  spaced := h.spaced.wait hclock
  awaited i hi := by
    obtain ⟨r, m, hr, hm⟩ := h.awaited i hi
    obtain ⟨m', hm'⟩ := hstay i r m hm
    exact ⟨r, m', hr, hm'⟩
  busy := h.busy
  counted r hr := (hcount r hr).trans (h.counted r hr)

/-- Nobody else runs the job. -/
theorem Good.tasks (h : Good began p jl) (hjob : ∀ r, jl.job.request = some r → ofScheduler r = true)
    {b : Pool.Act Request Outside} (hb : ∀ r, b = .spawn r → ofScheduler r = false)
    (hs : Mailbox.step sv p b = some p') : Good began p' jl := by
  have hstep := Pool.step_cases hs
  refine h.mono (Mailbox.clock_le hs) (fun i r m hi => hstep.task_stays hi) fun r hr => ?_
  rw [hstep.labels, List.count_append]
  cases b with
  | spawn r' =>
    have hne : r' ≠ r := fun heq => by
      have := hb r' rfl
      rw [heq, hjob r hr] at this
      cases this
    simp [hne]
  | resume => simp
  | outside => simp

/-- What the sleeper of a loop does. -/
theorem Good.sleeper (h : Good began p jl) {sleeper : SleepLoop.Sleeper Unit}
    (hs : jl.sleeper.Step (fun p (_ : Unit) => p) (fun _ => sleepTime jl.job.intervalSeconds)
      p.state.clock sleeper) :
    sleeper.Spaced (began + sleepTime jl.job.first) (sleepTime jl.job.intervalSeconds) p.state.clock :=
  h.spaced.step (sleepTime_nonneg _) (fun _ => le_refl _) hs

theorem Good.finish (h : Good began p jl) (hs : jl.finish p.state.clock = some jl') :
    Good began p jl' := by
  rw [JobLoop.finish, Option.map_eq_some_iff] at hs
  obtain ⟨sleeper, hs, rfl⟩ := hs
  have hspaced := h.sleeper (SleepLoop.Sleeper.step_of_finish hs)
  obtain ⟨since, hphase, rfl⟩ := SleepLoop.Sleeper.finish_eq_some hs
  refine ⟨hspaced, by simp, fun r hr => ?_, fun r hr => ?_⟩
  · simp [SleepLoop.Sleeper.sleep]
  · rw [h.counted r hr]
    simp [SleepLoop.Sleeper.starts, SleepLoop.Sleeper.sleep, hphase]

/-- The job is called. -/
theorem Good.begin (h : Good began p jl) {sleeper : SleepLoop.Sleeper Unit}
    (hs : jl.sleeper.begin p.state.clock = some sleeper) (hnone : jl.job.request = none) :
    Good began p { jl with sleeper := sleeper } := by
  have hspaced := h.sleeper (SleepLoop.Sleeper.step_of_begin hs)
  have hno : ∀ r, jl.job.request ≠ some r := by simp [hnone]
  exact ⟨hspaced, h.awaited, fun r hr => absurd hr (hno r), fun r hr => absurd hr (hno r)⟩

theorem Good.call (h : Good began p jl) {sleeper : SleepLoop.Sleeper Unit}
    (hs : jl.sleeper.begin p.state.clock = some sleeper) {r : Request}
    (hr : jl.job.request = some r) :
    Good began { p with tasks := p.tasks ++ [(r, r.prog sv)] }
      { jl with sleeper := sleeper, awaited := some p.tasks.length } := by
  have hspaced := h.sleeper (SleepLoop.Sleeper.step_of_begin hs)
  obtain ⟨wake, hphase, -, rfl⟩ := SleepLoop.Sleeper.begin_eq_some hs
  refine ⟨hspaced, fun i hi => ?_, fun r' _ => by simp, fun r' hr' => ?_⟩
  · cases hi
    exact ⟨r, r.prog sv, hr, by simp⟩
  · cases hr.symm.trans hr'
    have hcount := h.counted r hr
    simp only [SleepLoop.Sleeper.starts, hphase] at hcount
    simp [SleepLoop.Sleeper.starts, hcount]

/-- No two jobs make the same request, and nobody else makes one of theirs. -/
structure Proper (jobs : List Job) : Prop where
  own : ∀ job ∈ jobs, ∀ r, job.request = some r → ofScheduler r = true
  distinct : jobs.Pairwise fun a b => ∀ r, a.request = some r → b.request ≠ some r

theorem proper_startAll (refreshIntervalSeconds : Int) : Proper (startAll refreshIntervalSeconds) where
  own := by simp [startAll, loop, ofScheduler]
  distinct := by simp [startAll, loop]

structure InTime (sv : Services) (w : World) (jobs : List Job) (s : Loops) : Prop where
  tasks : Machine.Run (Mailbox.step sv) (fun _ _ => True) ⟨w, []⟩ s.tasks
  table : s.loops.map JobLoop.job = jobs
  good : ∀ (j : Nat) (jl : JobLoop), s.loops[j]? = some jl → Good w.clock s.tasks jl
  ended : ∀ (i : Nat) (r : Request) (m : Prog Unit), s.tasks.tasks[i]? = some (r, m) →
    ofScheduler r = true →
      (∃ res, m = .finish res) ∨ ∃ (j : Nat) (jl : JobLoop), s.loops[j]? = some jl ∧ jl.awaited = some i

variable {w : World} {jobs : List Job} {j : Nat}

theorem InTime.job (h : InTime sv w jobs s) (hj : s.loops[j]? = some jl) : jl.job ∈ jobs := by
  rw [← h.table]
  exact List.mem_map.mpr ⟨jl, List.mem_of_getElem? hj, rfl⟩

/-- Two loops have different requests. -/
theorem InTime.other (hp : Proper jobs) (h : InTime sv w jobs s) (hj : s.loops[j]? = some jl)
    {k : Nat} (hk : s.loops[k]? = some jl') (hne : j ≠ k) {r : Request}
    (hr : jl.job.request = some r) : jl'.job.request ≠ some r := by
  have hdistinct := hp.distinct
  rw [← h.table, List.pairwise_map, List.pairwise_iff_getElem] at hdistinct
  obtain ⟨hjlen, rfl⟩ := List.getElem?_eq_some_iff.mp hj
  obtain ⟨hklen, rfl⟩ := List.getElem?_eq_some_iff.mp hk
  rcases Nat.lt_or_gt_of_ne hne with hlt | hlt
  · exact hdistinct j k hjlen hklen hlt r hr
  · exact fun hr' => hdistinct k j hklen hjlen hlt r hr' hr

/-- The tasks go on, for a loop or for others. -/
theorem InTime.go (hp : Proper jobs) (h : InTime sv w jobs s) {b : Pool.Act Request Outside}
    {tasks : Mailbox.Tasks} (hb : ∀ r, b = .spawn r → ofScheduler r = false)
    (hs : Mailbox.step sv s.tasks b = some tasks) : InTime sv w jobs { s with tasks := tasks } := by
  have hstep := Pool.step_cases hs
  refine ⟨h.tasks.tail trivial hs, h.table, fun j jl hj => ?_, fun i r m hi hr => ?_⟩
  · exact (h.good j jl hj).tasks (hp.own _ (h.job hj)) hb hs
  · rcases hstep.task hi with hi | hspawn | ⟨-, op, k, hi⟩
    · exact h.ended i r m hi hr
    · rw [hb r hspawn] at hr
      cases hr
    · rcases h.ended i r _ hi hr with ⟨res, hres⟩ | hawait
      · cases hres
      · exact .inr hawait

/-- One loop changes, and the tasks may. -/
theorem InTime.set (h : InTime sv w jobs s) (hj : s.loops[j]? = some jl) (hjob : jl'.job = jl.job)
    {tasks : Mailbox.Tasks} (hrun : Machine.Run (Mailbox.step sv) (fun _ _ => True) ⟨w, []⟩ tasks)
    (hgood : Good w.clock tasks jl')
    (hothers : ∀ k jl'', j ≠ k → s.loops[k]? = some jl'' → Good w.clock tasks jl'')
    (hended : ∀ (i : Nat) (r : Request) (m : Prog Unit), tasks.tasks[i]? = some (r, m) →
      ofScheduler r = true → (∃ res, m = .finish res) ∨ jl'.awaited = some i ∨
        (∃ m', s.tasks.tasks[i]? = some (r, m') ∧ ∀ res, m' ≠ .finish res) ∧ jl.awaited ≠ some i) :
    InTime sv w jobs { tasks := tasks, loops := s.loops.set j jl' } := by
  have hlen := (List.getElem?_eq_some_iff.mp hj).1
  refine ⟨hrun, ?_, fun k jl'' hk => ?_, fun i r m hi hr => ?_⟩
  · rw [← h.table, List.map_set, hjob]
    refine List.ext_getElem? fun k => ?_
    by_cases hk : j = k
    · subst hk
      rw [List.getElem?_set_self (by simpa using hlen), List.getElem?_map, hj]
      rfl
    · rw [List.getElem?_set_ne hk]
  · by_cases hjk : j = k
    · subst hjk
      rw [List.getElem?_set_self hlen] at hk
      cases hk
      exact hgood
    · rw [List.getElem?_set_ne hjk] at hk
      exact hothers k jl'' hjk hk
  · rcases hended i r m hi hr with hend | hawait | ⟨⟨m', hm', hnot⟩, hne⟩
    · exact .inl hend
    · exact .inr ⟨j, jl', List.getElem?_set_self hlen, hawait⟩
    · rcases h.ended i r m' hm' hr with ⟨res, hres⟩ | ⟨k, jl'', hk, hawait⟩
      · exact absurd hres (hnot res)
      · have hjk : j ≠ k := by
          rintro rfl
          cases hj.symm.trans hk
          exact hne hawait
        exact .inr ⟨k, jl'', (List.getElem?_set_ne hjk).trans hk, hawait⟩

theorem InTime.finish (h : InTime sv w jobs s) (hj : s.loops[j]? = some jl)
    (hs : jl.finish s.clock = some jl')
    (hended : ∀ i, jl.awaited = some i → ∃ r res, s.tasks.tasks[i]? = some (r, .finish res)) :
    InTime sv w jobs { s with loops := s.loops.set j jl' } := by
  have hgood := h.good j jl hj
  have hjob : jl'.job = jl.job := by
    rw [JobLoop.finish, Option.map_eq_some_iff] at hs
    obtain ⟨sleeper, -, rfl⟩ := hs
    rfl
  refine h.set hj hjob h.tasks (hgood.finish hs) (fun k jl'' _ hk => h.good k jl'' hk)
    fun i r m hi hr => ?_
  cases m with
  | finish res => exact .inl ⟨res, rfl⟩
  | await op k =>
    refine .inr (.inr ⟨⟨_, hi, by simp⟩, fun hawait => ?_⟩)
    obtain ⟨r', res, hend⟩ := hended i hawait
    cases hi.symm.trans hend

theorem InTime.begin (hp : Proper jobs) (h : InTime sv w jobs s) (hj : s.loops[j]? = some jl)
    {sleeper : SleepLoop.Sleeper Unit} (hs : jl.sleeper.begin s.clock = some sleeper) :
    InTime sv w jobs (s.begun sv j jl sleeper) := by
  have hgood := h.good j jl hj
  unfold begun
  cases hr : jl.job.request with
  | none =>
    refine h.set hj ?_ h.tasks (hgood.begin hs hr) (fun k jl'' _ hk => h.good k jl'' hk)
      fun i r m hi hr' => ?_
    · rfl
    cases m with
    | finish res => exact .inl ⟨res, rfl⟩
    | await op k =>
      refine .inr (.inr ⟨⟨_, hi, by simp⟩, fun hawait => ?_⟩)
      obtain ⟨r', -, hr', -⟩ := hgood.awaited i hawait
      rw [hr] at hr'
      cases hr'
  | some r =>
    have hspawn : Mailbox.step sv s.tasks (.spawn r) =
        some { s.tasks with tasks := s.tasks.tasks ++ [(r, r.prog sv)] } := rfl
    have hstep := Pool.step_cases hspawn
    -- the loop slept, so it awaited nothing
    have hidle : jl.awaited = none := by
      obtain ⟨wake, hphase, -⟩ := SleepLoop.Sleeper.begin_eq_some hs
      exact (hgood.busy r hr).mpr ⟨wake, hphase⟩
    refine h.set hj ?_ (h.tasks.tail trivial hspawn) (hgood.call hs hr) (fun k jl'' hjk hk => ?_)
      fun i r' m hi hr' => ?_
    · rfl
    · refine (h.good k jl'' hk).mono (le_refl _) (fun i r m hi => hstep.task_stays hi) fun r' hr' => ?_
      have hne : r ≠ r' := fun heq => h.other hp hj hk hjk hr (heq ▸ hr')
      simp [hne]
    · rw [List.getElem?_append] at hi
      split at hi
      · cases m with
        | finish res => exact .inl ⟨res, rfl⟩
        | await op k => exact .inr (.inr ⟨⟨_, hi, by simp⟩, by simp [hidle]⟩)
      · next hlen =>
        have hlast := (List.getElem?_eq_some_iff.mp hi).1
        rw [List.length_singleton] at hlast
        refine .inr (.inl ?_)
        simp only [Option.some.injEq]
        omega

theorem inTime_step (hp : Proper jobs) (h : InTime sv w jobs s) (hs : s.Step sv a s') :
    InTime sv w jobs s' := by
  cases hs with
  | begin hj hs => exact h.begin hp hj hs
  | finish hj hs hended => exact h.finish hj hs hended
  | resume _ _ _ hs => exact h.go hp (by simp) hs
  | other hfree hs =>
    refine h.go hp (fun r hr => ?_) hs
    rw [hr] at hfree
    simpa [free] using hfree

theorem inTime_start (sv : Services) (w : World) (jobs : List Job) :
    InTime sv w jobs (start w jobs) where
  tasks := .refl
  table := by simp [start, Function.comp_def]
  good j jl hj := by
    simp only [start, List.getElem?_map, Option.map_eq_some_iff] at hj
    obtain ⟨job, -, rfl⟩ := hj
    exact ⟨SleepLoop.Sleeper.spaced_start (le_refl _), by simp, by simp, by
      simp [start, SleepLoop.Sleeper.starts]⟩
  ended i r m hi := by simp [start] at hi

/-- **The jobs keep their times.**  In every run of the process with the loops of `start_all`,
whatever the jobs raise and whatever else takes turns with them, no job begins before its first
sleep is over; each begins only when its interval has passed since it ended, so at most `n` times in
`n` intervals; and what it runs on the tables, it runs once for every time that it began, one after
the other. -/
theorem jobs_keep_time {refreshIntervalSeconds : Int}
    (hrun : Machine.Run (step sv) (fun _ _ => True) (start w (startAll refreshIntervalSeconds)) s)
    (hj : s.loops[j]? = some jl) :
    (startAll refreshIntervalSeconds)[j]? = some jl.job ∧
    (∀ t ∈ jl.sleeper.starts, w.clock + sleepTime jl.job.first ≤ t) ∧
    jl.sleeper.done.Pairwise (fun later earlier =>
      earlier.2 + sleepTime jl.job.intervalSeconds ≤ later.1) ∧
    (∀ since, jl.sleeper.phase = .busy since → ∀ p ∈ jl.sleeper.done,
      p.2 + sleepTime jl.job.intervalSeconds ≤ since) ∧
    (∀ (a : ℚ) (n : Nat), (jl.sleeper.starts.filter fun t =>
      a ≤ t ∧ t < a + n * sleepTime jl.job.intervalSeconds).length ≤ n) ∧
    ∀ r, jl.job.request = some r →
      (s.tasks.tasks.map Prod.fst).count r = jl.sleeper.starts.length ∧
      ∀ i m, s.tasks.tasks[i]? = some (r, m) → (∃ res, m = .finish res) ∨ jl.awaited = some i := by
  have hp := proper_startAll refreshIntervalSeconds
  have h : InTime sv w (startAll refreshIntervalSeconds) s :=
    hrun.invariant (fun _ _ _ h _ hs => inTime_step hp h (step_cases hs)) (inTime_start sv w _)
  have hgood := h.good j jl hj
  obtain ⟨happart, hfirst⟩ := hgood.spaced.starts
  refine ⟨?_, hfirst, hgood.spaced.apart, fun since hphase => (hgood.spaced.busy since hphase).2.2,
    fun a n => SleepLoop.count_le happart, fun r hr => ⟨hgood.counted r hr, fun i m hi => ?_⟩⟩
  · rw [← h.table, List.getElem?_map, hj]
    rfl
  · rcases h.ended i r m hi (hp.own _ (h.job hj) r hr) with hend | ⟨k, jl', hk, hawait⟩
    · exact .inl hend
    · -- the task is awaited by the one loop that has its request
      obtain ⟨r', m', hr', hi'⟩ := (h.good k jl' hk).awaited i hawait
      cases hi.symm.trans hi'
      by_cases hjk : j = k
      · subst hjk
        cases hj.symm.trans hk
        exact .inr hawait
      · exact absurd hr' (h.other hp hj hk hjk hr)

/-- The mail job runs twice. -/
def mailJobTwice : List LoopsAct :=
  [.other (.outside (.wait 130)), .begin 2, .run 2, .run 2, .run 2,
    .other (.outside (.wait 430)), .begin 2]

theorem jobs_keep_time_twice : ∃ s jl,
    Machine.Run (step Process.asciiServices) (fun _ _ => True)
      (start (World.start 100) (startAll 1800)) s ∧
    s.loops[2]? = some jl ∧ jl.sleeper.starts = [430, 130] ∧
    (s.tasks.tasks.map Prod.fst).count .mailNotify = 2 ∧
    (startAll 1800)[2]? = some jl.job ∧ (∀ t ∈ jl.sleeper.starts, 130 ≤ t) := by
  obtain ⟨s, hrun, hp⟩ := Machine.exists_run (step Process.asciiServices) (fun _ _ => true)
    (p := fun s => decide ((s.tasks.tasks.map Prod.fst).count .mailNotify = 2 ∧
      s.loops[2]?.map (fun jl : JobLoop => jl.sleeper.starts) = some [430, 130]))
    (s := start (World.start 100) (startAll 1800)) mailJobTwice (by decide +kernel)
  rw [decide_eq_true_eq] at hp
  obtain ⟨jl, hj, hstarts⟩ := Option.map_eq_some_iff.mp hp.2
  have hrun : Machine.Run (step Process.asciiServices) (fun _ _ => True) _ s :=
    hrun.mono fun _ _ _ => trivial
  obtain ⟨htable, hfirst, -⟩ := jobs_keep_time hrun hj
  refine ⟨s, jl, hrun, hj, hstarts, hp.1, htable, fun t ht => ?_⟩
  rw [hstarts] at ht
  simp only [List.mem_cons, List.not_mem_nil, or_false] at ht
  rcases ht with rfl | rfl <;> norm_num

/-! ## No job stops -/

section Executions

open Coroutine (Shorter wellFounded_shorter)

/-- The steps of loop `j`. -/
def OfLoop (j : Nat) (a : LoopsAct) : Prop := a = .begin j ∨ a = .run j

/-- What the loop has to do before it sleeps. -/
def left (p : Mailbox.Tasks) (jl : JobLoop) : Nat × Prog Unit :=
  match jl.sleeper.phase with
  | .asleep _ => (0, .finish none)
  | .busy _ => (1, ((jl.awaited.bind fun i => p.tasks[i]?).map Prod.snd).getD (.finish none))

/-- The way of loop `j` to its `n`-th start. -/
def toStart (j n : Nat) (s : Loops) : Nat × Nat × Prog Unit :=
  match s.loops[j]? with
  | none => (0, 0, .finish none)
  | some jl => (n - jl.sleeper.starts.length, left s.tasks jl)

/-- Loop `j` has begun `n` times. -/
def Begun (j n : Nat) (s : Loops) : Prop :=
  ∃ jl, s.loops[j]? = some jl ∧ n ≤ jl.sleeper.starts.length

theorem toStart_eq {n : Nat} (hj : s.loops[j]? = some jl) :
    toStart j n s = (n - jl.sleeper.starts.length, left s.tasks jl) := by
  simp [toStart, hj]

theorem begun_self {sleeper : SleepLoop.Sleeper Unit} (hj : s.loops[j]? = some jl) :
    ∃ awaited, (s.begun sv j jl sleeper).loops[j]? =
      some { jl with sleeper := sleeper, awaited := awaited } := by
  have hlen := (List.getElem?_eq_some_iff.mp hj).1
  unfold begun
  split
  · exact ⟨jl.awaited, List.getElem?_set_self hlen⟩
  · exact ⟨_, List.getElem?_set_self hlen⟩

theorem begun_other {sleeper : SleepLoop.Sleeper Unit} {k : Nat} (hjk : j ≠ k) :
    (s.begun sv j jl sleeper).loops[k]? = s.loops[k]? := by
  unfold begun
  split <;> exact List.getElem?_set_ne hjk

theorem begun_tasks {sleeper : SleepLoop.Sleeper Unit} {i : Nat} {r : Request} {m : Prog Unit}
    (hi : s.tasks.tasks[i]? = some (r, m)) :
    (s.begun sv j jl sleeper).tasks.tasks[i]? = some (r, m) := by
  unfold begun
  split
  · exact hi
  · exact (List.getElem?_append_left (List.getElem?_eq_some_iff.mp hi).1).trans hi

/-- A loop that awaits a task is busy. -/
theorem Good.phase (h : Good began p jl) {i : Nat} (hi : jl.awaited = some i) :
    ∃ since, jl.sleeper.phase = .busy since := by
  obtain ⟨r, m, hr, -⟩ := h.awaited i hi
  cases hphase : jl.sleeper.phase with
  | asleep wake =>
    rw [(h.busy r hr).mpr ⟨wake, hphase⟩] at hi
    cases hi
  | busy since => exact ⟨since, rfl⟩

theorem left_awaited (h : Good began p jl) {i : Nat} (hi : jl.awaited = some i) {r : Request}
    {m : Prog Unit} (hm : p.tasks[i]? = some (r, m)) : left p jl = (1, m) := by
  obtain ⟨since, hphase⟩ := h.phase hi
  simp [left, hphase, hi, hm]

theorem toStart_own {n : Nat} (h : InTime sv w jobs s) (hp : Proper jobs) (hs : s.Step sv a s') (ha : OfLoop j a) (hn : ¬ Begun j n s) :
    Shorter (toStart j n s') (toStart j n s) := by
  have hfew : ∀ {jl : JobLoop}, s.loops[j]? = some jl → jl.sleeper.starts.length < n := by
    intro jl hj
    by_contra hle
    exact hn ⟨jl, hj, by omega⟩
  cases hs with
  | @begin k jl sleeper hj hs =>
    have hk : k = j := by simpa [OfLoop] using ha
    subst hk
    obtain ⟨awaited, hj'⟩ : ∃ awaited, (s.begun sv k jl sleeper).loops[k]? =
        some { jl with sleeper := sleeper, awaited := awaited } := begun_self hj
    rw [toStart_eq hj, toStart_eq hj']
    refine .left _ _ ?_
    have hlt := hfew hj
    obtain ⟨wake, hphase, -, rfl⟩ := SleepLoop.Sleeper.begin_eq_some hs
    simp only [SleepLoop.Sleeper.starts, hphase, List.length_cons] at hlt ⊢
    omega
  | @finish k jl jl' hj hs hended =>
    have hk : k = j := by simpa [OfLoop] using ha
    subst hk
    have hlen := (List.getElem?_eq_some_iff.mp hj).1
    rw [JobLoop.finish, Option.map_eq_some_iff] at hs
    obtain ⟨sleeper, hs, rfl⟩ := hs
    obtain ⟨since, hphase, rfl⟩ := SleepLoop.Sleeper.finish_eq_some hs
    rw [toStart_eq hj, toStart_eq (List.getElem?_set_self hlen)]
    simp only [SleepLoop.Sleeper.starts, SleepLoop.Sleeper.sleep, hphase, List.map_cons,
      List.length_cons, left]
    exact .right _ (.left _ _ Nat.zero_lt_one)
  | @resume k jl i r op next tasks hj hi hawait hs =>
    have hk : k = j := by simpa [OfLoop] using ha
    subst hk
    have hgood := h.good k jl hj
    have hgood' : Good w.clock tasks jl := (h.go hp (by simp) hs).good k jl hj
    -- the task has one operation less before it
    obtain ⟨res, hres⟩ : ∃ res, tasks.tasks[i]? = some (r, next res) := by
      cases Pool.step_cases hs with
      | resume hi' =>
        cases hawait.symm.trans hi'
        exact ⟨_, List.getElem?_set_self (List.getElem?_eq_some_iff.mp hawait).1⟩
    have hj' : ({ s with tasks := tasks } : Loops).loops[k]? = some jl := hj
    rw [toStart_eq hj, toStart_eq hj', left_awaited hgood hi hawait, left_awaited hgood' hi hres]
    exact .right _ (.right _ (.after op next res))
  | other => simp [OfLoop] at ha

/-- What others do leaves the way of the loop as it is. -/
theorem toStart_other (hp : Proper jobs) {n : Nat} (h : InTime sv w jobs s) (hs : s.Step sv a s')
    (ha : ¬ OfLoop j a) : toStart j n s' = toStart j n s := by
  have hkeep : ∀ {loops : List JobLoop} {tasks : Mailbox.Tasks}, loops[j]? = s.loops[j]? →
      (∀ jl i r m, s.loops[j]? = some jl → jl.awaited = some i → s.tasks.tasks[i]? = some (r, m) →
        tasks.tasks[i]? = some (r, m)) →
      toStart j n { tasks := tasks, loops := loops } = toStart j n s := by
    intro loops tasks hloops htasks
    cases hj : s.loops[j]? with
    | none => simp [toStart, hj, hloops]
    | some jl =>
      simp only [toStart, hj, hloops]
      congr 1
      unfold left
      split
      · rfl
      · cases hi : jl.awaited with
        | none => rfl
        | some i =>
          obtain ⟨r, m, -, hm⟩ := (h.good j jl hj).awaited i hi
          simp [hm, htasks jl i r m hj hi hm]
  cases hs with
  | @begin k jl sleeper hk hs =>
    have hne : k ≠ j := fun hkj => ha (by simp [OfLoop, hkj])
    exact hkeep (begun_other hne) fun jl i r m _ _ hm => begun_tasks hm
  | @finish k jl jl' hk hs hended =>
    have hne : k ≠ j := fun hkj => ha (by simp [OfLoop, hkj])
    exact hkeep (List.getElem?_set_ne hne) fun jl i r m _ _ hm => hm
  | @resume k jl i r op next tasks hk hi hawait hs =>
    have hne : k ≠ j := fun hkj => ha (by simp [OfLoop, hkj])
    refine hkeep rfl fun jl' i' r' m hj hi' hm => (Pool.step_cases hs).task_waits (fun heq => ?_) hm
    -- loop `k` awaits another task
    cases heq
    obtain ⟨r₁, m₁, hr₁, hm₁⟩ := (h.good k jl hk).awaited i hi
    obtain ⟨r₂, m₂, hr₂, hm₂⟩ := (h.good j jl' hj).awaited i hi'
    cases hm₁.symm.trans hm₂
    exact h.other hp hk hj hne hr₁ hr₂
  | @other b tasks hfree hs =>
    refine hkeep rfl fun jl i r m hj hi hm => (Pool.step_cases hs).task_waits (fun heq => ?_) hm
    rw [heq, free, List.all_eq_true] at hfree
    simpa [hi] using hfree jl (List.mem_of_getElem? hj)

theorem loops_other (hs : s.Step sv a s') (ha : ¬ OfLoop j a) : s'.loops[j]? = s.loops[j]? := by
  cases hs with
  | @begin k _ _ hk hs =>
    have hne : k ≠ j := fun hkj => ha (by simp [OfLoop, hkj])
    exact begun_other hne
  | @finish k _ _ hk hs =>
    have hne : k ≠ j := fun hkj => ha (by simp [OfLoop, hkj])
    exact List.getElem?_set_ne hne
  | resume => rfl
  | other => rfl

theorem clock_step (hs : s.Step sv a s') : s.clock ≤ s'.clock := by
  cases hs with
  | begin =>
    unfold begun
    split <;> exact le_refl _
  | finish => exact le_refl _
  | resume _ _ _ hs => exact Mailbox.clock_le hs
  | other _ hs => exact Mailbox.clock_le hs

/-- A busy loop can go on. -/
theorem enabled_busy (h : InTime sv w jobs s) (hj : s.loops[j]? = some jl) {since : ℚ}
    (hphase : jl.sleeper.phase = .busy since) : Machine.Enabled (step sv) (OfLoop j) s := by
  have hfinish : ∃ jl', jl.finish s.clock = some jl' := by
    simp [JobLoop.finish, SleepLoop.Sleeper.finish, hphase]
  obtain ⟨jl', hfinish⟩ := hfinish
  refine ⟨.run j, .inr rfl, ?_⟩
  cases hi : jl.awaited with
  | none => simp [step, hj, hi, hfinish]
  | some i =>
    obtain ⟨r, m, -, hm⟩ := (h.good j jl hj).awaited i hi
    cases m with
    | finish res => simp [step, hj, hi, hm, hfinish]
    | await op k => simp [step, hj, hi, hm, Mailbox.step, Pool.step]

/-- A loop whose sleep is over can begin. -/
theorem enabled_due (hj : s.loops[j]? = some jl) {wake : ℚ}
    (hphase : jl.sleeper.phase = .asleep wake) (hdue : wake ≤ s.clock) :
    Machine.Enabled (step sv) (OfLoop j) s := by
  refine ⟨.begin j, .inl rfl, ?_⟩
  simp [step, hj, SleepLoop.Sleeper.begin, SleepLoop.Sleeper.due, hphase, hdue]

variable {e : Machine.Execution (step sv)}

theorem inTime_at (hp : Proper jobs) (h0 : e.state 0 = start w jobs) (n : Nat) :
    InTime sv w jobs (e.state n) :=
  e.always (h0 ▸ inTime_start sv w jobs)
    (fun k _ h => inTime_step hp h (step_cases (e.next k))) (Nat.zero_le n)

theorem clock_mono {m n : Nat} (h : m ≤ n) : (e.state m).clock ≤ (e.state n).clock :=
  e.always (P := fun s => (e.state m).clock ≤ s.clock) (le_refl _)
    (fun k _ hk => hk.trans (clock_step (step_cases (e.next k)))) h

theorem loop_goes_on (hp : Proper jobs) (h0 : e.state 0 = start w jobs) (hj : j < jobs.length)
    (hclock : ∀ t : ℚ, ∃ n, t ≤ (e.state n).clock) (hfair : e.WeaklyFair (OfLoop j)) :
    e.InfinitelyOften (OfLoop j) := by
  refine hfair.infinitelyOften fun n hnone => ?_
  have hin := inTime_at hp h0
  -- the loop stays as it is
  have hsame : ∀ m, n ≤ m → (e.state m).loops[j]? = (e.state n).loops[j]? := fun m hm =>
    e.always (P := fun s => s.loops[j]? = (e.state n).loops[j]?) rfl
      (fun k hk h => (loops_other (step_cases (e.next k)) (hnone k hk)).trans h) hm
  obtain ⟨jl, hjl⟩ : ∃ jl, (e.state n).loops[j]? = some jl := by
    refine ⟨_, List.getElem?_eq_getElem ?_⟩
    rw [← (hin n).table, List.length_map] at hj
    exact hj
  cases hphase : jl.sleeper.phase with
  | busy since =>
    exact ⟨n, le_refl _, fun m hm => enabled_busy (hin m) ((hsame m hm).trans hjl) hphase⟩
  | asleep wake =>
    obtain ⟨k, hk⟩ := hclock wake
    refine ⟨max n k, le_max_left _ _, fun m hm => ?_⟩
    exact enabled_due ((hsame m (by omega)).trans hjl) hphase (hk.trans (clock_mono (by omega)))

/-- **No job ever stops.**  In every run without end in which time goes on and the loop of a job is
not held up for ever, the job begins again and again, whatever it raises, how often it raises it and
whatever else the process does. -/
theorem jobs_go_on {refreshIntervalSeconds : Int}
    (h0 : e.state 0 = start w (startAll refreshIntervalSeconds))
    (hclock : ∀ t : ℚ, ∃ n, t ≤ (e.state n).clock)
    (hj : j < (startAll refreshIntervalSeconds).length) (hfair : e.WeaklyFair (OfLoop j))
    (times : Nat) : ∃ n, Begun j times (e.state n) := by
  have hp := proper_startAll refreshIntervalSeconds
  have hin := inTime_at hp h0
  obtain ⟨n, -, hn⟩ := Machine.Execution.reaches (m := 0) (μ := toStart j times)
    (g := Begun j times) wellFounded_shorter (loop_goes_on hp h0 hj hclock hfair)
    (fun n _ hn => by
      by_cases ha : OfLoop j (e.act n)
      · exact .inr (toStart_own (hin n) hp (step_cases (e.next n)) ha hn)
      · exact .inl (toStart_other hp (hin n) (step_cases (e.next n)) ha))
    (fun n _ hn ha => toStart_own (hin n) hp (step_cases (e.next n)) ha hn)
  exact ⟨n, hn⟩

end Executions

theorem step_wait {t : ℚ} (ht : s.clock ≤ t) : ∃ s', step sv s (.other (.outside (.wait t))) = some s' ∧
    s'.clock = t := by
  refine ⟨⟨⟨{ s.tasks.state with clock := t }, s.tasks.tasks⟩, s.loops⟩, ?_, rfl⟩
  have hle : s.tasks.state.clock ≤ t := ht
  simp [step, free, Mailbox.step, Pool.step, Outside.run, hle]

theorem jobs_go_on_mail : ∃ e : Machine.Execution (step Process.asciiServices),
    e.state 0 = start (World.start 100) (startAll 1800) ∧ ∃ n, Begun 2 1000 (e.state n) := by
  -- time goes on at every other step, and in between the loop does what it can
  obtain ⟨e, h0, hinv, hok⟩ := Machine.Execution.exists_of_strategy (step Process.asciiServices)
    (I := fun n s => (((n + 1) / 2 : Nat) : ℚ) ≤ s.clock)
    (s := start (World.start 100) (startAll 1800))
    (R := fun n s a => n % 2 = 1 → Machine.Enabled (step Process.asciiServices) (OfLoop 2) s →
      OfLoop 2 a) (by norm_num [start, clock, World.start]) (by
    intro n s hs
    by_cases hn : n % 2 = 1
    · have hhalf : (n + 1 + 1) / 2 = (n + 1) / 2 := by omega
      by_cases henabled : Machine.Enabled (step Process.asciiServices) (OfLoop 2) s
      · obtain ⟨a, ha, hsome⟩ := henabled
        obtain ⟨s', hs'⟩ := Option.isSome_iff_exists.mp hsome
        exact ⟨a, s', fun _ _ => ha, hs', hhalf ▸ hs.trans (clock_step (step_cases hs'))⟩
      · obtain ⟨s', hs', hclock⟩ := @step_wait Process.asciiServices s _ (le_refl s.clock)
        exact ⟨_, s', fun _ h => absurd h henabled, hs', by rw [hhalf, hclock]; exact hs⟩
    · have hle : s.clock ≤ s.clock + 1 := by linarith
      obtain ⟨s', hs', hclock⟩ := @step_wait Process.asciiServices s _ hle
      refine ⟨_, s', fun h => absurd h hn, hs', ?_⟩
      have hhalf : (n + 1 + 1) / 2 = (n + 1) / 2 + 1 := by omega
      rw [hhalf, hclock]
      push_cast
      linarith)
  refine ⟨e, h0, jobs_go_on h0 (fun t => ?_) (by simp [startAll]) (fun n hn => ?_) 1000⟩
  · refine ⟨2 * ⌈t⌉₊, (Nat.le_ceil t).trans ((Nat.cast_le.mpr ?_).trans (hinv (2 * ⌈t⌉₊)))⟩
    omega
  · refine ⟨2 * n + 1, by omega, hok (2 * n + 1) (by omega) (hn (2 * n + 1) (by omega))⟩

end Loops

end Scheduler

end Bbs
