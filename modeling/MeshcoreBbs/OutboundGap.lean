import MeshcoreBbs.OutboundSystem

/-!
# The global gap between sends

`_tick` never looks at the time of the last send: the gap is kept only by the
sleep that `_run` chooses after the tick.  A tick that raises sleeps half a
second whatever it did before, so a database error right after a send lets the
next send start too early (`sends_crowded`).  Without such errors, or when the
gap is at most that half second, it is always kept (`sends_spaced`).
-/

namespace Bbs

/-- The send of this tick is over and its outcome is being written. -/
def WorkerPc.afterSend : WorkerPc → Bool
  | .sending _ _ => true
  | .failing _ _ _ _ => true
  | .requeueing _ _ _ _ _ ending => ending ≠ .deferred
  | _ => false

/-- No database call raises between a send and the end of its tick, unless the gap is
covered by the half-second sleep. -/
def raisesBeforeSend (limits : LimitsConfig) (s : State) : Act → Bool
  | .worker env =>
    env.call = .returns || !s.worker.pc.afterSend || limits.outboundMinIntervalMs ≤ 500
  | _ => true

/-- A time before which the worker, at `pc`, starts no send. -/
def WorkerPc.earliest (clock : ℚ) : WorkerPc → Option ℚ
  | .sleeping wake => some wake
  | .ended ending => if ending = .deferred then some (clock + 1 / 2) else none
  | pc => if pc.afterSend then none else some clock

structure Spaced (limits : LimitsConfig) (s : State) : Prop where
  memory : ∀ id pk outcome t, .sendEnd id pk outcome t ∈ s.hist →
    t ≤ s.worker.lastSendAt ∧ s.worker.lastSendAt ≤ s.clock
  /-- Once something was sent, the next send is far enough away. -/
  apart : ∀ id pk outcome t, .sendEnd id pk outcome t ∈ s.hist →
    ∀ b, s.worker.pc.earliest s.clock = some b → s.worker.lastSendAt + limits.minGap ≤ b
  starts : Machine.Justified (fun e past => ∀ id pk tick t', e = .sendStart id pk tick t' →
    ∀ id' pk' outcome t, .sendEnd id' pk' outcome t ∈ past → t + limits.minGap ≤ t') s.hist

variable {limits : LimitsConfig} {s s' : State} {a : Act}

theorem Unpaused.earliest {clock : ℚ} {pc : WorkerPc} {now : Int} {msg : OutboundMessage}
    (h : Unpaused clock pc now msg) : pc.earliest clock = some clock := by
  cases h <;> rfl

theorem Worker.Deferral.earliest {clock : ℚ} {env : Env} {w : Worker} {now next : Int}
    {msg : OutboundMessage} (h : w.Deferral limits clock env now msg next) :
    w.pc.earliest clock = some clock := by
  cases h with
  | paused hpc => rw [hpc]; rfl
  | throttled hun | radioDown hun => exact hun.earliest

/-- Every way to end a tick is paired with a long enough sleep. -/
theorem Worker.Case.apart {env : Env} {m : WorkerMove}
    (hm : s.worker.Case limits s.clock s.db env m) {b : ℚ}
    (hb : m.worker.pc.earliest s.clock = some b) :
    (∃ b', s.worker.pc.earliest s.clock = some b' ∧ b' ≤ b ∧
        m.worker.lastSendAt = s.worker.lastSendAt) ∨
      m.worker.lastSendAt + limits.minGap ≤ b := by
  cases hm with
  | tick hpc hwake =>
    cases hb
    exact .inl ⟨_, by rw [hpc]; rfl, hwake, rfl⟩
  | claimNone hpc =>
    cases hb
    exact .inl ⟨s.clock, by rw [hpc]; rfl, by linarith, rfl⟩
  | claim hpc | readPause hpc | clearPause hpc =>
    cases hb
    exact .inl ⟨s.clock, by rw [hpc]; rfl, le_refl _, rfl⟩
  | defer hdef =>
    cases hb
    exact .inl ⟨s.clock, hdef.earliest, le_refl _, rfl⟩
  | sendStart | sendOk | giveUp | retry | audit => cases hb
  | @requeue _ _ _ _ _ ending hpc =>
    cases ending with
    | deferred =>
      cases hb
      exact .inl ⟨s.clock, by rw [hpc]; rfl, by linarith, rfl⟩
    | _ => cases hb
  | @sleep ending hpc =>
    simp only [Worker.afterTick, WorkerPc.earliest, Option.some.injEq] at hb
    cases ending with
    | deferred =>
      exact .inl ⟨s.clock + 1 / 2, by rw [hpc]; rfl, by rw [← hb]; simp, rfl⟩
    | _ =>
      refine .inr ?_
      rw [← hb]
      simp only [Worker.afterTick, reduceCtorEq, if_false]
      split <;> linarith

theorem Worker.Case.lastSendAt {env : Env} {m : WorkerMove}
    (hm : s.worker.Case limits s.clock s.db env m) :
    m.worker.lastSendAt = s.clock ∧ s.worker.pc.afterSend = true ∨
      m.worker.lastSendAt = s.worker.lastSendAt ∧
        ∀ id pk outcome t, .sendEnd id pk outcome t ∉ m.effects ++ m.events := by
  cases hm with
  | sendOk hpc | giveUp hpc | retry hpc => exact .inl ⟨rfl, by rw [hpc]; rfl⟩
  | _ => exact .inr ⟨rfl, by simp⟩

/-- A database call made outside the bookkeeping of a send is made late enough to send. -/
theorem Worker.Case.call_late {env : Env} {m : WorkerMove} {st : Stmt}
    (hm : s.worker.Case limits s.clock s.db env m) (hst : m.stmt = some st)
    (hpc : s.worker.pc.afterSend = false) :
    ∃ b, s.worker.pc.earliest s.clock = some b ∧ b ≤ s.clock ∧
      m.worker.lastSendAt = s.worker.lastSendAt := by
  cases hm with
  | tick hpc' hwake => exact ⟨_, by rw [hpc']; rfl, hwake, rfl⟩
  | claimNone hpc' | claim hpc' | readPause hpc' | clearPause hpc' =>
    exact ⟨_, by rw [hpc']; rfl, le_refl _, rfl⟩
  | defer hdef => exact ⟨_, hdef.earliest, le_refl _, rfl⟩
  | sendOk hpc' | giveUp hpc' | retry hpc' | audit hpc' => simp [hpc', WorkerPc.afterSend] at hpc
  | requeue hpc' =>
    simp only [hpc', WorkerPc.afterSend, decide_eq_false_iff_not, not_not] at hpc
    subst hpc
    exact ⟨_, by rw [hpc']; rfl, le_refl _, rfl⟩
  | sendStart | sleep => cases hst

theorem lastSendAt_step (hs : Step limits s a s') :
    s'.worker.lastSendAt = s.clock ∧ s'.clock = s.clock ∧ s.worker.pc.afterSend = true ∨
      s'.worker.lastSendAt = s.worker.lastSendAt ∧
        ∀ id pk outcome t, .sendEnd id pk outcome t ∈ s'.hist →
          .sendEnd id pk outcome t ∈ s.hist := by
  cases hs with
  | wait | spawn => exact .inr ⟨rfl, fun _ _ _ _ he => he⟩
  | serve ht hm =>
    refine .inr ⟨rfl, fun id pk outcome t he => ?_⟩
    rcases hm.recorded ht with hev | ⟨e, hrec, hev⟩
    · simpa [hev] using he
    · rw [hev] at he
      rcases List.mem_append.mp he with he | he
      · rw [List.mem_singleton] at he
        subst he
        obtain ⟨env, now, msg, ha, -⟩ := hrec
        cases ha
      · exact he
  | quiet hm | returns hm | raises hm | raisesAfter hm =>
    refine hm.lastSendAt.imp (fun h => ⟨h.1, rfl, h.2⟩) (fun h => ⟨h.1, fun id pk outcome t he => ?_⟩)
    have hno := h.2 id pk outcome t
    simp only [List.mem_append, not_or] at hno he
    simpa [hno] using he

theorem WorkerPc.earliest_mono {pc : WorkerPc} {c c' b : ℚ} (hc : c ≤ c')
    (hb : pc.earliest c' = some b) : ∃ b', pc.earliest c = some b' ∧ b' ≤ b := by
  cases pc with
  | sleeping wake => exact ⟨wake, rfl, by simpa [earliest] using (Option.some.inj hb).le⟩
  | ended ending =>
    simp only [earliest] at hb ⊢
    split at hb
    · cases hb
      exact ⟨_, if_pos ‹_›, by linarith⟩
    · cases hb
  | _ =>
    simp only [earliest] at hb ⊢
    split at hb
    · cases hb
    · cases hb
      exact ⟨c, if_neg ‹_›, hc⟩

theorem WorkerPc.earliest_afterSend {pc : WorkerPc} {c : ℚ} (h : pc.afterSend = true) :
    pc.earliest c = none := by
  cases pc with
  | sleeping | ended => cases h
  | _ => simp only [earliest, h, if_true]

/-- After a tick that raised: either the error came before the send, or the half second
is enough. -/
theorem apart_raise {env : Env} {m : WorkerMove} {st : Stmt}
    (hok : raisesBeforeSend limits s (.worker env) = true)
    (hm : s.worker.Case limits s.clock s.db env m) (hst : m.stmt = some st)
    (hcall : env.call ≠ .returns) (hlast : m.worker.lastSendAt ≤ s.clock)
    (hapart : ∀ b, s.worker.pc.earliest s.clock = some b →
      s.worker.lastSendAt + limits.minGap ≤ b) :
    m.worker.lastSendAt + limits.minGap ≤ s.clock + 1 / 2 := by
  by_cases hpc : s.worker.pc.afterSend = true
  · have hgap : limits.outboundMinIntervalMs ≤ 500 := by
      simpa [raisesBeforeSend, hcall, hpc] using hok
    have hgap : limits.minGap ≤ 1 / 2 := by
      have : (limits.outboundMinIntervalMs : ℚ) ≤ 500 := by exact_mod_cast hgap
      unfold LimitsConfig.minGap
      linarith
    linarith
  · obtain ⟨b, hb, hle, heq⟩ := hm.call_late hst (by simpa using hpc)
    have := hapart b hb
    rw [heq]
    linarith

theorem spaced_step (h : Spaced limits s) (hok : raisesBeforeSend limits s a = true)
    (hs : Step limits s a s') : Spaced limits s' := by
  have hmem : ∀ id pk outcome t, .sendEnd id pk outcome t ∈ s'.hist →
      t ≤ s'.worker.lastSendAt ∧ s'.worker.lastSendAt ≤ s'.clock := by
    intro id pk outcome t he
    have hclock := hs.clock_le
    rcases lastSendAt_step hs with ⟨hlast, hclk, -⟩ | ⟨hlast, hold⟩
    · rw [hlast, hclk]
      refine ⟨?_, le_refl _⟩
      rcases hs.mem_hist he with he | ⟨env, now, msg, -, -, -, -, -, rfl⟩
      · have := h.memory id pk outcome t he
        linarith
      · exact le_refl _
    · have := h.memory id pk outcome t (hold id pk outcome t he)
      rw [hlast]
      exact ⟨this.1, this.2.trans hclock⟩
  refine ⟨hmem, ?_, ?_⟩
  · intro id pk outcome t he b hb
    have hlast := (hmem id pk outcome t he).2
    have hapart : ∀ b, s.worker.pc.earliest s.clock = some b →
        s.worker.lastSendAt + limits.minGap ≤ b := by
      intro b hb
      rcases lastSendAt_step hs with ⟨-, -, haft⟩ | ⟨-, hold⟩
      · rw [WorkerPc.earliest_afterSend haft] at hb
        cases hb
      · exact h.apart id pk outcome t (hold id pk outcome t he) b hb
    cases hs with
    | wait hle =>
      obtain ⟨b', hb', hle'⟩ := WorkerPc.earliest_mono hle hb
      exact (hapart b' hb').trans hle'
    | spawn | serve => exact hapart b hb
    | quiet hm | returns hm =>
      rcases hm.apart hb with ⟨b', hb', hle, heq⟩ | hle
      · have := hapart b' hb'
        simp only [heq]
        linarith
      · exact hle
    | raises hm hst hcall | raisesAfter hm hst hcall =>
      cases hb
      exact apart_raise (s := s) hok hm hst (by rw [hcall]; decide) hlast hapart
  · refine justified_step h.starts hs ?_
    rintro e hrec id pk tick t' rfl id' pk' outcome t he
    obtain ⟨env, msg, -, hun, -, -, rfl⟩ := hrec
    have h1 := (h.memory id' pk' outcome t he).1
    have h2 := h.apart id' pk' outcome t he _ hun.earliest
    linarith

theorem spaced_initial (h : Initial s) : Spaced limits s where
  memory _ _ _ _ he := by simp [h.hist] at he
  apart _ _ _ _ he := by simp [h.hist] at he
  starts := by rw [h.hist]; trivial

/-- **Each send starts at least the configured gap after every earlier send ended**, in
every run in which no database call raises between a send and the end of its tick, and in
all runs when the gap is at most half a second. -/
theorem sends_spaced {s₀ : State} (h0 : Initial s₀)
    (hrun : Runs limits (raisesBeforeSend limits) s₀ s) {newer past : List Event} {id : Nat}
    {pk : Pubkey} {tick : Int} {t' : ℚ}
    (hhist : s.hist = newer ++ .sendStart id pk tick t' :: past) :
    ∀ id' pk' outcome t, .sendEnd id' pk' outcome t ∈ past → t + limits.minGap ≤ t' := by
  have h : Spaced limits s :=
    hrun.invariant (fun _ _ _ h hok hs => spaced_step h hok (step_cases hs)) (spaced_initial h0)
  exact Machine.justified_iff.mp h.starts newer _ past hhist id pk tick t' rfl

/-- A notification to `aa` goes out, and a reply to `bb` is queued meanwhile. -/
def sendAndQueue : List Act :=
  [.spawn (.enqueueReply { pk := lit "aa", text := lit "hi", priority := priorityNotification }),
    .serve 0, .serve 0, .worker {}, .worker { pick := some 1 }, .worker {}, .worker {},
    .spawn (.enqueueReply { pk := lit "bb", text := lit "yo" }), .serve 1, .serve 1]

/-- A tick that sends message 2. -/
def sendSecond : List Act := [.worker {}, .worker { pick := some 2 }, .worker {}, .worker {}]

theorem sends_spaced_second : ∃ s past, Runs {} (raisesBeforeSend {}) emptyStart s ∧
    s.hist = .sendStart 2 (lit "bb") 101 101 :: past ∧ .sendEnd 1 (lit "aa") .ok 100 ∈ past ∧
    100 + LimitsConfig.minGap {} ≤ 101 := by
  obtain ⟨s, hrun, hp⟩ := Machine.exists_run (step {}) (raisesBeforeSend {})
    (p := fun s => decide (s.hist = .sendStart 2 (lit "bb") 101 101 :: s.hist.tail ∧
      Event.sendEnd 1 (lit "aa") .ok 100 ∈ s.hist.tail))
    (s := emptyStart) (sendAndQueue ++ [.worker {}, .worker {}, .wait 101] ++ sendSecond)
    (by decide +kernel)
  rw [decide_eq_true_eq] at hp
  exact ⟨s, s.hist.tail, hrun, hp.1, hp.2,
    sends_spaced emptyStart_initial hrun (show s.hist = [] ++ _ from hp.1) _ _ _ _ hp.2⟩

/-- The statement that records the first send raises, and half a second later the worker
sends again. -/
theorem sends_crowded : ∃ s past, Initial emptyStart ∧ Runs {} anyStep emptyStart s ∧
    s.hist = .sendStart 2 (lit "bb") 100 (201 / 2) :: past ∧
    .sendEnd 1 (lit "aa") .ok 100 ∈ past ∧ ¬ 100 + LimitsConfig.minGap {} ≤ 201 / 2 := by
  obtain ⟨s, hrun, hp⟩ := Machine.exists_run (step {}) anyStep
    (p := fun s => decide (s.hist = .sendStart 2 (lit "bb") 100 (201 / 2) :: s.hist.tail ∧
      Event.sendEnd 1 (lit "aa") .ok 100 ∈ s.hist.tail))
    (s := emptyStart)
    (sendAndQueue ++ [.worker { call := .raises }, .worker {}, .wait (201 / 2)] ++ sendSecond)
    (by decide +kernel)
  rw [decide_eq_true_eq] at hp
  exact ⟨s, s.hist.tail, emptyStart_initial, hrun, hp.1, hp.2, by norm_num [LimitsConfig.minGap]⟩

end Bbs
