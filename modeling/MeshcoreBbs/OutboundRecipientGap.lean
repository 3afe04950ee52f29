import MeshcoreBbs.OutboundSystem

/-!
# The gap between sends to one recipient

The worker notes the end of a send before it touches the database again, so an error after a
send loses nothing: what it remembers of a recipient is the end of the last send to it
(`Remembered`).  A remembered `0.0` counts as never sent; any other is respected
(`recipient_gap_kept`).
-/

namespace Bbs

/-- The end of a send to `pk`. -/
def Event.endedTo (pk : Pubkey) : Event → Option ℚ
  | .sendEnd _ pk' _ t => if pk' = pk then some t else none
  | _ => none

/-- When the last send to `pk` ended. -/
def lastEnd (pk : Pubkey) (hist : List Event) : Option ℚ := hist.findSome? (Event.endedTo pk)

/-- `_last_send_to` with its default. -/
def Remembered (s : State) : Prop := ∀ pk, s.worker.lastSendTo pk = (lastEnd pk s.hist).getD 0

variable {limits : LimitsConfig} {s s' : State} {a : Act}

/-- A send that ends now is the last one to its recipient. -/
theorem lastEnd_sendEnd (id : Nat) (pk pk' : Pubkey) (outcome : SendOutcome) (t : ℚ)
    (hist : List Event) :
    lastEnd pk (.sendEnd id pk' outcome t :: hist) = if pk' = pk then some t else lastEnd pk hist := by
  unfold lastEnd
  rw [List.findSome?_cons, Event.endedTo]
  by_cases hpk : pk' = pk
  · rw [if_pos hpk, if_pos hpk]
  · rw [if_neg hpk, if_neg hpk]

theorem Worker.Case.remembers {env : Env} {m : WorkerMove}
    (hm : s.worker.Case limits s.clock s.db env m) (h : Remembered s) (pk : Pubkey) :
    m.worker.lastSendTo pk = (lastEnd pk (m.events ++ s.hist)).getD 0 ∧
      lastEnd pk (m.effects ++ m.events ++ s.hist) = lastEnd pk (m.events ++ s.hist) := by
  cases hm with
  | @sendOk now msg | @giveUp now msg | @retry now msg =>
    refine ⟨?_, rfl⟩
    rw [List.singleton_append, lastEnd_sendEnd]
    show Function.update s.worker.lastSendTo msg.toPubkey s.clock pk = _
    by_cases hpk : msg.toPubkey = pk
    · rw [if_pos hpk, ← hpk, Function.update_self]
      rfl
    · rw [if_neg hpk, Function.update_of_ne (Ne.symm hpk), h pk]
  | _ => exact ⟨h pk, rfl⟩

theorem Task.Case.lastEnd_eq {call : Nat} {t t' : Task} {st : Stmt} {evs : List Event}
    (ht : s.tasks[call]? = some t) (hm : t.Case limits s.clock s.db call t' st evs) (pk : Pubkey) :
    lastEnd pk (evs ++ s.hist) = lastEnd pk s.hist := by
  rcases hm.recorded ht with hev | ⟨e, hrec, hev⟩
  · rw [hev, List.nil_append]
  · rw [hev]
    cases e with
    | sendEnd =>
      obtain ⟨env, now, msg, ha, -⟩ := hrec
      cases ha
    | _ => rfl

theorem remembered_step (h : Remembered s) (hs : Step limits s a s') : Remembered s' := by
  intro pk
  cases hs with
  | wait | spawn => exact h pk
  | quiet hm | raises hm => exact (hm.remembers h pk).1
  | returns hm | raisesAfter hm =>
    obtain ⟨hlast, heffects⟩ := hm.remembers h pk
    dsimp only [Worker.abort, Worker.goto]
    rw [heffects]
    exact hlast
  | serve ht hm =>
    dsimp only
    rw [hm.lastEnd_eq ht]
    exact h pk

/-- A send starts only after the throttle of its recipient was found to be over. -/
theorem Step.unthrottled (hs : Step limits s a s') {id : Nat} {pk : Pubkey} {tick : Int} {t : ℚ}
    (hstart : s'.hist = .sendStart id pk tick t :: s.hist) (hsent : s.worker.lastSendTo pk ≠ 0) :
    s.worker.lastSendTo pk + limits.recipMinGap ≤ t := by
  have hne (e : Event) (l : List Event) : l ≠ e :: l := fun heq => by simpa using congrArg List.length heq
  cases hs with
  | wait | spawn => exact absurd hstart (hne _ _)
  | serve ht hm =>
    rcases hm.recorded ht with hev | ⟨e, hrec, hev⟩
    · rw [hev] at hstart
      exact absurd hstart (hne _ _)
    · rw [hev] at hstart
      cases hstart
      obtain ⟨env, msg, ha, -⟩ := hrec
      cases ha
  | quiet hm hst =>
    cases hm with
    | sendStart hun hthr =>
      cases hstart
      simp only [Worker.Throttled, not_and, not_lt] at hthr
      have := hthr hsent
      linarith
    | sleep => exact absurd hstart (hne _ _)
    | _ => cases hst
  | returns hm hst | raises hm hst | raisesAfter hm hst =>
    cases hm with
    | sendStart => cases hst
    | sendOk | giveUp | retry => cases hstart
    | audit | requeue => first | cases hstart | exact absurd hstart (hne _ _)
    | _ => exact absurd hstart (hne _ _)

/-- A start is far enough from the end of the last send to the same recipient. -/
def GapKept (limits : LimitsConfig) (e : Event) (past : List Event) : Prop :=
  ∀ id pk tick t', e = .sendStart id pk tick t' →
    ∀ t, lastEnd pk past = some t → t ≠ 0 → t + limits.recipMinGap ≤ t'

theorem gapKept_step (h : Remembered s) (hj : Machine.Justified (GapKept limits) s.hist)
    (hs : Step limits s a s') : Machine.Justified (GapKept limits) s'.hist := by
  rcases hs.hist with heq | ⟨e, -, heq⟩
  · rwa [heq]
  · rw [heq]
    refine ⟨?_, hj⟩
    rintro id pk tick t' rfl t hlast hzero
    have hmemory : s.worker.lastSendTo pk = t := by rw [h pk, hlast, Option.getD_some]
    have := hs.unthrottled heq (hmemory ▸ hzero)
    rwa [hmemory] at this

/-- **Each send to a recipient starts at least the configured gap after the last send to the
same recipient ended**, whatever the outcomes and the errors of the database, unless that one
ended when the clock read exactly 0. -/
theorem recipient_gap_kept {s₀ : State} (h0 : Initial s₀) (hrun : Runs limits anyStep s₀ s)
    {newer past : List Event} {id : Nat} {pk : Pubkey} {tick : Int} {t t' : ℚ}
    (hhist : s.hist = newer ++ .sendStart id pk tick t' :: past)
    (hlast : lastEnd pk past = some t) (hzero : t ≠ 0) : t + limits.recipMinGap ≤ t' := by
  have h : Remembered s ∧ Machine.Justified (GapKept limits) s.hist := by
    refine hrun.invariant (P := fun s => Remembered s ∧ Machine.Justified (GapKept limits) s.hist)
      (fun _ _ _ h _ hs => ⟨remembered_step h.1 (step_cases hs), gapKept_step h.1 h.2 (step_cases hs)⟩)
      ⟨fun pk => ?_, ?_⟩
    · rw [h0.worker, h0.hist]
      rfl
    · rw [h0.hist]
      trivial
  exact Machine.justified_iff.mp h.2 newer _ past hhist id pk tick t' rfl t hlast hzero

/-- Two notifications for `aa`. -/
def twoToOne : List Act :=
  let reply : Reply := { pk := lit "aa", text := lit "hi", priority := priorityNotification }
  [.spawn (.enqueueReply reply), .serve 0, .serve 0, .spawn (.enqueueReply reply), .serve 1, .serve 1]

/-- A tick that sends message `id`; the statement after the send raises. -/
def sendRaising (id : Nat) : List Act :=
  [.worker {}, .worker { pick := some id }, .worker {}, .worker {}, .worker { call := .raises },
    .worker {}]

theorem recipient_gap_kept_raising : ∃ s past, Runs {} anyStep emptyStart s ∧
    s.hist = .sendStart 2 (lit "aa") 103 103 :: past ∧ lastEnd (lit "aa") past = some 100 ∧
    100 + LimitsConfig.recipMinGap {} ≤ 103 := by
  obtain ⟨s, hrun, hp⟩ := Machine.exists_run (step {}) anyStep
    (p := fun s => decide (s.hist = .sendStart 2 (lit "aa") 103 103 :: s.hist.tail ∧
      lastEnd (lit "aa") s.hist.tail = some 100))
    (s := emptyStart)
    (twoToOne ++ sendRaising 1 ++ [.wait 103] ++ (sendRaising 2).take 4)
    (by decide +kernel)
  rw [decide_eq_true_eq] at hp
  exact ⟨s, s.hist.tail, hrun, hp.1, hp.2,
    recipient_gap_kept emptyStart_initial hrun (show s.hist = [] ++ _ from hp.1) hp.2 (by norm_num)⟩

/-- The clock starts at the epoch: a send ends at 0, and the next one to the same recipient
starts a second later. -/
theorem recipient_gap_lost : ∃ s₀ s past, Initial s₀ ∧ Runs {} anyStep s₀ s ∧
    s.hist = .sendStart 2 (lit "aa") 1 1 :: past ∧ lastEnd (lit "aa") past = some 0 ∧
    ¬ 0 + LimitsConfig.recipMinGap {} ≤ 1 := by
  obtain ⟨s, hrun, hp⟩ := Machine.exists_run (step {}) anyStep
    (p := fun s => decide (s.hist = .sendStart 2 (lit "aa") 1 1 :: s.hist.tail ∧
      lastEnd (lit "aa") s.hist.tail = some 0))
    (s := { clock := 0, db := Db.empty })
    (twoToOne ++ sendRaising 1 ++ [.wait 1] ++ (sendRaising 2).take 4)
    (by decide +kernel)
  rw [decide_eq_true_eq] at hp
  exact ⟨_, s, s.hist.tail, ⟨rfl, rfl, rfl⟩, hrun, hp.1, hp.2, by norm_num [LimitsConfig.recipMinGap]⟩

end Bbs
