import MeshcoreBbs.OutboundSystem

/-!
# Pauses

`get_outbound_pause_until` deletes a pause that has expired, one await after it
read it, without looking again; the worker and every refresh of the dashboard do
so.  A new pause written in between is lost, and the worker sends to a recipient
whose pause was confirmed (`pause_lost`).  `pausesKept` asks of each step that it
deletes no pause still running, shortens none, and that no pause returns behind
the back of a worker that has just read the table; then every pause is
respected (`pause_respected`).
-/

namespace Bbs

/-- The stored pause of `pk`, if any, is over for the clock and for the tick in progress. -/
def pauseOver (s : State) (pk : Pubkey) : Bool :=
  (s.db.pause pk).all fun v => v ≤ ⌊s.clock⌋ && s.worker.pc.tick.all fun now => v ≤ now

/-- What the worker has read of the pauses of `pk` does not let it send before `pausedUntil`. -/
def WorkerPc.noted (pk : Pubkey) (pausedUntil : Int) : WorkerPc → Bool
  | .pauseRead now msg stored =>
    msg.toPubkey ≠ pk || pausedUntil ≤ now || stored.any fun v => pausedUntil ≤ v
  | .pauseCleared now msg => msg.toPubkey ≠ pk || pausedUntil ≤ now
  | _ => true

def pausesKept (s : State) : Act → Bool
  | .worker _ =>
    match s.worker.pc with
    | .pauseRead _ msg (some v) => ⌊s.clock⌋ < v || pauseOver s msg.toPubkey
    | _ => true
  | .serve call =>
    match s.tasks[call]? with
    | some (.listingRead _ pk (some v) _) => ⌊s.clock⌋ < v || pauseOver s pk
    | some (.pauseRecipient pk seconds) =>
      ((s.db.pause pk).all fun v => v ≤ ⌊s.clock⌋ + seconds) || pauseOver s pk
    | some (.pauseUserRead _ (some msg)) =>
      ((s.db.pause msg.toPubkey).all fun v => v ≤ ⌊s.clock⌋ + outboundPauseSeconds) ||
        pauseOver s msg.toPubkey
    | some (.pauseRows _ pk pausedUntil []) => s.worker.pc.noted pk pausedUntil
    | _ => true
  | _ => true

/-- The pause `pausedUntil` of `pk` was written and its request is not finished. -/
inductive Task.Pausing (pk : Pubkey) (pausedUntil : Int) : Task → Prop
  | written {origin} : Pausing pk pausedUntil (.pauseWritten origin pk pausedUntil)
  | rows {origin rows} : Pausing pk pausedUntil (.pauseRows origin pk pausedUntil rows)
  | max {origin row rows m} : Pausing pk pausedUntil (.pauseMax origin pk pausedUntil row rows m)

def Expired (s : State) (pausedUntil : Int) : Prop :=
  pausedUntil ≤ ⌊s.clock⌋ ∧ ∀ now, s.worker.pc.tick = some now → pausedUntil ≤ now

def InForce (s : State) (pk : Pubkey) (pausedUntil : Int) : Prop :=
  (∃ v, s.db.pause pk = some v ∧ pausedUntil ≤ v) ∨ Expired s pausedUntil

structure PausesHold (s : State) : Prop where
  tickPast : TickPast s
  pausing : ∀ pk pausedUntil t, t ∈ s.tasks → t.Pausing pk pausedUntil → InForce s pk pausedUntil
  returned : ∀ pk pausedUntil, .pauseReturned pk pausedUntil ∈ s.hist →
    InForce s pk pausedUntil ∧ s.worker.pc.noted pk pausedUntil = true
  starts : Machine.Justified (fun e past => ∀ id pk tick t, e = .sendStart id pk tick t →
    ∀ pausedUntil, .pauseReturned pk pausedUntil ∈ past → pausedUntil ≤ tick) s.hist

variable {limits : LimitsConfig} {s s' : State} {a : Act} {pk : Pubkey} {pausedUntil : Int}

theorem expired_step (h : Expired s pausedUntil) (hs : Step limits s a s') : Expired s' pausedUntil := by
  have hclock := Int.floor_le_floor hs.clock_le
  refine ⟨h.1.trans hclock, fun now htick => ?_⟩
  rcases hs.tick htick with htick | ⟨env, wake, -, -, rfl, -⟩
  · exact h.2 now htick
  · exact h.1

/-- A pause that may be deleted is over. -/
theorem InForce.expired (h : InForce s pk pausedUntil) (hover : pauseOver s pk = true) :
    Expired s pausedUntil := by
  rcases h with ⟨v, hv, hle⟩ | h
  · simp only [pauseOver, hv, Option.all_some, Bool.and_eq_true, decide_eq_true_eq,
      Option.all_eq_true] at hover
    refine ⟨hle.trans hover.1, fun now htick => hle.trans ?_⟩
    simpa using hover.2 now htick
  · exact h

theorem inForce_step (h : InForce s pk pausedUntil) (hok : pausesKept s a = true)
    (hs : Step limits s a s') : InForce s' pk pausedUntil := by
  rcases hs.stmt with hdb | ⟨st, hdb, hiss, -⟩
  · rcases h with h | h
    · exact .inl (hdb ▸ h)
    · exact .inr (expired_step h hs)
  · by_cases hdel : st = .deletePause pk
    · subst hdel
      refine .inr (expired_step (h.expired ?_) hs)
      rcases hiss with ⟨env, now, msg, v, rfl, rfl, hpc, hv⟩ | ⟨call, cached, v, msgs, rfl, hv, ht⟩
      · simpa [pausesKept, hpc, not_lt.mpr hv] using hok
      · simpa [pausesKept, ht, not_lt.mpr hv] using hok
    · by_cases hover : pauseOver s pk = true
      · exact .inr (expired_step (h.expired hover) hs)
      rcases h with ⟨v, hv, hle⟩ | h
      · rw [InForce, hdb]
        refine .inl ?_
        rw [Stmt.pause_run, hv]
        cases st with
        | setPause pk' v' =>
          by_cases hne : pk = pk'
          · subst hne
            refine ⟨v', by simp [Stmt.onPause], hle.trans ?_⟩
            obtain ⟨call, t, seconds, rfl, ht, rfl, rfl | ⟨id, msg, rfl, rfl, rfl⟩⟩ := hiss
            · simpa [pausesKept, ht, hv, hover] using hok
            · simpa [pausesKept, ht, hv, hover] using hok
          · exact ⟨v, by simp [Stmt.onPause, hne], hle⟩
        | deletePause pk' =>
          have hne : pk ≠ pk' := fun heq => hdel (heq ▸ rfl)
          exact ⟨v, by simp [Stmt.onPause, hne], hle⟩
        | _ => exact ⟨v, rfl, hle⟩
      · exact .inr (expired_step h hs)

/-- A pause in the making, or one that has returned, was in the making before. -/
theorem pausing_step (hs : Step limits s a s') {t' : Task} (ht' : t' ∈ s'.tasks)
    (hp : t'.Pausing pk pausedUntil) :
    (∃ t ∈ s.tasks, t.Pausing pk pausedUntil) ∨ s'.db.pause pk = some pausedUntil := by
  rcases hs.tasks ht' with ht' | ht' | ⟨call, t, st, evs, rfl, ht, hm, hdb, -⟩
  · exact .inl ⟨t', ht', hp⟩
  · cases hp <;> cases ht'
  · have ht := List.mem_of_getElem? ht
    cases hp with
    | written =>
      cases hm with
      | pauseUserWrite | pauseDirectWrite =>
        refine .inr ?_
        rw [hdb, Stmt.pause_run]
        simp [Stmt.onPause]
    | rows =>
      cases hm with
      | pauseSelect => exact .inl ⟨_, ht, .written⟩
      | pauseRequeue => exact .inl ⟨_, ht, .max⟩
    | max =>
      cases hm
      exact .inl ⟨_, ht, .rows⟩

/-- What the worker reads reflects the pauses in force. -/
theorem noted_step (hok : pausesKept s a = true) (hs : Step limits s a s')
    (hforce : InForce s pk pausedUntil) (hnoted : s.worker.pc.noted pk pausedUntil = true) :
    s'.worker.pc.noted pk pausedUntil = true := by
  have hm : ∀ {env m}, a = .worker env → s.worker.Case limits s.clock s.db env m →
      m.worker.pc.noted pk pausedUntil = true := by
    rintro env m rfl hm
    cases hm with
    | @readPause now msg hpc =>
      by_cases hpk : msg.toPubkey = pk
      · rcases hforce with ⟨v, hv, hle⟩ | hexp
        · simp [WorkerPc.noted, hpk, hv, hle]
        · have := hexp.2 now (by rw [hpc]; rfl)
          simp [WorkerPc.noted, this]
      · simp [WorkerPc.noted, hpk]
    | @clearPause now msg v hpc hpast =>
      by_cases hpk : msg.toPubkey = pk
      · have hover : pauseOver s pk = true := by
          simpa [pausesKept, hpc, not_lt.mpr hpast, hpk] using hok
        have := (hforce.expired hover).2 now (by rw [hpc]; rfl)
        simp [WorkerPc.noted, this]
      · simp [WorkerPc.noted, hpk]
    | _ => rfl
  cases hs with
  | wait | spawn | serve => exact hnoted
  | quiet h | returns h => exact hm rfl h
  | raises | raisesAfter => rfl

theorem pausesHold_step (h : PausesHold s) (hok : pausesKept s a = true)
    (hs : Step limits s a s') : PausesHold s' := by
  refine ⟨tickPast_step h.tickPast hs, ?_, ?_, ?_⟩
  · intro pk pausedUntil t' ht' hp
    rcases pausing_step hs ht' hp with ⟨t, ht, hp⟩ | hpause
    · exact inForce_step (h.pausing pk pausedUntil t ht hp) hok hs
    · exact .inl ⟨pausedUntil, hpause, le_refl _⟩
  · intro pk pausedUntil he
    rcases hs.mem_hist he with he | ⟨call, origin, rfl, ht⟩
    · obtain ⟨hforce, hnoted⟩ := h.returned pk pausedUntil he
      exact ⟨inForce_step hforce hok hs, noted_step hok hs hforce hnoted⟩
    · refine ⟨inForce_step (h.pausing pk pausedUntil _ (List.mem_of_getElem? ht) .rows) hok hs, ?_⟩
      have hnoted : s.worker.pc.noted pk pausedUntil = true := by
        simpa [pausesKept, ht] using hok
      cases hs with
      | serve => exact hnoted
  · refine justified_step h.starts hs ?_
    rintro e hrec id pk tick t rfl pausedUntil hp
    obtain ⟨env, msg, -, hun, -, rfl, -⟩ := hrec
    have hnoted := (h.returned msg.toPubkey pausedUntil hp).2
    have htick := h.tickPast tick hun.tick
    generalize s.worker.pc = pc at hun hnoted
    cases hun with
    | absent => simpa [WorkerPc.noted] using hnoted
    | past hclock hnow => omega
    | cleared => simpa [WorkerPc.noted] using hnoted

theorem pausesHold_initial (h : Initial s) : PausesHold s where
  tickPast now htick := by
    rw [h.worker] at htick
    cases htick
  pausing pk pausedUntil t ht := by simp [h.tasks] at ht
  returned pk pausedUntil he := by simp [h.hist] at he
  starts := by rw [h.hist]; trivial

/-- **After a pause has returned, no send to the recipient starts in a tick before its
end**, in every run whose steps keep the running pauses. -/
theorem pause_respected {s₀ : State} (h0 : Initial s₀) (hrun : Runs limits pausesKept s₀ s)
    {newer past : List Event} {id : Nat} {tick : Int} {t : ℚ}
    (hhist : s.hist = newer ++ .sendStart id pk tick t :: past)
    (hpause : .pauseReturned pk pausedUntil ∈ past) : pausedUntil ≤ tick := by
  have h : PausesHold s :=
    hrun.invariant (fun _ _ _ h hok hs => pausesHold_step h hok (step_cases hs))
      (pausesHold_initial h0)
  exact Machine.justified_iff.mp h.starts newer _ past hhist id pk tick t rfl pausedUntil hpause

/-- A message to `aa`, whose earlier pause has just run out. -/
def pausedStart : State where
  clock := 100
  db := (Db.empty.enqueueOutbound hiRow).setPause (lit "aa") 100

theorem pause_respected_ten : ∃ s past, Runs {} pausesKept pausedStart s ∧
    s.hist = .sendStart 1 (lit "aa") 110 110 :: past ∧ .pauseReturned (lit "aa") 110 ∈ past ∧
    (110 : Int) ≤ 110 := by
  obtain ⟨s, hrun, hp⟩ := Machine.exists_run (step {}) pausesKept
    (p := fun s => decide (s.hist = .sendStart 1 (lit "aa") 110 110 :: s.hist.tail ∧
      Event.pauseReturned (lit "aa") 110 ∈ s.hist.tail))
    (s := pausedStart)
    [.spawn (.pauseRecipient (lit "aa") 10), .serve 0, .serve 0, .serve 0, .serve 0, .serve 0,
      .wait 110, .worker {}, .worker { pick := some 1 }, .worker {}, .worker {}, .worker {}]
    (by decide +kernel)
  rw [decide_eq_true_eq] at hp
  exact ⟨s, s.hist.tail, hrun, hp.1, hp.2,
    pause_respected ⟨rfl, rfl, rfl⟩ hrun (show s.hist = [] ++ _ from hp.1) hp.2⟩

/-- A refresh of the dashboard deletes the pause that the operator has just set; the next
reply goes out half an hour too early. -/
theorem pause_lost : ∃ s past, Initial pausedStart ∧ Runs {} anyStep pausedStart s ∧
    s.hist = .sendStart 2 (lit "aa") 100 100 :: past ∧
    .pauseReturned (lit "aa") 1900 ∈ past := by
  obtain ⟨s, hrun, hp⟩ := Machine.exists_run (step {}) anyStep
    (p := fun s => decide (s.hist = .sendStart 2 (lit "aa") 100 100 :: s.hist.tail ∧
      Event.pauseReturned (lit "aa") 1900 ∈ s.hist.tail))
    (s := pausedStart)
    [.spawn .buildQueue, .serve 0, .serve 0,
      .spawn (.pauseUser 1), .serve 1, .serve 1, .serve 1, .serve 1, .serve 1, .serve 1, .serve 0,
      .spawn (.enqueueReply { pk := lit "aa", text := lit "hi" }), .serve 2, .serve 2,
      .worker {}, .worker { pick := some 2 }, .worker {}, .worker {}]
    (by decide +kernel)
  rw [decide_eq_true_eq] at hp
  exact ⟨s, s.hist.tail, ⟨rfl, rfl, rfl⟩, hrun, hp.1, hp.2⟩

end Bbs
