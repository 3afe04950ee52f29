import MeshcoreBbs.OutboundSettled

/-!
# The order of the packets of a reply

The packets of one reply carry the same `enqueued_at` and ascending ids, so the
worker takes them in order as long as it leaves them where they are.  A packet
put back (throttled, or the radio is down) goes behind its successors, and one of
them may then be sent first (`packets_overtaken`).  `packets_in_order`: there is no
other way for a packet to be overtaken.

`Filed` describes what the replies have inserted so far, in any run.
-/

namespace Bbs

/-! ## What the replies have inserted -/

structure Filed (s : State) : Prop where
  known : Known s
  fresh : ∀ call i id row t, .inserted call i id row t ∈ s.hist →
    row.enqueuedAt ≤ ⌊s.clock⌋ ∧ row.nextAttempt = row.enqueuedAt ∧ row.status = .pending ∧
      row.attempts = 0
  /-- Only a reply that has begun to insert has insertions. -/
  live : ∀ call i id row t, .inserted call i id row t ∈ s.hist → s.tasks[call]? = some .done ∨
    ∃ reply now index packets, s.tasks[call]? = some (.replyInsert reply now index packets)
  task : ∀ call reply now index packets,
    s.tasks[call]? = some (.replyInsert reply now index packets) → now ≤ ⌊s.clock⌋ ∧
      ∀ i id row t, .inserted call i id row t ∈ s.hist →
        i ≤ index ∧ row.enqueuedAt = now ∧ row.priority = reply.priority
  /-- The packets of a reply share time and priority, and their ids ascend. -/
  order : ∀ call i j a b ra rb ta tb, .inserted call i a ra ta ∈ s.hist →
    .inserted call j b rb tb ∈ s.hist →
      ra.enqueuedAt = rb.enqueuedAt ∧ ra.priority = rb.priority ∧ (i < j → a < b)

variable {limits : LimitsConfig} {s s' : State} {a : Act}

/-- What a reply inserted earlier, seen when it is about to insert again. -/
theorem Filed.inserting (h : Filed s) {call : Nat} {reply : Reply} {now : Int} {index : Nat}
    (hins : Inserting s call reply now index) :
    now ≤ ⌊s.clock⌋ ∧ ∀ i id row t, .inserted call i id row t ∈ s.hist →
      i ≤ index ∧ row.enqueuedAt = now ∧ row.priority = reply.priority := by
  rcases hins with ⟨depth, ht, rfl, rfl⟩ | ⟨packets, ht⟩
  · refine ⟨le_refl _, fun i id row t he => ?_⟩
    rcases h.live call i id row t he with hlive | ⟨_, _, _, _, hlive⟩
    · rw [ht] at hlive
      cases hlive
    · rw [ht] at hlive
      cases hlive
  · exact h.task call reply now index packets ht

theorem filed_initial (h : Initial s) : Filed s where
  known _ _ _ _ _ he := by simp [h.hist] at he
  fresh _ _ _ _ _ he := by simp [h.hist] at he
  live _ _ _ _ _ he := by simp [h.hist] at he
  task _ _ _ _ _ ht := by simp [h.tasks] at ht
  order _ _ _ _ _ _ _ _ _ he := by simp [h.hist] at he

theorem filed_step (h : Filed s) (hs : Step limits s a s') : Filed s' := by
  have hclock := Int.floor_le_floor hs.clock_le
  refine ⟨known_step h.known hs, ?_, ?_, ?_, ?_⟩
  · intro call i id row t he
    rcases hs.inserted he with he | ⟨-, -, -, -, reply, now, i, packet, packets, -, rfl, hins, -⟩
    · obtain ⟨h1, h2⟩ := h.fresh call i id row t he
      exact ⟨by omega, h2⟩
    · have := (h.inserting hins).1
      exact ⟨by show now ≤ _; omega, rfl, rfl, rfl⟩
  · intro call i id row t he
    rcases hs.inserted he with he | ⟨-, -, -, -, reply, now, i, packet, packets, -, -, -, ht⟩
    · rcases h.live call i id row t he with ht | ⟨reply, now, index, packets, ht⟩
      · rcases hs.task_keep ht with ht | ⟨t', st, evs, -, -, hm⟩
        · exact .inl ht
        · cases hm
      · rcases hs.task_keep ht with ht | ⟨t', st, evs, -, ht', hm⟩
        · exact .inr ⟨_, _, _, _, ht⟩
        · cases hm with
          | nextPacket => exact .inr ⟨_, _, _, _, ht'⟩
          | lastPacket => exact .inl ht'
    · exact .inr ⟨_, _, _, _, ht⟩
  · intro call reply now index packets ht'
    -- an insertion of this step is number `index`; the older ones are known
    have hnew : ∀ {i id row t}, .inserted call i id row t ∈ s'.hist →
        .inserted call i id row t ∈ s.hist ∨
          i = index ∧ row.enqueuedAt = now ∧ row.priority = reply.priority := by
      intro i id row t he
      rcases hs.inserted he with he | ⟨-, -, -, -, reply', now', i, packet, packets', rfl, rfl, -, ht⟩
      · exact .inl he
      · rw [ht'] at ht
        cases ht
        exact .inr ⟨rfl, rfl, rfl⟩
    have hold : ∃ index' ≤ index, now ≤ ⌊s.clock⌋ ∧ ∀ i id row t,
        .inserted call i id row t ∈ s.hist →
          i ≤ index' ∧ row.enqueuedAt = now ∧ row.priority = reply.priority := by
      rcases hs.task_get ht' with ht | ht | ⟨t, st, evs, -, ht, hm⟩
      · exact ⟨index, le_refl _, h.task call reply now index packets ht⟩
      · cases ht
      · cases hm with
        | firstPacket => exact ⟨0, by omega, h.inserting (.inl ⟨_, ht, rfl, rfl⟩)⟩
        | nextPacket => exact ⟨_, by omega, h.inserting (.inr ⟨_, ht⟩)⟩
    obtain ⟨index', hle, hnow, hall⟩ := hold
    refine ⟨by omega, fun i id row t he => ?_⟩
    rcases hnew he with he | ⟨rfl, h1, h2⟩
    · obtain ⟨h1, h2, h3⟩ := hall i id row t he
      exact ⟨by omega, h2, h3⟩
    · exact ⟨le_refl _, h1, h2⟩
  · intro call i j a b ra rb ta tb ha hb
    rcases hs.inserted ha with ha | ⟨-, rfl, -, -, reply, now, i, packet, packets, rfl, rfl, hins, ht⟩
    · rcases hs.inserted hb with hb | ⟨-, rfl, -, -, reply, now, j, packet, packets, rfl, rfl, hins, -⟩
      · exact h.order call i j a b ra rb ta tb ha hb
      · obtain ⟨hi, henq, hprio⟩ := (h.inserting hins).2 i a ra ta ha
        have hle := h.known call i a ra ta ha
        exact ⟨henq, hprio, fun _ => by omega⟩
    · rcases hs.inserted hb with hb | ⟨-, rfl, -, -, reply', now', j, packet', packets', rfl, rfl, -, ht'⟩
      · obtain ⟨hi, henq, hprio⟩ := (h.inserting hins).2 j b rb tb hb
        exact ⟨henq.symm, hprio.symm, fun _ => by omega⟩
      · rw [ht] at ht'
        cases ht'
        exact ⟨rfl, rfl, fun h => absurd h (lt_irrefl _)⟩

/-! ## Overtaking -/

/-- A queue action of the operator. -/
def Task.isOperator : Task → Bool
  | .enqueueReply _ => false
  | .replyDepth _ _ => false
  | .replyInsert _ _ _ _ => false
  | .buildQueue => false
  | .listing _ _ => false
  | .listingRead _ _ _ _ => false
  | .done => false
  | _ => true

/-- Of the rows that tie, SQLite returns the one with the least id. -/
def tiesById (s : State) : Act → Bool
  | .worker env =>
    match s.worker.pc, env.pick with
    | .dropped now, some id => (s.db.outbound.get? id).all fun row =>
        s.db.outbound.rows.all fun p => !(Db.ready now p.2) || !(p.2.priority = row.priority) ||
          !(p.2.enqueuedAt = row.enqueuedAt) || id ≤ p.1
    | _, _ => true
  | _ => true

/-- No operator touches the queue, and ties are broken by id. -/
def plainTraffic (s : State) (a : Act) : Bool :=
  tiesById s a && match a with
    | .spawn t => !t.isOperator
    | _ => true

theorem tiesById_spec {env : Env} {now : Int} {id : Nat} {row : OutboundRow}
    (hok : tiesById s (.worker env) = true) (hpc : s.worker.pc = .dropped now)
    (hpick : env.pick = some id) (hrow : s.db.outbound.get? id = some row) {j : Nat}
    {other : OutboundRow} (hj : s.db.outbound.get? j = some other)
    (hready : Db.ready now other = true) (hprio : other.priority = row.priority)
    (henq : other.enqueuedAt = row.enqueuedAt) : id ≤ j := by
  simp only [tiesById, hpc, hpick, hrow, Option.all_some, List.all_eq_true] at hok
  simpa [hready, hprio, henq] using hok (j, other) ((s.db.outbound.mem_rows_iff j other).mpr hj)

/-- The packets before `b` in its reply were sent, were put back, or will never be sent. -/
def Passed (s : State) (b : Nat) : Prop :=
  b ≤ s.db.outbound.seq ∧ ∀ call i j a ra rb ta tb, .inserted call i a ra ta ∈ s.hist →
    .inserted call j b rb tb ∈ s.hist → i < j →
      (∃ pk tick t, .sendStart a pk tick t ∈ s.hist) ∨ .requeued a ∈ s.hist ∨ ¬ IsPending s.db a

structure Orderly (s : State) : Prop where
  filed : Filed s
  pending : ∀ msg, s.worker.pc.held = some msg → IsPending s.db msg.id
  plain : ∀ t ∈ s.tasks, t.isOperator = false
  /-- A row about to be put back stays out of reach of the second it was inserted in. -/
  planned : ∀ now id next attempts m ending,
    s.worker.pc = .requeueing now id next attempts m ending → id ≤ s.db.outbound.seq ∧
      ∀ call i row t, .inserted call i id row t ∈ s.hist → row.enqueuedAt ≤ next
  row : ∀ call i id row t, .inserted call i id row t ∈ s.hist →
    ∃ r, s.db.outbound.get? id = some r ∧ r.priority = row.priority ∧
      row.enqueuedAt ≤ r.enqueuedAt ∧ row.enqueuedAt ≤ r.nextAttempt ∧
      (.requeued id ∉ s.hist → r.enqueuedAt = row.enqueuedAt ∧ r.nextAttempt = row.enqueuedAt)
  held : ∀ msg, s.worker.pc.held = some msg → Passed s msg.id
  sent : ∀ b pk tick t, .sendStart b pk tick t ∈ s.hist → Passed s b

theorem orderly_initial (h : Initial s) : Orderly s where
  filed := filed_initial h
  pending msg hheld := by
    rw [h.worker] at hheld
    cases hheld
  plain t ht := by simp [h.tasks] at ht
  planned now id next attempts m ending hpc := by simp [h.worker, Worker.init] at hpc
  row call i id row t he := by simp [h.hist] at he
  held msg hheld := by
    rw [h.worker] at hheld
    cases hheld
  sent b pk tick t he := by simp [h.hist] at he

theorem plain_step (h : Orderly s) (hok : plainTraffic s a = true) (hs : Step limits s a s') :
    ∀ t ∈ s'.tasks, t.isOperator = false := by
  intro t' ht'
  cases hs with
  | @spawn task htask =>
    rcases List.mem_append.mp ht' with ht' | ht'
    · exact h.plain t' ht'
    · rw [List.mem_singleton.mp ht']
      simpa [plainTraffic, tiesById] using hok
  | serve ht hm =>
    rcases List.mem_or_eq_of_mem_set ht' with ht' | rfl
    · exact h.plain t' ht'
    · have := h.plain _ (List.mem_of_getElem? ht)
      cases hm with
      | removeRead | removeMissing | cancel | cancelReturn | moveBackRead | moveBackMissing |
        moveBackMax | moveBackWrite | moveBackReturn | pauseUserRead | pauseUserMissing |
        pauseUserWrite | pauseDirectWrite | pauseSelect | pauseMax | pauseRequeue | pauseReturn =>
        cases this
      | _ => rfl
  | _ => exact h.plain t' ht'

/-- A pending row that the step neither marks nor drops stays pending, unless it is cancelled. -/
theorem pending_step {id : Nat} (h : IsPending s.db id) (hs : Step limits s a s')
    (hmark : ∀ env now msg, a = .worker env → s.worker.pc = .sending now msg → msg.id ≠ id)
    (hdrop : ∀ wake, s.worker.pc ≠ .sleeping wake) :
    IsPending s'.db id ∨ IsCancelled s'.db id ∧
      ∃ call msg, a = .serve call ∧ s.tasks[call]? = some (.removeRead id (some msg)) := by
  obtain ⟨row, hrow, hpend⟩ := h
  rcases hs.stmt with hdb | ⟨st, hdb, hiss, -⟩
  · exact .inl ⟨row, hdb ▸ hrow, hpend⟩
  · have hrow' := Stmt.get?_run_of_some hrow st
    rw [← hdb] at hrow'
    cases st with
    | markOutboundSent j | markOutboundFailed j =>
      obtain ⟨env, now, msg, ha, hpc, -, rfl⟩ := hiss
      refine .inl ⟨_, hrow', ?_⟩
      simpa [Stmt.onRow, (hmark env now msg ha hpc).symm] using hpend
    | setCancelled j =>
      obtain ⟨call, msg, rfl, ht⟩ := hiss
      by_cases hj : id = j
      · subst hj
        exact .inr ⟨⟨_, hrow', by simp [Stmt.onRow]⟩, call, msg, rfl, ht⟩
      · exact .inl ⟨_, hrow', by simpa [Stmt.onRow, hj] using hpend⟩
    | requeueOutbound j =>
      refine .inl ⟨_, hrow', ?_⟩
      simp only [Stmt.onRow]
      split <;> exact hpend
    | dropStaleOutbound =>
      obtain ⟨env, wake, -, hpc, -⟩ := hiss
      exact absurd hpc (hdrop wake)
    | _ => exact .inl ⟨_, hrow', hpend⟩

/-- A row that the worker goes on holding stays pending, unless it is cancelled. -/
theorem pending_held {msg : OutboundMessage} (hs : Step limits s a s')
    (hheld : s'.worker.pc.held = some msg)
    (h : s.worker.pc.held = some msg → IsPending s.db msg.id) :
    IsPending s'.db msg.id ∨ IsCancelled s'.db msg.id ∧
      ∃ call found, a = .serve call ∧ s.tasks[call]? = some (.removeRead msg.id (some found)) := by
  rcases hs.held hheld with ⟨hold, -, hnot⟩ | ⟨env, now, rfl, -, -, hdb, hclaim⟩
  · refine pending_step (h hold) hs (fun env now held ha hpc => ?_) fun wake hpc => ?_
    · rw [hpc] at hold
      cases hold
      exact absurd hpc (hnot env now ha)
    · rw [hpc] at hold
      cases hold
  · obtain ⟨id, row, -, hrow, rfl, hready, -⟩ := Db.claimNextOutbound_some hclaim
    rw [hdb]
    exact .inl ⟨row, hrow, ((Db.ready_iff _ _).mp hready).1⟩

theorem Orderly.pending_step (h : Orderly s) (hs : Step limits s a s') {msg : OutboundMessage}
    (hheld : s'.worker.pc.held = some msg) : IsPending s'.db msg.id := by
  rcases pending_held hs hheld (h.pending msg) with hpend | ⟨-, call, found, -, ht⟩
  · exact hpend
  · cases h.plain _ (List.mem_of_getElem? ht)

/-- Only the worker moves rows to the back. -/
theorem Orderly.requeue (h : Orderly s) {id : Nat} {next backAt : Int} {attempts : Nat}
    (hiss : Issued s a (.requeueOutbound id next attempts backAt)) :
    ⌊s.clock⌋ < backAt ∧ ∃ now m ending,
      s.worker.pc = .requeueing now id next attempts m ending := by
  obtain ⟨m, rfl, ⟨env, now, ending, -, hpc⟩ | ⟨call, msg, -, -, ht⟩ |
    ⟨call, origin, pk, pausedUntil, row, rows, -, -, -, -, ht⟩⟩ := hiss
  · exact ⟨by omega, now, m, ending, hpc⟩
  · cases h.plain _ (List.mem_of_getElem? ht)
  · cases h.plain _ (List.mem_of_getElem? ht)

theorem planned_step (h : Orderly s) (hs : Step limits s a s') {now : Int} {id : Nat} {next m : Int}
    {attempts : Nat} {ending : TickEnd}
    (hpc' : s'.worker.pc = .requeueing now id next attempts m ending) :
    id ≤ s'.db.outbound.seq ∧
      ∀ call i row t, .inserted call i id row t ∈ s'.hist → row.enqueuedAt ≤ next := by
  have hold : id ≤ s.db.outbound.seq ∧
      ∀ call i row t, .inserted call i id row t ∈ s.hist → row.enqueuedAt ≤ next := by
    -- the worker computes `next` from its clock, on a row that is in the table
    have hnew : ∀ {msg}, s.worker.pc.held = some msg → ⌊s.clock⌋ ≤ next → msg.id = id →
        id ≤ s.db.outbound.seq ∧
          ∀ call i row t, .inserted call i id row t ∈ s.hist → row.enqueuedAt ≤ next := by
      rintro msg hheld hnext rfl
      obtain ⟨row, hrow, -⟩ := h.pending msg hheld
      refine ⟨RowTable.get?_le_seq hrow, fun call i row t he => ?_⟩
      have := (h.filed.fresh call i _ row t he).1
      omega
    have hm : ∀ {env mv}, s.worker.Case limits s.clock s.db env mv →
        mv.worker.pc = .requeueing now id next attempts m ending → id ≤ s.db.outbound.seq ∧
          ∀ call i row t, .inserted call i id row t ∈ s.hist → row.enqueuedAt ≤ next := by
      intro env mv hm hpc'
      cases hm with
      | defer hdef =>
        cases hpc'
        exact hnew hdef.held hdef.clock_lt.le rfl
      | @retry now msg hpc =>
        cases hpc'
        refine hnew (by rw [hpc]; rfl) ?_ rfl
        have : 0 ≤ backoffBaseSeconds * 2 ^ msg.attempts := by
          have : (0 : Int) < 2 ^ msg.attempts := by positivity
          simp only [backoffBaseSeconds]
          omega
        omega
      | _ => cases hpc'
    cases hs with
    | wait | spawn | serve => exact h.planned now id next attempts m ending hpc'
    | quiet h' | returns h' => exact hm h' hpc'
    | raises | raisesAfter => cases hpc'
  refine ⟨hold.1.trans hs.seq_le, fun call i row t he => ?_⟩
  rcases hs.inserted he with he | ⟨-, rfl, -⟩
  · exact hold.2 call i row t he
  · omega

theorem row_step (h : Orderly s) (hs : Step limits s a s') {call i id : Nat} {row : OutboundRow}
    {t : ℚ} (he : .inserted call i id row t ∈ s'.hist) :
    ∃ r, s'.db.outbound.get? id = some r ∧ r.priority = row.priority ∧
      row.enqueuedAt ≤ r.enqueuedAt ∧ row.enqueuedAt ≤ r.nextAttempt ∧
      (.requeued id ∉ s'.hist → r.enqueuedAt = row.enqueuedAt ∧ r.nextAttempt = row.enqueuedAt) := by
  have hf := ((filed_step h.filed hs).fresh call i id row t he).2.1
  rcases hs.inserted he with he | ⟨-, rfl, -, hdb, -⟩
  · obtain ⟨r, hr, hprio, henq, hnext, hsame⟩ := h.row call i id row t he
    have hsame' : .requeued id ∉ s'.hist →
        r.enqueuedAt = row.enqueuedAt ∧ r.nextAttempt = row.enqueuedAt :=
      fun hno => hsame fun hmem => hno (hs.hist_mono hmem)
    rcases hs.stmt with hdb | ⟨st, hdb, hiss, hlog⟩
    · exact ⟨r, hdb ▸ hr, hprio, henq, hnext, hsame'⟩
    · refine ⟨st.onRow id r, hdb ▸ Stmt.get?_run_of_some hr st, by simp [hprio], ?_⟩
      cases st with
      | requeueOutbound j next attempts backAt =>
        by_cases hj : id = j
        · subst hj
          obtain ⟨hback, now, m, ending, hpc⟩ := h.requeue hiss
          have h1 := (h.filed.fresh call i id row t he).1
          have h2 := (h.planned now id next attempts m ending hpc).2 call i row t he
          simp only [Stmt.onRow, if_true]
          exact ⟨by omega, h2, fun hno => absurd hlog hno⟩
        · simp only [Stmt.onRow, hj, if_false]
          exact ⟨henq, hnext, hsame'⟩
      | markOutboundSent | markOutboundFailed | setCancelled | dropStaleOutbound =>
        simp only [Stmt.onRow]
        split <;> exact ⟨henq, hnext, hsame'⟩
      | _ => exact ⟨henq, hnext, hsame'⟩
  · refine ⟨row, ?_, rfl, le_refl _, by omega, fun _ => ⟨rfl, hf⟩⟩
    rw [hdb]
    exact (RowTable.get?_insert _ _ _).trans (if_pos rfl)

theorem passed_step (h : Orderly s) (hs : Step limits s a s') {b : Nat} (hp : Passed s b) :
    Passed s' b := by
  refine ⟨hp.1.trans hs.seq_le, fun call i j a ra rb ta tb ha hb hij => ?_⟩
  have horder := ((filed_step h.filed hs).order call i j a b ra rb ta tb ha hb).2.2 hij
  rcases hs.inserted hb with hb | ⟨-, rfl, -⟩
  · rcases hs.inserted ha with ha | ⟨-, rfl, -⟩
    · rcases hp.2 call i j a ra rb ta tb ha hb hij with ⟨pk, tick, t, hsend⟩ | hreq | hset
      · exact .inl ⟨pk, tick, t, hs.hist_mono hsend⟩
      · exact .inr (.inl (hs.hist_mono hreq))
      · refine .inr (.inr ?_)
        rintro ⟨row, hrow, hpend⟩
        rcases hs.stmt with hdb | ⟨st, hdb, -⟩
        · exact hset ⟨row, hdb ▸ hrow, hpend⟩
        · rw [hdb] at hrow
          rcases Stmt.get?_run hrow with ⟨row', hrow', rfl⟩ | ⟨-, hseq⟩
          · exact hset ⟨row', hrow', Stmt.pending_of_onRow hpend⟩
          · have := hp.1
            omega
    · have := hp.1
      omega
  · have := hp.1
    omega

/-- A claim passes over an earlier packet only if that packet was put back. -/
theorem passed_claim (h : Orderly s) {env : Env} {now : Int} {msg : OutboundMessage}
    (hok : tiesById s (.worker env) = true) (hpc : s.worker.pc = .dropped now)
    (hclaim : s.db.claimNextOutbound now env.pick = some (some msg)) : Passed s msg.id := by
  obtain ⟨b, rowb, hpick, hrowb, rfl, hready, hfirst⟩ := Db.claimNextOutbound_some hclaim
  refine ⟨RowTable.get?_le_seq hrowb, fun call i j a ra rb ta tb ha hb hij => ?_⟩
  obtain ⟨henq, hprio, hlt⟩ := h.filed.order call i j a b ra rb ta tb ha hb
  obtain ⟨r, hr, hpb, heb, hnb, -⟩ := h.row call j b rb tb hb
  rw [hrowb] at hr
  cases hr
  obtain ⟨rowa, hrowa, hpa, -, -, hsame⟩ := h.row call i a ra ta ha
  by_contra hcon
  simp only [not_or, not_not] at hcon
  obtain ⟨-, hreq, row', hrow', hpend⟩ := hcon
  rw [hrowa] at hrow'
  cases hrow'
  obtain ⟨hea, hna⟩ := hsame hreq
  have hnext := ((Db.ready_iff _ _).mp hready).2
  have hra : Db.ready now rowa = true := (Db.ready_iff _ _).mpr ⟨hpend, by omega⟩
  have hbefore := hfirst a rowa hrowa hra
  simp only [Db.ordersBefore, Bool.or_eq_true, Bool.and_eq_true, decide_eq_true_eq] at hbefore
  have hle : b ≤ a := tiesById_spec hok hpc hpick hrowb hrowa hra (by omega) (by omega)
  have hab : a < b := hlt hij
  omega

theorem orderly_step (h : Orderly s) (hok : plainTraffic s a = true) (hs : Step limits s a s') :
    Orderly s' := by
  refine ⟨filed_step h.filed hs, fun _ => h.pending_step hs, plain_step h hok hs,
    fun _ _ _ _ _ _ => planned_step h hs, fun _ _ _ _ _ => row_step h hs, ?_, ?_⟩
  · intro msg hheld
    rcases hs.held hheld with ⟨hheld, -⟩ | ⟨env, now, rfl, hpc, -, -, hclaim⟩
    · exact passed_step h hs (h.held msg hheld)
    · simp only [plainTraffic, Bool.and_eq_true] at hok
      exact passed_step h hs (passed_claim h hok.1 hpc hclaim)
  · intro b pk tick t he
    rcases hs.mem_hist he with he | ⟨env, msg, -, hun, rfl, -⟩
    · exact passed_step h hs (h.sent b pk tick t he)
    · exact passed_step h hs (h.held msg hun.held)

/-- A first transmission that comes after that of a later packet comes after the row was
put back; and a row is inserted before it is sent. -/
def OrderKept (e : Event) (past : List Event) : Prop :=
  (∀ a pk tick t, e = .sendStart a pk tick t → (∀ pk tick t, .sendStart a pk tick t ∉ past) →
    ∀ b pk' tick' t', .sendStart b pk' tick' t' ∈ past →
      ∀ call i j ra rb ta tb, .inserted call i a ra ta ∈ past → .inserted call j b rb tb ∈ past →
        i < j → .requeued a ∈ past) ∧
  ∀ call i id row t, e = .inserted call i id row t →
    ∀ pk tick t', .sendStart id pk tick t' ∉ past

theorem orderKept_step (h : Orderly s) (hj : Machine.Justified OrderKept s.hist)
    (hs : Step limits s a s') : Machine.Justified OrderKept s'.hist := by
  refine justified_step hj hs fun e hrec => ⟨?_, ?_⟩
  · rintro a pk tick t rfl hfirst b pk' tick' t' hb call i j ra rb ta tb hina hinb hij
    obtain ⟨env, msg, -, hun, rfl, -⟩ := hrec
    rcases (h.sent b pk' tick' t' hb).2 call i j _ ra rb ta tb hina hinb hij with
      ⟨pk, tick, t, hsend⟩ | hreq | hset
    · exact absurd hsend (hfirst pk tick t)
    · exact hreq
    · exact absurd (h.pending msg hun.held) hset
  · rintro call i id row t rfl pk tick t' hsend
    obtain ⟨-, rfl, -⟩ := hrec
    have := (h.sent _ pk tick t' hsend).1
    omega

/-- **A packet is overtaken only after it was put back.**  Let `a` and `b` be packets of one
reply, `a` the earlier one, and let the first transmission of `a` come after one of `b`.  Then
the worker had moved `a` to the back of the queue before that. -/
theorem packets_in_order {s₀ : State} (h0 : Initial s₀) (hrun : Runs limits plainTraffic s₀ s)
    {newer past : List Event} {call i j b c : Nat} {rb rc : OutboundRow} {pk : Pubkey} {tick : Int}
    {t tb tc : ℚ} (hhist : s.hist = newer ++ .sendStart b pk tick t :: past)
    (hfirst : ∀ pk tick t, .sendStart b pk tick t ∉ past)
    (hinb : .inserted call i b rb tb ∈ s.hist) (hinc : .inserted call j c rc tc ∈ s.hist)
    (hij : i < j) (hsent : ∃ pk tick t, .sendStart c pk tick t ∈ past) : .requeued b ∈ past := by
  have h : Orderly s ∧ Machine.Justified OrderKept s.hist := by
    refine hrun.invariant (P := fun s => Orderly s ∧ Machine.Justified OrderKept s.hist) ?_ ?_
    · exact fun s a s' h hok hs =>
        ⟨orderly_step h.1 hok (step_cases hs), orderKept_step h.1 h.2 (step_cases hs)⟩
    · refine ⟨orderly_initial h0, ?_⟩
      rw [h0.hist]
      trivial
  have hkept := Machine.justified_iff.mp h.2
  -- what was sent had been inserted, so both insertions are in `past`
  have hpast : ∀ {k id row time}, .inserted call k id row time ∈ s.hist →
      (∃ pk' tick' t', .sendStart id pk' tick' t' ∈ .sendStart b pk tick t :: past) →
        .inserted call k id row time ∈ past := by
    intro k id row time hin hsend
    rw [hhist, List.mem_append] at hin
    rcases hin with hin | hin
    · obtain ⟨l₁, l₂, rfl⟩ := List.append_of_mem hin
      obtain ⟨pk', tick', t', hsend⟩ := hsend
      rw [List.append_assoc, List.cons_append] at hhist
      exact absurd (List.mem_append_right _ hsend)
        ((hkept l₁ _ _ hhist).2 call k id row time rfl pk' tick' t')
    · exact (List.mem_cons.mp hin).resolve_left (by simp)
  obtain ⟨pk', tick', t', hsent⟩ := hsent
  exact (hkept newer _ past hhist).1 b pk tick t rfl hfirst c pk' tick' t' hsent call i j rb rc tb tc
    (hpast hinb ⟨pk, tick, t, List.mem_cons_self⟩)
    (hpast hinc ⟨pk', tick', t', List.mem_cons_of_mem _ hsent⟩) hij

/-- Every send succeeds and no database call raises. -/
def allOk : Act → Bool
  | .worker env => env.outcome = .ok && env.call = .returns
  | _ => true

/-- A reply of `n` packets, of a line each. -/
def longReply (n : Nat) : Reply :=
  { pk := lit "aa", text := joinLines (List.replicate n (List.replicate 130 'x')) }

def packetRow (k n : Nat) : OutboundRow :=
  (longReply n).row 100 (Format.header k n ++ List.replicate 130 'x')

def queueReply (n : Nat) : List Act :=
  .spawn (.enqueueReply (longReply n)) :: List.replicate (n + 2) (.serve 0)

/-- A tick that claims message `id` and sends it or puts it back. -/
def tickOn (id : Nat) : List Act :=
  [.worker {}, .worker { pick := some id }, .worker {}, .worker {}, .worker {}, .worker {}]

def noStart (id : Nat) : Event → Bool
  | .sendStart id' _ _ _ => id' ≠ id
  | _ => true

theorem not_mem_of_noStart {id : Nat} {hist : List Event} (h : hist.all (noStart id) = true)
    (pk : Pubkey) (tick : Int) (t : ℚ) : .sendStart id pk tick t ∉ hist := by
  intro he
  simpa [noStart] using List.all_eq_true.mp h _ he

/-- The radio is down when packet 1 is first tried, and up half a second later. -/
theorem packets_in_order_two : ∃ s past, Runs {} plainTraffic emptyStart s ∧
    s.hist = .sendStart 1 (lit "aa") 200 200 :: past ∧ .requeued 1 ∈ past := by
  obtain ⟨s, hrun, hp⟩ := Machine.exists_run (step {}) plainTraffic
    (p := fun s => decide (s.hist = .sendStart 1 (lit "aa") 200 200 :: s.hist.tail ∧
      s.hist.tail.all (noStart 1) = true ∧ Event.inserted 0 1 1 (packetRow 1 2) 100 ∈ s.hist ∧
      Event.inserted 0 2 2 (packetRow 2 2) 100 ∈ s.hist ∧
      Event.sendStart 2 (lit "aa") 101 101 ∈ s.hist.tail))
    (s := emptyStart)
    (queueReply 2 ++ [.worker {}, .worker { pick := some 1 }, .worker {},
      .worker { radioAvailable := false }, .worker {}, .worker {}, .wait 101] ++ tickOn 2 ++
      [.wait 200] ++ (tickOn 1).take 4)
    (by decide +kernel)
  rw [decide_eq_true_eq] at hp
  obtain ⟨hhist, hfirst, hin1, hin2, hsent⟩ := hp
  exact ⟨s, s.hist.tail, hrun, hhist,
    packets_in_order emptyStart_initial hrun (show s.hist = [] ++ _ from hhist)
      (not_mem_of_noStart hfirst) hin1 hin2 (by decide) ⟨_, _, _, hsent⟩⟩

/-- Packets 2 to 5 are throttled one after the other, and packet 6 is sent before them. -/
theorem packets_overtaken : ∃ s past, Initial emptyStart ∧
    Runs {} (fun s a => plainTraffic s a && allOk a) emptyStart s ∧
    s.hist = .sendStart 2 (lit "aa") 200 200 :: past ∧
    .sendStart 6 (lit "aa") 103 103 ∈ past ∧ (∀ pk tick t, .sendStart 2 pk tick t ∉ past) ∧
    .inserted 0 2 2 (packetRow 2 6) 100 ∈ past ∧ .inserted 0 6 6 (packetRow 6 6) 100 ∈ past := by
  obtain ⟨s, hrun, hp⟩ := Machine.exists_run (step {}) (fun s a => plainTraffic s a && allOk a)
    (p := fun s => decide (s.hist = .sendStart 2 (lit "aa") 200 200 :: s.hist.tail ∧
      Event.sendStart 6 (lit "aa") 103 103 ∈ s.hist.tail ∧ s.hist.tail.all (noStart 2) = true ∧
      Event.inserted 0 2 2 (packetRow 2 6) 100 ∈ s.hist.tail ∧
      Event.inserted 0 6 6 (packetRow 6 6) 100 ∈ s.hist.tail))
    (s := emptyStart)
    (queueReply 6 ++ tickOn 1 ++ [.wait 101] ++ tickOn 2 ++ [.wait (203 / 2)] ++ tickOn 3 ++
      [.wait 102] ++ tickOn 4 ++ [.wait (205 / 2)] ++ tickOn 5 ++ [.wait 103] ++ tickOn 6 ++
      [.wait 200] ++ (tickOn 2).take 4)
    (by decide +kernel)
  rw [decide_eq_true_eq] at hp
  exact ⟨s, s.hist.tail, emptyStart_initial, hrun, hp.1, hp.2.1, not_mem_of_noStart hp.2.2.1,
    hp.2.2.2.1, hp.2.2.2.2⟩

end Bbs
