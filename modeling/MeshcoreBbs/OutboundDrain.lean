import Mathlib.Data.Finset.Max
import Mathlib.Data.Prod.Lex
import MeshcoreBbs.Lib.Fair
import MeshcoreBbs.OutboundSystem

/-!
# The queue drains

Left alone, with the radio up and a working database, the worker settles every queued row, however
often sends fail and whatever pauses are stored (`queue_drains`).

The proof is by two measures.  `sendsLeft` bounds the transmissions to come; it falls whenever one
ends.  `hurdlesLeft` counts the reasons for which waiting rows can still be put back without a
transmission, a pause and the gap to their recipient; only a transmission raises it.  When both are
spent, each tick claims a row and begins a transmission.
-/

namespace Bbs

/-- Nothing but time and the worker, with the radio up and a database that answers. -/
def calm : Act → Bool
  | .wait _ => true
  | .worker env => env.radioAvailable && env.call = .returns
  | _ => false

def Act.isWorker : Act → Prop
  | .worker _ => True
  | _ => False

/-- A calm segment of the worker. -/
def CalmWorker (a : Act) : Prop := a.isWorker ∧ calm a = true

variable {limits : LimitsConfig} {s s' : State} {a : Act} {id : Nat} {row : OutboundRow}

/-- A calm step lets time pass or is a segment of the worker that ran its statement. -/
theorem calm_cases (hcalm : calm a = true) (hs : Step limits s a s') :
    (∃ t, a = .wait t ∧ s.clock ≤ t ∧ s' = { s with clock := t }) ∨
      ∃ env m, a = .worker env ∧ env.radioAvailable = true ∧
        s.worker.Case limits s.clock s.db env m ∧ s'.worker = m.worker ∧ s'.clock = s.clock ∧
        s'.db = (m.stmt.getD .read).run s.db := by
  cases hs with
  | wait h => exact .inl ⟨_, rfl, h, rfl⟩
  | quiet hm hst =>
    simp only [calm, Bool.and_eq_true] at hcalm
    exact .inr ⟨_, _, rfl, hcalm.1, hm, rfl, rfl, by rw [hst]; rfl⟩
  | returns hm hst =>
    simp only [calm, Bool.and_eq_true] at hcalm
    exact .inr ⟨_, _, rfl, hcalm.1, hm, rfl, rfl, by rw [hst]; rfl⟩
  | raises _ _ hcall | raisesAfter _ _ hcall => simp [calm, hcall] at hcalm
  | spawn | serve => cases hcalm

/-- The row as the worker is about to write it back. -/
def WorkerPc.planned (pc : WorkerPc) (id : Nat) (row : OutboundRow) : OutboundRow :=
  match pc with
  | .requeueing _ id' next attempts _ _ =>
    if id = id' then { row with nextAttempt := next, attempts := attempts } else row
  | _ => row

/-- Transmissions that a row can still have. -/
def OutboundRow.sendsLeft (row : OutboundRow) : Nat :=
  if row.status = .pending then max 1 (maxAttempts - row.attempts) else 0

/-- The next attempt of the row comes before the gap to its recipient is over. -/
def OutboundRow.gapAhead (limits : LimitsConfig) (w : Worker) (row : OutboundRow) : Bool :=
  w.lastSendTo row.toPubkey ≠ 0 ∧
    row.nextAttempt ≤ w.lastSendTo row.toPubkey + limits.recipMinGap

/-- The next attempt of the row comes before the end of a pause. -/
def OutboundRow.pauseAhead (db : Db) (row : OutboundRow) : Bool :=
  (db.pause row.toPubkey).any fun pausedUntil => row.nextAttempt < pausedUntil

/-- The reasons for which the row can be put back once more. -/
def OutboundRow.hurdles (limits : LimitsConfig) (s : State) (row : OutboundRow) : Nat :=
  if row.status = .pending then (row.gapAhead limits s.worker).toNat + (row.pauseAhead s.db).toNat
  else 0

def sendsLeft (s : State) : Nat :=
  s.db.outbound.sum fun id row => (s.worker.pc.planned id row).sendsLeft

def hurdlesLeft (limits : LimitsConfig) (s : State) : Nat :=
  s.db.outbound.sum fun id row => (s.worker.pc.planned id row).hurdles limits s

/-- What the worker has read of the row in hand and of its pause still holds. -/
structure InHand (s : State) : Prop where
  tick : TickPast s
  held : ∀ msg, s.worker.pc.held = some msg → ∃ row, s.db.outbound.get? msg.id = some row ∧
    row.status = .pending ∧ row.toPubkey = msg.toPubkey ∧ row.attempts = msg.attempts ∧
    row.nextAttempt = msg.nextAttempt
  ready : ∀ now msg, s.worker.pc.tick = some now → s.worker.pc.held = some msg →
    msg.nextAttempt ≤ now
  pause : ∀ now msg stored, s.worker.pc = .pauseRead now msg stored → s.db.pause msg.toPubkey = stored

/-- How a calm step changes a row, the worker's plans included. -/
inductive CalmRow (limits : LimitsConfig) (s s' : State) (id : Nat) (u : OutboundRow) :
    OutboundRow → Prop
  | kept {backAt : Int} : CalmRow limits s s' id u { u with enqueuedAt := backAt }
  | closed {status : Status} (hpend : u.status = .pending) (hstatus : status ≠ .pending) :
      CalmRow limits s s' id u { u with status := status }
  | retried {now : Int} {msg : OutboundMessage} {next : Int}
      (hpc : s.worker.pc = .sending now msg) (hid : msg.id = id)
      (hmax : u.attempts + 1 < maxAttempts) (hpend : u.status = .pending)
      (hnext : u.nextAttempt ≤ next) :
      CalmRow limits s s' id u { u with nextAttempt := next, attempts := u.attempts + 1 }
  | deferred {now next : Int} (hpend : u.status = .pending)
      (hpc : s'.worker.pc =
        .requeueing now id next u.attempts s.db.maxEnqueuedAt .deferred)
      (hsend : ∀ now msg, s.worker.pc ≠ .sending now msg)
      (hless : OutboundRow.hurdles limits s' { u with nextAttempt := next } < u.hurdles limits s) :
      CalmRow limits s s' id u { u with nextAttempt := next }

theorem outbound_run {st : Stmt} (hnew : ∀ row, st ≠ .enqueueOutbound row) (db : Db) :
    (st.run db).outbound = db.outbound.mapRows fun j row => st.onRow j row := by
  refine RowTable.ext_get? (fun j => ?_) ?_
  · rw [Stmt.get?_run_eq hnew, RowTable.get?_mapRows]
  · cases st <;> first | rfl | exact absurd rfl (hnew _)

/-! ## Rows in a calm step -/

section Hurdles

variable {u u' : OutboundRow} {w w' : Worker} {db db' : Db}

theorem OutboundRow.gapAhead_mono (hlast : w'.lastSendTo = w.lastSendTo)
    (hpk : u'.toPubkey = u.toPubkey) (hnext : u.nextAttempt ≤ u'.nextAttempt) :
    (u'.gapAhead limits w').toNat ≤ (u.gapAhead limits w).toNat := by
  refine Bool.toNat_le_toNat fun h => ?_
  simp only [gapAhead, hlast, hpk, decide_eq_true_eq] at h ⊢
  have : (u.nextAttempt : ℚ) ≤ u'.nextAttempt := Int.cast_le.mpr hnext
  exact ⟨h.1, by linarith [h.2]⟩

theorem OutboundRow.pauseAhead_mono (hpause : ∀ pk v, db'.pause pk = some v → db.pause pk = some v)
    (hpk : u'.toPubkey = u.toPubkey) (hnext : u.nextAttempt ≤ u'.nextAttempt) :
    (u'.pauseAhead db').toNat ≤ (u.pauseAhead db).toNat := by
  refine Bool.toNat_le_toNat fun h => ?_
  simp only [pauseAhead, hpk, Option.any_eq_true, decide_eq_true_eq] at h ⊢
  obtain ⟨v, hv, hlt⟩ := h
  exact ⟨v, hpause _ v hv, by omega⟩

theorem OutboundRow.hurdles_mono (hlast : s'.worker.lastSendTo = s.worker.lastSendTo)
    (hpause : ∀ pk v, s'.db.pause pk = some v → s.db.pause pk = some v)
    (hpk : u'.toPubkey = u.toPubkey) (hnext : u.nextAttempt ≤ u'.nextAttempt)
    (hstatus : u'.status = .pending → u.status = .pending) :
    u'.hurdles limits s' ≤ u.hurdles limits s := by
  unfold hurdles
  split
  · next hp =>
    rw [if_pos (hstatus hp)]
    exact Nat.add_le_add (gapAhead_mono hlast hpk hnext) (pauseAhead_mono hpause hpk hnext)
  · exact Nat.zero_le _

end Hurdles

theorem OutboundRow.hurdles_le (u : OutboundRow) :
    u.hurdles limits s ≤ (u.gapAhead limits s.worker).toNat + (u.pauseAhead s.db).toNat := by
  unfold hurdles
  split <;> omega

theorem Worker.Deferral.not_sending {env : Env} {w : Worker} {now next : Int} {msg : OutboundMessage}
    {clock : ℚ} (h : w.Deferral limits clock env now msg next) (now' : Int)
    (msg' : OutboundMessage) : w.pc ≠ .sending now' msg' := by
  cases h with
  | paused hpc => simp [hpc]
  | throttled hun | radioDown hun => exact hun.not_sending now' msg'

/-- A row put back has got over a hurdle: a pause in force, or the gap to its recipient. -/
theorem Worker.Deferral.hurdles_lt {env : Env} {now next : Int} {msg : OutboundMessage}
    {u : OutboundRow} (hdef : s.worker.Deferral limits s.clock env now msg next)
    (hradio : env.radioAvailable = true) (h : InHand s)
    (hrow : s.db.outbound.get? msg.id = some row) (hto : u.toPubkey = row.toPubkey)
    (hu : u.nextAttempt = next) (hlast : s'.worker.lastSendTo = s.worker.lastSendTo)
    (hpause : s'.db.pause = s.db.pause) : u.hurdles limits s' < row.hurdles limits s := by
  obtain ⟨row₁, hrow₁, hpend, hpk, -, hnext⟩ := h.held msg hdef.held
  cases hrow.symm.trans hrow₁
  have hready : row.nextAttempt ≤ now := hnext ▸ h.ready now msg hdef.tick hdef.held
  have hnow : (row.nextAttempt : ℚ) ≤ s.clock :=
    le_trans (Int.cast_le.mpr hready) (Int.le_floor.mp (h.tick now hdef.tick))
  refine lt_of_le_of_lt u.hurdles_le ?_
  rw [OutboundRow.hurdles, if_pos hpend]
  cases hdef with
  | paused hpc hclock hlt =>
    have hstored := h.pause now msg (some next) hpc
    rw [← hpk] at hstored
    have hgap : (u.gapAhead limits s'.worker).toNat ≤ (row.gapAhead limits s.worker).toNat :=
      OutboundRow.gapAhead_mono hlast hto (by omega)
    have hbefore : row.pauseAhead s.db = true := by
      simp only [OutboundRow.pauseAhead, hstored, Option.any_some, decide_eq_true_eq]
      omega
    have hafter : u.pauseAhead s'.db = false := by
      simp [OutboundRow.pauseAhead, hpause, hto, hstored, hu]
    rw [hbefore, hafter]
    simp only [Bool.toNat_true, Bool.toNat_false]
    omega
  | throttled hun hthr =>
    obtain ⟨hne, hlt⟩ := hthr
    rw [← hpk] at hne hlt hu
    have hfloor := Int.lt_floor_add_one (s.worker.lastSendTo row.toPubkey + limits.recipMinGap)
    have hover : s.worker.lastSendTo row.toPubkey + limits.recipMinGap < u.nextAttempt := by
      rw [hu]
      push_cast
      exact hfloor
    have hnext : row.nextAttempt ≤ u.nextAttempt :=
      (Int.cast_lt.mp (show (row.nextAttempt : ℚ) < u.nextAttempt by linarith)).le
    have hp : (u.pauseAhead s'.db).toNat ≤ (row.pauseAhead s.db).toNat :=
      OutboundRow.pauseAhead_mono (by simp [hpause]) hto hnext
    have hbefore : row.gapAhead limits s.worker = true := by
      simp only [OutboundRow.gapAhead, decide_eq_true_eq]
      exact ⟨hne, by linarith⟩
    have hafter : u.gapAhead limits s'.worker = false := by
      simp only [OutboundRow.gapAhead, hlast, hto, decide_eq_false_iff_not, not_and, not_le]
      exact fun _ => hover
    rw [hbefore, hafter]
    simp only [Bool.toNat_true, Bool.toNat_false]
    omega
  | radioDown _ _ hdown => simp [hradio] at hdown

theorem WorkerPc.planned_of_held {pc : WorkerPc} {msg : OutboundMessage} (h : pc.held = some msg)
    (id : Nat) (row : OutboundRow) : pc.planned id row = row := by
  cases pc with
  | requeueing => cases h
  | _ => rfl

/-- What a calm segment of the worker does to the rows and its plans for them. -/
theorem Worker.Case.calmRow {env : Env} {m : WorkerMove} (h : InHand s)
    (hm : s.worker.Case limits s.clock s.db env m) (hradio : env.radioAvailable = true)
    (hw : s'.worker = m.worker) (hdb : s'.db = (m.stmt.getD .read).run s.db)
    (hrow : s.db.outbound.get? id = some row) :
    CalmRow limits s s' id (s.worker.pc.planned id row)
      (s'.worker.pc.planned id ((m.stmt.getD .read).onRow id row)) := by
  rw [hw]
  cases hm with
  | tick hpc =>
    rw [hpc]
    show CalmRow limits s s' id row (ite _ _ _)
    split
    · next hc => exact .closed hc.1 (by simp)
    · exact .kept
  | claimNone hpc | claim hpc | readPause hpc | clearPause hpc | audit hpc | sleep hpc =>
    rw [hpc]
    exact .kept
  | sendStart hun =>
    rw [WorkerPc.planned_of_held hun.held]
    exact .kept
  | @defer now msg next hdef =>
    rw [WorkerPc.planned_of_held hdef.held]
    obtain ⟨row₁, hrow₁, hpend, -, hatt, -⟩ := h.held msg hdef.held
    show CalmRow limits s s' id row (ite _ _ _)
    split
    · next heq =>
      subst heq
      cases hrow.symm.trans hrow₁
      have hpc : s'.worker.pc =
          .requeueing now msg.id next row.attempts s.db.maxEnqueuedAt .deferred := by
        rw [hw, hatt]
        rfl
      have hless : OutboundRow.hurdles limits s' { row with nextAttempt := next } <
          row.hurdles limits s :=
        hdef.hurdles_lt hradio h hrow rfl rfl (by rw [hw]; rfl) (by rw [hdb]; rfl)
      rw [← hatt]
      exact .deferred hpend hpc hdef.not_sending hless
    · exact .kept
  | @sendOk now msg hpc =>
    rw [hpc]
    obtain ⟨row₁, hrow₁, hpend, -⟩ := h.held msg (by rw [hpc]; rfl)
    show CalmRow limits s s' id row (ite _ _ _)
    split
    · next heq =>
      subst heq
      cases hrow.symm.trans hrow₁
      exact .closed hpend (by simp)
    · exact .kept
  | @giveUp now msg hpc =>
    rw [hpc]
    obtain ⟨row₁, hrow₁, hpend, -⟩ := h.held msg (by rw [hpc]; rfl)
    show CalmRow limits s s' id row (ite _ _ _)
    split
    · next heq =>
      subst heq
      cases hrow.symm.trans hrow₁
      exact .closed hpend (by simp)
    · exact .kept
  | @retry now msg hpc hout hmax =>
    obtain ⟨row₁, hrow₁, hpend, -, hatt, hnext⟩ := h.held msg (by rw [hpc]; rfl)
    have hready := h.ready now msg (by rw [hpc]; rfl) (by rw [hpc]; rfl)
    have hnow := h.tick now (by rw [hpc]; rfl)
    rw [WorkerPc.planned_of_held (by rw [hpc]; rfl)]
    show CalmRow limits s s' id row (ite _ _ _)
    split
    · next heq =>
      subst heq
      cases hrow.symm.trans hrow₁
      rw [← hatt] at hmax ⊢
      refine .retried hpc rfl hmax hpend ?_
      have : 0 ≤ backoffBaseSeconds * 2 ^ row.attempts := by
        have := pow_pos (show (0 : Int) < 2 by norm_num) row.attempts
        simp only [backoffBaseSeconds]
        omega
      omega
    · exact .kept
  | @requeue now id' next attempts maxEnqueuedAt ending hpc =>
    rw [hpc]
    show CalmRow limits s s' id (ite _ _ _) (ite _ _ _)
    split
    · exact .kept
    · exact .kept

theorem calm_rows (h : InHand s) (hcalm : calm a = true) (hs : Step limits s a s') :
    ∃ st, s'.db.outbound = s.db.outbound.mapRows (fun j row => Stmt.onRow j row st) ∧
      ∀ id row, s.db.outbound.get? id = some row →
        CalmRow limits s s' id (s.worker.pc.planned id row)
          (s'.worker.pc.planned id (st.onRow id row)) := by
  rcases calm_cases hcalm hs with ⟨t, rfl, -, rfl⟩ | ⟨env, m, rfl, hradio, hm, hw, -, hdb⟩
  · refine ⟨.read, ?_, fun id row hrow => .kept⟩
    exact outbound_run (by simp : ∀ row, Stmt.read ≠ .enqueueOutbound row) s.db
  · have hnew : ∀ row, m.stmt.getD .read ≠ .enqueueOutbound row := by
      intro row heq
      cases hm <;> cases heq
    refine ⟨m.stmt.getD .read, by rw [hdb, outbound_run hnew], fun id row hrow => ?_⟩
    exact hm.calmRow h hradio hw hdb hrow

/-- The row in hand stays as it was read while the table does not change. -/
theorem InHand.keep (h : InHand s) (htick : TickPast s')
    (hrows : s'.db.outbound = s.db.outbound) (hheld : s'.worker.pc.held = s.worker.pc.held)
    (hnow : s'.worker.pc.tick = s.worker.pc.tick)
    (hpause : ∀ now msg stored, s'.worker.pc = .pauseRead now msg stored →
      s'.db.pause msg.toPubkey = stored) : InHand s' := by
  refine ⟨htick, fun msg hmsg => ?_, fun now msg htick hmsg => ?_, hpause⟩
  · rw [hrows]
    exact h.held msg (hheld ▸ hmsg)
  · exact h.ready now msg (hnow ▸ htick) (hheld ▸ hmsg)

theorem inHand_of_idle (htick : TickPast s) (hheld : s.worker.pc.held = none) : InHand s := by
  refine ⟨htick, fun msg hmsg => ?_, fun now msg _ hmsg => ?_, fun now msg stored hpc => ?_⟩
  · cases hheld.symm.trans hmsg
  · cases hheld.symm.trans hmsg
  · rw [hpc] at hheld
    cases hheld

theorem inHand_step (h : InHand s) (hcalm : calm a = true) (hs : Step limits s a s') : InHand s' := by
  have htick : TickPast s' := tickPast_step h.tick hs
  rcases calm_cases hcalm hs with ⟨t, rfl, -, rfl⟩ | ⟨env, m, rfl, -, hm, hw, -, hdb⟩
  · exact h.keep htick rfl rfl rfl h.pause
  · cases hm with
    | @claim now msg hpc hclaim =>
      obtain ⟨id, row, -, hrow, rfl, hready, -⟩ := Db.claimNextOutbound_some hclaim
      rw [Db.ready_iff] at hready
      refine ⟨htick, fun msg hmsg => ?_, fun now' msg hnow hmsg => ?_, fun _ _ _ hp => ?_⟩
      · rw [hw] at hmsg
        cases hmsg
        rw [hdb]
        exact ⟨row, hrow, hready.1, rfl, rfl, rfl⟩
      · rw [hw] at hnow hmsg
        cases hnow
        cases hmsg
        exact hready.2
      · rw [hw] at hp
        cases hp
    | readPause hpc =>
      refine h.keep htick (by rw [hdb]; rfl) (by rw [hw, hpc]; rfl) (by rw [hw, hpc]; rfl) ?_
      intro now' msg' v hp
      rw [hw] at hp
      cases hp
      rw [hdb]
      rfl
    | clearPause hpc =>
      refine h.keep htick (by rw [hdb]; rfl) (by rw [hw, hpc]; rfl) (by rw [hw, hpc]; rfl) ?_
      simp [hw]
    | sendStart hun =>
      refine h.keep htick (by rw [hdb]; rfl) (by rw [hw, hun.held]; rfl) (by rw [hw, hun.tick]; rfl) ?_
      simp [hw]
    | _ => exact inHand_of_idle htick (by rw [hw]; rfl)

/-- A segment other than the end of a transmission leaves the worker's memory alone and makes no
pause. -/
theorem calm_memory (hcalm : calm a = true) (hs : Step limits s a s')
    (hsend : a.isWorker → ∀ now msg, s.worker.pc ≠ .sending now msg) :
    s'.worker.lastSendTo = s.worker.lastSendTo ∧
      ∀ pk v, s'.db.pause pk = some v → s.db.pause pk = some v := by
  rcases calm_cases hcalm hs with ⟨t, rfl, -, rfl⟩ | ⟨env, m, rfl, -, hm, hw, -, hdb⟩
  · exact ⟨rfl, fun _ _ h => h⟩
  · have hsend := hsend trivial
    rw [hw, hdb]
    cases hm with
    | sendOk hpc | giveUp hpc | retry hpc => exact absurd hpc (hsend _ _)
    | clearPause hpc =>
      refine ⟨rfl, fun pk v hv => ?_⟩
      simp only [Option.getD_some, Stmt.pause_run, Stmt.onPause] at hv
      split at hv
      · cases hv
      · exact hv
    | _ => exact ⟨rfl, fun _ _ h => h⟩

/-! ## The measures -/

theorem CalmRow.sendsLeft_le {u u' : OutboundRow} (h : CalmRow limits s s' id u u') :
    u'.sendsLeft ≤ u.sendsLeft := by
  cases h with
  | kept | deferred => exact Nat.le_refl _
  | closed _ hstatus => simp [OutboundRow.sendsLeft, hstatus]
  | retried _ _ hmax hpend _ =>
    simp only [OutboundRow.sendsLeft, hpend, if_true]
    omega

theorem sendsLeft_le (h : InHand s) (hcalm : calm a = true) (hs : Step limits s a s') :
    sendsLeft s' ≤ sendsLeft s := by
  obtain ⟨st, htable, hrows⟩ := calm_rows h hcalm hs
  rw [sendsLeft, htable]
  exact RowTable.sum_mapRows_le fun id row hrow => (hrows id row hrow).sendsLeft_le

/-- A row that is closed or has one more attempt lowers the measure. -/
theorem sendsLeft_lt (h : InHand s) (hcalm : calm a = true) (hs : Step limits s a s')
    (hrow : s.db.outbound.get? id = some row) {row' : OutboundRow}
    (hrow' : s'.db.outbound.get? id = some row')
    (hlt : (s'.worker.pc.planned id row').sendsLeft < (s.worker.pc.planned id row).sendsLeft) :
    sendsLeft s' < sendsLeft s := by
  obtain ⟨st, htable, hrows⟩ := calm_rows h hcalm hs
  rw [sendsLeft, htable]
  refine RowTable.sum_mapRows_lt (fun id row hrow => (hrows id row hrow).sendsLeft_le) hrow ?_
  rw [htable, RowTable.get?_mapRows, hrow, Option.map_some, Option.some.injEq] at hrow'
  rwa [hrow']

theorem CalmRow.hurdles_le {u u' : OutboundRow} (h : CalmRow limits s s' id u u')
    (hlast : s'.worker.lastSendTo = s.worker.lastSendTo)
    (hpause : ∀ pk v, s'.db.pause pk = some v → s.db.pause pk = some v) :
    u'.hurdles limits s' ≤ u.hurdles limits s := by
  cases h with
  | kept => exact OutboundRow.hurdles_mono hlast hpause rfl (le_refl _) fun hp => hp
  | closed hpend => exact OutboundRow.hurdles_mono hlast hpause rfl (le_refl _) fun _ => hpend
  | retried _ _ _ _ hnext => exact OutboundRow.hurdles_mono hlast hpause rfl hnext fun hp => hp
  | deferred _ _ _ hless => exact hless.le

theorem hurdlesLeft_le (h : InHand s) (hcalm : calm a = true) (hs : Step limits s a s')
    (hsend : a.isWorker → ∀ now msg, s.worker.pc ≠ .sending now msg) :
    hurdlesLeft limits s' ≤ hurdlesLeft limits s := by
  obtain ⟨st, htable, hrows⟩ := calm_rows h hcalm hs
  obtain ⟨hlast, hpause⟩ := calm_memory hcalm hs hsend
  rw [hurdlesLeft, htable]
  exact RowTable.sum_mapRows_le fun id row hrow => (hrows id row hrow).hurdles_le hlast hpause

/-- The end of a transmission lowers the first measure. -/
theorem sendsLeft_sending (h : InHand s) (hcalm : calm a = true) (hs : Step limits s a s')
    (ha : a.isWorker) {now : Int} {msg : OutboundMessage} (hpc : s.worker.pc = .sending now msg) :
    sendsLeft s' < sendsLeft s := by
  have hheld : s.worker.pc.held = some msg := by rw [hpc]; rfl
  obtain ⟨row, hrow, hpend, -, hatt, -⟩ := h.held msg hheld
  rcases calm_cases hcalm hs with ⟨t, rfl, -⟩ | ⟨env, m, rfl, -, hm, hw, -, hdb⟩
  · exact ha.elim
  · have hrow' : s'.db.outbound.get? msg.id = some ((m.stmt.getD .read).onRow msg.id row) := by
      rw [hdb]
      exact Stmt.get?_run_of_some hrow _
    refine sendsLeft_lt h hcalm hs hrow hrow' ?_
    rw [WorkerPc.planned_of_held hheld, hw]
    have hpos : 0 < row.sendsLeft := by
      simp only [OutboundRow.sendsLeft, hpend, if_true]
      omega
    cases hm with
    | sendOk hpc' | giveUp hpc' =>
      cases hpc.symm.trans hpc'
      simpa [WorkerPc.planned, Stmt.onRow, OutboundRow.sendsLeft] using hpos
    | retry hpc' hout hmax =>
      cases hpc.symm.trans hpc'
      simp only [WorkerPc.planned, Worker.goto_pc, Stmt.onRow, Option.getD_some, if_true,
        OutboundRow.sendsLeft, hpend, hatt]
      omega
    | tick hpc' | claimNone hpc' | claim hpc' | readPause hpc' | clearPause hpc' | audit hpc'
    | requeue hpc' | sleep hpc' => cases hpc.symm.trans hpc'
    | defer hdef => exact absurd hpc (hdef.not_sending _ _)
    | sendStart hun => exact absurd hpc (hun.not_sending _ _)

/-- Putting a row back without a transmission lowers the second measure. -/
theorem hurdlesLeft_defer (h : InHand s) (hcalm : calm a = true) (hs : Step limits s a s')
    (ha : a.isWorker) (hsend : ∀ now msg, s.worker.pc ≠ .sending now msg) {now next x : Int}
    {k : Nat} {ending : TickEnd} (hpc : s'.worker.pc = .requeueing now id next k x ending) :
    hurdlesLeft limits s' < hurdlesLeft limits s := by
  obtain ⟨st, htable, hrows⟩ := calm_rows h hcalm hs
  obtain ⟨hlast, hpause⟩ := calm_memory hcalm hs fun _ => hsend
  rcases calm_cases hcalm hs with ⟨t, rfl, -⟩ | ⟨env, m, rfl, hradio, hm, hw, -, hdb⟩
  · exact ha.elim
  · rw [hw] at hpc
    cases hm with
    | @defer now' msg next' hdef =>
      obtain ⟨row, hrow, hpend, -, hatt, -⟩ := h.held msg hdef.held
      rw [hurdlesLeft, htable]
      refine RowTable.sum_mapRows_lt
        (fun id row hrow => (hrows id row hrow).hurdles_le hlast hpause) hrow ?_
      have hrow' : s'.db.outbound.get? msg.id = some row := by
        rw [hdb]
        exact hrow
      rw [htable, RowTable.get?_mapRows, hrow, Option.map_some, Option.some.injEq] at hrow'
      rw [hrow', WorkerPc.planned_of_held hdef.held, hw]
      refine hdef.hurdles_lt hradio h hrow ?_ ?_ (by rw [hw]; rfl) (by rw [hdb]; rfl)
      · simp [WorkerPc.planned]
      · simp [WorkerPc.planned]
    | retry hpc' => exact absurd hpc' (hsend _ _)
    | _ => cases hpc

/-! ## The worker is never stuck -/

/-- Some row may be returned by the claim. -/
theorem exists_claim (db : Db) (now : Int) : ∃ pick, (db.claimNextOutbound now pick).isSome := by
  by_cases hnone : db.outbound.rows.all fun p => !Db.ready now p.2
  · exact ⟨none, by simp [Db.claimNextOutbound, hnone]⟩
  · -- the ready row of least key in `ORDER BY priority DESC, enqueued_at ASC`
    let key : Nat × OutboundRow → ℤ ×ₗ ℤ := fun p => toLex (-p.2.priority, p.2.enqueuedAt)
    have hne : (db.outbound.rows.toFinset.filter fun p => Db.ready now p.2 = true).Nonempty := by
      simp only [List.all_eq_true, Bool.not_eq_true', not_forall, Bool.not_eq_false] at hnone
      obtain ⟨p, hp, hready⟩ := hnone
      exact ⟨p, by simp [hp, hready]⟩
    obtain ⟨⟨id, row⟩, hmem, hmin⟩ := Finset.exists_min_image _ key hne
    simp only [Finset.mem_filter, List.mem_toFinset] at hmem hmin
    have hrow := (db.outbound.mem_rows_iff id row).mp hmem.1
    refine ⟨some id, ?_⟩
    have hall : (db.outbound.rows.all fun p => !Db.ready now p.2 || Db.ordersBefore row p.2) = true := by
      simp only [List.all_eq_true, Bool.or_eq_true, Bool.not_eq_true']
      intro p hp
      cases hready : Db.ready now p.2 with
      | false => exact .inl rfl
      | true =>
        right
        have := hmin p ⟨hp, hready⟩
        simp only [key, Prod.Lex.toLex_le_toLex] at this
        simp only [Db.ordersBefore, Bool.or_eq_true, Bool.and_eq_true, decide_eq_true_eq]
        omega
    simp [Db.claimNextOutbound, hrow, hmem.2, hall]

/-- The sleep of the worker, if it sleeps, is over. -/
def Awake (s : State) : Prop := ∀ wake, s.worker.pc = .sleeping wake → wake ≤ s.clock

theorem worker_enabled (h : Awake s) : Machine.Enabled (step limits) CalmWorker s := by
  obtain ⟨pick, hpick⟩ : ∃ pick, ∀ now, s.worker.pc = .dropped now →
      (s.db.claimNextOutbound now pick).isSome := by
    by_cases hpc : ∃ now, s.worker.pc = .dropped now
    · obtain ⟨now, hpc⟩ := hpc
      obtain ⟨pick, hpick⟩ := exists_claim s.db now
      refine ⟨pick, fun now' hpc' => ?_⟩
      cases hpc.symm.trans hpc'
      exact hpick
    · exact ⟨none, fun now hpc' => absurd ⟨now, hpc'⟩ hpc⟩
  refine ⟨.worker { pick := pick }, ⟨trivial, rfl⟩, ?_⟩
  simp only [step, Option.isSome_map, Worker.step]
  unfold Worker.move
  cases hpc : s.worker.pc with
  | sleeping wake => simp [h wake hpc]
  | dropped now => simpa using hpick now hpc
  | pauseRead now msg stored => cases stored <;> rfl
  | _ => rfl

/-- The worker's segments from where a tick is to its end. -/
def WorkerPc.tickRank : WorkerPc → Nat
  | .dropped _ => 6
  | .claimed _ _ => 5
  | .pauseRead _ _ _ => 4
  | .pauseCleared _ _ => 3
  | .sending _ _ => 2
  | .failing _ _ _ _ => 1
  | .requeueing _ _ _ _ _ _ => 1
  | _ => 0

/-- The segments from where the worker is to the transmission of a row that is ready from the
second `ready` on. -/
def WorkerPc.sendRank (ready : Int) : WorkerPc → Nat
  | .sending _ _ => 0
  | .pauseCleared _ _ => 1
  | .pauseRead _ _ _ => 2
  | .claimed _ _ => 3
  | .dropped now => if ready ≤ now then 4 else 7
  | .sleeping _ => 5
  | .ended _ => 6
  | .failing _ _ _ _ => 7
  | .requeueing _ _ _ _ _ _ => 7

theorem tickRank_lt (hcalm : calm a = true) (hs : Step limits s a s') (ha : a.isWorker)
    (htick : s.worker.pc.tick ≠ none) : s'.worker.pc.tickRank < s.worker.pc.tickRank := by
  rcases calm_cases hcalm hs with ⟨t, rfl, -⟩ | ⟨env, m, rfl, -, hm, hw, -, -⟩
  · exact ha.elim
  · rw [hw]
    cases hm with
    | tick hpc | sleep hpc => exact absurd (by rw [hpc]; rfl) htick
    | claimNone hpc | claim hpc | readPause hpc | clearPause hpc | sendOk hpc | giveUp hpc
    | retry hpc | audit hpc | requeue hpc =>
      rw [hpc]
      simp [WorkerPc.tickRank]
    | defer hdef =>
      cases hdef with
      | paused hpc =>
        rw [hpc]
        simp [WorkerPc.tickRank]
      | throttled hun | radioDown hun =>
        generalize s.worker.pc = pc at hun
        cases hun <;> simp [WorkerPc.tickRank]
    | sendStart hun =>
      generalize s.worker.pc = pc at hun
      cases hun <;> simp [WorkerPc.tickRank]

theorem tickRank_le (hcalm : calm a = true) (hs : Step limits s a s')
    (htick : s.worker.pc.tick ≠ none) : s'.worker.pc.tickRank ≤ s.worker.pc.tickRank := by
  rcases calm_cases hcalm hs with ⟨t, rfl, -, rfl⟩ | ⟨env, m, rfl, -⟩
  · exact Nat.le_refl _
  · exact (tickRank_lt hcalm hs trivial htick).le

/-! ## Both measures spent -/

theorem WorkerPc.planned_status (pc : WorkerPc) (id : Nat) (row : OutboundRow) :
    (pc.planned id row).status = row.status := by
  cases pc with
  | requeueing =>
    simp only [planned]
    split <;> rfl
  | _ => rfl

/-- Row `r` is pending and, as the worker plans it, ready from the second `ready` on. -/
def Due (r : Nat) (ready : Int) (s : State) : Prop :=
  ∃ row, s.db.outbound.get? r = some row ∧ row.status = .pending ∧
    (s.worker.pc.planned r row).nextAttempt = ready

/-- A step that lowers neither measure. -/
structure Still (limits : LimitsConfig) (s s' : State) : Prop where
  sends : sendsLeft s' = sendsLeft s
  hurdles : hurdlesLeft limits s' = hurdlesLeft limits s

theorem Still.not_sending (hstill : Still limits s s') (h : InHand s) (hcalm : calm a = true)
    (hs : Step limits s a s') (ha : a.isWorker) (now : Int) (msg : OutboundMessage) :
    s.worker.pc ≠ .sending now msg := by
  intro hpc
  have := sendsLeft_sending h hcalm hs ha hpc
  rw [hstill.sends] at this
  exact Nat.lt_irrefl _ this

theorem CalmRow.same {u u' : OutboundRow} (h : CalmRow limits s s' id u u')
    (hpend : u.status = .pending) (hsends : ¬ u'.sendsLeft < u.sendsLeft)
    (hhurdles : ¬ u'.hurdles limits s' < u.hurdles limits s) :
    u'.status = .pending ∧ u'.nextAttempt = u.nextAttempt := by
  cases h with
  | kept => exact ⟨hpend, rfl⟩
  | closed _ hstatus =>
    refine absurd ?_ hsends
    simp [OutboundRow.sendsLeft, hpend, hstatus]
  | retried _ _ hmax _ _ =>
    refine absurd ?_ hsends
    simp only [OutboundRow.sendsLeft, hpend, if_true]
    omega
  | deferred _ _ _ hless => exact absurd hless hhurdles

/-- A pending row stays as it is. -/
theorem Still.due {r : Nat} {ready : Int} (hstill : Still limits s s') (h : InHand s)
    (hcalm : calm a = true) (hs : Step limits s a s') (hdue : Due r ready s) : Due r ready s' := by
  obtain ⟨row, hrow, hpend, hnext⟩ := hdue
  obtain ⟨st, htable, hrows⟩ := calm_rows h hcalm hs
  obtain ⟨hlast, hpause⟩ := calm_memory hcalm hs fun ha => hstill.not_sending h hcalm hs ha
  have hrow' : s'.db.outbound.get? r = some (st.onRow r row) := by
    rw [htable, RowTable.get?_mapRows, hrow, Option.map_some]
  have hsame := (hrows r row hrow).same (by rw [WorkerPc.planned_status, hpend])
    (fun hlt => ?_) (fun hlt => ?_)
  · refine ⟨_, hrow', ?_, hsame.2.trans hnext⟩
    rw [← hsame.1, WorkerPc.planned_status]
  · have := sendsLeft_lt h hcalm hs hrow hrow' hlt
    rw [hstill.sends] at this
    exact Nat.lt_irrefl _ this
  · have : hurdlesLeft limits s' < hurdlesLeft limits s := by
      rw [hurdlesLeft, htable]
      exact RowTable.sum_mapRows_lt
        (fun id row hrow => (hrows id row hrow).hurdles_le hlast hpause) hrow hlt
    rw [hstill.hurdles] at this
    exact Nat.lt_irrefl _ this

/-- While a row is due, each segment brings the worker closer to a transmission. -/
theorem Still.sendRank_lt {r : Nat} {ready : Int} (hstill : Still limits s s') (h : InHand s)
    (hcalm : calm a = true) (hs : Step limits s a s') (ha : a.isWorker) (hdue : Due r ready s)
    (hready : ready ≤ s.clock) : s'.worker.pc.sendRank ready < s.worker.pc.sendRank ready := by
  have hsend := hstill.not_sending h hcalm hs ha
  have hdefer : ∀ now id next k x ending, s'.worker.pc ≠ .requeueing now id next k x ending := by
    intro now id next k x ending hpc
    have := hurdlesLeft_defer h hcalm hs ha hsend hpc
    rw [hstill.hurdles] at this
    exact Nat.lt_irrefl _ this
  rcases calm_cases hcalm hs with ⟨t, rfl, -⟩ | ⟨env, m, rfl, -, hm, hw, -, -⟩
  · exact ha.elim
  · rw [hw] at hdefer ⊢
    cases hm with
    | tick hpc =>
      have : ready ≤ ⌊s.clock⌋ := Int.le_floor.mpr hready
      rw [hpc]
      simp [WorkerPc.sendRank, this]
    | @claimNone now hpc hclaim =>
      have hlate : ¬ ready ≤ now := by
        intro hle
        obtain ⟨row, hrow, hpend, hnext⟩ := hdue
        rw [hpc] at hnext
        have hwaits := Db.claimNextOutbound_none hclaim hrow
        rw [(Db.ready_iff now row).mpr ⟨hpend, hnext.trans_le hle⟩] at hwaits
        cases hwaits
      rw [hpc]
      simp [WorkerPc.sendRank, hlate]
    | @claim now msg hpc =>
      rw [hpc]
      simp only [WorkerPc.sendRank, Worker.goto_pc]
      split <;> omega
    | readPause hpc | clearPause hpc | audit hpc | sleep hpc =>
      rw [hpc]
      simp [WorkerPc.sendRank, Worker.afterTick]
    | sendOk hpc | giveUp hpc | retry hpc => exact absurd hpc (hsend _ _)
    | defer => exact absurd rfl (hdefer _ _ _ _ _ _)
    | requeue hpc =>
      rw [hpc]
      simp [WorkerPc.sendRank]
    | sendStart hun =>
      generalize s.worker.pc = pc at hun
      cases hun <;> simp [WorkerPc.sendRank]

/-! ## The queue in the long run -/

section Executions

variable {e : Machine.Execution (step limits)}

theorem clock_mono {m n : Nat} (h : m ≤ n) : (e.state m).clock ≤ (e.state n).clock :=
  e.always (P := fun s => (e.state m).clock ≤ s.clock) (le_refl _)
    (fun k _ hk => hk.trans (step_cases (e.next k)).clock_le) h

theorem worker_goes_on (hclock : ∀ t : ℚ, ∃ n, t ≤ (e.state n).clock)
    (hcalm : ∀ n, calm (e.act n) = true) (hfair : e.WeaklyFair CalmWorker) :
    e.InfinitelyOften Act.isWorker := by
  have hgo : e.InfinitelyOften CalmWorker := by
    refine hfair.infinitelyOften fun n hidle => ?_
    -- the worker does not move, so its sleep ends and does not begin again
    have hpc : ∀ m, n ≤ m → (e.state m).worker.pc = (e.state n).worker.pc := by
      intro m hm
      refine e.always (P := fun s => s.worker.pc = (e.state n).worker.pc) rfl (fun k hk hpc => ?_) hm
      rcases calm_cases (hcalm k) (step_cases (e.next k)) with ⟨t, -, -, hs⟩ | ⟨env, m, ha, -⟩
      · rw [hs]
        exact hpc
      · exact absurd ⟨by rw [ha]; trivial, hcalm k⟩ (hidle k hk)
    obtain ⟨k, hk⟩ : ∃ k, ∀ wake, (e.state n).worker.pc = .sleeping wake →
        wake ≤ (e.state k).clock := by
      cases hn : (e.state n).worker.pc with
      | sleeping wake =>
        obtain ⟨k, hk⟩ := hclock wake
        exact ⟨k, fun wake' heq => by cases heq; exact hk⟩
      | _ => exact ⟨0, by simp⟩
    refine ⟨max n k, le_max_left _ _, fun m hm => worker_enabled fun wake hwake => ?_⟩
    rw [hpc m (le_trans (le_max_left _ _) hm)] at hwake
    exact (hk wake hwake).trans (clock_mono (le_trans (le_max_right _ _) hm))
  intro n
  obtain ⟨m, hm, ha⟩ := hgo n
  exact ⟨m, hm, ha.1⟩

/-- Some time the worker is between two ticks, and from then on it reads what still holds. -/
theorem eventually_inHand (hcalm : ∀ n, calm (e.act n) = true)
    (hgo : e.InfinitelyOften Act.isWorker) : ∃ m, ∀ n, m ≤ n → InHand (e.state n) := by
  obtain ⟨m, -, hm⟩ := Machine.Execution.reaches (e := e) (m := 0)
    (g := fun s => s.worker.pc.tick = none) (μ := fun s => s.worker.pc.tickRank) wellFounded_lt hgo
    (fun n _ htick => (tickRank_le (hcalm n) (step_cases (e.next n)) htick).eq_or_lt)
    (fun n _ htick ha => tickRank_lt (hcalm n) (step_cases (e.next n)) ha htick)
  refine ⟨m, fun n hn => e.always (inHand_of_idle ?_ ?_)
    (fun k _ h => inHand_step h (hcalm k) (step_cases (e.next k))) hn⟩
  · intro now hnow
    cases hm.symm.trans hnow
  · cases hpc : (e.state m).worker.pc with
    | claimed | pauseRead | pauseCleared | sending =>
      rw [hpc] at hm
      cases hm
    | _ => rfl

/-- In the end neither measure falls. -/
theorem eventually_still (hcalm : ∀ n, calm (e.act n) = true)
    (hgo : e.InfinitelyOften Act.isWorker) :
    ∃ m, ∀ n, m ≤ n → InHand (e.state n) ∧ Still limits (e.state n) (e.state (n + 1)) := by
  obtain ⟨m₀, hhand⟩ := eventually_inHand hcalm hgo
  obtain ⟨m₁, h₁, hsends⟩ := Machine.Execution.settles (e := e) (μ := sendsLeft) (m := m₀)
    wellFounded_lt
    fun n hn => (sendsLeft_le (hhand n hn) (hcalm n) (step_cases (e.next n))).eq_or_lt
  have hsend : ∀ n, m₁ ≤ n → (e.act n).isWorker → ∀ now msg,
      (e.state n).worker.pc ≠ .sending now msg := by
    intro n hn ha now msg hpc
    have := sendsLeft_sending (hhand n (le_trans h₁ hn)) (hcalm n) (step_cases (e.next n)) ha hpc
    rw [hsends n hn] at this
    exact Nat.lt_irrefl _ this
  obtain ⟨m₂, h₂, hhurdles⟩ := Machine.Execution.settles (e := e) (μ := hurdlesLeft limits) (m := m₁)
    wellFounded_lt
    fun n hn => (hurdlesLeft_le (hhand n (le_trans h₁ hn)) (hcalm n) (step_cases (e.next n))
      (hsend n hn)).eq_or_lt
  exact ⟨m₂, fun n hn => ⟨hhand n (by omega), hsends n (by omega), hhurdles n hn⟩⟩

/-- **The queue drains.**  From any state, left alone with the radio up and a database that answers,
the worker settles every queued row, whatever the outcomes of its sends and whatever pauses are
stored: if time goes on and the worker is not held up for ever, then some time, and from then on,
no row is pending. -/
theorem queue_drains (hclock : ∀ t : ℚ, ∃ n, t ≤ (e.state n).clock)
    (hcalm : ∀ n, calm (e.act n) = true) (hfair : e.WeaklyFair CalmWorker) :
    ∃ m, ∀ n, m ≤ n → ∀ id row, (e.state n).db.outbound.get? id = some row →
      row.status ≠ .pending := by
  have hgo := worker_goes_on hclock hcalm hfair
  obtain ⟨m, hm⟩ := eventually_still hcalm hgo
  refine ⟨m, fun k hk r row₀ hrow₀ hpend₀ => ?_⟩
  -- the row stays due, so the worker would come to its transmission
  obtain ⟨ready, hdue₀⟩ : ∃ ready, Due r ready (e.state k) := ⟨_, row₀, hrow₀, hpend₀, rfl⟩
  have hdue : ∀ n, k ≤ n → Due r ready (e.state n) := fun n hn =>
    e.always hdue₀ (fun j hj hdue => by
      obtain ⟨hhand, hstill⟩ := hm j (le_trans hk hj)
      exact hstill.due hhand (hcalm j) (step_cases (e.next j)) hdue) hn
  obtain ⟨k', hk'⟩ := hclock ready
  have hlt : ∀ n, max k k' ≤ n → (e.act n).isWorker →
      (e.state (n + 1)).worker.pc.sendRank ready < (e.state n).worker.pc.sendRank ready := by
    intro n hn ha
    obtain ⟨hhand, hstill⟩ := hm n (by omega)
    exact hstill.sendRank_lt hhand (hcalm n) (step_cases (e.next n)) ha (hdue n (by omega))
      (hk'.trans (clock_mono (le_trans (le_max_right _ _) hn)))
  obtain ⟨j, hj, hstop⟩ := Machine.Execution.stops (e := e) (m := max k k')
    (μ := fun s => s.worker.pc.sendRank ready) (q := fun n => (e.act n).isWorker) wellFounded_lt
    (fun n hn => by
      rcases calm_cases (hcalm n) (step_cases (e.next n)) with ⟨t, -, -, hs⟩ | ⟨env, m, ha, -⟩
      · exact .inl (by rw [hs])
      · exact .inr (hlt n hn (by rw [ha]; trivial))) hlt
  obtain ⟨n, hn, ha⟩ := hgo j
  exact hstop n hn ha

end Executions

/-- After `n` steps of ten seconds' waits and segments of the worker, in turn. -/
structure InTurn (n : Nat) (s : State) : Prop where
  clock : (10 * ((n + 1) / 2 : Nat) : ℚ) ≤ s.clock
  lastSend : s.worker.lastSendAt ≤ s.clock
  sleep : ∀ wake, s.worker.pc = .sleeping wake → wake ≤ s.clock + 10
  awake : n % 2 = 1 → Awake s

theorem inTurn_wait {n : Nat} (h : InTurn n s) (hn : n % 2 = 0) :
    InTurn (n + 1) { s with clock := s.clock + 10 } where
  clock := by
    have := h.clock
    have heq : (n + 1 + 1) / 2 = (n + 1) / 2 + 1 := by omega
    rw [heq]
    push_cast
    show _ ≤ s.clock + 10
    linarith
  lastSend := by
    have := h.lastSend
    show _ ≤ s.clock + 10
    linarith
  sleep wake hwake := by
    have := h.sleep wake hwake
    show _ ≤ s.clock + 10 + 10
    linarith
  awake _ wake hwake := h.sleep wake hwake

theorem inTurn_worker {n : Nat} (h : InTurn n s) (hn : n % 2 = 1) (hcalm : CalmWorker a)
    (hs : Step {} s a s') : InTurn (n + 1) s' := by
  have hhalf : (n + 1 + 1) / 2 = (n + 1) / 2 := by omega
  have hodd : ¬ (n + 1) % 2 = 1 := by omega
  rcases calm_cases hcalm.2 hs with ⟨t, rfl, -⟩ | ⟨env, m, rfl, -, hm, hw, hclock, -⟩
  · exact hcalm.1.elim
  · have hlast := h.lastSend
    refine ⟨?_, ?_, fun wake hwake => ?_, fun h => absurd h hodd⟩
    · rw [hhalf, hclock]
      exact h.clock
    · rw [hw, hclock]
      cases hm with
      | sendOk | giveUp | retry => exact le_refl _
      | _ => exact hlast
    · rw [hw] at hwake
      rw [hclock]
      cases hm with
      | sleep hpc =>
        simp only [Worker.afterTick, WorkerPc.sleeping.injEq] at hwake
        rw [← hwake]
        have hgap : ({} : LimitsConfig).minGap = 1 := by norm_num [LimitsConfig.minGap]
        split
        · linarith
        · split
          · rw [hgap]
            linarith
          · linarith
      | _ => cases hwake

theorem queue_drains_one : ∃ e : Machine.Execution (step {}), e.state 0 = oneMessage ∧
    (∃ row, (e.state 0).db.outbound.get? 1 = some row ∧ row.status = .pending) ∧
    ∃ m, ∀ n, m ≤ n → ∀ id row, (e.state n).db.outbound.get? id = some row →
      row.status ≠ .pending := by
  have h0 : InTurn 0 oneMessage := by
    refine ⟨?_, ?_, fun wake hwake => ?_, by simp⟩
    · norm_num [oneMessage]
    · norm_num [oneMessage, Worker.init]
    · cases hwake
      norm_num [oneMessage]
  obtain ⟨e, he, hinv, hok⟩ := Machine.Execution.exists_of_strategy (step {}) (I := InTurn)
    (R := fun n _ a => calm a = true ∧ (n % 2 = 1 → CalmWorker a)) h0 (by
      intro n s h
      by_cases hn : n % 2 = 1
      · have henabled : Machine.Enabled (step {}) CalmWorker s := worker_enabled (h.awake hn)
        obtain ⟨a, hcalm, hsome⟩ := henabled
        obtain ⟨s', hs'⟩ := Option.isSome_iff_exists.mp hsome
        exact ⟨a, s', ⟨hcalm.2, fun _ => hcalm⟩, hs', inTurn_worker h hn hcalm (step_cases hs')⟩
      · refine ⟨.wait (s.clock + 10), _, ⟨rfl, fun h => absurd h hn⟩, ?_, inTurn_wait h (by omega)⟩
        simp [step])
  refine ⟨e, he, ⟨hiRow, by rw [he]; rfl, rfl⟩, queue_drains ?_ (fun n => (hok n).1) ?_⟩
  · intro t
    refine ⟨2 * ⌈t⌉₊, le_trans (Nat.le_ceil t) (le_trans ?_ (hinv _).clock)⟩
    have heq : (2 * ⌈t⌉₊ + 1) / 2 = ⌈t⌉₊ := by omega
    rw [heq]
    have : (0 : ℚ) ≤ ⌈t⌉₊ := Nat.cast_nonneg _
    linarith
  · exact fun n _ => ⟨2 * n + 1, by omega, (hok (2 * n + 1)).2 (by omega)⟩

end Bbs
