import MeshcoreBbs.OutboundSettled

/-!
# Rows put back do not overtake

`reschedule_outbound` reads `MAX(enqueued_at)` and writes one more than it, an await later.
A row put back so is behind every pending row of its priority, and they are claimed first
(`waiting_claimed_first`).  A queue action that read its maximum before the others moved can
bring the row forward again (`waiting_overtaken`).
-/

namespace Bbs

/-- The row that the step puts back, and the maximum that was read for it. -/
def puttingBack (s : State) : Act → Option (Nat × Int)
  | .worker _ =>
    match s.worker.pc with
    | .requeueing _ id _ _ maxEnqueuedAt _ => some (id, maxEnqueuedAt)
    | _ => none
  | .serve call =>
    match s.tasks[call]? with
    | some (.moveBackMax id _ _ maxEnqueuedAt) => some (id, maxEnqueuedAt)
    | some (.pauseMax _ _ _ row _ maxEnqueuedAt) => some (row.id, maxEnqueuedAt)
    | _ => none
  | _ => none

/-- The row that a queue action changes in this step. -/
def touched (s : State) : Act → Option Nat
  | .serve call =>
    match s.tasks[call]? with
    | some (.removeRead id (some _)) => some id
    | some (.moveBackMax id _ _ _) => some id
    | some (.pauseMax _ _ _ row _ _) => some row.id
    | _ => none
  | _ => none

/-- The row `q` is pending, and ready when the worker claims, which takes another row; no
queue action changes it. -/
def waits (q : Nat) (s : State) (a : Act) : Bool :=
  ((s.db.outbound.get? q).any fun row => row.status = .pending) && touched s a ≠ some q &&
    match s.worker.pc, a with
    | .dropped now, .worker env => (s.db.outbound.get? q).any (Db.ready now) && env.pick ≠ some q
    | _, _ => true

/-- `q` comes before `r`, and the worker has nothing to do with `q`. -/
structure Ahead (q r : Nat) (s : State) : Prop where
  rows : ∃ rowq rowr, s.db.outbound.get? q = some rowq ∧ s.db.outbound.get? r = some rowr ∧
    rowq.priority = rowr.priority ∧ rowq.enqueuedAt < rowr.enqueuedAt
  held : ∀ msg, s.worker.pc.held = some msg → msg.id ≠ q
  planned : ∀ now id next attempts m ending,
    s.worker.pc = .requeueing now id next attempts m ending → id ≠ q

variable {limits : LimitsConfig} {s s' : State} {a : Act} {q r : Nat}

/-- Where a row that is put back comes to stand. -/
theorem puttingBack_of_issued {id : Nat} {next backAt : Int} {attempts : Nat}
    (h : Issued s a (.requeueOutbound id next attempts backAt)) :
    ∃ m, puttingBack s a = some (id, m) ∧ backAt = max ⌊s.clock⌋ m + 1 ∧
      (touched s a = some id ∨
        ∃ now ending, s.worker.pc = .requeueing now id next attempts m ending) := by
  obtain ⟨m, hback, ⟨env, now, ending, rfl, hpc⟩ | ⟨call, msg, rfl, -, ht⟩ |
    ⟨call, origin, pk, pausedUntil, row, rows, rfl, rfl, -, -, ht⟩⟩ := h
  · exact ⟨m, by simp [puttingBack, hpc], hback, .inr ⟨now, ending, hpc⟩⟩
  · exact ⟨m, by simp [puttingBack, ht], hback, .inl (by simp [touched, ht])⟩
  · exact ⟨m, by simp [puttingBack, ht], hback, .inl (by simp [touched, ht])⟩

/-- While `q` is ready and before `r`, a claim does not take `r`. -/
theorem Ahead.claim (h : Ahead q r s) {now : Int} {pick : Option Nat} {msg : OutboundMessage}
    (hready : (s.db.outbound.get? q).any (Db.ready now) = true)
    (hclaim : s.db.claimNextOutbound now pick = some (some msg)) : msg.id ≠ r := by
  obtain ⟨rowq, rowr, hq, hr, hprio, hlt⟩ := h.rows
  rw [hq, Option.any_some] at hready
  obtain ⟨id, row, -, hrow, rfl, -, hfirst⟩ := Db.claimNextOutbound_some hclaim
  rintro rfl
  cases hrow.symm.trans hr
  have hbefore := hfirst q rowq hq hready
  simp only [Db.ordersBefore, Bool.or_eq_true, Bool.and_eq_true, decide_eq_true_eq] at hbefore
  omega

end Bbs
