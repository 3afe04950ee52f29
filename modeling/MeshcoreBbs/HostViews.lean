import MeshcoreBbs.Host
import MeshcoreBbs.Lib.Spots

/-!
# The two views of the process

Requests and queue have models of their own, in each of which the other side is outside.  A run of the
process is a run of either: of the requests, for which the worker and the dashboard are outside
(`requests_view`), and of the queue, for which a reply is a task like those of the dashboard
(`queue_view`).  So what is proved of one side alone holds of the process.
-/

namespace Bbs

open Coroutine Dispatcher Replies

namespace Host

/-! ## The queue's view -/

/-- The row that an entry of the record is about. -/
def outboundRow : Entry → Option OutboundRow
  | .inserted _ row _ => some row
  | _ => none

theorem mute_run {op : Op} (hop : Mute op) (py : Py) (w : World) :
    (op.run py w).2.queue.outbound = w.queue.outbound ∧
      (op.run py w).2.queue.pause = w.queue.pause ∧
      (op.run py w).2.record.filterMap outboundRow = w.record.filterMap outboundRow := by
  refine ⟨?_, ?_, ?_⟩
  · cases op with
    | enqueueOutbound => cases hop
    | insertUser | addMail =>
      rw [Op.run]
      split <;> rfl
    | _ => first | rfl | exact Op.check_frame (fun w => w.queue.outbound) rfl
  · cases op with
    | enqueueOutbound => cases hop
    | insertUser | addMail =>
      rw [Op.run]
      split <;> rfl
    | _ => first | rfl | exact Op.check_frame (fun w => w.queue.pause) rfl
  · rw [Op.run_record]
    cases op with
    | enqueueOutbound => cases hop
    | _ => rfl

/-- The service of the queue's own model.  Its tasks, its history and its requests are those of the
replies too. -/
def shown (clock : ℚ) (db : Db) (service : Service) (tasks : List Task) (hist : List Event)
    (requested : List Task) : Service :=
  { service with
    state :=
      { clock := clock, db := db, worker := service.state.worker, tasks := tasks, hist := hist }
    requested := requested }

section Shown

variable {limits : LimitsConfig} {v₀ service : Service} {clock : ℚ} {db : Db} {tasks : List Task}
  {hist : List Event} {requested : List Task}

theorem shown_spawn {t : Task} (ht : t.isRequest = true)
    (hrun : ServiceRuns limits v₀ (shown clock db service tasks hist requested)) :
    ServiceRuns limits v₀ (shown clock db service (tasks ++ [t]) hist (t :: requested)) := by
  refine hrun.tail (a := .act (.spawn t)) trivial ?_
  simp [serviceStep, Bbs.step, shown, ht]

theorem shown_serve {t t' : Task} {st : Stmt} {evs : List Event} {n : Nat}
    (ht : tasks[n]? = some t) (hm : t.move limits clock db n = some (t', st, evs))
    (hrun : ServiceRuns limits v₀ (shown clock db service tasks hist requested)) :
    ServiceRuns limits v₀
      (shown clock (st.run db) service (tasks.set n t') (evs ++ hist) requested) := by
  refine hrun.tail (a := .act (.serve n)) trivial ?_
  simp [serviceStep, Bbs.step, shown, ht, hm]

end Shown

/-- How they go together.  The request `live` is in the middle of its turn. -/
structure Seen (depth : Nat) (live : Option Nat) (w : World) (tasks : List (Request × Prog Unit))
    (service : Service) (spots : Spots (Nat ⊕ Nat) Task) (hist : List Event)
    (requested : List Task) : Prop where
  events : hist.filter (fun e => e.insertedRow = none) = service.state.hist
  rows : hist.filterMap Event.insertedRow = w.record.filterMap outboundRow
  asked : requested.filter Task.ofDashboard = service.requested
  actions : ∀ c t, service.state.tasks[c]? = some t →
    t.ofDashboard = true ∧ spots.get? (.inl c) = some t
  requests : ∀ i r m, tasks[i]? = some (r, m) →
    Stage depth (if live = some i then some w.now else none) m (spots.get? (.inr i))

/-- There is a run of the queue's own model to what is seen here. -/
def Sighted (limits : LimitsConfig) (v₀ : Service) (depth : Nat) (live : Option Nat) (w : World)
    (tasks : List (Request × Prog Unit)) (service : Service) : Prop :=
  ∃ spots audit hist requested,
    ServiceRuns (limits.withDepth depth) v₀
      (shown w.clock { w.queue with audit := audit } service spots.items hist requested) ∧
    Seen depth live w tasks service spots hist requested

/-- That model turns replies away at `depth`, so no queue may have reached it. -/
def Viewed (limits : LimitsConfig) (v₀ : Service) (depth : Nat) (live : Option Nat) (w : World)
    (tasks : List (Request × Prog Unit)) (service : Service) : Prop :=
  w.queue.outbound.seq + 1 < depth → Sighted limits v₀ depth live w tasks service

variable {limits : LimitsConfig} {sv : Services} {v₀ service : Service} {depth : Nat} {w : World}
  {tasks : List (Request × Prog Unit)} {i : Nat} {r : Request} {op : Op}
  {k : Option op.Res → Prog Unit} {spots spots' : Spots (Nat ⊕ Nat) Task} {live : Option Nat}

theorem depth_le (db : Db) : db.outboundPendingDepth ≤ db.outbound.seq + 1 :=
  (List.length_filter_le _ _).trans db.outbound.length_rows_le

/-- The requests, after one of them has performed an operation. -/
theorem requests_set {now now' : Int} {m m' : Prog Unit} (hlive : live = none ∨ live = some i)
    (hold : ∀ j r₁ m₁, (tasks.set i (r, m))[j]? = some (r₁, m₁) →
      Stage depth (if some i = some j then some now else none) m₁ (spots.get? (.inr j)))
    (hnew : Stage depth (if live = some i then some now' else none) m' (spots'.get? (.inr i)))
    (hsame : ∀ j, j ≠ i → spots'.get? (.inr j) = spots.get? (.inr j)) :
    ∀ j r₁ m₁, (tasks.set i (r, m'))[j]? = some (r₁, m₁) →
      Stage depth (if live = some j then some now' else none) m₁ (spots'.get? (.inr j)) := by
  intro j r₁ m₁ hj
  by_cases hij : i = j
  · subst hij
    rw [List.getElem?_set, if_pos rfl] at hj
    split at hj
    · cases hj
      exact hnew
    · cases hj
  · rw [List.getElem?_set_ne hij] at hj
    have hstage := hold j r₁ m₁ ((List.getElem?_set_ne hij).trans hj)
    have hlive : live ≠ some j := by
      rcases hlive with rfl | rfl
      · exact nofun
      · simpa using hij
    rw [if_neg (by simpa using hij)] at hstage
    rw [if_neg hlive, hsame j (Ne.symm hij)]
    exact hstage

/-- What an operation in the middle of a turn leaves of the view. -/
theorem viewed_op (hlive : live = if op.awaited then none else some i) (hi : i < tasks.length)
    (hv : Viewed limits v₀ depth (some i) w (tasks.set i (r, .await op k)) service) :
    Viewed limits v₀ depth live (op.run sv.py w).2 (tasks.set i (r, k (op.run sv.py w).1)) service := by
  have hlive' : live = none ∨ live = some i := by
    rw [hlive]
    split
    · exact .inl rfl
    · exact .inr rfl
  have hnow : (op.run sv.py w).2.now = w.now := congrArg Int.floor Op.run_clock
  have hif : (if op.awaited then none else some w.now) =
      if live = some i then some (op.run sv.py w).2.now else none := by
    rw [hlive, hnow]
    split <;> simp
  have hseq : w.queue.outbound.seq ≤ (op.run sv.py w).2.queue.outbound.seq := by
    by_cases hop : Mute op
    · rw [(mute_run hop sv.py w).1]
    · cases op with
      | enqueueOutbound => exact Nat.le_succ _
      | _ => exact absurd rfl hop
  intro hdepth
  obtain ⟨spots, audit, hist, requested, hrun, hseen⟩ := hv (by omega)
  have hstage := hseen.requests i r (.await op k) (by simp [hi])
  rw [if_pos rfl] at hstage
  have hle := depth_le w.queue
  obtain ⟨t', hperf, hstage'⟩ := stage_op sv limits (by omega) hstage
  rw [hif] at hstage'
  cases hperf with
  | mute hop =>
    obtain ⟨hout, hpause, hrec⟩ := mute_run hop sv.py w
    refine ⟨spots, audit, hist, requested, ?_, hseen.events, hseen.rows.trans hrec.symm, hseen.asked,
      hseen.actions, requests_set hlive' hseen.requests hstage' fun _ _ => rfl⟩
    have hdb : { (op.run sv.py w).2.queue with audit := audit } = { w.queue with audit := audit } := by
      simp only [hout, hpause]
    rw [Op.run_clock, hdb]
    exact hrun
  | @begins reply hop =>
    subst hop
    have hnew : (spots.items ++ [Task.enqueueReply reply])[spots.items.length]? =
        some (.enqueueReply reply) := List.getElem?_concat_length ..
    have hrun := shown_serve hnew rfl (shown_spawn rfl hrun)
    rw [List.set_append_right _ _ (le_refl _), Nat.sub_self] at hrun
    refine ⟨spots.add (.inr i) _, audit, hist, _, hrun, hseen.events, hseen.rows, hseen.asked, ?_, ?_⟩
    · intro c t ht
      rw [Spots.get?_add_of_ne (by simp)]
      exact hseen.actions c t ht
    · refine requests_set hlive' hseen.requests ?_ fun j hj => Spots.get?_add_of_ne (by simpa using hj)
      rw [Spots.get?_add_self]
      exact hstage'
  | @inserts t₀ t' origin row index ht hop hmove =>
    subst hop
    obtain ⟨n, hplace, hn⟩ := Spots.get?_eq_some.mp ht
    have hrun := shown_serve hn (hmove _ n) hrun
    refine ⟨spots.set n t', audit, _, requested, hrun, hseen.events, ?_, hseen.asked, ?_, ?_⟩
    · exact congrArg (row :: ·) hseen.rows
    · intro c t hc
      rw [Spots.get?_set_of_ne hplace (by simp)]
      exact hseen.actions c t hc
    · refine requests_set hlive' hseen.requests ?_ fun j hj =>
        Spots.get?_set_of_ne hplace (by simpa using hj)
      rw [Spots.get?_set_self hplace]
      exact hstage'

/-- Only the requests are others. -/
theorem Viewed.requests {tasks' : List (Request × Prog Unit)} {live' : Option Nat}
    (hv : Viewed limits v₀ depth live w tasks service)
    (hnew : ∀ spots : Spots (Nat ⊕ Nat) Task,
      (∀ i r m, tasks[i]? = some (r, m) →
        Stage depth (if live = some i then some w.now else none) m (spots.get? (.inr i))) →
      ∀ i r m, tasks'[i]? = some (r, m) →
        Stage depth (if live' = some i then some w.now else none) m (spots.get? (.inr i))) :
    Viewed limits v₀ depth live' w tasks' service := by
  intro hdepth
  obtain ⟨spots, audit, hist, requested, hrun, hseen⟩ := hv hdepth
  exact ⟨spots, audit, hist, requested, hrun, hseen.events, hseen.rows, hseen.asked, hseen.actions,
    hnew spots hseen.requests⟩

theorem viewed_request (hv : Viewed limits v₀ depth none w tasks service) (r : Request) :
    Viewed limits v₀ depth none w (tasks ++ [(r, r.prog sv)]) service := by
  refine hv.requests fun spots hold i r₁ m hi => ?_
  rw [List.getElem?_append] at hi
  split at hi
  · exact hold i r₁ m hi
  · cases List.eq_of_mem_singleton (List.mem_of_getElem? hi)
    exact .between (request_replies r)

theorem viewed_turn {p : Mailbox.Tasks} (hs : Pool.turn (Op.run sv.py) Op.awaited ⟨w, tasks⟩ i = some p)
    (hv : Viewed limits v₀ depth none w tasks service) :
    Viewed limits v₀ depth none p.state p.tasks service := by
  obtain ⟨r, op, k, hi, rfl⟩ := Pool.turn_eq_some hs
  obtain ⟨hlen, heq⟩ := List.getElem?_eq_some_iff.mp hi
  refine segment_keeps (P := fun m s => Viewed limits v₀ depth (some i) s (tasks.set i (r, m)) service)
    (Q := fun m s => Viewed limits v₀ depth none s (tasks.set i (r, m)) service) ?_ ?_ ?_ ?_
  · refine fun end_ s hv => hv.requests fun spots hold => ?_
    exact requests_set (.inl rfl) hold
      (Stage.finish (hold i r (.finish end_) (List.getElem?_set_self hlen))) fun _ _ => rfl
  · exact fun op k s hop hv => viewed_op (by rw [hop]; rfl) hlen hv
  · exact fun op k s hop hv => viewed_op (by rw [hop]; rfl) hlen hv
  · rw [← heq, List.set_getElem_self]
    refine hv.requests fun spots hold j r₁ m hj => ?_
    have hstage := hold j r₁ m hj
    split
    · exact hstage.of_none
    · exact hstage

theorem viewed_outside {w' : World} (hqueue : w'.queue = w.queue) (hclock : w'.clock = w.clock)
    (hrecord : w'.record = w.record) (hv : Viewed limits v₀ depth none w tasks service) :
    Viewed limits v₀ depth none w' tasks service := by
  unfold Viewed Sighted at hv ⊢
  rw [hqueue, hclock]
  intro hdepth
  obtain ⟨spots, audit, hist, requested, hrun, hseen⟩ := hv hdepth
  exact ⟨spots, audit, hist, requested, hrun, hseen.events, hrecord ▸ hseen.rows, hseen.asked,
    hseen.actions, hseen.requests⟩

theorem filter_quiet {evs hist : List Event} (h : ∀ e ∈ evs, e.insertedRow = none) :
    (evs ++ hist).filter (fun e => e.insertedRow = none) =
      evs ++ hist.filter (fun e => e.insertedRow = none) := by
  rw [List.filter_append, List.filter_eq_self.mpr]
  exact fun e he => decide_eq_true (h e he)

theorem filterMap_quiet {evs hist : List Event} (h : ∀ e ∈ evs, e.insertedRow = none) :
    (evs ++ hist).filterMap Event.insertedRow = hist.filterMap Event.insertedRow := by
  rw [List.filterMap_append, List.filterMap_eq_nil_iff.mpr h]
  rfl

/-! ### The worker and the dashboard -/

section Queue

variable {v : Service}

theorem sighted_worker {env : Env}
    (hs : serviceStep limits (service.on w) (.act (.worker env)) = some v)
    (h : Sighted limits v₀ depth none w tasks service) :
    Sighted limits v₀ depth none { w with clock := v.state.clock, queue := v.state.db } tasks v := by
  obtain ⟨spots, audit, hist, requested, hrun, hseen⟩ := h
  simp only [serviceStep] at hs
  split at hs
  · cases hs
  · next hlive =>
    have hlive : ¬ service.exited = true := hlive
    split at hs
    · next hhead =>
      cases hs
      have hhead : service.stopAt.isSome = true ∧
        service.state.worker.pc.atLoopHead w.clock = true := hhead
      refine ⟨spots, audit, hist, requested, hrun.tail (a := .act (.worker env)) trivial ?_,
        hseen.events, hseen.rows, hseen.asked, hseen.actions, hseen.requests⟩
      simp [serviceStep, shown, Service.on, hlive, hhead]
    · next hhead =>
      have hhead : ¬ (service.stopAt.isSome = true ∧
        service.state.worker.pc.atLoopHead w.clock = true) := hhead
      simp only [Bbs.step, Option.map_eq_some_iff] at hs
      obtain ⟨s, ⟨⟨worker, db, evs⟩, hstep, rfl⟩, rfl⟩ := hs
      have hstep : service.state.worker.step limits w.clock w.queue env = some (worker, db, evs) :=
        hstep
      have hevs := Worker.step_quiet hstep
      obtain ⟨audit', haudit⟩ := Worker.step_audit depth audit hstep
      refine ⟨spots, audit', evs ++ hist, requested, hrun.tail (a := .act (.worker env)) trivial ?_,
        ?_, ?_, hseen.asked, hseen.actions, hseen.requests⟩
      · simp [serviceStep, Bbs.step, shown, Service.on, hlive, hhead, haudit]
      · rw [filter_quiet hevs, hseen.events]
        rfl
      · rw [filterMap_quiet hevs, hseen.rows]

theorem sighted_spawn {t : Task} (ht : t.ofDashboard = true)
    (hs : serviceStep limits (service.on w) (.act (.spawn t)) = some v)
    (h : Sighted limits v₀ depth none w tasks service) :
    Sighted limits v₀ depth none { w with clock := v.state.clock, queue := v.state.db } tasks v := by
  obtain ⟨spots, audit, hist, requested, hrun, hseen⟩ := h
  simp only [serviceStep, Bbs.step, Option.map_eq_some_iff, Option.ite_none_right_eq_some,
    Option.some.injEq] at hs
  obtain ⟨s, ⟨hreq, rfl⟩, rfl⟩ := hs
  refine ⟨spots.add (.inl service.state.tasks.length) t, audit, hist, t :: requested,
    shown_spawn hreq hrun, hseen.events, hseen.rows, ?_, ?_, ?_⟩
  · rw [List.filter_cons_of_pos ht, hseen.asked]
    rfl
  · intro c t' hc
    have hc : (service.state.tasks ++ [t])[c]? = some t' := hc
    by_cases hlast : c = service.state.tasks.length
    · subst hlast
      rw [List.getElem?_concat_length] at hc
      cases hc
      exact ⟨ht, Spots.get?_add_self⟩
    · rw [Spots.get?_add_of_ne (by simpa using hlast)]
      have hlt : c < service.state.tasks.length := by
        have := (List.getElem?_eq_some_iff.mp hc).1
        rw [List.length_append, List.length_singleton] at this
        omega
      rw [List.getElem?_append_left hlt] at hc
      exact hseen.actions c t' hc
  · intro i r m hi
    rw [Spots.get?_add_of_ne (by simp)]
    exact hseen.requests i r m hi

theorem sighted_serve {c : Nat} (hs : serviceStep limits (service.on w) (.act (.serve c)) = some v)
    (h : Sighted limits v₀ depth none w tasks service) :
    Sighted limits v₀ depth none { w with clock := v.state.clock, queue := v.state.db } tasks v := by
  obtain ⟨spots, audit, hist, requested, hrun, hseen⟩ := h
  simp only [serviceStep, Bbs.step, Option.map_eq_some_iff, Option.bind_eq_some_iff] at hs
  obtain ⟨s, ⟨t, ht, ⟨t', st, evs⟩, hm, rfl⟩, rfl⟩ := hs
  have hm : t.move limits w.clock w.queue c = some (t', st, evs) := hm
  obtain ⟨hdash, hget⟩ := hseen.actions c t ht
  obtain ⟨n, hplace, hn⟩ := Spots.get?_eq_some.mp hget
  obtain ⟨hdash', hevs, -⟩ := (Task.move_cases hm).quiet hdash
  have hrun := shown_serve hn (Task.move_audit depth n audit hdash hm) hrun
  obtain ⟨audit', haudit⟩ := st.run_audit w.queue audit
  rw [haudit] at hrun
  refine ⟨spots.set n t', audit', evs ++ hist, requested, hrun, ?_, ?_, hseen.asked, ?_, ?_⟩
  · rw [filter_quiet hevs, hseen.events]
    rfl
  · rw [filterMap_quiet hevs, hseen.rows]
  · intro c' t₁ hc'
    by_cases hcc : c = c'
    · subst hcc
      have hset := List.getElem?_set_self (a := t') (List.getElem?_eq_some_iff.mp ht).1
      cases hset.symm.trans hc'
      exact ⟨hdash', Spots.get?_set_self hplace⟩
    · have hc' : service.state.tasks[c']? = some t₁ := (List.getElem?_set_ne hcc).symm.trans hc'
      rw [Spots.get?_set_of_ne hplace (by simpa using Ne.symm hcc)]
      exact hseen.actions c' t₁ hc'
  · intro i r m hi
    rw [Spots.get?_set_of_ne hplace (by simp)]
    exact hseen.requests i r m hi

theorem viewed_queue {b : ServiceAct} (hb : b.ofQueue = true)
    (hs : serviceStep limits (service.on w) b = some v)
    (hv : Viewed limits v₀ depth none w tasks service) :
    Viewed limits v₀ depth none { w with clock := v.state.clock, queue := v.state.db } tasks v := by
  have hseq : w.queue.outbound.seq ≤ v.state.db.outbound.seq := by
    cases serviceStep_cases hs with
    | worker _ _ hstep | spawn hstep | other hstep => exact hstep.seq_le
    | leave | stop | cancel | restart => exact le_refl _
  intro hdepth
  have h := hv (lt_of_le_of_lt (Nat.succ_le_succ hseq) hdepth)
  cases b with
  | act a =>
    cases a with
    | worker env => exact sighted_worker hs h
    | spawn t => exact sighted_spawn hb hs h
    | serve c => exact sighted_serve hs h
    | wait t =>
      obtain ⟨spots, audit, hist, requested, hrun, hseen⟩ := h
      simp only [serviceStep, Bbs.step, Option.map_eq_some_iff, Option.ite_none_right_eq_some,
        Option.some.injEq] at hs
      obtain ⟨s, ⟨ht, rfl⟩, rfl⟩ := hs
      have ht : w.clock ≤ t := ht
      refine ⟨spots, audit, hist, requested, hrun.tail (a := .act (.wait t)) trivial ?_, hseen.events,
        hseen.rows, hseen.asked, hseen.actions, hseen.requests⟩
      simp [serviceStep, Bbs.step, shown, Service.on, ht]
  | stop =>
    obtain ⟨spots, audit, hist, requested, hrun, hseen⟩ := h
    cases hs
    exact ⟨spots, audit, hist, requested, hrun.tail (a := .stop) trivial rfl, hseen.events,
      hseen.rows, hseen.asked, hseen.actions, hseen.requests⟩
  | cancel =>
    obtain ⟨spots, audit, hist, requested, hrun, hseen⟩ := h
    simp only [serviceStep, Option.bind_eq_some_iff, Option.ite_none_right_eq_some,
      Option.some.injEq] at hs
    obtain ⟨since, hstop, ⟨hlive, hlate⟩, rfl⟩ := hs
    have hstop : service.stopAt = some since := hstop
    have hlive : service.exited = false := hlive
    have hlate : since + drainTimeoutSeconds ≤ w.clock := hlate
    refine ⟨spots, audit, hist, requested, hrun.tail (a := .cancel) trivial ?_, hseen.events,
      hseen.rows, hseen.asked, hseen.actions, hseen.requests⟩
    simp [serviceStep, shown, Service.on, hstop, hlive, hlate, State.cancelWorker]
  | restart => cases hb

/-- A new process has no requests and no tasks. -/
theorem viewed_restart {w' : World} (hs : serviceStep limits (service.on w) .restart = some v)
    (hqueue : w'.queue = w.queue) (hclock : w'.clock = w.clock) (hrecord : w'.record = w.record)
    (hv : Viewed limits v₀ depth none w tasks service) : Viewed limits v₀ depth none w' [] v := by
  unfold Viewed Sighted at hv ⊢
  rw [hqueue, hclock]
  intro hdepth
  obtain ⟨spots, audit, hist, requested, hrun, hseen⟩ := hv hdepth
  cases hs
  refine ⟨.empty [], audit, hist, requested, hrun.tail (a := .restart) trivial rfl, hseen.events,
    hrecord ▸ hseen.rows, hseen.asked, fun c t hc => ?_, fun i r m hi => ?_⟩
  · cases List.getElem?_nil.symm.trans hc
  · cases List.getElem?_nil.symm.trans hi

end Queue

/-! ## Runs -/

section Runs

variable {h h' : Host} {a : HostAct}

theorem viewed_step (hs : step limits sv h a = some h')
    (hv : Viewed limits v₀ depth none h.tasks.state h.tasks.tasks h.service) :
    Viewed limits v₀ depth none h'.tasks.state h'.tasks.tasks h'.service := by
  cases a with
  | request r =>
    cases hs
    exact viewed_request hv r
  | turn i =>
    obtain ⟨p, hturn, rfl⟩ := Option.map_eq_some_iff.mp hs
    exact viewed_turn hturn hv
  | outside e =>
    cases e with
    | wait | queue => cases hs
    | _ =>
      cases hs
      exact viewed_outside (w := h.tasks.state) rfl rfl rfl hv
  | queue b =>
    obtain ⟨hb, hs⟩ := Option.ite_none_right_eq_some.mp hs
    obtain ⟨v, hstep, rfl⟩ := Option.map_eq_some_iff.mp hs
    exact viewed_queue hb hstep hv
  | restart =>
    cases hs
    exact viewed_restart (w := h.tasks.state) rfl rfl rfl rfl hv

theorem start_service (w : World) : ServiceStart (start w).service :=
  ⟨⟨rfl, rfl, rfl⟩, rfl, rfl, rfl, rfl⟩

theorem sighted_run {w : World} (hw : w.record = [])
    (hrun : Machine.Run (step limits sv) (fun _ _ => True) (start w) h) :
    Sighted limits (start w).service (h.tasks.state.queue.outbound.seq + 2) none h.tasks.state
      h.tasks.tasks h.service := by
  have hv : Viewed limits (start w).service (h.tasks.state.queue.outbound.seq + 2) none h.tasks.state
      h.tasks.tasks h.service := by
    refine hrun.invariant (P := fun h => Viewed limits (start w).service _ none h.tasks.state
      h.tasks.tasks h.service) (fun _ _ _ hv _ hs => viewed_step hs hv) fun _ => ?_
    refine ⟨.empty [], w.queue.audit, [], [], .refl, rfl, ?_, rfl, fun c t hc => ?_, fun i r m hi => ?_⟩
    · show [] = w.record.filterMap outboundRow
      rw [hw]
      rfl
    · cases List.getElem?_nil.symm.trans hc
    · cases List.getElem?_nil.symm.trans hi
  exact hv (Nat.lt_succ_self _)

/-- **The queue's view**: a run of the process is a run of the queue's own model, to the same clock,
tables, worker and pauses.  What that run inserts are the rows that the requests have enqueued, and
the rest of its history is the worker's and the dashboard's. -/
theorem queue_view {w : World} (hw : w.record = [])
    (hrun : Machine.Run (step limits sv) (fun _ _ => True) (start w) h) :
    ∃ depth audit tasks hist requested,
      ServiceRuns (limits.withDepth depth) (start w).service
        (shown h.tasks.state.clock { h.tasks.state.queue with audit := audit } h.service tasks hist
          requested) ∧
      hist.filter (fun e => e.insertedRow = none) = h.service.state.hist ∧
      hist.filterMap Event.insertedRow = h.tasks.state.record.filterMap outboundRow ∧
      requested.filter Task.ofDashboard = h.service.requested := by
  obtain ⟨spots, audit, hist, requested, hruns, hseen⟩ := sighted_run hw hrun
  exact ⟨_, audit, _, hist, requested, hruns, hseen.events, hseen.rows, hseen.asked⟩

/-- Somebody new says `hi`, is answered, and the answer is transmitted. -/
def answered : List HostAct :=
  .request (.inbound { pubkey := lit "aa", body := lit "hi", hops := some 0 }) ::
    (List.replicate 6 (.turn 0) ++ List.replicate 6 (.queue (.act (.worker { pick := some 1 }))))

theorem answered_run : ∃ h : Host, Machine.Run (step {} Process.asciiServices) (fun _ a => a ≠ .restart)
    (start (World.start 100)) h ∧ (h.tasks.state.record.filterMap outboundRow).length = 1 ∧
    h.service.state.hist.length = 2 := by
  obtain ⟨h, hrun, hp⟩ := Machine.exists_run (step {} Process.asciiServices)
    (fun _ a => match a with | .restart => false | _ => true)
    (p := fun h => decide ((h.tasks.state.record.filterMap outboundRow).length = 1 ∧
      h.service.state.hist.length = 2)) (s := start (World.start 100)) answered (by decide +kernel)
  rw [decide_eq_true_eq] at hp
  refine ⟨h, hrun.mono fun _ a ha heq => ?_, hp⟩
  subst heq
  cases ha

theorem queue_view_answered : ∃ (h : Host) (hist : List Event), h.service.state.hist.length = 2 ∧
    (h.tasks.state.record.filterMap outboundRow).length = 1 ∧
    hist.filter (fun e => e.insertedRow = none) = h.service.state.hist ∧
    hist.filterMap Event.insertedRow = h.tasks.state.record.filterMap outboundRow := by
  obtain ⟨h, hrun, hrec, hhist⟩ := answered_run
  obtain ⟨depth, audit, tasks, hist, requested, -, hevents, hrows, -⟩ :=
    queue_view (w := World.start 100) rfl (hrun.mono fun _ _ _ => trivial)
  exact ⟨h, hist, hhist, hrec, hevents, hrows⟩

/-! ## The requests' view -/

theorem queue_stmt {v v' : Service} {b : ServiceAct} (hb : b.ofQueue = true)
    (hs : ServiceStep limits v b v') (hdash : ∀ t ∈ v.state.tasks, t.ofDashboard = true) :
    (∀ t ∈ v'.state.tasks, t.ofDashboard = true) ∧ (v'.state.db = v.state.db ∨
      ∃ st : Stmt, v'.state.db = st.run v.state.db ∧ ∀ row, st ≠ .enqueueOutbound row) := by
  cases hs with
  | worker _ _ hstep =>
    refine ⟨?_, hstep.stmt.imp_right ?_⟩
    · cases hstep <;> exact hdash
    · rintro ⟨st, hdb, hissued, -⟩
      refine ⟨st, hdb, fun row hrow => ?_⟩
      subst hrow
      obtain ⟨call, hcall⟩ := hissued
      cases hcall
  | spawn hstep =>
    cases hstep with
    | spawn =>
      refine ⟨fun t ht => ?_, .inl rfl⟩
      rcases List.mem_append.mp ht with ht | ht
      · exact hdash t ht
      · rw [List.mem_singleton.mp ht]
        exact hb
  | other hstep hworker hspawn =>
    cases hstep with
    | wait => exact ⟨hdash, .inl rfl⟩
    | quiet | returns | raises | raisesAfter => exact absurd rfl (hworker _)
    | spawn => exact absurd rfl (hspawn _)
    | serve ht hm =>
      obtain ⟨hdash', -, hst⟩ := hm.quiet (hdash _ (List.mem_of_getElem? ht))
      refine ⟨fun t ht => ?_, .inr ⟨_, rfl, hst⟩⟩
      rcases List.mem_or_eq_of_mem_set ht with ht | rfl
      · exact hdash t ht
      · exact hdash'
  | leave | stop | cancel => exact ⟨hdash, .inl rfl⟩
  | restart => cases hb

/-- The requests see time pass, and then a statement. -/
theorem run_outside {w : World} {tasks : List (Request × Prog Unit)} {clock : ℚ} {db : Db}
    (hclock : w.clock ≤ clock) (hdb : db = w.queue ∨
      ∃ st : Stmt, db = st.run w.queue ∧ ∀ row, st ≠ .enqueueOutbound row) :
    Machine.Run (Mailbox.step sv) (fun _ _ => True) ⟨w, tasks⟩
      ⟨{ w with clock := clock, queue := db }, tasks⟩ := by
  have hwait : Mailbox.step sv ⟨w, tasks⟩ (.outside (.wait clock)) =
      some ⟨{ w with clock := clock }, tasks⟩ := by
    simp [Mailbox.step, Pool.step, Outside.run, hclock]
  have hrun : Machine.Run (Mailbox.step sv) (fun _ _ => True) _ _ := .tail .refl trivial hwait
  rcases hdb with rfl | ⟨st, rfl, hst⟩
  · exact hrun
  · refine hrun.tail (a := .outside (.queue st)) trivial ?_
    cases st with
    | enqueueOutbound row => exact absurd rfl (hst row)
    | _ => rfl

/-- Only queue actions and listings are under way in the dashboard. -/
def Tended (h : Host) : Prop := ∀ t ∈ h.service.state.tasks, t.ofDashboard = true

/-- A step is a few steps of the requests, for which the rest is outside. -/
theorem requests_step (hd : h.Tended) (ha : a ≠ .restart) (hs : step limits sv h a = some h') :
    h'.Tended ∧ Machine.Run (Mailbox.step sv) (fun _ _ => True) h.tasks h'.tasks := by
  cases a with
  | request r =>
    cases hs
    exact ⟨hd, Machine.Run.tail .refl (a := .spawn r) trivial rfl⟩
  | turn i =>
    obtain ⟨p, hturn, rfl⟩ := Option.map_eq_some_iff.mp hs
    exact ⟨hd, Pool.run_turn _ _ hturn⟩
  | outside e =>
    cases e with
    | wait | queue => cases hs
    | reload cfg =>
      cases hs
      exact ⟨hd, Machine.Run.tail .refl (a := .outside (.reload cfg)) trivial rfl⟩
    | news feeds items =>
      cases hs
      exact ⟨hd, Machine.Run.tail .refl (a := .outside (.news feeds items)) trivial rfl⟩
    | weather answer =>
      cases hs
      exact ⟨hd, Machine.Run.tail .refl (a := .outside (.weather answer)) trivial rfl⟩
    | paths inboundPath =>
      cases hs
      exact ⟨hd, Machine.Run.tail .refl (a := .outside (.paths inboundPath)) trivial rfl⟩
  | queue b =>
    obtain ⟨hb, hs⟩ := Option.ite_none_right_eq_some.mp hs
    obtain ⟨v, hstep, rfl⟩ := Option.map_eq_some_iff.mp hs
    have hcases := serviceStep_cases hstep
    obtain ⟨hd', hdb⟩ := queue_stmt hb hcases hd
    exact ⟨hd', run_outside hcases.clock_le hdb⟩
  | restart => exact absurd rfl ha

theorem tended_run (hrun : Machine.Run (step limits sv) (fun _ _ => True) h h') (hd : h.Tended) :
    h'.Tended := by
  refine hrun.invariant (fun _ a _ hd _ hs => ?_) hd
  by_cases ha : a = .restart
  · subst ha
    cases hs
    exact fun t ht => absurd ht List.not_mem_nil
  · exact (requests_step hd ha hs).1

/-- **The requests' view**: from any state of the process and until its next restart, a run of it is a
run of the requests in which the worker and the dashboard are outside. -/
theorem requests_view {w : World}
    (hreach : Machine.Run (step limits sv) (fun _ _ => True) (start w) h)
    (hrun : Machine.Run (step limits sv) (fun _ a => a ≠ .restart) h h') :
    Machine.Run (Mailbox.step sv) (fun _ _ => True) h.tasks h'.tasks := by
  have hd : h.Tended := tended_run hreach fun t ht => absurd ht List.not_mem_nil
  have hboth : h'.Tended ∧ Machine.Run (Mailbox.step sv) (fun _ _ => True) h.tasks h'.tasks := by
    refine hrun.invariant (P := fun h' => h'.Tended ∧
      Machine.Run (Mailbox.step sv) (fun _ _ => True) h.tasks h'.tasks) ?_ ⟨hd, .refl⟩
    rintro t a u ⟨ht, hruns⟩ ha hs
    obtain ⟨hu, hmore⟩ := requests_step ht ha hs
    exact ⟨hu, hruns.trans hmore⟩
  exact hboth.2

theorem requests_view_answered : ∃ h : Host, (h.tasks.state.record.filterMap outboundRow).length = 1 ∧
    Machine.Run (Mailbox.step Process.asciiServices) (fun _ _ => True) ⟨World.start 100, []⟩ h.tasks := by
  obtain ⟨h, hrun, hrec, -⟩ := answered_run
  exact ⟨h, hrec, requests_view .refl hrun⟩

end Runs

end Host

end Bbs
