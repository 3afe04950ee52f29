import MeshcoreBbs.Lib.Fair
import MeshcoreBbs.Mailbox

/-!
# The event pump (`__main__.py`, `health_state.py`)

`_event_pump` takes the events of the transport from a queue, one by one, and awaits the handler
of each; what a handler raises is logged and forgotten.  Jobs and dashboard requests take turns with
it.  Every run of the pump is a run of the tasks of the mailbox module (`tasks_of_pump`), in which
messages are handled one at a time, in their order (`events_in_order`), and none is left
(`events_handled`).

`put` and `taken` are there for the properties: the events put in the queue and those taken out,
with the time.
-/

namespace Bbs

inductive TransportEventType
  | connected
  | disconnected
  | contactMsgRecv
  | newContact
  | advertisement
  | meshActivity
  deriving DecidableEq, Repr

structure TransportEvent where
  type : TransportEventType
  inbound : Option InboundMessage := none
  pubkey : Option Pubkey := none
  reconnected : Bool := false
  deriving DecidableEq

namespace TransportEvent

variable (event : TransportEvent)

/-- What the pump awaits for the event. -/
def request : Option Request :=
  match event.type, event.inbound with
  | .contactMsgRecv, some inbound => some (.inbound inbound)
  | .newContact, _ => some (.meshActivity event.pubkey)
  | .advertisement, _ => some (.meshActivity event.pubkey)
  | .meshActivity, _ => some (.meshActivity event.pubkey)
  | _, _ => none

/-- The event is a message for the dispatcher. -/
def isMessage : Bool := event.type = .contactMsgRecv && event.inbound.isSome

def isReconnect : Bool := event.type = .connected && event.reconnected

end TransportEvent

structure HealthState where
  transportConnected : Bool := false
  lastEventAt : ℚ := 0

/-- The counters that the pump increments. -/
structure Metrics where
  messagesIn : Nat := 0
  serialReconnects : Nat := 0

def HealthState.after (state : HealthState) (now : ℚ) (event : TransportEvent) : HealthState where
  lastEventAt := now
  transportConnected :=
    match event.type with
    | .connected => true
    | .disconnected => false
    | _ => state.transportConnected

def Metrics.after (metrics : Metrics) (event : TransportEvent) : Metrics where
  messagesIn := if event.isMessage then metrics.messagesIn + 1 else metrics.messagesIn
  serialReconnects :=
    if event.isReconnect then metrics.serialReconnects + 1 else metrics.serialReconnects

/-- Only the pump makes these requests. -/
def Request.ofPump : Request → Bool
  | .inbound _ => true
  | .meshActivity _ => true
  | _ => false

/-- The process; `handling` is the task that the pump awaits. -/
structure Pump where
  tasks : Mailbox.Tasks
  events : List TransportEvent := []
  handling : Option Nat := none
  health : HealthState
  metrics : Option Metrics := none
  put : List TransportEvent := []
  taken : List (TransportEvent × ℚ) := []

inductive PumpAct
  | put (event : TransportEvent)
  | pump
  | resume (i : Nat)
  | spawn (r : Request)
  | outside (e : Outside)
  deriving Inhabited

namespace Pump

open Coroutine (Shorter wellFounded_shorter)

variable (sv : Services) (p : Pump)

/-- `queue.get` has returned, up to the first await of the handler. -/
def take (event : TransportEvent) (events : List TransportEvent) : Pump where
  tasks :=
    match event.request with
    | some r => { p.tasks with tasks := p.tasks.tasks ++ [(r, r.prog sv)] }
    | none => p.tasks
  events := events
  handling := event.request.map fun _ => p.tasks.tasks.length
  health := p.health.after p.tasks.state.clock event
  metrics := p.metrics.map fun metrics => metrics.after event
  put := p.put
  taken := p.taken ++ [(event, p.tasks.state.clock)]

def step : PumpAct → Option Pump
  | .put event => some { p with events := p.events ++ [event], put := p.put ++ [event] }
  | .pump =>
    match p.handling with
    | none =>
      match p.events with
      | [] => none
      | event :: events => some (p.take sv event events)
    | some i =>
      match p.tasks.tasks[i]? with
      | some (_, .finish _) => some { p with handling := none }
      | _ => (Mailbox.step sv p.tasks (.resume i)).map fun tasks => { p with tasks := tasks }
  | .resume i =>
    if p.handling = some i then none
    else (Mailbox.step sv p.tasks (.resume i)).map fun tasks => { p with tasks := tasks }
  | .spawn r =>
    if r.ofPump then none
    else (Mailbox.step sv p.tasks (.spawn r)).map fun tasks => { p with tasks := tasks }
  | .outside e =>
    (Mailbox.step sv p.tasks (.outside e)).map fun tasks => { p with tasks := tasks }

/-- The process is ready at `clock`, the radio connected. -/
def start (w : World) (metrics : Option Metrics) : Pump where
  tasks := ⟨w, []⟩
  health := { transportConnected := true, lastEventAt := w.clock }
  metrics := metrics

inductive Step : PumpAct → Pump → Prop
  | put {event} : Step (.put event) { p with events := p.events ++ [event], put := p.put ++ [event] }
  | take {event events} (hidle : p.handling = none) (hevents : p.events = event :: events) :
      Step .pump (p.take sv event events)
  | done {i r res} (hhandling : p.handling = some i)
      (hi : p.tasks.tasks[i]? = some (r, .finish res)) : Step .pump { p with handling := none }
  | handle {i r op k tasks} (hhandling : p.handling = some i)
      (hi : p.tasks.tasks[i]? = some (r, .await op k))
      (hs : Mailbox.step sv p.tasks (.resume i) = some tasks) : Step .pump { p with tasks := tasks }
  | other {a tasks} (hs : Mailbox.step sv p.tasks a = some tasks)
      (hresume : ∀ i, a = .resume i → p.handling ≠ some i)
      (hspawn : ∀ r, a = .spawn r → r.ofPump = false) {b} (hb : b ≠ .pump)
      (hturn : ∀ i, a = .resume i → b = .resume i) : Step b { p with tasks := tasks }

variable {sv p} {p' : Pump} {a : PumpAct}

theorem step_cases (h : p.step sv a = some p') : p.Step sv a p' := by
  cases a with
  | put event =>
    cases h
    exact .put
  | pump =>
    simp only [step] at h
    split at h
    · next hidle =>
      split at h
      · cases h
      · next event events hevents =>
        cases h
        exact .take hidle hevents
    · next i hhandling =>
      split at h
      · next r res hi =>
        cases h
        exact .done hhandling hi
      · next hnot =>
        rw [Option.map_eq_some_iff] at h
        obtain ⟨tasks, hs, rfl⟩ := h
        cases Pool.step_cases hs with
        | resume hi => exact .handle hhandling hi hs
  | resume i =>
    simp only [step] at h
    split at h
    · cases h
    · next hne =>
      rw [Option.map_eq_some_iff] at h
      obtain ⟨tasks, hs, rfl⟩ := h
      exact .other hs (by simpa using hne) (by simp) (by simp) (by simp)
  | spawn r =>
    simp only [step] at h
    split at h
    · cases h
    · next hr =>
      rw [Option.map_eq_some_iff] at h
      obtain ⟨tasks, hs, rfl⟩ := h
      exact .other hs (by simp) (by simpa using hr) (by simp) (by simp)
  | outside e =>
    rw [step, Option.map_eq_some_iff] at h
    obtain ⟨tasks, hs, rfl⟩ := h
    exact .other hs (by simp) (by simp) (by simp) (by simp)

/-! ## Messages are handled one at a time, in their order -/

/-- The requests that the pump has made. -/
def requests (p : Pump) : List Request := (p.tasks.tasks.map Prod.fst).filter Request.ofPump

structure InOrder (sv : Services) (w : World) (p : Pump) : Prop where
  tasks : Machine.Run (Mailbox.step sv) (fun _ _ => True) ⟨w, []⟩ p.tasks
  queue : p.put = p.taken.map Prod.fst ++ p.events
  order : p.requests = (p.taken.map Prod.fst).filterMap TransportEvent.request
  ended : ∀ i r m, p.tasks.tasks[i]? = some (r, m) → r.ofPump = true →
    p.handling = some i ∨ ∃ res, m = .finish res
  /-- What is awaited is the last request. -/
  awaited : ∀ i, p.handling = some i → (∃ r m, p.tasks.tasks[i]? = some (r, m) ∧ r.ofPump = true) ∧
    ∀ j r m, p.tasks.tasks[j]? = some (r, m) → r.ofPump = true → j ≤ i

variable {w : World}

theorem ofPump_of_request {event : TransportEvent} {r : Request} (h : event.request = some r) :
    r.ofPump = true := by
  unfold TransportEvent.request at h
  split at h <;> cases h <;> rfl

/-- A step of the tasks by the pump's handler or by others. -/
theorem InOrder.of_tasks (h : InOrder sv w p) {a : Pool.Act Request Outside} {tasks : Mailbox.Tasks}
    (hs : Mailbox.step sv p.tasks a = some tasks) (hspawn : ∀ r, a = .spawn r → r.ofPump = false) :
    InOrder sv w { p with tasks := tasks } := by
  have hstep := Pool.step_cases hs
  -- a request of the pump was there before, and is at its end or was not
  have hold : ∀ (i : Nat) (r : Request) (m : Prog Unit), tasks.tasks[i]? = some (r, m) → r.ofPump = true →
      p.tasks.tasks[i]? = some (r, m) ∨ ∃ op k, p.tasks.tasks[i]? =
        some (r, .await op k) := by
    intro i r m hi hr
    rcases hstep.task hi with hi | ha | ⟨-, hawait⟩
    · exact .inl hi
    · rw [hspawn r ha] at hr
      cases hr
    · exact .inr hawait
  refine ⟨h.tasks.tail trivial hs, h.queue, ?_, fun i r m hi hr => ?_, fun i hi => ⟨?_, ?_⟩⟩
  · rw [← h.order, requests, requests, hstep.labels, List.filter_append]
    cases a with
    | spawn r => simp [hspawn r rfl]
    | resume i => simp
    | outside e => simp
  · rcases hold i r m hi hr with hi | ⟨op, k, hi⟩
    · exact h.ended i r m hi hr
    · rcases h.ended i r _ hi hr with hawait | ⟨res, heq⟩
      · exact .inl hawait
      · cases heq
  · obtain ⟨⟨r, m, hm, hr⟩, -⟩ := h.awaited i hi
    obtain ⟨m', hm'⟩ := hstep.task_stays hm
    exact ⟨r, m', hm', hr⟩
  · intro j r m hj hr
    rcases hold j r m hj hr with hj | ⟨op, k, hj⟩
    · exact (h.awaited i hi).2 j r m hj hr
    · exact (h.awaited i hi).2 j r _ hj hr

theorem inOrder_take (h : InOrder sv w p) (hidle : p.handling = none) {event : TransportEvent}
    {events : List TransportEvent} (hevents : p.events = event :: events) :
    InOrder sv w (p.take sv event events) := by
  have hqueue : p.put = (p.taken ++ [(event, p.tasks.state.clock)]).map Prod.fst ++ events := by
    rw [h.queue, hevents]
    simp
  have hdone : ∀ (i : Nat) (r : Request) (m : Prog Unit), p.tasks.tasks[i]? = some (r, m) → r.ofPump = true →
      ∃ res, m = .finish res := by
    intro i r m hi hr
    rcases h.ended i r m hi hr with hi | hres
    · rw [hidle] at hi
      cases hi
    · exact hres
  cases hreq : event.request with
  | none =>
    refine ⟨?_, hqueue, ?_, fun i r m hi hr => ?_, fun i hi => ?_⟩
    · simp only [take, hreq]
      exact h.tasks
    · simp only [take, hreq, requests, List.map_append, List.filterMap_append]
      simpa [hreq, requests] using h.order
    · simp only [take, hreq] at hi
      exact .inr (hdone i r m hi hr)
    · simp only [take, hreq] at hi
      cases hi
  | some r =>
    have hr := ofPump_of_request hreq
    refine ⟨?_, hqueue, ?_, fun i r' m hi hr' => ?_, fun i hi => ?_⟩
    · simp only [take, hreq]
      have hspawn : Mailbox.step sv p.tasks (.spawn r) =
          some ⟨p.tasks.state, p.tasks.tasks ++ [(r, r.prog sv)]⟩ := rfl
      exact h.tasks.tail trivial hspawn
    · simp only [take, hreq, requests, List.map_append, List.filterMap_append, List.filter_append]
      rw [← h.order]
      simp [requests, hreq, hr]
    · simp only [take, hreq] at hi ⊢
      rw [List.getElem?_append] at hi
      split at hi
      · exact .inr (hdone i r' m hi hr')
      · next hlen =>
        left
        rw [List.getElem?_singleton] at hi
        split at hi
        · simp only [Option.map_some, Option.some.injEq]
          omega
        · cases hi
    · simp only [take, hreq, Option.map_some, Option.some.injEq] at hi ⊢
      subst hi
      refine ⟨⟨r, r.prog sv, by simp, hr⟩, fun j r' m hj _ => ?_⟩
      have := (List.getElem?_eq_some_iff.mp hj).1
      simp only [List.length_append, List.length_singleton] at this
      omega

theorem inOrder_step (h : InOrder sv w p) (hs : p.Step sv a p') : InOrder sv w p' := by
  cases hs with
  | put =>
    refine ⟨h.tasks, ?_, h.order, h.ended, h.awaited⟩
    show p.put ++ _ = _
    rw [h.queue, List.append_assoc]
  | take hidle hevents => exact inOrder_take h hidle hevents
  | @done i r res hhandling hi =>
    refine ⟨h.tasks, h.queue, h.order, fun j r' m hj hr' => .inr ?_, fun _ hj => by cases hj⟩
    rcases h.ended j r' m hj hr' with hj' | hres
    · cases hhandling.symm.trans hj'
      cases hi.symm.trans hj
      exact ⟨res, rfl⟩
    · exact hres
  | handle _ _ hs => exact h.of_tasks hs (by simp)
  | other hs hresume hspawn => exact h.of_tasks hs hspawn

theorem inOrder_start (sv : Services) (w : World) (metrics : Option Metrics) :
    InOrder sv w (start w metrics) := by
  refine ⟨.refl, rfl, rfl, fun i r m hi => ?_, fun i hi => ?_⟩
  · simp [start] at hi
  · cases hi

/-- **The pump handles messages one at a time, in their order.**  In every run, whatever else takes
turns with it and whatever its handlers raise, the events put in the queue are those taken out
followed by those that wait; the requests for messages and mesh activity among the tasks are those
of the events taken, in that order; all of them are at their end but, possibly, the last one, which
the pump awaits; and the run of the tasks is one of the process whose requests take turns. -/
theorem events_in_order {metrics : Option Metrics}
    (hrun : Machine.Run (step sv) (fun _ _ => True) (start w metrics) p) :
    p.put = p.taken.map Prod.fst ++ p.events ∧
    p.requests = (p.taken.map Prod.fst).filterMap TransportEvent.request ∧
    (∀ i r m, p.tasks.tasks[i]? = some (r, m) → r.ofPump = true → (∃ res, m = .finish res) ∨
      p.handling = some i ∧
        ∀ j r' m', p.tasks.tasks[j]? = some (r', m') → r'.ofPump = true → j ≤ i) ∧
    Machine.Run (Mailbox.step sv) (fun _ _ => True) ⟨w, []⟩ p.tasks := by
  have h : InOrder sv w p := hrun.invariant (fun _ _ _ h _ hs => inOrder_step h (step_cases hs))
    (inOrder_start sv w metrics)
  refine ⟨h.queue, h.order, fun i r m hi hr => ?_, h.tasks⟩
  rcases h.ended i r m hi hr with hawait | hres
  · exact .inr ⟨hawait, (h.awaited i hawait).2⟩
  · exact .inl hres

/-- A message from `pk`, as the transport puts it in the queue. -/
def messageFrom (pk : Pubkey) (body : String) : TransportEvent where
  type := .contactMsgRecv
  inbound := some { pubkey := pk, body := lit body, hops := some 0 }

theorem events_in_order_two : ∃ p,
    Machine.Run (step Process.asciiServices) (fun _ _ => True) (start (World.start 100) none) p ∧
    p.taken.map Prod.fst = [messageFrom (lit "aa") "hi"] ∧
    p.events = [messageFrom (lit "bb") "hi"] ∧
    p.put = [messageFrom (lit "aa") "hi", messageFrom (lit "bb") "hi"] ∧
    p.requests.length = 1 := by
  obtain ⟨p, hrun, hp⟩ := Machine.exists_run (step Process.asciiServices) (fun _ _ => true)
    (p := fun p => decide (p.taken.map Prod.fst = [messageFrom (lit "aa") "hi"] ∧
      p.events = [messageFrom (lit "bb") "hi"]))
    (s := start (World.start 100) none)
    [.put (messageFrom (lit "aa") "hi"), .put (messageFrom (lit "bb") "hi"), .pump, .pump]
    (by decide +kernel)
  rw [decide_eq_true_eq] at hp
  have hrun : Machine.Run (step Process.asciiServices) (fun _ _ => True) _ p :=
    hrun.mono fun _ _ _ => trivial
  obtain ⟨hqueue, horder, -⟩ := events_in_order hrun
  refine ⟨p, hrun, hp.1, hp.2, ?_, ?_⟩
  · rw [hqueue, hp.1, hp.2]
    rfl
  · rw [horder, hp.1]
    rfl

/-! ## No event is left -/

/-- What the pump has to do before it takes the next event. -/
def left (p : Pump) : Nat × Prog Unit :=
  match p.handling with
  | none => (0, .finish none)
  | some i => (1, ((p.tasks.tasks[i]?).map Prod.snd).getD (.finish none))

/-- The way of the pump to the end of the first `n` events. -/
def toGo (n : Nat) (p : Pump) : Nat × Nat × Prog Unit := (n - p.taken.length, p.left)

/-- The pump is at the end of the first `n` events. -/
def Handled (n : Nat) (p : Pump) : Prop := p.handling = none ∧ n ≤ p.taken.length

theorem toGo_pump {n : Nat} (hs : p.Step sv .pump p') (hn : ¬ Handled n p) :
    Shorter (toGo n p') (toGo n p) := by
  cases hs with
  | @take event events hidle hevents =>
    have hlt : p.taken.length < n := by
      by_contra hle
      exact hn ⟨hidle, by omega⟩
    refine .left _ _ ?_
    simp only [take, List.length_append, List.length_singleton]
    omega
  | done hhandling hi =>
    refine .right _ ?_
    simp only [left, hhandling]
    exact .left _ _ Nat.zero_lt_one
  | @handle i r op k tasks hhandling hi hs =>
    refine .right _ ?_
    simp only [left, hhandling, hi]
    refine .right _ ?_
    cases Pool.step_cases hs with
    | resume hi' =>
      cases hi.symm.trans hi'
      rw [List.getElem?_set_self (List.getElem?_eq_some_iff.mp hi).1]
      exact .after op k _
  | other _ _ _ hb => exact absurd rfl hb

/-- What others do leaves the pump's way as it is. -/
theorem toGo_other {n : Nat} (h : InOrder sv w p) (hs : p.Step sv a p') (ha : a ≠ .pump) :
    toGo n p' = toGo n p := by
  cases hs with
  | put => rfl
  | take | done | handle => exact absurd rfl ha
  | other hs hresume =>
    simp only [toGo, left]
    cases hhandling : p.handling with
    | none => rfl
    | some i =>
      obtain ⟨⟨r, m, hi, -⟩, -⟩ := h.awaited i hhandling
      have hne : ∀ j, _ = Pool.Act.resume j → j ≠ i := fun j hj hij =>
        hresume j hj (hij ▸ hhandling)
      have hi' := (Pool.step_cases hs).task_waits (fun heq => hne i heq rfl) hi
      simp only [hi, hi']

theorem pump_enabled {n : Nat} (h : InOrder sv w p) (hput : n ≤ p.put.length)
    (hn : ¬ Handled n p) : Machine.Enabled (step sv) (· = .pump) p := by
  refine ⟨.pump, rfl, ?_⟩
  simp only [step]
  cases hhandling : p.handling with
  | none =>
    have hlt : p.taken.length < n := by
      by_contra hle
      exact hn ⟨hhandling, by omega⟩
    rw [h.queue, List.length_append, List.length_map] at hput
    cases hevents : p.events with
    | nil =>
      rw [hevents, List.length_nil] at hput
      omega
    | cons event events => rfl
  | some i =>
    obtain ⟨⟨r, m, hi, -⟩, -⟩ := h.awaited i hhandling
    cases m with
    | finish res => simp [hi]
    | await op k => simp [hi, Mailbox.step, Pool.step]

theorem Step.appends (hs : p.Step sv a p') : p.put <+: p'.put := by
  cases hs with
  | put => exact List.prefix_append _ _
  | _ => exact List.prefix_refl _

section Executions

variable {e : Machine.Execution (step sv)} {metrics : Option Metrics}

theorem inOrder_at (h0 : e.state 0 = start w metrics) (n : Nat) : InOrder sv w (e.state n) :=
  e.always (h0 ▸ inOrder_start sv w metrics)
    (fun k _ h => inOrder_step h (step_cases (e.next k))) (Nat.zero_le n)

theorem put_mono {m n : Nat} (h : m ≤ n) : (e.state m).put <+: (e.state n).put := by
  refine e.always (P := fun p => (e.state m).put <+: p.put) (List.prefix_refl _) (fun k _ hk => ?_) h
  exact hk.trans (step_cases (e.next k)).appends

/-- Every message taken is at its end. -/
def AllEnded (p : Pump) : Prop :=
  ∀ (i : Nat) (r : Request) (m : Prog Unit), p.tasks.tasks[i]? = some (r, m) → r.ofPump = true →
    ∃ res, m = .finish res

/-- **Every event is handled.**  In every run without end in which the pump is not held up for ever,
whatever else takes turns with it, there comes a time at which all events that were put in the queue
are taken out and the handlers of their messages are at their ends. -/
theorem events_handled (h0 : e.state 0 = start w metrics) (hfair : e.WeaklyFair (· = .pump))
    (n : Nat) : ∃ m, n ≤ m ∧ (e.state n).put <+: (e.state m).taken.map Prod.fst ∧
      (e.state m).AllEnded := by
  obtain ⟨m, hm, hidle, hlen⟩ := hfair.reaches (m := n) (μ := toGo (e.state n).put.length)
    (g := Handled (e.state n).put.length) wellFounded_shorter
    (fun k hk hn => pump_enabled (inOrder_at h0 k) (put_mono hk).length_le hn)
    (fun k hk hn => by
      by_cases ha : e.act k = .pump
      · exact .inr (toGo_pump (ha ▸ step_cases (e.next k)) hn)
      · exact .inl (toGo_other (inOrder_at h0 k) (step_cases (e.next k)) ha))
    (fun k hk hn ha => toGo_pump (ha ▸ step_cases (e.next k)) hn)
  have h := inOrder_at h0 m
  refine ⟨m, hm, ?_, fun i r t hi hr => ?_⟩
  · refine List.prefix_of_prefix_length_le (put_mono hm) ?_ (by simpa using hlen)
    rw [h.queue]
    exact List.prefix_append _ _
  · rcases h.ended i r t hi hr with hi | hres
    · rw [hidle] at hi
      cases hi
    · exact hres

end Executions

theorem events_handled_one : ∃ e : Machine.Execution (step Process.asciiServices),
    e.state 0 = start (World.start 100) none ∧
    (e.state 1).put = [messageFrom (lit "aa") "hi"] ∧ ∃ m, 1 ≤ m ∧
      [messageFrom (lit "aa") "hi"] <+: (e.state m).taken.map Prod.fst ∧ (e.state m).AllEnded := by
  -- a message comes, then the pump goes on whenever it can, and more messages when it cannot
  obtain ⟨e, h0, -, hok⟩ := Machine.Execution.exists_of_strategy
    (step Process.asciiServices) (I := fun _ _ => True)
    (s := start (World.start 100) none)
    (R := fun n p a => (n = 0 → a = .put (messageFrom (lit "aa") "hi")) ∧
      (n ≠ 0 → (step Process.asciiServices p .pump).isSome → a = .pump)) trivial (by
      intro n p _
      by_cases hp : n ≠ 0 ∧ (step Process.asciiServices p .pump).isSome
      · obtain ⟨p', hp'⟩ := Option.isSome_iff_exists.mp hp.2
        exact ⟨.pump, p', ⟨fun h => absurd h hp.1, fun _ _ => rfl⟩, hp', trivial⟩
      · exact ⟨.put (messageFrom (lit "aa") "hi"), _,
          ⟨fun _ => rfl, fun hn h => absurd ⟨hn, h⟩ hp⟩, rfl, trivial⟩)
  have hput : (e.state 1).put = [messageFrom (lit "aa") "hi"] := by
    have hstep := e.next 0
    rw [(hok 0).1 rfl, h0] at hstep
    rw [← Option.some.inj hstep]
    rfl
  have hfair : e.WeaklyFair (· = .pump) := by
    intro n henabled
    obtain ⟨a, rfl, hsome⟩ := henabled (n + 1) (Nat.le_succ n)
    exact ⟨n + 1, Nat.le_succ n, (hok (n + 1)).2 (Nat.succ_ne_zero n) hsome⟩
  obtain ⟨m, hm, hprefix, hended⟩ := events_handled h0 hfair 1
  exact ⟨e, h0, hput, m, hm, hput ▸ hprefix, hended⟩

/-! ## What the health endpoint says -/

/-- `HEALTH_HEARTBEAT_THRESHOLD`. -/
def healthHeartbeatThreshold : ℚ := 600

/-- `_health_problems`. -/
def healthProblems (state : HealthState) (now : ℚ) : List Text :=
  (if state.transportConnected then [] else [lit "transport_disconnected"]) ++
    if healthHeartbeatThreshold < now - state.lastEventAt ∧ 0 < state.lastEventAt then
      [lit "no_recent_events"]
    else []

/-- The last of these events about the link, if any, was its loss. -/
def LinkLost (events : List TransportEvent) : Prop :=
  ∃ older event newer, events = older ++ event :: newer ∧ event.type = .disconnected ∧
    ∀ e ∈ newer, e.type ≠ .connected

structure HealthBooks (w : World) (metrics : Option Metrics) (p : Pump) : Prop where
  link : p.health.transportConnected = false ↔ LinkLost (p.taken.map Prod.fst)
  /-- The time of the last event taken, or of the start. -/
  last : w.clock ≤ p.health.lastEventAt ∧ p.health.lastEventAt ≤ p.tasks.state.clock ∧
    (∀ q ∈ p.taken, q.2 ≤ p.health.lastEventAt) ∧
    (p.health.lastEventAt = w.clock ∨ ∃ q ∈ p.taken, q.2 = p.health.lastEventAt)
  metrics : p.metrics = metrics.map fun m =>
    { messagesIn := m.messagesIn + (p.taken.map Prod.fst).countP TransportEvent.isMessage
      serialReconnects := m.serialReconnects +
        (p.taken.map Prod.fst).countP TransportEvent.isReconnect }

theorem linkLost_append {events : List TransportEvent} {event : TransportEvent} :
    LinkLost (events ++ [event]) ↔
      event.type = .disconnected ∨ event.type ≠ .connected ∧ LinkLost events := by
  constructor
  · rintro ⟨older, e, newer, heq, he, hnewer⟩
    rcases List.eq_nil_or_concat newer with rfl | ⟨newer, e', rfl⟩
    · obtain ⟨-, heq⟩ := List.append_inj' heq rfl
      cases heq
      exact .inl he
    · rw [List.concat_eq_append, ← List.cons_append, ← List.append_assoc] at heq
      obtain ⟨rfl, heq'⟩ := List.append_inj' heq rfl
      cases heq'
      exact .inr ⟨hnewer event (by simp), older, e, newer, rfl, he, fun x hx => hnewer x (by simp [hx])⟩
  · rintro (he | ⟨hne, older, e, newer, rfl, he, hnewer⟩)
    · exact ⟨events, event, [], rfl, he, by simp⟩
    · refine ⟨older, e, newer ++ [event], by simp, he, fun x hx => ?_⟩
      rcases List.mem_append.mp hx with hx | hx
      · exact hnewer x hx
      · rw [List.mem_singleton.mp hx]
        exact hne

/-- The tasks go on, and no event is taken. -/
theorem HealthBooks.of_tasks {metrics : Option Metrics} (h : HealthBooks w metrics p)
    {a : Pool.Act Request Outside} {tasks : Mailbox.Tasks}
    (hs : Mailbox.step sv p.tasks a = some tasks) : HealthBooks w metrics { p with tasks := tasks } := by
  obtain ⟨hstart, hle, htaken, hlast⟩ := h.last
  exact ⟨h.link, ⟨hstart, hle.trans (Mailbox.clock_le hs), htaken, hlast⟩, h.metrics⟩

theorem healthBooks_step {metrics : Option Metrics} (h : HealthBooks w metrics p)
    (hs : p.Step sv a p') : HealthBooks w metrics p' := by
  cases hs with
  | put => exact ⟨h.link, h.last, h.metrics⟩
  | done => exact ⟨h.link, h.last, h.metrics⟩
  | handle _ _ hs | other hs => exact h.of_tasks hs
  | @take event events hidle hevents =>
    obtain ⟨hstart, hle, htaken, hlast⟩ := h.last
    have hclock : (p.take sv event events).tasks.state.clock = p.tasks.state.clock := by
      simp only [take]
      split <;> rfl
    refine ⟨?_, ⟨hstart.trans hle, hclock.ge, fun q hq => ?_, .inr ⟨(event, p.tasks.state.clock), ?_, rfl⟩⟩, ?_⟩
    · show (HealthState.after _ _ event).transportConnected = false ↔ _
      rw [show (p.take sv event events).taken.map Prod.fst = p.taken.map Prod.fst ++ [event] by
        simp [take], linkLost_append, ← h.link]
      unfold HealthState.after
      cases htype : event.type <;> simp
    · rcases List.mem_append.mp hq with hq | hq
      · exact (htaken q hq).trans hle
      · rw [List.mem_singleton.mp hq]
        exact le_refl _
    · simp [take]
    · show Option.map (fun m : Metrics => m.after event) p.metrics = _
      rw [h.metrics, Option.map_map]
      cases metrics with
      | none => rfl
      | some m =>
        simp only [Option.map_some, Function.comp_apply, Metrics.after, take, List.map_append,
          List.map_cons, List.map_nil, List.countP_append, List.countP_singleton, Option.some.injEq,
          Metrics.mk.injEq]
        constructor
        · split <;> omega
        · split <;> omega

theorem healthBooks_start (w : World) (metrics : Option Metrics) :
    HealthBooks w metrics (start w metrics) where
  link := by simp [start, LinkLost]
  last := ⟨le_refl _, le_refl _, by simp [start], .inl rfl⟩
  metrics := by cases metrics <;> simp [start]

/-- **The health endpoint reports the link and the silence.**  In every run, the endpoint reports
`transport_disconnected` if and only if the last event about the link that the pump has taken was
its loss, and `no_recent_events` if and only if more than ten minutes have passed since the start
and since every event taken; the counters are the numbers of messages and reconnects taken. -/
theorem health_reports {metrics : Option Metrics} (hstart : 0 < w.clock)
    (hrun : Machine.Run (step sv) (fun _ _ => True) (start w metrics) p) (now : ℚ) :
    (lit "transport_disconnected" ∈ healthProblems p.health now ↔
      LinkLost (p.taken.map Prod.fst)) ∧
    (lit "no_recent_events" ∈ healthProblems p.health now ↔
      w.clock + healthHeartbeatThreshold < now ∧
        ∀ q ∈ p.taken, q.2 + healthHeartbeatThreshold < now) ∧
    p.metrics = metrics.map fun m =>
      { messagesIn := m.messagesIn + (p.taken.map Prod.fst).countP TransportEvent.isMessage
        serialReconnects := m.serialReconnects +
          (p.taken.map Prod.fst).countP TransportEvent.isReconnect } := by
  have h : HealthBooks w metrics p :=
    hrun.invariant (fun _ _ _ h _ hs => healthBooks_step h (step_cases hs))
      (healthBooks_start w metrics)
  have hne : lit "no_recent_events" ≠ lit "transport_disconnected" := by decide
  have hne' : lit "transport_disconnected" ≠ lit "no_recent_events" := hne.symm
  obtain ⟨hfirst, -, htaken, hlast⟩ := h.last
  refine ⟨?_, ?_, h.metrics⟩
  · rw [← h.link, healthProblems]
    split <;> split <;> simp_all
  · have hmem : lit "no_recent_events" ∈ healthProblems p.health now ↔
        healthHeartbeatThreshold < now - p.health.lastEventAt := by
      have hpos : 0 < p.health.lastEventAt := lt_of_lt_of_le hstart hfirst
      rw [healthProblems]
      split <;> split <;> simp_all
    rw [hmem]
    constructor
    · intro hlate
      refine ⟨by linarith, fun q hq => ?_⟩
      have := htaken q hq
      linarith
    · rintro ⟨hlate, hall⟩
      rcases hlast with heq | ⟨q, hq, heq⟩
      · rw [heq]
        linarith
      · have := hall q hq
        linarith

theorem health_reports_lost : ∃ p,
    Machine.Run (step Process.asciiServices) (fun _ _ => True)
      (start (World.start 100) (some {})) p ∧
    p.taken.map Prod.fst = [{ type := .disconnected }] ∧
    lit "transport_disconnected" ∈ healthProblems p.health 800 ∧
    lit "no_recent_events" ∈ healthProblems p.health 800 := by
  obtain ⟨p, hrun, hp⟩ := Machine.exists_run (step Process.asciiServices) (fun _ _ => true)
    (p := fun p => decide (p.taken = [({ type := .disconnected }, 100)]))
    (s := start (World.start 100) (some {})) [.put { type := .disconnected }, .pump]
    (by decide +kernel)
  rw [decide_eq_true_eq] at hp
  have hrun : Machine.Run (step Process.asciiServices) (fun _ _ => True) _ p :=
    hrun.mono fun _ _ _ => trivial
  obtain ⟨hlost, hsilent, -⟩ := health_reports (by norm_num [World.start]) hrun 800
  refine ⟨p, hrun, by rw [hp]; rfl, hlost.mpr ?_, hsilent.mpr ⟨?_, ?_⟩⟩
  · rw [hp]
    exact ⟨[], { type := .disconnected }, [], rfl, rfl, by simp⟩
  · norm_num [World.start, healthHeartbeatThreshold]
  · rw [hp]
    simp only [List.mem_singleton, forall_eq]
    norm_num [healthHeartbeatThreshold]

end Pump

end Bbs
