import MeshcoreBbs.Transport

/-!
# From the callbacks to the dispatcher

What a callback's task may come to is `Meant`; each task is in one place, and what it has come to,
it was meant to (`callbacks_accounted`).  `Node` is the transport with the pump at the other end of
the queue: what the pump has handed to the dispatcher are the messages and the mesh activity of
ended tasks, each once, and in the order of the callbacks except for tasks that had to ask for the
contacts (`handled_in_order`).
-/

namespace Bbs

namespace Transport

variable {py : Py}

/-! ## What tasks come to -/

/-- The sender of the message, as the library finds it. -/
def senderOf (mc : Mc) (p : ContactMsg) : Option (Option Contact) :=
  mc.getContactByKeyPrefix (orText p.pubkeyPrefix [])

/-- The library had no contact for the sender while the radio was up. -/
def Unknown (s : State) (p : ContactMsg) : Prop :=
  ∃ mc ∈ s.links, mc.isConnected = true ∧ senderOf mc p = some none

/-- The library answered so, or there was none. -/
def Seen (s : State) (mc : Option Mc) : Prop := ∀ m ∈ mc, m ∈ s.links

/-- `pk` is the node whose activity the task reports. -/
def Heard (py : Py) (s : State) (pk : Text) : Task → Prop
  | .emitMeshActivity pubkey => pk = pubkey
  | .handleChannelMsg p => ∃ mc, Seen s mc ∧ pk = (originPubkeyFromFloodPayload py p mc).getD []
  | .handleRxLogData p => ∃ mc, Seen s mc ∧ pk = (pubkeyFromRxLog py p mc).getD []
  | _ => False

/-- What a task may come to, if it has waited (`late`) or not. -/
inductive Meant (py : Py) (s : State) (late : Bool) : Task → Outcome → Prop
  | message {p mc contact} (hmc : mc ∈ s.links) (hcontact : senderOf mc p = some (some contact))
      (hself : (inboundOf py (some mc) contact p).pubkey ≠ s.selfPubkey)
      (hlate : late = true → Unknown s p) : Meant py s late (.handleContactMsg p)
        (.put { type := .contactMsgRecv, inbound := some (inboundOf py (some mc) contact p) })
  | loopback {p mc contact} (hmc : mc ∈ s.links) (hcontact : senderOf mc p = some (some contact))
      (hself : (inboundOf py (some mc) contact p).pubkey = s.selfPubkey) :
      Meant py s late (.handleContactMsg p) .ignored
  /-- nobody was found, and the contacts were asked for unless the radio was down -/
  | unresolved {p mc} (hmc : mc ∈ s.links) (hcontact : senderOf mc p = some none)
      (hasked : mc.isConnected = true → late = true) : Meant py s late (.handleContactMsg p) .unresolved
  | stopped {p} (hmc : s.mc = none) : Meant py s late (.handleContactMsg p) .noCompanion
  | raised {p} (h : s.mc = none ∨ ∃ mc ∈ s.links, senderOf mc p = none) :
      Meant py s late (.handleContactMsg p) .raised
  | put {event} : Meant py s late (.put event) (.put event)
  | activity {t pk} (hpk : Heard py s pk t) (hne : py.lower pk ≠ []) (hself : py.lower pk ≠ s.selfPubkey) :
      Meant py s late t (.put { type := .meshActivity, pubkey := some (py.lower pk) })
  | quiet {t pk} (hpk : Heard py s pk t) (h : py.lower pk = [] ∨ py.lower pk = s.selfPubkey) :
      Meant py s late t .ignored
  | contacts : Meant py s late .getContacts .done

/-- No callback creates the task. -/
def Within (t : Task) : Prop := (∃ p, t = .refreshed p) ∨ t = .gotContacts

/-- What a task may have become. -/
inductive Became (s : State) (late : Bool) : Task → Task → Prop
  | fresh {t} (h : late = false) : Became s late t t
  | refreshed {p} (h : late = true) (hp : Unknown s p) : Became s late (.handleContactMsg p) (.refreshed p)
  | gotContacts (h : late = true) : Became s late .getContacts .gotContacts

variable {s s' : State}

/-- What stays as it is, or only grows. -/
structure Known (s s' : State) : Prop where
  links : s.links <+: s'.links
  selfPubkey : s'.selfPubkey = s.selfPubkey
  stopped : s.mc = none → s'.mc = none

theorem Known.unknown (h : Known s s') {p : ContactMsg} (hp : Unknown s p) : Unknown s' p := by
  obtain ⟨mc, hmc, hp⟩ := hp
  exact ⟨mc, h.links.subset hmc, hp⟩

theorem Known.heard (h : Known s s') {pk : Text} {t : Task} (hpk : Heard py s pk t) :
    Heard py s' pk t := by
  cases t with
  | emitMeshActivity pubkey => exact hpk
  | handleChannelMsg p =>
    obtain ⟨mc, hmc, hpk⟩ := hpk
    exact ⟨mc, fun m hm => h.links.subset (hmc m hm), hpk⟩
  | handleRxLogData p =>
    obtain ⟨mc, hmc, hpk⟩ := hpk
    exact ⟨mc, fun m hm => h.links.subset (hmc m hm), hpk⟩
  | _ => exact hpk.elim

theorem Became.mono (h : Known s s') {late : Bool} {t u : Task} (hb : Became s late t u) :
    Became s' late t u := by
  cases hb with
  | fresh hlate => exact .fresh hlate
  | refreshed hlate hp => exact .refreshed hlate (h.unknown hp)
  | gotContacts hlate => exact .gotContacts hlate

theorem Meant.mono (h : Known s s') {late : Bool} {t : Task} {out : Outcome}
    (hm : Meant py s late t out) : Meant py s' late t out := by
  cases hm with
  | message hmc hcontact hself hlate =>
    exact .message (h.links.subset hmc) hcontact (h.selfPubkey ▸ hself) fun hl => h.unknown (hlate hl)
  | loopback hmc hcontact hself =>
    exact .loopback (h.links.subset hmc) hcontact (h.selfPubkey ▸ hself)
  | unresolved hmc hcontact hasked => exact .unresolved (h.links.subset hmc) hcontact hasked
  | stopped hmc => exact .stopped (h.stopped hmc)
  | raised hr =>
    rcases hr with hmc | ⟨mc, hmc, hr⟩
    · exact .raised (.inl (h.stopped hmc))
    · exact .raised (.inr ⟨mc, h.links.subset hmc, hr⟩)
  | put => exact .put
  | activity hpk hne hself => exact .activity (h.heard hpk) hne (h.selfPubkey ▸ hself)
  | quiet hpk hq => exact .quiet (h.heard hpk) (h.selfPubkey ▸ hq)
  | contacts => exact .contacts

theorem known_moves (hs : EventLoop.Moves (turn py) (ext py) s s') : Known s s' := by
  rcases hs with ⟨t, rfl⟩ | ⟨c, hc⟩
  · have hturn := turn_state py s t
    generalize (turn py t s).state = s' at hturn
    cases hturn with
    | same => exact ⟨List.prefix_rfl, rfl, fun h => h⟩
    | put => exact ⟨List.prefix_rfl, rfl, fun h => h⟩
    | received inbound => exact ⟨by simp, by simp, by simp⟩
  · cases ext_state py hc with
    | library mc hmc =>
      refine ⟨List.prefix_append _ _, rfl, fun h => ?_⟩
      simp [h] at hmc
    | reconnected => exact ⟨List.prefix_rfl, rfl, fun h => h⟩
    | stop => exact ⟨List.prefix_rfl, rfl, fun _ => rfl⟩
    | resolve => exact ⟨by simp, by simp, by simp⟩

theorem seen_moves (h : Seen s s.mc) (hs : EventLoop.Moves (turn py) (ext py) s s') :
    Seen s' s'.mc := by
  rcases hs with ⟨t, rfl⟩ | ⟨c, hc⟩
  · have hturn := turn_state py s t
    generalize (turn py t s).state = s' at hturn
    cases hturn with
    | same => exact h
    | put => exact h
    | received inbound => simpa [Seen] using h
  · cases ext_state py hc with
    | library mc => simp [Seen]
    | reconnected => exact h
    | stop => simp [Seen]
    | resolve => simpa [Seen] using h

theorem meant_received (h : Seen s s.mc) {late : Bool} {mc : Mc} (hmc : s.mc = some mc)
    {contact : Contact} {p : ContactMsg} (hcontact : senderOf mc p = some (some contact))
    (hlate : late = true → Unknown s p) {out : Outcome}
    (hturn : received py contact p s = .ends s' out) : Meant py s late (.handleContactMsg p) out := by
  have hlink : mc ∈ s.links := h mc hmc
  simp only [received, hmc] at hturn
  split at hturn
  · next hself =>
    cases hturn
    exact .loopback hlink hcontact hself
  · next hself =>
    cases hturn
    exact .message hlink hcontact hself hlate

theorem meant_emit {late : Bool} {pk : Text} {t : Task} (hpk : Heard py s pk t) {out : Outcome}
    (hturn : emitMeshActivity py pk s = .ends s' out) : Meant py s late t out := by
  simp only [emitMeshActivity] at hturn
  split at hturn
  · next hq =>
    cases hturn
    exact .quiet hpk hq
  · next hne =>
    simp only [not_or] at hne
    cases hturn
    exact .activity hpk hne.1 hne.2

/-- What a task comes to when it ends in its first turn. -/
theorem meant_first (h : Seen s s.mc) {t : Task} (hwithin : ¬ Within t) {out : Outcome}
    (hturn : turn py t s = .ends s' out) : Meant py s false t out := by
  cases t with
  | handleContactMsg p =>
    simp only [turn] at hturn
    split at hturn
    · next hmc =>
      cases hturn
      exact .stopped hmc
    · next mc hmc =>
      have hlink : mc ∈ s.links := h mc hmc
      split at hturn
      · next hraise =>
        cases hturn
        exact .raised (.inr ⟨mc, hlink, hraise⟩)
      · next contact hcontact => exact meant_received h hmc hcontact (by simp) hturn
      · next hnone =>
        split at hturn
        · cases hturn
        · next hdown =>
          cases hturn
          exact .unresolved hlink hnone fun hup => absurd hup hdown
  | refreshed p => exact absurd (.inl ⟨p, rfl⟩) hwithin
  | put event =>
    cases hturn
    exact .put
  | emitMeshActivity pubkey =>
    have hpk : Heard py s pubkey (.emitMeshActivity pubkey) := rfl
    exact meant_emit hpk hturn
  | handleChannelMsg p =>
    have hpk : Heard py s _ (.handleChannelMsg p) := ⟨s.mc, h, rfl⟩
    exact meant_emit hpk hturn
  | handleRxLogData p =>
    have hpk : Heard py s _ (.handleRxLogData p) := ⟨s.mc, h, rfl⟩
    exact meant_emit hpk hturn
  | getContacts => cases hturn
  | gotContacts => exact absurd (.inr rfl) hwithin

/-- What `_handle_contact_msg` comes to after the contacts were asked for. -/
theorem meant_refreshed (h : Seen s s.mc) {p : ContactMsg} (hp : Unknown s p) {out : Outcome}
    (hturn : turn py (.refreshed p) s = .ends s' out) : Meant py s true (.handleContactMsg p) out := by
  simp only [turn] at hturn
  cases hmc : s.mc with
  | none =>
    simp only [hmc, Option.bind_none] at hturn
    cases hturn
    exact .raised (.inl hmc)
  | some mc =>
    have hlink : mc ∈ s.links := h mc hmc
    simp only [hmc, Option.bind_some] at hturn
    split at hturn
    · next hraise =>
      cases hturn
      exact .raised (.inr ⟨mc, hlink, hraise⟩)
    · next contact hcontact => exact meant_received h hmc hcontact (fun _ => hp) hturn
    · next hnone =>
      cases hturn
      exact .unresolved hlink hnone fun _ => rfl

theorem received_ends (contact : Contact) (p : ContactMsg) (s : State) (rest : Task) :
    received py contact p s ≠ .waits s' rest := by
  simp only [received]
  split <;> simp [put]

theorem emit_ends (pk : Text) (s : State) (rest : Task) : emitMeshActivity py pk s ≠ .waits s' rest := by
  simp only [emitMeshActivity]
  split <;> simp [put]

/-- Only a message from nobody known, and the refresh after a reconnect, wait. -/
theorem waits_cases {u rest : Task} (hturn : turn py u s = .waits s' rest) :
    s' = s ∧ ((∃ p mc, u = .handleContactMsg p ∧ rest = .refreshed p ∧ s.mc = some mc ∧
      mc.isConnected = true ∧ senderOf mc p = some none) ∨ u = .getContacts ∧ rest = .gotContacts) := by
  cases u with
  | handleContactMsg p =>
    simp only [turn] at hturn
    split at hturn
    · cases hturn
    · next mc hmc =>
      split at hturn
      · cases hturn
      · exact absurd hturn (received_ends _ _ _ _)
      · next hnone =>
        split at hturn
        · next hup =>
          cases hturn
          exact ⟨rfl, .inl ⟨p, mc, rfl, rfl, hmc, hup, hnone⟩⟩
        · cases hturn
  | refreshed p =>
    simp only [turn] at hturn
    split at hturn
    · cases hturn
    · exact absurd hturn (received_ends _ _ _ _)
    · cases hturn
  | put event => cases hturn
  | emitMeshActivity pubkey => exact absurd hturn (emit_ends _ _ _)
  | handleChannelMsg p => exact absurd hturn (emit_ends _ _ _)
  | handleRxLogData p => exact absurd hturn (emit_ends _ _ _)
  | getContacts =>
    cases hturn
    exact ⟨rfl, .inr ⟨rfl, rfl⟩⟩
  | gotContacts => cases hturn

theorem rules : EventLoop.Loop.Rules (fun s => Seen s s.mc) Became
    (fun s late t out => Within t ∨ Meant py s late t out) (turn py) (ext py) where
  invariant h hs := seen_moves h hs
  create _ _ := .fresh rfl
  waits {s late t u s' rest} h hb hturn := by
    obtain ⟨rfl, hcases⟩ := waits_cases hturn
    rcases hcases with ⟨p, mc, rfl, rfl, hmc, hup, hnone⟩ | ⟨rfl, rfl⟩
    · cases hb with
      | fresh => exact .refreshed rfl ⟨mc, h mc hmc, hup, hnone⟩
    · cases hb with
      | fresh => exact .gotContacts rfl
  ends {s late t u s' out} h hb hturn := by
    have hknown : Known s s' := known_moves (.inl ⟨u, by rw [hturn]; rfl⟩ : EventLoop.Moves (turn py) (ext py) s s')
    by_cases hwithin : Within t
    · exact .inl hwithin
    · refine .inr (Meant.mono hknown ?_)
      cases hb with
      | fresh hlate => exact hlate ▸ meant_first h hwithin hturn
      | refreshed hlate hp => exact hlate ▸ meant_refreshed h hp hturn
      | gotContacts =>
        cases hturn
        exact .contacts
  stable hs late t := by
    have hknown := known_moves hs
    exact ⟨fun u hb => hb.mono hknown, fun out hm => hm.imp_right (Meant.mono hknown)⟩

theorem not_within {t : Task} (h : OfCallback py t) : ¬ Within t := by
  obtain ⟨mc, c, ht⟩ := h
  rintro (⟨p, rfl⟩ | rfl)
  · cases c <;> simp [Callback.tasks] at ht
  · cases c <;> simp [Callback.tasks] at ht

/-! ## Runs of the transport -/

/-- What the task has put in the queue. -/
def Outcome.event : Outcome → Option TransportEvent
  | .put event => some event
  | _ => none

theorem received_events (contact : Contact) (p : ContactMsg) {out : Outcome}
    (hturn : received py contact p s = .ends s' out) : s'.events = s.events ++ out.event.toList := by
  simp only [received] at hturn
  split at hturn
  · cases hturn
    simp [Outcome.event]
  · cases hturn
    simp [Outcome.event]

theorem emit_events {pk : Text} {out : Outcome} (hturn : emitMeshActivity py pk s = .ends s' out) :
    s'.events = s.events ++ out.event.toList := by
  simp only [emitMeshActivity] at hturn
  split at hturn
  · cases hturn
    simp [Outcome.event]
  · cases hturn
    rfl

theorem ends_events {u : Task} {out : Outcome} (hturn : turn py u s = .ends s' out) :
    s'.events = s.events ++ out.event.toList := by
  cases u with
  | handleContactMsg p =>
    simp only [turn] at hturn
    split at hturn
    · cases hturn
      simp [Outcome.event]
    · split at hturn
      · cases hturn
        simp [Outcome.event]
      · exact received_events _ _ hturn
      · split at hturn
        · cases hturn
        · cases hturn
          simp [Outcome.event]
  | refreshed p =>
    simp only [turn] at hturn
    split at hturn
    · cases hturn
      simp [Outcome.event]
    · exact received_events _ _ hturn
    · cases hturn
      simp [Outcome.event]
  | put event =>
    cases hturn
    rfl
  | emitMeshActivity pubkey => exact emit_events hturn
  | handleChannelMsg p => exact emit_events hturn
  | handleRxLogData p => exact emit_events hturn
  | getContacts => cases hturn
  | gotContacts =>
    cases hturn
    simp [Outcome.event]

/-- What holds of the loop in every run. -/
structure Books (py : Py) (l : Loop) : Prop where
  kept : l.Kept
  follows : l.Follows (fun s => Seen s s.mc) Became fun s late t out =>
    Within t ∨ Meant py s late t out
  created : ∀ t ∈ l.created, OfCallback py t
  /-- Only the supervisor puts anything else in the queue. -/
  queue : l.state.events.filter (·.type ≠ .connected) =
    (l.ended.filterMap fun e => e.val.event).filter (·.type ≠ .connected)

variable {l l' : Loop}

theorem books_step (h : Books py l) {a : EventLoop.Act Task Ext}
    (ha : ∀ t, a = .create t → OfCallback py t) (hs : l.Step (turn py) (ext py) a l') : Books py l' := by
  refine ⟨h.kept.step hs, h.follows.step rules hs, ?_, ?_⟩
  · cases hs with
    | @create t =>
      intro u hu
      rcases List.mem_append.mp hu with hu | hu
      · exact h.created u hu
      · rw [List.mem_singleton.mp hu]
        exact ha t rfl
    | _ => exact h.created
  · cases hs with
    | create => exact h.queue
    | waits hready hturn =>
      obtain ⟨rfl, -⟩ := waits_cases hturn
      exact h.queue
    | ends hready hturn =>
      show List.filter _ _ = _
      rw [ends_events hturn, List.filter_append, h.queue]
      simp only [List.filterMap_append, List.filter_append]
      congr 1
    | wake => exact h.queue
    | outside hext =>
      cases ext_state py hext with
      | library => exact h.queue
      | reconnected =>
        simp only [List.filter_append]
        rw [h.queue]
        exact List.append_nil _
      | stop => exact h.queue
      | resolve =>
        simp only [State.learn_events]
        exact h.queue

theorem books_start (mc : Mc) (selfPubkey : Pubkey) : Books py (start mc selfPubkey) where
  kept := EventLoop.Loop.kept_start _
  follows := EventLoop.Loop.follows_start (by simp [Seen])
  created := by simp [start]
  queue := rfl

variable {mc : Mc} {selfPubkey : Pubkey}

theorem books_of_run (hrun : LoopRun py l l') (h : Books py l) : Books py l' :=
  hrun.invariant (fun _ _ _ h ha hs => books_step h ha (EventLoop.Loop.step_cases hs)) h

/-- **Every callback comes to one end, and for a reason.**  In every run, whatever the library
answers, reports and how long it takes, each task that a callback created is in one place: ready,
waiting or ended.  What has ended has come to what it was meant to: a message is put in the queue
as sent by the contact that the library found, which is not the BBS, and dropped only if there is no
contact, the radio being down or the contacts having been asked for, if it is from the BBS itself,
after the end of the transport, or if the library raised.  Apart from news of the link, the queue
holds what the tasks put in it.  A task that did not wait ends before all that were created
later. -/
theorem callbacks_accounted
    (hrun : Machine.Run (step py) (fun _ _ => True) (start mc selfPubkey) l) :
    l.ids.Perm (List.range l.created.length) ∧
    (∀ e ∈ l.ended, ∃ t, l.created[e.id]? = some t ∧ OfCallback py t ∧
      Meant py l.state e.late t e.val) ∧
    l.state.events.filter (·.type ≠ .connected) =
      (l.ended.filterMap fun e => e.val.event).filter (·.type ≠ .connected) ∧
    l.ended.Pairwise fun a b => b.late = false → a.id < b.id := by
  have h : Books py l := books_of_run (loop_of_run hrun) (books_start mc selfPubkey)
  refine ⟨h.kept.places, fun e he => ?_, h.queue, h.kept.ended⟩
  obtain ⟨t, ht, hm⟩ := h.follows.ended e he
  have hcallback := h.created t (List.mem_of_getElem? ht)
  exact ⟨t, ht, hcallback, hm.resolve_left (not_within hcallback)⟩

/-- It knows one contact. -/
def knowsCc : Mc where
  getContactByKeyPrefix keyPrefix :=
    some (if keyPrefix = lit "cc" then some { publicKey := some (.str (lit "cc")) } else none)

/-- It knows everybody. -/
def knowsAll : Mc where
  getContactByKeyPrefix keyPrefix := some (some { publicKey := some (.str keyPrefix) })

def messageOf (keyPrefix text : String) : ContactMsg where
  pubkeyPrefix := some (lit keyPrefix)
  text := some (lit text)

/-- Two messages come, and the contact of the first is there only later. -/
def twoMessages : List Act :=
  [.callback (.onContactMsg (messageOf "aa" "first")), .callback (.onContactMsg (messageOf "cc" "second")),
    .run, .run, .outside (.library knowsAll), .wake 0, .run]

theorem callbacks_accounted_two : ∃ l,
    Machine.Run (step asciiPy) (fun _ _ => True) (start knowsCc (lit "bb")) l ∧
    l.created.length = 2 ∧ l.ended.map (fun e => (e.id, e.late)) = [(1, false), (0, true)] ∧
    l.ids.Perm (List.range 2) := by
  obtain ⟨l, hrun, hp⟩ := Machine.exists_run (step asciiPy) (fun _ _ => true)
    (p := fun l => decide (l.created.length = 2 ∧
      l.ended.map (fun e => (e.id, e.late)) = [(1, false), (0, true)]))
    (s := start knowsCc (lit "bb")) twoMessages (by decide +kernel)
  rw [decide_eq_true_eq] at hp
  have hrun : Machine.Run (step asciiPy) (fun _ _ => True) _ l := hrun.mono fun _ _ _ => trivial
  exact ⟨l, hrun, hp.1, hp.2, hp.1 ▸ (callbacks_accounted hrun).1⟩

/-- A message for the dispatcher is one that a task has handled. -/
theorem message_of_meant {s : State} {late : Bool} {t : Task} (ht : OfCallback py t) {out : Outcome}
    (hm : Meant py s late t out) {m : InboundMessage}
    (hout : out.event.bind TransportEvent.request = some (.inbound m)) :
    ∃ p mc contact, t = .handleContactMsg p ∧ mc ∈ s.links ∧ senderOf mc p = some (some contact) ∧
      m = inboundOf py (some mc) contact p ∧ m.pubkey ≠ s.selfPubkey ∧ (late = true → Unknown s p) := by
  cases hm with
  | @message p mc contact hmc hcontact hself hlate =>
    simp only [Outcome.event, Option.bind_some, TransportEvent.request, Option.some.injEq,
      Request.inbound.injEq] at hout
    subst hout
    exact ⟨p, mc, contact, rfl, hmc, hcontact, rfl, hself, hlate⟩
  | @put event =>
    rw [Outcome.event, Option.bind_some] at hout
    have hnone : event.inbound = none := by
      obtain ⟨mc, c, hc⟩ := ht
      cases c with
      | onConnected reconnected =>
        simp only [Callback.tasks, List.mem_cons] at hc
        rcases hc with hc | hc
        · cases hc
          rfl
        · split at hc <;> simp at hc
      | _ =>
        simp only [Callback.tasks, List.mem_singleton] at hc
        cases hc
        try rfl
    simp only [TransportEvent.request, hnone] at hout
    split at hout <;> simp_all
  | activity => simp [Outcome.event, TransportEvent.request] at hout
  | _ => simp [Outcome.event] at hout

end Transport

/-! ## The transport and the pump -/

/-- The process from the library's callbacks to the dispatcher. -/
structure Node where
  loop : Transport.Loop
  pump : Pump

inductive NodeAct
  | transport (a : Transport.Act)
  | pump (a : PumpAct)

namespace Node

open Transport

/-- What a step of the transport has put in the queue is there for the pump. -/
def transfer (p : Pump) (events : List TransportEvent) : Pump :=
  { p with events := p.events ++ events, put := p.put ++ events }

def step (py : Py) (sv : Services) (n : Node) : NodeAct → Option Node
  | .transport a =>
    (Transport.step py n.loop a).map fun loop =>
      { loop := loop
        pump := transfer n.pump (loop.state.events.drop n.loop.state.events.length) }
  | .pump a =>
    match a with
    | .put _ => none
    | a => (n.pump.step sv a).map fun pump => { n with pump := pump }

def start (mc : Mc) (selfPubkey : Pubkey) (w : World) (metrics : Option Metrics) : Node where
  loop := Transport.start mc selfPubkey
  pump := Pump.start w metrics

/-- What the ended tasks have for the dispatcher, in the order in which they ended. -/
def asked (n : Node) : List (EventLoop.Entry Request) :=
  n.loop.ended.filterMap fun e =>
    (e.val.event.bind TransportEvent.request).map fun r => ⟨e.id, e.late, r⟩

variable {py : Py} {sv : Services} {mc : Mc} {selfPubkey : Pubkey} {w : World}
  {metrics : Option Metrics} {n n' : Node} {a : NodeAct}

theorem events_extended {l l' : Loop} {b : Transport.Act} (hs : Transport.step py l b = some l') :
    l.state.events <+: l'.state.events := by
  have hrun : Machine.Run (Transport.step py) (fun _ _ => True) l l' := .tail .refl trivial hs
  refine state_of_run (P := fun s => l.state.events <+: s.events) (fun s s' h hmoves => ?_) hrun
    List.prefix_rfl
  refine h.trans ?_
  rcases hmoves with ⟨t, rfl⟩ | ⟨c, hc⟩
  · have hturn := turn_state py s t
    generalize (turn py t s).state = s' at hturn
    cases hturn with
    | same => exact List.prefix_rfl
    | put => exact List.prefix_append _ _
    | received inbound => simp
  · cases ext_state py hc with
    | library => exact List.prefix_rfl
    | reconnected => exact List.prefix_append _ _
    | stop => exact List.prefix_rfl
    | resolve => simp

theorem run_transfer (p : Pump) (events : List TransportEvent) :
    Machine.Run (Pump.step sv) (fun _ _ => True) p (transfer p events) := by
  induction events generalizing p with
  | nil => simpa [transfer] using Machine.Run.refl
  | cons event events ih =>
    have hput : Pump.step sv p (.put event) = some (transfer p [event]) := rfl
    have hfirst : Machine.Run (Pump.step sv) (fun _ _ => True) p (transfer p [event]) :=
      .tail .refl trivial hput
    have hrest := ih (transfer p [event])
    simp only [transfer, List.append_assoc, List.singleton_append] at hrest
    exact hfirst.trans hrest

theorem put_step {p p' : Pump} {b : PumpAct} (hput : ∀ event, b ≠ .put event)
    (hs : p.Step sv b p') : p'.put = p.put := by
  cases hs with
  | put => exact absurd rfl (hput _)
  | _ => rfl

/-- The two parts, and the queue between them. -/
structure Joined (py : Py) (sv : Services) (w : World) (n : Node) : Prop where
  loop : Transport.Books py n.loop
  pump : Pump.InOrder sv w n.pump
  queue : n.pump.put = n.loop.state.events

theorem joined_step (h : Joined py sv w n) (hs : step py sv n a = some n') : Joined py sv w n' := by
  have hpump : ∀ {p : Pump}, Machine.Run (Pump.step sv) (fun _ _ => True) n.pump p →
      Pump.InOrder sv w p := fun hrun =>
    hrun.invariant (fun _ _ _ h _ hs => Pump.inOrder_step h (Pump.step_cases hs)) h.pump
  cases a with
  | transport b =>
    simp only [step, Option.map_eq_some_iff] at hs
    obtain ⟨loop, hs, rfl⟩ := hs
    refine ⟨Transport.books_of_run (loop_of_step hs) h.loop, hpump (run_transfer _ _), ?_⟩
    show n.pump.put ++ _ = _
    rw [h.queue]
    exact List.prefix_iff_eq_append.mp (events_extended hs)
  | pump b =>
    have hput : (∀ event, b ≠ .put event) := fun event hb => by
      rw [hb] at hs
      cases hs
    replace hs : (n.pump.step sv b).map (fun pump => { n with pump := pump }) = some n' := by
      cases b with
      | put event => exact absurd rfl (hput event)
      | _ => exact hs
    rw [Option.map_eq_some_iff] at hs
    obtain ⟨pump, hstep, rfl⟩ := hs
    exact ⟨h.loop, hpump (.tail .refl trivial hstep),
      (put_step hput (Pump.step_cases hstep)).trans h.queue⟩

theorem joined_start : Joined py sv w (start mc selfPubkey w metrics) where
  loop := Transport.books_start mc selfPubkey
  pump := Pump.inOrder_start sv w metrics
  queue := rfl

/-- News of the link are not for the dispatcher. -/
theorem filterMap_request (events : List TransportEvent) :
    (events.filter (·.type ≠ .connected)).filterMap TransportEvent.request =
      events.filterMap TransportEvent.request := by
  rw [List.filterMap_filter]
  refine List.filterMap_congr fun event _ => ?_
  by_cases htype : event.type = .connected
  · simp [htype, TransportEvent.request]
  · simp [htype]

theorem asked_val (h : Joined py sv w n) :
    n.asked.map EventLoop.Entry.val = n.pump.put.filterMap TransportEvent.request := by
  rw [h.queue, ← filterMap_request, h.loop.queue, filterMap_request, List.filterMap_filterMap, asked,
    List.map_filterMap]
  refine List.filterMap_congr fun e _ => ?_
  rw [Option.map_map]
  exact congrFun Option.map_id _

theorem asked_ids (n : Node) : (n.asked.map EventLoop.Entry.id).Sublist (n.loop.ended.map EventLoop.Entry.id) := by
  unfold asked
  induction n.loop.ended with
  | nil => exact .slnil
  | cons e ended ih =>
    rw [List.filterMap_cons, List.map_cons]
    cases e.val.event.bind TransportEvent.request with
    | none => exact ih.cons _
    | some r => exact ih.cons_cons _

/-- **A message reaches the dispatcher at most once, and in its turn.**  In every run, whatever the
library answers and reports and whatever else the process does, the requests that the pump has made
of the dispatcher, for messages and for mesh activity, are those of ended tasks, in the order in
which these ended, with none left out and none made twice; a task that did not wait ended before all
that were created later; and a message is given to the dispatcher as it was received, from a contact
that the library found and that is not the BBS.  Its task has waited only if there was no contact
for it at first. -/
theorem handled_in_order
    (hrun : Machine.Run (step py sv) (fun _ _ => True) (start mc selfPubkey w metrics) n) :
    n.pump.requests <+: n.asked.map EventLoop.Entry.val ∧
    (n.asked.Pairwise fun a b => b.late = false → a.id < b.id) ∧
    (n.asked.map EventLoop.Entry.id).Nodup ∧
    ∀ e ∈ n.asked, ∀ m, e.val = .inbound m → ∃ p mc contact,
      n.loop.created[e.id]? = some (.handleContactMsg p) ∧ mc ∈ n.loop.state.links ∧
      senderOf mc p = some (some contact) ∧ m = inboundOf py (some mc) contact p ∧
      m.pubkey ≠ n.loop.state.selfPubkey ∧ (e.late = true → Unknown n.loop.state p) := by
  have h : Joined py sv w n := hrun.invariant (fun _ _ _ h _ hs => joined_step h hs) joined_start
  refine ⟨?_, ?_, ?_, fun e he m hm => ?_⟩
  · rw [asked_val h, h.pump.order, h.pump.queue, List.filterMap_append]
    exact List.prefix_append _ _
  · refine List.Pairwise.filterMap _ (fun a b hab a' ha' b' hb' => ?_) h.loop.kept.ended
    rw [Option.map_eq_some_iff] at ha' hb'
    obtain ⟨-, -, rfl⟩ := ha'
    obtain ⟨-, -, rfl⟩ := hb'
    exact fun hlate => hab hlate
  · have hids : n.loop.ids.Nodup := h.loop.kept.places.nodup_iff.mpr List.nodup_range
    exact (List.nodup_append.mp hids).2.1.sublist (asked_ids n)
  · obtain ⟨e', he', heq⟩ := List.mem_filterMap.mp he
    rw [Option.map_eq_some_iff] at heq
    obtain ⟨r, hr, rfl⟩ := heq
    obtain ⟨t, ht, hmeant⟩ := h.loop.follows.ended e' he'
    have hcallback := h.loop.created t (List.mem_of_getElem? ht)
    obtain ⟨p, mc, contact, rfl, hrest⟩ := message_of_meant hcallback
      (hmeant.resolve_left (not_within hcallback)) (hr.trans (congrArg some hm))
    exact ⟨p, mc, contact, ht, hrest⟩

theorem handled_in_order_two : ∃ n,
    Machine.Run (step asciiPy Process.asciiServices) (fun _ _ => True)
      (start knowsCc (lit "bb") (World.start 100) none) n ∧
    n.asked.map EventLoop.Entry.id = [1, 0] ∧ n.pump.requests.length = 1 ∧
    n.pump.requests <+: n.asked.map EventLoop.Entry.val := by
  obtain ⟨n, hrun, hp⟩ := Machine.exists_run (step asciiPy Process.asciiServices) (fun _ _ => true)
    (p := fun n => decide (n.asked.map EventLoop.Entry.id = [1, 0] ∧ n.pump.requests.length = 1))
    (s := start knowsCc (lit "bb") (World.start 100) none)
    (twoMessages.map .transport ++ [.pump .pump]) (by decide +kernel)
  rw [decide_eq_true_eq] at hp
  have hrun : Machine.Run (step asciiPy Process.asciiServices) (fun _ _ => True) _ n :=
    hrun.mono fun _ _ _ => trivial
  exact ⟨n, hrun, hp.1, hp.2, (handled_in_order hrun).1⟩

end Node

end Bbs
