import MeshcoreBbs.EventPump
import MeshcoreBbs.Lib.Blocks
import MeshcoreBbs.Lib.EventLoop

/-!
# The transport over the companion (`transport/meshcore.py`)

The library calls back, a callback creates a task, and the tasks put events in the queue that the
pump reads.  `Mc` is what the library answers at the moment; it changes at any time.  The turns of
the tasks are `Transport.turn`, what comes between them is `Transport.ext`.

`found`, `links` and the answers in `calls` are there for the properties.
-/

namespace Bbs

/-- A key as the library has it: `bytes` or `str`. -/
inductive Key
  | bytes (b : List UInt8)
  | str (s : Text)
  deriving DecidableEq

/-- `b.hex()`. -/
def hex (b : List UInt8) : Text :=
  b.flatMap fun x => [Nat.digitChar (x.toNat / 16), Nat.digitChar (x.toNat % 16)]

/-- `a or b`. -/
def orOption (a b : Option Text) : Option Text :=
  match a with
  | some (c :: s) => some (c :: s)
  | _ => b

namespace Key

def lower (py : Py) : Key → Text
  | .bytes b => py.lower (hex b)
  | .str s => py.lower s

def isEmpty : Key → Bool
  | .bytes b => b = []
  | .str s => s = []

/-- `a or b`. -/
def or (a b : Option Key) : Option Key :=
  match a with
  | some k => if k.isEmpty then b else some k
  | none => b

end Key

structure Contact where
  publicKey : Option Key := none
  pubkey : Option Key := none
  key : Option Key := none
  advName : Option Text := none
  name : Option Text := none
  outPath : Option Text := none
  outPathHashMode : Option Int := none

/-- `meshcore.MeshCore`, as it answers at the moment. -/
structure Mc where
  isConnected : Bool := true
  /-- `none`: it raises -/
  getContactByKeyPrefix : Text → Option (Option Contact) := fun _ => some none
  contacts : Text → Option Contact := fun _ => none

inductive PathNode
  | dict (hash : Option Text)
  | bytes (b : List UInt8)
  | str (s : Text)

/-- The path in a payload; `other` is neither a string nor a list. -/
inductive RawPath
  | str (s : Text)
  | nodes (nodes : List PathNode)
  | other

/-- The payload of a message. -/
structure ContactMsg where
  pubkeyPrefix : Option Text := none
  text : Option Text := none
  body : Option Text := none
  pathLen : Option Int := none
  path : Option RawPath := none
  relayPath : Option RawPath := none
  pathHashSize : Option Int := none

/-- The payload of overheard traffic. -/
structure Overheard where
  advKey : Option Text := none
  path : Option Text := none
  pathLen : Option Int := none
  pathHashMode : Option Int := none
  pathHashSize : Option Int := none

/-- The payload of a path discovery. -/
structure Discovery where
  inPath : Option Text := none
  inPathHashLen : Option Int := none
  outPath : Option Text := none
  outPathHashLen : Option Int := none

namespace Transport

variable (py : Py)

/-- `n or 1`. -/
def orOne (n : Option Int) : Int :=
  match n with
  | none => 1
  | some n => if n = 0 then 1 else n

/-- `s[:n]`. -/
def sliceTo (s : Text) (n : Int) : Text :=
  if 0 ≤ n then s.take n.toNat else s.take (s.length - n.natAbs)

def normalisePubkey (c : Contact) : Option Text :=
  (Key.or (Key.or c.publicKey c.pubkey) c.key).map fun k => k.lower py

/-! ## Paths -/

/-- The text for a node that no contact has. -/
def resolveHashToName (nodeHash : Text) (mc : Option Mc) : Text :=
  let nodeHash := strip (py.lower nodeHash)
  if nodeHash = [] then lit "?"
  else
    match mc.bind fun mc => (mc.getContactByKeyPrefix nodeHash).join with
    | none => nodeHash.take 8
    | some contact =>
      match orOption contact.advName contact.name with
      | some (c :: name) => c :: name
      | _ => nodeHash.take 8

def resolvePathHex (pathHex : Text) (hashLen : Int) (mc : Option Mc) : List Text :=
  let pathHex := strip (py.lower pathHex)
  if pathHex = [] then []
  else
    let chunkChars := (max 1 hashLen).toNat * 2
    (Blocks.blocks chunkChars pathHex).map fun chunk => resolveHashToName py chunk mc

/-- `_get_attr(payload, "path") or _get_attr(payload, "relay_path")`. -/
def rawPath (p : ContactMsg) : Option RawPath :=
  match p.path with
  | none => p.relayPath
  | some (.str []) => p.relayPath
  | some (.nodes []) => p.relayPath
  | some path => some path

def PathNode.label (mc : Option Mc) : PathNode → Text
  | .dict hash => resolveHashToName py (orText hash []) mc
  | .bytes b => resolveHashToName py (py.lower (hex b)) mc
  | .str s => resolveHashToName py (py.lower s) mc

def extractPath (p : ContactMsg) (mc : Option Mc) : List Text :=
  match rawPath p with
  | none => []
  | some (.str s) => if s = [] then [] else resolvePathHex py s (orOne p.pathHashSize) mc
  | some (.nodes nodes) => nodes.map (PathNode.label py mc)
  | some .other => []

/-- `none`: it raises. -/
def pathFromContact (mc : Mc) (pubkey : Text) : Option (List Text) := do
  let contact ←
    match mc.contacts pubkey with
    | some contact => some (some contact)
    | none => mc.getContactByKeyPrefix (pubkey.take 12)
  match contact with
  | none => pure []
  | some contact =>
    let outPath := orText contact.outPath []
    if outPath = [] then pure []
    else
      let hashLen :=
        match contact.outPathHashMode with
        | none => 1
        | some mode => if mode < 0 then 1 else mode + 1
      pure (resolvePathHex py outPath hashLen (some mc)).reverse

/-- `_discover_inbound_path`, from the answer; `none`: an error, or no answer in time. -/
def discoverInboundPath (answer : Option Discovery) (mc : Option Mc) : List Text :=
  match answer with
  | none => []
  | some p =>
    let inPath := orText p.inPath []
    if inPath ≠ [] then resolvePathHex py inPath (orOne p.inPathHashLen) mc
    else
      let outPath := orText p.outPath []
      if outPath ≠ [] then (resolvePathHex py outPath (orOne p.outPathHashLen) mc).reverse else []

/-! ## Senders of overheard traffic -/

def resolvePubkeyFromPrefix (keyPrefix : Text) (mc : Option Mc) : Option Text :=
  let keyPrefix := strip (py.lower keyPrefix)
  if keyPrefix = [] then none
  else (mc.bind fun mc => (mc.getContactByKeyPrefix keyPrefix).join).bind (normalisePubkey py)

def originPubkeyFromFloodPayload (p : Overheard) (mc : Option Mc) : Option Text :=
  match p.pathLen with
  | none => none
  | some pathLen =>
    if pathLen ≤ 0 ∨ pathLen = 255 then none
    else
      let pathHex := orText p.path []
      if pathHex = [] then none
      else
        let hashLen :=
          match p.pathHashMode with
          | some mode => max 1 (mode + 1)
          | none => 1
        resolvePubkeyFromPrefix py (sliceTo (py.lower pathHex) (hashLen * 2)) mc

def pubkeyFromRxLog (p : Overheard) (mc : Option Mc) : Option Text :=
  let advKey := orText p.advKey []
  if advKey ≠ [] then some (py.lower advKey)
  else
    let pathHex := orText p.path []
    if pathHex ≠ [] ∧ 0 < p.pathLen.getD 0 then
      match resolvePubkeyFromPrefix py (sliceTo (py.lower pathHex) (orOne p.pathHashSize * 2)) mc with
      | some (c :: pk) => some (c :: pk)
      | _ => none
    else none

/-! ## Tasks -/

/-- A call of `resolve_inbound_path`: the key in lower case, and its answer, once it is there.  It
raised if the answer is `none`. -/
structure Call where
  pubkey : Pubkey
  answer : Option (Option (List Text)) := none
  deriving DecidableEq

structure State where
  mc : Option Mc
  selfPubkey : Pubkey
  events : List TransportEvent := []
  pathCache : Pubkey → Option (List Text) := fun _ => none
  calls : List Call := []
  /-- The answers of path discoveries. -/
  found : List (Pubkey × Discovery) := []
  /-- What the library has answered with so far. -/
  links : List Mc := []

def State.radioAvailable (s : State) : Bool := s.mc.any Mc.isConnected

inductive Task
  | handleContactMsg (p : ContactMsg)
  /-- `_handle_contact_msg` after `get_contacts` -/
  | refreshed (p : ContactMsg)
  | put (event : TransportEvent)
  | emitMeshActivity (pubkey : Text)
  | handleChannelMsg (p : Overheard)
  | handleRxLogData (p : Overheard)
  | getContacts
  | gotContacts

inductive Outcome
  | put (event : TransportEvent)
  /-- there is no companion any more -/
  | noCompanion
  /-- no contact has the prefix -/
  | unresolved
  /-- from the BBS's own key, or from nobody known -/
  | ignored
  | raised
  | done
  deriving DecidableEq

open EventLoop (Turn)

def put (s : State) (event : TransportEvent) : Turn State Task Outcome :=
  .ends { s with events := s.events ++ [event] } (.put event)

def hopsOf (pathLen : Option Int) : Option Int :=
  pathLen.map fun n => if n = 255 then 0 else n

def inboundOf (mc : Option Mc) (contact : Contact) (p : ContactMsg) : InboundMessage where
  pubkey := (normalisePubkey py contact).getD []
  advName := orOption contact.advName contact.name
  body := orText p.text (orText p.body [])
  hops := hopsOf p.pathLen
  path := extractPath py p mc

/-- `_path_cache[pk] = list(path)`, if there is a path. -/
def State.learn (s : State) (pk : Pubkey) (path : List Text) : State :=
  if path = [] then s else { s with pathCache := Function.update s.pathCache pk (some path) }

/-- `_handle_contact_msg`, once the contact is found. -/
def received (contact : Contact) (p : ContactMsg) (s : State) : Turn State Task Outcome :=
  let inbound := inboundOf py s.mc contact p
  if inbound.pubkey = s.selfPubkey then .ends s .ignored
  else put (s.learn (py.lower inbound.pubkey) inbound.path)
    { type := .contactMsgRecv, inbound := some inbound }

def emitMeshActivity (pubkey : Text) (s : State) : Turn State Task Outcome :=
  let pk := py.lower pubkey
  if pk = [] ∨ pk = s.selfPubkey then .ends s .ignored
  else put s { type := .meshActivity, pubkey := some pk }

def turn : Task → State → Turn State Task Outcome
  | .handleContactMsg p, s =>
    match s.mc with
    | none => .ends s .noCompanion
    | some mc =>
      match mc.getContactByKeyPrefix (orText p.pubkeyPrefix []) with
      | none => .ends s .raised
      | some (some contact) => received py contact p s
      | some none => if mc.isConnected then .waits s (.refreshed p) else .ends s .unresolved
  | .refreshed p, s =>
    match s.mc.bind fun mc => mc.getContactByKeyPrefix (orText p.pubkeyPrefix []) with
    | none => .ends s .raised
    | some (some contact) => received py contact p s
    | some none => .ends s .unresolved
  | .put event, s => put s event
  | .emitMeshActivity pubkey, s => emitMeshActivity py pubkey s
  | .handleChannelMsg p, s =>
    emitMeshActivity py ((originPubkeyFromFloodPayload py p s.mc).getD []) s
  | .handleRxLogData p, s => emitMeshActivity py ((pubkeyFromRxLog py p s.mc).getD []) s
  | .getContacts, s => .waits s .gotContacts
  | .gotContacts, s => .ends s .done

/-! ## What comes between their turns -/

inductive Ext
  /-- the library's state changes -/
  | library (mc : Mc)
  /-- the supervisor has restored the link -/
  | reconnected
  | stop
  /-- `resolve_inbound_path` is called -/
  | resolve (pubkey : Pubkey)
  /-- the path discovery of call `i` ends -/
  | discovered (i : Nat) (answer : Option Discovery)

/-- The end of `resolve_inbound_path`, and the answer. -/
def resolvedPath (pk : Pubkey) (discovered : List Text) (s : State) : State × Option (List Text) :=
  if discovered ≠ [] then (s.learn pk discovered, some discovered)
  else
    match s.mc.bind fun mc => pathFromContact py mc pk with
    | none => (s, none)
    | some path => (s.learn pk path, some path)

def resolveInboundPath (pubkey : Pubkey) (s : State) : State :=
  let pk := py.lower pubkey
  if s.mc.isNone then { s with calls := s.calls ++ [⟨pk, some (some [])⟩] }
  else
    match s.pathCache pk with
    | some cached => { s with calls := s.calls ++ [⟨pk, some (some cached)⟩] }
    | none =>
      if s.radioAvailable then { s with calls := s.calls ++ [⟨pk, none⟩] }
      else
        let (s, answer) := resolvedPath py pk [] s
        { s with calls := s.calls ++ [⟨pk, some answer⟩] }

/-- `resolve_inbound_path` goes on from its path discovery. -/
def discovered (i : Nat) (pk : Pubkey) (answer : Option Discovery) (s : State) : State :=
  let s := { s with found := s.found ++ answer.toList.map fun p => (pk, p) }
  let (s, path) := resolvedPath py pk (discoverInboundPath py answer s.mc) s
  { s with calls := s.calls.set i ⟨pk, some path⟩ }

def ext : Ext → State → Option State
  | .library mc, s =>
    if s.mc.isSome then some { s with mc := some mc, links := s.links ++ [mc] } else none
  | .reconnected, s =>
    if s.mc.isSome then
      some { s with events := s.events ++ [{ type := .connected, reconnected := true }] }
    else none
  | .stop, s => some { s with mc := none }
  | .resolve pubkey, s => some (resolveInboundPath py pubkey s)
  | .discovered i answer, s =>
    match s.calls[i]? with
    | some ⟨pk, none⟩ => some (discovered py i pk answer s)
    | _ => none

/-! ## Callbacks -/

/-- A callback of the library, with what it gets. -/
inductive Callback
  | onContactMsg (p : ContactMsg)
  | onNewContact (c : Contact)
  | onAdvertisement (c : Contact)
  | onPathUpdate (c : Contact)
  | onChannelMsg (p : Overheard)
  | onRxLogData (p : Overheard)
  | onConnected (reconnected : Bool)
  | onDisconnected

/-- `_pubkey_from_payload_dict`. -/
def pubkeyFromPayloadDict (c : Contact) : Option Text :=
  (Key.or c.publicKey c.pubkey).map fun k => k.lower py

/-- The tasks that the callback creates. -/
def Callback.tasks (mc : Option Mc) : Callback → List Task
  | .onContactMsg p => [.handleContactMsg p]
  | .onNewContact c => [.put { type := .newContact, pubkey := some ((normalisePubkey py c).getD []) }]
  | .onAdvertisement c =>
    [.put { type := .advertisement
            pubkey := some (orText (orOption (normalisePubkey py c) (pubkeyFromPayloadDict py c)) []) }]
  | .onPathUpdate c => [.emitMeshActivity ((pubkeyFromPayloadDict py c).getD [])]
  | .onChannelMsg p => [.handleChannelMsg p]
  | .onRxLogData p => [.handleRxLogData p]
  | .onConnected reconnected =>
    .put { type := .connected, reconnected := reconnected } ::
      if reconnected && mc.isSome then [.getContacts] else []
  | .onDisconnected => [.put { type := .disconnected }]

abbrev Loop := EventLoop.Loop State Task Outcome

inductive Act
  | callback (c : Callback)
  | run
  | wake (i : Nat)
  | outside (c : Ext)

def step (l : Loop) : Act → Option Loop
  | .callback c => some ((c.tasks py l.state.mc).foldl (fun l t => l.create t) l)
  | .run => l.step (turn py) (ext py) .run
  | .wake i => l.step (turn py) (ext py) (.wake i)
  | .outside c => l.step (turn py) (ext py) (.outside c)

/-- The companion is connected and `start` subscribes to its events. -/
def start (mc : Mc) (selfPubkey : Pubkey) : Loop where
  state := { mc := some mc, selfPubkey := selfPubkey, links := [mc] }

/-- The state after a path was looked up, up to the calls and what was found. -/
theorem resolvedPath_state (pk : Pubkey) (discovered : List Text) (s : State) :
    ∃ path, (resolvedPath py pk discovered s).1 = s.learn pk path := by
  unfold resolvedPath
  split
  · exact ⟨_, rfl⟩
  · split
    · exact ⟨[], rfl⟩
    · exact ⟨_, rfl⟩

/-- The state after what came between the turns. -/
inductive ExtState (s : State) : State → Prop
  | library (mc : Mc) (hmc : s.mc.isSome) :
      ExtState s { s with mc := some mc, links := s.links ++ [mc] }
  | reconnected (hmc : s.mc.isSome) :
      ExtState s { s with events := s.events ++ [{ type := .connected, reconnected := true }] }
  | stop : ExtState s { s with mc := none }
  | resolve (pk : Pubkey) (path : List Text) (found : List (Pubkey × Discovery)) (calls : List Call) :
      ExtState s { State.learn { s with found := found } pk path with calls := calls }

theorem ext_state {c : Ext} {s' : State} (h : ext py c s = some s') : ExtState s s' := by
  cases c with
  | library mc =>
    simp only [ext] at h
    split at h
    · next hmc =>
      cases h
      exact .library mc hmc
    · cases h
  | reconnected =>
    simp only [ext] at h
    split at h
    · next hmc =>
      cases h
      exact .reconnected hmc
    · cases h
  | stop =>
    cases h
    exact .stop
  | resolve pubkey =>
    cases h
    have hsame : ∀ calls, ExtState s { s with calls := calls } := fun calls => by
      simpa [State.learn] using ExtState.resolve (s := s) [] [] s.found calls
    simp only [resolveInboundPath]
    split
    · exact hsame _
    · split
      · exact hsame _
      · split
        · exact hsame _
        · obtain ⟨path, hpath⟩ := resolvedPath_state py (py.lower pubkey) [] s
          rw [hpath]
          exact .resolve _ path s.found _
  | discovered i answer =>
    simp only [ext] at h
    split at h
    · next pk _ =>
      cases h
      simp only [discovered]
      obtain ⟨path, hpath⟩ := resolvedPath_state py pk (discoverInboundPath py answer s.mc)
        { s with found := s.found ++ answer.toList.map fun p => (pk, p) }
      rw [hpath]
      exact .resolve _ path _ _
    · cases h

/-- A callback creates the task. -/
def OfCallback (t : Task) : Prop := ∃ (mc : Option Mc) (c : Callback), t ∈ c.tasks py mc

/-- The runs of the event loop with the tasks of callbacks. -/
def LoopRun (l l' : Loop) : Prop :=
  Machine.Run (EventLoop.Loop.step (turn py) (ext py)) (fun _ a => ∀ t, a = .create t → OfCallback py t)
    l l'

/-! ## Steps -/

variable {s : State}

@[simp] theorem State.learn_mc (pk : Pubkey) (path : List Text) : (s.learn pk path).mc = s.mc := by
  unfold learn
  split <;> rfl

@[simp] theorem State.learn_selfPubkey (pk : Pubkey) (path : List Text) :
    (s.learn pk path).selfPubkey = s.selfPubkey := by
  unfold learn
  split <;> rfl

@[simp] theorem State.learn_calls (pk : Pubkey) (path : List Text) :
    (s.learn pk path).calls = s.calls := by
  unfold learn
  split <;> rfl

@[simp] theorem State.learn_events (pk : Pubkey) (path : List Text) :
    (s.learn pk path).events = s.events := by
  unfold learn
  split <;> rfl

@[simp] theorem State.learn_links (pk : Pubkey) (path : List Text) :
    (s.learn pk path).links = s.links := by
  unfold learn
  split <;> rfl

theorem State.learn_pathCache (pk : Pubkey) (path : List Text) (pk' : Pubkey) :
    (s.learn pk path).pathCache pk' =
      if pk' = pk ∧ path ≠ [] then some path else s.pathCache pk' := by
  unfold learn
  by_cases hpath : path = []
  · simp [hpath]
  · by_cases hpk : pk' = pk
    · simp [hpath, hpk]
    · simp [hpath, hpk]

theorem State.learn_put (pk : Pubkey) (path : List Text) (events : List TransportEvent) :
    { s.learn pk path with events := events } = State.learn { s with events := events } pk path := by
  unfold learn
  split <;> rfl

/-- The state after a turn. -/
inductive TurnState (s : State) : State → Prop
  | same : TurnState s s
  | put (event : TransportEvent) : TurnState s { s with events := s.events ++ [event] }
  | received (inbound : InboundMessage) :
      TurnState s (State.learn
        { s with events := s.events ++ [{ type := .contactMsgRecv, inbound := some inbound }] }
        (py.lower inbound.pubkey) inbound.path)

theorem received_state (s : State) (contact : Contact) (p : ContactMsg) :
    TurnState py s (received py contact p s).state := by
  simp only [received]
  split
  · exact .same
  · simp only [put, Turn.state, State.learn_put, State.learn_events]
    exact .received _

theorem emit_state (s : State) (pubkey : Text) : TurnState py s (emitMeshActivity py pubkey s).state := by
  simp only [emitMeshActivity]
  split
  · exact .same
  · exact .put _

theorem turn_state (s : State) (t : Task) : TurnState py s (turn py t s).state := by
  cases t with
  | handleContactMsg p =>
    simp only [turn]
    split
    · exact .same
    · split
      · exact .same
      · exact received_state py s _ p
      · split <;> exact .same
  | refreshed p =>
    simp only [turn]
    split
    · exact .same
    · exact received_state py s _ p
    · exact .same
  | put event => exact .put event
  | emitMeshActivity pubkey => exact emit_state py s pubkey
  | handleChannelMsg p => exact emit_state py s _
  | handleRxLogData p => exact emit_state py s _
  | getContacts => exact .same
  | gotContacts => exact .same

variable {py} {l l' : Loop} {a : Act}

theorem run_creates {tasks : List Task} (h : ∀ t ∈ tasks, OfCallback py t) :
    LoopRun py l (tasks.foldl (fun l t => l.create t) l) := by
  induction tasks generalizing l with
  | nil => exact .refl
  | cons t tasks ih =>
    have hcreate : l.step (turn py) (ext py) (.create t) = some (l.create t) := rfl
    have hfirst : LoopRun py l (l.create t) := by
      refine .tail .refl (fun u hu => ?_) hcreate
      cases hu
      exact h t (by simp)
    exact hfirst.trans (ih fun u hu => h u (by simp [hu]))

theorem loop_of_step (hs : step py l a = some l') : LoopRun py l l' := by
  have hone : ∀ b : EventLoop.Act Task Ext, (∀ t, b ≠ .create t) →
      l.step (turn py) (ext py) b = some l' → LoopRun py l l' :=
    fun b hne hb => .tail .refl (fun t ht => absurd ht (hne t)) hb
  cases a with
  | callback c =>
    cases hs
    exact run_creates fun t ht => ⟨_, c, ht⟩
  | run => exact hone .run (by simp) hs
  | wake i => exact hone (.wake i) (by simp) hs
  | outside c => exact hone (.outside c) (by simp) hs

theorem loop_of_run {ok : Loop → Act → Prop} (hrun : Machine.Run (step py) ok l l') :
    LoopRun py l l' := by
  induction hrun with
  | refl => exact .refl
  | tail _ _ hs ih => exact ih.trans (loop_of_step hs)

/-- What turns and what comes between them keep of the state, a run keeps. -/
theorem state_of_run {P : State → Prop}
    (hstep : ∀ s s', P s → EventLoop.Moves (turn py) (ext py) s s' → P s')
    {ok : Loop → Act → Prop} (hrun : Machine.Run (step py) ok l l') (h0 : P l.state) : P l'.state := by
  refine (loop_of_run hrun).invariant (P := fun l => P l.state) (fun l a l' h _ hs => ?_) h0
  rcases (EventLoop.Loop.step_cases hs).state with heq | hmoves
  · rw [heq]
    exact h
  · exact hstep _ _ h hmoves

end Transport

end Bbs
