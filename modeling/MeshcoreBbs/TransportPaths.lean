import MeshcoreBbs.Transport

/-!
# Inbound paths

A route comes as a hex string of the nodes' key hashes, in a message, in the answer of a path
discovery, or, the other way round, with the contact.  All of them are read alike
(`route_decoded`).  What the cache holds, and what `resolve_inbound_path` answers, is such a route
of that node (`paths_sourced`); a node whose path was known once is never without one again
(`path_stays_known`).
-/

namespace Bbs

namespace Transport

variable {py : Py}

/-! ## The hex form -/

/-- `lower` leaves hex digits as they are. -/
def KeepsHex (py : Py) : Prop := ∀ b, py.lower (hex b) = hex b

theorem hex_append (a b : List UInt8) : hex (a ++ b) = hex a ++ hex b := List.flatMap_append

theorem hex_flatten (l : List (List UInt8)) : hex l.flatten = (l.map hex).flatten := by
  induction l with
  | nil => rfl
  | cons b l ih => rw [List.flatten_cons, hex_append, ih, List.map_cons, List.flatten_cons]

@[simp] theorem length_hex (b : List UInt8) : (hex b).length = 2 * b.length := by
  induction b with
  | nil => rfl
  | cons x b ih =>
    simp only [hex, List.flatMap_cons, List.length_append, List.length_cons, List.length_nil] at ih ⊢
    omega

theorem hex_eq_nil_iff {b : List UInt8} : hex b = [] ↔ b = [] := by
  rw [← List.length_eq_zero_iff, length_hex, ← List.length_eq_zero_iff]
  omega

theorem digitChar_not_space : ∀ n, n < 16 → isSpace (Nat.digitChar n) = false := by
  decide

theorem not_space_of_mem_hex {b : List UInt8} {c : Char} (h : c ∈ hex b) : isSpace c = false := by
  rw [hex, List.mem_flatMap] at h
  obtain ⟨x, -, hc⟩ := h
  have hx := x.toNat_lt
  simp only [List.mem_cons, List.not_mem_nil, or_false] at hc
  rcases hc with rfl | rfl
  · exact digitChar_not_space _ (by omega)
  · exact digitChar_not_space _ (by omega)

theorem strip_of_not_space {s : Text} (h : ∀ c ∈ s, isSpace c = false) : strip s = s := by
  have hdrop : s.dropWhile isSpace = s := by
    cases s with
    | nil => rfl
    | cons c s => rw [List.dropWhile_cons_of_neg (by simp [h c])]
  rw [strip, hdrop, List.rdropWhile_eq_self_iff]
  intro hne
  simp [h _ (List.getLast_mem hne)]

theorem strip_hex (hpy : KeepsHex py) (b : List UInt8) : strip (py.lower (hex b)) = hex b := by
  rw [hpy, strip_of_not_space fun c => not_space_of_mem_hex]

theorem take_hex (b : List UInt8) (n : Nat) : (hex b).take (2 * n) = hex (b.take n) := by
  induction b generalizing n with
  | nil => simp [hex]
  | cons x b ih =>
    cases n with
    | zero => rfl
    | succ n =>
      show (_ :: _ :: hex b).take (2 * n + 2) = _ :: _ :: hex (b.take n)
      rw [List.take_succ_cons, List.take_succ_cons, ih]

/-! ## Routes -/

/-- The name of the contact, or the first bytes of the hash. -/
def nodeLabel (mc : Option Mc) (node : List UInt8) : Text :=
  match (mc.bind fun mc => (mc.getContactByKeyPrefix (hex node)).join).bind fun contact =>
    orOption contact.advName contact.name with
  | some (c :: name) => c :: name
  | _ => hex (node.take 4)

theorem resolve_hex (hpy : KeepsHex py) {node : List UInt8} (hne : node ≠ []) (mc : Option Mc) :
    resolveHashToName py (hex node) mc = nodeLabel mc node := by
  have hhex : hex node ≠ [] := fun h => hne (hex_eq_nil_iff.mp h)
  unfold resolveHashToName nodeLabel
  simp only [strip_hex hpy, if_neg hhex]
  cases mc.bind fun mc => (mc.getContactByKeyPrefix (hex node)).join with
  | none => exact take_hex node 4
  | some contact =>
    simp only [Option.bind_some]
    rcases orOption contact.advName contact.name with _ | _ | ⟨c, name⟩
    · exact take_hex node 4
    · exact take_hex node 4
    · rfl

/-- The nodes in their order, and nothing of a piece too short for one. -/
theorem resolvePathHex_hex (hpy : KeepsHex py) {h : Nat} (hh : 0 < h) {route : List (List UInt8)}
    (hroute : ∀ node ∈ route, node.length = h) {rest : List UInt8} (hrest : rest.length < h)
    (mc : Option Mc) :
    resolvePathHex py (hex (route.flatten ++ rest)) h mc = route.map (nodeLabel mc) := by
  have hchars : (max 1 (h : Int)).toNat * 2 = 2 * h := by omega
  unfold resolvePathHex
  simp only [strip_hex hpy, hchars]
  split
  · next hnil =>
    -- there is no node in an empty string
    cases route with
    | nil => rfl
    | cons node route =>
      have := hroute node (by simp)
      rw [hex_eq_nil_iff] at hnil
      simp only [List.flatten_cons, List.append_assoc, List.append_eq_nil_iff] at hnil
      rw [hnil.1] at this
      simp only [List.length_nil] at this
      omega
  · rw [hex_append, hex_flatten, Blocks.blocks_flatten_append (by omega) (fun b hb => ?_)
      (by rw [length_hex]; omega), List.map_map]
    · refine List.map_congr_left fun node hnode => resolve_hex hpy (fun hnil => ?_) mc
      have := hroute node hnode
      rw [hnil, List.length_nil] at this
      omega
    · obtain ⟨node, hnode, rfl⟩ := List.mem_map.mp hb
      rw [length_hex, hroute node hnode]

theorem resolvePathHex_nil (hpy : KeepsHex py) (n : Int) (mc : Option Mc) :
    resolvePathHex py [] n mc = [] := by
  have hlower : py.lower [] = [] := hpy []
  simp [resolvePathHex, hlower, strip]

theorem orText_some (s : Text) : orText (some s) [] = s := by
  cases s <;> rfl

theorem extractPath_str (hpy : KeepsHex py) (p : ContactMsg) (s : Text) (n : Option Int)
    (mc : Option Mc) :
    extractPath py { p with path := some (.str s), relayPath := none, pathHashSize := n } mc =
      resolvePathHex py s (orOne n) mc := by
  cases s with
  | nil => exact (resolvePathHex_nil hpy _ mc).symm
  | cons c s => rfl

theorem discoverInboundPath_in (hpy : KeepsHex py) (s : Text) (n : Option Int) (mc : Option Mc) :
    discoverInboundPath py (some { inPath := some s, inPathHashLen := n }) mc =
      resolvePathHex py s (orOne n) mc := by
  cases s with
  | nil => exact (resolvePathHex_nil hpy _ mc).symm
  | cons c s => rfl

theorem discoverInboundPath_out (hpy : KeepsHex py) (s : Text) (n : Option Int) (mc : Option Mc) :
    discoverInboundPath py (some { outPath := some s, outPathHashLen := n }) mc =
      (resolvePathHex py s (orOne n) mc).reverse := by
  cases s with
  | nil =>
    rw [resolvePathHex_nil hpy]
    rfl
  | cons c s => rfl

theorem pathFromContact_stored (hpy : KeepsHex py) {mc : Mc} {pk : Pubkey} {contact : Contact}
    {s : Text} {n : Int} (hn : 0 < n) (hcontact : mc.contacts pk = some contact)
    (hpath : contact.outPath = some s) (hmode : contact.outPathHashMode = some (n - 1)) :
    pathFromContact py mc pk = some (resolvePathHex py s n (some mc)).reverse := by
  have hlen : ¬ n - 1 < 0 := by omega
  simp only [pathFromContact, hcontact, hpath, orText_some, hmode, if_neg hlen, Int.sub_add_cancel,
    Option.bind_eq_bind, Option.bind_some, Option.pure_def]
  split
  · next hnil => rw [hnil, resolvePathHex_nil hpy, List.reverse_nil]
  · rfl

/-- **A route is read alike from wherever it comes.**  For a route of nodes whose hashes have `h`
bytes, from the sender to the BBS, the labels of the nodes in that order are what is read from a
message that carries it, from a path discovery that finds it on the way in, and from one on the way
out or from the contact, which have it the other way round, even if a piece of a hash follows. -/
theorem route_decoded (hpy : KeepsHex py) {h : Nat} (hh : 0 < h) {route : List (List UInt8)}
    (hroute : ∀ node ∈ route, node.length = h) {rest : List UInt8} (hrest : rest.length < h)
    (mc : Mc) (p : ContactMsg) (pk : Pubkey) (contact : Contact) :
    let there := hex (route.flatten ++ rest)
    let back := hex (route.reverse.flatten ++ rest)
    let labels := route.map (nodeLabel (some mc))
    extractPath py { p with path := some (.str there), relayPath := none
                            pathHashSize := some (h : Int) } (some mc) = labels ∧
    discoverInboundPath py (some { inPath := some there, inPathHashLen := some (h : Int) })
      (some mc) = labels ∧
    discoverInboundPath py (some { outPath := some back, outPathHashLen := some (h : Int) })
      (some mc) = labels ∧
    (mc.contacts pk = some { contact with outPath := some back
                                          outPathHashMode := some ((h : Int) - 1) } →
      pathFromContact py mc pk = some labels) := by
  intro there back labels
  have hthere : resolvePathHex py there h (some mc) = labels :=
    resolvePathHex_hex hpy hh hroute hrest _
  have hback : (resolvePathHex py back h (some mc)).reverse = labels := by
    rw [resolvePathHex_hex hpy hh (fun node hnode => hroute node (List.mem_reverse.mp hnode)) hrest,
      List.map_reverse, List.reverse_reverse]
  have hone : orOne (some (h : Int)) = h := if_neg (by omega)
  refine ⟨?_, ?_, ?_, fun hcontact => ?_⟩
  · rw [extractPath_str hpy, hone, hthere]
  · rw [discoverInboundPath_in hpy, hone, hthere]
  · rw [discoverInboundPath_out hpy, hone, hback]
  · rw [pathFromContact_stored hpy (by omega) hcontact rfl rfl, hback]

theorem keepsHex_ascii : KeepsHex asciiPy := by
  have hdigit : ∀ n, n < 16 → (Nat.digitChar n).toLower = Nat.digitChar n := by decide
  intro b
  have hmap : ∀ c ∈ hex b, Char.toLower c = c := ?_
  · exact (List.map_congr_left hmap).trans (List.map_id _)
  intro c hc
  rw [hex, List.mem_flatMap] at hc
  obtain ⟨x, -, hc⟩ := hc
  have hx := x.toNat_lt
  simp only [List.mem_cons, List.not_mem_nil, or_false] at hc
  rcases hc with rfl | rfl
  · exact hdigit _ (by omega)
  · exact hdigit _ (by omega)

/-- It knows one repeater. -/
def oneRepeater : Mc where
  getContactByKeyPrefix keyPrefix :=
    some (if keyPrefix = lit "aabbcc" then some { advName := some (lit "RepeaterA") } else none)

theorem route_decoded_two :
    extractPath asciiPy { path := some (.str (lit "aabbccddeeff11")), pathHashSize := some 3 }
      (some oneRepeater) = [lit "RepeaterA", lit "ddeeff"] ∧
    discoverInboundPath asciiPy (some { outPath := some (lit "ddeeffaabbcc11"), outPathHashLen := some 3 })
      (some oneRepeater) = [lit "RepeaterA", lit "ddeeff"] := by
  have hroute : ∀ node ∈ [[0xaa, 0xbb, 0xcc], [0xdd, 0xee, (0xff : UInt8)]], node.length = 3 := by
    decide
  have hrest : [(0x11 : UInt8)].length < 3 := by decide
  have h := route_decoded keepsHex_ascii (by omega) hroute hrest oneRepeater {} [] {}
  refine ⟨h.1.trans ?_, h.2.2.1.trans ?_⟩ <;> decide

/-! ## The cache -/

/-- `path` was carried by a message of the node, found by a path discovery for it, or read from
its contact. -/
def Sourced (py : Py) (s : State) (pk : Pubkey) (path : List Text) : Prop :=
  (∃ event ∈ s.events, ∃ inbound, event.inbound = some inbound ∧
    py.lower inbound.pubkey = pk ∧ inbound.path = path) ∨
  (∃ p mc, (pk, p) ∈ s.found ∧ (∀ m ∈ mc, m ∈ s.links) ∧
    discoverInboundPath py (some p) mc = path) ∨
  ∃ mc ∈ s.links, pathFromContact py mc pk = some path

/-- What never goes away. -/
structure Later (s s' : State) : Prop where
  events : s.events <+: s'.events
  found : s.found <+: s'.found
  links : s.links <+: s'.links
  cached : ∀ pk, (s.pathCache pk).isSome → (s'.pathCache pk).isSome

theorem Sourced.mono {s s' : State} (h : Later s s') {pk : Pubkey} {path : List Text}
    (hp : Sourced py s pk path) : Sourced py s' pk path := by
  rcases hp with ⟨event, hevent, hin⟩ | ⟨p, mc, hp, hmc, hpath⟩ | ⟨mc, hmc, hpath⟩
  · exact .inl ⟨event, h.events.subset hevent, hin⟩
  · exact .inr (.inl ⟨p, mc, h.found.subset hp, fun m hm => h.links.subset (hmc m hm), hpath⟩)
  · exact .inr (.inr ⟨mc, h.links.subset hmc, hpath⟩)

/-- The invariant of the path cache. -/
structure Paths (py : Py) (s : State) : Prop where
  linked : ∀ m ∈ s.mc, m ∈ s.links
  cached : ∀ pk path, s.pathCache pk = some path → path ≠ [] ∧ Sourced py s pk path
  answered : ∀ c ∈ s.calls, ∀ path, c.answer = some (some path) → path ≠ [] →
    Sourced py s c.pubkey path ∧ (s.pathCache c.pubkey).isSome

variable {s s' : State}

/-- Neither the cache nor the calls have changed. -/
theorem Paths.keep (h : Paths py s) (hl : Later s s') (hmc : ∀ m ∈ s'.mc, m ∈ s'.links)
    (hcache : s'.pathCache = s.pathCache) (hcalls : s'.calls = s.calls) : Paths py s' where
  linked := hmc
  cached pk path hpath := by
    obtain ⟨hne, hp⟩ := h.cached pk path (hcache ▸ hpath)
    exact ⟨hne, hp.mono hl⟩
  answered c hc path hans hne := by
    obtain ⟨hp, hsome⟩ := h.answered c (hcalls ▸ hc) path hans hne
    exact ⟨hp.mono hl, hl.cached _ hsome⟩

theorem later_learn (s : State) (pk : Pubkey) (path : List Text) : Later s (s.learn pk path) := by
  refine ⟨?_, ?_, by simp, fun pk' hpk' => ?_⟩
  · unfold State.learn
    split <;> exact List.prefix_rfl
  · unfold State.learn
    split <;> exact List.prefix_rfl
  · rw [State.learn_pathCache]
    split
    · rfl
    · exact hpk'

theorem Paths.learn (h : Paths py s) {pk : Pubkey} {path : List Text} (hp : Sourced py s pk path) :
    Paths py (s.learn pk path) := by
  have hl := later_learn s pk path
  refine ⟨by simpa using h.linked, fun pk' path' hpath => ?_, fun c hc path' hans hne => ?_⟩
  · rw [State.learn_pathCache] at hpath
    split at hpath
    · next hpk =>
      obtain ⟨rfl, hne⟩ := hpk
      rw [Option.some.injEq] at hpath
      exact hpath ▸ ⟨hne, hp.mono hl⟩
    · obtain ⟨hne, hp'⟩ := h.cached pk' path' hpath
      exact ⟨hne, hp'.mono hl⟩
  · rw [State.learn_calls] at hc
    obtain ⟨hp', hsome⟩ := h.answered c hc path' hans hne
    exact ⟨hp'.mono hl, hl.cached _ hsome⟩

/-- The answer of a call is noted. -/
theorem Paths.answer (h : Paths py s) {calls : List Call}
    (hcalls : ∀ c ∈ calls, c ∈ s.calls ∨ ∀ path, c.answer = some (some path) → path ≠ [] →
      s.pathCache c.pubkey = some path) : Paths py { s with calls := calls } where
  linked := h.linked
  cached := h.cached
  answered c hc path hans hne := by
    rcases hcalls c hc with hc | hnew
    · exact h.answered c hc path hans hne
    · have hsome := hnew path hans hne
      exact ⟨(h.cached _ _ hsome).2, by rw [hsome]; rfl⟩

theorem paths_put (h : Paths py s) (event : TransportEvent) :
    Paths py { s with events := s.events ++ [event] } :=
  h.keep ⟨List.prefix_append _ _, List.prefix_rfl, List.prefix_rfl, fun _ h => h⟩ h.linked rfl rfl

theorem paths_turn (h : Paths py s) (hs : TurnState py s s') : Paths py s' := by
  cases hs with
  | same => exact h
  | put event => exact paths_put h event
  | received inbound =>
    exact (paths_put h _).learn
      (.inl ⟨_, List.mem_append_right _ (List.mem_singleton.mpr rfl), _, rfl, rfl, rfl⟩)

/-- The path that a call answers with, and what it leaves in the cache. -/
theorem paths_resolvedPath (h : Paths py s) {pk : Pubkey} {path : List Text}
    (hpath : path ≠ [] → Sourced py s pk path) :
    Paths py (resolvedPath py pk path s).1 ∧ ∀ path', (resolvedPath py pk path s).2 = some path' →
      path' ≠ [] → (resolvedPath py pk path s).1.pathCache pk = some path' := by
  unfold resolvedPath
  split
  · next hne =>
    refine ⟨h.learn (hpath hne), fun path' heq _ => ?_⟩
    cases heq
    simp [State.learn_pathCache, hne]
  · split
    · exact ⟨h, by simp⟩
    · next path' hfrom =>
      rw [Option.bind_eq_some_iff] at hfrom
      obtain ⟨mc, hmc, hfrom⟩ := hfrom
      refine ⟨h.learn (.inr (.inr ⟨mc, h.linked mc hmc, hfrom⟩)), fun path'' heq hne => ?_⟩
      cases heq
      simp [State.learn_pathCache, hne]

theorem paths_resolve (h : Paths py s) (pubkey : Pubkey) : Paths py (resolveInboundPath py pubkey s) := by
  simp only [resolveInboundPath]
  split
  · refine h.answer fun c hc => ?_
    rcases List.mem_append.mp hc with hc | hc
    · exact .inl hc
    · rw [List.mem_singleton.mp hc]
      exact .inr fun path heq hne => absurd (by simpa using heq.symm) hne
  · split
    · next cached hcached =>
      refine h.answer fun c hc => ?_
      rcases List.mem_append.mp hc with hc | hc
      · exact .inl hc
      · rw [List.mem_singleton.mp hc]
        refine .inr fun path heq _ => ?_
        simp only [Option.some.injEq] at heq
        exact heq ▸ hcached
    · split
      · refine h.answer fun c hc => ?_
        rcases List.mem_append.mp hc with hc | hc
        · exact .inl hc
        · rw [List.mem_singleton.mp hc]
          exact .inr fun path heq => by cases heq
      · have hnil : ([] : List Text) ≠ [] → Sourced py s (py.lower pubkey) [] := by simp
        obtain ⟨hpaths, hans⟩ := paths_resolvedPath h hnil
        refine hpaths.answer fun c hc => ?_
        rcases List.mem_append.mp hc with hc | hc
        · exact .inl hc
        · rw [List.mem_singleton.mp hc]
          refine .inr fun path heq => ?_
          simp only [Option.some.injEq] at heq
          exact hans path heq

theorem paths_discovered (h : Paths py s) (i : Nat) (pk : Pubkey) (answer : Option Discovery) :
    Paths py (discovered py i pk answer s) := by
  have hfound : Paths py { s with found := s.found ++ answer.toList.map fun p => (pk, p) } :=
    h.keep ⟨List.prefix_rfl, List.prefix_append _ _, List.prefix_rfl, fun _ h => h⟩ h.linked rfl rfl
  have hsourced : discoverInboundPath py answer s.mc ≠ [] →
      Sourced py { s with found := s.found ++ answer.toList.map fun p => (pk, p) } pk
        (discoverInboundPath py answer s.mc) := by
    intro hne
    cases answer with
    | none => exact absurd rfl hne
    | some p => exact .inr (.inl ⟨p, s.mc, by simp, h.linked, rfl⟩)
  obtain ⟨hpaths, hans⟩ := paths_resolvedPath hfound hsourced
  refine hpaths.answer fun c hc => ?_
  rcases List.mem_or_eq_of_mem_set hc with hc | rfl
  · exact .inl hc
  · refine .inr fun path heq => ?_
    simp only [Option.some.injEq] at heq
    exact hans path heq

theorem paths_ext (h : Paths py s) {c : Ext} (hs : ext py c s = some s') : Paths py s' := by
  cases c with
  | library mc =>
    simp only [ext] at hs
    split at hs
    · cases hs
      exact h.keep ⟨List.prefix_rfl, List.prefix_rfl, List.prefix_append _ _, fun _ h => h⟩
        (by simp) rfl rfl
    · cases hs
  | reconnected =>
    simp only [ext] at hs
    split at hs
    · cases hs
      exact paths_put h _
    · cases hs
  | stop =>
    cases hs
    exact h.keep ⟨List.prefix_rfl, List.prefix_rfl, List.prefix_rfl, fun _ h => h⟩ (by simp) rfl rfl
  | resolve pubkey =>
    cases hs
    exact paths_resolve h pubkey
  | discovered i answer =>
    simp only [ext] at hs
    split at hs
    · cases hs
      exact paths_discovered h _ _ _
    · cases hs

theorem paths_moves (h : Paths py s) (hs : EventLoop.Moves (turn py) (ext py) s s') : Paths py s' := by
  rcases hs with ⟨t, rfl⟩ | ⟨c, hc⟩
  · exact paths_turn h (turn_state py s t)
  · exact paths_ext h hc

theorem paths_start (mc : Mc) (selfPubkey : Pubkey) : Paths py (start mc selfPubkey).state where
  linked := by simp [start]
  cached := by simp [start]
  answered := by simp [start]

variable {mc : Mc} {selfPubkey : Pubkey} {l l' : Loop}

/-- **Every path reported is a path of that node.**  In every run, whatever the library reports and
however it interleaves with the calls, a path that is in the cache, or that `resolve_inbound_path`
has answered with, is empty or was carried by a message of the node asked for, found by a path
discovery for it, or read from its contact; and the cache holds no empty path. -/
theorem paths_sourced (hrun : Machine.Run (step py) (fun _ _ => True) (start mc selfPubkey) l) :
    (∀ pk path, l.state.pathCache pk = some path → path ≠ [] ∧ Sourced py l.state pk path) ∧
    ∀ c ∈ l.state.calls, ∀ path, c.answer = some (some path) →
      path = [] ∨ Sourced py l.state c.pubkey path := by
  have h : Paths py l.state := state_of_run (fun _ _ => paths_moves) hrun (paths_start mc selfPubkey)
  refine ⟨h.cached, fun c hc path hans => ?_⟩
  by_cases hnil : path = []
  · exact .inl hnil
  · exact .inr (h.answered c hc path hans hnil).1

/-- It knows the sender of everything. -/
def oneContact : Mc where
  getContactByKeyPrefix _ := some (some { publicKey := some (.str (lit "cc")) })

theorem paths_sourced_carried : ∃ l,
    Machine.Run (step asciiPy) (fun _ _ => True) (start oneContact (lit "bb")) l ∧
    ⟨lit "cc", some (some [lit "1f"])⟩ ∈ l.state.calls ∧
    Sourced asciiPy l.state (lit "cc") [lit "1f"] := by
  obtain ⟨l, hrun, hp⟩ := Machine.exists_run (step asciiPy) (fun _ _ => true)
    (p := fun l => decide (Call.mk (lit "cc") (some (some [lit "1f"])) ∈ l.state.calls))
    (s := start oneContact (lit "bb"))
    [.callback (.onContactMsg { path := some (.nodes [.dict (some (lit "1F"))]) }), .run,
      .outside (.resolve (lit "CC"))] (by decide +kernel)
  rw [decide_eq_true_eq] at hp
  have hrun : Machine.Run (step asciiPy) (fun _ _ => True) _ l := hrun.mono fun _ _ _ => trivial
  have hpath := (paths_sourced hrun).2 _ hp _ rfl
  exact ⟨l, hrun, hp, hpath.resolve_left (by decide)⟩

/-! ## A known path -/

theorem isSome_learn {pk : Pubkey} (h : (s.pathCache pk).isSome) (pk' : Pubkey) (path : List Text) :
    ((s.learn pk' path).pathCache pk).isSome :=
  (later_learn s pk' path).cached pk h

theorem isSome_moves {pk : Pubkey} (h : (s.pathCache pk).isSome)
    (hs : EventLoop.Moves (turn py) (ext py) s s') : (s'.pathCache pk).isSome := by
  rcases hs with ⟨t, rfl⟩ | ⟨c, hc⟩
  · have hturn := turn_state py s t
    generalize (turn py t s).state = s' at hturn
    cases hturn with
    | same => exact h
    | put => exact h
    | received inbound =>
      apply isSome_learn
      exact h
  · cases ext_state py hc with
    | library => exact h
    | reconnected => exact h
    | stop => exact h
    | resolve pk' path found =>
      apply isSome_learn (s := { s with found := found })
      exact h

/-- **A path once known stays known.**  After `resolve_inbound_path` has answered for a node with a
path that is not empty, every later call for the node, whatever happened in between, answers at once
with a path of that node that is not empty, as long as the transport is not stopped. -/
theorem path_stays_known (hrun : Machine.Run (step py) (fun _ _ => True) (start mc selfPubkey) l)
    {c : Call} (hc : c ∈ l.state.calls) {path : List Text} (hans : c.answer = some (some path))
    (hne : path ≠ []) (hlater : Machine.Run (step py) (fun _ _ => True) l l')
    (hlink : l'.state.mc.isSome) {pubkey : Pubkey} (hpk : py.lower pubkey = c.pubkey) :
    ∃ path', path' ≠ [] ∧ Sourced py l'.state c.pubkey path' ∧
      step py l' (.outside (.resolve pubkey)) = some { l' with
        state := { l'.state with calls := l'.state.calls ++ [⟨c.pubkey, some (some path')⟩] } } := by
  have h : Paths py l.state := state_of_run (fun _ _ => paths_moves) hrun (paths_start mc selfPubkey)
  have hsome : (l.state.pathCache c.pubkey).isSome := (h.answered c hc path hans hne).2
  have h' : Paths py l'.state ∧ (l'.state.pathCache c.pubkey).isSome :=
    state_of_run (P := fun s => Paths py s ∧ (s.pathCache c.pubkey).isSome)
      (fun _ _ h hs => ⟨paths_moves h.1 hs, isSome_moves h.2 hs⟩) hlater ⟨h, hsome⟩
  obtain ⟨path', hpath'⟩ := Option.isSome_iff_exists.mp h'.2
  obtain ⟨hne', hsourced⟩ := h'.1.cached _ _ hpath'
  refine ⟨path', hne', hsourced, ?_⟩
  have hnot : ¬ l'.state.mc.isNone := by simpa using Option.isSome_iff_ne_none.mp hlink
  simp [step, EventLoop.Loop.step, ext, resolveInboundPath, hpk, hpath', hnot]

/-- A message comes in through the repeater `node`. -/
def heardFrom (node : String) : List Act :=
  [.callback (.onContactMsg { path := some (.nodes [.dict (some (lit node))]) }), .run]

/-- Between the two calls the node is heard through another repeater, and the link is restored. -/
theorem path_stays_known_carried : ∃ l l', Call.mk (lit "cc") (some (some [lit "1f"])) ∈ l.state.calls ∧
    Machine.Run (step asciiPy) (fun _ _ => True) l l' ∧ Sourced asciiPy l'.state (lit "cc") [lit "2e"] ∧
    step asciiPy l' (.outside (.resolve (lit "cC"))) = some { l' with
      state := { l'.state with
        calls := l'.state.calls ++ [⟨lit "cc", some (some [lit "2e"])⟩] } } := by
  obtain ⟨l, hrun, hp⟩ := Machine.exists_run (step asciiPy) (fun _ _ => true)
    (p := fun l => decide (Call.mk (lit "cc") (some (some [lit "1f"])) ∈ l.state.calls) &&
      (Machine.exec (step asciiPy) (fun _ _ => true) l
        (heardFrom "2E" ++ [.outside .reconnected])).any fun l' => l'.state.mc.isSome &&
          (step asciiPy l' (.outside (.resolve (lit "cC")))).any fun l'' =>
            l''.state.calls.getLast? = some ⟨lit "cc", some (some [lit "2e"])⟩)
    (s := start oneContact (lit "bb")) (heardFrom "1F" ++ [.outside (.resolve (lit "CC"))])
    (by decide +kernel)
  rw [Bool.and_eq_true, decide_eq_true_eq] at hp
  obtain ⟨hcall, hafter⟩ := hp
  obtain ⟨l', hlater, hp'⟩ := Machine.exists_run (step asciiPy) (fun _ _ => true) _ hafter
  rw [Bool.and_eq_true] at hp'
  obtain ⟨l'', hresolve, hlast⟩ := (Option.any_eq_true ..).mp hp'.2
  have hlater : Machine.Run (step asciiPy) (fun _ _ => True) l l' := hlater.mono fun _ _ _ => trivial
  obtain ⟨path, hne, hsourced, hstep⟩ := path_stays_known (hrun.mono fun _ _ _ => trivial) hcall rfl
    (by decide) hlater hp'.1 (show asciiPy.lower (lit "cC") = lit "cc" by decide)
  cases hresolve.symm.trans hstep
  rw [decide_eq_true_eq, List.getLast?_append_of_ne_nil _ (by simp)] at hlast
  cases hlast
  exact ⟨l, l', hcall, hlater, hsourced, hstep⟩

end Transport

end Bbs
