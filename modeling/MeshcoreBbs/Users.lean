import Mathlib.Data.Char
import Mathlib.Data.List.Lex
import Mathlib.Data.List.Pairwise
import MeshcoreBbs.Lib.Like
import MeshcoreBbs.Lib.Machine
import MeshcoreBbs.Names
import MeshcoreBbs.OutboundDb

/-!
# The user table (`db.py`, users section, and `try_set_name` of `onboarding.py`)

Rows are in rowid order.  The three `UNIQUE` columns are part of the structure; an
`UPDATE` that would break them is undone, as SQLite does.

`UserOp` lists the operations of the program that write the table, and `Named` is what
holds of every row after any sequence of them (`named_of_reachable`).
-/

namespace Bbs

structure User where
  pubkey : Pubkey
  displayName : Option Text := none
  displayNameLc : Option Text := none
  advName : Option Text := none
  firstSeen : Int
  lastSeen : Int
  msgCount : Nat := 0
  onboarded : Bool := false
  motdSent : Bool := false
  banned : Bool := false
  bannedReason : Option Text := none
  lastHops : Option Int := none
  deriving DecidableEq

/-- The filter `onboarded and not banned`. -/
def User.eligible (u : User) : Bool := u.onboarded && !u.banned

/-- The `PRIMARY KEY` and `UNIQUE` constraints of `users`; `NULL`s do not count. -/
structure UniqueRows (rows : List User) : Prop where
  pubkeys : (rows.map User.pubkey).Nodup
  names : (rows.filterMap User.displayName).Nodup
  namesLc : (rows.filterMap User.displayNameLc).Nodup

instance (rows : List User) : Decidable (UniqueRows rows) :=
  decidable_of_iff ((rows.map User.pubkey).Nodup ∧ (rows.filterMap User.displayName).Nodup ∧
      (rows.filterMap User.displayNameLc).Nodup)
    ⟨fun ⟨h1, h2, h3⟩ => ⟨h1, h2, h3⟩, fun ⟨h1, h2, h3⟩ => ⟨h1, h2, h3⟩⟩

structure UserTable where
  rows : List User
  unique : UniqueRows rows

/-- An `UPDATE` of columns without constraint. -/
def KeepsKeys (f : User → User) : Prop :=
  ∀ u, (f u).pubkey = u.pubkey ∧ (f u).displayName = u.displayName ∧
    (f u).displayNameLc = u.displayNameLc

/-- `UPDATE users SET ... WHERE pubkey = ?`. -/
def updateRow (pk : Pubkey) (f : User → User) (u : User) : User := if u.pubkey = pk then f u else u

theorem KeepsKeys.updateRow {f : User → User} (h : KeepsKeys f) (pk : Pubkey) :
    KeepsKeys (updateRow pk f) := by
  intro u
  unfold Bbs.updateRow
  split
  · exact h u
  · exact ⟨rfl, rfl, rfl⟩

theorem UniqueRows.map {rows : List User} (h : UniqueRows rows) {f : User → User}
    (hf : KeepsKeys f) : UniqueRows (rows.map f) where
  pubkeys := by simpa [Function.comp_def, fun u => (hf u).1] using h.pubkeys
  names := by simpa [List.filterMap_map, Function.comp_def, fun u => (hf u).2.1] using h.names
  namesLc := by simpa [List.filterMap_map, Function.comp_def, fun u => (hf u).2.2] using h.namesLc

namespace UserTable

def empty : UserTable := ⟨[], by simp, by simp, by simp⟩

variable (lower : Text → Text) (t : UserTable)

def update (pk : Pubkey) (f : User → User) (hf : KeepsKeys f) : UserTable where
  rows := t.rows.map (updateRow pk f)
  unique := t.unique.map (hf.updateRow pk)

/-! ## Reads -/

def getUser (pk : Pubkey) : Option User := t.rows.find? fun u => u.pubkey = pk

def getUserByName (name : Text) : Option User :=
  t.rows.find? fun u => u.displayNameLc = some (lower name)

/-- `ORDER BY display_name_lc`, by code points. -/
def listedBefore (u v : User) : Bool := u.displayNameLc.getD [] ≤ v.displayNameLc.getD []

def findUsersByNameSubstring (needle : Text) : List User :=
  if needle = [] then []
  else (t.rows.filter fun u => u.eligible &&
    u.displayNameLc.any (Like.like ('%' :: lower needle ++ ['%']))).insertionSort
      fun u v => listedBefore u v = true

/-- `LIMIT 1` takes the first row of the scan. -/
def getUserByPrefix (pubkeyPrefix : Text) : Option User :=
  t.rows.find? fun u => Like.like (lower pubkeyPrefix ++ ['%']) u.pubkey

def allUserPubkeys : List Pubkey := (t.rows.filter fun u => !u.banned).map User.pubkey

/-- `ORDER BY last_seen DESC LIMIT ?`. -/
def recentActiveUsers (limit : Nat) : List User :=
  ((t.rows.filter User.eligible).insertionSort fun u v => v.lastSeen ≤ u.lastSeen).take limit

/-! ## Writes -/

/-- `COALESCE(new, old)`. -/
def coalesce {α : Type} (new old : Option α) : Option α := new.orElse fun _ => old

theorem getUser_eq_none {pk : Pubkey} (h : t.getUser pk = none) :
    ∀ u ∈ t.rows, u.pubkey ≠ pk := by
  simpa [getUser] using h

def insertStub (pk : Pubkey) (advName : Option Text) (now : Int) (h : t.getUser pk = none) :
    UserTable where
  rows := t.rows ++ [{ pubkey := pk, advName := advName, firstSeen := now, lastSeen := now }]
  unique := by
    refine ⟨?_, by simpa using t.unique.names, by simpa using t.unique.namesLc⟩
    rw [List.map_append, List.nodup_append]
    refine ⟨t.unique.pubkeys, by simp, ?_⟩
    intro pk' hpk' pk'' hpk'' heq
    obtain ⟨u, hu, rfl⟩ := List.mem_map.mp hpk'
    rw [List.map_singleton, List.mem_singleton] at hpk''
    exact t.getUser_eq_none h u hu (heq.trans hpk'')

/-- The `UPDATE` of `upsert_user_first_seen`. -/
def seeUser (pk : Pubkey) (advName : Option Text) (now : Int) : UserTable :=
  t.update pk (fun u => { u with lastSeen := now, advName := coalesce advName u.advName })
    fun _ => ⟨rfl, rfl, rfl⟩

/-- The user as it was before the call, or the new stub; and whether it is new. -/
def upsertUserFirstSeen (pk : Pubkey) (advName : Option Text) (now : Int) :
    UserTable × User × Bool :=
  match h : t.getUser pk with
  | some existing =>
    (t.update pk (fun u => { u with lastSeen := now, advName := coalesce advName u.advName })
      fun _ => ⟨rfl, rfl, rfl⟩, existing, false)
  | none =>
    (t.insertStub pk advName now h,
      { pubkey := pk, advName := advName, firstSeen := now, lastSeen := now }, true)

def touchUser (pk : Pubkey) (now : Int) (hops : Option Int) : UserTable :=
  t.update pk (fun u => { u with
    lastSeen := now, msgCount := u.msgCount + 1, lastHops := coalesce hops u.lastHops })
    fun _ => ⟨rfl, rfl, rfl⟩

def touchUserActivity (pk : Pubkey) (now : Int) : UserTable × Bool :=
  (t.update pk (fun u => { u with lastSeen := now }) fun _ => ⟨rfl, rfl, rfl⟩, (t.getUser pk).isSome)

def setName (pk : Pubkey) (name : Text) : List User :=
  t.rows.map (updateRow pk fun u => { u with
    displayName := some name, displayNameLc := some (lower name), onboarded := true })

/-- `False` on a uniqueness violation. -/
def setDisplayName (pk : Pubkey) (name : Text) : UserTable × Bool :=
  if h : UniqueRows (t.setName lower pk name) then (⟨t.setName lower pk name, h⟩, true)
  else (t, false)

def markMotdSent (pk : Pubkey) : UserTable :=
  t.update pk (fun u => { u with motdSent := true }) fun _ => ⟨rfl, rfl, rfl⟩

def setBanned (pk : Pubkey) (banned : Bool) (reason : Option Text) : UserTable :=
  t.update pk (fun u => { u with banned := banned, bannedReason := reason }) fun _ => ⟨rfl, rfl, rfl⟩

/-- `try_set_name`: the table, the answer, and the audit row it writes. -/
def trySetName (pk : Pubkey) (name : Text) (now : Int) :
    UserTable × (Bool × Text) × Option AuditRow :=
  match Names.validateName lower name with
  | some err => (t, (false, err), none)
  | none =>
    match t.setDisplayName lower pk name with
    | (_, false) => (t, (false, lit "! Name taken"), none)
    | (t, true) =>
      (t.markMotdSent pk, (true, lit "OK, you are " ++ name ++ lit ". Try HELP for commands."),
        some ⟨now, some pk, lit "onboarded", lit "name=" ++ name⟩)

variable {lower t}

theorem upsertUserFirstSeen_of_some {pk : Pubkey} {advName : Option Text} {now : Int} {u : User}
    (h : t.getUser pk = some u) :
    t.upsertUserFirstSeen pk advName now = (t.seeUser pk advName now, u, false) := by
  unfold upsertUserFirstSeen
  split
  · next existing hfind =>
    cases h.symm.trans hfind
    rfl
  · next hfind => cases h.symm.trans hfind

theorem upsertUserFirstSeen_of_none {pk : Pubkey} {advName : Option Text} {now : Int}
    (h : t.getUser pk = none) :
    t.upsertUserFirstSeen pk advName now = (t.insertStub pk advName now h,
      { pubkey := pk, advName := advName, firstSeen := now, lastSeen := now }, true) := by
  unfold upsertUserFirstSeen
  split
  · next existing hfind => cases h.symm.trans hfind
  · rfl

theorem getUser_insertStub {pk : Pubkey} {advName : Option Text} {now : Int}
    (h : t.getUser pk = none) : (t.insertStub pk advName now h).getUser pk =
      some { pubkey := pk, advName := advName, firstSeen := now, lastSeen := now } := by
  have hnone : t.rows.find? (fun u => u.pubkey = pk) = none := h
  simp [insertStub, getUser, List.find?_append, hnone]

/-! ## Rows after a write -/

/-- A lookup after the rows were rewritten. -/
theorem getUser_of_map {t' : UserTable} {f : User → User} (hrows : t'.rows = t.rows.map f)
    (hf : ∀ u, (f u).pubkey = u.pubkey) (pk : Pubkey) : t'.getUser pk = (t.getUser pk).map f := by
  unfold getUser
  rw [hrows, List.find?_map]
  congr 2
  funext u
  simp [hf u]

theorem updateRow_pubkey {f : User → User} (hf : ∀ u, (f u).pubkey = u.pubkey) (pk : Pubkey)
    (u : User) : (updateRow pk f u).pubkey = u.pubkey := by
  unfold updateRow
  split
  · exact hf u
  · rfl

theorem mem_update {pk : Pubkey} {f : User → User} {hf : KeepsKeys f} {u : User}
    (h : u ∈ (t.update pk f hf).rows) :
    ∃ v ∈ t.rows, u = updateRow pk f v := by
  obtain ⟨v, hv, rfl⟩ := List.mem_map.mp h
  exact ⟨v, hv, rfl⟩

theorem eq_of_pubkey {u v : User} (hu : u ∈ t.rows) (hv : v ∈ t.rows) (h : u.pubkey = v.pubkey) :
    u = v :=
  List.inj_on_of_nodup_map t.unique.pubkeys hu hv h

theorem getUser_of_mem {u : User} (hu : u ∈ t.rows) : t.getUser u.pubkey = some u := by
  unfold getUser
  cases hf : t.rows.find? fun v => v.pubkey = u.pubkey with
  | none =>
    have := List.find?_eq_none.mp hf u hu
    simp at this
  | some v =>
    have hv : v.pubkey = u.pubkey := by simpa using List.find?_some hf
    rw [eq_of_pubkey (List.mem_of_find?_eq_some hf) hu hv]

theorem eq_of_nameLc {u v : User} (hu : u ∈ t.rows) (hv : v ∈ t.rows) {name : Text}
    (hun : u.displayNameLc = some name) (hvn : v.displayNameLc = some name) : u = v := by
  by_contra hne
  have hpair := List.pairwise_filterMap.mp t.unique.namesLc
  have : Std.Symm fun u v : User => ∀ b, u.displayNameLc = some b → ∀ b',
      v.displayNameLc = some b' → b ≠ b' := ⟨fun _ _ h b hb b' hb' heq => h b' hb' b hb heq.symm⟩
  exact hpair.forall hu hv hne name hun name hvn rfl

/-- `get_user_by_name` finds the one user of that name. -/
theorem getUserByName_eq {u : User} {name : Text} (hu : u ∈ t.rows)
    (h : u.displayNameLc = some (lower name)) : t.getUserByName lower name = some u := by
  unfold getUserByName
  cases hf : t.rows.find? fun u => u.displayNameLc = some (lower name) with
  | none =>
    have := List.find?_eq_none.mp hf u hu
    simp [h] at this
  | some v =>
    have hv : v.displayNameLc = some (lower name) := by simpa using List.find?_some hf
    rw [eq_of_nameLc (List.mem_of_find?_eq_some hf) hu hv h]

end UserTable

/-! ## Reachable tables -/

/-- The operations of the program that write the table: an inbound message, overheard
activity, `NAME`, and `ADMIN BAN` or `UNBAN`. -/
inductive UserOp
  | firstSeen (pk : Pubkey) (advName : Option Text) (now : Int)
  | touch (pk : Pubkey) (now : Int) (hops : Option Int)
  | activity (pk : Pubkey) (now : Int)
  | setName (pk : Pubkey) (name : Text) (now : Int)
  | ban (pk : Pubkey) (banned : Bool) (reason : Option Text)

def UserOp.run (lower : Text → Text) (t : UserTable) : UserOp → Option UserTable
  | firstSeen pk advName now => some (t.upsertUserFirstSeen pk advName now).1
  | touch pk now hops => some (t.touchUser pk now hops)
  | activity pk now => some (t.touchUserActivity pk now).1
  | setName pk name now => some (t.trySetName lower pk name now).1
  | ban pk banned reason => some (t.setBanned pk banned reason)

/-- Tables that the operations make of an empty one. -/
abbrev UserTable.Reachable (lower : Text → Text) (t : UserTable) : Prop :=
  Machine.Run (UserOp.run lower) (fun _ _ => True) UserTable.empty t

/-- A named user is onboarded, and `display_name_lc` is the name lower-cased. -/
def User.Named (lower : Text → Text) (u : User) : Prop :=
  ∀ n, u.displayName = some n → u.displayNameLc = some (lower n) ∧ u.onboarded = true

variable {lower : Text → Text} {t t' : UserTable}

theorem named_update (h : ∀ u ∈ t.rows, u.Named lower) {pk : Pubkey} {f : User → User}
    (hf : KeepsKeys f) (hon : ∀ u, (f u).onboarded = u.onboarded) :
    ∀ u ∈ (t.update pk f hf).rows, u.Named lower := by
  intro u hu n hn
  obtain ⟨v, hv, rfl⟩ := UserTable.mem_update hu
  obtain ⟨-, hname, hlc⟩ := hf.updateRow pk v
  rw [hname] at hn
  obtain ⟨hvlc, hvon⟩ := h v hv n hn
  refine ⟨hlc.trans hvlc, ?_⟩
  unfold updateRow
  split
  · rw [hon, hvon]
  · exact hvon

theorem named_setDisplayName (h : ∀ u ∈ t.rows, u.Named lower) (pk : Pubkey) (name : Text) :
    ∀ u ∈ (t.setDisplayName lower pk name).1.rows, u.Named lower := by
  unfold UserTable.setDisplayName
  split
  · intro u hu
    obtain ⟨v, hv, rfl⟩ := List.mem_map.mp hu
    unfold updateRow
    split
    · intro n hn
      cases hn
      exact ⟨rfl, rfl⟩
    · exact h v hv
  · exact h

theorem named_step {op : UserOp} (h : ∀ u ∈ t.rows, u.Named lower)
    (hs : op.run lower t = some t') : ∀ u ∈ t'.rows, u.Named lower := by
  cases op with
  | firstSeen pk advName now =>
    cases hs
    unfold UserTable.upsertUserFirstSeen
    split
    · dsimp only
      exact named_update h _ fun _ => rfl
    · intro u hu
      rcases List.mem_append.mp hu with hu | hu
      · exact h u hu
      · rw [List.mem_singleton.mp hu]
        intro n hn
        cases hn
  | touch pk now hops =>
    cases hs
    exact named_update h _ fun _ => rfl
  | activity pk now =>
    cases hs
    dsimp only [UserTable.touchUserActivity]
    exact named_update h _ fun _ => rfl
  | setName pk name now =>
    cases hs
    have hset := named_setDisplayName h pk name
    unfold UserTable.trySetName
    split
    · exact h
    · split
      · exact h
      · next heq =>
        rw [heq] at hset
        dsimp only [UserTable.markMotdSent]
        exact named_update hset _ fun _ => rfl
  | ban pk banned reason =>
    cases hs
    exact named_update h _ fun _ => rfl

theorem named_of_reachable (h : t.Reachable lower) : ∀ u ∈ t.rows, u.Named lower :=
  h.invariant (P := fun t => ∀ u ∈ t.rows, u.Named lower) (fun _ _ _ hn _ hs => named_step hn hs)
    (by simp [UserTable.empty])

end Bbs
