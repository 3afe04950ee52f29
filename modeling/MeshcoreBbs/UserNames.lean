import MeshcoreBbs.Inbound
import MeshcoreBbs.Process

/-!
# The names in the user table

`OnUsers` lists what an operation can do to the table.  From it, every row of a reachable
table is `WellNamed`, nobody's onboarding is undone, and a refused name changes no row.
-/

namespace Bbs

open Coroutine Dispatcher

namespace User

/-- The columns of a name. -/
def names (u : User) : Pubkey × Option Text × Option Text × Bool :=
  (u.pubkey, u.displayName, u.displayNameLc, u.onboarded)

/-- A user is onboarded with a valid name, which `display_name_lc` has in lower case. -/
structure WellNamed (lower : Text → Text) (u : User) : Prop where
  onboarded : u.onboarded = true ↔ u.displayName.isSome = true
  folded : u.displayNameLc = u.displayName.map lower
  valid : ∀ name ∈ u.displayName, Names.validateName lower name = none

theorem WellNamed.congr {lower : Text → Text} {u v : User} (h : u.WellNamed lower)
    (hnames : v.names = u.names) : v.WellNamed lower := by
  simp only [names, Prod.mk.injEq] at hnames
  obtain ⟨-, hname, hlc, hon⟩ := hnames
  constructor
  · rw [hon, hname]
    exact h.onboarded
  · rw [hlc, hname]
    exact h.folded
  · rw [hname]
    exact h.valid

end User

namespace UserNames

/-! ## Operations -/

variable {py : Py} {op : Op} {w : World} {lower : Text → Text} {t t' : UserTable}

/-- What an operation makes of the user table. -/
inductive OnUsers (lower : Text → Text) (op : Op) (t t' : UserTable) : Prop
  | rewritten (f : User → User) (hf : ∀ u, (f u).names = u.names) (hrows : t'.rows = t.rows.map f)
  | stub (u : User) (hnew : t.getUser u.pubkey = none) (hop : ∃ now, op = .insertUser u.pubkey u.advName now)
      (hu : u.names = (u.pubkey, none, none, false)) (hrows : t'.rows = t.rows ++ [u])
  | named (pk : Pubkey) (name : Text) (hop : op = .setDisplayName pk name)
      (htable : t' = (t.setDisplayName lower pk name).1)

theorem onUsers_update {pk : Pubkey} {f : User → User}
    (hrows : t'.rows = t.rows.map (updateRow pk f)) (hf : ∀ u, (f u).names = u.names) :
    OnUsers lower op t t' := by
  refine .rewritten (updateRow pk f) (fun u => ?_) hrows
  unfold updateRow
  split
  · exact hf u
  · rfl

theorem onUsers_same (h : t' = t) : OnUsers lower op t t' :=
  .rewritten id (fun _ => rfl) (by rw [h, List.map_id])

theorem run_users (py : Py) (op : Op) (w : World) :
    OnUsers py.lower op w.users (op.run py w).2.users := by
  cases op with
  | seeUser | touchUser | touchUserActivity | markMotdSent | setBanned =>
    refine onUsers_update rfl fun u => ?_
    rfl
  | insertUser pk advName now =>
    cases hfind : w.users.getUser pk with
    | none =>
      rw [Op.run_insertUser hfind]
      exact .stub _ hfind ⟨now, rfl⟩ rfl rfl
    | some u =>
      refine onUsers_same ?_
      rw [Op.run]
      split
      · next hnone => cases hfind.symm.trans hnone
      · rfl
  | setDisplayName pk name => exact .named pk name rfl rfl
  | addMail =>
    refine onUsers_same ?_
    rw [Op.run]
    split
    · rfl
    · next hadd => exact Store.users_addMail hadd
  | _ => first | exact onUsers_same rfl | exact onUsers_same (Op.check_frame (fun w => w.users) rfl)

/-! ## Every row -/

/-- Every row has a valid name, or none. -/
def WellNamed (lower : Text → Text) (t : UserTable) : Prop := ∀ u ∈ t.rows, u.WellNamed lower

/-- A name is set only if it is valid. -/
def Valid (lower : Text → Text) : Op → Prop
  | .setDisplayName _ name => Names.validateName lower name = none
  | _ => True

theorem WellNamed.setDisplayName (h : WellNamed lower t) {pk : Pubkey} {name : Text}
    (hvalid : Names.validateName lower name = none) :
    WellNamed lower (t.setDisplayName lower pk name).1 := by
  unfold UserTable.setDisplayName
  split
  · intro u hu
    obtain ⟨v, hv, rfl⟩ := List.mem_map.mp hu
    unfold updateRow
    split
    · refine ⟨by simp, rfl, fun n hn => ?_⟩
      cases hn
      exact hvalid
    · exact h v hv
  · exact h

theorem WellNamed.step (h : WellNamed py.lower w.users) (hop : Valid py.lower op) :
    WellNamed py.lower (op.run py w).2.users := by
  cases run_users py op w with
  | rewritten f hf hrows =>
    intro u hu
    rw [hrows] at hu
    obtain ⟨v, hv, rfl⟩ := List.mem_map.mp hu
    exact (h v hv).congr (hf v)
  | stub u _ _ hstub hrows =>
    intro v hv
    rw [hrows] at hv
    rcases List.mem_append.mp hv with hv | hv
    · exact h v hv
    · rw [List.mem_singleton.mp hv]
      simp only [User.names, Prod.mk.injEq] at hstub
      obtain ⟨-, hname, hlc, hon⟩ := hstub
      refine ⟨by simp [hon, hname], by rw [hlc, hname]; rfl, fun n hn => ?_⟩
      rw [hname] at hn
      cases hn
  | named pk name hset htable =>
    subst hset
    rw [htable]
    exact h.setDisplayName hop

/-- Who is onboarded in `t` is onboarded in `t'`. -/
def Stays (t t' : UserTable) : Prop :=
  ∀ u ∈ t.rows, u.onboarded = true → ∃ v ∈ t'.rows, v.pubkey = u.pubkey ∧ v.onboarded = true

theorem Stays.refl (t : UserTable) : Stays t t := fun u hu hon => ⟨u, hu, rfl, hon⟩

theorem Stays.trans {t'' : UserTable} (h : Stays t t') (h' : Stays t' t'') : Stays t t'' := by
  intro u hu hon
  obtain ⟨v, hv, hpk, hon⟩ := h u hu hon
  obtain ⟨v', hv', hpk', hon⟩ := h' v hv hon
  exact ⟨v', hv', hpk'.trans hpk, hon⟩

theorem stays_setDisplayName {pk : Pubkey} {name : Text} :
    Stays t (t.setDisplayName lower pk name).1 := by
  unfold UserTable.setDisplayName
  split
  · intro u hu hon
    refine ⟨_, List.mem_map_of_mem hu, ?_, ?_⟩
    · unfold updateRow
      split <;> rfl
    · unfold updateRow
      split
      · rfl
      · exact hon
  · exact .refl t

/-- **No operation undoes an onboarding.** -/
theorem stays_op (py : Py) (op : Op) (w : World) : Stays w.users (op.run py w).2.users := by
  cases run_users py op w with
  | rewritten f hf hrows =>
    intro u hu hon
    have hnames := hf u
    simp only [User.names, Prod.mk.injEq] at hnames
    refine ⟨f u, ?_, hnames.1, hnames.2.2.2.trans hon⟩
    rw [hrows]
    exact List.mem_map_of_mem hu
  | stub u _ _ _ hrows =>
    refine fun v hv hon => ⟨v, ?_, rfl, hon⟩
    rw [hrows]
    exact List.mem_append_left _ hv
  | named pk name _ htable =>
    rw [htable]
    exact stays_setDisplayName

/-! ## A refused name -/

/-- The rows of `t` have the same names in `t'`. -/
def SameNames (t t' : UserTable) : Prop := t'.rows.map User.names = t.rows.map User.names

/-- The constraints are on the names only. -/
theorem uniqueRows_congr {rows rows' : List User} (h : rows'.map User.names = rows.map User.names)
    (hrows : UniqueRows rows') : UniqueRows rows := by
  have hpubkeys := congrArg (List.map Prod.fst) h
  have hnames := congrArg (List.filterMap fun n => n.2.1) h
  have hnamesLc := congrArg (List.filterMap fun n => n.2.2.1) h
  simp only [List.map_map, List.filterMap_map] at hpubkeys hnames hnamesLc
  constructor
  · exact hpubkeys ▸ hrows.pubkeys
  · exact hnames ▸ hrows.names
  · exact hnamesLc ▸ hrows.namesLc

theorem SameNames.setName (h : SameNames t t') (pk : Pubkey) (name : Text) :
    (t'.setName lower pk name).map User.names = (t.setName lower pk name).map User.names := by
  let rename (n : Pubkey × Option Text × Option Text × Bool) :=
    if n.1 = pk then (n.1, some name, some (lower name), true) else n
  have hrename (t : UserTable) :
      (t.setName lower pk name).map User.names = (t.rows.map User.names).map rename := by
    unfold UserTable.setName
    rw [List.map_map, List.map_map]
    refine List.map_congr_left fun u _ => ?_
    by_cases hpk : u.pubkey = pk <;> simp [updateRow, rename, User.names, hpk]
  rw [hrename, hrename, h]

/-- `try_set_name` answers `False`. -/
def Refused (sv : Services) (w : World) (pk : Pubkey) (name : Text) : Prop :=
  (w.users.trySetName sv.py.lower pk name w.now).2.1.1 = false

instance (sv : Services) (w : World) (pk : Pubkey) (name : Text) : Decidable (Refused sv w pk name) :=
  inferInstanceAs (Decidable (_ = false))

theorem refused_iff {sv : Services} {pk : Pubkey} {name : Text} : Refused sv w pk name ↔
    (Names.validateName sv.py.lower name = none → ¬ UniqueRows (w.users.setName sv.py.lower pk name)) := by
  unfold Refused UserTable.trySetName UserTable.setDisplayName
  cases Names.validateName sv.py.lower name with
  | some err => simp
  | none =>
    by_cases hunique : UniqueRows (w.users.setName sv.py.lower pk name)
    · simp [hunique]
    · simp [hunique]

/-- The program answers as the table does. -/
theorem run_trySetName (sv : Services) (w : World) (pk : Pubkey) (name : Text) :
    ((sv.trySetName pk name).run (Op.run sv.py) w).1 =
      some (w.users.trySetName sv.py.lower pk name w.now).2.1.2 := by
  unfold Services.trySetName UserTable.trySetName
  cases Names.validateName sv.py.lower name with
  | some err => rfl
  | none =>
    dsimp only
    rw [run_bind, run_perform, Op.run, Option.elim_some]
    rcases w.users.setDisplayName sv.py.lower pk name with ⟨t, _ | _⟩ <;> rfl

/-- The table is written for one user, who asks for one name. -/
def OfSender (lower : Text → Text) (pk : Pubkey) (asked : Option Text) : Op → Prop
  | .insertUser pk' .. => pk' = pk
  | .setDisplayName pk' name => pk' = pk ∧ name ∈ asked ∧ Names.validateName lower name = none
  | _ => True

instance (pk : Pubkey) (asked : Option Text) : Op.Receives pk (OfSender lower pk asked) where
  reads op _ := by cases op <;> trivial
  answers _ _ := trivial
  audits _ _ _ := trivial
  rates _ _ _ := trivial
  motd := trivial
  mails _ _ := trivial
  mail _ := trivial
  sees _ _ := trivial
  inserts _ _ := rfl
  touches _ _ := trivial
  notices _ := trivial

section Refusal

variable {sv : Services} {inbound : InboundMessage} {w₀ : World}

theorem sameNames_op (hpk : (w₀.users.getUser inbound.pubkey).isSome = true)
    (hrefused : ∀ name ∈ askedName sv inbound, Refused sv w₀ inbound.pubkey name)
    (hop : OfSender sv.py.lower inbound.pubkey (askedName sv inbound) op)
    (hw : SameNames w₀.users w.users) : SameNames w₀.users (op.run sv.py w).2.users := by
  cases run_users sv.py op w with
  | rewritten f hf hrows =>
    rw [SameNames, hrows, List.map_map, ← hw]
    exact List.map_congr_left fun u _ => hf u
  | stub u hnone hinsert _ _ =>
    obtain ⟨now, rfl⟩ := hinsert
    obtain ⟨v, hv⟩ := Option.isSome_iff_exists.mp hpk
    have hvpk : v.pubkey = u.pubkey := (by simpa using List.find?_some hv : v.pubkey = _).trans hop.symm
    have hmem : v.names ∈ w.users.rows.map User.names := by
      rw [hw]
      exact List.mem_map_of_mem (List.mem_of_find?_eq_some hv)
    obtain ⟨v', hv', hnames⟩ := List.mem_map.mp hmem
    exact absurd ((congrArg Prod.fst hnames).trans hvpk) (w.users.getUser_eq_none hnone v' hv')
  | named pk name hset htable =>
    subst hset
    obtain ⟨rfl, hasked, hvalid⟩ := hop
    rw [htable]
    unfold UserTable.setDisplayName
    split
    · next hunique =>
      exact absurd (uniqueRows_congr (hw.setName _ name) hunique)
        (refused_iff.mp (hrefused name hasked) hvalid)
    · exact hw

/-- The rows of `t` are in `t'` with the same names. -/
def Carries (t t' : UserTable) : Prop := ∀ u ∈ t.rows, ∃ v ∈ t'.rows, v.names = u.names

theorem SameNames.carries {t'' : UserTable} (h : Carries t t') (h' : SameNames t' t'') :
    Carries t t'' := by
  intro u hu
  obtain ⟨v, hv, hnames⟩ := h u hu
  have hmem : u.names ∈ t''.rows.map User.names := by
    rw [h', ← hnames]
    exact List.mem_map_of_mem hv
  exact List.mem_map.mp hmem

theorem carries_op {pk : Pubkey} (hop : OfSender py.lower pk none op) (hw : Carries t w.users) :
    Carries t (op.run py w).2.users := by
  intro u hu
  obtain ⟨v, hv, hnames⟩ := hw u hu
  cases run_users py op w with
  | rewritten f hf hrows =>
    refine ⟨f v, ?_, (hf v).trans hnames⟩
    rw [hrows]
    exact List.mem_map_of_mem hv
  | stub _ _ _ _ hrows =>
    refine ⟨v, ?_, hnames⟩
    rw [hrows]
    exact List.mem_append_left _ hv
  | named pk name hset _ =>
    subst hset
    cases hop.2.1

theorem carries_received (sv : Services) (w : World) (inbound : InboundMessage) :
    Carries w.users (received w inbound).users := by
  refine received_induction sv.py (OfSender sv.py.lower inbound.pubkey none)
    (I := fun w' => Carries w.users w'.users) ?_ ?_
  · intro op hop w' hw
    exact carries_op hop hw
  · intro u hu
    exact ⟨u, hu, rfl⟩

/-- **A message whose name is refused, or that asks for none, changes nobody's name.** -/
theorem handleInbound_carries
    (hrefused : ∀ name ∈ askedName sv inbound, Refused sv (received w inbound) inbound.pubkey name) :
    Carries w.users ((handleInbound sv inbound).run (Op.run sv.py) w).2.users := by
  by_cases hself : inbound.pubkey = sv.py.lower sv.selfPubkey
  · unfold handleInbound
    rw [if_pos hself]
    exact fun u hu => ⟨u, hu, rfl⟩
  rw [run_handleInbound w hself]
  split
  · exact carries_received sv w inbound
  · have hname (name : Text) (hasked : name ∈ askedName sv inbound)
        (hvalid : Names.validateName sv.py.lower name = none) :
        OfSender sv.py.lower inbound.pubkey (askedName sv inbound)
          (.setDisplayName inbound.pubkey name) := ⟨rfl, hasked, hvalid⟩
    have hserve : (serve sv inbound (sender w inbound).1 (sender w inbound).2).Does
        (OfSender sv.py.lower inbound.pubkey (askedName sv inbound)) :=
      serve_does hname fun _ parsed hparse => handleCommand_does trivial
        (fun name hnew => hname name (by rwa [askedName_of_parse hparse])) (fun _ _ _ _ => trivial)
        fun op hop => by cases op <;> trivial
    exact SameNames.carries (carries_received sv w inbound) (hserve.keeps
      (I := fun w' => SameNames (received w inbound).users w'.users)
      (fun _ hop _ => sameNames_op (isSome_getUser_received w inbound) hrefused hop) _ rfl)

end Refusal

/-! ## Runs -/

section Runs

variable {sv : Services} {a : Process.Act} {w' : World}

theorem valid_of_request {r : Request} (op : Op) (h : op.OfRequest r) : Valid sv.py.lower op := by
  cases op <;> trivial

instance (pk : Pubkey) : Op.Receives pk (Valid lower) where
  reads op hop := by cases op <;> trivial
  answers _ _ := trivial
  audits _ _ _ := trivial
  rates _ _ _ := trivial
  motd := trivial
  mails _ _ := trivial
  mail _ := trivial
  sees _ _ := trivial
  inserts _ _ := trivial
  touches _ _ := trivial
  notices _ := trivial

theorem request_valid (sv : Services) (r : Request) : (r.prog sv).Does (Valid sv.py.lower) := by
  obtain ⟨msg, rfl⟩ | hr := r.inbound_or
  · exact handleInbound_does (fun _ _ hvalid => hvalid) fun parsed _ => handleCommand_does trivial
      (fun _ _ hvalid => hvalid) (fun _ _ _ _ => trivial)
      fun op hop => by cases op <;> trivial
  · exact (request_does sv hr).weaken valid_of_request

theorem wellNamed_step (h : WellNamed sv.py.lower w.users) (hs : Process.step sv w a = some w') :
    WellNamed sv.py.lower w'.users := by
  cases a with
  | request r =>
    cases hs
    exact (request_valid sv r).keeps (I := fun w => WellNamed sv.py.lower w.users)
      (fun _ hop _ hw => hw.step hop) w h
  | outside e => rwa [(Outside.frame hs).store]

theorem stays_step (hs : Process.step sv w a = some w') : Stays w.users w'.users := by
  cases a with
  | request r =>
    cases hs
    exact keeps_of_ops (I := fun w' => Stays w.users w'.users)
      (fun op w' hw => hw.trans (stays_op sv.py op w')) (r.prog sv) w (.refl _)
  | outside e =>
    rw [(Outside.frame hs).store]
    exact .refl _

theorem wellNamed_of_run {clock : ℚ}
    (hrun : Machine.Run (Process.step sv) (fun _ _ => True) (World.start clock) w) :
    WellNamed sv.py.lower w.users :=
  hrun.invariant (P := fun w => WellNamed sv.py.lower w.users)
    (fun _ _ _ hw _ hs => wellNamed_step hw hs) fun _ hu => absurd hu List.not_mem_nil

/-- **The user table.**  In every reachable state each row has a valid name or none, with
`display_name_lc` and the flag that belong to it, and no two rows have one name; nobody's
onboarding is ever undone; and a message whose name is refused changes no name. -/
theorem names_kept {clock : ℚ}
    (hrun : Machine.Run (Process.step sv) (fun _ _ => True) (World.start clock) w) :
    (∀ u ∈ w.users.rows, u.WellNamed sv.py.lower) ∧
      (w.users.rows.filterMap User.displayNameLc).Nodup ∧
      (∀ w', Machine.Run (Process.step sv) (fun _ _ => True) w w' → ∀ u ∈ w.users.rows,
        u.onboarded = true → ∃ v ∈ w'.users.rows, v.pubkey = u.pubkey ∧ v.onboarded = true) ∧
      ∀ msg w', Process.step sv w (.request (.inbound msg)) = some w' →
        (∀ name ∈ askedName sv msg, Refused sv (received w msg) msg.pubkey name) →
        ∀ u ∈ w.users.rows, ∃ v ∈ w'.users.rows, v.names = u.names := by
  refine ⟨wellNamed_of_run hrun, w.users.unique.namesLc, fun w' hafter => ?_, fun msg w' hs href => ?_⟩
  · exact hafter.invariant (P := fun w' => Stays w.users w'.users)
      (fun _ _ _ h _ hs => h.trans (stays_step hs)) (.refl _)
  · cases hs
    exact handleInbound_carries href

/-- `bob` asks for `Ann`, which is taken. -/
theorem names_kept_taken : ∃ w w', Process.step Process.asciiServices w
    (Process.fromUser (lit "bb") "NAME Ann") = some w' ∧
    w.users.rows.filterMap User.displayName = [lit "ann", lit "bob"] ∧
    ∀ u ∈ w.users.rows, ∃ v ∈ w'.users.rows, v.names = u.names := by
  let msg : InboundMessage := { pubkey := lit "bb", body := lit "NAME Ann", hops := some 0 }
  obtain ⟨w, hrun, hw⟩ := Machine.exists_run (Process.step Process.asciiServices) (fun _ _ => true)
    (p := fun w => w.users.rows.filterMap User.displayName = [lit "ann", lit "bob"] ∧
      (askedName Process.asciiServices msg).all fun name =>
        Refused Process.asciiServices (received w msg) msg.pubkey name) (s := World.start 0)
    Process.twoJoin (by decide +kernel)
  obtain ⟨hnames, hrefused⟩ := of_decide_eq_true hw
  refine ⟨w, _, rfl, hnames, (names_kept (hrun.mono fun _ _ _ => trivial)).2.2.2 _ _ rfl ?_⟩
  intro name hname
  rw [Option.mem_def.mp hname, Option.all_some] at hrefused
  exact of_decide_eq_true hrefused

end Runs

end UserNames

end Bbs
