import MeshcoreBbs.AdminAudit

/-!
# Whom `ADMIN BAN` hits

`get_user_by_prefix` pastes its argument into a `LIKE` pattern and takes the first row that
matches.  The statements after it write that row only, and a ban spares the admin; but a row
can match without starting with the argument, through a wildcard in it or the case of a
letter (`ban_hits_iff`).
-/

namespace Bbs

open Coroutine

/-- The row but for its ban. -/
def User.withoutBan (u : User) : User := { u with banned := false, bannedReason := none }

namespace BanTargets

variable {sv : Services} {w : World} {t t' : UserTable} {starts : Pubkey → Prop}

/-- One row at most differs, that of a pubkey with `starts`, in its ban only. -/
structure HitsOne (starts : Pubkey → Prop) (t t' : UserTable) : Prop where
  one : ∀ p q, t'.getUser p ≠ t.getUser p → t'.getUser q ≠ t.getUser q → p = q
  starts : ∀ p, t'.getUser p ≠ t.getUser p → starts p
  rest : t'.rows.map User.withoutBan = t.rows.map User.withoutBan

/-- The first row of the scan whose pubkey matches the argument and `%`. -/
def FirstMatch (lower : Text → Text) (t : UserTable) (target : Text) (u : User) : Prop :=
  ∃ pre post, t.rows = pre ++ u :: post ∧ Like.like (lower target ++ ['%']) u.pubkey = true ∧
    ∀ v ∈ pre, Like.like (lower target ++ ['%']) v.pubkey = false

theorem firstMatch_iff {lower : Text → Text} {target : Text} {u : User} :
    t.getUserByPrefix lower target = some u ↔ FirstMatch lower t target u := by
  unfold UserTable.getUserByPrefix FirstMatch
  rw [List.find?_eq_some_iff_append]
  constructor
  · rintro ⟨hu, pre, post, hrows, hpre⟩
    exact ⟨pre, post, hrows, hu, fun v hv => by simpa using hpre v hv⟩
  · rintro ⟨pre, post, hrows, hu, hpre⟩
    exact ⟨hu, pre, post, hrows, fun v hv => by simpa using hpre v hv⟩

/-! ## One statement -/

theorem hitsOne_refl (starts : Pubkey → Prop) (t : UserTable) : HitsOne starts t t :=
  ⟨fun _ _ hp => absurd rfl hp, fun _ hp => absurd rfl hp, rfl⟩

theorem getUser_setBanned (q : Pubkey) (banned : Bool) (reason : Option Text) (p : Pubkey) :
    (t.setBanned q banned reason).getUser p = (t.getUser p).map (updateRow q fun u =>
      { u with banned := banned, bannedReason := reason }) := by
  refine UserTable.getUser_of_map rfl (UserTable.updateRow_pubkey (fun u => ?_) q) p
  rfl

theorem getUser_setBanned_other {p q : Pubkey} (hpq : p ≠ q) (banned : Bool) (reason : Option Text) :
    (t.setBanned q banned reason).getUser p = t.getUser p := by
  rw [getUser_setBanned]
  cases hfind : t.getUser p with
  | none => rfl
  | some u =>
    have hu : u.pubkey = p := by simpa using List.find?_some hfind
    rw [Option.map_some, updateRow, if_neg (hu ▸ hpq)]

/-- The statement writes the row of its pubkey, unless the ban is as it should be. -/
theorem setBanned_hits_iff {u : User} (hu : u ∈ t.rows) (banned : Bool) (reason : Option Text) :
    HitsOne starts t (t.setBanned u.pubkey banned reason) ↔
      starts u.pubkey ∨ (u.banned = banned ∧ u.bannedReason = reason) := by
  have hself : (t.setBanned u.pubkey banned reason).getUser u.pubkey =
      some { u with banned := banned, bannedReason := reason } := by
    rw [getUser_setBanned, UserTable.getUser_of_mem hu, Option.map_some, updateRow, if_pos rfl]
  have hchanged {p : Pubkey} (hp : (t.setBanned u.pubkey banned reason).getUser p ≠ t.getUser p) :
      p = u.pubkey := by
    by_contra hpq
    exact hp (getUser_setBanned_other hpq banned reason)
  have hrest : (t.setBanned u.pubkey banned reason).rows.map User.withoutBan =
      t.rows.map User.withoutBan := by
    show (t.rows.map (updateRow u.pubkey _)).map User.withoutBan = _
    rw [List.map_map]
    apply List.map_congr_left
    intro v _
    unfold Function.comp updateRow
    split <;> rfl
  constructor
  · intro h
    by_cases hsame : u.banned = banned ∧ u.bannedReason = reason
    · exact .inr hsame
    · refine .inl (h.starts u.pubkey ?_)
      rw [hself, UserTable.getUser_of_mem hu]
      intro heq
      have hrow := Option.some.inj heq
      exact hsame ⟨(congrArg User.banned hrow).symm, (congrArg User.bannedReason hrow).symm⟩
  · rintro (hstarts | ⟨rfl, rfl⟩)
    · refine ⟨fun p q hp hq => ?_, fun p hp => ?_, hrest⟩
      · rw [hchanged hp, hchanged hq]
      · rw [hchanged hp]
        exact hstarts
    · have hnone {p : Pubkey} (hp : (t.setBanned u.pubkey u.banned u.bannedReason).getUser p ≠
          t.getUser p) : False := by
        apply hp
        rw [hchanged hp, hself, UserTable.getUser_of_mem hu]
      exact ⟨fun p q hp => (hnone hp).elim, fun p hp => (hnone hp).elim, hrest⟩

/-! ## The commands -/

/-- Operations that leave the users alone. -/
def SparesUsers (op : Op) : Prop := ∀ py w, (op.run py w).2.users = w.users

theorem sparesUsers_of_reads (op : Op) (h : op.Reads) : SparesUsers op := by
  intro py w
  rw [h.run]

theorem answer_spares (pk : Pubkey) (text : Text) (verb : Option Text) (w : World) :
    ((Dispatcher.answer pk text verb).run (Op.run sv.py) w).2.users = w.users := by
  have hdoes : (Dispatcher.answer pk text verb).Does SparesUsers :=
    (enqueueReply_runs sparesUsers_of_reads fun _ _ _ _ => rfl).does
  refine hdoes.keeps (I := fun w' => w'.users = w.users) (fun op hop w' hw => ?_) w rfl
  exact (hop sv.py w').trans hw

/-- What is answered changes no user. -/
theorem users_answered {pk : Pubkey} {m : Prog Text} {verb : Option Text} (w : World) :
    ((m >>= fun text => Dispatcher.answer pk text verb).run (Op.run sv.py) w).2.users =
      (m.run (Op.run sv.py) w).2.users := by
  rw [run_bind]
  cases (m.run (Op.run sv.py) w).1 with
  | none => rfl
  | some text => exact answer_spares ..

/-- The reason is stored only if there is one. -/
def storedReason (reason : List Text) : Option Text :=
  if (lit " ").intercalate reason = [] then none else some ((lit " ").intercalate reason)

theorem users_ban {pk : Pubkey} (target : Text) (reason : List Text) :
    ((Services.ban pk target ((lit " ").intercalate reason)).run (Op.run sv.py) w).2.users =
      (w.users.getUserByPrefix sv.py.lower target).elim w.users fun u =>
        if u.pubkey = pk then w.users else w.users.setBanned u.pubkey true (storedReason reason) := by
  have hget : (call (.getUserByPrefix target)).run (Op.run sv.py) w =
    (some (w.users.getUserByPrefix sv.py.lower target), w) := rfl
  unfold Services.ban
  rw [run_bind_of_some hget]
  cases w.users.getUserByPrefix sv.py.lower target with
  | none => rfl
  | some u =>
    rw [Option.elim_some]
    dsimp only
    split
    · rfl
    · rfl

theorem users_unban (pk : Pubkey) (target : Text) :
    ((Services.unban pk target).run (Op.run sv.py) w).2.users =
      (w.users.getUserByPrefix sv.py.lower target).elim w.users fun u =>
        w.users.setBanned u.pubkey false none := by
  have hget : (call (.getUserByPrefix target)).run (Op.run sv.py) w =
    (some (w.users.getUserByPrefix sv.py.lower target), w) := rfl
  unfold Services.unban
  rw [run_bind_of_some hget]
  cases w.users.getUserByPrefix sv.py.lower target with
  | none => rfl
  | some u => rfl

/-- The users after the commands of an admin. -/
def usersAfter (sv : Services) (inbound : InboundMessage) (w : World) (verb : Text) (args : List Text)
    (rest : Text) : UserTable :=
  ((Dispatcher.dispatch sv inbound ⟨verb, args, rest⟩).run (Op.run sv.py) w).2.users

section Dispatch

variable {inbound : InboundMessage} {target : Text} {args : List Text} {rest : Text}

theorem usersAfter_ban (hadmin : sv.isAdmin inbound.pubkey = true) :
    usersAfter sv inbound w (lit "ADMIN BAN") (target :: args) rest =
      (w.users.getUserByPrefix sv.py.lower target).elim w.users fun u =>
        if u.pubkey = inbound.pubkey then w.users
        else w.users.setBanned u.pubkey true (storedReason args) := by
  rw [← users_ban]
  unfold usersAfter
  rw [AdminAudit.dispatch_admin (by simp [AdminAudit.adminVerbs]), Dispatcher.handleAdmin, hadmin]
  exact users_answered w

theorem usersAfter_unban (hadmin : sv.isAdmin inbound.pubkey = true) :
    usersAfter sv inbound w (lit "ADMIN UNBAN") (target :: args) rest =
      (w.users.getUserByPrefix sv.py.lower target).elim w.users fun u =>
        w.users.setBanned u.pubkey false none := by
  rw [← users_unban inbound.pubkey]
  unfold usersAfter
  rw [AdminAudit.dispatch_admin (by simp [AdminAudit.adminVerbs]), Dispatcher.handleAdmin, hadmin]
  exact users_answered w

/-- The statement for the row that is found, if it is not spared. -/
theorem hits_found_iff (lower : Text → Text) (starts : Pubkey → Prop) (spared : User → Prop)
    [DecidablePred spared] (banned : Bool) (reason : Option Text)
    (hspared : ∀ u, ¬ spared u → lower target <+: u.pubkey → starts u.pubkey)
    (hstarts : ∀ pk, starts pk → lower target <+: pk) :
    HitsOne starts t ((t.getUserByPrefix lower target).elim t fun u =>
        if spared u then t else t.setBanned u.pubkey banned reason) ↔
      ∀ u, FirstMatch lower t target u → ¬ spared u →
        lower target <+: u.pubkey ∨ (u.banned = banned ∧ u.bannedReason = reason) := by
  cases hfind : t.getUserByPrefix lower target with
  | none =>
    refine iff_of_true (hitsOne_refl _ _) ?_
    intro u hu
    rw [← firstMatch_iff, hfind] at hu
    cases hu
  | some u =>
    have hu : u ∈ t.rows := List.mem_of_find?_eq_some hfind
    have hfirst (v : User) : FirstMatch lower t target v ↔ v = u := by
      rw [← firstMatch_iff, hfind, Option.some.injEq, eq_comm]
    rw [Option.elim_some]
    by_cases hself : spared u
    · rw [if_pos hself]
      refine iff_of_true (hitsOne_refl _ _) ?_
      intro v hv hne
      rw [(hfirst v).mp hv] at hne
      exact absurd hself hne
    · rw [if_neg hself, setBanned_hits_iff hu]
      constructor
      · intro h v hv _
        rw [(hfirst v).mp hv]
        exact h.imp_left (hstarts u.pubkey)
      · intro h
        exact (h u ((hfirst u).mpr rfl) hself).imp_left (hspared u hself)

end Dispatch

/-- **Whom a ban hits.**  `ADMIN BAN p` and `ADMIN UNBAN p` hit one user at most, whose pubkey
starts with `p` in lower case and, for a ban, is not the admin's, exactly when the first row that
matches as a pattern starts with it literally or is banned, or not, as it should be. -/
theorem ban_hits_iff (sv : Services) (inbound : InboundMessage)
    (hadmin : sv.isAdmin inbound.pubkey = true) (w : World) (target : Text) (args : List Text)
    (rest : Text) :
    (HitsOne (fun pk => sv.py.lower target <+: pk ∧ pk ≠ inbound.pubkey) w.users
        (usersAfter sv inbound w (lit "ADMIN BAN") (target :: args) rest) ↔
      ∀ u, FirstMatch sv.py.lower w.users target u → u.pubkey ≠ inbound.pubkey →
        sv.py.lower target <+: u.pubkey ∨ (u.banned = true ∧ u.bannedReason = storedReason args)) ∧
    (HitsOne (fun pk => sv.py.lower target <+: pk) w.users
        (usersAfter sv inbound w (lit "ADMIN UNBAN") (target :: args) rest) ↔
      ∀ u, FirstMatch sv.py.lower w.users target u →
        sv.py.lower target <+: u.pubkey ∨ (u.banned = false ∧ u.bannedReason = none)) := by
  rw [usersAfter_ban hadmin, usersAfter_unban hadmin]
  constructor
  · exact hits_found_iff sv.py.lower _ (fun u => u.pubkey = inbound.pubkey) true (storedReason args)
      (fun u hne hu => ⟨hu, hne⟩) fun _ h => h.1
  · have h := hits_found_iff (t := w.users) sv.py.lower (fun pk => sv.py.lower target <+: pk)
      (fun _ => False) false none (fun _ _ hu => hu) fun _ h => h
    simpa using h

/-- Without wildcards, and with pubkeys in lower case, what matches starts with the argument. -/
theorem starts_of_plain {lower : Text → Text} {target : Text} {u : User}
    (hplain : ∀ c ∈ lower target, c ≠ '%' ∧ c ≠ '_')
    (hlower : (lower target).map Char.toLower = lower target)
    (hkey : u.pubkey.map Char.toLower = u.pubkey) (h : FirstMatch lower t target u) :
    lower target <+: u.pubkey := by
  obtain ⟨-, -, -, hmatch, -⟩ := h
  have hprefix := (Like.like_append_percent_iff hplain).mp hmatch
  rwa [hlower, hkey] at hprefix

/-! ## A wildcard -/

/-- Two users. -/
def twoUsers : World :=
  { World.start 0 with users :=
      { rows := [{ pubkey := lit "bb", firstSeen := 0, lastSeen := 0 },
          { pubkey := lit "aa", firstSeen := 0, lastSeen := 0 }]
        unique := by decide } }

def banService : Services := { py := asciiPy, bbs := { adminPubkeys := [lit "aa"] } }

def fromAdmin : InboundMessage := { pubkey := lit "aa", body := lit "ADMIN BAN" }

theorem ban_hits_iff_plain :
    HitsOne (fun pk => lit "b" <+: pk ∧ pk ≠ lit "aa") twoUsers.users
        (usersAfter banService fromAdmin twoUsers (lit "ADMIN BAN") [lit "B", lit "rude"]
          (lit "B rude")) ∧
      HitsOne (fun pk => lit "b" <+: pk) twoUsers.users
        (usersAfter banService fromAdmin twoUsers (lit "ADMIN UNBAN") [lit "B", lit "rude"]
          (lit "B rude")) := by
  have h := ban_hits_iff banService fromAdmin (by decide +kernel) twoUsers (lit "B") [lit "rude"]
    (lit "B rude")
  have hstarts {u : User} (hu : FirstMatch asciiPy.lower twoUsers.users (lit "B") u) :
      lit "b" <+: u.pubkey := by
    obtain ⟨pre, post, hrows, hmatch, -⟩ := hu
    have hmem : u ∈ twoUsers.users.rows := by simp [hrows]
    have hall : ∀ v ∈ twoUsers.users.rows,
        Like.like (asciiPy.lower (lit "B") ++ ['%']) v.pubkey = true → lit "b" <+: v.pubkey := by
      decide +kernel
    exact hall u hmem hmatch
  exact ⟨h.1.mpr fun u hu _ => .inl (hstarts hu), h.2.mpr fun u hu => .inl (hstarts hu)⟩

/-- `ADMIN BAN %` bans the first user who is not the admin. -/
theorem ban_percent :
    ¬ HitsOne (fun pk => asciiPy.lower (lit "%") <+: pk ∧ pk ≠ lit "aa") twoUsers.users
        (usersAfter banService fromAdmin twoUsers (lit "ADMIN BAN") [lit "%"] (lit "%")) := by
  intro h
  have hstarts := h.starts (lit "bb") (by decide +kernel)
  exact absurd hstarts.1 (by decide +kernel)

end BanTargets

end Bbs
