import MeshcoreBbs.Users

/-!
# Sending mail (`services/mail.py`, `resolve_recipient` and `send`)

An identifier is tried as a name, as a part of a name and as a key prefix.  A user
found by name who is banned is passed over, and a later stage may find somebody
else: mail for a banned user can go to a stranger (`send_misdelivered`).
`send_to_named_iff` says when mail for a named user goes to nobody else.
-/

namespace Bbs

/-- Columns of `mail` other than `id`. -/
structure MailRow where
  fromPubkey : Pubkey
  toPubkey : Pubkey
  body : Text
  sentAt : Int
  readAt : Option Int := none
  deleted : Bool := false
  deriving DecidableEq

/-- The row that `add_mail` inserts. -/
def newMail (fromPk toPk : Pubkey) (body : Text) (now : Int) : MailRow :=
  { fromPubkey := fromPk, toPubkey := toPk, body := body, sentAt := now }

/-- The tables that the mail service uses. -/
structure Store where
  users : UserTable
  mail : RowTable MailRow

/-- `add_mail` with the new id; `none` when a foreign key has no user. -/
def Store.addMail (store : Store) (fromPk toPk : Pubkey) (body : Text) (now : Int) :
    Option (Store × Nat) :=
  if (store.users.getUser fromPk).isSome && (store.users.getUser toPk).isSome then
    some ({ store with mail := store.mail.insert (newMail fromPk toPk body now) },
      store.mail.seq + 1)
  else none

theorem Store.users_addMail {store store' : Store} {fromPk toPk : Pubkey} {body : Text} {now : Int}
    {id : Nat} (h : store.addMail fromPk toPk body now = some (store', id)) :
    store'.users = store.users := by
  unfold Store.addMail at h
  split at h
  · cases h
    rfl
  · cases h

structure RecipientResolution where
  user : Option User := none
  ambiguousNames : Option (List Text) := none

namespace MailService

/-- The identifier, lower-cased, is long enough for a key prefix and hexadecimal. -/
def isKeyPrefix (cleaned : Text) : Bool :=
  6 ≤ cleaned.length && cleaned.all fun c => (lit "0123456789abcdef").contains c

section Send

variable (lower : Text → Text) (users : UserTable)

/-- The pubkey-prefix fallback. -/
def resolveByPrefix (identifier : Text) : RecipientResolution :=
  if isKeyPrefix (lower identifier) then
    match users.getUserByPrefix lower (lower identifier) with
    | some byPrefix => if byPrefix.eligible then { user := some byPrefix } else {}
    | none => {}
  else {}

/-- The loose match on names. -/
def resolveLoosely (identifier : Text) : RecipientResolution :=
  match users.findUsersByNameSubstring lower identifier with
  | [] => resolveByPrefix lower users identifier
  | [user] => { user := some user }
  | partials =>
    { ambiguousNames := some ((partials.filterMap User.displayName).filter fun n => n ≠ []) }

def resolveRecipient (identifier : Text) : RecipientResolution :=
  if identifier = [] then {}
  else
    match users.getUserByName lower identifier with
    | some byName =>
      if byName.eligible then { user := some byName } else resolveLoosely lower users identifier
    | none => resolveLoosely lower users identifier

/-- `", ".join(names)`. -/
def joinNames (names : List Text) : Text := (lit ", ").intercalate names

/-- What `send` answers: whether it stored the mail, the reply, and the recipient. -/
structure Reply where
  ok : Bool
  text : Text
  recipient : Option User := none

def ambiguous (names : List Text) : Text :=
  lit "! Ambiguous: " ++ joinNames (names.take 4) ++ if 4 < names.length then lit ", ..." else []

/-- `send`, with its reply; `none` when the `INSERT` raises. -/
def send (maxBodyChars : Int) (store : Store) (fromPk : Pubkey) (recipientId body : Text)
    (now : Int) : Option Reply × Store :=
  let resolution := resolveRecipient lower store.users recipientId
  let names := resolution.ambiguousNames.getD []
  if names ≠ [] then (some { ok := false, text := ambiguous names }, store)
  else
    match resolution.user with
    | none => (some { ok := false, text := lit "! No such user." }, store)
    | some recipient =>
      let body := strip body
      if body = [] then (some { ok := false, text := lit "! Empty mail." }, store)
      else if maxBodyChars < body.length then
        (some { ok := false,
                text := lit "! Too long, max " ++ decimalInt maxBodyChars ++ lit " chars" }, store)
      else
        match store.addMail fromPk recipient.pubkey body now with
        | none => (none, store)
        | some (store, mailId) =>
          (some { ok := true, text := lit "OK [mail=" ++ decimal mailId ++ lit "]",
                  recipient := some recipient }, store)

end Send

/-! ## Who gets the mail -/

variable {lower : Text → Text} {users : UserTable} {store : Store} {maxBodyChars : Int}
  {fromPk : Pubkey} {recipientId body : Text} {now : Int}

/-- The mail is stored for `u`. -/
def Stored (store store' : Store) (u : User) : Prop :=
  ∃ row, store'.mail = store.mail.insert row ∧ row.toPubkey = u.pubkey

/-- The body may be stored and the sender is a user. -/
def sendable (maxBodyChars : Int) (users : UserTable) (fromPk : Pubkey) (body : Text) : Bool :=
  strip body ≠ [] && (strip body).length ≤ maxBodyChars && (users.getUser fromPk).isSome

theorem mem_findUsers {needle : Text} {u : User}
    (h : u ∈ users.findUsersByNameSubstring lower needle) : u ∈ users.rows ∧ u.eligible = true := by
  unfold UserTable.findUsersByNameSubstring at h
  split at h
  · cases h
  · rw [List.mem_insertionSort, List.mem_filter, Bool.and_eq_true] at h
    exact ⟨h.1, h.2.1⟩

/-- The loose stages find an eligible user, or nobody. -/
theorem resolveLoosely_user {u : User} (h : (resolveLoosely lower users recipientId).user = some u) :
    u ∈ users.rows ∧ u.eligible = true := by
  unfold resolveLoosely at h
  split at h
  · unfold resolveByPrefix at h
    split at h
    · split at h
      · next byPrefix hfind =>
        split at h
        · next helig =>
          cases h
          exact ⟨List.mem_of_find?_eq_some hfind, helig⟩
        · cases h
      · cases h
    · cases h
  · next v hfind =>
    cases h
    exact mem_findUsers (hfind ▸ List.mem_singleton_self _)
  · cases h

theorem resolveRecipient_user {u : User}
    (h : (resolveRecipient lower users recipientId).user = some u) :
    u ∈ users.rows ∧ u.eligible = true := by
  unfold resolveRecipient at h
  split at h
  · cases h
  · split at h
    · next byName hfind =>
      split at h
      · next helig =>
        cases h
        exact ⟨List.mem_of_find?_eq_some hfind, helig⟩
      · exact resolveLoosely_user h
    · exact resolveLoosely_user h

theorem ambiguousNames_of_user {u : User}
    (h : (resolveRecipient lower users recipientId).user = some u) :
    (resolveRecipient lower users recipientId).ambiguousNames = none := by
  have hprefix : (resolveByPrefix lower users recipientId).ambiguousNames = none := by
    unfold resolveByPrefix
    split
    · split
      · split <;> rfl
      · rfl
    · rfl
  have hloose : ∀ u, (resolveLoosely lower users recipientId).user = some u →
      (resolveLoosely lower users recipientId).ambiguousNames = none := by
    intro u
    unfold resolveLoosely
    split
    · exact fun _ => hprefix
    · exact fun _ => rfl
    · exact nofun
  revert h
  unfold resolveRecipient
  split
  · exact nofun
  · split
    · split
      · exact fun _ => rfl
      · exact hloose u
    · exact hloose u

/-- `send` stores at most one mail, and only for the user it resolved. -/
theorem send_mail : (send lower maxBodyChars store fromPk recipientId body now).2.mail =
    match (resolveRecipient lower store.users recipientId).user with
    | some u =>
      if sendable maxBodyChars store.users fromPk body then
        store.mail.insert (newMail fromPk u.pubkey (strip body) now)
      else store.mail
    | none => store.mail := by
  unfold send
  dsimp only
  cases huser : (resolveRecipient lower store.users recipientId).user with
  | none =>
    dsimp only
    split <;> rfl
  | some u =>
    rw [ambiguousNames_of_user huser]
    simp only [Option.getD_none, ne_eq, not_true_eq_false, if_false, sendable, Store.addMail,
      UserTable.getUser_of_mem (resolveRecipient_user huser).1, Option.isSome_some, Bool.and_true]
    by_cases hempty : strip body = []
    · simp [hempty]
    · by_cases hlong : maxBodyChars < (strip body).length
      · simp [hempty, hlong]
      · have hle := not_lt.mp hlong
        by_cases hfrom : (store.users.getUser fromPk).isSome = true
        · simp [hempty, hlong, hle, hfrom]
        · simp [hempty, hlong, hle, hfrom]

theorem users_send (lower : Text → Text) (maxBodyChars : Int) (store : Store) (fromPk : Pubkey)
    (recipientId body : Text) (now : Int) :
    (send lower maxBodyChars store fromPk recipientId body now).2.users = store.users := by
  unfold send
  dsimp only
  split
  · rfl
  split
  · rfl
  split
  · rfl
  split
  · rfl
  split
  · rfl
  · next hadd => exact Store.users_addMail hadd

/-- A mail is stored for an eligible user, whom the reply names, or nothing happens. -/
theorem send_cases {store' : Store} {reply : Option Reply}
    (h : send lower maxBodyChars store fromPk recipientId body now = (reply, store')) :
    (store' = store ∧ reply.bind Reply.recipient = none) ∨
      ∃ u ∈ store.users.rows, u.eligible = true ∧ reply.bind Reply.recipient = some u ∧
        store' = { store with mail := store.mail.insert (newMail fromPk u.pubkey (strip body) now) } := by
  unfold send at h
  dsimp only at h
  split at h
  · cases h
    exact .inl ⟨rfl, rfl⟩
  split at h
  · cases h
    exact .inl ⟨rfl, rfl⟩
  · next recipient hres =>
    split at h
    · cases h
      exact .inl ⟨rfl, rfl⟩
    split at h
    · cases h
      exact .inl ⟨rfl, rfl⟩
    obtain ⟨hmem, helig⟩ := resolveRecipient_user hres
    split at h
    · cases h
      exact .inl ⟨rfl, rfl⟩
    · next hadd =>
      cases h
      unfold Store.addMail at hadd
      split at hadd
      · cases hadd
        exact .inr ⟨recipient, hmem, helig, rfl, rfl⟩
      · cases hadd

/-- Somebody eligible answers to the identifier by a part of the name or by the key: just
one user by name, or else the first user by key prefix. -/
def hasStandIn (lower : Text → Text) (users : UserTable) (identifier : Text) : Bool :=
  let partials := users.findUsersByNameSubstring lower identifier
  partials.length = 1 || (partials = [] && isKeyPrefix (lower identifier) &&
    (users.getUserByPrefix lower (lower identifier)).any User.eligible)

theorem resolveLoosely_isSome :
    (resolveLoosely lower users recipientId).user.isSome = hasStandIn lower users recipientId := by
  unfold resolveLoosely hasStandIn
  dsimp only
  split
  · next hfind =>
    unfold resolveByPrefix
    simp only [hfind]
    cases hkey : isKeyPrefix (lower recipientId) with
    | false => simp
    | true =>
      cases hpre : users.getUserByPrefix lower (lower recipientId) with
      | none => simp
      | some u => cases helig : u.eligible <;> simp [helig]
  · next u hfind => simp [hfind]
  · next partials hnil hone =>
    have hlen : (users.findUsersByNameSubstring lower recipientId).length ≠ 1 := by
      intro hlen
      obtain ⟨u, hu⟩ := List.length_eq_one_iff.mp hlen
      exact hone u hu
    have hnil : users.findUsersByNameSubstring lower recipientId ≠ [] := hnil
    simp [hlen, hnil]

/-- **Mail for a named user goes to nobody else**, exactly if the user is not banned, or
nobody else answers to the identifier, or nothing can be stored for the sender and the
body. -/
theorem send_to_named_iff (hreach : store.users.Reachable lower) {v : User}
    (hv : v ∈ store.users.rows) {name : Text} (hname : v.displayName = some name)
    (heq : lower name = lower recipientId) :
    ((send lower maxBodyChars store fromPk recipientId body now).2.mail = store.mail ∨
        Stored store (send lower maxBodyChars store fromPk recipientId body now).2 v) ↔
      ¬ (v.banned = true ∧ recipientId ≠ [] ∧ hasStandIn lower store.users recipientId = true ∧
        sendable maxBodyChars store.users fromPk body = true) := by
  obtain ⟨hlc, hon⟩ := named_of_reachable hreach v hv name hname
  rw [heq] at hlc
  have hfind := UserTable.getUserByName_eq hv hlc
  unfold Stored
  rw [send_mail]
  by_cases hempty : recipientId = []
  · simp [resolveRecipient, hempty]
  · cases hban : v.banned with
    | false =>
      have helig : v.eligible = true := by simp [User.eligible, hon, hban]
      have hres : (resolveRecipient lower store.users recipientId).user = some v := by
        simp [resolveRecipient, hempty, hfind, helig]
      rw [hres]
      dsimp only
      split
      · exact iff_of_true (.inr ⟨_, rfl, rfl⟩) (by simp)
      · exact iff_of_true (.inl rfl) (by simp)
    | true =>
      have helig : v.eligible = false := by simp [User.eligible, hban]
      have hres : (resolveRecipient lower store.users recipientId).user =
          (resolveLoosely lower store.users recipientId).user := by
        simp [resolveRecipient, hempty, hfind, helig]
      rw [hres, ← resolveLoosely_isSome]
      cases huser : (resolveLoosely lower store.users recipientId).user with
      | none => simp
      | some u =>
        dsimp only
        split
        · next hsend =>
          refine iff_of_false ?_ (by simp [hempty, hsend])
          rintro (hsame | ⟨row, hins, hto⟩)
          · exact RowTable.insert_ne _ _ hsame
          · rw [← RowTable.insert_inj hins] at hto
            obtain ⟨hu, hue⟩ := resolveLoosely_user huser
            rw [UserTable.eq_of_pubkey hu hv hto, helig] at hue
            cases hue
        · next hsend => exact iff_of_true (.inl rfl) (by simp [hsend])

/-- `str.lower` on ASCII text. -/
def asciiLower (s : Text) : Text := s.map Char.toLower

/-- `ali` and `alice` have joined, and `bob`. -/
def threeUsers : List UserOp :=
  [.firstSeen (lit "aa") none 100, .setName (lit "aa") (lit "ali") 100,
    .firstSeen (lit "bb") none 101, .setName (lit "bb") (lit "alice") 101,
    .firstSeen (lit "cc") none 102, .setName (lit "cc") (lit "bob") 102]

theorem exists_reachable (p : UserTable → Bool) (ops : List UserOp)
    (h : (Machine.exec (UserOp.run asciiLower) (fun _ _ => true) UserTable.empty ops).any p = true) :
    ∃ users, users.Reachable asciiLower ∧ p users = true := by
  obtain ⟨users, hrun, hp⟩ := Machine.exists_run (UserOp.run asciiLower) (fun _ _ => true) ops h
  exact ⟨users, hrun.mono fun _ _ _ => trivial, hp⟩

theorem send_to_named_ali : ∃ store v, store.users.Reachable asciiLower ∧ v ∈ store.users.rows ∧
    v.displayName = some (lit "ali") ∧
    Stored store (send asciiLower 200 store (lit "cc") (lit "ALI") (lit "hi") 110).2 v := by
  obtain ⟨users, hreach, hp⟩ := exists_reachable (fun users => users.rows.any fun v =>
    v.displayName = some (lit "ali") && !v.banned &&
      decide ((send asciiLower 200 ⟨users, .empty⟩ (lit "cc") (lit "ALI") (lit "hi") 110).2.mail.rows
        ≠ [])) threeUsers (by decide +kernel)
  simp only [List.any_eq_true, Bool.and_eq_true, decide_eq_true_eq, Bool.not_eq_true'] at hp
  obtain ⟨v, hv, ⟨hname, hban⟩, hmail⟩ := hp
  refine ⟨⟨users, .empty⟩, v, hreach, hv, hname, ?_⟩
  refine ((send_to_named_iff hreach hv hname (by decide)).mpr (by simp [hban])).resolve_left ?_
  exact fun h => hmail (congrArg RowTable.rows h)

/-- `ali` is banned: mail for `ali` is stored for `alice`. -/
theorem send_misdelivered : ∃ store v u, store.users.Reachable asciiLower ∧
    v ∈ store.users.rows ∧ u ∈ store.users.rows ∧ v.displayName = some (lit "ali") ∧
    v.pubkey ≠ u.pubkey ∧
    Stored store (send asciiLower 200 store (lit "cc") (lit "ali") (lit "hi") 110).2 u := by
  obtain ⟨users, hreach, hp⟩ := exists_reachable (fun users => users.rows.any fun v =>
    users.rows.any fun u => v.displayName = some (lit "ali") && v.pubkey ≠ u.pubkey &&
      let mail := (send asciiLower 200 ⟨users, .empty⟩ (lit "cc") (lit "ali") (lit "hi") 110).2.mail
      decide (mail.rows = [(1, newMail (lit "cc") u.pubkey (lit "hi") 110)] ∧ mail.seq = 1))
    (threeUsers ++ [.ban (lit "aa") true none]) (by decide +kernel)
  simp only [List.any_eq_true, Bool.and_eq_true, decide_eq_true_eq] at hp
  obtain ⟨v, hv, u, hu, ⟨hname, hne⟩, hmail⟩ := hp
  refine ⟨⟨users, .empty⟩, v, u, hreach, hv, hu, hname, hne, newMail (lit "cc") u.pubkey (lit "hi") 110,
    RowTable.ext hmail.1 hmail.2, rfl⟩

end MailService

end Bbs
