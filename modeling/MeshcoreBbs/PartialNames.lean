import Mathlib.Data.List.Infix
import MeshcoreBbs.Mail

/-!
# Recipients by a part of their name

The identifier is pasted into a `LIKE` pattern as it is, so a `_` in it stands for any
character: mail for `a_b` can go to `axb`.  `send_partial_iff` says when the stage that
looks for a part of a name finds only literal parts.
-/

namespace Bbs

namespace MailService

variable {lower : Text → Text} {users : UserTable} {store : Store} {maxBodyChars : Int}
  {fromPk : Pubkey} {identifier body : Text} {now : Int}

/-- The lower-cased identifier occurs, character for character, in the lower-cased display
name. -/
def Contains (lower : Text → Text) (identifier : Text) (u : User) : Prop :=
  ∃ name, u.displayName = some name ∧ lower identifier <:+: lower name

/-- `display_name_lc LIKE ?`. -/
def matchesPart (lower : Text → Text) (identifier : Text) (u : User) : Bool :=
  u.displayNameLc.any (Like.like ('%' :: lower identifier ++ ['%']))

/-- The stage for a part of a name finds `u` and the mail is stored for it. -/
def StoredByPart (lower : Text → Text) (maxBodyChars : Int) (store : Store) (fromPk : Pubkey)
    (identifier body : Text) (now : Int) (u : User) : Prop :=
  (store.users.getUserByName lower identifier).any User.eligible = false ∧
    store.users.findUsersByNameSubstring lower identifier = [u] ∧
    Stored store (send lower maxBodyChars store fromPk identifier body now).2 u

/-- What is promised of that stage. -/
structure LiteralParts (lower : Text → Text) (maxBodyChars : Int) (store : Store)
    (fromPk : Pubkey) (identifier body : Text) (now : Int) : Prop where
  /-- the user found is the one whose name contains the identifier -/
  found : ∀ u, StoredByPart lower maxBodyChars store fromPk identifier body now u →
    Contains lower identifier u ∧
      ∀ v ∈ store.users.rows, v.eligible = true → v ≠ u → ¬ Contains lower identifier v
  /-- two such users get nothing -/
  ambiguous : ∀ u ∈ store.users.rows, ∀ v ∈ store.users.rows, u.eligible = true →
    v.eligible = true → u ≠ v → Contains lower identifier u → Contains lower identifier v →
    (send lower maxBodyChars store fromPk identifier body now).2.mail = store.mail

/-- Just one eligible user matches the pattern, and the name does not contain the
identifier. -/
def OnlyByWildcard (lower : Text → Text) (users : UserTable) (identifier : Text) : Prop :=
  ∃ u ∈ users.rows, u.eligible = true ∧ matchesPart lower identifier u = true ∧
    ¬ Contains lower identifier u ∧
    ∀ v ∈ users.rows, v.eligible = true → matchesPart lower identifier v = true → v = u

theorem mem_findUsers_iff {u : User} (hid : identifier ≠ []) :
    u ∈ users.findUsersByNameSubstring lower identifier ↔
      u ∈ users.rows ∧ u.eligible = true ∧ matchesPart lower identifier u = true := by
  unfold UserTable.findUsersByNameSubstring
  rw [if_neg hid, List.mem_insertionSort, List.mem_filter, Bool.and_eq_true]
  rfl

theorem nodup_findUsers : (users.findUsersByNameSubstring lower identifier).Nodup := by
  unfold UserTable.findUsersByNameSubstring
  split
  · exact List.nodup_nil
  · rw [(List.perm_insertionSort _ _).nodup_iff]
    exact (users.unique.pubkeys.of_map _).filter _

theorem findUsers_eq_singleton {u : User} (hid : identifier ≠ []) (hu : u ∈ users.rows)
    (helig : u.eligible = true) (hmatch : matchesPart lower identifier u = true)
    (honly : ∀ v ∈ users.rows, v.eligible = true → matchesPart lower identifier v = true → v = u) :
    users.findUsersByNameSubstring lower identifier = [u] := by
  rw [← List.perm_singleton, List.perm_ext_iff_of_nodup nodup_findUsers (List.nodup_singleton u)]
  intro v
  rw [mem_findUsers_iff hid, List.mem_singleton]
  constructor
  · rintro ⟨hv, hve, hvm⟩
    exact honly v hv hve hvm
  · rintro rfl
    exact ⟨hu, helig, hmatch⟩

/-- A literal part matches the pattern. -/
theorem matchesPart_of_contains (hreach : users.Reachable lower) {u : User} (hu : u ∈ users.rows)
    (h : Contains lower identifier u) : matchesPart lower identifier u = true := by
  obtain ⟨name, hname, hpart⟩ := h
  rw [matchesPart, (named_of_reachable hreach u hu name hname).1, Option.any_some]
  exact Like.like_of_infix hpart

theorem resolveRecipient_loosely
    (hnobody : ∀ u ∈ users.rows, u.displayNameLc ≠ some (lower identifier)) (hid : identifier ≠ []) :
    users.getUserByName lower identifier = none ∧
      resolveRecipient lower users identifier = resolveLoosely lower users identifier := by
  have hnone : users.getUserByName lower identifier = none := by
    unfold UserTable.getUserByName
    rw [List.find?_eq_none]
    intro u hu
    simpa using hnobody u hu
  exact ⟨hnone, by simp [resolveRecipient, hid, hnone]⟩

/-- Two users by a part of their name: nothing is stored. -/
theorem send_ambiguous (hreach : store.users.Reachable lower)
    (hnobody : ∀ u ∈ store.users.rows, u.displayNameLc ≠ some (lower identifier)) {u v : User}
    (hu : u ∈ store.users.rows) (hv : v ∈ store.users.rows) (hue : u.eligible = true)
    (hve : v.eligible = true) (hne : u ≠ v) (hup : Contains lower identifier u)
    (hvp : Contains lower identifier v) :
    (send lower maxBodyChars store fromPk identifier body now).2.mail = store.mail := by
  rw [send_mail]
  by_cases hid : identifier = []
  · simp [resolveRecipient, hid]
  · have huf := (mem_findUsers_iff hid).mpr ⟨hu, hue, matchesPart_of_contains hreach hu hup⟩
    have hvf := (mem_findUsers_iff hid).mpr ⟨hv, hve, matchesPart_of_contains hreach hv hvp⟩
    rw [(resolveRecipient_loosely hnobody hid).2]
    have hnone : (resolveLoosely lower store.users identifier).user = none := by
      unfold resolveLoosely
      split
      · next hnil =>
        rw [hnil] at huf
        cases huf
      · next w hone =>
        rw [hone, List.mem_singleton] at huf hvf
        exact absurd (huf.trans hvf.symm) hne
      · rfl
    rw [hnone]

/-- **The stage for a part of a name finds literal parts**, exactly if it does not find a
single user through a wildcard in the identifier and store the mail for that user. -/
theorem send_partial_iff (hreach : store.users.Reachable lower)
    (hnobody : ∀ u ∈ store.users.rows, u.displayNameLc ≠ some (lower identifier)) :
    LiteralParts lower maxBodyChars store fromPk identifier body now ↔
      ¬ (identifier ≠ [] ∧ OnlyByWildcard lower store.users identifier ∧
        sendable maxBodyChars store.users fromPk body = true) := by
  constructor
  · rintro hparts ⟨hid, ⟨u, hu, hue, hum, hup, honly⟩, hsend⟩
    have hfind := findUsers_eq_singleton hid hu hue hum honly
    obtain ⟨hnone, hres⟩ := resolveRecipient_loosely hnobody hid
    refine hup (hparts.found u ⟨by simp [hnone], hfind, ?_⟩).1
    refine ⟨newMail fromPk u.pubkey (strip body) now, ?_, rfl⟩
    rw [send_mail, hres]
    simp [resolveLoosely, hfind, hsend]
  · intro hcond
    refine ⟨?_, fun u hu v hv hue hve hne hup hvp =>
      send_ambiguous hreach hnobody hu hv hue hve hne hup hvp⟩
    rintro u ⟨-, hfind, row, hrow, -⟩
    have hid : identifier ≠ [] := by
      rintro rfl
      cases hfind
    have hmem : ∀ v, v ∈ store.users.rows ∧ v.eligible = true ∧
        matchesPart lower identifier v = true → v = u := by
      intro v hv
      have := (mem_findUsers_iff hid).mpr hv
      rwa [hfind, List.mem_singleton] at this
    obtain ⟨hu, hue, hum⟩ := (mem_findUsers_iff hid).mp (hfind ▸ List.mem_singleton_self u)
    refine ⟨?_, fun v hv hve hne hvp => hne (hmem v ⟨hv, hve, matchesPart_of_contains hreach hv hvp⟩)⟩
    by_contra hup
    refine hcond ⟨hid, ⟨u, hu, hue, hum, hup, fun v hv hve hvm => hmem v ⟨hv, hve, hvm⟩⟩, ?_⟩
    -- the mail table grew, so the mail was sendable
    by_contra hsend
    rw [send_mail, (resolveRecipient_loosely hnobody hid).2] at hrow
    simp only [resolveLoosely, hfind, hsend, Bool.false_eq_true, if_false] at hrow
    exact RowTable.insert_ne _ _ hrow.symm

/-- `axb` and `bob` have joined. -/
def twoUsers : List UserOp :=
  [.firstSeen (lit "aa") none 100, .setName (lit "aa") (lit "axb") 100,
    .firstSeen (lit "bb") none 101, .setName (lit "bb") (lit "bob") 101]

instance (identifier : Text) (u : User) : Decidable (Contains lower identifier u) :=
  decidable_of_iff (u.displayName.any fun name => decide (lower identifier <:+: lower name)) <| by
    simp [Contains, Option.any_eq_true]

theorem send_partial_ax : ∃ store, store.users.Reachable asciiLower ∧ store.users.rows ≠ [] ∧
    LiteralParts asciiLower 200 store (lit "bb") (lit "AX") (lit "hi") 110 := by
  obtain ⟨users, hreach, hp⟩ := exists_reachable (fun users => users.rows ≠ [] &&
    users.rows.all fun u => u.displayNameLc ≠ some (asciiLower (lit "AX")) &&
      (!matchesPart asciiLower (lit "AX") u || Contains asciiLower (lit "AX") u))
    twoUsers (by decide +kernel)
  simp only [Bool.and_eq_true, List.all_eq_true, decide_eq_true_eq, Bool.or_eq_true] at hp
  obtain ⟨hne, hp⟩ := hp
  refine ⟨⟨users, .empty⟩, hreach, hne, ?_⟩
  refine (send_partial_iff hreach fun u hu => (hp u hu).1).mpr ?_
  rintro ⟨-, ⟨u, hu, -, hum, hup, -⟩, -⟩
  rcases (hp u hu).2 with hno | hyes
  · simp [hum] at hno
  · exact hup hyes

/-- Mail for `a_b` is stored for `axb`. -/
theorem send_by_wildcard : ∃ store u, store.users.Reachable asciiLower ∧
    (∀ v ∈ store.users.rows, v.displayNameLc ≠ some (asciiLower (lit "a_b"))) ∧
    StoredByPart asciiLower 200 store (lit "bb") (lit "a_b") (lit "hi") 110 u ∧
    ¬ Contains asciiLower (lit "a_b") u := by
  obtain ⟨users, hreach, hp⟩ := exists_reachable (fun users =>
    (users.rows.all fun v => v.displayNameLc ≠ some (asciiLower (lit "a_b"))) &&
    (users.getUserByName asciiLower (lit "a_b")).any User.eligible = false &&
    users.rows.any fun u => !Contains asciiLower (lit "a_b") u &&
      decide (users.findUsersByNameSubstring asciiLower (lit "a_b") = [u]) &&
      let mail := (send asciiLower 200 ⟨users, .empty⟩ (lit "bb") (lit "a_b") (lit "hi") 110).2.mail
      decide (mail.rows = [(1, newMail (lit "bb") u.pubkey (lit "hi") 110)] ∧ mail.seq = 1))
    twoUsers (by decide +kernel)
  simp only [Bool.and_eq_true, List.all_eq_true, List.any_eq_true, decide_eq_true_eq,
    Bool.not_eq_true', decide_eq_false_iff_not] at hp
  obtain ⟨⟨hnobody, hexact⟩, u, -, ⟨hpart, hfind⟩, hmail⟩ := hp
  refine ⟨⟨users, .empty⟩, u, hreach, hnobody, ⟨hexact, hfind, ?_⟩, hpart⟩
  exact ⟨newMail (lit "bb") u.pubkey (lit "hi") 110, RowTable.ext hmail.1 hmail.2, rfl⟩

end MailService

end Bbs
