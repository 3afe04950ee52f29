import MeshcoreBbs.Listings
import MeshcoreBbs.UserNames

/-!
# The lines of a listing

Each item of a page of `INBOX` or `READ` starts a line with its own id and its author's name.
Bodies may have newlines, which `_strip_control_chars` keeps and mail is never rid of, so that an
item can take several lines, and the later ones say whatever its author wrote.
-/

namespace Bbs

open Coroutine

/-! ## Names -/

namespace Names

/-- A valid name stays on one line. -/
theorem newline_notMem_of_valid {lower : Text → Text} {name : Text}
    (h : validateName lower name = none) : '\n' ∉ name := by
  unfold validateName at h
  split at h
  · cases h
  · intro hmem
    have hbad : validateNameChars name = some badChars := by
      unfold validateNameChars
      rw [if_pos (List.any_eq_true.mpr ⟨'\n', hmem, by decide⟩)]
    rw [hbad] at h
    cases h

end Names

theorem newline_notMem_nameOf {lower : Text → Text} {w : World}
    (hnames : UserNames.WellNamed lower w.users) {pk : Pubkey} (hpk : '\n' ∉ pk) :
    '\n' ∉ w.nameOf pk := by
  have hshort : '\n' ∉ pk.take 8 := fun h => hpk (List.mem_of_mem_take h)
  unfold World.nameOf
  cases hfind : w.users.getUser pk with
  | none => exact hshort
  | some u =>
    have hu : u ∈ w.users.rows := List.mem_of_find?_eq_some hfind
    rw [Option.bind_some]
    cases hname : u.displayName with
    | none => exact hshort
    | some name =>
      have hvalid := Names.newline_notMem_of_valid ((hnames u hu).valid name hname)
      cases name with
      | nil => exact hshort
      | cons c name => exact hvalid

theorem newline_notMem_decimal (n : ℕ) : '\n' ∉ decimal n := fun h =>
  absurd (isDigit_of_mem_decimal h) (by decide)

/-! ## Pages -/

/-- The hint under a full page. -/
def hintLines {α : Type} (command : ℕ → Text) (size : ℕ) (shown : List α) (page : ℕ) : List Text :=
  if shown.length = size then [moreHint (command (page + 1))] else []

/-- The lines of an item: its head stands before the first line of its preview. -/
def itemLines {α : Type} (head preview : α → Text) (a : α) : List Text :=
  (splitLines (preview a)).modifyHead (head a ++ ·)

section Pages

variable {α : Type} {none : ℕ → Text} {head preview : α → Text} {command : ℕ → Text} {size : ℕ}
  {items : List α} {page : ℕ}

theorem splitLines_pageText (hcommand : '\n' ∉ moreHint (command (page + 1)))
    (hne : Paging.page size items page ≠ []) (line : α → Text) :
    splitLines (pageText none line command size items page) =
      (Paging.page size items page).flatMap (fun a => splitLines (line a)) ++
        hintLines command size (Paging.page size items page) page := by
  unfold pageText hintLines
  rw [if_neg hne]
  have hlines : (Paging.page size items page).map line ≠ [] := fun h =>
    hne (List.map_eq_nil_iff.mp h)
  split
  · rw [splitLines_append, splitLines_joinLines _ hlines, List.flatMap_map,
      splitLines_of_notMem hcommand]
  · rw [splitLines_joinLines _ hlines, List.flatMap_map, List.append_nil]

/-- **The lines of a page** are those of its items, one after the other; each item has one line
exactly when no preview has a newline. -/
theorem lines_of_page (hcommand : '\n' ∉ moreHint (command (page + 1)))
    (hne : Paging.page size items page ≠ [])
    (hhead : ∀ a ∈ Paging.page size items page, '\n' ∉ head a) :
    splitLines (pageText none (fun a => head a ++ preview a) command size items page) =
      (Paging.page size items page).flatMap (itemLines head preview) ++
        hintLines command size (Paging.page size items page) page ∧
    (splitLines (pageText none (fun a => head a ++ preview a) command size items page) =
      (Paging.page size items page).map (fun a => head a ++ preview a) ++
        hintLines command size (Paging.page size items page) page ↔
      ∀ a ∈ Paging.page size items page, '\n' ∉ preview a) := by
  rw [splitLines_pageText hcommand hne]
  constructor
  · congr 1
    refine List.flatMap_congr fun a ha => ?_
    exact splitLines_append_of_notMem (hhead a ha) (preview a)
  · rw [List.append_left_inj]
    constructor
    · intro h a ha
      have hmem : head a ++ preview a ∈ (Paging.page size items page).flatMap
          fun a => splitLines (head a ++ preview a) := by
        rw [h]
        exact List.mem_map_of_mem ha
      obtain ⟨b, _, hb⟩ := List.mem_flatMap.mp hmem
      intro hnewline
      exact newline_notMem_of_mem_splitLines hb (List.mem_append_right _ hnewline)
    · intro h
      rw [List.map_eq_flatMap]
      refine List.flatMap_congr fun a ha => ?_
      refine splitLines_of_notMem fun hnewline => ?_
      rcases List.mem_append.mp hnewline with hmem | hmem
      · exact hhead a ha hmem
      · exact h a ha hmem

end Pages

/-! ## Replies -/

/-- The lines of a reply are those of distinct stored items, and the hint; each item has one line
exactly when no preview has a newline. -/
structure LinesOf {α : Type} (reply : Text) (shown : List α) (id : α → ℕ) (Stored : α → Prop)
    (head preview : α → Text) (hint : List Text) : Prop where
  distinct : (shown.map id).Nodup
  stored : ∀ a ∈ shown, Stored a
  lines : splitLines reply = shown.flatMap (itemLines head preview) ++ hint
  single : splitLines reply = shown.map (fun a => head a ++ preview a) ++ hint ↔
    ∀ a ∈ shown, '\n' ∉ preview a

section Replies

variable {sv : Services} {w : World}

theorem newline_notMem_moreHint {command : Text} (h : '\n' ∉ command) : '\n' ∉ moreHint command := by
  have hfirst : '\n' ∉ lit "[more: " := by decide
  have hlast : '\n' ∉ lit "]" := by decide
  unfold moreHint
  simp only [List.mem_append, not_or]
  exact ⟨⟨hfirst, h⟩, hlast⟩

theorem newline_notMem_inboxCommand (page : ℕ) : '\n' ∉ inboxCommand page := by
  have hverb : '\n' ∉ lit "INBOX " := by decide
  unfold inboxCommand
  rw [List.mem_append, not_or]
  exact ⟨hverb, newline_notMem_decimal page⟩

theorem newline_notMem_readCommand {slug : Text} (hslug : '\n' ∉ slug) (page : ℕ) :
    '\n' ∉ readCommand slug page := by
  have hverb : '\n' ∉ lit "READ " := by decide
  have hblank : '\n' ∉ lit " " := by decide
  unfold readCommand
  simp only [List.mem_append, not_or]
  exact ⟨⟨⟨hverb, hslug⟩, hblank⟩, newline_notMem_decimal page⟩

theorem newline_notMem_mailHead {m : Mail} (hname : '\n' ∉ w.nameOf m.fromPubkey) :
    '\n' ∉ w.mailHead m := by
  have hmark : '\n' ∉ (if m.readAt.isNone then lit "*" else lit " ") := by
    split
    · decide
    · decide
  have hopen : '\n' ∉ lit "[" := by decide
  have hclose : '\n' ∉ lit "] " := by decide
  have hcolon : '\n' ∉ lit ": " := by decide
  unfold World.mailHead
  simp only [List.mem_append, not_or]
  exact ⟨⟨⟨⟨⟨hmark, hopen⟩, newline_notMem_decimal m.id⟩, hclose⟩, hname⟩, hcolon⟩

theorem newline_notMem_postHead {p : Nat × BoardPostRow} (hname : '\n' ∉ w.nameOf p.2.authorPubkey) :
    '\n' ∉ w.postHead p := by
  have hopen : '\n' ∉ lit "[" := by decide
  have hclose : '\n' ∉ lit "] " := by decide
  have hcolon : '\n' ∉ lit ": " := by decide
  unfold World.postHead
  simp only [List.mem_append, not_or]
  exact ⟨⟨⟨⟨hopen, newline_notMem_decimal p.1⟩, hclose⟩, hname⟩, hcolon⟩

/-- The mails of a page are distinct, and the viewer's own. -/
theorem shown_mails (pk : Pubkey) (page : ℕ) :
    ((Paging.page 5 (w.mails pk) page).map fun m => m.id).Nodup ∧
      ∀ m ∈ Paging.page 5 (w.mails pk) page, w.getMail m.id pk = some m := by
  have hsub := Paging.page_sublist 5 (w.mails pk) page
  constructor
  · refine List.Nodup.sublist (hsub.map fun m => m.id) ?_
    have hids : (w.mails pk).map (fun m => m.id) = (w.inbox pk).map Prod.fst := by
      unfold World.mails
      rw [List.map_map]
      rfl
    rw [hids]
    exact ((List.perm_insertionSort _ _).map Prod.fst).nodup_iff.mpr (w.mail.nodup_filter _)
  · intro m hm
    obtain ⟨⟨id, row⟩, hrow, rfl⟩ := List.mem_map.mp (hsub.subset hm)
    rw [Store.inbox, List.mem_insertionSort, List.mem_filter, Store.visible_iff] at hrow
    exact (w.getMail_eq_some_iff).mpr ⟨row, (w.mail.mem_rows_iff id row).mp hrow.1, hrow.2, rfl⟩

/-- The posts of a page are distinct, and on the board. -/
theorem shown_posts (slug : Text) (page : ℕ) :
    ((Paging.page 5 (w.boardPosts slug) page).map Prod.fst).Nodup ∧
      ∀ p ∈ Paging.page 5 (w.boardPosts slug) page, w.posts.get? p.1 = some p.2 ∧
        p.2.boardSlug = slug ∧ p.2.deleted = false := by
  have hsub := Paging.page_sublist 5 (w.boardPosts slug) page
  constructor
  · refine List.Nodup.sublist (hsub.map Prod.fst) ?_
    exact ((List.perm_insertionSort _ _).map Prod.fst).nodup_iff.mpr (w.posts.nodup_filter _)
  · intro p hp
    have hmem := hsub.subset hp
    rw [World.boardPosts, List.mem_insertionSort, List.mem_filter, Bool.and_eq_true,
      decide_eq_true_iff, Bool.not_eq_true'] at hmem
    exact ⟨(w.posts.mem_rows_iff p.1 p.2).mp hmem.1, hmem.2⟩

/-- **The lines of `INBOX` and `READ`**, in every reachable state: an entry starts with the id of a
listed item and the name of its author, and only the newlines of its own preview break it. -/
theorem listing_lines {clock : ℚ}
    (hrun : Machine.Run (Process.step sv) (fun _ _ => True) (World.start clock) w)
    (hmail : ∀ p ∈ w.mail.rows, '\n' ∉ p.2.fromPubkey)
    (hposts : ∀ p ∈ w.posts.rows, '\n' ∉ p.2.authorPubkey) (page : ℕ)
    (hfits : fits ((page - 1) * 5) = true) :
    (∀ pk, Paging.page 5 (w.mails pk) page ≠ [] → ∃ reply,
      (Services.inboxText pk page).run (Op.run sv.py) w = (some reply, w) ∧
      LinesOf reply (Paging.page 5 (w.mails pk) page) (fun m => m.id)
        (fun m => w.getMail m.id pk = some m) w.mailHead World.mailPreview
        (hintLines inboxCommand 5 (Paging.page 5 (w.mails pk) page) page)) ∧
    ∀ typed slug, sv.py.lower typed = slug → sv.py.lower slug = slug → '\n' ∉ slug →
      (w.getBoard slug).isSome = true → Paging.page 5 (w.boardPosts slug) page ≠ [] → ∃ reply,
      (sv.readText typed page).run (Op.run sv.py) w = (some reply, w) ∧
      LinesOf reply (Paging.page 5 (w.boardPosts slug) page) Prod.fst
        (fun p => w.posts.get? p.1 = some p.2 ∧ p.2.boardSlug = slug ∧ p.2.deleted = false)
        w.postHead World.postPreview
        (hintLines (readCommand slug) 5 (Paging.page 5 (w.boardPosts slug) page) page) := by
  have hnames := UserNames.wellNamed_of_run hrun
  constructor
  · intro pk hne
    obtain ⟨hdistinct, hstored⟩ := shown_mails (w := w) pk page
    have hhead : ∀ m ∈ Paging.page 5 (w.mails pk) page, '\n' ∉ w.mailHead m := by
      intro m hm
      obtain ⟨row, hrow, _, hm'⟩ := w.getMail_eq_some_iff.mp (hstored m hm)
      have hkey := hmail (m.id, row) ((w.mail.mem_rows_iff m.id row).mpr hrow)
      refine newline_notMem_mailHead (newline_notMem_nameOf hnames ?_)
      rw [← hm']
      exact hkey
    have hcommand := newline_notMem_moreHint (newline_notMem_inboxCommand (page + 1))
    obtain ⟨hlines, hsingle⟩ := lines_of_page hcommand hne hhead
    exact ⟨_, run_inboxText hfits, hdistinct, hstored, hlines, hsingle⟩
  · intro typed slug htyped hlower hslug hboard hne
    obtain ⟨hdistinct, hstored⟩ := shown_posts (w := w) slug page
    have hhead : ∀ p ∈ Paging.page 5 (w.boardPosts slug) page, '\n' ∉ w.postHead p := by
      intro p hp
      have hkey := hposts p ((w.posts.mem_rows_iff p.1 p.2).mpr (hstored p hp).1)
      exact newline_notMem_postHead (newline_notMem_nameOf hnames hkey)
    have hcommand := newline_notMem_moreHint (newline_notMem_readCommand hslug (page + 1))
    obtain ⟨hlines, hsingle⟩ := lines_of_page hcommand hne hhead
    exact ⟨_, run_readText htyped hlower hboard hfits, hdistinct, hstored, hlines, hsingle⟩

/-- `ann` writes a mail of two lines to `bob`. -/
def twoLineMail : List Process.Act :=
  Process.twoJoin ++ [Process.fromUser (lit "aa") "SEND bob hi\n*[9] bob: call 999"]

/-- The inbox shows a mail 9 from `bob`, which there is not. -/
theorem forged_entry : ∃ w reply, Machine.Run (Process.step Process.asciiServices) (fun _ _ => True)
    (World.start 0) w ∧
    ((Services.inboxText (lit "bb") 1).run (Op.run asciiPy) w).1 = some reply ∧
    splitLines reply = [lit "*[1] ann: hi", lit "*[9] bob: call 999"] ∧
    w.mail.get? 9 = none := by
  obtain ⟨w, hrun, hw⟩ := Machine.exists_run (Process.step Process.asciiServices) (fun _ _ => true)
    (p := fun w => ((Services.inboxText (lit "bb") 1).run (Op.run asciiPy) w).1.any (fun reply =>
      splitLines reply = [lit "*[1] ann: hi", lit "*[9] bob: call 999"]) ∧ w.mail.get? 9 = none)
    (s := World.start 0) twoLineMail (by decide +kernel)
  obtain ⟨hreply, hnone⟩ := of_decide_eq_true hw
  obtain ⟨reply, hreply, hlines⟩ := (Option.any_eq_true ..).mp hreply
  exact ⟨w, reply, hrun.mono fun _ _ _ => trivial, hreply, of_decide_eq_true hlines, hnone⟩

/-- The second line belongs to the first mail. -/
theorem listing_lines_two : ∃ w reply, Machine.Run (Process.step Process.asciiServices)
    (fun _ _ => True) (World.start 0) w ∧
    (Services.inboxText (lit "bb") 1).run (Op.run asciiPy) w = (some reply, w) ∧
    splitLines reply = (Paging.page 5 (w.mails (lit "bb")) 1).flatMap
      (itemLines w.mailHead World.mailPreview) := by
  obtain ⟨w, hrun, hw⟩ := Machine.exists_run (Process.step Process.asciiServices) (fun _ _ => true)
    (p := fun w => (w.mail.rows.all fun p => !p.2.fromPubkey.contains '\n') ∧
      (w.posts.rows.all fun p => !p.2.authorPubkey.contains '\n') ∧
      (Paging.page 5 (w.mails (lit "bb")) 1).length = 1)
    (s := World.start 0) twoLineMail (by decide +kernel)
  obtain ⟨hmail, hposts, hlen⟩ := of_decide_eq_true hw
  have hrun : Machine.Run (Process.step Process.asciiServices) (fun _ _ => True) (World.start 0) w :=
    hrun.mono fun _ _ _ => trivial
  have hlines := listing_lines hrun (fun p hp => by simpa using List.all_eq_true.mp hmail p hp)
    (fun p hp => by simpa using List.all_eq_true.mp hposts p hp) 1 (by decide)
  have hne : Paging.page 5 (w.mails (lit "bb")) 1 ≠ [] := by
    intro hnil
    rw [hnil] at hlen
    cases hlen
  obtain ⟨reply, hreply, hof⟩ := hlines.1 (lit "bb") hne
  refine ⟨w, reply, hrun, hreply, ?_⟩
  have hall := hof.lines
  unfold hintLines at hall
  rw [if_neg (by rw [hlen]; decide), List.append_nil] at hall
  exact hall

end Replies

end Bbs
