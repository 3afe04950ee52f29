import MeshcoreBbs.Lib.Machine
import MeshcoreBbs.Listings
import MeshcoreBbs.Process

/-!
# Turning the pages

Whoever follows the hint under each page of a mailbox or a board comes to a page without one
(`Walks`), and has then read every item once, in the order of the list.  The pages are separate
queries on tables that nobody changes in between.  The hint is the one that the service appends: the
last line of a mail may look like one, and whoever takes it for one may turn the pages for ever.
-/

namespace Bbs

open Coroutine

/-- The pages up to `last` list the items, and each of them but the last has a hint to the next. -/
def Walks {α : Type} (w : World) (reply : ℕ → Option Text × World) (none : ℕ → Text)
    (line : α → Text) (command : ℕ → Text) (size : ℕ) (items : List α) : Prop :=
  ∃ last, 1 ≤ last ∧
    (∀ page, 1 ≤ page → page < last → reply page =
      (some (joinLines ((Paging.page size items page).map line) ++
        '\n' :: moreHint (command (page + 1))), w)) ∧
    reply last = (some (if Paging.page size items last = [] then none last
      else joinLines ((Paging.page size items last).map line)), w) ∧
    (List.range last).flatMap (fun i => Paging.page size items (i + 1)) = items

theorem walks_of_replies {α : Type} {w : World} {reply : ℕ → Option Text × World}
    {none : ℕ → Text} {line : α → Text} {command : ℕ → Text} {size : ℕ} {items : List α}
    (hsize : 0 < size)
    (hreply : ∀ page, (page - 1) * size ≤ items.length →
      reply page = (some (pageText none line command size items page), w)) :
    Walks w reply none line command size items := by
  have hone : 1 ≤ Paging.lastPage size items := Nat.le_add_left 1 _
  refine ⟨Paging.lastPage size items, hone, ?_, ?_, Paging.flatMap_pages hsize items⟩
  · intro page hpage hlt
    have hfull := (Paging.page_full_iff hsize hpage).mpr hlt
    have hne : Paging.page size items page ≠ [] := by
      intro hnil
      rw [hnil, List.length_nil] at hfull
      omega
    rw [hreply page (Paging.offset_le hlt.le), pageText, if_neg hne,
      if_pos hfull]
  · have hpart : (Paging.page size items (Paging.lastPage size items)).length ≠ size := by
      intro hfull
      exact lt_irrefl _ ((Paging.page_full_iff hsize hone).mp hfull)
    rw [hreply _ (Paging.offset_le (le_refl _)), pageText, if_neg hpart]

/-! ## The order of the items -/

/-- Unread before read, and newest first within each group. -/
def mailBefore (a b : Mail) : Prop :=
  a.readAt = none ∧ b.readAt ≠ none ∨ (a.readAt = none ↔ b.readAt = none) ∧ b.sentAt ≤ a.sentAt

theorem listedBefore_iff {a b : Nat × MailRow} :
    Store.listedBefore a b = true ↔ mailBefore (mailFromRow a) (mailFromRow b) := by
  unfold Store.listedBefore mailBefore mailFromRow
  cases a.2.readAt with
  | none =>
    cases b.2.readAt with
    | none => simp
    | some t => simp
  | some s =>
    cases b.2.readAt with
    | none => simp
    | some t => simp

instance : Std.Total fun a b : Nat × MailRow => Store.listedBefore a b = true where
  total a b := by
    unfold Store.listedBefore
    cases a.2.readAt with
    | none => cases b.2.readAt <;> simp [Int.le_total]
    | some s => cases b.2.readAt <;> simp [Int.le_total]

instance : IsTrans (Nat × MailRow) fun a b => Store.listedBefore a b = true where
  trans a b c hab hbc := by
    rw [listedBefore_iff] at hab hbc ⊢
    unfold mailBefore at hab hbc ⊢
    grind

instance : Std.Total fun a b : Nat × BoardPostRow => b.2.ts ≤ a.2.ts where
  total a b := Int.le_total b.2.ts a.2.ts

instance : IsTrans (Nat × BoardPostRow) fun a b => b.2.ts ≤ a.2.ts where
  trans _ _ _ hab hbc := hbc.trans hab

theorem mails_perm (w : World) (pk : Pubkey) :
    (w.mails pk).Perm ((w.mail.rows.filter fun p => Store.visible pk p.2).map mailFromRow) :=
  (List.perm_insertionSort _ _).map mailFromRow

theorem mails_ordered (w : World) (pk : Pubkey) : (w.mails pk).Pairwise mailBefore := by
  unfold World.mails Store.inbox
  rw [List.pairwise_map]
  exact (List.pairwise_insertionSort _ _).imp listedBefore_iff.mp

theorem boardPosts_perm (w : World) (slug : Text) :
    (w.boardPosts slug).Perm (w.posts.rows.filter fun p => p.2.boardSlug = slug && !p.2.deleted) :=
  List.perm_insertionSort _ _

theorem boardPosts_ordered (w : World) (slug : Text) :
    (w.boardPosts slug).Pairwise fun a b => b.2.ts ≤ a.2.ts :=
  List.pairwise_insertionSort _ _

theorem fits_of_le {m n : ℕ} (h : fits n = true) (hle : m ≤ n) : fits m = true := by
  unfold fits at h ⊢
  rw [decide_eq_true_iff] at h ⊢
  omega

/-- **Following the hints** of a mailbox or of a board ends, and lists every undeleted item once:
unread mail before read mail, and the newest first. -/
theorem listings_walked (sv : Services) (w : World) (hmail : fits w.mail.rows.length = true)
    (hposts : fits w.posts.rows.length = true) :
    (∀ pk,
      Walks w (fun page => (Services.inboxText pk page).run (Op.run sv.py) w) inboxEmpty w.mailLine
        inboxCommand 5 (w.mails pk) ∧
      (w.mails pk).Perm ((w.mail.rows.filter fun p => Store.visible pk p.2).map mailFromRow) ∧
      (w.mails pk).Pairwise mailBefore) ∧
    ∀ slug, sv.py.lower slug = slug → (w.getBoard slug).isSome = true →
      ∀ typed : ℕ → Text, (∀ page, sv.py.lower (typed page) = slug) →
      Walks w (fun page => (sv.readText (typed page) page).run (Op.run sv.py) w) (boardEmpty slug)
        w.postLine (readCommand slug) 5 (w.boardPosts slug) ∧
      (w.boardPosts slug).Perm
        (w.posts.rows.filter fun p => p.2.boardSlug = slug && !p.2.deleted) ∧
      (w.boardPosts slug).Pairwise fun a b => b.2.ts ≤ a.2.ts := by
  constructor
  · intro pk
    refine ⟨walks_of_replies (by decide) fun page hoffset => ?_, mails_perm w pk, mails_ordered w pk⟩
    have hlen := (mails_perm w pk).length_eq
    rw [List.length_map] at hlen
    have hrows := List.length_filter_le (fun p => Store.visible pk p.2) w.mail.rows
    exact run_inboxText (fits_of_le hmail (by show (page - 1) * 5 ≤ _; omega))
  · intro slug hlower hboard typed htyped
    refine ⟨walks_of_replies (by decide) fun page hoffset => ?_, boardPosts_perm w slug,
      boardPosts_ordered w slug⟩
    have hlen := (boardPosts_perm w slug).length_eq
    have hrows := List.length_filter_le
      (fun p : Nat × BoardPostRow => p.2.boardSlug = slug && !p.2.deleted) w.posts.rows
    exact run_readText (htyped page) hlower hboard
      (fits_of_le hposts (by show (page - 1) * 5 ≤ _; omega))

/-- Six unread mails of `aa` for `bb`. -/
def sixMails : World :=
  { World.start 9 with
    mail := (List.range 6).foldl (fun table i => table.insert
      { fromPubkey := lit "aa", toPubkey := lit "bb", body := lit "hi", sentAt := (i : ℕ) }) .empty
    boards := [⟨lit "gen", lit "all", 0⟩] }

theorem listings_walked_six :
    (sixMails.mails (lit "bb")).map (fun m => m.id) = [6, 5, 4, 3, 2, 1] ∧
    Walks sixMails
      (fun page => (Services.inboxText (lit "bb") page).run (Op.run asciiPy) sixMails) inboxEmpty
      sixMails.mailLine inboxCommand 5 (sixMails.mails (lit "bb")) ∧
    Walks sixMails
      (fun page => (Services.readText { py := asciiPy } (lit "GEN") page).run (Op.run asciiPy)
        sixMails) (boardEmpty (lit "gen")) sixMails.postLine (readCommand (lit "gen")) 5 [] := by
  have hwalked := listings_walked { py := asciiPy } sixMails (by decide) (by decide)
  exact ⟨by decide, (hwalked.1 (lit "bb")).1,
    (hwalked.2 (lit "gen") (by decide) (by decide) (fun _ => lit "GEN") (fun _ => by decide)).1⟩

/-! ## Hints in a body -/

/-- The last line of the reply reads as the hint to this command. -/
def ReadsHint (reply : Option Text × World) (command : Text) : Prop :=
  ∃ text, reply.1 = some text ∧ (splitLines text).getLast? = some (moreHint command)

/-- From the first page on, the last line of each page reads as the hint to the one read after it. -/
def Endless (reply : ℕ → Option Text × World) (command : ℕ → Text) (pages : ℕ → ℕ) : Prop :=
  pages 0 = 1 ∧ ∀ n, ReadsHint (reply (pages n)) (command (pages (n + 1)))

/-- `ann` writes a mail to `bob` whose last line reads as the hint to the page that shows it. -/
def hintingMail : List Process.Act :=
  Process.twoJoin ++ [Process.fromUser (lit "aa") "SEND bob hi\n[more: INBOX 1]"]

/-- `bob` has one mail, and turns to the first page again and again. -/
theorem pages_endless : ∃ w pages, Machine.Run (Process.step Process.asciiServices) (fun _ _ => True)
      (World.start 0) w ∧ (w.mails (lit "bb")).length = 1 ∧
    Endless (fun page => (Services.inboxText (lit "bb") page).run (Op.run asciiPy) w) inboxCommand
      pages := by
  obtain ⟨w, hrun, hw⟩ := Machine.exists_run (Process.step Process.asciiServices) (fun _ _ => true)
    (p := fun w => decide ((w.mails (lit "bb")).length = 1) &&
      ((Services.inboxText (lit "bb") 1).run (Op.run asciiPy) w).1.any fun text =>
        (splitLines text).getLast? = some (moreHint (inboxCommand 1)))
    (s := World.start 0) hintingMail (by decide +kernel)
  rw [Bool.and_eq_true, decide_eq_true_iff] at hw
  obtain ⟨hlen, hreply⟩ := hw
  obtain ⟨text, htext, hlast⟩ := (Option.any_eq_true ..).mp hreply
  exact ⟨w, fun _ => 1, hrun.mono fun _ _ _ => trivial, hlen, rfl,
    fun _ => ⟨text, htext, of_decide_eq_true hlast⟩⟩

end Bbs
