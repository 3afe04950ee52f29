import MeshcoreBbs.Lib.Paging
import MeshcoreBbs.Services

/-!
# The pages of a mailbox and of a board

`inbox_text` and `read_text` as functions of the tables: the items of a page (`Paging.page` of
the ordered items), a line for each of them, and the hint under a full page.
-/

namespace Bbs

open Coroutine

namespace World

variable (w : World)

/-- The name that a pubkey is listed under. -/
def nameOf (pk : Pubkey) : Text := orText ((w.users.getUser pk).bind User.displayName) (pk.take 8)

/-- The line of a mail, up to its body. -/
def mailHead (m : Mail) : Text :=
  (if m.readAt.isNone then lit "*" else lit " ") ++ lit "[" ++ decimal m.id ++ lit "] " ++
    w.nameOf m.fromPubkey ++ lit ": "

def mailPreview (m : Mail) : Text := shorten m.body Services.previewChars

def mailLine (m : Mail) : Text := w.mailHead m ++ mailPreview m

/-- The line of a post, up to its body. -/
def postHead (p : Nat × BoardPostRow) : Text :=
  lit "[" ++ decimal p.1 ++ lit "] " ++ w.nameOf p.2.authorPubkey ++ lit ": "

def postPreview (p : Nat × BoardPostRow) : Text := shorten p.2.body 120

def postLine (p : Nat × BoardPostRow) : Text := w.postHead p ++ postPreview p

/-- The posts of a board, which `list_posts` cuts into pages. -/
def boardPosts (slug : Text) : List (Nat × BoardPostRow) :=
  (w.posts.rows.filter fun p => p.2.boardSlug = slug && !p.2.deleted).insertionSort
    fun a b => b.2.ts ≤ a.2.ts

/-- The mails of a viewer, which `list_mail` cuts into pages. -/
def mails (pk : Pubkey) : List Mail := (w.inbox pk).map mailFromRow

end World

/-- `[more: <command>]`. -/
def moreHint (command : Text) : Text := lit "[more: " ++ command ++ lit "]"

def inboxEmpty (page : ℕ) : Text := if page = 1 then lit "Inbox empty." else lit "No more mail."

def boardEmpty (slug : Text) (page : ℕ) : Text :=
  slug ++ if page = 1 then lit ": no posts." else lit ": no more posts."

def inboxCommand (page : ℕ) : Text := lit "INBOX " ++ decimal page

def readCommand (slug : Text) (page : ℕ) : Text := lit "READ " ++ slug ++ lit " " ++ decimal page

/-- The reply to a page, with a hint when the page is full. -/
def pageText {α : Type} (none : ℕ → Text) (line : α → Text) (command : ℕ → Text) (size : ℕ)
    (items : List α) (page : ℕ) : Text :=
  let shown := Paging.page size items page
  if shown = [] then none page
  else if shown.length = size then
    joinLines (shown.map line) ++ '\n' :: moreHint (command (page + 1))
  else joinLines (shown.map line)

section Replies

variable {py : Py} {w : World}

theorem run_nameOf (pk : Pubkey) :
    (Services.nameOf pk).run (Op.run py) w = (some (w.nameOf pk), w) := rfl

theorem run_inboxLine (m : Mail) :
    (Services.inboxLine m).run (Op.run py) w = (some (w.mailLine m), w) := by
  unfold Services.inboxLine
  rw [run_bind_of_some (run_nameOf m.fromPubkey)]
  rfl

theorem run_renderPost (p : Nat × BoardPostRow) :
    (Services.renderPost p).run (Op.run py) w = (some (w.postLine p), w) := by
  unfold Services.renderPost
  rw [run_bind_of_some (run_nameOf p.2.authorPubkey)]
  rfl

/-- **`INBOX`**, on a page that SQLite can skip to. -/
theorem run_inboxText {pk : Pubkey} {page : ℕ}
    (hfits : fits ((page - 1) * Services.inboxPageSize) = true) :
    (Services.inboxText pk page).run (Op.run py) w =
      (some (pageText inboxEmpty w.mailLine inboxCommand Services.inboxPageSize (w.mails pk) page),
        w) := by
  have hlist : (call (.listMail pk Services.inboxPageSize (Services.inboxOffset page))).run
      (Op.run py) w = (some (Paging.page Services.inboxPageSize (w.mails pk) page), w) := by
    have hok : (fits Services.inboxPageSize && fits (Services.inboxOffset page)) = true := by
      rw [Bool.and_eq_true]
      exact ⟨by decide, hfits⟩
    rw [run_perform, Op.run, Op.check, if_pos hok, Paging.page, World.mails, ← List.map_drop,
      ← List.map_take]
    rfl
  unfold Services.inboxText
  rw [run_bind_of_some hlist]
  unfold pageText Services.renderInbox
  dsimp only
  split
  · rfl
  · rw [run_bind_of_some (run_collect run_inboxLine _)]
    split
    · rw [run_pure]
      simp [moreHint, inboxCommand, lit]
    · rfl

/-- **`READ`**, on a page that SQLite can skip to. -/
theorem run_readText {sv : Services} {typed slug : Text} {page : ℕ} (hslug : sv.py.lower typed = slug)
    (hlower : sv.py.lower slug = slug) (hboard : (w.getBoard slug).isSome = true)
    (hfits : fits ((page - 1) * Services.postsPerPage) = true) :
    (sv.readText typed page).run (Op.run sv.py) w =
      (some (pageText (boardEmpty slug) w.postLine (readCommand slug) Services.postsPerPage
        (w.boardPosts slug) page), w) := by
  have hget : (call (.getBoard slug)).run (Op.run sv.py) w = (some (w.getBoard slug), w) := by
    rw [run_perform, Op.run, hlower]
  have hlist : (call (.listPosts slug Services.postsPerPage ((page - 1) * Services.postsPerPage))).run
      (Op.run sv.py) w = (some (Paging.page Services.postsPerPage (w.boardPosts slug) page), w) := by
    have hok : (fits Services.postsPerPage &&
        fits ((page - 1) * Services.postsPerPage)) = true := by
      rw [Bool.and_eq_true]
      exact ⟨by decide, hfits⟩
    rw [run_perform, Op.run, Op.check, if_pos hok, hlower]
    rfl
  unfold Services.readText
  dsimp only
  rw [hslug, run_bind_of_some hget]
  obtain ⟨board, hboard⟩ := Option.isSome_iff_exists.mp hboard
  rw [hboard]
  dsimp only
  rw [run_bind_of_some hlist]
  unfold pageText
  dsimp only
  split
  · rfl
  · rw [run_bind_of_some (run_collect run_renderPost _)]
    split
    · rw [run_pure]
      simp [moreHint, readCommand, lit]
    · rfl

end Replies

end Bbs
