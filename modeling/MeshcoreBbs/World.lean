import Mathlib.Data.Rat.Floor
import MeshcoreBbs.Config
import MeshcoreBbs.Lib.Coroutine
import MeshcoreBbs.MailTable
import MeshcoreBbs.Weather

/-!
# The state of the process and the operations on it

`World` holds the database (`db.py`), the memory of the services and what is outside: the
clock, the answer that the weather service would give and the routes that the radio knows.
`Op` has one operation for each SQL statement, each access to that memory and each call to
the outside; a handler of the dispatcher is a `Prog`, a coroutine over these operations.

SQLite raises when a parameter does not fit in 64 bits (`fits`) or a constraint fails;
times and counters are taken to fit.
-/

namespace Bbs

/-! ## Tables -/

structure Board where
  slug : Text
  description : Text
  createdAt : Int
  deriving DecidableEq

/-- Columns of `board_posts` other than `id`. -/
structure BoardPostRow where
  boardSlug : Text
  authorPubkey : Pubkey
  body : Text
  ts : Int
  deleted : Bool := false
  deriving DecidableEq

/-- Columns of `news_feeds` other than `id`. -/
structure NewsFeedRow where
  slug : Text
  url : Text
  enabled : Bool := true
  deriving DecidableEq

/-- Columns of `news_items` other than `id`. -/
structure NewsItemRow where
  feedId : Nat
  title : Text
  url : Option Text
  ts : Int
  hash : Text
  deriving DecidableEq

/-- `window_start` and `count` of a row of `rate_limits`. -/
structure RateWindow where
  windowStart : Int
  count : Int
  deriving DecidableEq

structure PendingBroadcast where
  text : Text
  createdAt : Int
  deriving DecidableEq

/-! ## The world -/

/-- What an outbound row is about; kept for the theorems only. -/
inductive Origin
  | answer
  | newUser
  | newMail
  | broadcast (admin : Pubkey)
  deriving DecidableEq

/-- What the theorems say of a run is said of its record, latest entry first.  `command` is
the log line of `_handle_command`; `banned` is the addressee's flag at the insertion. -/
inductive Entry
  | command (pk : Pubkey) (line : Text) (now : Int)
  | inserted (origin : Origin) (row : OutboundRow) (banned : Bool)
  | advert
  deriving DecidableEq

structure World extends Store where
  queue : Db
  boards : List Board := []
  posts : RowTable BoardPostRow := .empty
  feeds : RowTable NewsFeedRow := .empty
  newsItems : RowTable NewsItemRow := .empty
  /-- the payload is kept as the document that it encodes -/
  weatherCache : Text → Option (Json × Int) := fun _ => none
  rates : Pubkey → Text → Option RateWindow := fun _ _ => none
  cfg : Config := {}
  /-- `AdminService._pending` -/
  pending : Pubkey → Option PendingBroadcast := fun _ => none
  /-- `MailService._last_notify_at` -/
  lastNotifyAt : Pubkey → Option ℚ := fun _ => none
  clock : ℚ
  /-- the document that a weather lookup would fetch; `none`: it fails -/
  weatherAnswer : Option Json := none
  inboundPath : Pubkey → List Text := fun _ => []
  record : List Entry := []

/-- An empty database. -/
def World.start (clock : ℚ) : World :=
  { users := .empty, mail := .empty, queue := .empty, clock := clock }

/-- A parameter that SQLite can store. -/
def fits (n : Nat) : Bool := n < 2 ^ 63

namespace World

variable (w : World)

/-- `int(time.time())`. -/
def now : Int := ⌊w.clock⌋

/-- `banned` of a pubkey; one that is not a user is not banned. -/
def isBanned (pk : Pubkey) : Bool := (w.users.getUser pk).any User.banned

/-! ## Statements on boards and news -/

def getBoard (slug : Text) : Option Board := w.boards.find? fun b => b.slug = slug

def listBoards : List Board := w.boards.insertionSort fun a b => a.slug ≤ b.slug

/-- `ORDER BY ts DESC LIMIT ? OFFSET ?`. -/
def listPosts (slug : Text) (limit offset : Nat) : List (Nat × BoardPostRow) :=
  (((w.posts.rows.filter fun p => p.2.boardSlug = slug && !p.2.deleted).insertionSort
    fun a b => b.2.ts ≤ a.2.ts).drop offset).take limit

def deletePostsOf (slug : Text) : RowTable BoardPostRow :=
  w.posts.filterRows fun _ p => p.boardSlug ≠ slug

/-- `recent_news` with the feed, if any, that its items must belong to. -/
def recentNews (limit : Nat) (feedSlug : Option Text) : List (Nat × NewsItemRow) :=
  let ofFeed (item : NewsItemRow) : Bool :=
    match feedSlug with
    | none => true
    | some slug => slug = [] || (w.feeds.get? item.feedId).any fun f => f.slug = slug
  ((w.newsItems.rows.filter fun p => ofFeed p.2).insertionSort fun a b => b.2.ts ≤ a.2.ts).take limit

def setRate (pk : Pubkey) (bucket : Text) (window : RateWindow) :
    Pubkey → Text → Option RateWindow :=
  Function.update w.rates pk (Function.update (w.rates pk) bucket (some window))

/-- `enqueue_outbound`, recorded. -/
def insertRow (origin : Origin) (row : OutboundRow) : World :=
  { w with
    queue := w.queue.enqueueOutbound row
    record := .inserted origin row (w.isBanned row.toPubkey) :: w.record }

end World

end Bbs
