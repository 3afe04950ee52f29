import MeshcoreBbs.Process

/-!
# News feeds and their items (`services/news.py`, `db.py`)

`initialise_feeds` brings the feed rows in line with the configuration, and `_refresh_one`
takes the entries of one response into the items of a feed.  What a request fetches, the
clock and the hash come from outside: the entries of the response, `now i` for
`int(time.time())` while the `i`-th of them is handled, and `sha`, the digest of a text.

Nothing else in the service writes to the two tables, so they are what a run of `News.step`
from an empty database makes of them; for the rest of the process such a step is an
`Outside.news` (`News.step_outside`).
-/

namespace Bbs

/-! ## Configuration -/

/-- `config.NewsFeed`. -/
structure NewsFeed where
  slug : Text
  url : Text
  deriving DecidableEq

structure NewsConfig where
  feeds : List NewsFeed := []
  maxItemsPerFeed : Int := 50

/-! ## Entries of a response -/

/-- A parsed date: what `int(time.mktime(t))` makes of it; `none`: it raises. -/
structure StructTime where
  mktime : Option Int
  deriving DecidableEq

/-- The keys of an entry that are read; `none`: the key is missing, or `None`. -/
structure FeedEntry where
  title : Option Text := none
  link : Option Text := none
  publishedParsed : Option StructTime := none
  updatedParsed : Option StructTime := none
  deriving DecidableEq

namespace FeedEntry

variable (e : FeedEntry)

/-- `_entry_ts`. -/
def entryTs : Option Int :=
  (e.publishedParsed.bind StructTime.mktime).or (e.updatedParsed.bind StructTime.mktime)

/-- `(entry.get("title") or "").strip()`. -/
def strippedTitle : Text := strip (e.title.getD [])

/-- `_entry_ts(entry) or int(time.time())`; the epoch itself is no date. -/
def published (now : Int) : Int :=
  match e.entryTs with
  | some ts => if ts = 0 then now else ts
  | none => now

end FeedEntry

/-! ## Statements on feeds -/

namespace World

variable (w : World)

/-- The row of a slug. -/
def feedRow (slug : Text) : Option (Nat × NewsFeedRow) :=
  w.feeds.rows.find? fun p => p.2.slug = slug

/-- The id of the feed, and the database with its url set. -/
def upsertNewsFeed (slug url : Text) : Nat × World :=
  match w.feedRow slug with
  | some (id, _) =>
    (id, { w with feeds := w.feeds.modify id fun f => { f with url := url, enabled := true } })
  | none => (w.feeds.seq + 1, { w with feeds := w.feeds.insert { slug := slug, url := url } })

/-- `UPDATE news_feeds SET enabled = 0 WHERE slug = ?`. -/
def disableFeed (slug : Text) : World :=
  { w with feeds := w.feeds.mapRows fun _ f => if f.slug = slug then { f with enabled := false } else f }

/-- One iteration of the loop over the enabled feeds. -/
def disableUnless (slugs : List Text) (w : World) (slug : Text) : World :=
  if slugs.contains slug then w else w.disableFeed slug

def disableFeedsNotIn (slugs : List Text) : World :=
  ((w.feeds.rows.filter fun p => p.2.enabled).map fun p => p.2.slug).foldl (disableUnless slugs) w

/-- `(id, slug, url)` of the enabled feeds. -/
def listFeedIds : List (Nat × Text × Text) :=
  ((w.feeds.rows.filter fun p => p.2.enabled).insertionSort fun a b => a.2.slug ≤ b.2.slug).map
    fun p => (p.1, p.2.slug, p.2.url)

/-! ## Statements on items -/

/-- A row with the hash is there. -/
def hasHash (h : Text) : Bool := w.newsItems.rows.any fun p => p.2.hash = h

/-- `false`: the hash is taken, or there is no such feed. -/
def insertNewsItem (feedId : Nat) (title : Text) (url : Option Text) (ts : Int) (h : Text) :
    Bool × World :=
  if (w.feeds.get? feedId).isNone || w.hasHash h then (false, w)
  else
    let item : NewsItemRow := { feedId := feedId, title := title, url := url, ts := ts, hash := h }
    (true, { w with newsItems := w.newsItems.insert item })

/-- Rows of a feed. -/
def itemsOf (feedId : Nat) : List (Nat × NewsItemRow) :=
  w.newsItems.rows.filter fun p => p.2.feedId = feedId

/-- `LIMIT n`; a negative one is none. -/
def sqlLimit {α : Type} (n : Int) (rows : List α) : List α := if n < 0 then rows else rows.take n.toNat

/-- The ids that `trim_feed_to` spares. -/
def newestIds (feedId : Nat) (keepN : Int) : List Nat :=
  (sqlLimit keepN ((w.itemsOf feedId).insertionSort fun a b => b.2.ts ≤ a.2.ts)).map Prod.fst

def trimFeedTo (feedId : Nat) (keepN : Int) : World :=
  { w with newsItems := w.newsItems.filterRows fun i r =>
      r.feedId ≠ feedId || i ∈ w.newestIds feedId keepN }

end World

/-! ## The service -/

namespace News

def initialiseFeeds (cfg : NewsConfig) (w : World) : World :=
  let w := cfg.feeds.foldl (fun w feed => (w.upsertNewsFeed feed.slug feed.url).2) w
  w.disableFeedsNotIn (cfg.feeds.map NewsFeed.slug)

/-- `xs[:n]`; a negative bound counts from the end. -/
def sliceTo {α : Type} (n : Int) (xs : List α) : List α :=
  if 0 ≤ n then xs.take n.toNat else xs.take (xs.length - (-n).toNat)

section Refresh

variable (sha : Text → Text) (feedId : Nat)

/-- `f"{feed_id}|{title}|{link or ''}"`. -/
def itemKey (title : Text) (link : Option Text) : Text :=
  decimal feedId ++ '|' :: title ++ '|' :: link.getD []

/-- The hash of an entry. -/
def entryHash (e : FeedEntry) : Text := sha (itemKey feedId e.strippedTitle e.link)

/-- One iteration over the entries: `new_count` and the database. -/
def refreshEntry (now : ℕ → Int) (st : Nat × World) (p : FeedEntry × ℕ) : Nat × World :=
  let (e, i) := p
  let title := e.strippedTitle
  if title = [] then st
  else
    let (inserted, w) := st.2.insertNewsItem feedId title e.link (e.published (now i))
      (entryHash sha feedId e)
    (if inserted then st.1 + 1 else st.1, w)

/-- The loop of `_refresh_one`. -/
def refreshEntries (now : ℕ → Int) (entries : List FeedEntry) (w : World) : Nat × World :=
  entries.zipIdx.foldl (refreshEntry sha feedId now) (0, w)

/-- `_refresh_one` once the response is there. -/
def refreshOne (cfg : NewsConfig) (now : ℕ → Int) (entries : List FeedEntry) (w : World) :
    Nat × World :=
  let (newCount, w) := refreshEntries sha feedId now (sliceTo cfg.maxItemsPerFeed entries) w
  (newCount, w.trimFeedTo feedId cfg.maxItemsPerFeed)

end Refresh

/-! ## Runs -/

/-- What the service does to the database, one commit after the other: a start with the
configuration of that time, and the statements of a refresh. -/
inductive Action
  | initialise (cfg : NewsConfig)
  | entry (feedId : Nat) (now : ℕ → Int) (p : FeedEntry × ℕ)
  | trim (feedId : Nat) (keepN : Int)

def step (sha : Text → Text) (w : World) : Action → Option World
  | .initialise cfg => some (initialiseFeeds cfg w)
  | .entry feedId now p => some (refreshEntry sha feedId now (0, w) p).2
  | .trim feedId keepN => some (w.trimFeedTo feedId keepN)

end News

end Bbs
