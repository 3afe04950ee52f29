import MeshcoreBbs.Dispatcher
import MeshcoreBbs.Lib.Paging

/-!
# Pages of news

`NEWS` cuts a page out of the items that it fetches, and fetches none after the page: the page is
right, and the hint to the next one never comes (`news_iff`).
-/

namespace Bbs

open Coroutine

namespace World

variable (w : World)

/-- An item of the feed, if one is asked for. -/
def ofFeed (feedSlug : Option Text) (item : NewsItemRow) : Bool :=
  match feedSlug with
  | none => true
  | some slug => slug = [] || (w.feeds.get? item.feedId).any fun f => f.slug = slug

/-- All items that `recent_news` takes its rows from. -/
def newsOf (feedSlug : Option Text) : List (Nat × NewsItemRow) :=
  (w.newsItems.rows.filter fun p => w.ofFeed feedSlug p.2).insertionSort fun a b => b.2.ts ≤ a.2.ts

theorem recentNews_eq (limit : ℕ) (feedSlug : Option Text) :
    w.recentNews limit feedSlug = (w.newsOf feedSlug).take limit := rfl

instance : Std.Total fun a b : Nat × NewsItemRow => b.2.ts ≤ a.2.ts where
  total a b := Int.le_total b.2.ts a.2.ts

instance : IsTrans (Nat × NewsItemRow) fun a b => b.2.ts ≤ a.2.ts where
  trans _ _ _ hab hbc := hbc.trans hab

theorem newsOf_perm (feedSlug : Option Text) :
    (w.newsOf feedSlug).Perm (w.newsItems.rows.filter fun p => w.ofFeed feedSlug p.2) :=
  List.perm_insertionSort _ _

theorem newsOf_ordered (feedSlug : Option Text) :
    (w.newsOf feedSlug).Pairwise fun a b => b.2.ts ≤ a.2.ts :=
  List.pairwise_insertionSort _ _

end World

namespace Dispatcher

/-- `NEWS` with the feed and a page. -/
def newsCommand (feed : Option Text) (page : ℕ) : Text :=
  match feed with
  | some (c :: feed) => lit "NEWS " ++ (c :: feed) ++ lit " " ++ decimal page
  | _ => lit "NEWS " ++ decimal page

/-- The title of an item under its rank. -/
def newsLine (rank : ℕ) (item : Nat × NewsItemRow) : Text :=
  lit "[" ++ decimal rank ++ lit "] " ++ item.2.title.take 100

def noNews (page : ℕ) : Text :=
  if page = 1 then lit "No news." else lit "No more news (page " ++ decimal page ++ lit ")."

/-- The items of a page with their ranks, and a hint when another one follows. -/
def newsPage (feed : Option Text) (page : ℕ) (items : List (Nat × NewsItemRow)) : Text :=
  let shown := Paging.page newsPerPage items page
  if shown = [] then noNews page
  else joinLines ((shown.zipIdx.map fun (item, i) => newsLine ((page - 1) * newsPerPage + i + 1) item) ++
    if page * newsPerPage < items.length then
      [lit "[more: " ++ newsCommand feed (page + 1) ++ lit "]"] else [])

section Pages

variable {sv : Services} {args : List Text} {feed : Option Text} {page : ℕ}

/-- One argument: a page number, or the feed. -/
def newsStep (sv : Services) (found : Option Text × ℕ) (a : Text) : Option (Option Text × ℕ) :=
  if sv.py.isdigit a then (sv.py.int a).map fun n => (found.1, max 1 n)
  else some (some (sv.py.lower a), found.2)

theorem newsArgs_eq (sv : Services) (args : List Text) :
    newsArgs sv args = args.foldlM (newsStep sv) (none, 1) := rfl

theorem newsStep_page {found next : Option Text × ℕ} {a : Text} (hfound : 1 ≤ found.2)
    (h : newsStep sv found a = some next) : 1 ≤ next.2 := by
  unfold newsStep at h
  split at h
  · obtain ⟨n, _, rfl⟩ := Option.map_eq_some_iff.mp h
    exact le_max_left 1 n
  · cases h
    exact hfound

theorem newsArgs_page (h : newsArgs sv args = some (feed, page)) : 1 ≤ page := by
  have key : ∀ (args : List Text) (found last : Option Text × ℕ), 1 ≤ found.2 →
      args.foldlM (newsStep sv) found = some last → 1 ≤ last.2 := by
    intro args
    induction args with
    | nil =>
      intro found last hfound hlast
      cases hlast
      exact hfound
    | cons a args ih =>
      intro found last hfound hlast
      rw [List.foldlM_cons] at hlast
      obtain ⟨next, hnext, hlast⟩ := Option.bind_eq_some_iff.mp hlast
      exact ih next last (newsStep_page hfound hnext) hlast
  rw [newsArgs_eq] at h
  exact key args (none, 1) (feed, page) (le_refl 1) h

/-- The page is cut out of the items that were fetched. -/
theorem fetched_page (hpage : 1 ≤ page) (items : List (Nat × NewsItemRow)) :
    ((items.take (newsPerPage * page)).drop ((page - 1) * newsPerPage)).take newsPerPage =
      Paging.page newsPerPage items page := by
  have hroom : newsPerPage * page - (page - 1) * newsPerPage = newsPerPage := by
    unfold newsPerPage
    omega
  rw [List.drop_take, hroom, List.take_take, Nat.min_self, Paging.page]

/-- No item after the page is fetched. -/
theorem fetched_length (items : List (Nat × NewsItemRow)) :
    ¬ page * newsPerPage < (items.take (newsPerPage * page)).length := by
  rw [List.length_take, Nat.mul_comm page newsPerPage]
  omega

/-- The reply to `NEWS`, a page without a hint. -/
def newsReply (page : ℕ) (items : List (Nat × NewsItemRow)) : Text :=
  let shown := Paging.page newsPerPage items page
  if shown = [] then noNews page
  else joinLines (shown.zipIdx.map fun (item, i) => newsLine ((page - 1) * newsPerPage + i + 1) item)

theorem run_handleNews {w : World} {pk : Pubkey} {parsed : ParsedCommand} {v : Text}
    (hargs : newsArgs sv parsed.args = some (feed, page)) (hfits : fits (newsPerPage * page) = true) :
    (handleNews sv pk parsed v).run (Op.run sv.py) w =
      (answer pk (newsReply page (w.newsOf feed)) (some v)).run (Op.run sv.py) w := by
  have hfetch : (call (.recentNews (newsPerPage * page) feed)).run (Op.run sv.py) w =
      (some ((w.newsOf feed).take (newsPerPage * page)), w) := by
    rw [run_perform, Op.run, Op.check, if_pos hfits, World.recentNews_eq]
  unfold handleNews
  rw [hargs]
  dsimp only
  rw [run_bind_of_some hfetch]
  unfold newsLines newsReply
  dsimp only
  rw [fetched_page (newsArgs_page hargs), if_neg (fetched_length _), List.append_nil]
  split
  · rfl
  · rfl

theorem newsReply_eq_iff (feed : Option Text) (page : ℕ) (items : List (Nat × NewsItemRow)) :
    newsReply page items = newsPage feed page items ↔ items.length ≤ page * newsPerPage := by
  unfold newsReply newsPage
  dsimp only
  by_cases hnil : Paging.page newsPerPage items page = []
  · rw [if_pos hnil, if_pos hnil]
    have hshort : items.length ≤ (page - 1) * newsPerPage := by
      unfold Paging.page at hnil
      rw [List.take_eq_nil_iff] at hnil
      exact List.drop_eq_nil_iff.mp (hnil.resolve_left (by decide))
    have hle : (page - 1) * newsPerPage ≤ page * newsPerPage :=
      Nat.mul_le_mul_right newsPerPage (Nat.sub_le page 1)
    exact iff_of_true rfl (hshort.trans hle)
  · rw [if_neg hnil, if_neg hnil]
    have hlines : ((Paging.page newsPerPage items page).zipIdx.map fun p =>
        newsLine ((page - 1) * newsPerPage + p.2 + 1) p.1) ≠ [] := by
      rw [Ne, List.map_eq_nil_iff, List.zipIdx_eq_nil_iff]
      exact hnil
    split
    · next hmore =>
      rw [joinLines_append _ _ hlines (List.cons_ne_nil _ _)]
      refine iff_of_false (fun h => ?_) (Nat.not_le.mpr hmore)
      have hlen := congrArg List.length h
      rw [List.length_append, List.length_cons] at hlen
      omega
    · next hlast =>
      rw [List.append_nil]
      exact iff_of_true rfl (Nat.not_lt.mp hlast)

/-- **`NEWS`** lists the matching items of a page, newest first and with their ranks; it is right
about a further item exactly when there is none.  The hint is the line that the handler itself puts
last: a title may hold a line that looks like one. -/
theorem news_iff (w : World) (pk : Pubkey) (parsed : ParsedCommand) (v : Text)
    (hargs : newsArgs sv parsed.args = some (feed, page)) (hfits : fits (newsPerPage * page) = true) :
    (handleNews sv pk parsed v).run (Op.run sv.py) w =
      (answer pk (newsReply page (w.newsOf feed)) (some v)).run (Op.run sv.py) w ∧
    (newsReply page (w.newsOf feed) = newsPage feed page (w.newsOf feed) ↔
      (w.newsOf feed).length ≤ page * newsPerPage) ∧
    (w.newsOf feed).Perm (w.newsItems.rows.filter fun p => w.ofFeed feed p.2) ∧
    (w.newsOf feed).Pairwise fun a b => b.2.ts ≤ a.2.ts :=
  ⟨run_handleNews hargs hfits, newsReply_eq_iff feed page _, w.newsOf_perm feed,
    w.newsOf_ordered feed⟩

/-- Six items of one feed. -/
def sixItems : World :=
  { World.start 9 with
    feeds := RowTable.empty.insert ⟨lit "abc", lit "x", true⟩
    newsItems := (List.range 6).foldl (fun table i => table.insert
      { feedId := 1, title := lit "t" ++ decimal i, url := none, ts := (i : ℕ), hash := decimal i })
      .empty }

/-- The second page of `abc` holds the sixth item, and nothing follows it. -/
theorem news_iff_second : newsReply 2 (sixItems.newsOf (some (lit "abc"))) = lit "[6] t0" ∧
    newsReply 2 (sixItems.newsOf (some (lit "abc"))) =
      newsPage (some (lit "abc")) 2 (sixItems.newsOf (some (lit "abc"))) := by
  refine ⟨by decide +kernel, ?_⟩
  have hargs : newsArgs { py := asciiPy } [lit "ABC", lit "2"] = some (some (lit "abc"), 2) := by
    decide +kernel
  have hnews := news_iff sixItems (lit "aa") ⟨lit "NEWS", [lit "ABC", lit "2"], []⟩ (lit "NEWS") hargs
    (by decide)
  exact hnews.2.1.mpr (by decide +kernel)

/-- The sixth item follows the first page, which has no hint to it. -/
theorem news_unhinted : newsArgs { py := asciiPy } [] = some (none, 1) ∧
    newsReply 1 (sixItems.newsOf none) = lit "[1] t5\n[2] t4\n[3] t3\n[4] t2\n[5] t1" ∧
    newsPage none 1 (sixItems.newsOf none) =
      lit "[1] t5\n[2] t4\n[3] t3\n[4] t2\n[5] t1\n[more: NEWS 2]" := by
  refine ⟨rfl, ?_, ?_⟩
  · decide +kernel
  · decide +kernel

end Pages

end Dispatcher

end Bbs
