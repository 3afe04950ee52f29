import MeshcoreBbs.NewsKeys

/-!
# The slug of a `NEWS` line

A slug is stored as it is configured and compared as it is stored, but what the user types is
lower-cased, and it is a page number when it is all digits.  So the feed is found when its slug
is in lower case and what is typed is not a number (`news_slug_iff`).
-/

namespace Bbs

open Coroutine

namespace News

variable {sv : Services} {w : World} {typed : Text}

/-- A line that `NEWS` starts, and what follows it. -/
def newsLine (typed : Text) : Text := lit "NEWS " ++ typed

/-- A word of no white space, when it is not empty, is the only argument. -/
theorem words_newsLine (hsolid : ∀ c ∈ typed, isSpace c = false) :
    words (strip (newsLine typed)) = lit "NEWS" :: if typed = [] then [] else [typed] := by
  by_cases hempty : typed = []
  · subst hempty
    decide +kernel
  · have hstrip : strip (newsLine typed) = newsLine typed := by
      show (newsLine typed).rdropWhile isSpace = newsLine typed
      rw [List.rdropWhile_eq_self_iff]
      intro hne
      have hlast : (newsLine typed).getLast hne = typed.getLast hempty :=
        List.getLast_append_of_ne_nil _ hempty
      rw [hlast, hsolid _ (List.getLast_mem hempty)]
      exact Bool.false_ne_true
    have hverb : (lit "NEWS").all (fun c => !isSpace c) = true := by decide
    have hblank : isSpace ' ' = true := by decide
    have hsplit : (newsLine typed).splitOnP isSpace = lit "NEWS" :: typed.splitOnP isSpace := by
      show (lit "NEWS" ++ ' ' :: typed).splitOnP isSpace = lit "NEWS" :: typed.splitOnP isSpace
      refine List.splitOnP_append_cons_of_forall_mem (fun c hc => ?_) ' ' hblank typed
      simpa using List.all_eq_true.mp hverb c hc
    rw [hstrip, words, hsplit, List.splitOnP_eq_singleton hsolid, if_neg hempty]
    simp [hempty, lit]

theorem parse_newsLine (sv : Services) (hupper : sv.py.upper (lit "NEWS") = lit "NEWS")
    (hsolid : ∀ c ∈ typed, isSpace c = false) :
    ∃ rest, Commands.parse sv.py (newsLine typed) =
      some ⟨lit "NEWS", if typed = [] then [] else [typed], rest⟩ := by
  have hwords := words_newsLine hsolid
  have hne : strip (newsLine typed) ≠ [] := by
    intro hnil
    rw [hnil] at hwords
    cases hwords
  have hverb : Commands.verbAndArgs sv.py (words (strip (newsLine typed))) =
      (lit "NEWS", if typed = [] then [] else [typed]) := by
    rw [hwords]
    split
    · simp only [Commands.verbAndArgs, hupper]
    · simp only [Commands.verbAndArgs, hupper]
      rw [if_neg (by decide)]
  unfold Commands.parse
  dsimp only
  rw [if_neg hne, hverb]
  exact ⟨_, rfl⟩

/-- The message makes `_handle_news` ask first for the newest items up to a page, those of the
feed `id` and no others. -/
def AsksFor (sv : Services) (inbound : InboundMessage) (w : World) (page id : ℕ) : Prop :=
  ∃ parsed feed, Commands.parse sv.py inbound.body = some parsed ∧
    ((Dispatcher.dispatch sv inbound parsed).trace (Op.run sv.py) w).head? =
      some (.recentNews (Dispatcher.newsPerPage * page) feed) ∧
    ∀ item, w.ofFeed feed item = true ↔ item.feedId = id

/-- The first operation of `_handle_news` is its query. -/
theorem head_dispatch_news (inbound : InboundMessage) (args : List Text) (rest : Text) :
    ((Dispatcher.dispatch sv inbound ⟨lit "NEWS", args, rest⟩).trace (Op.run sv.py) w).head? =
      (Dispatcher.newsArgs sv args).map fun found =>
        .recentNews (Dispatcher.newsPerPage * found.2) found.1 := by
  show ((Dispatcher.handleNews sv inbound.pubkey ⟨lit "NEWS", args, rest⟩ (lit "NEWS")).trace
    (Op.run sv.py) w).head? = _
  unfold Dispatcher.handleNews
  cases Dispatcher.newsArgs sv args with
  | none => rfl
  | some found => rfl

/-- A query without a slug is not about one feed. -/
theorem not_forall_ofFeed {feed : Option Text} (hall : ∀ item, w.ofFeed feed item = true) (id : ℕ) :
    ¬ ∀ item, w.ofFeed feed item = true ↔ item.feedId = id := by
  intro h
  have hother := (h ⟨id + 1, [], none, 0, []⟩).mp (hall _)
  exact absurd hother (Nat.succ_ne_self id)

/-- A query for a slug is about the feed that has it. -/
theorem forall_ofFeed_iff (h : w.UniqueSlugs) {slug slug' : Text} {id : ℕ} {f : NewsFeedRow}
    (hf : w.feedRow slug = some (id, f)) :
    (∀ item, w.ofFeed (some slug') item = true ↔ item.feedId = id) ↔ slug' ≠ [] ∧ slug' = slug := by
  obtain ⟨hget, hslug⟩ := (World.feedRow_eq_some_iff h).mp hf
  have hof (hne : slug' ≠ []) (item : NewsItemRow) : w.ofFeed (some slug') item = true ↔
      ∃ g, w.feeds.get? item.feedId = some g ∧ g.slug = slug' := by
    simp [World.ofFeed, hne, Option.any_eq_true]
  constructor
  · intro hall
    have hne : slug' ≠ [] := by
      rintro rfl
      exact not_forall_ofFeed (fun _ => rfl) id hall
    obtain ⟨g, hg, hgslug⟩ := (hof hne _).mp ((hall ⟨id, [], none, 0, []⟩).mpr rfl)
    have hfg : f = g := Option.some.inj (hget.symm.trans hg)
    exact ⟨hne, by rw [← hgslug, ← hslug, hfg]⟩
  · rintro ⟨hne, rfl⟩ item
    rw [hof hne]
    constructor
    · rintro ⟨g, hg, hgslug⟩
      have hrow := (World.feedRow_eq_some_iff h).mpr ⟨hg, hgslug⟩
      rw [hf] at hrow
      cases hrow
      rfl
    · rintro rfl
      exact ⟨f, hget, hslug⟩

/-- What the line asks for, with the slug in the table under `id`. -/
theorem asksFor_iff (hupper : sv.py.upper (lit "NEWS") = lit "NEWS") (hunique : w.UniqueSlugs)
    {slug : Text} {id : ℕ} {f : NewsFeedRow} (hrow : w.feedRow slug = some (id, f))
    (hcase : sv.py.lower typed = sv.py.lower slug) (hsolid : ∀ c ∈ typed, isSpace c = false)
    {inbound : InboundMessage} (hline : inbound.body = newsLine typed) :
    AsksFor sv inbound w 1 id ↔
      typed ≠ [] ∧ slug ≠ [] ∧ sv.py.isdigit typed = false ∧ sv.py.lower slug = slug := by
  obtain ⟨rest, hparse⟩ := parse_newsLine sv hupper hsolid
  have hasks : AsksFor sv inbound w 1 id ↔ ∃ feed,
      ((Dispatcher.newsArgs sv (if typed = [] then [] else [typed])).map fun found =>
        Op.recentNews (Dispatcher.newsPerPage * found.2) found.1) =
          some (.recentNews (Dispatcher.newsPerPage * 1) feed) ∧
      ∀ item, w.ofFeed feed item = true ↔ item.feedId = id := by
    constructor
    · rintro ⟨parsed, feed, hparsed, hhead, hfeed⟩
      rw [hline, hparse] at hparsed
      cases hparsed
      rw [head_dispatch_news] at hhead
      exact ⟨feed, hhead, hfeed⟩
    · rintro ⟨feed, hhead, hfeed⟩
      refine ⟨_, feed, hline ▸ hparse, ?_, hfeed⟩
      rw [head_dispatch_news]
      exact hhead
  rw [hasks]
  by_cases hempty : typed = []
  · -- every item is asked for
    refine iff_of_false ?_ fun h => h.1 hempty
    rw [if_pos hempty]
    rintro ⟨feed, hhead, hfeed⟩
    cases hhead
    exact not_forall_ofFeed (fun _ => rfl) id hfeed
  rw [if_neg hempty]
  by_cases hdigit : sv.py.isdigit typed = true
  · -- a page of all items is asked for, or `int` raises
    refine iff_of_false ?_ fun h => absurd hdigit (by rw [h.2.2.1]; exact Bool.false_ne_true)
    rintro ⟨feed, hhead, hfeed⟩
    obtain ⟨found, hfound, hop⟩ := Option.map_eq_some_iff.mp hhead
    rw [Dispatcher.newsArgs_eq, List.foldlM_cons, Dispatcher.newsStep, if_pos hdigit] at hfound
    obtain ⟨next, hnext, hlast⟩ := Option.bind_eq_some_iff.mp hfound
    obtain ⟨n, -, rfl⟩ := Option.map_eq_some_iff.mp hnext
    cases hlast
    obtain ⟨-, rfl⟩ := Op.recentNews.inj hop
    exact not_forall_ofFeed (fun _ => rfl) id hfeed
  · have hargs : Dispatcher.newsArgs sv [typed] = some (some (sv.py.lower slug), 1) := by
      rw [Dispatcher.newsArgs_eq, List.foldlM_cons, Dispatcher.newsStep, if_neg hdigit, hcase]
      rfl
    rw [hargs]
    constructor
    · rintro ⟨feed, hhead, hfeed⟩
      cases hhead
      obtain ⟨hne, heq⟩ := (forall_ofFeed_iff hunique hrow).mp hfeed
      rw [heq] at hne
      exact ⟨hempty, hne, by simpa using hdigit, heq⟩
    · rintro ⟨-, hne, -, heq⟩
      have hlower : sv.py.lower slug ≠ [] := by
        rw [heq]
        exact hne
      exact ⟨_, rfl, (forall_ofFeed_iff hunique hrow).mpr ⟨hlower, heq⟩⟩

/-- A configured slug has one enabled row. -/
theorem feedRow_of_slug {cfg : NewsConfig} {before : World} (hslugs : before.UniqueSlugs)
    (hw : w.feeds = (initialiseFeeds cfg before).feeds) {slug : Text}
    (hslug : slug ∈ cfg.feeds.map NewsFeed.slug) :
    w.UniqueSlugs ∧ ∃ id url, w.feedRow slug = some (id, ⟨slug, url, true⟩) := by
  constructor
  · unfold World.UniqueSlugs
    rw [hw]
    exact initialiseFeeds_unique hslugs cfg
  · have hafter := feedRow_initialise hslugs cfg slug
    cases hlast : lastUrl cfg.feeds slug with
    | none => exact absurd hslug (lastUrl_eq_none_iff.mp hlast)
    | some url =>
      rw [hlast] at hafter
      obtain ⟨id, hid, -⟩ := hafter
      refine ⟨id, url, ?_⟩
      unfold World.feedRow
      rw [hw]
      exact hid

/-- **`NEWS <slug>`** asks for the first page of the feed configured under the slug, typed in
any case, exactly when the slug is in lower case and what is typed is not a number. -/
theorem news_slug_iff (sv : Services) (hupper : sv.py.upper (lit "NEWS") = lit "NEWS")
    (cfg : NewsConfig) (before w : World) (hslugs : before.UniqueSlugs)
    (hw : w.feeds = (initialiseFeeds cfg before).feeds) (slug typed : Text)
    (hslug : slug ∈ cfg.feeds.map NewsFeed.slug) (hcase : sv.py.lower typed = sv.py.lower slug)
    (hsolid : ∀ c ∈ typed, isSpace c = false) (inbound : InboundMessage)
    (hline : inbound.body = newsLine typed) :
    (∃ id url, (id, slug, url) ∈ w.listFeedIds ∧ AsksFor sv inbound w 1 id) ↔
      typed ≠ [] ∧ slug ≠ [] ∧ sv.py.isdigit typed = false ∧ sv.py.lower slug = slug := by
  obtain ⟨hunique, id, url, hrow⟩ := feedRow_of_slug hslugs hw hslug
  rw [← asksFor_iff hupper hunique hrow hcase hsolid hline]
  constructor
  · rintro ⟨id', url', hlisted, hasks⟩
    have hrow' := (World.feedRow_eq_some_iff hunique).mpr ⟨World.mem_listFeedIds.mp hlisted, rfl⟩
    rw [hrow] at hrow'
    cases hrow'
    exact hasks
  · intro hasks
    have hget := ((World.feedRow_eq_some_iff hunique).mp hrow).1
    exact ⟨id, url, World.mem_listFeedIds.mpr hget, hasks⟩

/-- A database with one feed. -/
def oneFeed (slug : Text) : World := initialiseFeeds { feeds := [⟨slug, lit "u"⟩] } (World.start 0)

def newsMessage (typed : Text) : InboundMessage := { pubkey := lit "aa", body := newsLine typed }

/-- A slug configured in upper case is not found, though it is typed as it is configured. -/
theorem news_slug_upper : (oneFeed (lit "ABC")).listFeedIds = [(1, lit "ABC", lit "u")] ∧
    ¬ AsksFor { py := asciiPy } (newsMessage (lit "ABC")) (oneFeed (lit "ABC")) 1 1 := by
  refine ⟨by decide +kernel, ?_⟩
  rintro ⟨parsed, feed, hparse, hhead, hfeed⟩
  have hparsed : Commands.parse asciiPy (newsMessage (lit "ABC")).body =
      some ⟨lit "NEWS", [lit "ABC"], lit "ABC"⟩ := by decide +kernel
  obtain rfl := Option.some.inj (hparsed.symm.trans hparse)
  have hargs : Dispatcher.newsArgs { py := asciiPy } [lit "ABC"] = some (some (lit "abc"), 1) := by
    decide +kernel
  rw [head_dispatch_news, hargs] at hhead
  obtain ⟨-, rfl⟩ := Op.recentNews.inj (Option.some.inj hhead)
  have hfound := (hfeed ⟨1, [], none, 0, []⟩).mpr rfl
  exact absurd hfound (by decide +kernel)

/-- One in lower case is found in any case. -/
theorem news_slug_iff_lower :
    ∃ id, AsksFor { py := asciiPy } (newsMessage (lit "aBc")) (oneFeed (lit "abc")) 1 id := by
  have hslugs : (World.start 0).UniqueSlugs := List.nodup_nil
  have hall : (lit "aBc").all (fun c => !isSpace c) = true := by decide
  have hsolid : ∀ c ∈ lit "aBc", isSpace c = false := fun c hc => by
    simpa using List.all_eq_true.mp hall c hc
  have hnews := news_slug_iff { py := asciiPy } (by decide) { feeds := [⟨lit "abc", lit "u"⟩] }
    (World.start 0) (oneFeed (lit "abc")) hslugs rfl (lit "abc") (lit "aBc") (by decide) (by decide)
    hsolid (newsMessage (lit "aBc")) rfl
  obtain ⟨id, url, -, hasks⟩ := hnews.mpr (by decide)
  exact ⟨id, hasks⟩

end News

end Bbs
