import MeshcoreBbs.News

/-!
# Feeds follow the configuration

A table of feeds with distinct slugs is a map from slugs to rows, and each statement of
`initialise_feeds` acts on that map at one slug (`feedRow_upsert`, `feeds_disable`).  The
two loops together settle every slug: a configured one has its last url and is enabled,
another is disabled, and no row loses its id (`initialiseFeeds_settles`).
-/

namespace Bbs

namespace World

variable {w : World}

/-- `slug TEXT UNIQUE`. -/
def UniqueSlugs (w : World) : Prop := (w.feeds.rows.map fun p => p.2.slug).Nodup

theorem feedRow_eq_some_iff (h : w.UniqueSlugs) {slug : Text} {i : ℕ} {f : NewsFeedRow} :
    w.feedRow slug = some (i, f) ↔ w.feeds.get? i = some f ∧ f.slug = slug := by
  rw [← RowTable.mem_rows_iff]
  constructor
  · intro hrow
    exact ⟨List.mem_of_find?_eq_some hrow, by simpa using List.find?_some hrow⟩
  · rintro ⟨hmem, rfl⟩
    cases hrow : w.feedRow f.slug with
    | none =>
      have := List.find?_eq_none.mp hrow (i, f) hmem
      simp at this
    | some p =>
      have hp : p.2.slug = f.slug := by simpa using List.find?_some hrow
      have hsame := List.inj_on_of_nodup_map h (List.mem_of_find?_eq_some hrow) hmem hp
      rw [hsame]

theorem feedRow_eq_none_iff {slug : Text} :
    w.feedRow slug = none ↔ ∀ p ∈ w.feeds.rows, p.2.slug ≠ slug := by
  unfold feedRow
  rw [List.find?_eq_none]
  simp

/-- Tables with the same row for every slug have the same rows. -/
theorem get?_of_feedRow {w' : World} (h : w.UniqueSlugs) (h' : w'.UniqueSlugs)
    (hrow : ∀ slug, w'.feedRow slug = w.feedRow slug) (i : ℕ) : w'.feeds.get? i = w.feeds.get? i := by
  ext f
  constructor
  · intro hf
    have hr := (feedRow_eq_some_iff h').mpr ⟨hf, rfl⟩
    rw [hrow] at hr
    exact ((feedRow_eq_some_iff h).mp hr).1
  · intro hf
    have hr := (feedRow_eq_some_iff h).mpr ⟨hf, rfl⟩
    rw [← hrow] at hr
    exact ((feedRow_eq_some_iff h').mp hr).1

/-- Rows of a column that no operation writes. -/
theorem uniqueSlugs_mapRows {g : ℕ → NewsFeedRow → NewsFeedRow} {feeds : RowTable NewsFeedRow}
    (hg : ∀ i f, (g i f).slug = f.slug) (h : (feeds.rows.map fun p => p.2.slug).Nodup) :
    ((feeds.mapRows g).rows.map fun p => p.2.slug).Nodup := by
  unfold RowTable.mapRows
  rw [List.map_map]
  simpa only [Function.comp_def, hg] using h

/-! ## One configured feed -/

theorem UniqueSlugs.upsert (h : w.UniqueSlugs) (slug url : Text) :
    (w.upsertNewsFeed slug url).2.UniqueSlugs := by
  unfold upsertNewsFeed
  cases hrow : w.feedRow slug with
  | some p =>
    apply uniqueSlugs_mapRows
    · intro i f
      dsimp only
      split <;> rfl
    · exact h
  | none =>
    have hfresh := feedRow_eq_none_iff.mp hrow
    show ((w.feeds.rows ++ [(w.feeds.seq + 1, (⟨slug, url, true⟩ : NewsFeedRow))]).map
      fun p => p.2.slug).Nodup
    rw [List.map_append, List.nodup_append]
    refine ⟨h, List.nodup_singleton _, ?_⟩
    intro a ha b hb
    obtain ⟨p, hp, rfl⟩ := List.mem_map.mp ha
    obtain rfl : b = slug := by simpa using hb
    exact hfresh p hp

/-- An upsert gives its slug a row, under the id that it says. -/
theorem get?_upsert_self (h : w.UniqueSlugs) (slug url : Text) :
    (w.upsertNewsFeed slug url).2.feeds.get? (w.upsertNewsFeed slug url).1 =
      some ⟨slug, url, true⟩ := by
  unfold upsertNewsFeed
  cases hrow : w.feedRow slug with
  | some p =>
    obtain ⟨i, f⟩ := p
    obtain ⟨hf, rfl⟩ := (feedRow_eq_some_iff h).mp hrow
    dsimp only
    rw [RowTable.get?_modify, if_pos rfl, hf]
    rfl
  | none =>
    dsimp only
    rw [RowTable.get?_insert, if_pos rfl]

/-- An upsert leaves the rows of other slugs alone. -/
theorem get?_upsert_other (h : w.UniqueSlugs) {slug : Text} (url : Text) {i : ℕ} {f : NewsFeedRow}
    (hf : f.slug ≠ slug) :
    (w.upsertNewsFeed slug url).2.feeds.get? i = some f ↔ w.feeds.get? i = some f := by
  unfold upsertNewsFeed
  cases hrow : w.feedRow slug with
  | some p =>
    obtain ⟨j, g⟩ := p
    obtain ⟨hg, rfl⟩ := (feedRow_eq_some_iff h).mp hrow
    dsimp only
    rw [RowTable.get?_modify]
    by_cases hij : i = j
    · subst hij
      rw [if_pos rfl, hg]
      constructor
      · intro he
        cases he
        exact absurd rfl hf
      · intro he
        cases he
        exact absurd rfl hf
    · rw [if_neg hij]
  | none =>
    dsimp only
    rw [RowTable.get?_insert]
    by_cases hi : i = w.feeds.seq + 1
    · subst hi
      rw [if_pos rfl, w.feeds.get?_next]
      constructor
      · intro he
        cases he
        exact absurd rfl hf
      · intro he
        cases he
    · rw [if_neg hi]

/-- An upsert acts on the map from slugs to rows at its slug. -/
theorem feedRow_upsert (h : w.UniqueSlugs) (slug url s : Text) :
    (w.upsertNewsFeed slug url).2.feedRow s =
      if s = slug then some ((w.upsertNewsFeed slug url).1, ⟨slug, url, true⟩) else w.feedRow s := by
  have hafter := h.upsert slug url
  by_cases hs : s = slug
  · subst hs
    rw [if_pos rfl]
    exact (feedRow_eq_some_iff hafter).mpr ⟨get?_upsert_self h s url, rfl⟩
  · rw [if_neg hs]
    ext ⟨i, f⟩
    rw [feedRow_eq_some_iff hafter, feedRow_eq_some_iff h]
    constructor
    · rintro ⟨hf, rfl⟩
      exact ⟨(get?_upsert_other h url hs).mp hf, rfl⟩
    · rintro ⟨hf, rfl⟩
      exact ⟨(get?_upsert_other h url hs).mpr hf, rfl⟩

theorem upsert_id {slug url : Text} {i : ℕ} {f : NewsFeedRow} (h : w.feedRow slug = some (i, f)) :
    (w.upsertNewsFeed slug url).1 = i := by
  unfold upsertNewsFeed
  rw [h]

theorem upsert_seq {slug url : Text} {p : ℕ × NewsFeedRow} (h : w.feedRow slug = some p) :
    (w.upsertNewsFeed slug url).2.feeds.seq = w.feeds.seq := by
  unfold upsertNewsFeed
  rw [h]
  rfl

/-! ## The feeds that are not configured -/

/-- The row as `disable_feeds_not_in` leaves it. -/
def disabledUnless (slugs : List Text) (f : NewsFeedRow) : NewsFeedRow :=
  if slugs.contains f.slug then f else { f with enabled := false }

theorem disabledUnless_of_mem {slugs : List Text} {f : NewsFeedRow} (h : f.slug ∈ slugs) :
    disabledUnless slugs f = f :=
  if_pos (List.contains_iff_mem.mpr h)

theorem disabledUnless_of_notMem {slugs : List Text} {f : NewsFeedRow} (h : f.slug ∉ slugs) :
    disabledUnless slugs f = { f with enabled := false } :=
  if_neg fun hin => h (List.contains_iff_mem.mp hin)

theorem get?_foldl_disableUnless (slugs names : List Text) (i : ℕ) :
    ((names.foldl (disableUnless slugs) w).feeds).get? i = (w.feeds.get? i).map fun f =>
      if f.slug ∈ names then disabledUnless slugs f else f := by
  induction names generalizing w with
  | nil => simp
  | cons name names ih =>
    rw [List.foldl_cons, ih]
    unfold disableUnless
    split
    · next hin =>
      congr 1
      funext f
      by_cases hf : f.slug = name
      · subst hf
        simp [disabledUnless_of_mem (List.contains_iff_mem.mp hin)]
      · simp [hf]
    · next hout =>
      unfold disableFeed
      rw [RowTable.get?_mapRows, Option.map_map]
      congr 1
      funext f
      by_cases hf : f.slug = name
      · subst hf
        have hout : f.slug ∉ slugs := fun hin => hout (List.contains_iff_mem.mpr hin)
        have hagain : disabledUnless slugs { f with enabled := false } = { f with enabled := false } :=
          disabledUnless_of_notMem hout
        simp [disabledUnless_of_notMem hout, hagain]
      · simp [hf]

theorem seq_foldl_disableUnless (slugs names : List Text) :
    (names.foldl (disableUnless slugs) w).feeds.seq = w.feeds.seq := by
  induction names generalizing w with
  | nil => rfl
  | cons name names ih =>
    rw [List.foldl_cons, ih]
    unfold disableUnless disableFeed
    split <;> rfl

/-- Disabling what is disabled does nothing, so the loop acts on every row. -/
theorem feeds_disable (w : World) (slugs : List Text) :
    (w.disableFeedsNotIn slugs).feeds = w.feeds.mapRows fun _ f => disabledUnless slugs f := by
  apply RowTable.ext_get?
  · intro i
    unfold disableFeedsNotIn
    rw [get?_foldl_disableUnless, RowTable.get?_mapRows]
    cases hf : w.feeds.get? i with
    | none => rfl
    | some f =>
      simp only [Option.map_some]
      split
      · rfl
      · next hout =>
        -- a row that is not listed is disabled already
        have hdisabled : f.enabled = false := by
          by_contra hen
          apply hout
          apply List.mem_map.mpr
          refine ⟨(i, f), List.mem_filter.mpr ⟨(w.feeds.mem_rows_iff i f).mpr hf, ?_⟩, rfl⟩
          simpa using hen
        unfold disabledUnless
        split
        · rfl
        · rw [← hdisabled]
  · exact seq_foldl_disableUnless _ _

theorem UniqueSlugs.disable (h : w.UniqueSlugs) (slugs : List Text) :
    (w.disableFeedsNotIn slugs).UniqueSlugs := by
  unfold UniqueSlugs
  rw [feeds_disable]
  apply uniqueSlugs_mapRows
  · intro _ f
    unfold disabledUnless
    split <;> rfl
  · exact h

theorem feedRow_disable (h : w.UniqueSlugs) (slugs : List Text) (s : Text) :
    (w.disableFeedsNotIn slugs).feedRow s =
      (w.feedRow s).map fun p => (p.1, disabledUnless slugs p.2) := by
  have hslug (f : NewsFeedRow) : (disabledUnless slugs f).slug = f.slug := by
    unfold disabledUnless
    split <;> rfl
  ext ⟨i, f⟩
  rw [feedRow_eq_some_iff (h.disable slugs), feeds_disable, RowTable.get?_mapRows,
    Option.map_eq_some_iff, Option.map_eq_some_iff]
  constructor
  · rintro ⟨⟨f, hf, rfl⟩, hs⟩
    exact ⟨(i, f), (feedRow_eq_some_iff h).mpr ⟨hf, (hslug f) ▸ hs⟩, rfl⟩
  · rintro ⟨⟨j, f⟩, hrow, heq⟩
    cases heq
    obtain ⟨hf, hs⟩ := (feedRow_eq_some_iff h).mp hrow
    exact ⟨⟨f, hf, rfl⟩, (hslug f).trans hs⟩

/-! ## What else is left alone -/

/-- `w'` differs from `w` in the table of feeds at most. -/
def SetsFeeds (w w' : World) : Prop := ∃ feeds, w' = { w with feeds := feeds }

theorem SetsFeeds.refl (w : World) : w.SetsFeeds w := ⟨w.feeds, rfl⟩

theorem SetsFeeds.trans {w₁ w₂ w₃ : World} (h : w₁.SetsFeeds w₂) (h' : w₂.SetsFeeds w₃) :
    w₁.SetsFeeds w₃ := by
  obtain ⟨feeds, rfl⟩ := h
  obtain ⟨feeds', rfl⟩ := h'
  exact ⟨feeds', rfl⟩

theorem setsFeeds_upsert (w : World) (slug url : Text) :
    w.SetsFeeds (w.upsertNewsFeed slug url).2 := by
  unfold upsertNewsFeed
  split
  · exact ⟨_, rfl⟩
  · exact ⟨_, rfl⟩

theorem setsFeeds_disable (w : World) (slugs : List Text) :
    w.SetsFeeds (w.disableFeedsNotIn slugs) := by
  unfold disableFeedsNotIn
  generalize (w.feeds.rows.filter fun p => p.2.enabled).map (fun p => p.2.slug) = names
  induction names generalizing w with
  | nil => exact .refl w
  | cons name names ih =>
    have hone : w.SetsFeeds (disableUnless slugs w name) := by
      unfold disableUnless
      split
      · exact .refl w
      · exact ⟨_, rfl⟩
    exact hone.trans (ih _)

theorem mem_listFeedIds {i : ℕ} {slug url : Text} :
    (i, slug, url) ∈ w.listFeedIds ↔ w.feeds.get? i = some ⟨slug, url, true⟩ := by
  unfold listFeedIds
  rw [List.mem_map, ← RowTable.mem_rows_iff]
  constructor
  · rintro ⟨⟨j, f⟩, hmem, heq⟩
    rw [List.mem_insertionSort, List.mem_filter] at hmem
    obtain ⟨slug', url', enabled⟩ := f
    obtain ⟨hrow, hen⟩ := hmem
    cases heq
    rwa [show enabled = true from hen] at hrow
  · intro hrow
    refine ⟨(i, ⟨slug, url, true⟩), ?_, rfl⟩
    rw [List.mem_insertionSort, List.mem_filter]
    exact ⟨hrow, rfl⟩

theorem nodup_listFeedIds (h : w.UniqueSlugs) : (w.listFeedIds.map fun f => f.2.1).Nodup := by
  unfold listFeedIds
  rw [List.map_map]
  have hperm := (List.perm_insertionSort (fun a b : ℕ × NewsFeedRow => a.2.slug ≤ b.2.slug)
    (w.feeds.rows.filter fun p => p.2.enabled)).map fun p => p.2.slug
  have hsub : List.Sublist ((w.feeds.rows.filter fun p => p.2.enabled).map fun p => p.2.slug)
      (w.feeds.rows.map fun p => p.2.slug) := List.filter_sublist.map _
  exact hperm.nodup_iff.mpr (h.sublist hsub)

end World

/-! ## The whole start -/

namespace News

variable {w : World}

/-- The url that the configuration gives a slug: the last one. -/
def lastUrl (feeds : List NewsFeed) (slug : Text) : Option Text :=
  (feeds.findRev? fun f => f.slug = slug).map NewsFeed.url

theorem lastUrl_cons (feed : NewsFeed) (feeds : List NewsFeed) (slug : Text) :
    lastUrl (feed :: feeds) slug =
      (lastUrl feeds slug).or (if slug = feed.slug then some feed.url else none) := by
  unfold lastUrl
  rw [List.findRev?]
  cases hrest : feeds.findRev? fun f => f.slug = slug with
  | some f => rfl
  | none =>
    by_cases hs : feed.slug = slug
    · simp [hs]
    · have hs' : ¬ slug = feed.slug := fun e => hs e.symm
      simp [hs, hs']

theorem lastUrl_eq_none_iff {feeds : List NewsFeed} {slug : Text} :
    lastUrl feeds slug = none ↔ slug ∉ feeds.map NewsFeed.slug := by
  induction feeds with
  | nil => simp [lastUrl, List.findRev?]
  | cons feed feeds ih =>
    rw [lastUrl_cons, Option.or_eq_none_iff, ih, List.map_cons, List.mem_cons, not_or]
    constructor
    · rintro ⟨hrest, hfeed⟩
      refine ⟨?_, hrest⟩
      rintro rfl
      simp at hfeed
    · rintro ⟨hfeed, hrest⟩
      exact ⟨hrest, if_neg hfeed⟩

/-- The first loop of `initialise_feeds`. -/
def upsertFeeds (feeds : List NewsFeed) (w : World) : World :=
  feeds.foldl (fun w feed => (w.upsertNewsFeed feed.slug feed.url).2) w

theorem upsertFeeds_unique (h : w.UniqueSlugs) (feeds : List NewsFeed) :
    (upsertFeeds feeds w).UniqueSlugs := by
  induction feeds generalizing w with
  | nil => exact h
  | cons feed feeds ih => exact ih (h.upsert feed.slug feed.url)

/-- The loop leaves a slug that it does not meet, and gives another its last url. -/
theorem feedRow_upsertFeeds (h : w.UniqueSlugs) (feeds : List NewsFeed) (s : Text) :
    match lastUrl feeds s with
    | none => (upsertFeeds feeds w).feedRow s = w.feedRow s
    | some url => ∃ i, (upsertFeeds feeds w).feedRow s = some (i, ⟨s, url, true⟩) ∧
        ∀ j f, w.feedRow s = some (j, f) → i = j := by
  induction feeds generalizing w with
  | nil => rfl
  | cons feed feeds ih =>
    have hrest := ih (h.upsert feed.slug feed.url)
    rw [World.feedRow_upsert h] at hrest
    rw [lastUrl_cons]
    show match (lastUrl feeds s).or (if s = feed.slug then some feed.url else none) with
      | none => (upsertFeeds feeds (w.upsertNewsFeed feed.slug feed.url).2).feedRow s = w.feedRow s
      | some url => ∃ i, (upsertFeeds feeds (w.upsertNewsFeed feed.slug feed.url).2).feedRow s =
          some (i, ⟨s, url, true⟩) ∧ ∀ j f, w.feedRow s = some (j, f) → i = j
    have hid (j : ℕ) (f : NewsFeedRow) (hf : w.feedRow feed.slug = some (j, f)) :
        (w.upsertNewsFeed feed.slug feed.url).1 = j := World.upsert_id hf
    cases hlast : lastUrl feeds s with
    | none =>
      rw [hlast] at hrest
      by_cases hs : s = feed.slug
      · subst hs
        rw [if_pos rfl] at hrest
        rw [Option.none_or, if_pos rfl]
        exact ⟨_, hrest, hid⟩
      · rw [if_neg hs] at hrest
        rw [Option.none_or, if_neg hs]
        exact hrest
    | some url =>
      rw [hlast] at hrest
      obtain ⟨i, hi, hold⟩ := hrest
      refine ⟨i, hi, ?_⟩
      intro j f hf
      by_cases hs : s = feed.slug
      · subst hs
        rw [if_pos rfl] at hold
        rw [hold _ _ rfl]
        exact hid j f hf
      · rw [if_neg hs] at hold
        exact hold j f hf

/-- After the loop the configured slugs have rows. -/
theorem feedRow_of_configured (h : w.UniqueSlugs) {feeds : List NewsFeed} {s : Text}
    (hs : s ∈ feeds.map NewsFeed.slug) : ∃ p, (upsertFeeds feeds w).feedRow s = some p := by
  have hrow := feedRow_upsertFeeds h feeds s
  cases hlast : lastUrl feeds s with
  | none => exact absurd hs (lastUrl_eq_none_iff.mp hlast)
  | some url =>
    rw [hlast] at hrow
    obtain ⟨i, hi, -⟩ := hrow
    exact ⟨_, hi⟩

/-- A loop over slugs that have rows inserts none. -/
theorem seq_upsertFeeds (h : w.UniqueSlugs) {feeds : List NewsFeed}
    (hrows : ∀ feed ∈ feeds, ∃ p, w.feedRow feed.slug = some p) :
    (upsertFeeds feeds w).feeds.seq = w.feeds.seq := by
  induction feeds generalizing w with
  | nil => rfl
  | cons feed feeds ih =>
    obtain ⟨p, hp⟩ := hrows feed List.mem_cons_self
    have hnext := ih (h.upsert feed.slug feed.url) fun next hnext => by
      obtain ⟨q, hq⟩ := hrows next (List.mem_cons_of_mem _ hnext)
      rw [World.feedRow_upsert h]
      split
      · exact ⟨_, rfl⟩
      · exact ⟨q, hq⟩
    exact hnext.trans (World.upsert_seq hp)

theorem setsFeeds_upsertFeeds (feeds : List NewsFeed) (w : World) :
    w.SetsFeeds (upsertFeeds feeds w) := by
  induction feeds generalizing w with
  | nil => exact .refl w
  | cons feed feeds ih => exact (World.setsFeeds_upsert w feed.slug feed.url).trans (ih _)

/-- Only the table of feeds is written. -/
theorem setsFeeds_initialise (cfg : NewsConfig) (w : World) :
    w.SetsFeeds (initialiseFeeds cfg w) :=
  (setsFeeds_upsertFeeds cfg.feeds w).trans (World.setsFeeds_disable _ _)

theorem initialiseFeeds_unique (h : w.UniqueSlugs) (cfg : NewsConfig) :
    (initialiseFeeds cfg w).UniqueSlugs :=
  (upsertFeeds_unique h cfg.feeds).disable _

/-- Each slug after the start. -/
theorem feedRow_initialise (h : w.UniqueSlugs) (cfg : NewsConfig) (s : Text) :
    match lastUrl cfg.feeds s with
    | none => (initialiseFeeds cfg w).feedRow s =
        (w.feedRow s).map fun p => (p.1, { p.2 with enabled := false })
    | some url => ∃ i, (initialiseFeeds cfg w).feedRow s = some (i, ⟨s, url, true⟩) ∧
        ∀ j f, w.feedRow s = some (j, f) → i = j := by
  have hunique := upsertFeeds_unique h cfg.feeds
  have hloop := feedRow_upsertFeeds h cfg.feeds s
  have hafter : (initialiseFeeds cfg w).feedRow s = _ :=
    World.feedRow_disable hunique (cfg.feeds.map NewsFeed.slug) s
  rw [hafter]
  cases hlast : lastUrl cfg.feeds s with
  | none =>
    rw [hlast] at hloop
    have hout := lastUrl_eq_none_iff.mp hlast
    dsimp only at hloop ⊢
    rw [hloop]
    cases hrow : w.feedRow s with
    | none => rfl
    | some p =>
      have hs := ((World.feedRow_eq_some_iff h).mp hrow).2
      rw [Option.map_some, Option.map_some, World.disabledUnless_of_notMem (hs ▸ hout)]
  | some url =>
    rw [hlast] at hloop
    obtain ⟨i, hi, hold⟩ := hloop
    have hin : s ∈ cfg.feeds.map NewsFeed.slug := by
      by_contra hout
      rw [lastUrl_eq_none_iff.mpr hout] at hlast
      cases hlast
    refine ⟨i, ?_, hold⟩
    rw [hi]
    rw [Option.map_some, World.disabledUnless_of_mem hin]

/-- Every configured slug has a row after the start. -/
theorem feedRow_initialise_of_configured (h : w.UniqueSlugs) {cfg : NewsConfig} {s : Text}
    (hs : s ∈ cfg.feeds.map NewsFeed.slug) : ∃ p, (initialiseFeeds cfg w).feedRow s = some p := by
  obtain ⟨p, hp⟩ := feedRow_of_configured h hs
  have hafter : (initialiseFeeds cfg w).feedRow s = _ :=
    World.feedRow_disable (upsertFeeds_unique h cfg.feeds) _ _
  rw [hafter, hp]
  exact ⟨_, rfl⟩

/-- A second start finds every slug as the first one left it. -/
theorem initialiseFeeds_idem (h : w.UniqueSlugs) (cfg : NewsConfig) :
    initialiseFeeds cfg (initialiseFeeds cfg w) = initialiseFeeds cfg w := by
  have hone := initialiseFeeds_unique h cfg
  have htwo := initialiseFeeds_unique hone cfg
  have hrow (s : Text) : (initialiseFeeds cfg (initialiseFeeds cfg w)).feedRow s =
      (initialiseFeeds cfg w).feedRow s := by
    have h1 := feedRow_initialise h cfg s
    have h2 := feedRow_initialise hone cfg s
    cases hlast : lastUrl cfg.feeds s with
    | none =>
      rw [hlast] at h1 h2
      dsimp only at h1 h2
      rw [h2, h1, Option.map_map]
      rfl
    | some url =>
      rw [hlast] at h1 h2
      obtain ⟨i, hi, -⟩ := h1
      obtain ⟨j, hj, hold⟩ := h2
      rw [hj, hi, hold i _ hi]
  have hget (i : ℕ) : (initialiseFeeds cfg (initialiseFeeds cfg w)).feeds.get? i =
      (initialiseFeeds cfg w).feeds.get? i := World.get?_of_feedRow hone htwo hrow i
  have hseq : (initialiseFeeds cfg (initialiseFeeds cfg w)).feeds.seq =
      (initialiseFeeds cfg w).feeds.seq := by
    have hrows : ∀ feed ∈ cfg.feeds, ∃ p, (initialiseFeeds cfg w).feedRow feed.slug = some p :=
      fun feed hfeed => feedRow_initialise_of_configured h (List.mem_map_of_mem hfeed)
    exact (World.seq_foldl_disableUnless _ _).trans (seq_upsertFeeds hone hrows)
  obtain ⟨feeds, hfeeds⟩ := setsFeeds_initialise cfg (initialiseFeeds cfg w)
  have heq := RowTable.ext_get? hget hseq
  rw [hfeeds] at heq ⊢
  dsimp only at heq
  rw [heq]

/-- The enabled feeds are the configured ones. -/
theorem listed_initialise_iff (h : w.UniqueSlugs) (cfg : NewsConfig) (slug url : Text) :
    (∃ i, (i, slug, url) ∈ (initialiseFeeds cfg w).listFeedIds) ↔
      lastUrl cfg.feeds slug = some url := by
  have hafter := initialiseFeeds_unique h cfg
  simp only [World.mem_listFeedIds]
  have hrow := feedRow_initialise h cfg slug
  cases hlast : lastUrl cfg.feeds slug with
  | none =>
    rw [hlast] at hrow
    dsimp only at hrow
    constructor
    · rintro ⟨i, hi⟩
      have hnew := (World.feedRow_eq_some_iff hafter).mpr ⟨hi, rfl⟩
      rw [hrow, Option.map_eq_some_iff] at hnew
      obtain ⟨p, -, hp⟩ := hnew
      cases hp
    · intro hnone
      cases hnone
  | some url' =>
    rw [hlast] at hrow
    obtain ⟨i, hi, -⟩ := hrow
    have hget := ((World.feedRow_eq_some_iff hafter).mp hi).1
    constructor
    · rintro ⟨j, hj⟩
      have hnew := (World.feedRow_eq_some_iff hafter).mpr ⟨hj, rfl⟩
      rw [hi] at hnew
      cases hnew
      rfl
    · intro heq
      cases heq
      exact ⟨i, hget⟩

theorem get?_initialise_of_unconfigured (h : w.UniqueSlugs) {cfg : NewsConfig} {i : ℕ} {f : NewsFeedRow}
    (hf : w.feeds.get? i = some f) (hout : f.slug ∉ cfg.feeds.map NewsFeed.slug) :
    (initialiseFeeds cfg w).feeds.get? i = some { f with enabled := false } := by
  have hrow := feedRow_initialise h cfg f.slug
  rw [lastUrl_eq_none_iff.mpr hout] at hrow
  dsimp only at hrow
  rw [(World.feedRow_eq_some_iff h).mpr ⟨hf, rfl⟩] at hrow
  exact ((World.feedRow_eq_some_iff (initialiseFeeds_unique h cfg)).mp hrow).1

/-- A feed keeps its id. -/
theorem get?_initialise (h : w.UniqueSlugs) (cfg : NewsConfig) {i : ℕ} {f : NewsFeedRow}
    (hf : w.feeds.get? i = some f) :
    ∃ f', (initialiseFeeds cfg w).feeds.get? i = some f' ∧ f'.slug = f.slug := by
  have hrow := feedRow_initialise h cfg f.slug
  cases hlast : lastUrl cfg.feeds f.slug with
  | none => exact ⟨_, get?_initialise_of_unconfigured h hf (lastUrl_eq_none_iff.mp hlast), rfl⟩
  | some url =>
    rw [hlast] at hrow
    obtain ⟨j, hj, hid⟩ := hrow
    rw [hid i f ((World.feedRow_eq_some_iff h).mpr ⟨hf, rfl⟩)] at hj
    exact ⟨_, (World.feedRow_eq_some_iff (initialiseFeeds_unique h cfg)).mp hj⟩

/-- **Feeds follow the configuration.**  After a start the enabled feeds are the configured
slugs with their last urls, rows keep their ids, the others are disabled, the items are left
alone, and another start changes nothing. -/
theorem initialiseFeeds_settles (cfg : NewsConfig) (w : World) (h : w.UniqueSlugs) :
    (∀ slug url, (∃ i, (i, slug, url) ∈ (initialiseFeeds cfg w).listFeedIds) ↔
      lastUrl cfg.feeds slug = some url) ∧
    ((initialiseFeeds cfg w).listFeedIds.map fun f => f.2.1).Nodup ∧
    (∀ i f, w.feeds.get? i = some f →
      ∃ f', (initialiseFeeds cfg w).feeds.get? i = some f' ∧ f'.slug = f.slug) ∧
    (∀ i f, w.feeds.get? i = some f → f.slug ∉ cfg.feeds.map NewsFeed.slug →
      (initialiseFeeds cfg w).feeds.get? i = some { f with enabled := false }) ∧
    (initialiseFeeds cfg w).newsItems = w.newsItems ∧
    initialiseFeeds cfg (initialiseFeeds cfg w) = initialiseFeeds cfg w := by
  have hunique := initialiseFeeds_unique h cfg
  refine ⟨listed_initialise_iff h cfg, World.nodup_listFeedIds hunique, ?_, ?_, ?_,
    initialiseFeeds_idem h cfg⟩
  · intro i f hf
    exact get?_initialise h cfg hf
  · intro i f hf hout
    exact get?_initialise_of_unconfigured h hf hout
  · obtain ⟨feeds, hfeeds⟩ := setsFeeds_initialise cfg w
    rw [hfeeds]

/-- A slug configured twice, one that is not configured any more, and one that was disabled. -/
theorem initialiseFeeds_settles_three :
    let cfg : NewsConfig := { feeds := [⟨lit "a", lit "1"⟩, ⟨lit "b", lit "2"⟩, ⟨lit "a", lit "3"⟩] }
    let w : World := { World.start 0 with
      feeds := (RowTable.empty.insert ⟨lit "c", lit "9", true⟩).insert ⟨lit "b", lit "0", false⟩ }
    w.UniqueSlugs ∧
    (initialiseFeeds cfg w).listFeedIds = [(3, lit "a", lit "3"), (2, lit "b", lit "2")] ∧
    initialiseFeeds cfg (initialiseFeeds cfg w) = initialiseFeeds cfg w := by
  intro cfg w
  have h : w.UniqueSlugs := by
    unfold World.UniqueSlugs
    decide +kernel
  exact ⟨h, by decide +kernel, (initialiseFeeds_settles cfg w h).2.2.2.2.2⟩

end News

end Bbs
