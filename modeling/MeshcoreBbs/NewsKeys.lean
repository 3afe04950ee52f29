import MeshcoreBbs.Lib.Machine
import MeshcoreBbs.NewsRefresh

/-!
# Which entries are taken for one another

An entry is skipped when the hash of its key is stored, and the key joins the feed's id, the
title and the link with a bar.  The id has no bar in it, so feeds are kept apart; a title and
a link can be joined to the same text in two ways when a link has a bar in it
(`itemKey_eq_iff`), and then one of two different entries is lost (`entry_skipped_iff`).
-/

namespace Bbs

namespace News

variable {sha : Text → Text} {w : World}

/-! ## Keys -/

/-- What the key joins after the id of the feed. -/
def joined (title : Text) (link : Option Text) : Text := title ++ '|' :: link.getD []

/-- A text up to its first bar. -/
theorem bar_inj {a a' x x' : Text} (ha : '|' ∉ a) (ha' : '|' ∉ a')
    (h : a ++ '|' :: x = a' ++ '|' :: x') :
    a = a' ∧ x = x' := by
  induction a generalizing a' with
  | nil =>
    cases a' with
    | nil =>
      cases h
      exact ⟨rfl, rfl⟩
    | cons c a' =>
      cases h
      exact absurd List.mem_cons_self ha'
  | cons c a ih =>
    cases a' with
    | nil =>
      cases h
      exact absurd List.mem_cons_self ha
    | cons c' a' =>
      obtain ⟨rfl, hrest⟩ := List.cons.inj h
      obtain ⟨rfl, hx⟩ := ih (fun hc => ha (List.mem_cons_of_mem _ hc))
        (fun hc => ha' (List.mem_cons_of_mem _ hc)) hrest
      exact ⟨rfl, hx⟩

theorem bar_notMem_decimal (n : ℕ) : '|' ∉ decimal n := fun h =>
  absurd (isDigit_of_mem_decimal h) (by decide)

/-- Keys are equal when the feeds are, and the titles and links read the same. -/
theorem itemKey_eq_iff {feedId feedId' : ℕ} {title title' : Text} {link link' : Option Text} :
    itemKey feedId title link = itemKey feedId' title' link' ↔
      feedId = feedId' ∧ joined title link = joined title' link' := by
  have hkey (feedId : ℕ) (title : Text) (link : Option Text) :
      itemKey feedId title link = decimal feedId ++ '|' :: joined title link := by
    simp [itemKey, joined]
  rw [hkey, hkey]
  constructor
  · intro h
    obtain ⟨hid, hrest⟩ := bar_inj (bar_notMem_decimal _) (bar_notMem_decimal _) h
    exact ⟨decimal_inj hid, hrest⟩
  · rintro ⟨rfl, h⟩
    rw [h]

/-- Without a bar in the links, what is joined can be taken apart. -/
theorem joined_inj {title title' : Text} {link link' : Option Text} (h : '|' ∉ link.getD [])
    (h' : '|' ∉ link'.getD []) (heq : joined title link = joined title' link') :
    title = title' ∧ link.getD [] = link'.getD [] := by
  have hrev := congrArg List.reverse heq
  simp only [joined, List.reverse_append, List.reverse_cons, List.append_assoc,
    List.singleton_append] at hrev
  obtain ⟨hlink, htitle⟩ := bar_inj (by simpa using h) (by simpa using h') hrev
  exact ⟨List.reverse_inj.mp htitle, List.reverse_inj.mp hlink⟩

/-! ## What every database of the service keeps -/

/-- Slugs and hashes are unique, and a hash is that of its row. -/
structure Keyed (sha : Text → Text) (w : World) : Prop where
  slugs : w.UniqueSlugs
  hashes : (w.newsItems.rows.map fun p => p.2.hash).Nodup
  hashed : ∀ p ∈ w.newsItems.rows, p.2.hash = sha (itemKey p.2.feedId p.2.title p.2.url)

theorem keyed_start (sha : Text → Text) (clock : ℚ) : Keyed sha (World.start clock) := by
  refine ⟨List.nodup_nil, List.nodup_nil, ?_⟩
  intro p hp
  cases hp

theorem Keyed.initialise (h : Keyed sha w) (cfg : NewsConfig) :
    Keyed sha (initialiseFeeds cfg w) := by
  have hslugs := initialiseFeeds_unique h.slugs cfg
  obtain ⟨feeds, hfeeds⟩ := setsFeeds_initialise cfg w
  rw [hfeeds] at hslugs ⊢
  exact ⟨hslugs, h.hashes, h.hashed⟩

theorem Keyed.addItem (h : Keyed sha w) {r : NewsItemRow} (hfresh : r.hash ∉ w.storedHashes)
    (hr : r.hash = sha (itemKey r.feedId r.title r.url)) : Keyed sha (w.addItem r) := by
  refine ⟨h.slugs, ?_, ?_⟩
  · show ((w.newsItems.rows ++ [(w.newsItems.seq + 1, r)]).map fun p => p.2.hash).Nodup
    rw [List.map_append, List.nodup_append]
    refine ⟨h.hashes, List.nodup_singleton _, ?_⟩
    intro a ha b hb
    obtain rfl : b = r.hash := by simpa using hb
    rintro rfl
    exact hfresh (List.mem_toFinset.mpr ha)
  · intro p hp
    rcases List.mem_append.mp hp with hp | hp
    · exact h.hashed p hp
    · obtain rfl : p = (w.newsItems.seq + 1, r) := by simpa using hp
      exact hr

theorem Keyed.trim (h : Keyed sha w) (feedId : ℕ) (keepN : ℤ) :
    Keyed sha (w.trimFeedTo feedId keepN) :=
  ⟨h.slugs, h.hashes.sublist (List.filter_sublist.map _),
    fun p hp => h.hashed p (List.mem_of_mem_filter hp)⟩

theorem Keyed.refreshEntry (h : Keyed sha w) (feedId : ℕ) (now : ℕ → ℤ) (n : ℕ) (p : FeedEntry × ℕ) :
    Keyed sha (refreshEntry sha feedId now (n, w) p).2 := by
  cases hfeed : w.feeds.get? feedId with
  | none =>
    -- the statement fails for a feed that is not there
    unfold News.refreshEntry World.insertNewsItem
    simp only [hfeed, Option.isNone_none, Bool.true_or, if_true]
    split <;> exact h
  | some f =>
    have hknown : (w.feeds.get? feedId).isSome = true := by rw [hfeed]; rfl
    rcases refreshEntry_cases sha now hknown n p with
      ⟨hstep, -⟩ | ⟨hstep, -, hfresh⟩
    · rw [hstep]
      exact h
    · rw [hstep]
      exact h.addItem hfresh rfl

theorem Keyed.step {w' : World} {a : Action} (h : Keyed sha w) (hs : step sha w a = some w') :
    Keyed sha w' := by
  cases a with
  | initialise cfg =>
    cases hs
    exact h.initialise cfg
  | entry feedId now p =>
    cases hs
    exact h.refreshEntry feedId now 0 p
  | trim feedId keepN =>
    cases hs
    exact h.trim feedId keepN

/-- A database that the service has filled. -/
def Filled (sha : Text → Text) (w : World) : Prop :=
  ∃ clock, Machine.Run (step sha) (fun _ _ => True) (World.start clock) w

theorem Filled.keyed (h : Filled sha w) : Keyed sha w := by
  obtain ⟨clock, hrun⟩ := h
  exact hrun.invariant (P := Keyed sha) (fun _ _ _ hw _ hs => hw.step hs) (keyed_start sha clock)

/-- For the rest of the process, the feeds and items have changed. -/
theorem step_outside {w' : World} {a : Action} (h : step sha w a = some w') :
    (Outside.news w'.feeds w'.newsItems).run w = some w' := by
  cases a with
  | initialise cfg =>
    cases h
    obtain ⟨feeds, hfeeds⟩ := setsFeeds_initialise cfg w
    rw [hfeeds]
    rfl
  | entry feedId now p =>
    cases h
    unfold refreshEntry World.insertNewsItem
    dsimp only
    split
    · rfl
    · split <;> rfl
  | trim feedId keepN =>
    cases h
    rfl

/-- A refresh is one step for each entry and one for the trimming. -/
theorem run_refreshOne (feedId : ℕ) (cfg : NewsConfig) (now : ℕ → ℤ) (entries : List FeedEntry) :
    Machine.Run (step sha) (fun _ _ => True) w (refreshOne sha feedId cfg now entries w).2 := by
  have hloop (ps : List (FeedEntry × ℕ)) : ∀ (n : ℕ) (w : World),
      Machine.Run (step sha) (fun _ _ => True) w
        (ps.foldl (refreshEntry sha feedId now) (n, w)).2 := by
    induction ps with
    | nil => exact fun _ _ => .refl
    | cons p ps ih =>
      intro n w
      have hworld : (refreshEntry sha feedId now (n, w) p).2 =
          (refreshEntry sha feedId now (0, w) p).2 := by
        unfold refreshEntry
        dsimp only
        split <;> rfl
      have hone : Machine.Run (step sha) (fun _ _ => True) w
          (refreshEntry sha feedId now (n, w) p).2 :=
        .tail (a := .entry feedId now p) .refl trivial (congrArg some hworld.symm)
      exact hone.trans (ih _ _)
  exact .tail (a := .trim feedId cfg.maxItemsPerFeed) (hloop _ 0 w) trivial rfl

/-! ## Duplicates -/

/-- The item has the title and the link, a missing link taken for an empty one. -/
def SameItem (r : NewsItemRow) (e : FeedEntry) : Prop :=
  r.title = e.strippedTitle ∧ r.url.getD [] = e.link.getD []

/-- An entry with a title is skipped when an item of its feed reads the same. -/
theorem skipped_iff_joined (hsha : Function.Injective sha) (hw : Keyed sha w) {feedId : ℕ}
    (hknown : (w.feeds.get? feedId).isSome = true) {e : FeedEntry} (htitle : e.strippedTitle ≠ [])
    (now : ℕ → ℤ) (n i : ℕ) :
    refreshEntry sha feedId now (n, w) (e, i) = (n, w) ↔
      ∃ p ∈ w.itemsOf feedId, joined p.2.title p.2.url = joined e.strippedTitle e.link := by
  have hstored : entryHash sha feedId e ∈ w.storedHashes ↔
      ∃ p ∈ w.itemsOf feedId, joined p.2.title p.2.url = joined e.strippedTitle e.link := by
    unfold World.storedHashes World.itemsOf
    rw [List.mem_toFinset, List.mem_map]
    constructor
    · rintro ⟨p, hp, hhash⟩
      rw [hw.hashed p hp] at hhash
      obtain ⟨hid, hsame⟩ := itemKey_eq_iff.mp (hsha hhash)
      exact ⟨p, List.mem_filter.mpr ⟨hp, by simpa using hid⟩, hsame⟩
    · rintro ⟨p, hp, hsame⟩
      obtain ⟨hp, hid⟩ := List.mem_filter.mp hp
      refine ⟨p, hp, ?_⟩
      rw [hw.hashed p hp]
      exact congrArg sha (itemKey_eq_iff.mpr ⟨by simpa using hid, hsame⟩)
  rw [← hstored]
  rcases refreshEntry_cases sha now hknown n (e, i) with
    ⟨hstep, hskip⟩ | ⟨hstep, -, hfresh⟩
  · exact iff_of_true hstep (hskip htitle)
  · refine iff_of_false (fun h => ?_) hfresh
    have hcount := congrArg Prod.fst (hstep.symm.trans h)
    exact absurd hcount (Nat.succ_ne_self n)

/-- Items of one feed that read the same have one hash, so they are one. -/
theorem Keyed.eq_of_joined (hw : Keyed sha w) {feedId : ℕ} {p q : ℕ × NewsItemRow}
    (hp : p ∈ w.itemsOf feedId) (hq : q ∈ w.itemsOf feedId)
    (h : joined p.2.title p.2.url = joined q.2.title q.2.url) : p = q := by
  obtain ⟨hp, hpid⟩ := List.mem_filter.mp hp
  obtain ⟨hq, hqid⟩ := List.mem_filter.mp hq
  have hhash : p.2.hash = q.2.hash := by
    rw [hw.hashed p hp, hw.hashed q hq, itemKey_eq_iff.mpr]
    exact ⟨(of_decide_eq_true hpid).trans (of_decide_eq_true hqid).symm, h⟩
  exact List.inj_on_of_nodup_map hw.hashes hp hq hhash

theorem entryHash_eq_iff (hsha : Function.Injective sha) {feedId feedId' : ℕ} {e e' : FeedEntry} :
    entryHash sha feedId e = entryHash sha feedId' e' ↔
      feedId = feedId' ∧ joined e.strippedTitle e.link = joined e'.strippedTitle e'.link := by
  unfold entryHash
  rw [hsha.eq_iff, itemKey_eq_iff]

/-- **Duplicates.**  An entry is skipped exactly for an item of its feed with its title and link
if no other item of the feed reads the same with the bar between them; and two entries are told
apart unless they are of one feed, differ, and read the same. -/
theorem entry_skipped_iff (hsha : Function.Injective sha) (hw : Filled sha w) (feedId : ℕ)
    (hknown : (w.feeds.get? feedId).isSome = true) (e : FeedEntry) (htitle : e.strippedTitle ≠ [])
    (now : ℕ → ℤ) (n i : ℕ) :
    ((refreshEntry sha feedId now (n, w) (e, i) = (n, w) ↔ ∃ p ∈ w.itemsOf feedId, SameItem p.2 e) ↔
      ∀ p ∈ w.itemsOf feedId, joined p.2.title p.2.url = joined e.strippedTitle e.link →
        SameItem p.2 e) ∧
    ∀ (feedId' : ℕ) (e' : FeedEntry),
      ((entryHash sha feedId e = entryHash sha feedId' e' →
          feedId = feedId' ∧ e.strippedTitle = e'.strippedTitle ∧ e.link.getD [] = e'.link.getD []) ↔
        (feedId = feedId' → joined e.strippedTitle e.link = joined e'.strippedTitle e'.link →
          e.strippedTitle = e'.strippedTitle ∧ e.link.getD [] = e'.link.getD [])) := by
  have hkeyed := hw.keyed
  have hreads {r : NewsItemRow} (hr : SameItem r e) :
      joined r.title r.url = joined e.strippedTitle e.link := by
    rw [joined, joined, hr.1, hr.2]
  constructor
  · rw [skipped_iff_joined hsha hkeyed hknown htitle now n i]
    constructor
    · intro h p hp hsame
      obtain ⟨q, hq, hqe⟩ := h.mp ⟨p, hp, hsame⟩
      rw [hkeyed.eq_of_joined hp hq (hsame.trans (hreads hqe).symm)]
      exact hqe
    · intro h
      constructor
      · rintro ⟨p, hp, hsame⟩
        exact ⟨p, hp, h p hp hsame⟩
      · rintro ⟨p, hp, hpe⟩
        exact ⟨p, hp, hreads hpe⟩
  · intro feedId' e'
    rw [entryHash_eq_iff hsha]
    constructor
    · intro h hid hsame
      exact (h ⟨hid, hsame⟩).2
    · rintro h ⟨hid, hsame⟩
      exact ⟨hid, h hid hsame⟩

/-- A feed with one item whose link has a bar in it. -/
def barredItem : World :=
  (refreshEntry id 1 (fun _ => 5)
    (0, initialiseFeeds { feeds := [⟨lit "f", lit "u"⟩] } (World.start 0))
    ({ title := some (lit "a"), link := some (lit "b|c") }, 0)).2

theorem filled_barredItem : Filled id barredItem :=
  have hfeed : Machine.Run (step id) (fun _ _ => True) (World.start 0)
      (initialiseFeeds { feeds := [⟨lit "f", lit "u"⟩] } (World.start 0)) :=
    .tail (a := .initialise _) .refl trivial rfl
  ⟨0, .tail (a := .entry 1 (fun _ => 5) _) hfeed trivial rfl⟩

/-- An entry that reads the same as the item under another title is taken for it. -/
theorem entry_taken_for_another :
    let e : FeedEntry := { title := some (lit "a|b"), link := some (lit "c") }
    Filled id barredItem ∧ e.strippedTitle ≠ [] ∧
      refreshEntry id 1 (fun _ => 7) (0, barredItem) (e, 0) = (0, barredItem) ∧
      ¬ ∃ p ∈ barredItem.itemsOf 1, SameItem p.2 e := by
  intro e
  have hknown : (barredItem.feeds.get? 1).isSome = true := by decide +kernel
  have htitle : e.strippedTitle ≠ [] := by decide +kernel
  refine ⟨filled_barredItem, htitle, ?_, ?_⟩
  · rw [skipped_iff_joined Function.injective_id filled_barredItem.keyed hknown htitle]
    decide +kernel
  · unfold SameItem
    decide +kernel

/-- The title with its site after a bar is no trouble. -/
theorem entry_skipped_iff_site :
    let e : FeedEntry := { title := some (lit "a | Site"), link := some (lit "c") }
    Function.Injective (id : Text → Text) ∧ (barredItem.feeds.get? 1).isSome = true ∧
      e.strippedTitle ≠ [] ∧
      (refreshEntry id 1 (fun _ => 7) (0, barredItem) (e, 0) = (0, barredItem) ↔
        ∃ p ∈ barredItem.itemsOf 1, SameItem p.2 e) := by
  intro e
  have hsha : Function.Injective (id : Text → Text) := Function.injective_id
  have hknown : (barredItem.feeds.get? 1).isSome = true := by decide +kernel
  have htitle : e.strippedTitle ≠ [] := by decide +kernel
  refine ⟨hsha, hknown, htitle, ?_⟩
  apply (entry_skipped_iff hsha filled_barredItem 1 hknown e htitle (fun _ => 7) 0 0).1.mpr
  unfold SameItem
  decide +kernel

end News

end Bbs
