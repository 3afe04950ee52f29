import Mathlib.Data.Finset.Card
import MeshcoreBbs.Lib.Newest
import MeshcoreBbs.NewsFeeds
import MeshcoreBbs.NewsPages

/-!
# What a refresh keeps

`_refresh_one` appends rows for the entries whose hash is not stored (`refreshEntry_cases`,
`refreshEntries_added`) and then trims the feed to its newest rows.  A row that is trimmed
is forgotten: its entry counts as new once more in the next refresh, where it is trimmed
again unless it is given a later date (`refreshOne_again`).
-/

namespace Bbs

namespace World

variable {w : World} {feedId : ℕ} {keepN : ℤ}

/-! ## Trimming a feed -/

/-- Newest first. -/
abbrev NewerFirst (a b : ℕ × NewsItemRow) : Prop := b.2.ts ≤ a.2.ts

theorem newestIds_eq (hkeep : 0 ≤ keepN) :
    w.newestIds feedId keepN =
      (Newest.kept NewerFirst keepN.toNat (w.itemsOf feedId)).map Prod.fst := by
  unfold newestIds sqlLimit
  rw [if_neg (by omega)]
  rfl

theorem get?_trimFeedTo (i : ℕ) :
    (w.trimFeedTo feedId keepN).newsItems.get? i =
      (w.newsItems.get? i).filter fun r => r.feedId ≠ feedId || i ∈ w.newestIds feedId keepN :=
  RowTable.get?_filterRows _ _ i

theorem mem_itemsOf {i : ℕ} {r : NewsItemRow} :
    (i, r) ∈ w.itemsOf feedId ↔ w.newsItems.get? i = some r ∧ r.feedId = feedId := by
  unfold itemsOf
  rw [List.mem_filter, RowTable.mem_rows_iff]
  simp

/-- A row of the feed is spared when it is among the newest. -/
theorem mem_newestIds (hkeep : 0 ≤ keepN) {i : ℕ} {r : NewsItemRow}
    (hr : (i, r) ∈ w.itemsOf feedId) :
    i ∈ w.newestIds feedId keepN ↔
      (i, r) ∈ Newest.kept NewerFirst keepN.toNat (w.itemsOf feedId) := by
  rw [newestIds_eq hkeep, List.mem_map]
  constructor
  · rintro ⟨⟨j, s⟩, hs, rfl⟩
    have hrow := mem_itemsOf.mp (Newest.mem_of_mem_kept hs)
    rw [(mem_itemsOf.mp hr).1] at hrow
    cases hrow.1
    exact hs
  · intro hr
    exact ⟨(i, r), hr, rfl⟩

theorem itemsOf_trimFeedTo :
    (w.trimFeedTo feedId keepN).itemsOf feedId =
      (w.itemsOf feedId).filter fun p => p.1 ∈ w.newestIds feedId keepN := by
  show ((w.newsItems.rows.filter fun p => p.2.feedId ≠ feedId ||
    p.1 ∈ w.newestIds feedId keepN).filter fun p => p.2.feedId = feedId) = _
  unfold itemsOf
  rw [List.filter_filter, List.filter_filter]
  congr 1
  funext p
  by_cases hp : p.2.feedId = feedId <;> simp [hp]

/-- The rows that are left are those that were selected. -/
theorem itemsOf_trimFeedTo_perm (hkeep : 0 ≤ keepN) :
    ((w.trimFeedTo feedId keepN).itemsOf feedId).Perm
      (Newest.kept NewerFirst keepN.toNat (w.itemsOf feedId)) := by
  have hnodup : (w.itemsOf feedId).Nodup := (w.newsItems.nodup_filter _).of_map
  have hkept : (Newest.kept NewerFirst keepN.toNat (w.itemsOf feedId)).Nodup :=
    ((List.perm_insertionSort _ _).nodup_iff.mpr hnodup).sublist (List.take_sublist _ _)
  rw [itemsOf_trimFeedTo, List.perm_ext_iff_of_nodup (hnodup.filter _) hkept]
  rintro ⟨i, r⟩
  rw [List.mem_filter, decide_eq_true_iff]
  constructor
  · rintro ⟨hr, hi⟩
    exact (mem_newestIds hkeep hr).mp hi
  · intro hr
    have hmem := Newest.mem_of_mem_kept hr
    exact ⟨hmem, (mem_newestIds hkeep hmem).mpr hr⟩

theorem length_itemsOf_trimFeedTo (hkeep : 0 ≤ keepN) :
    ((w.trimFeedTo feedId keepN).itemsOf feedId).length =
      min keepN.toNat (w.itemsOf feedId).length := by
  rw [(itemsOf_trimFeedTo_perm hkeep).length_eq, Newest.length_kept]

/-- A row of the feed that is gone is no newer than one that is left. -/
theorem ts_le_of_trimmed (hkeep : 0 ≤ keepN) {i j : ℕ} {r s : NewsItemRow}
    (hr : (i, r) ∈ w.itemsOf feedId) (hgone : (w.trimFeedTo feedId keepN).newsItems.get? i = none)
    (hs : (j, s) ∈ (w.trimFeedTo feedId keepN).itemsOf feedId) : r.ts ≤ s.ts := by
  have hout : (i, r) ∉ Newest.kept NewerFirst keepN.toNat (w.itemsOf feedId) := by
    intro hin
    rw [get?_trimFeedTo, (mem_itemsOf.mp hr).1, Option.filter_eq_none_iff] at hgone
    have := hgone r rfl
    simp [(mem_newestIds hkeep hr).mpr hin] at this
  have hkept := (itemsOf_trimFeedTo_perm hkeep).mem_iff.mp hs
  have hrel : NewerFirst (j, s) (i, r) := Newest.rel_of_not_kept hkept hr hout
  exact hrel

/-- A row of another feed is left alone. -/
theorem get?_trimFeedTo_other {i : ℕ} {r : NewsItemRow} (hr : r.feedId ≠ feedId) :
    (w.trimFeedTo feedId keepN).newsItems.get? i = some r ↔ w.newsItems.get? i = some r := by
  rw [get?_trimFeedTo, Option.filter_eq_some_iff]
  simp [hr]

/-- A feed that is small enough is not trimmed. -/
theorem trimFeedTo_eq_self (hkeep : 0 ≤ keepN) (hlen : (w.itemsOf feedId).length ≤ keepN.toNat) :
    w.trimFeedTo feedId keepN = w := by
  have hitems : (w.trimFeedTo feedId keepN).newsItems = w.newsItems := by
    apply RowTable.ext_get?
    · intro i
      rw [get?_trimFeedTo]
      cases hr : w.newsItems.get? i with
      | none => rfl
      | some r =>
        by_cases hfeed : r.feedId = feedId
        · have hmem := mem_itemsOf.mpr ⟨hr, hfeed⟩
          have hkept := (Newest.kept_perm (r := NewerFirst) hlen).mem_iff.mpr hmem
          simp [Option.filter, (mem_newestIds hkeep hmem).mpr hkept]
        · simp [Option.filter, hfeed]
    · rfl
  show { w with newsItems := (w.trimFeedTo feedId keepN).newsItems } = w
  rw [hitems]

/-- The hashes that are taken. -/
def storedHashes (w : World) : Finset Text := (w.newsItems.rows.map fun p => p.2.hash).toFinset

/-- The database with one more item. -/
def addItem (w : World) (r : NewsItemRow) : World := { w with newsItems := w.newsItems.insert r }

theorem storedHashes_addItem (w : World) (r : NewsItemRow) :
    (w.addItem r).storedHashes = insert r.hash w.storedHashes := by
  unfold storedHashes
  show ((w.newsItems.rows ++ [(w.newsItems.seq + 1, r)]).map fun p => p.2.hash).toFinset = _
  rw [List.map_append, List.toFinset_append, Finset.union_comm]
  rfl

theorem hasHash_iff {h : Text} : w.hasHash h = true ↔ h ∈ w.storedHashes := by
  unfold hasHash storedHashes
  rw [List.any_eq_true, List.mem_toFinset, List.mem_map]
  simp

end World

namespace News

variable {sha : Text → Text} {feedId : ℕ} {now : ℕ → Int} {w : World}

/-! ## The entries of a response -/

/-- The row that an entry becomes, the `i`-th of its response. -/
def entryRow (sha : Text → Text) (feedId : ℕ) (now : ℕ → Int) (p : FeedEntry × ℕ) : NewsItemRow where
  feedId := feedId
  title := p.1.strippedTitle
  url := p.1.link
  ts := p.1.published (now p.2)
  hash := entryHash sha feedId p.1

/-- The entries that have a title. -/
def titled (ps : List (FeedEntry × ℕ)) : List (FeedEntry × ℕ) := ps.filter fun p => p.1.strippedTitle ≠ []

/-- The hashes of the entries that have a title. -/
def entryHashes (sha : Text → Text) (feedId : ℕ) (ps : List (FeedEntry × ℕ)) : Finset Text :=
  ((titled ps).map fun p => entryHash sha feedId p.1).toFinset

/-- An entry is passed over, or its row is appended. -/
theorem refreshEntry_cases (sha : Text → Text) (now : ℕ → Int)
    (hknown : (w.feeds.get? feedId).isSome = true) (n : ℕ) (p : FeedEntry × ℕ) :
    (refreshEntry sha feedId now (n, w) p = (n, w) ∧
      (p.1.strippedTitle ≠ [] → entryHash sha feedId p.1 ∈ w.storedHashes)) ∨
    (refreshEntry sha feedId now (n, w) p =
        (n + 1, w.addItem (entryRow sha feedId now p)) ∧
      p.1.strippedTitle ≠ [] ∧ entryHash sha feedId p.1 ∉ w.storedHashes) := by
  obtain ⟨e, i⟩ := p
  have hnone : (w.feeds.get? feedId).isNone = false := by
    rw [Option.isNone_eq_false_iff]
    exact hknown
  unfold refreshEntry World.insertNewsItem
  by_cases htitle : e.strippedTitle = []
  · left
    simp [htitle]
  · by_cases hstored : w.hasHash (entryHash sha feedId e) = true
    · left
      simp [htitle, hnone, hstored, ← World.hasHash_iff]
    · right
      have hnew : w.hasHash (entryHash sha feedId e) = false := by simpa using hstored
      simp [htitle, hnone, hnew, ← World.hasHash_iff, entryRow, World.addItem]

/-- The rows that a loop over entries appends. -/
structure Added (sha : Text → Text) (feedId : ℕ) (now : ℕ → Int) (ps : List (FeedEntry × ℕ))
    (w w' : World) (new : List (ℕ × NewsItemRow)) : Prop where
  world : w' = { w with newsItems := w'.newsItems }
  rows : w'.newsItems.rows = w.newsItems.rows ++ new
  entry : ∀ r ∈ new, ∃ p ∈ titled ps, r.2 = entryRow sha feedId now p ∧
    r.2.hash ∉ w.storedHashes

/-- **The loop over the entries** stores each hash once and counts those that it stores. -/
theorem refreshEntries_adds (sha : Text → Text) (now : ℕ → Int)
    (hknown : (w.feeds.get? feedId).isSome = true)
    (ps : List (FeedEntry × ℕ)) (n : ℕ) :
    (ps.foldl (refreshEntry sha feedId now) (n, w)).1 =
        n + (entryHashes sha feedId ps \ w.storedHashes).card ∧
    (ps.foldl (refreshEntry sha feedId now) (n, w)).2.storedHashes =
        w.storedHashes ∪ entryHashes sha feedId ps ∧
    ∃ new, Added sha feedId now ps w (ps.foldl (refreshEntry sha feedId now) (n, w)).2 new := by
  induction ps generalizing n w with
  | nil =>
    refine ⟨?_, ?_, [], rfl, (List.append_nil _).symm, ?_⟩
    · simp [entryHashes, titled]
    · simp [entryHashes, titled]
    · intro r hr
      cases hr
  | cons p ps ih =>
    rw [List.foldl_cons]
    rcases refreshEntry_cases sha now hknown n p with
      ⟨hstep, hstored⟩ | ⟨hstep, htitle, hfresh⟩
    · -- passed over: its hash, if it counts, is stored
      rw [hstep]
      obtain ⟨hcount, hhashes, new, hnew⟩ := ih hknown n
      have hsub : entryHashes sha feedId (p :: ps) ∪ w.storedHashes =
          entryHashes sha feedId ps ∪ w.storedHashes := by
        by_cases htitle : p.1.strippedTitle = []
        · simp [entryHashes, titled, htitle]
        · have := hstored htitle
          simp only [entryHashes, titled, List.filter_cons, htitle, ne_eq, not_false_eq_true,
            decide_true, if_true, List.map_cons, List.toFinset_cons, Finset.insert_union]
          exact Finset.insert_eq_of_mem (Finset.mem_union_right _ this)
      refine ⟨?_, ?_, new, hnew.world, hnew.rows, ?_⟩
      · rw [hcount, ← Finset.union_sdiff_right (s := entryHashes sha feedId (p :: ps)), hsub,
          Finset.union_sdiff_right]
      · rw [hhashes, Finset.union_comm, ← hsub, Finset.union_comm]
      · intro r hr
        obtain ⟨q, hq, hrow⟩ := hnew.entry r hr
        have hmem : q ∈ titled (p :: ps) := List.mem_filter.mpr
          ⟨List.mem_cons_of_mem p (List.mem_filter.mp hq).1, (List.mem_filter.mp hq).2⟩
        exact ⟨q, hmem, hrow⟩
    · rw [hstep]
      obtain ⟨hcount, hhashes, new, hnew⟩ :=
        @ih (w.addItem (entryRow sha feedId now p)) hknown (n + 1)
      have hcons : entryHashes sha feedId (p :: ps) =
          insert (entryHash sha feedId p.1) (entryHashes sha feedId ps) := by
        simp [entryHashes, titled, htitle]
      rw [World.storedHashes_addItem] at hcount hhashes
      have hrow : (entryRow sha feedId now p).hash = entryHash sha feedId p.1 := rfl
      rw [hrow] at hcount hhashes
      refine ⟨?_, ?_, (w.newsItems.seq + 1, entryRow sha feedId now p) :: new, hnew.world, ?_, ?_⟩
      · have hsplit : insert (entryHash sha feedId p.1) (entryHashes sha feedId ps) \ w.storedHashes =
            insert (entryHash sha feedId p.1) (entryHashes sha feedId ps \
              insert (entryHash sha feedId p.1) w.storedHashes) := by
          ext h
          simp only [Finset.mem_sdiff, Finset.mem_insert, not_or]
          by_cases hh : h = entryHash sha feedId p.1
          · subst hh
            simp [hfresh]
          · simp [hh]
        rw [hcount, hcons, hsplit, Finset.card_insert_of_notMem (by simp)]
        omega
      · rw [hhashes, hcons, Finset.insert_union, Finset.union_insert]
      · rw [hnew.rows]
        exact List.append_assoc _ _ _
      · intro r hr
        rcases List.mem_cons.mp hr with rfl | hr
        · exact ⟨p, List.mem_filter.mpr ⟨List.mem_cons_self, by simpa using htitle⟩, rfl, hfresh⟩
        · obtain ⟨q, hq, hrow, hfresh'⟩ := hnew.entry r hr
          rw [World.storedHashes_addItem, Finset.mem_insert, not_or] at hfresh'
          have hmem : q ∈ titled (p :: ps) := List.mem_filter.mpr
            ⟨List.mem_cons_of_mem p (List.mem_filter.mp hq).1, (List.mem_filter.mp hq).2⟩
          exact ⟨q, hmem, hrow, hfresh'.2⟩

/-- Entries that are stored are all passed over. -/
theorem refreshEntries_stored (hknown : (w.feeds.get? feedId).isSome = true)
    {ps : List (FeedEntry × ℕ)} (n : ℕ)
    (hstored : ∀ p ∈ titled ps, entryHash sha feedId p.1 ∈ w.storedHashes) :
    ps.foldl (refreshEntry sha feedId now) (n, w) = (n, w) := by
  induction ps with
  | nil => rfl
  | cons p ps ih =>
    have hrest : ∀ q ∈ titled ps, entryHash sha feedId q.1 ∈ w.storedHashes := by
      intro q hq
      apply hstored q
      exact List.mem_filter.mpr ⟨List.mem_cons_of_mem p (List.mem_filter.mp hq).1,
        (List.mem_filter.mp hq).2⟩
    rw [List.foldl_cons]
    rcases refreshEntry_cases sha now hknown n p with
      ⟨hstep, -⟩ | ⟨-, htitle, hfresh⟩
    · rw [hstep]
      exact ih hrest
    · have hp : p ∈ titled (p :: ps) :=
        List.mem_filter.mpr ⟨List.mem_cons_self, by simpa using htitle⟩
      exact absurd (hstored p hp) hfresh

/-! ## A refresh, and the same one again -/

/-- The entries of a response that are looked at, with their places. -/
def response (cfg : NewsConfig) (entries : List FeedEntry) : List (FeedEntry × ℕ) :=
  (sliceTo cfg.maxItemsPerFeed entries).zipIdx

theorem refreshOne_eq (cfg : NewsConfig) (entries : List FeedEntry) :
    refreshOne sha feedId cfg now entries w =
      (((response cfg entries).foldl (refreshEntry sha feedId now) (0, w)).1,
        ((response cfg entries).foldl (refreshEntry sha feedId now) (0, w)).2.trimFeedTo feedId
          cfg.maxItemsPerFeed) := rfl

namespace Added

variable {ps : List (FeedEntry × ℕ)} {w' : World} {new : List (ℕ × NewsItemRow)}

theorem feedId_eq (h : Added sha feedId now ps w w' new) : ∀ r ∈ new, r.2.feedId = feedId := by
  intro r hr
  obtain ⟨p, -, hrow, -⟩ := h.entry r hr
  rw [hrow]
  rfl

theorem itemsOf (h : Added sha feedId now ps w w' new) :
    w'.itemsOf feedId = w.itemsOf feedId ++ new := by
  unfold World.itemsOf
  rw [h.rows, List.filter_append]
  congr 1
  rw [List.filter_eq_self]
  intro r hr
  simpa using h.feedId_eq r hr

theorem feeds (h : Added sha feedId now ps w w' new) : w'.feeds = w.feeds := by
  rw [h.world]

theorem get?_other (h : Added sha feedId now ps w w' new) {i : ℕ} {r : NewsItemRow}
    (hr : r.feedId ≠ feedId) : w'.newsItems.get? i = some r ↔ w.newsItems.get? i = some r := by
  rw [← RowTable.mem_rows_iff, ← RowTable.mem_rows_iff, h.rows, List.mem_append]
  constructor
  · rintro (hold | hnew)
    · exact hold
    · exact absurd (h.feedId_eq _ hnew) hr
  · exact Or.inl

end Added

/-- Rows that are no newer than a full feed are trimmed again. -/
theorem rows_trim_of_added {keepN : ℤ} (hkeep : 0 ≤ keepN) {ps : List (FeedEntry × ℕ)} {w' : World}
    {new : List (ℕ × NewsItemRow)} (h : Added sha feedId now ps w w' new)
    (hfull : (w.itemsOf feedId).length = keepN.toNat)
    (hold : ∀ a ∈ w.itemsOf feedId, ∀ b ∈ new, b.2.ts ≤ a.2.ts) :
    (w'.trimFeedTo feedId keepN).newsItems.rows = w.newsItems.rows := by
  have hids : (w'.newestIds feedId keepN).Perm ((w.itemsOf feedId).map Prod.fst) := by
    rw [World.newestIds_eq hkeep, h.itemsOf, Newest.kept_append (r := World.NewerFirst) hfull hold]
    exact (List.perm_insertionSort _ _).map Prod.fst
  show w'.newsItems.rows.filter (fun p => p.2.feedId ≠ feedId || p.1 ∈ w'.newestIds feedId keepN) =
    w.newsItems.rows
  rw [h.rows, List.filter_append]
  have hrows : w.newsItems.rows.filter
      (fun p => p.2.feedId ≠ feedId || p.1 ∈ w'.newestIds feedId keepN) = w.newsItems.rows := by
    rw [List.filter_eq_self]
    rintro ⟨i, r⟩ hr
    by_cases hfeed : r.feedId = feedId
    · have hmem : (i, r) ∈ w.itemsOf feedId :=
        World.mem_itemsOf.mpr ⟨(w.newsItems.mem_rows_iff i r).mp hr, hfeed⟩
      have hi := hids.mem_iff.mpr (List.mem_map_of_mem (f := Prod.fst) hmem)
      simp [hi]
    · simp [hfeed]
  have hgone : new.filter (fun p => p.2.feedId ≠ feedId || p.1 ∈ w'.newestIds feedId keepN) = [] := by
    rw [List.filter_eq_nil_iff]
    rintro ⟨i, r⟩ hr hspared
    have hfeed : r.feedId = feedId := h.feedId_eq _ hr
    have hi : i ∈ w'.newestIds feedId keepN := by simpa [hfeed] using hspared
    obtain ⟨⟨j, s⟩, hs, rfl⟩ := List.mem_map.mp (hids.mem_iff.mp hi)
    -- the ids of old and new rows differ
    have hinc := w'.newsItems.increasing
    rw [h.rows, List.map_append, List.pairwise_append] at hinc
    have hlt := hinc.2.2 j (List.mem_map_of_mem (f := Prod.fst) (List.mem_of_mem_filter hs)) j
      (List.mem_map_of_mem (f := Prod.fst) hr)
    exact Nat.lt_irrefl _ hlt
  rw [hrows, hgone, List.append_nil]

/-- A hash that the entries of a response stored and that is gone was trimmed, so the feed is full. -/
theorem full_of_forgotten {keepN : ℤ} (hkeep : 0 ≤ keepN) {h : Text} (hw : h ∈ w.storedHashes)
    (hgone : h ∉ (w.trimFeedTo feedId keepN).storedHashes) :
    ((w.trimFeedTo feedId keepN).itemsOf feedId).length = keepN.toNat := by
  by_contra hlen
  rw [World.length_itemsOf_trimFeedTo hkeep] at hlen
  rw [World.trimFeedTo_eq_self hkeep (by omega)] at hgone
  exact hgone hw

/-- A row that a refresh appends is one of an entry that was not stored. -/
theorem Added.unstored {ps : List (FeedEntry × ℕ)} {w' : World} {new : List (ℕ × NewsItemRow)}
    (h : Added sha feedId now ps w w' new) : ∀ r ∈ new, ∃ p ∈ titled ps,
      r.2 = entryRow sha feedId now p ∧
        entryHash sha feedId p.1 ∈ entryHashes sha feedId ps \ w.storedHashes := by
  intro r hr
  obtain ⟨p, hp, hrow, hfresh⟩ := h.entry r hr
  refine ⟨p, hp, hrow, Finset.mem_sdiff.mpr ⟨?_, ?_⟩⟩
  · exact List.mem_toFinset.mpr (List.mem_map_of_mem hp)
  · rw [hrow] at hfresh
    exact hfresh

/-- A refresh whose entries are all stored changes nothing. -/
theorem refreshOne_stored {cfg : NewsConfig} (hkeep : 0 ≤ cfg.maxItemsPerFeed)
    (hknown : (w.feeds.get? feedId).isSome = true) {entries : List FeedEntry}
    (hlen : (w.itemsOf feedId).length ≤ cfg.maxItemsPerFeed.toNat)
    (hnone : entryHashes sha feedId (response cfg entries) \ w.storedHashes = ∅) :
    refreshOne sha feedId cfg now entries w = (0, w) := by
  have hstored : ∀ p ∈ titled (response cfg entries), entryHash sha feedId p.1 ∈ w.storedHashes := by
    intro p hp
    exact Finset.sdiff_eq_empty_iff_subset.mp hnone (List.mem_toFinset.mpr (List.mem_map_of_mem hp))
  rw [refreshOne_eq, refreshEntries_stored hknown 0 hstored, World.trimFeedTo_eq_self hkeep hlen]

/-- **A refresh** leaves the newest items of its feed and those of other feeds.  The same one
again counts as new the entries that were trimmed, so it counts none and changes nothing when
none was, and it leaves the same rows when they are not dated later than the items. -/
theorem refreshOne_again (sha : Text → Text) (cfg : NewsConfig) (hkeep : 1 ≤ cfg.maxItemsPerFeed)
    (w : World) (feedId : ℕ) (hknown : (w.feeds.get? feedId).isSome = true)
    (entries : List FeedEntry) (now now' : ℕ → Int) :
    let grown := (refreshEntries sha feedId now (sliceTo cfg.maxItemsPerFeed entries) w).2
    let after := (refreshOne sha feedId cfg now entries w).2
    let again := refreshOne sha feedId cfg now' entries after
    let forgotten := entryHashes sha feedId (response cfg entries) \ after.storedHashes
    ((after.itemsOf feedId).length : Int) ≤ cfg.maxItemsPerFeed ∧
    (∀ p ∈ w.itemsOf feedId, p ∈ grown.itemsOf feedId) ∧
    (∀ i r j s, (i, r) ∈ grown.itemsOf feedId → after.newsItems.get? i = none →
      (j, s) ∈ after.itemsOf feedId → r.ts ≤ s.ts) ∧
    (∀ i r, r.feedId ≠ feedId →
      (after.newsItems.get? i = some r ↔ w.newsItems.get? i = some r)) ∧
    again.1 = forgotten.card ∧
    (forgotten = ∅ → again = (0, after)) ∧
    ((∀ p ∈ titled (response cfg entries), entryHash sha feedId p.1 ∈ forgotten →
        ∀ r ∈ after.itemsOf feedId, p.1.published (now' p.2) ≤ r.2.ts) →
      again.2.newsItems.rows = after.newsItems.rows) := by
  intro grown after again forgotten
  have hkeep' : 0 ≤ cfg.maxItemsPerFeed := by omega
  obtain ⟨-, hhashes, new, hnew⟩ :=
    refreshEntries_adds sha now hknown (response cfg entries) 0
  have hknown' : (after.feeds.get? feedId).isSome = true := by
    have hfeeds : after.feeds = w.feeds := hnew.feeds
    rwa [hfeeds]
  obtain ⟨hcount, -, new', hnew'⟩ :=
    refreshEntries_adds sha now' hknown' (response cfg entries) 0
  have hlen : (after.itemsOf feedId).length ≤ cfg.maxItemsPerFeed.toNat := by
    have htrim : (after.itemsOf feedId).length = _ := World.length_itemsOf_trimFeedTo hkeep'
    omega
  have hsettled (hnone : forgotten = ∅) : again = (0, after) :=
    refreshOne_stored hkeep' hknown' hlen hnone
  refine ⟨?_, ?_, ?_, ?_, ?_, hsettled, ?_⟩
  · omega
  · intro p hp
    have hitems : grown.itemsOf feedId = _ := hnew.itemsOf
    rw [hitems]
    exact List.mem_append_left _ hp
  · intro i r j s hr hgone hs
    exact World.ts_le_of_trimmed hkeep' hr hgone hs
  · intro i r hr
    exact (World.get?_trimFeedTo_other hr).trans (hnew.get?_other hr)
  · rw [Nat.zero_add] at hcount
    exact hcount
  · intro hdates
    by_cases hnone : forgotten = ∅
    · rw [hsettled hnone]
    · obtain ⟨h, hh⟩ := Finset.nonempty_iff_ne_empty.mpr hnone
      obtain ⟨hentry, hgone⟩ := Finset.mem_sdiff.mp hh
      have hstored : h ∈ grown.storedHashes := by
        have hgrown : grown.storedHashes = _ := hhashes
        rw [hgrown]
        exact Finset.mem_union_right _ hentry
      apply rows_trim_of_added hkeep' hnew' (full_of_forgotten hkeep' hstored hgone)
      intro a ha b hb
      obtain ⟨p, hp, hrow, hforgotten⟩ := hnew'.unstored b hb
      rw [hrow]
      exact hdates p hp hforgotten a ha

/-- One item at most.  `a` is dated before the item that is stored: it is new each time. -/
theorem refreshOne_again_one :
    let cfg : NewsConfig := { maxItemsPerFeed := 1 }
    let w : World := { World.start 0 with feeds := RowTable.empty.insert ⟨lit "f", lit "u", true⟩ }
    let stored := (refreshOne id 1 cfg (fun _ => 0)
      [{ title := some (lit "b"), publishedParsed := some ⟨some 100⟩ }] w).2
    let after := (refreshOne id 1 cfg (fun _ => 0)
      [{ title := some (lit "a"), publishedParsed := some ⟨some 50⟩ }] stored).2
    let again := refreshOne id 1 cfg (fun _ => 0)
      [{ title := some (lit "a"), publishedParsed := some ⟨some 50⟩ }] after
    1 ≤ cfg.maxItemsPerFeed ∧ (stored.feeds.get? 1).isSome = true ∧
      again.1 = 1 ∧ again.2.newsItems.rows = after.newsItems.rows := by
  intro cfg w stored after again
  have hkeep : 1 ≤ cfg.maxItemsPerFeed := by decide
  have hknown : (stored.feeds.get? 1).isSome = true := by decide +kernel
  refine ⟨hkeep, hknown, by decide +kernel, ?_⟩
  apply (refreshOne_again id cfg hkeep stored 1 hknown _ (fun _ => 0) fun _ => 0).2.2.2.2.2.2
  decide +kernel

/-- A trimmed entry is counted as new by the same refresh again; without a date it may even take
the place of an item that was dated ahead of the clock. -/
theorem refreshOne_not_idempotent :
    let cfg : NewsConfig := { maxItemsPerFeed := 1 }
    let w : World := { World.start 0 with feeds := RowTable.empty.insert ⟨lit "f", lit "u", true⟩ }
    let stored := (refreshOne id 1 cfg (fun _ => 0)
      [{ title := some (lit "b"), publishedParsed := some ⟨some 100⟩ }] w).2
    let response : List FeedEntry := [{ title := some (lit "a") }]
    let after := (refreshOne id 1 cfg (fun _ => 50) response stored).2
    let again := refreshOne id 1 cfg (fun _ => 200) response after
    (after.itemsOf 1).map (fun p => (p.2.title, p.2.url)) = [(lit "b", none)] ∧
      again.1 = 1 ∧ (again.2.itemsOf 1).map (fun p => (p.2.title, p.2.url)) = [(lit "a", none)] := by
  decide +kernel

end News

end Bbs
