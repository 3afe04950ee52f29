import MeshcoreBbs.Packing

/-!
# How many packets

The greedy loops of `format.py` against every other way to cut the same text:

    every line fits → no grouping of the lines has fewer groups than `packLines`
    4 ≤ b' ≤ b      → (packLines text b).length ≤ (packLines text b').length
    4 ≤ b           → no wrapping of a line has fewer pieces than `hardWrap`

A `Grouping` or a `Wrapping` is any cut within the budget, greedy or not; a group
may even be empty.  The second line is what the comment in `split_packets` relies on.
-/

namespace Bbs.Format

open GreedyCut

/-- A cut of the lines of a text into consecutive groups that fit into packets. -/
structure Grouping (text : Text) (budget : Nat) (groups : List (List Text)) : Prop where
  flatten : groups.flatten = splitLines text
  fits : ∀ g ∈ groups, utf8Len (joinLines g) ≤ budget

/-- A cut of a line, between characters, into pieces that fit into packets. -/
structure Wrapping (line : Text) (budget : Nat) (pieces : List Text) : Prop where
  flatten : pieces.flatten = line
  ne_nil : ∀ p ∈ pieces, p ≠ []
  fits : ∀ p ∈ pieces, utf8Len p ≤ budget

/-! ## Lines in groups -/

/-- Without its empty groups a grouping is a cut. -/
theorem Grouping.isCut {text : Text} {budget : Nat} {groups : List (List Text)}
    (h : Grouping text budget groups) :
    IsCut utf8Len 1 budget (splitLines text) (groups.filter (!·.isEmpty)) := by
  refine ⟨?_, ?_, ?_⟩
  · rw [List.flatten_filter_not_isEmpty]
    exact h.flatten
  · intro g hg
    simpa using (List.mem_filter.mp hg).2
  · intro g hg
    have hfit := h.fits g (List.mem_filter.mp hg).1
    rw [utf8Len_joinLines] at hfit
    exact Or.inl hfit

theorem grouping_greedy {text : Text} {budget : Nat}
    (hfit : ∀ l ∈ splitLines text, utf8Len l ≤ budget) :
    Grouping text budget (greedy utf8Len 1 budget (splitLines text)) := by
  have hcut := greedy_isCut (w := utf8Len) (g := 1) (b := budget) (splitLines text)
  refine ⟨hcut.flatten, ?_⟩
  intro g hg
  rw [utf8Len_joinLines]
  rcases hcut.fits g hg with h | ⟨l, rfl⟩
  · exact h
  · -- a line on its own is one that fits
    rw [weight_singleton]
    apply hfit
    rw [← hcut.flatten]
    exact List.mem_flatten.mpr ⟨[l], hg, List.mem_singleton.mpr rfl⟩

/-- Lines that all fit are never wrapped. -/
theorem packLines_of_fit {text : Text} {budget : Nat}
    (hfit : ∀ l ∈ splitLines text, utf8Len l ≤ budget) :
    packLines text budget = (greedy utf8Len 1 budget (splitLines text)).map joinLines := by
  have hhead : ∀ l ∈ (splitLines text).head?, long budget l = false := by
    intro l hl
    have := hfit l (List.mem_of_mem_head? hl)
    simp only [long, decide_eq_false_iff_not]
    omega
  rw [packLines_eq, layout_fit hhead]
  simp [Function.comp_def, Payload.text]

/-- **No grouping of the lines makes fewer packets.** -/
theorem packLines_fewest (text : Text) (budget : Nat)
    (hfit : ∀ l ∈ splitLines text, utf8Len l ≤ budget) :
    (∃ groups, Grouping text budget groups ∧ packLines text budget = groups.map joinLines) ∧
      ∀ groups, Grouping text budget groups → (packLines text budget).length ≤ groups.length := by
  constructor
  · exact ⟨_, grouping_greedy hfit, packLines_of_fit hfit⟩
  · intro groups h
    rw [packLines_of_fit hfit, List.length_map]
    have hle := greedy_length_le h.isCut
    have := List.length_filter_le (!·.isEmpty) groups
    omega

theorem packLines_fewest_three :
    (∀ l ∈ splitLines (lit "a\nbb\n\nccc"), utf8Len l ≤ 4) ∧
      (packLines (lit "a\nbb\n\nccc") 4 = [lit "a\nbb", lit "\nccc"]) ∧
      ∀ groups, Grouping (lit "a\nbb\n\nccc") 4 groups →
        (packLines (lit "a\nbb\n\nccc") 4).length ≤ groups.length :=
  have h : ∀ l ∈ splitLines (lit "a\nbb\n\nccc"), utf8Len l ≤ 4 := by decide +kernel
  ⟨h, by decide +kernel, (packLines_fewest _ 4 h).2⟩

/-! ## A tighter budget -/

/-- **A tighter budget never makes fewer packets**: what it packs, the wider one can
pack too, and the packer uses the least number. -/
theorem packLines_length_anti (text : Text) (b' b : Nat) (hb' : 4 ≤ b') (hle : b' ≤ b) :
    (packLines text b).length ≤ (packLines text b').length := by
  rw [packLines_length, packLines_length]
  have htight := (layout_isLeast hb' (splitLines text)).1
  obtain ⟨k, hk, hwide⟩ := Packable.mono hle htight
  have hleast := (layout_isLeast (by omega : 4 ≤ b) (splitLines text)).2 hwide
  omega

theorem packLines_length_anti_four :
    4 ≤ 4 ∧ 4 ≤ 9 ∧ (packLines (lit "long line\nb\nlong") 9).length ≤
      (packLines (lit "long line\nb\nlong") 4).length :=
  ⟨by decide, by decide, packLines_length_anti _ 4 9 (by decide) (by decide)⟩

/-! ## One line in pieces -/

theorem Wrapping.isCut {line : Text} {budget : Nat} {pieces : List Text}
    (h : Wrapping line budget pieces) : IsCut Char.utf8Size 0 budget line pieces := by
  refine ⟨h.flatten, h.ne_nil, ?_⟩
  intro p hp
  rw [← utf8Len_eq_weight]
  exact Or.inl (h.fits p hp)

theorem wrapping_hardWrap (line : Text) (budget : Nat) (hb : 4 ≤ budget) :
    Wrapping line budget (hardWrap line budget) := by
  have hcut := greedy_isCut (w := Char.utf8Size) (g := 0) (b := budget) line
  rw [hardWrap_eq line budget hb]
  refine ⟨hcut.flatten, hcut.ne_nil, ?_⟩
  intro p hp
  rcases hcut.fits p hp with h | ⟨c, rfl⟩
  · rwa [utf8Len_eq_weight]
  · -- a character on its own has at most four bytes
    have := c.utf8Size_le_four
    simp only [utf8Len_cons, utf8Len_nil]
    omega

/-- **A hard-wrapped line** loses nothing and takes the least number of pieces. -/
theorem hardWrap_fewest (line : Text) (budget : Nat) (hb : 4 ≤ budget) :
    Wrapping line budget (hardWrap line budget) ∧
      ∀ pieces, Wrapping line budget pieces → (hardWrap line budget).length ≤ pieces.length := by
  constructor
  · exact wrapping_hardWrap line budget hb
  · intro pieces h
    rw [hardWrap_eq line budget hb]
    exact greedy_length_le h.isCut

theorem hardWrap_fewest_five :
    4 ≤ 5 ∧ hardWrap (lit "é日本x") 5 = [lit "é日", lit "本x"] ∧
      Wrapping (lit "é日本x") 5 (hardWrap (lit "é日本x") 5) :=
  ⟨by decide, by decide +kernel, (hardWrap_fewest _ 5 (by decide)).1⟩

end Bbs.Format
