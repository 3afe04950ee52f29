import MeshcoreBbs.PacketBounds

/-!
# Putting the packets together again

The payloads of `split_packets` come in blocks: the pieces of a line that does not fit, which
follow each other without a break, or one payload of whole lines.  A newline between the blocks
gives the text back (`splitPackets_reassemble`).
-/

namespace Bbs.Format

open GreedyCut

/-- Nothing between the payloads of a block, and a newline between two blocks. -/
def reassemble (blocks : List (List Text)) : Text := joinLines (blocks.map List.flatten)

/-- The payloads with their prefixes, which a single packet does not have. -/
def numbered (n : Nat) (payloads : List Text) : List Text :=
  payloads.zipIdx.map fun p => header (p.2 + 1) n ++ p.1

/-- Groups of lines, joined one by one and then together. -/
theorem joinLines_flatten (groups : List (List Text)) (h : ∀ g ∈ groups, g ≠ []) :
    joinLines (groups.map joinLines) = joinLines groups.flatten := by
  induction groups with
  | nil => rfl
  | cons g groups ih =>
    have hg : g ≠ [] := h g List.mem_cons_self
    have htail : ∀ g' ∈ groups, g' ≠ [] := fun g' hg' => h g' (List.mem_cons_of_mem g hg')
    rw [List.map_cons, List.flatten_cons]
    by_cases hnil : groups = []
    · subst hnil
      rw [List.map_nil, joinLines_singleton, List.flatten_nil, List.append_nil]
    · have hflat : groups.flatten ≠ [] := by
        obtain ⟨g', hg'⟩ := List.exists_mem_of_ne_nil groups hnil
        intro hempty
        exact htail g' hg' (List.flatten_eq_nil_iff.mp hempty g' hg')
      have hmap : groups.map joinLines ≠ [] := fun hempty => hnil (List.map_eq_nil_iff.mp hempty)
      rw [joinLines_cons _ _ hmap, ih htail, joinLines_append g _ hg hflat]

/-- Payloads in blocks: one payload, or the pieces of a line longer than the budget. -/
def Whole (b : Nat) (ls : List Text) (block : List Text) : Prop :=
  block ≠ [] ∧ (2 ≤ block.length → block.flatten ∈ ls ∧ b < utf8Len block.flatten ∧ ∀ p ∈ block, p ≠ [])

theorem Whole.of_cons {b : Nat} {l : Text} {ls block : List Text} (h : Whole b ls block) :
    Whole b (l :: ls) block := by
  refine ⟨h.1, fun hlen => ?_⟩
  obtain ⟨hmem, hlong, hne⟩ := h.2 hlen
  exact ⟨List.mem_cons_of_mem l hmem, hlong, hne⟩

/-- **A packing carries its lines**, none of those that fit in more than one payload. -/
theorem Packing.blocks {b : Nat} {ls : List Text} {qs : List Payload} (h : Packing b ls qs) :
    ∃ blocks : List (List Text), blocks.flatten = qs.map Payload.text ∧
      reassemble blocks = joinLines ls ∧ (blocks = [] ↔ ls = []) ∧
      ∀ block ∈ blocks, Whole b ls block := by
  induction h with
  | @wrap l ls pieces qs hl hcut _ ih =>
    obtain ⟨blocks, hflat, hjoin, hnil, hwhole⟩ := ih
    have hne : pieces ≠ [] := by
      intro hempty
      have hzero := hcut.length_pos (ne_nil_of_long hl)
      rw [hempty] at hzero
      exact absurd hzero (lt_irrefl 0)
    refine ⟨pieces :: blocks, ?_, ?_, ?_, ?_⟩
    · rw [List.flatten_cons, hflat, List.map_append, List.map_map]
      congr 1
      exact (List.map_id pieces).symm
    · unfold reassemble at hjoin ⊢
      rw [List.map_cons, hcut.flatten]
      by_cases hlast : ls = []
      · rw [hnil.mpr hlast, hlast]
        rfl
      · have hblocks : blocks.map List.flatten ≠ [] := by
          intro hempty
          exact hlast (hnil.mp (List.map_eq_nil_iff.mp hempty))
        rw [joinLines_cons _ _ hblocks, joinLines_cons _ _ hlast, hjoin]
    · constructor
      · intro h
        cases h
      · intro h
        cases h
    · intro block hblock
      rcases List.mem_cons.mp hblock with rfl | hblock
      · refine ⟨hne, fun _ => ?_⟩
        rw [hcut.flatten]
        exact ⟨List.mem_cons_self, of_decide_eq_true hl, hcut.ne_nil⟩
      · exact (hwhole block hblock).of_cons
  | @whole ls groups _ hcut =>
    refine ⟨groups.map fun g => [joinLines g], ?_, ?_, ?_, ?_⟩
    · rw [List.map_map, ← List.flatMap_def]
      exact List.map_eq_flatMap.symm
    · unfold reassemble
      rw [List.map_map]
      have hsingle : (List.flatten ∘ fun g : List Text => [joinLines g]) = joinLines := by
        funext g
        exact List.flatten_singleton
      rw [hsingle, joinLines_flatten groups hcut.ne_nil, hcut.flatten]
    · rw [List.map_eq_nil_iff, ← hcut.flatten]
      constructor
      · intro h
        rw [h]
        rfl
      · intro h
        by_contra hne
        obtain ⟨g, hg⟩ := List.exists_mem_of_ne_nil groups hne
        exact hcut.ne_nil g hg (List.flatten_eq_nil_iff.mp h g hg)
    · intro block hblock
      obtain ⟨g, _, rfl⟩ := List.mem_map.mp hblock
      refine ⟨List.cons_ne_nil _ _, fun hlen => ?_⟩
      rw [List.length_singleton] at hlen
      omega

/-- **The text is put together again from the payloads**, and a line that fits is never broken. -/
theorem splitPackets_reassemble (text : Text) (pb : Nat) (hfl : ¬ takesFloor text pb) :
    ∃ blocks : List (List Text),
      (splitPackets text pb = blocks.flatten ∧ blocks.flatten.length = 1 ∨
        splitPackets text pb = numbered (firstCount text pb) blocks.flatten ∧
          1 < blocks.flatten.length) ∧
      reassemble blocks = rstripNewlines text ∧
      ∀ block ∈ blocks, Whole (payloadBudget text pb) (bodyLines text) block := by
  by_cases hbig : pb < utf8Len (rstripNewlines text)
  · obtain ⟨heq, hb, _⟩ := splitPackets_eq text pb hfl hbig
    have hfour : 4 ≤ payloadBudget text pb := by omega
    obtain ⟨blocks, hflat, hjoin, _, hwhole⟩ := (layout_packing hfour (bodyLines text)).blocks
    refine ⟨blocks, .inr ⟨?_, ?_⟩, ?_, hwhole⟩
    · rw [heq, packLines_eq, hflat]
      rfl
    · rw [hflat, List.length_map]
      have hone : (layout (payloadBudget text pb) (bodyLines text)).length ≠ 1 := by
        intro hlen
        have hfits := layout_length_one hlen
        rw [bodyLines, weight_splitLines] at hfits
        omega
      have hpos : 0 < (packLines (rstripNewlines text) (payloadBudget text pb)).length :=
        List.length_pos_of_ne_nil (packLines_ne_nil hfour _)
      rw [packLines_length] at hpos
      unfold bodyLines at hone ⊢
      omega
    · rw [hjoin]
      exact joinLines_splitLines _
  · have hone : splitPackets text pb = [rstripNewlines text] := by
      simp only [splitPackets, if_pos (Nat.le_of_not_lt hbig)]
      split
      · next hempty => rw [List.isEmpty_iff.mp hempty]
      · rfl
    refine ⟨[[rstripNewlines text]], .inl ⟨?_, rfl⟩, ?_, ?_⟩
    · rw [hone]
      rfl
    · unfold reassemble
      rw [List.map_singleton, joinLines_singleton, List.flatten_singleton]
    · intro block hblock
      rw [List.mem_singleton.mp hblock]
      refine ⟨List.cons_ne_nil _ _, fun hlen => ?_⟩
      rw [List.length_singleton] at hlen
      omega

/-- A line of twenty letters in two pieces, and then two lines in one payload. -/
theorem splitPackets_reassemble_three :
    splitPackets (List.replicate 20 'x' ++ lit "\nab\ncd\n") 22 =
      [lit "(1/2) xxxxxxxxxxxxxxxx", lit "(2/2) xxxx", lit "(3/2) ab\ncd"] ∧
    ∃ blocks : List (List Text),
      reassemble blocks = List.replicate 20 'x' ++ lit "\nab\ncd" ∧
      ∀ block ∈ blocks, Whole 16 [List.replicate 20 'x', lit "ab", lit "cd"] block := by
  refine ⟨by decide +kernel, ?_⟩
  obtain ⟨blocks, _, hjoin, hwhole⟩ := splitPackets_reassemble
    (List.replicate 20 'x' ++ lit "\nab\ncd\n") 22 (by decide +kernel)
  have hstrip : rstripNewlines (List.replicate 20 'x' ++ lit "\nab\ncd\n") =
      List.replicate 20 'x' ++ lit "\nab\ncd" := by decide +kernel
  have hbudget : payloadBudget (List.replicate 20 'x' ++ lit "\nab\ncd\n") 22 = 16 := by
    decide +kernel
  have hlines : bodyLines (List.replicate 20 'x' ++ lit "\nab\ncd\n") =
      [List.replicate 20 'x', lit "ab", lit "cd"] := by decide +kernel
  rw [hbudget, hlines] at hwhole
  exact ⟨blocks, hjoin.trans hstrip, hwhole⟩

end Bbs.Format
