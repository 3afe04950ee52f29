import MeshcoreBbs.Format

/-!
# Packets that can carry a text

`Packing b ls qs` says that the payloads `qs` carry the lines `ls` under the rules
of `_pack_lines`, filled greedily or not.  The packer's own `layout` is one of
them, with the least possible number of payloads (`layout_isLeast`), and where it
ends a packet it had to: any packing that carries as much in as many payloads
ends in one at least as large (`layout_beginning`).
-/

namespace Bbs.Format

open GreedyCut

/-- `qs` carry the lines in payloads of at most `b` bytes: the long lines at the start
cut between characters, the others whole, a long one among them on its own. -/
inductive Packing (b : Nat) : List Text → List Payload → Prop
  | wrap {l ls pieces qs} : long b l = true → IsCut Char.utf8Size 0 b l pieces →
      Packing b ls qs → Packing b (l :: ls) (pieces.map .piece ++ qs)
  | whole {ls groups} : (∀ l ∈ ls.head?, long b l = false) → IsCut utf8Len 1 b ls groups →
      Packing b ls (groups.map .lines)

/-- `k` payloads of at most `b` bytes can carry the lines. -/
def Packable (b : Nat) (ls : List Text) (k : Nat) : Prop :=
  ∃ qs, Packing b ls qs ∧ qs.length = k

/-- A beginning of the lines: whole lines, or a part of the long lines at the start. -/
inductive Beginning (b : Nat) : List Text → List Text → Prop
  | wrap {l ls p} : long b l = true → Beginning b ls p → Beginning b (l :: ls) (l :: p)
  | cut {l u} (ls) : long b l = true → u <+: l → u ≠ [] → Beginning b (l :: ls) [u]
  | whole {ls p} : (∀ l ∈ ls.head?, long b l = false) → p <+: ls → p ≠ [] → Beginning b ls p

theorem ne_nil_of_long {b : Nat} {l : Text} (h : long b l = true) : l ≠ [] := by
  rintro rfl
  simp [long] at h

/-- The first line of a beginning is that of the text. -/
theorem fit_of_beginning {b : Nat} {p ls : List Text} (hp : p <+: ls) (hne : p ≠ [])
    (hfit : ∀ l ∈ ls.head?, long b l = false) : ∀ l ∈ p.head?, long b l = false := by
  obtain ⟨r, rfl⟩ := hp
  intro l hl
  exact hfit l (by rw [List.head?_append_of_ne_nil _ hne]; exact hl)

/-- The last element of a mapped list is mapped from the last one. -/
theorem eq_concat_of_map {α β : Type} {f : α → β} {l : List α} {qs : List β} {q : β}
    (h : qs ++ [q] = l.map f) : ∃ init s, l = init ++ [s] ∧ qs = init.map f ∧ q = f s := by
  obtain ⟨init, last, rfl, rfl, hlast⟩ := List.map_eq_append_iff.mp h.symm
  obtain ⟨s, rfl, rfl⟩ := List.map_eq_singleton_iff.mp hlast
  exact ⟨init, s, rfl, rfl, rfl⟩

theorem take_succ_of_get {α : Type} {g : List α} {i : Nat} {s : α} (h : g[i]? = some s) :
    g.take (i + 1) = g.take i ++ [s] ∧ (g.take i).length = i := by
  obtain ⟨hi, rfl⟩ := List.getElem?_eq_some_iff.mp h
  refine ⟨(List.take_append_getElem hi).symm, ?_⟩
  rw [List.length_take]
  omega

/-! ## The packer uses the least number of payloads -/

theorem layout_packing {b : Nat} (hb : 4 ≤ b) (ls : List Text) : Packing b ls (layout b ls) := by
  induction ls with
  | nil => exact @Packing.whole b [] [] (by simp) (greedy_isCut [])
  | cons l ls ih =>
    cases hl : long b l with
    | true =>
      rw [layout_cons_long hl, hardWrap_eq l b hb]
      exact .wrap hl (greedy_isCut l) ih
    | false =>
      have hfit : ∀ a ∈ (l :: ls).head?, long b a = false := by simpa using hl
      rw [layout_fit hfit]
      exact .whole hfit (greedy_isCut _)

theorem layout_length_le {b : Nat} (hb : 4 ≤ b) {ls : List Text} {qs : List Payload}
    (h : Packing b ls qs) : (layout b ls).length ≤ qs.length := by
  induction h with
  | wrap hl hcut _ ih =>
    have := greedy_length_le hcut
    rw [layout_cons_long hl, hardWrap_eq _ b hb]
    simp only [List.length_append, List.length_map]
    omega
  | whole hfit hcut =>
    have := greedy_length_le hcut
    rw [layout_fit hfit]
    simpa only [List.length_map] using this

/-- **The packer uses the least possible number of packets.** -/
theorem layout_isLeast {b : Nat} (hb : 4 ≤ b) (ls : List Text) :
    IsLeast {k | Packable b ls k} (layout b ls).length := by
  refine ⟨⟨_, layout_packing hb ls, rfl⟩, ?_⟩
  rintro k ⟨qs, hqs, rfl⟩
  exact layout_length_le hb hqs

/-- With every long line on its own, the lines need no more payloads. -/
theorem Packing.lines {b : Nat} {ls : List Text} {qs : List Payload} (h : Packing b ls qs) :
    ∃ groups, IsCut utf8Len 1 b ls groups ∧ groups.length ≤ qs.length := by
  induction h with
  | @wrap l ls pieces qs hl hcut _ ih =>
    obtain ⟨groups, hg, hlen⟩ := ih
    have := hcut.length_pos (ne_nil_of_long hl)
    refine ⟨[l] :: groups, (isCut_singletons [l]).append hg, ?_⟩
    simp only [List.length_cons, List.length_append, List.length_map]
    omega
  | @whole ls groups _ hcut => exact ⟨groups, hcut, by simp⟩

/-- A larger packet needs no more packets: lines that no longer have to be wrapped
travel alone. -/
theorem Packable.mono {b b' : Nat} (hb : b ≤ b') {ls : List Text} {k : Nat}
    (h : Packable b ls k) : ∃ k' ≤ k, Packable b' ls k' := by
  have hshort : ∀ l, long b l = false → long b' l = false := by
    intro l hl
    simp only [long, decide_eq_false_iff_not] at hl ⊢
    omega
  obtain ⟨qs, hqs, rfl⟩ := h
  induction hqs with
  | @wrap l ls pieces qs hl hcut hqs ih =>
    cases hl' : long b' l with
    | true =>
      obtain ⟨_, hk, qs', hqs', rfl⟩ := ih
      refine ⟨_, ?_, _, .wrap hl' (hcut.mono hb) hqs', rfl⟩
      simp only [List.length_append, List.length_map]
      omega
    | false =>
      obtain ⟨groups, hg, hlen⟩ := (Packing.wrap hl hcut hqs).lines
      refine ⟨_, ?_, _, .whole (by simpa using hl') (hg.mono hb), rfl⟩
      simpa only [List.length_map] using hlen
  | @whole ls groups hfit hcut =>
    exact ⟨_, Nat.le_refl _, _, .whole (fun l hl => hshort l (hfit l hl)) (hcut.mono hb), rfl⟩

/-! ## There is always a packet -/

/-- Lines need a packet. -/
theorem packLines_ne_nil {b : Nat} (hb : 4 ≤ b) (text : Text) : packLines text b ≠ [] := by
  rw [packLines_eq, Ne, List.map_eq_nil_iff]
  have hlines : splitLines text ≠ [] := List.splitOn_ne_nil _ _
  cases hls : splitLines text with
  | nil => exact absurd hls hlines
  | cons l ls =>
    cases hl : long b l with
    | true =>
      rw [layout_cons_long hl, hardWrap_eq l b hb]
      simp [greedy_eq_nil, ne_nil_of_long hl]
    | false =>
      rw [layout_fit (by simpa using hl)]
      simp [greedy_eq_nil]

/-- Every text makes a packet. -/
theorem splitPackets_ne_nil {packetBytes : Nat} (hb : 4 ≤ packetBytes) (text : Text) :
    splitPackets text packetBytes ≠ [] := by
  unfold splitPackets
  dsimp only
  split
  · exact List.cons_ne_nil _ _
  split
  · exact List.cons_ne_nil _ _
  split
  · exact packLines_ne_nil hb _
  · rw [Ne, List.map_eq_nil_iff, List.zipIdx_eq_nil_iff]
    refine packLines_ne_nil ?_ _
    split <;> omega

/-! ## Beginnings -/

/-- A part of a long line travels as if it were wrapped, also when it fits. -/
theorem layout_singleton {b : Nat} (hb : 4 ≤ b) {u : Text} (hu : u ≠ []) :
    (layout b [u]).map Payload.text = greedy Char.utf8Size 0 b u := by
  cases hl : long b u with
  | true =>
    rw [layout_cons_long hl, hardWrap_eq u b hb]
    simp [layout, greedy, Function.comp_def, Payload.text]
  | false =>
    have hw : weight Char.utf8Size 0 u ≤ b := by
      rw [← utf8Len_eq_weight]
      simpa [long] using hl
    rw [layout_fit (by simpa using hl), greedy_eq_singleton hu hw]
    simp [greedy, fillFrom, Payload.text]

theorem utf8Len_start_le {s t : Text} (h : s <+: t) : utf8Len s ≤ utf8Len t := by
  obtain ⟨r, rfl⟩ := h
  rw [utf8Len_append]
  omega

theorem utf8Len_end_le {s t : Text} (h : s <:+ t) : utf8Len s ≤ utf8Len t := by
  obtain ⟨r, rfl⟩ := h
  rw [utf8Len_append]
  omega

/-- Payload by payload, a beginning takes no more room than all the lines. -/
theorem layout_beginning_le {b : Nat} (hb : 4 ≤ b) {ls p : List Text} (h : Beginning b ls p) :
    ∀ {i : Nat} {q : Payload}, (layout b p)[i]? = some q →
    ∃ q', (layout b ls)[i]? = some q' ∧ utf8Len q.text ≤ utf8Len q'.text := by
  induction h with
  | wrap hl _ ih =>
    intro i q hq
    rw [layout_cons_long hl, List.getElem?_append] at hq ⊢
    split at hq
    · next hi => exact ⟨q, by rwa [if_pos hi], Nat.le_refl _⟩
    · next hi =>
      rw [if_neg hi]
      exact ih hq
  | @cut l u ls hl hu hne =>
    intro i q hq
    have hs : (greedy Char.utf8Size 0 b u)[i]? = some q.text := by
      rw [← layout_singleton hb hne, List.getElem?_map, hq]
      rfl
    obtain ⟨t, ht, hst⟩ := greedy_beginning hu hs
    rw [← hardWrap_eq l b hb] at ht
    have hi := (List.getElem?_eq_some_iff.mp ht).1
    refine ⟨.piece t, ?_, utf8Len_start_le hst⟩
    rw [layout_cons_long hl, List.getElem?_append_left (by simpa using hi), List.getElem?_map, ht]
    rfl
  | @whole ls p hfit hp hne =>
    intro i q hq
    rw [layout_fit (fit_of_beginning hp hne hfit), List.getElem?_map, Option.map_eq_some_iff] at hq
    obtain ⟨s, hs, rfl⟩ := hq
    obtain ⟨t, ht, d, rfl⟩ := greedy_beginning hp hs
    refine ⟨.lines (s ++ d), by rw [layout_fit hfit, List.getElem?_map, ht]; rfl, ?_⟩
    simp only [Payload.text, utf8Len_joinLines]
    exact weight_le_append_left s d

theorem Packing.eq_nil {b : Nat} {qs : List Payload} (h : Packing b [] qs) : qs = [] := by
  cases h with
  | @whole _ groups _ hcut =>
    rcases eq_or_ne groups [] with rfl | hne
    · rfl
    · obtain ⟨s, hs⟩ := List.exists_mem_of_ne_nil _ hne
      exact absurd (List.flatten_eq_nil_iff.mp hcut.flatten s hs) (hcut.ne_nil s hs)

/-- The last payload of a packing of a line, or of a part of it. -/
theorem Packing.last_of_line {b : Nat} {u seg : Text} {pre : List Text} {qs : List Payload}
    {q : Payload} (hg : greedy Char.utf8Size 0 b u = pre ++ [seg])
    (h : Packing b [u] (qs ++ [q])) (hlen : qs.length ≤ pre.length) :
    utf8Len seg ≤ utf8Len q.text := by
  generalize hr : qs ++ [q] = r at h
  cases h with
  | wrap _ hcut hrest =>
    obtain rfl := hrest.eq_nil
    rw [List.append_nil] at hr
    obtain ⟨init, s, rfl, rfl, rfl⟩ := eq_concat_of_map hr
    exact utf8Len_end_le (last_greedy_suffix hg hcut (by simpa using hlen))
  | whole _ hcut =>
    obtain ⟨init, s, rfl, rfl, rfl⟩ := eq_concat_of_map hr
    -- the line is all that the last payload can hold
    have hs : s = [u] := by
      have hf := hcut.flatten
      rw [List.flatten_append, List.flatten_singleton] at hf
      rcases List.append_eq_singleton_iff.mp hf with ⟨-, h⟩ | ⟨-, h⟩
      · exact h
      · exact absurd h (hcut.ne_nil s (by simp))
    have hu := (greedy_isCut (w := Char.utf8Size) (g := 0) (b := b) u).flatten
    rw [hg, List.flatten_append, List.flatten_singleton] at hu
    rw [hs]
    exact utf8Len_end_le ⟨_, by simpa [Payload.text] using hu⟩

/-- **Where the packer ends a packet it had to.**  The lines up to the end of its
`i`-th payload are a beginning that needs `i + 1` payloads, and every packing of
them in so many ends in one at least as large. -/
theorem layout_beginning {b : Nat} (hb : 4 ≤ b) {ls : List Text} : ∀ {i : Nat} {q : Payload},
    (layout b ls)[i]? = some q →
    ∃ p, Beginning b ls p ∧ (layout b p).length = i + 1 ∧
      ∀ qs q', Packing b p (qs ++ [q']) → qs.length ≤ i → utf8Len q.text ≤ utf8Len q'.text := by
  induction ls with
  | nil =>
    intro i q hq
    simp [layout, greedy] at hq
  | cons l ls ih =>
    intro i q hq
    cases hl : long b l with
    | true =>
      rw [layout_cons_long hl, List.getElem?_append] at hq
      split at hq
      · -- inside the line
        rw [List.getElem?_map, Option.map_eq_some_iff, hardWrap_eq l b hb] at hq
        obtain ⟨seg, hseg, rfl⟩ := hq
        obtain ⟨u, hu, hune, hg⟩ := greedy_take (ne_nil_of_long hl) i
        obtain ⟨hlast, hlen⟩ := take_succ_of_get hseg
        rw [hlast] at hg
        refine ⟨[u], .cut ls hl hu hune, ?_, fun qs q' hqs hle => hqs.last_of_line hg (by omega)⟩
        rw [← List.length_map Payload.text, layout_singleton hb hune, hg, List.length_append, hlen]
        rfl
      · next hi =>
        obtain ⟨p, hp, hlen, hlast⟩ := ih hq
        refine ⟨l :: p, .wrap hl hp, ?_, ?_⟩
        · rw [layout_cons_long hl, List.length_append]
          omega
        · intro qs q' hqs hle
          generalize hr : qs ++ [q'] = r at hqs
          cases hqs with
          | @wrap _ _ pieces rest _ hcut hrest =>
            have hpos := layout_length_le hb hrest
            have hwrap := greedy_length_le hcut
            rw [← hardWrap_eq l b hb] at hwrap
            rcases List.eq_nil_or_concat' rest with rfl | ⟨init, q'', rfl⟩
            · rw [hlen] at hpos
              simp at hpos
            · rw [← List.append_assoc] at hr
              obtain ⟨rfl, h2⟩ := List.append_inj' hr rfl
              obtain rfl : q' = q'' := by simpa using h2
              apply hlast init q' hrest
              simp only [List.length_append, List.length_map] at hle hi ⊢
              omega
          | whole hfit =>
            have := hfit l rfl
            rw [hl] at this
            cases this
    | false =>
      have hfit : ∀ a ∈ (l :: ls).head?, long b a = false := by simpa using hl
      rw [layout_fit hfit, List.getElem?_map, Option.map_eq_some_iff] at hq
      obtain ⟨seg, hseg, rfl⟩ := hq
      obtain ⟨p, hp, hpne, hg⟩ := greedy_take (List.cons_ne_nil l ls) i
      obtain ⟨hlast, hlen⟩ := take_succ_of_get hseg
      rw [hlast] at hg
      have hfit' := fit_of_beginning hp hpne hfit
      refine ⟨p, .whole hfit hp hpne, ?_, ?_⟩
      · rw [layout_fit hfit', List.length_map, hg, List.length_append, hlen]
        rfl
      · intro qs q' hqs hle
        generalize hr : qs ++ [q'] = r at hqs
        cases hqs with
        | wrap hlong =>
          have := hfit' _ rfl
          rw [hlong] at this
          cases this
        | whole _ hcut =>
          obtain ⟨init, s, rfl, rfl, rfl⟩ := eq_concat_of_map hr
          obtain ⟨d, rfl⟩ := last_greedy_suffix hg hcut (by simpa [hlen] using hle)
          simp only [Payload.text, utf8Len_joinLines]
          exact weight_le_append_right d seg

end Bbs.Format
