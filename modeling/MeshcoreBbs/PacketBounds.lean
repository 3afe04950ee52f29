import MeshcoreBbs.Packing

/-!
# Size and numbering of reply packets

`split_packets` promises packets of at most `packet_bytes` bytes, numbered
`(i/N) `.  Both promises rest on the second pass cutting the text as the first
one did, and both can fail:

* a line longer than the payload budget is sent whole when it comes after a line
  that fits, and a packet number with more digits than the first-pass count has
  a longer prefix than the one reserved (`splitPackets_bounded_iff`);
* the prefixes carry the count of the first pass, which is the number of packets
  only if the tighter budget needs no more of them (`splitPackets_numbered_iff`).

Both conditions are about the text and the packings it has, not about the packets
that come out.
-/

namespace Bbs.Format

open GreedyCut

/-- Lines of the text that is split. -/
def bodyLines (text : Text) : List Text := splitLines (rstripNewlines text)

/-- `n`, the packet count of the first pass. -/
def firstCount (text : Text) (packetBytes : Nat) : Nat :=
  (packLines (rstripNewlines text) packetBytes).length

/-- `budget` of the second pass, when the floor is not taken. -/
def payloadBudget (text : Text) (packetBytes : Nat) : Nat :=
  packetBytes - utf8Len (header (firstCount text packetBytes) (firstCount text packetBytes))

/-! ## The prefix -/

theorem utf8Len_header (i n : Nat) :
    utf8Len (header i n) = (decimal i).length + (decimal n).length + 4 := by
  have h1 : Char.utf8Size '(' = 1 := by decide
  have h2 : Char.utf8Size '/' = 1 := by decide
  have h3 : Char.utf8Size ')' = 1 := by decide
  have h4 : Char.utf8Size ' ' = 1 := by decide
  simp only [header, List.cons_append, utf8Len_cons, utf8Len_append, utf8Len_decimal,
    utf8Len_nil, h1, h2, h3, h4]
  omega

theorem takeWhile_decimal (n : Nat) (s : Text) :
    (decimal n ++ ')' :: s).takeWhile Char.isDigit = decimal n := by
  rw [List.takeWhile_append_of_pos fun c hc => isDigit_of_mem_decimal hc]
  simp [Char.isDigit]

/-- The denominator can be read off a packet. -/
theorem header_prefix_inj {i m n : Nat} {p : Text} (h : header i m <+: header i n ++ p) :
    m = n := by
  obtain ⟨t, ht⟩ := h
  simp only [header, List.cons_append, List.append_assoc, List.cons.injEq, true_and] at ht
  have h1 := List.append_cancel_left ht
  simp only [List.cons.injEq, true_and] at h1
  have h2 := congrArg (List.takeWhile Char.isDigit) h1
  rw [List.nil_append, takeWhile_decimal, takeWhile_decimal] at h2
  exact decimal_inj h2

/-! ## One packet means the text fits -/

theorem hardWrap_two_le (line : Text) (b : Nat) (h : b < utf8Len line) :
    2 ≤ (hardWrap line b).length := by
  have hge : ∀ s : Text, ∀ c, b < utf8Len (c :: s) → c.utf8Size ≤ b →
      2 ≤ (fillFrom Char.utf8Size 0 b [c] c.utf8Size s).length := by
    intro s c hl hc
    have hcut := greedy_isCut (w := Char.utf8Size) (g := 0) (b := b) (c :: s)
    match hg : greedy Char.utf8Size 0 b (c :: s) with
    | [] => exact absurd ((greedy_eq_nil _).mp hg) (by simp)
    | [seg] =>
      rw [hg] at hcut
      have hf : seg = c :: s := by simpa using hcut.flatten
      have hw : weight Char.utf8Size 0 (c :: s) ≤ b := by
        rcases hcut.fits seg (by simp) with h1 | ⟨a, h1⟩
        · rwa [hf] at h1
        · rw [hf, List.cons.injEq] at h1
          rw [h1.2, weight_singleton]
          exact hc
      rw [← utf8Len_eq_weight] at hw
      omega
    | _ :: _ :: _ =>
      rw [greedy] at hg
      simp [hg]
  cases line with
  | nil => simp at h
  | cons c s =>
    rw [hardWrap, List.foldl_cons]
    by_cases hc : b < c.utf8Size
    · have h0 : wrapStep b ⟨[], [], 0⟩ c = ⟨[[]], [c], c.utf8Size⟩ := by
        simp [wrapStep, hc]
      rw [h0, foldl_wrapStep b s _ _ _ (by simp), List.length_append]
      have := (fillFrom_isCut (w := Char.utf8Size) (g := 0) (b := b) s [c] (by simp)
        (Or.inr ⟨c, rfl⟩)).length_pos (by simp)
      rw [weight_singleton] at this
      simp only [List.length_singleton]
      omega
    · have h0 : wrapStep b ⟨[], [], 0⟩ c = ⟨[], [c], c.utf8Size⟩ := by
        simp [wrapStep, hc]
      rw [h0, foldl_wrapStep b s _ _ _ (by simp), List.nil_append]
      exact hge s c h (by omega)

theorem layout_length_one {b : Nat} {ls : List Text} (h : (layout b ls).length = 1) :
    weight utf8Len 1 ls ≤ b := by
  cases ls with
  | nil => simp [layout, greedy] at h
  | cons l ls =>
    cases hl : long b l with
    | true =>
      have h2 := hardWrap_two_le l b (by simpa [long] using hl)
      rw [layout_cons_long hl, List.length_append, List.length_map] at h
      omega
    | false =>
      rw [layout_fit (by simpa using hl), List.length_map] at h
      obtain ⟨seg, hg⟩ := List.length_eq_one_iff.mp h
      have hcut := greedy_isCut (w := utf8Len) (g := 1) (b := b) (l :: ls)
      rw [hg] at hcut
      have hf : seg = l :: ls := by simpa using hcut.flatten
      rcases hcut.fits seg (by simp) with h1 | ⟨a, h1⟩
      · rwa [hf] at h1
      · rw [hf, List.cons.injEq] at h1
        rw [h1.2, weight_singleton]
        simpa [long] using hl

/-- The second pass, spelled out. -/
theorem splitPackets_eq (text : Text) (pb : Nat) (hfl : ¬ takesFloor text pb)
    (hbig : pb < utf8Len (rstripNewlines text)) :
    splitPackets text pb =
      (packLines (rstripNewlines text) (payloadBudget text pb)).zipIdx.map
        (fun p => header (p.2 + 1) (firstCount text pb) ++ p.1) ∧
    16 ≤ payloadBudget text pb ∧
    payloadBudget text pb + utf8Len (header (firstCount text pb) (firstCount text pb)) = pb := by
  have hne : (packLines (rstripNewlines text) pb).length ≠ 1 := by
    intro h
    rw [packLines_length] at h
    have := layout_length_one h
    rw [weight_splitLines] at this
    omega
  have hroom : ¬ payloadBudget text pb < 16 := fun h => hfl ⟨hbig, hne, h⟩
  have hnil : rstripNewlines text ≠ [] := by
    intro h
    rw [h] at hbig
    simp at hbig
  refine ⟨?_, by omega, by unfold payloadBudget at hroom ⊢; omega⟩
  have he : (rstripNewlines text).isEmpty = false := by simpa using hnil
  simp only [splitPackets, he, Bool.false_eq_true, if_false, if_neg (Nat.not_le.mpr hbig),
    if_neg hne]
  rw [if_neg (by simpa [payloadBudget, firstCount] using hroom)]
  rfl

theorem mem_splitPackets (text : Text) (pb : Nat) (hfl : ¬ takesFloor text pb)
    (hbig : pb < utf8Len (rstripNewlines text)) (i : Nat) (p : Text) :
    (splitPackets text pb)[i]? = some p ↔
      ∃ q, (layout (payloadBudget text pb) (bodyLines text))[i]? = some q ∧
        p = header (i + 1) (firstCount text pb) ++ q.text := by
  rw [(splitPackets_eq text pb hfl hbig).1, packLines_eq]
  simp only [bodyLines, List.getElem?_map, List.getElem?_zipIdx, Option.map_eq_some_iff,
    Nat.zero_add]
  constructor
  · rintro ⟨_, ⟨_, ⟨q, hq, rfl⟩, rfl⟩, rfl⟩
    exact ⟨q, hq, rfl⟩
  · rintro ⟨q, hq, rfl⟩
    exact ⟨_, ⟨_, ⟨q, hq, rfl⟩, rfl⟩, rfl⟩

/-- The first pass finds the least number of packets. -/
theorem firstCount_isLeast (text : Text) {pb : Nat} (hpb : 4 ≤ pb) :
    IsLeast {k | Packable pb (bodyLines text) k} (firstCount text pb) := by
  rw [firstCount, packLines_length]
  exact layout_isLeast hpb _

/-! ## Packets within `packet_bytes` -/

/-- A long line after a line that fits is a packet of its own. -/
theorem layout_long_after {b : Nat} {pre : List Text} {line : Text} (post : List Text)
    (hfit : ∃ l ∈ pre, long b l = false) (hlong : long b line = true) :
    layout b (pre ++ line :: post) =
      layout b pre ++ .lines [line] :: (greedy utf8Len 1 b post).map .lines := by
  induction pre with
  | nil => simp at hfit
  | cons a pre ih =>
    rw [List.cons_append]
    cases ha : long b a with
    | true =>
      obtain ⟨l, hl, hl'⟩ := hfit
      have hpre : ∃ l ∈ pre, long b l = false := by
        rcases List.mem_cons.mp hl with rfl | hl
        · rw [ha] at hl'
          cases hl'
        · exact ⟨l, hl, hl'⟩
      rw [layout_cons_long ha, layout_cons_long ha, ih hpre, List.append_assoc]
    | false =>
      have hw : b < utf8Len line := by simpa [long] using hlong
      rw [layout_fit (by simpa using ha), layout_fit (by simpa using ha), ← List.cons_append,
        greedy_overweight hw]
      simp

/-- A packet that exceeds the payload budget is a long line after a line that fits. -/
theorem oversized_payload {b : Nat} (hb : 4 ≤ b) {ls : List Text} : ∀ {i : Nat} {q : Payload},
    (layout b ls)[i]? = some q → b < utf8Len q.text →
    ∃ pre line post, ls = pre ++ line :: post ∧ (∃ l ∈ pre, long b l = false) ∧
      long b line = true ∧ q = .lines [line] ∧ i = (layout b pre).length := by
  induction ls with
  | nil =>
    intro i q hq
    simp [layout, greedy] at hq
  | cons l ls ih =>
    intro i q hq hover
    cases hl : long b l with
    | true =>
      rw [layout_cons_long hl, List.getElem?_append] at hq
      split at hq
      · -- a piece of a wrapped line is never oversized
        exfalso
        rw [List.getElem?_map, Option.map_eq_some_iff, hardWrap_eq l b hb] at hq
        obtain ⟨p, hp, rfl⟩ := hq
        rcases (greedy_isCut l).fits p (List.mem_of_getElem? hp) with h1 | ⟨c, rfl⟩
        · rw [← utf8Len_eq_weight] at h1
          exact absurd hover (Nat.not_lt.mpr h1)
        · have := c.utf8Size_le_four
          simp only [Payload.text, utf8Len_cons, utf8Len_nil] at hover
          omega
      · next hi =>
        obtain ⟨pre, line, post, rfl, ⟨a, ha, hfit⟩, hline, rfl, hlen⟩ := ih hq hover
        refine ⟨l :: pre, line, post, rfl, ⟨a, by simp [ha], hfit⟩, hline, rfl, ?_⟩
        rw [layout_cons_long hl, List.length_append]
        omega
    | false =>
      have hfit : ∀ a ∈ (l :: ls).head?, long b a = false := by simpa using hl
      have hcut := greedy_isCut (w := utf8Len) (g := 1) (b := b) (l :: ls)
      rw [layout_fit hfit, List.getElem?_map, Option.map_eq_some_iff] at hq
      obtain ⟨seg, hseg, rfl⟩ := hq
      rw [Payload.text, utf8Len_joinLines] at hover
      rcases hcut.fits seg (List.mem_of_getElem? hseg) with h1 | ⟨line, rfl⟩
      · omega
      rw [weight_singleton] at hover
      have hlong : long b line = true := by simpa [long] using hover
      -- the lines up to this segment
      obtain ⟨p, ⟨post, hp⟩, -, hg⟩ := greedy_take (List.cons_ne_nil l ls) i
      obtain ⟨htake, hlen⟩ := take_succ_of_get hseg
      have hpre := (greedy_isCut (w := utf8Len) (g := 1) (b := b) p).flatten
      rw [hg, htake, List.flatten_append, List.flatten_singleton] at hpre
      generalize (greedy utf8Len 1 b (l :: ls)).take i = g at *
      subst hpre
      have hgreedy : greedy utf8Len 1 b g.flatten = g := by
        rw [htake, greedy_overweight hover] at hg
        exact List.append_cancel_right hg
      cases hfl : g.flatten with
      | nil =>
        rw [hfl, List.nil_append, List.singleton_append, List.cons.injEq] at hp
        rw [hp.1, hl] at hlong
        cases hlong
      | cons a pre =>
        rw [hfl, List.cons_append, List.cons_append, List.cons.injEq] at hp
        obtain ⟨rfl, rfl⟩ := hp
        refine ⟨a :: pre, line, post, by simp, ⟨a, by simp, hl⟩, hlong, rfl, ?_⟩
        rw [layout_fit (by simpa using hl), List.length_map, ← hfl, hgreedy, hlen]

/-- Room for the numbers `(k/n) ` before payloads of `b` bytes.  A long line after a line
that fits is no longer than its packet's number leaves it; and a beginning that needs
`k` payloads, where `k` has more digits than `n`, can be carried so that the last of
them leaves room for its number. -/
structure PrefixRoom (ls : List Text) (pb n b : Nat) : Prop where
  longLine : ∀ pre line post k, ls = pre ++ line :: post →
    (∃ l ∈ pre, long b l = false) → long b line = true → IsLeast {k | Packable b pre k} k →
    utf8Len (header (k + 1) n) + utf8Len line ≤ pb
  longNumber : ∀ p k, Beginning b ls p → IsLeast {k | Packable b p k} k →
    (decimal n).length < (decimal k).length →
    ∃ qs q, Packing b p (qs ++ [q]) ∧ qs.length + 1 = k ∧
      utf8Len (header k n) + utf8Len q.text ≤ pb

/-- What the condition says of the packer's own payloads. -/
theorem prefixRoom_iff (ls : List Text) {pb n b : Nat} (hb : 4 ≤ b)
    (hsum : b + utf8Len (header n n) = pb) :
    PrefixRoom ls pb n b ↔ ∀ i q, (layout b ls)[i]? = some q →
      utf8Len (header (i + 1) n) + utf8Len q.text ≤ pb := by
  constructor
  · intro h i q hq
    by_cases hdig : (decimal n).length < (decimal (i + 1)).length
    · obtain ⟨p, hp, hlen, hlast⟩ := layout_beginning hb hq
      have hleast := layout_isLeast hb p
      rw [hlen] at hleast
      obtain ⟨qs, q', hqs, hk, hroom⟩ := h.longNumber p (i + 1) hp hleast hdig
      have := hlast qs q' hqs (by omega)
      omega
    by_cases hover : b < utf8Len q.text
    · obtain ⟨pre, line, post, rfl, hfit, hlong, rfl, rfl⟩ := oversized_payload hb hq hover
      simpa [Payload.text] using
        h.longLine pre line post _ rfl hfit hlong (layout_isLeast hb pre)
    · rw [utf8Len_header] at hsum ⊢
      omega
  · intro h
    constructor
    · rintro pre line post k rfl hfit hlong hk
      obtain rfl := hk.unique (layout_isLeast hb pre)
      have := h (layout b pre).length (.lines [line]) (by
        rw [layout_long_after post hfit hlong]
        simp)
      simpa [Payload.text] using this
    · intro p k hp hk hdig
      obtain rfl := hk.unique (layout_isLeast hb p)
      rcases List.eq_nil_or_concat' (layout b p) with hnil | ⟨qs, q, hlay⟩
      · rw [hnil] at hdig
        simp [decimal] at hdig
      · have hq : (layout b p)[qs.length]? = some q := by simp [hlay]
        obtain ⟨q', hq', hle⟩ := layout_beginning_le hb hp hq
        have hroom := h _ _ hq'
        refine ⟨qs, q, by rw [← hlay]; exact layout_packing hb p, by simp [hlay], ?_⟩
        have hlen : (layout b p).length = qs.length + 1 := by simp [hlay]
        rw [hlen]
        omega

/-- **Packets within `packet_bytes`**, exactly when the text needs no split or the
numbers leave enough room. -/
theorem splitPackets_bounded_iff (text : Text) (pb : Nat) (hfl : ¬ takesFloor text pb) :
    (∀ p ∈ splitPackets text pb, utf8Len p ≤ pb) ↔
      (utf8Len (rstripNewlines text) ≤ pb ∨
        ∃ n, IsLeast {k | Packable pb (bodyLines text) k} n ∧
          PrefixRoom (bodyLines text) pb n (pb - utf8Len (header n n))) := by
  by_cases hbig : utf8Len (rstripNewlines text) ≤ pb
  · refine ⟨fun _ => Or.inl hbig, fun _ p hp => ?_⟩
    simp only [splitPackets, if_pos hbig] at hp
    split at hp
    · rw [List.mem_singleton.mp hp]
      exact Nat.zero_le _
    · rw [List.mem_singleton.mp hp]
      exact hbig
  have hmem := mem_splitPackets text pb hfl (Nat.lt_of_not_le hbig)
  obtain ⟨-, hb, hsum⟩ := splitPackets_eq text pb hfl (Nat.lt_of_not_le hbig)
  have hleast : IsLeast {k | Packable pb (bodyLines text) k} (firstCount text pb) :=
    firstCount_isLeast text (by omega)
  have hroom := prefixRoom_iff (bodyLines text) (by omega) hsum
  -- every packet is a numbered payload
  have hpay : (∀ p ∈ splitPackets text pb, utf8Len p ≤ pb) ↔
      ∀ i q, (layout (payloadBudget text pb) (bodyLines text))[i]? = some q →
        utf8Len (header (i + 1) (firstCount text pb)) + utf8Len q.text ≤ pb := by
    constructor
    · intro h i q hq
      have := h _ (List.mem_of_getElem? ((hmem i _).mpr ⟨q, hq, rfl⟩))
      rwa [utf8Len_append] at this
    · intro h p hp
      obtain ⟨i, hi⟩ := List.getElem?_of_mem hp
      obtain ⟨q, hq, rfl⟩ := (hmem i p).mp hi
      rw [utf8Len_append]
      exact h i q hq
  rw [hpay, ← hroom, or_iff_right hbig]
  constructor
  · exact fun h => ⟨_, hleast, h⟩
  · rintro ⟨n, hn, h⟩
    obtain rfl := hn.unique hleast
    exact h

instance (text : Text) (pb : Nat) : Decidable (takesFloor text pb) :=
  inferInstanceAs (Decidable (_ ∧ _ ∧ _))

/-- A long line after a short one: the second packet takes 206 bytes. -/
theorem splitPackets_oversized :
    ¬ takesFloor ('a' :: '\n' :: List.replicate 200 'x') 140 ∧
      ∃ p ∈ splitPackets ('a' :: '\n' :: List.replicate 200 'x') 140, 140 < utf8Len p := by
  decide +kernel

theorem splitPackets_bounded_iff_longLine :
    ¬ takesFloor ('a' :: '\n' :: List.replicate 200 'x') 140 ∧
      ((∀ p ∈ splitPackets ('a' :: '\n' :: List.replicate 200 'x') 140, utf8Len p ≤ 140) ↔
        (utf8Len (rstripNewlines ('a' :: '\n' :: List.replicate 200 'x')) ≤ 140 ∨
          ∃ n, IsLeast {k | Packable 140 (bodyLines ('a' :: '\n' :: List.replicate 200 'x')) k} n ∧
            PrefixRoom (bodyLines ('a' :: '\n' :: List.replicate 200 'x')) 140 n
              (140 - utf8Len (header n n)))) :=
  have h : ¬ takesFloor ('a' :: '\n' :: List.replicate 200 'x') 140 := by decide +kernel
  ⟨h, splitPackets_bounded_iff _ _ h⟩

/-! ## The number of packets -/

/-- **Packet numbers**: the `i`-th packet starts with `(i/N) ` exactly when the text can
be carried at the payload budget by as few packets as it needs at full size. -/
theorem splitPackets_numbered_iff (text : Text) (pb : Nat) (hfl : ¬ takesFloor text pb)
    (hN : 1 < (splitPackets text pb).length) :
    (∀ i p, (splitPackets text pb)[i]? = some p →
        header (i + 1) (splitPackets text pb).length <+: p) ↔
      ∃ n, IsLeast {k | Packable pb (bodyLines text) k} n ∧
        Packable (pb - utf8Len (header n n)) (bodyLines text) n := by
  have hbig : pb < utf8Len (rstripNewlines text) := by
    by_contra hle
    simp only [splitPackets, if_pos (Nat.le_of_not_lt hle)] at hN
    split at hN <;> simp at hN
  have hmem := mem_splitPackets text pb hfl hbig
  obtain ⟨heq, hb, hsum⟩ := splitPackets_eq text pb hfl hbig
  have hlen : (splitPackets text pb).length =
      (layout (payloadBudget text pb) (bodyLines text)).length := by
    rw [heq, List.length_map, List.length_zipIdx, packLines_length]
    rfl
  have hfirst : IsLeast {k | Packable pb (bodyLines text) k} (firstCount text pb) :=
    firstCount_isLeast text (by omega)
  have hsecond := layout_isLeast (b := payloadBudget text pb) (by omega) (bodyLines text)
  rw [← hlen] at hsecond
  -- numbered correctly exactly when the passes agree
  have hagree : (∀ i p, (splitPackets text pb)[i]? = some p →
      header (i + 1) (splitPackets text pb).length <+: p) ↔
      (splitPackets text pb).length = firstCount text pb := by
    constructor
    · intro h
      have hp : (splitPackets text pb)[0]? = some (splitPackets text pb)[0] :=
        List.getElem?_eq_getElem _
      obtain ⟨q, -, hq⟩ := (hmem 0 _).mp hp
      have := h 0 _ hp
      rw [hq] at this
      exact header_prefix_inj this
    · intro h i p hp
      obtain ⟨q, -, rfl⟩ := (hmem i p).mp hp
      rw [h]
      exact List.prefix_append _ _
  rw [hagree]
  constructor
  · intro h
    refine ⟨_, hfirst, ?_⟩
    have := hsecond.1
    rwa [h] at this
  · rintro ⟨n, hn, hpack⟩
    obtain rfl := hn.unique hfirst
    have h1 := hsecond.2 hpack
    obtain ⟨k', hk', hk⟩ := Packable.mono (Nat.sub_le _ _) hsecond.1
    have h2 := hfirst.2 hk
    omega

/-- 198 characters: nine packets of 22, but thirteen of 16 behind prefixes `(i/9) `. -/
theorem splitPackets_misnumbered :
    ¬ takesFloor (List.replicate 198 'x') 22 ∧
      (splitPackets (List.replicate 198 'x') 22).length = 13 ∧
      ∃ p ∈ splitPackets (List.replicate 198 'x') 22, header 1 9 <+: p ∧ ¬ header 1 13 <+: p := by
  decide +kernel

theorem splitPackets_numbered_iff_nine :
    ¬ takesFloor (List.replicate 198 'x') 22 ∧
      1 < (splitPackets (List.replicate 198 'x') 22).length ∧
      ((∀ i p, (splitPackets (List.replicate 198 'x') 22)[i]? = some p →
          header (i + 1) (splitPackets (List.replicate 198 'x') 22).length <+: p) ↔
        ∃ n, IsLeast {k | Packable 22 (bodyLines (List.replicate 198 'x')) k} n ∧
          Packable (22 - utf8Len (header n n)) (bodyLines (List.replicate 198 'x')) n) :=
  have h1 : ¬ takesFloor (List.replicate 198 'x') 22 := by decide +kernel
  have h2 : 1 < (splitPackets (List.replicate 198 'x') 22).length := by decide +kernel
  ⟨h1, h2, splitPackets_numbered_iff _ _ h1 h2⟩

end Bbs.Format
