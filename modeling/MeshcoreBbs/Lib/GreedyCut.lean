import Mathlib.Algebra.GroupWithZero.Nat
import Mathlib.Data.List.Basic
import Mathlib.Order.Bounds.Basic

/-!
# Greedy cuts of a list under a weight budget

A list is cut into consecutive segments.  A segment weighs the sum of its items
plus a gap `g` between neighbours, and should weigh at most `b`; an item that
is heavier than `b` may stand alone.  `greedy` fills a segment until the next
item no longer fits.

    IsCut w g b l (greedy w g b l)                             (greedy_isCut)
    IsCut w g b l segs → (greedy w g b l).length ≤ segs.length (greedy_length_le)
    b < w x → greedy (p ++ x :: q) = greedy p ++ [x] :: greedy q   (greedy_overweight)

The first two say that the number of greedy segments is the least possible one.
Any other cut of that length ends in a segment that contains the last greedy one
(`last_greedy_suffix`).
-/

namespace GreedyCut

section
variable {α : Type} (w : α → Nat) (g b : Nat)

/-- Weight of a segment: its items, and the gap between neighbours. -/
def weight : List α → Nat
  | [] => 0
  | [a] => w a
  | a :: c :: l => w a + g + weight (c :: l)

/-- Greedy filling with an open segment `cur` that weighs `size`. -/
def fillFrom (cur : List α) (size : Nat) : List α → List (List α)
  | [] => [cur]
  | a :: l =>
    if b < size + (w a + g) then cur :: fillFrom [a] (w a) l
    else fillFrom (cur ++ [a]) (size + (w a + g)) l

/-- Greedy segments of a list. -/
def greedy : List α → List (List α)
  | [] => []
  | a :: l => fillFrom w g b [a] (w a) l

/-- `segs` cuts `l` into non-empty segments, each within the budget or a single item. -/
structure IsCut (l : List α) (segs : List (List α)) : Prop where
  flatten : segs.flatten = l
  ne_nil : ∀ s ∈ segs, s ≠ []
  fits : ∀ s ∈ segs, weight w g s ≤ b ∨ ∃ a, s = [a]

variable {w g b}

/-! ## Weights -/

@[simp] theorem weight_nil : weight w g ([] : List α) = 0 := rfl

@[simp] theorem weight_singleton (a : α) : weight w g [a] = w a := rfl

theorem weight_cons (a : α) (l : List α) (hl : l ≠ []) :
    weight w g (a :: l) = w a + g + weight w g l := by
  cases l with
  | nil => exact absurd rfl hl
  | cons c l => rfl

theorem weight_append (l m : List α) (hl : l ≠ []) (hm : m ≠ []) :
    weight w g (l ++ m) = weight w g l + g + weight w g m := by
  induction l with
  | nil => exact absurd rfl hl
  | cons a l ih =>
    rcases eq_or_ne l [] with rfl | h
    · simp [weight_cons a m hm]
    · rw [List.cons_append, weight_cons a (l ++ m) (by simp [h]), weight_cons a l h, ih h]
      omega

theorem weight_le_append_left (l m : List α) : weight w g l ≤ weight w g (l ++ m) := by
  rcases eq_or_ne l [] with rfl | hl
  · simp
  · rcases eq_or_ne m [] with rfl | hm
    · simp
    · have := weight_append (w := w) (g := g) l m hl hm
      omega

theorem weight_le_cons (a : α) (l : List α) : weight w g l ≤ weight w g (a :: l) := by
  rcases eq_or_ne l [] with rfl | hl
  · simp
  · have := weight_cons (w := w) (g := g) a l hl
    omega

theorem weight_le_append_right (l m : List α) : weight w g m ≤ weight w g (l ++ m) := by
  induction l with
  | nil => exact Nat.le_refl _
  | cons a l ih => exact Nat.le_trans ih (weight_le_cons a (l ++ m))

theorem weight_zero_sep (l : List α) : weight w 0 l = (l.map w).sum := by
  induction l with
  | nil => rfl
  | cons a l ih =>
    rcases eq_or_ne l [] with rfl | hl
    · simp
    · rw [weight_cons a l hl, ih]
      simp

/-! ## Greedy segments form a cut -/

theorem fillFrom_isCut (l : List α) : ∀ (cur : List α), cur ≠ [] →
    (weight w g cur ≤ b ∨ ∃ a, cur = [a]) →
    IsCut w g b (cur ++ l) (fillFrom w g b cur (weight w g cur) l) := by
  induction l with
  | nil =>
    intro cur hne hfit
    exact ⟨by simp [fillFrom], by simp [fillFrom, hne], by simpa [fillFrom] using hfit⟩
  | cons a l ih =>
    intro cur hne hfit
    have hw : weight w g (cur ++ [a]) = weight w g cur + (w a + g) := by
      rw [weight_append cur [a] hne (by simp), weight_singleton]
      omega
    unfold fillFrom
    split
    · obtain ⟨h1, h2, h3⟩ := ih [a] (by simp) (Or.inr ⟨a, rfl⟩)
      refine ⟨?_, ?_, ?_⟩
      · rw [List.flatten_cons, ← weight_singleton (w := w) (g := g) a, h1]
        rfl
      · intro s hs
        rcases List.mem_cons.mp hs with rfl | hs
        · exact hne
        · exact h2 s hs
      · intro s hs
        rcases List.mem_cons.mp hs with rfl | hs
        · exact hfit
        · exact h3 s hs
    · next hb =>
      have := ih (cur ++ [a]) (by simp) (Or.inl (by omega))
      rwa [hw, List.append_assoc] at this

/-- **Greedy segments form a cut.** -/
theorem greedy_isCut (l : List α) : IsCut w g b l (greedy w g b l) := by
  cases l with
  | nil => exact ⟨rfl, by simp [greedy], by simp [greedy]⟩
  | cons a l => exact fillFrom_isCut l [a] (by simp) (Or.inr ⟨a, rfl⟩)

theorem greedy_eq_nil (l : List α) : greedy w g b l = [] ↔ l = [] := by
  constructor
  · intro h
    have := (greedy_isCut (w := w) (g := g) (b := b) l).flatten
    rw [h] at this
    exact this.symm
  · rintro rfl
    rfl

/-! ## No cut has fewer segments -/

theorem IsCut.mono {b' : Nat} (hb : b ≤ b') {l : List α} {segs : List (List α)}
    (h : IsCut w g b l segs) : IsCut w g b' l segs :=
  ⟨h.flatten, h.ne_nil, fun s hs => (h.fits s hs).imp (fun h1 => Nat.le_trans h1 hb) id⟩

theorem IsCut.append {l m : List α} {s t : List (List α)} (hs : IsCut w g b l s)
    (ht : IsCut w g b m t) : IsCut w g b (l ++ m) (s ++ t) := by
  refine ⟨by rw [List.flatten_append, hs.flatten, ht.flatten], ?_, ?_⟩
  · intro x hx
    rcases List.mem_append.mp hx with hx | hx
    · exact hs.ne_nil x hx
    · exact ht.ne_nil x hx
  · intro x hx
    rcases List.mem_append.mp hx with hx | hx
    · exact hs.fits x hx
    · exact ht.fits x hx

/-- Every item on its own. -/
theorem isCut_singletons (l : List α) : IsCut w g b l (l.map fun a => [a]) := by
  refine ⟨?_, ?_, ?_⟩
  · induction l with
    | nil => rfl
    | cons a l ih => simpa using ih
  · intro s hs
    obtain ⟨a, _, rfl⟩ := List.mem_map.mp hs
    simp
  · intro s hs
    obtain ⟨a, _, rfl⟩ := List.mem_map.mp hs
    exact Or.inr ⟨a, rfl⟩

theorem IsCut.length_pos {l : List α} {segs : List (List α)} (h : IsCut w g b l segs)
    (hl : l ≠ []) : 0 < segs.length := by
  rcases eq_or_ne segs [] with rfl | hs
  · exact absurd h.flatten.symm hl
  · exact List.length_pos_iff.mpr hs

/-- A cut of `x :: l` gives one of `l` with no more segments. -/
theorem IsCut.tail {x : α} {l : List α} {segs : List (List α)}
    (h : IsCut w g b (x :: l) segs) :
    ∃ segs', IsCut w g b l segs' ∧ segs'.length ≤ segs.length := by
  obtain ⟨hf, hn, ht⟩ := h
  match segs, hf, hn, ht with
  | [], hf, _, _ => cases hf
  | [] :: rest, _, hn, _ => exact absurd rfl (hn [] (by simp))
  | [y] :: rest, hf, hn, ht =>
    simp only [List.flatten_cons, List.cons_append, List.nil_append, List.cons.injEq] at hf
    exact ⟨rest, ⟨hf.2, fun s hs => hn s (by simp [hs]), fun s hs => ht s (by simp [hs])⟩,
      by simp⟩
  | (y :: z :: s) :: rest, hf, hn, ht =>
    simp only [List.flatten_cons, List.cons_append, List.cons.injEq] at hf
    refine ⟨(z :: s) :: rest, ⟨by simpa using hf.2, ?_, ?_⟩, by simp⟩
    · intro t hmem
      rcases List.mem_cons.mp hmem with rfl | hmem
      · simp
      · exact hn t (by simp [hmem])
    · intro t hmem
      rcases List.mem_cons.mp hmem with rfl | hmem
      · rcases ht (y :: z :: s) (by simp) with h1 | ⟨a, h1⟩
        · exact Or.inl (Nat.le_trans (weight_le_cons y (z :: s)) h1)
        · simp at h1
      · exact ht t (by simp [hmem])

theorem IsCut.suffix (d : List α) {l : List α} {segs : List (List α)}
    (h : IsCut w g b (d ++ l) segs) :
    ∃ segs', IsCut w g b l segs' ∧ segs'.length ≤ segs.length := by
  induction d generalizing segs with
  | nil => exact ⟨segs, h, Nat.le_refl _⟩
  | cons x d ih =>
    obtain ⟨s1, h1, hl1⟩ := h.tail
    obtain ⟨s2, h2, hl2⟩ := ih h1
    exact ⟨s2, h2, Nat.le_trans hl2 hl1⟩

/-- When `a` overflows the open segment `cur`, the first segment of any other cut
ends inside `cur`, so the other cut is not ahead of the greedy one. -/
theorem first_segment_le {cur l s : List α} {a : α} {rest : List (List α)} (hne : cur ≠ [])
    (hover : b < weight w g (cur ++ [a]))
    (h : IsCut w g b (cur ++ a :: l) (s :: rest)) : ∃ d, cur = s ++ d := by
  have hf : s ++ rest.flatten = cur ++ a :: l := by simpa using h.flatten
  rcases List.append_eq_append_iff.mp hf with ⟨d, hd, _⟩ | ⟨d, hd, hd'⟩
  · exact ⟨d, hd⟩
  · cases d with
    | nil => exact ⟨[], by simpa using hd.symm⟩
    | cons c d =>
      exfalso
      simp only [List.cons_append, List.cons.injEq] at hd'
      obtain ⟨rfl, _⟩ := hd'
      rcases h.fits s (by simp) with h1 | ⟨x, h1⟩
      · have h2 := weight_le_append_left (w := w) (g := g) (cur ++ [a]) d
        rw [List.append_assoc, List.singleton_append, ← hd] at h2
        omega
      · rw [h1] at hd
        cases cur with
        | nil => exact hne rfl
        | cons y cur => simp at hd

theorem fillFrom_length_le (l : List α) : ∀ (cur : List α), cur ≠ [] → ∀ segs,
    IsCut w g b (cur ++ l) segs →
    (fillFrom w g b cur (weight w g cur) l).length ≤ segs.length := by
  induction l with
  | nil =>
    intro cur hne segs h
    have := h.length_pos (by simpa using hne)
    simp only [fillFrom, List.length_singleton]
    omega
  | cons a l ih =>
    intro cur hne segs h
    have hw : weight w g (cur ++ [a]) = weight w g cur + (w a + g) := by
      rw [weight_append cur [a] hne (by simp), weight_singleton]
      omega
    unfold fillFrom
    split
    · next hover =>
      cases segs with
      | nil => exact absurd (h.length_pos (by simp)) (by simp)
      | cons s rest =>
        obtain ⟨d, hd⟩ := first_segment_le hne (by omega) h
        have hrest : IsCut w g b (d ++ a :: l) rest := by
          refine ⟨?_, fun t ht => h.ne_nil t (by simp [ht]), fun t ht => h.fits t (by simp [ht])⟩
          have hf := h.flatten
          rw [hd, List.flatten_cons, List.append_assoc] at hf
          exact List.append_cancel_left hf
        obtain ⟨s', h1, h2⟩ := hrest.suffix d
        have h3 := ih [a] (by simp) s' h1
        rw [weight_singleton] at h3
        simp only [List.length_cons]
        omega
    · have := ih (cur ++ [a]) (by simp) segs (by simpa using h)
      rwa [hw] at this

/-- **Greedy is optimal.**  No cut has fewer segments. -/
theorem greedy_length_le {l : List α} {segs : List (List α)} (h : IsCut w g b l segs) :
    (greedy w g b l).length ≤ segs.length := by
  cases l with
  | nil => simp [greedy]
  | cons a l => exact fillFrom_length_le l [a] (by simp) segs h

/-! ## Overweight items stand alone -/

theorem fillFrom_overweight {x : α} (hx : b < w x) (q p : List α) : ∀ (cur : List α) (size : Nat),
    fillFrom w g b cur size (p ++ x :: q) =
      fillFrom w g b cur size p ++ [x] :: greedy w g b q := by
  have hq : fillFrom w g b [x] (w x) q = [x] :: greedy w g b q := by
    cases q with
    | nil => rfl
    | cons a q =>
      have ha : b < w x + (w a + g) := by omega
      simp only [fillFrom, if_pos ha, greedy]
  induction p with
  | nil =>
    intro cur size
    have ha : b < size + (w x + g) := by omega
    simp only [List.nil_append, fillFrom, if_pos ha, hq, List.singleton_append]
  | cons a p ih =>
    intro cur size
    simp only [List.cons_append, fillFrom]
    split
    · rw [ih, List.cons_append]
    · exact ih _ _

/-- **An overweight item is a segment of its own**, wherever it stands. -/
theorem greedy_overweight {x : α} (hx : b < w x) (p q : List α) :
    greedy w g b (p ++ x :: q) = greedy w g b p ++ [x] :: greedy w g b q := by
  cases p with
  | nil =>
    cases q with
    | nil => rfl
    | cons a q =>
      have ha : b < w x + (w a + g) := by omega
      simp only [List.nil_append, greedy, fillFrom, if_pos ha]
  | cons a p => exact fillFrom_overweight hx q p [a] (w a)

/-! ## Beginnings of the list -/

/-- A list that fits is one segment. -/
theorem greedy_eq_singleton {l : List α} (hl : l ≠ []) (hb : weight w g l ≤ b) :
    greedy w g b l = [l] := by
  have hone : IsCut w g b l [l] := ⟨by simp, by simpa using hl, by simpa using Or.inl hb⟩
  have hle := greedy_length_le hone
  have hcut := greedy_isCut (w := w) (g := g) (b := b) l
  match hg : greedy w g b l with
  | [] => exact absurd ((greedy_eq_nil l).mp hg) hl
  | [s] =>
    have hf := hcut.flatten
    rw [hg] at hf
    rw [← hf]
    simp
  | _ :: _ :: _ =>
    rw [hg] at hle
    simp at hle

theorem fillFrom_head (l : List α) : ∀ (cur : List α) (size : Nat),
    ∃ t rest, fillFrom w g b cur size l = (cur ++ t) :: rest := by
  induction l with
  | nil => exact fun cur _ => ⟨[], [], by simp [fillFrom]⟩
  | cons a l ih =>
    intro cur size
    unfold fillFrom
    split
    · exact ⟨[], _, by rw [List.append_nil]⟩
    · obtain ⟨t, rest, h⟩ := ih (cur ++ [a]) (size + (w a + g))
      exact ⟨a :: t, rest, by rw [h]; simp⟩

theorem fillFrom_append (p q : List α) : ∀ (cur : List α) (size i : Nat) (s : List α),
    (fillFrom w g b cur size p)[i]? = some s →
    ∃ t, (fillFrom w g b cur size (p ++ q))[i]? = some t ∧ s <+: t := by
  induction p with
  | nil =>
    intro cur size i s h
    obtain ⟨t, rest, hq⟩ := fillFrom_head (w := w) (g := g) (b := b) q cur size
    cases i with
    | zero =>
      obtain rfl : cur = s := by simpa [fillFrom] using h
      exact ⟨cur ++ t, by simp [hq], List.prefix_append _ _⟩
    | succ i => simp [fillFrom] at h
  | cons a p ih =>
    intro cur size i s h
    rw [List.cons_append]
    unfold fillFrom at h ⊢
    split at h
    · next hover =>
      rw [if_pos hover]
      cases i with
      | zero =>
        obtain rfl : cur = s := by simpa using h
        exact ⟨cur, rfl, List.prefix_refl _⟩
      | succ i => exact ih [a] (w a) i s h
    · next hover =>
      rw [if_neg hover]
      exact ih _ _ i s h

/-- **Items added at the end only extend the last segment.** -/
theorem greedy_beginning {p l : List α} (hp : p <+: l) {i : Nat} {s : List α}
    (h : (greedy w g b p)[i]? = some s) : ∃ t, (greedy w g b l)[i]? = some t ∧ s <+: t := by
  obtain ⟨q, rfl⟩ := hp
  cases p with
  | nil => simp [greedy] at h
  | cons a p => exact fillFrom_append p q [a] (w a) i s h

theorem fillFrom_take (l : List α) : ∀ (cur : List α) (size i : Nat),
    ∃ p, p <+: l ∧ fillFrom w g b cur size p = (fillFrom w g b cur size l).take (i + 1) := by
  induction l with
  | nil => exact fun cur _ i => ⟨[], List.prefix_refl _, by simp [fillFrom]⟩
  | cons a l ih =>
    intro cur size i
    by_cases hover : b < size + (w a + g)
    · cases i with
      | zero => exact ⟨[], List.nil_prefix, by simp [fillFrom, if_pos hover]⟩
      | succ i =>
        obtain ⟨p, hp, h⟩ := ih [a] (w a) i
        refine ⟨a :: p, (List.cons_prefix_cons).mpr ⟨rfl, hp⟩, ?_⟩
        simp only [fillFrom, if_pos hover, h, List.take_succ_cons]
    · obtain ⟨p, hp, h⟩ := ih (cur ++ [a]) (size + (w a + g)) i
      refine ⟨a :: p, (List.cons_prefix_cons).mpr ⟨rfl, hp⟩, ?_⟩
      simp only [fillFrom, if_neg hover, h]

/-- The first segments are the greedy segments of a beginning of the list. -/
theorem greedy_take {l : List α} (hl : l ≠ []) (i : Nat) :
    ∃ p, p <+: l ∧ p ≠ [] ∧ greedy w g b p = (greedy w g b l).take (i + 1) := by
  cases l with
  | nil => exact absurd rfl hl
  | cons a l =>
    obtain ⟨p, hp, h⟩ := fillFrom_take (w := w) (g := g) (b := b) l [a] (w a) i
    exact ⟨a :: p, (List.cons_prefix_cons).mpr ⟨rfl, hp⟩, by simp, h⟩

/-- Segments that grow cover no fewer items. -/
theorem flatten_length_le (A : List (List α)) : ∀ (B : List (List α)),
    (∀ (i : Nat) (s : List α), A[i]? = some s → ∃ t, B[i]? = some t ∧ s <+: t) →
    A.flatten.length ≤ B.flatten.length := by
  induction A with
  | nil => simp
  | cons s A ih =>
    intro B h
    obtain ⟨t, ht, hst⟩ := h 0 s rfl
    cases B with
    | nil => simp at ht
    | cons t' B =>
      obtain rfl : t' = t := by simpa using ht
      have h1 := hst.length_le
      have h2 := ih B fun i s' hs => h (i + 1) s' hs
      simp only [List.flatten_cons, List.length_append]
      omega

/-- **Greedy stays ahead.**  The last segment of a cut that has no more segments
contains the last greedy one. -/
theorem last_greedy_suffix {l seg last : List α} {pre segs : List (List α)}
    (hg : greedy w g b l = pre ++ [seg]) (h : IsCut w g b l (segs ++ [last]))
    (hlen : segs.length ≤ pre.length) : seg <:+ last := by
  have hcut := greedy_isCut (w := w) (g := g) (b := b) l
  rw [hg] at hcut
  have hf : segs.flatten ++ last = pre.flatten ++ seg := by
    have h1 := h.flatten
    have h2 := hcut.flatten
    rw [List.flatten_append, List.flatten_singleton] at h1 h2
    rw [h1, h2]
  rcases List.append_eq_append_iff.mp hf with ⟨d, -, hd⟩ | ⟨d, hd, -⟩
  · exact ⟨d, hd.symm⟩
  -- otherwise `segs` covers the items before `seg` and some more
  rcases eq_or_ne d [] with rfl | hne
  · rw [List.append_nil] at hd
    rw [hd] at hf
    obtain rfl := List.append_cancel_left hf
    exact List.suffix_refl _
  exfalso
  have hbegin : segs.flatten <+: l := ⟨last, by simpa using h.flatten⟩
  have hsegs : IsCut w g b segs.flatten segs :=
    ⟨rfl, fun s hs => h.ne_nil s (by simp [hs]), fun s hs => h.fits s (by simp [hs])⟩
  have hshort := greedy_length_le hsegs
  have hle := flatten_length_le (greedy w g b segs.flatten) pre fun i s hs => by
    obtain ⟨t, ht, hst⟩ := greedy_beginning hbegin hs
    have hi := (List.getElem?_eq_some_iff.mp hs).1
    rw [hg, List.getElem?_append_left (by omega)] at ht
    exact ⟨t, ht, hst⟩
  rw [(greedy_isCut _).flatten, hd, List.length_append] at hle
  have := List.length_pos_iff.mpr hne
  omega

end

end GreedyCut
