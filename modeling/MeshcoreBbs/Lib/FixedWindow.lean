import Mathlib.Algebra.Order.Monoid.Unbundled.Basic
import Mathlib.Algebra.Order.Group.Int
import Mathlib.Data.List.Count
import Mathlib.Tactic.Abel

/-!
# Fixed windows

A counter lets at most `limit` events through in a window of length `W`, which opens at the
first event after the window before it has ended.  `Windowed` says what the events let through
have in common, and `Windowed.countP_interval` what follows for any interval of length `W`:

    at most L events in a window   ⇒   at most 2 L - 1 events in an interval

The window that an interval begins in was opened before it, by an event outside of it.
`Tracks.step` says that the counter keeps its events `Windowed`, whatever limit of at most `L`
each of them is given.  `counted` is the rule the counter stands for: an event is let through
when fewer than `limit` events were, in the window that is open.  `step_iff_counted` says when
the counter keeps to it.
-/

namespace FixedWindow

variable {τ : Type} [AddCommGroup τ] [LinearOrder τ]

/-- An event that was let through, in the window opened at `start`. -/
structure Admitted (τ : Type) where
  time : τ
  start : τ

/-! ## Events let through -/

structure Windowed (W : τ) (L : ℕ) (A : List (Admitted τ)) : Prop where
  within : ∀ e ∈ A, e.start ≤ e.time ∧ e.time < e.start + W
  apart : ∀ e ∈ A, ∀ e' ∈ A, e.start < e'.start → e.start + W ≤ e'.start
  opened : ∀ e ∈ A, ∃ o ∈ A, o.start = e.start ∧ o.time = o.start
  bounded : ∀ b, A.countP (fun e => e.start = b) ≤ L

section Interval

variable {W s : τ} {L : ℕ} {A : List (Admitted τ)}

/-- Events of an interval whose windows had opened before it. -/
def early (s W : τ) (e : Admitted τ) : Prop := (s ≤ e.time ∧ e.time < s + W) ∧ e.start < s

/-- Events of an interval whose windows open in it. -/
def late (s W : τ) (e : Admitted τ) : Prop := (s ≤ e.time ∧ e.time < s + W) ∧ s ≤ e.start

instance : DecidablePred (early s W) := fun _ => inferInstanceAs (Decidable (_ ∧ _))

instance : DecidablePred (late s W) := fun _ => inferInstanceAs (Decidable (_ ∧ _))

theorem Windowed.early_start (h : Windowed W L A) {e e' : Admitted τ} (he : e ∈ A) (he' : e' ∈ A)
    (hs : early s W e) (hs' : early s W e') : e.start = e'.start := by
  have key : ∀ e ∈ A, ∀ e' ∈ A, early s W e → early s W e' → ¬ e.start < e'.start := by
    intro e he e' he' hs hs' hlt
    have hend : e.start + W ≤ e'.start := h.apart e he e' he' hlt
    have : e.time < e.time :=
      calc e.time < e.start + W := (h.within e he).2
        _ ≤ e'.start := hend
        _ < s := hs'.2
        _ ≤ e.time := hs.1.1
    exact lt_irrefl _ this
  exact le_antisymm (not_lt.mp (key e' he' e he hs' hs)) (not_lt.mp (key e he e' he' hs hs'))

/-- The event that opened the window is not in the interval. -/
theorem Windowed.countP_early (h : Windowed W L A) (s : τ) :
    A.countP (fun e => early s W e) = 0 ∨ A.countP (fun e => early s W e) + 1 ≤ L := by
  rcases Nat.eq_zero_or_pos (A.countP fun e => early s W e) with hzero | hpos
  · exact .inl hzero
  · right
    obtain ⟨e, he, hs⟩ := List.countP_pos_iff.mp hpos
    replace hs := of_decide_eq_true hs
    obtain ⟨o, ho, hstart, htime⟩ := h.opened e he
    have hsame : A.countP (fun e => early s W e) ≤
        (A.filter fun e => early s W e).countP fun e' => e'.start = e.start := by
      rw [List.countP_filter]
      refine List.countP_mono_left fun e' he' hs' => ?_
      have := h.early_start he' he (of_decide_eq_true hs') hs
      simpa [this] using hs'
    have hopener : 0 < (A.filter fun e => ¬ early s W e).countP fun e' => e'.start = e.start := by
      refine List.countP_pos_iff.mpr ⟨o, List.mem_filter.mpr ⟨ho, ?_⟩, by simpa using hstart⟩
      have : o.time < s := by
        rw [htime, hstart]
        exact hs.2
      have hout : ¬ early s W o := fun ho => not_le_of_gt this ho.1.1
      simpa using hout
    have hsplit := List.countP_eq_countP_filter_add A
      (fun e' => e'.start = e.start) (fun e => early s W e)
    have := h.bounded e.start
    simp only [decide_not] at hopener hsplit
    omega

variable [IsOrderedAddMonoid τ]

theorem Windowed.late_start (h : Windowed W L A) {e e' : Admitted τ} (he : e ∈ A) (he' : e' ∈ A)
    (hs : late s W e) (hs' : late s W e') : e.start = e'.start := by
  have key : ∀ e ∈ A, ∀ e' ∈ A, late s W e → late s W e' → ¬ e.start < e'.start := by
    intro e he e' he' hs hs' hlt
    have hend : e.start + W ≤ e'.start := h.apart e he e' he' hlt
    have : e'.time < e'.time :=
      calc e'.time < s + W := hs'.1.2
        _ ≤ e.start + W := by gcongr; exact hs.2
        _ ≤ e'.start := hend
        _ ≤ e'.time := (h.within e' he').1
    exact lt_irrefl _ this
  exact le_antisymm (not_lt.mp (key e' he' e he hs' hs)) (not_lt.mp (key e he e' he' hs hs'))

theorem Windowed.countP_late (h : Windowed W L A) (s : τ) : A.countP (fun e => late s W e) ≤ L := by
  rcases Nat.eq_zero_or_pos (A.countP fun e => late s W e) with hzero | hpos
  · omega
  · obtain ⟨e, he, hs⟩ := List.countP_pos_iff.mp hpos
    refine le_trans (List.countP_mono_left fun e' he' hs' => ?_) (h.bounded e.start)
    exact decide_eq_true (h.late_start he' he (of_decide_eq_true hs') (of_decide_eq_true hs))

/-- **Events let through in an interval of the length of a window.** -/
theorem Windowed.countP_interval (h : Windowed W L A) (s : τ) :
    A.countP (fun e => s ≤ e.time ∧ e.time < s + W) ≤ 2 * L - 1 := by
  have hsplit := List.countP_eq_countP_filter_add A
    (fun e => s ≤ e.time ∧ e.time < s + W) (fun e => e.start < s)
  rw [List.countP_filter, List.countP_filter] at hsplit
  have hfirst : A.countP (fun e => decide (s ≤ e.time ∧ e.time < s + W) && decide (e.start < s)) =
      A.countP fun e => early s W e :=
    List.countP_congr fun e _ => by rw [Bool.and_eq_true, decide_eq_true_iff,
      decide_eq_true_iff, decide_eq_true_iff, early]
  have hsecond : A.countP (fun e => decide (s ≤ e.time ∧ e.time < s + W) &&
      !decide (e.start < s)) = A.countP fun e => late s W e :=
    List.countP_congr fun e _ => by rw [Bool.and_eq_true, Bool.not_eq_true',
      decide_eq_false_iff_not, decide_eq_true_iff, decide_eq_true_iff, late, not_lt]
  have hearly := h.countP_early s
  have hlate := h.countP_late s
  omega

end Interval

/-! ## The counter -/

/-- A window and the number of its events. -/
structure Window (τ : Type) where
  start : τ
  count : ℤ

/-- Whether an event at `t` is let through, and the window after it. -/
def step (W : τ) (limit : ℤ) (t : τ) : Option (Window τ) → Bool × Window τ
  | none => (true, ⟨t, 1⟩)
  | some w =>
    if w.start + W ≤ t then (true, ⟨t, 1⟩)
    else if limit < w.count + 1 then (false, w)
    else (true, ⟨w.start, w.count + 1⟩)

/-- The counter at `now` and the events that it has let through. -/
structure Tracks (W : τ) (L : ℕ) (now : τ) (current : Option (Window τ))
    (A : List (Admitted τ)) : Prop where
  windowed : Windowed W L A
  started : ∀ w ∈ current, w.start ≤ now
  counted : ∀ w ∈ current, 1 ≤ w.count ∧ w.count = A.countP fun e => e.start = w.start
  ended : ∀ e ∈ A, ∃ w ∈ current, e.start = w.start ∨ e.start + W ≤ w.start

section Counter

variable {W now t : τ} {L : ℕ} {current : Option (Window τ)} {A : List (Admitted τ)}

theorem Tracks.init (W now : τ) (L : ℕ) : Tracks W L now none [] where
  windowed := ⟨by simp, by simp, by simp, by simp⟩
  started := by simp
  counted := by simp
  ended := by simp

theorem Tracks.wait (h : Tracks W L now current A) (ht : now ≤ t) : Tracks W L t current A :=
  { h with started := fun w hw => (h.started w hw).trans ht }

variable [IsOrderedAddMonoid τ]

/-- A further event, in the last window. -/
theorem Windowed.cons (h : Windowed W L A) (hW : 0 < W) {b : τ} (hb : b ≤ t) (ht : t < b + W)
    (hold : ∀ e ∈ A, e.start = b ∨ e.start + W ≤ b)
    (hopen : t = b ∨ ∃ e ∈ A, e.start = b)
    (hroom : A.countP (fun e => e.start = b) + 1 ≤ L) :
    Windowed W L (⟨t, b⟩ :: A) := by
  have hle : ∀ e ∈ A, e.start ≤ b := by
    intro e he
    rcases hold e he with hsame | hended
    · exact hsame.le
    · exact (le_add_of_nonneg_right hW.le).trans hended
  refine ⟨?_, ?_, ?_, ?_⟩
  · intro e he
    rcases List.mem_cons.mp he with rfl | he
    · exact ⟨hb, ht⟩
    · exact h.within e he
  · intro e he e' he' hs
    rcases List.mem_cons.mp he with rfl | he <;> rcases List.mem_cons.mp he' with rfl | he'
    · exact absurd hs (lt_irrefl _)
    · exact absurd hs (hle e' he').not_gt
    · exact (hold e he).resolve_left hs.ne
    · exact h.apart e he e' he' hs
  · intro e he
    have hold : (∃ e' ∈ A, e'.start = e.start) → ∃ o ∈ ⟨t, b⟩ :: A, o.start = e.start ∧
        o.time = o.start := by
      rintro ⟨e', he', hsame⟩
      obtain ⟨o, ho, hstart, htime⟩ := h.opened e' he'
      exact ⟨o, List.mem_cons_of_mem _ ho, hstart.trans hsame, htime⟩
    rcases List.mem_cons.mp he with rfl | he
    · rcases hopen with hopen | hopen
      · exact ⟨_, List.mem_cons_self, rfl, hopen⟩
      · exact hold hopen
    · exact hold ⟨e, he, rfl⟩
  · intro b'
    rw [List.countP_cons]
    by_cases hb' : b = b'
    · subst hb'
      simpa using hroom
    · simpa [hb'] using h.bounded b'

/-- The first event of a window. -/
theorem Tracks.fresh (h : Tracks W L now current A) (hW : 0 < W) (hL : 1 ≤ L)
    (hover : ∀ w ∈ current, w.start + W ≤ t) :
    Tracks W L t (some ⟨t, 1⟩) (⟨t, t⟩ :: A) := by
  have hbefore : ∀ e ∈ A, e.start + W ≤ t := by
    intro e he
    obtain ⟨w, hw, hsame | hended⟩ := h.ended e he
    · rw [hsame]
      exact hover w hw
    · exact hended.trans ((le_add_of_nonneg_right hW.le).trans (hover w hw))
  have hnone : A.countP (fun e => e.start = t) = 0 := by
    refine List.countP_eq_zero.mpr fun e he => ?_
    simpa using ((lt_add_of_pos_right _ hW).trans_le (hbefore e he)).ne
  refine ⟨h.windowed.cons hW (le_refl t) (lt_add_of_pos_right _ hW)
    (fun e he => .inr (hbefore e he)) (.inl rfl) (by omega), by simp, by simp [hnone], ?_⟩
  intro e he
  rcases List.mem_cons.mp he with rfl | he
  · exact ⟨_, rfl, .inl rfl⟩
  · exact ⟨_, rfl, .inr (hbefore e he)⟩

/-- A further event of a window. -/
theorem Tracks.more {w : Window τ} (h : Tracks W L now (some w) A) (hW : 0 < W) (ht : now ≤ t)
    (hin : t < w.start + W) (hroom : w.count + 1 ≤ L) :
    Tracks W L t (some ⟨w.start, w.count + 1⟩) (⟨t, w.start⟩ :: A) := by
  have hstart : w.start ≤ t := (h.started w rfl).trans ht
  obtain ⟨hpos, hcount⟩ := h.counted w rfl
  have hold : ∀ e ∈ A, e.start = w.start ∨ e.start + W ≤ w.start := by
    intro e he
    obtain ⟨w', hw', hor⟩ := h.ended e he
    cases hw'
    exact hor
  have hsome : ∃ e ∈ A, e.start = w.start := by
    have : 0 < A.countP fun e => e.start = w.start := by omega
    simpa using List.countP_pos_iff.mp this
  refine ⟨h.windowed.cons hW hstart hin hold (.inr hsome) (by omega), by simpa using hstart, ?_, ?_⟩
  · rintro _ ⟨⟩
    rw [List.countP_cons_of_pos (by simp)]
    push_cast
    omega
  · intro e he
    refine ⟨_, rfl, ?_⟩
    rcases List.mem_cons.mp he with rfl | he
    · exact .inl rfl
    · exact hold e he

/-- **The counter keeps its events windowed.** -/
theorem Tracks.step (h : Tracks W L now current A) (hW : 0 < W) (ht : now ≤ t) {limit : ℤ}
    (hlow : 1 ≤ limit) (hhigh : limit ≤ L) :
    Tracks W L t (some (step W limit t current).2)
      (if (FixedWindow.step W limit t current).1 then
        ⟨t, (FixedWindow.step W limit t current).2.start⟩ :: A else A) := by
  have hL : 1 ≤ L := by omega
  cases current with
  | none => exact h.fresh hW hL (by simp)
  | some w =>
    simp only [FixedWindow.step]
    split
    · next hover =>
      refine h.fresh hW hL fun w' hw' => ?_
      cases hw'
      exact hover
    · next hover =>
      split
      · exact h.wait ht
      · next hroom => exact h.more hW ht (not_le.mp hover) (by omega)

end Counter

/-! ## The counting rule -/

/-- The window of the last event let through, by the times of all of them, latest first. -/
def lastWindow (W : τ) : List τ → Option (Window τ)
  | [] => none
  | t :: earlier =>
    match lastWindow W earlier with
    | none => some ⟨t, 1⟩
    | some w => if w.start + W ≤ t then some ⟨t, 1⟩ else some ⟨w.start, w.count + 1⟩

/-- A window that has not ended at `t`. -/
def Open (W t : τ) (current : Option (Window τ)) : Prop := ∃ w ∈ current, t < w.start + W

/-- The events let through in the window that is open at `t`. -/
def counted (W t : τ) : Option (Window τ) → ℤ
  | none => 0
  | some w => if w.start + W ≤ t then 0 else w.count

section Rule

variable {W t : τ} {limit : ℤ} {current : Option (Window τ)} {times : List τ}

theorem counted_of_not_open (h : ¬ Open W t current) : counted W t current = 0 := by
  cases current with
  | none => rfl
  | some w =>
    have hended : w.start + W ≤ t := not_lt.mp fun hlt => h ⟨w, rfl, hlt⟩
    rw [counted, if_pos hended]

theorem step_of_not_open (h : ¬ Open W t current) :
    FixedWindow.step W limit t current = (true, ⟨t, 1⟩) := by
  cases current with
  | none => rfl
  | some w =>
    have hended : w.start + W ≤ t := not_lt.mp fun hlt => h ⟨w, rfl, hlt⟩
    rw [FixedWindow.step, if_pos hended]

theorem step_of_open (h : Open W t current) :
    (FixedWindow.step W limit t current).1 = true ↔ counted W t current < limit := by
  obtain ⟨w, hw, hlt⟩ := h
  cases hw
  rw [FixedWindow.step, counted, if_neg hlt.not_ge, if_neg hlt.not_ge]
  split
  · next hover =>
    constructor
    · intro h
      cases h
    · intro h
      omega
  · next hroom =>
    constructor
    · intro _
      omega
    · intro _
      rfl

/-- The counter decides by the count, apart from an event that opens a window: that one it lets
through under any limit. -/
theorem step_iff_counted :
    ((FixedWindow.step W limit t current).1 = true ↔ counted W t current < limit) ↔
      Open W t current ∨ 0 < limit := by
  by_cases hopen : Open W t current
  · constructor
    · intro _
      exact .inl hopen
    · intro _
      exact step_of_open hopen
  · rw [counted_of_not_open hopen, step_of_not_open hopen]
    constructor
    · intro h
      exact .inr (h.mp rfl)
    · intro h
      have hlimit : 0 < limit := h.resolve_left hopen
      exact ⟨fun _ => hlimit, fun _ => rfl⟩

/-- The counter stores the window of the events that it has let through. -/
theorem step_lastWindow (limit : ℤ) (t : τ) (h : current = lastWindow W times) :
    some (FixedWindow.step W limit t current).2 =
      lastWindow W (if (FixedWindow.step W limit t current).1 then t :: times else times) := by
  cases current with
  | none =>
    rw [FixedWindow.step, if_pos rfl, lastWindow, ← h]
  | some w =>
    rw [FixedWindow.step]
    split
    · next hended =>
      rw [if_pos rfl, lastWindow, ← h]
      exact (if_pos hended).symm
    · next hended =>
      split
      · rw [if_neg Bool.false_ne_true, ← h]
      · rw [if_pos rfl, lastWindow, ← h]
        exact (if_neg hended).symm

end Rule

end FixedWindow
