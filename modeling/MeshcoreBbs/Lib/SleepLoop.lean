import Mathlib.Algebra.Order.Field.Rat
import Mathlib.Algebra.Order.Ring.Nat
import Mathlib.Tactic.Linarith
import MeshcoreBbs.Lib.Machine

/-!
# Loops that sleep

A task that sleeps, works, and sleeps again, for a time that may depend on how its work ended.  When
its time has come it may also go back to sleep without any work (`skip`).

It never works before its time, and never again before it has slept (`Spaced`), so the number of
times that it begins in a window is bounded (`count_le`).
-/

namespace SleepLoop

inductive Phase
  | asleep (wake : ℚ)
  | busy (since : ℚ)
  deriving DecidableEq

/-- `done` are the times between which it worked, latest first. -/
structure Sleeper (ρ : Type) where
  pause : ρ
  phase : Phase
  done : List (ℚ × ℚ) := []

variable {ρ ο : Type} (next : ρ → ο → ρ) (delay : ρ → ℚ)

namespace Sleeper

variable (l : Sleeper ρ) (clock : ℚ)

def due : Bool :=
  match l.phase with
  | .asleep wake => wake ≤ clock
  | .busy _ => false

/-- The times at which it began to work, latest first. -/
def starts : List ℚ :=
  match l.phase with
  | .asleep _ => l.done.map Prod.fst
  | .busy since => since :: l.done.map Prod.fst

def sleep (o : ο) : Sleeper ρ :=
  { l with pause := next l.pause o, phase := .asleep (clock + delay (next l.pause o)) }

def begin : Option (Sleeper ρ) :=
  if l.due clock then some { l with phase := .busy clock } else none

def skip (o : ο) : Option (Sleeper ρ) :=
  if l.due clock then some (l.sleep next delay clock o) else none

def finish (o : ο) : Option (Sleeper ρ) :=
  match l.phase with
  | .asleep _ => none
  | .busy since => some { l.sleep next delay clock o with done := (since, clock) :: l.done }

inductive Step : Sleeper ρ → Prop
  | begin {wake} (hphase : l.phase = .asleep wake) (hdue : wake ≤ clock) :
      Step { l with phase := .busy clock }
  | skip {wake} (o : ο) (hphase : l.phase = .asleep wake) (hdue : wake ≤ clock) :
      Step (l.sleep next delay clock o)
  | finish {since} (o : ο) (hphase : l.phase = .busy since) :
      Step { l.sleep next delay clock o with done := (since, clock) :: l.done }

variable {next delay l clock} {l' : Sleeper ρ}

theorem due_iff : l.due clock = true ↔ ∃ wake, l.phase = .asleep wake ∧ wake ≤ clock := by
  unfold due
  split
  · next wake hphase => simp [hphase]
  · next since hphase => simp [hphase]

theorem begin_eq_some (h : l.begin clock = some l') :
    ∃ wake, l.phase = .asleep wake ∧ wake ≤ clock ∧ l' = { l with phase := .busy clock } := by
  simp only [begin] at h
  split at h
  · next hdue =>
    cases h
    obtain ⟨wake, hphase, hle⟩ := due_iff.mp hdue
    exact ⟨wake, hphase, hle, rfl⟩
  · cases h

theorem finish_eq_some {o : ο} (h : l.finish next delay clock o = some l') :
    ∃ since, l.phase = .busy since ∧
      l' = { l.sleep next delay clock o with done := (since, clock) :: l.done } := by
  simp only [finish] at h
  split at h
  · cases h
  · next since hphase =>
    cases h
    exact ⟨since, hphase, rfl⟩

theorem step_of_begin (h : l.begin clock = some l') : l.Step next delay clock l' := by
  obtain ⟨wake, hphase, hle, rfl⟩ := begin_eq_some h
  exact .begin hphase hle

theorem step_of_finish {o : ο} (h : l.finish next delay clock o = some l') :
    l.Step next delay clock l' := by
  obtain ⟨since, hphase, rfl⟩ := finish_eq_some h
  exact .finish o hphase

theorem skip_eq_some {o : ο} (h : l.skip next delay clock o = some l') :
    ∃ wake, l.phase = .asleep wake ∧ wake ≤ clock ∧ l' = l.sleep next delay clock o := by
  simp only [skip] at h
  split at h
  · next hdue =>
    cases h
    obtain ⟨wake, hphase, hle⟩ := due_iff.mp hdue
    exact ⟨wake, hphase, hle, rfl⟩
  · cases h

theorem step_of_skip {o : ο} (h : l.skip next delay clock o = some l') : l.Step next delay clock l' := by
  obtain ⟨wake, hphase, hle, rfl⟩ := skip_eq_some h
  exact .skip o hphase hle

/-! ## Times -/

/-- It worked from `first` on, with `d` between one end and the next start. -/
structure Spaced (first d clock : ℚ) (l : Sleeper ρ) : Prop where
  done : ∀ p ∈ l.done, first ≤ p.1 ∧ p.1 ≤ p.2 ∧ p.2 ≤ clock
  apart : l.done.Pairwise fun later earlier => earlier.2 + d ≤ later.1
  asleep : ∀ wake, l.phase = .asleep wake → first ≤ wake ∧ ∀ p ∈ l.done, p.2 + d ≤ wake
  busy : ∀ since, l.phase = .busy since →
    first ≤ since ∧ since ≤ clock ∧ ∀ p ∈ l.done, p.2 + d ≤ since

variable {first d : ℚ}

theorem Spaced.wait (h : l.Spaced first d clock) {t : ℚ} (ht : clock ≤ t) : l.Spaced first d t where
  done p hp := by
    obtain ⟨hfirst, hle, hclock⟩ := h.done p hp
    exact ⟨hfirst, hle, hclock.trans ht⟩
  apart := h.apart
  asleep := h.asleep
  busy since hphase := by
    obtain ⟨hfirst, hclock, hdone⟩ := h.busy since hphase
    exact ⟨hfirst, hclock.trans ht, hdone⟩

theorem Spaced.step (h : l.Spaced first d clock) (h0 : 0 ≤ d)
    (hd : ∀ o, d ≤ delay (next l.pause o)) (hs : l.Step next delay clock l') :
    l'.Spaced first d clock := by
  cases hs with
  | begin hphase hdue =>
    obtain ⟨hlow, hdone⟩ := h.asleep _ hphase
    refine ⟨h.done, h.apart, by simp, fun since hsince => ?_⟩
    cases hsince
    exact ⟨hlow.trans hdue, le_refl _, fun p hp => (hdone p hp).trans hdue⟩
  | skip o hphase hdue =>
    have hdelay := hd o
    obtain ⟨hlow, -⟩ := h.asleep _ hphase
    refine ⟨h.done, h.apart, fun wake hwake => ?_, by simp [sleep]⟩
    cases hwake
    refine ⟨by linarith, fun p hp => ?_⟩
    have := (h.done p hp).2.2
    linarith
  | @finish since o hphase =>
    have hdelay := hd o
    obtain ⟨hlow, hclock, hdone⟩ := h.busy _ hphase
    refine ⟨fun p hp => ?_, List.pairwise_cons.mpr ⟨hdone, h.apart⟩, fun wake hwake => ?_, by simp [sleep]⟩
    · rcases List.mem_cons.mp hp with rfl | hp
      · exact ⟨hlow, hclock, le_refl _⟩
      · exact h.done p hp
    · cases hwake
      refine ⟨by linarith, fun p hp => ?_⟩
      rcases List.mem_cons.mp hp with rfl | hp
      · show clock + d ≤ _
        linarith
      · have := (h.done p hp).2.2
        linarith

theorem spaced_start {pause : ρ} {wake : ℚ} (h : first ≤ wake) :
    ({ pause := pause, phase := .asleep wake } : Sleeper ρ).Spaced first d clock where
  done := by simp
  apart := .nil
  asleep t ht := by
    cases ht
    exact ⟨h, by simp⟩
  busy := by simp

/-- It began at least `d` after it had begun before. -/
theorem Spaced.starts (h : l.Spaced first d clock) :
    l.starts.Pairwise (fun later earlier => earlier + d ≤ later) ∧ ∀ t ∈ l.starts, first ≤ t := by
  have hmap : (l.done.map Prod.fst).Pairwise fun later earlier => earlier + d ≤ later := by
    refine List.pairwise_map.mpr (h.apart.imp_of_mem fun hp hq hle => ?_)
    have := (h.done _ hq).2.1
    linarith
  have hlow : ∀ t ∈ l.done.map Prod.fst, first ≤ t := by
    intro t ht
    obtain ⟨p, hp, rfl⟩ := List.mem_map.mp ht
    exact (h.done p hp).1
  unfold Sleeper.starts
  split
  · exact ⟨hmap, hlow⟩
  · next since hphase =>
    obtain ⟨hfirst, -, hdone⟩ := h.busy _ hphase
    refine ⟨List.pairwise_cons.mpr ⟨fun t ht => ?_, hmap⟩, fun t ht => ?_⟩
    · obtain ⟨p, hp, rfl⟩ := List.mem_map.mp ht
      have := hdone p hp
      have := (h.done p hp).2.1
      linarith
    · rcases List.mem_cons.mp ht with rfl | ht
      · exact hfirst
      · exact hlow t ht

end Sleeper

/-- At most `n` of times that are `d` apart are in a window of `n * d`. -/
theorem count_le {d a : ℚ} {n : Nat} {times : List ℚ}
    (h : times.Pairwise fun later earlier => earlier + d ≤ later) :
    (times.filter fun t => a ≤ t ∧ t < a + n * d).length ≤ n := by
  -- the earlier ones are in a window shorter by `d`
  have hall : ∀ (l : List ℚ) (n : Nat), l.Pairwise (fun later earlier => earlier + d ≤ later) →
      (∀ t ∈ l, a ≤ t ∧ t < a + n * d) → l.length ≤ n := by
    intro l
    induction l with
    | nil => simp
    | cons t l ih =>
      intro n hpair hin
      obtain ⟨hlater, hpair⟩ := List.pairwise_cons.mp hpair
      obtain ⟨hlow, hhigh⟩ := hin t (by simp)
      cases n with
      | zero =>
        rw [Nat.cast_zero, zero_mul] at hhigh
        linarith
      | succ n =>
        have hrest := ih n hpair fun u hu => by
          have := hlater u hu
          push_cast at hhigh
          exact ⟨(hin u (by simp [hu])).1, by linarith⟩
        simp only [List.length_cons]
        omega
  refine hall _ n (h.filter _) fun t ht => ?_
  simpa using (List.mem_filter.mp ht).2

end SleepLoop
