import Mathlib.Order.WellFounded
import MeshcoreBbs.Lib.Machine

/-!
# Infinite executions

What comes about in the long run.  In an `Execution` the machine takes step after step without
end; `WeaklyFair p` says that actions with `p` are not passed over for ever while they are
possible.

A measure in a well-founded order that no step raises is constant in the end (`settles`), so the actions that lower it
come to an end (`stops`).  If such actions go on as long as the goal is not reached, it is
reached (`reaches`).
-/

namespace Machine

variable {σ α : Type} {step : σ → α → Option σ}

structure Execution (step : σ → α → Option σ) where
  state : Nat → σ
  act : Nat → α
  next : ∀ n, step (state n) (act n) = some (state (n + 1))

/-- Some action with `p` can happen. -/
def Enabled (step : σ → α → Option σ) (p : α → Prop) (s : σ) : Prop :=
  ∃ a, p a ∧ (step s a).isSome

namespace Execution

variable (e : Execution step) {P : σ → Prop} {p : α → Prop} {m : Nat}

def WeaklyFair (p : α → Prop) : Prop :=
  ∀ n, (∀ m, n ≤ m → Enabled step p (e.state m)) → ∃ m, n ≤ m ∧ p (e.act m)

/-- Actions with `p` go on for ever. -/
def InfinitelyOften (p : α → Prop) : Prop := ∀ n, ∃ m, n ≤ m ∧ p (e.act m)

variable {e}

/-- What holds at some point and is kept by the later steps holds from then on. -/
theorem always (h : P (e.state m)) (hkeep : ∀ n, m ≤ n → P (e.state n) → P (e.state (n + 1)))
    {n : Nat} (hn : m ≤ n) : P (e.state n) := by
  induction n, hn using Nat.le_induction with
  | base => exact h
  | succ n hn ih => exact hkeep n hn ih

section Measure

variable {β : Type*} {r : β → β → Prop} {μ : σ → β}

/-- A measure that each step from `m` on keeps or lowers is constant in the end. -/
theorem settles (hr : WellFounded r)
    (h : ∀ n, m ≤ n → μ (e.state (n + 1)) = μ (e.state n) ∨ r (μ (e.state (n + 1))) (μ (e.state n))) :
    ∃ k, m ≤ k ∧ ∀ n, k ≤ n → μ (e.state (n + 1)) = μ (e.state n) := by
  -- a least value from `m` on, and where it is taken
  obtain ⟨k, hk, hmin⟩ : ∃ k, m ≤ k ∧ ∀ n, m ≤ n → ¬ r (μ (e.state n)) (μ (e.state k)) := by
    have hne : (Set.image (fun n => μ (e.state n)) {n | m ≤ n}).Nonempty := ⟨_, m, Nat.le_refl m, rfl⟩
    obtain ⟨v, ⟨k, hk, rfl⟩, hv⟩ := hr.has_min _ hne
    exact ⟨k, hk, fun n hn => hv _ ⟨n, hn, rfl⟩⟩
  have hconst : ∀ n, k ≤ n → μ (e.state n) = μ (e.state k) := by
    intro n hn
    refine e.always (P := fun s => μ s = μ (e.state k)) rfl (fun n hn ih => ?_) hn
    rcases h n (hk.trans hn) with heq | hlt
    · exact heq.trans ih
    · exact absurd (ih ▸ hlt) (hmin (n + 1) (by omega))
  exact ⟨k, hk, fun n hn => (hconst (n + 1) (Nat.le_succ_of_le hn)).trans (hconst n hn).symm⟩

/-- The steps that lower a measure which none raises come to an end. -/
theorem stops (hr : WellFounded r)
    (h : ∀ n, m ≤ n → μ (e.state (n + 1)) = μ (e.state n) ∨ r (μ (e.state (n + 1))) (μ (e.state n)))
    {q : Nat → Prop} (hlower : ∀ n, m ≤ n → q n → r (μ (e.state (n + 1))) (μ (e.state n))) :
    ∃ k, m ≤ k ∧ ∀ n, k ≤ n → ¬ q n := by
  obtain ⟨k, hk, hconst⟩ := settles hr h
  refine ⟨k, hk, fun n hn hq => ?_⟩
  have hlt := hlower n (hk.trans hn) hq
  rw [hconst n hn] at hlt
  exact hr.irrefl.irrefl _ hlt

/-- A goal is reached if, until then, no step raises the measure and the actions that go on for
ever lower it. -/
theorem reaches (hr : WellFounded r) {g : σ → Prop} (hgo : e.InfinitelyOften p)
    (hle : ∀ n, m ≤ n → ¬ g (e.state n) →
      μ (e.state (n + 1)) = μ (e.state n) ∨ r (μ (e.state (n + 1))) (μ (e.state n)))
    (hlt : ∀ n, m ≤ n → ¬ g (e.state n) → p (e.act n) → r (μ (e.state (n + 1))) (μ (e.state n))) :
    ∃ n, m ≤ n ∧ g (e.state n) := by
  by_contra hnever
  have hnot : ∀ n, m ≤ n → ¬ g (e.state n) := fun n hn hg => hnever ⟨n, hn, hg⟩
  obtain ⟨k, hk, hstop⟩ := stops hr (fun n hn => hle n hn (hnot n hn))
    fun n hn => hlt n hn (hnot n hn)
  obtain ⟨n, hn, hp⟩ := hgo k
  exact hstop n hn hp

/-- A goal is reached if, until then, no step raises the measure and weakly fair actions that lower
it are possible. -/
theorem WeaklyFair.reaches (hr : WellFounded r) {g : σ → Prop} (hfair : e.WeaklyFair p)
    (henabled : ∀ n, m ≤ n → ¬ g (e.state n) → Enabled step p (e.state n))
    (hle : ∀ n, m ≤ n → ¬ g (e.state n) →
      μ (e.state (n + 1)) = μ (e.state n) ∨ r (μ (e.state (n + 1))) (μ (e.state n)))
    (hlt : ∀ n, m ≤ n → ¬ g (e.state n) → p (e.act n) → r (μ (e.state (n + 1))) (μ (e.state n))) :
    ∃ n, m ≤ n ∧ g (e.state n) := by
  by_contra hnever
  have hnot : ∀ n, m ≤ n → ¬ g (e.state n) := fun n hn hg => hnever ⟨n, hn, hg⟩
  obtain ⟨k, hk, hstop⟩ := stops hr (fun n hn => hle n hn (hnot n hn))
    fun n hn => hlt n hn (hnot n hn)
  obtain ⟨n, hn, hp⟩ := hfair k fun n hn => henabled n (hk.trans hn) (hnot n (hk.trans hn))
  exact hstop n hn hp

end Measure

/-- Weakly fair actions go on for ever if, whenever they pause, they become possible for good. -/
theorem WeaklyFair.infinitelyOften (h : e.WeaklyFair p)
    (henabled : ∀ n, (∀ m, n ≤ m → ¬ p (e.act m)) →
      ∃ k, n ≤ k ∧ ∀ m, k ≤ m → Enabled step p (e.state m)) : e.InfinitelyOften p := by
  intro n
  by_contra hnever
  have hnot : ∀ m, n ≤ m → ¬ p (e.act m) := fun m hm hp => hnever ⟨m, hm, hp⟩
  obtain ⟨k, hk, hall⟩ := henabled n hnot
  obtain ⟨m, hm, hp⟩ := h k hall
  exact hnot m (Nat.le_trans hk hm) hp

variable (step) in
/-- An execution from a strategy that can always go on. -/
theorem exists_of_strategy {I : Nat → σ → Prop} {R : Nat → σ → α → Prop} {s : σ} (h0 : I 0 s)
    (hgo : ∀ n s, I n s → ∃ a s', R n s a ∧ step s a = some s' ∧ I (n + 1) s') :
    ∃ e : Execution step, e.state 0 = s ∧ (∀ n, I n (e.state n)) ∧ ∀ n, R n (e.state n) (e.act n) := by
  obtain ⟨a₀, -⟩ := hgo 0 s h0
  have : Nonempty α := ⟨a₀⟩
  have : Nonempty σ := ⟨s⟩
  choose! a s' hok hs hi using hgo
  let st : Nat → σ := fun n => Nat.rec s (fun n t => s' n t) n
  have hinv : ∀ n, I n (st n) := by
    intro n
    induction n with
    | zero => exact h0
    | succ n ih => exact hi n (st n) ih
  exact ⟨⟨st, fun n => a n (st n), fun n => hs n (st n) (hinv n)⟩, rfl, hinv,
    fun n => hok n (st n) (hinv n)⟩

end Execution

end Machine
