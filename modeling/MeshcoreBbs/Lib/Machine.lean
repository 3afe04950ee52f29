import Mathlib.Logic.Basic

/-!
# Runs of a machine

`step s a` is the state after the action `a`, or `none` when `a` cannot happen
in `s`.  `Run step ok s t` is a run from `s` to `t` whose every action met the
condition `ok` in the state before it; `fun _ _ => True` gives all runs.

An invariant is proved once for a step and then holds along a run (`Run.invariant`).
`logged` adds a log of the steps.  `Justified P` says of a recorded history, latest event
first, that each event satisfied `P` against what had happened before it.
-/

namespace Machine

variable {σ α : Type} {step : σ → α → Option σ}

inductive Run (step : σ → α → Option σ) (ok : σ → α → Prop) (s : σ) : σ → Prop
  | refl : Run step ok s s
  | tail {t u : σ} {a : α} : Run step ok s t → ok t a → step t a = some u → Run step ok s u

/-- Run a list of actions, checking the condition before each. -/
def exec (step : σ → α → Option σ) (ok : σ → α → Bool) : σ → List α → Option σ
  | s, [] => some s
  | s, a :: as => if ok s a then (step s a).bind fun t => exec step ok t as else none

/-- What every step preserves holds along the run. -/
theorem Run.invariant {ok : σ → α → Prop} {P : σ → Prop} {s t : σ} (h : Run step ok s t)
    (hstep : ∀ s a t, P s → ok s a → step s a = some t → P t) (h0 : P s) : P t := by
  induction h with
  | refl => exact h0
  | tail _ hok hs ih => exact hstep _ _ _ ih hok hs

theorem Run.trans {ok : σ → α → Prop} {s t u : σ} (h : Run step ok s t) (h' : Run step ok t u) :
    Run step ok s u := by
  induction h' with
  | refl => exact h
  | tail _ hok hs ih => exact .tail ih hok hs

theorem Run.mono {ok ok' : σ → α → Prop} (himp : ∀ s a, ok s a → ok' s a) {s t : σ}
    (h : Run step ok s t) : Run step ok' s t := by
  induction h with
  | refl => exact .refl
  | tail _ hok hs ih => exact .tail ih (himp _ _ hok) hs

/-- Executed actions form a run. -/
theorem Run.of_exec {ok : σ → α → Bool} {s t : σ} {as : List α} (h : exec step ok s as = some t) :
    Run step (fun s a => ok s a = true) s t := by
  induction as generalizing s with
  | nil =>
    rw [exec, Option.some.injEq] at h
    exact h ▸ .refl
  | cons a as ih =>
    rw [exec] at h
    split at h
    · next hok =>
      rw [Option.bind_eq_some_iff] at h
      obtain ⟨u, hu, h⟩ := h
      have hfirst : Run step (fun s a => ok s a = true) s u := .tail .refl hok hu
      exact hfirst.trans (ih h)
    · cases h

/-- A run found by execution that ends in a state with the property `p`. -/
theorem exists_run (step : σ → α → Option σ) (ok : σ → α → Bool) {p : σ → Bool} {s : σ}
    (as : List α)
    (h : (exec step ok s as).any p = true) :
    ∃ t, Run step (fun s a => ok s a = true) s t ∧ p t = true := by
  rw [Option.any_eq_true] at h
  obtain ⟨t, ht, hp⟩ := h
  exact ⟨t, .of_exec ht, hp⟩

/-! ## Logs -/

section Log

variable {β : Type} (step) (entry : σ → α → Option β)

/-- The machine with a log of what `entry` notes of its steps, latest first. -/
def logged (p : σ × List β) (a : α) : Option (σ × List β) :=
  (step p.1 a).map fun t => (t, (entry p.1 a).toList ++ p.2)

variable {step entry}

theorem logged_eq_some {p q : σ × List β} {a : α} (h : logged step entry p a = some q) :
    step p.1 a = some q.1 ∧ q.2 = (entry p.1 a).toList ++ p.2 := by
  obtain ⟨t, ht, rfl⟩ := Option.map_eq_some_iff.mp h
  exact ⟨ht, rfl⟩

/-- Every run can be logged. -/
theorem Run.log {ok : σ → α → Prop} {s t : σ} (h : Run step ok s t) :
    ∃ log, Run (logged step entry) (fun p a => ok p.1 a) (s, []) (t, log) := by
  induction h with
  | refl => exact ⟨[], .refl⟩
  | @tail t u a _ hok hs ih =>
    obtain ⟨log, hrun⟩ := ih
    have hlogged : logged step entry (t, log) a = some (u, (entry t a).toList ++ log) := by
      rw [logged, hs]
      rfl
    exact ⟨_, hrun.tail hok hlogged⟩

end Log

/-! ## Histories -/

variable {ε : Type}

def Justified (P : ε → List ε → Prop) : List ε → Prop
  | [] => True
  | e :: past => P e past ∧ Justified P past

theorem justified_iff {P : ε → List ε → Prop} {hist : List ε} :
    Justified P hist ↔ ∀ newer e past, hist = newer ++ e :: past → P e past := by
  induction hist with
  | nil => simp [Justified]
  | cons e hist ih =>
    rw [Justified, ih]
    constructor
    · rintro ⟨he, hpast⟩ newer e' past heq
      cases newer with
      | nil =>
        cases heq
        exact he
      | cons e'' newer => exact hpast newer e' past (List.cons.inj heq).2
    · exact fun h => ⟨h [] e hist rfl, fun newer e' past heq => h (e :: newer) e' past (by rw [heq]; rfl)⟩

/-- The entry of a kind with `n` entries of that kind before it. -/
theorem exists_nth {β : Type} {f : ε → Option β} {hist : List ε} {n : Nat}
    (h : n < (hist.filterMap f).length) : ∃ newer e past b,
      hist = newer ++ e :: past ∧ f e = some b ∧ (past.filterMap f).length = n := by
  induction hist with
  | nil => cases h
  | cons e hist ih =>
    cases he : f e with
    | none =>
      rw [List.filterMap_cons_none he] at h
      obtain ⟨newer, e', past, b, rfl, hb⟩ := ih h
      exact ⟨e :: newer, e', past, b, rfl, hb⟩
    | some b =>
      rw [List.filterMap_cons_some he, List.length_cons] at h
      by_cases hn : n = (hist.filterMap f).length
      · exact ⟨[], e, hist, b, rfl, he, hn.symm⟩
      · obtain ⟨newer, e', past, b, rfl, hb⟩ := ih (by omega)
        exact ⟨e :: newer, e', past, b, rfl, hb⟩

end Machine
