import Mathlib.Logic.Function.Basic

/-!
# Named places in a list

A list that grows and whose entries change, with names for some of its places.  No two names have
the same place, so what one name does to its entry the others do not see.
-/

structure Spots (ι τ : Type) where
  items : List τ
  place : ι → Option Nat
  bound : ∀ x n, place x = some n → n < items.length
  inj : ∀ x y n, place x = some n → place y = some n → x = y

namespace Spots

variable {ι τ : Type}

/-- No names. -/
def empty (items : List τ) : Spots ι τ where
  items := items
  place _ := none
  bound := nofun
  inj := nofun

variable (s : Spots ι τ)

def get? (x : ι) : Option τ := (s.place x).bind fun n => s.items[n]?

/-- Another entry, and `x` for its place. -/
def add [DecidableEq ι] (x : ι) (t : τ) : Spots ι τ where
  items := s.items ++ [t]
  place := Function.update s.place x (some s.items.length)
  bound y n h := by
    rw [List.length_append, List.length_singleton]
    by_cases hy : y = x
    · subst hy
      rw [Function.update_self, Option.some.injEq] at h
      omega
    · rw [Function.update_of_ne hy] at h
      exact Nat.lt_succ_of_lt (s.bound y n h)
  inj y z n hy hz := by
    have hnew : ∀ y, s.place y ≠ some s.items.length :=
      fun y h => absurd (s.bound y _ h) (Nat.lt_irrefl _)
    by_cases hyx : y = x
    · by_cases hzx : z = x
      · exact hyx.trans hzx.symm
      · rw [hyx, Function.update_self] at hy
        rw [Function.update_of_ne hzx, ← hy] at hz
        exact absurd hz (hnew z)
    · rw [Function.update_of_ne hyx] at hy
      by_cases hzx : z = x
      · rw [hzx, Function.update_self] at hz
        rw [← hz] at hy
        exact absurd hy (hnew y)
      · rw [Function.update_of_ne hzx] at hz
        exact s.inj y z n hy hz

/-- The entry at `n` changes. -/
def set (n : Nat) (t : τ) : Spots ι τ where
  items := s.items.set n t
  place := s.place
  bound x m h := by
    rw [List.length_set]
    exact s.bound x m h
  inj := s.inj

variable {s} {x y : ι} {n : Nat} {t : τ}

theorem get?_eq_some : s.get? x = some t ↔ ∃ n, s.place x = some n ∧ s.items[n]? = some t :=
  Option.bind_eq_some_iff

@[simp] theorem get?_empty (items : List τ) : (empty items : Spots ι τ).get? x = none := rfl

@[simp] theorem get?_add_self [DecidableEq ι] : (s.add x t).get? x = some t := by
  simp [get?, add]

theorem get?_add_of_ne [DecidableEq ι] (h : y ≠ x) : (s.add x t).get? y = s.get? y := by
  have hplace : (s.add x t).place y = s.place y := Function.update_of_ne h ..
  unfold get?
  rw [hplace]
  cases hy : s.place y with
  | none => rfl
  | some m => exact List.getElem?_append_left (s.bound y m hy)

theorem get?_set_self (h : s.place x = some n) : (s.set n t).get? x = some t := by
  simp [get?, set, h, s.bound x n h]

theorem get?_set_of_ne (hx : s.place x = some n) (h : y ≠ x) : (s.set n t).get? y = s.get? y := by
  unfold get? set
  cases hy : s.place y with
  | none => rfl
  | some m =>
    have hmn : n ≠ m := fun hnm => h (s.inj y x n (hnm ▸ hy) hx)
    exact List.getElem?_set_ne hmn

end Spots
