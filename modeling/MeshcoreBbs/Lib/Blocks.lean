import Mathlib.Data.List.TakeWhile

/-!
# Blocks of equal length

`blocks n s` reads a list in blocks of `n` and stops at what is too short for one.  It undoes
`flatten` on blocks of that length, whatever short piece follows (`blocks_flatten_append`).
-/

namespace Blocks

variable {α : Type*} {n : Nat} {s b : List α}

def blocks (n : Nat) (s : List α) : List (List α) :=
  ((List.range ((s.length + n - 1) / n)).map fun i => (s.drop (i * n)).take n).takeWhile
    fun b => n ≤ b.length

theorem blocks_short (hs : s.length < n) : blocks n s = [] := by
  unfold blocks
  cases h : (s.length + n - 1) / n with
  | zero => rfl
  | succ k =>
    rw [List.range_succ_eq_map, List.map_cons, List.takeWhile_cons_of_neg]
    simp
    omega

theorem blocks_append (hn : 0 < n) (hb : b.length = n) : blocks n (b ++ s) = b :: blocks n s := by
  have hcount : ((b ++ s).length + n - 1) / n = (s.length + n - 1) / n + 1 := by
    rw [← Nat.add_div_right _ hn, List.length_append]
    congr 1
    omega
  have hdrop : ∀ i, (b ++ s).drop ((i + 1) * n) = s.drop (i * n) := by
    intro i
    rw [List.drop_append, List.drop_of_length_le (by rw [hb, Nat.succ_mul]; omega), List.nil_append]
    congr 1
    rw [hb, Nat.succ_mul]
    omega
  unfold blocks
  rw [hcount, List.range_succ_eq_map, List.map_cons, List.map_map, List.takeWhile_cons_of_pos]
  · simp only [Function.comp_def, Nat.succ_eq_add_one, hdrop]
    simp [← hb]
  · simp [← hb]

theorem blocks_flatten_append (hn : 0 < n) {l : List (List α)} (hl : ∀ b ∈ l, b.length = n)
    (hs : s.length < n) : blocks n (l.flatten ++ s) = l := by
  induction l with
  | nil => exact blocks_short hs
  | cons b l ih =>
    rw [List.flatten_cons, List.append_assoc, blocks_append hn (hl b (by simp)),
      ih fun b hb => hl b (by simp [hb])]

end Blocks
