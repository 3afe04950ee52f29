import Mathlib.Data.List.Basic
import Mathlib.Data.List.Range

/-!
# Pages of a list

Pages are numbered from one, as their readers number them.  A reader who turns the page as long
as it is full reads the list once (`flatMap_pages`): the last page is the first one that is not
full, and may be empty.
-/

namespace Paging

variable {α : Type} {size n : ℕ} {l : List α}

/-- The `n`-th page. -/
def page (size : ℕ) (l : List α) (n : ℕ) : List α := (l.drop ((n - 1) * size)).take size

/-- The first page that is not full. -/
def lastPage (size : ℕ) (l : List α) : ℕ := l.length / size + 1

theorem page_add_one (size : ℕ) (l : List α) (n : ℕ) :
    page size l (n + 1) = (l.drop (n * size)).take size := by
  rw [page, Nat.add_sub_cancel]

theorem page_sublist (size : ℕ) (l : List α) (n : ℕ) : (page size l n).Sublist l :=
  (List.take_sublist _ _).trans (List.drop_sublist _ _)

/-- A page is full as long as the list reaches its end. -/
theorem length_page (hn : 1 ≤ n) : (page size l n).length = size ↔ n * size ≤ l.length ∨ size = 0 := by
  obtain ⟨m, rfl⟩ : ∃ m, n = m + 1 := ⟨n - 1, by omega⟩
  rw [page_add_one, List.length_take, List.length_drop, Nat.add_mul, Nat.one_mul]
  omega

theorem page_full_iff (hsize : 0 < size) (hn : 1 ≤ n) :
    (page size l n).length = size ↔ n < lastPage size l := by
  have hdiv : n ≤ l.length / size ↔ n * size ≤ l.length := Nat.le_div_iff_mul_le hsize
  rw [length_page hn, lastPage]
  omega

/-- The first pages are the beginning of the list. -/
theorem flatMap_pages_take (size : ℕ) (l : List α) (k : ℕ) :
    (List.range k).flatMap (fun i => page size l (i + 1)) = l.take (k * size) := by
  induction k with
  | zero => rw [Nat.zero_mul, List.take_zero, List.range_zero, List.flatMap_nil]
  | succ k ih =>
    rw [List.range_succ, List.flatMap_append, ih, List.flatMap_singleton, page_add_one, Nat.add_mul,
      Nat.one_mul, List.take_add]

/-- **The pages up to the last are the list.** -/
theorem flatMap_pages (hsize : 0 < size) (l : List α) :
    (List.range (lastPage size l)).flatMap (fun i => page size l (i + 1)) = l := by
  have hlt : l.length < lastPage size l * size := by
    have h := Nat.lt_div_mul_add hsize (a := l.length)
    rw [lastPage, Nat.add_mul, Nat.one_mul]
    exact h
  rw [flatMap_pages_take]
  exact List.take_of_length_le hlt.le

/-- The pages that are turned start within the list. -/
theorem offset_le (hn : n ≤ lastPage size l) : (n - 1) * size ≤ l.length := by
  have hle : n - 1 ≤ l.length / size := by
    unfold lastPage at hn
    exact Nat.sub_le_of_le_add hn
  exact (Nat.mul_le_mul_right size hle).trans (Nat.div_mul_le_self l.length size)

end Paging
