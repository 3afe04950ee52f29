import Mathlib.Data.List.Sort

/-!
# The first elements of a stable sort

`kept r n l` are the `n` elements of `l` that come first under `r`, earlier elements
before later ones among equals.  What is left out comes after all that is kept
(`rel_of_not_kept`), and elements added at the end that come after a full selection do
not change it (`kept_append`).
-/

namespace Newest

variable {α : Type} (r : α → α → Prop) [DecidableRel r]

def kept (n : ℕ) (l : List α) : List α := (l.insertionSort r).take n

variable {r} {n : ℕ} {l m : List α}

theorem length_kept : (kept r n l).length = min n l.length := by
  rw [kept, List.length_take, List.length_insertionSort]

theorem mem_of_mem_kept {a : α} (h : a ∈ kept r n l) : a ∈ l :=
  (List.mem_insertionSort r).mp (List.mem_of_mem_take h)

/-- A list that is short enough is kept. -/
theorem kept_perm (h : l.length ≤ n) : (kept r n l).Perm l := by
  rw [kept, List.take_of_length_le (by rwa [List.length_insertionSort])]
  exact List.perm_insertionSort r l

/-- What is left out comes after all that is kept. -/
theorem rel_of_not_kept [Std.Total r] [IsTrans α r] {a b : α} (ha : a ∈ kept r n l) (hb : b ∈ l)
    (hout : b ∉ kept r n l) : r a b := by
  have hsorted := List.pairwise_insertionSort r l
  rw [← List.take_append_drop n (l.insertionSort r), List.pairwise_append] at hsorted
  have hmem := (List.mem_insertionSort r).mpr hb
  rw [← List.take_append_drop n (l.insertionSort r), List.mem_append] at hmem
  exact hsorted.2.2 a ha b (hmem.resolve_left hout)

theorem orderedInsert_append {a : α} (h : ∀ b ∈ m, r a b) :
    (l ++ m).orderedInsert r a = l.orderedInsert r a ++ m := by
  induction l with
  | nil =>
    cases m with
    | nil => rfl
    | cons b m =>
      rw [List.nil_append, List.orderedInsert_cons_of_le r m (h b List.mem_cons_self)]
      rfl
  | cons c l ih =>
    rw [List.cons_append, List.orderedInsert_cons, List.orderedInsert_cons]
    split
    · rfl
    · rw [ih, List.cons_append]

/-- A list followed by what comes after all of it is sorted part by part. -/
theorem insertionSort_append (h : ∀ a ∈ l, ∀ b ∈ m, r a b) :
    (l ++ m).insertionSort r = l.insertionSort r ++ m.insertionSort r := by
  induction l with
  | nil => rfl
  | cons a l ih =>
    rw [List.cons_append, List.insertionSort_cons, List.insertionSort_cons,
      ih fun c hc => h c (List.mem_cons_of_mem a hc)]
    apply orderedInsert_append
    intro b hb
    exact h a List.mem_cons_self b ((List.mem_insertionSort r).mp hb)

/-- Later elements do not push out earlier ones that come before them. -/
theorem kept_append (hlen : l.length = n) (h : ∀ a ∈ l, ∀ b ∈ m, r a b) :
    kept r n (l ++ m) = l.insertionSort r := by
  rw [kept, insertionSort_append h]
  exact List.take_left' (by rw [List.length_insertionSort, hlen])

end Newest
