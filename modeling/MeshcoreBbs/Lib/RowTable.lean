import Mathlib.Algebra.Order.BigOperators.Group.List
import Mathlib.Algebra.Order.Ring.Nat
import Mathlib.Data.List.Perm.Subperm
import Mathlib.Data.List.Sort

/-!
# Tables with an autoincremented row id

A table is a list of rows in insertion order, keyed by strictly increasing ids;
`seq` is the largest id ever given out.  The ordering is part of the structure,
so a table with a repeated or recycled id cannot be built.

Lookups after each operation: `get?_insert`, `get?_mapRows`, `get?_modify`, `get?_filterRows`.
The lookups and `seq` are all there is to a table (`ext_get?`).
-/

@[ext]
structure RowTable (α : Type) where
  rows : List (Nat × α)
  seq : Nat
  increasing : (rows.map Prod.fst).Pairwise (· < ·)
  le_seq : ∀ i ∈ rows.map Prod.fst, i ≤ seq

namespace RowTable

variable {α : Type}

def empty : RowTable α := ⟨[], 0, by simp, by simp⟩

/-- Row with a given id. -/
def get? (t : RowTable α) (i : Nat) : Option α :=
  (t.rows.find? fun p => p.1 == i).map Prod.snd

/-- `INSERT`: the new row gets the next id. -/
def insert (t : RowTable α) (a : α) : RowTable α where
  rows := t.rows ++ [(t.seq + 1, a)]
  seq := t.seq + 1
  increasing := by
    rw [List.map_append, List.pairwise_append]
    refine ⟨t.increasing, by simp, ?_⟩
    intro i hi j hj
    have := t.le_seq i hi
    simp only [List.map_cons, List.map_nil, List.mem_singleton] at hj
    omega
  le_seq := by
    intro i hi
    rw [List.map_append, List.mem_append] at hi
    rcases hi with hi | hi
    · have := t.le_seq i hi
      omega
    · simp only [List.map_cons, List.map_nil, List.mem_singleton] at hi
      omega

/-- `UPDATE` of every row, by a function of its id and contents. -/
def mapRows (f : Nat → α → α) (t : RowTable α) : RowTable α where
  rows := t.rows.map fun p => (p.1, f p.1 p.2)
  seq := t.seq
  increasing := by
    have := t.increasing
    rwa [List.map_map]
  le_seq := by
    have := t.le_seq
    rwa [List.map_map]

/-- `UPDATE ... WHERE id = i`. -/
def modify (i : Nat) (f : α → α) (t : RowTable α) : RowTable α :=
  t.mapRows fun j a => if j = i then f a else a

/-- `DELETE` of the rows that `keep` rejects. -/
def filterRows (keep : Nat → α → Bool) (t : RowTable α) : RowTable α where
  rows := t.rows.filter fun p => keep p.1 p.2
  seq := t.seq
  increasing := t.increasing.sublist (List.filter_sublist.map Prod.fst)
  le_seq := fun i hi => t.le_seq i ((List.filter_sublist.map Prod.fst).subset hi)

/-! ## Lookups -/

theorem mem_rows_iff (t : RowTable α) (i : Nat) (a : α) :
    (i, a) ∈ t.rows ↔ t.get? i = some a := by
  have key : ∀ rows : List (Nat × α), (rows.map Prod.fst).Pairwise (· < ·) →
      ((i, a) ∈ rows ↔ (rows.find? fun p => p.1 == i).map Prod.snd = some a) := by
    intro rows hinc
    induction rows with
    | nil => simp
    | cons p rows ih =>
      obtain ⟨j, b⟩ := p
      simp only [List.map_cons, List.pairwise_cons] at hinc
      rw [List.mem_cons, ih hinc.2, List.find?_cons]
      by_cases h : j = i
      · subst h
        have hno : rows.find? (fun p => p.1 == j) = none := by
          rw [List.find?_eq_none]
          intro p hp hpj
          have hlt := hinc.1 p.1 (List.mem_map_of_mem hp)
          rw [beq_iff_eq.mp hpj] at hlt
          exact Nat.lt_irrefl _ hlt
        simp [hno, eq_comm]
      · have h1 : ¬ i = j := fun e => h e.symm
        have h2 : (j == i) = false := by simpa using h
        simp [h1, h2]
  exact key t.rows t.increasing

theorem get?_le_seq {t : RowTable α} {i : Nat} {a : α} (h : t.get? i = some a) : i ≤ t.seq :=
  t.le_seq i (List.mem_map_of_mem (f := Prod.fst) ((t.mem_rows_iff i a).mpr h))

theorem get?_next (t : RowTable α) : t.get? (t.seq + 1) = none := by
  cases h : t.get? (t.seq + 1) with
  | none => rfl
  | some a => exact absurd (get?_le_seq h) (by omega)

@[simp] theorem seq_insert (t : RowTable α) (a : α) : (t.insert a).seq = t.seq + 1 := rfl

theorem get?_insert (t : RowTable α) (a : α) (i : Nat) :
    (t.insert a).get? i = if i = t.seq + 1 then some a else t.get? i := by
  unfold get? insert
  simp only [List.find?_append]
  split
  · next h =>
    subst h
    have := t.get?_next
    simp only [get?, Option.map_eq_none_iff] at this
    simp [this]
  · next h =>
    have h' : ¬ t.seq + 1 = i := fun e => h e.symm
    simp [h']

/-- An insertion is visible. -/
theorem insert_ne (t : RowTable α) (a : α) : t.insert a ≠ t := by
  intro h
  have := congrArg RowTable.seq h
  rw [seq_insert] at this
  omega

theorem insert_inj {t : RowTable α} {a b : α} (h : t.insert a = t.insert b) : a = b := by
  have := congrArg (fun u => u.get? (t.seq + 1)) h
  simpa [get?_insert] using this

/-- An old row survives an insertion. -/
theorem get?_insert_of_some {t : RowTable α} {i : Nat} {b : α} (h : t.get? i = some b) (a : α) :
    (t.insert a).get? i = some b := by
  have := get?_le_seq h
  rw [get?_insert, if_neg (by omega), h]

@[simp] theorem get?_mapRows (t : RowTable α) (f : Nat → α → α) (i : Nat) :
    (t.mapRows f).get? i = (t.get? i).map (f i) := by
  unfold get? mapRows
  simp only [List.find?_map, Function.comp_def, Option.map_map]
  cases h : t.rows.find? (fun p => p.1 == i) with
  | none => rfl
  | some p =>
    have := List.find?_some h
    simp only [beq_iff_eq] at this
    simp [this]

theorem get?_modify (t : RowTable α) (i : Nat) (f : α → α) (j : Nat) :
    (t.modify i f).get? j = if j = i then (t.get? j).map f else t.get? j := by
  unfold modify
  rw [get?_mapRows]
  split
  · rfl
  · simp

@[simp] theorem get?_filterRows (t : RowTable α) (keep : Nat → α → Bool) (i : Nat) :
    (t.filterRows keep).get? i = (t.get? i).filter (keep i) := by
  ext a
  rw [← mem_rows_iff, Option.filter_eq_some_iff, ← mem_rows_iff]
  exact List.mem_filter

/-- The rows of a query have distinct ids. -/
theorem nodup_filter (t : RowTable α) (q : Nat × α → Bool) :
    ((t.rows.filter q).map Prod.fst).Nodup :=
  (t.increasing.imp Nat.ne_of_lt).sublist (List.filter_sublist.map Prod.fst)

/-- Ids are distinct and at most `seq`. -/
theorem length_rows_le (t : RowTable α) : t.rows.length ≤ t.seq + 1 := by
  have hnodup : (t.rows.map Prod.fst).Nodup := t.increasing.imp Nat.ne_of_lt
  have hsub : t.rows.map Prod.fst ⊆ List.range (t.seq + 1) := by
    intro i hi
    have := t.le_seq i hi
    exact List.mem_range.mpr (by omega)
  simpa using (List.subperm_of_subset hnodup hsub).length_le

theorem rows_inj {t u : RowTable α} (h : ∀ i, t.get? i = u.get? i) : t.rows = u.rows := by
  have hirrefl : Std.Irrefl fun p q : Nat × α => p.1 < q.1 := ⟨fun p => Nat.lt_irrefl p.1⟩
  have hasymm : Std.Antisymm fun p q : Nat × α => p.1 < q.1 :=
    ⟨fun _ _ hpq hqp => absurd hpq (Nat.lt_asymm hqp)⟩
  apply (List.pairwise_map.mp t.increasing).eq_of_mem_iff (List.pairwise_map.mp u.increasing)
  rintro ⟨i, a⟩
  rw [mem_rows_iff, mem_rows_iff, h i]

/-- Tables with the same rows and the same next id are equal. -/
theorem ext_get? {t u : RowTable α} (h : ∀ i, t.get? i = u.get? i) (hseq : t.seq = u.seq) :
    t = u :=
  RowTable.ext (rows_inj h) hseq

/-! ## Sums over the rows -/

def sum (t : RowTable α) (f : Nat → α → Nat) : Nat := (t.rows.map fun p => f p.1 p.2).sum

theorem sum_mapRows_le {t : RowTable α} {f g : Nat → α → Nat} {h : Nat → α → α}
    (hle : ∀ i a, t.get? i = some a → g i (h i a) ≤ f i a) : (t.mapRows h).sum g ≤ t.sum f := by
  simp only [sum, mapRows, List.map_map]
  exact List.sum_le_sum fun p hp => hle p.1 p.2 ((t.mem_rows_iff p.1 p.2).mp hp)

theorem sum_mapRows_lt {t : RowTable α} {f g : Nat → α → Nat} {h : Nat → α → α}
    (hle : ∀ i a, t.get? i = some a → g i (h i a) ≤ f i a) {i : Nat} {a : α}
    (hi : t.get? i = some a) (hlt : g i (h i a) < f i a) : (t.mapRows h).sum g < t.sum f := by
  simp only [sum, mapRows, List.map_map]
  refine List.sum_lt_sum _ _ (fun p hp => hle p.1 p.2 ((t.mem_rows_iff p.1 p.2).mp hp)) ?_
  exact ⟨(i, a), (t.mem_rows_iff i a).mpr hi, hlt⟩

@[simp] theorem get?_empty (i : Nat) : (empty : RowTable α).get? i = none := rfl

end RowTable
