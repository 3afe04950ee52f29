import Mathlib.Data.List.Basic

/-!
# SQL's `LIKE`

`%` matches any string, `_` any one character, and any other character matches itself;
letters are compared as SQLite does by default, without the case of ASCII letters.
-/

namespace Like

/-- Some suffix is accepted. -/
def anySuffix (accept : List Char → Bool) : List Char → Bool
  | [] => accept []
  | c :: s => accept (c :: s) || anySuffix accept s

/-- `s LIKE pattern`. -/
def like : List Char → List Char → Bool
  | [], s => s.isEmpty
  | p :: pattern, s =>
    if p = '%' then anySuffix (like pattern) s
    else match s with
      | [] => false
      | c :: s => (p = '_' || p.toLower = c.toLower) && like pattern s

theorem anySuffix_of_suffix {accept : List Char → Bool} {s t : List Char} (h : t <:+ s)
    (ht : accept t = true) : anySuffix accept s = true := by
  induction s with
  | nil =>
    rw [List.suffix_nil.mp h] at ht
    exact ht
  | cons c s ih =>
    rw [anySuffix, Bool.or_eq_true]
    rcases List.suffix_cons_iff.mp h with rfl | h
    · exact .inl ht
    · exact .inr (ih h)

/-- A text matches itself, wildcards included, and anything may follow before a `%`. -/
theorem like_append_percent (p s : List Char) : like (p ++ ['%']) (p ++ s) = true := by
  induction p with
  | nil => exact anySuffix_of_suffix (List.nil_suffix) rfl
  | cons c p ih =>
    rw [List.cons_append, List.cons_append, like]
    split
    · exact anySuffix_of_suffix (List.suffix_cons c (p ++ s)) ih
    · simp [ih]

/-- A pattern without wildcards before its last `%` is a beginning, up to the case of ASCII
letters. -/
theorem like_append_percent_iff {p s : List Char} (hp : ∀ c ∈ p, c ≠ '%' ∧ c ≠ '_') :
    like (p ++ ['%']) s = true ↔ p.map Char.toLower <+: s.map Char.toLower := by
  induction p generalizing s with
  | nil =>
    refine iff_of_true ?_ List.nil_prefix
    exact anySuffix_of_suffix (List.nil_suffix) rfl
  | cons c p ih =>
    obtain ⟨hc, hp⟩ := List.forall_mem_cons.mp hp
    cases s with
    | nil => simp [like, hc.1]
    | cons d s =>
      rw [List.cons_append, like, if_neg hc.1, List.map_cons, List.map_cons, List.cons_prefix_cons,
        ← ih hp]
      simp [hc.2]

/-- What contains `p` is found by `%p%`. -/
theorem like_of_infix {p s : List Char} (h : p <:+: s) : like ('%' :: p ++ ['%']) s = true := by
  obtain ⟨s₁, s₂, rfl⟩ := h
  have hany : like ('%' :: p ++ ['%']) (s₁ ++ p ++ s₂) =
      anySuffix (like (p ++ ['%'])) (s₁ ++ p ++ s₂) := by
    rw [List.cons_append, like.eq_def]
    exact if_pos rfl
  rw [hany]
  exact anySuffix_of_suffix ⟨s₁, by rw [List.append_assoc]⟩ (like_append_percent p s₂)

end Like
