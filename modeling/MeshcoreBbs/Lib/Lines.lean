import Mathlib.Data.List.Basic

/-!
# The lines of a text

`splitlines` ends a line at every boundary that Python knows and takes an unfinished rest for a
line; `completeLines` are the lines ended by a newline.  There are never fewer of the former
(`count_le_length_splitlines`), and as few only in a text of whole lines
(`wholeLines_of_length_le`), where the two agree but for CRs before newlines (`splitlines_whole`).
-/

namespace Lines

/-- The characters at which `str.splitlines` ends a line. -/
def isBreak (c : Char) : Bool :=
  [0x0A, 0x0B, 0x0C, 0x0D, 0x1C, 0x1D, 0x1E, 0x85, 0x2028, 0x2029].contains c.toNat

/-- The first of the lines begins with `c`. -/
def extend (c : Char) : List (List Char) → List (List Char)
  | [] => [[c]]
  | l :: ls => (c :: l) :: ls

/-- `str.splitlines`. -/
def splitlines : List Char → List (List Char)
  | [] => []
  | '\r' :: '\n' :: s => [] :: splitlines s
  | c :: s => if isBreak c then [] :: splitlines s else extend c (splitlines s)

/-- The lines that a newline ends. -/
def completeLines : List Char → List (List Char)
  | [] => []
  | c :: s =>
    if c = '\n' then [] :: completeLines s
    else
      match completeLines s with
      | [] => []
      | l :: ls => (c :: l) :: ls

/-- The text is empty or ends in a newline, and no other character ends a line, but for a CR
before a newline. -/
inductive WholeLines : List Char → Prop
  | nil : WholeLines []
  | newline {s : List Char} (hs : WholeLines s) : WholeLines ('\n' :: s)
  | crlf {s : List Char} (hs : WholeLines s) : WholeLines ('\r' :: '\n' :: s)
  | char {c : Char} {s : List Char} (hc : isBreak c = false) (hne : s ≠ []) (hs : WholeLines s) :
      WholeLines (c :: s)

/-- The line without its CRs. -/
def dropCr (l : List Char) : List Char := l.filter (· ≠ '\r')

variable {s t : List Char}

theorem splitlines_newline (s : List Char) : splitlines ('\n' :: s) = [] :: splitlines s := by
  rw [splitlines]
  · rfl
  · intro _ h
    exact absurd h (by decide)

theorem splitlines_char {c : Char} (hc : isBreak c = false) (s : List Char) :
    splitlines (c :: s) = extend c (splitlines s) := by
  rw [splitlines, hc]
  · rfl
  · rintro _ rfl
    exact absurd hc (by decide)

theorem splitlines_eq_nil : splitlines s = [] ↔ s = [] := by
  fun_cases splitlines s with
  | case1 => simp
  | case2 => simp
  | case3 c s => simp
  | case4 c s =>
    cases splitlines s <;> simp [extend]

theorem length_extend {c : Char} {ls : List (List Char)} (h : ls ≠ []) :
    (extend c ls).length = ls.length := by
  cases ls with
  | nil => exact absurd rfl h
  | cons l ls => rfl

theorem completeLines_newline (s : List Char) : completeLines ('\n' :: s) = [] :: completeLines s := by
  rw [completeLines, if_pos rfl]

theorem completeLines_char {c : Char} (hc : c ≠ '\n') (h : completeLines s ≠ []) :
    completeLines (c :: s) = extend c (completeLines s) := by
  rw [completeLines, if_neg hc]
  cases hs : completeLines s with
  | nil => exact absurd hs h
  | cons l ls => rfl

theorem length_completeLines (s : List Char) : (completeLines s).length = s.count '\n' := by
  induction s with
  | nil => rfl
  | cons c s ih =>
    by_cases hc : c = '\n'
    · rw [hc, completeLines_newline, List.length_cons, ih, List.count_cons_self]
    · rw [List.count_cons_of_ne hc, ← ih]
      by_cases hs : completeLines s = []
      · rw [completeLines, if_neg hc, hs]
      · rw [completeLines_char hc hs, length_extend hs]

/-! ## Whole lines -/

theorem ne_of_not_break {c : Char} (hc : isBreak c = false) : c ≠ '\n' := by
  rintro rfl
  exact absurd hc (by decide)

/-- A text of whole lines that is not empty has one. -/
theorem WholeLines.completeLines_ne_nil (h : WholeLines s) (hne : s ≠ []) : completeLines s ≠ [] := by
  induction h with
  | nil => exact absurd rfl hne
  | newline => simp [completeLines_newline]
  | crlf hs ih =>
    rw [completeLines_char (by decide) (by simp [completeLines_newline]), completeLines_newline]
    simp [extend]
  | char hc hs _ ih =>
    rw [completeLines_char (ne_of_not_break hc) (ih hs)]
    cases completeLines _ <;> simp [extend]

theorem extend_append {c : Char} {ls ms : List (List Char)} (h : ls ≠ []) :
    extend c (ls ++ ms) = extend c ls ++ ms := by
  cases ls with
  | nil => exact absurd rfl h
  | cons l ls => rfl

/-- Lines may be read part by part where the parts are whole lines. -/
theorem WholeLines.completeLines_append (h : WholeLines s) (t : List Char) :
    completeLines (s ++ t) = completeLines s ++ completeLines t := by
  induction h with
  | nil => rfl
  | newline hs ih =>
    rw [List.cons_append, completeLines_newline, completeLines_newline, ih, List.cons_append]
  | @crlf s hs ih =>
    have hs' : completeLines ('\n' :: s) ≠ [] := by simp [completeLines_newline]
    have hboth : completeLines ('\n' :: (s ++ t)) = completeLines ('\n' :: s) ++ completeLines t := by
      rw [completeLines_newline, completeLines_newline, ih, List.cons_append]
    rw [List.cons_append, List.cons_append, completeLines_char (by decide) (by simp [hboth, hs']), hboth,
      extend_append hs', ← completeLines_char (by decide) hs']
  | @char c s hc hne hs ih =>
    have hs' := hs.completeLines_ne_nil hne
    rw [List.cons_append, completeLines_char (ne_of_not_break hc) (by simp [ih, hs']), ih,
      extend_append hs', ← completeLines_char (ne_of_not_break hc) hs']

theorem WholeLines.append (h : WholeLines s) (ht : WholeLines t) : WholeLines (s ++ t) := by
  induction h with
  | nil => exact ht
  | newline _ ih => exact .newline ih
  | crlf _ ih => exact .crlf ih
  | char hc hne _ ih => exact .char hc (List.append_ne_nil_of_left_ne_nil hne _) ih

theorem map_dropCr_extend {c : Char} (hc : c ≠ '\r') {ls ms : List (List Char)}
    (h : ls.map dropCr = ms.map dropCr) : (extend c ls).map dropCr = (extend c ms).map dropCr := by
  cases ls with
  | nil =>
    cases ms with
    | nil => rfl
    | cons m ms => cases h
  | cons l ls =>
    cases ms with
    | nil => cases h
    | cons m ms =>
      obtain ⟨hl, hls⟩ := List.cons.inj h
      have hcons (k : List Char) : dropCr (c :: k) = c :: dropCr k := by simp [dropCr, hc]
      simp only [extend, List.map_cons, hcons, hl, hls]

/-- **Whole lines** are the lines that Python sees, but for CRs. -/
theorem WholeLines.map_splitlines (h : WholeLines s) :
    (splitlines s).map dropCr = (completeLines s).map dropCr := by
  induction h with
  | nil => rfl
  | newline hs ih => rw [splitlines_newline, completeLines_newline, List.map_cons, List.map_cons, ih]
  | crlf hs ih =>
    rw [completeLines_char (by decide) (by simp [completeLines_newline]), completeLines_newline,
      splitlines, extend, List.map_cons, List.map_cons, ih]
    rfl
  | @char c s hc hne hs ih =>
    rw [splitlines_char hc, completeLines_char (ne_of_not_break hc) (hs.completeLines_ne_nil hne)]
    refine map_dropCr_extend ?_ ih
    rintro rfl
    exact absurd hc (by decide)

theorem length_le_extend (c : Char) (ls : List (List Char)) : ls.length ≤ (extend c ls).length := by
  cases ls with
  | nil => exact Nat.zero_le _
  | cons l ls => exact Nat.le_refl _

/-- Every newline ends a line of its own. -/
theorem count_le_length_splitlines (s : List Char) : s.count '\n' ≤ (splitlines s).length := by
  fun_induction splitlines s with
  | case1 => exact Nat.le_refl _
  | case2 s ih =>
    rw [List.count_cons_of_ne (by decide), List.count_cons_self, List.length_cons]
    omega
  | case3 c s _ hc ih =>
    have hcount := List.count_le_count_cons (a := '\n') (b := c) (l := s)
    rw [List.length_cons, List.count_cons]
    split <;> omega
  | case4 c s _ hc ih =>
    rw [List.count_cons_of_ne (ne_of_not_break (by simpa using hc))]
    exact Nat.le_trans ih (length_le_extend ..)

/-- And nothing else does, only if the lines are whole. -/
theorem wholeLines_of_length_le (h : (splitlines s).length ≤ s.count '\n') : WholeLines s := by
  fun_induction splitlines s with
  | case1 => exact .nil
  | case2 s ih =>
    rw [List.count_cons_of_ne (by decide), List.count_cons_self, List.length_cons] at h
    exact .crlf (ih (by omega))
  | case3 c s _ hc ih =>
    have hle := count_le_length_splitlines s
    rw [List.length_cons] at h
    by_cases hnl : c = '\n'
    · subst hnl
      rw [List.count_cons_self] at h
      exact .newline (ih (by omega))
    · rw [List.count_cons_of_ne hnl] at h
      omega
  | case4 c s _ hc ih =>
    have hc : isBreak c = false := by simpa using hc
    rw [List.count_cons_of_ne (ne_of_not_break hc)] at h
    have hne : s ≠ [] := by
      rintro rfl
      simp [splitlines, extend] at h
    rw [length_extend (fun hnil => hne (splitlines_eq_nil.mp hnil))] at h
    exact .char hc hne (ih h)

theorem wholeLines_iff : WholeLines s ↔ (splitlines s).length = s.count '\n' := by
  constructor
  · intro h
    rw [← length_completeLines, ← List.length_map (f := dropCr), h.map_splitlines, List.length_map]
  · exact fun h => wholeLines_of_length_le (Nat.le_of_eq h)

/-- A text of whole lines ends in a newline. -/
theorem WholeLines.getLast? (h : WholeLines s) : ∀ c ∈ s.getLast?, c = '\n' := by
  induction h with
  | nil => simp
  | @newline s hs ih =>
    rw [List.getLast?_cons]
    cases hlast : s.getLast? with
    | none => simp
    | some c => simpa [hlast] using ih
  | @crlf s hs ih =>
    rw [List.getLast?_cons, List.getLast?_cons]
    cases hlast : s.getLast? with
    | none => simp
    | some c => simpa [hlast] using ih
  | @char c s hc hne hs ih =>
    rw [List.getLast?_cons]
    cases hlast : s.getLast? with
    | none => exact absurd (List.getLast?_eq_none_iff.mp hlast) hne
    | some c => simpa [hlast] using ih

end Lines
