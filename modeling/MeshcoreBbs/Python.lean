import MeshcoreBbs.Text

/-!
# Python's character tables

`str.lower`, `str.upper`, `str.isdigit`, the digits `int` reads and the comparison of
`re.IGNORECASE` rest on the Unicode tables, which are a parameter `Py` of the model.

`words` splits a line at white space; `words_eq` reads it off the first word and the
rest of the line.
-/

namespace Bbs

structure Py where
  lower : Text → Text
  upper : Text → Text
  /-- blanks come from blanks only -/
  upper_blank : ∀ s, ' ' ∈ upper s → ' ' ∈ s
  /-- `c.isdigit()` -/
  isDigit : Char → Bool
  /-- `int(c)`; `none`: it raises -/
  digitValue : Char → Option Nat
  /-- `re.fullmatch(re.escape(p), c, re.IGNORECASE)` -/
  matchesChar : Char → Char → Bool

namespace Py

variable (py : Py)

/-- `s.isdigit()`. -/
def isdigit (s : Text) : Bool := s ≠ [] && s.all py.isDigit

/-- `sys.int_info.default_max_str_digits`. -/
def maxStrDigits : Nat := 4300

/-- `int(s)` of a string without sign, blank or underscore; `none`: it raises. -/
def int (s : Text) : Option Nat :=
  if maxStrDigits < s.length then none
  else s.foldlM (fun n c => (py.digitValue c).map fun d => 10 * n + d) 0

/-- `s.lower().startswith(t.lower())`. -/
def startsWithLower (s t : Text) : Bool := (py.lower t).isPrefixOf (py.lower s)

/-- What follows `pattern`, matched without its case. -/
def matchLiteral : Text → Text → Option Text
  | [], s => some s
  | _ :: _, [] => none
  | p :: pattern, c :: s => if py.matchesChar p c then matchLiteral pattern s else none

/-- What follows `\s+word1\s+word2...`. -/
def matchWords : List Text → Text → Option Text
  | [], s => some s
  | w :: ws, s =>
    match s with
    | [] => none
    | c :: _ =>
      if isSpace c then (py.matchLiteral w (s.dropWhile isSpace)).bind (matchWords ws) else none

/-- What follows `^\s*word1\s+word2...\s*`. -/
def matchLine (ws : List Text) (s : Text) : Option Text :=
  match ws with
  | [] => some (s.dropWhile isSpace)
  | w :: ws =>
    ((py.matchLiteral w (s.dropWhile isSpace)).bind (py.matchWords ws)).map (·.dropWhile isSpace)

end Py

theorem toUpper_eq_blank {c : Char} (h : c.toUpper = ' ') : c = ' ' := by
  unfold Char.toUpper at h
  split at h
  · next hc =>
    have hnat := congrArg UInt32.toNat (congrArg Char.val h)
    have hlo : 'a'.val.toNat ≤ c.val.toNat := UInt32.le_iff_toNat_le.mp hc.1
    have hhi : c.val.toNat ≤ 'z'.val.toNat := UInt32.le_iff_toNat_le.mp hc.2
    have hshift : ('A'.val - 'a'.val).toNat = 2 ^ 32 - 32 := by decide
    have ha : 'a'.val.toNat = 97 := by decide
    have hz : 'z'.val.toNat = 122 := by decide
    have hblank : ' '.val.toNat = 32 := by decide
    rw [UInt32.toNat_add] at hnat
    omega
  · exact h

/-- The tables cut down to ASCII, and a digit that `int` does not read. -/
def asciiPy : Py where
  lower s := s.map Char.toLower
  upper s := s.map Char.toUpper
  upper_blank s h := by
    obtain ⟨c, hc, hup⟩ := List.mem_map.mp h
    exact toUpper_eq_blank hup ▸ hc
  isDigit c := c.isDigit || c == '²'
  digitValue c := if c.isDigit then some (c.toNat - 48) else none
  matchesChar p c := p.toLower == c.toLower

/-! ## Words -/

/-- `re.split(r"\s+", s)` of a stripped string. -/
def words (s : Text) : List Text := (s.splitOnP isSpace).filter (· ≠ [])

def firstWord (s : Text) : Text := s.takeWhile fun c => !isSpace c

/-- What follows the first word and the white space after it. -/
def afterWord (s : Text) : Text := (s.dropWhile fun c => !isSpace c).dropWhile isSpace

@[simp] theorem words_nil : words [] = [] := rfl

theorem words_space {c : Char} (hc : isSpace c = true) (s : Text) : words (c :: s) = words s := by
  simp [words, List.splitOnP_cons_eq_if_modifyHead, hc]

theorem words_dropWhile (s : Text) : words (s.dropWhile isSpace) = words s := by
  induction s with
  | nil => rfl
  | cons c s ih =>
    rw [List.dropWhile_cons]
    split
    · next hc => rw [ih, words_space hc]
    · rfl

theorem firstWord_append (s : Text) : firstWord s ++ s.dropWhile (fun c => !isSpace c) = s :=
  List.takeWhile_append_dropWhile

theorem not_isSpace_of_mem_firstWord {s : Text} {c : Char} (h : c ∈ firstWord s) :
    isSpace c = false := by
  simpa using List.mem_takeWhile_imp h

/-- The first word ends at a space or at the end. -/
theorem isSpace_after_firstWord {s r : Text} {c : Char}
    (h : s.dropWhile (fun c => !isSpace c) = c :: r) : isSpace c = true := by
  have := List.head?_dropWhile_not (fun c => !isSpace c) s
  simpa [h] using this

/-- The first word, and the words of the rest. -/
theorem words_eq {s : Text} (h : firstWord s ≠ []) : words s = firstWord s :: words (afterWord s) := by
  have hs := firstWord_append s
  unfold afterWord
  rw [words_dropWhile]
  cases hr : s.dropWhile (fun c => !isSpace c) with
  | nil =>
    rw [hr, List.append_nil] at hs
    have hsingle : s.splitOnP isSpace = [s] :=
      List.splitOnP_eq_singleton fun c hc => not_isSpace_of_mem_firstWord (hs.symm ▸ hc)
    rw [hs] at h ⊢
    simp [words, hsingle, h]
  | cons c r =>
    have hc := isSpace_after_firstWord hr
    have hsplit : s.splitOnP isSpace = firstWord s :: r.splitOnP isSpace := by
      conv_lhs => rw [← hs, hr]
      exact List.splitOnP_append_cons_of_forall_mem (fun _ => not_isSpace_of_mem_firstWord) c hc r
    rw [words_space hc]
    simp [words, hsplit, h]

theorem not_isSpace_of_mem_splitOnP {s w : Text} (hw : w ∈ s.splitOnP isSpace) {c : Char}
    (hc : c ∈ w) : isSpace c = false := by
  induction s generalizing w with
  | nil =>
    rw [List.splitOnP_nil, List.mem_singleton] at hw
    rw [hw] at hc
    cases hc
  | cons d s ih =>
    rw [List.splitOnP_cons_eq_if_modifyHead] at hw
    split at hw
    · obtain rfl | hw := List.mem_cons.mp hw
      · cases hc
      · exact ih hw hc
    · next hd =>
      cases hsplit : s.splitOnP isSpace with
      | nil => exact absurd hsplit (List.splitOnP_ne_nil isSpace s)
      | cons v vs =>
        rw [hsplit, List.modifyHead_cons] at hw
        obtain rfl | hw := List.mem_cons.mp hw
        · obtain rfl | hc := List.mem_cons.mp hc
          · simpa using hd
          · exact ih (hsplit ▸ List.mem_cons_self) hc
        · exact ih (hsplit ▸ List.mem_cons_of_mem v hw) hc

theorem blank_notMem_of_mem_words {s w : Text} (hw : w ∈ words s) : ' ' ∉ w := fun hc =>
  absurd (not_isSpace_of_mem_splitOnP (List.mem_of_mem_filter hw) hc) (by decide)

/-! ## Stripped lines -/

theorem dropWhile_strip (s : Text) : (strip s).dropWhile isSpace = strip s := by
  rw [List.dropWhile_eq_self_iff]
  intro hl
  have hpos : 0 < (s.dropWhile isSpace).length := by
    have := (List.rdropWhile_prefix isSpace (l := s.dropWhile isSpace)).length_le
    unfold strip at hl
    omega
  have hhead : (strip s)[0] = (s.dropWhile isSpace)[0] :=
    (List.rdropWhile_prefix isSpace (l := s.dropWhile isSpace)).getElem hl
  rw [hhead]
  exact List.dropWhile_get_zero_not isSpace s hpos

theorem afterWord_suffix (s : Text) : afterWord s <:+ s :=
  (List.dropWhile_suffix _).trans (List.dropWhile_suffix _)

theorem dropWhile_afterWord (s : Text) : (afterWord s).dropWhile isSpace = afterWord s :=
  List.dropWhile_idempotent ..

/-- The end of a stripped line that starts with no space is stripped. -/
theorem strip_of_suffix {s t : Text} (h : t <:+ strip s) (ht : t.dropWhile isSpace = t) :
    strip t = t := by
  unfold strip at h ⊢
  rw [ht, List.rdropWhile_eq_self_iff]
  intro hne
  obtain ⟨p, hp⟩ := h
  have hlast := List.rdropWhile_last_not isSpace (s.dropWhile isSpace) (by simp [← hp, hne])
  simpa only [← hp, List.getLast_append_of_ne_nil _ hne] using hlast

theorem firstWord_ne_nil {s : Text} (hs : s ≠ []) (h : s.dropWhile isSpace = s) :
    firstWord s ≠ [] := by
  cases s with
  | nil => exact absurd rfl hs
  | cons c s =>
    have hc : isSpace c = false := by
      have := List.dropWhile_eq_self_iff.mp h (Nat.zero_lt_succ _)
      simpa using this
    simp [firstWord, hc]

/-- The words of a line that starts with no space. -/
theorem words_of_ne_nil {s : Text} (hs : s ≠ []) (h : s.dropWhile isSpace = s) :
    words s = firstWord s :: words (afterWord s) :=
  words_eq (firstWord_ne_nil hs h)

/-! ## Matching a word -/

namespace Py

variable {py : Py}

theorem matchLiteral_append {p w : Text} (h : py.matchLiteral p w = some []) (r : Text) :
    py.matchLiteral p (w ++ r) = some r := by
  induction p generalizing w with
  | nil =>
    rw [matchLiteral, Option.some.injEq] at h
    rw [h]
    rfl
  | cons c p ih =>
    cases w with
    | nil => cases h
    | cons d w =>
      rw [matchLiteral] at h
      split at h
      · next hcd =>
        rw [List.cons_append, matchLiteral, if_pos hcd]
        exact ih h
      · cases h

theorem matchLiteral_firstWord {p s : Text} (h : py.matchLiteral p (firstWord s) = some []) :
    py.matchLiteral p s = some (s.dropWhile fun c => !isSpace c) := by
  conv_lhs => rw [← firstWord_append s]
  exact matchLiteral_append h _

/-- Two words matched to their ends. -/
theorem matchLine_two {p q s : Text} (hs : s.dropWhile isSpace = s) (hnext : afterWord s ≠ [])
    (hp : py.matchLiteral p (firstWord s) = some [])
    (hq : py.matchLiteral q (firstWord (afterWord s)) = some []) :
    py.matchLine [p, q] s = some (afterWord (afterWord s)) := by
  have hrest : py.matchWords [q] (s.dropWhile fun c => !isSpace c) =
      some ((afterWord s).dropWhile fun c => !isSpace c) := by
    cases hr : s.dropWhile (fun c => !isSpace c) with
    | nil => exact absurd (by simp [afterWord, hr]) hnext
    | cons c r =>
      rw [matchWords, if_pos (isSpace_after_firstWord hr), ← hr]
      show (py.matchLiteral q (afterWord s)).bind _ = _
      rw [matchLiteral_firstWord hq]
      rfl
  rw [matchLine, hs, matchLiteral_firstWord hp, Option.bind_some, hrest]
  rfl

end Py

end Bbs
