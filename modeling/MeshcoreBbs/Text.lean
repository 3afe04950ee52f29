import Mathlib.Algebra.GroupWithZero.Nat
import Mathlib.Data.List.DropRight

/-!
# Python strings as lists of code points

Only what the BBS uses of `str`: UTF-8 length, decimal rendering, `strip`,
splitting and joining on newlines, and prefixes.
-/

namespace Bbs

/-- A Python `str` that can be encoded in UTF-8. -/
abbrev Text := List Char

/-- A string literal of the source. -/
def lit (s : String) : Text := s.toList

/-- `len(s.encode("utf-8"))`. -/
def utf8Len (s : Text) : Nat := (s.map Char.utf8Size).sum

/-- `str(n)` of a non-negative integer. -/
def decimal (n : Nat) : Text := Nat.toDigits 10 n

/-- `str(i)`. -/
def decimalInt (i : Int) : Text :=
  if i < 0 then '-' :: decimal i.natAbs else decimal i.natAbs

/-- `"\n".join(lines)`. -/
def joinLines (lines : List Text) : Text := ['\n'].intercalate lines

/-- `s.split("\n")`. -/
def splitLines (s : Text) : List Text := s.splitOn '\n'

/-- `s.rstrip("\n")`. -/
def rstripNewlines (s : Text) : Text := s.rdropWhile (· == '\n')

/-- The code points that `str.isspace` and the regular expression `\s` accept. -/
def isSpace (c : Char) : Bool :=
  let n := c.toNat
  (9 ≤ n && n ≤ 13) || (28 ≤ n && n ≤ 32) || n == 0x85 || n == 0xA0 || n == 0x1680 ||
    (0x2000 ≤ n && n ≤ 0x200A) || n == 0x2028 || n == 0x2029 || n == 0x202F || n == 0x205F ||
    n == 0x3000

/-- `s.strip()`. -/
def strip (s : Text) : Text := (s.dropWhile isSpace).rdropWhile isSpace

/-! ## UTF-8 length -/

@[simp] theorem utf8Len_nil : utf8Len [] = 0 := rfl

@[simp] theorem utf8Len_cons (c : Char) (s : Text) : utf8Len (c :: s) = c.utf8Size + utf8Len s := by
  simp [utf8Len]

@[simp] theorem utf8Len_append (s t : Text) : utf8Len (s ++ t) = utf8Len s + utf8Len t := by
  simp [utf8Len]

/-- Characters below U+0080 take one byte each. -/
theorem utf8Len_ascii (s : Text) (h : ∀ c ∈ s, c.utf8Size = 1) : utf8Len s = s.length := by
  induction s with
  | nil => rfl
  | cons c s ih =>
    rw [utf8Len_cons, h c (by simp), ih fun d hd => h d (by simp [hd]), List.length_cons]
    omega

/-! ## Decimal rendering -/

theorem isDigit_of_mem_decimal {n : Nat} {c : Char} (h : c ∈ decimal n) : c.isDigit = true :=
  Nat.isDigit_of_mem_toDigits (by omega) (by omega) h

theorem utf8Size_of_isDigit {c : Char} (h : c.isDigit = true) : c.utf8Size = 1 := by
  rw [Char.utf8Size_eq_one_iff]
  simp only [Char.isDigit, Bool.and_eq_true, decide_eq_true_eq] at h
  exact UInt32.le_trans h.2 (by decide)

@[simp] theorem utf8Len_decimal (n : Nat) : utf8Len (decimal n) = (decimal n).length :=
  utf8Len_ascii _ fun _ h => utf8Size_of_isDigit (isDigit_of_mem_decimal h)

theorem decimal_inj {m n : Nat} (h : decimal m = decimal n) : m = n := by
  have h1 := Nat.ofDigitChars_ten_toDigits (n := m)
  have h2 := Nat.ofDigitChars_ten_toDigits (n := n)
  unfold decimal at h
  rw [h] at h1
  exact h1.symm.trans h2

/-! ## Lines -/

theorem joinLines_splitLines (s : Text) : joinLines (splitLines s) = s :=
  List.intercalate_splitOn '\n'

@[simp] theorem joinLines_singleton (l : Text) : joinLines [l] = l := by
  simp [joinLines]

theorem joinLines_cons (l : Text) (ls : List Text) (h : ls ≠ []) :
    joinLines (l :: ls) = l ++ '\n' :: joinLines ls := by
  simp [joinLines, List.intercalate_cons_of_ne_nil h]

theorem joinLines_append (ls ms : List Text) (hl : ls ≠ []) (hm : ms ≠ []) :
    joinLines (ls ++ ms) = joinLines ls ++ '\n' :: joinLines ms := by
  induction ls with
  | nil => exact absurd rfl hl
  | cons l ls ih =>
    by_cases hls : ls = []
    · subst hls
      rw [List.singleton_append, joinLines_cons l ms hm, joinLines_singleton]
    · have hne : ls ++ ms ≠ [] := fun h => hls (List.append_eq_nil_iff.mp h).1
      rw [List.cons_append, joinLines_cons l _ hne, ih hls, joinLines_cons l ls hls,
        List.append_assoc]
      rfl

theorem splitLines_append (s t : Text) :
    splitLines (s ++ '\n' :: t) = splitLines s ++ splitLines t :=
  List.splitOn_append_cons_self s t

theorem splitLines_joinLines (ls : List Text) (h : ls ≠ []) :
    splitLines (joinLines ls) = ls.flatMap splitLines := by
  induction ls with
  | nil => exact absurd rfl h
  | cons l ls ih =>
    by_cases hls : ls = []
    · subst hls
      rw [joinLines_singleton, List.flatMap_singleton]
    · rw [joinLines_cons l ls hls, splitLines_append, ih hls, List.flatMap_cons]

theorem splitLines_of_notMem {s : Text} (h : '\n' ∉ s) : splitLines s = [s] :=
  List.splitOn_eq_singleton h

/-- Text without a newline comes in front of the first line. -/
theorem splitLines_append_of_notMem {s : Text} (h : '\n' ∉ s) (t : Text) :
    splitLines (s ++ t) = (splitLines t).modifyHead (s ++ ·) := by
  induction s with
  | nil =>
    cases ht : splitLines t with
    | nil => rw [List.nil_append, ht, List.modifyHead_nil]
    | cons l ls => rw [List.nil_append, ht, List.modifyHead_cons, List.nil_append]
  | cons c s ih =>
    have hc : c ≠ '\n' := fun hc => h (hc ▸ List.mem_cons_self)
    have hs : '\n' ∉ s := fun hs => h (List.mem_cons_of_mem c hs)
    unfold splitLines at ih ⊢
    rw [List.cons_append, List.splitOn_cons_eq_if_modifyHead, if_neg (by simpa using hc), ih hs,
      List.modifyHead_modifyHead]
    rfl

theorem newline_notMem_of_mem_splitLines {s l : Text} (h : l ∈ splitLines s) : '\n' ∉ l := by
  induction s generalizing l with
  | nil =>
    rw [splitLines, List.splitOn_nil, List.mem_singleton] at h
    rw [h]
    exact List.not_mem_nil
  | cons c s ih =>
    unfold splitLines at h ih
    rw [List.splitOn_cons_eq_if_modifyHead] at h
    split at h
    · rcases List.mem_cons.mp h with rfl | h
      · exact List.not_mem_nil
      · exact ih h
    · next hc =>
      cases hsplit : s.splitOn '\n' with
      | nil => exact absurd hsplit (List.splitOn_ne_nil _ _)
      | cons first rest =>
        rw [hsplit, List.modifyHead_cons] at h
        rcases List.mem_cons.mp h with rfl | h
        · rw [List.mem_cons, not_or]
          exact ⟨fun heq => hc (beq_iff_eq.mpr heq.symm), ih (hsplit ▸ List.mem_cons_self)⟩
        · exact ih (hsplit ▸ List.mem_cons_of_mem first h)

end Bbs
