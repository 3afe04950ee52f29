import Mathlib.Data.List.Basic
import Mathlib.Data.List.Infix

/-!
# UTF-8, decoded with replacement

`decode` reads any bytes: a maximal part of a character that does not go on becomes one
U+FFFD, also at the end.  A text is what its bytes decode to (`decode_encode`), and a beginning
of its bytes decodes to the characters that are whole in it and one U+FFFD for the part of a
character left over (`prefix_encode`, `decode_encode_append`).
-/

namespace Utf8

/-- The bytes of a text. -/
def encode (s : List Char) : List UInt8 := s.flatMap String.utf8EncodeChar

@[simp] theorem encode_nil : encode [] = [] := rfl

@[simp] theorem encode_cons (c : Char) (s : List Char) :
    encode (c :: s) = String.utf8EncodeChar c ++ encode s := rfl

@[simp] theorem encode_append (s t : List Char) : encode (s ++ t) = encode s ++ encode t :=
  List.flatMap_append

/-! ## The decoder -/

def replacement : Char := Char.ofNat 0xFFFD

/-- A character has begun: `more + 1` bytes are missing, and the next one is between `low`
and `high`. -/
structure Part where
  more : Nat
  low : Nat
  high : Nat
  code : Nat

/-- A byte between characters. -/
def first (b : UInt8) : List Char × Option Part :=
  let n := b.toNat
  if n < 0x80 then ([Char.ofNat n], none)
  else if 0xC2 ≤ n ∧ n ≤ 0xDF then ([], some ⟨0, 0x80, 0xBF, n % 0x20⟩)
  else if 0xE0 ≤ n ∧ n ≤ 0xEF then
    -- no overlong forms and no surrogates
    ([], some ⟨1, if n = 0xE0 then 0xA0 else 0x80, if n = 0xED then 0x9F else 0xBF, n % 0x10⟩)
  else if 0xF0 ≤ n ∧ n ≤ 0xF4 then
    -- no overlong forms and nothing beyond U+10FFFF
    ([], some ⟨2, if n = 0xF0 then 0x90 else 0x80, if n = 0xF4 then 0x8F else 0xBF, n % 0x08⟩)
  else ([replacement], none)

def next (b : UInt8) : Option Part → List Char × Option Part
  | none => first b
  | some p =>
    let n := b.toNat
    if p.low ≤ n ∧ n ≤ p.high then
      let code := p.code * 0x40 + n % 0x40
      match p.more with
      | 0 => ([Char.ofNat code], none)
      | more + 1 => ([], some ⟨more, 0x80, 0xBF, code⟩)
    else (replacement :: (first b).1, (first b).2)

def decodeFrom : Option Part → List UInt8 → List Char
  | none, [] => []
  | some _, [] => [replacement]
  | p, b :: bs => (next b p).1 ++ decodeFrom (next b p).2 bs

/-- `bytes.decode("utf-8", errors="replace")`. -/
def decode (bs : List UInt8) : List Char := decodeFrom none bs

@[simp] theorem decode_nil : decode [] = [] := rfl

/-! ## What a text decodes to -/

theorem decodeFrom_cons (p : Option Part) (b : UInt8) (bs : List UInt8) :
    decodeFrom p (b :: bs) = (next b p).1 ++ decodeFrom (next b p).2 bs := by
  cases p <;> rfl

theorem toNat_ofNat {n : Nat} (h : n < 256) : (UInt8.ofNat n).toNat = n := by
  simp [Nat.mod_eq_of_lt h]

/-- The code of a character is a scalar value. -/
theorem scalar (c : Char) : c.toNat < 0xD800 ∨ 0xDFFF < c.toNat ∧ c.toNat < 0x110000 := by
  have := c.valid
  exact this

section Next

variable {n more low high code : Nat}

theorem next_one (h : n < 0x80) : next (UInt8.ofNat n) none = ([Char.ofNat n], none) := by
  unfold next first
  dsimp only
  rw [toNat_ofNat (by omega), if_pos h]

theorem next_two (h : 0xC2 ≤ n) (h' : n ≤ 0xDF) :
    next (UInt8.ofNat n) none = ([], some ⟨0, 0x80, 0xBF, n % 0x20⟩) := by
  unfold next first
  dsimp only
  rw [toNat_ofNat (by omega), if_neg (by omega), if_pos ⟨h, h'⟩]

theorem next_three (h : 0xE0 ≤ n) (h' : n ≤ 0xEF) : next (UInt8.ofNat n) none =
    ([], some ⟨1, if n = 0xE0 then 0xA0 else 0x80, if n = 0xED then 0x9F else 0xBF, n % 0x10⟩) := by
  unfold next first
  dsimp only
  rw [toNat_ofNat (by omega), if_neg (by omega), if_neg (by omega), if_pos ⟨h, h'⟩]

theorem next_four (h : 0xF0 ≤ n) (h' : n ≤ 0xF4) : next (UInt8.ofNat n) none =
    ([], some ⟨2, if n = 0xF0 then 0x90 else 0x80, if n = 0xF4 then 0x8F else 0xBF, n % 0x08⟩) := by
  unfold next first
  dsimp only
  rw [toNat_ofNat (by omega), if_neg (by omega), if_neg (by omega), if_neg (by omega), if_pos ⟨h, h'⟩]

theorem next_last {c : Char} (hn : n < 256) (hlow : low ≤ n) (hhigh : n ≤ high)
    (hcode : code * 0x40 + n % 0x40 = c.toNat) :
    next (UInt8.ofNat n) (some ⟨0, low, high, code⟩) = ([c], none) := by
  unfold next
  dsimp only
  rw [toNat_ofNat hn, if_pos ⟨hlow, hhigh⟩, hcode, Char.ofNat_toNat]

theorem next_more (hn : n < 256) (hlow : low ≤ n) (hhigh : n ≤ high) :
    next (UInt8.ofNat n) (some ⟨more + 1, low, high, code⟩) =
      ([], some ⟨more, 0x80, 0xBF, code * 0x40 + n % 0x40⟩) := by
  unfold next
  dsimp only
  rw [toNat_ofNat hn, if_pos ⟨hlow, hhigh⟩]

end Next

/-- From `p` on, the bytes are those of `c`. -/
inductive Spells (c : Char) : Option Part → List UInt8 → Prop
  | last {p : Option Part} {b : UInt8} (h : next b p = ([c], none)) : Spells c p [b]
  | more {p : Option Part} {q : Part} {b : UInt8} {bs : List UInt8} (h : next b p = ([], some q))
      (hbs : Spells c (some q) bs) : Spells c p (b :: bs)

theorem spells_char (c : Char) : Spells c none (String.utf8EncodeChar c) := by
  have hscalar := scalar c
  have hval : c.val.toNat = c.toNat := rfl
  unfold String.utf8EncodeChar
  rw [hval]
  dsimp only
  split
  · next h1 =>
    refine .last ?_
    rw [next_one (by omega), Char.ofNat_toNat]
  next h1 =>
  split
  · next h2 =>
    refine .more (next_two (by omega) (by omega)) (.last ?_)
    exact next_last (by omega) (by omega) (by omega) (by omega)
  next h2 =>
  split
  · next h3 =>
    refine .more (next_three (by omega) (by omega)) (.more (next_more (by omega) ?_ ?_) (.last ?_))
    · split <;> omega
    · split <;> omega
    · exact next_last (by omega) (by omega) (by omega) (by omega)
  next h3 =>
  refine .more (next_four (by omega) (by omega)) (.more (next_more (by omega) ?_ ?_)
    (.more (next_more (by omega) (by omega) (by omega)) (.last ?_)))
  · split <;> omega
  · split <;> omega
  · exact next_last (by omega) (by omega) (by omega) (by omega)

section Spells

variable {c : Char} {p : Option Part} {bs : List UInt8}

theorem Spells.decodeFrom (h : Spells c p bs) (rest : List UInt8) :
    decodeFrom p (bs ++ rest) = c :: decode rest := by
  induction h with
  | last h => rw [List.singleton_append, decodeFrom_cons, h, List.singleton_append, decode]
  | more h _ ih => rw [List.cons_append, decodeFrom_cons, h, List.nil_append, ih]

/-- A part of a character becomes one U+FFFD. -/
theorem Spells.decodeFrom_part (h : Spells c p bs) {part post : List UInt8} (hbs : bs = part ++ post)
    (hpost : post ≠ []) (hpart : p = none → part ≠ []) : Utf8.decodeFrom p part = [replacement] := by
  induction h generalizing part with
  | @last p b h =>
    cases part with
    | nil =>
      cases p with
      | none => exact absurd rfl (hpart rfl)
      | some q => rfl
    | cons b' part =>
      have hnil : part ++ post = [] := (List.cons.inj hbs).2.symm
      exact absurd (List.append_eq_nil_iff.mp hnil).2 hpost
  | @more p q b bs h _ ih =>
    cases part with
    | nil =>
      cases p with
      | none => exact absurd rfl (hpart rfl)
      | some q => rfl
    | cons b' part =>
      obtain ⟨rfl, htail⟩ := List.cons.inj hbs
      rw [decodeFrom_cons, h, List.nil_append]
      exact ih htail (by simp)

end Spells

theorem decode_encodeChar_append (c : Char) (bs : List UInt8) :
    decode (String.utf8EncodeChar c ++ bs) = c :: decode bs :=
  (spells_char c).decodeFrom bs

theorem decode_encode_append (s : List Char) (bs : List UInt8) :
    decode (encode s ++ bs) = s ++ decode bs := by
  induction s with
  | nil => rfl
  | cons c s ih =>
    rw [encode_cons, List.append_assoc, decode_encodeChar_append, ih]
    rfl

/-- **A text is what its bytes decode to.** -/
theorem decode_encode (s : List Char) : decode (encode s) = s := by
  have h := decode_encode_append s []
  rwa [List.append_nil, decode_nil, List.append_nil] at h

/-- A beginning of a character that is not all of it. -/
def IsPart (bs : List UInt8) : Prop :=
  bs ≠ [] ∧ ∃ c post, post ≠ [] ∧ String.utf8EncodeChar c = bs ++ post

theorem decode_part {bs : List UInt8} (h : IsPart bs) : decode bs = [replacement] := by
  obtain ⟨hne, c, post, hpost, hc⟩ := h
  exact (spells_char c).decodeFrom_part hc hpost fun _ => hne

/-- The characters of a text that are whole in the first `n` of its bytes. -/
def whole : Nat → List Char → List Char
  | _, [] => []
  | n, c :: t => if c.utf8Size ≤ n then c :: whole (n - c.utf8Size) t else []

@[simp] theorem whole_zero (t : List Char) : whole 0 t = [] := by
  cases t with
  | nil => rfl
  | cons c t => rw [whole, if_neg (Nat.not_le.mpr c.utf8Size_pos)]

theorem whole_cons_append (c : Char) (t : List Char) (n : Nat) :
    whole ((String.utf8EncodeChar c).length + n) (c :: t) = c :: whole n t := by
  rw [whole, String.length_utf8EncodeChar, if_pos (by omega), Nat.add_sub_cancel_left]

theorem whole_append (s t : List Char) (n : Nat) :
    whole ((encode s).length + n) (s ++ t) = s ++ whole n t := by
  induction s with
  | nil => simp
  | cons c s ih =>
    rw [encode_cons, List.length_append, Nat.add_assoc, List.cons_append, whole_cons_append, ih]
    rfl

/-- A beginning of the bytes of a text has whole characters, and a part of one at most. -/
theorem prefix_encode {bs : List UInt8} {t : List Char} (h : bs <+: encode t) :
    ∃ part, bs = encode (whole bs.length t) ++ part ∧ (part = [] ∨ IsPart part) := by
  induction t generalizing bs with
  | nil => exact ⟨[], List.prefix_nil.mp h, .inl rfl⟩
  | cons c t ih =>
    obtain ⟨rest, hrest⟩ := h
    rw [encode_cons, List.append_eq_append_iff] at hrest
    rcases hrest with ⟨post, hc, -⟩ | ⟨more, rfl, hmore⟩
    · have hlen : c.utf8Size = bs.length + post.length := by
        rw [← String.length_utf8EncodeChar, hc, List.length_append]
      by_cases hpost : post = []
      · subst hpost
        rw [List.append_nil] at hc
        have hwhole := whole_cons_append c t 0
        rw [Nat.add_zero, hc, whole_zero] at hwhole
        refine ⟨[], ?_, .inl rfl⟩
        rw [hwhole]
        simp [hc]
      · -- the bytes end within the character
        have hpos := List.length_pos_iff.mpr hpost
        have hwhole : whole bs.length (c :: t) = [] := by
          rw [whole, if_neg (by omega)]
        rw [hwhole]
        refine ⟨bs, rfl, ?_⟩
        by_cases hbs : bs = []
        · exact .inl hbs
        · exact .inr ⟨hbs, c, post, hpost, hc⟩
    · obtain ⟨part, hbs, hpart⟩ := ih ⟨rest, hmore.symm⟩
      refine ⟨part, ?_, hpart⟩
      rw [List.length_append, whole_cons_append, encode_cons, List.append_assoc, ← hbs]

/-- What follows the bytes of a text in those of another is in those of the rest. -/
theorem append_prefix_encode {s t : List Char} {bs : List UInt8} (h : encode s ++ bs <+: encode t) :
    ∃ t', t = s ++ t' ∧ bs <+: encode t' := by
  obtain ⟨rest, hrest⟩ := h
  have ht : t = s ++ decode (bs ++ rest) := by
    rw [← decode_encode t, ← hrest, List.append_assoc, decode_encode_append]
  refine ⟨_, ht, rest, ?_⟩
  have hencode := congrArg encode ht
  rw [← hrest, encode_append, List.append_assoc] at hencode
  exact List.append_cancel_left hencode

/-! ## ASCII -/

theorem le_of_mem_encodeChar {c : Char} (hc : 0x80 ≤ c.toNat) :
    ∀ b ∈ String.utf8EncodeChar c, 0x80 ≤ b.toNat := by
  have hscalar := scalar c
  have hval : c.val.toNat = c.toNat := rfl
  unfold String.utf8EncodeChar
  rw [hval]
  dsimp only
  intro b hb
  split at hb
  · omega
  split at hb
  · simp only [List.mem_cons, List.not_mem_nil, or_false] at hb
    rcases hb with rfl | rfl <;> rw [toNat_ofNat (by omega)] <;> omega
  split at hb
  · simp only [List.mem_cons, List.not_mem_nil, or_false] at hb
    rcases hb with rfl | rfl | rfl <;> rw [toNat_ofNat (by omega)] <;> omega
  · simp only [List.mem_cons, List.not_mem_nil, or_false] at hb
    rcases hb with rfl | rfl | rfl | rfl <;> rw [toNat_ofNat (by omega)] <;> omega

theorem encodeChar_ascii {c : Char} (hc : c.toNat < 0x80) :
    String.utf8EncodeChar c = [UInt8.ofNat c.toNat] := by
  have hval : c.val.toNat = c.toNat := rfl
  unfold String.utf8EncodeChar
  rw [hval]
  exact if_pos (by omega)

theorem count_encodeChar {c : Char} (hc : c.toNat < 0x80) (d : Char) :
    (String.utf8EncodeChar d).count (UInt8.ofNat c.toNat) = [d].count c := by
  by_cases hd : d.toNat < 0x80
  · have hbyte : UInt8.ofNat d.toNat = UInt8.ofNat c.toNat ↔ d = c := by
      constructor
      · intro h
        have hcode := congrArg UInt8.toNat h
        rw [toNat_ofNat (by omega), toNat_ofNat (by omega)] at hcode
        rw [← Char.ofNat_toNat d, hcode, Char.ofNat_toNat]
      · rintro rfl
        rfl
    rw [encodeChar_ascii hd, List.count_singleton, List.count_singleton]
    simp [hbyte]
  · have hne : d ≠ c := by
      rintro rfl
      exact hd hc
    rw [List.count_singleton, if_neg (by simpa using hne), List.count_eq_zero]
    intro hb
    have hle := le_of_mem_encodeChar (Nat.not_lt.mp hd) _ hb
    rw [toNat_ofNat (by omega)] at hle
    omega

/-- An ASCII character is counted by its byte. -/
theorem count_encode {c : Char} (hc : c.toNat < 0x80) (s : List Char) :
    (encode s).count (UInt8.ofNat c.toNat) = s.count c := by
  induction s with
  | nil => rfl
  | cons d s ih =>
    rw [encode_cons, List.count_append, count_encodeChar hc, ih, ← List.count_append,
      List.singleton_append]

end Utf8
