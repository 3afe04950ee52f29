import Mathlib.Data.List.Forall2
import MeshcoreBbs.Commands

/-!
# The arguments of a command line

`args` are the tokens after the verb and `rest` the line after it.  The verb is found twice: as
the first tokens, for `args`, and by a regular expression made of their upper case, for `rest`.
`rest_iff` says when the two agree: every token of the verb has to match its own upper case,
character by character.
-/

namespace Bbs

/-- What follows the first `k` words. -/
def afterWords : ℕ → Text → Text
  | 0, s => s
  | k + 1, s => afterWords k (afterWord s)

namespace Py

variable {py : Py}

/-- White space has no case: it comes from white space, and nothing else matches it. -/
structure Blanks (py : Py) : Prop where
  upper : ∀ s, (∀ c ∈ s, isSpace c = false) → ∀ c ∈ py.upper s, isSpace c = false
  matchesChar : ∀ p c, py.matchesChar p c = true → isSpace p = false → isSpace c = false

/-- A token that its own upper case matches to the end. -/
def MatchesUpper (py : Py) (token : Text) : Prop := py.matchLiteral (py.upper token) token = some []

instance (py : Py) (token : Text) : Decidable (py.MatchesUpper token) :=
  inferInstanceAs (Decidable (_ = _))

/-! ## Matching words -/

/-- A literal without white space takes a piece of the line without white space. -/
theorem matchLiteral_eq_some (hb : py.Blanks) {w s r : Text} (hw : ∀ c ∈ w, isSpace c = false)
    (h : py.matchLiteral w s = some r) :
    ∃ u, s = u ++ r ∧ (∀ c ∈ u, isSpace c = false) ∧ py.matchLiteral w u = some [] := by
  induction w generalizing s with
  | nil =>
    rw [matchLiteral, Option.some.injEq] at h
    exact ⟨[], h, fun c hc => (List.not_mem_nil hc).elim, rfl⟩
  | cons p w ih =>
    cases s with
    | nil => cases h
    | cons c s =>
      rw [matchLiteral] at h
      split at h
      · next hpc =>
        obtain ⟨u, rfl, hu, hmatch⟩ := ih (fun d hd => hw d (List.mem_cons_of_mem p hd)) h
        refine ⟨c :: u, rfl, ?_, ?_⟩
        · intro d hd
          rcases List.mem_cons.mp hd with rfl | hd
          · exact hb.matchesChar p d hpc (hw p List.mem_cons_self)
          · exact hu d hd
        · rw [matchLiteral, if_pos hpc]
          exact hmatch
      · cases h

/-- What a literal leaves of a line is the rest of the first word and what comes after it. -/
theorem firstWord_of_append {u r : Text} (hu : ∀ c ∈ u, isSpace c = false) :
    firstWord (u ++ r) = u ++ firstWord r ∧ afterWord (u ++ r) = afterWord r := by
  unfold firstWord afterWord
  constructor
  · exact List.takeWhile_append_of_pos fun c hc => by rw [hu c hc]; rfl
  · rw [List.dropWhile_append_of_pos fun c hc => by rw [hu c hc]; rfl]

theorem afterWord_length_lt {s : Text} (h : firstWord s ≠ []) : (afterWord s).length < s.length := by
  have hlen := congrArg List.length (firstWord_append s)
  rw [List.length_append] at hlen
  have hpos : 0 < (firstWord s).length := List.length_pos_of_ne_nil h
  have hle : (afterWord s).length ≤ (s.dropWhile fun c => !isSpace c).length :=
    (List.dropWhile_suffix _).length_le
  omega

theorem afterWord_eq_dropWhile {r : Text} (h : firstWord r = []) :
    afterWord r = r.dropWhile isSpace := by
  have hr := firstWord_append r
  rw [h, List.nil_append] at hr
  unfold afterWord
  rw [hr]

/-- The last word of the pattern takes a whole word when what it leaves is what follows that
word. -/
theorem dropWhile_eq_afterWord_iff {r : Text} :
    r.dropWhile isSpace = afterWord r ↔ firstWord r = [] := by
  constructor
  · intro h
    by_contra hne
    cases r with
    | nil => exact hne rfl
    | cons c r =>
      have hc : isSpace c = false := not_isSpace_of_mem_firstWord (s := c :: r) (by
        cases hw : firstWord (c :: r) with
        | nil => exact absurd hw hne
        | cons d w =>
          have hhead := firstWord_append (c :: r)
          rw [hw, List.cons_append] at hhead
          rw [(List.cons.inj hhead).1]
          exact List.mem_cons_self)
      have hlt := afterWord_length_lt hne
      rw [← h, List.dropWhile_cons_of_neg (by rw [hc]; exact Bool.false_ne_true)] at hlt
      exact lt_irrefl _ hlt
  · intro h
    exact (afterWord_eq_dropWhile h).symm

theorem matchLiteral_firstWord_iff (hb : py.Blanks) {w s r : Text}
    (hw : ∀ c ∈ w, isSpace c = false) (h : py.matchLiteral w s = some r) :
    py.matchLiteral w (firstWord s) = some [] ↔ firstWord r = [] := by
  obtain ⟨u, rfl, hu, hmatch⟩ := matchLiteral_eq_some hb hw h
  rw [(firstWord_of_append hu).1, matchLiteral_append hmatch, Option.some.injEq]

theorem matchWords_space {c : Char} (hc : isSpace c = true) (v : Text) (vs : List Text) (r : Text) :
    (py.matchWords (v :: vs) (c :: r)).map (·.dropWhile isSpace) = py.matchLine (v :: vs) (c :: r) := by
  rw [matchWords, if_pos hc]
  rfl

theorem matchLine_dropWhile (v : Text) (vs : List Text) (r : Text) :
    py.matchLine (v :: vs) (r.dropWhile isSpace) = py.matchLine (v :: vs) r := by
  have hdrop : (r.dropWhile isSpace).dropWhile isSpace = r.dropWhile isSpace :=
    List.dropWhile_idempotent ..
  rw [matchLine, hdrop]
  rfl

theorem matchLine_eq {w s : Text} (ws : List Text) (hs : s.dropWhile isSpace = s) :
    py.matchLine (w :: ws) s =
      (py.matchLiteral w s).bind fun r => (py.matchWords ws r).map (·.dropWhile isSpace) := by
  rw [matchLine, hs]
  cases py.matchLiteral w s with
  | none => rfl
  | some r => rfl

theorem ne_nil_of_lt_words {s : Text} {n : ℕ} (h : n < (words s).length) : s ≠ [] := by
  rintro rfl
  exact absurd h (Nat.not_lt_zero n)

/-- The next word of the pattern needs white space before it. -/
theorem matchWords_iff {v : Text} {vs : List Text} {r x : Text} (hr : words (afterWord r) ≠ []) :
    (py.matchWords (v :: vs) r).map (·.dropWhile isSpace) = some x ↔
      firstWord r = [] ∧ py.matchLine (v :: vs) (afterWord r) = some x := by
  cases r with
  | nil => exact absurd rfl hr
  | cons c r =>
    by_cases hc : isSpace c = true
    · have hfirst : firstWord (c :: r) = [] := by
        unfold firstWord
        rw [List.takeWhile_cons_of_neg (by rw [hc]; exact Bool.false_ne_true)]
      rw [matchWords_space hc, afterWord_eq_dropWhile hfirst, matchLine_dropWhile,
        and_iff_right hfirst]
    · constructor
      · intro h
        rw [matchWords, if_neg hc] at h
        cases h
      · rintro ⟨hfirst, _⟩
        have hmem : c ∈ firstWord (c :: r) := by
          unfold firstWord
          rw [List.takeWhile_cons_of_pos (by simpa using hc)]
          exact List.mem_cons_self
        rw [hfirst] at hmem
        cases hmem

/-- **The pattern takes whole words**, when each of its words matches one to the end. -/
theorem matchLine_iff (hb : py.Blanks) {w : Text} {ws : List Text}
    (hws : ∀ v ∈ w :: ws, ∀ c ∈ v, isSpace c = false) {s : Text} (hs : s.dropWhile isSpace = s)
    (hlen : ws.length < (words s).length) :
    py.matchLine (w :: ws) s = some (afterWords (ws.length + 1) s) ↔
      List.Forall₂ (fun v token => py.matchLiteral v token = some []) (w :: ws)
        ((words s).take (ws.length + 1)) := by
  induction ws generalizing w s with
  | nil =>
    rw [words_of_ne_nil (ne_nil_of_lt_words hlen) hs, List.length_nil, List.take_succ_cons, List.take_zero,
      List.forall₂_cons, and_iff_left .nil, matchLine_eq _ hs]
    cases hw : py.matchLiteral w s with
    | none =>
      refine iff_of_false (Option.some_ne_none _).symm fun h => ?_
      rw [matchLiteral_firstWord h] at hw
      cases hw
    | some r =>
      obtain ⟨u, rfl, hu, _⟩ := matchLiteral_eq_some hb (hws w List.mem_cons_self) hw
      rw [matchLiteral_firstWord_iff hb (hws w List.mem_cons_self) hw]
      show some (r.dropWhile isSpace) = some (afterWord (u ++ r)) ↔ firstWord r = []
      rw [(firstWord_of_append hu).2, Option.some.injEq]
      exact dropWhile_eq_afterWord_iff
  | cons v vs ih =>
    have hrest : vs.length < (words (afterWord s)).length := by
      rw [words_of_ne_nil (ne_nil_of_lt_words hlen) hs, List.length_cons, List.length_cons] at hlen
      omega
    have hvs := ih (fun v' hv' => hws v' (List.mem_cons_of_mem w hv')) (dropWhile_afterWord s) hrest
    rw [words_of_ne_nil (ne_nil_of_lt_words hlen) hs, List.length_cons, List.take_succ_cons, List.forall₂_cons,
      ← hvs, matchLine_eq _ hs]
    cases hw : py.matchLiteral w s with
    | none =>
      refine iff_of_false (Option.some_ne_none _).symm fun ⟨h, _⟩ => ?_
      rw [matchLiteral_firstWord h] at hw
      cases hw
    | some r =>
      obtain ⟨u, rfl, hu, _⟩ := matchLiteral_eq_some hb (hws w List.mem_cons_self) hw
      rw [matchLiteral_firstWord_iff hb (hws w List.mem_cons_self) hw]
      show _ = some (afterWords (vs.length + 1) (afterWord (u ++ r))) ↔ _
      rw [(firstWord_of_append hu).2] at hrest ⊢
      exact matchWords_iff (List.ne_nil_of_length_pos (Nat.zero_lt_of_lt hrest))

/-! ## The line after the pattern -/

theorem matchLiteral_suffix {w s r : Text} (h : py.matchLiteral w s = some r) : r <:+ s := by
  induction w generalizing s with
  | nil =>
    rw [matchLiteral, Option.some.injEq] at h
    exact h ▸ List.suffix_refl s
  | cons p w ih =>
    cases s with
    | nil => cases h
    | cons c s =>
      rw [matchLiteral] at h
      split at h
      · exact (ih h).trans (List.suffix_cons c s)
      · cases h

theorem matchWords_suffix {ws : List Text} {s r : Text} (h : py.matchWords ws s = some r) :
    r <:+ s := by
  induction ws generalizing s with
  | nil =>
    rw [matchWords, Option.some.injEq] at h
    exact h ▸ List.suffix_refl s
  | cons w ws ih =>
    cases s with
    | nil => cases h
    | cons c s =>
      rw [matchWords] at h
      split at h
      · obtain ⟨r', hr', h⟩ := Option.bind_eq_some_iff.mp h
        exact (ih h).trans ((matchLiteral_suffix hr').trans (List.dropWhile_suffix _))
      · cases h

theorem matchLine_suffix {w : Text} {ws : List Text} {s r : Text}
    (h : py.matchLine (w :: ws) s = some r) : r <:+ s ∧ r.dropWhile isSpace = r := by
  obtain ⟨r', hr', rfl⟩ := Option.map_eq_some_iff.mp h
  obtain ⟨r'', hr'', hr'⟩ := Option.bind_eq_some_iff.mp hr'
  constructor
  · apply (List.dropWhile_suffix _).trans
    apply (matchWords_suffix hr').trans
    exact (matchLiteral_suffix hr'').trans (List.dropWhile_suffix _)
  · exact List.dropWhile_idempotent ..

end Py

/-! ## Parsed commands -/

theorem afterWords_suffix (k : ℕ) (s : Text) : afterWords k s <:+ s := by
  induction k generalizing s with
  | zero => exact List.suffix_refl s
  | succ k ih => exact (ih (afterWord s)).trans (afterWord_suffix s)

theorem dropWhile_afterWords {s : Text} (hs : s.dropWhile isSpace = s) (k : ℕ) :
    (afterWords k s).dropWhile isSpace = afterWords k s := by
  induction k generalizing s with
  | zero => exact hs
  | succ k ih => exact ih (dropWhile_afterWord s)

theorem words_afterWords {s : Text} (hs : s.dropWhile isSpace = s) (k : ℕ) :
    words (afterWords k s) = (words s).drop k := by
  induction k generalizing s with
  | zero => rfl
  | succ k ih =>
    rw [afterWords, ih (dropWhile_afterWord s)]
    by_cases hne : s = []
    · subst hne
      rw [words_nil, List.drop_nil]
      exact List.drop_nil
    · rw [words_of_ne_nil hne hs, List.drop_succ_cons]

namespace Commands

variable {py : Py}

/-- The number of tokens in the verb. -/
def verbTokens (py : Py) : List Text → ℕ
  | [] => 0
  | [_] => 1
  | token :: sub :: more =>
    if py.upper token = lit "ADMIN" then
      if py.upper sub = lit "BOARD" ∧ more ≠ [] then 3 else 2
    else 1

theorem splitOn_append_blank {a b : Text} (ha : ' ' ∉ a) :
    (a ++ ' ' :: b).splitOn ' ' = a :: b.splitOn ' ' := by
  refine List.splitOnP_append_cons_of_forall_mem (fun c hc => ?_) ' ' rfl b
  exact beq_eq_false_iff_ne.mpr fun h => ha (h ▸ hc)

theorem splitOn_of_notMem {a : Text} (ha : ' ' ∉ a) : a.splitOn ' ' = [a] := by
  refine List.splitOnP_eq_singleton fun c hc => ?_
  exact beq_eq_false_iff_ne.mpr fun h => ha (h ▸ hc)

/-- The verb is the upper case of its tokens, and the other tokens are the arguments. -/
theorem verbAndArgs_eq (py : Py) {tokens : List Text} (hne : tokens ≠ [])
    (hblank : ∀ token ∈ tokens, ' ' ∉ token) :
    (verbAndArgs py tokens).2 = tokens.drop (verbTokens py tokens) ∧
      (verbAndArgs py tokens).1.splitOn ' ' = (tokens.take (verbTokens py tokens)).map py.upper := by
  have hupper : ∀ token ∈ tokens, ' ' ∉ py.upper token := fun token h hc =>
    hblank token h (py.upper_blank token hc)
  cases tokens with
  | nil => exact absurd rfl hne
  | cons token args =>
    have htoken : ' ' ∉ py.upper token := hupper token List.mem_cons_self
    cases args with
    | nil => exact ⟨rfl, splitOn_of_notMem htoken⟩
    | cons sub more =>
      have hsub : ' ' ∉ py.upper sub := hupper sub (by simp)
      by_cases hadmin : py.upper token = lit "ADMIN"
      · have hsplit : ∀ {b : Text}, (lit "ADMIN " ++ b).splitOn ' ' = lit "ADMIN" :: b.splitOn ' ' :=
          splitOn_append_blank (a := lit "ADMIN") (by decide)
        cases more with
        | nil =>
          rw [verbAndArgs, verbTokens]
          dsimp only
          rw [if_pos hadmin, if_pos hadmin, if_neg fun h => h.2 rfl, hsplit, splitOn_of_notMem hsub,
            ← hadmin]
          exact ⟨rfl, rfl⟩
        | cons third more =>
          have hthird : ' ' ∉ py.upper third := hupper third (by simp)
          rw [verbAndArgs, verbTokens]
          dsimp only
          rw [if_pos hadmin, if_pos hadmin]
          by_cases hboard : py.upper sub = lit "BOARD"
          · have hverb : lit "ADMIN " ++ py.upper sub = lit "ADMIN BOARD" := by
              rw [hboard]
              rfl
            rw [if_pos hverb, if_pos ⟨hboard, List.cons_ne_nil _ _⟩]
            dsimp only
            rw [List.append_assoc, hsplit, splitOn_append_blank hsub, splitOn_of_notMem hthird,
              ← hadmin]
            exact ⟨rfl, rfl⟩
          · have hverb : lit "ADMIN " ++ py.upper sub ≠ lit "ADMIN BOARD" := by
              intro h
              have happend : lit "ADMIN " ++ py.upper sub = lit "ADMIN " ++ lit "BOARD" := h
              exact hboard (List.append_cancel_left happend)
            rw [if_neg hverb, if_neg fun h => hboard h.1]
            dsimp only
            rw [hsplit, splitOn_of_notMem hsub, ← hadmin]
            exact ⟨rfl, rfl⟩
      · rw [verbAndArgs, verbTokens]
        dsimp only
        rw [if_neg hadmin, if_neg hadmin]
        exact ⟨rfl, splitOn_of_notMem htoken⟩

theorem one_le_verbTokens (py : Py) {tokens : List Text} (hne : tokens ≠ []) : 1 ≤ verbTokens py tokens := by
  cases tokens with
  | nil => exact absurd rfl hne
  | cons token args =>
    cases args with
    | nil => exact le_refl 1
    | cons sub more =>
      rw [verbTokens]
      split
      · split
        · decide
        · decide
      · decide

theorem verbTokens_le (py : Py) (tokens : List Text) : verbTokens py tokens ≤ tokens.length := by
  cases tokens with
  | nil => exact le_refl 0
  | cons token args =>
    cases args with
    | nil => exact le_refl 1
    | cons sub more =>
      rw [verbTokens, List.length_cons, List.length_cons]
      split
      · split
        · next hboard =>
          have hpos : 0 < more.length := List.length_pos_of_ne_nil hboard.2
          omega
        · omega
      · omega

theorem isSpace_of_mem_words {s w : Text} (hw : w ∈ words s) : ∀ c ∈ w, isSpace c = false :=
  fun _ hc => not_isSpace_of_mem_splitOnP (List.mem_of_mem_filter hw) hc

theorem strip_eq_self {s : Text} (hs : strip s = s) {t : Text} (ht : t <:+ s)
    (hdrop : t.dropWhile isSpace = t) : strip t = t := by
  refine strip_of_suffix (s := s) ?_ hdrop
  rw [hs]
  exact ht

/-- `rest` is right only when the pattern matches, and takes the tokens of the verb. -/
theorem strip_getD_iff {s w : Text} (hstrip : strip s = s) (hdrop : s.dropWhile isSpace = s)
    (hs : s ≠ []) (ws : List Text) (k : ℕ) :
    strip ((py.matchLine (w :: ws) s).getD s) = afterWords (k + 1) s ↔
      py.matchLine (w :: ws) s = some (afterWords (k + 1) s) := by
  cases hmatch : py.matchLine (w :: ws) s with
  | none =>
    rw [Option.getD_none, hstrip]
    constructor
    · intro h
      have hlt := Py.afterWord_length_lt (firstWord_ne_nil hs hdrop)
      have hle : (afterWords (k + 1) s).length ≤ (afterWord s).length :=
        (afterWords_suffix k (afterWord s)).length_le
      rw [← h] at hle
      omega
    · intro h
      cases h
  | some r =>
    obtain ⟨hsuffix, hr⟩ := Py.matchLine_suffix hmatch
    rw [Option.getD_some, strip_eq_self hstrip hsuffix hr, Option.some.injEq]

/-- The line after the upper case of its first `k` tokens. -/
theorem rest_iff_tokens (hb : py.Blanks) {s : Text} (hstrip : strip s = s)
    (hdrop : s.dropWhile isSpace = s) (hs : s ≠ []) {k : ℕ} (hone : 1 ≤ k)
    (hle : k ≤ (words s).length) :
    let rest := strip ((py.matchLine (((words s).take k).map py.upper) s).getD s)
    (rest = afterWords k s ∧ words rest = (words s).drop k) ↔
      ∀ token ∈ (words s).take k, py.MatchesUpper token := by
  dsimp only
  obtain ⟨j, rfl⟩ : ∃ j, k = j + 1 := ⟨k - 1, by omega⟩
  cases htake : (words s).take (j + 1) with
  | nil =>
    have hzero := congrArg List.length htake
    rw [List.length_take, List.length_nil] at hzero
    omega
  | cons token ts =>
    have hlen := congrArg List.length htake
    rw [List.length_take, List.length_cons] at hlen
    obtain rfl : j = ts.length := by omega
    have hmem : ∀ t ∈ token :: ts, t ∈ words s := fun t h => List.mem_of_mem_take (htake ▸ h)
    have hupper : ∀ v ∈ (token :: ts).map py.upper, ∀ c ∈ v, isSpace c = false := by
      intro v hv
      obtain ⟨t, ht, rfl⟩ := List.mem_map.mp hv
      exact hb.upper t fun c hc => isSpace_of_mem_words (hmem t ht) c hc
    rw [List.map_cons] at hupper ⊢
    have hiff := Py.matchLine_iff hb hupper hdrop (by rw [List.length_map]; omega)
    rw [List.length_map, htake, ← List.map_cons, List.forall₂_map_left_iff,
      List.forall₂_same] at hiff
    rw [strip_getD_iff hstrip hdrop hs, ← List.map_cons]
    constructor
    · rintro ⟨hrest, _⟩
      exact hiff.mp hrest
    · intro h
      have hmatch := hiff.mpr h
      refine ⟨hmatch, ?_⟩
      rw [hmatch, Option.getD_some,
        strip_eq_self hstrip (afterWords_suffix _ s) (dropWhile_afterWords hdrop _)]
      exact words_afterWords hdrop _

/-- **The rest of a line** is what follows the tokens of its verb exactly when each of them matches
its own upper case. -/
theorem rest_iff (hb : py.Blanks) (line : Text) (hline : strip line ≠ []) :
    ∃ parsed, parse py line = some parsed ∧
      let tokens := words (strip line)
      let k := verbTokens py tokens
      parsed.args = tokens.drop k ∧
      ((parsed.rest = afterWords k (strip line) ∧ words parsed.rest = parsed.args) ↔
        ∀ token ∈ tokens.take k, py.MatchesUpper token) := by
  have hdrop := dropWhile_strip line
  have hstrip : strip (strip line) = strip line := strip_of_suffix (List.suffix_refl _) hdrop
  have hparse : parse py line = some ⟨(verbAndArgs py (words (strip line))).1,
      (verbAndArgs py (words (strip line))).2,
      strip ((py.matchLine ((verbAndArgs py (words (strip line))).1.splitOn ' ')
        (strip line)).getD (strip line))⟩ := by
    unfold parse
    dsimp only
    rw [if_neg hline]
  refine ⟨_, hparse, ?_⟩
  have hne : words (strip line) ≠ [] := by
    rw [words_of_ne_nil hline hdrop]
    exact List.cons_ne_nil _ _
  obtain ⟨hargs, hverb⟩ := verbAndArgs_eq py hne fun token h => blank_notMem_of_mem_words h
  dsimp only
  rw [hargs, hverb]
  exact ⟨rfl, rest_iff_tokens hb hstrip hdrop hline (one_le_verbTokens py hne) (verbTokens_le py _)⟩

/-- ASCII, and the ligature that `str.upper` takes apart. -/
def ligaturePy : Py :=
  { asciiPy with
    upper := fun s => s.flatMap fun c => if c = 'ﬆ' then lit "ST" else [c.toUpper]
    upper_blank := by
      intro s h
      obtain ⟨c, hc, hup⟩ := List.mem_flatMap.mp h
      split at hup
      · exact absurd hup (by decide)
      · rw [List.mem_singleton] at hup
        exact toUpper_eq_blank hup.symm ▸ hc }

theorem isSpace_of_letter {c : Char} (hlo : 65 ≤ c.toNat) (hhi : c.toNat ≤ 122) :
    isSpace c = false := by
  unfold isSpace
  simp only [Bool.or_eq_false_iff, Bool.and_eq_false_iff, decide_eq_false_iff_not,
    beq_eq_false_iff_ne]
  omega

theorem isSpace_toUpper (c : Char) : isSpace c.toUpper = isSpace c := by
  unfold Char.toUpper
  split
  · next hc =>
    have hlo : 97 ≤ c.val.toNat := UInt32.le_iff_toNat_le.mp hc.1
    have hhi : c.val.toNat ≤ 122 := UInt32.le_iff_toNat_le.mp hc.2
    have hshift : (c.val + ('A'.val - 'a'.val)).toNat = (c.val.toNat + (2 ^ 32 - 32)) % 2 ^ 32 :=
      UInt32.toNat_add ..
    have hleft : isSpace c = false := isSpace_of_letter (by show 65 ≤ c.val.toNat; omega) hhi
    rw [hleft]
    refine isSpace_of_letter ?_ ?_
    · show 65 ≤ (c.val + ('A'.val - 'a'.val)).toNat
      omega
    · show (c.val + ('A'.val - 'a'.val)).toNat ≤ 122
      omega
  · rfl

theorem isSpace_toLower (c : Char) : isSpace c.toLower = isSpace c := by
  unfold Char.toLower
  split
  · next hc =>
    have hlo : 65 ≤ c.val.toNat := UInt32.le_iff_toNat_le.mp hc.1
    have hhi : c.val.toNat ≤ 90 := UInt32.le_iff_toNat_le.mp hc.2
    have hshift : (c.val + ('a'.val - 'A'.val)).toNat = (c.val.toNat + 32) % 2 ^ 32 :=
      UInt32.toNat_add ..
    have hleft : isSpace c = false := isSpace_of_letter hlo (by show c.val.toNat ≤ 122; omega)
    rw [hleft]
    refine isSpace_of_letter ?_ ?_
    · show 65 ≤ (c.val + ('a'.val - 'A'.val)).toNat
      omega
    · show (c.val + ('a'.val - 'A'.val)).toNat ≤ 122
      omega
  · rfl

theorem ligaturePy_blanks : ligaturePy.Blanks where
  upper s hs c hc := by
    obtain ⟨d, hd, hc⟩ := List.mem_flatMap.mp hc
    split at hc
    · have hletters : (lit "ST").all (fun c => !isSpace c) = true := by decide
      simpa using List.all_eq_true.mp hletters c hc
    · rw [List.mem_singleton] at hc
      rw [hc, isSpace_toUpper]
      exact hs d hd
  matchesChar p c h hp := by
    have hlower : p.toLower = c.toLower := beq_iff_eq.mp h
    rw [← isSpace_toLower, ← hlower, isSpace_toLower]
    exact hp

/-- The board of a post, read through the ligature. -/
theorem rest_iff_post : ∃ parsed, parse ligaturePy (lit " post  general  hi  all ") = some parsed ∧
    parsed.args = [lit "general", lit "hi", lit "all"] ∧ parsed.rest = lit "general  hi  all" := by
  obtain ⟨parsed, hparse, hargs, hiff⟩ := rest_iff ligaturePy_blanks (lit " post  general  hi  all ")
    (by decide)
  exact ⟨parsed, hparse, hargs, (hiff.mpr (by decide +kernel)).1⟩

/-- The verb is `POST`, and stays in the rest of the line. -/
theorem rest_of_ligature : ∃ parsed, parse ligaturePy (lit "poﬆ general hi") = some parsed ∧
    parsed.verb = lit "POST" ∧ parsed.args = [lit "general", lit "hi"] ∧
    parsed.rest = lit "poﬆ general hi" ∧ words parsed.rest ≠ parsed.args := by
  refine ⟨_, rfl, ?_⟩
  decide +kernel

end Commands

end Bbs
