import MeshcoreBbs.Lib.GreedyCut
import MeshcoreBbs.Text

/-!
# Reply formatting (`format.py`)

`split_packets` runs a greedy line packer twice: at the full packet size, to
learn the packet count `n`, and at the payload budget left by a prefix `(n/n) `.
The loops are translated as folds over their local variables; `layout` says in
one line what the packer does with a list of lines:

    packLines text b = (layout b (splitLines text)).map Payload.text    (packLines_eq)
    hardWrap line b = greedy Char.utf8Size 0 b line      for 4 ≤ b      (hardWrap_eq)

The lines longer than the budget at the very start are hard-wrapped; a longer
line met after a line that fits is never wrapped.
-/

namespace Bbs.Format

open GreedyCut

/-! ## `_hard_wrap` -/

/-- `out`, `cur` and `cur_len` of `_hard_wrap`. -/
structure WrapState where
  out : List Text
  cur : Text
  curLen : Nat

/-- One iteration of `_hard_wrap`. -/
def wrapStep (budget : Nat) (st : WrapState) (ch : Char) : WrapState :=
  let chLen := ch.utf8Size
  if budget < st.curLen + chLen then
    { out := st.out ++ [st.cur], cur := [ch], curLen := chLen }
  else
    { st with cur := st.cur ++ [ch], curLen := st.curLen + chLen }

def WrapState.finish (st : WrapState) : List Text :=
  if st.cur.isEmpty then st.out else st.out ++ [st.cur]

def hardWrap (line : Text) (budget : Nat) : List Text :=
  (line.foldl (wrapStep budget) { out := [], cur := [], curLen := 0 }).finish

/-! ## `_pack_lines` -/

/-- `packets`, `cur` and `cur_size` of `_pack_lines`. -/
structure PackState where
  packets : List Text
  cur : List Text
  curSize : Nat

/-- One iteration of `_pack_lines`. -/
def packStep (budget : Nat) (st : PackState) (line : Text) : PackState :=
  let lineBytes := utf8Len line + (if st.cur.isEmpty then 0 else 1)
  if !st.cur.isEmpty && budget < st.curSize + lineBytes then
    { packets := st.packets ++ [joinLines st.cur], cur := [line], curSize := utf8Len line }
  else if budget < utf8Len line then
    let flushed := if st.cur.isEmpty then st
      else { packets := st.packets ++ [joinLines st.cur], cur := [], curSize := 0 }
    { flushed with packets := flushed.packets ++ hardWrap line budget }
  else
    { st with cur := st.cur ++ [line], curSize := st.curSize + lineBytes }

def PackState.finish (st : PackState) : List Text :=
  if st.cur.isEmpty then st.packets else st.packets ++ [joinLines st.cur]

def packLines (text : Text) (budget : Nat) : List Text :=
  ((splitLines text).foldl (packStep budget) { packets := [], cur := [], curSize := 0 }).finish

/-! ## `split_packets` -/

def defaultPacketBytes : Nat := 140

/-- The prefix `(i/n) `. -/
def header (i n : Nat) : Text :=
  '(' :: decimal i ++ '/' :: decimal n ++ [')', ' ']

def splitPackets (text : Text) (packetBytes : Nat) : List Text :=
  let text := rstripNewlines text
  if text.isEmpty then [[]]
  else if utf8Len text ≤ packetBytes then [text]
  else
    let raw := packLines text packetBytes
    if raw.length = 1 then raw
    else
      let n := raw.length
      let prefixLen := utf8Len (header n n)
      let budget := packetBytes - prefixLen
      let budget := if budget < 16 then 16 else budget
      let packets := packLines text budget
      packets.zipIdx.map fun p => header (p.2 + 1) n ++ p.1

/-- The branch `budget = 16` of `split_packets` is taken. -/
def takesFloor (text : Text) (packetBytes : Nat) : Prop :=
  let text := rstripNewlines text
  let n := (packLines text packetBytes).length
  packetBytes < utf8Len text ∧ n ≠ 1 ∧ packetBytes - utf8Len (header n n) < 16

/-- `truncate(s, max_chars, ellipsis)`; a negative slice bound counts from the end. -/
def truncate (s : Text) (maxChars : Nat) (ellipsis : Text) : Text :=
  if s.length ≤ maxChars then s
  else
    let stop := if ellipsis.length ≤ maxChars then maxChars - ellipsis.length
      else s.length - (ellipsis.length - maxChars)
    s.take stop ++ ellipsis

/-! ## What the packer does -/

/-- What one packet carries: a piece of a hard-wrapped line, or whole lines. -/
inductive Payload
  | piece (p : Text)
  | lines (ls : List Text)

def Payload.text : Payload → Text
  | .piece p => p
  | .lines ls => joinLines ls

/-- A line longer than the budget. -/
def long (b : Nat) (line : Text) : Bool := decide (b < utf8Len line)

/-- Payloads of the packer: the long lines at the start in pieces, then greedy
groups of whole lines. -/
def layout (b : Nat) (ls : List Text) : List Payload :=
  (ls.takeWhile (long b)).flatMap (fun l => (hardWrap l b).map .piece) ++
    (greedy utf8Len 1 b (ls.dropWhile (long b))).map .lines

theorem layout_cons_long {b : Nat} {l : Text} (h : long b l = true) (ls : List Text) :
    layout b (l :: ls) = (hardWrap l b).map .piece ++ layout b ls := by
  simp [layout, h]

theorem layout_fit {b : Nat} {ls : List Text} (h : ∀ l ∈ ls.head?, long b l = false) :
    layout b ls = (greedy utf8Len 1 b ls).map .lines := by
  cases ls with
  | nil => rfl
  | cons l ls =>
    have hl : long b l = false := h l rfl
    simp [layout, hl]

theorem foldl_wrapStep (b : Nat) (s : Text) : ∀ (out : List Text) (cur : Text) (len : Nat),
    cur ≠ [] →
    (s.foldl (wrapStep b) ⟨out, cur, len⟩).finish =
      out ++ fillFrom Char.utf8Size 0 b cur len s := by
  induction s with
  | nil =>
    intro out cur len hne
    simp [WrapState.finish, fillFrom, hne]
  | cons c s ih =>
    intro out cur len hne
    simp only [List.foldl_cons, wrapStep, fillFrom, Nat.add_zero]
    split
    · rw [ih _ _ _ (by simp)]
      simp
    · rw [ih _ _ _ (by simp)]

/-- With room for any character, `_hard_wrap` cuts greedily. -/
theorem hardWrap_eq (line : Text) (b : Nat) (hb : 4 ≤ b) :
    hardWrap line b = greedy Char.utf8Size 0 b line := by
  cases line with
  | nil => rfl
  | cons c s =>
    have hc := c.utf8Size_le_four
    have h0 : wrapStep b ⟨[], [], 0⟩ c = ⟨[], [c], c.utf8Size⟩ := by
      simp only [wrapStep, Nat.zero_add, List.nil_append]
      rw [if_neg (by omega)]
    rw [hardWrap, List.foldl_cons, h0, foldl_wrapStep b s _ _ _ (by simp)]
    rfl

theorem foldl_packStep (b : Nat) (ls : List Text) :
    ∀ (packets : List Text) (cur : List Text) (size : Nat), cur ≠ [] →
    (ls.foldl (packStep b) ⟨packets, cur, size⟩).finish =
      packets ++ (fillFrom utf8Len 1 b cur size ls).map joinLines := by
  induction ls with
  | nil =>
    intro packets cur size hne
    simp [PackState.finish, fillFrom, hne]
  | cons l ls ih =>
    intro packets cur size hne
    have he : cur.isEmpty = false := by simpa using hne
    simp only [List.foldl_cons, packStep, fillFrom, he, Bool.not_false, Bool.true_and,
      decide_eq_true_eq, Bool.false_eq_true, if_false]
    split
    · rw [ih _ _ _ (by simp)]
      simp
    · rw [if_neg (by omega), ih _ _ _ (by simp)]

/-- As long as nothing is buffered, long lines are wrapped and leave the buffer empty. -/
theorem foldl_packStep_nil (b : Nat) (ls : List Text) : ∀ (packets : List Text),
    (ls.foldl (packStep b) ⟨packets, [], 0⟩).finish =
      packets ++ (layout b ls).map Payload.text := by
  induction ls with
  | nil =>
    intro packets
    simp [PackState.finish, layout, greedy]
  | cons l ls ih =>
    intro packets
    simp only [List.foldl_cons, packStep, List.isEmpty_nil, Bool.not_true, Bool.false_and,
      Bool.false_eq_true, if_false, if_true, Nat.add_zero, Nat.zero_add, List.nil_append]
    split
    · next hl =>
      have ht : long b l = true := by simpa [long] using hl
      rw [ih, layout_cons_long ht]
      simp [Function.comp_def, Payload.text]
    · next hl =>
      have ht : long b l = false := by simpa [long] using hl
      rw [foldl_packStep b ls _ _ _ (by simp), layout_fit (by simpa using ht)]
      simp [greedy, Function.comp_def, Payload.text]

theorem packLines_eq (text : Text) (b : Nat) :
    packLines text b = (layout b (splitLines text)).map Payload.text := by
  rw [packLines, foldl_packStep_nil, List.nil_append]

theorem packLines_length (text : Text) (b : Nat) :
    (packLines text b).length = (layout b (splitLines text)).length := by
  rw [packLines_eq, List.length_map]

/-! ## Sizes -/

theorem utf8Len_joinLines (ls : List Text) : utf8Len (joinLines ls) = weight utf8Len 1 ls := by
  induction ls with
  | nil => rfl
  | cons l ls ih =>
    rcases eq_or_ne ls [] with rfl | h
    · simp
    · rw [joinLines_cons l ls h, weight_cons l ls h, utf8Len_append, utf8Len_cons, ih]
      have : Char.utf8Size '\n' = 1 := by decide
      omega

theorem utf8Len_eq_weight (s : Text) : utf8Len s = weight Char.utf8Size 0 s :=
  (weight_zero_sep s).symm

/-- A text of several packets does not fit into one. -/
theorem weight_splitLines (t : Text) : weight utf8Len 1 (splitLines t) = utf8Len t := by
  rw [← utf8Len_joinLines, joinLines_splitLines]

end Bbs.Format
