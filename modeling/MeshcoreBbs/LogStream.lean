import MeshcoreBbs.Text
import MeshcoreBbs.Lib.Lines
import MeshcoreBbs.Lib.Utf8

/-!
# Following the log (`_read_log_tail`, `api_logs_stream`)

The stream keeps the byte offset up to which it has read, and sends the lines of whatever came
after it.  So it sends each line once and whole exactly if every poll finds whole lines
(`stream_follows_iff`): a line that is half written at a poll is sent in two parts.
-/

namespace Bbs

namespace Logs

/-- `_LOG_TAIL_MAX`. -/
def logTailMax : Int := 2000

/-- `xs[n:]`; a negative bound counts from the end. -/
def sliceFrom {α : Type} (n : Int) (xs : List α) : List α :=
  if 0 ≤ n then xs.drop n.toNat else xs.drop (xs.length - (-n).toNat)

/-- `_read_log_tail`: the lines, the new offset and the size of the file, if there is one. -/
def readLogTail (file : Option (List UInt8)) (offset : Nat) (maxLines : Int) :
    List Text × Nat × Nat :=
  match file with
  | none => ([], 0, 0)
  | some bytes =>
    let size := bytes.length
    let offset := if size < offset then size else offset
    if offset = 0 ∧ 0 < maxLines then
      -- tail mode
      let chunk := min size (256 * 1024)
      let data := Utf8.decode (bytes.drop (size - chunk))
      (sliceFrom (-maxLines) (Lines.splitlines data), size, size)
    else
      let data := Utf8.decode (bytes.drop offset)
      let lines := Lines.splitlines data
      (if maxLines < lines.length then sliceFrom (-maxLines) lines else lines, size, size)

/-- What is sent for a line: `line.replace("\r", "").replace("\n", " ")`. -/
def safe (line : Text) : Text := (Lines.dropCr line).map fun c => if c = '\n' then ' ' else c

/-- A stream, with all that it has sent. -/
structure LogStream where
  offset : Nat
  sent : List Text := []

/-- `api_logs_stream`; without a log file there is no stream. -/
def apiLogsStream (file : Option (List UInt8)) : Option LogStream :=
  file.map fun bytes => { offset := bytes.length }

/-- One turn of its loop. -/
def LogStream.poll (s : LogStream) (file : Option (List UInt8)) : LogStream :=
  let read := readLogTail file s.offset logTailMax
  { offset := read.2.1, sent := s.sent ++ read.1.map safe }

/-! ## A growing file -/

/-- The file and the stream that follows it. -/
structure Followed where
  file : List UInt8
  stream : LogStream

/-- The bytes are appended, and the file is polled. -/
def Followed.grow (f : Followed) (bytes : List UInt8) : Followed :=
  { file := f.file ++ bytes, stream := f.stream.poll (some (f.file ++ bytes)) }

/-- A stream on a file to which the chunks are appended, one before each poll. -/
def follow (file : List UInt8) (chunks : List (List UInt8)) : Option Followed :=
  (apiLogsStream (some file)).map fun stream => chunks.foldl Followed.grow ⟨file, stream⟩

/-- The lines that the chunks complete, in the text that they are the beginning of. -/
def appended (text : Text) (chunks : List (List UInt8)) : List Text :=
  Lines.completeLines (Utf8.whole chunks.flatten.length text)

/-- The lines are sent, but for the last one perhaps. -/
def Delivers (file : List UInt8) (text : Text) (chunks : List (List UInt8)) : Prop :=
  ∃ f ∈ follow file chunks, f.stream.sent = (appended text chunks).map safe ∨
    f.stream.sent = ((appended text chunks).map safe).dropLast

/-- The chunk is whole lines. -/
def Aligned (bytes : List UInt8) : Prop := ∃ s, bytes = Utf8.encode s ∧ Lines.WholeLines s

/-! ## One poll -/

section Poll

variable {file bytes : List UInt8} {sent : List Text} {text s : Text} {chunks : List (List UInt8)}

/-- What a poll sends of the bytes that it finds. -/
def emitted (bytes : List UInt8) : List Text :=
  (sliceFrom (-logTailMax) (Lines.splitlines (Utf8.decode bytes))).map safe

theorem poll_eq {file : Option (List UInt8)} {offset size n : Nat} {lines : List Text}
    (h : readLogTail file offset logTailMax = (lines, n, size)) :
    LogStream.poll ⟨offset, sent⟩ file = ⟨n, sent ++ lines.map safe⟩ := by
  unfold LogStream.poll
  rw [h]

theorem sliceFrom_of_length_le {α : Type} {n : Nat} {xs : List α} (hn : 0 < n) (h : xs.length ≤ n) :
    sliceFrom (-(n : Int)) xs = xs := by
  rw [sliceFrom, if_neg (by omega), Int.neg_neg, Int.toNat_natCast, Nat.sub_eq_zero_of_le h,
    List.drop_zero]

theorem length_sliceFrom {α : Type} {n : Nat} {xs : List α} (hn : 0 < n) :
    (sliceFrom (-(n : Int)) xs).length = min n xs.length := by
  rw [sliceFrom, if_neg (by omega), Int.neg_neg, Int.toNat_natCast, List.length_drop]
  omega

theorem length_emitted (bytes : List UInt8) :
    (emitted bytes).length = min 2000 (Lines.splitlines (Utf8.decode bytes)).length := by
  unfold emitted
  rw [List.length_map]
  exact length_sliceFrom (n := 2000) (by decide)

/-- In tail mode or not, the poll reads the bytes that came after the offset. -/
theorem readLogTail_appended (hbytes : bytes.length < 256 * 1024) :
    readLogTail (some (file ++ bytes)) file.length logTailMax =
      (sliceFrom (-logTailMax) (Lines.splitlines (Utf8.decode bytes)), (file ++ bytes).length,
        (file ++ bytes).length) := by
  have hoffset : (if (file ++ bytes).length < file.length then (file ++ bytes).length
      else file.length) = file.length := if_neg (by simp)
  simp only [readLogTail]
  rw [hoffset]
  split
  · next htail =>
    obtain rfl := List.eq_nil_of_length_eq_zero htail.1
    rw [List.nil_append, min_eq_left (Nat.le_of_lt hbytes), Nat.sub_self, List.drop_zero]
  · rw [List.drop_left]
    split
    · rfl
    · next hfew =>
      have hall : sliceFrom (-logTailMax) (Lines.splitlines (Utf8.decode bytes)) =
          Lines.splitlines (Utf8.decode bytes) :=
        sliceFrom_of_length_le (n := 2000) (by decide) (by simp only [logTailMax] at hfew; omega)
      rw [hall]

theorem poll_appended (hbytes : bytes.length < 256 * 1024) :
    LogStream.poll ⟨file.length, sent⟩ (some (file ++ bytes)) =
      ⟨(file ++ bytes).length, sent ++ emitted bytes⟩ :=
  poll_eq (readLogTail_appended hbytes)

theorem foldl_grow (h : ∀ c ∈ chunks, c.length < 256 * 1024) :
    chunks.foldl Followed.grow ⟨file, ⟨file.length, sent⟩⟩ =
      ⟨file ++ chunks.flatten, ⟨(file ++ chunks.flatten).length, sent ++ chunks.flatMap emitted⟩⟩ := by
  induction chunks generalizing file sent with
  | nil => simp
  | cons c chunks ih =>
    rw [List.forall_mem_cons] at h
    rw [List.foldl_cons, Followed.grow, poll_appended h.1, ih h.2]
    simp [List.append_assoc]

/-- The stream sends what each poll finds. -/
theorem delivers_iff (h : ∀ c ∈ chunks, c.length < 256 * 1024) : Delivers file text chunks ↔
    chunks.flatMap emitted = (appended text chunks).map safe ∨
      chunks.flatMap emitted = ((appended text chunks).map safe).dropLast := by
  have hfollow : follow file chunks =
    some (chunks.foldl Followed.grow ⟨file, ⟨file.length, []⟩⟩) := rfl
  unfold Delivers
  rw [hfollow, foldl_grow h]
  simp

/-! ## Whole lines -/

theorem count_newline (s : Text) : (Utf8.encode s).count 0x0A = s.count '\n' :=
  Utf8.count_encode (c := '\n') (by decide) s

theorem map_safe_eq {ls ms : List Text} (h : ls.map Lines.dropCr = ms.map Lines.dropCr) :
    ls.map safe = ms.map safe := by
  have hmap (ks : List Text) : ks.map safe =
      (ks.map Lines.dropCr).map (List.map fun c => if c = '\n' then ' ' else c) := by
    rw [List.map_map]
    rfl
  rw [hmap, hmap, h]

/-- A poll that finds whole lines sends them. -/
theorem emitted_whole (h : Lines.WholeLines s) (hlines : (Utf8.encode s).count 0x0A < 2000) :
    emitted (Utf8.encode s) = (Lines.completeLines s).map safe := by
  have hlen := Lines.wholeLines_iff.mp h
  rw [count_newline] at hlines
  have hall : sliceFrom (-logTailMax) (Lines.splitlines s) = Lines.splitlines s :=
    sliceFrom_of_length_le (n := 2000) (by decide) (by omega)
  unfold emitted
  rw [Utf8.decode_encode, hall]
  exact map_safe_eq h.map_splitlines

/-- The invariant of the stream: polls that find whole lines have sent all that there are. -/
theorem sent_of_aligned (h : ∀ c ∈ chunks, Aligned c) (hlines : ∀ c ∈ chunks, c.count 0x0A < 2000) :
    ∃ s, chunks.flatten = Utf8.encode s ∧ Lines.WholeLines s ∧
      chunks.flatMap emitted = (Lines.completeLines s).map safe := by
  induction chunks with
  | nil => exact ⟨[], rfl, .nil, rfl⟩
  | cons c chunks ih =>
    rw [List.forall_mem_cons] at h hlines
    obtain ⟨⟨u, rfl, hu⟩, hrest⟩ := h
    obtain ⟨s, hs, hwhole, hsent⟩ := ih hrest hlines.2
    refine ⟨u ++ s, ?_, hu.append hwhole, ?_⟩
    · rw [List.flatten_cons, hs, Utf8.encode_append]
    · rw [List.flatMap_cons, emitted_whole hu hlines.1, hsent, hu.completeLines_append, List.map_append]

/-- A poll that finds anything else sends too many lines: what it finds is not the bytes of a
text, or the text has an unfinished line or another boundary. -/
theorem aligned_of_length_le {t : Text} (ht : bytes <+: Utf8.encode t)
    (hlines : bytes.count 0x0A < 2000)
    (h : (emitted bytes).length ≤ (Lines.completeLines (Utf8.whole bytes.length t)).length) :
    Aligned bytes := by
  obtain ⟨part, hbytes, hpart⟩ := Utf8.prefix_encode ht
  generalize Utf8.whole bytes.length t = s at hbytes h
  subst hbytes
  rw [List.count_append, count_newline] at hlines
  rw [length_emitted, Utf8.decode_encode_append, Lines.length_completeLines] at h
  rcases hpart with rfl | hpart
  · refine ⟨s, List.append_nil _, Lines.wholeLines_of_length_le ?_⟩
    rw [Utf8.decode_nil, List.append_nil] at h
    omega
  · rw [Utf8.decode_part hpart] at h
    have hcount : (s ++ [Utf8.replacement]).count '\n' = s.count '\n' := by
      rw [List.count_append]
      rfl
    have hwhole : Lines.WholeLines (s ++ [Utf8.replacement]) :=
      Lines.wholeLines_of_length_le (by omega)
    have hlast := hwhole.getLast? Utf8.replacement (by simp)
    exact absurd hlast (by decide)

/-- One more poll. -/
theorem delivers_concat_iff (htext : (chunks ++ [bytes]).flatten <+: Utf8.encode text)
    (hbytes : ∀ c ∈ chunks ++ [bytes], c.length < 256 * 1024)
    (hlines : ∀ c ∈ chunks ++ [bytes], c.count 0x0A < 2000) (h : ∀ c ∈ chunks, Aligned c) :
    Delivers file text (chunks ++ [bytes]) ↔ Aligned bytes := by
  obtain ⟨s, hs, hwhole, hsent⟩ := sent_of_aligned h fun c hc => hlines c (List.mem_append_left _ hc)
  have hflat : (chunks ++ [bytes]).flatten = Utf8.encode s ++ bytes := by
    rw [List.flatten_append, hs, List.flatten_singleton]
  rw [hflat] at htext
  obtain ⟨t, rfl, ht⟩ := Utf8.append_prefix_encode htext
  have hlast := hlines bytes (by simp)
  have happended : appended (s ++ t) (chunks ++ [bytes]) =
      Lines.completeLines s ++ Lines.completeLines (Utf8.whole bytes.length t) := by
    unfold appended
    rw [hflat, List.length_append, Utf8.whole_append, hwhole.completeLines_append]
  rw [delivers_iff hbytes, happended, List.flatMap_append, hsent, List.flatMap_singleton,
    List.map_append]
  constructor
  · intro hsame
    refine aligned_of_length_le ht hlast ?_
    rcases hsame with hall | hbut
    · have hlen := congrArg List.length hall
      simp only [List.length_append, List.length_map] at hlen
      omega
    · have hlen := congrArg List.length hbut
      simp only [List.length_dropLast, List.length_append, List.length_map] at hlen
      omega
  · rintro ⟨u, rfl, hu⟩
    rw [← List.append_nil (Utf8.encode u)] at ht
    obtain ⟨t, rfl, -⟩ := Utf8.append_prefix_encode ht
    have hread : Utf8.whole (Utf8.encode u).length (u ++ t) = u := by
      rw [← Nat.add_zero (Utf8.encode u).length, Utf8.whole_append, Utf8.whole_zero, List.append_nil]
    rw [hread, emitted_whole hu hlast]
    exact .inl rfl

end Poll

/-- A beginning of a list is one of its rest, or all of it. -/
theorem forall_take_concat {α : Type} {P : List α → Prop} {xs : List α} {x : α} :
    (∀ n, P ((xs ++ [x]).take n)) ↔ (∀ n, P (xs.take n)) ∧ P (xs ++ [x]) := by
  constructor
  · intro h
    refine ⟨fun n => ?_, ?_⟩
    · have hn := h (min n xs.length)
      rwa [List.take_append_of_le_length (Nat.min_le_right ..), ← List.take_eq_take_min] at hn
    · have hall := h (xs.length + 1)
      rwa [List.take_of_length_le (by simp)] at hall
  · rintro ⟨hpart, hall⟩ n
    by_cases hn : n ≤ xs.length
    · rw [List.take_append_of_le_length hn]
      exact hpart n
    · rw [List.take_of_length_le (by simp; omega)]
      exact hall

/-- **Following the log**: after any number of polls the completed lines are sent, each once,
whole and in order, but for the last one perhaps, exactly if every poll finds whole lines. -/
theorem stream_follows_iff (file : List UInt8) (text : Text) (chunks : List (List UInt8))
    (htext : chunks.flatten <+: Utf8.encode text) (hbytes : ∀ c ∈ chunks, c.length < 256 * 1024)
    (hlines : ∀ c ∈ chunks, c.count 0x0A < logTailMax.toNat) :
    (∀ n, Delivers file text (chunks.take n)) ↔ ∀ c ∈ chunks, Aligned c := by
  have hlines : ∀ c ∈ chunks, c.count 0x0A < 2000 := hlines
  induction chunks using List.reverseRecOn with
  | nil =>
    refine iff_of_true (fun n => ?_) (by simp)
    rw [List.take_nil, delivers_iff (by simp)]
    simp [appended, Lines.completeLines]
  | append_singleton chunks bytes ih =>
    have hbefore : chunks.flatten <+: Utf8.encode text := by
      refine List.IsPrefix.trans ?_ htext
      rw [List.flatten_append]
      exact List.prefix_append ..
    have hlines' (c : List UInt8) (hc : c ∈ chunks) := hlines c (List.mem_append_left _ hc)
    have ih : (∀ n, Delivers file text (chunks.take n)) ↔ ∀ c ∈ chunks, Aligned c :=
      ih hbefore (fun c hc => hbytes c (List.mem_append_left _ hc)) hlines' hlines'
    rw [forall_take_concat, ih, List.forall_mem_append, List.forall_mem_singleton]
    exact and_congr_right fun h => delivers_concat_iff htext hbytes hlines h

/-- Two lines, written one after the other. -/
theorem stream_follows_two :
    [Utf8.encode (lit "né\n"), [], Utf8.encode (lit "w\n")].flatten <+: Utf8.encode (lit "né\nw\n") ∧
      ∀ n, Delivers (Utf8.encode (lit "old\n")) (lit "né\nw\n")
        ([Utf8.encode (lit "né\n"), [], Utf8.encode (lit "w\n")].take n) := by
  have htext : [Utf8.encode (lit "né\n"), [], Utf8.encode (lit "w\n")].flatten <+:
      Utf8.encode (lit "né\nw\n") := by decide +kernel
  refine ⟨htext, (stream_follows_iff (Utf8.encode (lit "old\n")) (lit "né\nw\n")
    [Utf8.encode (lit "né\n"), [], Utf8.encode (lit "w\n")] htext (by decide +kernel)
    (by decide +kernel)).mpr fun c hc => ?_⟩
  simp only [List.mem_cons, List.not_mem_nil, or_false] at hc
  rcases hc with rfl | rfl | rfl
  · exact ⟨_, rfl, Lines.wholeLines_iff.mpr (by decide)⟩
  · exact ⟨[], rfl, .nil⟩
  · exact ⟨_, rfl, Lines.wholeLines_iff.mpr (by decide)⟩

/-- A line whose end is written after a poll is sent in two parts. -/
theorem line_in_two_parts : ∃ chunks : List (List UInt8),
    chunks.flatten <+: Utf8.encode (lit "ab\n") ∧ (∀ c ∈ chunks, c.length < 256 * 1024) ∧
    (∀ c ∈ chunks, c.count 0x0A < logTailMax.toNat) ∧ ¬ Delivers [] (lit "ab\n") chunks ∧
    (follow [] chunks).any (fun f => f.stream.sent = [lit "a", lit "b"]) = true := by
  refine ⟨[Utf8.encode (lit "a"), Utf8.encode (lit "b\n")], by decide +kernel, by decide +kernel,
    by decide +kernel, ?_, by decide +kernel⟩
  rw [delivers_iff (by decide +kernel)]
  decide +kernel

end Logs

end Bbs
