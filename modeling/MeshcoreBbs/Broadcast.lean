import MeshcoreBbs.Enqueue
import MeshcoreBbs.Inbound
import MeshcoreBbs.Process

/-!
# Broadcasts are confirmed

`staged` reads off the record what an admin has staged and not yet confirmed, by what the
lines say: the text is all that follows the two words, and only the single word `CONFIRM`
confirms.  The source looks at the first word of the text only, and drops the two words by a
regular expression; `Plain` is the condition on a line under which that comes to the same.
-/

namespace Bbs

open Coroutine

namespace Broadcast

/-! ## Lines -/

/-- The text of an `ADMIN BROADCAST` line. -/
def lineText (py : Py) (line : Text) : Option Text :=
  match words (strip line) with
  | w₁ :: w₂ :: _ =>
    if py.upper w₁ = lit "ADMIN" ∧ py.upper w₂ = lit "BROADCAST" then
      some (afterWord (afterWord (strip line)))
    else none
  | _ => none

/-- The single word `CONFIRM` in any letter case. -/
def IsConfirm (py : Py) (text : Text) : Prop := words text = [text] ∧ py.upper text = lit "CONFIRM"

instance {py : Py} {text : Text} : Decidable (IsConfirm py text) := by
  unfold IsConfirm
  infer_instance

/-- The text does not go on after a first word `CONFIRM`, and the comparison of
`re.IGNORECASE` agrees with `upper` on the first two words of the line. -/
def Plain (py : Py) (line : Text) : Prop := ∀ text, lineText py line = some text →
  IsConfirm py text ∨ (words text).head?.map py.upper ≠ some (lit "CONFIRM") ∧
    py.matchLiteral (lit "ADMIN") (firstWord (strip line)) = some [] ∧
    py.matchLiteral (lit "BROADCAST") (firstWord (afterWord (strip line))) = some []

instance {py : Py} {line : Text} : Decidable (Plain py line) :=
  decidable_of_iff ((lineText py line).all fun text => decide (IsConfirm py text ∨
    (words text).head?.map py.upper ≠ some (lit "CONFIRM") ∧
      py.matchLiteral (lit "ADMIN") (firstWord (strip line)) = some [] ∧
      py.matchLiteral (lit "BROADCAST") (firstWord (afterWord (strip line))) = some [])) <| by
    simp only [Option.all_eq_true, decide_eq_true_eq]
    rfl

section Parse

variable {py : Py} {line text : Text}

theorem lineText_cases (h : lineText py line = some text) :
    ∃ w₁ w₂, words (strip line) = w₁ :: w₂ :: words text ∧ py.upper w₁ = lit "ADMIN" ∧
      py.upper w₂ = lit "BROADCAST" ∧ afterWord (strip line) ≠ [] ∧
      text = afterWord (afterWord (strip line)) := by
  unfold lineText at h
  split at h
  · next w₁ w₂ ws hwords =>
    split at h
    · next hup =>
      rw [Option.some.injEq] at h
      have hne : strip line ≠ [] := fun h0 => by rw [h0] at hwords; cases hwords
      rw [words_of_ne_nil hne (dropWhile_strip line)] at hwords ⊢
      obtain ⟨rfl, htail⟩ := List.cons.inj hwords
      have hne' : afterWord (strip line) ≠ [] := fun h0 => by rw [h0] at htail; cases htail
      rw [words_of_ne_nil hne' (dropWhile_afterWord _)] at htail ⊢
      obtain ⟨rfl, -⟩ := List.cons.inj htail
      exact ⟨_, _, by rw [h], hup.1, hup.2, hne', h.symm⟩
    · cases h
  · cases h

/-- The command of an `ADMIN BROADCAST` line. -/
theorem parse_of_lineText (h : lineText py line = some text) : ∃ rest,
    Commands.parse py line = some ⟨lit "ADMIN BROADCAST", words text, rest⟩ ∧
      (py.matchLiteral (lit "ADMIN") (firstWord (strip line)) = some [] →
        py.matchLiteral (lit "BROADCAST") (firstWord (afterWord (strip line))) = some [] →
        strip rest = text) := by
  obtain ⟨w₁, w₂, hwords, hw₁, hw₂, hnext, htext⟩ := lineText_cases h
  have hne : strip line ≠ [] := fun h0 => by rw [h0] at hwords; cases hwords
  have hverb : Commands.verbAndArgs py (words (strip line)) =
      (lit "ADMIN BROADCAST", words text) := by
    rw [hwords, Commands.verbAndArgs]
    dsimp only
    rw [if_pos hw₁, hw₂]
    cases words text <;> rfl
  have hsuffix : text <:+ strip line := by
    rw [htext]
    exact (afterWord_suffix _).trans (afterWord_suffix _)
  have hstrip : strip text = text :=
    strip_of_suffix hsuffix (htext ▸ dropWhile_afterWord _)
  refine ⟨strip ((py.matchLine [lit "ADMIN", lit "BROADCAST"] (strip line)).getD (strip line)),
    ?_, fun h₁ h₂ => ?_⟩
  · unfold Commands.parse
    dsimp only
    rw [if_neg hne, hverb]
    rfl
  · rw [Py.matchLine_two (dropWhile_strip line) hnext h₁ h₂, ← htext, Option.getD_some, hstrip,
      hstrip]

/-- The verb comes from such a line only. -/
theorem lineText_of_parse {parsed : ParsedCommand} (h : Commands.parse py line = some parsed)
    (hv : parsed.verb = lit "ADMIN BROADCAST") : (lineText py line).isSome = true := by
  unfold Commands.parse at h
  dsimp only at h
  split at h
  · cases h
  rw [Option.some.injEq] at h
  have hverb : (Commands.verbAndArgs py (words (strip line))).1 = lit "ADMIN BROADCAST" := by
    rw [← hv, ← h]
  -- a verb of one word has no blank
  have hblank : ∀ w ∈ words (strip line), py.upper w ≠ lit "ADMIN BROADCAST" := fun w hw hup =>
    blank_notMem_of_mem_words hw (py.upper_blank w (by rw [hup]; decide))
  unfold lineText
  cases hwords : words (strip line) with
  | nil =>
    rw [hwords] at hverb
    cases hverb
  | cons w₁ ws =>
    rw [hwords] at hverb hblank
    have hw₁ := hblank w₁ List.mem_cons_self
    cases ws with
    | nil => exact absurd hverb hw₁
    | cons w₂ ws =>
      dsimp only
      rw [Commands.verbAndArgs] at hverb
      dsimp only at hverb
      split at hverb
      · next hadmin =>
        have hsub : py.upper w₂ = lit "BROADCAST" := by
          cases ws with
          | nil => exact (List.append_right_inj (lit "ADMIN ")).mp hverb
          | cons w₃ ws =>
            dsimp only at hverb
            split at hverb
            · next hboard =>
              dsimp only at hverb
              rw [hboard] at hverb
              cases hverb
            · exact (List.append_right_inj (lit "ADMIN ")).mp hverb
        rw [if_pos ⟨hadmin, hsub⟩]
        rfl
      · exact absurd hverb hw₁

end Parse

/-! ## What the record says -/

/-- What `a` staged with its latest line that stages or confirms. -/
def staged (py : Py) (a : Pubkey) : List Entry → Option PendingBroadcast
  | [] => none
  | .command pk line now :: past =>
    if pk = a then
      match lineText py line with
      | none => staged py a past
      | some text =>
        if text = [] then staged py a past
        else if IsConfirm py text then none
        else some ⟨text, now⟩
    else staged py a past
  | _ :: past => staged py a past

/-- The line that is being answered: its sender, its time and what was before it. -/
def answered : List Entry → Option (Pubkey × Text × Int × List Entry)
  | [] => none
  | .command pk line now :: past => some (pk, line, now, past)
  | _ :: past => answered past

/-- A broadcast row answers `ADMIN BROADCAST CONFIRM`, and its body is a packet of what the
admin had staged at most two minutes before. -/
def Confirmed (sv : Services) : Entry → List Entry → Prop
  | .inserted (.broadcast a) row _, past =>
    ∃ line text now earlier pending, answered past = some (a, line, now, earlier) ∧
      lineText sv.py line = some text ∧ IsConfirm sv.py text ∧
      staged sv.py a earlier = some pending ∧ now - pending.createdAt ≤ 120 ∧
      row.enqueuedAt = now ∧
      row.body ∈ Format.splitPackets pending.text Format.defaultPacketBytes
  | _, _ => True

/-- The staged texts are those of the lines, and every broadcast row was confirmed. -/
structure Kept (sv : Services) (w : World) : Prop where
  pending : ∀ a, sv.isAdmin a = true → w.pending a = staged sv.py a w.record
  confirmed : Machine.Justified (Confirmed sv) w.record

/-- The lines of admins that reach the dispatcher are plain. -/
def Clear (sv : Services) (w : World) : Process.Act → Prop
  | .request (.inbound msg) =>
    Dispatcher.Admitted sv w msg → sv.isAdmin msg.pubkey = true → Plain sv.py msg.body
  | _ => True

end Broadcast

/-- Neither a command line nor a broadcast. -/
def Op.Quiet : Op → Prop
  | logCommand .. | popPending _ | setPending .. | enqueueOutbound (.broadcast _) _ => False
  | _ => True

theorem Op.Ordinary.quiet {pk : Pubkey} {op : Op} (h : op.Ordinary pk) : op.Quiet := by
  cases op with
  | enqueueOutbound origin row =>
    cases h.1
    trivial
  | _ => trivial

instance (pk : Pubkey) : Op.Admits pk Op.Quiet :=
  (inferInstance : Op.Admits pk (Op.Ordinary pk)).weaken fun _ hop => hop.quiet

theorem Op.Reception.quiet {pk : Pubkey} {op : Op} (h : op.Reception pk) : op.Quiet := by
  cases op with
  | enqueueOutbound origin row => cases origin <;> first | trivial | cases h.1
  | _ => trivial

theorem Op.OfRequest.quiet {r : Request} {op : Op} (h : op.OfRequest r) : op.Quiet := by
  cases op with
  | enqueueOutbound origin row =>
    cases h.2
    trivial
  | _ => trivial

/-- Only an admin's `ADMIN BROADCAST` is not quiet. -/
theorem Op.OfCommand.quiet {sv : Services} {pk : Pubkey} {verb : Text} {op : Op}
    (h : op.OfCommand sv pk verb)
    (hverb : verb = lit "ADMIN BROADCAST" → sv.isAdmin pk = true → False) : op.Quiet := by
  rcases h with h | h
  · exact h.quiet
  · cases op with
    | enqueueOutbound origin row =>
      cases origin with
      | broadcast => exact (hverb h.1 h.2.1).elim
      | _ => trivial
    | popPending => exact (hverb h.1 h.2.1).elim
    | setPending => exact (hverb h.1 h.2.1).elim
    | logCommand => cases h
    | _ => trivial

namespace Broadcast

variable {sv : Services} {w : World} {pk : Pubkey} {op : Op} {line : Text}

theorem quiet_staged {py : Py} (h : op.Quiet) (a : Pubkey) :
    staged py a (op.run py w).2.record = staged py a w.record := by
  rw [Op.run_record]
  cases op <;> first | rfl | cases h

theorem quiet_answered {py : Py} (h : op.Quiet) :
    answered (op.run py w).2.record = answered w.record := by
  rw [Op.run_record]
  cases op <;> first | rfl | cases h

/-- A quiet operation stages and releases nothing. -/
theorem Kept.quiet (hw : Kept sv w) (h : op.Quiet) : Kept sv (op.run sv.py w).2 where
  pending a ha := by
    rw [quiet_staged h, ← hw.pending a ha, Op.run_pending]
    cases op <;> first | rfl | cases h
  confirmed := by
    rw [Op.run_record]
    cases op with
    | sendAdvert => exact ⟨trivial, hw.confirmed⟩
    | enqueueOutbound origin row =>
      cases origin with
      | broadcast => cases h
      | _ => exact ⟨trivial, hw.confirmed⟩
    | logCommand => cases h
    | _ => exact hw.confirmed

/-! ## Lines -/

/-- A line that neither stages nor confirms. -/
theorem Kept.other_line (hw : Kept sv w) (hline : sv.isAdmin pk = true → lineText sv.py line = none) :
    Kept sv ((Op.logCommand pk line).run sv.py w).2 where
  pending a ha := by
    show w.pending a = staged sv.py a (.command pk line w.now :: w.record)
    rw [hw.pending a ha, staged]
    split
    · next heq => rw [hline (heq ▸ ha)]
    · rfl
  confirmed := ⟨trivial, hw.confirmed⟩

/-- What holds while the line is being answered. -/
structure Answering (sv : Services) (pk : Pubkey) (line : Text) (w₀ w : World) : Prop
    extends Kept sv w where
  clock : w.clock = w₀.clock
  answered : answered w.record = some (pk, line, w₀.now, w₀.record)

variable {w₀ : World}

theorem answering_keeps {α : Type} {m : Prog α} (h : m.Does Op.Quiet) :
    m.Keeps (Op.run sv.py) (Answering sv pk line w₀) := by
  refine h.keeps fun op hop w hw => ?_
  exact { hw.toKept.quiet hop with
    clock := Op.run_clock.trans hw.clock
    answered := (quiet_answered hop).trans hw.answered }

theorem answer_keeps (text : Text) (verb : Option Text) :
    (Dispatcher.answer pk text verb).Keeps (Op.run sv.py) (Answering sv pk line w₀) :=
  answering_keeps (Dispatcher.answer_runs ..).does

/-- The rows of a confirmed broadcast. -/
theorem push_keeps {pending : PendingBroadcast} {text : Text}
    (hline : lineText sv.py line = some text) (hconfirm : IsConfirm sv.py text)
    (hstaged : staged sv.py pk w₀.record = some pending)
    (hage : w₀.now - pending.createdAt ≤ 120) (r : Pubkey) :
    (Dispatcher.push (.broadcast pk) r pending.text).Keeps (Op.run sv.py)
      (Answering sv pk line w₀) := by
  intro w hw
  unfold Dispatcher.push
  rw [Dispatcher.run_enqueueReply]
  refine World.enqueued_induction (fun w' packet hpacket hw' => ?_) hw
  have hnow : w.now = w₀.now := by rw [World.now, hw.clock]; rfl
  exact {
    pending := fun a ha => hw'.pending a ha
    confirmed := ⟨⟨line, text, w₀.now, w₀.record, pending, hw'.answered, hline, hconfirm, hstaged,
      hage, hnow, hpacket⟩, hw'.confirmed⟩
    clock := hw'.clock
    answered := hw'.answered }

theorem dispatch_broadcast (inbound : InboundMessage) (args : List Text) (rest : Text)
    (hadmin : sv.isAdmin inbound.pubkey = true) :
    Dispatcher.dispatch sv inbound ⟨lit "ADMIN BROADCAST", args, rest⟩ =
      Dispatcher.handleBroadcast sv inbound.pubkey ⟨lit "ADMIN BROADCAST", args, rest⟩
        (lit "ADMIN BROADCAST") := by
  have hadmin' : Dispatcher.handleAdmin sv inbound.pubkey
      ⟨lit "ADMIN BROADCAST", args, rest⟩ (lit "ADMIN BROADCAST") =
        Dispatcher.handleBroadcast sv inbound.pubkey ⟨lit "ADMIN BROADCAST", args, rest⟩
          (lit "ADMIN BROADCAST") := by
    unfold Dispatcher.handleAdmin
    rw [hadmin]
    rfl
  rw [← hadmin']
  rfl

/-! ## The confirmation -/

/-- `_pending.pop`. -/
def popped (w : World) (pk : Pubkey) : World :=
  { w with pending := Function.update w.pending pk none }

/-- The audit row is written. -/
def audited (w : World) (pk : Pubkey) (text : Text) : World :=
  { popped w pk with
    queue := w.queue.writeAudit ⟨w.now, some pk, lit "broadcast",
      lit "recipients=" ++ decimal w.users.allUserPubkeys.length ++ lit " chars=" ++
        decimal text.length⟩ }

def okText (recipients : Nat) : Text :=
  lit "OK broadcasting to " ++ decimal recipients ++ lit " users."

theorem run_confirmBroadcast (py : Py) (pk : Pubkey) (w : World) :
    (Services.confirmBroadcast pk).run (Op.run py) w =
      match w.pending pk with
      | none => (some (lit "! No pending broadcast.", [], []), popped w pk)
      | some pending =>
        if 120 < w.now - pending.createdAt then
          (some (lit "! Confirmation expired (>2 min).", [], []), popped w pk)
        else (some (okText w.users.allUserPubkeys.length, w.users.allUserPubkeys, pending.text),
          audited w pk pending.text) := by
  have hpop : (call (.popPending pk)).run (Op.run py) w = (some (w.pending pk), popped w pk) := rfl
  have htime : (call .time).run (Op.run py) (popped w pk) = (some w.clock, popped w pk) := rfl
  unfold Services.confirmBroadcast
  rw [run_bind_of_some hpop]
  cases w.pending pk with
  | none => rfl
  | some pending =>
    dsimp only
    rw [run_bind_of_some htime]
    by_cases hage : 120 < w.now - pending.createdAt
    · rw [if_pos hage]
      unfold World.now at hage
      rw [if_pos hage]
      rfl
    · rw [if_neg hage]
      unfold World.now at hage
      rw [if_neg hage]
      rfl

/-! ## The command -/

/-- The line is in the log. -/
def logged (w : World) (pk : Pubkey) (line : Text) : World :=
  { w with record := .command pk line w.now :: w.record }

section Command

variable {text rest : Text}

/-- The line is logged and the staged text is `pending`. -/
theorem Kept.answering (hw : Kept sv w) (pk : Pubkey) {pending : Option PendingBroadcast}
    (hline : lineText sv.py line = some text)
    (hpending : pending = if text = [] then w.pending pk else
      if IsConfirm sv.py text then none else some ⟨text, w.now⟩) :
    Answering sv pk line w
      { logged w pk line with pending := Function.update w.pending pk pending } where
  pending a ha := by
    show Function.update w.pending pk pending a = staged sv.py a (.command pk line w.now :: w.record)
    rw [staged]
    split
    · next heq =>
      rw [← heq, Function.update_self, hline, hpending, hw.pending pk (heq ▸ ha)]
    · next hne => rw [Function.update_of_ne (Ne.symm hne), hw.pending a ha]
  confirmed := ⟨trivial, hw.confirmed⟩
  clock := rfl
  answered := rfl

theorem ne_nil_of_isConfirm {py : Py} (h : IsConfirm py text) : text ≠ [] := by
  intro h0
  have := h.1
  rw [h0] at this
  cases this

theorem confirm_answers (hw : Kept sv w) (hadmin : sv.isAdmin pk = true)
    (hline : lineText sv.py line = some text) (hconfirm : IsConfirm sv.py text) (v : Text) : Answering sv pk line w
      ((Dispatcher.releaseBroadcast pk v).run (Op.run sv.py) (logged w pk line)).2 := by
  have hpopped : Answering sv pk line w (popped (logged w pk line) pk) := by
    refine hw.answering pk hline ?_
    rw [if_neg (ne_nil_of_isConfirm hconfirm), if_pos hconfirm]
  unfold Dispatcher.releaseBroadcast
  rw [run_bind, run_confirmBroadcast]
  cases hpending : (logged w pk line).pending pk with
  | none => exact Keeps.bind (answer_keeps _ _) (fun _ => keeps_pure ()) _ hpopped
  | some pending =>
    dsimp only
    split
    · exact Keeps.bind (answer_keeps _ _) (fun _ => keeps_pure ()) _ hpopped
    · next hage =>
      have hstaged : staged sv.py pk w.record = some pending := (hw.pending pk hadmin).symm.trans hpending
      have haudited : Answering sv pk line w (audited (logged w pk line) pk pending.text) :=
        { pending := hpopped.pending
          confirmed := hpopped.confirmed
          clock := hpopped.clock
          answered := hpopped.answered }
      refine Keeps.bind (answer_keeps _ _) (fun _ => keeps_forEach fun r _ => ?_) _ haudited
      split
      · exact push_keeps hline hconfirm hstaged (not_lt.mp hage) r
      · exact keeps_pure ()

theorem stage_answers (hw : Kept sv w) (hline : lineText sv.py line = some text)
    (hne : text ≠ []) (hconfirm : ¬ IsConfirm sv.py text) (v : Text) : Answering sv pk line w
      ((do
        let reply ← Services.stageBroadcast pk text
        Dispatcher.answer pk reply (some v) : Prog Unit).run (Op.run sv.py) (logged w pk line)).2 := by
  have hpending : some ⟨text, w.now⟩ = if text = [] then w.pending pk else
      if IsConfirm sv.py text then none else some ⟨text, w.now⟩ := by
    rw [if_neg hne, if_neg hconfirm]
  have hstaged := hw.answering pk hline hpending
  rw [run_bind]
  exact answer_keeps _ _ _ hstaged

/-- A plain line is answered by what it says. -/
theorem broadcast_answers (hw : Kept sv w) (hadmin : sv.isAdmin pk = true)
    (hplain : Plain sv.py line) (hline : lineText sv.py line = some text)
    (hrest : sv.py.matchLiteral (lit "ADMIN") (firstWord (strip line)) = some [] →
      sv.py.matchLiteral (lit "BROADCAST") (firstWord (afterWord (strip line))) = some [] →
        strip rest = text) (verb v : Text) :
    Answering sv pk line w ((Dispatcher.handleBroadcast sv pk ⟨verb, words text, rest⟩ v).run
      (Op.run sv.py) (logged w pk line)).2 := by
  unfold Dispatcher.handleBroadcast
  obtain hconfirm | ⟨hword, hadminWord, hbroadcastWord⟩ := hplain text hline
  · have hword : (words text).head?.map sv.py.upper = some (lit "CONFIRM") := by
      rw [hconfirm.1, List.head?_cons, Option.map_some, hconfirm.2]
    rw [if_pos hword]
    exact confirm_answers hw hadmin hline hconfirm v
  · have hconfirm : ¬ IsConfirm sv.py text := fun h =>
      hword (by rw [h.1, List.head?_cons, Option.map_some, h.2])
    rw [if_neg hword, hrest hadminWord hbroadcastWord]
    dsimp only
    split
    · next h0 =>
      have hsame := hw.answering pk hline (if_pos h0).symm
      rw [Function.update_eq_self] at hsame
      exact answer_keeps _ _ _ hsame
    · next hne => exact stage_answers hw hline hne hconfirm v

end Command

/-! ## Requests -/

theorem keeps_of_quiet {α : Type} {m : Prog α} (h : m.Does Op.Quiet) :
    m.Keeps (Op.run sv.py) (Kept sv) :=
  h.keeps fun _ hop _ hw => hw.quiet hop

variable {inbound : InboundMessage}

theorem command_keeps {parsed : ParsedCommand}
    (hparse : Commands.parse sv.py inbound.body = some parsed)
    (hplain : sv.isAdmin inbound.pubkey = true → Plain sv.py inbound.body) :
    (Dispatcher.handleCommand sv inbound parsed).Keeps (Op.run sv.py) (Kept sv) := by
  intro w hw
  have hlog : (call (.logCommand inbound.pubkey inbound.body)).run (Op.run sv.py) w =
    (some (), logged w inbound.pubkey inbound.body) := rfl
  unfold Dispatcher.handleCommand
  rw [run_bind_of_some hlog]
  by_cases hbroadcast : sv.isAdmin inbound.pubkey = true ∧
      (lineText sv.py inbound.body).isSome = true
  · obtain ⟨hadmin, hsome⟩ := hbroadcast
    obtain ⟨text, hline⟩ := Option.isSome_iff_exists.mp hsome
    obtain ⟨rest, hparse', hrest⟩ := parse_of_lineText hline
    cases hparse.symm.trans hparse'
    have hanswered := broadcast_answers hw hadmin (hplain hadmin) hline hrest
      (lit "ADMIN BROADCAST") (lit "ADMIN BROADCAST")
    rw [← dispatch_broadcast inbound (words text) rest hadmin] at hanswered
    rw [run_orElse]
    cases ((Dispatcher.dispatch sv inbound ⟨lit "ADMIN BROADCAST", words text, rest⟩).run
      (Op.run sv.py) (logged w inbound.pubkey inbound.body)).1 with
    | none => exact (answer_keeps _ _ _ hanswered).toKept
    | some _ => exact hanswered.toKept
  · have hother : sv.isAdmin inbound.pubkey = true → lineText sv.py inbound.body = none :=
      fun hadmin => by simpa [hadmin] using hbroadcast
    have hdispatch : (Dispatcher.dispatch sv inbound parsed).Does Op.Quiet :=
      Dispatcher.dispatch_ofCommand.weaken fun op hop => hop.quiet fun hverb hadmin =>
        hbroadcast ⟨hadmin, lineText_of_parse hparse hverb⟩
    have hanswer : (Dispatcher.answer inbound.pubkey (lit "! Internal error.")
        (some parsed.verb)).Does Op.Quiet :=
      (Dispatcher.answer_runs ..).does
    exact (keeps_of_quiet hdispatch).orElse (keeps_of_quiet hanswer) _ (hw.other_line hother)

theorem step_keeps {a : Process.Act} {w' : World} (hw : Kept sv w) (hclear : Clear sv w a)
    (hstep : Process.step sv w a = some w') : Kept sv w' := by
  cases a with
  | outside e =>
    have hframe := Outside.frame hstep
    exact ⟨hframe.pending ▸ hframe.record ▸ hw.pending, hframe.record ▸ hw.confirmed⟩
  | request r =>
    cases hstep
    obtain ⟨msg, rfl⟩ | hr := r.inbound_or
    · refine Dispatcher.handleInbound_keeps (fun op hop w hw => hw.quiet hop.quiet)
        (fun hadmitted parsed hparse => ?_) hw
      exact command_keeps hparse (hclear hadmitted)
    · exact keeps_of_quiet ((request_does sv hr).weaken fun _ h => h.quiet) _ hw

/-- **Broadcasts are confirmed.**  In a run whose admins send plain lines, each text is staged
whole, and broadcast rows come from the last staged text, once, after its confirmation. -/
theorem released_confirmed {w₀ : World} (hfresh : Process.Fresh w₀)
    (hrun : Machine.Run (Process.step sv) (Clear sv) w₀ w) : Kept sv w := by
  refine hrun.invariant (fun _ _ _ => step_keeps) ⟨fun a _ => ?_, ?_⟩
  · rw [hfresh.pending, hfresh.record]
    rfl
  · rw [hfresh.record]
    trivial

/-- The entry is a broadcast row. -/
def isRelease : Entry → Bool
  | .inserted (.broadcast _) _ _ => true
  | _ => false

/-- The line of the message is plain. -/
def plainAct (sv : Services) : Process.Act → Bool
  | .request (.inbound msg) => Plain sv.py msg.body
  | _ => true

theorem clear_of_plainAct {a : Process.Act} (h : plainAct sv a = true) : Clear sv w a := by
  cases a with
  | outside e => trivial
  | request r =>
    cases r with
    | inbound msg => exact fun _ _ => of_decide_eq_true h
    | _ => trivial

theorem released_confirmed_hello : ∃ w,
    Machine.Run (Process.step Process.asciiServices) (Clear Process.asciiServices)
      (World.start 100) w ∧
    w.record.any isRelease = true ∧ Kept Process.asciiServices w := by
  obtain ⟨w, hrun, hrelease⟩ := Machine.exists_run (Process.step Process.asciiServices)
    (fun _ a => plainAct Process.asciiServices a) (p := fun w => w.record.any isRelease)
    (Process.twoJoin ++ [Process.fromUser (lit "aa") "ADMIN BROADCAST hello", .outside (.wait 110),
      Process.fromUser (lit "aa") "admin broadcast Confirm"]) (s := World.start 100)
    (by decide +kernel)
  have hclear := hrun.mono fun w a => clear_of_plainAct (w := w)
  exact ⟨w, hclear, hrelease, released_confirmed (Process.fresh_start 100) hclear⟩

/-- The latest entry is a broadcast row that answers no confirmation. -/
def unconfirmed (py : Py) : List Entry → Bool
  | .inserted (.broadcast _) _ _ :: past =>
    (answered past).all fun (_, line, _, _) => !(lineText py line).any fun text => IsConfirm py text
  | _ => false

theorem not_kept_of_unconfirmed (h : unconfirmed sv.py w.record = true) : ¬ Kept sv w := by
  intro hkept
  have hjust := hkept.confirmed
  unfold unconfirmed at h
  split at h
  · next a row banned past hrecord =>
    rw [hrecord] at hjust
    obtain ⟨line, text, now, earlier, pending, hanswered, hline, hconfirm, -⟩ := hjust.1
    simp [hanswered, hline, hconfirm] at h
  · cases h

/-- A text that begins with the word `confirm` releases what was staged before. -/
theorem released_unconfirmed : ∃ w,
    Machine.Run (Process.step Process.asciiServices) (fun _ _ => True) (World.start 100) w ∧
    ¬ Kept Process.asciiServices w := by
  obtain ⟨w, hrun, hw⟩ := Machine.exists_run (Process.step Process.asciiServices)
    (fun _ _ => true) (p := fun w => unconfirmed asciiPy w.record)
    (Process.twoJoin ++ [Process.fromUser (lit "aa") "ADMIN BROADCAST hello", .outside (.wait 110),
      Process.fromUser (lit "aa") "ADMIN BROADCAST confirm your seat"]) (s := World.start 100)
    (by decide +kernel)
  have hlost : ¬ Kept Process.asciiServices w := not_kept_of_unconfirmed hw
  exact ⟨w, hrun.mono fun _ _ _ => trivial, hlost⟩

end Broadcast

end Bbs
