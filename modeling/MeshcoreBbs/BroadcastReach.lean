import MeshcoreBbs.Broadcast

/-!
# Whom a broadcast reaches

Each recipient's packets pass the depth check of `_enqueue_reply` by themselves, and the
packets of the recipients before count.  So a broadcast serves the users in the order of
the table until the queue is full, and the rest get nothing (`release_reach`).
-/

namespace Bbs

open Coroutine

namespace Broadcast

/-- The rows for the `i`-th recipient `r`, of which each gets `rows r`. -/
def offered {α β : Type} (rows : α → List β) (n : Nat) (depth : Nat) (limit : Int) (rs : List α) :
    List β :=
  rs.zipIdx.flatMap fun p => if depth + p.2 * n < limit then rows p.1 else []

section Offered

variable {α β : Type} {rows : α → List β} {n depth : Nat} {limit : Int} {r : α} {rs : List α}

theorem offered_of_full (h : limit ≤ depth) : offered rows n depth limit rs = [] := by
  rw [offered, List.flatMap_eq_nil_iff]
  intro p _
  rw [if_neg]
  have : (0 : Int) ≤ p.2 * n := by positivity
  omega

theorem offered_cons (h : (depth : Int) < limit) : offered rows n depth limit (r :: rs) =
    rows r ++ offered rows n (depth + n) limit rs := by
  unfold offered
  rw [List.zipIdx_cons, List.flatMap_cons, List.zipIdx_succ, List.flatMap_map]
  congr 1
  · simp [h]
  · refine congrArg (fun f => rs.zipIdx.flatMap f) (funext fun p => ?_)
    have hshift : ((depth : Int) + (p.2 + 1 : Nat) * n < limit) =
        (((depth + n : Nat) : Int) + p.2 * n < limit) := by
      push_cast
      rw [add_mul, one_mul, add_assoc, add_comm (n : Int)]
    simp only [hshift]

theorem mem_of_mem_offered {b : β} (h : b ∈ offered rows n depth limit rs) :
    ∃ r ∈ rs, b ∈ rows r := by
  obtain ⟨p, hp, hb⟩ := List.mem_flatMap.mp h
  split at hb
  · exact ⟨p.1, List.fst_mem_of_mem_zipIdx hp, hb⟩
  · cases hb

/-- Among distinct recipients, the `i`-th finds its rows. -/
theorem filter_offered [DecidableEq α] (hnodup : rs.Nodup) {key : β → α}
    (hkey : ∀ r, ∀ b ∈ rows r, key b = r) {i : Nat} (hr : rs[i]? = some r) :
    (offered rows n depth limit rs).filter (fun b => key b = r) =
      if depth + i * n < limit then rows r else [] := by
  induction rs generalizing depth i with
  | nil => cases hr
  | cons a rs ih =>
    rw [List.nodup_cons] at hnodup
    by_cases hroom : (depth : Int) < limit
    · rw [offered_cons hroom, List.filter_append]
      cases i with
      | zero =>
        cases hr
        have hhead : (rows r).filter (fun b => key b = r) = rows r :=
          List.filter_eq_self.mpr fun b hb => decide_eq_true (hkey r b hb)
        have htail : (offered rows n (depth + n) limit rs).filter (fun b => key b = r) = [] := by
          rw [List.filter_eq_nil_iff]
          intro b hb hbr
          obtain ⟨a, ha, hba⟩ := mem_of_mem_offered hb
          exact hnodup.1 ((hkey a b hba).symm.trans (of_decide_eq_true hbr) ▸ ha)
        rw [hhead, htail, List.append_nil, if_pos (by simpa using hroom)]
      | succ i =>
        have hmem : r ∈ rs := List.mem_of_getElem? hr
        have hhead : (rows a).filter (fun b => key b = r) = [] := by
          rw [List.filter_eq_nil_iff]
          intro b hb hbr
          exact hnodup.1 ((hkey a b hb).symm.trans (of_decide_eq_true hbr) ▸ hmem)
        have hshift : ((depth + n : Nat) : Int) + i * n = depth + (i + 1 : Nat) * n := by
          push_cast
          ring
        rw [hhead, List.nil_append, ih hnodup.2 hr, hshift]
    · have hfull : ¬ (depth : Int) + i * n < limit := by
        have : (0 : Int) ≤ i * n := by positivity
        omega
      rw [offered_of_full (not_lt.mp hroom), if_neg hfull, List.filter_nil]

end Offered

/-! ## The run -/

/-- What a recipient is sent. -/
def push (text : Text) (r : Pubkey) : Reply :=
  { pk := r, text := text, priority := priorityNotification }

/-- The loop over the recipients. -/
def pushAll (pk : Pubkey) (text : Text) (recipients : List Pubkey) : Prog Unit :=
  forEach (fun r => if r ≠ pk then Dispatcher.push (.broadcast pk) r text else pure ()) recipients

/-- The packets of the text as rows for `r`. -/
def rowsFor (text : Text) (now : Int) (r : Pubkey) : List OutboundRow :=
  (Format.splitPackets text Format.defaultPacketBytes).map fun packet =>
    newOutboundRow r packet now priorityNotification none (lit "notification")

theorem rowsOf_push {w : World} {text : Text} {r : Pubkey} :
    w.rowsOf (push text r) = rowsFor text w.now r := rfl

theorem status_rowsFor {text : Text} {now : Int} {r : Pubkey} :
    ∀ row ∈ rowsFor text now r, row.status = .pending := by
  intro row hrow
  obtain ⟨packet, -, rfl⟩ := List.mem_map.mp hrow
  rfl

theorem toPubkey_rowsFor {text : Text} {now : Int} (r : Pubkey) :
    ∀ row ∈ rowsFor text now r, row.toPubkey = r := by
  intro row hrow
  obtain ⟨packet, -, rfl⟩ := List.mem_map.mp hrow
  rfl

theorem run_pushAll (py : Py) (pk : Pubkey) (text : Text) (recipients : List Pubkey) (w : World) :
    ((pushAll pk text recipients).run (Op.run py) w).1 = some () ∧
    ((pushAll pk text recipients).run (Op.run py) w).2.outboundRows = w.outboundRows ++
      offered (rowsFor text w.now) (Format.splitPackets text Format.defaultPacketBytes).length
        w.queue.outboundPendingDepth w.cfg.limits.outboundQueueMaxDepth
        (recipients.filter (· ≠ pk)) := by
  unfold pushAll
  rw [forEach_filter]
  induction recipients.filter (· ≠ pk) generalizing w with
  | nil => exact ⟨rfl, (List.append_nil _).symm⟩
  | cons r rs ih =>
    have hpush : (Dispatcher.push (.broadcast pk) r text).run (Op.run py) w =
      (some (), w.enqueued (.broadcast pk) (push text r)) := Dispatcher.run_enqueueReply ..
    rw [forEach, run_bind_of_some hpush]
    refine ⟨(ih _).1, (ih _).2.trans ?_⟩
    have haside : w.Aside (w.enqueued (.broadcast pk) (push text r)) := World.enqueued_aside
    have hnow : (w.enqueued (.broadcast pk) (push text r)).now = w.now :=
      congrArg Int.floor haside.clock
    rw [hnow, haside.cfg]
    by_cases hfull : w.cfg.limits.outboundQueueMaxDepth ≤ w.queue.outboundPendingDepth
    · have hsame : w.enqueued (.broadcast pk) (push text r) = w := by
        rw [World.enqueued, World.refuses_of_low rfl, if_pos (decide_eq_true hfull)]
      rw [hsame, offered_of_full hfull, offered_of_full hfull]
    · have hrows : w.enqueued (.broadcast pk) (push text r) =
          w.insertRows (.broadcast pk) (rowsFor text w.now r) := by
        rw [World.enqueued, World.refuses_of_low rfl, if_neg (by simpa using hfull), rowsOf_push]
      rw [hrows, World.outboundRows_insertRows, World.depth_insertRows status_rowsFor,
        offered_cons (not_le.mp hfull), List.append_assoc]
      simp [rowsFor]

/-! ## The confirmed broadcast -/

/-- Every user who is not banned, but the admin. -/
def others (w : World) (pk : Pubkey) : List Pubkey := w.users.allUserPubkeys.filter (· ≠ pk)

theorem nodup_others (w : World) (pk : Pubkey) : (others w pk).Nodup :=
  ((w.users.unique.pubkeys.sublist (List.filter_sublist.map User.pubkey)).filter _)

/-- `OK broadcasting to N users.` as rows for the admin. -/
def statusRows (w : World) (pk : Pubkey) : List OutboundRow :=
  (Format.splitPackets (okText w.users.allUserPubkeys.length) Format.defaultPacketBytes).map fun packet =>
    newOutboundRow pk packet w.now priorityNormal (some (lit "ADMIN BROADCAST")) (lit "response")

/-- The rows for `r` that are in `w'` and not in `w`. -/
def newRowsTo (w w' : World) (r : Pubkey) : List OutboundRow :=
  (w'.outboundRows.drop w.outboundRows.length).filter fun row => row.toPubkey = r

/-- The world after the command `ADMIN BROADCAST` with these arguments. -/
def answeredWorld (sv : Services) (inbound : InboundMessage) (args : List Text) (rest : Text)
    (w : World) : World :=
  ((Dispatcher.handleCommand sv inbound ⟨lit "ADMIN BROADCAST", args, rest⟩).run (Op.run sv.py) w).2

section Reach

variable {sv : Services} {w : World} {inbound : InboundMessage} {args : List Text} {rest : Text}
  {pending : PendingBroadcast}

theorem run_confirmBroadcast_ok {py : Py} {pk : Pubkey} (hpending : w.pending pk = some pending)
    (hage : w.now - pending.createdAt ≤ 120) :
    (Services.confirmBroadcast pk).run (Op.run py) w =
      (some (okText w.users.allUserPubkeys.length, w.users.allUserPubkeys, pending.text),
        audited w pk pending.text) := by
  rw [run_confirmBroadcast, hpending]
  exact if_neg (not_lt.mpr hage)

/-- An answer is never turned away. -/
theorem enqueued_answer {text : Text} {v : Option Text} {pk : Pubkey} :
    w.enqueued .answer { pk := pk, text := text, triggerCommand := v } =
      w.insertRows .answer (w.rowsOf { pk := pk, text := text, triggerCommand := v }) := by
  simp [World.enqueued, World.refuses, Reply.refused]

theorem mem_statusRows {pk : Pubkey} {row : OutboundRow} (hrow : row ∈ statusRows w pk) :
    row.status = .pending ∧ row.toPubkey = pk := by
  obtain ⟨packet, -, rfl⟩ := List.mem_map.mp hrow
  exact ⟨rfl, rfl⟩

/-- The status, then the rows of the recipients. -/
theorem outboundRows_answered (hadmin : sv.isAdmin inbound.pubkey = true)
    (hconfirm : args.head?.map sv.py.upper = some (lit "CONFIRM"))
    (hpending : w.pending inbound.pubkey = some pending) (hage : w.now - pending.createdAt ≤ 120) :
    (answeredWorld sv inbound args rest w).outboundRows =
      w.outboundRows ++ (statusRows w inbound.pubkey ++ offered (rowsFor pending.text w.now)
        (Format.splitPackets pending.text Format.defaultPacketBytes).length
        (w.queue.outboundPendingDepth + (statusRows w inbound.pubkey).length)
        w.cfg.limits.outboundQueueMaxDepth (others w inbound.pubkey)) := by
  let w₁ := logged w inbound.pubkey inbound.body
  let w₂ := audited w₁ inbound.pubkey pending.text
  let w₃ := w₂.insertRows .answer (statusRows w inbound.pubkey)
  have hlog : (call (.logCommand inbound.pubkey inbound.body)).run (Op.run sv.py) w =
    (some (), w₁) := rfl
  have hstatus : (Dispatcher.answer inbound.pubkey (okText w.users.allUserPubkeys.length)
      (some (lit "ADMIN BROADCAST"))).run (Op.run sv.py) w₂ = (some (), w₃) :=
    (Dispatcher.run_enqueueReply ..).trans (congrArg (Prod.mk _) enqueued_answer)
  have hpushes := run_pushAll sv.py inbound.pubkey pending.text w.users.allUserPubkeys w₃
  have haside : w₂.Aside w₃ := World.insertRows_aside
  have hdispatch : (Dispatcher.dispatch sv inbound ⟨lit "ADMIN BROADCAST", args, rest⟩).run
      (Op.run sv.py) w₁ = (pushAll inbound.pubkey pending.text w.users.allUserPubkeys).run
        (Op.run sv.py) w₃ := by
    have hok : (Services.confirmBroadcast inbound.pubkey).run (Op.run sv.py) w₁ = (some
        (okText w.users.allUserPubkeys.length, w.users.allUserPubkeys, pending.text), w₂) :=
      run_confirmBroadcast_ok hpending hage
    rw [dispatch_broadcast inbound args rest hadmin]
    unfold Dispatcher.handleBroadcast
    rw [if_pos hconfirm]
    unfold Dispatcher.releaseBroadcast
    rw [run_bind_of_some hok]
    exact run_bind_of_some hstatus _
  have hnow : w₃.now = w.now := congrArg Int.floor haside.clock
  have hdepth : w₃.queue.outboundPendingDepth =
      w.queue.outboundPendingDepth + (statusRows w inbound.pubkey).length :=
    World.depth_insertRows fun row hrow => (mem_statusRows hrow).1
  rw [hnow, haside.cfg, hdepth, World.outboundRows_insertRows, List.append_assoc] at hpushes
  unfold answeredWorld Dispatcher.handleCommand
  rw [run_bind_of_some hlog, run_orElse, hdispatch, hpushes.1]
  exact hpushes.2

/-- **A broadcast serves the users in order until the queue is full.**  The admin reads the
status, and the `i`-th of the others has exactly the packets of the text, once each, if the
queue had room at his turn, and else nothing. -/
theorem release_reach (hadmin : sv.isAdmin inbound.pubkey = true)
    (hconfirm : args.head?.map sv.py.upper = some (lit "CONFIRM"))
    (hpending : w.pending inbound.pubkey = some pending) (hage : w.now - pending.createdAt ≤ 120) :
    newRowsTo w (answeredWorld sv inbound args rest w) inbound.pubkey =
      statusRows w inbound.pubkey ∧
    ∀ (i : Nat) (r : Pubkey), (others w inbound.pubkey)[i]? = some r →
      newRowsTo w (answeredWorld sv inbound args rest w) r =
        if (w.queue.outboundPendingDepth + (statusRows w inbound.pubkey).length : Nat) +
            i * (Format.splitPackets pending.text Format.defaultPacketBytes).length <
              w.cfg.limits.outboundQueueMaxDepth then
          rowsFor pending.text w.now r
        else [] := by
  have hrows : (answeredWorld sv inbound args rest w).outboundRows.drop w.outboundRows.length = _ :=
    (congrArg (List.drop _) (outboundRows_answered hadmin hconfirm hpending hage)).trans
      List.drop_left
  have hother {r : Pubkey} (hr : r ∈ others w inbound.pubkey) : r ≠ inbound.pubkey := by
    simpa using (List.mem_filter.mp hr).2
  unfold newRowsTo
  rw [hrows]
  simp only [List.filter_append]
  constructor
  · have hstatus : (statusRows w inbound.pubkey).filter (·.toPubkey = inbound.pubkey) =
        statusRows w inbound.pubkey :=
      List.filter_eq_self.mpr fun row hrow => decide_eq_true (mem_statusRows hrow).2
    rw [hstatus, List.append_right_eq_self, List.filter_eq_nil_iff]
    intro row hrow hto
    obtain ⟨r, hr, hrow⟩ := mem_of_mem_offered hrow
    exact hother hr ((toPubkey_rowsFor r row hrow).symm.trans (of_decide_eq_true hto))
  · intro i r hr
    have hstatus : (statusRows w inbound.pubkey).filter (·.toPubkey = r) = [] := by
      rw [List.filter_eq_nil_iff]
      intro row hrow hto
      exact hother (List.mem_of_getElem? hr)
        ((of_decide_eq_true hto).symm.trans (mem_statusRows hrow).2)
    rw [hstatus, List.nil_append]
    exact filter_offered (nodup_others w inbound.pubkey) toPubkey_rowsFor hr

end Reach

/-! ## Samples -/

/-- `hello` is staged. -/
def stageHello : List Process.Act := Process.twoJoin ++ [Process.fromUser (lit "aa") "ADMIN BROADCAST hello"]

def confirmHello : InboundMessage :=
  { pubkey := lit "aa", body := lit "ADMIN BROADCAST CONFIRM", hops := some 0 }

theorem release_reach_hello : ∃ w,
    Machine.Run (Process.step Process.asciiServices) (fun _ _ => true) (World.start 100) w ∧
    newRowsTo w (answeredWorld Process.asciiServices confirmHello [lit "CONFIRM"] [] w) (lit "bb") =
      [newOutboundRow (lit "bb") (lit "hello") 100 priorityNotification none (lit "notification")] := by
  obtain ⟨w, hrun, hp⟩ := Machine.exists_run (Process.step Process.asciiServices) (fun _ _ => true)
    (p := fun w => w.pending (lit "aa") = some ⟨lit "hello", 100⟩ && w.now = 100 &&
      (others w (lit "aa"))[0]? = some (lit "bb") &&
      (w.queue.outboundPendingDepth + (statusRows w (lit "aa")).length : Nat) <
        w.cfg.limits.outboundQueueMaxDepth) stageHello (s := World.start 100) (by decide +kernel)
  simp only [Bool.and_eq_true, decide_eq_true_eq] at hp
  obtain ⟨⟨⟨hpending, hnow⟩, hbob⟩, hroom⟩ := hp
  have hadmin : Process.asciiServices.isAdmin confirmHello.pubkey = true := by decide
  have hconfirm : [lit "CONFIRM"].head?.map Process.asciiServices.py.upper = some (lit "CONFIRM") := by
    decide
  have hage : w.now - (100 : Int) ≤ 120 := by
    rw [hnow]
    decide
  refine ⟨w, hrun, ((release_reach hadmin hconfirm hpending hage).2 0 _ hbob).trans ?_⟩
  have hroom : ((w.queue.outboundPendingDepth + (statusRows w confirmHello.pubkey).length : Nat) : Int) +
      (0 : Nat) * (Format.splitPackets (lit "hello") Format.defaultPacketBytes).length <
        w.cfg.limits.outboundQueueMaxDepth := by
    rw [Nat.cast_zero, zero_mul, add_zero]
    exact hroom
  rw [if_pos hroom, hnow]
  decide

/-- The queue may hold five rows. -/
def shortQueue : Config := { limits := { outboundQueueMaxDepth := 5 } }

/-- Every other user has exactly the packets of the text. -/
def ReachesAll (w w' : World) (pk : Pubkey) (text : Text) : Prop :=
  ∀ r ∈ others w pk, newRowsTo w w' r = rowsFor text w.now r

/-- `bob` gets nothing. -/
theorem release_short : ∃ w,
    Machine.Run (Process.step Process.asciiServices) (fun _ _ => true) (World.start 100) w ∧
    w.pending (lit "aa") = some ⟨lit "hello", 100⟩ ∧ w.now = 100 ∧
    newRowsTo w (answeredWorld Process.asciiServices confirmHello [lit "CONFIRM"] [] w) (lit "aa") =
      statusRows w (lit "aa") ∧
    ¬ ReachesAll w (answeredWorld Process.asciiServices confirmHello [lit "CONFIRM"] [] w) (lit "aa")
      (lit "hello") := by
  obtain ⟨w, hrun, hp⟩ := Machine.exists_run (Process.step Process.asciiServices) (fun _ _ => true)
    (p := fun w => w.pending (lit "aa") = some ⟨lit "hello", 100⟩ && w.now = 100 &&
      (newRowsTo w (answeredWorld Process.asciiServices confirmHello [lit "CONFIRM"] [] w)
        (lit "aa") = statusRows w (lit "aa")) &&
      lit "bb" ∈ others w (lit "aa") &&
      newRowsTo w (answeredWorld Process.asciiServices confirmHello [lit "CONFIRM"] [] w)
        (lit "bb") ≠ rowsFor (lit "hello") w.now (lit "bb"))
    (.outside (.reload shortQueue) :: stageHello) (s := World.start 100) (by decide +kernel)
  simp only [Bool.and_eq_true, decide_eq_true_eq] at hp
  obtain ⟨⟨⟨⟨hpending, hnow⟩, hstatus⟩, hbob⟩, hnone⟩ := hp
  exact ⟨w, hrun, hpending, hnow, hstatus, fun hall => hnone (hall _ hbob)⟩

end Broadcast

end Bbs
