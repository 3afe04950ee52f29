import MeshcoreBbs.HostViews

/-!
# From request to transmission

In every run of the whole process each row that a request has enqueued is accounted for
(`replies_accounted`), and nothing else is transmitted (`transmissions_enqueued`).
-/

namespace Bbs

namespace Host

variable {limits : LimitsConfig} {sv : Services} {v₀ : Service} {h : Host}

/-! ## Numbers -/

/-- The rows inserted so far are numbered from `seq₀` on, in their order. -/
structure Numbered (seq₀ : Nat) (s : State) : Prop where
  seq : s.db.outbound.seq = seq₀ + (s.hist.filterMap Event.insertedRow).length
  ids : Machine.Justified (fun e past => ∀ call index id row time,
    e = .inserted call index id row time →
      id = seq₀ + (past.filterMap Event.insertedRow).length + 1) s.hist

theorem numbered_step {seq₀ : Nat} {s s' : State} {a : Act} (h : Numbered seq₀ s)
    (hs : Step limits s a s') : Numbered seq₀ s' := by
  refine ⟨?_, justified_step h.ids hs fun e hrec call index id row time heq => ?_⟩
  · have hworker : ∀ {env m st}, s.worker.Case limits s.clock s.db env m → m.stmt = some st →
        (st.run s.db).outbound.seq = s.db.outbound.seq := by
      intro env m st hm hst
      have hissued := hm.issued hst
      rw [Stmt.seq_run]
      split
      · obtain ⟨call, hcall⟩ := hissued
        cases hcall
      · rfl
    cases hs with
    | wait | spawn => exact h.seq
    | quiet hm | raises hm =>
      rw [filterMap_quiet fun e he => hm.quiet e (List.mem_append_right _ he)]
      exact h.seq
    | returns hm hst | raisesAfter hm hst =>
      rw [filterMap_quiet hm.quiet, hworker hm hst]
      exact h.seq
    | serve _ hm =>
      rw [List.filterMap_append, List.length_append, Stmt.seq_run]
      have hseq := h.seq
      have hnone := hseq.trans (congrArg (seq₀ + ·) (Nat.zero_add _).symm)
      cases hm with
      | firstPacket | nextPacket =>
        show s.db.outbound.seq + 1 = seq₀ + (1 + _)
        omega
      | pauseReturn hst =>
        rcases hst with rfl | ⟨detail, rfl⟩
        · exact hnone
        · exact hnone
      | _ => exact hnone
  · subst heq
    obtain ⟨-, hid, -⟩ := hrec
    rw [hid, h.seq]

theorem numbered_run {v : Service} (h0 : ServiceStart v₀) (hrun : ServiceRuns limits v₀ v) :
    Numbered v₀.state.db.outbound.seq v.state := by
  refine hrun.invariant (P := fun v => Numbered v₀.state.db.outbound.seq v.state)
    (fun _ _ _ h _ hs => ?_) ⟨?_, ?_⟩
  · exact (serviceStep_cases hs).keeps (P := Numbered v₀.state.db.outbound.seq)
      (fun _ _ _ h hs => numbered_step h hs) (fun _ h => ⟨h.seq, h.ids⟩) (fun _ h => ⟨h.seq, h.ids⟩) h
  · simp [h0.state.hist]
  · rw [h0.state.hist]
    trivial

/-- The row that an entry of the record is about is the one with its number. -/
theorem entry_inserted {v : Service} {record newer older : List Entry} {entry : Entry}
    {first : OutboundRow} (h0 : ServiceStart v₀) (hrun : ServiceRuns limits v₀ v)
    (hrows : v.state.hist.filterMap Event.insertedRow = record.filterMap outboundRow)
    (hrecord : record = newer ++ entry :: older) (hentry : outboundRow entry = some first) :
    ∃ call index time, .inserted call index
      (v₀.state.db.outbound.seq + (older.filterMap outboundRow).length + 1) first time ∈ v.state.hist := by
  rw [hrecord, List.filterMap_append, List.filterMap_cons_some hentry] at hrows
  obtain ⟨hist₁, hist₂, hhist, -, hrows⟩ := List.filterMap_eq_append_iff.mp hrows
  obtain ⟨quiet, e, past, rfl, -, he, hpast⟩ := List.filterMap_eq_cons_iff.mp hrows
  cases e with
  | inserted call index id row time =>
    cases he
    rw [← List.append_assoc] at hhist
    have hid := Machine.justified_iff.mp (numbered_run h0 hrun).ids (hist₁ ++ quiet) _ past hhist call
      index id first time rfl
    rw [hpast] at hid
    refine ⟨call, index, time, ?_⟩
    rw [← hid, hhist]
    exact List.mem_append_right _ List.mem_cons_self
  | _ => cases he

/-- A row that was transmitted goes to its recipient. -/
def Sent (s : State) : Prop := ∀ id pk tick t, .sendStart id pk tick t ∈ s.hist →
  ∃ row, s.db.outbound.get? id = some row ∧ row.toPubkey = pk

theorem sent_step {s s' : State} {a : Act} (h : Sent s)
    (hheld : ∀ msg, s.worker.pc.held = some msg →
      ∃ row, s.db.outbound.get? msg.id = some row ∧ row.toPubkey = msg.toPubkey)
    (hs : Step limits s a s') : Sent s' := by
  intro id pk tick t he
  have hrow : ∃ row, s.db.outbound.get? id = some row ∧ row.toPubkey = pk := by
    rcases hs.mem_hist he with he | hrec
    · exact h id pk tick t he
    · obtain ⟨env, msg, -, hun, rfl, rfl, -⟩ := hrec
      exact hheld msg hun.held
  obtain ⟨row, hrow, hpk⟩ := hrow
  obtain ⟨row', hrow', hstep⟩ := hs.row hrow
  exact ⟨row', hrow', hstep.fixed.1.trans hpk⟩

theorem books_run {v : Service} (h0 : ServiceStart v₀) (hrun : ServiceRuns limits v₀ v) :
    Books (startAttempts v₀.state) v ∧ Sent v.state := by
  refine hrun.invariant (P := fun v => Books (startAttempts v₀.state) v ∧ Sent v.state) ?_
    ⟨books_start h0, ?_⟩
  · rintro v b v' ⟨hbooks, hsent⟩ - hs
    have hs := serviceStep_cases hs
    refine ⟨books_step hbooks hs, ?_⟩
    cases hs with
    | worker _ _ hstep | spawn hstep | other hstep => exact sent_step hsent hbooks.held hstep
    | leave | stop | cancel | restart => exact hsent
  · intro id pk tick t he
    rw [h0.state.hist] at he
    cases he

/-- What accounts for a row is in the process. -/
theorem accounted_view {audit : List AuditRow} {tasks : List Task} {hist : List Event}
    {requested : List Task} {id : Nat} {first row : OutboundRow}
    (hevents : hist.filter (fun e => e.insertedRow = none) = h.service.state.hist)
    (hasked : requested.filter Task.ofDashboard = h.service.requested)
    (hacc : Accounted (shown h.tasks.state.clock { h.tasks.state.queue with audit := audit } h.service
      tasks hist requested) id first row) : Accounted h.view id first row := by
  refine { hacc with status := ?_ }
  have hstatus := hacc.status
  cases hrow : row.status with
  | pending => trivial
  | sent =>
    rw [hrow] at hstatus
    obtain ⟨t, ht⟩ := hstatus
    refine ⟨t, ?_⟩
    show _ ∈ h.service.state.hist
    rw [← hevents, List.mem_filter]
    exact ⟨ht, rfl⟩
  | failed =>
    rw [hrow] at hstatus
    show _ ≤ failures id h.service.state.hist
    rw [← hevents, failures, List.countP_filter]
    refine le_trans hstatus (List.countP_mono_left fun e _ he => ?_)
    cases e with
    | sendEnd => simpa [Event.insertedRow] using he
    | _ => cases he
  | dropped =>
    rw [hrow] at hstatus
    exact hstatus
  | cancelled =>
    rw [hrow] at hstatus
    show _ ∈ h.service.requested
    rw [← hasked, List.mem_filter]
    exact ⟨hstatus, rfl⟩

/-- **Every row that a request enqueued is accounted for.**  In every run of the process the rows are
numbered in the order of the record.  Each is still in the table with its recipient, text and priority,
and is pending, or the worker's history or a request of the dashboard says why it is not. -/
theorem replies_accounted {w : World} (hw : w.record = [])
    (hrun : Machine.Run (step limits sv) (fun _ _ => True) (start w) h) {newer older : List Entry}
    {origin : Origin} {first : OutboundRow} {banned : Bool}
    (hentry : h.tasks.state.record = newer ++ .inserted origin first banned :: older) :
    ∃ id row, id = w.queue.outbound.seq + (older.filterMap outboundRow).length + 1 ∧
      h.tasks.state.queue.outbound.get? id = some row ∧ Accounted h.view id first row := by
  obtain ⟨spots, audit, hist, requested, hruns, hseen⟩ := sighted_run hw hrun
  have h0 := start_service w
  obtain ⟨call, index, time, he⟩ := entry_inserted h0 hruns hseen.rows hentry rfl
  obtain ⟨-, -, row, hrow, hacc⟩ := (books_run h0 hruns).1.rows _ _ _ _ _ he
  exact ⟨_, row, rfl, hrow, accounted_view hseen.events hseen.asked hacc⟩

theorem replies_accounted_answered : ∃ (h : Host) (newer : List Entry) (origin : Origin)
    (first row : OutboundRow) (banned : Bool) (older : List Entry),
    h.tasks.state.record = newer ++ .inserted origin first banned :: older ∧
    h.tasks.state.queue.outbound.get? 1 = some row ∧ row.status = .sent ∧
    Accounted h.view 1 first row := by
  obtain ⟨h, hrun, hp⟩ := Machine.exists_run (step {} Process.asciiServices) (fun _ _ => true)
    (p := fun h => decide (0 < (h.tasks.state.record.filterMap outboundRow).length) &&
      (h.tasks.state.queue.outbound.get? 1).any fun row => row.status = .sent)
    (s := start (World.start 100)) answered (by decide +kernel)
  rw [Bool.and_eq_true, decide_eq_true_eq, Option.any_eq_true] at hp
  obtain ⟨hone, row', hrow', hsent⟩ := hp
  obtain ⟨newer, entry, older, first, hrec, hfirst, hlen⟩ := Machine.exists_nth hone
  cases entry with
  | inserted origin row banned =>
    cases hfirst
    obtain ⟨id, row, rfl, hrow, hacc⟩ := replies_accounted (w := World.start 100) rfl
      (hrun.mono fun _ _ _ => trivial) hrec
    rw [hlen] at hrow hacc
    cases hrow'.symm.trans hrow
    exact ⟨h, newer, origin, first, row', banned, older, hrec, hrow, of_decide_eq_true hsent, hacc⟩
  | _ => cases hfirst

/-- **Nothing is transmitted that was not enqueued.**  In every run of the process a transmission is of
a row that was in the table at the start, or of one that a request has enqueued, and goes to the
recipient that the request named. -/
theorem transmissions_enqueued {w : World} (hw : w.record = [])
    (hrun : Machine.Run (step limits sv) (fun _ _ => True) (start w) h) {id : Nat} {pk : Pubkey}
    {tick : Int} {t : ℚ} (hsent : .sendStart id pk tick t ∈ h.service.state.hist) :
    id ≤ w.queue.outbound.seq ∨ ∃ newer origin first banned older,
      h.tasks.state.record = newer ++ .inserted origin first banned :: older ∧
      id = w.queue.outbound.seq + (older.filterMap outboundRow).length + 1 ∧
      first.toPubkey = pk := by
  obtain ⟨spots, audit, hist, requested, hruns, hseen⟩ := sighted_run hw hrun
  have h0 := start_service w
  obtain ⟨hbooks, hto⟩ := books_run h0 hruns
  rw [← hseen.events] at hsent
  obtain ⟨row, hrow, rfl⟩ := hto id pk tick t (List.mem_of_mem_filter hsent)
  by_cases hold : id ≤ w.queue.outbound.seq
  · exact .inl hold
  · have hle : id ≤ h.tasks.state.queue.outbound.seq := RowTable.get?_le_seq hrow
    have hcount : h.tasks.state.queue.outbound.seq =
        w.queue.outbound.seq + (h.tasks.state.record.filterMap outboundRow).length := by
      rw [← hseen.rows]
      exact (numbered_run h0 hruns).seq
    have hnth : id - w.queue.outbound.seq - 1 < (h.tasks.state.record.filterMap outboundRow).length := by
      omega
    obtain ⟨newer, entry, older, first, hrec, hfirst, hlen⟩ := Machine.exists_nth hnth
    have hid : id = w.queue.outbound.seq + (older.filterMap outboundRow).length + 1 := by omega
    obtain ⟨call, index, time, he⟩ := entry_inserted h0 hruns hseen.rows hrec hfirst
    obtain ⟨-, -, row', hrow', hacc⟩ := hbooks.rows _ _ _ _ _ he
    cases entry with
    | inserted origin row₁ banned =>
      cases hfirst
      refine .inr ⟨newer, origin, first, banned, older, hrec, hid, ?_⟩
      rw [hid] at hrow
      cases hrow'.symm.trans hrow
      exact hacc.toPubkey.symm
    | _ => cases hfirst

theorem transmissions_enqueued_answered : ∃ (h : Host) (newer : List Entry) (origin : Origin)
    (first : OutboundRow) (banned : Bool) (older : List Entry),
    .sendStart 1 (lit "aa") 100 100 ∈ h.service.state.hist ∧
    h.tasks.state.record = newer ++ .inserted origin first banned :: older ∧
    first.toPubkey = lit "aa" := by
  obtain ⟨h, hrun, hp⟩ := Machine.exists_run (step {} Process.asciiServices) (fun _ _ => true)
    (p := fun h => decide (.sendStart 1 (lit "aa") 100 100 ∈ h.service.state.hist))
    (s := start (World.start 100)) answered (by decide +kernel)
  rw [decide_eq_true_eq] at hp
  rcases transmissions_enqueued (w := World.start 100) rfl (hrun.mono fun _ _ _ => trivial) hp with
    hold | ⟨newer, origin, first, banned, older, hrec, -, hpk⟩
  · cases hold
  · exact ⟨h, newer, origin, first, banned, older, hp, hrec, hpk⟩

end Host

end Bbs
