import Mathlib.Algebra.Order.Field.Basic
import Mathlib.Data.Finset.Card
import Mathlib.Tactic.Linarith
import MeshcoreBbs.Host
import MeshcoreBbs.Notices

/-!
# How often a user is told of new mail

Requests look at the time of the last notice and set it in one turn, but enqueue the notice in a later
one.  In a run, what has been enqueued and what may still be are together at most as many as the time
of the last notice allows (`Spaced`), however the requests take turns (`notices_spaced`).
-/

namespace Bbs

open Coroutine Dispatcher

namespace Notices

variable (sv : Services) (lo : Int) (hi : ℚ)

/-- The rows of notices to `pk`. -/
def noticesTo (pk : Pubkey) (record : List Entry) : Nat :=
  record.countP fun e => match e with
    | .inserted .newMail row _ => row.toPubkey = pk
    | _ => false

/-- What is left of a request.  Who `holds` may still enqueue a notice to `pk`; in the world `live`,
which is that of a request in the middle of its turn, `should_notify` has just looked at the time of
the last notice. -/
inductive Stage (pk : Pubkey) (holds : Prop) (live : Option World) : Prog Unit → Prop
  | noticing {owed m} (hm : Noticing sv lo hi owed m) (hholds : owed = some pk → holds) :
      Stage pk holds live m
  | asked {pk' now w k} (hlive : live = some w) (hdue : sv.due (w.lastNotifyAt pk') now = true)
      (hlo : lo ≤ now) (hhi : now ≤ hi) (hk : ∀ r, Noticing sv lo hi (some pk') (k r)) :
      Stage pk holds live (.await (.setLastNotifyAt pk' now) k)

/-- What an operation does to the notices to `pk`, and to who may enqueue them. -/
inductive Effect (pk : Pubkey) (holds : Prop) (w : World) (op : Op) (next : Prop → Prop) : Prop
  | aside (hset : ∀ now, op ≠ .setLastNotifyAt pk now)
      (hrow : ∀ row, op = .enqueueOutbound .newMail row → row.toPubkey ≠ pk) (hnext : next holds)
  | grants {now : ℚ} (hop : op = .setLastNotifyAt pk now)
      (hdue : sv.due (w.lastNotifyAt pk) now = true) (hlo : lo ≤ now) (hhi : now ≤ hi)
      (hnext : ∀ holds', holds' → next holds')
  | enqueues {row : OutboundRow} (hop : op = .enqueueOutbound .newMail row) (hto : row.toPubkey = pk)
      (hholds : holds) (hnext : ∀ holds', next holds')

section Steps

variable {sv lo hi} {pk : Pubkey} {holds : Prop} {w : World} {op : Op} {k : Option op.Res → Prog Unit}
  {py : Py}

theorem may_run (hlo : lo ≤ w.clock) (hhi : w.clock ≤ hi) (hmail : w.mail.seq < 2 ^ 63) :
    May lo hi op (op.run py w).1 := by
  cases op with
  | time => exact ⟨hlo, hhi⟩
  | countUnread pk =>
    have hle : w.countUnread pk ≤ w.mail.seq + 1 :=
      (List.length_filter_le _ _).trans w.mail.length_rows_le
    show w.countUnread pk ≤ 2 ^ 63
    omega
  | _ => exact fun h => Op.mayRaise_of_run h

/-- **What the next operation of a request does.** -/
theorem stage_op (hlo : lo ≤ w.clock) (hhi : w.clock ≤ hi) (hmail : w.mail.seq < 2 ^ 63)
    (h : Stage sv lo hi pk holds (some w) (.await op k)) :
    Effect sv lo hi pk holds w op fun holds' =>
      Stage sv lo hi pk holds' (if op.awaited then none else some (op.run sv.py w).2)
        (k (op.run sv.py w).1) := by
  cases h with
  | @asked pk' now w' k hlive hdue hlo' hhi' hk =>
    cases hlive
    by_cases hpk : pk' = pk
    · subst hpk
      exact .grants rfl hdue hlo' hhi' fun holds' hholds' => .noticing (hk _) fun _ => hholds'
    · refine .aside (fun now' heq => ?_) nofun (.noticing (hk _) fun heq => ?_)
      · cases heq
        exact hpk rfl
      · cases heq
        exact absurd rfl hpk
  | @noticing owed _ hm hholds =>
    generalize heq : Coroutine.await op k = m at hm
    induction hm with
    | finish => cases heq
    | @quiet owed op' k' hop hk =>
      cases heq
      refine .aside (fun now hset => ?_) (fun row hrow => ?_)
        (.noticing (hk _ (may_run hlo hhi hmail)) hholds)
      · subst hset
        cases hop
      · subst hrow
        cases hop
    | @ask owed pk' k' now next hlo' hhi' hdue hnext hnot =>
      cases heq
      refine .aside nofun nofun ?_
      show Stage sv lo hi pk holds (some w) (k' (some (w.lastNotifyAt pk')))
      cases hlast : sv.due (w.lastNotifyAt pk') now with
      | true =>
        rw [hdue _ hlast]
        exact .asked rfl hlast hlo' hhi' (hnext _)
      | false => exact .noticing (hnot _ hlast) hholds
    | @enqueue pk' row k' hto hk =>
      cases heq
      by_cases hpk : pk' = pk
      · subst hpk
        exact .enqueues rfl hto (hholds rfl) fun _ => .noticing (hk _) nofun
      · refine .aside nofun (fun row' hrow => ?_) (.noticing (hk _) nofun)
        cases hrow
        rw [hto]
        exact hpk
    | lapse _ ih => exact ih nofun heq

theorem Stage.mono {holds' : Prop} {live : Option World} {m : Prog Unit}
    (h : Stage sv lo hi pk holds live m) (himp : holds → holds') : Stage sv lo hi pk holds' live m := by
  cases h with
  | noticing hm hholds => exact .noticing hm fun heq => himp (hholds heq)
  | asked hlive hdue hlo hhi hk => exact .asked hlive hdue hlo hhi hk

/-- Until it takes its turn, the world does not matter. -/
theorem Stage.of_none {live : Option World} {m : Prog Unit} (h : Stage sv lo hi pk holds none m) :
    Stage sv lo hi pk holds live m := by
  cases h with
  | noticing hm hholds => exact .noticing hm hholds
  | asked hlive => cases hlive

theorem Stage.finish {live : Option World} {r : Option Unit}
    (h : Stage sv lo hi pk holds live (.finish r)) : Stage sv lo hi pk holds none (.finish r) := by
  cases h with
  | noticing hm hholds => exact .noticing hm hholds

end Steps

/-! ### The tables -/

section Tables

variable {pk : Pubkey} {op : Op} (py : Py) (w : World)

theorem run_lastNotifyAt : (op.run py w).2.lastNotifyAt = match op with
    | .setLastNotifyAt pk t => Function.update w.lastNotifyAt pk (some t)
    | _ => w.lastNotifyAt := by
  cases op with
  | insertUser | addMail =>
    rw [Op.run]
    split <;> rfl
  | _ => first | rfl | exact Op.check_frame World.lastNotifyAt rfl

theorem run_aside (hset : ∀ now, op ≠ .setLastNotifyAt pk now)
    (hrow : ∀ row, op = .enqueueOutbound .newMail row → row.toPubkey ≠ pk) :
    noticesTo pk (op.run py w).2.record = noticesTo pk w.record ∧
      (op.run py w).2.lastNotifyAt pk = w.lastNotifyAt pk := by
  rw [Op.run_record, run_lastNotifyAt]
  refine ⟨?_, ?_⟩
  · cases op with
    | enqueueOutbound origin row =>
      refine List.countP_cons_of_neg ?_
      cases origin with
      | newMail => simpa using hrow row rfl
      | _ => simp
    | logCommand | sendAdvert => exact List.countP_cons_of_neg (by simp)
    | _ => rfl
  · cases op with
    | setLastNotifyAt pk' now =>
      have hne : pk ≠ pk' := fun heq => hset now (heq ▸ rfl)
      exact Function.update_of_ne hne ..
    | _ => rfl

end Tables

section Runs

/-- How many seconds of notices there may be: none before the first, which may come at once. -/
def allowance (last : Option ℚ) : ℚ :=
  last.elim 0 fun t => sv.mail.notifyMinIntervalSeconds + (t - lo)

/-- What has been and may still be enqueued is paid for.  `holders` are the requests that
`should_notify` has let through. -/
structure Spaced (pk : Pubkey) (old : Nat) (live : Option Nat) (w : World)
    (tasks : List (Request × Prog Unit)) (holders : Finset Nat) : Prop where
  born : lo ≤ w.clock
  known : ∀ i ∈ holders, i < tasks.length
  stages : ∀ i r m, tasks[i]? = some (r, m) →
    Stage sv lo hi pk (i ∈ holders) (if live = some i then some w else none) m
  last : ∀ t, w.lastNotifyAt pk = some t → t ≤ hi
  paid : ((noticesTo pk w.record + holders.card : ℕ) : ℚ) * sv.mail.notifyMinIntervalSeconds ≤
    old * sv.mail.notifyMinIntervalSeconds + allowance sv lo (w.lastNotifyAt pk)

/-- The clock has not passed `hi`, and mail still has ids. -/
def SpacedBy (pk : Pubkey) (old : Nat) (live : Option Nat) (w : World)
    (tasks : List (Request × Prog Unit)) : Prop :=
  w.clock ≤ hi → w.mail.seq < 2 ^ 63 → ∃ holders, Spaced sv lo hi pk old live w tasks holders

variable {sv lo hi} {pk : Pubkey} {old : Nat} {live : Option Nat} {w : World}
  {tasks : List (Request × Prog Unit)} {holders holders' : Finset Nat} {i : Nat} {r : Request} {op : Op}
  {k : Option op.Res → Prog Unit}

/-- The requests, after one of them has performed an operation. -/
theorem stages_set {w' : World} {m m' : Prog Unit}
    (hold : ∀ j r₁ m₁, (tasks.set i (r, m))[j]? = some (r₁, m₁) →
      Stage sv lo hi pk (j ∈ holders) (if some i = some j then some w else none) m₁)
    (hnew : Stage sv lo hi pk (i ∈ holders') (if live = some i then some w' else none) m')
    (hothers : ∀ j, j ≠ i → j ∈ holders → j ∈ holders') :
    ∀ j r₁ m₁, (tasks.set i (r, m'))[j]? = some (r₁, m₁) →
      Stage sv lo hi pk (j ∈ holders') (if live = some j then some w' else none) m₁ := by
  intro j r₁ m₁ hj
  by_cases hij : i = j
  · subst hij
    rw [List.getElem?_set, if_pos rfl] at hj
    split at hj
    · cases hj
      exact hnew
    · cases hj
  · rw [List.getElem?_set_ne hij] at hj
    have hstage := hold j r₁ m₁ ((List.getElem?_set_ne hij).trans hj)
    rw [if_neg (by simpa using hij)] at hstage
    exact (hstage.mono (hothers j (Ne.symm hij))).of_none

/-- A notice that is let through uses up an interval. -/
theorem allowance_grant {last : Option ℚ} {now : ℚ} (hdue : sv.due last now = true) (hlo : lo ≤ now) :
    allowance sv lo last + sv.mail.notifyMinIntervalSeconds ≤ allowance sv lo (some now) := by
  have hgap : sv.mail.notifyMinIntervalSeconds ≤ now - last.getD 0 := by
    simpa [Services.due] using hdue
  cases last with
  | none =>
    show (0 : ℚ) + _ ≤ _ + (now - lo)
    linarith
  | some t =>
    show _ + (t - lo) + _ ≤ _ + (now - lo)
    have hgap : (sv.mail.notifyMinIntervalSeconds : ℚ) ≤ now - t := hgap
    linarith

theorem spaced_op (hI : 0 < sv.mail.notifyMinIntervalSeconds)
    (hlive : live = if op.awaited then none else some i) (hlen : i < tasks.length)
    (h : SpacedBy sv lo hi pk old (some i) w (tasks.set i (r, .await op k))) :
    SpacedBy sv lo hi pk old live (op.run sv.py w).2 (tasks.set i (r, k (op.run sv.py w).1)) := by
  have hrely := Mailbox.rely_run sv.py op w
  intro hclock hmail
  have hclock : w.clock ≤ hi := hrely.clock.trans hclock
  have hmail : w.mail.seq < 2 ^ 63 := lt_of_le_of_lt hrely.seq hmail
  obtain ⟨holders, hborn, hknown, hstages, hlast, hpaid⟩ := h hclock hmail
  rw [List.length_set] at hknown
  have hborn' : lo ≤ (op.run sv.py w).2.clock := hborn.trans hrely.clock
  have hstage := hstages i r (.await op k) (by simp [hlen])
  rw [if_pos rfl] at hstage
  have heffect := stage_op hborn hclock hmail hstage
  have hif : (if op.awaited then none else some (op.run sv.py w).2) =
      if live = some i then some (op.run sv.py w).2 else none := by
    rw [hlive]
    split <;> simp
  rw [hif] at heffect
  cases heffect with
  | aside hset hrow hnext =>
    obtain ⟨hrec, hsame⟩ := run_aside sv.py w hset hrow
    refine ⟨holders, hborn', by rwa [List.length_set], stages_set hstages hnext fun _ _ hj => hj, ?_, ?_⟩
    · rwa [hsame]
    · rwa [hrec, hsame]
  | @grants now hop hdue hlo hhi hnext =>
    subst hop
    have hset : ((Op.setLastNotifyAt pk now).run sv.py w).2.lastNotifyAt pk = some now :=
      Function.update_self ..
    refine ⟨insert i holders, hborn', fun j hj => ?_, stages_set hstages
      (hnext _ (Finset.mem_insert_self ..)) fun _ _ => Finset.mem_insert_of_mem, fun t ht => ?_, ?_⟩
    · rw [List.length_set]
      rcases Finset.mem_insert.mp hj with rfl | hj
      · exact hlen
      · exact hknown j hj
    · cases hset.symm.trans ht
      exact hhi
    · have hle : ((noticesTo pk w.record + (insert i holders).card : ℕ) : ℚ) ≤
          ((noticesTo pk w.record + holders.card : ℕ) : ℚ) + 1 := by
        have := Finset.card_insert_le i holders
        exact_mod_cast (by omega)
      have hmul := mul_le_mul_of_nonneg_right hle (Int.cast_nonneg hI.le : (0 : ℚ) ≤ _)
      have hgrant := allowance_grant hdue hlo
      rw [hset]
      show ((noticesTo pk w.record + (insert i holders).card : ℕ) : ℚ) * _ ≤ _
      linarith
  | @enqueues row hop hto hholds hnext =>
    subst hop
    refine ⟨holders.erase i, hborn', fun j hj => ?_, stages_set hstages (hnext _)
      fun _ hne => Finset.mem_erase_of_ne_of_mem hne, hlast, ?_⟩
    · rw [List.length_set]
      exact hknown j (Finset.mem_of_mem_erase hj)
    · have hcount : noticesTo pk ((Op.enqueueOutbound .newMail row).run sv.py w).2.record =
          noticesTo pk w.record + 1 := List.countP_cons_of_pos (by simpa using hto)
      have hcard := Finset.card_erase_add_one hholds
      have hsame : noticesTo pk w.record + 1 + (holders.erase i).card =
          noticesTo pk w.record + holders.card := by omega
      rw [hcount, hsame]
      exact hpaid

/-- Only the requests are others. -/
theorem SpacedBy.stages {tasks' : List (Request × Prog Unit)} {live' : Option Nat}
    (h : SpacedBy sv lo hi pk old live w tasks) (hlen : tasks.length ≤ tasks'.length)
    (hnew : ∀ holders : Finset Nat,
      (∀ i r m, tasks[i]? = some (r, m) →
        Stage sv lo hi pk (i ∈ holders) (if live = some i then some w else none) m) →
      ∀ i r m, tasks'[i]? = some (r, m) →
        Stage sv lo hi pk (i ∈ holders) (if live' = some i then some w else none) m) :
    SpacedBy sv lo hi pk old live' w tasks' := by
  intro hclock hmail
  obtain ⟨holders, hborn, hknown, hstages, hlast, hpaid⟩ := h hclock hmail
  exact ⟨holders, hborn, fun i hi => (hknown i hi).trans_le hlen, hnew holders hstages, hlast, hpaid⟩

/-- The clock goes on, and nothing changes that notices are about. -/
theorem SpacedBy.outside {w' : World} (h : SpacedBy sv lo hi pk old none w tasks)
    (hclock : w.clock ≤ w'.clock) (hmail : w'.mail = w.mail) (hrecord : w'.record = w.record)
    (hlast : w'.lastNotifyAt = w.lastNotifyAt) : SpacedBy sv lo hi pk old none w' tasks := by
  intro hclock' hmail'
  obtain ⟨holders, hborn, hknown, hstages, hbefore, hpaid⟩ :=
    h (hclock.trans hclock') (hmail ▸ hmail')
  refine ⟨holders, hborn.trans hclock, hknown, hstages, ?_, ?_⟩
  · rwa [hlast]
  · rwa [hrecord, hlast]

theorem spaced_turn {p : Mailbox.Tasks} (hI : 0 < sv.mail.notifyMinIntervalSeconds)
    (hs : Pool.turn (Op.run sv.py) Op.awaited ⟨w, tasks⟩ i = some p)
    (h : SpacedBy sv lo hi pk old none w tasks) : SpacedBy sv lo hi pk old none p.state p.tasks := by
  obtain ⟨r, op, k, hi', rfl⟩ := Pool.turn_eq_some hs
  obtain ⟨hlen, heq⟩ := List.getElem?_eq_some_iff.mp hi'
  refine segment_keeps (P := fun m w => SpacedBy sv lo hi pk old (some i) w (tasks.set i (r, m)))
    (Q := fun m w => SpacedBy sv lo hi pk old none w (tasks.set i (r, m))) ?_ ?_ ?_ ?_
  · refine fun end_ w h => h.stages (le_refl _) fun holders hold => ?_
    exact stages_set hold (Stage.finish (hold i r (.finish end_) (List.getElem?_set_self hlen)))
      fun _ _ hj => hj
  · exact fun op k w hop h => spaced_op hI (by rw [hop]; rfl) hlen h
  · exact fun op k w hop h => spaced_op hI (by rw [hop]; rfl) hlen h
  · rw [← heq, List.set_getElem_self]
    refine h.stages (le_refl _) fun holders hold j r₁ m₁ hj => ?_
    exact (hold j r₁ m₁ hj).of_none

variable {limits : LimitsConfig} {h h' h₀ : Host} {a : HostAct}

theorem spaced_step (hI : 0 < sv.mail.notifyMinIntervalSeconds) (ha : a ≠ .restart)
    (hs : Host.step limits sv h a = some h')
    (hsp : SpacedBy sv lo hi pk old none h.tasks.state h.tasks.tasks) :
    SpacedBy sv lo hi pk old none h'.tasks.state h'.tasks.tasks := by
  cases a with
  | request r =>
    cases hs
    refine hsp.stages (by simp) fun holders hold j r₁ m₁ hj => ?_
    rw [List.getElem?_append] at hj
    split at hj
    · exact hold j r₁ m₁ hj
    · cases List.eq_of_mem_singleton (List.mem_of_getElem? hj)
      exact .noticing (request_noticing r) nofun
  | turn i =>
    obtain ⟨p, hturn, rfl⟩ := Option.map_eq_some_iff.mp hs
    exact spaced_turn hI hturn hsp
  | outside e =>
    cases e with
    | wait | queue => cases hs
    | _ =>
      cases hs
      exact hsp.outside (le_refl _) rfl rfl rfl
  | queue b =>
    obtain ⟨-, hs⟩ := Option.ite_none_right_eq_some.mp hs
    obtain ⟨v, hstep, rfl⟩ := Option.map_eq_some_iff.mp hs
    have hclock : h.tasks.state.clock ≤ v.state.clock := (serviceStep_cases hstep).clock_le
    exact hsp.outside hclock rfl rfl rfl
  | restart => exact absurd rfl ha

/-- A process that has just begun. -/
structure Fresh (h : Host) : Prop where
  tasks : h.tasks.tasks = []
  lastNotifyAt : ∀ pk, h.tasks.state.lastNotifyAt pk = none

/-- **A user is not told of new mail too often.**  From the start of a process and until its next
restart, whatever asks for it and however the requests take turns, the notices enqueued for a user are
at most one, and one more for every `notify_min_interval_seconds` that have passed. -/
theorem notices_spaced (h0 : Fresh h₀) (hI : 0 < sv.mail.notifyMinIntervalSeconds)
    (hrun : Machine.Run (Host.step limits sv) (fun _ a => a ≠ .restart) h₀ h)
    (hmail : h.tasks.state.mail.seq < 2 ^ 63) (pk : Pubkey) :
    (noticesTo pk h.tasks.state.record : ℚ) ≤ noticesTo pk h₀.tasks.state.record + 1 +
      (h.tasks.state.clock - h₀.tasks.state.now) / sv.mail.notifyMinIntervalSeconds := by
  have hsp : SpacedBy sv h₀.tasks.state.now h.tasks.state.clock pk (noticesTo pk h₀.tasks.state.record)
      none h.tasks.state h.tasks.tasks := by
    refine hrun.invariant (P := fun h => SpacedBy sv _ _ pk _ none h.tasks.state h.tasks.tasks)
      (fun _ _ _ hsp ha hs => spaced_step hI ha hs hsp) fun _ _ => ?_
    refine ⟨∅, Int.floor_le _, by simp, fun i r m hi => ?_, fun t ht => ?_, ?_⟩
    · rw [h0.tasks] at hi
      cases List.getElem?_nil.symm.trans hi
    · cases (h0.lastNotifyAt pk).symm.trans ht
    · rw [h0.lastNotifyAt]
      simp [allowance]
  obtain ⟨holders, hborn, -, -, hlast, hpaid⟩ := hsp (le_refl _) hmail
  have hI' : (0 : ℚ) < sv.mail.notifyMinIntervalSeconds := Int.cast_pos.mpr hI
  have hallow : allowance sv h₀.tasks.state.now (h.tasks.state.lastNotifyAt pk) ≤
      sv.mail.notifyMinIntervalSeconds + (h.tasks.state.clock - h₀.tasks.state.now) := by
    cases ht : h.tasks.state.lastNotifyAt pk with
    | none =>
      show (0 : ℚ) ≤ _
      linarith
    | some t =>
      have hle := hlast t ht
      show (_ : ℚ) + (t - _) ≤ _
      linarith
  have hrows : (noticesTo pk h.tasks.state.record : ℚ) * sv.mail.notifyMinIntervalSeconds ≤
      ((noticesTo pk h.tasks.state.record + holders.card : ℕ) : ℚ) * sv.mail.notifyMinIntervalSeconds :=
    mul_le_mul_of_nonneg_right (Nat.cast_le.mpr (Nat.le_add_right ..)) hI'.le
  have hdiv : (noticesTo pk h.tasks.state.record : ℚ) - noticesTo pk h₀.tasks.state.record - 1 ≤
      (h.tasks.state.clock - h₀.tasks.state.now) / sv.mail.notifyMinIntervalSeconds := by
    rw [le_div_iff₀ hI']
    linarith
  linarith

/-- `pk` says something and takes its first turns. -/
def said (i : Nat) (pk : Pubkey) (body : String) (turns : Nat) : List HostAct :=
  .request (.inbound { pubkey := pk, body := lit body, hops := some 0 }) ::
    List.replicate turns (.turn i)

/-- `ann` sends `bob` two mails, and the two requests take turns. -/
def twoMails : List HostAct :=
  said 0 (lit "aa") "hi" 6 ++ said 1 (lit "aa") "NAME ann" 8 ++ said 2 (lit "bb") "hi" 6 ++
    said 3 (lit "bb") "NAME bob" 8 ++ said 4 (lit "aa") "SEND bob hello" 0 ++
    said 5 (lit "aa") "SEND bob again" 0 ++
    (List.replicate 11 [HostAct.turn 4, .turn 5]).flatten ++ [.turn 4, .turn 4]

theorem notices_spaced_two : ∃ h : Host, h.tasks.state.mail.seq = 2 ∧
    noticesTo (lit "bb") h.tasks.state.record = 1 ∧
    (noticesTo (lit "bb") h.tasks.state.record : ℚ) ≤ (0 : ℕ) + 1 + (h.tasks.state.clock - 1000) / 600 := by
  obtain ⟨h, hrun, hp⟩ := Machine.exists_run (Host.step {} Process.asciiServices)
    (fun _ a => match a with | .restart => false | _ => true)
    (p := fun h => decide (h.tasks.state.mail.seq = 2 ∧ noticesTo (lit "bb") h.tasks.state.record = 1))
    (s := Host.start (World.start 1000)) twoMails (by decide +kernel)
  rw [decide_eq_true_eq] at hp
  have hrun : Machine.Run (Host.step {} Process.asciiServices) (fun _ a => a ≠ .restart)
      (Host.start (World.start 1000)) h := by
    refine hrun.mono fun _ a ha heq => ?_
    subst heq
    cases ha
  have hnow : (Host.start (World.start 1000)).tasks.state.now = 1000 := by decide +kernel
  have hspaced := notices_spaced ⟨rfl, fun _ => rfl⟩ (by decide) hrun (by rw [hp.1]; decide) (lit "bb")
  rw [hnow] at hspaced
  exact ⟨h, hp.1, hp.2, by exact_mod_cast hspaced⟩

end Runs

end Notices

end Bbs
