import Mathlib.Data.Finset.Card
import Mathlib.Data.Finset.SDiff
import Mathlib.Data.Rat.Floor
import Mathlib.Tactic.Linarith
import MeshcoreBbs.Lib.Coroutine
import MeshcoreBbs.Users

/-!
# Pruning the contacts (`contact_prune_job`)

The job looks for idle users in the table and takes ten of them off the contact list of the
device, on which they may not be at all.  The table does not change by that: the next run
finds the same ten.  `prune_progresses_iff` says when the runs get anywhere.
-/

namespace Bbs

open Coroutine

namespace ContactPrune

/-- `WHERE last_seen < ? AND banned = 0 ORDER BY last_seen ASC`. -/
def idleUsers (t : UserTable) (cutoff : Int) : List User :=
  (t.rows.filter fun u => u.lastSeen < cutoff && !u.banned).insertionSort
    fun u v => u.lastSeen ≤ v.lastSeen

/-- The contact list of the companion. -/
structure Device where
  radioAvailable : Bool := true
  contacts : Finset Pubkey
  capacity : Nat

/-- `used > 0.8 * cap`. -/
def Device.tight (d : Device) : Bool := 4 * d.capacity < 5 * d.contacts.card

structure Site where
  users : UserTable
  clock : ℚ
  pruneAfterDays : Int := 30
  device : Device

def Site.cutoff (s : Site) : Int := ⌊s.clock⌋ - s.pruneAfterDays * 86400

inductive PruneOp
  | radioAvailable
  | contactCapacity
  | time
  | pruneAfterDays
  | selectIdle (cutoff : Int)
  | pruneContact (pubkey : Pubkey)

@[reducible] def PruneOp.Res : PruneOp → Type
  | radioAvailable => Bool
  | contactCapacity => Nat × Nat
  | time => ℚ
  | pruneAfterDays => Int
  | selectIdle _ => List User
  | pruneContact _ => Unit

def PruneOp.run : (op : PruneOp) → Site → Option op.Res × Site
  | radioAvailable, s => (some s.device.radioAvailable, s)
  | contactCapacity, s => (some (s.device.contacts.card, s.device.capacity), s)
  | time, s => (some s.clock, s)
  | pruneAfterDays, s => (some s.pruneAfterDays, s)
  | selectIdle cutoff, s => (some ((idleUsers s.users cutoff).take 10), s)
  | pruneContact pubkey, s =>
    (some (), { s with device := { s.device with contacts := s.device.contacts.erase pubkey } })

abbrev Job := Coroutine PruneOp PruneOp.Res

abbrev request (op : PruneOp) : Job op.Res := perform op

def contactPruneJob : Job Unit := do
  if !(← request .radioAvailable) then pure ()
  else
    let (used, cap) ← request .contactCapacity
    if cap = 0 then pure ()
    else if 4 * cap < 5 * used then
      let cutoff := ⌊← request .time⌋ - (← request .pruneAfterDays) * 86400
      let rows ← request (.selectIdle cutoff)
      forEach (fun r => request (.pruneContact r.pubkey)) rows
    else pure ()

/-- The job has run. -/
def Site.pruned (s : Site) : Site := (contactPruneJob.run PruneOp.run s).2

/-- The job has run `n` times, at the given times, and nothing else has happened. -/
def Site.after (s : Site) (times : ℕ → ℚ) : ℕ → Site
  | 0 => s
  | n + 1 => { s.after times n with clock := times n }.pruned

/-- The contacts of users who have been idle for `prune_after_days` and are not banned. -/
def Site.idleContacts (s : Site) : Finset Pubkey :=
  s.device.contacts.filter fun pk =>
    (s.users.getUser pk).any fun u => u.lastSeen < s.cutoff && !u.banned

/-- The ten users that have been idle for longest, contacts or not. -/
def Site.longestIdle (s : Site) : Finset Pubkey :=
  (((idleUsers s.users s.cutoff).take 10).map User.pubkey).toFinset

/-! ## Sorted by a key -/

section Sorted

variable {α : Type} (key : α → Int)

theorem orderedInsert_append_of_le {a : α} (l : List α) {m : List α} (h : ∀ b ∈ m, key a ≤ key b) :
    (l ++ m).orderedInsert (fun a b => key a ≤ key b) a =
      l.orderedInsert (fun a b => key a ≤ key b) a ++ m := by
  induction l with
  | nil =>
    cases m with
    | nil => rfl
    | cons b m => exact List.orderedInsert_cons_of_le _ m (h b List.mem_cons_self)
  | cons b l ih =>
    rw [List.cons_append, List.orderedInsert_cons, List.orderedInsert_cons, ih]
    split <;> rfl

theorem orderedInsert_append_of_lt {a : α} {l : List α} (m : List α) (h : ∀ b ∈ l, key b < key a) :
    (l ++ m).orderedInsert (fun a b => key a ≤ key b) a =
      l ++ m.orderedInsert (fun a b => key a ≤ key b) a := by
  induction l with
  | nil => rfl
  | cons b l ih =>
    have hb : ¬ key a ≤ key b := not_le.mpr (h b List.mem_cons_self)
    rw [List.cons_append, List.orderedInsert_cons, if_neg hb,
      ih fun c hc => h c (List.mem_cons_of_mem b hc), List.cons_append]

/-- With a larger bound on the key, more elements come after those there were. -/
theorem insertionSort_filter_prefix (q : α → Bool) {c c' : Int} (hc : c ≤ c') (l : List α) :
    (l.filter fun a => key a < c && q a).insertionSort (fun a b => key a ≤ key b) <+:
      (l.filter fun a => key a < c' && q a).insertionSort fun a b => key a ≤ key b := by
  suffices ∃ later, (∀ b ∈ later, c ≤ key b) ∧
      (l.filter fun a => key a < c' && q a).insertionSort (fun a b => key a ≤ key b) =
        (l.filter fun a => key a < c && q a).insertionSort (fun a b => key a ≤ key b) ++ later from
    this.imp fun later h => h.2.symm
  induction l with
  | nil => exact ⟨[], by simp, rfl⟩
  | cons a l ih =>
    obtain ⟨later, hlater, heq⟩ := ih
    cases hq : q a with
    | false => exact ⟨later, hlater, by simpa [hq] using heq⟩
    | true =>
      have hin {d : Int} (ha : key a < d) : (a :: l).filter (fun a => key a < d && q a) =
          a :: l.filter fun a => key a < d && q a :=
        List.filter_cons_of_pos (by simp [ha, hq])
      have hout {d : Int} (ha : ¬ key a < d) : (a :: l).filter (fun a => key a < d && q a) =
          l.filter fun a => key a < d && q a :=
        List.filter_cons_of_neg (by simp [ha])
      by_cases hold : key a < c
      · refine ⟨later, hlater, ?_⟩
        rw [hin hold, hin (hold.trans_le hc), List.insertionSort_cons, List.insertionSort_cons, heq]
        exact orderedInsert_append_of_le key _ fun b hb => hold.le.trans (hlater b hb)
      · by_cases hnew : key a < c'
        · refine ⟨later.orderedInsert (fun a b => key a ≤ key b) a, fun b hb => ?_, ?_⟩
          · rcases (List.mem_orderedInsert _).mp hb with rfl | hb
            · exact not_lt.mp hold
            · exact hlater b hb
          · rw [hout hold, hin hnew, List.insertionSort_cons, heq]
            refine orderedInsert_append_of_lt key _ fun b hb => ?_
            have hb := (List.mem_filter.mp ((List.mem_insertionSort _).mp hb)).2
            rw [Bool.and_eq_true, decide_eq_true_eq] at hb
            exact hb.1.trans_le (not_lt.mp hold)
        · exact ⟨later, hlater, by rw [hout hold, hout hnew, heq]⟩

end Sorted

/-! ## One run -/

section Run

variable (s : Site)

def Site.withContacts (contacts : Finset Pubkey) : Site :=
  { s with device := { s.device with contacts } }

theorem run_forEach (rows : List User) :
    (forEach (fun r => request (.pruneContact r.pubkey)) rows).run PruneOp.run s =
      (some (), s.withContacts (s.device.contacts \ (rows.map User.pubkey).toFinset)) := by
  induction rows generalizing s with
  | nil =>
    rw [List.map_nil, List.toFinset_nil, Finset.sdiff_empty]
    rfl
  | cons r rows ih =>
    rw [forEach, run_bind, run_perform]
    refine (ih _).trans ?_
    rw [List.map_cons, List.toFinset_cons]
    simp only [PruneOp.run, Site.withContacts, Finset.erase_sdiff_comm, Finset.sdiff_insert]

theorem pruned_of_tight (hradio : s.device.radioAvailable = true) (hcap : 0 < s.device.capacity)
    (htight : s.device.tight = true) :
    s.pruned = s.withContacts (s.device.contacts \ s.longestIdle) := by
  have hused : 4 * s.device.capacity < 5 * s.device.contacts.card := of_decide_eq_true htight
  have hcutoff : ⌊s.clock⌋ - s.pruneAfterDays * 86400 = s.cutoff := rfl
  simp only [Site.pruned, contactPruneJob, run_bind, run_perform, PruneOp.run, hradio, Bool.not_true,
    Bool.false_eq_true, if_false, Nat.pos_iff_ne_zero.mp hcap, hused, if_true, Option.elim_some,
    hcutoff, run_forEach]
  rfl

theorem pruned_of_not_tight (htight : s.device.tight = false) : s.pruned = s := by
  have hused : ¬ 4 * s.device.capacity < 5 * s.device.contacts.card := of_decide_eq_false htight
  cases hradio : s.device.radioAvailable with
  | false =>
    simp only [Site.pruned, contactPruneJob, run_bind, run_perform, PruneOp.run, hradio,
      Bool.not_false, if_true, Option.elim_some, run_pure]
  | true =>
    simp only [Site.pruned, contactPruneJob, run_bind, run_perform, PruneOp.run, hradio,
      Bool.not_true, Bool.false_eq_true, if_false, hused, Option.elim_some]
    split <;> rfl

end Run

/-! ## Many runs -/

section Runs

variable {s : Site} {times : ℕ → ℚ}

theorem idleUsers_prefix (t : UserTable) {c c' : Int} (h : c ≤ c') : idleUsers t c <+: idleUsers t c' :=
  insertionSort_filter_prefix User.lastSeen (fun u => !u.banned) h t.rows

/-- Ten idle users stay the ones that have been idle for longest. -/
theorem longestIdle_later {clock : ℚ} (hclock : s.clock ≤ clock)
    (hten : 10 ≤ (idleUsers s.users s.cutoff).length) :
    ({ s with clock } : Site).longestIdle = s.longestIdle := by
  have hcutoff : s.cutoff ≤ ({ s with clock } : Site).cutoff := by
    have := Int.floor_mono hclock
    simp only [Site.cutoff]
    omega
  obtain ⟨later, heq⟩ := idleUsers_prefix s.users hcutoff
  rw [Site.longestIdle, Site.longestIdle, ← heq, List.take_append_of_le_length hten]

theorem after_of_ten (hmono : Monotone times) (h0 : times 0 = s.clock)
    (hradio : s.device.radioAvailable = true) (hcap : 0 < s.device.capacity)
    (htight : s.device.tight = true) (hten : 10 ≤ (idleUsers s.users s.cutoff).length) (n : ℕ) :
    s.after times (n + 1) =
      { s with clock := times n }.withContacts (s.device.contacts \ s.longestIdle) := by
  induction n with
  | zero =>
    have hsame : ({ s with clock := times 0 } : Site) = s := by rw [h0]
    rw [Site.after, Site.after, hsame, pruned_of_tight s hradio hcap htight]
  | succ n ih =>
    have hidle := longestIdle_later (h0 ▸ hmono (Nat.zero_le (n + 1))) hten
    let next : Site := { s with clock := times (n + 1) }.withContacts
      (s.device.contacts \ s.longestIdle)
    have hnext : s.after times (n + 2) = next.pruned := by
      rw [Site.after, ih]
      rfl
    have hnone : next.device.contacts \ next.longestIdle = s.device.contacts \ s.longestIdle := by
      have hsame : next.longestIdle = s.longestIdle := hidle
      rw [hsame]
      exact Finset.sdiff_idem ..
    rw [hnext]
    cases hagain : next.device.tight with
    | false => rw [pruned_of_not_tight next hagain]
    | true =>
      rw [pruned_of_tight next hradio hcap hagain, hnone]
      rfl

theorem mem_idleUsers {t : UserTable} {cutoff : Int} {u : User} :
    u ∈ idleUsers t cutoff ↔ u ∈ t.rows ∧ (u.lastSeen < cutoff && !u.banned) = true := by
  rw [idleUsers, List.mem_insertionSort, List.mem_filter]

theorem mem_idleContacts {pk : Pubkey} : pk ∈ s.idleContacts ↔
    pk ∈ s.device.contacts ∧ ∃ u ∈ idleUsers s.users s.cutoff, u.pubkey = pk := by
  rw [Site.idleContacts, Finset.mem_filter, Option.any_eq_true]
  refine and_congr_right fun _ => ⟨fun ⟨u, hu, hidle⟩ => ?_, fun ⟨u, hu, hpk⟩ => ?_⟩
  · have hpk : u.pubkey = pk := by simpa using List.find?_some hu
    exact ⟨u, mem_idleUsers.mpr ⟨List.mem_of_find?_eq_some hu, hidle⟩, hpk⟩
  · obtain ⟨hrow, hidle⟩ := mem_idleUsers.mp hu
    exact ⟨u, hpk ▸ UserTable.getUser_of_mem hrow, hidle⟩

theorem mem_longestIdle {pk : Pubkey} : pk ∈ s.longestIdle ↔
    ∃ u ∈ (idleUsers s.users s.cutoff).take 10, u.pubkey = pk := by
  rw [Site.longestIdle, List.mem_toFinset, List.mem_map]

/-- A contact among the ten is an idle one. -/
theorem idleContacts_inter : s.idleContacts ∩ s.longestIdle = s.device.contacts ∩ s.longestIdle := by
  ext pk
  rw [Finset.mem_inter, Finset.mem_inter, mem_idleContacts, mem_longestIdle]
  refine ⟨fun ⟨⟨hpk, _⟩, hten⟩ => ⟨hpk, hten⟩, fun ⟨hpk, u, hu, heq⟩ => ?_⟩
  exact ⟨⟨hpk, u, List.mem_of_mem_take hu, heq⟩, u, hu, heq⟩

/-- With fewer than ten idle users, the ten are all of them. -/
theorem idleContacts_subset (hten : ¬ 10 ≤ (idleUsers s.users s.cutoff).length) :
    s.idleContacts ⊆ s.longestIdle := by
  intro pk hpk
  rw [mem_longestIdle, List.take_of_length_le (by omega)]
  exact (mem_idleContacts.mp hpk).2

theorem disjoint_sdiff_iff : Disjoint s.idleContacts (s.device.contacts \ s.longestIdle) ↔
    s.idleContacts ⊆ s.longestIdle := by
  rw [Finset.disjoint_left]
  refine ⟨fun h pk hpk => ?_, fun h pk hpk hout => (Finset.mem_sdiff.mp hout).2 (h hpk)⟩
  by_contra hnot
  exact h hpk (Finset.mem_sdiff.mpr ⟨(mem_idleContacts.mp hpk).1, hnot⟩)

/-- **When the runs get anywhere.**  The radio is up, the list is over 80% and holds idle
users.  The first run removes a contact and some later one leaves the list within 80% or
without these users, exactly if some of them are among the ten users of the whole table that
have been idle for longest, and the list without those ten is within 80% or has no idle
user left. -/
theorem prune_progresses_iff (hmono : Monotone times) (h0 : times 0 = s.clock)
    (hradio : s.device.radioAvailable = true) (hcap : 0 < s.device.capacity)
    (htight : s.device.tight = true) (hidle : s.idleContacts.Nonempty) :
    (s.pruned.device.contacts ⊂ s.device.contacts ∧
      ∃ n, (s.after times n).device.tight = false ∨
        Disjoint s.idleContacts (s.after times n).device.contacts) ↔
    ((s.idleContacts ∩ s.longestIdle).Nonempty ∧
      ((s.withContacts (s.device.contacts \ s.longestIdle)).device.tight = false ∨
        s.idleContacts ⊆ s.longestIdle)) := by
  have hfirst : s.pruned.device.contacts = s.device.contacts \ s.longestIdle := by
    rw [pruned_of_tight s hradio hcap htight]
    rfl
  have hremoves : s.pruned.device.contacts ⊂ s.device.contacts ↔
      (s.idleContacts ∩ s.longestIdle).Nonempty := by
    rw [hfirst, idleContacts_inter, Finset.ssubset_iff_subset_ne, and_iff_right Finset.sdiff_subset,
      ne_eq, Finset.sdiff_eq_self_iff_disjoint, Finset.not_disjoint_iff_nonempty_inter]
  rw [hremoves]
  refine and_congr_right fun _ => ⟨fun ⟨n, hn⟩ => ?_, fun h => ⟨1, ?_⟩⟩
  · by_cases hten : 10 ≤ (idleUsers s.users s.cutoff).length
    · cases n with
      | zero =>
        rw [Site.after, htight] at hn
        obtain ⟨pk, hpk⟩ := hidle
        have hdisj := hn.resolve_left nofun
        exact absurd (mem_idleContacts.mp hpk).1 (Finset.disjoint_left.mp hdisj hpk)
      | succ n =>
        rw [after_of_ten hmono h0 hradio hcap htight hten n] at hn
        exact hn.imp (fun h => h) disjoint_sdiff_iff.mp
    · exact .inr (idleContacts_subset hten)
  · have hone : s.after times 1 = s.withContacts (s.device.contacts \ s.longestIdle) := by
      have hsame : ({ s with clock := times 0 } : Site) = s := by rw [h0]
      rw [Site.after, Site.after, hsame, pruned_of_tight s hradio hcap htight]
    rw [hone]
    exact h.imp (fun h => h) disjoint_sdiff_iff.mpr

end Runs

/-! ## A sample -/

/-- A user who was last seen `i` seconds into the epoch. -/
def idleUser (i : Nat) : User :=
  { pubkey := decimal i, firstSeen := 0, lastSeen := i }

/-- The first users of the mesh, a hundred days later; the contact list has room for one. -/
def crowded (users contact : Nat) (h : UniqueRows ((List.range users).map idleUser)) : Site where
  users := ⟨(List.range users).map idleUser, h⟩
  clock := 100 * 86400
  device := { contacts := {decimal contact}, capacity := 1 }

def tenUsers : Site := crowded 10 9 (by decide +kernel)

def elevenUsers : Site := crowded 11 10 (by decide +kernel)

/-- The job runs once a day. -/
def daily (n : ℕ) : ℚ := 86400 * (100 + n)

theorem daily_mono : Monotone daily := by
  intro m n h
  have : (m : ℚ) ≤ n := Nat.cast_le.mpr h
  unfold daily
  linarith

theorem prune_progresses_ten : tenUsers.pruned.device.contacts ⊂ tenUsers.device.contacts ∧
    ∃ n, (tenUsers.after daily n).device.tight = false ∨
      Disjoint tenUsers.idleContacts (tenUsers.after daily n).device.contacts :=
  (prune_progresses_iff daily_mono (by decide +kernel) rfl (by decide) (by decide +kernel)
    (by decide +kernel)).mpr ⟨by decide +kernel, .inl (by decide +kernel)⟩

/-- The ten that have been idle for longest are no contacts, and the one that is stays. -/
theorem prune_stalls : elevenUsers.device.radioAvailable = true ∧
    0 < elevenUsers.device.capacity ∧ elevenUsers.device.tight = true ∧
    elevenUsers.idleContacts.Nonempty ∧
    elevenUsers.pruned.device.contacts = elevenUsers.device.contacts :=
  ⟨rfl, by decide, by decide +kernel, by decide +kernel, by decide +kernel⟩

end ContactPrune

end Bbs
