import Mathlib.Data.List.Perm.Basic
import MeshcoreBbs.Lib.Machine

/-!
# An event loop

Tasks run one at a time, each until it waits or ends.  A new task goes to the back of the ready
queue, and so does one whose wait is over; what happens outside the tasks comes between their turns.

A task is in one place (`Kept.places`), and one that ends without a wait ends before every task
created after it (`Kept.ended`).  What a task has become of, and what it ends with, is followed back
to its creation by `Follows`.
-/

namespace EventLoop

/-- What a task does in one turn. -/
inductive Turn (σ τ ε : Type)
  | waits (s : σ) (rest : τ)
  | ends (s : σ) (out : ε)

def Turn.state {σ τ ε : Type} : Turn σ τ ε → σ
  | .waits s _ => s
  | .ends s _ => s

/-- Of task number `id`, which is `late` once it has waited. -/
structure Entry (τ : Type) where
  id : Nat
  late : Bool
  val : τ

structure Loop (σ τ ε : Type) where
  state : σ
  ready : List (Entry τ) := []
  waiting : List (Entry τ) := []
  ended : List (Entry ε) := []
  created : List τ := []

inductive Act (τ χ : Type)
  | create (t : τ)
  | run
  | wake (i : Nat)
  | outside (c : χ)

variable {σ τ ε χ : Type} (turn : τ → σ → Turn σ τ ε) (ext : χ → σ → Option σ)

/-- From `s` to `s'` in a turn, or by what comes between the turns. -/
def Moves (s s' : σ) : Prop := (∃ t, (turn t s).state = s') ∨ ∃ c, ext c s = some s'

namespace Loop

variable (l : Loop σ τ ε)

def create (t : τ) : Loop σ τ ε :=
  { l with ready := l.ready ++ [⟨l.created.length, false, t⟩], created := l.created ++ [t] }

/-- The turn of `e`, with `ready` behind it. -/
def take (e : Entry τ) (ready : List (Entry τ)) : Loop σ τ ε :=
  match turn e.val l.state with
  | .waits s rest => { l with state := s, ready := ready, waiting := l.waiting ++ [⟨e.id, true, rest⟩] }
  | .ends s out => { l with state := s, ready := ready, ended := l.ended ++ [⟨e.id, e.late, out⟩] }

def step : Act τ χ → Option (Loop σ τ ε)
  | .create t => some (l.create t)
  | .run =>
    match l.ready with
    | [] => none
    | e :: ready => some (l.take turn e ready)
  | .wake i =>
    l.waiting[i]?.map fun e => { l with ready := l.ready ++ [e], waiting := l.waiting.eraseIdx i }
  | .outside c => (ext c l.state).map fun s => { l with state := s }

inductive Step : Act τ χ → Loop σ τ ε → Prop
  | create {t} : Step (.create t) (l.create t)
  | waits {e ready s rest} (hready : l.ready = e :: ready) (hturn : turn e.val l.state = .waits s rest) :
      Step .run { l with state := s, ready := ready, waiting := l.waiting ++ [⟨e.id, true, rest⟩] }
  | ends {e ready s out} (hready : l.ready = e :: ready) (hturn : turn e.val l.state = .ends s out) :
      Step .run { l with state := s, ready := ready, ended := l.ended ++ [⟨e.id, e.late, out⟩] }
  | wake {i e} (hi : l.waiting[i]? = some e) :
      Step (.wake i) { l with ready := l.ready ++ [e], waiting := l.waiting.eraseIdx i }
  | outside {c s} (hext : ext c l.state = some s) : Step (.outside c) { l with state := s }

variable {turn ext l} {l' : Loop σ τ ε} {a : Act τ χ}

theorem step_cases (h : l.step turn ext a = some l') : l.Step turn ext a l' := by
  cases a with
  | create t =>
    cases h
    exact .create
  | run =>
    simp only [step] at h
    split at h
    · cases h
    · next e ready hready =>
      cases h
      unfold take
      split
      · next hturn => exact .waits hready hturn
      · next hturn => exact .ends hready hturn
  | wake i =>
    simp only [step, Option.map_eq_some_iff] at h
    obtain ⟨e, hi, rfl⟩ := h
    exact .wake hi
  | outside c =>
    simp only [step, Option.map_eq_some_iff] at h
    obtain ⟨s, hext, rfl⟩ := h
    exact .outside hext

theorem Step.state (hs : l.Step turn ext a l') :
    l'.state = l.state ∨ Moves turn ext l.state l'.state := by
  cases hs with
  | create => exact .inl rfl
  | @waits e _ _ _ _ hturn => exact .inr (.inl ⟨e.val, by rw [hturn]; rfl⟩)
  | @ends e _ _ _ _ hturn => exact .inr (.inl ⟨e.val, by rw [hturn]; rfl⟩)
  | wake => exact .inl rfl
  | @outside c _ hext => exact .inr (.inr ⟨c, hext⟩)

/-! ## Order -/

/-- The numbers of all tasks, by the places where they are. -/
def ids (l : Loop σ τ ε) : List Nat :=
  l.ready.map Entry.id ++ l.waiting.map Entry.id ++ l.ended.map Entry.id

/-- What `l` keeps of the tasks' order. -/
structure Kept (l : Loop σ τ ε) : Prop where
  places : l.ids.Perm (List.range l.created.length)
  ready : l.ready.Pairwise fun a b => b.late = false → a.id < b.id
  /-- A task that had no turn yet was created after all that had one. -/
  waiting : ∀ a ∈ l.waiting, ∀ b ∈ l.ready, b.late = false → a.id < b.id
  done : ∀ a ∈ l.ended, ∀ b ∈ l.ready, b.late = false → a.id < b.id
  late : ∀ a ∈ l.waiting, a.late = true
  ended : l.ended.Pairwise fun a b => b.late = false → a.id < b.id

theorem Kept.lt (h : l.Kept) {i : Nat} (hi : i ∈ l.ids) : i < l.created.length :=
  List.mem_range.mp (h.places.mem_iff.mp hi)

theorem Kept.step (h : l.Kept) (hs : l.Step turn ext a l') : l'.Kept := by
  cases hs with
  | @create t =>
    have hnew : ∀ i ∈ l.ids, i < l.created.length := fun i hi => h.lt hi
    simp only [ids, List.mem_append, List.mem_map] at hnew
    refine ⟨?_, ?_, fun a ha b hb => ?_, fun a ha b hb => ?_, h.late, h.ended⟩
    · simp only [ids, Loop.create, List.map_append, List.map_cons, List.map_nil, List.length_append,
        List.length_singleton, List.range_succ]
      refine List.Perm.trans ?_ (h.places.append_right _)
      simp only [ids, List.append_assoc]
      refine List.Perm.append_left _ ?_
      exact List.perm_append_comm.trans (by simp)
    · refine List.pairwise_append.mpr ⟨h.ready, List.pairwise_singleton _ _, fun a ha b hb _ => ?_⟩
      rw [List.mem_singleton.mp hb]
      exact hnew _ (.inl (.inl ⟨a, ha, rfl⟩))
    · rcases List.mem_append.mp hb with hb | hb
      · exact h.waiting a ha b hb
      · rw [List.mem_singleton.mp hb]
        exact fun _ => hnew _ (.inl (.inr ⟨a, ha, rfl⟩))
    · rcases List.mem_append.mp hb with hb | hb
      · exact h.done a ha b hb
      · rw [List.mem_singleton.mp hb]
        exact fun _ => hnew _ (.inr ⟨a, ha, rfl⟩)
  | @waits e ready s rest hready hturn =>
    have hpair := h.ready
    rw [hready, List.pairwise_cons] at hpair
    have hsub : ∀ b ∈ ready, b ∈ l.ready := fun b hb => by simp [hready, hb]
    refine ⟨?_, hpair.2, fun a ha b hb => ?_, fun a ha b hb => h.done a ha b (hsub b hb),
      fun a ha => ?_, h.ended⟩
    · refine List.Perm.trans ?_ h.places
      simp only [ids, hready, List.map_append, List.map_cons, List.map_nil, List.append_assoc,
        List.cons_append, List.nil_append]
      refine List.Perm.trans ?_ List.perm_middle
      refine List.Perm.append_left _ ?_
      exact List.perm_middle
    · rcases List.mem_append.mp ha with ha | ha
      · exact h.waiting a ha b (hsub b hb)
      · rw [List.mem_singleton.mp ha]
        exact hpair.1 b hb
    · rcases List.mem_append.mp ha with ha | ha
      · exact h.late a ha
      · rw [List.mem_singleton.mp ha]
  | @ends e ready s out hready hturn =>
    have hpair := h.ready
    rw [hready, List.pairwise_cons] at hpair
    have hsub : ∀ b ∈ ready, b ∈ l.ready := fun b hb => by simp [hready, hb]
    refine ⟨?_, hpair.2, fun a ha b hb => h.waiting a ha b (hsub b hb), fun a ha b hb => ?_, h.late, ?_⟩
    · refine List.Perm.trans ?_ h.places
      simp only [ids, hready, List.map_append, List.map_cons, List.map_nil, List.cons_append]
      exact List.perm_append_singleton _ _ |>.symm.trans (by simp) |>.symm
    · rcases List.mem_append.mp ha with ha | ha
      · exact h.done a ha b (hsub b hb)
      · rw [List.mem_singleton.mp ha]
        exact hpair.1 b hb
    · refine List.pairwise_append.mpr ⟨h.ended, List.pairwise_singleton _ _, fun a ha b hb hlate => ?_⟩
      rw [List.mem_singleton.mp hb] at hlate ⊢
      exact h.done a ha e (by simp [hready]) hlate
  | @wake i e hi =>
    have he : e ∈ l.waiting := List.mem_of_getElem? hi
    have hlate := h.late e he
    have hsub : ∀ a ∈ l.waiting.eraseIdx i, a ∈ l.waiting := fun a ha => List.mem_of_mem_eraseIdx ha
    refine ⟨?_, ?_, fun a ha b hb hb' => ?_, fun a ha b hb hb' => ?_, fun a ha => h.late a (hsub a ha),
      h.ended⟩
    · obtain ⟨hlt, rfl⟩ := List.getElem?_eq_some_iff.mp hi
      have hperm := (List.getElem_cons_eraseIdx_perm hlt).map Entry.id
      refine List.Perm.trans ?_ h.places
      simp only [ids, List.map_append, List.map_cons, List.map_nil, List.append_assoc,
        List.cons_append, List.nil_append] at hperm ⊢
      exact List.Perm.append_left _ (hperm.append_right _)
    · refine List.pairwise_append.mpr ⟨h.ready, List.pairwise_singleton _ _, fun a _ b hb hb' => ?_⟩
      rw [List.mem_singleton.mp hb, hlate] at hb'
      cases hb'
    · rcases List.mem_append.mp hb with hb | hb
      · exact h.waiting a (hsub a ha) b hb hb'
      · rw [List.mem_singleton.mp hb, hlate] at hb'
        cases hb'
    · rcases List.mem_append.mp hb with hb | hb
      · exact h.done a ha b hb hb'
      · rw [List.mem_singleton.mp hb, hlate] at hb'
        cases hb'
  | outside => exact ⟨h.places, h.ready, h.waiting, h.done, h.late, h.ended⟩

theorem kept_start (s : σ) : ({ state := s } : Loop σ τ ε).Kept where
  places := by simp [ids]
  ready := .nil
  waiting := by simp
  done := by simp
  late := by simp
  ended := .nil

/-! ## Origin -/

section Origin

variable (P : σ → Prop) (I : σ → Bool → τ → τ → Prop) (O : σ → Bool → τ → ε → Prop)

/-- `P` is an invariant of the state, `I s late t u` says that the task created as `t` may have become
`u`, and `O s late t out` that it may have ended with `out`. -/
structure Rules (turn : τ → σ → Turn σ τ ε) (ext : χ → σ → Option σ) : Prop where
  invariant : ∀ {s s'}, P s → Moves turn ext s s' → P s'
  create : ∀ {s}, P s → ∀ t, I s false t t
  waits : ∀ {s late t u s' rest}, P s → I s late t u → turn u s = .waits s' rest → I s' true t rest
  ends : ∀ {s late t u s' out}, P s → I s late t u → turn u s = .ends s' out → O s' late t out
  /-- Neither is lost by what comes after. -/
  stable : ∀ {s s' : σ}, Moves turn ext s s' → ∀ late t,
    (∀ u, I s late t u → I s' late t u) ∧ ∀ out, O s late t out → O s' late t out

/-- Every task is followed back to its creation. -/
structure Follows (l : Loop σ τ ε) : Prop where
  state : P l.state
  ready : ∀ e ∈ l.ready, ∃ t, l.created[e.id]? = some t ∧ I l.state e.late t e.val
  waiting : ∀ e ∈ l.waiting, ∃ t, l.created[e.id]? = some t ∧ I l.state e.late t e.val
  ended : ∀ e ∈ l.ended, ∃ t, l.created[e.id]? = some t ∧ O l.state e.late t e.val

variable {P I O}

theorem Follows.step (hr : Rules P I O turn ext) (h : l.Follows P I O) (hs : l.Step turn ext a l') :
    l'.Follows P I O := by
  have hcreated : ∀ {i : Nat} {t u : τ}, l.created[i]? = some t → (l.created ++ [u])[i]? = some t := by
    intro i t u hi
    rwa [List.getElem?_append_left (List.getElem?_eq_some_iff.mp hi).1]
  -- the state has changed, and a part of the tasks stays
  have hkeep : ∀ {s' : σ}, Moves turn ext l.state s' →
      (∀ e ∈ l.ready, ∃ t, l.created[e.id]? = some t ∧ I s' e.late t e.val) ∧
      (∀ e ∈ l.waiting, ∃ t, l.created[e.id]? = some t ∧ I s' e.late t e.val) ∧
      ∀ e ∈ l.ended, ∃ t, l.created[e.id]? = some t ∧ O s' e.late t e.val := by
    intro s' hmove
    refine ⟨fun e he => ?_, fun e he => ?_, fun e he => ?_⟩
    · obtain ⟨t, ht, hi⟩ := h.ready e he
      exact ⟨t, ht, (hr.stable hmove e.late t).1 _ hi⟩
    · obtain ⟨t, ht, hi⟩ := h.waiting e he
      exact ⟨t, ht, (hr.stable hmove e.late t).1 _ hi⟩
    · obtain ⟨t, ht, ho⟩ := h.ended e he
      exact ⟨t, ht, (hr.stable hmove e.late t).2 _ ho⟩
  cases hs with
  | @create t =>
    refine ⟨h.state, fun e he => ?_, fun e he => ?_, fun e he => ?_⟩
    · rcases List.mem_append.mp he with he | he
      · obtain ⟨u, hu, hi⟩ := h.ready e he
        exact ⟨u, hcreated hu, hi⟩
      · rw [List.mem_singleton.mp he]
        exact ⟨t, by simp [Loop.create], hr.create h.state t⟩
    · obtain ⟨u, hu, hi⟩ := h.waiting e he
      exact ⟨u, hcreated hu, hi⟩
    · obtain ⟨u, hu, ho⟩ := h.ended e he
      exact ⟨u, hcreated hu, ho⟩
  | @waits e ready s rest hready hturn =>
    have hmove : Moves turn ext l.state s := .inl ⟨e.val, by rw [hturn]; rfl⟩
    obtain ⟨hready', hwaiting, hended⟩ := hkeep hmove
    refine ⟨hr.invariant h.state hmove, fun b hb => hready' b (by simp [hready, hb]), fun b hb => ?_,
      hended⟩
    rcases List.mem_append.mp hb with hb | hb
    · exact hwaiting b hb
    · rw [List.mem_singleton.mp hb]
      obtain ⟨t, ht, hi⟩ := h.ready e (by simp [hready])
      exact ⟨t, ht, hr.waits h.state hi hturn⟩
  | @ends e ready s out hready hturn =>
    have hmove : Moves turn ext l.state s := .inl ⟨e.val, by rw [hturn]; rfl⟩
    obtain ⟨hready', hwaiting, hended⟩ := hkeep hmove
    refine ⟨hr.invariant h.state hmove, fun b hb => hready' b (by simp [hready, hb]), hwaiting,
      fun b hb => ?_⟩
    rcases List.mem_append.mp hb with hb | hb
    · exact hended b hb
    · rw [List.mem_singleton.mp hb]
      obtain ⟨t, ht, hi⟩ := h.ready e (by simp [hready])
      exact ⟨t, ht, hr.ends h.state hi hturn⟩
  | @wake i e hi =>
    refine ⟨h.state, fun b hb => ?_, fun b hb => h.waiting b (List.mem_of_mem_eraseIdx hb), h.ended⟩
    rcases List.mem_append.mp hb with hb | hb
    · exact h.ready b hb
    · rw [List.mem_singleton.mp hb]
      exact h.waiting e (List.mem_of_getElem? hi)
  | @outside c s hext =>
    obtain ⟨hready, hwaiting, hended⟩ := hkeep (.inr ⟨c, hext⟩)
    exact ⟨hr.invariant h.state (.inr ⟨c, hext⟩), hready, hwaiting, hended⟩

theorem follows_start {s : σ} (h : P s) : ({ state := s } : Loop σ τ ε).Follows P I O where
  state := h
  ready := by simp
  waiting := by simp
  ended := by simp

end Origin

end Loop

end EventLoop
