import MeshcoreBbs.Lib.Coroutine

/-!
# Programs made of parts, and turns from await to await

A program is made of parts if its operations, whatever they `may` be answered, are `quiet` or come in
whole programs among `part`, one after the other (`Parts`).  `andThen` puts such programs together:
`bind` and `orElse` are cases of it.

In a `Pool` a task waits at every operation.  When only some are `awaited`, a task that takes its
turn goes on through the others (`segment`), and that is a run of the pool (`run_turn`).
-/

namespace Coroutine

variable {Op : Type} {Res : Op → Type} {α β γ σ : Type}

/-- `m`, then what comes after it, however it ended. -/
def andThen (m : Coroutine Op Res α) (f : Option α → Coroutine Op Res β) : Coroutine Op Res β :=
  match m with
  | finish r => f r
  | await op k => await op fun r => (k r).andThen f

theorem andThen_andThen (m : Coroutine Op Res α) (f : Option α → Coroutine Op Res β)
    (g : Option β → Coroutine Op Res γ) :
    (m.andThen f).andThen g = m.andThen fun r => (f r).andThen g := by
  induction m with
  | finish r => rfl
  | await op k ih =>
    show await op _ = await op _
    exact congrArg (await op) (funext ih)

theorem bind_eq_andThen (m : Coroutine Op Res α) (f : α → Coroutine Op Res β) :
    m >>= f = m.andThen fun r => r.elim raise f := by
  show m.bind f = _
  induction m with
  | finish r => cases r <;> rfl
  | await op k ih =>
    show await op _ = await op _
    exact congrArg (await op) (funext ih)

theorem orElse_eq_andThen (m handler : Coroutine Op Res α) :
    m.orElse handler = m.andThen fun r => r.elim handler pure := by
  induction m with
  | finish r => cases r <;> rfl
  | await op k ih =>
    show await op _ = await op _
    exact congrArg (await op) (funext ih)

theorem andThen_finish (m : Coroutine Op Res α) : m.andThen finish = m := by
  induction m with
  | finish r => rfl
  | await op k ih =>
    show await op _ = await op _
    exact congrArg (await op) (funext ih)

/-! ## Parts -/

section Parts

variable (may : (op : Op) → Option (Res op) → Prop) (quiet : Op → Prop)
  (part : Coroutine Op Res Unit → Prop)

inductive Parts : Coroutine Op Res α → Prop
  | finish (r : Option α) : Parts (.finish r)
  | quiet {op k} (hop : quiet op) (hk : ∀ r, may op r → Parts (k r)) :
      Parts (.await op k)
  | part {m p f} (hp : part p) (hm : m = p.andThen f) (hf : ∀ r, Parts (f r)) : Parts m

variable {may quiet part} {m : Coroutine Op Res α}

theorem Parts.andThen (h : m.Parts may quiet part) {f : Option α → Coroutine Op Res β}
    (hf : ∀ r, (f r).Parts may quiet part) : (m.andThen f).Parts may quiet part := by
  induction h with
  | finish r => exact hf r
  | quiet hop _ ih => exact .quiet hop fun r hr => ih r hr
  | part hp hm _ ih =>
    rw [hm, andThen_andThen]
    exact .part hp rfl ih

theorem Parts.bind (h : m.Parts may quiet part) {f : α → Coroutine Op Res β}
    (hf : ∀ a, (f a).Parts may quiet part) : (m >>= f).Parts may quiet part := by
  rw [bind_eq_andThen]
  refine h.andThen fun r => ?_
  cases r with
  | none => exact .finish none
  | some a => exact hf a

theorem Parts.orElse {handler : Coroutine Op Res α} (h : m.Parts may quiet part)
    (hh : handler.Parts may quiet part) : (m.orElse handler).Parts may quiet part := by
  rw [orElse_eq_andThen]
  refine h.andThen fun r => ?_
  cases r with
  | none => exact hh
  | some a => exact .finish (some a)

theorem parts_part {p : Coroutine Op Res Unit} (hp : part p) : p.Parts may quiet part :=
  .part hp (andThen_finish p).symm fun r => .finish r

theorem parts_forEach {f : β → Coroutine Op Res Unit} {as : List β}
    (h : ∀ a ∈ as, (f a).Parts may quiet part) : (forEach f as).Parts may quiet part := by
  induction as with
  | nil => exact .finish _
  | cons a as ih =>
    refine (h a List.mem_cons_self).bind fun _ => ?_
    exact ih fun b hb => h b (List.mem_cons_of_mem a hb)

/-- A program without parts. -/
theorem Sat.parts {mayRaise : Op → Prop} {Q : Option α → Prop} (h : m.Sat mayRaise quiet Q)
    (hmay : ∀ op, may op none → mayRaise op) : m.Parts may quiet part := by
  induction m with
  | finish r => exact .finish r
  | await op k ih =>
    obtain ⟨hop, hsome, hnone⟩ := h
    refine .quiet hop fun r hr => ih r ?_
    cases r with
    | none => exact hnone (hmay op hr)
    | some a => exact hsome a

end Parts

/-! ## Segments -/

section Segment

variable (handle : (op : Op) → σ → Option (Res op) × σ) (awaited : Op → Bool)

/-- The program goes on until it has performed an operation that is awaited. -/
def segment : Coroutine Op Res α → σ → Coroutine Op Res α × σ
  | finish r, s => (finish r, s)
  | await op k, s =>
    if awaited op then (k (handle op s).1, (handle op s).2)
    else segment (k (handle op s).1) (handle op s).2

variable {handle awaited} {P Q : Coroutine Op Res α → σ → Prop} {m : Coroutine Op Res α} {s : σ}

/-- What the operations of a segment keep, `P` within it and `Q` at its end. -/
theorem segment_keeps (hend : ∀ r s, P (finish r) s → Q (finish r) s)
    (hgo : ∀ op k s, awaited op = false → P (await op k) s → P (k (handle op s).1) (handle op s).2)
    (hlast : ∀ op k s, awaited op = true → P (await op k) s → Q (k (handle op s).1) (handle op s).2)
    (h : P m s) : Q (m.segment handle awaited s).1 (m.segment handle awaited s).2 := by
  induction m generalizing s with
  | finish r => exact hend r s h
  | await op k ih =>
    rw [segment]
    split
    · next hop => exact hlast op k s hop h
    · next hop => exact ih _ (hgo op k s (by simpa using hop) h)

end Segment

end Coroutine

namespace Pool

variable {Op : Type} {Res : Op → Type} {σ L ε : Type} (handle : (op : Op) → σ → Option (Res op) × σ)
  (prog : L → Coroutine Op Res Unit) (env : σ → ε → Option σ) (awaited : Op → Bool)

/-- The task with the index `i` takes its turn. -/
def turn (p : Pool Op Res σ L) (i : Nat) : Option (Pool Op Res σ L) :=
  match p.tasks[i]? with
  | some (l, .await op k) => some
    { state := ((Coroutine.await op k).segment handle awaited p.state).2
      tasks := p.tasks.set i (l, ((Coroutine.await op k).segment handle awaited p.state).1) }
  | _ => none

variable {handle awaited} {p p' : Pool Op Res σ L} {i : Nat}

theorem turn_eq_some (h : p.turn handle awaited i = some p') : ∃ l op k,
    p.tasks[i]? = some (l, .await op k) ∧ p' =
      { state := ((Coroutine.await op k).segment handle awaited p.state).2
        tasks := p.tasks.set i (l, ((Coroutine.await op k).segment handle awaited p.state).1) } := by
  unfold turn at h
  split at h
  · next l op k hi => exact ⟨l, op, k, hi, (Option.some.inj h).symm⟩
  · cases h

/-- **A turn is a run** of tasks that wait at every operation. -/
theorem run_turn (h : p.turn handle awaited i = some p') :
    Machine.Run (step handle prog env) (fun _ _ => True) p p' := by
  obtain ⟨l, op, k, hi, rfl⟩ := turn_eq_some h
  have hlen := (List.getElem?_eq_some_iff.mp hi).1
  have hresume : ∀ op k s, step handle prog env ⟨s, p.tasks.set i (l, .await op k)⟩ (.resume i) =
      some ⟨(handle op s).2, p.tasks.set i (l, k (handle op s).1)⟩ := by
    intro op k s
    simp [step, hlen]
  have hself : (⟨p.state, p.tasks.set i (l, .await op k)⟩ : Pool Op Res σ L) = p := by
    have hset : p.tasks.set i (l, .await op k) = p.tasks := by
      rw [(List.getElem?_eq_some_iff.mp hi).2.symm, List.set_getElem_self]
    rw [hset]
  let Reached (m : Coroutine Op Res Unit) (s : σ) : Prop :=
    Machine.Run (step handle prog env) (fun _ _ => True) p ⟨s, p.tasks.set i (l, m)⟩
  have hgo : ∀ op k s, Reached (.await op k) s → Reached (k (handle op s).1) (handle op s).2 :=
    fun op k s hrun => hrun.tail trivial (hresume op k s)
  refine Coroutine.segment_keeps (P := Reached) (Q := Reached) (fun _ _ h => h)
    (fun op k s _ => hgo op k s) (fun op k s _ => hgo op k s) ?_
  show Machine.Run _ _ p _
  rw [hself]
  exact .refl

end Pool
