import Mathlib.Order.RelClasses
import MeshcoreBbs.Lib.Machine

/-!
# Programs that wait for their operations

A `Coroutine Op Res α` performs operations one by one and ends with an `α`.  An operation
`op : Op` is answered by a `Res op`, or raises (`none`); so does the whole program.

* `run handle m s` runs `m` in one go, `handle` saying what an operation does to the state;
  `after handle n m s` stops it after `n` operations.
* `trace handle m s` lists the operations of such a run; `Once` says that a run goes through one
  of several programs, once.
* `wp Φ m Q` folds a specification `Φ` of the operations over `m`.  `Sat` is its instance for
  statements without a state, `Safe` the one for a state that others change between any two
  operations (rely and guarantee).
* A `Pool` holds tasks that take turns at their operations; `Pool.Sound.guarantee` says that
  each operation of a run meets the guarantee of its task.
-/

inductive Coroutine (Op : Type) (Res : Op → Type) (α : Type) : Type
  | finish (result : Option α)
  | await (op : Op) (k : Option (Res op) → Coroutine Op Res α)

namespace Coroutine

variable {Op : Type} {Res : Op → Type} {α β σ : Type}

/-! ## The monad -/

protected def bind (m : Coroutine Op Res α) (f : α → Coroutine Op Res β) : Coroutine Op Res β :=
  match m with
  | finish none => finish none
  | finish (some a) => f a
  | await op k => await op fun r => (k r).bind f

instance : Monad (Coroutine Op Res) where
  pure a := finish (some a)
  bind := Coroutine.bind

def raise : Coroutine Op Res α := finish none

def perform (op : Op) : Coroutine Op Res (Res op) := await op finish

/-- `try: m  except: handler`. -/
def orElse (m handler : Coroutine Op Res α) : Coroutine Op Res α :=
  match m with
  | finish none => handler
  | finish (some a) => finish (some a)
  | await op k => await op fun r => (k r).orElse handler

instance : LawfulMonad (Coroutine Op Res) := LawfulMonad.mk' _
  (by
    intro α m
    show m.bind (fun a => finish (some a)) = m
    induction m with
    | finish r => cases r <;> rfl
    | await op k ih => exact congrArg (await op) (funext ih))
  (fun _ _ => rfl)
  (by
    intro α β γ m f g
    show (m.bind f).bind g = m.bind fun a => (f a).bind g
    induction m with
    | finish r => cases r <;> rfl
    | await op k ih => exact congrArg (await op) (funext ih))

/-- `for a in as: f(a)`. -/
def forEach (f : α → Coroutine Op Res Unit) : List α → Coroutine Op Res Unit
  | [] => pure ()
  | a :: as => do
    f a
    forEach f as

/-- `[f(a) for a in as]`. -/
def collect (f : α → Coroutine Op Res β) : List α → Coroutine Op Res (List β)
  | [] => pure []
  | a :: as => do
    let b ← f a
    let bs ← collect f as
    pure (b :: bs)

/-- The elements that nothing is done for. -/
theorem forEach_filter (f : α → Coroutine Op Res Unit) (p : α → Prop) [DecidablePred p]
    (as : List α) :
    forEach (fun a => if p a then f a else pure ()) as = forEach f (as.filter p) := by
  induction as with
  | nil => rfl
  | cons a as ih =>
    rw [forEach, ih, List.filter_cons]
    by_cases ha : p a
    · rw [if_pos ha, if_pos (decide_eq_true ha)]
      rfl
    · rw [if_neg ha, if_neg (by simpa using ha)]
      exact pure_bind ..

/-! ## In one go -/

section Run

variable (handle : (op : Op) → σ → Option (Res op) × σ)

def run : Coroutine Op Res α → σ → Option α × σ
  | finish r, s => (r, s)
  | await op k, s => run (k (handle op s).1) (handle op s).2

variable {handle}

@[simp] theorem run_pure (a : α) (s : σ) :
    (pure a : Coroutine Op Res α).run handle s = (some a, s) := rfl

@[simp] theorem run_raise (s : σ) : (raise : Coroutine Op Res α).run handle s = (none, s) := rfl

@[simp] theorem run_perform (op : Op) (s : σ) : (perform op).run handle s = handle op s := rfl

@[simp] theorem run_bind (m : Coroutine Op Res α) (f : α → Coroutine Op Res β) (s : σ) :
    (m >>= f).run handle s = (m.run handle s).1.elim (none, (m.run handle s).2)
      fun a => (f a).run handle (m.run handle s).2 := by
  show (m.bind f).run handle s = _
  induction m generalizing s with
  | finish r => cases r <;> rfl
  | await op k ih => exact ih _ _

theorem run_bind_of_some {m : Coroutine Op Res α} {a : α} {s s' : σ}
    (h : m.run handle s = (some a, s')) (f : α → Coroutine Op Res β) :
    (m >>= f).run handle s = (f a).run handle s' := by
  rw [run_bind, h, Option.elim_some]

/-- What only reads the state gives a list. -/
theorem run_collect {f : α → Coroutine Op Res β} {g : α → β} {s : σ}
    (h : ∀ a, (f a).run handle s = (some (g a), s)) (as : List α) :
    (collect f as).run handle s = (some (as.map g), s) := by
  induction as with
  | nil => rfl
  | cons a as ih =>
    rw [collect, run_bind_of_some (h a), run_bind_of_some ih]
    rfl

@[simp] theorem run_map (f : α → β) (m : Coroutine Op Res α) (s : σ) :
    (f <$> m).run handle s = ((m.run handle s).1.map f, (m.run handle s).2) := by
  rw [← bind_pure_comp, run_bind]
  cases h : (m.run handle s).1 <;> rfl

@[simp] theorem run_orElse (m handler : Coroutine Op Res α) (s : σ) :
    (m.orElse handler).run handle s = (m.run handle s).1.elim (handler.run handle (m.run handle s).2)
      fun a => (some a, (m.run handle s).2) := by
  induction m generalizing s with
  | finish r => cases r <;> rfl
  | await op k ih => exact ih _ _

end Run

/-! ## Stopped on the way -/

section After

variable (handle : (op : Op) → σ → Option (Res op) × σ)

/-- The state after the first `n` operations of `m`, or all of them if it has fewer. -/
def after : Nat → Coroutine Op Res α → σ → σ
  | 0, _, s => s
  | _ + 1, finish _, s => s
  | n + 1, await op k, s => after n (k (handle op s).1) (handle op s).2

variable {handle}

@[simp] theorem after_zero (m : Coroutine Op Res α) (s : σ) : m.after handle 0 s = s := by
  cases m <;> rfl

@[simp] theorem after_finish (n : Nat) (r : Option α) (s : σ) :
    (finish r : Coroutine Op Res α).after handle n s = s := by
  cases n <;> rfl

theorem after_perform_bind {op : Op} {a : Res op} {s s' : σ} (h : handle op s = (some a, s'))
    (n : Nat) (f : Res op → Coroutine Op Res α) :
    (perform op >>= f).after handle (n + 1) s = (f a).after handle n s' := by
  show after handle n ((finish (handle op s).1).bind f) (handle op s).2 = _
  rw [h]
  rfl

end After

/-! ## Specifications of operations, folded over a program -/

/-- What must hold before an operation for its continuation to get what it needs. -/
abbrev OpSpec (Op : Type) (Res : Op → Type) (l : Type) : Type :=
  (op : Op) → (Option (Res op) → l) → l

def OpSpec.Mono {l : Type} [Preorder l] (Φ : OpSpec Op Res l) : Prop :=
  ∀ op (k k' : Option (Res op) → l), (∀ r, k r ≤ k' r) → Φ op k ≤ Φ op k'

section Wp

variable {l : Type}

def wp (Φ : OpSpec Op Res l) : Coroutine Op Res α → (Option α → l) → l
  | finish r, Q => Q r
  | await op k, Q => Φ op fun r => wp Φ (k r) Q

variable {Φ : OpSpec Op Res l}

theorem wp_bind (m : Coroutine Op Res α) (f : α → Coroutine Op Res β) (Q : Option β → l) :
    (m >>= f).wp Φ Q = m.wp Φ fun r => r.elim (Q none) fun a => (f a).wp Φ Q := by
  show (m.bind f).wp Φ Q = _
  induction m with
  | finish r => cases r <;> rfl
  | await op k ih => exact congrArg (Φ op) (funext ih)

theorem wp_orElse (m handler : Coroutine Op Res α) (Q : Option α → l) :
    (m.orElse handler).wp Φ Q = m.wp Φ fun r => r.elim (handler.wp Φ Q) fun a => Q (some a) := by
  induction m with
  | finish r => cases r <;> rfl
  | await op k ih => exact congrArg (Φ op) (funext ih)

theorem wp_mono [Preorder l] (hΦ : Φ.Mono) {m : Coroutine Op Res α} {Q Q' : Option α → l}
    (h : ∀ r, Q r ≤ Q' r) : m.wp Φ Q ≤ m.wp Φ Q' := by
  induction m with
  | finish r => exact h r
  | await op k ih => exact hΦ op _ _ ih

end Wp

/-! ## Without a state -/

section Sat

variable (mayRaise P : Op → Prop)

/-- Every operation satisfies `P`; only those of `mayRaise` may raise. -/
def OpSpec.only : OpSpec Op Res Prop := fun op k =>
  P op ∧ (∀ a, k (some a)) ∧ (mayRaise op → k none)

/-- Every operation that `m` can perform satisfies `P`, and its outcome `Q`. -/
def Sat (m : Coroutine Op Res α) (Q : Option α → Prop) : Prop := m.wp (OpSpec.only mayRaise P) Q

variable {mayRaise P}

theorem OpSpec.only_mono : (OpSpec.only mayRaise P : OpSpec Op Res Prop).Mono :=
  fun _ _ _ h => fun ⟨hP, hk, hn⟩ => ⟨hP, fun a => h _ (hk a), fun hr => h _ (hn hr)⟩

variable {m : Coroutine Op Res α} {f : α → Coroutine Op Res β} {Q : Option α → Prop}

theorem Sat.mono {Q' : Option α → Prop} (h : m.Sat mayRaise P Q) (hQ : ∀ r, Q r → Q' r) :
    m.Sat mayRaise P Q' :=
  wp_mono OpSpec.only_mono hQ h

theorem Sat.weaken {P' : Op → Prop} (h : m.Sat mayRaise P Q) (hP : ∀ op, P op → P' op) :
    m.Sat mayRaise P' Q := by
  induction m with
  | finish r => exact h
  | await op k ih =>
    obtain ⟨hop, hk, hn⟩ := h
    exact ⟨hP op hop, fun a => ih _ (hk a), fun hr => ih _ (hn hr)⟩

theorem sat_pure {a : α} (h : Q (some a)) : (pure a : Coroutine Op Res α).Sat mayRaise P Q := h

theorem sat_raise (h : Q none) : (raise : Coroutine Op Res α).Sat mayRaise P Q := h

theorem sat_perform {op : Op} {Q : Option (Res op) → Prop} (hop : P op) (hk : ∀ a, Q (some a))
    (hn : mayRaise op → Q none) : (perform op : Coroutine Op Res _).Sat mayRaise P Q :=
  ⟨hop, hk, hn⟩

theorem Sat.bind {Q : Option β → Prop}
    (h : m.Sat mayRaise P fun r => r.elim (Q none) fun a => (f a).Sat mayRaise P Q) :
    (m >>= f).Sat mayRaise P Q := by
  unfold Sat
  rw [wp_bind]
  exact h

/-- The rule for a program that raises only where the whole may. -/
theorem Sat.seq {Q₁ : Option α → Prop} {Q : Option β → Prop} (h : m.Sat mayRaise P Q₁)
    (hnone : Q₁ none → Q none) (hf : ∀ a, (f a).Sat mayRaise P Q) : (m >>= f).Sat mayRaise P Q := by
  refine Sat.bind (h.mono fun r hr => ?_)
  cases r with
  | none => exact hnone hr
  | some a => exact hf a

theorem sat_forEach {g : α → Coroutine Op Res Unit} {as : List α}
    (h : ∀ a ∈ as, (g a).Sat mayRaise P fun r => r.isSome = true) :
    (forEach g as).Sat mayRaise P fun r => r.isSome = true := by
  induction as with
  | nil => exact sat_pure rfl
  | cons a as ih =>
    exact .seq (h a List.mem_cons_self) nofun fun _ => ih fun b hb => h b (List.mem_cons_of_mem a hb)

theorem sat_collect {g : α → Coroutine Op Res β} {as : List α}
    (h : ∀ a ∈ as, (g a).Sat mayRaise P fun r => r.isSome = true) :
    (collect g as).Sat mayRaise P fun r => r.isSome = true := by
  induction as with
  | nil => exact sat_pure rfl
  | cons a as ih =>
    refine .seq (h a List.mem_cons_self) nofun fun _ => ?_
    exact .seq (ih fun b hb => h b (List.mem_cons_of_mem a hb)) nofun fun _ => sat_pure rfl

theorem Sat.orElse {handler : Coroutine Op Res α}
    (h : m.Sat mayRaise P fun r => r.elim (handler.Sat mayRaise P Q) fun a => Q (some a)) :
    (m.orElse handler).Sat mayRaise P Q := by
  unfold Sat
  rw [wp_orElse]
  exact h

section Soundness

variable {handle : (op : Op) → σ → Option (Res op) × σ}

/-- The outcome of a run. -/
theorem Sat.outcome (h : m.Sat mayRaise P Q)
    (hraise : ∀ op s, (handle op s).1 = none → mayRaise op) (s : σ) : Q (m.run handle s).1 := by
  induction m generalizing s with
  | finish r => exact h
  | await op k ih =>
    obtain ⟨-, hk, hn⟩ := h
    rw [run]
    cases hr : (handle op s).1 with
    | none => exact ih _ (hn (hraise op s hr)) _
    | some a => exact ih _ (hk a) _

/-- What every operation with `P` keeps, a run keeps. -/
theorem Sat.invariant (h : m.Sat mayRaise P Q)
    (hraise : ∀ op s, (handle op s).1 = none → mayRaise op) {I : σ → Prop}
    (hI : ∀ op s, P op → I s → I (handle op s).2) {s : σ} (hs : I s) : I (m.run handle s).2 := by
  induction m generalizing s with
  | finish r => exact hs
  | await op k ih =>
    obtain ⟨hop, hk, hn⟩ := h
    rw [run]
    cases hr : (handle op s).1 with
    | none => exact ih _ (hn (hraise op s hr)) (hI op s hop hs)
    | some a => exact ih _ (hk a) (hI op s hop hs)

end Soundness

end Sat

/-! ## Invariants of a run -/

section Keeps

variable (handle : (op : Op) → σ → Option (Res op) × σ)

/-- A run of `m` keeps `I`. -/
def Keeps (m : Coroutine Op Res α) (I : σ → Prop) : Prop := ∀ s, I s → I (m.run handle s).2

variable {handle} {m : Coroutine Op Res α} {f : α → Coroutine Op Res β} {I : σ → Prop}

theorem keeps_pure (a : α) : (pure a : Coroutine Op Res α).Keeps handle I := fun _ h => h

/-- What every operation keeps, every program keeps. -/
theorem keeps_of_ops (h : ∀ op s, I s → I (handle op s).2) (m : Coroutine Op Res α) :
    m.Keeps handle I := by
  induction m with
  | finish r => exact fun _ hs => hs
  | await op k ih => exact fun s hs => ih _ _ (h op s hs)

theorem Keeps.bind (hm : m.Keeps handle I) (hf : ∀ a, (f a).Keeps handle I) :
    (m >>= f).Keeps handle I := by
  intro s hs
  rw [run_bind]
  cases (m.run handle s).1 with
  | none => exact hm s hs
  | some a => exact hf a _ (hm s hs)

theorem Keeps.orElse {handler : Coroutine Op Res α} (hm : m.Keeps handle I)
    (hh : handler.Keeps handle I) : (m.orElse handler).Keeps handle I := by
  intro s hs
  rw [run_orElse]
  cases (m.run handle s).1 with
  | none => exact hh _ (hm s hs)
  | some a => exact hm s hs

theorem keeps_forEach {g : α → Coroutine Op Res Unit} {as : List α}
    (h : ∀ a ∈ as, (g a).Keeps handle I) : (forEach g as).Keeps handle I := by
  induction as with
  | nil => exact keeps_pure ()
  | cons a as ih =>
    exact .bind (h a List.mem_cons_self) fun _ => ih fun b hb => h b (List.mem_cons_of_mem a hb)

end Keeps

/-! ## What a run performs -/

section Trace

variable (handle : (op : Op) → σ → Option (Res op) × σ)

/-- The operations of a run of `m`, in their order. -/
def trace : Coroutine Op Res α → σ → List Op
  | finish _, _ => []
  | await op k, s => op :: trace (k (handle op s).1) (handle op s).2

variable {handle}

theorem trace_bind (m : Coroutine Op Res α) (f : α → Coroutine Op Res β) (s : σ) :
    (m >>= f).trace handle s = m.trace handle s ++
      (m.run handle s).1.elim [] fun a => (f a).trace handle (m.run handle s).2 := by
  show (m.bind f).trace handle s = _
  induction m generalizing s with
  | finish r => cases r <;> rfl
  | await op k ih => exact congrArg (op :: ·) (ih _ _)

theorem trace_orElse (m handler : Coroutine Op Res α) (s : σ) :
    (m.orElse handler).trace handle s = m.trace handle s ++
      (m.run handle s).1.elim (handler.trace handle (m.run handle s).2) fun _ => [] := by
  induction m generalizing s with
  | finish r =>
    cases r with
    | none => rfl
    | some a => rfl
  | await op k ih => exact congrArg (op :: ·) (ih _ _)

variable {mayRaise P : Op → Prop} {m : Coroutine Op Res α} {Q : Option α → Prop}

theorem Sat.trace (h : m.Sat mayRaise P Q)
    (hraise : ∀ op s, (handle op s).1 = none → mayRaise op) (s : σ) :
    ∀ op ∈ m.trace handle s, P op := by
  induction m generalizing s with
  | finish r => exact fun _ hop => nomatch hop
  | await op k ih =>
    obtain ⟨hop, hk, hn⟩ := h
    refine List.forall_mem_cons.mpr ⟨hop, ?_⟩
    cases hr : (handle op s).1 with
    | none => exact ih _ (hn (hraise op s hr)) _
    | some a => exact ih _ (hk a) _

/-- What the operations with `P` keep, a run of such operations keeps. -/
theorem run_keeps {I : σ → Prop} (hI : ∀ op s, P op → I s → I (handle op s).2) {s : σ}
    (h : ∀ op ∈ m.trace handle s, P op) (hs : I s) : I (m.run handle s).2 := by
  induction m generalizing s with
  | finish r => exact hs
  | await op k ih =>
    obtain ⟨hop, hrest⟩ := List.forall_mem_cons.mp h
    exact ih _ hrest (hI op s hop hs)

/-- A state that each operation extends by its own output. -/
theorem run_eq_append {γ : Type} {log : σ → List γ} {out : Op → List γ}
    (h : ∀ op s, log (handle op s).2 = log s ++ out op) (m : Coroutine Op Res α) (s : σ) :
    log (m.run handle s).2 = log s ++ (m.trace handle s).flatMap out := by
  induction m generalizing s with
  | finish r => exact (List.append_nil _).symm
  | await op k ih =>
    show log ((k (handle op s).1).run handle (handle op s).2).2 =
      log s ++ (out op ++ ((k (handle op s).1).trace handle (handle op s).2).flatMap out)
    rw [ih, h, List.append_assoc]

end Trace

/-! ## The way to a part of a run -/

section Leads

variable (handle : (op : Op) → σ → Option (Res op) × σ) (P : Op → Prop)

/-- The run of `m` from `s` performs operations with `P` and then goes on as `n` from `t`. -/
structure Leads (m : Coroutine Op Res α) (s : σ) (n : Coroutine Op Res α) (t : σ) : Prop where
  run : m.run handle s = n.run handle t
  trace : ∃ ops, m.trace handle s = ops ++ n.trace handle t ∧ ∀ op ∈ ops, P op

variable {handle P} {m n : Coroutine Op Res α} {s t u : σ}

theorem Leads.trans {l : Coroutine Op Res α} (h : m.Leads handle P s n t)
    (h' : n.Leads handle P t l u) : m.Leads handle P s l u := by
  obtain ⟨ops, htrace, hops⟩ := h.trace
  obtain ⟨ops', htrace', hops'⟩ := h'.trace
  refine ⟨h.run.trans h'.run, ops ++ ops', ?_, List.forall_mem_append.mpr ⟨hops, hops'⟩⟩
  rw [htrace, htrace', List.append_assoc]

theorem Leads.mono {P' : Op → Prop} (h : m.Leads handle P s n t) (hP : ∀ op, P op → P' op) :
    m.Leads handle P' s n t := by
  obtain ⟨ops, htrace, hops⟩ := h.trace
  exact ⟨h.run, ops, htrace, fun op hop => hP op (hops op hop)⟩

theorem leads_bind {m : Coroutine Op Res α} {f : α → Coroutine Op Res β} {a : α}
    (hm : m.run handle s = (some a, t)) (hops : ∀ op ∈ m.trace handle s, P op) :
    (m >>= f).Leads handle P s (f a) t := by
  refine ⟨run_bind_of_some hm f, m.trace handle s, ?_, hops⟩
  rw [trace_bind, hm, Option.elim_some]

/-- What follows has `P` as well. -/
theorem Leads.forall_trace (h : m.Leads handle P s n t) (hn : ∀ op ∈ n.trace handle t, P op) :
    ∀ op ∈ m.trace handle s, P op := by
  obtain ⟨ops, htrace, hops⟩ := h.trace
  rw [htrace]
  exact List.forall_mem_append.mpr ⟨hops, hn⟩

end Leads

/-! ## One part of a run

The programs `part` are what a run should go through once; everything else that it performs is
`quiet`. -/

section Once

variable (handle : (op : Op) → σ → Option (Res op) × σ) (quiet : Op → Prop)
  (part : Coroutine Op Res Unit → Prop)

/-- Nothing but quiet operations, from any state. -/
def Quiet (m : Coroutine Op Res α) : Prop := ∀ s, ∀ op ∈ m.trace handle s, quiet op

/-- The run of `m` from `s` goes through one part, with quiet operations before and after. -/
def OnceFrom (m : Coroutine Op Res α) (s : σ) : Prop :=
  ∃ p t before after, part p ∧ m.trace handle s = before ++ p.trace handle t ++ after ∧
    (∀ op ∈ before, quiet op) ∧ ∀ op ∈ after, quiet op

/-- A run of `m` that ends has gone through one part, one that raises through none. -/
structure Once (m : Coroutine Op Res α) : Prop where
  raised : ∀ s, (m.run handle s).1 = none → ∀ op ∈ m.trace handle s, quiet op
  ended : ∀ s a, (m.run handle s).1 = some a → m.OnceFrom handle quiet part s

variable {handle quiet part} {m : Coroutine Op Res α} {f : α → Coroutine Op Res β} {s : σ}

theorem onceFrom_part {p : Coroutine Op Res Unit} (hp : part p) (s : σ) :
    p.OnceFrom handle quiet part s :=
  ⟨p, s, [], [], hp, (List.append_nil _).symm, nofun, nofun⟩

/-- More before the part. -/
theorem OnceFrom.prepend {n : Coroutine Op Res β} {t : σ} {ops : List Op}
    (h : n.OnceFrom handle quiet part t) (hops : ∀ op ∈ ops, quiet op)
    (htrace : m.trace handle s = ops ++ n.trace handle t) : m.OnceFrom handle quiet part s := by
  obtain ⟨p, u, before, after, hp, hn, hbefore, hafter⟩ := h
  refine ⟨p, u, ops ++ before, after, hp, ?_, List.forall_mem_append.mpr ⟨hops, hbefore⟩, hafter⟩
  simp only [htrace, hn, List.append_assoc]

/-- More after the part. -/
theorem OnceFrom.append {n : Coroutine Op Res β} {ops : List Op}
    (h : m.OnceFrom handle quiet part s) (hops : ∀ op ∈ ops, quiet op)
    (htrace : n.trace handle s = m.trace handle s ++ ops) : n.OnceFrom handle quiet part s := by
  obtain ⟨p, u, before, after, hp, hm, hbefore, hafter⟩ := h
  refine ⟨p, u, before, after ++ ops, hp, ?_, hbefore, List.forall_mem_append.mpr ⟨hafter, hops⟩⟩
  simp only [htrace, hm, List.append_assoc]

theorem OnceFrom.after {s' : σ} {a : α} (hm : m.run handle s = (some a, s'))
    (hquiet : m.Quiet handle quiet) (hf : (f a).OnceFrom handle quiet part s') :
    (m >>= f).OnceFrom handle quiet part s := by
  refine hf.prepend (hquiet s) ?_
  rw [trace_bind, hm, Option.elim_some]

theorem once_part {p : Coroutine Op Res Unit} (hp : part p)
    (hruns : ∀ s, (p.run handle s).1 ≠ none) : p.Once handle quiet part :=
  ⟨fun s hr => absurd hr (hruns s), fun s _ _ => onceFrom_part hp s⟩

theorem once_raise : (raise : Coroutine Op Res α).Once handle quiet part := ⟨nofun, nofun⟩

theorem Once.after (hm : m.Quiet handle quiet) (hf : ∀ a, (f a).Once handle quiet part) :
    (m >>= f).Once handle quiet part := by
  constructor
  · intro s hr
    rw [run_bind] at hr
    rw [trace_bind]
    refine List.forall_mem_append.mpr ⟨hm s, ?_⟩
    cases ha : (m.run handle s).1 with
    | none => exact nofun
    | some a =>
      rw [ha] at hr
      exact (hf a).raised _ hr
  · intro s b hr
    rw [run_bind] at hr
    cases ha : (m.run handle s).1 with
    | none =>
      rw [ha] at hr
      cases hr
    | some a =>
      rw [ha] at hr
      exact .after (Prod.ext ha rfl) hm ((hf a).ended _ b hr)

theorem Once.before (hm : m.Once handle quiet part) (hf : ∀ a, (f a).Quiet handle quiet)
    (hruns : ∀ a s, ((f a).run handle s).1 ≠ none) : (m >>= f).Once handle quiet part := by
  constructor
  · intro s hr
    rw [run_bind] at hr
    rw [trace_bind]
    cases ha : (m.run handle s).1 with
    | none => exact List.forall_mem_append.mpr ⟨hm.raised s ha, nofun⟩
    | some a =>
      rw [ha] at hr
      exact absurd hr (hruns a _)
  · intro s b hr
    rw [run_bind] at hr
    cases ha : (m.run handle s).1 with
    | none =>
      rw [ha] at hr
      cases hr
    | some a =>
      refine (hm.ended s a ha).append (hf a (m.run handle s).2) ?_
      rw [trace_bind, ha, Option.elim_some]

/-- The handler goes through a part where `m` has not. -/
theorem Once.orElse {handler : Coroutine Op Res α} (hm : m.Once handle quiet part)
    (hh : handler.Once handle quiet part) : (m.orElse handler).Once handle quiet part := by
  have hraised (s : σ) (ha : (m.run handle s).1 = none) : (m.orElse handler).trace handle s =
      m.trace handle s ++ handler.trace handle (m.run handle s).2 := by
    rw [trace_orElse, ha, Option.elim_none]
  constructor
  · intro s hr
    rw [run_orElse] at hr
    cases ha : (m.run handle s).1 with
    | none =>
      rw [ha] at hr
      rw [hraised s ha]
      exact List.forall_mem_append.mpr ⟨hm.raised s ha, hh.raised _ hr⟩
    | some a =>
      rw [ha] at hr
      cases hr
  · intro s b hr
    rw [run_orElse] at hr
    cases ha : (m.run handle s).1 with
    | none =>
      rw [ha] at hr
      exact (hh.ended _ b hr).prepend (hm.raised s ha) (hraised s ha)
    | some a =>
      have hnone : ∀ op ∈ ([] : List Op), quiet op := nofun
      refine (hm.ended s a ha).append hnone ?_
      rw [trace_orElse, ha, Option.elim_some]

end Once

/-! ## While others act -/

section Safe

variable (handle : (op : Op) → σ → Option (Res op) × σ) (R : σ → σ → Prop)
  (G : (op : Op) → σ → Prop)

/-- Others take the state anywhere `R` allows before the operation, which must then meet the
guarantee `G`. -/
def OpSpec.rely : OpSpec Op Res (σ → Prop) := fun op k s =>
  ∀ t, R s t → G op t ∧ k (handle op t).1 (handle op t).2

/-- Every operation of `m` meets `G` while others keep to `R`. -/
def Safe (m : Coroutine Op Res α) (Q : Option α → σ → Prop) (s : σ) : Prop :=
  m.wp (OpSpec.rely handle R G) Q s

variable {handle R G} {m : Coroutine Op Res α} {f : α → Coroutine Op Res β}
  {Q : Option α → σ → Prop} {s : σ}

theorem OpSpec.rely_mono : (OpSpec.rely handle R G).Mono := by
  intro op k k' h s hs t hR
  exact ⟨(hs t hR).1, h _ _ (hs t hR).2⟩

theorem Safe.mono {Q' : Option α → σ → Prop} (h : m.Safe handle R G Q s)
    (hQ : ∀ r s, Q r s → Q' r s) : m.Safe handle R G Q' s :=
  wp_mono OpSpec.rely_mono hQ s h

theorem Safe.bind {Q : Option β → σ → Prop}
    (h : m.Safe handle R G (fun r => r.elim (Q none) fun a => (f a).Safe handle R G Q) s) :
    (m >>= f).Safe handle R G Q s := by
  unfold Safe
  rw [wp_bind]
  exact h

theorem Safe.orElse {handler : Coroutine Op Res α}
    (h : m.Safe handle R G (fun r => r.elim (handler.Safe handle R G Q) fun a => Q (some a)) s) :
    (m.orElse handler).Safe handle R G Q s := by
  unfold Safe
  rw [wp_orElse]
  exact h

/-- A suspended program stays safe. -/
theorem Safe.stable (htrans : ∀ s t u, R s t → R t u → R s u)
    (hQ : ∀ r s t, R s t → Q r s → Q r t) (h : m.Safe handle R G Q s) {t : σ} (hR : R s t) :
    m.Safe handle R G Q t := by
  cases m with
  | finish r => exact hQ r s t hR h
  | await op k => exact fun u hu => h u (htrans s t u hR hu)

theorem safe_perform {op : Op} {Q : Option (Res op) → σ → Prop}
    (h : ∀ t, R s t → G op t ∧ Q (handle op t).1 (handle op t).2) :
    (perform op : Coroutine Op Res _).Safe handle R G Q s := h

/-- Operations that meet the guarantee where `I` holds, which others keep as well. -/
theorem Sat.safe {mayRaise P : Op → Prop} {Q : Option α → Prop} {I : σ → Prop}
    (h : m.Sat mayRaise P Q) (hraise : ∀ op s, (handle op s).1 = none → mayRaise op)
    (hG : ∀ op s, P op → I s → G op s) (hrely : ∀ s t, R s t → I s → I t)
    (hop : ∀ op s, P op → I s → I (handle op s).2) (hs : I s) :
    m.Safe handle R G (fun r s => I s ∧ Q r) s := by
  induction m generalizing s with
  | finish r => exact ⟨hs, h⟩
  | await op k ih =>
    obtain ⟨hP, hk, hn⟩ := h
    intro t hR
    have ht := hrely s t hR hs
    refine ⟨hG op t hP ht, ?_⟩
    cases hr : (handle op t).1 with
    | none => exact ih _ (hn (hraise op t hr)) (hop op t hP ht)
    | some a => exact ih _ (hk a) (hop op t hP ht)

/-! ## From any state -/

variable (handle R G)

/-- Every operation of `m` meets `G`, wherever it starts. -/
def Meets (m : Coroutine Op Res α) : Prop := ∀ s, m.Safe handle R G (fun _ _ => True) s

variable {handle R G}

theorem meets_pure (a : α) : (pure a : Coroutine Op Res α).Meets handle R G := fun _ => trivial

theorem Meets.bind (h : m.Meets handle R G) (hf : ∀ a, (f a).Meets handle R G) :
    (m >>= f).Meets handle R G := by
  refine fun s => Safe.bind ((h s).mono fun r t _ => ?_)
  cases r with
  | none => trivial
  | some a => exact hf a t

theorem Meets.orElse {handler : Coroutine Op Res α} (h : m.Meets handle R G)
    (hh : handler.Meets handle R G) : (m.orElse handler).Meets handle R G := by
  refine fun s => Safe.orElse ((h s).mono fun r t _ => ?_)
  cases r with
  | none => exact hh t
  | some a => trivial

theorem Sat.meets {mayRaise P : Op → Prop} {Q : Option α → Prop} (h : m.Sat mayRaise P Q)
    (hraise : ∀ op s, (handle op s).1 = none → mayRaise op) (hG : ∀ op s, P op → G op s) :
    m.Meets handle R G :=
  fun s => (h.safe (I := fun _ => True) (s := s) hraise (fun op s hP _ => hG op s hP)
    (fun _ _ _ _ => trivial) (fun _ _ _ _ => trivial) trivial).mono fun _ _ _ => trivial

end Safe

/-! ## What is left of a program -/

/-- The program that is left after an operation. -/
inductive Next : Coroutine Op Res α → Coroutine Op Res α → Prop
  | after (op : Op) (k : Option (Res op) → Coroutine Op Res α) (r : Option (Res op)) :
      Next (k r) (await op k)

/-- Every program comes to its end. -/
theorem wellFounded_next :
    WellFounded (Next : Coroutine Op Res α → Coroutine Op Res α → Prop) := by
  refine ⟨fun m => ?_⟩
  induction m with
  | finish r => exact ⟨_, fun _ h => by cases h⟩
  | await op k ih =>
    refine ⟨_, fun m h => ?_⟩
    cases h with
    | after _ _ r => exact ih r

/-- Fewer programs to go, or an earlier stage, or less of the program in hand. -/
abbrev Shorter : Nat × Nat × Coroutine Op Res α → Nat × Nat × Coroutine Op Res α → Prop :=
  Prod.Lex (· < ·) (Prod.Lex (· < ·) Next)

theorem wellFounded_shorter :
    WellFounded (Shorter : _ → Nat × Nat × Coroutine Op Res α → Prop) :=
  wellFounded_lt.prod_lex (wellFounded_lt.prod_lex wellFounded_next)

end Coroutine

/-! ## Tasks that take turns -/

/-- A shared state and the tasks started so far, each with what is left of it. -/
structure Pool (Op : Type) (Res : Op → Type) (σ L : Type) where
  state : σ
  tasks : List (L × Coroutine Op Res Unit)

namespace Pool

variable {Op : Type} {Res : Op → Type} {σ L ε : Type}

/-- A task starts, the task with the index `i` performs its next operation, or something
else happens. -/
inductive Act (L ε : Type)
  | spawn (l : L)
  | resume (i : Nat)
  | outside (e : ε)

section Step

variable (handle : (op : Op) → σ → Option (Res op) × σ) (prog : L → Coroutine Op Res Unit)
  (env : σ → ε → Option σ)

def step (p : Pool Op Res σ L) : Act L ε → Option (Pool Op Res σ L)
  | .spawn l => some { p with tasks := p.tasks ++ [(l, prog l)] }
  | .resume i =>
    match p.tasks[i]? with
    | some (l, .await op k) => some
      { state := (handle op p.state).2, tasks := p.tasks.set i (l, k (handle op p.state).1) }
    | _ => none
  | .outside e => (env p.state e).map fun s => { p with state := s }

/-- The cases of a step. -/
inductive Step (p : Pool Op Res σ L) : Act L ε → Pool Op Res σ L → Prop
  | spawn {l} : Step p (.spawn l) { p with tasks := p.tasks ++ [(l, prog l)] }
  | resume {i l op k} (h : p.tasks[i]? = some (l, .await op k)) : Step p (.resume i)
      { state := (handle op p.state).2, tasks := p.tasks.set i (l, k (handle op p.state).1) }
  | outside {e s} (h : env p.state e = some s) : Step p (.outside e) { p with state := s }

variable {handle prog env} {p p' : Pool Op Res σ L} {a : Act L ε}

theorem step_cases (h : step handle prog env p a = some p') : Step handle prog env p a p' := by
  cases a with
  | spawn l =>
    cases h
    exact .spawn
  | resume i =>
    rw [step] at h
    split at h
    · next hi =>
      cases h
      exact .resume hi
    · cases h
  | outside e =>
    rw [step, Option.map_eq_some_iff] at h
    obtain ⟨s, hs, rfl⟩ := h
    exact .outside hs

/-- A task keeps its label. -/
theorem Step.label (h : Step handle prog env p a p') {i : Nat} {t : L × Coroutine Op Res Unit}
    (ht : p'.tasks[i]? = some t) : (∃ m, p.tasks[i]? = some (t.1, m)) ∨ a = .spawn t.1 := by
  cases h with
  | spawn =>
    rw [List.getElem?_append] at ht
    split at ht
    · exact .inl ⟨t.2, ht⟩
    · rw [List.getElem?_singleton] at ht
      split at ht
      · cases ht
        exact .inr rfl
      · cases ht
  | @resume j l op k hj =>
    rw [List.getElem?_set] at ht
    split at ht
    · next hij =>
      subst hij
      split at ht
      · cases ht
        exact .inl ⟨_, hj⟩
      · cases ht
    · exact .inl ⟨t.2, ht⟩
  | outside => exact .inl ⟨t.2, ht⟩

/-- The tasks, once started, keep their labels and places. -/
theorem Step.labels (h : Step handle prog env p a p') : p'.tasks.map Prod.fst =
    p.tasks.map Prod.fst ++ match a with | .spawn l => [l] | _ => [] := by
  cases h with
  | spawn => simp
  | @resume i l op k hi =>
    rw [List.append_nil]
    refine List.ext_getElem? fun j => ?_
    by_cases hij : i = j
    · subst hij
      have hlen := (List.getElem?_eq_some_iff.mp hi).1
      rw [List.getElem?_map, List.getElem?_set_self hlen, List.getElem?_map, hi]
      rfl
    · rw [List.getElem?_map, List.getElem?_set_ne hij, List.getElem?_map]
  | outside => simp

/-- Where a task comes from. -/
theorem Step.task (h : Step handle prog env p a p') {i : Nat} {l : L} {m : Coroutine Op Res Unit}
    (hi : p'.tasks[i]? = some (l, m)) :
    p.tasks[i]? = some (l, m) ∨ a = .spawn l ∨
      a = .resume i ∧ ∃ op k, p.tasks[i]? = some (l, .await op k) := by
  cases h with
  | spawn =>
    rw [List.getElem?_append] at hi
    split at hi
    · exact .inl hi
    · cases List.eq_of_mem_singleton (List.mem_of_getElem? hi)
      exact .inr (.inl rfl)
  | @resume j l' op k hj =>
    by_cases hij : j = i
    · subst hij
      rw [List.getElem?_set_self (List.getElem?_eq_some_iff.mp hj).1] at hi
      cases hi
      exact .inr (.inr ⟨rfl, op, k, hj⟩)
    · exact .inl ((List.getElem?_set_ne hij).symm.trans hi)
  | outside => exact .inl hi

/-- A task waits while others go on. -/
theorem Step.task_waits (h : Step handle prog env p a p') {i : Nat} (ha : a ≠ .resume i) {l : L}
    {m : Coroutine Op Res Unit} (hi : p.tasks[i]? = some (l, m)) : p'.tasks[i]? = some (l, m) := by
  cases h with
  | spawn => rw [List.getElem?_append_left (List.getElem?_eq_some_iff.mp hi).1, hi]
  | @resume j l' op k hj =>
    have hij : j ≠ i := fun hij => ha (by rw [hij])
    exact (List.getElem?_set_ne hij).trans hi
  | outside => exact hi

/-- A task stays where it is. -/
theorem Step.task_stays (h : Step handle prog env p a p') {i : Nat} {l : L}
    {m : Coroutine Op Res Unit} (hi : p.tasks[i]? = some (l, m)) :
    ∃ m', p'.tasks[i]? = some (l, m') := by
  have hlen := (List.getElem?_eq_some_iff.mp hi).1
  cases h with
  | spawn => exact ⟨m, by rw [List.getElem?_append_left hlen, hi]⟩
  | @resume j l' op k hj =>
    by_cases hij : j = i
    · subst hij
      rw [hi] at hj
      cases hj
      exact ⟨_, List.getElem?_set_self hlen⟩
    · exact ⟨m, (List.getElem?_set_ne hij).trans hi⟩
  | outside => exact ⟨m, hi⟩

/-- What the labels of the tasks have, and that of a task that starts, they have after the step. -/
theorem Step.forall_label {Q : L → Prop} (h : Step handle prog env p a p')
    (hp : ∀ t ∈ p.tasks, Q t.1) (ha : ∀ l, a = .spawn l → Q l) : ∀ t ∈ p'.tasks, Q t.1 := by
  intro t ht
  obtain ⟨i, hi⟩ := List.getElem?_of_mem ht
  rcases h.label hi with ⟨m, hold⟩ | hspawn
  · exact hp (t.1, m) (List.mem_of_getElem? hold)
  · exact ha _ hspawn

variable (handle prog env)

/-- What the tasks guarantee is what they rely on. -/
structure Sound (R : σ → σ → Prop) (G : L → (op : Op) → σ → Prop) : Prop where
  trans : ∀ s t u, R s t → R t u → R s u
  op : ∀ l op s, G l op s → R s (handle op s).2
  outside : ∀ s e t, env s e = some t → R s t
  prog : ∀ l s, (prog l).Safe handle R (G l) (fun _ _ => True) s

variable {handle prog env} {R : σ → σ → Prop} {G : L → (op : Op) → σ → Prop}

theorem Sound.step (h : Sound handle prog env R G)
    (hp : ∀ t ∈ p.tasks, t.2.Safe handle R (G t.1) (fun _ _ => True) p.state)
    (hrefl : ∀ s, R s s) (hs : step handle prog env p a = some p') :
    ∀ t ∈ p'.tasks, t.2.Safe handle R (G t.1) (fun _ _ => True) p'.state := by
  cases step_cases hs with
  | spawn =>
    intro t ht
    rcases List.mem_append.mp ht with ht | ht
    · exact hp t ht
    · rw [List.mem_singleton.mp ht]
      exact h.prog _ _
  | @resume i l op k hi =>
    have hsafe := hp _ (List.mem_of_getElem? hi) p.state (hrefl _)
    intro t ht
    rcases List.mem_or_eq_of_mem_set ht with ht | rfl
    · exact (hp t ht).stable h.trans (fun _ _ _ _ _ => trivial) (h.op l op _ hsafe.1)
    · exact hsafe.2
  | outside he =>
    exact fun t ht => (hp t ht).stable h.trans (fun _ _ _ _ _ => trivial) (h.outside _ _ _ he)

/-- **Every operation of a run meets the guarantee of its task.** -/
theorem Sound.guarantee (h : Sound handle prog env R G) (hrefl : ∀ s, R s s)
    {ok : Pool Op Res σ L → Act L ε → Prop} {p₀ : Pool Op Res σ L} (h0 : p₀.tasks = [])
    (hrun : Machine.Run (Pool.step handle prog env) ok p₀ p) {i : Nat} {l : L} {op : Op}
    {k : Option (Res op) → Coroutine Op Res Unit} (hi : p.tasks[i]? = some (l, .await op k)) :
    G l op p.state := by
  have hsafe := hrun.invariant (P := fun p => ∀ t ∈ p.tasks,
    t.2.Safe handle R (G t.1) (fun _ _ => True) p.state)
    (fun _ _ _ hp _ hs => h.step hp hrefl hs) (by simp [h0])
  exact (hsafe _ (List.mem_of_getElem? hi) p.state (hrefl _)).1

end Step

end Pool
