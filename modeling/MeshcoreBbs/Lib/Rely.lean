import MeshcoreBbs.Lib.Parts

/-!
# Programs that rely on a condition of the run

`Safe` asks that every operation meets its guarantee whatever others do within a fixed relation.
Here a program may rely on more: `Trusts` takes it that a condition `A` on the program and the state
holds whenever the program goes on, and that others keep to a relation `R` that depends on where the
program waits.  `Passes` says the same of a program that is followed by others.

In a `Pool` whose steps meet the conditions, every operation meets its guarantee (`Trusting.step`).
-/

namespace Coroutine

variable {Op : Type} {Res : Op → Type} {α β γ σ : Type}

section Trusts

variable (handle : (op : Op) → σ → Option (Res op) × σ) (R : Coroutine Op Res β → σ → σ → Prop)
  (A : Coroutine Op Res β → σ → Prop) (G : (op : Op) → σ → Prop)

/-- Every operation of the program meets `G` where it goes on under `A`, others keeping to `R`
while it waits. -/
def Trusts : Coroutine Op Res β → σ → Prop
  | finish _, _ => True
  | await op k, s => ∀ t, R (await op k) s t → A (await op k) t →
    G op t ∧ Trusts (k (handle op t).1) (handle op t).2

variable {handle R A G} {m : Coroutine Op Res α} {s t : σ}

theorem trusts_await {op : Op} {k : Option (Res op) → Coroutine Op Res β}
    (h : ∀ t, R (await op k) s t → A (await op k) t →
      G op t ∧ (k (handle op t).1).Trusts handle R A G (handle op t).2) :
    (await op k).Trusts handle R A G s := h

theorem Trusts.next {op : Op} {k : Option (Res op) → Coroutine Op Res β}
    (h : (await op k).Trusts handle R A G s) (hR : R (await op k) s s) (hA : A (await op k) s) :
    G op s ∧ (k (handle op s).1).Trusts handle R A G (handle op s).2 := h s hR hA

/-- A program that waits goes on trusting. -/
theorem Trusts.stable {m : Coroutine Op Res β} (htrans : ∀ t u, R m s t → R m t u → R m s u)
    (h : m.Trusts handle R A G s) (hR : R m s t) : m.Trusts handle R A G t := by
  cases m with
  | finish r => trivial
  | await op k => exact fun u hu => h u (htrans t u hR hu)

/-- What is safe under a relation that `R` is within, and then a program that trusts. -/
theorem Safe.trusts {S : σ → σ → Prop} {Q : Option α → σ → Prop} {f : Option α → Coroutine Op Res β}
    (h : m.Safe handle S G Q s) (hR : ∀ m s t, R m s t → S s t)
    (hf : ∀ r t, Q r t → (f r).Trusts handle R A G t) : (m.andThen f).Trusts handle R A G s := by
  induction m generalizing s with
  | finish r => exact hf r s h
  | await op k ih =>
    intro t ht _
    obtain ⟨hG, hnext⟩ := h t (hR _ _ _ ht)
    exact ⟨hG, ih _ hnext⟩

theorem Safe.trusts_bind {S : σ → σ → Prop} {f : α → Coroutine Op Res β}
    (h : m.Safe handle S G (fun r t => ∀ a, r = some a → (f a).Trusts handle R A G t) s)
    (hR : ∀ m s t, R m s t → S s t) : (m >>= f).Trusts handle R A G s := by
  rw [bind_eq_andThen]
  refine h.trusts hR fun r t hr => ?_
  cases r with
  | none => trivial
  | some a => exact hr a rfl

variable (handle R A G)

/-- The program may be followed by any that trusts. -/
def Passes (m : Coroutine Op Res α) : Prop := ∀ f : Option α → Coroutine Op Res β,
  (∀ r s, (f r).Trusts handle R A G s) → ∀ s, (m.andThen f).Trusts handle R A G s

variable {handle R A G}

theorem passes_finish (r : Option α) : (finish r : Coroutine Op Res α).Passes handle R A G :=
  fun _ hf s => hf r s

theorem Passes.bind (hm : m.Passes handle R A G) {f : α → Coroutine Op Res γ}
    (hf : ∀ a, (f a).Passes handle R A G) : (m >>= f).Passes handle R A G := by
  intro g hg
  rw [bind_eq_andThen, andThen_andThen]
  refine hm _ fun r => ?_
  cases r with
  | none => exact hg none
  | some a => exact hf a g hg

theorem passes_forEach {f : γ → Coroutine Op Res Unit} (h : ∀ a, (f a).Passes handle R A G)
    (as : List γ) : (forEach f as).Passes handle R A G := by
  induction as with
  | nil => exact passes_finish _
  | cons a as ih => exact (h a).bind fun _ => ih

/-- Operations that meet the guarantee in any state. -/
theorem Sat.passes {mayRaise P : Op → Prop} {Q : Option α → Prop} (h : m.Sat mayRaise P Q)
    (hraise : ∀ op s, (handle op s).1 = none → mayRaise op) (hG : ∀ op s, P op → G op s) :
    m.Passes handle R A G := by
  intro f hf s
  refine Safe.trusts (S := fun _ _ => True) (h.meets hraise hG s) (fun _ _ _ _ => trivial) ?_
  exact fun r t _ => hf r t

theorem Passes.trusts {m : Coroutine Op Res β} (h : m.Passes handle R A G) (s : σ) :
    m.Trusts handle R A G s := by
  rw [← andThen_finish m]
  exact h finish (fun _ _ => trivial) s

end Trusts

end Coroutine

namespace Pool

open Coroutine

variable {Op : Type} {Res : Op → Type} {σ L ε : Type}

section Trusting

variable (handle : (op : Op) → σ → Option (Res op) × σ) (R : L → Coroutine Op Res Unit → σ → σ → Prop)
  (A : L → Coroutine Op Res Unit → σ → Prop) (G : L → (op : Op) → σ → Prop)

/-- Every task trusts, by its label. -/
def Trusting (p : Pool Op Res σ L) : Prop :=
  ∀ (i : Nat) (l : L) (m : Coroutine Op Res Unit), p.tasks[i]? = some (l, m) →
    m.Trusts handle (R l) (A l) (G l) p.state

variable {handle R A G} {prog : L → Coroutine Op Res Unit} {env : σ → ε → Option σ}
  {p p' : Pool Op Res σ L} {a : Act L ε}

/-- The operation of the task whose turn it is. -/
theorem Trusting.guarantee (h : Trusting handle R A G p) {i : Nat} {l : L} {op : Op}
    {k : Option (Res op) → Coroutine Op Res Unit} (hi : p.tasks[i]? = some (l, .await op k))
    (hrefl : R l (.await op k) p.state p.state) (hA : A l (.await op k) p.state) : G l op p.state :=
  ((h i l _ hi).next hrefl hA).1

/-- The tasks go on trusting if the one whose turn it is finds its condition met and the others find
that it kept to what they rely on. -/
theorem Trusting.step (h : Trusting handle R A G p) (hrefl : ∀ l m s, R l m s s)
    (htrans : ∀ l m s t u, R l m s t → R l m t u → R l m s u)
    (hprog : ∀ l s, (prog l).Trusts handle (R l) (A l) (G l) s)
    (hs : Pool.step handle prog env p a = some p')
    (hturn : ∀ i l m, a = .resume i → p.tasks[i]? = some (l, m) → A l m p.state)
    (hothers : ∀ i l op k, a ≠ .resume i → p.tasks[i]? = some (l, .await op k) →
      R l (.await op k) p.state p'.state) : Trusting handle R A G p' := by
  intro i l m hi
  have hstay : a ≠ .resume i → p.tasks[i]? = some (l, m) → m.Trusts handle (R l) (A l) (G l) p'.state := by
    intro ha hold
    cases m with
    | finish r => trivial
    | await op k =>
      exact (h i l _ hold).stable (fun t u => htrans l _ _ t u) (hothers i l op k ha hold)
  cases step_cases hs with
  | spawn =>
    rw [List.getElem?_append] at hi
    split at hi
    · exact hstay (by simp) hi
    · cases List.eq_of_mem_singleton (List.mem_of_getElem? hi)
      exact hprog l _
  | @resume j _ op k hj =>
    by_cases hij : j = i
    · subst hij
      rw [List.getElem?_set_self (List.getElem?_eq_some_iff.mp hj).1] at hi
      cases hi
      exact ((h j l _ hj).next (hrefl ..) (hturn j l _ rfl hj)).2
    · exact hstay (by simpa using hij) ((List.getElem?_set_ne hij).symm.trans hi)
  | outside => exact hstay (by simp) hi

end Trusting

end Pool
