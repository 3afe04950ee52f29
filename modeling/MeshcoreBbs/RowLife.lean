import Mathlib.Tactic.Positivity
import MeshcoreBbs.OutboundWorker

/-!
# The life of a queue row

What the retry rules say about one message, without tables, worker or clock
ticks: a row waits, is held by the worker, is sent or put back, and ends
`sent`, `failed` or `dropped`.  `Lawful` are the books of such a life; every step
keeps them (`lawful_step`), and so does time (`lawful_later`).
-/

namespace Bbs

inductive Stage
  | absent
  | waiting (next : Int)
  | held
  | deferring (next : Int)
  | sending
  | recording (next : Int)
  | sent
  | failing
  | failed
  | dropped
  | cancelled
  deriving DecidableEq, Repr

/-- The row is pending. -/
def Stage.isOpen : Stage → Bool
  | .waiting _ => true
  | .held => true
  | .deferring _ => true
  | .sending => true
  | .recording _ => true
  | _ => false

/-- What the history says about the transmissions of a row. -/
structure Ledger where
  starts : Nat := 0
  failures : Nat := 0
  successes : Nat := 0
  /-- `outbound_failed` rows in the audit log. -/
  audits : Nat := 0
  /-- The seconds that the failed transmissions asked to wait for. -/
  waits : List Int := []

structure Life extends Ledger where
  stage : Stage
  /-- The `attempts` column. -/
  attempts : Nat

namespace Life

/-- The backoffs after the failures are over in the second `n`. -/
def Allows (l : Life) (n : Int) : Prop := ∀ b ∈ l.waits, b ≤ n

theorem Allows.mono {l : Life} {m n : Int} (h : l.Allows m) (hmn : m ≤ n) : l.Allows n :=
  fun b hb => (h b hb).trans hmn

end Life

/-- A life begun with `base` attempts goes on in the second `now`. -/
inductive LifeStep (base : Nat) (now : Int) (l : Life) : Life → Prop
  | insert (next) (h : l.stage = .absent) :
      LifeStep base now l { l with stage := .waiting next, attempts := 0 }
  | pause (next next') (h : l.stage = .waiting next) (hle : l.Allows (max next' now)) :
      LifeStep base now l { l with stage := .waiting next' }
  | drop (next) (h : l.stage = .waiting next) : LifeStep base now l { l with stage := .dropped }
  | claim (next) (h : l.stage = .waiting next) (hle : next ≤ now) :
      LifeStep base now l { l with stage := .held }
  | defer (next) (h : l.stage = .held) : LifeStep base now l { l with stage := .deferring next }
  | start (h : l.stage = .held) :
      LifeStep base now l { l with stage := .sending, starts := l.starts + 1 }
  | succeed (h : l.stage = .sending) :
      LifeStep base now l { l with stage := .sent, successes := l.successes + 1 }
  | giveUp (h : l.stage = .sending) (hmax : maxAttempts ≤ l.attempts + 1) :
      LifeStep base now l { l with
        stage := .failing, failures := l.failures + 1
        waits := (now + backoffBaseSeconds * 2 ^ (base + l.failures)) :: l.waits }
  | retry (h : l.stage = .sending) (hmax : l.attempts + 1 < maxAttempts) :
      LifeStep base now l { l with
        stage := .recording (now + backoffBaseSeconds * 2 ^ l.attempts)
        failures := l.failures + 1
        waits := (now + backoffBaseSeconds * 2 ^ (base + l.failures)) :: l.waits }
  | putBack (next) (h : l.stage = .deferring next) :
      LifeStep base now l { l with stage := .waiting next }
  | record (next) (h : l.stage = .recording next) :
      LifeStep base now l { l with stage := .waiting next, attempts := l.attempts + 1 }
  | audit (h : l.stage = .failing) :
      LifeStep base now l { l with stage := .failed, audits := l.audits + 1 }

namespace Life

variable (base : Nat) (l : Life)

/-- `lag` failures are not in the column yet, `inflight` transmissions have not failed. -/
def Books (lag inflight successes audits : Nat) : Prop :=
  l.attempts + lag = base + l.failures ∧ l.starts = l.failures + inflight ∧
    l.successes = successes ∧ l.audits = audits

def Lawful (now : Int) : Prop :=
  match l.stage with
  | .absent => base = 0 ∧ l.failures = 0 ∧ l.starts = 0 ∧ l.successes = 0 ∧ l.audits = 0 ∧
      l.waits = []
  | .waiting next => l.Books base 0 0 0 0 ∧ base + l.failures < maxAttempts ∧ l.Allows (max next now)
  | .held => l.Books base 0 0 0 0 ∧ base + l.failures < maxAttempts ∧ l.Allows now
  | .deferring _ => l.Books base 0 0 0 0 ∧ base + l.failures < maxAttempts ∧ l.Allows now
  | .sending => l.Books base 0 1 0 0 ∧ base + l.failures < maxAttempts ∧ l.Allows now
  | .recording next => l.Books base 1 0 0 0 ∧ base + l.failures < maxAttempts ∧ l.Allows next
  | .sent => l.Books base 0 1 1 0 ∧ base + l.failures < maxAttempts
  | .failing => l.Books base 1 0 0 0 ∧ base + l.failures = maxAttempts
  | .failed => l.Books base 1 0 0 1 ∧ base + l.failures = maxAttempts
  | .dropped => l.Books base 0 0 0 0 ∧ base + l.failures < maxAttempts
  | .cancelled => False

variable {base l}

/-- Time passing does not break a lawful life. -/
theorem lawful_later {now now' : Int} (h : l.Lawful base now) (hle : now ≤ now') :
    l.Lawful base now' := by
  unfold Lawful at h ⊢
  cases hst : l.stage with
  | waiting next =>
    rw [hst] at h
    exact ⟨h.1, h.2.1, h.2.2.mono (max_le_max_left _ hle)⟩
  | held | deferring | sending =>
    rw [hst] at h
    exact ⟨h.1, h.2.1, h.2.2.mono hle⟩
  | _ => rwa [hst] at h

theorem lawful_step {l' : Life} {now : Int} (h : l.Lawful base now) (hs : LifeStep base now l l') :
    l'.Lawful base now := by
  unfold Lawful at h
  cases hs with
  | insert next hst =>
    rw [hst] at h
    obtain ⟨rfl, hf, hst, hsu, hau, hnb⟩ := h
    refine ⟨⟨by simp [hf], by simp [hf, hst], hsu, hau⟩, by simp [hf, maxAttempts], ?_⟩
    intro b hb
    exact absurd hb (by simp [hnb])
  | pause next next' hst hle =>
    rw [hst] at h
    exact ⟨h.1, h.2.1, hle⟩
  | drop next hst =>
    rw [hst] at h
    exact ⟨h.1, h.2.1⟩
  | claim next hst hle =>
    rw [hst] at h
    exact ⟨h.1, h.2.1, h.2.2.mono (max_le hle (le_refl _))⟩
  | defer next hst =>
    rw [hst] at h
    exact h
  | start hst =>
    rw [hst] at h
    obtain ⟨⟨h1, h2, h3, h4⟩, hlt, hall⟩ := h
    exact ⟨⟨h1, by simp [h2], h3, h4⟩, hlt, hall⟩
  | succeed hst =>
    rw [hst] at h
    obtain ⟨⟨h1, h2, h3, h4⟩, hlt, -⟩ := h
    exact ⟨⟨h1, h2, by simp [h3], h4⟩, hlt⟩
  | giveUp hst hmax =>
    rw [hst] at h
    obtain ⟨⟨h1, h2, h3, h4⟩, hlt, -⟩ := h
    refine ⟨⟨?_, h2, h3, h4⟩, ?_⟩
    · show l.attempts + 1 = base + (l.failures + 1)
      omega
    · show base + (l.failures + 1) = maxAttempts
      omega
  | retry hst hmax =>
    rw [hst] at h
    obtain ⟨⟨h1, h2, h3, h4⟩, hlt, hall⟩ := h
    have heq : l.attempts = base + l.failures := by omega
    have hpos : 0 ≤ backoffBaseSeconds * 2 ^ l.attempts := by
      unfold backoffBaseSeconds
      positivity
    refine ⟨⟨?_, h2, h3, h4⟩, ?_, ?_⟩
    · show l.attempts + 1 = base + (l.failures + 1)
      omega
    · show base + (l.failures + 1) < maxAttempts
      omega
    · intro b hb
      rcases List.mem_cons.mp hb with rfl | hb
      · rw [heq]
      · have := hall b hb
        omega
  | putBack next hst =>
    rw [hst] at h
    exact ⟨h.1, h.2.1, h.2.2.mono (le_max_right _ _)⟩
  | record next hst =>
    rw [hst] at h
    obtain ⟨⟨h1, h2, h3, h4⟩, hlt, hall⟩ := h
    exact ⟨⟨by simp [h1], h2, h3, h4⟩, hlt, hall.mono (le_max_left _ _)⟩
  | audit hst =>
    rw [hst] at h
    obtain ⟨⟨h1, h2, h3, h4⟩, heq⟩ := h
    exact ⟨⟨h1, h2, h3, by simp [h4]⟩, heq⟩

/-! What the books say at any time. -/

/-- A lawful life has room for at most `maxAttempts` transmissions. -/
theorem Lawful.starts_le {now : Int} (h : l.Lawful base now) : base + l.starts ≤ maxAttempts := by
  unfold Lawful Books at h
  split at h
  · simp only [maxAttempts]
    omega
  · omega
  · omega
  · omega
  · omega
  · omega
  · omega
  · omega
  · omega
  · omega
  · exact h.elim

/-- While the row can still be sent. -/
theorem Lawful.of_open {now : Int} (h : l.Lawful base now) (hopen : l.stage.isOpen = true) :
    l.successes = 0 ∧ l.audits = 0 ∧ base + l.failures < maxAttempts ∧
      ((∀ n, l.stage ≠ .recording n) → l.attempts = base + l.failures) := by
  unfold Lawful Books at h
  cases hst : l.stage with
  | recording next =>
    rw [hst] at h
    obtain ⟨⟨-, -, hs, ha⟩, hlt, -⟩ := h
    exact ⟨hs, ha, hlt, fun hne => absurd rfl (hne next)⟩
  | waiting | held | deferring | sending =>
    rw [hst] at h
    obtain ⟨⟨hk, -, hs, ha⟩, hlt, -⟩ := h
    exact ⟨hs, ha, hlt, fun _ => hk⟩
  | _ =>
    rw [hst] at hopen
    cases hopen

end Life

end Bbs
