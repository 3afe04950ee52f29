import MeshcoreBbs.Operations

/-!
# The rate limiter (`rate_limit.py`)

`consume` is the decision on one window; `run_checkAndConsume` says what
`check_and_consume` does to the table.
-/

namespace Bbs

structure RateLimit where
  limit : Int
  windowSeconds : Int
  deriving DecidableEq

structure Decision where
  allowed : Bool
  retryInSeconds : Int := 0
  deriving DecidableEq

namespace RateLimiter

/-- `max(1, window_seconds - (now - window_start))`. -/
def retryIn (limit : RateLimit) (now windowStart : Int) : Int :=
  max 1 (limit.windowSeconds - (now - windowStart))

def checkAndConsume (pubkey : Pubkey) (bucket : Text) (limit : RateLimit) : Prog Decision := do
  let now := ⌊← call .time⌋
  match ← call (.getRateWindow pubkey bucket) with
  | none =>
    call (.setRateWindow pubkey bucket ⟨now, 1⟩)
    pure { allowed := true }
  | some ⟨windowStart, count⟩ =>
    if limit.windowSeconds ≤ now - windowStart then
      call (.setRateWindow pubkey bucket ⟨now, 1⟩)
      pure { allowed := true }
    else if limit.limit < count + 1 then
      pure { allowed := false, retryInSeconds := retryIn limit now windowStart }
    else
      call (.setRateWindow pubkey bucket ⟨windowStart, count + 1⟩)
      pure { allowed := true }

/-- The decision on a call, and the window stored after it. -/
def consume (limit : RateLimit) (now : Int) : Option RateWindow → Decision × RateWindow
  | none => ({ allowed := true }, ⟨now, 1⟩)
  | some ⟨windowStart, count⟩ =>
    if limit.windowSeconds ≤ now - windowStart then ({ allowed := true }, ⟨now, 1⟩)
    else if limit.limit < count + 1 then
      ({ allowed := false, retryInSeconds := retryIn limit now windowStart }, ⟨windowStart, count⟩)
    else ({ allowed := true }, ⟨windowStart, count + 1⟩)

theorem setRate_self {w : World} {pubkey : Pubkey} {bucket : Text} {window : RateWindow}
    (h : w.rates pubkey bucket = some window) : w.setRate pubkey bucket window = w.rates := by
  unfold World.setRate
  rw [← h, Function.update_eq_self, Function.update_eq_self]

theorem run_checkAndConsume (py : Py) (pubkey : Pubkey) (bucket : Text) (limit : RateLimit)
    (w : World) :
    (checkAndConsume pubkey bucket limit).run (Op.run py) w =
      (some (consume limit w.now (w.rates pubkey bucket)).1, { w with
        rates := w.setRate pubkey bucket (consume limit w.now (w.rates pubkey bucket)).2 }) := by
  unfold checkAndConsume
  cases h : w.rates pubkey bucket with
  | none => simp [Op.run, consume, h, World.now]
  | some window =>
    obtain ⟨windowStart, count⟩ := window
    simp only [Coroutine.run_bind, Coroutine.run_perform, Op.run, Option.elim_some, h, consume,
      World.now]
    split
    · next hexpired => simp [Op.run, hexpired]
    · split
      · simp [setRate_self h]
      · simp [Op.run]

end RateLimiter

end Bbs
