import MeshcoreBbs.Dispatcher

/-!
# Limits consumed one after the other

`run_consumeAll` says what the limits of a command do to the windows of its sender.
-/

namespace Bbs

open Coroutine RateLimiter

/-- The windows of one user. -/
abbrev Windows := Text → Option RateWindow

/-- The first refusal among the limits, and the windows after it. -/
def consumeWindows (now : Int) : List (Text × RateLimit) → Windows → Option Decision × Windows
  | [], windows => (none, windows)
  | (bucket, limit) :: limits, windows =>
    let consumed := consume limit now (windows bucket)
    let windows := Function.update windows bucket (some consumed.2)
    if consumed.1.allowed then consumeWindows now limits windows else (some consumed.1, windows)

theorem run_consumeAll (py : Py) (pk : Pubkey) (limits : List (Text × RateLimit)) (w : World) :
    (Dispatcher.consumeAll pk limits).run (Op.run py) w =
      (some (consumeWindows w.now limits (w.rates pk)).1,
        { w with rates := Function.update w.rates pk (consumeWindows w.now limits (w.rates pk)).2 }) := by
  induction limits generalizing w with
  | nil => simp [Dispatcher.consumeAll, consumeWindows]
  | cons limit limits ih =>
    obtain ⟨bucket, limit⟩ := limit
    rw [Dispatcher.consumeAll, run_bind_of_some (run_checkAndConsume py pk bucket limit w),
      consumeWindows]
    cases (consume limit w.now (w.rates pk bucket)).1.allowed with
    | true =>
      rw [if_pos rfl, if_pos rfl, ih]
      simp [World.setRate, World.now]
    | false => rfl

/-- Limits with different buckets do not see each other. -/
theorem consumeWindows_eq_none_iff {now : Int} {limits : List (Text × RateLimit)} {windows : Windows}
    (hbuckets : (limits.map Prod.fst).Nodup) : (consumeWindows now limits windows).1 = none ↔
      ∀ limit ∈ limits, (consume limit.2 now (windows limit.1)).1.allowed = true := by
  induction limits generalizing windows with
  | nil => exact iff_of_true rfl (List.forall_mem_nil _)
  | cons limit limits ih =>
    obtain ⟨bucket, limit⟩ := limit
    obtain ⟨hbucket, hbuckets⟩ := List.nodup_cons.mp hbuckets
    have hothers (window : Option RateWindow) : ∀ other ∈ limits,
        Function.update windows bucket window other.1 = windows other.1 := by
      intro other hmem
      exact Function.update_of_ne (fun heq => hbucket (List.mem_map.mpr ⟨other, hmem, heq⟩)) ..
    rw [consumeWindows, List.forall_mem_cons]
    dsimp only
    split
    · next hallowed =>
      rw [ih hbuckets, and_iff_right hallowed]
      exact forall₂_congr fun other hmem => by rw [hothers _ other hmem]
    · next hrefused => exact iff_of_false nofun fun h => hrefused h.1

/-- Nothing but the buckets of the limits is written. -/
theorem consumeWindows_of_notMem {now : Int} {limits : List (Text × RateLimit)} {windows : Windows}
    {bucket : Text} (h : bucket ∉ limits.map Prod.fst) :
    (consumeWindows now limits windows).2 bucket = windows bucket := by
  induction limits generalizing windows with
  | nil => rfl
  | cons limit limits ih =>
    obtain ⟨bucket', limit⟩ := limit
    rw [List.map_cons, List.mem_cons, not_or] at h
    have hother (window : Option RateWindow) :
        Function.update windows bucket' window bucket = windows bucket :=
      Function.update_of_ne h.1 ..
    rw [consumeWindows]
    split
    · exact (ih h.2).trans (hother _)
    · exact hother _

/-- Nothing but the buckets of the limits is read. -/
theorem consumeWindows_congr {now : Int} {limits : List (Text × RateLimit)} {windows windows' : Windows}
    {p : Text → Prop} (hlimits : ∀ limit ∈ limits, p limit.1)
    (h : ∀ bucket, p bucket → windows' bucket = windows bucket) :
    (consumeWindows now limits windows').1 = (consumeWindows now limits windows).1 ∧
      ∀ bucket, p bucket →
        (consumeWindows now limits windows').2 bucket = (consumeWindows now limits windows).2 bucket := by
  induction limits generalizing windows windows' with
  | nil => exact ⟨rfl, h⟩
  | cons limit limits ih =>
    obtain ⟨bucket', limit⟩ := limit
    obtain ⟨hbucket, hlimits⟩ := List.forall_mem_cons.mp hlimits
    have hupdate (window : Option RateWindow) (bucket : Text) (hp : p bucket) :
        Function.update windows' bucket' window bucket =
          Function.update windows bucket' window bucket := by
      unfold Function.update
      split
      · rfl
      · exact h bucket hp
    simp only [consumeWindows]
    rw [h bucket' hbucket]
    split
    · exact ih hlimits (hupdate _)
    · exact ⟨rfl, hupdate _⟩

end Bbs
