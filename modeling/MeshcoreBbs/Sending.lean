import MeshcoreBbs.Operations
import MeshcoreBbs.Services

/-!
# `MailService.send` as a program

In one go, `Services.send` is the function `MailService.send` on the tables (`run_send`).
-/

namespace Bbs

open Coroutine

namespace Services

variable {sv : Services} {w : World} {identifier body : Text} {pk : Pubkey}

theorem run_resolveByPrefix : (sv.resolveByPrefix identifier).run (Op.run sv.py) w =
    (some (MailService.resolveByPrefix sv.py.lower w.users identifier), w) := by
  have hget : (call (.getUserByPrefix (sv.py.lower identifier))).run (Op.run sv.py) w =
    (some (w.users.getUserByPrefix sv.py.lower (sv.py.lower identifier)), w) := rfl
  unfold Services.resolveByPrefix MailService.resolveByPrefix
  dsimp only
  by_cases hkey : MailService.isKeyPrefix (sv.py.lower identifier) = true
  · rw [if_pos hkey, if_pos hkey, run_bind_of_some hget]
    cases w.users.getUserByPrefix sv.py.lower (sv.py.lower identifier) with
    | none => rfl
    | some byPrefix => rfl
  · rw [if_neg hkey, if_neg hkey]
    rfl

theorem run_resolveLoosely : (sv.resolveLoosely identifier).run (Op.run sv.py) w =
    (some (MailService.resolveLoosely sv.py.lower w.users identifier), w) := by
  have hfind : (call (.findUsersByNameSubstring identifier)).run (Op.run sv.py) w =
    (some (w.users.findUsersByNameSubstring sv.py.lower identifier), w) := rfl
  unfold Services.resolveLoosely MailService.resolveLoosely
  rw [run_bind_of_some hfind]
  rcases w.users.findUsersByNameSubstring sv.py.lower identifier with _ | ⟨u, _ | ⟨v, us⟩⟩
  · exact run_resolveByPrefix
  · rfl
  · rfl

theorem run_resolveRecipient : (sv.resolveRecipient identifier).run (Op.run sv.py) w =
    (some (MailService.resolveRecipient sv.py.lower w.users identifier), w) := by
  have hfind : (call (.getUserByName identifier)).run (Op.run sv.py) w =
    (some (w.users.getUserByName sv.py.lower identifier), w) := rfl
  unfold Services.resolveRecipient MailService.resolveRecipient
  by_cases hempty : identifier = []
  · rw [if_pos hempty, if_pos hempty]
    rfl
  · rw [if_neg hempty, if_neg hempty, run_bind_of_some hfind]
    cases w.users.getUserByName sv.py.lower identifier with
    | none => exact run_resolveLoosely
    | some byName =>
      dsimp only
      by_cases helig : byName.eligible = true
      · rw [if_pos helig, if_pos helig]
        rfl
      · rw [if_neg helig, if_neg helig]
        exact run_resolveLoosely

/-- What `send` returns, as the dispatcher takes it. -/
def asTuple (reply : MailService.Reply) : Bool × Text × Option User :=
  (reply.ok, reply.text, reply.recipient)

/-- **The program is the function.** -/
theorem run_send : (sv.send pk identifier body).run (Op.run sv.py) w =
    ((MailService.send sv.py.lower sv.maxBodyChars w.toStore pk identifier body w.now).1.map asTuple,
      { w with toStore :=
        (MailService.send sv.py.lower sv.maxBodyChars w.toStore pk identifier body w.now).2 }) := by
  unfold Services.send MailService.send
  rw [run_bind_of_some run_resolveRecipient]
  dsimp only
  by_cases hnames : (MailService.resolveRecipient sv.py.lower w.users identifier).ambiguousNames.getD [] ≠ []
  · simp only [if_pos hnames]
    rfl
  simp only [if_neg hnames]
  cases (MailService.resolveRecipient sv.py.lower w.users identifier).user with
  | none => rfl
  | some recipient =>
    dsimp only
    by_cases hempty : strip body = []
    · simp only [if_pos hempty]
      rfl
    simp only [if_neg hempty]
    by_cases hlong : sv.maxBodyChars < (strip body).length
    · simp only [if_pos hlong]
      rfl
    simp only [if_neg hlong]
    have htime : (call .time).run (Op.run sv.py) w = (some w.clock, w) := rfl
    have hadd : (call (.addMail pk recipient.pubkey (strip body) w.now)).run (Op.run sv.py) w =
        (Op.addMail pk recipient.pubkey (strip body) w.now).run sv.py w := rfl
    rw [run_bind_of_some htime]
    show Coroutine.run (Op.run sv.py) (call (.addMail pk recipient.pubkey (strip body) w.now) >>= _) w = _
    rw [run_bind, hadd, Op.run]
    rcases w.addMail pk recipient.pubkey (strip body) w.now with _ | ⟨store, id⟩ <;> rfl

end Services

end Bbs
