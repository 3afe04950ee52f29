import MeshcoreBbs.Mail

/-!
# The mail table (`db.py`, mail section)

One function for each statement; `add_mail` is in the module on sending.  SQLite leaves the
order of rows that tie in `ORDER BY` open; here they stay in the order of their ids.
-/

namespace Bbs

structure Mail extends MailRow where
  id : Nat
  deriving DecidableEq

def mailFromRow (p : Nat × MailRow) : Mail := { p.2 with id := p.1 }

namespace Store

variable (store : Store)

/-- `ORDER BY (read_at IS NOT NULL) ASC, sent_at DESC`. -/
def listedBefore (a b : Nat × MailRow) : Bool :=
  (a.2.readAt.isNone && b.2.readAt.isSome) ||
    (a.2.readAt.isSome == b.2.readAt.isSome && b.2.sentAt ≤ a.2.sentAt)

/-- `to_pubkey = ? AND deleted = 0`. -/
def visible (pk : Pubkey) (row : MailRow) : Bool := row.toPubkey = pk && !row.deleted

/-- The whole list, which `list_mail` cuts into pages. -/
def inbox (pk : Pubkey) : List (Nat × MailRow) :=
  (store.mail.rows.filter fun p => visible pk p.2).insertionSort fun a b => listedBefore a b = true

def listMail (pk : Pubkey) (limit offset : Nat) : List Mail :=
  (((store.inbox pk).drop offset).take limit).map mailFromRow

def getMail (id : Nat) (viewer : Pubkey) : Option Mail :=
  ((store.mail.get? id).filter (visible viewer)).map fun row => mailFromRow (id, row)

theorem visible_iff {pk : Pubkey} {row : MailRow} :
    visible pk row = true ↔ row.toPubkey = pk ∧ row.deleted = false := by
  rw [visible, Bool.and_eq_true, decide_eq_true_iff, Bool.not_eq_true']

theorem getMail_eq_some_iff {id : Nat} {viewer : Pubkey} {m : Mail} :
    store.getMail id viewer = some m ↔ ∃ row, store.mail.get? id = some row ∧
      (row.toPubkey = viewer ∧ row.deleted = false) ∧ mailFromRow (id, row) = m := by
  simp only [getMail, Option.map_eq_some_iff, Option.filter_eq_some_iff, visible_iff, and_assoc]

def markMailRead (id : Nat) (now : Int) : Store :=
  { store with mail := store.mail.modify id fun row =>
      if row.readAt.isNone then { row with readAt := some now } else row }

/-- The row count tells whether the mail was there. -/
def deleteMail (id : Nat) (viewer : Pubkey) : Store × Bool :=
  ({ store with mail := store.mail.modify id fun row =>
      if row.toPubkey = viewer then { row with deleted := true } else row },
    (store.mail.get? id).any fun row => row.toPubkey = viewer)

/-- `read_at IS NULL AND deleted = 0`. -/
def unread (row : MailRow) : Bool := row.readAt.isNone && !row.deleted

def countUnread (pk : Pubkey) : Nat :=
  (store.mail.rows.filter fun p => p.2.toPubkey = pk && unread p.2).length

def countTotalMail (pk : Pubkey) : Nat := (store.mail.rows.filter fun p => visible pk p.2).length

/-- `SELECT DISTINCT` goes through `idx_mail_to_unread`, in the order of the keys. -/
def usersWithUnreadMail : List Pubkey :=
  ((store.mail.rows.filter fun p => unread p.2).map fun p => p.2.toPubkey).dedup.insertionSort
    fun a b => a ≤ b

def purgeOldReadMail (beforeTs : Int) : Store :=
  { store with mail := store.mail.filterRows fun _ row => !row.readAt.any (· < beforeTs) }

end Store

end Bbs
