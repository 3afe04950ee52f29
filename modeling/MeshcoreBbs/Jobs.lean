import MeshcoreBbs.Dispatcher

/-!
# Scheduled jobs and dashboard requests (`scheduler.py`, `dashboard.py`)

The jobs and routes that use the tables of the world.  The queue actions of the dashboard
are in the module on the requests to the outbound tables; the news refresh is left to the
world outside.
-/

namespace Bbs

open Coroutine

namespace Scheduler

variable (sv : Services)

/-- `mail_notify_job` for one recipient. -/
def notifyUser (now : Int) (pk : Pubkey) : Prog Unit := do
  match ← call (.getUser pk) with
  | none => pure ()
  | some user =>
    if !user.onboarded || !sv.isOnline user now then pure ()
    else
      let notify ← sv.shouldNotify pk now
      if !notify then pure ()
      else
        let unread ← call (.countUnread pk)
        Dispatcher.push .newMail pk (Dispatcher.newMailText unread)

def mailNotifyJob : Prog Unit := do
  let recipients ← call .usersWithUnreadMail
  let now := ⌊← call .time⌋
  forEach (notifyUser sv now) recipients

def wxJob : Prog Unit := do
  let _ ← sv.summaryFor

def auditPruneJob : Prog Unit := do
  let cutoff := ⌊← call .time⌋ - 90 * 86400
  call (.purgeOldAudit cutoff)
  sv.purgeOldRead

end Scheduler

namespace Dashboard

variable (sv : Services)

/-- `_boards_error(reply)` is not `None`. -/
def isError (reply : Text) : Bool := (lit "!").isPrefixOf reply

def apiBoardsCreate (slug description : Text) : Prog Unit := do
  let slug := strip slug
  if slug = [] then pure ()
  else
    let reply ← sv.addBoard slug description
    if isError reply then pure ()
    else call (.audit none (lit "board_add")
      (lit "slug=" ++ sv.py.lower slug ++ lit " source=dashboard"))

def apiBoardsDelete (slug : Text) : Prog Unit := do
  let slug := sv.py.lower slug
  if slug = [] then pure ()
  else
    let reply ← sv.deleteBoard slug
    if isError reply then pure ()
    else call (.audit none (lit "board_del") (lit "slug=" ++ slug ++ lit " source=dashboard"))

def apiBoardPostsCreate (slug authorPubkey body : Text) : Prog Unit := do
  let slug := sv.py.lower slug
  let authorPubkey := strip authorPubkey
  if authorPubkey = [] then pure ()
  else
    match ← call (.getUser authorPubkey) with
    | none => pure ()
    | some _ =>
      let reply ← sv.post slug authorPubkey body
      if isError reply then pure ()
      else
        let postId := (reply.drop (lit "OK [id=").length).dropLast
        call (.audit none (lit "board_post")
          (lit "slug=" ++ slug ++ lit " id=" ++ postId ++ lit " author=" ++ authorPubkey.take 12))

def apiBoardPostsDelete (slug : Text) (postId : Nat) : Prog Unit := do
  let slug := sv.py.lower slug
  match ← call (.getPost postId) with
  | none => pure ()
  | some post =>
    if post.deleted || post.boardSlug ≠ slug then pure ()
    else
      let ok ← call (.deletePost postId)
      if !ok then pure ()
      else call (.audit none (lit "board_post_del") (lit "slug=" ++ slug ++ lit " id=" ++
        decimal postId))

def apiAdvert : Prog Unit := do
  call .sendAdvert
  call (.audit none (lit "advert") (lit "source=dashboard flood=1"))

end Dashboard

end Bbs
