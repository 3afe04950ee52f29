import MeshcoreBbs.Format
import MeshcoreBbs.Operations

/-!
# The services (`services/*.py`, `onboarding.py`)

`Services` is what they hold since the start of the process: their sections of the
configuration of that time.
-/

namespace Bbs

open Coroutine

structure Services where
  py : Py
  /-- `AdminService.bbs_cfg` -/
  bbs : BBSConfig := {}
  /-- `MailService.cfg` -/
  mail : MailConfig := {}
  /-- `WeatherService.cfg` -/
  weather : WeatherConfig := {}
  maxBodyChars : Int := 200
  selfPubkey : Pubkey := []
  version : Text := []
  startedAt : Int := 0

/-- `name or default`. -/
def orText (name : Option Text) (default : Text) : Text :=
  match name with
  | none => default
  | some [] => default
  | some (c :: name) => c :: name

/-- `f"\"{slug}\""`. -/
def quoted (slug : Text) : Text := lit "\"" ++ slug ++ lit "\""

/-- `truncate` with its default ellipsis. -/
def shorten (s : Text) (maxChars : Nat) : Text := Format.truncate s maxChars (lit "...")

namespace Services

variable (sv : Services)

/-! ## `AdminService` -/

def isAdmin (pubkey : Pubkey) : Bool :=
  (sv.bbs.adminPubkeys.map sv.py.lower).contains (sv.py.lower pubkey)

/-- `! No user matching ...`. -/
def noUserMatching (targetPrefix : Text) : Text := lit "! No user matching " ++ targetPrefix

def ban (actorPk : Pubkey) (targetPrefix reason : Text) : Prog Text := do
  match ← call (.getUserByPrefix targetPrefix) with
  | none => pure (noUserMatching targetPrefix)
  | some target =>
    if target.pubkey = actorPk then pure (lit "! Cannot ban self.")
    else
      call (.setBanned target.pubkey true (if reason = [] then none else some reason))
      call (.audit (some actorPk) (lit "ban")
        (lit "target=" ++ target.pubkey.take 12 ++ lit " reason=" ++ reason))
      pure (lit "OK banned " ++ orText target.displayName (target.pubkey.take 8))

def unban (actorPk : Pubkey) (targetPrefix : Text) : Prog Text := do
  match ← call (.getUserByPrefix targetPrefix) with
  | none => pure (noUserMatching targetPrefix)
  | some target =>
    call (.setBanned target.pubkey false none)
    call (.audit (some actorPk) (lit "unban") (lit "target=" ++ target.pubkey.take 12))
    pure (lit "OK unbanned " ++ orText target.displayName (target.pubkey.take 8))

def stageBroadcast (actorPk : Pubkey) (text : Text) : Prog Text := do
  let now := ⌊← call .time⌋
  call (.setPending actorPk ⟨text, now⟩)
  pure (lit "Will send to ALL users (" ++ decimal text.length ++ lit " chars). " ++
    lit "Confirm with: ADMIN BROADCAST CONFIRM")

/-- The answer, the recipients and the text. -/
def confirmBroadcast (actorPk : Pubkey) : Prog (Text × List Pubkey × Text) := do
  match ← call (.popPending actorPk) with
  | none => pure (lit "! No pending broadcast.", [], [])
  | some pending =>
    let now := ⌊← call .time⌋
    if 120 < now - pending.createdAt then pure (lit "! Confirmation expired (>2 min).", [], [])
    else
      let recipients ← call .allUserPubkeys
      call (.audit (some actorPk) (lit "broadcast")
        (lit "recipients=" ++ decimal recipients.length ++ lit " chars=" ++
          decimal pending.text.length))
      pure (lit "OK broadcasting to " ++ decimal recipients.length ++ lit " users.", recipients,
        pending.text)

/-! ## `BoardsService` -/

/-- `^[a-z0-9_-]{1,16}$`; `$` also matches before a last newline. -/
def isSlug (slug : Text) : Bool :=
  let slug := if slug.getLast? = some '\n' then slug.dropLast else slug
  1 ≤ slug.length && slug.length ≤ 16 &&
    slug.all fun c => c.isLower || c.isDigit || c == '_' || c == '-'

def postsPerPage : Nat := 5

def boardNotFound (slug : Text) : Text :=
  lit "! Board " ++ quoted slug ++ lit " not found. Try: BOARDS"

def listText : Prog Text := do
  let boards ← call .listBoards
  if boards = [] then pure (lit "No boards yet.")
  else
    pure (joinLines (boards.map fun b =>
      if b.description = [] then b.slug else b.slug ++ lit ": " ++ shorten b.description 60))

/-- The name of a sender or an author. -/
def nameOf (pk : Pubkey) : Prog Text := do
  let user ← call (.getUser pk)
  pure (orText (user.bind User.displayName) (pk.take 8))

def renderPost (p : Nat × BoardPostRow) : Prog Text := do
  let name ← nameOf p.2.authorPubkey
  pure (lit "[" ++ decimal p.1 ++ lit "] " ++ name ++ lit ": " ++ shorten p.2.body 120)

def readText (slug : Text) (page : Nat) : Prog Text := do
  let slug := sv.py.lower slug
  match ← call (.getBoard slug) with
  | none => pure (boardNotFound slug)
  | some _ =>
    let posts ← call (.listPosts slug postsPerPage ((page - 1) * postsPerPage))
    if posts = [] then
      pure (slug ++ if page = 1 then lit ": no posts." else lit ": no more posts.")
    else
      let lines ← collect renderPost posts
      let text := joinLines lines
      if posts.length = postsPerPage then
        pure (text ++ lit "\n[more: READ " ++ slug ++ lit " " ++ decimal (page + 1) ++ lit "]")
      else pure text

def stripControlChars (s : Text) : Text := s.filter fun c => c = '\n' || c = '\t' || 0x20 ≤ c.toNat

def post (slug : Text) (authorPk : Pubkey) (body : Text) : Prog Text := do
  let slug := sv.py.lower slug
  if !isSlug slug then pure (lit "! Bad board name.")
  else
    match ← call (.getBoard slug) with
    | none => pure (boardNotFound slug)
    | some _ =>
      let body := strip body
      if body = [] then pure (lit "! Empty post.")
      else if sv.maxBodyChars < body.length then
        pure (lit "! Too long, max " ++ decimalInt sv.maxBodyChars ++ lit " chars")
      else
        let body := stripControlChars body
        let now := ⌊← call .time⌋
        let postId ← call (.addPost slug authorPk body now)
        pure (lit "OK [id=" ++ decimal postId ++ lit "]")

def addBoard (slug description : Text) : Prog Text := do
  let slug := sv.py.lower slug
  if !isSlug slug then pure (lit "! Bad board name. Use [a-z0-9_-], 1-16 chars.")
  else
    match ← call (.getBoard slug) with
    | some _ => pure (lit "! Board " ++ quoted slug ++ lit " exists.")
    | none =>
      let now := ⌊← call .time⌋
      call (.addBoard slug (strip description) now)
      pure (lit "OK [board=" ++ slug ++ lit "]")

def deleteBoard (slug : Text) : Prog Text := do
  let slug := sv.py.lower slug
  match ← call (.getBoard slug) with
  | none => pure (lit "! Board " ++ quoted slug ++ lit " not found.")
  | some _ =>
    call (.deletePostsOf (sv.py.lower slug))
    call (.deleteBoard (sv.py.lower slug))
    pure (lit "OK [board=" ++ slug ++ lit " deleted]")

/-! ## `MailService` -/

def inboxPageSize : Nat := 5

def previewChars : Nat := 40

/-- The pubkey-prefix fallback of `resolve_recipient`. -/
def resolveByPrefix (identifier : Text) : Prog RecipientResolution := do
  let cleaned := sv.py.lower identifier
  if MailService.isKeyPrefix cleaned then
    match ← call (.getUserByPrefix cleaned) with
    | some byPrefix => pure (if byPrefix.eligible then { user := some byPrefix } else {})
    | none => pure {}
  else pure {}

/-- The stages of `resolve_recipient` after the exact name. -/
def resolveLoosely (identifier : Text) : Prog RecipientResolution := do
  match ← call (.findUsersByNameSubstring identifier) with
  | [] => sv.resolveByPrefix identifier
  | [user] => pure { user := some user }
  | partials =>
    pure { ambiguousNames := some ((partials.filterMap User.displayName).filter fun n => n ≠ []) }

def resolveRecipient (identifier : Text) : Prog RecipientResolution := do
  if identifier = [] then pure {}
  else
    match ← call (.getUserByName identifier) with
    | some byName =>
      if byName.eligible then pure { user := some byName } else sv.resolveLoosely identifier
    | none => sv.resolveLoosely identifier

/-- `send`: whether it stored the mail, the reply, and the recipient. -/
def send (fromPk : Pubkey) (recipientId body : Text) : Prog (Bool × Text × Option User) := do
  let resolution ← sv.resolveRecipient recipientId
  let names := resolution.ambiguousNames.getD []
  if names ≠ [] then pure (false, MailService.ambiguous names, none)
  else
    match resolution.user with
    | none => pure (false, lit "! No such user.", none)
    | some recipient =>
      let body := strip body
      if body = [] then pure (false, lit "! Empty mail.", none)
      else if sv.maxBodyChars < body.length then
        pure (false, lit "! Too long, max " ++ decimalInt sv.maxBodyChars ++ lit " chars", none)
      else
        let now := ⌊← call .time⌋
        let mailId ← call (.addMail fromPk recipient.pubkey body now)
        pure (true, lit "OK [mail=" ++ decimal mailId ++ lit "]", some recipient)

def countsText (viewerPk : Pubkey) : Prog Text := do
  let unread ← call (.countUnread viewerPk)
  let total ← call (.countTotalMail viewerPk)
  pure (lit "Mail: " ++ decimal unread ++ lit " unread, " ++ decimal total ++ lit " total.")

def inboxLine (m : Mail) : Prog Text := do
  let sname ← nameOf m.fromPubkey
  let unreadMark := if m.readAt.isNone then lit "*" else lit " "
  pure (unreadMark ++ lit "[" ++ decimal m.id ++ lit "] " ++ sname ++ lit ": " ++
    shorten m.body previewChars)

/-- What `inbox_text` makes of the mails of a page. -/
def renderInbox (page : Nat) (mails : List Mail) : Prog Text := do
  if mails = [] then pure (if page = 1 then lit "Inbox empty." else lit "No more mail.")
  else
    let lines ← collect inboxLine mails
    let text := joinLines lines
    if mails.length = inboxPageSize then
      pure (text ++ lit "\n[more: INBOX " ++ decimal (page + 1) ++ lit "]")
    else pure text

/-- `max(0, (page - 1) * INBOX_PAGE_SIZE)`. -/
def inboxOffset (page : Nat) : Nat := (page - 1) * inboxPageSize

def inboxText (viewerPk : Pubkey) (page : Nat) : Prog Text := do
  let mails ← call (.listMail viewerPk inboxPageSize (inboxOffset page))
  renderInbox page mails

def mailNotFound : Text := lit "! Mail not found."

def readMail (viewerPk : Pubkey) (mailId : Nat) : Prog Text := do
  match ← call (.getMail mailId viewerPk) with
  | none => pure mailNotFound
  | some m =>
    let sname ← nameOf m.fromPubkey
    let now := ⌊← call .time⌋
    call (.markMailRead mailId now)
    pure (lit "From " ++ sname ++ lit ":\n" ++ m.body)

def deleteMail (viewerPk : Pubkey) (mailId : Nat) : Prog Text := do
  let ok ← call (.deleteMail mailId viewerPk)
  pure (if ok then lit "OK [mail=" ++ decimal mailId ++ lit " deleted]" else mailNotFound)

def isOnline (user : User) (now : Int) : Bool :=
  now - user.lastSeen ≤ sv.mail.onlineThresholdSeconds

/-- Not notified for `notify_min_interval_seconds`. -/
def due (last : Option ℚ) (now : ℚ) : Bool :=
  !(now - last.getD 0 < sv.mail.notifyMinIntervalSeconds)

def shouldNotify (recipientPk : Pubkey) (now : ℚ) : Prog Bool := do
  let last ← call (.getLastNotifyAt recipientPk)
  if sv.due last now then
    call (.setLastNotifyAt recipientPk now)
    pure true
  else pure false

def purgeOldRead : Prog Unit := do
  if sv.mail.readRetentionDays ≤ 0 then pure ()
  else
    let cutoff := ⌊← call .time⌋ - sv.mail.readRetentionDays * 86400
    call (.purgeOldReadMail cutoff)

/-! ## `WeatherService` -/

def weatherKey : Text := lit "obs:default"

def fetchSummary (now : Int) : Prog Text := do
  match ← call .fetchWeather with
  | none => pure (lit "! Weather lookup failed.")
  | some data =>
    call (.setWeatherCache weatherKey data now)
    match Weather.formatSummary sv.py data sv.weather.locationName with
    | some text => pure text
    | none => raise

/-- The summary of a cached document that is fresh and can be formatted. -/
def cachedSummary (cached : Option (Json × Int)) (now : Int) : Option Text :=
  match cached with
  | none => none
  | some (payload, fetchedAt) =>
    if now - fetchedAt < sv.weather.cacheObservationSeconds then
      Weather.formatSummary sv.py payload sv.weather.locationName
    else none

/-- `summary_for`; it takes a location and does not use it. -/
def summaryFor : Prog Text := do
  let now := ⌊← call .time⌋
  let cached ← call (.getWeatherCache weatherKey)
  match sv.cachedSummary cached now with
  | some text => pure text
  | none => sv.fetchSummary now

/-! ## `onboarding.py` -/

def welcomeText (bbsName : Text) : Text :=
  lit "Welcome to " ++ bbsName ++ lit ".\n" ++ lit "Choose a display name (" ++
    decimal Names.nameMin ++ lit "-" ++ decimal Names.nameMax ++
    lit " chars, A-Z 0-9 _ - emoji).\n" ++ lit "Reply: NAME <yourname>"

/-- Its two callers use the reply only. -/
def trySetName (pubkey : Pubkey) (name : Text) : Prog Text := do
  match Names.validateName sv.py.lower name with
  | some err => pure err
  | none =>
    let ok ← call (.setDisplayName pubkey name)
    if !ok then pure (lit "! Name taken")
    else
      call (.audit (some pubkey) (lit "onboarded") (lit "name=" ++ name))
      call (.markMotdSent pubkey)
      pure (lit "OK, you are " ++ name ++ lit ". Try HELP for commands.")

end Services

end Bbs
