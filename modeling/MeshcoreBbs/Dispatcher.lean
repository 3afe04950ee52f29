import MeshcoreBbs.Commands
import MeshcoreBbs.OutboundRequests
import MeshcoreBbs.RateLimit
import MeshcoreBbs.Services

/-!
# The dispatcher (`dispatcher.py`)

`handleCommand` is `dispatch` inside the `try` of `_handle_command`: when `dispatch` raises,
the sender reads `! Internal error.`.
-/

namespace Bbs

open Coroutine RateLimiter

/-- A decrypted direct message. -/
structure InboundMessage where
  pubkey : Pubkey
  advName : Option Text := none
  body : Text
  hops : Option Int := none
  path : List Text := []
  deriving DecidableEq

namespace Dispatcher

/-! ## Texts -/

/-- `display_name or adv_name or default`. -/
def displayOf (displayName advName : Option Text) (default : Text) : Text :=
  orText displayName (orText advName default)

def fmtPath (path : List Text) : Text := (lit " → ").intercalate (path.map (·.take 16))

def hopMultiplier (hops : Option Int) : Int :=
  if hops = none ∨ hops = some 1 then 4 else if hops = some 2 then 2 else 1

def fmtAge (secs : Int) : Text :=
  if secs < 120 then lit "just now"
  else if secs < 3600 then decimalInt (secs / 60) ++ lit "min ago"
  else if secs < 86400 then decimalInt (secs / 3600) ++ lit "h ago"
  else decimalInt (secs / 86400) ++ lit "d ago"

def fmtUptime (secs : Int) : Text :=
  let days := secs / 86400
  let hours := secs % 86400 / 3600
  let mins := secs % 86400 % 3600 / 60
  if days ≠ 0 then decimalInt days ++ lit "d" ++ decimalInt hours ++ lit "h"
  else if hours ≠ 0 then decimalInt hours ++ lit "h" ++ decimalInt mins ++ lit "m"
  else decimalInt mins ++ lit "m"

def rateLimited (d : Decision) : Text :=
  lit "! Rate limited. Try again in " ++ decimalInt d.retryInSeconds ++ lit "s."

def newMailText (unread : Nat) : Text := lit "! " ++ decimal unread ++ lit " new mail. INBOX to view."

def unknownCommand : Text := lit "? Unknown command. Try: HELP"

/-- The body after the argument that starts it. -/
def stripLeading (py : Py) (arg rest : Text) : Text :=
  if py.startsWithLower rest arg then strip (rest.drop arg.length) else rest

/-! ## Enqueueing -/

def enqueueReply (origin : Origin) (reply : Reply) : Prog Unit := do
  let depth ← call .outboundPendingDepth
  let cfg ← call .config
  if reply.refused cfg.limits depth then pure ()
  else
    let packets := Format.splitPackets reply.text Format.defaultPacketBytes
    let now := ⌊← call .time⌋
    forEach (fun p => call (.enqueueOutbound origin (reply.row now p))) packets

/-- A reply to the sender. -/
def answer (pk : Pubkey) (text : Text) (commandVerb : Option Text) : Prog Unit :=
  enqueueReply .answer { pk := pk, text := text, triggerCommand := commandVerb }

/-- A background push. -/
def push (origin : Origin) (pk : Pubkey) (text : Text) : Prog Unit :=
  enqueueReply origin { pk := pk, text := text, priority := priorityNotification }

/-- The first refusal among the limits, consumed one after the other. -/
def consumeAll (pk : Pubkey) : List (Text × RateLimit) → Prog (Option Decision)
  | [] => pure none
  | (bucket, limit) :: limits => do
    let d ← checkAndConsume pk bucket limit
    if d.allowed then consumeAll pk limits else pure (some d)

section Handlers

variable (sv : Services)

/-! ## Command handlers -/

/-- `_maybe_int(args, idx, default=1)`. -/
def maybeInt (args : List Text) (idx : Nat) : Prog Nat :=
  match args[idx]? with
  | none => pure 1
  | some a =>
    if sv.py.isdigit a then
      match sv.py.int a with
      | some n => pure n
      | none => raise
    else pure 1

def handleWhoami (pk : Pubkey) (commandVerb : Text) : Prog Unit := do
  match ← call (.getUser pk) with
  | none => answer pk (lit "? Unknown.") (some commandVerb)
  | some user =>
    answer pk (orText user.displayName (lit "(unset)") ++ lit " " ++ pk.take 12) (some commandVerb)

def whoLine (now : Int) (u : User) : Text :=
  let hops := match u.lastHops with
    | none => []
    | some hops => lit " " ++ decimalInt hops ++ lit "hop"
  displayOf u.displayName u.advName (u.pubkey.take 8) ++ lit " (" ++ fmtAge (now - u.lastSeen) ++
    hops ++ lit ")"

def handleWho (pk : Pubkey) (commandVerb : Text) : Prog Unit := do
  let users ← call (.recentActiveUsers 5)
  if users = [] then answer pk (lit "No active users yet.") (some commandVerb)
  else
    let now := ⌊← call .time⌋
    answer pk (joinLines (users.map (whoLine now))) (some commandVerb)

def hopsText (hops : Option Int) : Text :=
  match hops with
  | none => lit "?"
  | some hops =>
    if hops = 0 then lit "direct"
    else decimalInt hops ++ lit " hop" ++ if hops ≠ 1 then lit "s" else []

/-- Direct messages carry no relay path. -/
def pingPath (inbound : InboundMessage) : Prog (List Text) :=
  if inbound.hops = some 0 then pure []
  else if inbound.path = [] then call (.resolveInboundPath inbound.pubkey)
  else pure inbound.path

def handlePing (inbound : InboundMessage) (commandVerb : Text) : Prog Unit := do
  let path ← pingPath inbound
  let pathStr := fmtPath path
  let pong := lit "PONG (" ++ hopsText inbound.hops ++ lit ")"
  answer inbound.pubkey (if pathStr ≠ [] then pong ++ lit " via " ++ pathStr else pong)
    (some commandVerb)

def handleName (pk : Pubkey) (parsed : ParsedCommand) (commandVerb : Text) : Prog Unit := do
  match parsed.args with
  | [] => answer pk (lit "! NAME <new>") (some commandVerb)
  | newName :: _ =>
    let reply ← sv.trySetName pk newName
    answer pk reply (some commandVerb)

/-- The feed and the page of a `NEWS` command; `none`: `int` raises. -/
def newsArgs (args : List Text) : Option (Option Text × Nat) :=
  args.foldlM (fun (feed, page) a =>
    if sv.py.isdigit a then (sv.py.int a).map fun n => (feed, max 1 n)
    else some (some (sv.py.lower a), page)) (none, 1)

def newsPerPage : Nat := 5

def newsLines (feed : Option Text) (page : Nat) (items : List (Nat × NewsItemRow)) : List Text :=
  let pageItems := (items.drop ((page - 1) * newsPerPage)).take newsPerPage
  let cmd := match feed with
    | some (c :: feed) => lit "NEWS " ++ (c :: feed) ++ lit " " ++ decimal (page + 1)
    | _ => lit "NEWS " ++ decimal (page + 1)
  (pageItems.zipIdx.map fun (item, i) =>
      lit "[" ++ decimal ((page - 1) * newsPerPage + i + 1) ++ lit "] " ++ item.2.title.take 100) ++
    if page * newsPerPage < items.length then [lit "[more: " ++ cmd ++ lit "]"] else []

def handleNews (pk : Pubkey) (parsed : ParsedCommand) (commandVerb : Text) : Prog Unit := do
  match newsArgs sv parsed.args with
  | none => raise
  | some (feed, page) =>
    let items ← call (.recentNews (newsPerPage * page) feed)
    if (items.drop ((page - 1) * newsPerPage)).take newsPerPage = [] then
      answer pk (if page = 1 then lit "No news." else
        lit "No more news (page " ++ decimal page ++ lit ").") (some commandVerb)
    else answer pk (joinLines (newsLines feed page items)) (some commandVerb)

def handleWx (pk : Pubkey) (commandVerb : Text) : Prog Unit := do
  let text ← sv.summaryFor
  answer pk text (some commandVerb)

def handleRead (pk : Pubkey) (parsed : ParsedCommand) (commandVerb : Text) : Prog Unit := do
  match parsed.args with
  | [] => answer pk (lit "! READ <board> [page]") (some commandVerb)
  | slug :: _ =>
    let page ← maybeInt sv parsed.args 1
    let text ← sv.readText slug page
    answer pk text (some commandVerb)

/-- The limits of `POST`, in the order in which they are consumed. -/
def postLimits (limits : LimitsConfig) : List (Text × RateLimit) :=
  [(lit "post_hour", ⟨limits.postPerHour, 3600⟩), (lit "post_day", ⟨limits.postPerDay, 86400⟩)]

def handlePost (pk : Pubkey) (parsed : ParsedCommand) (commandVerb : Text) : Prog Unit := do
  match parsed.args with
  | [] => answer pk (lit "! POST <board> <text>") (some commandVerb)
  | slug :: _ =>
    let cfg ← call .config
    match ← consumeAll pk (postLimits cfg.limits) with
    | some d => answer pk (rateLimited d) (some commandVerb)
    | none =>
      let body := stripLeading sv.py slug parsed.rest
      if body = [] then answer pk (lit "! POST <board> <text>") (some commandVerb)
      else
        let text ← sv.post slug pk body
        answer pk text (some commandVerb)

/-- A command on the mail with the id of its first argument. -/
def onMailId (usage : Text) (f : Nat → Prog Text) (pk : Pubkey) (parsed : ParsedCommand)
    (commandVerb : Text) : Prog Unit := do
  match parsed.args with
  | [] => answer pk usage (some commandVerb)
  | a :: _ =>
    if !sv.py.isdigit a then answer pk usage (some commandVerb)
    else
      match sv.py.int a with
      | none => raise
      | some mailId =>
        let text ← f mailId
        answer pk text (some commandVerb)

def handleReadmail (pk : Pubkey) (parsed : ParsedCommand) (commandVerb : Text) : Prog Unit :=
  onMailId sv (lit "! READMAIL <id>") (Services.readMail pk) pk parsed commandVerb

def handleDeleteMail (pk : Pubkey) (parsed : ParsedCommand) (commandVerb : Text) : Prog Unit :=
  onMailId sv (lit "! DELETE <id>") (Services.deleteMail pk) pk parsed commandVerb

def maybeNotifyRecipient (recipientPk : Pubkey) : Prog Unit := do
  match ← call (.getUser recipientPk) with
  | none => pure ()
  | some recipient =>
    if !recipient.onboarded then pure ()
    else
      let now ← call .time
      if !sv.isOnline recipient ⌊now⌋ then pure ()
      else
        let now ← call .time
        let notify ← sv.shouldNotify recipientPk now
        if !notify then pure ()
        else
          let unread ← call (.countUnread recipientPk)
          push .newMail recipientPk (newMailText unread)

def handleSend (pk : Pubkey) (parsed : ParsedCommand) (commandVerb : Text) : Prog Unit := do
  match parsed.args with
  | [] => answer pk (lit "! SEND <user> <text>") (some commandVerb)
  | recipientId :: _ =>
    if parsed.rest = [] then answer pk (lit "! SEND <user> <text>") (some commandVerb)
    else
      let cfg ← call .config
      match ← consumeAll pk [(lit "mail_day", ⟨cfg.limits.mailSendPerDay, 86400⟩)] with
      | some d => answer pk (rateLimited d) (some commandVerb)
      | none =>
        let body := stripLeading sv.py recipientId parsed.rest
        if body = [] then answer pk (lit "! SEND <user> <text>") (some commandVerb)
        else
          let (ok, reply, recipient) ← sv.send pk recipientId body
          answer pk reply (some commandVerb)
          match recipient with
          | some recipient => if ok then maybeNotifyRecipient sv recipient.pubkey else pure ()
          | none => pure ()

def handleStatus (pk : Pubkey) (commandVerb : Text) : Prog Unit := do
  let uptime := ⌊← call .time⌋ - sv.startedAt
  let depth ← call .outboundPendingDepth
  answer pk (lit "v" ++ sv.version ++ lit " up " ++ fmtUptime uptime ++ lit " q=" ++ decimal depth)
    (some commandVerb)

def handleAdvert (pk : Pubkey) (commandVerb : Text) : Prog Unit := do
  if !sv.isAdmin pk then answer pk unknownCommand (some commandVerb)
  else
    call .sendAdvert
    call (.audit (some pk) (lit "advert") (lit "flood=1"))
    answer pk (lit "OK flood advert sent") (some commandVerb)

/-- `ADMIN BROADCAST CONFIRM`. -/
def releaseBroadcast (pk : Pubkey) (commandVerb : Text) : Prog Unit := do
  let (status, recipients, body) ← Services.confirmBroadcast pk
  answer pk status (some commandVerb)
  forEach (fun r => if r ≠ pk then push (.broadcast pk) r body else pure ()) recipients

def handleBroadcast (pk : Pubkey) (parsed : ParsedCommand) (commandVerb : Text) : Prog Unit := do
  if (parsed.args.head?.map sv.py.upper) = some (lit "CONFIRM") then releaseBroadcast pk commandVerb
  else
    let text := strip parsed.rest
    if text = [] then answer pk (lit "! ADMIN BROADCAST <text>") (some commandVerb)
    else
      let reply ← Services.stageBroadcast pk text
      answer pk reply (some commandVerb)

def handleAdmin (pk : Pubkey) (parsed : ParsedCommand) (commandVerb : Text) : Prog Unit := do
  let v := parsed.verb
  if !sv.isAdmin pk then answer pk unknownCommand (some commandVerb)
  else if v = lit "ADMIN BAN" then
    match parsed.args with
    | [] => answer pk (lit "! ADMIN BAN <prefix>") (some commandVerb)
    | target :: reason =>
      let reply ← Services.ban pk target ((lit " ").intercalate reason)
      answer pk reply (some commandVerb)
  else if v = lit "ADMIN UNBAN" then
    match parsed.args with
    | [] => answer pk (lit "! ADMIN UNBAN <prefix>") (some commandVerb)
    | target :: _ =>
      let reply ← Services.unban pk target
      answer pk reply (some commandVerb)
  else if v = lit "ADMIN BOARD ADD" then
    match parsed.args with
    | [] => answer pk (lit "! ADMIN BOARD ADD <slug> <desc>") (some commandVerb)
    | slug :: _ =>
      let reply ← sv.addBoard slug (stripLeading sv.py slug parsed.rest)
      answer pk reply (some commandVerb)
  else if v = lit "ADMIN BOARD DEL" then
    match parsed.args with
    | [] => answer pk (lit "! ADMIN BOARD DEL <slug>") (some commandVerb)
    | slug :: _ =>
      let reply ← sv.deleteBoard slug
      answer pk reply (some commandVerb)
  else if v = lit "ADMIN BROADCAST" then handleBroadcast sv pk parsed commandVerb
  else answer pk (lit "! ADMIN BAN|UNBAN|BOARD ADD|BOARD DEL|BROADCAST") (some commandVerb)

/-! ## Dispatch -/

/-- The body of the `try`. -/
def dispatch (inbound : InboundMessage) (parsed : ParsedCommand) : Prog Unit := do
  let v := parsed.verb
  let pk := inbound.pubkey
  if v = lit "HELP" then answer pk (Commands.helpText sv.py parsed.args.head?) (some v)
  else if v = lit "WHO" then handleWho pk v
  else if v = lit "PING" then handlePing inbound v
  else if v = lit "WHOAMI" then handleWhoami pk v
  else if v = lit "NAME" then handleName sv pk parsed v
  else if v = lit "NEWS" then handleNews sv pk parsed v
  else if v = lit "WX" then handleWx sv pk v
  else if v = lit "BOARDS" then
    let text ← Services.listText
    answer pk text (some v)
  else if v = lit "READ" then handleRead sv pk parsed v
  else if v = lit "POST" then handlePost sv pk parsed v
  else if v = lit "MAIL" then
    let text ← Services.countsText pk
    answer pk text (some v)
  else if v = lit "INBOX" then
    let page ← maybeInt sv parsed.args 0
    let text ← Services.inboxText pk page
    answer pk text (some v)
  else if v = lit "READMAIL" then handleReadmail sv pk parsed v
  else if v = lit "SEND" then handleSend sv pk parsed v
  else if v = lit "DELETE" then handleDeleteMail sv pk parsed v
  else if v = lit "STATUS" then handleStatus sv pk v
  else if v = lit "ADVERT" then handleAdvert sv pk v
  else if (lit "ADMIN").isPrefixOf v then handleAdmin sv pk parsed v
  else answer pk unknownCommand (some v)

/-- The user row that is read first only names the sender in the log. -/
def handleCommand (inbound : InboundMessage) (parsed : ParsedCommand) : Prog Unit := do
  call (.logCommand inbound.pubkey inbound.body)
  (dispatch sv inbound parsed).orElse
    (answer inbound.pubkey (lit "! Internal error.") (some parsed.verb))

/-! ## Inbound messages -/

def upsertUserFirstSeen (pubkey : Pubkey) (advName : Option Text) (now : Int) :
    Prog (User × Bool) := do
  match ← call (.getUser pubkey) with
  | some existing =>
    call (.seeUser pubkey advName now)
    pure (existing, false)
  | none =>
    call (.insertUser pubkey advName now)
    match ← call (.getUser pubkey) with
    | none => raise
    | some user => pure (user, true)

def notifyAdminsNewUser (display : Text) (pubkey : Pubkey) : Prog Unit := do
  let msg := lit "New user: " ++ display ++ lit " (" ++ pubkey.take 12 ++ lit ")"
  let cfg ← call .config
  forEach (fun adminPk =>
    if sv.py.lower adminPk ≠ sv.py.lower pubkey then push .newUser (sv.py.lower adminPk) msg
    else pure ()) cfg.bbs.adminPubkeys

def replyThrottled (pubkey : Pubkey) (decision : Decision) : Prog Unit := do
  let notifyDecision ← checkAndConsume pubkey (lit "rate_notify") ⟨1, 60⟩
  if notifyDecision.allowed then answer pubkey (rateLimited decision) none else pure ()

def handleOnboarding (inbound : InboundMessage) : Prog Unit := do
  let welcome : Prog Unit := do
    let cfg ← call .config
    answer inbound.pubkey (Services.welcomeText cfg.bbs.name) none
  match Commands.parse sv.py inbound.body with
  | none => welcome
  | some parsed =>
    if parsed.verb ≠ lit "NAME" then welcome
    else
      match parsed.args with
      | [] => answer inbound.pubkey (lit "! NAME <yourname>") none
      | name :: _ =>
        let reply ← sv.trySetName inbound.pubkey name
        answer inbound.pubkey reply none

/-- Both inbound limits, scaled by the hops. -/
def inboundLimits (limits : LimitsConfig) (hops : Option Int) : List (Text × RateLimit) :=
  let mul := hopMultiplier hops
  [(lit "inbound_min", ⟨limits.inboundPerMinute * mul, 60⟩),
    (lit "inbound_hour", ⟨limits.inboundPerHour * mul, 3600⟩)]

/-- Direct messages and admins bypass the limits. -/
def consumeInbound (inbound : InboundMessage) : Prog (Option Decision) := do
  if !sv.isAdmin inbound.pubkey && inbound.hops ≠ some 0 then
    let cfg ← call .config
    consumeAll inbound.pubkey (inboundLimits cfg.limits inbound.hops)
  else pure none

/-- After the rate limits. -/
def route (inbound : InboundMessage) (user : User) : Prog Unit := do
  if !user.onboarded then handleOnboarding sv inbound
  else
    match Commands.parse sv.py inbound.body with
    | none => answer inbound.pubkey (lit "? Empty. Try: HELP") none
    | some parsed => handleCommand sv inbound parsed

/-- After the ban check. -/
def serve (inbound : InboundMessage) (user : User) (isNew : Bool) : Prog Unit := do
  let display := displayOf user.displayName inbound.advName (inbound.pubkey.take 12)
  if isNew then notifyAdminsNewUser sv display inbound.pubkey else pure ()
  match ← consumeInbound sv inbound with
  | some d => replyThrottled inbound.pubkey d
  | none => route sv inbound user

def handleInbound (inbound : InboundMessage) : Prog Unit := do
  if inbound.pubkey = sv.py.lower sv.selfPubkey then pure ()
  else
    let now := ⌊← call .time⌋
    let (user, isNew) ← upsertUserFirstSeen inbound.pubkey inbound.advName now
    call (.touchUser inbound.pubkey now inbound.hops)
    if user.banned then pure () else serve sv inbound user isNew

def recordMeshActivity (pubkey : Option Pubkey) : Prog Unit := do
  match pubkey with
  | none => pure ()
  | some pubkey =>
    if pubkey = [] ∨ sv.py.lower pubkey = sv.py.lower sv.selfPubkey then pure ()
    else
      let now := ⌊← call .time⌋
      let _ ← call (.touchUserActivity (sv.py.lower pubkey) now)

end Handlers

end Dispatcher

end Bbs
