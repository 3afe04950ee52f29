import MeshcoreBbs.Python

/-!
# Command parsing (`commands.py`)
-/

namespace Bbs

structure ParsedCommand where
  verb : Text
  args : List Text
  rest : Text
  deriving DecidableEq

namespace Commands

variable (py : Py)

/-- The verb and the tokens after it.  `ADMIN` takes the next token into the verb, and
`ADMIN BOARD` one more. -/
def verbAndArgs : List Text → Text × List Text
  | [] => ([], [])
  | token :: args =>
    let verb := py.upper token
    match args with
    | [] => (verb, [])
    | sub :: args' =>
      if verb = lit "ADMIN" then
        let verb := lit "ADMIN " ++ py.upper sub
        match args' with
        | [] => (verb, [])
        | third :: args'' =>
          if verb = lit "ADMIN BOARD" then (verb ++ ' ' :: py.upper third, args'') else (verb, args')
      else (verb, args)

def parse (line : Text) : Option ParsedCommand :=
  let line := strip line
  if line = [] then none
  else
    let (verb, args) := verbAndArgs py (words line)
    let prefixWords := verb.splitOn ' '
    let rest := (py.matchLine prefixWords line).getD line
    some { verb := verb, args := args, rest := strip rest }

def helpOverview : Text :=
  lit "Cmds: HELP WHOAMI NAME WHO PING NEWS WX BOARDS READ POST\n" ++
    lit "MAIL INBOX READMAIL SEND DELETE STATUS\n" ++ lit "HELP <cmd> for details."

def helpTopics : List (Text × Text) :=
  [(lit "HELP", lit "HELP [topic] - list cmds or detail on one."),
    (lit "WHOAMI", lit "WHOAMI - show your name and pubkey prefix."),
    (lit "NAME", lit "NAME <new> - set display name (1-10 chars, A-Z 0-9 _ - emoji)."),
    (lit "WHO", lit "WHO - list up to 5 recently active users with hop count."),
    (lit "PING", lit "PING - pong with the mesh path taken to reach the BBS."),
    (lit "NEWS", lit "NEWS [feed] - top headlines, optionally from one feed."),
    (lit "WX", lit "WX [station] - weather summary (default: BBS-local)."),
    (lit "BOARDS", lit "BOARDS - list public boards."),
    (lit "READ", lit "READ <board> [page] - read posts (5/page, newest first)."),
    (lit "POST", lit "POST <board> <text> - post to a board."),
    (lit "MAIL", lit "MAIL - show unread/total counts."),
    (lit "INBOX", lit "INBOX [page] - list inbox, unread first."),
    (lit "READMAIL", lit "READMAIL <id> - read a mail and mark it read."),
    (lit "SEND", lit "SEND <user> <text> - send mail (name, partial name, or pubkey)."),
    (lit "DELETE", lit "DELETE <id> - delete a mail."),
    (lit "STATUS", lit "STATUS - BBS uptime, version, outbound queue depth."),
    (lit "ADVERT", lit "ADVERT - send flood advertisement (admin only)."),
    (lit "ADMIN", lit "ADMIN BAN|UNBAN|BOARD ADD|BOARD DEL|BROADCAST")]

def helpText (topic : Option Text) : Text :=
  match topic with
  | none => helpOverview
  | some topic =>
    if topic = [] then helpOverview
    else (helpTopics.lookup (py.upper topic)).getD (lit "? Unknown topic: " ++ topic)

end Commands

example : Commands.parse asciiPy (lit " admin  Board add  hams Ham  radio ") =
    some ⟨lit "ADMIN BOARD ADD", [lit "hams", lit "Ham", lit "radio"], lit "hams Ham  radio"⟩ := by
  decide +kernel

end Bbs
