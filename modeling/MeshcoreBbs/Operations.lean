import MeshcoreBbs.World

/-!
# The operations on the world

One operation for each SQL statement (`commit` adds nothing on the one connection), each
access to the memory of the services and each call to the outside.  A handler of the
dispatcher is a `Prog`.
-/

namespace Bbs

inductive Op
  | time
  | config
  | logCommand (pk : Pubkey) (line : Text)
  | resolveInboundPath (pk : Pubkey)
  | sendAdvert
  | fetchWeather
  | getUser (pk : Pubkey)
  | getUserByName (name : Text)
  | findUsersByNameSubstring (needle : Text)
  | getUserByPrefix (pubkeyPrefix : Text)
  | allUserPubkeys
  | recentActiveUsers (limit : Nat)
  | seeUser (pk : Pubkey) (advName : Option Text) (now : Int)
  | insertUser (pk : Pubkey) (advName : Option Text) (now : Int)
  | touchUser (pk : Pubkey) (now : Int) (hops : Option Int)
  | touchUserActivity (pk : Pubkey) (now : Int)
  | setDisplayName (pk : Pubkey) (name : Text)
  | markMotdSent (pk : Pubkey)
  | setBanned (pk : Pubkey) (banned : Bool) (reason : Option Text)
  | listBoards
  | getBoard (slug : Text)
  | addBoard (slug description : Text) (now : Int)
  | deletePostsOf (slug : Text)
  | deleteBoard (slug : Text)
  | addPost (slug : Text) (author : Pubkey) (body : Text) (now : Int)
  | listPosts (slug : Text) (limit offset : Nat)
  | getPost (id : Nat)
  | deletePost (id : Nat)
  | addMail (fromPk toPk : Pubkey) (body : Text) (now : Int)
  | listMail (pk : Pubkey) (limit offset : Nat)
  | getMail (id : Nat) (viewer : Pubkey)
  | markMailRead (id : Nat) (now : Int)
  | deleteMail (id : Nat) (viewer : Pubkey)
  | countUnread (pk : Pubkey)
  | countTotalMail (pk : Pubkey)
  | usersWithUnreadMail
  | purgeOldReadMail (beforeTs : Int)
  | recentNews (limit : Nat) (feedSlug : Option Text)
  | getWeatherCache (key : Text)
  | setWeatherCache (key : Text) (payload : Json) (now : Int)
  | getRateWindow (pk : Pubkey) (bucket : Text)
  | setRateWindow (pk : Pubkey) (bucket : Text) (window : RateWindow)
  | audit (actor : Option Pubkey) (action detail : Text)
  | purgeOldAudit (beforeTs : Int)
  | outboundPendingDepth
  | enqueueOutbound (origin : Origin) (row : OutboundRow)
  | popPending (pk : Pubkey)
  | setPending (pk : Pubkey) (pending : PendingBroadcast)
  | getLastNotifyAt (pk : Pubkey)
  | setLastNotifyAt (pk : Pubkey) (t : ℚ)

namespace Op

/-- The type of an operation's answer. -/
@[reducible] def Res : Op → Type
  | time => ℚ
  | config => Config
  | resolveInboundPath _ => List Text
  | fetchWeather => Option Json
  | getUser _ | getUserByName _ | getUserByPrefix _ => Option User
  | findUsersByNameSubstring _ | recentActiveUsers _ => List User
  | allUserPubkeys | usersWithUnreadMail => List Pubkey
  | touchUserActivity .. | setDisplayName .. | deleteMail .. | deletePost _ => Bool
  | listBoards => List Board
  | getBoard _ => Option Board
  | listPosts .. => List (Nat × BoardPostRow)
  | getPost _ => Option BoardPostRow
  | addPost .. | addMail .. | countUnread _ | countTotalMail _ | outboundPendingDepth => Nat
  | listMail .. => List Mail
  | getMail .. => Option Mail
  | recentNews .. => List (Nat × NewsItemRow)
  | getWeatherCache _ => Option (Json × Int)
  | getRateWindow .. => Option RateWindow
  | popPending _ => Option PendingBroadcast
  | getLastNotifyAt _ => Option ℚ
  | logCommand .. | sendAdvert | seeUser .. | insertUser .. | touchUser .. | markMotdSent _
  | setBanned .. | addBoard .. | deletePostsOf _ | deleteBoard _ | markMailRead ..
  | purgeOldReadMail _ | setWeatherCache .. | setRateWindow .. | audit .. | purgeOldAudit _
  | enqueueOutbound .. | setPending .. | setLastNotifyAt .. => Unit

/-- An operation whose parameter may be out of range or that a constraint may refuse. -/
def MayRaise : Op → Prop
  | insertUser .. | addBoard .. | deleteBoard _ | addPost .. | listPosts .. | getPost _
  | deletePost _ | addMail .. | listMail .. | getMail .. | markMailRead .. | deleteMail ..
  | recentNews .. => True
  | _ => False

/-- The answer when `ok`, else an exception that leaves everything as it was. -/
def check {α : Type} (ok : Bool) (w : World) (answer : α × World) : Option α × World :=
  if ok then (some answer.1, answer.2) else (none, w)

/-- What an operation answers (`none`: it raises) and makes of the world. -/
def run (py : Py) : (op : Op) → World → Option op.Res × World
  | time, w => (some w.clock, w)
  | config, w => (some w.cfg, w)
  | logCommand pk line, w => (some (), { w with record := .command pk line w.now :: w.record })
  | resolveInboundPath pk, w => (some (w.inboundPath pk), w)
  | sendAdvert, w => (some (), { w with record := .advert :: w.record })
  | fetchWeather, w => (some w.weatherAnswer, w)
  | getUser pk, w => (some (w.users.getUser pk), w)
  | getUserByName name, w => (some (w.users.getUserByName py.lower name), w)
  | findUsersByNameSubstring needle, w =>
    (some (w.users.findUsersByNameSubstring py.lower needle), w)
  | getUserByPrefix pubkeyPrefix, w => (some (w.users.getUserByPrefix py.lower pubkeyPrefix), w)
  | allUserPubkeys, w => (some w.users.allUserPubkeys, w)
  | recentActiveUsers limit, w => (some (w.users.recentActiveUsers limit), w)
  | seeUser pk advName now, w => (some (), { w with users := w.users.seeUser pk advName now })
  | insertUser pk advName now, w =>
    match h : w.users.getUser pk with
    | none => (some (), { w with users := w.users.insertStub pk advName now h })
    | some _ => (none, w)
  | touchUser pk now hops, w => (some (), { w with users := w.users.touchUser pk now hops })
  | touchUserActivity pk now, w =>
    (some (w.users.touchUserActivity pk now).2,
      { w with users := (w.users.touchUserActivity pk now).1 })
  | setDisplayName pk name, w =>
    (some (w.users.setDisplayName py.lower pk name).2,
      { w with users := (w.users.setDisplayName py.lower pk name).1 })
  | markMotdSent pk, w => (some (), { w with users := w.users.markMotdSent pk })
  | setBanned pk banned reason, w =>
    (some (), { w with users := w.users.setBanned pk banned reason })
  | listBoards, w => (some w.listBoards, w)
  | getBoard slug, w => (some (w.getBoard (py.lower slug)), w)
  | addBoard slug description now, w =>
    check (w.getBoard (py.lower slug)).isNone w
      ((), { w with boards := w.boards ++ [⟨py.lower slug, description, now⟩] })
  | deletePostsOf slug, w => (some (), { w with posts := w.deletePostsOf slug })
  | deleteBoard slug, w =>
    check (w.posts.rows.all fun p => p.2.boardSlug ≠ slug) w
      ((), { w with boards := w.boards.filter fun b => b.slug ≠ slug })
  | addPost slug author body now, w =>
    check ((w.getBoard (py.lower slug)).isSome && (w.users.getUser author).isSome) w
      (w.posts.seq + 1, { w with posts := w.posts.insert ⟨py.lower slug, author, body, now, false⟩ })
  | listPosts slug limit offset, w =>
    check (fits limit && fits offset) w (w.listPosts (py.lower slug) limit offset, w)
  | getPost id, w => check (fits id) w (w.posts.get? id, w)
  | deletePost id, w =>
    check (fits id) w ((w.posts.get? id).any fun p => !p.deleted,
      { w with posts := w.posts.modify id fun p => { p with deleted := true } })
  | addMail fromPk toPk body now, w =>
    match w.addMail fromPk toPk body now with
    | none => (none, w)
    | some (store, id) => (some id, { w with toStore := store })
  | listMail pk limit offset, w =>
    check (fits limit && fits offset) w (w.listMail pk limit offset, w)
  | getMail id viewer, w => check (fits id) w (w.getMail id viewer, w)
  | markMailRead id now, w => check (fits id) w ((), { w with toStore := w.markMailRead id now })
  | deleteMail id viewer, w =>
    check (fits id) w ((w.deleteMail id viewer).2, { w with toStore := (w.deleteMail id viewer).1 })
  | countUnread pk, w => (some (w.countUnread pk), w)
  | countTotalMail pk, w => (some (w.countTotalMail pk), w)
  | usersWithUnreadMail, w => (some w.usersWithUnreadMail, w)
  | purgeOldReadMail beforeTs, w => (some (), { w with toStore := w.purgeOldReadMail beforeTs })
  | recentNews limit feedSlug, w => check (fits limit) w (w.recentNews limit feedSlug, w)
  | getWeatherCache key, w => (some (w.weatherCache key), w)
  | setWeatherCache key payload now, w =>
    (some (), { w with weatherCache := Function.update w.weatherCache key (some (payload, now)) })
  | getRateWindow pk bucket, w => (some (w.rates pk bucket), w)
  | setRateWindow pk bucket window, w => (some (), { w with rates := w.setRate pk bucket window })
  | audit actor action detail, w =>
    (some (), { w with queue := w.queue.writeAudit ⟨w.now, actor, action, detail⟩ })
  | purgeOldAudit beforeTs, w =>
    (some (), { w with queue := w.queue.purgeOldAudit beforeTs })
  | outboundPendingDepth, w => (some w.queue.outboundPendingDepth, w)
  | enqueueOutbound origin row, w => (some (), w.insertRow origin row)
  | popPending pk, w =>
    (some (w.pending pk), { w with pending := Function.update w.pending pk none })
  | setPending pk pending, w =>
    (some (), { w with pending := Function.update w.pending pk (some pending) })
  | getLastNotifyAt pk, w => (some (w.lastNotifyAt pk), w)
  | setLastNotifyAt pk t, w =>
    (some (), { w with lastNotifyAt := Function.update w.lastNotifyAt pk (some t) })

theorem mayRaise_of_run {py : Py} {op : Op} {w : World} (h : (op.run py w).1 = none) :
    op.MayRaise := by
  cases op <;> trivial

section Frame

variable {py : Py} {op : Op} {w : World}

theorem check_frame {α β : Type} (f : World → β) {ok : Bool} {w : World} {answer : α × World}
    (h : f answer.2 = f w) : f (check ok w answer).2 = f w := by
  unfold check
  split
  · exact h
  · rfl

theorem run_clock : (op.run py w).2.clock = w.clock := by
  cases op with
  | insertUser | addMail =>
    rw [run]
    split <;> rfl
  | _ => first | rfl | exact check_frame World.clock rfl

theorem run_cfg : (op.run py w).2.cfg = w.cfg := by
  cases op with
  | insertUser | addMail =>
    rw [run]
    split <;> rfl
  | _ => first | rfl | exact check_frame World.cfg rfl

/-- The record grows by the operations that it records. -/
theorem run_record : (op.run py w).2.record = match op with
    | logCommand pk line => .command pk line w.now :: w.record
    | sendAdvert => .advert :: w.record
    | enqueueOutbound origin row => .inserted origin row (w.isBanned row.toPubkey) :: w.record
    | _ => w.record := by
  cases op with
  | insertUser | addMail =>
    rw [run]
    split <;> rfl
  | _ => first | rfl | exact check_frame World.record rfl

theorem run_pending : (op.run py w).2.pending = match op with
    | popPending pk => Function.update w.pending pk none
    | setPending pk pending => Function.update w.pending pk (some pending)
    | _ => w.pending := by
  cases op with
  | insertUser | addMail =>
    rw [run]
    split <;> rfl
  | _ => first | rfl | exact check_frame World.pending rfl

theorem run_boards (hadd : ∀ slug description now, op ≠ addBoard slug description now)
    (hdelete : ∀ slug, op ≠ deleteBoard slug) : (op.run py w).2.boards = w.boards := by
  cases op with
  | addBoard => exact absurd rfl (hadd _ _ _)
  | deleteBoard => exact absurd rfl (hdelete _)
  | insertUser | addMail =>
    rw [run]
    split <;> rfl
  | _ => first | rfl | exact check_frame World.boards rfl

/-- What an operation makes of the posts. -/
inductive PostStep (py : Py) (w : World) : Op → RowTable BoardPostRow → Prop
  | same {op : Op} {posts : RowTable BoardPostRow} (h : posts = w.posts) : PostStep py w op posts
  | insert {slug : Text} {author : Pubkey} {body : Text} {now : Int}
      (hboard : (w.getBoard (py.lower slug)).isSome = true)
      (hauthor : (w.users.getUser author).isSome = true) : PostStep py w (.addPost slug author body now)
        (w.posts.insert ⟨py.lower slug, author, body, now, false⟩)
  | delete {id : Nat} : PostStep py w (.deletePost id)
      (w.posts.modify id fun row => { row with deleted := true })
  | clear {slug : Text} : PostStep py w (.deletePostsOf slug) (w.deletePostsOf slug)

theorem run_posts (py : Py) (op : Op) (w : World) : PostStep py w op (op.run py w).2.posts := by
  cases op with
  | insertUser | addMail =>
    rw [run]
    split <;> exact .same rfl
  | addPost slug author body now =>
    rw [run, check]
    split
    · next hok =>
      rw [Bool.and_eq_true] at hok
      exact .insert hok.1 hok.2
    · exact .same rfl
  | deletePost id =>
    rw [run, check]
    split
    · exact .delete
    · exact .same rfl
  | deletePostsOf slug => exact .clear
  | _ => first | exact .same rfl | exact .same (check_frame World.posts rfl)

end Frame

theorem run_insertUser {py : Py} {w : World} {pk : Pubkey} {advName : Option Text} {now : Int}
    (h : w.users.getUser pk = none) : (insertUser pk advName now).run py w =
      (some (), { w with users := w.users.insertStub pk advName now h }) := by
  rw [run]
  split
  · rfl
  · next hfind => cases h.symm.trans hfind

end Op

/-- A program over these operations. -/
abbrev Prog := Coroutine Op Op.Res

/-- Perform an operation. -/
abbrev call (op : Op) : Prog op.Res := Coroutine.perform op

end Bbs
