import MeshcoreBbs.Inbound
import MeshcoreBbs.Process

/-!
# A board is deleted while others post

`delete_board` removes the posts and then the board, in two statements.  A post that comes in
between makes the second one fail for its foreign key, when the posts are gone already
(`deleted_halfway`); without one the deletion takes all or nothing (`all_or_nothing`).
-/

namespace Bbs

open Coroutine

/-- Every post is on a board that exists. -/
def ForeignKeys (w : World) : Prop :=
  ∀ id row, w.posts.get? id = some row → (w.getBoard row.boardSlug).isSome = true

namespace BoardDeletion

/-- The deletion of a board, and the ways to post. -/
inductive Call
  | deleteBoard (slug : Text)
  | radioPost (msg : InboundMessage)
  | dashboardPost (slug authorPubkey body : Text)

section Definitions

variable (sv : Services)

def Call.prog : Call → Prog Unit
  | deleteBoard slug => do
    let _ ← sv.deleteBoard slug
  | radioPost msg => Dispatcher.handleInbound sv msg
  | dashboardPost slug authorPubkey body => Dashboard.apiBoardPostsCreate sv slug authorPubkey body

def Call.isPost : Call → Bool
  | deleteBoard _ => false
  | radioPost msg => (Commands.parse sv.py msg.body).any fun parsed => parsed.verb = lit "POST"
  | dashboardPost .. => true

abbrev Tasks := Pool Op Op.Res World Call

def step : Tasks → Pool.Act Call Outside → Option Tasks :=
  Pool.step (Op.run sv.py) (Call.prog sv) fun w e => e.run w

/-- Others post and do nothing else. -/
def othersPost (_ : Tasks) : Pool.Act Call Outside → Bool
  | .spawn call => call.isPost sv
  | _ => true

/-- The deletion starts as the next task. -/
def withDeletion (slug : Text) (p : Tasks) : Tasks :=
  { p with tasks := p.tasks ++ [(.deleteBoard slug, (Call.deleteBoard slug).prog sv)] }

/-- The slug under which `delete_board slug` finds the board. -/
def boardOf (slug : Text) : Text := sv.py.lower (sv.py.lower slug)

def hasPosts (board : Text) (w : World) : Bool := w.posts.rows.any fun p => p.2.boardSlug = board

/-- The deletion waits for the second of its statements. -/
def betweenStatements : Option (Call × Prog Unit) → Bool
  | some (.deleteBoard _, .await (.deleteBoard _) _) => true
  | _ => false

/-- The result of a task that has ended. -/
def ended : Option (Call × Prog Unit) → Option (Option Unit)
  | some (_, .finish result) => some result
  | _ => none

/-- The next operation is a post on the board. -/
def postsOn (board : Text) (w : World) : Option (Call × Prog Unit) → Bool
  | some (_, .await (.addPost slug author _ _) _) =>
    sv.py.lower slug = board && (w.users.getUser author).isSome
  | _ => false

/-- Nobody posts on the board while the task `i` is between its statements, unless it had no
posts before. -/
def keepsOut (board : Text) (i : Nat) (before : World) (p : Tasks) : Pool.Act Call Outside → Bool
  | .resume j => !hasPosts board before || !betweenStatements p.tasks[i]? ||
      !postsOn sv board p.state p.tasks[j]?
  | _ => true

end Definitions

/-- The board and its posts are gone. -/
def Gone (board : Text) (w : World) : Prop :=
  w.getBoard board = none ∧ ∀ id row, w.posts.get? id = some row → row.boardSlug ≠ board

/-- What was posted on the board before is still there. -/
def PostsKept (board : Text) (before w : World) : Prop :=
  ∀ id row, before.posts.get? id = some row → row.boardSlug = board → w.posts.get? id = some row

/-- The deletion has ended as it should. -/
def AllOrNothing (board : Text) (before : World) (result : Option Unit) (w : World) : Prop :=
  Gone board w ∨ result = none ∧ (w.getBoard board).isSome = true ∧ PostsKept board before w

/-! ## What an operation does to boards and posts -/

/-- The operations of the others. -/
def Posting : Op → Prop
  | .addBoard .. | .deletePostsOf _ | .deleteBoard _ | .deletePost _ => False
  | _ => True

/-- Boards stay, and at most one post is added. -/
structure Posted (py : Py) (w : World) (op : Op) (w' : World) : Prop where
  boards : w'.boards = w.boards
  posts : w'.posts = w.posts ∨ ∃ slug author body now, op = .addPost slug author body now ∧
    (w.getBoard (py.lower slug)).isSome = true ∧ (w.users.getUser author).isSome = true ∧
    w'.posts = w.posts.insert ⟨py.lower slug, author, body, now, false⟩

theorem posting_run {op : Op} (h : Posting op) (py : Py) (w : World) :
    Posted py w op (op.run py w).2 := by
  constructor
  · refine Op.run_boards ?_ ?_
    · rintro _ _ _ rfl
      exact h
    · rintro _ rfl
      exact h
  · have hstep := op.run_posts py w
    generalize (op.run py w).2.posts = posts at hstep ⊢
    cases hstep with
    | same hsame => exact .inl hsame
    | insert hboard hauthor => exact .inr ⟨_, _, _, _, rfl, hboard, hauthor, rfl⟩
    | delete | clear => cases h

theorem posted_of_frame {w w' : World} (h : Outside.Frame w w') (py : Py) (op : Op) :
    Posted py w op w' :=
  ⟨h.boards, .inl h.posts⟩

section Posted

variable {py : Py} {w w' : World} {op : Op} {board : Text}

theorem Posted.getBoard (h : Posted py w op w') (slug : Text) : w'.getBoard slug = w.getBoard slug := by
  rw [World.getBoard, World.getBoard, h.boards]

/-- An old post is kept. -/
theorem Posted.get? (h : Posted py w op w') {id : Nat} {row : BoardPostRow}
    (hrow : w.posts.get? id = some row) : w'.posts.get? id = some row := by
  rcases h.posts with hposts | ⟨slug, author, body, now, -, -, -, hposts⟩
  · rwa [hposts]
  · rw [hposts]
    exact RowTable.get?_insert_of_some hrow _

/-- A post that is there now is old, or on a board that exists. -/
theorem Posted.cases (h : Posted py w op w') {id : Nat} {row : BoardPostRow}
    (hrow : w'.posts.get? id = some row) :
    w.posts.get? id = some row ∨ (w.getBoard row.boardSlug).isSome = true := by
  rcases h.posts with hposts | ⟨slug, author, body, now, -, hboard, -, hposts⟩
  · rw [hposts] at hrow
    exact .inl hrow
  · rw [hposts, RowTable.get?_insert] at hrow
    split at hrow
    · cases hrow
      exact .inr hboard
    · exact .inl hrow

theorem Posted.foreignKeys (h : Posted py w op w') (hw : ForeignKeys w) : ForeignKeys w' := by
  intro id row hrow
  rw [h.getBoard]
  exact (h.cases hrow).elim (hw id row) fun hboard => hboard

theorem Posted.gone (h : Posted py w op w') (hw : Gone board w) : Gone board w' := by
  refine ⟨by rw [h.getBoard, hw.1], fun id row hrow => ?_⟩
  rcases h.cases hrow with hold | hboard
  · exact hw.2 id row hold
  · rintro rfl
    rw [hw.1] at hboard
    cases hboard

theorem Posted.postsKept {before : World} (h : Posted py w op w')
    (hw : PostsKept board before w) : PostsKept board before w' := by
  intro id row hrow hon
  exact h.get? (hw id row hrow hon)

theorem Posted.allOrNothing {before : World} {result : Option Unit} (h : Posted py w op w')
    (hw : AllOrNothing board before result w) : AllOrNothing board before result w' := by
  rcases hw with hgone | ⟨hraise, hboard, hkept⟩
  · exact .inl (h.gone hgone)
  · refine .inr ⟨hraise, ?_, h.postsKept hkept⟩
    rw [h.getBoard, hboard]

theorem getBoard_removed (board : Text) (w : World) :
    { w with boards := w.boards.filter fun b => b.slug ≠ board }.getBoard board = none := by
  simp [World.getBoard, List.find?_eq_none]

theorem getBoard_other {slug : Text} (h : slug ≠ board) :
    ({ w with boards := w.boards.filter fun b => b.slug ≠ board }.getBoard slug).isSome =
      (w.getBoard slug).isSome := by
  have hsame (b : Board) : decide (decide (b.slug ≠ board) = true ∧ decide (b.slug = slug) = true) =
      decide (b.slug = slug) := by
    by_cases hb : b.slug = slug
    · simp [hb, h]
    · simp [hb]
  rw [World.getBoard, World.getBoard, List.find?_filter]
  exact congrArg (fun q => (w.boards.find? q).isSome) (funext hsame)

theorem hasPosts_eq_false : hasPosts board w = false ↔
    ∀ id row, w.posts.get? id = some row → row.boardSlug ≠ board := by
  simp only [hasPosts, List.any_eq_false, decide_eq_true_eq, Prod.forall, RowTable.mem_rows_iff]

theorem hasPosts_deletePostsOf (board : Text) (w : World) :
    hasPosts board { w with posts := w.deletePostsOf board } = false := by
  rw [hasPosts_eq_false]
  intro id row hrow
  rw [World.deletePostsOf, RowTable.get?_filterRows, Option.filter_eq_some_iff] at hrow
  simpa using hrow.2

end Posted

/-- SQLite lets no operation break a foreign key. -/
theorem run_foreignKeys (py : Py) (op : Op) {w : World} (h : ForeignKeys w) :
    ForeignKeys (op.run py w).2 := by
  cases op with
  | addBoard slug description now =>
    rw [Op.run, Op.check]
    split
    · intro id row hrow
      rw [World.getBoard, List.find?_append, Option.isSome_or, Bool.or_eq_true]
      exact .inl (h id row hrow)
    · exact h
  | deletePostsOf board =>
    intro id row hrow
    have hold := (RowTable.get?_filterRows w.posts _ id).symm.trans hrow
    rw [Option.filter_eq_some_iff] at hold
    exact h id row hold.1
  | deleteBoard board =>
    rw [Op.run, Op.check]
    split
    · next hposts =>
      intro id row hrow
      have hother : row.boardSlug ≠ board :=
        of_decide_eq_true (List.all_eq_true.mp hposts _ ((RowTable.mem_rows_iff _ id row).mpr hrow))
      exact (getBoard_other hother).trans (h id row hrow)
    · exact h
  | deletePost id' =>
    rw [Op.run, Op.check]
    split
    · intro id row hrow
      rw [RowTable.get?_modify] at hrow
      split at hrow
      · obtain ⟨old, hold, rfl⟩ := Option.map_eq_some_iff.mp hrow
        exact h id old hold
      · exact h id row hrow
    · exact h
  | _ => exact (posting_run (by trivial) py w).foreignKeys h

/-! ## The deletion on its way -/

section Stages

variable (sv : Services) (slug : Text) (before : World)

/-- `delete_board` after its first statement. -/
def removeBoard : Prog Text := do
  call (.deleteBoard (boardOf sv slug))
  pure (lit "OK [board=" ++ sv.py.lower slug ++ lit " deleted]")

/-- `delete_board` once the board is found. -/
def removeAll : Prog Text := do
  call (.deletePostsOf (boardOf sv slug))
  removeBoard sv slug

/-- The call returns when `m` does. -/
def ignoring (m : Prog Text) : Prog Unit := do
  let _ ← m

inductive Stage : Prog Unit → World → Prop
  | asked {w : World} (hkept : PostsKept (boardOf sv slug) before w) :
      Stage ((Call.deleteBoard slug).prog sv) w
  | found {w : World} (hkept : PostsKept (boardOf sv slug) before w)
      (hboard : (w.getBoard (boardOf sv slug)).isSome = true) : Stage (ignoring (removeAll sv slug)) w
  | cleared {w : World} (hboard : (w.getBoard (boardOf sv slug)).isSome = true)
      (hclear : hasPosts (boardOf sv slug) before = false ∨ hasPosts (boardOf sv slug) w = false) :
      Stage (ignoring (removeBoard sv slug)) w
  | ended {w : World} {result : Option Unit}
      (h : AllOrNothing (boardOf sv slug) before result w) : Stage (.finish result) w

end Stages

section Steps

variable {sv : Services} {slug : Text} {before w w' : World} {m : Prog Unit}

/-- Others keep the stage, unless they post between the statements. -/
theorem Stage.posted {op : Op} (h : Stage sv slug before m w) (hp : Posted sv.py w op w')
    (hout : m = ignoring (removeBoard sv slug) → hasPosts (boardOf sv slug) before = true →
      ∀ slug' author body now, op = .addPost slug' author body now →
        (w.users.getUser author).isSome = true → sv.py.lower slug' ≠ boardOf sv slug) :
    Stage sv slug before m w' := by
  cases h with
  | asked hkept => exact .asked (hp.postsKept hkept)
  | found hkept hboard => exact .found (hp.postsKept hkept) (by rw [hp.getBoard, hboard])
  | ended h => exact .ended (hp.allOrNothing h)
  | cleared hboard hclear =>
    refine .cleared (by rw [hp.getBoard, hboard]) ?_
    cases hbefore : hasPosts (boardOf sv slug) before with
    | false => exact .inl rfl
    | true =>
      rw [hbefore] at hclear
      have hnone := hclear.resolve_left nofun
      rcases hp.posts with hposts | ⟨slug', author, body, now, rfl, -, hauthor, hposts⟩
      · exact .inr (by rw [hasPosts, hposts]; exact hnone)
      · have hother := hout rfl hbefore slug' author body now rfl hauthor
        refine .inr ?_
        simp only [hasPosts, hposts, RowTable.insert, List.any_append, List.any_cons, List.any_nil,
          Bool.or_false, Bool.or_eq_false_iff, decide_eq_false_iff_not]
        exact ⟨hnone, hother⟩

/-- The deletion performs its next operation. -/
theorem Stage.resume {op : Op} {k : Option op.Res → Prog Unit}
    (h : Stage sv slug before (.await op k) w) (hfk : ForeignKeys w) :
    Stage sv slug before (k (op.run sv.py w).1) (op.run sv.py w).2 := by
  generalize hm : Coroutine.await op k = m at h
  cases h with
  | asked hkept =>
    cases hm
    cases hfound : w.getBoard (boardOf sv slug) with
    | none =>
      have hrun : Op.run sv.py (.getBoard (sv.py.lower slug)) w = (some none, w) := by
        rw [Op.run, ← hfound]
        rfl
      rw [hrun]
      refine .ended (.inl ⟨hfound, fun id row hrow hon => ?_⟩)
      have hboard := hfk id row hrow
      rw [hon, hfound] at hboard
      cases hboard
    | some board =>
      have hrun : Op.run sv.py (.getBoard (sv.py.lower slug)) w = (some (some board), w) := by
        rw [Op.run, ← hfound]
        rfl
      rw [hrun]
      exact .found hkept (by rw [hfound]; rfl)
  | found hkept hboard =>
    cases hm
    exact .cleared hboard (.inr (hasPosts_deletePostsOf ..))
  | cleared hboard hclear =>
    cases hm
    have hcheck : (w.posts.rows.all fun p => p.2.boardSlug ≠ boardOf sv slug) =
        !hasPosts (boardOf sv slug) w := by
      simp [hasPosts, List.not_any_eq_all_not]
    cases hposts : hasPosts (boardOf sv slug) w with
    | true =>
      have hrun : Op.run sv.py (.deleteBoard (boardOf sv slug)) w = (none, w) := by
        rw [Op.run, hcheck, hposts]
        rfl
      have hbefore : hasPosts (boardOf sv slug) before = false :=
        hclear.resolve_right (by rw [hposts]; decide)
      rw [hrun]
      refine .ended (.inr ⟨rfl, hboard, fun id row hrow hon => ?_⟩)
      exact absurd hon (hasPosts_eq_false.mp hbefore id row hrow)
    | false =>
      have hrun : Op.run sv.py (.deleteBoard (boardOf sv slug)) w =
          (some (), { w with boards := w.boards.filter fun b => b.slug ≠ boardOf sv slug }) := by
        rw [Op.run, hcheck, hposts]
        rfl
      rw [hrun]
      exact .ended (.inl ⟨getBoard_removed .., hasPosts_eq_false.mp hposts⟩)
  | ended => cases hm

theorem Stage.of_finish {result : Option Unit} (h : Stage sv slug before (.finish result) w) :
    AllOrNothing (boardOf sv slug) before result w := by
  generalize hm : Coroutine.finish result = m at h
  cases h with
  | ended h =>
    cases hm
    exact h
  | _ => cases hm

end Steps

/-! ## Runs -/

section Guarantee

variable {sv : Services}

theorem Op.Reads.posting (op : Op) (h : op.Reads) : Posting op := by
  cases op <;> trivial

theorem posting_ofMessage {msg : InboundMessage} (h : (Call.radioPost msg).isPost sv = true)
    {op : Op} (hop : Dispatcher.OfMessage sv msg op) : Posting op := by
  obtain ⟨parsed, hparse, hverb⟩ := (Option.any_eq_true ..).mp h
  rw [decide_eq_true_eq] at hverb
  rcases hop with hop | rfl | ⟨parsed', hparse', hop⟩
  · cases op <;> trivial
  · trivial
  · cases hparse.symm.trans hparse'
    rw [hverb] at hop
    cases op <;> first | trivial | exact absurd hop.1 (by decide)

/-- The tasks that post perform only the operations of a post. -/
theorem sound (sv : Services) :
    Pool.Sound (Op.run sv.py) (Call.prog sv) (fun w e => Outside.run w e) (fun _ _ => True)
      fun call op _ => call.isPost sv = true → Posting op where
  trans _ _ _ _ _ := trivial
  op _ _ _ _ := trivial
  outside _ _ _ _ := trivial
  prog call s := by
    have hmeets {m : Prog Unit} {P : Op → Prop} (h : m.Does P)
        (hP : ∀ op, P op → call.isPost sv = true → Posting op) :
        m.Safe (Op.run sv.py) (fun _ _ => True)
          (fun op _ => call.isPost sv = true → Posting op) (fun _ _ => True) s :=
      h.meets (fun _ _ => Op.mayRaise_of_run) (fun op _ => hP op) s
    cases call with
    | deleteBoard slug =>
      have hdelete : (sv.deleteBoard slug).Does fun _ => True :=
        deleteBoard_does (fun _ _ => trivial) (fun _ => trivial) fun _ => trivial
      exact hmeets (hdelete.bind fun _ => sat_pure trivial) fun _ _ => nofun
    | radioPost msg =>
      exact hmeets Dispatcher.handleInbound_ofMessage fun op hop hpost => posting_ofMessage hpost hop
    | dashboardPost slug author body =>
      exact hmeets (apiBoardPostsCreate_does sv Op.Reads.posting (fun _ _ _ _ => trivial)
        (fun _ _ _ => trivial) slug author body) fun op hop _ => hop

end Guarantee

section Runs

variable {sv : Services} {slug : Text} {before : World} {i : Nat} {p p' : Tasks}

/-- The task `i` deletes the board, and the others post. -/
structure Deleting (sv : Services) (slug : Text) (before : World) (i : Nat) (p : Tasks) : Prop where
  foreignKeys : ForeignKeys p.state
  others : ∀ j t, p.tasks[j]? = some t → j ≠ i → t.1.isPost sv = true
  stage : ∃ m, p.tasks[i]? = some (.deleteBoard slug, m) ∧ Stage sv slug before m p.state

theorem foreignKeys_step {a : Pool.Act Call Outside} (h : ForeignKeys p.state)
    (hs : step sv p a = some p') : ForeignKeys p'.state := by
  cases Pool.step_cases hs with
  | spawn => exact h
  | outside he => exact (posted_of_frame (Outside.frame he) sv.py .time).foreignKeys h
  | resume => exact run_foreignKeys _ _ h

theorem stage_step (h : Deleting sv slug before i p)
    (hnext : ∀ (j : Nat) (l : Call) (op : Op) (k : Option op.Res → Prog Unit),
      p.tasks[j]? = some (l, .await op k) → l.isPost sv = true → Posting op)
    {a : Pool.Act Call Outside} (hout : keepsOut sv (boardOf sv slug) i before p a = true)
    (hs : step sv p a = some p') :
    ∃ m, p'.tasks[i]? = some (.deleteBoard slug, m) ∧ Stage sv slug before m p'.state := by
  obtain ⟨m, hi, hstage⟩ := h.stage
  have hlt : i < p.tasks.length := (List.getElem?_eq_some_iff.mp hi).1
  cases Pool.step_cases hs with
  | spawn => exact ⟨m, by rwa [List.getElem?_append_left hlt], hstage⟩
  | outside he =>
    have hposted := posted_of_frame (Outside.frame he) sv.py .time
    exact ⟨m, hi, hstage.posted hposted fun _ _ _ _ _ _ hop => nomatch hop⟩
  | @resume j l op k hj =>
    by_cases hji : j = i
    · subst hji
      cases hi.symm.trans hj
      exact ⟨_, List.getElem?_set_self hlt, hstage.resume h.foreignKeys⟩
    · have hposted := posting_run (hnext j l op k hj (h.others j _ hj hji)) sv.py p.state
      refine ⟨m, by rwa [List.getElem?_set_ne hji], hstage.posted hposted ?_⟩
      rintro rfl hbefore slug' author body now rfl hauthor hslug
      have hbetween : betweenStatements p.tasks[i]? = true := by
        rw [hi]
        rfl
      have hposts : postsOn sv (boardOf sv slug) p.state p.tasks[j]? = true := by
        rw [hj]
        simp [postsOn, hslug, hauthor]
      rw [keepsOut, hbefore, hbetween, hposts] at hout
      cases hout

/-- **A deletion takes all or nothing.**  Among any number of posts, when the deletion ends,
the board and its posts are gone, or it has raised and the board is there with every post
that it had before; provided that nobody posts on the board between its two statements. -/
theorem all_or_nothing {w : World} (hfk : ForeignKeys w)
    (h1 : Machine.Run (step sv) (fun p a => othersPost sv p a = true) ⟨w, []⟩ p)
    (h2 : Machine.Run (step sv)
      (fun q a => (othersPost sv q a &&
        keepsOut sv (boardOf sv slug) p.tasks.length p.state q a) = true)
      (withDeletion sv slug p) p')
    {result : Option Unit} (hend : ended p'.tasks[p.tasks.length]? = some result) :
    AllOrNothing (boardOf sv slug) p.state result p'.state := by
  have hfk : ForeignKeys p.state :=
    h1.invariant (P := fun q => ForeignKeys q.state) (fun _ _ _ h _ hs => foreignKeys_step h hs) hfk
  have hlabels : ∀ t ∈ p.tasks, t.1.isPost sv = true := by
    refine h1.invariant (P := fun q => ∀ t ∈ q.tasks, t.1.isPost sv = true)
      (fun q a q' h hok hs => ?_) nofun
    refine (Pool.step_cases hs).forall_label (Q := fun call => call.isPost sv = true) h ?_
    rintro _ rfl
    exact hok
  have hrun : Machine.Run (step sv) (fun _ _ => True) ⟨w, []⟩
      (withDeletion sv slug p) :=
    .tail (h1.mono fun _ _ _ => trivial) (a := .spawn (.deleteBoard slug)) trivial rfl
  have hdeleting : Deleting sv slug p.state p.tasks.length
      (withDeletion sv slug p) := by
    refine ⟨hfk, fun j t hj hne => ?_, _, List.getElem?_concat_length, .asked fun _ _ hrow _ => hrow⟩
    rw [withDeletion, List.getElem?_append] at hj
    split at hj
    · exact hlabels t (List.mem_of_getElem? hj)
    · have hlt := (List.getElem?_eq_some_iff.mp hj).1
      rw [List.length_singleton] at hlt
      omega
  -- every state on the way is reached from `w`, so that the others keep to the guarantee
  have hdone : Deleting sv slug p.state p.tasks.length p' := by
    refine (h2.invariant (P := fun q => Machine.Run (step sv) (fun _ _ => True) ⟨w, []⟩ q ∧
      Deleting sv slug p.state p.tasks.length q) (fun q a q' ⟨hreach, hq⟩ hok hs => ?_)
      ⟨hrun, hdeleting⟩).2
    rw [Bool.and_eq_true] at hok
    refine ⟨hreach.tail trivial hs, foreignKeys_step hq.foreignKeys hs, fun j t hj hne => ?_, ?_⟩
    · rcases (Pool.step_cases hs).label hj with ⟨m, hold⟩ | rfl
      · exact hq.others j (t.1, m) hold hne
      · exact hok.1
    · refine stage_step hq (fun j l op k hj => ?_) hok.2 hs
      exact (sound sv).guarantee (fun _ => trivial) rfl hreach hj
  obtain ⟨m, hm, hstage⟩ := hdone.stage
  rw [hm] at hend
  cases m with
  | finish r =>
    cases hend
    exact hstage.of_finish
  | await => cases hend

end Runs

/-! ## A sample -/

section Sample

open Process (asciiServices)

/-- `aa` has posted on the one board. -/
def onePost : World :=
  { World.start 100 with
    users := (UserTable.empty.upsertUserFirstSeen (lit "aa") none 0).1
    boards := [⟨lit "gen", [], 0⟩]
    posts := RowTable.empty.insert ⟨lit "gen", lit "aa", lit "hi", 0, false⟩ }

theorem foreignKeys_onePost : ForeignKeys onePost := by
  intro id row hrow
  rw [onePost, RowTable.get?_insert] at hrow
  split at hrow
  · cases hrow
    decide
  · cases hrow

def late : Call := .dashboardPost (lit "gen") (lit "aa") (lit "late")

/-- The post `late` waits for its `INSERT` and makes it before the deletion begins. -/
theorem all_or_nothing_late : ∃ p p',
    Machine.Run (step asciiServices) (fun p a => othersPost asciiServices p a = true)
      ⟨onePost, []⟩ p ∧
    Machine.Run (step asciiServices)
      (fun q a => (othersPost asciiServices q a && keepsOut asciiServices
        (boardOf asciiServices (lit "gen")) p.tasks.length p.state q a) = true)
      (withDeletion asciiServices (lit "gen") p) p' ∧
    ended p'.tasks[p.tasks.length]? = some (some ()) ∧
    AllOrNothing (boardOf asciiServices (lit "gen")) p.state (some ()) p'.state := by
  obtain ⟨p, h1, hp⟩ := Machine.exists_run (step asciiServices) (othersPost asciiServices)
    (p := fun p => (Machine.exec (step asciiServices)
      (fun q a => othersPost asciiServices q a && keepsOut asciiServices
        (boardOf asciiServices (lit "gen")) p.tasks.length p.state q a)
      (withDeletion asciiServices (lit "gen") p) [.resume 1, .resume 0, .resume 1, .resume 1]).any
      fun p' => ended p'.tasks[p.tasks.length]? = some (some ()))
    (s := ⟨onePost, []⟩) [.spawn late, .resume 0, .resume 0, .resume 0] (by decide +kernel)
  obtain ⟨p', h2, hend⟩ := Machine.exists_run _ _ _ hp
  rw [decide_eq_true_eq] at hend
  exact ⟨p, p', h1, h2, hend, all_or_nothing foreignKeys_onePost h1 h2 hend⟩

/-- The post `late` comes in between the two statements: the deletion raises, and the first
post is gone although the board is still there. -/
theorem deleted_halfway : ForeignKeys onePost ∧ ∃ p',
    Machine.Run (step asciiServices) (fun p a => othersPost asciiServices p a = true)
      (withDeletion asciiServices (lit "gen") ⟨onePost, []⟩) p' ∧
    ended p'.tasks[0]? = some none ∧
    (p'.state.getBoard (boardOf asciiServices (lit "gen"))).isSome = true ∧
    (p'.state.posts.get? 1).isNone = true ∧
    ¬ AllOrNothing (boardOf asciiServices (lit "gen")) onePost none p'.state := by
  refine ⟨foreignKeys_onePost, ?_⟩
  obtain ⟨p', hrun, hp⟩ := Machine.exists_run (step asciiServices) (othersPost asciiServices)
    (p := fun p' => ended p'.tasks[0]? = some none &&
      (p'.state.getBoard (boardOf asciiServices (lit "gen"))).isSome &&
      (p'.state.posts.get? 1).isNone)
    (s := withDeletion asciiServices (lit "gen") ⟨onePost, []⟩)
    [.resume 0, .resume 0, .spawn late, .resume 1, .resume 1, .resume 1, .resume 1, .resume 0]
    (by decide +kernel)
  rw [Bool.and_eq_true, Bool.and_eq_true, decide_eq_true_eq] at hp
  obtain ⟨⟨hend, hboard⟩, hgone⟩ := hp
  refine ⟨p', hrun, hend, hboard, hgone, ?_⟩
  rintro (⟨hnone, -⟩ | ⟨-, -, hkept⟩)
  · rw [hnone] at hboard
    cases hboard
  · rw [hkept 1 ⟨lit "gen", lit "aa", lit "hi", 0, false⟩ rfl rfl] at hgone
    cases hgone

end Sample

end BoardDeletion

end Bbs
