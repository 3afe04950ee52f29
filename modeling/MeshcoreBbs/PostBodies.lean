import MeshcoreBbs.Mailbox

/-!
# The bodies of posts

`BoardsService.post` looks whether anything is left of a stripped body, and at its length,
before it takes the control characters out.  What is stored is clean and short enough for
every body, and it is empty exactly if the body had nothing else in it (`posts_clean`).
-/

namespace Bbs

open Coroutine Dispatcher

/-- What `_strip_control_chars` keeps. -/
def keptChar (c : Char) : Bool := c = '\n' || c = '\t' || 0x20 ≤ c.toNat

/-- What `post` gets for a body. -/
def Request.postBody (sv : Services) : Request → Option Text
  | .inbound msg => (Commands.parse sv.py msg.body).bind fun parsed =>
    if parsed.verb = lit "POST" then
      parsed.args.head?.map fun slug => stripLeading sv.py slug parsed.rest
    else none
  | .boardPostsCreate _ _ body => some body
  | _ => none

namespace PostBodies

/-- Something is there, and no control character but for newline and tab. -/
structure Clean (body : Text) : Prop where
  nonempty : body ≠ []
  chars : ∀ c ∈ body, 0x20 ≤ c.toNat ∨ c = '\n' ∨ c = '\t'

/-- What is left of the body, if anything, is not all control characters. -/
def Legible (body : Text) : Prop := strip body ≠ [] → ∃ c ∈ strip body, keptChar c = true

/-! ## One post -/

section Post

variable {sv : Services} {w : World} {slug body : Text} {author : Pubkey}

/-- `post` does not refuse: the board and the author are there, and the body fits. -/
structure Accepts (sv : Services) (w : World) (slug : Text) (author : Pubkey) (body : Text) : Prop where
  isSlug : Services.isSlug (sv.py.lower slug) = true
  board : (w.getBoard (sv.py.lower (sv.py.lower slug))).isSome = true
  nonempty : strip body ≠ []
  fits : (strip body).length ≤ sv.maxBodyChars
  known : (w.users.getUser author).isSome = true

/-- The answer to a post that is stored. -/
def okPost (id : Nat) : Text := lit "OK [id=" ++ decimal id ++ lit "]"

/-- The row that is stored. -/
def newPost (sv : Services) (w : World) (slug : Text) (author : Pubkey) (body : Text) : BoardPostRow :=
  ⟨sv.py.lower (sv.py.lower slug), author, Services.stripControlChars (strip body), w.now, false⟩

/-- What `post` promises: a stored body is clean and fits, and a refusal changes nothing. -/
structure PostLaw (sv : Services) (w : World) (slug : Text) (author : Pubkey) (body : Text) : Prop where
  stored : ((sv.post slug author body).run (Op.run sv.py) w).2.posts = w.posts ∨
    ∃ row, ((sv.post slug author body).run (Op.run sv.py) w).2.posts = w.posts.insert row ∧
      Clean row.body ∧ row.body.length ≤ sv.maxBodyChars
  refused : (∀ id, ((sv.post slug author body).run (Op.run sv.py) w).1 ≠ some (okPost id)) →
    ((sv.post slug author body).run (Op.run sv.py) w).2.posts = w.posts

theorem stripControlChars_eq (s : Text) : Services.stripControlChars s = s.filter keptChar := rfl

theorem chars_of_stripControlChars {s : Text} {c : Char} (h : c ∈ Services.stripControlChars s) :
    0x20 ≤ c.toNat ∨ c = '\n' ∨ c = '\t' := by
  rw [stripControlChars_eq, List.mem_filter] at h
  have hkept := h.2
  simp only [keptChar, Bool.or_eq_true, decide_eq_true_eq] at hkept
  tauto

theorem stripControlChars_ne_nil_iff {s : Text} :
    Services.stripControlChars s ≠ [] ↔ ∃ c ∈ s, keptChar c = true := by
  rw [stripControlChars_eq, ne_eq, List.filter_eq_nil_iff]
  push Not
  rfl

/-- What is stored is clean if anything of the body is kept. -/
theorem clean_stored (h : ∃ c ∈ strip body, keptChar c = true) :
    Clean (Services.stripControlChars (strip body)) :=
  ⟨stripControlChars_ne_nil_iff.mpr h, fun _ => chars_of_stripControlChars⟩

theorem run_post_of_accepts (h : Accepts sv w slug author body) :
    (sv.post slug author body).run (Op.run sv.py) w = (some (okPost (w.posts.seq + 1)),
      { w with posts := w.posts.insert (newPost sv w slug author body) }) := by
  obtain ⟨board, hboard⟩ := Option.isSome_iff_exists.mp h.board
  have hget : (call (.getBoard (sv.py.lower slug))).run (Op.run sv.py) w = (some (some board), w) := by
    rw [← hboard]
    rfl
  have htime : (call .time).run (Op.run sv.py) w = (some w.clock, w) := rfl
  have hfits := h.fits
  have hadd : (call (.addPost (sv.py.lower slug) author (Services.stripControlChars (strip body))
      ⌊w.clock⌋)).run (Op.run sv.py) w = (some (w.posts.seq + 1),
        { w with posts := w.posts.insert (newPost sv w slug author body) }) := by
    rw [run_perform, Op.run, hboard, h.known]
    rfl
  unfold Services.post
  dsimp only
  rw [if_neg (by simp [h.isSlug]), run_bind_of_some hget]
  dsimp only
  rw [if_neg h.nonempty, if_neg (by omega), run_bind_of_some htime]
  exact run_bind_of_some hadd _

/-- A post that is not accepted leaves the posts alone. -/
theorem run_post_of_not_accepts (h : ¬ Accepts sv w slug author body) :
    ((sv.post slug author body).run (Op.run sv.py) w).2.posts = w.posts := by
  have hget : (call (.getBoard (sv.py.lower slug))).run (Op.run sv.py) w =
    (some (w.getBoard (sv.py.lower (sv.py.lower slug))), w) := rfl
  have htime : (call .time).run (Op.run sv.py) w = (some w.clock, w) := rfl
  unfold Services.post
  dsimp only
  split
  · rfl
  next hslug =>
  rw [run_bind_of_some hget]
  cases hboard : w.getBoard (sv.py.lower (sv.py.lower slug)) with
  | none => rfl
  | some board =>
    dsimp only
    split
    · rfl
    next hempty =>
    split
    · rfl
    next hlong =>
    have hunknown : (w.users.getUser author).isSome = false := by
      by_contra hknown
      rw [Bool.not_eq_false] at hknown
      exact h ⟨by simpa using hslug, by rw [hboard]; rfl, hempty, by omega, hknown⟩
    rw [run_bind_of_some htime, run_bind, run_perform, Op.run, hunknown, Bool.and_false]
    rfl

theorem postLaw_iff : PostLaw sv w slug author body ↔
    (Accepts sv w slug author body → ∃ c ∈ strip body, keptChar c = true) := by
  by_cases hok : Accepts sv w slug author body
  · have hrun := run_post_of_accepts hok
    have hfits := hok.fits
    constructor
    · intro h _
      rcases h.stored with hsame | ⟨row, hrow, hclean, -⟩
      · rw [hrun] at hsame
        have hseq := congrArg RowTable.seq hsame
        simp at hseq
      · rw [hrun] at hrow
        have hrows := List.append_cancel_left (congrArg RowTable.rows hrow)
        have hbody : Services.stripControlChars (strip body) = row.body :=
          congrArg BoardPostRow.body (Prod.ext_iff.mp (List.cons.inj hrows).1).2
        exact stripControlChars_ne_nil_iff.mp (hbody ▸ hclean.nonempty)
    · intro h
      refine ⟨.inr ⟨newPost sv w slug author body, by rw [hrun], clean_stored (h hok), ?_⟩, ?_⟩
      · have hle : (Services.stripControlChars (strip body)).length ≤ (strip body).length :=
          List.length_filter_le ..
        show ((Services.stripControlChars (strip body)).length : Int) ≤ _
        omega
      · intro hno
        exact absurd (congrArg Prod.fst hrun) (hno _)
  · have hsame := run_post_of_not_accepts hok
    exact iff_of_true ⟨.inl hsame, fun _ => hsame⟩ fun h => absurd h hok

end Post

/-! ## What a request posts -/

/-- Nothing is posted but a body with `Q`. -/
def Posts (Q : Text → Prop) : Op → Prop
  | .addPost _ _ body _ => Q body
  | _ => True

/-- `post` stores this for the body `raw`. -/
def StoredFor (raw body : Text) : Prop :=
  strip raw ≠ [] ∧ body = Services.stripControlChars (strip raw)

/-- The request posts nothing but what it got. -/
def Own (sv : Services) (r : Request) : Op → Prop :=
  Posts fun body => ∃ raw ∈ r.postBody sv, StoredFor raw body

section Requests

variable {sv : Services} {Q : Text → Prop} {slug raw : Text} {pk : Pubkey} {parsed : ParsedCommand}
  {msg : InboundMessage}

instance (pk : Pubkey) (Q : Text → Prop) : Op.Receives pk (Posts Q) where
  reads op _ := by cases op <;> trivial
  answers _ _ := trivial
  audits _ _ _ := trivial
  rates _ _ _ := trivial
  motd := trivial
  mails _ _ := trivial
  mail _ := trivial
  sees _ _ := trivial
  inserts _ _ := trivial
  touches _ _ := trivial
  notices _ := trivial

theorem post_posts (hQ : ∀ body, StoredFor raw body → Q body) :
    (sv.post slug pk raw).Does (Posts Q) := by
  have hread (op : Op) (hop : op.Reads) : Posts Q op := admits_reads pk op hop
  unfold Services.post
  dsimp only
  refine does_ite (fun _ => sat_pure trivial) fun _ => ?_
  refine .bind (read_does hread trivial) fun board => ?_
  split
  · exact sat_pure trivial
  · refine does_ite (fun _ => sat_pure trivial) fun hempty => ?_
    refine does_ite (fun _ => sat_pure trivial) fun _ => ?_
    refine .bind (read_does hread trivial) fun now => ?_
    exact .bind (call_does (hQ _ ⟨hempty, rfl⟩)) fun id => sat_pure trivial

theorem handlePost_posts {v : Text} (hQ : ∀ slug ∈ parsed.args.head?, ∀ body,
    StoredFor (stripLeading sv.py slug parsed.rest) body → Q body) :
    (handlePost sv pk parsed v).Does (Posts Q) := by
  unfold handlePost
  split
  · exact (answer_runs ..).does
  · next slug args hargs =>
    refine .bind (read_does (admits_reads pk) trivial) fun cfg => ?_
    refine .bind (postLimits_runs (fun _ _ _ => trivial) _).does fun refused => ?_
    split
    · exact (answer_runs ..).does
    · refine does_ite (fun _ => (answer_runs ..).does) fun _ => ?_
      have hslug : slug ∈ parsed.args.head? := by rw [hargs]; rfl
      exact .bind (post_posts (hQ slug hslug)) fun text => (answer_runs ..).does

theorem handleInbound_posts : (handleInbound sv msg).Does (Own sv (.inbound msg)) := by
  have : Op.Receives msg.pubkey (Own sv (.inbound msg)) := inferInstanceAs (Op.Receives _ (Posts _))
  refine handleInbound_does (fun _ _ _ => trivial) fun parsed hparse => ?_
  refine handleCommand_of_dispatch trivial ?_
  by_cases hverb : parsed.verb = lit "POST"
  · have hdispatch : dispatch sv msg parsed = handlePost sv msg.pubkey parsed (lit "POST") := by
      simp only [dispatch, hverb]
      rfl
    rw [hdispatch]
    refine handlePost_posts fun slug hslug body hbody => ⟨_, ?_, hbody⟩
    rw [Request.postBody, hparse, Option.bind_some, if_pos hverb]
    exact Option.mem_map_of_mem _ hslug
  · refine dispatch_does (fun _ _ _ => trivial) (fun h => absurd h hverb) fun op hop => ?_
    cases op with
    | addPost => cases hop
    | _ => trivial

/-- **A request posts nothing but its own body**, which is stripped, not empty and then rid of its
control characters. -/
theorem request_posts (sv : Services) (r : Request) : (r.prog sv).Does (Own sv r) := by
  rcases r.inbound_or with ⟨msg, rfl⟩ | hr
  · exact handleInbound_posts
  by_cases hpost : ∃ slug author body, r = .boardPostsCreate slug author body
  · obtain ⟨slug, author, body, rfl⟩ := hpost
    exact apiBoardPostsCreate_of_post sv (fun op hop => admits_reads (P := Posts _) author op hop)
      (fun _ _ _ => trivial) fun _ _ => post_posts fun _ hbody => ⟨_, rfl, hbody⟩
  · refine (job_does sv hr fun slug author body h => hpost ⟨slug, author, body, h⟩).weaken
      fun op hop => ?_
    cases op with
    | addPost => cases hop
    | _ => trivial

end Requests

/-! ## Runs -/

section Runs

open Mailbox (Tasks)

variable {sv : Services} {py : Py} {w w' : World} {p p' : Tasks} {a : Pool.Act Request Outside}

/-- Every stored post is clean. -/
def AllClean (w : World) : Prop := ∀ id row, w.posts.get? id = some row → Clean row.body

/-- A post after an operation has the body of an old one, or is the one added. -/
theorem body_of_step {op : Op} {posts : RowTable BoardPostRow} (h : Op.PostStep py w op posts)
    {id : Nat} {row : BoardPostRow} (hrow : posts.get? id = some row) :
    (∃ old, w.posts.get? id = some old ∧ old.body = row.body) ∨
      ∃ slug author now, op = .addPost slug author row.body now := by
  cases h with
  | same hsame =>
    rw [hsame] at hrow
    exact .inl ⟨row, hrow, rfl⟩
  | @insert slug author body now =>
    rw [RowTable.get?_insert] at hrow
    split at hrow
    · cases hrow
      exact .inr ⟨slug, author, now, rfl⟩
    · exact .inl ⟨row, hrow, rfl⟩
  | delete =>
    rw [RowTable.get?_modify] at hrow
    split at hrow
    · obtain ⟨old, hold, rfl⟩ := Option.map_eq_some_iff.mp hrow
      exact .inl ⟨old, hold, rfl⟩
    · exact .inl ⟨row, hrow, rfl⟩
  | clear =>
    rw [World.deletePostsOf, RowTable.get?_filterRows, Option.filter_eq_some_iff] at hrow
    exact .inl ⟨row, hrow.1, rfl⟩

theorem allClean_run {op : Op} (h : AllClean w) (hop : Posts Clean op) : AllClean (op.run py w).2 := by
  intro id row hrow
  rcases body_of_step (op.run_posts py w) hrow with ⟨old, hold, hbody⟩ | ⟨slug, author, now, rfl⟩
  · exact hbody ▸ h id old hold
  · exact hop

/-- The body that the request posts, if it posts, is legible. -/
def Writes (sv : Services) (r : Request) : Prop := ∀ body ∈ r.postBody sv, Legible body

theorem clean_of_own {r : Request} (hr : Writes sv r) {op : Op} (h : Own sv r op) : Posts Clean op := by
  cases op with
  | addPost slug author body now =>
    obtain ⟨raw, hraw, hne, rfl⟩ := h
    exact clean_stored (hr raw hraw hne)
  | _ => trivial

theorem sound (sv : Services) :
    Pool.Sound (Op.run sv.py) (Request.prog sv) (fun w e => Outside.run w e) (fun _ _ => True)
      fun r op _ => Own sv r op where
  trans _ _ _ _ _ := trivial
  op _ _ _ _ := trivial
  outside _ _ _ _ := trivial
  prog r s := (request_posts sv r).meets (fun _ _ => Op.mayRaise_of_run) (fun _ _ h => h) s

/-- Every body that comes to be posted is legible. -/
def OnlyLegible (sv : Services) (_ : Tasks) (a : Pool.Act Request Outside) : Prop :=
  ∀ r, a = .spawn r → Writes sv r

/-- The invariant: clean posts, and tasks that write legible bodies. -/
def Tidy (sv : Services) (p : Tasks) : Prop := AllClean p.state ∧ ∀ t ∈ p.tasks, Writes sv t.1

theorem tidy_step (hrun : Machine.Run (Mailbox.step sv) (OnlyLegible sv) ⟨w, []⟩ p) (h : Tidy sv p)
    (ha : OnlyLegible sv p a) (hs : Mailbox.step sv p a = some p') : Tidy sv p' := by
  refine ⟨?_, (Pool.step_cases hs).forall_label (Q := Writes sv) h.2 ha⟩
  cases Pool.step_cases hs with
  | spawn => exact h.1
  | outside he =>
    intro id row hrow
    rw [(Outside.frame he).posts] at hrow
    exact h.1 id row hrow
  | @resume i r op k hi =>
    have hown : Own sv r op := (sound sv).guarantee (fun _ => trivial) rfl hrun hi
    exact allClean_run h.1 (clean_of_own (h.2 _ (List.mem_of_getElem? hi)) hown)

theorem tidy_of_run (hrun : Machine.Run (Mailbox.step sv) (OnlyLegible sv) ⟨w, []⟩ p)
    (h0 : AllClean w) : Tidy sv p := by
  induction hrun with
  | refl => exact ⟨h0, by simp⟩
  | tail hrun ha hs ih => exact tidy_step hrun ih ha hs

/-- **Stored posts are clean** and fit, and refused ones leave no trace, exactly if the bodies that
are accepted have something to read.  Then all posts are clean in every state of the process. -/
theorem posts_clean (sv : Services) :
    (∀ w slug author body, PostLaw sv w slug author body ↔
      (Accepts sv w slug author body → ∃ c ∈ strip body, keptChar c = true)) ∧
    ∀ w p, Machine.Run (Mailbox.step sv) (OnlyLegible sv) ⟨w, []⟩ p → AllClean w → AllClean p.state :=
  ⟨fun _ _ _ _ => postLaw_iff, fun _ _ hrun h0 => (tidy_of_run hrun h0).1⟩

/-- `ann` and `bob` have joined, and there is a board. -/
def opened : World :=
  (Process.twoJoin ++ [Process.Act.request (.boardsCreate (lit "gen") (lit "all"))]).foldl
    (fun w a => (Process.step Process.asciiServices w a).getD w) (World.start 0)

/-- `ann` posts. -/
def posting : Request := .inbound { pubkey := lit "aa", body := lit "POST gen hello", hops := some 0 }

/-- What is posted has something to read. -/
def onlyLegible : Pool.Act Request Outside → Bool
  | .spawn r => (r.postBody Process.asciiServices).all fun body => (strip body).any keptChar
  | _ => true

theorem posts_clean_hello : ∃ p row,
    Machine.Run (Mailbox.step Process.asciiServices) (OnlyLegible Process.asciiServices)
      ⟨opened, []⟩ p ∧
    p.state.posts.get? 1 = some row ∧ row.body = lit "hello" ∧ Clean row.body := by
  obtain ⟨p, hrun, hp⟩ := Machine.exists_run (Mailbox.step Process.asciiServices)
    (fun _ => onlyLegible)
    (p := fun p => (p.state.posts.get? 1).any fun row => row.body = lit "hello")
    (s := ⟨opened, []⟩) (.spawn posting :: List.replicate 19 (.resume 0)) (by decide +kernel)
  have hlegible : Machine.Run (Mailbox.step Process.asciiServices) (OnlyLegible Process.asciiServices)
      ⟨opened, []⟩ p := by
    refine hrun.mono fun _ a ha => ?_
    rintro r rfl body hbody -
    have hbody : r.postBody Process.asciiServices = some body := hbody
    have ha : (r.postBody Process.asciiServices).all
      (fun body => (strip body).any keptChar) = true := ha
    rw [hbody] at ha
    exact List.any_eq_true.mp ha
  obtain ⟨row, hrow, hbody⟩ := (Option.any_eq_true ..).mp hp
  rw [decide_eq_true_eq] at hbody
  have hempty : AllClean opened := by
    intro id row hrow
    have hnone : opened.posts.rows = [] := by decide +kernel
    rw [← RowTable.mem_rows_iff, hnone] at hrow
    cases hrow
  have hclean := (posts_clean Process.asciiServices).2 _ p hlegible hempty
  exact ⟨p, row, hlegible, hrow, hbody, hclean 1 row hrow⟩

/-- `ann` posts a control character, and an empty post is stored. -/
theorem empty_post : ∃ w row,
    Machine.Run (Process.step Process.asciiServices) (fun _ _ => True) (World.start 0) w ∧
    w.posts.get? 1 = some row ∧ row.body = [] ∧ ¬ Clean row.body := by
  obtain ⟨w, hrun, hw⟩ := Machine.exists_run (Process.step Process.asciiServices) (fun _ _ => true)
    (p := fun w => (w.posts.get? 1).any fun row => row.body = []) (s := World.start 0)
    (Process.twoJoin ++ [.request (.boardsCreate (lit "gen") (lit "all")),
      Process.fromUser (lit "aa") "POST gen \x01"]) (by decide +kernel)
  obtain ⟨row, hrow, hbody⟩ := (Option.any_eq_true ..).mp hw
  rw [decide_eq_true_eq] at hbody
  exact ⟨w, row, hrun.mono fun _ _ _ => trivial, hrow, hbody, fun h => h.nonempty hbody⟩

end Runs

end PostBodies

end Bbs
