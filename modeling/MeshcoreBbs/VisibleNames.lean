import MeshcoreBbs.UserNames

/-!
# What a display name looks like

The checks of a name are on its code points, and `is_emoji_char` admits two that display as
nothing.  Every form of a name that tells apart what `lower` tells apart is safe where it
agrees with the raw one.
-/

namespace Bbs

namespace Names

variable {lower : Text → Text} {name : Text}

/-- U+200D and U+FE0F, which display as nothing. -/
def invisible (c : Char) : Bool := c.toNat == 0x200d || c.toNat == 0xfe0f

/-- The name as it is seen, in lower case. -/
def visible (lower : Text → Text) (name : Text) : Text :=
  lower (name.filter fun c => !invisible c)

/-- Every character of the name is seen. -/
def Shown (name : Text) : Prop := ∀ c ∈ name, invisible c = false

theorem visible_of_shown (h : Shown name) : visible lower name = lower name := by
  unfold visible
  rw [List.filter_eq_self.mpr]
  intro c hc
  rw [h c hc]
  rfl

theorem isEmojiChar_of_invisible {c : Char} (h : invisible c = true) : isEmojiChar c = true := by
  unfold invisible at h
  unfold isEmojiChar
  dsimp only
  rw [h]
  rfl

/-- **A character that is not seen is allowed wherever it stands.** -/
theorem isAllowedNameChar_of_invisible {c : Char} (h : invisible c = true) :
    isAllowedNameChar c = true := by
  unfold isAllowedNameChar
  rw [isEmojiChar_of_invisible h, Bool.or_true]

theorem ne_nil_of_validateName (h : validateName lower name = none) : name ≠ [] := by
  rintro rfl
  rw [validateName, if_pos (by decide)] at h
  cases h

theorem notMem_reservedNames_of_validateName (h : validateName lower name = none) :
    lower name ∉ reservedNames := by
  intro hmem
  unfold validateName at h
  split at h
  · cases h
  · split at h
    · cases h
    · rw [if_pos (List.contains_iff_mem.mpr hmem)] at h
      cases h

end Names

namespace UserNames

/-- A form of the names of the table that are in `p`: it is never empty, never a reserved name,
and no two users have the same. -/
structure Apart (t : UserTable) (form : Text → Text) (p : Text → Prop) : Prop where
  nonempty : ∀ u ∈ t.rows, ∀ name ∈ u.displayName, p name → form name ≠ []
  unreserved : ∀ u ∈ t.rows, ∀ name ∈ u.displayName, p name → form name ∉ Names.reservedNames
  distinct : ∀ u ∈ t.rows, ∀ v ∈ t.rows, u.pubkey ≠ v.pubkey →
    ∀ name ∈ u.displayName, ∀ name' ∈ v.displayName, p name → p name' → form name ≠ form name'

theorem Apart.congr {t : UserTable} {form form' : Text → Text} {p q : Text → Prop}
    (h : Apart t form p) (hq : ∀ name, q name → p name)
    (hform : ∀ name, q name → form' name = form name) : Apart t form' q := by
  constructor
  · intro u hu name hname hp
    rw [hform name hp]
    exact h.nonempty u hu name hname (hq name hp)
  · intro u hu name hname hp
    rw [hform name hp]
    exact h.unreserved u hu name hname (hq name hp)
  · intro u hu v hv hne name hname name' hname' hp hp'
    rw [hform name hp, hform name' hp']
    exact h.distinct u hu v hv hne name hname name' hname' (hq name hp) (hq name' hp')

/-- What the checks give of the code points. -/
theorem WellNamed.apart {t : UserTable} {lower : Text → Text}
    (hlower : ∀ name, lower name = [] → name = []) (h : WellNamed lower t) :
    Apart t lower fun _ => True := by
  have hfolded {u : User} (hu : u ∈ t.rows) {name : Text} (hname : name ∈ u.displayName) :
      u.displayNameLc = some (lower name) := by
    rw [(h u hu).folded, Option.mem_def.mp hname]
    rfl
  constructor
  · intro u hu name hname _ hnil
    exact Names.ne_nil_of_validateName ((h u hu).valid name hname) (hlower name hnil)
  · intro u hu name hname _
    exact Names.notMem_reservedNames_of_validateName ((h u hu).valid name hname)
  · intro u hu v hv hne name hname name' hname' _ _ heq
    refine hne (congrArg User.pubkey ?_)
    refine t.eq_of_nameLc hu hv (hfolded hu hname) ?_
    rw [heq]
    exact hfolded hv hname'

section Runs

variable {sv : Services} {w : World}

/-- **Names told apart.**  In every reachable state a user is onboarded exactly when he has a
name, the names in lower case are not empty, not reserved and no two the same, and so is what is
seen of the names whose characters are all seen. -/
theorem names_apart (hlower : ∀ name, sv.py.lower name = [] → name = []) {clock : ℚ}
    (hrun : Machine.Run (Process.step sv) (fun _ _ => True) (World.start clock) w) :
    (∀ u ∈ w.users.rows, (u.onboarded = true ↔ u.displayName.isSome = true)) ∧
      Apart w.users sv.py.lower (fun _ => True) ∧
      Apart w.users (Names.visible sv.py.lower) Names.Shown := by
  have hwell := wellNamed_of_run hrun
  have hraw := WellNamed.apart hlower hwell
  refine ⟨fun u hu => (hwell u hu).onboarded, hraw, ?_⟩
  exact hraw.congr (fun _ _ => trivial) fun _ => Names.visible_of_shown

theorem asciiPy_lower_ne_nil : ∀ name, asciiPy.lower name = [] → name = [] := by
  intro name h
  exact List.map_eq_nil_iff.mp h

theorem names_apart_two : ∃ w : World,
    w.users.rows.filterMap User.displayName = [lit "ann", lit "bob"] ∧
    Apart w.users (Names.visible asciiPy.lower) Names.Shown := by
  obtain ⟨w, hrun, hw⟩ := Machine.exists_run (Process.step Process.asciiServices) (fun _ _ => true)
    (p := fun w => w.users.rows.filterMap User.displayName = [lit "ann", lit "bob"])
    (s := World.start 0) Process.twoJoin (by decide +kernel)
  refine ⟨w, of_decide_eq_true hw, ?_⟩
  exact (names_apart asciiPy_lower_ne_nil (hrun.mono fun _ _ _ => trivial)).2.2

/-- Four users join as `ann`, as `ann` and U+FE0F, as U+200D, and as `admin` around U+200D. -/
def lookalikesJoin : List Process.Act :=
  [Process.fromUser (lit "aa") "hi", Process.fromUser (lit "aa") "NAME ann",
    Process.fromUser (lit "bb") "hi", Process.fromUser (lit "bb") "NAME ann\ufe0f",
    Process.fromUser (lit "cc") "hi", Process.fromUser (lit "cc") "NAME \u200d",
    Process.fromUser (lit "dd") "hi", Process.fromUser (lit "dd") "NAME ad\u200dmin"]

/-- Two users are seen as `ann`, one as nothing and one as `admin`. -/
theorem lookalikes : ∃ w : World,
    Machine.Run (Process.step Process.asciiServices) (fun _ _ => True) (World.start 0) w ∧
      w.users.rows.map (fun u => (u.onboarded, u.displayName.map (Names.visible asciiPy.lower))) =
        [(true, some (lit "ann")), (true, some (lit "ann")), (true, some []),
          (true, some (lit "admin"))] ∧
      ¬ Apart w.users (Names.visible asciiPy.lower) fun _ => True := by
  obtain ⟨w, hrun, hw⟩ := Machine.exists_run (Process.step Process.asciiServices) (fun _ _ => true)
    (p := fun w => w.users.rows.map (fun u =>
      (u.onboarded, u.displayName.map (Names.visible asciiPy.lower))) =
        [(true, some (lit "ann")), (true, some (lit "ann")), (true, some []),
          (true, some (lit "admin"))])
    (s := World.start 0) lookalikesJoin (by decide +kernel)
  have hforms := of_decide_eq_true hw
  refine ⟨w, hrun.mono fun _ _ _ => trivial, hforms, fun h => ?_⟩
  have hmem : (true, some ([] : Text)) ∈ w.users.rows.map (fun u =>
      (u.onboarded, u.displayName.map (Names.visible asciiPy.lower))) := by
    rw [hforms]
    exact List.mem_cons_of_mem _ (List.mem_cons_of_mem _ List.mem_cons_self)
  obtain ⟨u, hu, hform⟩ := List.mem_map.mp hmem
  rw [Prod.mk.injEq, Option.map_eq_some_iff] at hform
  obtain ⟨_, name, hname, hnil⟩ := hform
  exact h.nonempty u hu name hname trivial hnil

end Runs

end UserNames

end Bbs
