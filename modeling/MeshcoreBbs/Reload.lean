import Mathlib.Data.List.ReduceOption
import MeshcoreBbs.OutboundWorker
import MeshcoreBbs.Process

/-!
# Reloading the configuration (`config.py`, `__main__.py`)

`run` gives each component the section object that the `Config` refers to at the start, and
`reload` lets the `Config` refer to new ones.  So the components go on with the first
configuration, and agree with the last one as long as it decides the same
(`decides_by_last_iff`).
-/

namespace Bbs

/-! ## Sections -/

/-- The objects of a section so far, the one that the `Config` refers to, and the one that
the component was given. -/
structure Section (α : Type) where
  objects : List α
  root : Fin objects.length
  part : Fin objects.length

namespace Section

variable {α : Type}

def start (a : α) : Section α := ⟨[a], 0, 0⟩

/-- `setattr(self, name, getattr(new, name))`. -/
def replace (s : Section α) (a : α) : Section α where
  objects := s.objects ++ [a]
  root := ⟨s.objects.length, by simp⟩
  part := s.part.castLE (by simp)

def current (s : Section α) : α := s.objects[s.root]

def held (s : Section α) : α := s.objects[s.part]

@[simp] theorem current_start (a : α) : (start a).current = a := rfl

@[simp] theorem held_start (a : α) : (start a).held = a := rfl

@[simp] theorem current_replace (s : Section α) (a : α) : (s.replace a).current = a := by
  simp [current, replace]

@[simp] theorem held_replace (s : Section α) (a : α) : (s.replace a).held = s.held :=
  List.getElem_append_left s.part.isLt

end Section

/-! ## The running process -/

structure Running where
  bbs : Section BBSConfig
  limits : Section LimitsConfig
  weather : Section WeatherConfig
  mail : Section MailConfig

namespace Running

def start (cfg : Config) : Running :=
  ⟨.start cfg.bbs, .start cfg.limits, .start cfg.weather, .start cfg.mail⟩

/-- `Config.reload`; `none`: the file cannot be loaded. -/
def reload (s : Running) : Option Config → Running
  | none => s
  | some new => ⟨s.bbs.replace new.bbs, s.limits.replace new.limits,
      s.weather.replace new.weather, s.mail.replace new.mail⟩

/-- The state after these reloads. -/
def after (cfg : Config) (loads : List (Option Config)) : Running := loads.foldl reload (start cfg)

/-- What the dispatcher reads. -/
def config (s : Running) : Config :=
  ⟨s.bbs.current, s.limits.current, s.weather.current, s.mail.current⟩

/-- `AdminService`, `WeatherService` and `MailService` with what they were given. -/
def services (s : Running) (sv : Services) : Services :=
  { sv with bbs := s.bbs.held, weather := s.weather.held, mail := s.mail.held }

/-- `OutboundWorker.limits`. -/
def workerLimits (s : Running) : LimitsConfig := s.limits.held

end Running

/-- The configuration of the last load that succeeded. -/
def lastLoaded (cfg : Config) (loads : List (Option Config)) : Config :=
  loads.reduceOption.getLast?.getD cfg

/-- The lower-cased admin keys of the new-user notices. -/
def BBSConfig.adminsLower (py : Py) (bbs : BBSConfig) : List Text := bbs.adminPubkeys.map py.lower

/-- All decide by the configuration. -/
structure DecidesBy (sv : Services) (s : Running) (cfg : Config) : Prop where
  dispatcher : s.config = cfg
  admins : ∀ pk, (s.services sv).isAdmin pk = true ↔ sv.py.lower pk ∈ cfg.bbs.adminsLower sv.py
  online : (s.services sv).mail.onlineThresholdSeconds = cfg.mail.onlineThresholdSeconds
  notify : (s.services sv).mail.notifyMinIntervalSeconds = cfg.mail.notifyMinIntervalSeconds
  minGap : s.workerLimits.minGap = cfg.limits.minGap
  recipMinGap : s.workerLimits.recipMinGap = cfg.limits.recipMinGap

/-- Both configurations name the same admins and have the same thresholds and gaps. -/
structure SameDecisions (py : Py) (cfg new : Config) : Prop where
  granted : ∀ k ∈ new.bbs.adminsLower py, k ∈ cfg.bbs.adminsLower py
  revoked : ∀ k ∈ cfg.bbs.adminsLower py, k ∈ new.bbs.adminsLower py
  online : cfg.mail.onlineThresholdSeconds = new.mail.onlineThresholdSeconds
  notify : cfg.mail.notifyMinIntervalSeconds = new.mail.notifyMinIntervalSeconds
  minInterval : cfg.limits.outboundMinIntervalMs = new.limits.outboundMinIntervalMs
  recipMinInterval : cfg.limits.outboundPerRecipientMinIntervalMs =
    new.limits.outboundPerRecipientMinIntervalMs

variable {cfg : Config} {loads : List (Option Config)} {load : Option Config}

namespace Running

theorem after_append : after cfg (loads ++ [load]) = (after cfg loads).reload load :=
  List.foldl_append

/-- The components keep what they were given. -/
theorem held_after (cfg : Config) (loads : List (Option Config)) :
    (after cfg loads).bbs.held = cfg.bbs ∧ (after cfg loads).limits.held = cfg.limits ∧
    (after cfg loads).weather.held = cfg.weather ∧ (after cfg loads).mail.held = cfg.mail := by
  induction loads using List.reverseRecOn with
  | nil => exact ⟨rfl, rfl, rfl, rfl⟩
  | append_singleton loads load ih =>
    rw [after_append]
    cases load with
    | none => exact ih
    | some new => simpa [reload] using ih

/-- The dispatcher sees the last load that succeeded. -/
theorem config_after : (after cfg loads).config = lastLoaded cfg loads := by
  induction loads using List.reverseRecOn with
  | nil => rfl
  | append_singleton loads load ih =>
    rw [after_append, lastLoaded, List.reduceOption_append]
    cases load with
    | none => simpa [reload, lastLoaded] using ih
    | some new => simp [reload, config, List.reduceOption]

/-- The services of the process are those of its start. -/
theorem services_after (sv : Services) :
    (after cfg loads).services sv = (start cfg).services sv := by
  obtain ⟨hbbs, -, hweather, hmail⟩ := held_after cfg loads
  simp only [services, hbbs, hweather, hmail]
  rfl

end Running

/-- The reload of the process is this one. -/
theorem Outside.run_reload {w : World} (hw : w.cfg = (Running.after cfg loads).config)
    (load : Option Config) : ∃ w', Outside.run w (.reload (load.getD w.cfg)) = some w' ∧
      w'.cfg = (Running.after cfg (loads ++ [load])).config := by
  refine ⟨_, rfl, ?_⟩
  rw [Running.after_append]
  cases load with
  | none => exact hw
  | some new => simp [Running.reload, Running.config]

/-! ## Who decides by what -/

theorem DecidesBy.of_same {sv : Services} {new : Config} (h : SameDecisions sv.py cfg new)
    (hnew : lastLoaded cfg loads = new) : DecidesBy sv (Running.after cfg loads) new := by
  obtain ⟨hbbs, hlimits, -, hmail⟩ := Running.held_after cfg loads
  have hadmins (pk : Pubkey) : ((Running.after cfg loads).services sv).isAdmin pk = true ↔
      sv.py.lower pk ∈ cfg.bbs.adminsLower sv.py := by
    simp [Services.isAdmin, Running.services, hbbs, BBSConfig.adminsLower]
  exact {
    dispatcher := Running.config_after.trans hnew
    admins := fun pk => (hadmins pk).trans ⟨h.revoked _, h.granted _⟩
    online := (congrArg MailConfig.onlineThresholdSeconds hmail).trans h.online
    notify := (congrArg MailConfig.notifyMinIntervalSeconds hmail).trans h.notify
    minGap := by
      rw [Running.workerLimits, hlimits, LimitsConfig.minGap, h.minInterval]
      rfl
    recipMinGap := by
      rw [Running.workerLimits, hlimits, LimitsConfig.recipMinGap, h.recipMinInterval]
      rfl }

theorem SameDecisions.of_decides {sv : Services} {new : Config}
    (h : DecidesBy sv (Running.after cfg loads) new) : SameDecisions sv.py cfg new := by
  obtain ⟨hbbs, hlimits, -, hmail⟩ := Running.held_after cfg loads
  have hadmins (pk : Pubkey) : sv.py.lower pk ∈ cfg.bbs.adminsLower sv.py ↔
      sv.py.lower pk ∈ new.bbs.adminsLower sv.py := by
    rw [← h.admins pk]
    simp [Services.isAdmin, Running.services, hbbs, BBSConfig.adminsLower]
  have hgap : cfg.limits.minGap = new.limits.minGap := hlimits ▸ h.minGap
  have hrecip : cfg.limits.recipMinGap = new.limits.recipMinGap := hlimits ▸ h.recipMinGap
  have hcancel {a b : Int} (hab : (a : ℚ) / 1000 = b / 1000) : a = b := by
    rw [div_left_inj' (by norm_num)] at hab
    exact_mod_cast hab
  refine {
    granted := fun k hk => ?_
    revoked := fun k hk => ?_
    online := (congrArg MailConfig.onlineThresholdSeconds hmail).symm.trans h.online
    notify := (congrArg MailConfig.notifyMinIntervalSeconds hmail).symm.trans h.notify
    minInterval := hcancel hgap
    recipMinInterval := hcancel hrecip }
  · obtain ⟨pk, -, rfl⟩ := List.mem_map.mp hk
    exact (hadmins pk).mpr hk
  · obtain ⟨pk, -, rfl⟩ := List.mem_map.mp hk
    exact (hadmins pk).mp hk

theorem SameDecisions.refl (py : Py) (cfg : Config) : SameDecisions py cfg cfg :=
  ⟨fun _ h => h, fun _ h => h, rfl, rfl, rfl, rfl⟩

/-- **The components decide by the last configuration that was loaded**, all along a run of
reloads, exactly if every configuration loaded decides the same as the first. -/
theorem decides_by_last_iff (sv : Services) (cfg : Config) (loads : List (Option Config)) :
    (∀ past, past <+: loads → DecidesBy sv (Running.after cfg past) (lastLoaded cfg past) ∧
      ∀ next, past ++ [none] ++ next = loads →
        Running.after cfg (past ++ [none]) = Running.after cfg past) ↔
    ∀ new, some new ∈ loads → SameDecisions sv.py cfg new := by
  constructor
  · intro h new hnew
    obtain ⟨past, next, rfl⟩ := List.append_of_mem hnew
    have hhead : past ++ [some new] <+: past ++ some new :: next := ⟨next, by simp⟩
    have hlast : lastLoaded cfg (past ++ [some new]) = new := by
      simp [lastLoaded, List.reduceOption]
    exact .of_decides (hlast ▸ (h _ hhead).1)
  · intro h past hpast
    refine ⟨.of_same ?_ rfl, fun _ _ => Running.after_append⟩
    rw [lastLoaded]
    cases hlast : past.reduceOption.getLast? with
    | none => exact .refl sv.py cfg
    | some new =>
      have hmem : some new ∈ past := List.reduceOption_mem_iff.mp (List.mem_of_getLast? hlast)
      exact h new (hpast.subset hmem)

/-- A reload that makes `bb` an admin. -/
theorem decides_by_first : ∃ new, ¬ DecidesBy Process.asciiServices
    (Running.after {} [some new]) (lastLoaded {} [some new]) := by
  refine ⟨{ bbs := { adminPubkeys := [lit "bb"] } }, fun h => ?_⟩
  have hadmin := (h.admins (lit "bb")).mpr (by decide)
  exact absurd hadmin (by decide)

end Bbs
