import MeshcoreBbs.Python

/-!
# The weather summary (`services/weather.py`, `_format_summary`)

The document comes from a web service, so any JSON value is possible; `formatSummary` is
`none` where the function raises.
-/

namespace Bbs

/-- A JSON number, by what the summary makes of it. -/
structure JsonNumber where
  /-- `int(x)` -/
  toInt : Option Int
  /-- `format(x, ".0f")` -/
  fixed0 : Option Text
  /-- `round(x / 45) % 8` -/
  octant : Option (Fin 8)
  isZero : Bool
  /-- `str(x)` -/
  text : Text

inductive Json
  | null
  | bool (b : Bool)
  | number (x : JsonNumber)
  | str (s : Text)
  | arr (items : List Json)
  | obj (fields : List (Text × Json))

namespace Json

/-- `data.get(key, default)`; `none`: not a `dict`. -/
def get (data : Json) (key : Text) (default : Json) : Option Json :=
  match data with
  | obj fields => some ((fields.lookup key).getD default)
  | _ => none

/-- `bool(x)`. -/
def truthy : Json → Bool
  | null => false
  | bool b => b
  | number x => !x.isZero
  | str s => s ≠ []
  | arr items => !items.isEmpty
  | obj fields => !fields.isEmpty

/-- `x[0]`. -/
def first : Json → Option Json
  | str (c :: _) => some (str [c])
  | arr (x :: _) => some x
  | _ => none

/-- `format(x, ".0f")`. -/
def fixed0 : Json → Option Text
  | bool b => some (if b then lit "1" else lit "0")
  | number x => x.fixed0
  | _ => none

/-- `round(x / 45) % 8`. -/
def octant : Json → Option (Fin 8)
  | bool _ => some 0
  | number x => x.octant
  | _ => none

end Json

namespace Py

variable (py : Py)

/-- `int(s)` of any string. -/
def parseInt (s : Text) : Option Int :=
  let magnitude (s : Text) : Option Int :=
    let groups := s.splitOn '_'
    if groups.all (· ≠ []) then (py.int groups.flatten).map Int.ofNat else none
  match strip s with
  | '-' :: s => (magnitude s).map (- ·)
  | '+' :: s => magnitude s
  | s => magnitude s

/-- `int(x)`. -/
def jsonInt : Json → Option Int
  | .bool b => some b.toInt
  | .number x => x.toInt
  | .str s => py.parseInt s
  | _ => none

end Py

namespace Weather

def wmoCodes : List (Int × Text × Text) :=
  [(0, lit "☀️", lit "clear"), (1, lit "🌤️", lit "mainly clear"),
    (2, lit "⛅", lit "partly cloudy"), (3, lit "☁️", lit "overcast"), (45, lit "🌫️", lit "fog"),
    (48, lit "🌫️", lit "icy fog"), (51, lit "🌦️", lit "light drizzle"),
    (53, lit "🌦️", lit "drizzle"), (55, lit "🌧️", lit "heavy drizzle"),
    (61, lit "🌧️", lit "light rain"), (63, lit "🌧️", lit "rain"),
    (65, lit "🌧️", lit "heavy rain"), (71, lit "🌨️", lit "light snow"),
    (73, lit "🌨️", lit "snow"), (75, lit "❄️", lit "heavy snow"),
    (77, lit "🌨️", lit "snow grains"), (80, lit "🌦️", lit "light showers"),
    (81, lit "🌧️", lit "showers"), (82, lit "⛈️", lit "heavy showers"),
    (85, lit "🌨️", lit "snow showers"), (86, lit "❄️", lit "heavy snow showers"),
    (95, lit "⛈️", lit "thunderstorm"), (96, lit "⛈️", lit "thunderstorm w/hail"),
    (99, lit "⛈️", lit "thunderstorm w/hail")]

def windDirs (octant : Fin 8) : Text :=
  match octant with
  | 0 => lit "N"
  | 1 => lit "NE"
  | 2 => lit "E"
  | 3 => lit "SE"
  | 4 => lit "S"
  | 5 => lit "SW"
  | 6 => lit "W"
  | 7 => lit "NW"

/-- `str(code)` of what `int` accepts. -/
def codeText : Json → Text
  | .bool b => if b then lit "True" else lit "False"
  | .number x => x.text
  | .str s => s
  | _ => []

variable (py : Py)

/-- The part for a value that is not `None`. -/
def part (value : Json) (f : Json → Option Text) : Option (List Text) :=
  match value with
  | .null => some []
  | value => (f value).map fun text => [text]

def codePart (code : Json) : Option Text :=
  (py.jsonInt code).map fun n =>
    let (icon, desc) := (wmoCodes.lookup n).getD ([], lit "code " ++ codeText code)
    strip (icon ++ lit " " ++ desc)

def windPart (windSpd windDeg : Json) : Option (List Text) :=
  match windSpd, windDeg with
  | .null, _ => some []
  | _, .null => some []
  | windSpd, windDeg => do
    let compass := windDirs (← windDeg.octant)
    let speed ← windSpd.fixed0
    return [lit "💨" ++ compass ++ lit " " ++ speed ++ lit "km/h"]

def formatSummary (data : Json) (locationName : Text) : Option Text := do
  let cur ← data.get (lit "current") (.obj [])
  let temp ← cur.get (lit "temperature_2m") .null
  let code ← cur.get (lit "weather_code") .null
  let windSpd ← cur.get (lit "wind_speed_10m") .null
  let windDeg ← cur.get (lit "wind_direction_10m") .null
  let daily ← data.get (lit "daily") (.obj [])
  let precipList ← daily.get (lit "precipitation_probability_max") .null
  let precip ← if precipList.truthy then precipList.first else some .null
  let codeParts ← part code (codePart py)
  let tempParts ← part temp fun temp => temp.fixed0.map fun text => text ++ lit "°C"
  let precipParts ← part precip fun precip => (py.jsonInt precip).map fun n =>
    lit "💧" ++ decimalInt n ++ lit "%"
  let windParts ← windPart windSpd windDeg
  return (lit " ").intercalate ([locationName] ++ codeParts ++ tempParts ++ precipParts ++ windParts)

/-! ## Documents that a summary can be made of -/

/-- `precip_list[0]`, or nothing when the list is empty or missing. -/
def precipOf (daily : List (Text × Json)) : Option Json :=
  let precipList := (daily.lookup (lit "precipitation_probability_max")).getD .null
  if precipList.truthy then precipList.first else some .null

/-- `current` and `daily` are objects, if they are there, and each value that is not `null` can be
written in its way; the wind is written when speed and direction are there. -/
structure Summarizable (current daily : List (Text × Json)) : Prop where
  code : ∀ x, current.lookup (lit "weather_code") = some x → x = .null ∨ (py.jsonInt x).isSome
  temp : ∀ x, current.lookup (lit "temperature_2m") = some x → x = .null ∨ x.fixed0.isSome
  precip : ∃ x, precipOf daily = some x ∧ (x = .null ∨ (py.jsonInt x).isSome)
  wind : ∀ speed deg, current.lookup (lit "wind_speed_10m") = some speed →
    current.lookup (lit "wind_direction_10m") = some deg →
      speed = .null ∨ deg = .null ∨ speed.fixed0.isSome ∧ deg.octant.isSome

def Readable (data : Json) : Prop :=
  ∃ current daily, data.get (lit "current") (.obj []) = some (.obj current) ∧
    data.get (lit "daily") (.obj []) = some (.obj daily) ∧ Summarizable py current daily

variable {py} {data : Json}

theorem isSome_bind_precipOf (daily : List (Text × Json)) (f : Json → Option Text) :
    (if ((daily.lookup (lit "precipitation_probability_max")).getD .null).truthy then
      ((daily.lookup (lit "precipitation_probability_max")).getD .null).first >>= f
    else some .null >>= f).isSome ↔ (precipOf daily >>= f).isSome := by
  unfold precipOf
  dsimp only
  split <;> rfl

theorem part_isSome_iff {value : Json} {f : Json → Option Text} :
    (part value f).isSome ↔ value = .null ∨ (f value).isSome := by
  cases value <;> simp [part]

theorem windPart_isSome_iff {speed deg : Json} : (windPart speed deg).isSome ↔
    speed = .null ∨ deg = .null ∨ speed.fixed0.isSome ∧ deg.octant.isSome := by
  by_cases hspeed : speed = .null
  · simp [hspeed, windPart]
  by_cases hdeg : deg = .null
  · simp [hdeg, windPart]
  have hboth : windPart speed deg = deg.octant.bind fun octant => speed.fixed0.bind fun text =>
      some [lit "💨" ++ windDirs octant ++ lit " " ++ text ++ lit "km/h"] := by
    unfold windPart
    split
    · exact absurd rfl hspeed
    · exact absurd rfl hdeg
    · rfl
  rw [hboth]
  cases deg.octant <;> cases speed.fixed0 <;> simp [hspeed, hdeg]

/-- A value that is missing is `null`. -/
theorem part_getD_isSome_iff {value : Option Json} {f : Json → Option Text} :
    (part (value.getD .null) f).isSome ↔ ∀ x, value = some x → x = .null ∨ (f x).isSome := by
  cases value <;> simp [part_isSome_iff]

theorem isSome_bind_iff {α β : Type} {x : Option α} {f : α → Option β} {P : Prop}
    (h : ∀ a, (f a).isSome ↔ P) : (x.bind f).isSome ↔ x.isSome ∧ P := by
  cases x with
  | none => simp
  | some a => simpa using h a

theorem summary_isSome_iff (current daily : List (Text × Json)) (locationName : Text) :
    (precipOf daily >>= fun precip => do
      let codeParts ← part ((current.lookup (lit "weather_code")).getD .null) (codePart py)
      let tempParts ← part ((current.lookup (lit "temperature_2m")).getD .null) fun temp =>
        temp.fixed0.map fun text => text ++ lit "°C"
      let precipParts ← part precip fun precip => (py.jsonInt precip).map fun n =>
        lit "💧" ++ decimalInt n ++ lit "%"
      let windParts ← windPart ((current.lookup (lit "wind_speed_10m")).getD .null)
        ((current.lookup (lit "wind_direction_10m")).getD .null)
      return (lit " ").intercalate ([locationName] ++ codeParts ++ tempParts ++ precipParts ++
        windParts) : Option Text).isSome ↔ Summarizable py current daily := by
  cases hprecip : precipOf daily with
  | none => exact iff_of_false (by simp) fun h => by simpa [hprecip] using h.precip
  | some precip =>
    have hwind : (windPart ((current.lookup (lit "wind_speed_10m")).getD .null)
        ((current.lookup (lit "wind_direction_10m")).getD .null)).isSome ↔
        ∀ speed deg, current.lookup (lit "wind_speed_10m") = some speed →
          current.lookup (lit "wind_direction_10m") = some deg →
            speed = .null ∨ deg = .null ∨ speed.fixed0.isSome ∧ deg.octant.isSome := by
      rw [windPart_isSome_iff]
      cases current.lookup (lit "wind_speed_10m") <;>
        cases current.lookup (lit "wind_direction_10m") <;> simp
    simp only [Option.bind_eq_bind, Option.bind_some, Option.pure_def]
    refine (isSome_bind_iff fun _ => isSome_bind_iff fun _ => isSome_bind_iff fun _ =>
      isSome_bind_iff fun _ => iff_of_true rfl trivial).trans ?_
    rw [part_getD_isSome_iff, part_getD_isSome_iff, part_isSome_iff, hwind]
    simp only [codePart, Option.isSome_map]
    constructor
    · rintro ⟨hcode, htemp, hint, hall, -⟩
      exact ⟨hcode, htemp, ⟨precip, hprecip, hint⟩, hall⟩
    · rintro ⟨hcode, htemp, ⟨x, hx, hint⟩, hall⟩
      cases hprecip.symm.trans hx
      exact ⟨hcode, htemp, hint, hall, trivial⟩

/-- `_format_summary` answers for readable documents, and raises for all others. -/
theorem formatSummary_isSome_iff (locationName : Text) :
    (formatSummary py data locationName).isSome ↔ Readable py data := by
  unfold formatSummary Readable
  cases hcurrent : data.get (lit "current") (.obj []) with
  | none => exact iff_of_false Bool.false_ne_true fun ⟨_, _, hc, _, _⟩ => nomatch hc
  | some cur =>
    cases hdaily : data.get (lit "daily") (.obj []) with
    | none =>
      refine iff_of_false (fun h => ?_) fun ⟨_, _, _, hd, _⟩ => nomatch hd
      cases cur <;> exact Bool.false_ne_true h
    | some days =>
      cases cur with
      | obj current =>
        cases days with
        | obj daily =>
          refine (isSome_bind_precipOf daily _).trans ?_
          refine (summary_isSome_iff current daily locationName).trans ?_
          constructor
          · exact fun h => ⟨current, daily, rfl, rfl, h⟩
          · rintro ⟨current', daily', hc, hd, h⟩
            cases hc
            cases hd
            exact h
        | _ => exact iff_of_false Bool.false_ne_true fun ⟨_, _, _, hd, _⟩ => nomatch hd
      | _ => exact iff_of_false Bool.false_ne_true fun ⟨_, _, hc, _, _⟩ => nomatch hc

example : formatSummary asciiPy (.obj [(lit "current", .obj [(lit "weather_code", .str (lit "3"))]),
    (lit "daily", .obj [(lit "precipitation_probability_max", .arr [.bool true])])]) (lit "Here") =
      some (lit "Here ☁️ overcast 💧1%") := by
  decide +kernel

end Weather

end Bbs
