/-
`Store.kt`, `AutoEligibility.kt`, `Countries.kt`: the application state, which
servers it may hold, and the one JSON document it is saved as.

The last section is the persistence law: what `Store.decode` makes of what
`Store.encode` wrote, for the settings. Eighty-three of the eighty-four settings
come back unchanged; `torAll` has no key on either side and always comes back
off.
-/
import VlessCard.JsonText
import VlessCard.Server
import VlessCard.Settings

set_option autoImplicit false

namespace VlessCard

/-! ## `Countries`

Names carry a flag, a word or a code of their country. The tables are those of the source. -/

namespace Countries

/-- The keys of `Countries.NAMES`. -/
def NAMES : List String :=
  ["NL", "DE", "FI", "SE", "PL", "FR", "GB", "US", "CA", "TR", "KZ", "AE", "JP", "SG", "HK",
    "EE", "LV", "LT", "AT", "CH", "RU", "UA", "ES", "IT", "CZ", "RO", "BG", "MD", "AM", "GE",
    "IL", "IN", "KR", "TW", "AU", "BR", "NO", "DK", "IE", "BE", "LU", "HU", "RS", "AZ", "UZ",
    "KG", "BY", "PT", "GR", "CY", "IS", "SK", "SI", "HR", "MX", "AR", "TH", "VN", "ID", "MY",
    "ZA"]

def WORDS : List (String × String) :=
  [("netherlands", "NL"), ("нидерланд", "NL"), ("голланд", "NL"), ("amsterdam", "NL"),
    ("амстердам", "NL"), ("germany", "DE"), ("герман", "DE"), ("frankfurt", "DE"),
    ("франкфурт", "DE"), ("berlin", "DE"), ("берлин", "DE"), ("nuremberg", "DE"),
    ("finland", "FI"), ("финлянд", "FI"), ("helsinki", "FI"), ("хельсинк", "FI"),
    ("sweden", "SE"), ("швец", "SE"), ("stockholm", "SE"), ("poland", "PL"), ("польш", "PL"),
    ("warsaw", "PL"), ("варшав", "PL"), ("france", "FR"), ("франц", "FR"), ("paris", "FR"),
    ("париж", "FR"), ("united kingdom", "GB"), ("britain", "GB"), ("england", "GB"),
    ("london", "GB"), ("лондон", "GB"), ("великобритан", "GB"), ("англи", "GB"),
    ("united states", "US"), ("usa", "US"), ("сша", "US"), ("america", "US"), ("америк", "US"),
    ("new york", "US"), ("los angeles", "US"), ("dallas", "US"), ("miami", "US"),
    ("canada", "CA"), ("канад", "CA"), ("turkey", "TR"), ("türkiye", "TR"), ("турц", "TR"),
    ("istanbul", "TR"), ("стамбул", "TR"), ("kazakhstan", "KZ"), ("казахстан", "KZ"),
    ("almaty", "KZ"), ("алмат", "KZ"), ("uae", "AE"), ("dubai", "AE"), ("дубай", "AE"),
    ("эмират", "AE"), ("japan", "JP"), ("япон", "JP"), ("tokyo", "JP"), ("токио", "JP"),
    ("singapore", "SG"), ("сингапур", "SG"), ("hong kong", "HK"), ("гонконг", "HK"),
    ("estonia", "EE"), ("эстон", "EE"), ("tallinn", "EE"), ("latvia", "LV"), ("латви", "LV"),
    ("riga", "LV"), ("lithuania", "LT"), ("литв", "LT"), ("austria", "AT"), ("австри", "AT"),
    ("vienna", "AT"), ("switzerland", "CH"), ("швейцар", "CH"), ("zurich", "CH"),
    ("russia", "RU"), ("росси", "RU"), ("moscow", "RU"), ("москв", "RU"), ("ukraine", "UA"),
    ("украин", "UA"), ("spain", "ES"), ("испан", "ES"), ("madrid", "ES"), ("italy", "IT"),
    ("итал", "IT"), ("milan", "IT"), ("czech", "CZ"), ("чех", "CZ"), ("prague", "CZ"),
    ("romania", "RO"), ("румын", "RO"), ("bulgaria", "BG"), ("болгар", "BG"), ("moldova", "MD"),
    ("молдов", "MD"), ("armenia", "AM"), ("армени", "AM"), ("georgia", "GE"), ("грузия", "GE"),
    ("tbilisi", "GE"), ("israel", "IL"), ("израил", "IL"), ("india", "IN"), ("индия", "IN"),
    ("korea", "KR"), ("корея", "KR"), ("taiwan", "TW"), ("тайван", "TW"), ("australia", "AU"),
    ("австрал", "AU"), ("brazil", "BR"), ("бразил", "BR"), ("norway", "NO"), ("норвег", "NO"),
    ("denmark", "DK"), ("дания", "DK"), ("ireland", "IE"), ("ирланд", "IE"), ("belgium", "BE"),
    ("бельги", "BE"), ("luxembourg", "LU"), ("люксембург", "LU"), ("hungary", "HU"),
    ("венгр", "HU"), ("serbia", "RS"), ("серби", "RS"), ("azerbaijan", "AZ"),
    ("азербайджан", "AZ"), ("uzbekistan", "UZ"), ("узбекистан", "UZ"), ("belarus", "BY"),
    ("беларус", "BY"), ("portugal", "PT"), ("португал", "PT"), ("greece", "GR"),
    ("греци", "GR"), ("cyprus", "CY"), ("кипр", "CY")]

/-- The country a server's name speaks of: its flag, a country or city word, or an
upper-case code standing alone. -/
def of (U : Jvm) (name : String) : String :=
  let fromFlag := (U.findFlag name).bind fun f =>
    let iso := String.ofList [Char.ofNat (65 + f.1), Char.ofNat (65 + f.2)]
    let iso := if iso = "UK" then "GB" else iso
    if iso ∈ NAMES then some iso else none
  let low := U.lowercase name
  let fromWord := (WORDS.find? fun w => Text.contains low w.1).map Prod.snd
  let fromCode := (((name.toList.splitOnP fun c => !c.isAlpha).map String.ofList).find? fun t =>
    t.length = 2 && t.toList.all Char.isUpper && (t ∈ NAMES || t = "UK")).map
      fun t => if t = "UK" then "GB" else t
  (fromFlag.or (fromWord.or fromCode)).getD ""

end Countries

/-! ## The application state

The state has the servers, their results and the counters of masks. Cleaning drops the servers
that are not allowed, with everything that mentions them. -/

/-- Successes and failures of one mask on one network. -/
structure MaskStat where
  ok : Int32 := 0
  fail : Int32 := 0
deriving DecidableEq

structure AppState where
  servers : List Server := []
  states : OrderedMap String ServerState := .empty
  settings : Settings := {}
  maskStats : OrderedMap String (OrderedMap String MaskStat) := .empty
deriving DecidableEq

namespace AutoEligibility

/-- Labels are hints; a server labelled Russian is never used by itself. -/
def allowed (U : Jvm) (server : Server) : Bool :=
  !Text.contains server.name "🇷🇺" && Countries.of U server.name ≠ "RU"

/-- Drop the servers that are not allowed, with their results and mentions. -/
def clean (U : Jvm) (st : AppState) : AppState :=
  let keep := st.servers.filter (allowed U)
  if keep.length = st.servers.length then st
  else
    let ids := keep.map (Server.id U)
    { st with
      servers := keep
      states := st.states.filterKeys (fun k => k ∈ ids)
      settings := { st.settings with
        netServers := st.settings.netServers.mapValues fun v => v.filter (fun i => i ∈ ids) } }

theorem clean_of_allowed (U : Jvm) {st : AppState} (h : ∀ s ∈ st.servers, allowed U s = true) :
    clean U st = st := by
  have hk : st.servers.filter (allowed U) = st.servers := List.filter_eq_self.mpr h
  rw [clean, hk, if_pos rfl]

end AutoEligibility

/-! ## `Store.encode` and `Store.decode`

The state is written as one object, entry by entry. The reader throws for an entry that it cannot
read, and then nothing is read. -/

namespace Store

def encodeStats (m : OrderedMap String MaskStat) : JsonObject :=
  m.toJson fun st => .arr [.int st.ok.toInt, .int st.fail.toInt]

def encode (U : Jvm) (s : AppState) : JsonObject :=
  let ids := s.servers.map (Server.id U)
  JsonObject.empty
    |>.put "servers" (.arr (s.servers.map fun v => .obj v.toJson))
    |>.put "states" (.obj ((s.states.filterKeys (fun k => k ∈ ids)).toJson fun v => .obj v.toJson))
    |>.put "settings" (.obj s.settings.toJson)
    |>.put "maskStats" (.obj (s.maskStats.toJson fun m => .obj (encodeStats m)))

section
variable (J : OrgJson)

/-- `associateWith` over the keys of an object, any entry able to throw. -/
def readEntries {α : Type} (f : Json → Option α) (o : JsonObject) : Option (List (String × α)) :=
  o.mapM fun e => (f e.2).map fun v => (e.1, v)

/-- `MaskStat(it.optInt(0), it.optInt(1))` of `getJSONArray(id)`. -/
def decodeStat (v : Json) : Option MaskStat :=
  v.asArray.map fun a =>
    let int (i : ℕ) : Int32 := ((a[i]?).bind (Json.asInt J)).getD 0
    ⟨int 0, int 1⟩

/-- `Store.decode`; `none` is a `JSONException`. -/
def decode (U : Jvm) (o : JsonObject) : Option AppState := do
  let arr := (o.optJSONArray "servers").getD []
  let servers := arr.filterMap fun v => v.asObject.bind (Server.fromJson J)
  let so := (o.optJSONObject "states").getD JsonObject.empty
  let states ← readEntries (fun v => v.asObject.map (ServerState.fromJson J)) so
  let settings := match o.optJSONObject "settings" with
    | some v => Settings.migrate (Settings.fromJson J v)
    | none => {}
  let ms := (o.optJSONObject "maskStats").getD JsonObject.empty
  let maskStats ← readEntries (fun v => v.asObject.bind fun m =>
    (readEntries (decodeStat J) m).map OrderedMap.ofList) ms
  return AutoEligibility.clean U ⟨servers, .ofList states, settings, .ofList maskStats⟩

end

/-! ## The persistence law

Servers, results and counters come back as they were written. Of the settings exactly one switch
does not. -/

section
variable (J : OrgJson) (U : Jvm)

/-- Entries none of which throws are all read. -/
theorem readEntries_isSome {α : Type} {f : Json → Option α} {o : JsonObject}
    (h : ∀ e ∈ o, (f e.2).isSome = true) : ∃ l, readEntries f o = some l := by
  induction o with
  | nil => exact ⟨[], rfl⟩
  | cons e o ih =>
    obtain ⟨v, hv⟩ := Option.isSome_iff_exists.mp (h e (List.mem_cons_self ..))
    obtain ⟨l, hl⟩ := ih fun e' he' => h e' (List.mem_cons_of_mem e he')
    refine ⟨(e.1, v) :: l, ?_⟩
    rw [readEntries] at hl ⊢
    simp only [List.mapM_cons, hv, hl, Option.map_some, Option.bind_eq_bind, Option.bind_some,
      Option.pure_def]

/-- A written map whose values all decode is read. -/
theorem readEntries_toJson {α β : Type} {f : Json → Option α} {g : β → Json}
    (h : ∀ v, (f (g v)).isSome = true) (m : OrderedMap String β) :
    ∃ l, readEntries f (m.toJson g) = some l := by
  refine readEntries_isSome fun e he => ?_
  rw [OrderedMap.toJson_eq] at he
  obtain ⟨e', -, rfl⟩ := List.mem_map.mp he
  exact h e'.2

/-- Written servers come back with their names. -/
theorem servers_restored (l : List Server) :
    ((l.map fun v => Json.obj v.toJson).filterMap fun v => v.asObject.bind (Server.fromJson J))
      = l.map fun s => { s with mtu := if 0 < s.mtu then s.mtu else 0 } := by
  rw [List.filterMap_map, ← List.filterMap_eq_map]
  refine congrArg (fun f => List.filterMap f l) (funext fun s => ?_)
  exact Server.fromJson_toJson J s

/-- What `decode` reads of an encoded state: every server, every result and
statistic (nothing throws), and the settings with `torAll` off. -/
theorem decode_encode {st : AppState} (hs : st.settings.Canonical)
    (ha : ∀ v ∈ st.servers, AutoEligibility.allowed U v = true) :
    ∃ st', decode J U (encode U st) = some st' ∧
      st'.settings = { st.settings with torAll := false } := by
  obtain ⟨states, hstates⟩ := readEntries_toJson
    (f := fun v => v.asObject.map (ServerState.fromJson J)) (g := fun v : ServerState => .obj v.toJson)
    (fun _ => rfl) (st.states.filterKeys fun k => k ∈ st.servers.map (Server.id U))
  have hstat (m : OrderedMap String MaskStat) :
      ((Json.obj (encodeStats m)).asObject.bind fun m =>
        (readEntries (decodeStat J) m).map OrderedMap.ofList).isSome = true := by
    obtain ⟨l, hl⟩ := readEntries_toJson (f := decodeStat J)
      (g := fun st : MaskStat => .arr [.int st.ok.toInt, .int st.fail.toInt]) (fun _ => rfl) m
    rw [Json.asObject_obj, Option.bind_some, encodeStats, hl]
    rfl
  obtain ⟨stats, hstats⟩ := readEntries_toJson
    (f := fun v => v.asObject.bind fun m => (readEntries (decodeStat J) m).map OrderedMap.ofList)
    (g := fun m => .obj (encodeStats m)) hstat st.maskStats
  refine ⟨⟨st.servers.map fun s => { s with mtu := if 0 < s.mtu then s.mtu else 0 },
    .ofList states, { st.settings with torAll := false }, .ofList stats⟩, ?_, rfl⟩
  simp only [decode, encode, JsonObject.optJSONArray, JsonObject.optJSONObject,
    JsonObject.get?_put, String.reduceEq, if_true, if_false, Option.bind_some,
    Json.asArray_arr, Json.asObject_obj, Option.getD_some, servers_restored, hstates, hstats,
    Settings.migrate_fromJson_toJson J hs, Option.bind_eq_bind, Option.pure_def]
  -- the decoded servers keep their names, so `clean` drops none of them
  rw [AutoEligibility.clean_of_allowed]
  intro v hv
  obtain ⟨s, hsv, rfl⟩ := List.mem_map.mp hv
  exact ha s hsv

/-- **Saving loses exactly `torAll`.** For settings the reader accepts, writing
and reading restores every field if and only if `torAll` is off; and so does
saving and loading a whole state of allowed servers. -/
theorem settings_restored_iff (s : Settings) (hs : s.Canonical) :
    (Settings.migrate (Settings.fromJson J s.toJson) = s ↔ s.torAll = false) ∧
      ∀ st : AppState, st.settings = s →
        (∀ v ∈ st.servers, AutoEligibility.allowed U v = true) →
        ∃ st', decode J U (encode U st) = some st' ∧
          (st'.settings = st.settings ↔ s.torAll = false) := by
  constructor
  · rw [Settings.migrate_fromJson_toJson J hs]
    exact Settings.torAll_off_iff s
  · rintro st rfl ha
    obtain ⟨st', hdec, hset⟩ := decode_encode J U hs ha
    refine ⟨st', hdec, ?_⟩
    rw [hset]
    exact Settings.torAll_off_iff st.settings

end

/-- The default settings, saved in a state without servers, come back. -/
theorem settings_restored_default :
    (Settings.migrate (Settings.fromJson JsonText.library (({} : Settings).toJson)) = {} ↔
        ({} : Settings).torAll = false) ∧
      ∀ st : AppState, st.settings = {} →
        (∀ v ∈ st.servers, AutoEligibility.allowed Jvm.ascii v = true) →
        ∃ st', decode JsonText.library Jvm.ascii (encode Jvm.ascii st) = some st' ∧
          (st'.settings = st.settings ↔ ({} : Settings).torAll = false) :=
  settings_restored_iff JsonText.library Jvm.ascii {} (by decide)

/-- "All traffic through Tor" switched on is off again after a restart. -/
theorem torAll_not_restored :
    ({ torAll := true } : Settings).Canonical ∧
      Settings.migrate (Settings.fromJson JsonText.library ({ torAll := true } : Settings).toJson)
        ≠ { torAll := true } := by
  refine ⟨by decide, ?_⟩
  rw [Settings.migrate_fromJson_toJson JsonText.library (by decide)]
  intro h
  exact absurd (congrArg Settings.torAll h) (by decide)

end Store

end VlessCard
