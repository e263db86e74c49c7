/-
`Settings.kt`, `Subs.kt`: the user's settings, how they are written to the
state file and how they are read back.

The writer is one chain of `put`s and the reader one constructor call with a
default and sometimes a clamp per key; both are transcribed key by key. An `Int`
of the source is an `Int32` here and a `Long` an `Int64`.
-/
import VlessCard.Json
import VlessCard.Text

set_option autoImplicit false

namespace VlessCard

/-! ## `Subs`

The public subscriptions the app knows, and which of them are on after an installation. -/

namespace Subs

/-- `SubSource`: the address of a public subscription and whether a new install
has it. -/
structure SubSource where
  url : String
  default : Bool

def gh (path : String) : String := "https://raw.githubusercontent.com/" ++ path

def IG : String := "igareck/vpn-configs-for-russia/main"

def DIMAN : String :=
  "https://gist.githubusercontent.com/Diman331/8c868070c0b5a5ec0c7d94507717b67b/raw/subscription.txt"

def CLOUD_WORKS : String :=
  "https://raw.githubusercontent.com/Bugaga31/vless-card-vpn/servers/works.txt"

def CATALOG : List SubSource :=
  [ ⟨CLOUD_WORKS, true⟩,
    ⟨gh "Bugaga31/vless-card-vpn/servers/alive_ru.txt", true⟩,
    ⟨DIMAN, true⟩,
    ⟨gh (IG ++ "/BLACK_VLESS_RUS_mobile.txt"), true⟩,
    ⟨gh (IG ++ "/BLACK_VLESS_RUS.txt"), true⟩,
    ⟨gh (IG ++ "/BLACK_SS+All_RUS.txt"), true⟩,
    ⟨gh (IG ++ "/BLACK_SS_WEAK_DPI_RUS.txt"), true⟩,
    ⟨gh "RKPchannel/RKP_bypass_configs/main/blacklist.txt", true⟩,
    ⟨gh "Maskkost93/kizyak-vpn-4.0/main/kizyakbeta7.txt", true⟩,
    ⟨gh "kort0881/vpn-vless-configs-russia/main/output/vless.txt", false⟩,
    ⟨gh "FLAT447/v2ray-lists/main/BLACK_LTE.txt", false⟩,
    ⟨gh "whoahaow/rjsxrd/main/githubmirror/bypass/bypass-all.txt", false⟩,
    ⟨gh (IG ++ "/Vless-Reality-White-Lists-Rus-Mobile.txt"), true⟩,
    ⟨gh "RKPchannel/RKP_bypass_configs/main/whitelist.txt", true⟩,
    ⟨gh "zieng2/wl/main/vless_lite.txt", true⟩,
    ⟨gh "zieng2/wl/main/vless_universal.txt", false⟩,
    ⟨gh "Maskkost93/kizyak-vpn-4.0/main/kizyaktestru.txt", false⟩,
    ⟨gh "FLAT447/v2ray-lists/main/WHITE_LITE.txt", false⟩,
    ⟨gh "Bugaga31/vless-card-vpn/servers/alive.txt", false⟩,
    ⟨gh "Epodonios/v2ray-configs/main/All_Configs_Sub.txt", false⟩,
    ⟨gh "mahdibland/V2RayAggregator/master/sub/sub_merge.txt", false⟩,
    ⟨gh "MatinGhanbari/v2ray-configs/main/subscriptions/v2ray/all_sub.txt", false⟩,
    ⟨gh "sakha1370/OpenRay/main/output/all_valid_proxies.txt", false⟩,
    ⟨gh "ebrasha/free-v2ray-public-list/main/V2Ray-Config-By-EbraSha.txt", false⟩,
    ⟨gh "roosterkid/openproxylist/main/V2RAY_RAW.txt", false⟩,
    ⟨gh "barry-far/V2ray-Config/main/Sub1.txt", false⟩,
    ⟨gh "Mosifree/-FREE2CONFIG/main/Reality", false⟩,
    ⟨gh "MhdiTaheri/V2rayCollector/main/sub/mix", false⟩,
    ⟨gh "SoliSpirit/v2ray-configs/main/Protocols/vless.txt", false⟩ ]

end Subs

/-! ## The settings record

The settings are one record with a default for each field. The reader looks each key up, converts
it and puts it into its range. -/

inductive Mode where
  | AUTO | SERVERS | BYEDPI | HYBRID
deriving DecidableEq

namespace Mode

/-- `Mode.name`. -/
def name : Mode → String
  | AUTO => "AUTO"
  | SERVERS => "SERVERS"
  | BYEDPI => "BYEDPI"
  | HYBRID => "HYBRID"

/-- `Mode.valueOf`; `none` is its exception. -/
def valueOf (s : String) : Option Mode := [AUTO, SERVERS, BYEDPI, HYBRID].find? (fun m => m.name = s)

theorem valueOf_name (m : Mode) : valueOf m.name = some m := by
  cases m <;> rfl

end Mode

/-- The balancer strategy across several selected servers. -/
inductive Balance where
  | LEAST_PING | ROUND_ROBIN | RANDOM | LEAST_LOAD
deriving DecidableEq

namespace Balance

/-- `Balance.name`. -/
def name : Balance → String
  | LEAST_PING => "LEAST_PING"
  | ROUND_ROBIN => "ROUND_ROBIN"
  | RANDOM => "RANDOM"
  | LEAST_LOAD => "LEAST_LOAD"

/-- `Balance.valueOf`; `none` is its exception. -/
def valueOf (s : String) : Option Balance :=
  [LEAST_PING, ROUND_ROBIN, RANDOM, LEAST_LOAD].find? (fun b => b.name = s)

theorem valueOf_name (b : Balance) : valueOf b.name = some b := by
  cases b <;> rfl

/-- The strategy name Xray knows. -/
def xray : Balance → String
  | LEAST_PING => "leastPing"
  | ROUND_ROBIN => "roundRobin"
  | RANDOM => "random"
  | LEAST_LOAD => "leastLoad"

end Balance

/-- What a paid subscription says about itself. -/
structure SubInfo where
  used : Int64 := 0
  total : Int64 := 0
  expire : Int64 := 0
  title : String := ""
  updated : Int64 := 0
deriving DecidableEq

namespace SubInfo

def toJson (i : SubInfo) : JsonObject :=
  JsonObject.empty |>.put "used" (.int i.used.toInt) |>.put "total" (.int i.total.toInt)
    |>.put "expire" (.int i.expire.toInt) |>.put "title" (.str i.title)
    |>.put "at" (.int i.updated.toInt)

def fromJson (J : OrgJson) (o : JsonObject) : SubInfo :=
  ⟨o.optLong J "used" 0, o.optLong J "total" 0, o.optLong J "expire" 0, o.optString J "title" "",
    o.optLong J "at" 0⟩

theorem fromJson_toJson (J : OrgJson) (i : SubInfo) : fromJson J i.toJson = i := by
  simp [fromJson, toJson, JsonObject.optLong, JsonObject.optString]

end SubInfo

namespace Settings

def REV : Int32 := 75

def DPI_AUTO : String := "auto"

def ANY_NETWORK : String := "*"

def DEFAULT_BYEDPI : String := "-o1 -At,r,s -d1 -At,r,s -f-1 -t8 -n \x7bsni\x7d -Qo"

def DEFAULT_SUBSCRIPTIONS : List String := (Subs.CATALOG.filter (·.default)).map (·.url)

end Settings

open Settings in
/-- The user's settings. -/
structure Settings where
  mode : Mode := .AUTO
  balance : Balance := .LEAST_PING
  socksPort : Int32 := 10808
  ruDirect : Bool := true
  blockAds : Bool := true
  blockTrackers : Bool := true
  byeDpiArgs : String := DEFAULT_BYEDPI
  byeDpiSni : String := "ya.ru"
  hybridDomains : List String := 
    ["geosite:youtube", "geosite:discord", "geosite:twitter", "geosite:meta"]
  testUrl : String := "https://www.gstatic.com/generate_204"
  dnsUrl : String := "https://1.1.1.1/dns-query"
  subscriptions : List String := DEFAULT_SUBSCRIPTIONS
  dpiStrategy : String := DPI_AUTO
  dpiRemembered : OrderedMap String String := .empty
  stealthSocks : Bool := true
  blockStun : Bool := false
  blockQuic : Bool := true
  mux : Bool := false
  rotateMasks : Bool := true
  ruDns : Bool := true
  apps : List String := []
  onlyApps : Bool := false
  quietNotification : Bool := false
  notifSpeed : Bool := false
  disguise : String := ""
  services : List String := []
  autoHeal : Bool := true
  autoUpdateSubs : Bool := true
  lastSubRefresh : Int64 := 0
  proxyOnly : Bool := false
  lanShare : Bool := false
  perApp : Bool := true
  maskFamilies : List String := []
  maskFps : List String := []
  warpKeys : String := ""
  warpBuiltinKeys : Bool := true
  warpChain : Bool := false
  autoOptimize : Bool := true
  warpKeyOff : List String := []
  warpKeyStatus : OrderedMap String String := .empty
  myMasks : List String := []
  maskEvolution : Bool := true
  autoMasks : List String := []
  dpiEvoPool : List String := []
  theme : String := "dark"
  dpiRanking : OrderedMap String (List String) := .empty
  ruAppsDirect : Bool := true
  randomTun : Bool := true
  coverTraffic : Bool := true
  torRotation : Bool := false
  torRouting : Bool := false
  torAuto : Bool := false
  torBridge : String := "none"
  torBridgeLines : String := ""
  torExit : String := ""
  torAll : Bool := false
  torDirect : Bool := false
  turbo : Bool := true
  alwaysVpn : List String := []
  alwaysDirect : List String := []
  traffic : OrderedMap String Int64 := .empty
  monthLimitGb : Int32 := 0
  subInfo : OrderedMap String SubInfo := .empty
  netServers : OrderedMap String (List String) := .empty
  country : String := ""
  favorites : List String := []
  smartYoutube : Bool := true
  appAware : Bool := true
  autopilot : Bool := true
  autoCool : Bool := true
  phoneLearning : Bool := true
  oceanBackground : Bool := true
  oceanMotion : Bool := true
  welcomeSound : Bool := true
  powerProfile : String := "balanced"
  batteryThreshold : Int32 := 20
  quietScreen : Bool := true
  chargeOnly : Bool := false
  wifiMaintenance : Bool := true
  protectActiveTraffic : Bool := true
  gpsSpoof : Bool := false
  ytDpi : OrderedMap String Bool := .empty
  autoStart : Bool := false
  rev : Int32 := REV
deriving DecidableEq

namespace Settings

/-- The settings as one JSON object, in the order of the source's `put`s. -/
def toJson (s : Settings) : JsonObject :=
  JsonObject.empty
    |>.put "mode" (.str s.mode.name)
    |>.put "balance" (.str s.balance.name)
    |>.put "socksPort" (.int s.socksPort.toInt)
    |>.put "ruDirect" (.bool s.ruDirect)
    |>.put "blockAds" (.bool s.blockAds)
    |>.put "blockTrackers" (.bool s.blockTrackers)
    |>.put "byeDpiArgs" (.str s.byeDpiArgs)
    |>.put "byeDpiSni" (.str s.byeDpiSni)
    |>.put "hybridDomains" (Json.strings s.hybridDomains)
    |>.put "testUrl" (.str s.testUrl)
    |>.put "dnsUrl" (.str s.dnsUrl)
    |>.put "subscriptions" (Json.strings s.subscriptions)
    |>.put "dpiStrategy" (.str s.dpiStrategy)
    |>.put "dpiRemembered" (.obj (s.dpiRemembered.toJson .str))
    |>.put "stealthSocks" (.bool s.stealthSocks)
    |>.put "blockStun" (.bool s.blockStun)
    |>.put "blockQuic" (.bool s.blockQuic)
    |>.put "mux" (.bool s.mux)
    |>.put "rotateMasks" (.bool s.rotateMasks)
    |>.put "ruDns" (.bool s.ruDns)
    |>.put "apps" (Json.strings s.apps)
    |>.put "onlyApps" (.bool s.onlyApps)
    |>.put "quietNotification" (.bool s.quietNotification)
    |>.put "notifSpeed" (.bool s.notifSpeed)
    |>.put "disguise" (.str s.disguise)
    |>.put "services" (Json.strings s.services)
    |>.put "autoHeal" (.bool s.autoHeal)
    |>.put "autoUpdateSubs" (.bool s.autoUpdateSubs)
    |>.put "lastSubRefresh" (.int s.lastSubRefresh.toInt)
    |>.put "proxyOnly" (.bool s.proxyOnly)
    |>.put "lanShare" (.bool s.lanShare)
    |>.put "perApp" (.bool s.perApp)
    |>.put "maskFamilies" (Json.strings s.maskFamilies)
    |>.put "maskFps" (Json.strings s.maskFps)
    |>.put "warpKeys" (.str s.warpKeys)
    |>.put "warpBuiltinKeys" (.bool s.warpBuiltinKeys)
    |>.put "warpChain" (.bool s.warpChain)
    |>.put "autoOptimize" (.bool s.autoOptimize)
    |>.put "warpKeyOff" (Json.strings s.warpKeyOff)
    |>.put "warpKeyStatus" (.obj (s.warpKeyStatus.toJson .str))
    |>.put "myMasks" (Json.strings s.myMasks)
    |>.put "maskEvolution" (.bool s.maskEvolution)
    |>.put "autoMasks" (Json.strings s.autoMasks)
    |>.put "dpiEvoPool" (Json.strings s.dpiEvoPool)
    |>.put "theme" (.str s.theme)
    |>.put "dpiRanking" (.obj (s.dpiRanking.toJson Json.strings))
    |>.put "ruAppsDirect" (.bool s.ruAppsDirect)
    |>.put "randomTun" (.bool s.randomTun)
    |>.put "coverTraffic" (.bool s.coverTraffic)
    |>.put "torRotation" (.bool s.torRotation)
    |>.put "torRouting" (.bool s.torRouting)
    |>.put "torAuto" (.bool s.torAuto)
    |>.put "torBridge" (.str s.torBridge)
    |>.put "torBridgeLines" (.str s.torBridgeLines)
    |>.put "torExit" (.str s.torExit)
    |>.put "torDirect" (.bool s.torDirect)
    |>.put "rev" (.int s.rev.toInt)
    |>.put "turbo" (.bool s.turbo)
    |>.put "autoStart" (.bool s.autoStart)
    |>.put "alwaysVpn" (Json.strings s.alwaysVpn)
    |>.put "alwaysDirect" (Json.strings s.alwaysDirect)
    |>.put "traffic" (.obj (s.traffic.toJson fun n => .int n.toInt))
    |>.put "monthLimitGb" (.int s.monthLimitGb.toInt)
    |>.put "country" (.str s.country)
    |>.put "favorites" (Json.strings s.favorites)
    |>.put "smartYoutube" (.bool s.smartYoutube)
    |>.put "appAware" (.bool s.appAware)
    |>.put "autopilot" (.bool s.autopilot)
    |>.put "oceanBackground" (.bool s.oceanBackground)
    |>.put "oceanMotion" (.bool s.oceanMotion)
    |>.put "welcomeSound" (.bool s.welcomeSound)
    |>.put "phoneLearning" (.bool s.phoneLearning)
    |>.put "powerProfile" (.str s.powerProfile)
    |>.put "batteryThreshold" (.int s.batteryThreshold.toInt)
    |>.put "quietScreen" (.bool s.quietScreen)
    |>.put "chargeOnly" (.bool s.chargeOnly)
    |>.put "wifiMaintenance" (.bool s.wifiMaintenance)
    |>.put "protectActiveTraffic" (.bool s.protectActiveTraffic)
    |>.put "autoCool" (.bool s.autoCool)
    |>.put "gpsSpoof" (.bool s.gpsSpoof)
    |>.put "ytDpi" (.obj (s.ytDpi.toJson .bool))
    |>.put "netServers" (.obj (s.netServers.toJson Json.strings))
    |>.put "subInfo" (.obj (s.subInfo.toJson fun i => .obj i.toJson))

section
variable (J : OrgJson)

/-- The local `list` of the reader. -/
def list (o : JsonObject) (k : String) (d : List String) : List String :=
  ((o.optJSONArray k).map fun a => a.map (Json.asString J)).getD d

/-- A map of strings, absent read as empty. -/
def stringMap (o : JsonObject) (k : String) : OrderedMap String String :=
  ((o.optJSONObject k).map (.ofJson (Json.asString J))).getD .empty

/-- A map of string lists, absent read as empty. -/
def listMap (o : JsonObject) (k : String) : OrderedMap String (List String) :=
  ((o.optJSONObject k).map (.ofJson fun v =>
    (v.asArray.map fun a => a.map (Json.asString J)).getD [])).getD .empty

/-- The settings a JSON object holds: every key with its own default. -/
def fromJson (o : JsonObject) : Settings :=
  let d : Settings := {}
  { mode := ((o.getString J "mode").bind Mode.valueOf).getD d.mode
    balance := ((o.getString J "balance").bind Balance.valueOf).getD d.balance
    socksPort :=
      let p := o.optInt J "socksPort" d.socksPort
      if 1024 ≤ p ∧ p ≤ 65535 then p else d.socksPort
    ruDirect := o.optBoolean J "ruDirect" d.ruDirect
    blockAds := o.optBoolean J "blockAds" d.blockAds
    blockTrackers := o.optBoolean J "blockTrackers" d.blockTrackers
    byeDpiArgs := o.optString J "byeDpiArgs" d.byeDpiArgs
    byeDpiSni := o.optString J "byeDpiSni" d.byeDpiSni
    hybridDomains := list J o "hybridDomains" d.hybridDomains
    testUrl := o.optString J "testUrl" d.testUrl
    dnsUrl := o.optString J "dnsUrl" d.dnsUrl
    subscriptions := list J o "subscriptions" d.subscriptions
    dpiStrategy := o.optString J "dpiStrategy" d.dpiStrategy
    dpiRemembered := stringMap J o "dpiRemembered"
    stealthSocks := o.optBoolean J "stealthSocks" d.stealthSocks
    blockStun := o.optBoolean J "blockStun" d.blockStun
    blockQuic := o.optBoolean J "blockQuic" d.blockQuic
    mux := o.optBoolean J "mux" d.mux
    rotateMasks := o.optBoolean J "rotateMasks" d.rotateMasks
    ruDns := o.optBoolean J "ruDns" d.ruDns
    apps := list J o "apps" d.apps
    onlyApps := o.optBoolean J "onlyApps" d.onlyApps
    quietNotification := o.optBoolean J "quietNotification" d.quietNotification
    notifSpeed := o.optBoolean J "notifSpeed" d.notifSpeed
    disguise := o.optString J "disguise" d.disguise
    services := list J o "services" d.services
    autoHeal := o.optBoolean J "autoHeal" d.autoHeal
    autoUpdateSubs := o.optBoolean J "autoUpdateSubs" d.autoUpdateSubs
    lastSubRefresh := o.optLong J "lastSubRefresh" 0
    proxyOnly := o.optBoolean J "proxyOnly" false
    lanShare := o.optBoolean J "lanShare" false
    perApp := o.optBoolean J "perApp" true
    maskFamilies := list J o "maskFamilies" []
    maskFps := list J o "maskFps" []
    warpKeys := o.optString J "warpKeys" ""
    warpBuiltinKeys := o.optBoolean J "warpBuiltinKeys" true
    warpChain := o.optBoolean J "warpChain" false
    autoOptimize := o.optBoolean J "autoOptimize" true
    warpKeyOff := list J o "warpKeyOff" []
    warpKeyStatus := stringMap J o "warpKeyStatus"
    myMasks := list J o "myMasks" []
    maskEvolution := o.optBoolean J "maskEvolution" true
    autoMasks := list J o "autoMasks" []
    dpiEvoPool := list J o "dpiEvoPool" []
    theme := o.optString J "theme" "dark"
    dpiRanking := listMap J o "dpiRanking"
    ruAppsDirect := o.optBoolean J "ruAppsDirect" true
    randomTun := o.optBoolean J "randomTun" true
    coverTraffic := o.optBoolean J "coverTraffic" true
    torRotation := o.optBoolean J "torRotation" false
    torRouting := o.optBoolean J "torRouting" false
    torAuto := o.optBoolean J "torAuto" false
    torBridge := o.optString J "torBridge" "none"
    torBridgeLines := o.optString J "torBridgeLines" ""
    torExit := o.optString J "torExit" ""
    torDirect := o.optBoolean J "torDirect" false
    rev := o.optInt J "rev" 0
    turbo := o.optBoolean J "turbo" true
    autoStart := o.optBoolean J "autoStart" false
    alwaysVpn := list J o "alwaysVpn" []
    alwaysDirect := list J o "alwaysDirect" []
    traffic := ((o.optJSONObject "traffic").map (.ofJson fun v => (v.asLong J).getD 0)).getD .empty
    monthLimitGb := o.optInt J "monthLimitGb" 0
    country := o.optString J "country" ""
    favorites := list J o "favorites" []
    smartYoutube := o.optBoolean J "smartYoutube" true
    appAware := o.optBoolean J "appAware" true
    autopilot := o.optBoolean J "autopilot" true
    autoCool := o.optBoolean J "autoCool" true
    oceanBackground := o.optBoolean J "oceanBackground" true
    oceanMotion := o.optBoolean J "oceanMotion" true
    welcomeSound := o.optBoolean J "welcomeSound" true
    phoneLearning := o.optBoolean J "phoneLearning" true
    powerProfile :=
      let p := o.optString J "powerProfile" "balanced"
      if p ∈ ["balanced", "eco", "fast"] then p else "balanced"
    batteryThreshold :=
      let b := o.optInt J "batteryThreshold" 20
      if b < 5 then 5 else if 50 < b then 50 else b
    quietScreen := o.optBoolean J "quietScreen" true
    chargeOnly := o.optBoolean J "chargeOnly" false
    wifiMaintenance := o.optBoolean J "wifiMaintenance" true
    protectActiveTraffic := o.optBoolean J "protectActiveTraffic" true
    gpsSpoof := o.optBoolean J "gpsSpoof" false
    ytDpi := ((o.optJSONObject "ytDpi").map (.ofJson fun v => (v.asBool J).getD false)).getD .empty
    netServers := listMap J o "netServers"
    subInfo := ((o.optJSONObject "subInfo").map fun m => .ofList (m.filterMap fun e =>
      e.2.asObject.map fun i => (e.1, SubInfo.fromJson J i))).getD .empty }

end

/-- `Settings.migrate`: what an older revision is given once. -/
def migrate (s0 : Settings) : Settings :=
  let s := s0
  let s := if s.rev < 71 then
      { s with stealthSocks := true, blockQuic := true, rotateMasks := true, maskEvolution := true,
               autoHeal := true, ruAppsDirect := true, randomTun := true, coverTraffic := true,
               maskFamilies := if s.maskFamilies = [] then s.maskFamilies
                 else (s.maskFamilies ++ ["brand", "auto"]).eraseDups }
    else s
  let s := if s.rev < 72 then { s with turbo := true, blockAds := true } else s
  let s := if s.rev < 73 then
      match Subs.CATALOG.find? (fun c => Text.contains c.url "/servers/alive_ru.txt") with
      | some c =>
          if c.url ∈ s.subscriptions then s
          else { s with subscriptions := c.url :: s.subscriptions }
      | none => s
    else s
  let s := if s.rev < 74 ∧ Subs.DIMAN ∉ s.subscriptions then
      { s with subscriptions := s.subscriptions ++ [Subs.DIMAN] } else s
  let s := if s.rev < 75 ∧ Subs.CLOUD_WORKS ∉ s.subscriptions then
      { s with subscriptions := Subs.CLOUD_WORKS :: s.subscriptions } else s
  if REV ≤ s.rev then s else { s with rev := REV }

/-! ## What the reader makes of what the writer wrote

Every field comes back if its value is one that the reader's checks leave alone, with one
exception: a key that is read and never written. -/

/-- The values the reader's own checks leave alone. -/
structure Canonical (s : Settings) : Prop where
  socksPort : 1024 ≤ s.socksPort ∧ s.socksPort ≤ 65535
  powerProfile : s.powerProfile ∈ ["balanced", "eco", "fast"]
  batteryThreshold : 5 ≤ s.batteryThreshold ∧ s.batteryThreshold ≤ 50
  rev : REV ≤ s.rev

instance (s : Settings) : Decidable s.Canonical :=
  decidable_of_iff ((1024 ≤ s.socksPort ∧ s.socksPort ≤ 65535) ∧
      s.powerProfile ∈ ["balanced", "eco", "fast"] ∧
      (5 ≤ s.batteryThreshold ∧ s.batteryThreshold ≤ 50) ∧ REV ≤ s.rev)
    ⟨fun ⟨h₁, h₂, h₃, h₄⟩ => ⟨h₁, h₂, h₃, h₄⟩, fun ⟨h₁, h₂, h₃, h₄⟩ => ⟨h₁, h₂, h₃, h₄⟩⟩

/-- A current revision is not migrated. -/
theorem migrate_of_rev {s : Settings} (h : REV ≤ s.rev) : migrate s = s := by
  have hlt (k : Int32) (hk : k ≤ REV) : ¬ s.rev < k :=
    fun hs => absurd (Int32.lt_of_lt_of_le hs hk) (Int32.not_lt.mpr h)
  simp only [migrate, hlt 71 (by decide), hlt 72 (by decide), hlt 73 (by decide),
    hlt 74 (by decide), hlt 75 (by decide), if_false, false_and, if_pos h]

section
variable (J : OrgJson)

theorem subInfo_restored (m : OrderedMap String SubInfo) :
    OrderedMap.ofList ((m.toJson fun i => .obj i.toJson).filterMap fun e =>
      e.2.asObject.map fun i => (e.1, SubInfo.fromJson J i)) = m := by
  rw [OrderedMap.toJson_eq, List.filterMap_map]
  have hid : ((fun e : String × Json => e.2.asObject.map fun i => (e.1, SubInfo.fromJson J i)) ∘
      fun e : String × SubInfo => (e.1, Json.obj e.2.toJson)) = some := by
    funext e
    simp only [Function.comp_apply, Json.asObject_obj, Option.map_some, SubInfo.fromJson_toJson]
  rw [hid, List.filterMap_some, OrderedMap.ofList_entries]

/-- **The persistence law of the settings.** Every setting the reader accepts is
restored, except `torAll`, for which neither side has a key. -/
theorem fromJson_toJson {s : Settings} (h : s.Canonical) :
    fromJson J s.toJson = { s with torAll := false } := by
  have hlo : ¬ s.batteryThreshold < 5 := Int32.not_lt.mpr h.batteryThreshold.1
  have hhi : ¬ 50 < s.batteryThreshold := Int32.not_lt.mpr h.batteryThreshold.2
  have hstr (m : OrderedMap String String) :
      OrderedMap.ofJson (Json.asString J) (m.toJson .str) = m :=
    OrderedMap.ofJson_toJson (Json.asString_str J) m
  have hlist (m : OrderedMap String (List String)) :
      OrderedMap.ofJson (fun v => (v.asArray.map fun a => a.map (Json.asString J)).getD [])
        (m.toJson Json.strings) = m :=
    OrderedMap.ofJson_toJson (fun v => by rw [Json.asArray_strings, Option.getD_some]) m
  have hlong (m : OrderedMap String Int64) :
      OrderedMap.ofJson (fun v => (v.asLong J).getD 0) (m.toJson fun n => .int n.toInt) = m :=
    OrderedMap.ofJson_toJson (fun v => by simp) m
  have hbool (m : OrderedMap String Bool) :
      OrderedMap.ofJson (fun v => (v.asBool J).getD false) (m.toJson .bool) = m :=
    OrderedMap.ofJson_toJson (fun v => by simp) m
  simp only [fromJson, toJson, list, stringMap, listMap, JsonObject.getString,
    JsonObject.optString, JsonObject.optInt, JsonObject.optLong, JsonObject.optBoolean,
    JsonObject.optJSONArray, JsonObject.optJSONObject, JsonObject.get?_put, JsonObject.get?_empty,
    String.reduceEq, if_true, if_false, Option.map_some, Option.bind_some, Option.getD_some,
    Json.asString_str, Json.asBool_bool, Json.asInt_int, Json.asLong_int, Json.asObject_obj,
    Int32.ofInt_toInt, Int64.ofInt_toInt, Mode.valueOf_name, Balance.valueOf_name,
    Json.asArray_strings, hstr, hlist, hlong, hbool, subInfo_restored, if_pos h.socksPort, if_pos h.powerProfile, hlo, hhi]

end

/-- Written, read and migrated, the settings are the same with `torAll` off. -/
theorem migrate_fromJson_toJson (J : OrgJson) {s : Settings} (h : s.Canonical) :
    migrate (fromJson J s.toJson) = { s with torAll := false } := by
  rw [fromJson_toJson J h]
  exact migrate_of_rev h.rev

theorem torAll_off_iff (s : Settings) : { s with torAll := false } = s ↔ s.torAll = false := by
  constructor
  · intro h
    rw [← h]
  · intro h
    cases s
    simp only at h
    rw [h]

end Settings

end VlessCard
