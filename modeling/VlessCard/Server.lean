/-
`Server.kt`, `RouteEvidence.kt`: one proxy server, the last test result kept for
it, and their JSON forms.

A field is written only when it differs from what the reader supplies for a
missing key, so the writer is a sequence of conditional `put`s. Doubles are exact
rationals here; a nullable `Boolean` is an `Option Bool`.
-/
import VlessCard.Json
import VlessCard.Text

set_option autoImplicit false

namespace VlessCard

/-- One proxy server parsed from a share link. -/
structure Server where
  name : String
  protocol : String
  address : String
  port : Int32
  secret : String
  method : String := ""
  flow : String := ""
  encryption : String := "none"
  network : String := "tcp"
  security : String := ""
  sni : String := ""
  fp : String := ""
  alpn : String := ""
  pbk : String := ""
  sid : String := ""
  spx : String := ""
  pqv : String := ""
  host : String := ""
  path : String := ""
  serviceName : String := ""
  mode : String := ""
  headerType : String := ""
  insecure : Bool := false
  ech : String := ""
  pcs : String := ""
  vcn : String := ""
  obfsPassword : String := ""
  extra : String := ""
  source : String := ""
  localAddress : String := ""
  reserved : String := ""
  mtu : Int32 := 0
  psk : String := ""
  user : String := ""
deriving DecidableEq

/-- The UTF-16 code units of a text. -/
def utf16 (s : String) : List ℕ :=
  s.toList.flatMap fun c =>
    if c.toNat < 0x10000 then [c.toNat]
    else [0xD800 + (c.toNat - 0x10000) / 0x400, 0xDC00 + (c.toNat - 0x10000) % 0x400]

/-- `String.hashCode()` as the unsigned 32-bit word `Integer.toHexString` prints. -/
def hashCode (s : String) : ℕ := (utf16 s).foldl (fun h u => (31 * h + u) % 2 ^ 32) 0

/-- `Integer.toHexString`. -/
def toHexString (n : ℕ) : String := .ofList (Nat.toDigits 16 n)

namespace Server

/-- Stable identity: endpoint, credentials and transport, whatever the name. -/
def id (U : Jvm) (s : Server) : String :=
  toHexString (hashCode (Text.join "|" [s.protocol, U.lowercase s.address, toString s.port.toInt,
      s.secret, s.network, s.security, s.sni, s.pbk, s.sid, s.path, s.host, s.serviceName, s.flow]))
    ++ toHexString (hashCode (s.address ++ s.secret ++ toString s.port.toInt))

def UDP_PROTOCOLS : List String := ["hysteria2", "wireguard"]

def isTcpBased (s : Server) : Bool :=
  s.protocol ∉ UDP_PROTOCOLS && s.protocol ≠ "xray" && s.network ≠ "kcp"

/-- The local `opt` of the writer: nothing for an empty text. -/
def opt (o : JsonObject) (k v : String) : JsonObject := if v = "" then o else o.put k (.str v)

def toJson (s : Server) : JsonObject :=
  let o := JsonObject.empty |>.put "name" (.str s.name) |>.put "protocol" (.str s.protocol)
    |>.put "address" (.str s.address) |>.put "port" (.int s.port.toInt)
    |>.put "secret" (.str s.secret)
  let o := opt (opt o "method" s.method) "flow" s.flow
  let o := if s.encryption = "none" then o else o.put "encryption" (.str s.encryption)
  let o := if s.network = "tcp" then o else o.put "network" (.str s.network)
  let o := opt (opt (opt o "security" s.security) "sni" s.sni) "fp" s.fp
  let o := opt (opt (opt (opt (opt (opt o "alpn" s.alpn) "pbk" s.pbk) "sid" s.sid) "spx" s.spx)
    "pqv" s.pqv) "host" s.host
  let o := opt (opt (opt (opt o "path" s.path) "serviceName" s.serviceName) "mode" s.mode)
    "headerType" s.headerType
  let o := if s.insecure then o.put "insecure" (.bool true) else o
  let o := opt (opt (opt (opt (opt (opt o "ech" s.ech) "pcs" s.pcs) "vcn" s.vcn)
    "obfsPassword" s.obfsPassword) "extra" s.extra) "source" s.source
  let o := opt (opt o "localAddress" s.localAddress) "reserved" s.reserved
  let o := if 0 < s.mtu then o.put "mtu" (.int s.mtu.toInt) else o
  opt (opt o "psk" s.psk) "user" s.user

/-- `Server.fromJson`; `none` when a required key is missing. -/
def fromJson (J : OrgJson) (o : JsonObject) : Option Server := do
  let protocol ← o.getString J "protocol"
  let address ← o.getString J "address"
  let port ← o.getInt J "port"
  return { name := o.optString J "name" "", protocol, address, port
           secret := o.optString J "secret" "", method := o.optString J "method" ""
           flow := o.optString J "flow" "", encryption := o.optString J "encryption" "none"
           network := o.optString J "network" "tcp", security := o.optString J "security" ""
           sni := o.optString J "sni" "", fp := o.optString J "fp" ""
           alpn := o.optString J "alpn" "", pbk := o.optString J "pbk" ""
           sid := o.optString J "sid" "", spx := o.optString J "spx" ""
           pqv := o.optString J "pqv" "", host := o.optString J "host" ""
           path := o.optString J "path" "", serviceName := o.optString J "serviceName" ""
           mode := o.optString J "mode" "", headerType := o.optString J "headerType" ""
           insecure := o.optBoolean J "insecure" false, ech := o.optString J "ech" ""
           pcs := o.optString J "pcs" "", vcn := o.optString J "vcn" ""
           obfsPassword := o.optString J "obfsPassword" "", extra := o.optString J "extra" ""
           source := o.optString J "source" "", localAddress := o.optString J "localAddress" ""
           reserved := o.optString J "reserved" "", mtu := o.optInt J "mtu" 0
           psk := o.optString J "psk" "", user := o.optString J "user" "" }

theorem get?_opt (o : JsonObject) (k k' v : String) :
    (opt o k v).get? k' =
      if k = k' then (if v = "" then o.get? k' else some (.str v)) else o.get? k' := by
  unfold opt
  by_cases hv : v = ""
  · simp [hv]
  · simp [hv]

theorem get?_ite (c : Prop) [Decidable c] (o p : JsonObject) (k : String) :
    (if c then o else p).get? k = if c then o.get? k else p.get? k := by
  split <;> rfl

/-- A text left out when it is the reader's default is read back all the same. -/
theorem text_or_default (J : OrgJson) (v d : String) :
    ((if v = d then none else some (Json.str v)).map (Json.asString J)).getD d = v := by
  by_cases h : v = d
  · simp [h]
  · simp [h]

/-- A server written and read is the server; only a negative `mtu` is not kept. -/
theorem fromJson_toJson (J : OrgJson) (s : Server) :
    fromJson J s.toJson = some { s with mtu := if 0 < s.mtu then s.mtu else 0 } := by
  have hins : ((if s.insecure = true then some (Json.bool true) else none).bind
      (Json.asBool J)).getD false = s.insecure := by
    cases s.insecure <;> rfl
  have hmtu : ((if 0 < s.mtu then some (Json.int s.mtu.toInt) else none).bind
      (Json.asInt J)).getD 0 = if 0 < s.mtu then s.mtu else 0 := by
    split <;> simp
  simp only [fromJson, toJson, JsonObject.optString, JsonObject.getString, JsonObject.getInt,
    JsonObject.optBoolean, JsonObject.optInt, get?_opt, get?_ite, JsonObject.get?_put,
    JsonObject.get?_empty, String.reduceEq, if_true, if_false, ite_self, Option.map_some,
    Option.bind_some, Option.getD_some, Json.asString_str, Json.asInt_int, Int32.ofInt_toInt,
    text_or_default, hins, hmtu, Option.bind_eq_bind, Option.pure_def]

end Server

/-! ## Test results

The last result of a server carries what was measured, when, and on which network. The evidence
of its routes is parsed with checks, and an entry that fails them makes the whole unreadable. -/

/-- What the phone observed of one route; `updated` is the source's `at`. -/
structure RouteEvidence where
  checks : Int32 := 0
  successes : Int32 := 0
  ema : ℚ := 1 / 2
  latency : ℚ := 0
  jitter : ℚ := 0
  streak : Int32 := 0
  updated : Int64 := 0
deriving DecidableEq

namespace RouteEvidence

def toJson (e : RouteEvidence) : JsonObject :=
  JsonObject.empty |>.put "n" (.int e.checks.toInt) |>.put "ok" (.int e.successes.toInt)
    |>.put "e" (.real e.ema) |>.put "ms" (.real e.latency) |>.put "j" (.real e.jitter)
    |>.put "f" (.int e.streak.toInt) |>.put "at" (.int e.updated.toInt)

/-- `RouteEvidence.parse`: `none` for a missing key or a value out of range. -/
def parse (J : OrgJson) (o : JsonObject) : Option RouteEvidence := do
  let v : RouteEvidence := ⟨← o.getInt J "n", ← o.getInt J "ok", ← o.getDouble J "e",
    ← o.getDouble J "ms", ← o.getDouble J "j", ← o.getInt J "f", ← o.getLong J "at"⟩
  guard (0 ≤ v.checks ∧ v.checks ≤ 1000000 ∧ 0 ≤ v.successes ∧ v.successes ≤ v.checks
    ∧ 0 ≤ v.ema ∧ v.ema ≤ 1)
  guard (0 ≤ v.latency ∧ v.latency ≤ 60000 ∧ 0 ≤ v.jitter ∧ v.jitter ≤ 60000
    ∧ 0 ≤ v.streak ∧ v.streak ≤ 3 ∧ 0 ≤ v.updated)
  return v

end RouteEvidence

/-- The last test result for a server. -/
structure ServerState where
  selected : Bool := false
  tcpMs : Int32 := -1
  realMs : Int32 := -1
  bigOk : Option Bool := none
  ytOk : Option Bool := none
  maskId : String := ""
  checkedAt : Int64 := 0
  okCount : Int32 := 0
  failCount : Int32 := 0
  goodMasks : List String := []
  netMasks : OrderedMap String String := .empty
  tgOk : Option Bool := none
  kbps : Int32 := 0
  netEvidence : OrderedMap String RouteEvidence := .empty
  speedNetwork : String := ""
  speedMask : String := ""
  speedCheckedAt : Int64 := 0
  serviceNetwork : String := ""
  serviceMask : String := ""
  serviceCheckedAt : Int64 := 0
deriving DecidableEq

namespace ServerState

/-- `v?.let { put(k, it) }`. -/
def putBool? (o : JsonObject) (k : String) (v : Option Bool) : JsonObject :=
  match v with
  | some b => o.put k (.bool b)
  | none => o

def toJson (s : ServerState) : JsonObject :=
  let o := JsonObject.empty
  let o := if s.netEvidence.entries = [] then o
    else o.put "netEvidence" (.obj (s.netEvidence.toJson fun e => .obj e.toJson))
  let o := if 0 < s.serviceCheckedAt then
      o |>.put "serviceNetwork" (.str s.serviceNetwork) |>.put "serviceMask" (.str s.serviceMask)
        |>.put "serviceAt" (.int s.serviceCheckedAt.toInt) else o
  let o := if 0 < s.speedCheckedAt then
      o |>.put "speedNetwork" (.str s.speedNetwork) |>.put "speedMask" (.str s.speedMask)
        |>.put "speedAt" (.int s.speedCheckedAt.toInt) else o
  let o := if s.selected then o.put "sel" (.bool true) else o
  let o := o |>.put "tcp" (.int s.tcpMs.toInt) |>.put "real" (.int s.realMs.toInt)
  let o := putBool? (putBool? o "big" s.bigOk) "yt" s.ytOk
  let o := if s.maskId = "" then o else o.put "mask" (.str s.maskId)
  let o := o |>.put "at" (.int s.checkedAt.toInt) |>.put "ok" (.int s.okCount.toInt)
    |>.put "fail" (.int s.failCount.toInt)
  let o := if s.goodMasks = [] then o else o.put "good" (Json.strings s.goodMasks)
  let o := if s.netMasks.entries = [] then o else o.put "net" (.obj (s.netMasks.toJson .str))
  let o := putBool? o "tg" s.tgOk
  if 0 < s.kbps then o.put "kbps" (.int s.kbps.toInt) else o

section
variable (J : OrgJson)

/-- `if (o.has(k)) o.optBoolean(k) else null`. -/
def bool? (o : JsonObject) (k : String) : Option Bool :=
  if o.has k then some (o.optBoolean J k false) else none

def fromJson (o : JsonObject) : ServerState :=
  { selected := o.optBoolean J "sel" false
    tcpMs := o.optInt J "tcp" (-1), realMs := o.optInt J "real" (-1)
    bigOk := bool? J o "big", ytOk := bool? J o "yt"
    maskId := o.optString J "mask" "", checkedAt := o.optLong J "at" 0
    okCount := o.optInt J "ok" 0, failCount := o.optInt J "fail" 0
    goodMasks := match o.optJSONArray "good" with
      | some a => a.map (Json.asString J)
      | none => []
    netMasks := match o.optJSONObject "net" with
      | some m => .ofJson (Json.asString J) m
      | none => .empty
    tgOk := bool? J o "tg", kbps := o.optInt J "kbps" 0
    serviceNetwork := o.optString J "serviceNetwork" ""
    serviceMask := o.optString J "serviceMask" ""
    serviceCheckedAt := o.optLong J "serviceAt" 0
    speedNetwork := o.optString J "speedNetwork" "", speedMask := o.optString J "speedMask" ""
    speedCheckedAt := o.optLong J "speedAt" 0
    netEvidence := match o.optJSONObject "netEvidence" with
      | some m => .ofList ((m.take 8).filterMap fun e =>
          (e.2.asObject.bind (RouteEvidence.parse J)).map fun v => (e.1, v))
      | none => .empty }

end

end ServerState

end VlessCard
