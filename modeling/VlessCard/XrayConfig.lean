/-
`XrayConfigBuilder.kt`: the configuration of the running VPN and of a test run.

`vpnConfig` assembles one JSON object: inbounds, outbounds, DNS, routing rules and
balancers. The pieces that depend on one another are named after what they hold
and are written in the order the builder appends them; the whole is `none` where
the source throws. A configuration is read back through `outboundsOf`, `rulesOf`
and `balancersOf`, so that what is proved is said of the finished object.
-/
import VlessCard.Outbound
import VlessCard.Services
import VlessCard.Settings

set_option autoImplicit false

namespace VlessCard

/-- The local SOCKS listener. -/
structure SocksAuth where
  port : Int32
  user : String := ""
  pass : String := ""

namespace SocksAuth

def auth (s : SocksAuth) : Bool := s.user ≠ ""

end SocksAuth

namespace XrayConfigBuilder

def WARP_CHAIN : String := "warp-chain"

def TOR_TAG : String := "tor"

def RU_DNS : String := "77.88.8.8"

/-- `TorCard.DEFAULT_SOCKS_PORT`. -/
def DEFAULT_SOCKS_PORT : ℤ := 9050

def DNS_FALLBACKS : List String :=
  ["https://8.8.8.8/dns-query", "https://9.9.9.9/dns-query", "8.8.8.8", "1.1.1.1"]

def DNS_HOSTS : List (String × String) :=
  [("dns.google", "8.8.8.8"), ("cloudflare-dns.com", "1.1.1.1"), ("one.one.one.one", "1.1.1.1"),
    ("dns.quad9.net", "9.9.9.9"), ("dns.adguard-dns.com", "94.140.14.14"),
    ("common.dot.dns.yandex.net", "77.88.8.8")]

def TELEGRAM_DOMAINS : List String :=
  ["geosite:telegram", "domain:t.me", "domain:telegram.org", "domain:telesco.pe",
    "domain:telegram.me"]

/-- The domains of the hybrid mode: Telegram is blocked by address, where a DPI
trick cannot help. -/
def hybridDomains (settings : Settings) : List String :=
  settings.hybridDomains.filter fun d => d ∉ TELEGRAM_DOMAINS

def HEAVY_DOMAINS : List String :=
  ["geosite:youtube", "domain:googlevideo.com", "domain:ytimg.com", "domain:ggpht.com",
    "domain:youtube.com", "domain:youtu.be"]

def RU_DOMAINS : List String := ["geosite:category-ru", "domain:ru", "domain:su", "domain:xn--p1ai"]

def YT_ADS : List String :=
  ["full:ads.youtube.com", "full:pagead2.googlesyndication.com",
    "full:googleads.g.doubleclick.net", "full:pubads.g.doubleclick.net",
    "full:securepubads.g.doubleclick.net", "full:ad.doubleclick.net",
    "full:static.doubleclick.net", "full:pagead.googlesyndication.com",
    "full:adservice.google.com", "full:admob.googleapis.com", "full:imasdk.googleapis.com",
    "full:googleadservices.com", "full:www.googleadservices.com", "full:tpc.googlesyndication.com"]

def TRACKERS : List String :=
  ["full:app-measurement.com", "full:app-measurement-admob.googleapis.com",
    "full:crashlytics.com", "full:crashlyticsreports-pa.googleapis.com",
    "full:update.crashlytics.com", "full:report.crashlytics.com", "full:sentry.io",
    "full:ingest.sentry.io", "full:o1069899.ingest.sentry.io", "full:api.amplitude.com",
    "full:api2.amplitude.com", "full:app.appsflyer.com", "full:sdk.adjust.com",
    "full:mobile-events-gw.android.googleservices.com",
    "full:firebaseremoteconfig.googleapis.com", "full:analytics.tiktok.com",
    "full:app-analytics.vk.com", "full:ads.yahoo.com", "full:graph.facebook.com",
    "full:pixel.facebook.com", "full:ctldl.windowsupdate.com", "full:dc.ads.linkedin.com"]

/-- The arguments of `vpnConfig`, with its defaults. -/
structure VpnInput where
  servers : List (Server × Option Mask)
  settings0 : Settings
  byeDpiPort : Option Int32
  socks : SocksAuth := ⟨settings0.socksPort, "", ""⟩
  dpiPorts : OrderedMap String Int32 := .empty
  listen : String := "127.0.0.1"
  httpPort : Option Int32 := none
  warpHop : Option Server := none
  heavy : OrderedSet ℤ := ⟨[], List.nodup_nil⟩
  serviceRoutes : OrderedMap String (List String) := .empty
  quietLogs : Bool := false
  downloadSpeeds : List ℤ := []
  downloadLatencies : List ℤ := []

/-- `"$PROXY_PREFIX$i"`. -/
def proxyTag (i : ℤ) : String := PROXY_PREFIX ++ toString i

namespace VpnInput

/-! ## What the builder decides first

Which mode is meant, whether Tor is on, and where the main route goes. The other parts of the
configuration ask for these and decide nothing again. -/

/-- Auto: servers when there are some, otherwise the DPI engine alone. -/
def settings (i : VpnInput) : Settings :=
  if i.settings0.mode = .AUTO then
    { i.settings0 with mode := if i.servers = [] then .BYEDPI else .SERVERS }
  else i.settings0

def useServers (i : VpnInput) : Bool := i.settings.mode ≠ .BYEDPI

def torOn (i : VpnInput) : Bool :=
  i.useServers && (i.settings.torAll || i.settings.torRouting && i.settings.services ≠ [])

/-- The first ordinary server, through which WARP is dialled; `none` for `-1`. -/
def hopIdx (i : VpnInput) : Option ℕ :=
  if i.useServers ∧ i.warpHop.isSome then i.servers.findIdx? fun e => e.1.protocol ≠ "wireguard"
  else none

def many (i : VpnInput) : Bool := i.useServers && 1 < i.servers.length

/-- The key and the tag of the main route. -/
def mainTarget (i : VpnInput) : String × String :=
  if i.settings.torAll ∧ i.torOn then ("outboundTag", TOR_TAG)
  else if !i.useServers then ("outboundTag", BYEDPI_TAG)
  else if i.hopIdx.isSome then ("outboundTag", WARP_CHAIN)
  else if i.many then ("balancerTag", "balancer")
  else ("outboundTag", proxyTag 0)

def toMain (i : VpnInput) (rule : JsonObject) : JsonObject :=
  rule.put i.mainTarget.1 (.str i.mainTarget.2)

def ruDns (i : VpnInput) : Bool := i.settings.ruDns && i.settings.ruDirect && i.useServers

/-! ## Outbounds

The outbounds in their order: the servers, direct, Tor, block, DNS, the local engines, and the
one that is dialled through a server. -/

section
variable (J : OrgJson) (U : Jvm) (noiseItems : String → Option String)

/-- One outbound for each selected server. -/
def proxyOutbounds (i : VpnInput) : Option (List JsonObject) :=
  if i.useServers then
    i.servers.zipIdx.mapM fun e => outbound J U noiseItems e.1.1 (proxyTag e.2)
      (resolveMask e.1.2 i.byeDpiPort i.dpiPorts) i.settings.mux
  else some []

def directOutbound : JsonObject :=
  JsonObject.empty |>.put "tag" (.str "direct") |>.put "protocol" (.str "freedom")
    |>.put "settings" (.obj (JsonObject.empty.put "domainStrategy" (.str "UseIPv4")))

def torOutbound : JsonObject :=
  JsonObject.empty |>.put "tag" (.str TOR_TAG) |>.put "protocol" (.str "socks")
    |>.put "settings" (.obj (JsonObject.empty.put "servers" (.arr [.obj (JsonObject.empty
      |>.put "address" (.str "127.0.0.1") |>.put "port" (.int DEFAULT_SOCKS_PORT))])))

def blockOutbound : JsonObject :=
  JsonObject.empty |>.put "tag" (.str "block") |>.put "protocol" (.str "blackhole")

def dnsOutbound : JsonObject :=
  JsonObject.empty |>.put "tag" (.str "dns-out") |>.put "protocol" (.str "dns")
    |>.put "settings" (.obj (JsonObject.empty.put "nonIPQuery" (.str "skip")))

/-- WARP dialled through the server at `hop`: the same outbound with its socket
options naming that server and its final mask removed. -/
def dialThrough (w : JsonObject) (hop : ℕ) : JsonObject :=
  let ss := (w.optJSONObject "streamSettings").getD JsonObject.empty
  let sock := (ss.optJSONObject "sockopt").getD JsonObject.empty
  w.put "streamSettings" (.obj
    ((ss.put "sockopt" (.obj (sock.put "dialerProxy" (.str (proxyTag hop))))).remove "finalmask"))

def warpOutbounds (i : VpnInput) : Option (List JsonObject) :=
  match i.warpHop, i.hopIdx with
  | some hop, some idx =>
      (outbound J U noiseItems hop WARP_CHAIN none false).map fun w => [dialThrough w idx]
  | _, _ => some []

def outbounds (i : VpnInput) : Option (List JsonObject) := do
  let proxies ← i.proxyOutbounds J U noiseItems
  let warp ← i.warpOutbounds J U noiseItems
  return proxies ++ [directOutbound] ++ (if i.torOn then [torOutbound] else [])
    ++ [blockOutbound, dnsOutbound]
    ++ dpiOutbounds i.byeDpiPort (if i.useServers then i.dpiPorts else .empty) ++ warp

end

/-! ## Rules

The rules are put in groups, in an order that matters, as the first rule that admits a connection
decides. Each group has its own condition. -/

/-- `JSONObject().put(k, JSONArray(list))`. -/
def ruleOf (k : String) (v : List String) : JsonObject := JsonObject.empty.put k (Json.strings v)

/-- A rule that ends at a fixed outbound. -/
def toTag (rule : JsonObject) (tag : String) : JsonObject := rule.put "outboundTag" (.str tag)

def udpPort (port : String) : JsonObject :=
  JsonObject.empty |>.put "network" (.str "udp") |>.put "port" (.str port)

/-- `rules.put` under a condition. -/
def when (c : Bool) (rules : List JsonObject) : List JsonObject := if c then rules else []

/-- DNS, private addresses, IPv6, STUN and QUIC. -/
def networkRules (i : VpnInput) : List JsonObject :=
  [toTag ((ruleOf "inboundTag" ["socks"]).put "port" (.str "53")) "dns-out"]
    ++ when i.ruDns [toTag ((ruleOf "inboundTag" ["dns-module"]).put "ip" (Json.strings [RU_DNS]))
      "direct"]
    ++ [i.toMain (ruleOf "inboundTag" ["dns-module"]),
        toTag (ruleOf "ip" ["geoip:private"]) "direct",
        toTag (ruleOf "ip" ["::/0"]) "block"]
    ++ when i.settings.blockStun [toTag (udpPort "3478,5349,19302-19309") "block"]
    ++ (if i.settings.blockQuic ∨ !i.useServers then [toTag (udpPort "443") "block"]
        else when (i.settings.mode = .HYBRID ∧ hybridDomains i.settings ≠ [])
          [toTag ((udpPort "443").put "domain" (Json.strings (hybridDomains i.settings))) "block"])

def alwaysDirectRules (i : VpnInput) : List JsonObject :=
  when (i.settings.alwaysDirect ≠ [])
    [toTag (ruleOf "domain" (i.settings.alwaysDirect.map ("domain:" ++ ·))) "direct"]

def alwaysVpnRules (i : VpnInput) : List JsonObject :=
  when (i.settings.alwaysVpn ≠ [])
    [i.toMain (ruleOf "domain" (i.settings.alwaysVpn.map ("domain:" ++ ·)))]

/-- The pool of each pinned service. -/
def servicePools (U : Jvm) (i : VpnInput) : OrderedMap String (List ℕ) :=
  if i.useServers ∧ i.warpHop = none then
    ServiceRoutes.indices (i.servers.map fun e => e.1.id U) i.serviceRoutes
  else .empty

/-- The key and the tag a pinned service is sent to. -/
def pinTarget (i : VpnInput) (id : String) (pool : List ℕ) : String × String :=
  if i.torOn ∧ id ∈ i.settings.services then ("outboundTag", TOR_TAG)
  else if pool.length = 1 then ("outboundTag", proxyTag (pool.head?.getD 0 : ℕ))
  else ("balancerTag", "service-" ++ id)

def pinned (i : VpnInput) (id : String) (pool : List ℕ) (rule : JsonObject) : JsonObject :=
  rule.put (i.pinTarget id pool).1 (.str (i.pinTarget id pool).2)

/-- Whether the pin of a target is emitted: not over an explicit hybrid route, and
not for a video or Telegram the user left out. -/
def pinEmitted (i : VpnInput) (t : ServiceRoutes.Target) : Bool :=
  (t.id ∉ ["youtube", "telegram"] || i.settings.services = [] || t.id ∈ i.settings.services)
    && (i.settings.mode ≠ .HYBRID || !(hybridDomains i.settings).any (fun d => d ∈ t.domains))

def pinRules (i : VpnInput) (e : String × List ℕ) : List JsonObject :=
  match ServiceRoutes.targets.find? (fun t => t.id = e.1) with
  | some t => when (i.pinEmitted t)
      (i.pinned e.1 e.2 (ruleOf "domain" t.domains)
        :: when (t.ips ≠ []) [i.pinned e.1 e.2 (ruleOf "ip" t.ips)])
  | none => []

def serviceRules (U : Jvm) (i : VpnInput) : List JsonObject :=
  (i.servicePools U).entries.flatMap i.pinRules

def aiRules (i : VpnInput) : List JsonObject :=
  when i.useServers [i.toMain (ruleOf "domain" AppWatch.AI_DOMAINS)]

def adRules (i : VpnInput) : List JsonObject :=
  when i.settings.blockAds
      [toTag (ruleOf "domain" ("geosite:category-ads-all" :: YT_ADS)) "block"]
    ++ when i.settings.blockTrackers
      [toTag (ruleOf "domain" TRACKERS) "block",
       toTag (JsonObject.empty |>.put "network" (.str "tcp,udp") |>.put "port" (.str "853")) "block"]

def hybridRules (i : VpnInput) : List JsonObject :=
  when (i.settings.mode = .HYBRID ∧ hybridDomains i.settings ≠ [])
    [toTag (ruleOf "domain" (hybridDomains i.settings)) BYEDPI_TAG]

def telegramRules (i : VpnInput) : List JsonObject :=
  when (i.useServers ∧ (i.settings.services = [] ∨ "telegram" ∈ i.settings.services))
    [i.toMain (ruleOf "domain" (Services.domains ["telegram"])),
     i.toMain (ruleOf "ip" (Services.ips ["telegram"]))]

def ruRules (i : VpnInput) : List JsonObject :=
  when (i.settings.ruDirect ∧ i.useServers)
    [toTag (ruleOf "domain" RU_DOMAINS) "direct", toTag (ruleOf "ip" ["geoip:ru"]) "direct"]

/-- The domains of the chosen services, when only they go through the VPN. -/
def only (i : VpnInput) : List String := Services.domains i.settings.services

def speedAware (i : VpnInput) : Bool :=
  i.downloadSpeeds.length = i.servers.length && i.downloadSpeeds.any (fun v => 0 < v)

/-- Video goes to the few servers that really downloaded fastest. -/
def heavyOn (i : VpnInput) : Bool :=
  !i.speedAware && i.many && i.hopIdx = none && i.servers.length ≤ 10 && i.heavy.toList ≠ []
    && i.heavy.toList.length < i.servers.length
    && i.heavy.toList.all (fun v => 0 ≤ v ∧ v < i.servers.length)
    && (i.only = [] || "youtube" ∈ i.settings.services)

def heavyRules (i : VpnInput) : List JsonObject :=
  when i.heavyOn [(ruleOf "domain" HEAVY_DOMAINS).put "balancerTag" (.str "heavy")]

def anyTraffic : JsonObject := JsonObject.empty.put "network" (.str "tcp,udp")

/-- Only the chosen services through the VPN and the rest direct, or everything to
the main route. -/
def catchAllRules (i : VpnInput) : List JsonObject :=
  if i.only ≠ [] then
    [i.toMain (ruleOf "domain" i.only)]
      ++ when (Services.ips i.settings.services ≠ [])
        [i.toMain (ruleOf "ip" (Services.ips i.settings.services))]
      ++ when ("discord" ∈ i.settings.services) [i.toMain (udpPort "50000-65535")]
      ++ [toTag anyTraffic "direct"]
  else [i.toMain anyTraffic]

def rules (U : Jvm) (i : VpnInput) : List JsonObject :=
  i.networkRules ++ i.alwaysDirectRules ++ i.alwaysVpnRules ++ i.serviceRules U ++ i.aiRules
    ++ i.adRules ++ i.hybridRules ++ i.telegramRules ++ i.ruRules ++ i.heavyRules ++ i.catchAllRules

/-! ## Balancers

With several servers there is a balancer for the main route, one for video, and one for each
pinned service. -/

def strategy (i : VpnInput) : JsonObject :=
  if i.speedAware then SpeedBalance.strategy i.downloadSpeeds i.downloadLatencies
  else
    let o := JsonObject.empty.put "type" (.str i.settings.balance.xray)
    if i.settings.balance = .LEAST_LOAD then
      o.put "settings" (.obj (JsonObject.empty |>.put "expected" (.int 3)
        |>.put "maxRTT" (.str "1500ms") |>.put "tolerance" (.real (3 / 10))
        |>.put "baselines" (Json.strings ["400ms", "1s"])))
    else o

def balancerOf (i : VpnInput) (tag : String) (selector : List String) (fallback : String) :
    JsonObject :=
  JsonObject.empty |>.put "tag" (.str tag) |>.put "selector" (Json.strings selector)
    |>.put "strategy" (.obj i.strategy) |>.put "fallbackTag" (.str fallback)

def mainBalancer (i : VpnInput) : JsonObject := i.balancerOf "balancer" [PROXY_PREFIX] (proxyTag 0)

def heavyBalancer (i : VpnInput) : JsonObject :=
  i.balancerOf "heavy" ((i.heavy.toList.insertionSort (· ≤ ·)).map proxyTag)
    (proxyTag (i.heavy.toList.min?.getD 0))

def serviceBalancer (i : VpnInput) (e : String × List ℕ) : JsonObject :=
  i.balancerOf ("service-" ++ e.1) (e.2.map fun k : ℕ => proxyTag k) (proxyTag (e.2.head?.getD 0 : ℕ))

/-- The balancers; only with several servers. -/
def balancers (U : Jvm) (i : VpnInput) : List JsonObject :=
  [i.mainBalancer] ++ when i.heavyOn [i.heavyBalancer]
    ++ ((i.servicePools U).entries.filter fun e => 1 < e.2.length).map i.serviceBalancer

/-! ## The configuration

The object is assembled from these parts. The builder throws when an outbound cannot be built. -/

def base : JsonObject :=
  JsonObject.empty.put "log" (.obj (JsonObject.empty.put "loglevel" (.str "warning")))

def sniff (i : VpnInput) : JsonObject :=
  JsonObject.empty |>.put "enabled" (.bool true)
    |>.put "destOverride" (Json.strings (TransportPolicy.sniff !i.settings.blockQuic))
    |>.put "routeOnly" (.bool true)

def inSettings (i : VpnInput) : JsonObject :=
  let o := JsonObject.empty |>.put "udp" (.bool true) |>.put "ip" (.str "127.0.0.1")
  if i.socks.auth then
    o |>.put "auth" (.str "password") |>.put "accounts" (.arr [.obj (JsonObject.empty
      |>.put "user" (.str i.socks.user) |>.put "pass" (.str i.socks.pass))])
  else o.put "auth" (.str "noauth")

def inboundOf (i : VpnInput) (tag protocol : String) (port : Int32) (settings : JsonObject) :
    JsonObject :=
  JsonObject.empty |>.put "tag" (.str tag) |>.put "listen" (.str i.listen)
    |>.put "port" (.int port.toInt) |>.put "protocol" (.str protocol)
    |>.put "settings" (.obj settings) |>.put "sniffing" (.obj i.sniff)

def inbounds (i : VpnInput) : List JsonObject :=
  i.inboundOf "socks" "socks" i.socks.port i.inSettings
    :: (i.httpPort.map fun p => i.inboundOf "http" "http" p JsonObject.empty).toList

def dns (i : VpnInput) : JsonObject :=
  let ru : JsonObject := JsonObject.empty |>.put "address" (.str RU_DNS) |>.put "port" (.int 53)
    |>.put "domains" (Json.strings RU_DOMAINS) |>.put "skipFallback" (.bool true)
  let servers := (if i.ruDns then [Json.obj ru] else [])
    ++ ((i.settings.dnsUrl :: DNS_FALLBACKS).eraseDups).map .str
  let o := JsonObject.empty |>.put "servers" (.arr servers)
    |>.put "queryStrategy" (.str "UseIPv4") |>.put "tag" (.str "dns-module")
    |>.put "hosts" (.obj (DNS_HOSTS.map fun e => (e.1, .str e.2)))
  putIf i.settings.turbo o "serveStale" (.bool true)

/-- Which servers are probed, and how. -/
def observatory (i : VpnInput) : String × JsonObject :=
  if i.settings.balance = .LEAST_LOAD ∧ !i.speedAware then
    ("burstObservatory", JsonObject.empty |>.put "subjectSelector" (Json.strings [PROXY_PREFIX])
      |>.put "pingConfig" (.obj (JsonObject.empty |>.put "destination" (.str i.settings.testUrl)
        |>.put "interval" (.str "30s") |>.put "connectivity" (.str "")
        |>.put "timeout" (.str "10s") |>.put "sampling" (.int 3))))
  else
    ("observatory", JsonObject.empty |>.put "subjectSelector" (Json.strings [PROXY_PREFIX])
      |>.put "probeUrl" (.str i.settings.testUrl) |>.put "probeInterval" (.str "10s")
      |>.put "enableConcurrency" (.bool true))

def policy (i : VpnInput) : JsonObject :=
  let level := JsonObject.empty |>.put "handshake" (.int 6) |>.put "connIdle" (.int 300)
    |>.put "uplinkOnly" (.int 2) |>.put "downlinkOnly" (.int 5)
  JsonObject.empty.put "levels" (.obj (JsonObject.empty.put "0" (.obj
    (putIf i.settings.turbo level "bufferSize" (.int 64)))))

def objects (l : List JsonObject) : Json := .arr (l.map .obj)

def routing (U : Jvm) (i : VpnInput) : JsonObject :=
  let o := JsonObject.empty |>.put "domainStrategy" (.str "AsIs")
    |>.put "rules" (objects (i.rules U))
  putIf i.many o "balancers" (objects (i.balancers U))

/-- The object around the outbounds. -/
def assemble (U : Jvm) (i : VpnInput) (outs : List JsonObject) : JsonObject :=
  let c := if i.quietLogs then
      base.put "log" (.obj (JsonObject.empty.put "loglevel" (.str "error"))) else base
  let c := c |>.put "inbounds" (objects i.inbounds) |>.put "outbounds" (objects outs)
    |>.put "dns" (.obj i.dns)
  let c := putIf i.many c i.observatory.1 (.obj i.observatory.2)
  c |>.put "routing" (.obj (i.routing U)) |>.put "policy" (.obj i.policy)

end VpnInput

section
variable (J : OrgJson) (U : Jvm) (noiseItems : String → Option String)

/-- `XrayConfigBuilder.vpnConfig` before it is printed; `none` is an exception. -/
def vpnConfig (i : VpnInput) : Option JsonObject := do
  guard (i.settings.mode = .BYEDPI ∨ i.servers ≠ [])
  guard (i.settings.mode = .SERVERS ∨ i.byeDpiPort.isSome)
  let outs ← i.outbounds J U noiseItems
  return i.assemble U outs

/-! ## `testConfig`

A test configuration has an inbound and an outbound for each variant, and a rule between the two. -/

/-- `"t$i"`. -/
def testIn (i : ℕ) : String := "t" ++ toString i

/-- `"v$i"`. -/
def testOut (i : ℕ) : String := "v" ++ toString i

def testInbound (i : ℕ) (port : Int32) : JsonObject :=
  JsonObject.empty |>.put "tag" (.str (testIn i)) |>.put "listen" (.str "127.0.0.1")
    |>.put "port" (.int port.toInt) |>.put "protocol" (.str "socks")
    |>.put "settings" (.obj (JsonObject.empty |>.put "auth" (.str "noauth")
      |>.put "udp" (.bool false)))

def testRule (i : ℕ) : JsonObject :=
  JsonObject.empty |>.put "inboundTag" (Json.strings [testIn i])
    |>.put "outboundTag" (.str (testOut i))

/-- The configuration that tests many variants at once, each inbound routed to its
own outbound; `none` is an exception. -/
def testConfig (variants : List (Server × Option Mask)) (ports : List Int32)
    (byeDpiPort : Option Int32) (dpiPorts : OrderedMap String Int32) : Option JsonObject := do
  guard (ports.length = variants.length)
  let outs ← variants.zipIdx.mapM fun e => outbound J U noiseItems e.1.1 (testOut e.2)
    (resolveMask e.1.2 byeDpiPort dpiPorts) false
  let outs := outs ++ dpiOutbounds byeDpiPort dpiPorts ++ [VpnInput.blockOutbound]
  let c := VpnInput.base |>.put "inbounds" (VpnInput.objects (ports.mapIdx testInbound))
    |>.put "outbounds" (VpnInput.objects outs)
    |>.put "routing" (.obj (JsonObject.empty.put "rules"
      (VpnInput.objects ((List.range variants.length).map testRule))))
  return c.put "policy" (.obj (JsonObject.empty.put "levels" (.obj (JsonObject.empty.put "0" (.obj
    (JsonObject.empty |>.put "handshake" (.int 8) |>.put "connIdle" (.int 30)))))))

end

/-! ## Reading a configuration back

What was built is read back member by member. These readers are what the theorems about a
configuration speak of. -/

/-- The objects of an array member. -/
def objectsOf (c : JsonObject) (k : String) : List JsonObject :=
  ((c.optJSONArray k).getD []).filterMap Json.asObject

def outboundsOf (c : JsonObject) : List JsonObject := objectsOf c "outbounds"

def inboundsOf (c : JsonObject) : List JsonObject := objectsOf c "inbounds"

def routingOf (c : JsonObject) : JsonObject := (c.optJSONObject "routing").getD JsonObject.empty

def rulesOf (c : JsonObject) : List JsonObject := objectsOf (routingOf c) "rules"

def balancersOf (c : JsonObject) : List JsonObject := objectsOf (routingOf c) "balancers"

/-- The text of a member, the empty text when it is not one. -/
def textOf (o : JsonObject) (k : String) : String :=
  match o.get? k with
  | some (.str s) => s
  | _ => ""

/-- The texts of an array member. -/
def textsOf (o : JsonObject) (k : String) : List String :=
  ((o.optJSONArray k).getD []).filterMap fun v =>
    match v with
    | .str s => some s
    | _ => none

/-- The dialer an outbound's own socket options name. -/
def dialerProxy (o : JsonObject) : Option Json :=
  ((o.optJSONObject "streamSettings").bind fun st => st.optJSONObject "sockopt").bind fun sock =>
    sock.get? "dialerProxy"

end XrayConfigBuilder

end VlessCard
