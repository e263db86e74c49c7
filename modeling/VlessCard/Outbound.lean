/-
`XrayConfigBuilder.outbound`, the masks of `Masks.kt` it applies and the local
DPI engines in front of it.

An outbound is the JSON object Xray reads: a tag, a protocol with its settings,
the transport (`streamSettings`) and sometimes multiplexing. A mask adds
fragmentation, noise or port hopping to the transport, or has the socket dialled
through a local DPI engine by naming that engine's outbound in
`sockopt.dialerProxy`; the last section is about that name, which is the only
reference an outbound makes to another one.
-/
import VlessCard.Server

set_option autoImplicit false

namespace VlessCard

/-! ## `Mask`

The mask of an outbound, with the tables that its noise comes from and the tags of the local
engines. -/

/-- The masking of one outbound. -/
structure Mask where
  fingerprint : String
  packets : String := ""
  length : String := ""
  delay : String := ""
  maxSplit : String := ""
  /-- Nothing for a direct dial, `Masks.CURRENT_DPI`, or the id of a strategy. -/
  dpi : String := ""
  lengths : String := ""
  delays : String := ""
  noise : String := ""
  hop : String := ""
  noiseJson : String := ""
  sni : String := ""
  alpn : String := ""
  mss : ℤ := 0
  mux : Bool := false
  tfo : Bool := false
  ipv6 : Bool := false
deriving DecidableEq

namespace Mask

def viaByeDpi (m : Mask) : Bool := m.dpi ≠ ""

end Mask

namespace Masks

def CURRENT_DPI : String := "cur"

def HOP_WARP : String := "hw"

def WARP_PORTS : String :=
  "500,854,859,864,878,880,890,891,894,903,908,928,934,939,942,943,945,946,955,968,987,988,1002,1010,1014,1018,1070,1074,1180,1387,1701,1843,2371,2408,2506,3138,3476,3581,3854,4177,4198,4233,4500,5279,5956,7103,7152,7156,7281,7559,8319,8742,8854,8886"

/-- `Masks.noiseFor`: the mask's own noise items, or those of its preset. The table
of presets (`noiseItems`) holds generated QUIC packets and is a parameter. -/
def noiseFor (noiseItems : String → Option String) (m : Mask) : Option String :=
  if m.noiseJson ≠ "" then some m.noiseJson
  else if m.noise ≠ "" then noiseItems m.noise else none

end Masks

namespace XrayConfigBuilder

def BYEDPI_TAG : String := "byedpi"

def PROXY_PREFIX : String := "proxy-"

/-! ## Reading lists and addresses

Lists are separated by commas in the settings, and an address may be a literal. The helpers of
the builder for conditional puts are here too. -/

def csv (s : String) : List String := ((Text.split s ',').map Text.trim).filter (fun t => t ≠ "")

/-- One group of `IPV4_LITERAL`: one to three digits. -/
def isOctet (s : String) : Bool :=
  decide (1 ≤ s.toList.length ∧ s.toList.length ≤ 3) && s.toList.all Char.isDigit

/-- `IPV4_LITERAL.matches`. -/
def isIpv4Literal (s : String) : Bool :=
  let parts := Text.split s '.'
  decide (parts.length = 4) && parts.all isOctet

/-- `optJSONArray("udp") ?: JSONArray().also { fm.put("udp", it) }` and one `put`. -/
def appendUdp (fm : JsonObject) (v : JsonObject) : JsonObject :=
  fm.put "udp" (.arr ((fm.optJSONArray "udp").getD [] ++ [.obj v]))

/-- `put` under a condition. -/
def putIf (c : Bool) (o : JsonObject) (k : String) (v : Json) : JsonObject :=
  if c then o.put k v else o

/-- `JSONObject().put("type", t).put("settings", s)`. -/
def typed (t : String) (s : JsonObject) : JsonObject :=
  JsonObject.empty |>.put "type" (.str t) |>.put "settings" (.obj s)

section
variable (J : OrgJson) (U : Jvm) (noiseItems : String → Option String)

/-! ## `stream`

The transport is built in the order of the source: the network with its settings, the security
layer, the final mask and the socket options. -/

/-- The network of the stream settings; empty for WireGuard. -/
def network (s : Server) : String :=
  if s.protocol = "shadowsocks" ∨ s.protocol = "socks" then "tcp"
  else if s.protocol = "hysteria2" then "hysteria"
  else if s.protocol = "wireguard" then ""
  else s.network

/-- The object of a `ws` or `httpupgrade` transport. -/
def pathHost (s : Server) : JsonObject :=
  putIf (s.host ≠ "") (JsonObject.empty.put "path" (.str (Text.ifEmpty s.path "/"))) "host"
    (.str s.host)

/-- The transport settings and the host name they offer for the TLS hello. -/
def transport (s : Server) : JsonObject × String :=
  let net := network s
  let st := putIf (net ≠ "") JsonObject.empty "network" (.str net)
  if net = "tcp" then
    if s.headerType = "http" then
      let hosts := csv s.host
      let path := csv s.path
      let request := JsonObject.empty |>.put "version" (.str "1.1") |>.put "method" (.str "GET")
        |>.put "path" (Json.strings (if path = [] then ["/"] else path))
        |>.put "headers" (.obj (JsonObject.empty |>.put "Host" (Json.strings hosts)
          |>.put "Connection" (Json.strings ["keep-alive"])))
      (st.put "tcpSettings" (.obj (JsonObject.empty.put "header" (.obj
        (JsonObject.empty |>.put "type" (.str "http") |>.put "request" (.obj request))))),
        hosts.head?.getD "")
    else (st, "")
  else if net = "ws" then (st.put "wsSettings" (.obj (pathHost s)), s.host)
  else if net = "httpupgrade" then (st.put "httpupgradeSettings" (.obj (pathHost s)), s.host)
  else if net = "xhttp" then
    let x := JsonObject.empty |>.put "path" (.str (Text.ifEmpty s.path "/"))
      |>.put "mode" (.str (Text.ifEmpty s.mode "auto"))
    let x := putIf (s.host ≠ "") x "host" (.str s.host)
    -- an `extra` that is not JSON is left out
    let x := if s.extra ≠ "" then
        match J.parseObject s.extra with
        | some e => x.put "extra" (.obj e)
        | none => x
      else x
    (st.put "xhttpSettings" (.obj x), s.host)
  else if net = "grpc" then
    let g := JsonObject.empty |>.put "serviceName" (.str s.serviceName)
      |>.put "multiMode" (.bool (s.mode = "multi")) |>.put "idle_timeout" (.int 60)
      |>.put "health_check_timeout" (.int 20)
    (st.put "grpcSettings" (.obj (putIf (s.host ≠ "") g "authority" (.str s.host))), s.host)
  else if net = "h2" then
    (st.put "httpSettings" (.obj (JsonObject.empty |>.put "path" (.str (Text.ifEmpty s.path "/"))
      |>.put "host" (Json.strings (csv s.host)))), (csv s.host).head?.getD "")
  else if net = "kcp" then
    let k := JsonObject.empty.put "header" (.obj
      (JsonObject.empty.put "type" (.str (Text.ifEmpty s.headerType "none"))))
    (st.put "kcpSettings" (.obj (putIf (s.path ≠ "") k "seed" (.str s.path))), "")
  else if net = "hysteria" then
    (st.put "hysteriaSettings" (.obj (JsonObject.empty |>.put "version" (.int 2)
      |>.put "auth" (.str s.secret))), "")
  else (st, "")

/-- The security layer actually used. -/
def security (s : Server) : String :=
  if s.protocol = "hysteria2" then "tls"
  else if s.protocol ∈ ["wireguard", "socks", "shadowsocks"] then ""
  else s.security

def fingerprint (s : Server) (mask : Option Mask) : String :=
  match mask with
  | some m =>
      if m.fingerprint ≠ "" ∧ s.protocol ≠ "hysteria2" then m.fingerprint
      else Text.ifEmpty s.fp "chrome"
  | none => Text.ifEmpty s.fp "chrome"

/-- The name in the TLS hello; a pinned certificate leaves it free. -/
def serverName (s : Server) (mask : Option Mask) (hostSni : String) : String :=
  let own := if isIpv4Literal s.address ∨ Text.hasChar s.address ':' then "" else s.address
  let sni0 := Text.ifEmpty s.sni (Text.ifEmpty hostSni own)
  match mask with
  | some m =>
      if m.sni ≠ "" ∧ security s = "tls" ∧ s.pcs ≠ "" ∧ s.protocol ≠ "hysteria2" then m.sni else sni0
  | none => sni0

def alpn (s : Server) (mask : Option Mask) : List String :=
  let own := if csv s.alpn = [] ∧ s.protocol = "hysteria2" then ["h3"] else csv s.alpn
  match mask with
  | some m => if m.alpn ≠ "" ∧ s.protocol ≠ "hysteria2" then csv m.alpn else own
  | none => own

/-- The TLS or REALITY part. -/
def secured (s : Server) (mask : Option Mask) (st : JsonObject) (hostSni : String) : JsonObject :=
  let sec := security s
  if sec = "tls" ∨ sec = "reality" then
    let sni := serverName s mask hostSni
    let t := putIf (sni ≠ "") JsonObject.empty "serverName" (.str sni)
    let t := putIf (s.protocol ≠ "hysteria2") t "fingerprint" (.str (fingerprint s mask))
    if sec = "tls" then
      let names := alpn s mask
      let t := putIf (names ≠ []) t "alpn" (Json.strings names)
      let t := putIf (s.pcs ≠ "") t "pinnedPeerCertSha256" (.str s.pcs)
      let t := putIf (s.vcn ≠ "") t "verifyPeerCertByName" (.str s.vcn)
      let t := putIf (s.ech ≠ "") t "echConfigList" (.str s.ech)
      st |>.put "security" (.str "tls") |>.put "tlsSettings" (.obj t)
    else
      let t := t |>.put "publicKey" (.str s.pbk) |>.put "shortId" (.str s.sid)
      let t := putIf (s.spx ≠ "") t "spiderX" (.str s.spx)
      let t := putIf (s.pqv ≠ "") t "mldsa65Verify" (.str s.pqv)
      st |>.put "security" (.str "reality") |>.put "realitySettings" (.obj t)
  else st

/-- The fragment settings of a mask. -/
def fragment (m : Mask) : JsonObject :=
  let f := JsonObject.empty.put "packets" (.str m.packets)
  let f := if m.lengths ≠ "" then
      f |>.put "lengths" (Json.strings (csv m.lengths)) |>.put "delays" (Json.strings (csv m.delays))
    else f |>.put "length" (.str m.length) |>.put "delay" (.str m.delay)
  putIf (m.maxSplit ≠ "" ∧ m.maxSplit ≠ "0") f "maxSplit" (.str m.maxSplit)

/-- The `finalmask` object; `none` when the mask's noise is not JSON. -/
def finalmask (s : Server) (mask : Option Mask) : Option JsonObject := do
  let fm := JsonObject.empty
  let fm := match mask with
    | some m => putIf (m.packets ≠ "" ∧ s.isTcpBased) fm "tcp"
        (.arr [.obj (typed "fragment" (fragment m))])
    | none => fm
  let fm := putIf (s.protocol = "hysteria2" ∧ s.obfsPassword ≠ "") fm "udp" (.arr [.obj
    (typed "salamander" (JsonObject.empty.put "password" (.str s.obfsPassword)))])
  let fm ← match mask.bind (Masks.noiseFor noiseItems) with
    | some noise =>
        if !s.isTcpBased then
          (J.parseArray noise).map fun items =>
            appendUdp fm (typed "noise" (JsonObject.empty.put "noise" (.arr items)))
        else some fm
    | none => some fm
  return match mask with
    | some m =>
        if m.hop ≠ "" ∧ s.protocol = "wireguard" then
          let h := JsonObject.empty.put "interval" (.str "10-20")
          let h := if m.hop = Masks.HOP_WARP then
              h |>.put "mode" (.str "intervalLocal,intervalRemote")
                |>.put "remotePorts" (.str Masks.WARP_PORTS)
            else h.put "mode" (.str "intervalLocal")
          appendUdp fm (typed "udphop" h)
        else fm
    | none => fm

/-- The tag of a local DPI engine: the current strategy is `byedpi`, a fixed one
`dpi-<id>` with every other character an underscore. -/
def dpiTag (dpi : String) : String :=
  if dpi = "" ∨ dpi = Masks.CURRENT_DPI then BYEDPI_TAG
  else "dpi-" ++ .ofList (dpi.toList.map fun c => if c.isAlphanum ∨ c = '_' then c else '_')

/-- The socket options. -/
def sockopt (s : Server) (mask : Option Mask) : JsonObject :=
  let sock := JsonObject.empty.put "tcpKeepAliveInterval" (.int 15)
  match mask with
  | some m =>
      if m.viaByeDpi ∧ s.isTcpBased then sock.put "dialerProxy" (.str (dpiTag m.dpi))
      else
        let sock := putIf (0 < m.mss ∧ s.isTcpBased) sock "tcpMaxSeg" (.int m.mss)
        let sock := putIf (m.tfo ∧ s.isTcpBased) sock "tcpFastOpen" (.bool true)
        if m.ipv6 then
          sock |>.put "domainStrategy" (.str "UseIPv6v4") |>.put "happyEyeballs" (.obj
            (JsonObject.empty |>.put "tryDelayMs" (.int 250) |>.put "prioritizeIPv6" (.bool true)
              |>.put "interleave" (.int 2) |>.put "maxConcurrentTry" (.int 4)))
        else sock
  | none => sock

def stream (s : Server) (mask : Option Mask) : Option JsonObject := do
  let (st, hostSni) := transport J s
  let st := secured s mask st hostSni
  let fm ← finalmask J noiseItems s mask
  let st := putIf (fm ≠ []) st "finalmask" (.obj fm)
  return st.put "sockopt" (.obj (sockopt s mask))

/-! ## `outbound`

The outbound adds the protocol with its settings, and multiplexing where it is compatible with
them. It throws for a protocol that it does not know and for noise that is no JSON. -/

/-- Multiplexing is incompatible with XTLS Vision, XHTTP and UDP transports. -/
def muxable (s : Server) : Bool :=
  s.isTcpBased && s.flow = "" && s.network ≠ "xhttp" && s.protocol ≠ "hysteria2"

/-- `JSONObject().put("address", ...).put("port", ...)`. -/
def endpoint (s : Server) : JsonObject :=
  JsonObject.empty |>.put "address" (.str s.address) |>.put "port" (.int s.port.toInt)

/-- The `vnext` settings of VLESS and VMess. -/
def vnext (s : Server) (user : JsonObject) : JsonObject :=
  JsonObject.empty.put "vnext" (.arr [.obj ((endpoint s).put "users" (.arr [.obj user]))])

/-- The Xray protocol and its settings; `none` is an unsupported protocol. -/
def protocolSettings (s : Server) : Option (String × JsonObject) :=
  if s.protocol = "wireguard" then
    let local' := csv s.localAddress
    let host := if Text.hasChar s.address ':' then "[" ++ s.address ++ "]" else s.address
    let peer := JsonObject.empty |>.put "publicKey" (.str s.pbk)
      |>.put "endpoint" (.str (host ++ ":" ++ toString s.port.toInt)) |>.put "keepAlive" (.int 25)
    let o := JsonObject.empty |>.put "secretKey" (.str s.secret)
      |>.put "address" (Json.strings (if local' = [] then ["172.16.0.2/32"] else local'))
      |>.put "peers" (.arr [.obj (putIf (s.psk ≠ "") peer "preSharedKey" (.str s.psk))])
      |>.put "mtu" (.int (if 0 < s.mtu then s.mtu.toInt else 1280))
      |>.put "noKernelTun" (.bool true)
    let reserved := (csv s.reserved).filterMap (Text.toInt? U)
    some ("wireguard", putIf (reserved.length = 3) o "reserved"
      (.arr (reserved.map fun n => .int n.toInt)))
  else if s.protocol = "socks" then
    let o := endpoint s
    some ("socks", if s.user ≠ "" ∨ s.secret ≠ "" then
      o |>.put "user" (.str s.user) |>.put "pass" (.str s.secret) else o)
  else if s.protocol = "vless" then
    let user := JsonObject.empty |>.put "id" (.str s.secret)
      |>.put "encryption" (.str (Text.ifEmpty s.encryption "none")) |>.put "level" (.int 0)
    some ("vless", vnext s (putIf (s.flow ≠ "") user "flow" (.str s.flow)))
  else if s.protocol = "vmess" then
    some ("vmess", vnext s (JsonObject.empty |>.put "id" (.str s.secret)
      |>.put "security" (.str (Text.ifEmpty s.method "auto")) |>.put "level" (.int 0)))
  else if s.protocol = "trojan" then
    some ("trojan", JsonObject.empty.put "servers" (.arr [.obj (endpoint s
      |>.put "password" (.str s.secret) |>.put "level" (.int 0))]))
  else if s.protocol = "shadowsocks" then
    some ("shadowsocks", JsonObject.empty.put "servers" (.arr [.obj (endpoint s
      |>.put "password" (.str s.secret)
      |>.put "method" (.str (if s.method = "plain" then "none" else s.method))
      |>.put "level" (.int 0))]))
  else if s.protocol = "hysteria2" then
    some ("hysteria", JsonObject.empty |>.put "version" (.int 2) |>.put "address" (.str s.address)
      |>.put "port" (.int s.port.toInt))
  else none

def muxSettings : JsonObject :=
  JsonObject.empty |>.put "enabled" (.bool true) |>.put "concurrency" (.int 8)
    |>.put "xudpConcurrency" (.int 16) |>.put "xudpProxyUDP443" (.str "reject")

/-- The outbound of a server under a mask; `none` is an exception. -/
def outbound (s : Server) (tag : String) (mask : Option Mask) (mux : Bool) : Option JsonObject :=
  if s.protocol = "xray" then (J.parseObject s.extra).map fun o => o.put "tag" (.str tag)
  else do
    let (protocol, settings) ← protocolSettings U s
    let st ← stream J noiseItems s mask
    let o := JsonObject.empty |>.put "tag" (.str tag) |>.put "protocol" (.str protocol)
      |>.put "settings" (.obj settings) |>.put "streamSettings" (.obj st)
    return putIf ((mux ∨ (mask.map (·.mux)).getD false) ∧ muxable s) o "mux" (.obj muxSettings)

end

/-! ## Local DPI engines

Masks name an engine, and an engine has an outbound if it is running. A mask whose engine is not
there falls back to one that is. -/

def byeDpiOutbound (port : Int32) (tag : String) : JsonObject :=
  JsonObject.empty |>.put "tag" (.str tag) |>.put "protocol" (.str "socks")
    |>.put "settings" (.obj (JsonObject.empty.put "servers" (.arr [.obj
      (JsonObject.empty |>.put "address" (.str "127.0.0.1") |>.put "port" (.int port.toInt))])))

/-- A mask whose engine is not running falls back to the current one, or to none. -/
def resolveMask (m : Option Mask) (cur : Option Int32) (ports : OrderedMap String Int32) :
    Option Mask :=
  m.map fun m =>
    if !m.viaByeDpi then m
    else if m.dpi = Masks.CURRENT_DPI then (if cur.isSome then m else { m with dpi := "" })
    else if ports.contains m.dpi then m
    else if cur.isSome then { m with dpi := Masks.CURRENT_DPI }
    else { m with dpi := "" }

def dpiOutbounds (cur : Option Int32) (ports : OrderedMap String Int32) : List JsonObject :=
  (cur.map fun p => byeDpiOutbound p BYEDPI_TAG).toList ++
    ports.entries.map fun e => byeDpiOutbound e.2 (dpiTag e.1)

end XrayConfigBuilder

end VlessCard
