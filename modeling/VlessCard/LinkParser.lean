/-
`LinkParser.kt`: share links read into servers, and servers written as links.

A link is cut at fixed signs, so the reader is a sequence of cuts: the name after
the first `#`, the query after the first `?` before it, the credentials before
the last `@` of what is left, the port after the last `:` or the bracket. Reading
a port and reading the JSON of a `vmess` link are the two things that throw;
`parse` catches that and refuses a server without a usable endpoint.
-/
import VlessCard.Base64
import VlessCard.Server
import VlessCard.UrlCodec

set_option autoImplicit false

namespace VlessCard.Text

variable (J : Jvm)

/-- The characters of `p` begin the text, up to case. -/
def startsIgnoreCase : (p l : List Char) → Bool
  | [], _ => true
  | _ :: _, [] => false
  | a :: p, b :: l => J.sameLetter b a && startsIgnoreCase p l

/-- `s.startsWith(p, ignoreCase = true)`. -/
def startsWithIgnoreCase (s p : String) : Bool := startsIgnoreCase J p.toList s.toList

end VlessCard.Text

namespace VlessCard.LinkParser

/-! ## Reading

Each protocol has its reader, chosen by the scheme of the link. Whatever a reader throws is
caught by `parse`, which also refuses a server without a usable endpoint. -/

section
variable (J : Jvm)

def query (q : String) : OrderedMap String String :=
  .ofList (((Text.split q '&').filter fun e => Text.hasChar e '=').map fun e =>
    (J.lowercase (Text.substringBefore e '='), dec J (Text.substringAfter e '=')))

structure Parts where
  user : String
  host : String
  port : Int32
  q : OrderedMap String String
  name : String

/-- `hostPort`; `none` where `substring` or `toInt` throws. -/
def hostPort (hp : String) : Option (String × Int32) :=
  let clean := Text.substringBefore hp '/'
  if Text.startsWith clean "[" then
    -- without a bracket to close it, `substring(1, -1)` throws
    if Text.hasChar clean ']' then
      (Text.toInt? J (Text.substringAfterStr clean "]:")).map fun port =>
        (.ofList ((Chars.before ']' clean.toList).drop 1), port)
    else none
  else (Text.toInt? J (Text.substringAfterLast clean ':')).map fun port =>
    (Text.substringBeforeLast clean ':', port)

def split (link : String) : Option Parts :=
  let noScheme := Text.substringAfterStr link "://"
  let name := if Text.hasChar noScheme '#' then Text.trim (dec J (Text.substringAfter noScheme '#'))
    else ""
  let main := Text.substringBefore noScheme '#'
  let beforeQuery := Text.trimEnd (Text.substringBefore main '?') '/'
  let q := if Text.hasChar main '?' then query J (Text.substringAfter main '?') else .empty
  let user := if Text.hasChar beforeQuery '@' then dec J (Text.substringBeforeLast beforeQuery '@')
    else ""
  (hostPort J (Text.substringAfterLast beforeQuery '@')).map fun hp =>
    { user, host := hp.1, port := hp.2, q, name }

/-- `q[k].orEmpty()`. -/
def orEmpty (q : OrderedMap String String) (k : String) : String := (q.get? k).getD ""

/-- The network a `type` parameter stands for. -/
def networkOf (t : String) : String :=
  if t = "" ∨ t = "raw" then "tcp"
  else if t = "http" then "h2"
  else if t = "splithttp" then "xhttp"
  else t

/-- The security a `security` parameter stands for. -/
def securityOf (protocol t : String) : String :=
  Text.ifEmpty (if t = "none" then "" else t) (if protocol = "trojan" then "tls" else "")

/-- The server `standard` makes of the parts of a link. -/
def standardServer (p : Parts) (protocol source : String) : Server :=
  let q := p.q
  { name := Text.ifEmpty p.name (p.host ++ ":" ++ toString p.port.toInt)
    protocol, address := p.host, port := p.port
    secret := p.user, flow := orEmpty q "flow"
    encryption := Text.ifEmpty (orEmpty q "encryption") "none"
    network := if protocol = "hysteria2" then "hysteria"
      else networkOf (J.lowercase (orEmpty q "type"))
    security := if protocol = "hysteria2" then "tls"
      else securityOf protocol (J.lowercase (orEmpty q "security"))
    sni := ((q.get? "sni").or (q.get? "peer")).getD "", fp := orEmpty q "fp"
    alpn := orEmpty q "alpn", pbk := orEmpty q "pbk", sid := orEmpty q "sid"
    spx := orEmpty q "spx", pqv := orEmpty q "pqv", host := orEmpty q "host"
    path := orEmpty q "path", serviceName := orEmpty q "servicename", mode := orEmpty q "mode"
    headerType := orEmpty q "headertype"
    insecure := q.get? "allowinsecure" = some "1" || q.get? "insecure" = some "1"
      || q.get? "allowinsecure" = some "true"
    ech := orEmpty q "ech", pcs := ((q.get? "pcs").or (q.get? "pinsha256")).getD ""
    vcn := orEmpty q "vcn"
    obfsPassword := if q.get? "obfs" = some "salamander" then orEmpty q "obfs-password" else ""
    extra := orEmpty q "extra", source }

def standard (link protocol source : String) : Option Server :=
  (split J link).map fun p => standardServer J p protocol source

/-- The network the `net` key of a `vmess` object stands for. -/
def vmessNetwork (t : String) : String :=
  if t = "http" then "h2" else if t = "splithttp" then "xhttp" else Text.ifEmpty t "tcp"

/-- The server `vmess` makes of the object of a link and its port. -/
def vmessServer (O : OrgJson) (o : JsonObject) (port : Int32) (source : String) : Server :=
  let net := vmessNetwork (J.lowercase (o.optString O "net" "tcp"))
  let tls := J.lowercase (o.optString O "tls" "")
  let type := o.optString O "type" ""
  { name := Text.ifEmpty (o.optString O "ps" "") (o.optString O "add" "")
    protocol := "vmess", address := o.optString O "add" "", port
    secret := o.optString O "id" "", method := Text.ifEmpty (o.optString O "scy" "auto") "auto"
    network := net, security := if tls = "none" then "" else tls
    sni := o.optString O "sni" "", fp := o.optString O "fp" "", alpn := o.optString O "alpn" ""
    host := o.optString O "host" ""
    path := if net = "grpc" then "" else o.optString O "path" ""
    serviceName := if net = "grpc" then o.optString O "path" "" else ""
    headerType := if type = "none" then "" else type
    mode := if net = "xhttp" then type else "", source }

def vmess (O : OrgJson) (link source : String) : Option Server :=
  (Base64.decodeToString (Text.substringBefore (Text.substringAfterStr link "://") '#')).bind
    fun json => (O.parseObject json).bind fun o =>
      (Text.toInt? J (JsonObject.optString O o "port" "")).map fun port =>
        vmessServer J O o port source

def SS_METHODS : List String :=
  ["aes-128-gcm", "aes-256-gcm", "chacha20-poly1305", "chacha20-ietf-poly1305",
    "xchacha20-poly1305", "xchacha20-ietf-poly1305", "2022-blake3-aes-128-gcm",
    "2022-blake3-aes-256-gcm", "2022-blake3-chacha20-poly1305", "none", "plain"]

/-- The credentials and the endpoint of a `ss` link: in the link itself, or the
whole link in Base64. -/
def ssParts (core : String) : Option (String × String) :=
  if Text.hasChar core '@' then
    let u := dec J (Text.substringBeforeLast core '@')
    some ((Base64.decodeToString u).getD u, Text.substringAfterLast core '@')
  else (Base64.decodeToString core).map fun full =>
    (Text.substringBeforeLast full '@', Text.substringAfterLast full '@')

/-- The server `shadowsocks` makes of a name, credentials and an endpoint, when it
knows the method. -/
def ssServer (name cred : String) (hp : String × Int32) (source : String) : Option Server :=
  let method := J.lowercase (Text.substringBefore cred ':')
  if method ∉ SS_METHODS then none
  else some { name := Text.ifEmpty name (hp.1 ++ ":" ++ toString hp.2.toInt)
              protocol := "shadowsocks", address := hp.1, port := hp.2
              secret := Text.substringAfter cred ':', method, source }

def shadowsocks (link source : String) : Option Server :=
  let body := Text.substringAfterStr link "://"
  let name := if Text.hasChar body '#' then Text.trim (dec J (Text.substringAfter body '#')) else ""
  let main := Text.substringBefore body '#'
  let q := if Text.hasChar main '?' then query J (Text.substringAfter main '?') else .empty
  -- plugins are not supported by Xray
  if orEmpty q "plugin" ≠ "" then none
  else (ssParts J (Text.trimEnd (Text.substringBefore main '?') '/')).bind fun parts =>
    (hostPort J parts.2).bind fun hp => ssServer J name parts.1 hp source

/-- The server `wireguard` makes of the parts of a link and its public key. -/
def wireguardServer (p : Parts) (pub source : String) : Server :=
  let q := p.q
  { name := Text.ifEmpty p.name ("WG " ++ p.host), protocol := "wireguard"
    address := p.host, port := p.port, secret := p.user, pbk := pub
    localAddress := Text.replace (((q.get? "address").or (q.get? "ip")).getD "172.16.0.2/32") " " ""
    reserved := Text.replace (orEmpty q "reserved") " " ""
    mtu := ((q.get? "mtu").bind (Text.toInt? J)).getD 0
    psk := ((q.get? "presharedkey").or (q.get? "psk")).getD "", network := "udp", source }

def wireguard (link source : String) : Option Server :=
  (split J link).bind fun p =>
    (((p.q.get? "publickey").or (p.q.get? "peer_public_key")).or (p.q.get? "public_key")).map
      fun pub => wireguardServer J p pub source

/-- The credentials of a `socks` link: plain with a colon, else in Base64, else
plain. -/
def socksCred (user : String) : String :=
  if user = "" then ""
  else if Text.hasChar user ':' then user
  else (Base64.decodeToString user).getD user

/-- The server `socks` makes of the parts of a link. -/
def socksServer (p : Parts) (source : String) : Server :=
  let cred := socksCred p.user
  { name := Text.ifEmpty p.name ("SOCKS " ++ p.host), protocol := "socks", address := p.host
    port := p.port, user := if Text.hasChar cred ':' then Text.substringBefore cred ':' else ""
    secret := if Text.hasChar cred ':' then Text.substringAfter cred ':' else "", source }

def socks (link source : String) : Option Server :=
  (split J link).map fun p => socksServer p source

/-- What `parse` asks of the endpoint. -/
def usable (s : Server) : Bool :=
  decide (1 ≤ s.port ∧ s.port ≤ 65535) && !Text.isBlank s.address
    && decide (Text.length s.address ≤ 253)

def parse (O : OrgJson) (link source : String) : Option Server :=
  let l := Text.trim link
  let starts := Text.startsWithIgnoreCase J l
  let s :=
    if starts "vless://" then standard J l "vless" source
    else if starts "trojan://" then standard J l "trojan" source
    else if starts "hysteria2://" || starts "hy2://" then standard J l "hysteria2" source
    else if starts "tuic://" then standard J l "tuic" source
    else if starts "anytls://" then standard J l "anytls" source
    else if starts "vmess://" then vmess J O l source
    else if starts "ss://" then shadowsocks J l source
    else if starts "wireguard://" || starts "wg://" then wireguard J l source
    else if starts "socks://" || starts "socks5://" then socks J l source
    else none
  s.filter usable

end

/-! ## Writing

A link is written from the fields of a server, with the protocol deciding the form. Parameters
that are empty or have their default are left out. -/

/-- A list of parameters as the text of a query. -/
def renderQuery (q : List (String × String)) : String :=
  Text.join "&" (q.map fun e => e.1 ++ "=" ++ enc e.2)

/-- The endpoint with an address that holds a colon in brackets. -/
def bracketed (s : Server) : String :=
  (if Text.hasChar s.address ':' then "[" ++ s.address ++ "]" else s.address)
    ++ ":" ++ toString s.port.toInt

/-- The endpoint as the address and the port stand. -/
def bare (s : Server) : String := s.address ++ ":" ++ toString s.port.toInt

def wireguardParams (s : Server) : List (String × String) :=
  [("publickey", s.pbk), ("address", s.localAddress), ("reserved", s.reserved),
    ("mtu", if 0 < s.mtu then toString s.mtu.toInt else ""), ("presharedkey", s.psk)].filter
    fun e => e.2 ≠ ""

def vmessJson (s : Server) : JsonObject :=
  JsonObject.empty |>.put "v" (.str "2") |>.put "ps" (.str s.name) |>.put "add" (.str s.address)
    |>.put "port" (.str (toString s.port.toInt)) |>.put "id" (.str s.secret)
    |>.put "scy" (.str (Text.ifEmpty s.method "auto")) |>.put "net" (.str s.network)
    |>.put "type" (.str (Text.ifEmpty s.headerType "none")) |>.put "host" (.str s.host)
    |>.put "path" (.str (if s.network = "grpc" then s.serviceName else s.path))
    |>.put "tls" (.str s.security) |>.put "sni" (.str s.sni) |>.put "fp" (.str s.fp)
    |>.put "alpn" (.str s.alpn)

/-- The assignments to the linked map of `toLink`, in their order. -/
def standardParams (s : Server) : List (String × String) :=
  (if s.protocol = "vless" then [("encryption", s.encryption)] else [])
    ++ (if s.protocol ≠ "hysteria2" then
        [("type", s.network), ("security", Text.ifEmpty s.security "none")] else [])
    ++ [("flow", s.flow), ("sni", s.sni), ("fp", s.fp), ("alpn", s.alpn), ("pbk", s.pbk),
        ("sid", s.sid), ("spx", s.spx), ("pqv", s.pqv), ("host", s.host), ("path", s.path),
        ("serviceName", s.serviceName), ("mode", s.mode), ("headerType", s.headerType),
        ("ech", s.ech), ("pcs", s.pcs), ("vcn", s.vcn), ("extra", s.extra)].filter
        (fun e => e.2 ≠ "")
    ++ (if s.obfsPassword ≠ "" then
        [("obfs", "salamander"), ("obfs-password", s.obfsPassword)] else [])
    ++ (if s.insecure then [("insecure", "1")] else [])

/-- Share link back. -/
def toLink (O : OrgJson) (s : Server) : String :=
  let name := enc s.name
  if s.protocol = "xray" then s.extra
  else if s.protocol = "wireguard" then
    "wireguard://" ++ enc s.secret ++ "@" ++ bracketed s ++ "?" ++ renderQuery (wireguardParams s)
      ++ "#" ++ name
  else if s.protocol = "socks" then
    "socks://" ++ (if s.user ≠ "" ∨ s.secret ≠ "" then Base64.encode (s.user ++ ":" ++ s.secret) ++ "@"
      else "") ++ bare s ++ "#" ++ name
  else if s.protocol = "shadowsocks" then
    "ss://" ++ Base64.encode (s.method ++ ":" ++ s.secret) ++ "@" ++ bare s ++ "#" ++ name
  else if s.protocol = "vmess" then
    "vmess://" ++ Base64.encode (O.text (.obj (vmessJson s)))
  else
    s.protocol ++ "://" ++ enc s.secret ++ "@" ++ bracketed s ++ "?"
      ++ renderQuery (OrderedMap.ofList (standardParams s)).entries ++ "#" ++ name

end VlessCard.LinkParser
