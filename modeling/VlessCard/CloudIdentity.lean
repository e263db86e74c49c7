/-
`cloud_servers.endpoint` and `cloud_real.outbound`: what makes two links one server, and what
Xray is told of a link.

Both take a link apart, each by steps of its own. The identity is the fields of the link behind
one another with bars between them, and the query as JSON at the end. The query can be read off
it, since only one object begins behind a bar and ends with the text; the fields before it cannot
where one of them has a bar of its own. So the links of one identity never differ in transport
and encryption, and differ where their hosts or credentials do.

`urllib.parse`, `base64` and `json` of Python are parameters: nothing is asked of them for what
is said of the links of one identity.
-/
import VlessCard.Base64
import VlessCard.JsonDumps
import VlessCard.OrderedMap
import VlessCard.Text

set_option autoImplicit false

namespace VlessCard

open JsonDumps (Value dumps)

/-- What `urlsplit` returns; `port` is `none` where reading the attribute raises. -/
structure SplitResult where
  hostname : Option String
  port : Option (Option ℕ)
  username : Option String
  password : Option String
  query : String

/-- What the scripts use of Python's library. A dictionary is its members in the order of their
keys, and `none` is an exception. -/
structure PyLib where
  urlsplit : String → Option SplitResult
  parse_qs : String → List (String × List String)
  unquote : String → String
  /-- `base64.b64decode(s).decode("utf-8", "ignore")`. -/
  b64decode : String → Option String
  loads : String → Option Value
  /-- `int(v)`. -/
  int : Value → Option ℤ
  lower : String → String
  strip : String → String

namespace JsonDumps.Value

/-- `bool(v)`. -/
def truthy : Value → Bool
  | .null => false
  | .bool b => b
  | .int n => n ≠ 0
  | .float t => t.text ≠ "0.0".toList && t.text ≠ "-0.0".toList
  | .str s => s ≠ ""
  | .arr xs => !xs.isEmpty
  | .obj o => !o.isEmpty

/-- `a or b`. -/
def orElse (a b : Value) : Value := if a.truthy then a else b

/-- `v == s`. -/
def isStr (v : Value) (s : String) : Bool :=
  match v with
  | .str t => t = s
  | _ => false

/-- `o.get(k, d)`. -/
def get (o : List (String × Value)) (k : String) (d : Value) : Value := (Assoc.get? o k).getD d

end JsonDumps.Value

open JsonDumps.Value (orElse isStr get)

/-- `s.strip("[]")`. -/
def stripBrackets (s : String) : String :=
  let bracket : Char → Bool := fun c => c = '[' || c = ']'
  .ofList ((s.toList.dropWhile bracket).rdropWhile bracket)

/-- `link.split("://", 1)`. -/
def cutScheme (link : String) : Option (String × String) :=
  (Chars.afterSub? "://".toList link.toList).map fun rest =>
    (Text.substringBeforeStr link "://", .ofList rest)

/-- `json.loads(b64(link[8:].split("#")[0]))` of a vmess link. -/
def vmessText (link : String) : String := Text.substringBefore (.ofList (link.toList.drop 8)) '#'

namespace CloudServers

/-! ## The identity

Two links are one server for the script when this text is the same. It leaves out the name and
puts the fields behind each other with bars between, without escaping a bar inside a field. -/

/-- `endpoint` returns the host, the port, the identity and what the TLS handshake is sent to. -/
structure Endpoint where
  host : String
  port : ℤ
  ident : String
  tls : Value

section
variable (L : PyLib)

def b64 (s : String) : Option String :=
  let s := Text.replaceChar (Text.replaceChar (L.strip s) '-' '+') '_' '/'
  L.b64decode (s ++ .ofList (List.replicate ((4 - s.toList.length % 4) % 4) '='))

/-- The members of a vmess link but its names. -/
def nameless (o : List (String × Value)) : List (String × Value) :=
  o.filter fun e => decide (e.1 ∉ ["ps", "remark"])

def vmessEndpoint (link : String) : Option Endpoint := do
  let .obj o ← L.loads (← b64 L (vmessText link)) | none
  let .str add ← Assoc.get? o "add" | none
  let port ← L.int (← Assoc.get? o "port")
  return {
    host := stripBrackets add
    port := port
    ident := .ofList ("vmess|".toList ++ dumps (.obj (nameless o)))
    tls := if isStr (get o "tls" .null) "tls" then
        orElse (orElse (get o "sni" .null) (get o "host" .null)) (.str add)
      else .null }

/-- `re.match(r"^[0-9.:]+$", hostname)`; `$` also stands before a line feed at the end. -/
def isAddress (hostname : String) : Bool :=
  let chars := if hostname.toList.getLast? = some '\n' then hostname.toList.dropLast else hostname.toList
  !chars.isEmpty && chars.all fun c => decide (c ∈ "0123456789.:".toList)

/-- `q.get(k, [""])[0]`. -/
def first (q : List (String × List String)) (k : String) : Option String := ((Assoc.get? q k).getD [""]).head?

/-- `q.get("sni", [""])[0] or q.get("host", [""])[0]`. -/
def nameOf (q : List (String × List String)) : Option String := do
  let sni ← first q "sni"
  if sni ≠ "" then some sni else first q "host"

/-- The query as a value. -/
def queryMembers (q : List (String × List String)) : List (String × Value) :=
  q.map fun e => (e.1, .arr (e.2.map .str))

/-- The body of a link as `endpoint` takes it. -/
def bodyOf (link body : String) : Option String :=
  if Text.startsWith link "ss://" && !Text.hasChar body '@' then b64 L (Text.substringBefore body '?') else some body

/-- The scheme of a link, and what is behind it split. -/
def splitOf (link : String) : Option (String × SplitResult) := do
  let (scheme, rest) ← cutScheme link
  let body ← bodyOf L link (Text.substringBefore rest '#')
  let u ← L.urlsplit ("x://" ++ body)
  return (scheme, u)

/-- `ident`. -/
def identOf (scheme host : String) (port : ℕ) (u : SplitResult) : String :=
  Text.join "|" [scheme, L.lower host, toString port, u.username.getD "", u.password.getD "",
    .ofList (dumps (.obj (queryMembers (L.parse_qs u.query))))]

def linkEndpoint (link : String) : Option Endpoint := do
  let (scheme, u) ← splitOf L link
  let host ← u.hostname
  let port ← (← u.port)
  if host = "" ∨ port = 0 then none
  else
    let q := L.parse_qs u.query
    let sec ← first q "security"
    let name ← nameOf q
    let sni := if name ≠ "" then name else if isAddress host then "" else host
    return {
      host := host
      port := port
      ident := identOf L scheme host port u
      tls := if (decide (sec ∈ ["tls", "reality"]) || Text.startsWith link "trojan://") && sni ≠ "" then .str sni
        else .null }

def endpoint (link : String) : Option Endpoint :=
  if Text.startsWith link "vmess://" then vmessEndpoint L link else linkEndpoint L link

end

end CloudServers

namespace CloudReal

/-! ## The outbound

The outbound is made from the link a second time, by other functions of another file. They split
the user, the host and the query as the identity does, but do not agree with it on every text. -/

/-- The tuple `outbound` returns. -/
structure Outbound where
  protocol : String
  settings : Value
  net : Value
  sec : String
  q : List (String × List Value)
  hostHeader : Value
  path : Value
  sni : Value
  fp : Value
  alpn : Value
  host : Value
  port : Value

section
variable (L : PyLib)

/-- The same as in `cloud_servers`. -/
def b64 (s : String) : Option String := CloudServers.b64 L s

def q1 (q : List (String × List String)) (k d : String) : String :=
  match Assoc.get? q k with
  | some (x :: _) => x
  | _ => d

def hostValue (host : Option String) : Value := (host.map Value.str).getD .null

def portValue (port : Option ℕ) : Value := (port.map fun n : ℕ => Value.int n).getD .null

/-- What is told of a vmess link with these members. -/
def vmessOf (o : List (String × Value)) : Option Outbound := do
  let .str add ← Assoc.get? o "add" | none
  let port ← L.int (← Assoc.get? o "port")
  let id ← Assoc.get? o "id"
  let host := stripBrackets add
  return {
    protocol := "vmess"
    settings := .obj [("vnext", .arr [.obj [("address", .str host), ("port", .int port),
      ("users", .arr [.obj [("id", id), ("security", orElse (get o "scy" .null) (.str "auto"))]])]])]
    net := get o "net" (.str "tcp")
    sec := if isStr (get o "tls" .null) "tls" then "tls" else ""
    q := [("headerType", [get o "type" (.str "")]), ("serviceName", [get o "path" (.str "")])]
    hostHeader := get o "host" (.str "")
    path := get o "path" (.str "")
    sni := orElse (orElse (get o "sni" .null) (get o "host" .null)) (.str host)
    fp := get o "fp" (.str "")
    alpn := get o "alpn" (.str "")
    host := .str host
    port := .int port }

def vmessOutbound (link : String) : Option Outbound := do
  let .obj o ← L.loads (← b64 L (vmessText link)) | none
  vmessOf L o

/-- The method and the password of an ss link. -/
def credentials (u : SplitResult) : Option (String × String) := do
  let user := L.unquote (u.username.getD "")
  let user ← if Text.hasChar user ':' then some user else b64 L user
  let password := u.password.getD ""
  if password ≠ "" then
    match Text.split (user ++ ":" ++ L.unquote password) ':' with
    | method :: pw :: _ => some (method, pw)
    | _ => none
  else if Text.hasChar user ':' then some (Text.substringBefore user ':', Text.substringAfter user ':')
  else none

/-- The body of an ss link as `outbound` takes it. -/
def ssBody (body : String) : Option String :=
  if Text.hasChar (Text.substringBefore body '?') '@' then some body else b64 L (Text.substringBefore body '?')

def ssFields (host : Option String) (port : Option ℕ) (method pw : String) : Outbound :=
  { protocol := "shadowsocks"
    settings := .obj [("servers", .arr [.obj [("address", hostValue host), ("port", portValue port),
      ("method", .str method), ("password", .str pw)]])]
    net := .str "tcp"
    sec := ""
    q := []
    hostHeader := .str ""
    path := .str ""
    sni := .str ""
    fp := .str ""
    alpn := .str ""
    host := hostValue host
    port := portValue port }

def ssOutbound (body : String) : Option Outbound := do
  let u ← L.urlsplit ("x://" ++ (← ssBody L body))
  let (method, pw) ← credentials L u
  let port ← u.port
  return ssFields u.hostname port method pw

/-- The settings of a vless or a trojan link. -/
def settingsOf (scheme : String) (q : List (String × List String)) (host port : Value) (user : String) :
    Option Value :=
  if scheme = "vless" then
    if q1 q "encryption" "none" ∉ ["none", ""] then none
    else
      let flow := if q1 q "flow" "" ≠ "" then [("flow", Value.str (q1 q "flow" ""))] else []
      some (.obj [("vnext", .arr [.obj [("address", host), ("port", port),
        ("users", .arr [.obj ([("id", .str user), ("encryption", .str "none")] ++ flow)])]])])
  else if scheme = "trojan" then
    some (.obj [("servers", .arr [.obj [("address", host), ("port", port), ("password", .str user)]])])
  else none

def linkFields (scheme : String) (q : List (String × List String)) (host : Option String) (port : Option ℕ)
    (user : String) : Option Outbound :=
  (settingsOf scheme q (hostValue host) (portValue port) user).map fun settings => {
    protocol := scheme
    settings := settings
    net := .str (q1 q "type" "tcp")
    sec := q1 q "security" (if scheme = "trojan" then "tls" else "")
    q := q.map fun e => (e.1, e.2.map .str)
    hostHeader := .str (q1 q "host" "")
    path := .str (L.unquote (q1 q "path" ""))
    sni := orElse (orElse (.str (q1 q "sni" "")) (.str (q1 q "host" ""))) (hostValue host)
    fp := .str (q1 q "fp" "")
    alpn := .str (q1 q "alpn" "")
    host := hostValue host
    port := portValue port }

def linkOutbound (scheme body : String) : Option Outbound := do
  let u ← L.urlsplit ("x://" ++ body)
  let port ← u.port
  linkFields L scheme (L.parse_qs u.query) u.hostname port (L.unquote (u.username.getD ""))

def outbound (link : String) : Option Outbound :=
  if Text.startsWith link "vmess://" then vmessOutbound L link
  else do
    let (scheme, rest) ← cutScheme link
    let body := Text.substringBefore rest '#'
    if scheme = "ss" then ssOutbound L body else linkOutbound L scheme body

/-! ## What the identity leaves out

What Xray is told of a link is its transport and its access: the server and the credentials.
Links of one identity have one query, and so one transport; what can differ is the access. -/

/-- What a link says of the server and the credentials, as Xray is told it. -/
inductive Access where
  | vmess
  | link (scheme : String) (host : Option String) (port : Option ℕ) (user : String)
  | shadowsocks (host : Option String) (port : Option ℕ) (method password : String)
deriving DecidableEq

/-- Whether Xray is told of links with this scheme and query. -/
def supported (scheme : String) (q : List (String × List String)) : Bool :=
  scheme = "trojan" || scheme = "vless" && decide (q1 q "encryption" "none" ∈ ["none", ""])

/-- `none` is a link that Xray cannot be told of. -/
def access (link : String) : Option Access :=
  if Text.startsWith link "vmess://" then some .vmess
  else do
    let (scheme, rest) ← cutScheme link
    let body := Text.substringBefore rest '#'
    if scheme = "ss" then
      let u ← L.urlsplit ("x://" ++ (← ssBody L body))
      let (method, pw) ← credentials L u
      let port ← u.port
      return .shadowsocks u.hostname port method pw
    else
      let u ← L.urlsplit ("x://" ++ body)
      let port ← u.port
      if supported scheme (L.parse_qs u.query) then
        return .link scheme u.hostname port (L.unquote (u.username.getD ""))
      else none

/-- What a link with this query is told as. -/
def told (q : List (String × List String)) : Access → Option Outbound
  | .vmess => none
  | .link scheme host port user => linkFields L scheme q host port user
  | .shadowsocks host port method pw => some (ssFields host port method pw)

end

end CloudReal

/-! ## Reading an identity

The query stands behind the last bar and is printed as JSON, which has no bar before its first
bracket. So it can be read off the identity, while the fields in front of it cannot be told apart
if they have bars themselves. -/

section
variable {L : PyLib}

open CloudServers CloudReal

/-- The text before the query of an identity. -/
def front (L : PyLib) (scheme host : String) (port : ℕ) (u : SplitResult) : List Char :=
  scheme.toList ++ '|' :: ((L.lower host).toList ++ '|' :: ((toString port).toList ++ '|' ::
    ((u.username.getD "").toList ++ '|' :: (u.password.getD "").toList)))

/-- The identity is its fields with bars between, and the query behind the last. -/
theorem toList_identOf (scheme host : String) (port : ℕ) (u : SplitResult) :
    (identOf L scheme host port u).toList =
      front L scheme host port u ++ '|' :: dumps (.obj (queryMembers (L.parse_qs u.query))) := by
  have hbar : "|".toList = ['|'] := rfl
  unfold identOf front
  simp only [Text.join, String.toList_append, String.toList_ofList, hbar, List.append_assoc, List.cons_append,
    List.nil_append]

theorem queryMembers_inj {q q' : List (String × List String)} (h : queryMembers q = queryMembers q') : q = q' := by
  have hstr : Function.Injective (List.map Value.str) := List.map_injective_iff.mpr fun a b hab => Value.str.inj hab
  refine List.map_injective_iff.mpr ?_ h
  intro a b hab
  obtain ⟨hkey, hvalues⟩ := Prod.mk.inj hab
  exact Prod.ext hkey (hstr (Value.arr.inj hvalues))

/-- What an identity is made of. -/
theorem exists_splitOf {link : String} {e : Endpoint} (h : linkEndpoint L link = some e) :
    ∃ scheme u host port, splitOf L link = some (scheme, u) ∧ u.hostname = some host ∧
      u.port = some (some port) ∧ e.ident = identOf L scheme host port u := by
  unfold linkEndpoint at h
  obtain ⟨⟨scheme, u⟩, hsplit, h⟩ := Option.bind_eq_some_iff.mp h
  obtain ⟨host, hhost, h⟩ := Option.bind_eq_some_iff.mp h
  obtain ⟨port?, hport?, h⟩ := Option.bind_eq_some_iff.mp h
  obtain ⟨port, hport, h⟩ := Option.bind_eq_some_iff.mp h
  split at h
  · cases h
  · obtain ⟨sec, -, h⟩ := Option.bind_eq_some_iff.mp h
    obtain ⟨name, -, h⟩ := Option.bind_eq_some_iff.mp h
    obtain rfl := Option.some.inj h
    exact ⟨scheme, u, host, port, hsplit, hhost, hport?.trans (congrArg some hport), rfl⟩

/-- The identity of a VMess link is its object without the name. -/
theorem exists_members {link : String} {e : Endpoint} (h : vmessEndpoint L link = some e) :
    ∃ text o, CloudServers.b64 L (vmessText link) = some text ∧ L.loads text = some (.obj o) ∧
      e.ident.toList = "vmess".toList ++ '|' :: dumps (.obj (nameless o)) := by
  unfold vmessEndpoint at h
  obtain ⟨text, htext, h⟩ := Option.bind_eq_some_iff.mp h
  obtain ⟨v, hv, h⟩ := Option.bind_eq_some_iff.mp h
  cases v with
  | obj o =>
    obtain ⟨add, -, h⟩ := Option.bind_eq_some_iff.mp h
    cases add with
    | str add =>
      obtain ⟨p, -, h⟩ := Option.bind_eq_some_iff.mp h
      obtain ⟨port, -, h⟩ := Option.bind_eq_some_iff.mp h
      obtain rfl := Option.some.inj h
      exact ⟨text, o, htext, hv, String.toList_ofList⟩
    | _ => cases h
  | _ => cases h

/-- The query of a link, as `endpoint` takes it. -/
def queryOf (L : PyLib) (link : String) : List (String × List String) :=
  ((splitOf L link).map fun p => L.parse_qs p.2.query).getD []

/-- **Links of one identity have one query.** -/
theorem queryOf_eq {l₁ l₂ : String} {e₁ e₂ : Endpoint} (h₁ : linkEndpoint L l₁ = some e₁)
    (h₂ : linkEndpoint L l₂ = some e₂) (h : e₁.ident = e₂.ident) : queryOf L l₁ = queryOf L l₂ := by
  obtain ⟨scheme, u, host, port, hsplit, -, -, hident⟩ := exists_splitOf h₁
  obtain ⟨scheme', u', host', port', hsplit', -, -, hident'⟩ := exists_splitOf h₂
  have htext := congrArg String.toList h
  rw [hident, hident', toList_identOf, toList_identOf] at htext
  have hquery := queryMembers_inj (JsonDumps.cut_unique htext).2
  unfold queryOf
  rw [hsplit, hsplit']
  exact hquery

/-- A vmess link and another have different identities: only one has a bar before its JSON. -/
theorem vmess_ident_ne {l₁ l₂ : String} {e₁ e₂ : Endpoint} (h₁ : vmessEndpoint L l₁ = some e₁)
    (h₂ : linkEndpoint L l₂ = some e₂) : e₁.ident ≠ e₂.ident := by
  intro h
  obtain ⟨-, o, -, -, hident⟩ := exists_members h₁
  obtain ⟨scheme, u, host, port, -, -, -, hident'⟩ := exists_splitOf h₂
  have htext := congrArg String.toList h
  rw [hident, hident', toList_identOf] at htext
  have hfront := (JsonDumps.cut_unique htext).1
  have hbar : '|' ∈ front L scheme host port u := by
    unfold front
    simp
  rw [← hfront] at hbar
  exact absurd hbar (by decide)

/-- Leaving out the name leaves every other field. -/
theorem get?_nameless (o : List (String × Value)) {k : String} (hk : k ∉ ["ps", "remark"]) :
    Assoc.get? (nameless o) k = Assoc.get? o k := by
  unfold nameless
  rw [Assoc.get?_filter_key fun k => decide (k ∉ ["ps", "remark"])]
  exact if_pos (decide_eq_true hk)

/-- The names of a vmess link are not told. -/
theorem vmessOf_nameless (o : List (String × Value)) : vmessOf L (nameless o) = vmessOf L o := by
  have hget : ∀ {k : String}, k ∉ ["ps", "remark"] → ∀ d, get (nameless o) k d = get o k d := by
    intro k hk d
    unfold JsonDumps.Value.get
    rw [get?_nameless o hk]
  unfold vmessOf
  simp (disch := decide) only [get?_nameless, hget]

/-- **Two vmess links of one identity are told alike.** -/
theorem vmessOutbound_eq {l₁ l₂ : String} {e₁ e₂ : Endpoint} (h₁ : vmessEndpoint L l₁ = some e₁)
    (h₂ : vmessEndpoint L l₂ = some e₂) (h : e₁.ident = e₂.ident) : vmessOutbound L l₁ = vmessOutbound L l₂ := by
  obtain ⟨text, o, htext, hloads, hident⟩ := exists_members h₁
  obtain ⟨text', o', htext', hloads', hident'⟩ := exists_members h₂
  have hchars := congrArg String.toList h
  rw [hident, hident'] at hchars
  have hsame := (JsonDumps.cut_unique hchars).2
  have hout : ∀ {link text : String} {o : List (String × Value)}, CloudServers.b64 L (vmessText link) = some text →
      L.loads text = some (.obj o) → vmessOutbound L link = vmessOf L o := by
    intro link text o hb hl
    unfold vmessOutbound CloudReal.b64
    rw [hb]
    show (L.loads text).bind _ = _
    rw [hl]
    rfl
  rw [hout htext hloads, hout htext' hloads', ← vmessOf_nameless o, ← vmessOf_nameless o', hsame]

/-! ## What is told of links of one identity

With the transport known to be equal, two links are told alike exactly when their accesses are.
So the theorem names what can go wrong, and nothing of the transport is in its condition. -/

/-- A scheme `ss` is what a link starts with. -/
theorem cutScheme_ss {link scheme rest : String} (h : cutScheme link = some (scheme, rest))
    (hss : Text.startsWith link "ss://" = true) : scheme = "ss" := by
  obtain ⟨chars, -, hcut⟩ := Option.map_eq_some_iff.mp h
  obtain ⟨t, ht⟩ := of_decide_eq_true hss
  rw [← (Prod.mk.inj hcut).1]
  unfold Text.substringBeforeStr
  rw [← ht]
  rfl

/-- Only Shadowsocks has a body in base64. -/
theorem bodyOf_of_ne_ss {link scheme rest : String} (h : cutScheme link = some (scheme, rest)) (hne : scheme ≠ "ss")
    (body : String) : bodyOf L link body = some body := by
  have hno : Text.startsWith link "ss://" = false := by
    apply Bool.eq_false_iff.mpr
    exact fun hss => hne (cutScheme_ss h hss)
  unfold bodyOf
  rw [hno]
  rfl

/-- Settings are made for the protocols that are supported. -/
theorem isSome_settingsOf (scheme : String) (q : List (String × List String)) (host port : Value) (user : String) :
    (settingsOf scheme q host port user).isSome = supported scheme q := by
  unfold settingsOf supported
  by_cases hvless : scheme = "vless"
  · subst hvless
    by_cases hplain : q1 q "encryption" "none" ∈ ["none", ""]
    · rw [if_pos rfl, if_neg (not_not.mpr hplain), decide_eq_true hplain]
      rfl
    · rw [if_pos rfl, if_pos hplain, decide_eq_false hplain]
      rfl
  · rw [if_neg hvless, decide_eq_false hvless]
    by_cases htrojan : scheme = "trojan"
    · rw [if_pos htrojan, decide_eq_true htrojan]
      rfl
    · rw [if_neg htrojan, decide_eq_false htrojan]
      rfl

/-- Which links are told at all is decided by their scheme and query. -/
theorem isSome_linkFields (scheme : String) (q : List (String × List String)) (host : Option String)
    (port : Option ℕ) (user : String) :
    (linkFields L scheme q host port user).isSome = supported scheme q := by
  unfold linkFields
  rw [Option.isSome_map, isSome_settingsOf]

/-- A link is told as its access and its query say, or not at all. -/
theorem outbound_cases {link : String} (hvmess : Text.startsWith link "vmess://" = false) :
    (access L link = none ∧ outbound L link = none) ∨
      ∃ a x, access L link = some a ∧ told L (queryOf L link) a = some x ∧ outbound L link = some x := by
  have hno : ¬ Text.startsWith link "vmess://" = true := by simp [hvmess]
  unfold access outbound
  rw [if_neg hno, if_neg hno]
  cases hcut : cutScheme link with
  | none => exact .inl ⟨rfl, rfl⟩
  | some p =>
    obtain ⟨scheme, rest⟩ := p
    simp only [Option.bind_eq_bind, Option.bind_some]
    generalize hbody : Text.substringBefore rest '#' = body
    -- Shadowsocks has a body of its own, all other links one form
    by_cases hss : scheme = "ss"
    · rw [if_pos hss, if_pos hss]
      unfold ssOutbound
      -- wherever a part is missing, access and outbound are missing alike
      cases hs : ssBody L body with
      | none => exact .inl ⟨rfl, rfl⟩
      | some body' =>
        cases hu : L.urlsplit ("x://" ++ body') with
        | none => exact .inl ⟨by simp [hu], by simp [hu]⟩
        | some u =>
          cases hc : credentials L u with
          | none => exact .inl ⟨by simp [hu, hc], by simp [hu, hc]⟩
          | some c =>
            cases hp : u.port with
            | none => exact .inl ⟨by simp [hu, hc, hp], by simp [hu, hc, hp]⟩
            | some port =>
              refine .inr ⟨.shadowsocks u.hostname port c.1 c.2, _, ?_, rfl, ?_⟩
              · simp [hu, hc, hp]
              · simp [hu, hc, hp]
    · rw [if_neg hss, if_neg hss]
      unfold linkOutbound
      cases hu : L.urlsplit ("x://" ++ body) with
      | none => exact .inl ⟨rfl, rfl⟩
      | some u =>
        have hquery : queryOf L link = L.parse_qs u.query := by
          unfold queryOf splitOf
          simp [hcut, hbody, bodyOf_of_ne_ss hcut hss, hu]
        cases hp : u.port with
        | none => exact .inl ⟨by simp [hp], by simp [hp]⟩
        | some port =>
          -- a supported scheme has all the fields it needs
          have htold := isSome_linkFields (L := L) scheme (L.parse_qs u.query) u.hostname port
            (L.unquote (u.username.getD ""))
          cases hsup : supported scheme (L.parse_qs u.query) with
          | false =>
            rw [hsup, Option.isSome_eq_false_iff, Option.isNone_iff_eq_none] at htold
            exact .inl ⟨by simp [hp, hsup], by simp [hp, htold]⟩
          | true =>
            rw [hsup] at htold
            obtain ⟨x, hx⟩ := Option.isSome_iff_exists.mp htold
            refine .inr ⟨.link scheme u.hostname port (L.unquote (u.username.getD "")), x, ?_, ?_, ?_⟩
            · simp [hp, hsup]
            · rw [hquery]
              exact hx
            · simp [hp, hx]

theorem hostValue_inj {host host' : Option String} (h : hostValue host = hostValue host') : host = host' := by
  cases host with
  | none =>
    cases host' with
    | none => rfl
    | some b => cases h
  | some a =>
    cases host' with
    | none => cases h
    | some b => exact congrArg some (Value.str.inj h)

theorem portValue_inj {port port' : Option ℕ} (h : portValue port = portValue port') : port = port' := by
  cases port with
  | none =>
    cases port' with
    | none => rfl
    | some b => cases h
  | some a =>
    cases port' with
    | none => cases h
    | some b => exact congrArg some (Int.ofNat.inj (Value.int.inj h))

/-- The settings hold the user. -/
theorem settingsOf_inj {scheme : String} {q : List (String × List String)} {host port v : Value} {user user' : String}
    (h : settingsOf scheme q host port user = some v) (h' : settingsOf scheme q host port user' = some v) :
    user = user' := by
  unfold settingsOf at h h'
  by_cases hvless : scheme = "vless"
  · rw [if_pos hvless] at h h'
    by_cases hplain : q1 q "encryption" "none" ∉ ["none", ""]
    · rw [if_pos hplain] at h
      cases h
    · rw [if_neg hplain] at h h'
      have heq := Option.some.inj (h.trans h'.symm)
      simp only [Value.obj.injEq, Value.arr.injEq, Value.str.injEq, List.cons.injEq, Prod.mk.injEq, List.cons_append,
        true_and, and_true] at heq
      exact heq
  · rw [if_neg hvless] at h h'
    by_cases htrojan : scheme = "trojan"
    · rw [if_pos htrojan] at h h'
      have heq := Option.some.inj (h.trans h'.symm)
      simp only [Value.obj.injEq, Value.arr.injEq, Value.str.injEq, List.cons.injEq, Prod.mk.injEq,
        true_and, and_true] at heq
      exact heq
    · rw [if_neg htrojan] at h
      cases h

/-- **With one query, what is told tells the access.** -/
theorem told_inj {q : List (String × List String)} {a b : Access} {x : Outbound} (ha : told L q a = some x)
    (hb : told L q b = some x) : a = b := by
  -- the outbound tells its protocol, so two accesses of one outbound are of one kind
  cases a with
  | vmess => cases ha
  | link scheme host port user =>
    obtain ⟨v, hv, rfl⟩ := Option.map_eq_some_iff.mp ha
    cases b with
    | vmess => cases hb
    | link scheme' host' port' user' =>
      obtain ⟨v', hv', heq⟩ := Option.map_eq_some_iff.mp hb
      simp only [Outbound.mk.injEq] at heq
      -- the user stands in the settings, host and port in the address
      obtain ⟨rfl, rfl, -, -, -, -, -, -, -, -, hhost, hport⟩ := heq
      obtain rfl := hostValue_inj hhost
      obtain rfl := portValue_inj hport
      rw [settingsOf_inj hv hv']
    | shadowsocks host' port' method pw =>
      -- no other link is printed with this protocol
      have hscheme : "shadowsocks" = scheme := congrArg Outbound.protocol (Option.some.inj hb)
      rw [← hscheme] at hv
      cases hv
  | shadowsocks host port method pw =>
    obtain rfl := Option.some.inj ha
    cases b with
    | vmess => cases hb
    | link scheme' host' port' user' =>
      obtain ⟨v, hv, heq⟩ := Option.map_eq_some_iff.mp hb
      have hscheme : scheme' = "shadowsocks" := congrArg Outbound.protocol heq
      rw [hscheme] at hv
      cases hv
    | shadowsocks host' port' method' pw' =>
      have heq := Option.some.inj hb
      unfold ssFields at heq
      simp only [Outbound.mk.injEq, Value.obj.injEq, Value.arr.injEq, Value.str.injEq, List.cons.injEq, Prod.mk.injEq,
        true_and, and_true] at heq
      obtain ⟨⟨-, -, rfl, rfl⟩, hhost, hport⟩ := heq
      rw [hostValue_inj hhost, portValue_inj hport]

/-- **What the dropped link is told as.** Two links of one identity are told alike exactly when
they give the same address and credentials, or neither can be told. -/
theorem outbound_eq_iff {l₁ l₂ : String} {e₁ e₂ : Endpoint} (h₁ : endpoint L l₁ = some e₁)
    (h₂ : endpoint L l₂ = some e₂) (h : e₁.ident = e₂.ident) :
    outbound L l₁ = outbound L l₂ ↔ access L l₁ = access L l₂ := by
  unfold endpoint at h₁ h₂
  -- VMess links are told by their objects
  by_cases hv₁ : Text.startsWith l₁ "vmess://" = true
  · rw [if_pos hv₁] at h₁
    by_cases hv₂ : Text.startsWith l₂ "vmess://" = true
    · rw [if_pos hv₂] at h₂
      unfold outbound access
      rw [if_pos hv₁, if_pos hv₂, if_pos hv₁, if_pos hv₂]
      exact iff_of_true (vmessOutbound_eq h₁ h₂ h) rfl
    · rw [if_neg hv₂] at h₂
      exact absurd h (vmess_ident_ne h₁ h₂)
  -- all others by their parts: the identities agree in the query, so the accesses decide
  · rw [if_neg hv₁] at h₁
    by_cases hv₂ : Text.startsWith l₂ "vmess://" = true
    · rw [if_pos hv₂] at h₂
      exact absurd h.symm (vmess_ident_ne h₂ h₁)
    · rw [if_neg hv₂] at h₂
      have hquery := queryOf_eq h₁ h₂ h
      rcases outbound_cases (L := L) (Bool.eq_false_iff.mpr hv₁) with ⟨ha₁, ho₁⟩ | ⟨a, x, ha₁, hx, ho₁⟩
      · rcases outbound_cases (L := L) (Bool.eq_false_iff.mpr hv₂) with ⟨ha₂, ho₂⟩ | ⟨b, y, ha₂, hy, ho₂⟩
        · rw [ha₁, ha₂, ho₁, ho₂]
          exact iff_of_true rfl rfl
        · rw [ha₁, ha₂, ho₁, ho₂]
          exact iff_of_false nofun nofun
      · rcases outbound_cases (L := L) (Bool.eq_false_iff.mpr hv₂) with ⟨ha₂, ho₂⟩ | ⟨b, y, ha₂, hy, ho₂⟩
        · rw [ha₁, ha₂, ho₁, ho₂]
          exact iff_of_false nofun nofun
        · rw [ha₁, ha₂, ho₁, ho₂, Option.some.injEq, Option.some.injEq]
          rw [← hquery] at hy
          constructor
          · rintro rfl
            exact told_inj hx hy
          · rintro rfl
            exact Option.some.inj (hx.symm.trans hy)

/-! ## Where they are alike

Links without bars in their fields, and without the few other signs that the two ways of
splitting treat differently, give one access. What the library is documented to do about letters
is assumed here of a parameter, and shown of one below. -/

/-- What is documented of the host name of a split link and of `str.lower`: a host name is lower
case but for what is behind a `%`, and lowering a text makes or removes neither `%` nor a bar. -/
structure Documented (L : PyLib) : Prop where
  hostname : ∀ url u host, L.urlsplit url = some u → u.hostname = some host → '%' ∉ host.toList → L.lower host = host
  lower_percent : ∀ s, '%' ∈ (L.lower s).toList ↔ '%' ∈ s.toList
  lower_bar : ∀ s, '|' ∈ (L.lower s).toList ↔ '|' ∈ s.toList

/-- A link with no bar in its scheme, host, user and password, with no `%` in its host and, if it
is an ss link, with no `@` in its query alone. -/
structure Plain (L : PyLib) (link : String) : Prop where
  fields : ∀ scheme u, splitOf L link = some (scheme, u) → '|' ∉ scheme.toList ∧
    (∀ host, u.hostname = some host → '|' ∉ host.toList ∧ '%' ∉ host.toList) ∧
    '|' ∉ (u.username.getD "").toList ∧ '|' ∉ (u.password.getD "").toList
  at_sign : ∀ rest, cutScheme link = some ("ss", rest) →
    let body := Text.substringBefore rest '#'
    Text.hasChar body '@' = true → Text.hasChar (Text.substringBefore body '?') '@' = true

/-- A text without bars ends at the first. -/
theorem bar_inj {a b r s : List Char} (ha : '|' ∉ a) (hb : '|' ∉ b) (h : a ++ '|' :: r = b ++ '|' :: s) :
    a = b ∧ r = s := by
  have hab : a = b := by
    rw [← Chars.before_append ha r, h, Chars.before_append hb s]
  subst hab
  exact ⟨rfl, (List.cons.inj (List.append_cancel_left h)).2⟩

theorem bar_not_mem_digits (n : ℕ) : '|' ∉ (toString n).toList := by
  intro h
  have hdigits : (toString n).toList = Nat.toDigits 10 n := String.toList_ofList
  rw [hdigits] at h
  exact absurd (Nat.isDigit_of_mem_toDigits (by decide) (by decide) h) (by decide)

/-- What is behind a separator, and what is before it, is the text. -/
theorem afterSub?_eq_some {d l r : List Char} (h : Chars.afterSub? d l = some r) :
    l = Chars.beforeSub d l ++ (d ++ r) := by
  induction l with
  | nil =>
    unfold Chars.afterSub? at h
    split at h
    · rename_i hd
      subst hd
      cases h
      rfl
    · cases h
  | cons c l ih =>
    unfold Chars.afterSub? at h
    unfold Chars.beforeSub
    split at h
    · rename_i hpre
      obtain rfl := Option.some.inj h
      rw [if_pos hpre, List.nil_append]
      exact (List.prefix_append_drop hpre)
    · rename_i hpre
      rw [if_neg hpre, List.cons_append, ← ih h]

/-- What a link starts with is its scheme. -/
theorem startsWith_of_cutScheme {link rest : String} (h : cutScheme link = some ("ss", rest)) :
    Text.startsWith link "ss://" = true := by
  obtain ⟨chars, hafter, hcut⟩ := Option.map_eq_some_iff.mp h
  have hlink := afterSub?_eq_some hafter
  have hscheme : Chars.beforeSub "://".toList link.toList = "ss".toList := by
    have hbefore := congrArg String.toList (Prod.mk.inj hcut).1
    rwa [Text.substringBeforeStr, String.toList_ofList] at hbefore
  rw [hscheme] at hlink
  apply decide_eq_true
  rw [hlink]
  exact ⟨chars, rfl⟩

/-- Both take the body of a plain ss link alike. -/
theorem bodyOf_ss {link rest : String} (hcut : cutScheme link = some ("ss", rest)) (hplain : Plain L link) :
    bodyOf L link (Text.substringBefore rest '#') = ssBody L (Text.substringBefore rest '#') := by
  have hat := hplain.at_sign rest hcut
  generalize Text.substringBefore rest '#' = body at hat ⊢
  unfold bodyOf ssBody CloudReal.b64
  rw [startsWith_of_cutScheme hcut, Bool.true_and]
  by_cases hbody : Text.hasChar body '@' = true
  · rw [hat hbody, hbody]
    rfl
  · have hbefore : Text.hasChar (Text.substringBefore body '?') '@' = false := by
      rw [Text.hasChar_eq_false_iff]
      exact fun hmem => hbody (Text.hasChar_iff.mpr (Text.mem_of_mem_substringBefore hmem))
    rw [hbefore, Bool.eq_false_iff.mpr hbody]
    rfl

/-- What a plain link gives, from what `endpoint` splits. -/
def accessOf (L : PyLib) (scheme : String) (u : SplitResult) : Option Access :=
  if scheme = "ss" then do
    let (method, pw) ← credentials L u
    let port ← u.port
    return .shadowsocks u.hostname port method pw
  else do
    let port ← u.port
    if supported scheme (L.parse_qs u.query) then
      return .link scheme u.hostname port (L.unquote (u.username.getD ""))
    else none

/-- The access of a plain link, made from its parts. -/
theorem access_eq_accessOf {link scheme : String} {u : SplitResult} (hvmess : ¬ Text.startsWith link "vmess://" = true)
    (hplain : Plain L link) (h : splitOf L link = some (scheme, u)) : access L link = accessOf L scheme u := by
  unfold splitOf at h
  obtain ⟨⟨scheme', rest⟩, hcut, h⟩ := Option.bind_eq_some_iff.mp h
  obtain ⟨body, hbody, h⟩ := Option.bind_eq_some_iff.mp h
  obtain ⟨u', hu, h⟩ := Option.bind_eq_some_iff.mp h
  obtain ⟨rfl, rfl⟩ := Prod.mk.inj (Option.some.inj h)
  unfold access accessOf
  rw [if_neg hvmess, hcut]
  show (if scheme' = "ss" then _ else _) = _
  by_cases hss : scheme' = "ss"
  · subst hss
    rw [bodyOf_ss hcut hplain] at hbody
    rw [if_pos rfl, if_pos rfl, hbody]
    show (L.urlsplit ("x://" ++ body)).bind _ = _
    rw [hu]
    rfl
  · rw [bodyOf_of_ne_ss hcut hss, Option.some.injEq] at hbody
    rw [if_neg hss, if_neg hss, hbody]
    show (L.urlsplit ("x://" ++ body)).bind _ = _
    rw [hu]
    rfl

/-- The same fields give the same access. -/
theorem accessOf_congr {scheme : String} {u u' : SplitResult} (hhost : u.hostname = u'.hostname)
    (hport : u.port = u'.port) (huser : u.username.getD "" = u'.username.getD "")
    (hpassword : u.password.getD "" = u'.password.getD "") (hquery : L.parse_qs u.query = L.parse_qs u'.query) :
    accessOf L scheme u = accessOf L scheme u' := by
  unfold accessOf credentials
  rw [hhost, hport, huser, hpassword, hquery]

/-- A link that is split was split by the library. -/
theorem exists_urlsplit {link scheme : String} {u : SplitResult} (h : splitOf L link = some (scheme, u)) :
    ∃ url, L.urlsplit url = some u := by
  unfold splitOf at h
  obtain ⟨cut, -, h⟩ := Option.bind_eq_some_iff.mp h
  obtain ⟨body, -, h⟩ := Option.bind_eq_some_iff.mp h
  obtain ⟨u', hu, h⟩ := Option.bind_eq_some_iff.mp h
  obtain ⟨-, rfl⟩ := Prod.mk.inj (Option.some.inj h)
  exact ⟨_, hu⟩

/-- **Plain links of one identity give one access**: what goes wrong needs a bar in a host or a
credential, a `%` in a host, or an ss link whose `@` is in its query. -/
theorem access_eq_of_plain (hL : Documented L) {l₁ l₂ : String} {e₁ e₂ : Endpoint} (hp₁ : Plain L l₁) (hp₂ : Plain L l₂)
    (h₁ : endpoint L l₁ = some e₁) (h₂ : endpoint L l₂ = some e₂) (h : e₁.ident = e₂.ident) :
    access L l₁ = access L l₂ := by
  unfold endpoint at h₁ h₂
  by_cases hv₁ : Text.startsWith l₁ "vmess://" = true
  · rw [if_pos hv₁] at h₁
    by_cases hv₂ : Text.startsWith l₂ "vmess://" = true
    · unfold access
      rw [if_pos hv₁, if_pos hv₂]
    · rw [if_neg hv₂] at h₂
      exact absurd h (vmess_ident_ne h₁ h₂)
  rw [if_neg hv₁] at h₁
  by_cases hv₂ : Text.startsWith l₂ "vmess://" = true
  · rw [if_pos hv₂] at h₂
    exact absurd h.symm (vmess_ident_ne h₂ h₁)
  rw [if_neg hv₂] at h₂
  obtain ⟨scheme, u, host, port, hsplit, hhost, hport, hident⟩ := exists_splitOf h₁
  obtain ⟨scheme', u', host', port', hsplit', hhost', hport', hident'⟩ := exists_splitOf h₂
  obtain ⟨hbar, hname, huser, -⟩ := hp₁.fields scheme u hsplit
  obtain ⟨hbar', hname', huser', -⟩ := hp₂.fields scheme' u' hsplit'
  have htext := congrArg String.toList h
  rw [hident, hident', toList_identOf, toList_identOf] at htext
  obtain ⟨hfront, hmembers⟩ := JsonDumps.cut_unique htext
  -- the five fields, one after another
  obtain ⟨escheme, hfront⟩ := bar_inj hbar hbar' hfront
  obtain ⟨ehost, hfront⟩ := bar_inj (fun hm => (hname host hhost).1 ((hL.lower_bar host).mp hm))
    (fun hm => (hname' host' hhost').1 ((hL.lower_bar host').mp hm)) hfront
  obtain ⟨eport, hfront⟩ := bar_inj (bar_not_mem_digits port) (bar_not_mem_digits port') hfront
  obtain ⟨euser, epassword⟩ := bar_inj huser huser' hfront
  have hlower : ∀ {link scheme : String} {u : SplitResult} {host : String}, splitOf L link = some (scheme, u) →
      u.hostname = some host → '%' ∉ host.toList → L.lower host = host := by
    intro link scheme u host hs hh hpercent
    obtain ⟨url, hu⟩ := exists_urlsplit hs
    exact hL.hostname url u host hu hh hpercent
  have hhosts : host = host' := by
    rw [← hlower hsplit hhost (hname host hhost).2, ← hlower hsplit' hhost' (hname' host' hhost').2]
    exact String.toList_inj.mp ehost
  have hports : port = port' := by
    have hdigits : ∀ n : ℕ, (toString n).toList = Nat.toDigits 10 n := fun n => String.toList_ofList
    rw [hdigits, hdigits] at eport
    exact Int.ofNat.inj (JsonDumps.renderInt_inj (m := .ofNat port) (n := .ofNat port') eport)
  obtain rfl := String.toList_inj.mp escheme
  rw [access_eq_accessOf hv₁ hp₁ hsplit, access_eq_accessOf hv₂ hp₂ hsplit']
  exact accessOf_congr (by rw [hhost, hhost', hhosts]) (by rw [hport, hport', hports])
    (String.toList_inj.mp euser) (String.toList_inj.mp epassword) (queryMembers_inj hmembers)

end

/-! ## Two links of one identity

A library for ASCII links, written out so that two links can be evaluated: one pair that the
script merges rightly, and one in which a bar is moved from the user to the password. -/

namespace PyLib

/-- `urlsplit` of an ASCII text that starts with `x://` and has no blank in it. -/
def urlsplitAscii (url : String) : Option SplitResult :=
  let rest := url.toList.drop 4
  let netloc := rest.takeWhile fun c => decide (c ∉ ['/', '?', '#'])
  let tail := Chars.before '#' (rest.drop netloc.length)
  if decide ('[' ∈ netloc) != decide (']' ∈ netloc) then none
  else
    let hostinfo := Chars.afterLast '@' netloc
    let userinfo := if '@' ∈ netloc then some (Chars.beforeLast '@' netloc) else none
    let bracketed := if '[' ∈ hostinfo then some (Chars.after '[' hostinfo) else none
    let hostname := match bracketed with
      | some b => Chars.before ']' b
      | none => Chars.before ':' hostinfo
    let behind := match bracketed with
      | some b => Chars.after ']' b
      | none => hostinfo
    let port := if ':' ∈ behind then Chars.after ':' behind else []
    some {
      hostname := if hostname = [] then none
        else
          let name := Chars.before '%' hostname
          some (.ofList (name.map Char.toLower ++ hostname.drop name.length))
      port :=
        if port = [] then some none
        else if port.all Char.isDigit then
          let n := port.foldl (fun n c => n * 10 + (c.toNat - 48)) 0
          if n ≤ 65535 then some (some n) else none
        else none
      username := userinfo.map fun info => .ofList (Chars.before ':' info)
      password := userinfo.bind fun info => if ':' ∈ info then some (.ofList (Chars.after ':' info)) else none
      query := .ofList (if '?' ∈ tail then Chars.after '?' tail else []) }

/-- The loop of `unquoteAscii`, which leaves out `skip` characters. -/
def unquoteGo : ℕ → List Char → List Char
  | _, [] => []
  | skip + 1, _ :: rest => unquoteGo skip rest
  | 0, c :: rest =>
    match c, rest with
    | '%', a :: b :: _ =>
      match JsonText.hexValue a, JsonText.hexValue b with
      | some m, some n => Char.ofNat (16 * m + n) :: unquoteGo 2 rest
      | _, _ => '%' :: unquoteGo 0 rest
    | _, _ => c :: unquoteGo 0 rest

/-- `unquote` of a text whose escapes are ASCII. -/
def unquoteAscii (s : String) : String := .ofList (unquoteGo 0 s.toList)

/-- `parse_qs`, for ASCII. -/
def parseQsAscii (query : String) : List (String × List String) :=
  let fields := (Text.split query '&').filterMap fun field =>
    let value := Text.substringAfter field '='
    if Text.hasChar field '=' && value ≠ "" then
      let plain := fun s => unquoteAscii (Text.replaceChar s '+' ' ')
      some (plain (Text.substringBefore field '='), plain value)
    else none
  let keys := (fields.map Prod.fst).eraseDups.mergeSort fun a b => decide (a ≤ b)
  keys.map fun k => (k, (fields.filter fun f => f.1 = k).map Prod.snd)

/-- A library for ASCII links; those of vmess need its JSON reader, which refuses every text. -/
def ascii : PyLib where
  urlsplit := urlsplitAscii
  parse_qs := parseQsAscii
  unquote := unquoteAscii
  b64decode := Base64.decodeToString
  loads := fun _ => none
  int := fun v => match v with
    | .int n => some n
    | _ => none
  lower := fun s => .ofList (s.toList.map Char.toLower)
  strip := Text.trim

/-- Lowering makes and removes letters alone. -/
theorem toLower_eq_iff {x : Char} (hx : x.isAlpha = false) (c : Char) : c.toLower = x ↔ c = x := by
  by_cases hupper : c.isUpper = true
  · have halpha : c.isAlpha = true := by rw [Char.isAlpha, hupper, Bool.true_or]
    constructor
    · rintro rfl
      rw [Char.isAlpha_toLower_eq_isAlpha, halpha] at hx
      exact absurd hx (by decide)
    · rintro rfl
      rw [halpha] at hx
      exact absurd hx (by decide)
  · rw [Char.toLower_eq_of_not_isUpper hupper]

/-- Lowering a text makes and removes no other sign. -/
theorem mem_lower_iff {x : Char} (hx : x.isAlpha = false) (s : String) :
    x ∈ (ascii.lower s).toList ↔ x ∈ s.toList := by
  dsimp only [ascii]
  rw [String.toList_ofList, List.mem_map]
  constructor
  · rintro ⟨c, hc, h⟩
    rwa [(toLower_eq_iff hx c).mp h] at hc
  · exact fun h => ⟨x, h, (toLower_eq_iff hx x).mpr rfl⟩

/-- The host that `urlsplitAscii` gives is lower case up to its first `%`. -/
theorem exists_hostname {url host : String} {u : SplitResult} (h : urlsplitAscii url = some u)
    (hhost : u.hostname = some host) : ∃ name : List Char,
      host.toList = (Chars.before '%' name).map Char.toLower ++ name.drop (Chars.before '%' name).length := by
  unfold urlsplitAscii at h
  dsimp only at h
  split at h
  · cases h
  · rw [← Option.some.inj h] at hhost
    obtain ⟨-, hhost⟩ := Option.ite_none_left_eq_some.mp hhost
    exact ⟨_, by rw [← Option.some.inj hhost, String.toList_ofList]⟩

/-- The library for ASCII links does what is documented of it. -/
theorem documented_ascii : Documented ascii where
  hostname := fun url u host hurl hhost hpercent => by
    obtain ⟨name, hname⟩ := exists_hostname hurl hhost
    have hplain : '%' ∉ name := by
      intro hmem
      have hdrop : name.drop (Chars.before '%' name).length = '%' :: Chars.after '%' name := by
        have hcut := congrArg (List.drop (Chars.before '%' name).length) (Chars.split_first hmem).1
        rwa [List.drop_left] at hcut
      exact hpercent (by rw [hname, hdrop]; exact List.mem_append_right _ List.mem_cons_self)
    rw [Chars.before_of_not_mem hplain, List.drop_length, List.append_nil] at hname
    apply String.toList_inj.mp
    dsimp only [ascii]
    rw [String.toList_ofList, hname, List.map_map]
    exact List.map_congr_left fun c _ => Char.toLower_toLower_eq_toLower c
  lower_percent := mem_lower_iff (by decide)
  lower_bar := mem_lower_iff (by decide)

end PyLib

section

open CloudServers CloudReal PyLib

/-- A link with an identity has an endpoint. -/
theorem exists_of_ident {L : PyLib} {l i : String} (h : (endpoint L l).map Endpoint.ident = some i) :
    ∃ e, endpoint L l = some e ∧ e.ident = i := Option.map_eq_some_iff.mp h

/-- A link with a bar in its user. -/
def barLink : String := "vless://a|b@node.example:443?security=tls"

/-- The same with the bar at the end of a password. -/
def barPassword : String := "vless://a:b|@node.example:443?security=tls"

/-- Two links that differ in their names only. -/
theorem outbound_eq_iff_named : ∃ e₁ e₂ : Endpoint,
    endpoint ascii "vless://u@node.example:443?security=tls#one" = some e₁ ∧
    endpoint ascii "vless://u@node.example:443?security=tls#two" = some e₂ ∧ e₁.ident = e₂.ident ∧
    (outbound ascii "vless://u@node.example:443?security=tls#one"
        = outbound ascii "vless://u@node.example:443?security=tls#two"
      ↔ access ascii "vless://u@node.example:443?security=tls#one"
        = access ascii "vless://u@node.example:443?security=tls#two") := by
  obtain ⟨e₁, he₁, hi₁⟩ := exists_of_ident (L := ascii) (l := "vless://u@node.example:443?security=tls#one")
    (i := "vless|node.example|443|u||\x7b\"security\":[\"tls\"]\x7d") (by decide +kernel)
  obtain ⟨e₂, he₂, hi₂⟩ := exists_of_ident (L := ascii) (l := "vless://u@node.example:443?security=tls#two")
    (i := "vless|node.example|443|u||\x7b\"security\":[\"tls\"]\x7d") (by decide +kernel)
  have hident := hi₁.trans hi₂.symm
  exact ⟨e₁, e₂, he₁, he₂, hident, outbound_eq_iff he₁ he₂ hident⟩

/-- One identity, and two users. -/
theorem bar_links_merged : ¬ ∀ (l₁ l₂ : String) (e₁ e₂ : Endpoint), endpoint ascii l₁ = some e₁ →
    endpoint ascii l₂ = some e₂ → e₁.ident = e₂.ident → outbound ascii l₁ = outbound ascii l₂ := by
  intro h
  obtain ⟨e₁, he₁, hi₁⟩ := exists_of_ident (L := ascii) (l := barLink)
    (i := "vless|node.example|443|a|b||\x7b\"security\":[\"tls\"]\x7d") (by decide +kernel)
  obtain ⟨e₂, he₂, hi₂⟩ := exists_of_ident (L := ascii) (l := barPassword)
    (i := "vless|node.example|443|a|b||\x7b\"security\":[\"tls\"]\x7d") (by decide +kernel)
  have hout := h barLink barPassword e₁ e₂ he₁ he₂ (hi₁.trans hi₂.symm)
  have hsettings : ((outbound ascii barLink).map fun x => dumps x.settings)
      ≠ (outbound ascii barPassword).map fun x => dumps x.settings := by decide +kernel
  exact hsettings (congrArg (Option.map fun x => dumps x.settings) hout)

end

end VlessCard
