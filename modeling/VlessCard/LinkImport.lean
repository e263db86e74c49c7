/-
`LinkParser.parseMany`: a text of any of four kinds read into servers.

An Xray configuration, a WireGuard `.conf`, a list of links and a list in Base64
take different ways through the function, and only the links are checked by
`parse`. The endpoint of a `.conf` is not checked at all, and the host of a
configuration not for its length; the ids are distinct on every way. So what is
imported is usable exactly when the endpoints written in the text are, where the
text is of one of the first two kinds.
-/
import VlessCard.JsonText
import VlessCard.XrayJson

set_option autoImplicit false

namespace VlessCard

open KeyedList

namespace Text

variable (J : Jvm)

/-- `s.contains(p, ignoreCase = true)`. -/
def containsIgnoreCase (s p : String) : Bool := s.toList.tails.any (startsIgnoreCase J p.toList)

/-- `s.split(*chars)`. -/
def splitAny (s : String) (chars : List Char) : List String :=
  (s.toList.splitOnP fun c => decide (c ∈ chars)).map String.ofList

end Text

namespace LinkParser

section
variable (U : Jvm) (O : OrgJson)

def schemes : List String :=
  ["vless://", "vmess://", "trojan://", "ss://", "hysteria2://", "hy2://", "tuic://", "anytls://", "wireguard://",
    "wg://", "socks://", "socks5://"]

/-- The assignments of a `.conf`; a later one wins. Lines are trimmed and what has no
equals sign goes, so a `\r\n` may as well end two lines. -/
def wgValues (text : String) : OrderedMap String String :=
  .ofList ((((Text.splitAny text ['\n', '\r']).map Text.trim).filter fun l =>
    Text.hasChar l '=' && !Text.startsWith l "#").map fun l =>
      (U.lowercase (Text.trim (Text.substringBefore l '=')), Text.trim (Text.substringAfter l '=')))

/-- WireGuard `.conf`. -/
def wgConf (text source : String) : Option Server := do
  let kv := wgValues U text
  let ep ← kv.get? "endpoint"
  let (host, port) ← hostPort U ep
  let secret ← kv.get? "privatekey"
  let pbk ← kv.get? "publickey"
  return { name := "WireGuard " ++ host, protocol := "wireguard", address := host, port, secret, pbk
           localAddress := Text.ifEmpty (Text.replace (orEmpty kv "address") " " "") "172.16.0.2/32"
           mtu := ((kv.get? "mtu").bind (Text.toInt? U)).getD 0, psk := orEmpty kv "presharedkey"
           network := "udp", source }

/-- A text of links. -/
def links (body source : String) : List Server :=
  distinctBy (Server.id U) ((((Text.splitAny body ['\n', '\r', ' ', '\t']).map Text.trim).filter fun w => w ≠ "").filterMap
    fun w => parse U O w source)

/-- The text without its byte order mark. -/
def bodyOf (text : String) : String := Text.removePrefix (Text.trim text) "\uFEFF"

/-- What the text gives as an Xray configuration. -/
def xrayServers (body source : String) : List Server :=
  if Text.startsWith body "\x7b" || Text.startsWith body "[" then XrayJson.parse U O body source else []

/-- Whether the text is a WireGuard `.conf`. -/
def isWgConf (body : String) : Bool :=
  Text.containsIgnoreCase U body "[Interface]" && Text.containsIgnoreCase U body "[Peer]"

def parseMany (text source : String) : List Server :=
  let body := bodyOf text
  if xrayServers U O body source ≠ [] then xrayServers U O body source
  else if isWgConf U body then (wgConf U body source).toList
  else if schemes.any (Text.containsIgnoreCase U body) then links U O body source
  else
    match Base64.decodeToString (Text.trim (Text.replace (Text.replace body "\n" "") "\r" "")) with
    | none => []
    | some body => links U O body source

/-! ## What is usable

A server is usable with a port in range and an address that is not empty, not too long and
without the signs a link is cut at. Links and Xray configurations are filtered by this, a
WireGuard `.conf` is not; so the condition is about texts of that kind alone. -/

/-- A port in range and an address that can be one. -/
structure Endpoint (host : String) (port : Int32) : Prop where
  port : 1 ≤ port ∧ port ≤ 65535
  nonblank : Text.isBlank host = false
  short : Text.length host ≤ 253

/-- Everything imported is a usable endpoint, and no id comes twice. -/
structure Imported (text source : String) : Prop where
  endpoints : ∀ s ∈ parseMany U O text source, Endpoint s.address s.port
  ids : ((parseMany U O text source).map (Server.id U)).Nodup

end

section
variable {U : Jvm} {O : OrgJson}

theorem usable_iff (s : Server) : usable s = true ↔ Endpoint s.address s.port := by
  rw [usable, Bool.and_eq_true, Bool.and_eq_true, decide_eq_true_eq, decide_eq_true_eq, Bool.not_eq_true']
  constructor
  · rintro ⟨⟨hp, hb⟩, hl⟩
    exact { port := hp, nonblank := hb, short := hl }
  · rintro ⟨hp, hb, hl⟩
    exact ⟨⟨hp, hb⟩, hl⟩

theorem links_usable {body source : String} {s : Server} (h : s ∈ links U O body source) : Endpoint s.address s.port := by
  obtain ⟨w, -, hw⟩ := List.mem_filterMap.mp (distinctBy_subset _ _ h)
  rw [← usable_iff]
  exact (Option.filter_eq_some_iff.mp hw).2

theorem nodup_links (body source : String) : ((links U O body source).map (Server.id U)).Nodup :=
  nodup_distinctBy _ _

theorem xrayServers_eq {body source : String} (h : xrayServers U O body source ≠ []) :
    xrayServers U O body source = distinctBy (Server.id U) (XrayJson.found U O body source) := by
  rw [xrayServers] at h ⊢
  split
  · rfl
  · rename_i hno
    rw [if_neg hno] at h
    exact absurd rfl h

/-- A configuration gives usable endpoints when no host in it is too long. Of servers
with one id the first counts. -/
theorem xrayServers_usable {body source : String} (h : xrayServers U O body source ≠ []) :
    (∀ s ∈ xrayServers U O body source, Endpoint s.address s.port) ↔
      ∀ pre s post, XrayJson.found U O body source = pre ++ s :: post → s.id U ∉ pre.map (Server.id U) →
        Text.length s.address ≤ 253 := by
  rw [xrayServers_eq h]
  constructor
  · intro hall pre s post hfound hfirst
    exact (hall s ((mem_distinctBy_iff _).mpr ⟨pre, post, hfound, hfirst⟩)).short
  · intro hshort s hs
    obtain ⟨hport, hblank⟩ := XrayJson.found_checked (distinctBy_subset _ _ hs)
    obtain ⟨pre, post, hfound, hfirst⟩ := (mem_distinctBy_iff _).mp hs
    exact { port := hport, nonblank := hblank, short := hshort pre s post hfound hfirst }

/-- A `.conf` gives a server when it has an endpoint with a port and two keys, and the
server stands there. -/
theorem wgConf_endpoint (text source : String) :
    (∀ s ∈ wgConf U text source, Endpoint s.address s.port) ↔
      ∀ ep host port, (wgValues U text).get? "endpoint" = some ep → hostPort U ep = some (host, port) →
        ((wgValues U text).get? "privatekey").isSome = true → ((wgValues U text).get? "publickey").isSome = true →
        Endpoint host port := by
  constructor
  · intro hall ep host port hep hhp hsecret hpub
    obtain ⟨secret, hsecret⟩ := Option.isSome_iff_exists.mp hsecret
    obtain ⟨pbk, hpub⟩ := Option.isSome_iff_exists.mp hpub
    have hconf : ∃ s, wgConf U text source = some s ∧ s.address = host ∧ s.port = port := by
      simp only [wgConf, hep, hhp, hsecret, hpub, Option.bind_eq_bind, Option.bind_some, Option.pure_def]
      exact ⟨_, rfl, rfl, rfl⟩
    obtain ⟨s, hs, rfl, rfl⟩ := hconf
    exact hall s hs
  · intro hall s hs
    simp only [wgConf, Option.mem_def, Option.bind_eq_bind, Option.bind_eq_some_iff, Option.pure_def,
      Option.some.injEq, Prod.exists] at hs
    obtain ⟨ep, hep, host, port, hhp, secret, hsecret, pbk, hpub, rfl⟩ := hs
    exact hall ep host port hep hhp (by rw [hsecret]; rfl) (by rw [hpub]; rfl)

/-- The ids are distinct whichever way the text takes. -/
theorem nodup_parseMany (text source : String) : ((parseMany U O text source).map (Server.id U)).Nodup := by
  rw [parseMany]
  by_cases hx : xrayServers U O (bodyOf text) source ≠ []
  · rw [if_pos hx, xrayServers_eq hx]
    exact nodup_distinctBy _ _
  · rw [if_neg hx]
    by_cases hw : isWgConf U (bodyOf text) = true
    · rw [if_pos hw]
      cases wgConf U (bodyOf text) source with
      | none => exact List.nodup_nil
      | some s => exact List.nodup_singleton _
    · rw [if_neg hw]
      by_cases hl : schemes.any (Text.containsIgnoreCase U (bodyOf text)) = true
      · rw [if_pos hl]
        exact nodup_links _ _
      · rw [if_neg hl]
        split
        · exact List.nodup_nil
        · exact nodup_links _ _

/-- **Everything imported is a usable endpoint** exactly for texts that are not an Xray
configuration with a host that is too long, nor a `.conf` whose endpoint is out of
range. -/
theorem imported_usable_iff (U : Jvm) (O : OrgJson) (text source : String) : Imported U O text source ↔
    (xrayServers U O (bodyOf text) source ≠ [] →
      ∀ pre s post, XrayJson.found U O (bodyOf text) source = pre ++ s :: post → s.id U ∉ pre.map (Server.id U) →
        Text.length s.address ≤ 253) ∧
    (xrayServers U O (bodyOf text) source = [] → isWgConf U (bodyOf text) = true →
      ∀ ep host port, (wgValues U (bodyOf text)).get? "endpoint" = some ep → hostPort U ep = some (host, port) →
        ((wgValues U (bodyOf text)).get? "privatekey").isSome = true →
        ((wgValues U (bodyOf text)).get? "publickey").isSome = true → Endpoint host port) := by
  have hids := nodup_parseMany (U := U) (O := O) text source
  have hwhole : Imported U O text source ↔ ∀ s ∈ parseMany U O text source, Endpoint s.address s.port :=
    ⟨fun h => h.endpoints, fun h => { endpoints := h, ids := hids }⟩
  rw [hwhole, parseMany]
  by_cases hx : xrayServers U O (bodyOf text) source = []
  · rw [if_neg (not_not_intro hx)]
    by_cases hw : isWgConf U (bodyOf text) = true
    · have hconf := wgConf_endpoint (U := U) (bodyOf text) source
      simp only [hx, hw, if_pos, ne_eq, not_true_eq_false, false_implies, true_and, true_implies, Option.mem_toList]
      simpa only [Option.mem_def] using hconf
    · rw [if_neg hw]
      -- links are checked one by one
      refine iff_of_true ?_ ⟨fun hne => absurd hx hne, fun _ hconf => absurd hconf hw⟩
      intro s hs
      by_cases hl : schemes.any (Text.containsIgnoreCase U (bodyOf text)) = true
      · rw [if_pos hl] at hs
        exact links_usable hs
      · rw [if_neg hl] at hs
        split at hs
        · cases hs
        · exact links_usable hs
  · rw [if_pos hx, xrayServers_usable hx]
    simp only [hx, ne_eq, not_false_eq_true, true_implies, false_implies, and_true]

end

/-- Port 0 from a `.conf`. -/
theorem conf_port_unchecked :
    let text := "[Interface]\nPrivateKey = k\n[Peer]\nPublicKey = p\nEndpoint = host:0\n"
    (parseMany Jvm.ascii JsonText.library text "").map (fun s => (s.address, s.port)) = [("host", 0)] ∧
      ¬ Imported Jvm.ascii JsonText.library text "" := by
  intro text
  have hservers : (parseMany Jvm.ascii JsonText.library text "").map (fun s => (s.address, s.port)) = [("host", 0)] := by
    decide +kernel
  refine ⟨hservers, ?_⟩
  intro h
  obtain ⟨s, hs, hport⟩ := List.mem_map.mp (hservers ▸ List.mem_singleton_self (("host", 0) : String × Int32))
  have hzero : s.port = 0 := congrArg Prod.snd hport
  have hrange := (h.endpoints s hs).port
  rw [hzero] at hrange
  exact absurd hrange (by decide)

end LinkParser

end VlessCard
