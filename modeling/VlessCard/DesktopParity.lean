/-
`Route.cs` and the parser and builder of the phone, on the same link.

Both cut a link at the same signs, so what they find differs only where the library of
one makes something of a part that the other takes as it stands: the host, the UUID, the
options. Of the options the desktop client reads a few, and writes a fixed value for what
it does not read. Xray is told the same by both exactly when the link leaves these at
that value, and the rules for a missing server name come to the same.
-/
import VlessCard.DesktopRoute
import VlessCard.LinkRoundTrip
import VlessCard.MaskLayers

set_option autoImplicit false

namespace VlessCard

/-! ## How the phone cuts the link

The phone looks for its signs in another order than the desktop client does, and trims slashes
where the other keeps a path. For a link with credentials and a query both find the same parts,
unless a sign in the path stands for the one before the host. -/

namespace LinkParser

section
variable (J : Jvm)

/-- An address without its brackets. -/
def bareHost (host : String) : String :=
  if host.toList.head? = some '[' then .ofList ((Chars.before ']' host.toList).drop 1) else host

/-- The path is not looked at. -/
theorem hostPort_path {endpoint path : String} (hslash : '/' ∉ endpoint.toList)
    (hrooted : path = "" ∨ path.toList.head? = some '/') :
    hostPort J (endpoint ++ path) = hostPort J endpoint := by
  have hclean : Text.substringBefore (endpoint ++ path) '/' = endpoint := by
    rcases hrooted with rfl | hhead
    · rw [String.append_empty, Text.substringBefore_of_not_mem hslash]
    · obtain ⟨rest, hrest⟩ := List.head?_eq_some_iff.mp hhead
      rw [Text.substringBefore, String.toList_append, hrest, Chars.before_append hslash, String.ofList_toList]
  unfold hostPort
  rw [hclean, Text.substringBefore_of_not_mem hslash]

/-- **A host and a port are read alike** by both. -/
theorem hostPort_of_cut {endpoint host : String} {port : ℤ} (hslash : '/' ∉ endpoint.toList)
    (he : Uri.Ends endpoint host port) : hostPort J endpoint = some (bareHost host, Int32.ofInt port) := by
  obtain ⟨tail, hcut, hport⟩ := he.cut
  obtain ⟨digits, rfl, hne, hdigits, rfl, hle⟩ := Uri.portOf_spec hport he.positive
  -- both sides read the digits as the same port
  have hread : Text.toInt? J (.ofList digits) = some (Int32.ofInt (Nat.ofDigitChars 10 digits 0)) :=
    Text.toInt?_digits J hne hdigits (by omega)
  unfold hostPort
  dsimp only
  rw [Text.substringBefore_of_not_mem hslash]
  rw [Uri.cutHost] at hcut
  split at hcut
  -- an address in brackets: the phone cuts behind the bracket, the desktop at it
  · rename_i hbracket
    split at hcut
    · rename_i hclose
      obtain ⟨hhost, htail⟩ := Prod.mk.inj (Option.some.inj hcut)
      obtain ⟨hsplit, hopen⟩ := Chars.split_first hclose
      rw [htail] at hsplit
      have hinner : bareHost host = .ofList ((Chars.before ']' endpoint.toList).drop 1) := by
        have hhead : host.toList.head? = some '[' := by
          rw [hsplit] at hbracket
          rw [← hhost]
          cases hb : Chars.before ']' endpoint.toList with
          | nil =>
            rw [hb] at hbracket
            exact absurd (Option.some.inj hbracket) (by decide)
          | cons x rest =>
            rw [hb] at hbracket
            exact hbracket
        rw [bareHost, if_pos hhead, ← hhost, Chars.before_append hopen]
      have hafter : Text.substringAfterStr endpoint "]:" = .ofList digits := by
        have hsub : Chars.afterSub? [']', ':'] endpoint.toList = some digits := by
          have hfound := Chars.afterSub?_append (d := [':']) hopen digits
          rw [List.append_assoc] at hfound
          rw [hsplit]
          exact hfound
        show String.ofList ((Chars.afterSub? [']', ':'] endpoint.toList).getD endpoint.toList) = _
        rw [hsub, Option.getD_some]
      rw [if_pos (startsWith_bracket_iff.mpr hbracket), if_pos (Text.hasChar_iff.mpr hclose), hafter, hread,
        Option.map_some, hinner]
    · cases hcut
  -- any other address: both cut at the last colon
  · rename_i hbracket
    obtain ⟨hhost, htail⟩ := Prod.mk.inj (Option.some.inj hcut)
    have hsplit : endpoint.toList = host.toList ++ ':' :: digits := by
      rw [← hhost, ← htail]
      exact (List.takeWhile_append_dropWhile).symm
    have hcolon : ':' ∉ digits := fun hmem => absurd (hdigits ':' hmem) (by decide)
    have hplain : bareHost host = host := by
      refine if_neg fun hhead => hbracket ?_
      obtain ⟨rest, hrest⟩ := List.head?_eq_some_iff.mp hhead
      rw [hsplit, hrest]
      rfl
    have hbefore : Text.substringBeforeLast endpoint ':' = host := by
      rw [Text.substringBeforeLast, hsplit, Chars.beforeLast_append hcolon, String.ofList_toList]
    have hafter : Text.substringAfterLast endpoint ':' = .ofList digits := by
      rw [Text.substringAfterLast, hsplit, Chars.afterLast_append hcolon]
    rw [if_neg fun hstart => hbracket (startsWith_bracket_iff.mp hstart), hafter, hbefore, hread, Option.map_some,
      hplain]

/-- A link with credentials and a query, cut. -/
theorem split_query {front main rest : String} (hfront : ':' ∉ front.toList) (hhash : '#' ∉ main.toList)
    (hquest : '?' ∉ main.toList) : ∃ name, split J (front ++ "://" ++ (main ++ "?" ++ rest)) =
      (hostPort J (Text.substringAfterLast (Text.trimEnd main '/') '@')).map fun hp =>
        { user := if Text.hasChar (Text.trimEnd main '/') '@' then
            dec J (Text.substringBeforeLast (Text.trimEnd main '/') '@') else ""
          host := hp.1, port := hp.2, q := query J (Text.substringBefore rest '#'), name } := by
  have hmain : Text.substringBefore (main ++ "?" ++ rest) '#' = main ++ "?" ++ Text.substringBefore rest '#' := by
    have hno : '#' ∉ (main ++ "?").toList := Text.not_mem_append hhash (by decide)
    by_cases hmem : Text.hasChar rest '#' = true
    · have hrest := Text.cut_first (d := "#") rfl hmem
      conv_lhs => rw [hrest]
      rw [← String.append_assoc, ← String.append_assoc]
      refine Text.substringBefore_append rfl (Text.not_mem_append hno ?_)
      exact Text.not_mem_substringBefore _ _
    · have hnone := Text.hasChar_eq_false_iff.mp (Bool.not_eq_true _ ▸ hmem)
      rw [Text.substringBefore_of_not_mem hnone, Text.substringBefore_of_not_mem (Text.not_mem_append hno hnone)]
  refine ⟨if Text.hasChar (main ++ "?" ++ rest) '#' then
    Text.trim (dec J (Text.substringAfter (main ++ "?" ++ rest) '#')) else "", ?_⟩
  unfold split
  simp only [Text.substringAfterStr_append (d := "://") (c := ':') rfl hfront, hmain,
    Text.substringBefore_append (d := "?") (c := '?') rfl hquest,
    Text.substringAfter_append (d := "?") (c := '?') rfl hquest,
    Text.hasChar_append_self (d := "?") (c := '?') rfl, if_true]

section
variable {scheme credentials endpoint path : String} {x : Char}

/-- Slashes are trimmed off the path alone, as long as the endpoint does not end in one. -/
theorem trimEnd_main (h : Uri.Signs scheme credentials endpoint path) (hlast : endpoint.toList.getLast? = some x) :
    Text.trimEnd (credentials ++ "@" ++ endpoint ++ path) '/' = credentials ++ "@" ++ endpoint ++ Text.trimEnd path '/' := by
  refine Text.trimEnd_append (x := x) ?_ fun hx => ?_
  · rw [String.toList_append, List.getLast?_append, hlast]
    rfl
  · exact h.inEndpoint '/' List.mem_cons_self (hx ▸ List.mem_of_getLast? hlast)

/-- What is trimmed off a path are slashes. -/
theorem trimEnd_rooted (h : path = "" ∨ path.toList.head? = some '/') :
    Text.trimEnd path '/' = "" ∨ (Text.trimEnd path '/').toList.head? = some '/' := by
  rw [Text.trimEnd]
  cases hl : path.toList.rdropWhile (fun c => c = '/') with
  | nil => exact .inl rfl
  | cons a rest =>
    refine .inr ?_
    have hprefix := List.rdropWhile_prefix (fun c : Char => decide (c = '/')) (l := path.toList)
    rw [hl] at hprefix
    obtain ⟨t, ht⟩ := hprefix
    rcases h with rfl | hhead
    · cases ht
    · rw [← ht] at hhead
      rw [String.toList_ofList]
      exact hhead

/-- **The parts of an accepted link**, when no sign in the path is taken for the one before
the host. -/
theorem split_accepted {front host rest : String} {port : ℤ} (hfront : ':' ∉ front.toList)
    (h : Uri.Signs scheme credentials endpoint path) (he : Uri.Ends endpoint host port) (hpath : '@' ∉ path.toList) :
    ∃ p, split J (front ++ "://" ++ (credentials ++ "@" ++ endpoint ++ path ++ "?" ++ rest)) = some p ∧
      p.user = dec J credentials ∧ p.host = bareHost host ∧ p.port = Int32.ofInt port := by
  obtain ⟨x, hlast⟩ := he.last
  have hat : '@' ∉ (endpoint ++ Text.trimEnd path '/').toList :=
    Text.not_mem_append he.noAt fun hmem => hpath (mem_of_mem_trimEnd hmem)
  obtain ⟨name, hsplit⟩ := split_query J hfront (h.not_mem_main '#' (by decide)) (h.not_mem_main '?' (by decide))
  have hassoc : credentials ++ "@" ++ endpoint ++ Text.trimEnd path '/' =
      credentials ++ "@" ++ (endpoint ++ Text.trimEnd path '/') := String.append_assoc
  refine ⟨{ user := dec J credentials, host := bareHost host, port := Int32.ofInt port
            q := query J (Text.substringBefore rest '#'), name }, ?_, rfl, rfl, rfl⟩
  rw [hsplit, trimEnd_main h hlast, hassoc, Text.substringAfterLast_append rfl hat,
    Text.substringBeforeLast_append rfl hat, Text.hasChar_append_self rfl, if_pos rfl,
    hostPort_path J (h.inEndpoint '/' List.mem_cons_self) (trimEnd_rooted h.rooted),
    hostPort_of_cut J (h.inEndpoint '/' List.mem_cons_self) he, Option.map_some]

/-- What stands before the last sign holds the others. -/
theorem mem_substringBeforeLast {s d t : String} {c : Char} (hd : d.toList = [c]) (h : c ∈ t.toList) :
    c ∈ (Text.substringBeforeLast (s ++ d ++ t) c).toList := by
  obtain ⟨hcut, hno⟩ := Chars.split_first (List.mem_reverse.mpr h)
  have ht : t.toList = (Chars.after c t.toList.reverse).reverse ++ c :: (Chars.before c t.toList.reverse).reverse := by
    have hrev := congrArg List.reverse hcut
    rw [List.reverse_reverse, List.reverse_append, List.reverse_cons, List.append_assoc, List.singleton_append] at hrev
    exact hrev
  have hlist : (s ++ d ++ t).toList = (s.toList ++ [c] ++ (Chars.after c t.toList.reverse).reverse) ++
      c :: (Chars.before c t.toList.reverse).reverse := by
    rw [String.toList_append, String.toList_append, hd, List.append_assoc _ _ (c :: _), ← ht]
  rw [Text.substringBeforeLast, hlist, Chars.beforeLast_append fun hmem => hno (List.mem_reverse.mp hmem),
    String.toList_ofList]
  exact List.mem_append_left _ (List.mem_append_right _ (List.mem_singleton_self c))

/-- Otherwise the credentials that are found hold that sign. -/
theorem at_mem_user {front host rest : String} {port : ℤ} {p : Parts} (hfront : ':' ∉ front.toList)
    (h : Uri.Signs scheme credentials endpoint path) (he : Uri.Ends endpoint host port) (hpath : '@' ∈ path.toList)
    (hp : split J (front ++ "://" ++ (credentials ++ "@" ++ endpoint ++ path ++ "?" ++ rest)) = some p) :
    '@' ∈ p.user.toList := by
  obtain ⟨x, hlast⟩ := he.last
  obtain ⟨name, hsplit⟩ := split_query J hfront (h.not_mem_main '#' (by decide)) (h.not_mem_main '?' (by decide))
  rw [hsplit, trimEnd_main h hlast] at hp
  obtain ⟨hp', -, rfl⟩ := Option.map_eq_some_iff.mp hp
  have hkept : '@' ∈ (Text.trimEnd path '/').toList := by
    obtain ⟨a, b, hab⟩ := List.append_of_mem hpath
    rw [Text.trimEnd, String.toList_ofList, hab, Chars.rdropWhile_append_cons (by decide)]
    exact List.mem_append_right _ List.mem_cons_self
  have hat : Text.hasChar (credentials ++ "@" ++ (endpoint ++ Text.trimEnd path '/')) '@' = true :=
    Text.hasChar_append_self rfl
  have hassoc : credentials ++ "@" ++ endpoint ++ Text.trimEnd path '/' =
      credentials ++ "@" ++ (endpoint ++ Text.trimEnd path '/') := String.append_assoc
  rw [hassoc]
  dsimp only
  rw [if_pos hat]
  exact UrlCodec.at_mem_dec J (mem_substringBeforeLast rfl (Text.mem_append.mpr (.inr hkept)))

end

end

end LinkParser

/-! ## What Xray is told

An outbound is a JSON object on both sides, with other members where the two write a default out
or leave it away. What is compared is the connection that Xray makes of it, member by member, a
missing one being the empty text. -/

open XrayConfigBuilder

/-- What an outbound tells Xray of the server and the way to it; a member that is missing is the
empty text. -/
structure Wire where
  address : String
  port : ℤ
  id : String
  encryption : String
  flow : String
  network : String
  /-- The obfuscation of the transport's header. -/
  header : String
  security : String
  serverName : String
  publicKey : String
  shortId : String
  deriving DecidableEq

/-- The number of a member, zero when it is not one. -/
def numberOf (o : JsonObject) (k : String) : ℤ :=
  match o.get? k with
  | some (.int n) => n
  | _ => 0

def wire (o : JsonObject) : Wire :=
  let server := (objectsOf (sub o "settings") "vnext").headD []
  let user := (objectsOf server "users").headD []
  let stream := sub o "streamSettings"
  let tls := sub stream (XrayConfigBuilder.textOf stream "security" ++ "Settings")
  { address := XrayConfigBuilder.textOf server "address", port := numberOf server "port"
    id := XrayConfigBuilder.textOf user "id"
    encryption := XrayConfigBuilder.textOf user "encryption", flow := XrayConfigBuilder.textOf user "flow"
    network := XrayConfigBuilder.textOf stream "network"
    header := XrayConfigBuilder.textOf (sub (sub stream "tcpSettings") "header") "type"
    security := XrayConfigBuilder.textOf stream "security"
    serverName := XrayConfigBuilder.textOf tls "serverName"
    publicKey := XrayConfigBuilder.textOf tls "publicKey", shortId := XrayConfigBuilder.textOf tls "shortId" }

/-- The desktop client's outbound. -/
theorem wire_desktop (r : Route) (hr : r.security = "tls" ∨ r.security = "reality") : wire r.outbound =
    { address := r.host, port := r.port.toInt, id := r.id, encryption := "none", flow := r.flow
      network := "tcp", header := "", security := r.security, serverName := r.sni
      publicKey := if r.security = "reality" then r.publicKey else ""
      shortId := if r.security = "reality" then r.shortId else "" } := by
  obtain ⟨name, host, port, id, security, sni, fingerprint, publicKey, shortId, flow⟩ := r
  rcases hr with hr | hr
  · simp only at hr
    subst hr
    rfl
  · simp only at hr
    subst hr
    rfl

section
variable {s : Server} (hp : s.protocol = "vless")

theorem textOf_put_self (o : JsonObject) (k t : String) : XrayConfigBuilder.textOf (o.put k (.str t)) k = t := by
  rw [XrayConfigBuilder.textOf, JsonObject.get?_put, if_pos rfl]

theorem textOf_put_ne {k k' : String} (h : k ≠ k') (o : JsonObject) (v : Json) :
    XrayConfigBuilder.textOf (o.put k v) k' = XrayConfigBuilder.textOf o k' := by
  rw [XrayConfigBuilder.textOf, JsonObject.get?_put, if_neg h]
  rfl

theorem textOf_putIf_ne {k k' : String} (h : k ≠ k') (c : Bool) (o : JsonObject) (v : Json) :
    XrayConfigBuilder.textOf (putIf c o k v) k' = XrayConfigBuilder.textOf o k' := by
  rw [XrayConfigBuilder.textOf, get?_putIf h]
  rfl

/-- A text that is put unless it is empty. -/
theorem textOf_putIf_self {o : JsonObject} {k : String} (h : XrayConfigBuilder.textOf o k = "") (t : String) :
    XrayConfigBuilder.textOf (putIf (t ≠ "") o k (.str t)) k = t := by
  rw [putIf]
  split
  · exact textOf_put_self o k t
  · rename_i ht
    rw [decide_eq_true_eq, not_not] at ht
    rw [h, ht]

/-- What is read of a transport: its network, no security, and the obfuscation of its header. -/
structure Carrier (s : Server) (t : JsonObject × String) : Prop where
  network : XrayConfigBuilder.textOf t.1 "network" = s.network
  security : XrayConfigBuilder.textOf t.1 "security" = ""
  header : XrayConfigBuilder.textOf (sub (sub t.1 "tcpSettings") "header") "type" =
    if s.network = "tcp" ∧ s.headerType = "http" then "http" else ""
  hostSni : s.network = "tcp" → s.headerType ≠ "http" → t.2 = ""

/-- The transport before its settings. -/
def networkOnly (s : Server) : JsonObject := putIf (s.network ≠ "") JsonObject.empty "network" (.str s.network)

/-- The network alone carries a server that needs no header. -/
theorem carrier_bare {hostSni : String} (h : s.network = "tcp" → s.headerType ≠ "http" ∧ hostSni = "") :
    Carrier s (networkOnly s, hostSni) := by
  refine ⟨textOf_putIf_self rfl _, textOf_putIf_ne (by decide) _ _ _, ?_, fun htcp _ => (h htcp).2⟩
  rw [if_neg fun hboth => (h hboth.1).1 hboth.2]
  show XrayConfigBuilder.textOf (sub (sub (putIf _ _ _ _) "tcpSettings") "header") "type" = ""
  rw [sub_putIf_ne (by decide)]
  rfl

/-- The settings of another transport change none of it. -/
theorem carrier_put (hother : s.network ≠ "tcp") {k : String} (h1 : k ≠ "network") (h2 : k ≠ "security")
    (h3 : k ≠ "tcpSettings") (v : Json) (hostSni : String) : Carrier s ((networkOnly s).put k v, hostSni) := by
  have hbare : Carrier s (networkOnly s, hostSni) := carrier_bare fun htcp => absurd htcp hother
  refine ⟨?_, ?_, ?_, fun htcp => absurd htcp hother⟩
  · exact (textOf_put_ne h1 _ _).trans hbare.network
  · exact (textOf_put_ne h2 _ _).trans hbare.security
  · show XrayConfigBuilder.textOf (sub (sub ((networkOnly s).put k v) "tcpSettings") "header") "type" = _
    rw [sub_put_ne h3]
    exact hbare.header

/-- The user of the phone's outbound. -/
def vlessUser (s : Server) : JsonObject :=
  putIf (s.flow ≠ "") (JsonObject.empty |>.put "id" (.str s.secret)
    |>.put "encryption" (.str (Text.ifEmpty s.encryption "none")) |>.put "level" (.int 0)) "flow" (.str s.flow)

/-- The transport of the phone's outbound. -/
def vlessStream (O : OrgJson) (s : Server) : JsonObject :=
  (secured s none (transport O s).1 (transport O s).2).put "sockopt" (.obj (sockopt s none))

include hp

/-- The phone's transport carries every server. -/
theorem carrier_transport (O : OrgJson) : Carrier s (transport O s) := by
  have hnet : network s = s.network := by
    rw [network, hp]
    rfl
  rw [transport, hnet]
  -- plain TCP is the one network with a header; the others put their own settings and leave it
  split
  · rename_i htcp
    split
    · rename_i hhttp
      refine ⟨?_, ?_, ?_, fun _ hno => absurd hhttp hno⟩
      · exact (textOf_put_ne (by decide) _ _).trans (textOf_putIf_self rfl _)
      · exact (textOf_put_ne (by decide) _ _).trans (textOf_putIf_ne (by decide) _ _ _)
      · rw [if_pos ⟨htcp, hhttp⟩]
        dsimp only
        rw [sub_put_self]
        rfl
    · rename_i hhttp
      exact carrier_bare fun _ => ⟨hhttp, rfl⟩
  rename_i hother
  split
  · exact carrier_put hother (by decide) (by decide) (by decide) _ _
  split
  · exact carrier_put hother (by decide) (by decide) (by decide) _ _
  split
  · exact carrier_put hother (by decide) (by decide) (by decide) _ _
  split
  · exact carrier_put hother (by decide) (by decide) (by decide) _ _
  split
  · exact carrier_put hother (by decide) (by decide) (by decide) _ _
  split
  · exact carrier_put hother (by decide) (by decide) (by decide) _ _
  split
  · exact carrier_put hother (by decide) (by decide) (by decide) _ _
  · exact carrier_bare fun htcp => absurd htcp hother

/-- The phone's settings of a VLESS server. -/
theorem settings_phone (J : Jvm) : protocolSettings J s = some ("vless", vnext s (vlessUser s)) := by
  rw [protocolSettings, hp]
  rfl

/-- Without a mask nothing is added to the transport but the socket options. -/
theorem stream_phone (O : OrgJson) (noiseItems : String → Option String) :
    stream O noiseItems s none = some (vlessStream O s) := by
  have hmask : finalmask O noiseItems s none = some [] := by
    rw [finalmask, hp]
    rfl
  rw [stream, hmask]
  rfl

/-- On the phone VLESS keeps the security that its link names. -/
theorem security_phone : security s = s.security := by
  rw [security, hp]
  rfl

/-- The phone makes an outbound for every VLESS server, from these settings and this transport. -/
theorem outbound_phone (J : Jvm) (O : OrgJson) (noiseItems : String → Option String) (tag : String) :
    ∃ o, outbound O J noiseItems s tag none false = some o ∧ sub o "settings" = vnext s (vlessUser s) ∧
      sub o "streamSettings" = vlessStream O s := by
  have hraw : s.protocol ≠ "xray" := by
    rw [hp]
    decide
  refine ⟨putIf ((false ∨ ((none : Option Mask).map (·.mux)).getD false) ∧ muxable s) (JsonObject.empty
    |>.put "tag" (.str tag) |>.put "protocol" (.str "vless") |>.put "settings" (.obj (vnext s (vlessUser s)))
    |>.put "streamSettings" (.obj (vlessStream O s))) "mux" (.obj muxSettings), ?_, ?_, ?_⟩
  · rw [outbound, if_neg hraw, settings_phone hp, stream_phone hp]
    rfl
  · rw [sub_putIf_ne (by decide), sub_put_ne (by decide), sub_put_self]
  · rw [sub_putIf_ne (by decide), sub_put_self]

/-- What `secured` puts beside the transport. -/
theorem vlessStream_network (O : OrgJson) : XrayConfigBuilder.textOf (vlessStream O s) "network" = s.network := by
  rw [vlessStream, textOf_put_ne (by decide), secured]
  dsimp only
  split
  · split
    · rw [textOf_put_ne (by decide), textOf_put_ne (by decide)]
      exact (carrier_transport hp O).network
    · rw [textOf_put_ne (by decide), textOf_put_ne (by decide)]
      exact (carrier_transport hp O).network
  · exact (carrier_transport hp O).network

/-- The header is there only for plain TCP with an HTTP header. -/
theorem vlessStream_header (O : OrgJson) :
    XrayConfigBuilder.textOf (sub (sub (vlessStream O s) "tcpSettings") "header") "type" =
    if s.network = "tcp" ∧ s.headerType = "http" then "http" else "" := by
  rw [vlessStream, sub_put_ne (by decide), secured]
  dsimp only
  split
  · split
    · rw [sub_put_ne (by decide), sub_put_ne (by decide)]
      exact (carrier_transport hp O).header
    · rw [sub_put_ne (by decide), sub_put_ne (by decide)]
      exact (carrier_transport hp O).header
  · exact (carrier_transport hp O).header

/-- A security other than TLS and REALITY is written as none. -/
theorem vlessStream_security (O : OrgJson) : XrayConfigBuilder.textOf (vlessStream O s) "security" =
    if s.security = "tls" ∨ s.security = "reality" then s.security else "" := by
  rw [vlessStream, textOf_put_ne (by decide), secured, security_phone hp]
  dsimp only
  split
  · rename_i hsec
    split
    · rename_i htls
      rw [textOf_put_ne (by decide), textOf_put_self, htls]
    · rename_i htls
      rw [textOf_put_ne (by decide), textOf_put_self, hsec.resolve_left htls]
  · exact (carrier_transport hp O).security

/-- The names and keys of TLS, and of REALITY. -/
theorem vlessStream_tls (O : OrgJson) (hsec : s.security = "tls" ∨ s.security = "reality") :
    XrayConfigBuilder.textOf (sub (vlessStream O s) (s.security ++ "Settings")) "serverName" =
      serverName s none (transport O s).2 ∧
    XrayConfigBuilder.textOf (sub (vlessStream O s) (s.security ++ "Settings")) "publicKey" =
      (if s.security = "reality" then s.pbk else "") ∧
    XrayConfigBuilder.textOf (sub (vlessStream O s) (s.security ++ "Settings")) "shortId" =
      (if s.security = "reality" then s.sid else "") := by
  have hhysteria : s.protocol ≠ "hysteria2" := by
    rw [hp]
    decide
  have htls : ("tls" : String) ++ "Settings" = "tlsSettings" := rfl
  have hreality : ("reality" : String) ++ "Settings" = "realitySettings" := rfl
  rw [vlessStream, secured, security_phone hp]
  dsimp only
  rw [if_pos hsec]
  rcases hsec with h | h
  · rw [h, if_pos rfl, htls, sub_put_ne (by decide), sub_put_self, if_neg (by decide), if_neg (by decide)]
    simp (disch := decide) only [textOf_putIf_ne]
    exact ⟨textOf_putIf_self rfl _, rfl, rfl⟩
  · have hnot : s.security ≠ "tls" := by
      rw [h]
      decide
    rw [if_neg hnot, h, hreality, sub_put_ne (by decide), sub_put_self, if_pos rfl, if_pos rfl]
    simp (disch := decide) only [textOf_putIf_ne, textOf_put_ne, textOf_put_self, and_true]
    exact textOf_putIf_self rfl _

/-- The phone's outbound, with TLS or REALITY. -/
theorem wire_phone {o : JsonObject} {O : OrgJson} (hsettings : sub o "settings" = vnext s (vlessUser s))
    (hstream : sub o "streamSettings" = vlessStream O s) (hsec : s.security = "tls" ∨ s.security = "reality") :
    wire o =
      { address := s.address, port := s.port.toInt, id := s.secret
        encryption := Text.ifEmpty s.encryption "none", flow := s.flow, network := s.network
        header := if s.network = "tcp" ∧ s.headerType = "http" then "http" else ""
        security := s.security, serverName := serverName s none (transport O s).2
        publicKey := if s.security = "reality" then s.pbk else ""
        shortId := if s.security = "reality" then s.sid else "" } := by
  have hsecurity : XrayConfigBuilder.textOf (vlessStream O s) "security" = s.security := by
    rw [vlessStream_security hp, if_pos hsec]
  obtain ⟨hname, hkey, hshort⟩ := vlessStream_tls hp O hsec
  have hserver : (objectsOf (vnext s (vlessUser s)) "vnext").headD [] =
      (endpoint s).put "users" (.arr [.obj (vlessUser s)]) := rfl
  have huser : (objectsOf ((endpoint s).put "users" (.arr [.obj (vlessUser s)])) "users").headD [] = vlessUser s := rfl
  have hid : XrayConfigBuilder.textOf (vlessUser s) "id" = s.secret := by
    rw [vlessUser, textOf_putIf_ne (by decide)]
    rfl
  have hencryption : XrayConfigBuilder.textOf (vlessUser s) "encryption" = Text.ifEmpty s.encryption "none" := by
    rw [vlessUser, textOf_putIf_ne (by decide)]
    rfl
  have hflow : XrayConfigBuilder.textOf (vlessUser s) "flow" = s.flow := textOf_putIf_self rfl _
  rw [wire]
  simp only [hsettings, hstream, hserver, huser, hid, hencryption, hflow, hsecurity, hname, hkey, hshort,
    vlessStream_network hp, vlessStream_header hp]
  rfl

end

/-! ## The link, trimmed twice

The desktop client trims a link before it reads it, and the phone trims what it is given once
more, by another notion of white space. Neither of them touches the parts that matter. -/

namespace Route

section
variable {N : DotNet} {link id : String} {u : Uri} {d : OrderedMap String String}

/-- What is trimmed is white space on both sides. -/
theorem exists_trim (link : String) : ∃ a b, link.toList = a ++ (DotNet.trim link).toList ++ b ∧
    ∀ c ∈ a, DotNet.isWhiteSpace c = true := by
  obtain ⟨b, hb⟩ := List.rdropWhile_prefix DotNet.isWhiteSpace (l := link.toList.dropWhile DotNet.isWhiteSpace)
  refine ⟨link.toList.takeWhile DotNet.isWhiteSpace, b, ?_, fun c hc => List.mem_takeWhile_imp hc⟩
  rw [DotNet.trim, String.toList_ofList, List.append_assoc, hb]
  exact (List.takeWhile_append_dropWhile).symm

/-- The text that is left between a first letter and the sign of the query is the same. -/
theorem trim_front {front rest : String} {x : Char} (h : DotNet.trim link = front ++ "?" ++ rest)
    (hhead : front.toList.head? = some x) (hx : Chars.isWhitespace x = false) :
    ∃ pre rest', Text.trim link = pre ++ front ++ "?" ++ rest' ∧
      ∀ c ∈ pre.toList, DotNet.isWhiteSpace c = true := by
  obtain ⟨a, b, hlink, ha⟩ := exists_trim link
  obtain ⟨m, hm⟩ := List.head?_eq_some_iff.mp hhead
  have hlist : link.toList = a ++ x :: m ++ '?' :: (rest.toList ++ b) := by
    rw [hlink, h, String.toList_append, String.toList_append, hm]
    simp
  refine ⟨.ofList (a.dropWhile Chars.isWhitespace), .ofList ((rest.toList ++ b).rdropWhile Chars.isWhitespace), ?_, ?_⟩
  · apply String.toList_injective
    rw [Text.trim, String.toList_ofList, hlist, Chars.trim_middle hx (by decide)]
    rw [String.toList_append, String.toList_append, String.toList_append, hm, String.toList_ofList,
      String.toList_ofList]
    simp
  · intro c hc
    rw [String.toList_ofList] at hc
    exact ha c ((List.dropWhile_suffix _).subset hc)

/-- A scheme does not start with white space. -/
theorem head_scheme {scheme : String} (h : Uri.isScheme scheme = true) :
    ∃ x, scheme.toList.head? = some x ∧ Chars.isWhitespace x = false := by
  rw [Uri.isScheme] at h
  split at h
  · cases h
  · rename_i c rest hl
    rw [Bool.and_eq_true] at h
    refine ⟨c, by rw [hl]; rfl, ?_⟩
    have hrange : 65 ≤ c.toNat ∧ c.toNat ≤ 122 := by
      have halpha := h.1
      simp only [Char.isAlpha, Char.isUpper, Char.isLower, Bool.or_eq_true, Bool.and_eq_true, decide_eq_true_eq,
        UInt32.le_iff_toNat_le] at halpha
      change (65 ≤ c.toNat ∧ c.toNat ≤ 90) ∨ (97 ≤ c.toNat ∧ c.toNat ≤ 122) at halpha
      omega
    exact Chars.not_whitespace_of_range (by omega) (by omega)

/-- **What the phone is given** of a link that the desktop client accepts. -/
theorem phone_form (hu : Uri.create N (DotNet.trim link) = some u) (hid : identified N u = some id)
    (hd : toDictionary N (options N u.query) = some d) (hchecked : Checked N d) :
    ∃ front rest, Text.trim link = front ++ "://" ++ (Uri.credentials (DotNet.trim link) ++ "@" ++
        Uri.endpoint (DotNet.trim link) ++ Uri.path (DotNet.trim link) ++ "?" ++ rest) ∧ ':' ∉ front.toList ∧
      Uri.Signs (Text.substringBefore (DotNet.trim link) ':') (Uri.credentials (DotNet.trim link))
        (Uri.endpoint (DotNet.trim link)) (Uri.path (DotNet.trim link)) ∧
      Uri.Ends (Uri.endpoint (DotNet.trim link)) (Uri.hostText (DotNet.trim link)) u.port := by
  have hread := Uri.read_of_create hu
  obtain ⟨-, hpositive, -, hguid⟩ := identified_spec hid
  rw [hread.userInfo] at hguid
  have hat := credentials_ne_empty hguid
  -- there is a query, for without an encryption the desktop refuses the link
  have hquery : Text.hasChar (Uri.main (DotNet.trim link)) '?' = true := by
    by_contra hno
    refine query_ne_empty hd hchecked ?_
    rw [hread.query, if_neg hno]
  obtain ⟨rest, heq, hsigns⟩ := Uri.link_eq hread.colon hread.slashes hat hquery
  obtain ⟨x, hhead, hx⟩ := head_scheme hread.scheme
  have hjoined : DotNet.trim link = (Text.substringBefore (DotNet.trim link) ':' ++ "://" ++
      (Uri.credentials (DotNet.trim link) ++ "@" ++ Uri.endpoint (DotNet.trim link) ++ Uri.path (DotNet.trim link))) ++
        "?" ++ rest := by
    refine heq.trans ?_
    simp only [String.append_assoc]
  -- the scheme starts with a letter, so trimming takes nothing of it
  have hfirst : (Text.substringBefore (DotNet.trim link) ':' ++ "://" ++ (Uri.credentials (DotNet.trim link) ++ "@" ++
      Uri.endpoint (DotNet.trim link) ++ Uri.path (DotNet.trim link))).toList.head? = some x := by
    rw [String.append_assoc, String.toList_append, List.head?_append, hhead]
    rfl
  obtain ⟨pre, rest', htrim, hpre⟩ := trim_front hjoined hfirst hx
  refine ⟨pre ++ Text.substringBefore (DotNet.trim link) ':', rest', ?_, ?_, hsigns, hread.host, hpositive, hread.noAt⟩
  · refine htrim.trans ?_
    simp only [String.append_assoc]
  · refine Text.not_mem_append (fun hmem => ?_) hsigns.inScheme
    exact absurd (hpre ':' hmem) (by decide)

end

end Route

/-! ## The protocol of the phone's outbound

The phone reads links of several protocols, and what tells them apart in an outbound is the
encryption that VLESS alone names. So an outbound that names one was made of a VLESS link. -/

section
variable {J : Jvm} {O : OrgJson} {noiseItems : String → Option String} {s : Server} {tag : String}

/-- The encryption an outbound with these settings names. -/
def encryptionOf (settings : JsonObject) : String :=
  XrayConfigBuilder.textOf ((objectsOf ((objectsOf settings "vnext").headD []) "users").headD []) "encryption"

/-- No other protocol names one. -/
theorem encryptionOf_other (hp : s.protocol ≠ "vless") {protocol : String} {settings : JsonObject}
    (h : protocolSettings J s = some (protocol, settings)) : encryptionOf settings = "" := by
  rw [protocolSettings] at h
  -- no other protocol has settings with a `vnext`
  split at h
  · obtain ⟨-, rfl⟩ := Prod.mk.inj (Option.some.inj h)
    have hnone : ∀ (c : Bool) (o : JsonObject) (v : Json), objectsOf (putIf c o "reserved" v) "vnext" =
        objectsOf o "vnext" := by
      intro c o v
      rw [objectsOf, JsonObject.optJSONArray, get?_putIf (by decide)]
      rfl
    rw [encryptionOf, hnone]
    rfl
  split at h
  · obtain ⟨-, rfl⟩ := Prod.mk.inj (Option.some.inj h)
    split
    · rfl
    · rfl
  split at h
  · obtain ⟨-, rfl⟩ := Prod.mk.inj (Option.some.inj h)
    rfl
  split at h
  · obtain ⟨-, rfl⟩ := Prod.mk.inj (Option.some.inj h)
    rfl
  split at h
  · obtain ⟨-, rfl⟩ := Prod.mk.inj (Option.some.inj h)
    rfl
  split at h
  · obtain ⟨-, rfl⟩ := Prod.mk.inj (Option.some.inj h)
    rfl
  · cases h

/-- **An outbound that names an encryption is VLESS.** -/
theorem vless_of_encryption (hraw : s.protocol ≠ "xray") {o : JsonObject}
    (ho : outbound O J noiseItems s tag none false = some o) (h : (wire o).encryption = "none") :
    s.protocol = "vless" := by
  by_contra hp
  rw [outbound, if_neg hraw] at ho
  simp only [Option.bind_eq_bind, Option.bind_eq_some_iff, Option.pure_def, Option.some.injEq] at ho
  obtain ⟨⟨protocol, settings⟩, hsettings, st, -, rfl⟩ := ho
  have hnone := encryptionOf_other hp hsettings
  have hsub : ∀ o : JsonObject, (wire o).encryption = encryptionOf (sub o "settings") := fun _ => rfl
  rw [hsub, sub_putIf_ne (by decide), sub_put_ne (by decide), sub_put_self, hnone] at h
  exact absurd h (by decide)

end

/-! ## The two readings

Both readings of one accepted link come out as a VLESS server. So the comparison that follows has
one case only. -/

namespace LinkParser

section
variable {J : Jvm} {O : OrgJson} {link source : String} {s : Server}

/-- A link that is parsed is never a raw Xray outbound. -/
theorem parse_raw (h : parse J O link source = some s) : s.protocol ≠ "xray" := by
  intro hx
  obtain ⟨-, l, ⟨hp, -⟩ | ⟨hp, -⟩ | ⟨hp, -⟩ | ⟨hp, -⟩ | ⟨hp, -⟩⟩ := parse_cases h
  · rw [hx] at hp
    exact absurd hp (by decide)
  all_goals exact absurd (hx.symm.trans hp) (by decide)

/-- **A VLESS server is one of a link that begins so.** -/
theorem parse_vless_iff : (parse J O link source = some s ∧ s.protocol = "vless") ↔
    Text.startsWithIgnoreCase J (Text.trim link) "vless://" = true ∧
      standard J (Text.trim link) "vless" source = some s ∧ usable s = true := by
  rw [parse]
  constructor
  · rintro ⟨h, hp⟩
    obtain ⟨hs, hu⟩ := Option.filter_eq_some_iff.mp h
    -- the parsers of other protocols make servers of other protocols
    have hother : ∀ {protocol : String}, protocol ≠ "vless" → standard J (Text.trim link) protocol source ≠ some s :=
      fun hne hst => hne ((protocol_standard hst).symm.trans hp)
    split at hs
    · rename_i hstarts
      exact ⟨hstarts, hs, hu⟩
    split at hs
    · exact absurd hs (hother (by decide))
    split at hs
    · exact absurd hs (hother (by decide))
    split at hs
    · exact absurd hs (hother (by decide))
    split at hs
    · exact absurd hs (hother (by decide))
    split at hs
    · exact absurd ((protocol_vmess hs).symm.trans hp) (by decide)
    split at hs
    · exact absurd ((protocol_shadowsocks hs).symm.trans hp) (by decide)
    split at hs
    · exact absurd ((protocol_wireguard hs).symm.trans hp) (by decide)
    split at hs
    · exact absurd ((protocol_socks hs).symm.trans hp) (by decide)
    · cases hs
  -- and a link with this scheme goes to this parser
  · rintro ⟨hstarts, hs, hu⟩
    rw [if_pos hstarts]
    exact ⟨Option.filter_eq_some_iff.mpr ⟨hs, hu⟩, protocol_standard hs⟩

end

end LinkParser

/-! ## What both say

The two agree when the address is written plainly, the options are those that both know, and the
encryption is none. The conditions are gathered in a structure, and the theorem says that they
are exact. -/

namespace Route

/-- The phone makes an outbound of the link, and Xray is told the same by both, whatever the
case of the letters of the address. -/
def Agrees (J : Jvm) (O : OrgJson) (noiseItems : String → Option String) (r : Route) (link source tag : String) :
    Prop :=
  ∃ s o, LinkParser.parse J O link source = some s ∧ XrayConfigBuilder.outbound O J noiseItems s tag none false = some o ∧
    J.lowercase (wire r.outbound).address = J.lowercase (wire o).address ∧
    { wire r.outbound with address := "" } = { wire o with address := "" }

/-- The phone reads an option of the link that the desktop client cannot express. -/
def Inexpressible (J : Jvm) (O : OrgJson) (link source : String) : Prop :=
  ∃ s, LinkParser.parse J O link source = some s ∧
    (s.encryption ≠ "none" ∨ s.network = "tcp" ∧ s.headerType = "http")

/-- The endpoint and the UUID of a link, as they have to be written. -/
structure PlainEndpoint (N : DotNet) (J : Jvm) (link : String) : Prop where
  /-- The phone takes the link for one of VLESS too. -/
  own : Text.startsWithIgnoreCase J (Text.trim link) "vless://" = true
  path : '@' ∉ (Uri.path (DotNet.trim link)).toList
  /-- The UUID stands there as `ToString` writes it. -/
  id : N.guid (N.unescape (N.escaped (Uri.credentials (DotNet.trim link)))) =
    some (LinkParser.dec J (Uri.credentials (DotNet.trim link)))
  /-- The host stands there as the library writes it, whatever the case of its letters. -/
  host : ∃ names, N.host (Uri.hostText (DotNet.trim link)) = some names ∧
    J.lowercase names.2 = J.lowercase (LinkParser.bareHost (Uri.hostText (DotNet.trim link)))
  /-- The phone refuses longer ones. -/
  short : Text.isBlank (LinkParser.bareHost (Uri.hostText (DotNet.trim link))) = false ∧
    Text.length (LinkParser.bareHost (Uri.hostText (DotNet.trim link))) ≤ 253

/-- The name the phone offers when there is no obfuscated header: an option, or the address if
it is a name. -/
def phoneName (q : OrderedMap String String) (address : String) : String :=
  Text.ifEmpty (((q.get? "sni").or (q.get? "peer")).getD "")
    (if isIpv4Literal address ∨ Text.hasChar address ':' then "" else address)

/-- The name the desktop client offers. -/
def desktopName (N : DotNet) (d : OrderedMap String String) (idnHost : String) : String :=
  get N d "sni" (get N d "serverName" idnHost)

/-- The options of a link, as the desktop client reads them and as the phone does. -/
structure PlainOptions (N : DotNet) (J : Jvm) (d q : OrderedMap String String) (idnHost address : String) : Prop where
  type : LinkParser.networkOf (J.lowercase (LinkParser.orEmpty q "type")) = "tcp"
  security : LinkParser.securityOf "vless" (J.lowercase (LinkParser.orEmpty q "security")) = get N d "security" "none"
  flow : LinkParser.orEmpty q "flow" = get N d "flow" ""
  keys : get N d "security" "none" = "reality" →
    LinkParser.orEmpty q "pbk" = get N d "pbk" "" ∧ LinkParser.orEmpty q "sid" = get N d "sid" ""
  /-- No encryption beside that of the transport. -/
  encryption : LinkParser.orEmpty q "encryption" = "" ∨ LinkParser.orEmpty q "encryption" = "none"
  /-- No obfuscated header. -/
  header : LinkParser.orEmpty q "headertype" ≠ "http"
  name : desktopName N d idnHost = phoneName q address

/-- The link says what both can say. -/
def Carried (N : DotNet) (J : Jvm) (link : String) : Prop :=
  PlainEndpoint N J link ∧ ∃ u d p, Uri.create N (DotNet.trim link) = some u ∧
    toDictionary N (options N u.query) = some d ∧ LinkParser.split J (Text.trim link) = some p ∧
    PlainOptions N J d p.q u.idnHost p.host

section
variable {N : DotNet} {J : Jvm} {O : OrgJson} {noiseItems : String → Option String} {link source tag : String} {r : Route}

/-- Two connections are the same when their fields are. -/
theorem wire_eq_iff (a b : Wire) : ({ a with address := "" } : Wire) = { b with address := "" } ↔
    a.port = b.port ∧ a.id = b.id ∧ a.encryption = b.encryption ∧ a.flow = b.flow ∧ a.network = b.network ∧
      a.header = b.header ∧ a.security = b.security ∧ a.serverName = b.serverName ∧ a.publicKey = b.publicKey ∧
      a.shortId = b.shortId := by
  simp only [Wire.mk.injEq, true_and]

/-- A default is not told from the value that it stands for. -/
theorem ifEmpty_eq_self_iff {t fallback : String} : Text.ifEmpty t fallback = fallback ↔ t = "" ∨ t = fallback := by
  rw [Text.ifEmpty]
  split
  · rename_i h
    exact iff_of_true rfl (.inl h)
  · rename_i h
    exact ⟨.inr, fun h' => h'.resolve_left h⟩

/-- The name of a server whose transport offers none. -/
theorem serverName_phone (p : LinkParser.Parts) :
    serverName (LinkParser.standardServer J p "vless" source) none "" = phoneName p.q p.host := by
  rw [serverName, phoneName, Text.ifEmpty_empty]
  rfl

/-- What both say of a server that the phone read: the two agree when the parts do. -/
theorem same_iff {p : LinkParser.Parts} {s : Server} (hs : s = LinkParser.standardServer J p "vless" source)
    (hr : r.security = "tls" ∨ r.security = "reality") :
    (∃ o, XrayConfigBuilder.outbound O J noiseItems s tag none false = some o ∧
      J.lowercase (wire r.outbound).address = J.lowercase (wire o).address ∧
      ({ wire r.outbound with address := "" } : Wire) = { wire o with address := "" }) ↔
    J.lowercase r.host = J.lowercase p.host ∧ r.port.toInt = p.port.toInt ∧ r.id = p.user ∧
      (LinkParser.orEmpty p.q "encryption" = "" ∨ LinkParser.orEmpty p.q "encryption" = "none") ∧
      r.flow = LinkParser.orEmpty p.q "flow" ∧
      LinkParser.networkOf (J.lowercase (LinkParser.orEmpty p.q "type")) = "tcp" ∧
      LinkParser.orEmpty p.q "headertype" ≠ "http" ∧
      r.security = LinkParser.securityOf "vless" (J.lowercase (LinkParser.orEmpty p.q "security")) ∧
      r.sni = phoneName p.q p.host ∧
      (r.security = "reality" → r.publicKey = LinkParser.orEmpty p.q "pbk" ∧
        r.shortId = LinkParser.orEmpty p.q "sid") := by
  -- the fields of a server are those of the link
  have hp : s.protocol = "vless" := by rw [hs]; rfl
  have hnetwork : s.network = LinkParser.networkOf (J.lowercase (LinkParser.orEmpty p.q "type")) := by rw [hs]; rfl
  have hheader : s.headerType = LinkParser.orEmpty p.q "headertype" := by rw [hs]; rfl
  have hsecurity : s.security = LinkParser.securityOf "vless" (J.lowercase (LinkParser.orEmpty p.q "security")) := by
    rw [hs]
    rfl
  have haddress : s.address = p.host := by rw [hs]; rfl
  have hport : s.port = p.port := by rw [hs]; rfl
  have hid : s.secret = p.user := by rw [hs]; rfl
  have hflow : s.flow = LinkParser.orEmpty p.q "flow" := by rw [hs]; rfl
  have hpbk : s.pbk = LinkParser.orEmpty p.q "pbk" := by rw [hs]; rfl
  have hsid : s.sid = LinkParser.orEmpty p.q "sid" := by rw [hs]; rfl
  have hcipher : s.encryption = Text.ifEmpty (LinkParser.orEmpty p.q "encryption") "none" := by rw [hs]; rfl
  rw [← hnetwork, ← hheader, ← hsecurity, ← haddress, ← hport, ← hid, ← hflow, ← hpbk, ← hsid]
  obtain ⟨o, ho, hsettings, hstream⟩ := outbound_phone hp J O noiseItems tag
  -- there is one outbound, so what is said of some is said of it
  have hone : (∃ o, XrayConfigBuilder.outbound O J noiseItems s tag none false = some o ∧
      J.lowercase (wire r.outbound).address = J.lowercase (wire o).address ∧
      ({ wire r.outbound with address := "" } : Wire) = { wire o with address := "" }) ↔
      J.lowercase (wire r.outbound).address = J.lowercase (wire o).address ∧
      ({ wire r.outbound with address := "" } : Wire) = { wire o with address := "" } := by
    rw [ho]
    exact ⟨fun ⟨o', ho', h⟩ => Option.some.inj ho' ▸ h, fun h => ⟨o, rfl, h⟩⟩
  rw [hone, wire_eq_iff]
  -- with TLS or REALITY both sides have a security to compare
  by_cases hsec : s.security = "tls" ∨ s.security = "reality"
  · rw [wire_desktop r hr, wire_phone hp hsettings hstream hsec]
    dsimp only
    have hencryption : "none" = Text.ifEmpty s.encryption "none" ↔
        LinkParser.orEmpty p.q "encryption" = "" ∨ LinkParser.orEmpty p.q "encryption" = "none" := by
      have hne : s.encryption ≠ "" := by
        rw [hcipher, Text.ifEmpty]
        split
        · decide
        · assumption
      rw [eq_comm, Text.ifEmpty_of_ne hne, hcipher, ifEmpty_eq_self_iff]
    have hname (htcp : s.network = "tcp") (hhttp : s.headerType ≠ "http") :
        serverName s none (transport O s).2 = phoneName p.q s.address := by
      rw [(carrier_transport hp O).hostSni htcp hhttp, haddress, hs]
      exact serverName_phone p
    constructor
    · rintro ⟨h1, h2, h3, henc, h5, htcp, hplain, hsame, hsni, hkey, hshort⟩
      have hhttp : s.headerType ≠ "http" := by
        intro hhttp
        rw [if_pos ⟨htcp.symm, hhttp⟩] at hplain
        exact absurd hplain (by decide)
      refine ⟨h1, h2, h3, hencryption.mp henc, h5, htcp.symm, hhttp, hsame, ?_, fun hreality => ?_⟩
      · rw [← hname htcp.symm hhttp]
        exact hsni
      · rw [← hsame, if_pos hreality, if_pos hreality] at hkey hshort
        exact ⟨hkey, hshort⟩
    · rintro ⟨h1, h2, h3, henc, h5, htcp, hhttp, hsame, hsni, hkeys⟩
      refine ⟨h1, h2, h3, hencryption.mpr henc, h5, htcp.symm, ?_, hsame, hsni.trans (hname htcp hhttp).symm, ?_, ?_⟩
      · exact (if_neg fun hboth => hhttp hboth.2).symm
      · rw [← hsame]
        split
        · rename_i hreality
          exact (hkeys hreality).1
        · rfl
      · rw [← hsame]
        split
        · rename_i hreality
          exact (hkeys hreality).2
        · rfl
  · -- without TLS on the phone nothing agrees
    have hnone : (wire o).security = "" := by
      show XrayConfigBuilder.textOf (sub o "streamSettings") "security" = ""
      rw [hstream, vlessStream_security hp, if_neg hsec]
    refine iff_of_false (fun h => ?_) fun h => ?_
    · have hsame : (wire r.outbound).security = "" := h.2.2.2.2.2.2.2.1.trans hnone
      rw [wire_desktop r hr] at hsame
      rw [show r.security = "" from hsame] at hr
      exact absurd hr (by decide)
    · have hsame : r.security = s.security := h.2.2.2.2.2.2.2.1
      rw [hsame] at hr
      exact hsec hr

/-- With a legal port what is left to check is the address. -/
theorem usable_iff {s : Server} {port : ℤ} (hport : s.port = Int32.ofInt port) (h1 : 1 ≤ port) (h2 : port ≤ 65535) :
    LinkParser.usable s = true ↔ Text.isBlank s.address = false ∧ Text.length s.address ≤ 253 := by
  have htoInt : (Int32.ofInt port).toInt = port := Int32.toInt_ofInt_of_le (by omega) (by omega)
  have hrange : 1 ≤ s.port ∧ s.port ≤ 65535 := by
    rw [Int32.le_iff_toInt_le, Int32.le_iff_toInt_le, hport, htoInt]
    exact ⟨h1, h2⟩
  rw [LinkParser.usable, decide_eq_true hrange, Bool.true_and, Bool.and_eq_true, Bool.not_eq_true', decide_eq_true_eq]

/-- What is known of a link that the desktop client accepts. -/
structure Accepted (N : DotNet) (link id : String) (u : Uri) (d : OrderedMap String String) : Prop where
  uri : Uri.create N (DotNet.trim link) = some u
  identified : identified N u = some id
  dictionary : toDictionary N (options N u.query) = some d
  checked : Checked N d

section
variable {id : String} {u : Uri} {d : OrderedMap String String}

/-- The desktop accepts a link only with an id that is a GUID. -/
theorem Accepted.guid (h : Accepted N link id u d) :
    N.guid (N.unescape (N.escaped (Uri.credentials (DotNet.trim link)))) = some id := by
  rw [← (Uri.read_of_create h.uri).userInfo]
  exact (identified_spec h.identified).2.2.2

/-- The parts the phone finds, unless a sign in the path misleads it. -/
theorem Accepted.split (h : Accepted N link id u d) (J : Jvm) (hpath : '@' ∉ (Uri.path (DotNet.trim link)).toList) :
    ∃ p, LinkParser.split J (Text.trim link) = some p ∧
      p.user = LinkParser.dec J (Uri.credentials (DotNet.trim link)) ∧
      p.host = LinkParser.bareHost (Uri.hostText (DotNet.trim link)) ∧ p.port = Int32.ofInt u.port := by
  obtain ⟨front, rest, htrim, hfront, hsigns, hends⟩ := phone_form h.uri h.identified h.dictionary h.checked
  rw [htrim]
  exact LinkParser.split_accepted J hfront hsigns hends hpath

/-- A path that misleads the phone shows in the UUID. -/
theorem Accepted.path (h : Accepted N link id u d) {p : LinkParser.Parts}
    (hsplit : LinkParser.split J (Text.trim link) = some p) (hid : id = p.user) :
    '@' ∉ (Uri.path (DotNet.trim link)).toList := by
  intro hat
  obtain ⟨front, rest, htrim, hfront, hsigns, hends⟩ := phone_form h.uri h.identified h.dictionary h.checked
  rw [htrim] at hsplit
  have huser := LinkParser.at_mem_user J hfront hsigns hends hat hsplit
  rw [← hid] at huser
  rcases N.guid_form _ _ h.guid '@' huser with hc | hc
  · exact absurd hc (by decide)
  · exact absurd hc (by decide)

/-- What agrees is carried. -/
theorem Accepted.carried (h : Accepted N link id u d)
    (hagrees : Agrees J O noiseItems (ofLink N u id d) link source tag) : Carried N J link := by
  obtain ⟨s, o, hs, ho, haddress, hsame⟩ := hagrees
  have hr : (ofLink N u id d).security = "tls" ∨ (ofLink N u id d).security = "reality" := h.checked.security
  obtain ⟨-, hpositive, hsmall, -⟩ := identified_spec h.identified
  -- the desktop writes `none`, and so has the phone's outbound to
  have hencryption : (wire o).encryption = "none" := by
    have hfield := ((wire_eq_iff _ _).mp hsame).2.2.1
    rw [← hfield, wire_desktop _ hr]
  have hvless := vless_of_encryption (LinkParser.parse_raw hs) ho hencryption
  obtain ⟨hown, hstandard, husable⟩ := LinkParser.parse_vless_iff.mp ⟨hs, hvless⟩
  obtain ⟨p, hsplit, hp⟩ := Option.map_eq_some_iff.mp hstandard
  obtain ⟨h1, -, hid, henc, hflow, htype, hhttp, hsecurity, hsni, hkeys⟩ :=
    (same_iff hp.symm hr).mp ⟨o, ho, haddress, hsame⟩
  have hpath := h.path hsplit hid
  obtain ⟨p', hsplit', huser, hhost, hport⟩ := h.split J hpath
  obtain rfl : p = p' := Option.some.inj (hsplit.symm.trans hsplit')
  -- both read one port, which makes the server usable
  have hsport : s.port = Int32.ofInt u.port := by
    rw [← hp]
    exact hport
  have hshort := (usable_iff hsport hpositive hsmall).mp husable
  have haddr : s.address = LinkParser.bareHost (Uri.hostText (DotNet.trim link)) := by
    rw [← hp]
    exact hhost
  rw [haddr] at hshort
  refine ⟨⟨hown, hpath, ?_, ⟨_, (Uri.read_of_create h.uri).names, ?_⟩, hshort⟩, u, d, p, h.uri, h.dictionary, hsplit, ?_⟩
  · rw [h.guid, ← huser, ← hid]
    rfl
  · rw [← hhost]
    exact h1
  · exact ⟨htype, hsecurity.symm, hflow.symm, fun hreality => ⟨(hkeys hreality).1.symm, (hkeys hreality).2.symm⟩, henc,
      hhttp, hsni⟩

/-- What is carried agrees, and can be expressed. -/
theorem Accepted.agrees (h : Accepted N link id u d) (hcarried : Carried N J link) :
    Agrees J O noiseItems (ofLink N u id d) link source tag ∧ ¬ Inexpressible J O link source := by
  obtain ⟨hend, u', d', p, hu', hd', hsplit, hopt⟩ := hcarried
  obtain rfl : u = u' := Option.some.inj (h.uri.symm.trans hu')
  obtain rfl : d = d' := Option.some.inj (h.dictionary.symm.trans hd')
  have hr : (ofLink N u id d).security = "tls" ∨ (ofLink N u id d).security = "reality" := h.checked.security
  obtain ⟨-, hpositive, hsmall, -⟩ := identified_spec h.identified
  obtain ⟨p', hsplit', huser, hhost, hport⟩ := h.split J hend.path
  obtain rfl : p = p' := Option.some.inj (hsplit.symm.trans hsplit')
  obtain ⟨names, hnames, haddress⟩ := hend.host
  obtain rfl : (u.host, u.idnHost) = names :=
    Option.some.inj ((Uri.read_of_create h.uri).names.symm.trans hnames)
  have hid : id = p.user := by
    rw [huser]
    exact Option.some.inj (h.guid.symm.trans hend.id)
  -- the phone parses the link, as it is a usable one
  have hparsed : LinkParser.parse J O link source = some (LinkParser.standardServer J p "vless" source) := by
    refine (LinkParser.parse_vless_iff.mpr ⟨hend.own, ?_, ?_⟩).1
    · rw [LinkParser.standard, hsplit, Option.map_some]
    · refine (usable_iff hport hpositive hsmall).mpr ?_
      show Text.isBlank p.host = false ∧ Text.length p.host ≤ 253
      rw [hhost]
      exact hend.short
  rw [← hhost] at haddress
  have hoption : ∃ o, XrayConfigBuilder.outbound O J noiseItems (LinkParser.standardServer J p "vless" source) tag none
      false = some o ∧ J.lowercase (wire (ofLink N u id d).outbound).address = J.lowercase (wire o).address ∧
        ({ wire (ofLink N u id d).outbound with address := "" } : Wire) = { wire o with address := "" } :=
    (same_iff rfl hr).mpr ⟨haddress, congrArg Int32.toInt hport.symm, hid, hopt.encryption, hopt.flow.symm, hopt.type, hopt.header,
      hopt.security.symm, hopt.name, fun hreality => ⟨(hopt.keys hreality).1.symm, (hopt.keys hreality).2.symm⟩⟩
  obtain ⟨o, ho, hsame⟩ := hoption
  refine ⟨⟨_, o, hparsed, ho, hsame⟩, fun hinexpressible => ?_⟩
  obtain ⟨s, hs, hother⟩ := hinexpressible
  rw [← Option.some.inj (hparsed.symm.trans hs)] at hother
  -- a cipher or a header would be the only thing that the desktop cannot express
  rcases hother with hcipher | hheader
  · exact hcipher (ifEmpty_eq_self_iff.mpr hopt.encryption)
  · exact hopt.header hheader.2

end

end

/-! ## Two links

Two links that differ in one option, checked with a library that does for ASCII what .NET does.
The second has an encryption of its own, and the desktop client drops it without a word. -/

/-- The sign of a UUID. -/
def guidSign (c : Char) : Bool :=
  c = '-' || c.isDigit || (97 ≤ c.toNat && c.toNat ≤ 102) || (65 ≤ c.toNat && c.toNat ≤ 70)

/-- The signs of a GUID, lowered, are letters, digits and hyphens. -/
theorem toLower_guidSign {c : Char} (h : guidSign c = true) : c.toLower.isAlphanum = true ∨ c.toLower = '-' := by
  have hall : ∀ n < 128, guidSign (Char.ofNat n) = true →
      (Char.ofNat n).toLower.isAlphanum = true ∨ (Char.ofNat n).toLower = '-' := by decide
  have hsmall : c.toNat < 128 := by
    simp only [guidSign, Bool.or_eq_true, Bool.and_eq_true, decide_eq_true_eq] at h
    rcases h with ((rfl | hdigit) | hlow) | hup
    · decide
    · have hle : c.toNat ≤ 57 := (Char.isDigit_iff_toNat.mp hdigit).2
      omega
    · omega
    · omega
  have hc := hall c.toNat hsmall
  rw [Char.ofNat_toNat] at hc
  exact hc h

/-- The laws, and of hosts and UUIDs the plain ones. -/
def asciiNet : DotNet where
  escaped s := s
  unescape := LinkParser.dec Jvm.ascii
  host s := if s = "" then none
    else some (.ofList (s.toList.map Char.toLower), .ofList ((LinkParser.bareHost s).toList.map Char.toLower))
  guid s := if ((Text.split s '-').map fun g => g.toList.length) = [8, 4, 4, 4, 12] ∧ s.toList.all guidSign then
      some (.ofList (s.toList.map Char.toLower)) else none
  upper := Char.toUpper
  escaped_plain _ _ := rfl
  unescape_plain _ h := UrlCodec.dec_of_no_escape Jvm.ascii h
  guid_empty := by decide
  guid_form s id h := by
    obtain ⟨⟨-, hsigns⟩, rfl⟩ := Option.ite_some_none_eq_some.mp h
    intro c hc
    rw [String.toList_ofList] at hc
    obtain ⟨x, hx, rfl⟩ := List.mem_map.mp hc
    exact toLower_guidSign (List.all_eq_true.mp hsigns x hx)
  upper_ascii _ _ := rfl

def sampleId : String := "00000000-0000-0000-0000-000000000001"

/-- The sample's network library unescapes as the phone does. -/
theorem unescape_asciiNet : asciiNet.unescape = LinkParser.dec Jvm.ascii := by rfl

theorem dec_sampleId : LinkParser.dec Jvm.ascii sampleId = sampleId :=
  UrlCodec.dec_of_no_escape Jvm.ascii (by decide)

theorem guid_sampleId : asciiNet.guid (asciiNet.unescape sampleId) = some (LinkParser.dec Jvm.ascii sampleId) := by
  rw [unescape_asciiNet, dec_sampleId]
  decide

/-- A link to one server with these options. -/
def sampleLink (query : String) : String := Uri.compose "vless" sampleId "example.com:443" "" query "Test"

section
variable {query : String}

/-- The sample's link has the parts it was put together from. -/
theorem signs_sample : Uri.Signs "vless" sampleId "example.com:443" "" := by
  refine ⟨by decide, ?_, ?_, fun _ _ => List.not_mem_nil, .inl rfl⟩
  · simp only [List.forall_mem_cons, List.not_mem_nil, false_imp_iff, implies_true, and_true]
    decide
  · simp only [List.forall_mem_cons, List.not_mem_nil, false_imp_iff, implies_true, and_true]
    decide

theorem ends_sample : Uri.Ends "example.com:443" "example.com" 443 :=
  ⟨⟨":443".toList, by decide, by decide⟩, by decide, by decide⟩

theorem sampleLink_ends (query : String) : ∃ m, (sampleLink query).toList = 'v' :: m ++ ['t'] := by
  have hscheme : "vless" = "v" ++ "less" := rfl
  have hname : "Test" = "Tes" ++ "t" := rfl
  refine ⟨("less" ++ "://" ++ (sampleId ++ "@" ++ "example.com:443" ++ "" ++ "?" ++ query ++ "#" ++ "Tes")).toList, ?_⟩
  have hfirst : "v".toList = ['v'] := rfl
  have hlast : "t".toList = ['t'] := rfl
  rw [sampleLink, Uri.compose, hscheme, hname]
  simp only [String.toList_append, List.append_assoc, hfirst, hlast, List.cons_append, List.nil_append]

theorem trim_sampleLink : Text.trim (sampleLink query) = sampleLink query := by
  obtain ⟨m, hm⟩ := sampleLink_ends query
  refine Text.trim_eq_self (fun x hx => ?_) (fun x hx => ?_)
  · rw [hm] at hx
    cases hx
    decide
  · rw [hm, List.getLast?_concat] at hx
    cases hx
    decide

theorem dotNet_trim_sampleLink : DotNet.trim (sampleLink query) = sampleLink query := by
  obtain ⟨m, hm⟩ := sampleLink_ends query
  have hfront : ('v' :: (m ++ ['t'])).dropWhile DotNet.isWhiteSpace = 'v' :: m ++ ['t'] :=
    List.dropWhile_cons_of_neg (by decide)
  have hback := List.rdropWhile_concat_neg DotNet.isWhiteSpace ('v' :: m) 't' (by decide)
  rw [DotNet.trim, hm, List.cons_append, hfront, hback, ← hm, String.ofList_toList]

/-- What `Uri` reads of it. -/
def sampleUri (query : String) : Uri :=
  ⟨"vless", sampleId, "example.com", "example.com", 443, "?" ++ query, "#Test"⟩

/-- `Uri` reads the sample's link, whatever its query. -/
theorem create_sampleLink (hquery : '#' ∉ query.toList) (hlength : Text.length (sampleLink query) < 0xFFF0) :
    Uri.create asciiNet (DotNet.trim (sampleLink query)) = some (sampleUri query) := by
  have hname : asciiNet.host "example.com" = some ("example.com", "example.com") := by decide
  rw [dotNet_trim_sampleLink, sampleLink, Uri.create_compose query "Test" signs_sample hquery (by decide) ends_sample
    hname hlength]
  rfl

theorem identified_sample : identified asciiNet (sampleUri query) = some sampleId := by
  have hguid : asciiNet.guid (asciiNet.unescape sampleId) = some sampleId := by
    rw [guid_sampleId, dec_sampleId]
  have hform : ¬((sampleUri query).scheme ≠ "vless" ∨ (sampleUri query).port < 1 ∨ 65535 < (sampleUri query).port) := by
    unfold sampleUri
    simp
  rw [identified, if_neg hform]
  unfold sampleUri
  rw [hguid]
  rfl

/-- The desktop accepts the link as soon as it accepts the query. -/
theorem parse_sampleLink {d : OrderedMap String String} (hquery : '#' ∉ query.toList)
    (hlength : Text.length (sampleLink query) < 0xFFF0) (hd : toDictionary asciiNet (options asciiNet ("?" ++ query)) = some d)
    (hchecked : Checked asciiNet d) :
    parse asciiNet (sampleLink query) = .ok (ofLink asciiNet (sampleUri query) sampleId d) := by
  exact parse_ok_iff.mpr ⟨_, _, d, create_sampleLink hquery hlength, identified_sample, hd, hchecked, rfl⟩

theorem plain_sampleLink (hquery : '#' ∉ query.toList) : PlainEndpoint asciiNet Jvm.ascii (sampleLink query) := by
  obtain ⟨hcredentials, hendpoint⟩ := Uri.credentials_compose query "Test" signs_sample hquery
  have hhost : Uri.hostText (sampleLink query) = "example.com" := by
    rw [Uri.hostText, sampleLink, hendpoint]
    decide
  have hpath : Uri.path (sampleLink query) = "" := by
    rw [Uri.path, sampleLink, Uri.hierarchy_compose query "Test" signs_sample hquery]
    decide
  have hown : Text.startsWithIgnoreCase Jvm.ascii (sampleLink query) "vless://" = true := by
    have hcode : ("vless://".toList.all fun c => decide (c.toNat < 128)) = true := by decide
    rw [Text.startsWithIgnoreCase, sampleLink, Uri.compose]
    simp only [String.toList_append]
    exact LinkParser.startsIgnoreCase_append Jvm.ascii (fun c hc => of_decide_eq_true (List.all_eq_true.mp hcode c hc)) _
  refine ⟨?_, ?_, ?_, ⟨("example.com", "example.com"), ?_, ?_⟩, ?_⟩
  · rw [trim_sampleLink]
    exact hown
  · rw [dotNet_trim_sampleLink, hpath]
    decide
  · rw [dotNet_trim_sampleLink, sampleLink, hcredentials]
    exact guid_sampleId
  · rw [dotNet_trim_sampleLink, hhost]
    decide
  · rw [dotNet_trim_sampleLink, hhost]
    decide
  · rw [dotNet_trim_sampleLink, hhost]
    decide

/-- The phone cuts it into the same parts. -/
theorem split_sampleLink (hquery : '#' ∉ query.toList) : ∃ name, LinkParser.split Jvm.ascii (sampleLink query) =
    some { user := sampleId, host := "example.com", port := 443, q := LinkParser.query Jvm.ascii query, name } := by
  have hfront : ':' ∉ "vless".toList := by decide
  have hmain : '#' ∉ (sampleId ++ "@" ++ "example.com:443").toList ∧
      '?' ∉ (sampleId ++ "@" ++ "example.com:443").toList := by
    decide
  obtain ⟨name, hname⟩ : ∃ name, LinkParser.split Jvm.ascii _ = _ :=
    LinkParser.split_query Jvm.ascii hfront hmain.1 hmain.2
  have hlink : sampleLink query = "vless" ++ "://" ++ (sampleId ++ "@" ++ "example.com:443" ++ "?" ++ (query ++ "#" ++ "Test")) := by
    rw [sampleLink, Uri.compose]
    simp only [String.append_assoc, String.empty_append]
  have hend : Text.trimEnd (sampleId ++ "@" ++ "example.com:443") '/' = sampleId ++ "@" ++ "example.com:443" := by
    decide
  have hat : Text.hasChar (sampleId ++ "@" ++ "example.com:443") '@' = true := Text.hasChar_append_self rfl
  have huser : LinkParser.dec Jvm.ascii (Text.substringBeforeLast (sampleId ++ "@" ++ "example.com:443") '@') = sampleId := by
    have hbefore : Text.substringBeforeLast (sampleId ++ "@" ++ "example.com:443") '@' = sampleId := by decide
    rw [hbefore, dec_sampleId]
  have hport : LinkParser.hostPort Jvm.ascii (Text.substringAfterLast (sampleId ++ "@" ++ "example.com:443") '@') =
      some ("example.com", 443) := by
    decide
  refine ⟨name, ?_⟩
  rw [hlink, hname, hend, hport, Option.map_some, if_pos hat, huser, Text.substringBefore_append rfl hquery]

/-- A cipher in the query cannot be told in the desktop's outbound. -/
theorem inexpressible_sampleLink {q : OrderedMap String String} (hquery : '#' ∉ query.toList)
    (hq : LinkParser.query Jvm.ascii query = q)
    (hcipher : LinkParser.orEmpty q "encryption" ≠ "" ∧ LinkParser.orEmpty q "encryption" ≠ "none") (O : OrgJson)
    (source : String) : Inexpressible Jvm.ascii O (sampleLink query) source := by
  obtain ⟨name, hsplit⟩ := split_sampleLink hquery
  rw [hq] at hsplit
  have hstandard : LinkParser.standard Jvm.ascii (Text.trim (sampleLink query)) "vless" source =
      some (LinkParser.standardServer Jvm.ascii ⟨sampleId, "example.com", 443, q, name⟩ "vless" source) := by
    rw [LinkParser.standard, trim_sampleLink, hsplit, Option.map_some]
  have hport : (443 : Int32) = Int32.ofInt 443 := by decide
  have haddress : Text.isBlank "example.com" = false ∧ Text.length "example.com" ≤ 253 := by decide
  have husable : LinkParser.usable
      (LinkParser.standardServer Jvm.ascii ⟨sampleId, "example.com", 443, q, name⟩ "vless" source) = true :=
    (usable_iff hport (by omega) (by omega)).mpr haddress
  refine ⟨_, (LinkParser.parse_vless_iff.mpr ⟨(plain_sampleLink hquery).own, hstandard, husable⟩).1, .inl fun hnone => ?_⟩
  exact (ifEmpty_eq_self_iff.mp hnone).elim hcipher.1 hcipher.2

/-- What the sample's query says is all that the two sides have to agree on. -/
theorem carried_sampleLink {d q : OrderedMap String String} (hquery : '#' ∉ query.toList)
    (hlength : Text.length (sampleLink query) < 0xFFF0)
    (hd : toDictionary asciiNet (options asciiNet ("?" ++ query)) = some d) (hq : LinkParser.query Jvm.ascii query = q) :
    Carried asciiNet Jvm.ascii (sampleLink query) ↔ PlainOptions asciiNet Jvm.ascii d q "example.com" "example.com" := by
  obtain ⟨name, hsplit⟩ := split_sampleLink hquery
  have hcreate := create_sampleLink hquery hlength
  constructor
  · rintro ⟨-, u, d', p, hu, hd', hp, hopt⟩
    rw [trim_sampleLink] at hp
    obtain rfl := Option.some.inj (hcreate.symm.trans hu)
    obtain rfl := Option.some.inj (hd.symm.trans hd')
    obtain rfl := Option.some.inj (hsplit.symm.trans hp)
    rw [← hq]
    exact hopt
  · intro hopt
    have htrim : LinkParser.split Jvm.ascii (Text.trim (sampleLink query)) = _ := trim_sampleLink.symm ▸ hsplit
    exact ⟨plain_sampleLink hquery, _, d, _, hcreate, hd, htrim, hq.symm ▸ hopt⟩

end

/-- The checks pass where TLS is asked for and the other options they look at are left out. -/
theorem checked_sample {d : OrderedMap String String} (hsecurity : d.get? (asciiNet.fold "security") = some "tls")
    (hother : ∀ k ∈ ["type", "allowInsecure", "flow"], d.get? (asciiNet.fold k) = none) : Checked asciiNet d := by
  have htls : get asciiNet d "security" "none" = "tls" := by rw [get, hsecurity, Option.getD_some]
  have hget {k : String} (hk : k ∈ ["type", "allowInsecure", "flow"]) (fallback : String) :
      get asciiNet d k fallback = fallback := by
    rw [get, hother k hk, Option.getD_none]
  refine ⟨.inl (hget (by simp) _), .inl htls, ?_, fun hreality => ?_, .inl (hget (by simp) _)⟩
  · rw [hget (by simp)]
    decide
  · rw [htls] at hreality
    exact absurd hreality (by decide)

/-- What the desktop client makes of either link. -/
def tlsRoute : Route := ⟨"Test", "example.com", 443, sampleId, "tls", "example.com", "chrome", "", "", ""⟩

def tlsLink : String := sampleLink "security=tls"

/-- What is carried, for an ordinary link. -/
theorem carried_tls : parse asciiNet tlsLink = .ok tlsRoute ∧ Carried asciiNet Jvm.ascii tlsLink := by
  have hquery : '#' ∉ "security=tls".toList := by decide
  have hlength : Text.length tlsLink < 0xFFF0 := by decide +kernel
  have hd : toDictionary asciiNet (options asciiNet ("?" ++ "security=tls")) = some (.ofList [("SECURITY", "tls")]) := by
    decide +kernel
  have hq : LinkParser.query Jvm.ascii "security=tls" = .ofList [("security", "tls")] := by decide +kernel
  have hchecked : Checked asciiNet (.ofList [("SECURITY", "tls")]) :=
    checked_sample (by decide +kernel) (by decide +kernel)
  have hroute : ofLink asciiNet (sampleUri "security=tls") sampleId (.ofList [("SECURITY", "tls")]) = tlsRoute := by
    decide +kernel
  refine ⟨(parse_sampleLink hquery hlength hd hchecked).trans (congrArg _ hroute),
    (carried_sampleLink hquery hlength hd hq).mpr ?_⟩
  exact ⟨by decide +kernel, by decide +kernel, by decide +kernel, fun h => absurd h (by decide +kernel), by decide +kernel,
    by decide +kernel, by decide +kernel⟩

/-- The options of a link with an encryption of its own. -/
def cipherQuery : String := "security=tls&encryption=mlkem768x25519plus.native.0rtt.key"

def cipherLink : String := sampleLink cipherQuery

end Route

end VlessCard
