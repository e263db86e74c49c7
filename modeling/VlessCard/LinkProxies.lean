/-
`ss`, `socks` and `wireguard` links written and read again.

The first two put the credentials in Base64 before the endpoint, the third writes
them as the parameters of a query. The reader of an `ss` or `socks` link guesses in
which form it finds the credentials; on what `toLink` writes every guess is right,
because no symbol of Base64 is a sign a link is cut at, and none is an escape.
-/
import VlessCard.LinkVmess

set_option autoImplicit false

namespace VlessCard.LinkParser

variable (J : Jvm) (O : OrgJson)

/-! ## Credentials in Base64

Base64 has only letters, digits and a few signs, none of which a link is cut at. So credentials
that contain such signs can be put in front of an endpoint. -/

/-- The signs a link is cut at are no symbols of Base64. -/
theorem not_mem_base64 {c : Char} (h : c ∉ Base64.STD) (hpad : c ≠ '=') (text : String) :
    c ∉ (Base64.encode text).toList := by
  intro hmem
  rcases Base64.mem_encode hmem with hc | hc
  · exact h hc
  · exact hpad hc

/-- Base64 has nothing in it that percent decoding would touch. -/
theorem dec_base64 (text : String) : dec J (Base64.encode text) = Base64.encode text :=
  UrlCodec.dec_of_no_escape J (not_mem_base64 (by decide) (by decide) text)

/-- Credentials in Base64 before an endpoint. -/
def credentials (cred endpoint : String) : String := Base64.encode cred ++ "@" ++ endpoint

section
variable {cred endpoint : String} {c : Char}

/-- Credentials in base64 keep a delimiter out, so the link is cut where the printer put it. -/
theorem not_mem_credentials (h : c ∉ Base64.STD) (hpad : c ≠ '=') (hat : c ≠ '@')
    (he : c ∉ endpoint.toList) : c ∉ (credentials cred endpoint).toList := by
  refine Text.not_mem_append (Text.not_mem_append (not_mem_base64 h hpad cred) ?_) he
  exact fun hmem => hat (List.mem_singleton.mp hmem)

theorem trimEnd_credentials {d : Char} (hlast : endpoint.toList.getLast? = some d) (hd : d ≠ '/') :
    Text.trimEnd (credentials cred endpoint) '/' = credentials cred endpoint := by
  apply Text.trimEnd_of_getLast?
  rw [credentials, String.toList_append, List.getLast?_append, hlast]
  simpa using hd

end

/-! ## `ss`

A Shadowsocks link has the method and the password in its credentials, cut at the first colon. A
method is one of a list, and none of these has a colon. -/

/-- A link with this scheme goes to the parser of Shadowsocks. -/
theorem parse_shadowsocks {rest : String} (htrim : Text.trim ("ss://" ++ rest) = "ss://" ++ rest)
    (source : String) :
    parse J O ("ss://" ++ rest) source = (shadowsocks J ("ss://" ++ rest) source).filter usable := by
  have hother : ∀ p, differ p.toList "ss://".toList = true →
      Text.startsWithIgnoreCase J ("ss://" ++ rest) p = false := fun p h => starts_other J rfl h
  have hown : Text.startsWithIgnoreCase J ("ss://" ++ rest) "ss://" = true :=
    starts_own J rfl rfl (by decide)
  unfold parse
  simp only [htrim, hother "vless://" (by decide), hother "trojan://" (by decide),
    hother "hysteria2://" (by decide), hother "hy2://" (by decide), hother "tuic://" (by decide),
    hother "anytls://" (by decide), hother "vmess://" (by decide), hown, Bool.or_false, if_true,
    Bool.false_eq_true, if_false]

/-- The known methods are in lower case and hold no colon. -/
theorem ss_methods_plain : ∀ m ∈ SS_METHODS, ':' ∉ m.toList
    ∧ m.toList.all (fun c => c.toNat < 128) = true ∧ m.toList.map Char.toLower = m.toList := by
  decide

/-- What `parse` guarantees of a server `shadowsocks` made. -/
structure SsForm (s : Server) : Prop where
  name : Text.trim s.name ≠ ""
  method : s.method ∈ SS_METHODS
  shape : s = { name := s.name, protocol := "shadowsocks", address := s.address, port := s.port
                secret := s.secret, method := s.method, source := s.source }

section
variable {J O}

theorem shadowsocks_form {link source : String} {s : Server}
    (h : shadowsocks J link source = some s) : SsForm s ∧ CleanHost s.address := by
  obtain ⟨name, core, cred, rest, ⟨host, port⟩, hparts, hhp, hname, hs⟩ := shadowsocks_cases h
  obtain ⟨hmethod, rfl⟩ := ssServer_cases hs
  refine ⟨⟨trim_ifEmpty_ne (c := ':') hname (by simp) (by decide), hmethod, rfl⟩, ?_⟩
  -- the endpoint is what follows the last `@`, of the link or of the decoded link
  obtain ⟨text, htext⟩ : ∃ text, rest = Text.substringAfterLast text '@' := by
    unfold ssParts at hparts
    split at hparts
    · obtain ⟨-, rfl⟩ := Prod.mk.inj (Option.some.inj hparts)
      exact ⟨_, rfl⟩
    · obtain ⟨full, _, heq⟩ := Option.map_eq_some_iff.mp hparts
      obtain ⟨-, rfl⟩ := Prod.mk.inj heq
      exact ⟨_, rfl⟩
  rw [htext] at hhp
  exact (cleanHost_of_hostPort J hhp).1

theorem toLink_shadowsocks {s : Server} (hp : s.protocol = "shadowsocks") :
    toLink O s = "ss://" ++ (credentials (s.method ++ ":" ++ s.secret) (bare s) ++ "#" ++ enc s.name) := by
  unfold toLink
  rw [hp, if_neg (by decide), if_neg (by decide), if_neg (by decide), if_pos rfl]
  simp only [credentials, String.append_assoc]

/-- **Which server a written `ss` link is read as.** -/
theorem shadowsocks_toLink {s : Server} (hp : s.protocol = "shadowsocks") (hf : SsForm s)
    (hc : CleanHost s.address) (hhash : '#' ∉ s.address.toList) (hquest : '?' ∉ s.address.toList)
    (hport : 0 ≤ s.port.toInt) :
    shadowsocks J (toLink O s) s.source = (hostPort J (bare s)).map fun hp =>
      { s with name := Text.trim s.name, address := hp.1, port := hp.2 } := by
  obtain ⟨d, hlast, hd⟩ := getLast?_append_port (s.address ++ ":") hport
  obtain ⟨hcolon, hascii, hlower⟩ := ss_methods_plain s.method hf.method
  -- the credentials are cut at the one at sign
  have hscheme : "ss://" ++ (credentials (s.method ++ ":" ++ s.secret) (bare s) ++ "#" ++ enc s.name)
      = "ss" ++ "://" ++ (credentials (s.method ++ ":" ++ s.secret) (bare s) ++ "#" ++ enc s.name) :=
    rfl
  have hmain : '#' ∉ (credentials (s.method ++ ":" ++ s.secret) (bare s)).toList :=
    not_mem_credentials (by decide) (by decide) (by decide)
      (not_mem_bare hport hhash (by decide) (by decide))
  have hnoquery : '?' ∉ (credentials (s.method ++ ":" ++ s.secret) (bare s)).toList :=
    not_mem_credentials (by decide) (by decide) (by decide)
      (not_mem_bare hport hquest (by decide) (by decide))
  have hat : '@' ∉ (bare s).toList := not_mem_bare hport hc.atSign (by decide) (by decide)
  -- with a method there is a colon, so the credentials are not empty
  have hcred : s.method ++ ":" ++ s.secret ≠ "" := by
    intro h0
    have hmem : ':' ∈ (s.method ++ ":" ++ s.secret).toList := by simp
    rw [h0] at hmem
    cases hmem
  have hparts : ssParts J (credentials (s.method ++ ":" ++ s.secret) (bare s))
      = some (s.method ++ ":" ++ s.secret, bare s) := by
    unfold ssParts credentials
    simp only [Text.hasChar_append_self (d := "@") (c := '@') rfl, if_true,
      Text.substringBeforeLast_append (d := "@") (c := '@') rfl hat,
      Text.substringAfterLast_append (d := "@") (c := '@') rfl hat, dec_base64,
      Base64.decodeToString_encode hcred, Option.getD_some]
  have htrim : Text.trimEnd (credentials (s.method ++ ":" ++ s.secret) (bare s)) '/'
      = credentials (s.method ++ ":" ++ s.secret) (bare s) := trimEnd_credentials hlast hd
  -- the method is read back in lower case, which it was in already
  have hserver : ∀ hp, ssServer J (Text.trim s.name) (s.method ++ ":" ++ s.secret) hp s.source
      = some { s with name := Text.trim s.name, address := hp.1, port := hp.2 } := by
    intro hp
    have hmethod : J.lowercase s.method = s.method := lowercase_const hascii hlower
    unfold ssServer
    simp only [Text.substringBefore_append (d := ":") (c := ':') rfl hcolon,
      Text.substringAfter_append (d := ":") (c := ':') rfl hcolon, hmethod, hf.method,
      not_true_eq_false, if_false, Text.ifEmpty_of_ne hf.name]
    rw [hf.shape]
  unfold shadowsocks
  rw [toLink_shadowsocks hp, hscheme]
  simp only [Text.substringAfterStr_append (d := "://") (c := ':') rfl
      (by decide : ':' ∉ "ss".toList),
    Text.hasChar_append_self (d := "#") (c := '#') rfl, if_true,
    Text.substringBefore_append (d := "#") (c := '#') rfl hmain,
    Text.substringAfter_append (d := "#") (c := '#') rfl hmain, UrlCodec.dec_enc,
    Text.hasChar_eq_false_iff.mpr hnoquery, Bool.false_eq_true, if_false,
    Text.substringBefore_of_not_mem hnoquery, htrim, hparts, Option.bind_some]
  rw [if_neg (by simp [orEmpty, OrderedMap.get?, OrderedMap.empty]), Option.map_eq_bind]
  exact congrArg (fun f => (hostPort J (bare s)).bind f) (funext hserver)

/-- **Read again, a printed link gives the server**, unless its address starts with a bracket. -/
theorem parse_toLink_shadowsocks {s : Server} (hp : s.protocol = "shadowsocks") (hf : SsForm s)
    (hc : CleanHost s.address) (hhash : '#' ∉ s.address.toList) (hquest : '?' ∉ s.address.toList)
    (hu : usable s = true) :
    parse J O (toLink O s) s.source = if Text.startsWith s.address "[" = true then none
      else some { s with name := Text.trim s.name } := by
  have hname : s.name ≠ "" := by
    intro h0
    exact hf.name (by rw [h0]; rfl)
  have hlink : toLink O s
      = ("ss://" ++ (credentials (s.method ++ ":" ++ s.secret) (bare s) ++ "#")) ++ enc s.name := by
    rw [toLink_shadowsocks hp]
    simp only [String.append_assoc]
  have htrim : Text.trim (toLink O s) = toLink O s := by
    refine trim_named (c := 's') hlink ?_ (by decide) hname
    rw [String.toList_append]
    rfl
  rw [toLink_shadowsocks hp] at htrim ⊢
  rw [parse_shadowsocks J O htrim, ← toLink_shadowsocks (O := O) hp,
    shadowsocks_toLink hp hf hc hhash hquest (port_nonneg hu),
    hostPort_bareEndpoint J hc (port_nonneg hu)]
  split
  · rfl
  · exact filter_usable hu rfl rfl

/-! ## `socks`

The credentials of a `socks` link are plain if they have a colon, and Base64 otherwise. The
printer always writes Base64, where a user without a password gets a colon inside. -/

theorem parse_socks {rest : String} (htrim : Text.trim ("socks://" ++ rest) = "socks://" ++ rest)
    (source : String) :
    parse J O ("socks://" ++ rest) source = (socks J ("socks://" ++ rest) source).filter usable := by
  have hother : ∀ p, differ p.toList "socks://".toList = true →
      Text.startsWithIgnoreCase J ("socks://" ++ rest) p = false := fun p h => starts_other J rfl h
  have hown : Text.startsWithIgnoreCase J ("socks://" ++ rest) "socks://" = true :=
    starts_own J rfl rfl (by decide)
  unfold parse
  simp only [htrim, hother "vless://" (by decide), hother "trojan://" (by decide),
    hother "hysteria2://" (by decide), hother "hy2://" (by decide), hother "tuic://" (by decide),
    hother "anytls://" (by decide), hother "vmess://" (by decide), hother "ss://" (by decide),
    hother "wireguard://" (by decide), hother "wg://" (by decide), hown, Bool.or_false,
    Bool.true_or, if_true, Bool.false_eq_true, if_false]

/-- What `parse` guarantees of a server `socks` made. -/
structure SocksForm (s : Server) : Prop where
  name : Text.trim s.name ≠ ""
  user : ':' ∉ s.user.toList
  shape : s = { name := s.name, protocol := "socks", address := s.address, port := s.port
                secret := s.secret, user := s.user, source := s.source }

theorem socks_form {link source : String} {s : Server} (h : socks J link source = some s) :
    SocksForm s ∧ CleanHost s.address ∧ '#' ∉ s.address.toList ∧ '?' ∉ s.address.toList := by
  obtain ⟨p, hp, rfl⟩ := Option.map_eq_some_iff.mp h
  obtain ⟨hclean, hhash, hquest, hname⟩ := split_spec J hp
  refine ⟨⟨?_, ?_, rfl⟩, hclean, hhash, hquest⟩
  · exact trim_ifEmpty_ne (c := 'S') hname (by simp) (by decide)
  · show ':' ∉ (if Text.hasChar (socksCred p.user) ':' then
      Text.substringBefore (socksCred p.user) ':' else "").toList
    split
    · rw [Text.substringBefore, String.toList_ofList]
      exact Chars.not_mem_before ':' _
    · decide

/-- The part of a `socks` link before the name. -/
def socksMain (s : Server) : String :=
  if s.user ≠ "" ∨ s.secret ≠ "" then credentials (s.user ++ ":" ++ s.secret) (bare s) else bare s

theorem toLink_socks {s : Server} (hp : s.protocol = "socks") :
    toLink O s = "socks://" ++ (socksMain s ++ "#" ++ enc s.name) := by
  unfold toLink socksMain
  rw [hp, if_neg (by decide), if_neg (by decide), if_pos rfl]
  split
  · simp only [credentials, String.append_assoc]
  · simp only [String.append_assoc, String.empty_append]

/-- Credentials in Base64 hold no colon, so they are decoded. -/
theorem socksCred_base64 {cred : String} (h : cred ≠ "") :
    socksCred (Base64.encode cred) = cred := by
  have hcolon : Text.hasChar (Base64.encode cred) ':' = false :=
    Text.hasChar_eq_false_iff.mpr (not_mem_base64 (by decide) (by decide) cred)
  unfold socksCred
  rw [if_neg (Base64.encode_ne_empty h), hcolon, if_neg (by decide), Base64.decodeToString_encode h,
    Option.getD_some]

/-- **Which server a written `socks` link is read as.** -/
theorem socks_toLink {s : Server} (hp : s.protocol = "socks") (hf : SocksForm s)
    (hc : CleanHost s.address) (hhash : '#' ∉ s.address.toList) (hquest : '?' ∉ s.address.toList)
    (hport : 0 ≤ s.port.toInt) :
    socks J (toLink O s) s.source = (hostPort J (bare s)).map fun hp =>
      { s with name := Text.trim s.name, address := hp.1, port := hp.2 } := by
  obtain ⟨d, hlast, hd⟩ := getLast?_append_port (s.address ++ ":") hport
  have hlast' : (bare s).toList.getLast? = some d := hlast
  -- the endpoint has no delimiter of the link
  have hbare : ∀ c ∈ ['#', '?', '@'], c ∉ (bare s).toList := by
    intro c hmem
    simp only [List.mem_cons, List.not_mem_nil, or_false] at hmem
    rcases hmem with rfl | rfl | rfl
    · exact not_mem_bare hport hhash (by decide) (by decide)
    · exact not_mem_bare hport hquest (by decide) (by decide)
    · exact not_mem_bare hport hc.atSign (by decide) (by decide)
  have hscheme : "socks://" ++ (socksMain s ++ "#" ++ enc s.name)
      = "socks" ++ "://" ++ (socksMain s ++ "#" ++ enc s.name) := rfl
  rw [toLink_socks hp, hscheme, socks]
  by_cases hcred : s.user ≠ "" ∨ s.secret ≠ ""
  · -- the credentials come back out of Base64 and are cut at their first colon
    have hmain : socksMain s = credentials (s.user ++ ":" ++ s.secret) (bare s) := if_pos hcred
    have hquest' : '?' ∉ (credentials (s.user ++ ":" ++ s.secret) (bare s)).toList :=
      not_mem_credentials (by decide) (by decide) (by decide) (hbare '?' (by decide))
    have hne : s.user ++ ":" ++ s.secret ≠ "" := by
      intro h0
      have hmem : ':' ∈ (s.user ++ ":" ++ s.secret).toList := by simp
      rw [h0] at hmem
      cases hmem
    rw [hmain, split_named J (by decide) (not_mem_credentials (by decide) (by decide) (by decide)
      (hbare '#' (by decide))), Text.substringBefore_of_not_mem hquest',
      trimEnd_credentials hlast' hd, Option.map_map]
    simp only [credentials, Text.hasChar_append_self (d := "@") (c := '@') rfl, if_true,
      Text.substringBeforeLast_append (d := "@") (c := '@') rfl (hbare '@' (by decide)),
      Text.substringAfterLast_append (d := "@") (c := '@') rfl (hbare '@' (by decide)), dec_base64]
    refine congrArg (fun f => (hostPort J (bare s)).map f) (funext fun hp => ?_)
    show socksServer _ s.source = _
    unfold socksServer
    simp only [socksCred_base64 hne, Text.hasChar_append_self (d := ":") (c := ':') rfl, if_true,
      Text.substringBefore_append (d := ":") (c := ':') rfl hf.user,
      Text.substringAfter_append (d := ":") (c := ':') rfl hf.user, Text.ifEmpty_of_ne hf.name]
    rw [hf.shape]
  · -- without credentials nothing stands before the endpoint
    rw [not_or, not_not, not_not] at hcred
    have hmain : socksMain s = bare s := if_neg (by simp [hcred])
    have hnoat : Text.hasChar (bare s) '@' = false :=
      Text.hasChar_eq_false_iff.mpr (hbare '@' (by decide))
    have htrim : Text.trimEnd (bare s) '/' = bare s := by
      apply Text.trimEnd_of_getLast?
      rw [hlast']
      simpa using hd
    rw [hmain, split_named J (by decide) (hbare '#' (by decide)),
      Text.substringBefore_of_not_mem (hbare '?' (by decide)), htrim, Option.map_map]
    simp only [hnoat, Bool.false_eq_true, if_false,
      Text.substringAfterLast_of_not_mem (hbare '@' (by decide))]
    refine congrArg (fun f => (hostPort J (bare s)).map f) (funext fun hp => ?_)
    show socksServer _ s.source = _
    unfold socksServer
    have hnone : socksCred "" = "" := if_pos rfl
    have hcolon : Text.hasChar "" ':' = false := by decide
    simp only [hnone, hcolon, Bool.false_eq_true, if_false, Text.ifEmpty_of_ne hf.name]
    rw [hf.shape, hcred.1, hcred.2]

theorem parse_toLink_socks {s : Server} (hp : s.protocol = "socks") (hf : SocksForm s)
    (hc : CleanHost s.address) (hhash : '#' ∉ s.address.toList) (hquest : '?' ∉ s.address.toList)
    (hu : usable s = true) :
    parse J O (toLink O s) s.source = if Text.startsWith s.address "[" = true then none
      else some { s with name := Text.trim s.name } := by
  have hname : s.name ≠ "" := by
    intro h0
    exact hf.name (by rw [h0]; rfl)
  have hlink : toLink O s = ("socks://" ++ (socksMain s ++ "#")) ++ enc s.name := by
    rw [toLink_socks hp]
    simp only [String.append_assoc]
  have htrim : Text.trim (toLink O s) = toLink O s := by
    refine trim_named (c := 's') hlink ?_ (by decide) hname
    rw [String.toList_append]
    rfl
  rw [toLink_socks hp] at htrim ⊢
  rw [parse_socks htrim, ← toLink_socks (O := O) hp,
    socks_toLink hp hf hc hhash hquest (port_nonneg hu), hostPort_bareEndpoint J hc (port_nonneg hu)]
  split
  · rfl
  · exact filter_usable hu rfl rfl

/-! ## `wireguard`

A WireGuard link has its keys and addresses as parameters of the query. The round trip of all
three kinds is stated together at the end, since they fail for the same reason: an address that
begins with a bracket. -/

theorem parse_wireguard {rest : String}
    (htrim : Text.trim ("wireguard://" ++ rest) = "wireguard://" ++ rest) (source : String) :
    parse J O ("wireguard://" ++ rest) source
      = (wireguard J ("wireguard://" ++ rest) source).filter usable := by
  have hother : ∀ p, differ p.toList "wireguard://".toList = true →
      Text.startsWithIgnoreCase J ("wireguard://" ++ rest) p = false :=
    fun p h => starts_other J rfl h
  have hown : Text.startsWithIgnoreCase J ("wireguard://" ++ rest) "wireguard://" = true :=
    starts_own J rfl rfl (by decide)
  unfold parse
  simp only [htrim, hother "vless://" (by decide), hother "trojan://" (by decide),
    hother "hysteria2://" (by decide), hother "hy2://" (by decide), hother "tuic://" (by decide),
    hother "anytls://" (by decide), hother "vmess://" (by decide), hother "ss://" (by decide), hown,
    Bool.or_false, Bool.true_or, if_true, Bool.false_eq_true, if_false]

/-- What `parse` guarantees of a server `wireguard` made. -/
structure WireguardForm (s : Server) : Prop where
  name : Text.trim s.name ≠ ""
  localAddress : ' ' ∉ s.localAddress.toList
  reserved : ' ' ∉ s.reserved.toList
  shape : s = { name := s.name, protocol := "wireguard", address := s.address, port := s.port
                secret := s.secret, pbk := s.pbk, localAddress := s.localAddress
                reserved := s.reserved, mtu := s.mtu, psk := s.psk, network := "udp"
                source := s.source }

/-- Removing blanks, character by character. -/
theorem toList_removeSpaces (t : String) :
    (Text.replace t " " "").toList = t.toList.flatMap (fun x => if x = ' ' then [] else [x]) := by
  have hspace : " ".toList = [' '] := rfl
  have hempty : "".toList = [] := rfl
  rw [Text.replace, String.toList_ofList, hspace, hempty, Chars.replaceGo_singleton]

theorem not_mem_removeSpaces (t : String) : ' ' ∉ (Text.replace t " " "").toList := by
  rw [toList_removeSpaces]
  intro h
  obtain ⟨x, _, hx⟩ := List.mem_flatMap.mp h
  split at hx
  · cases hx
  · rename_i hne
    exact hne (List.mem_singleton.mp hx).symm

theorem removeSpaces_of_not_mem {t : String} (h : ' ' ∉ t.toList) : Text.replace t " " "" = t := by
  rw [Text.replace, Chars.replaceGo_of_not_mem (c := ' ') rfl h, String.ofList_toList]

/-- What a WireGuard link leaves in a server: lists without blanks, numbers without a sign. -/
theorem wireguard_form {link source : String} {s : Server} (h : wireguard J link source = some s) :
    WireguardForm s ∧ CleanHost s.address ∧ '#' ∉ s.address.toList ∧ '?' ∉ s.address.toList := by
  obtain ⟨p, hp, h⟩ := Option.bind_eq_some_iff.mp h
  obtain ⟨pub, _, rfl⟩ := Option.map_eq_some_iff.mp h
  obtain ⟨hclean, hhash, hquest, hname⟩ := split_spec J hp
  refine ⟨⟨?_, ?_, ?_, rfl⟩, hclean, hhash, hquest⟩
  · exact trim_ifEmpty_ne (c := 'W') hname (by simp) (by decide)
  · exact not_mem_removeSpaces _
  · exact not_mem_removeSpaces _

/-- Every parameter of a `wireguard` link, under the key it is looked up by. -/
def wireguardSpecs (s : Server) : List (String × Option String) :=
  [("publickey", opt s.pbk), ("address", opt s.localAddress), ("reserved", opt s.reserved),
    ("mtu", if 0 < s.mtu then some (toString s.mtu.toInt) else none), ("presharedkey", opt s.psk)]

theorem keys_wireguardSpecs (s : Server) : Assoc.keys (wireguardSpecs s) =
    ["publickey", "address", "reserved", "mtu", "presharedkey"] := rfl

theorem nodup_wireguardSpecs (s : Server) : (Assoc.keys (wireguardSpecs s)).Nodup := by
  rw [keys_wireguardSpecs]
  decide

/-- A number is printed where it is positive, and zero is left out. -/
theorem opt_numeral {n : Int32} (h : 0 ≤ n.toInt) :
    opt (if 0 < n then toString n.toInt else "") = if 0 < n then some (toString n.toInt) else none := by
  split
  · refine if_neg fun h0 => ?_
    obtain ⟨d, hd, _⟩ := getLast?_numeral h
    rw [h0] at hd
    cases hd
  · rfl

/-- The parameters that are printed are those that have a value. -/
theorem wireguardParams_eq {s : Server} (hmtu : 0 ≤ s.mtu.toInt) :
    (wireguardParams s).map (fun e => (J.lowercase e.1, e.2)) = Assoc.present (wireguardSpecs s) := by
  have hlow : ∀ t : String, t.toList.all (fun c => c.toNat < 128) = true →
      t.toList.map Char.toLower = t.toList → J.lowercase t = t := fun t h1 h2 => lowercase_eq h1 h2
  rw [wireguardParams, map_filter_ne_empty, wireguardSpecs, ← opt_numeral hmtu]
  simp only [List.map_cons, List.map_nil, hlow "publickey" (by decide) (by decide),
    hlow "address" (by decide) (by decide), hlow "reserved" (by decide) (by decide),
    hlow "mtu" (by decide) (by decide), hlow "presharedkey" (by decide) (by decide)]

theorem plainKey_wireguardParams (s : Server) : ∀ e ∈ wireguardParams s, plainKey e.1 = true := by
  intro e he
  have hkey : e.1 ∈ ["publickey", "address", "reserved", "mtu", "presharedkey"] :=
    (List.filter_sublist.map Prod.fst).subset (List.mem_map_of_mem he)
  have hall : ["publickey", "address", "reserved", "mtu", "presharedkey"].all plainKey = true := by
    decide
  exact List.all_eq_true.mp hall e.1 hkey

theorem toLink_wireguard {s : Server} (hp : s.protocol = "wireguard") :
    toLink O s = "wireguard" ++ "://" ++ enc s.secret ++ "@" ++ bracketed s ++ "?"
      ++ renderQuery (wireguardParams s) ++ "#" ++ enc s.name := by
  unfold toLink
  rw [hp, if_neg (by decide), if_pos rfl]
  rfl

/-- **Which server a written `wireguard` link is read as.** -/
theorem wireguard_toLink {s : Server} (hp : s.protocol = "wireguard") (hf : WireguardForm s)
    (hc : CleanHost s.address) (hhash : '#' ∉ s.address.toList) (hquest : '?' ∉ s.address.toList)
    (hport : 0 ≤ s.port.toInt) (hpbk : s.pbk ≠ "") (hlocal : s.localAddress ≠ "")
    (hmtu : 0 ≤ s.mtu.toInt) :
    wireguard J (toLink O s) s.source = (hostPort J (bracketed s)).map fun hp =>
      { s with name := Text.trim s.name, address := hp.1, port := hp.2 } := by
  obtain ⟨d, hlast, hd⟩ := getLast?_append_port
    ((if Text.hasChar s.address ':' then "[" ++ s.address ++ "]" else s.address) ++ ":") hport
  rw [toLink_wireguard hp, wireguard, split_link J (by decide)
    (not_mem_bracketed hport hhash (by decide) (by decide) (by decide) (by decide))
    (not_mem_bracketed hport hquest (by decide) (by decide) (by decide) (by decide))
    (not_mem_bracketed hport hc.atSign (by decide) (by decide) (by decide) (by decide))
    hlast hd (hash_not_mem_renderQuery (plainKey_wireguardParams s)), Option.map_eq_bind,
    Option.bind_assoc, Option.map_eq_bind]
  refine congrArg (fun f => (hostPort J (bracketed s)).bind f) (funext fun hp => ?_)
  -- each key that is written is read back
  have hget : ∀ k v, (k, v) ∈ wireguardSpecs s →
      (query J (renderQuery (wireguardParams s))).get? k = v :=
    fun k v h => get?_renderQuery (plainKey_wireguardParams s) (wireguardParams_eq hmtu)
      (nodup_wireguardSpecs s) h
  -- a key that only other clients write is not there
  have hnopsk : (query J (renderQuery (wireguardParams s))).get? "psk" = none :=
    get?_renderQuery_other (plainKey_wireguardParams s) (wireguardParams_eq hmtu)
      (nodup_wireguardSpecs s) (by rw [keys_wireguardSpecs]; decide)
  generalize query J (renderQuery (wireguardParams s)) = q at hget hnopsk
  have hpub : ((q.get? "publickey").or (q.get? "peer_public_key")).or (q.get? "public_key")
      = some s.pbk := by
    rw [hget "publickey" (opt s.pbk) (by simp [wireguardSpecs]), opt, if_neg hpbk]
    rfl
  have haddress : Text.replace (((q.get? "address").or (q.get? "ip")).getD "172.16.0.2/32") " " ""
      = s.localAddress := by
    rw [hget "address" (opt s.localAddress) (by simp [wireguardSpecs]), opt, if_neg hlocal]
    exact removeSpaces_of_not_mem hf.localAddress
  have hreserved : Text.replace (orEmpty q "reserved") " " "" = s.reserved := by
    rw [orEmpty, hget "reserved" (opt s.reserved) (by simp [wireguardSpecs]), getD_opt]
    exact removeSpaces_of_not_mem hf.reserved
  have hpsk : ((q.get? "presharedkey").or (q.get? "psk")).getD "" = s.psk := by
    rw [hget "presharedkey" (opt s.psk) (by simp [wireguardSpecs]), hnopsk, Option.or_none, getD_opt]
  have hmtu' : ((q.get? "mtu").bind (Text.toInt? J)).getD 0 = s.mtu := by
    rw [hget "mtu" (if 0 < s.mtu then some (toString s.mtu.toInt) else none)
      (by simp [wireguardSpecs])]
    by_cases hpos : 0 < s.mtu
    · rw [if_pos hpos, Option.bind_some, Text.toInt?_toString J hmtu, Option.getD_some]
    · -- an mtu that is not written is zero
      rw [if_neg hpos]
      rw [Int32.lt_iff_toInt_lt, not_lt] at hpos
      have hzero : (0 : Int32).toInt = 0 := rfl
      have heq : s.mtu.toInt = (0 : Int32).toInt := by omega
      exact (Int32.toInt_inj.mp heq).symm
  simp only [Function.comp_apply, Option.bind_some, hpub, Option.map_some, wireguardServer, haddress, hreserved, hpsk,
    hmtu', Text.ifEmpty_of_ne hf.name]
  rw [hf.shape]

/-- And what it gives when it is read again: here brackets around the address do no harm. -/
theorem parse_toLink_wireguard {s : Server} (hp : s.protocol = "wireguard") (hf : WireguardForm s)
    (hc : CleanHost s.address) (hhash : '#' ∉ s.address.toList) (hquest : '?' ∉ s.address.toList)
    (hclose : ']' ∉ s.address.toList) (hu : usable s = true) (hpbk : s.pbk ≠ "")
    (hlocal : s.localAddress ≠ "") (hmtu : 0 ≤ s.mtu.toInt) :
    parse J O (toLink O s) s.source =
      if Text.startsWith s.address "[" = true → Text.hasChar s.address ':' = true then
        some { s with name := Text.trim s.name } else none := by
  have hname : s.name ≠ "" := by
    intro h0
    exact hf.name (by rw [h0]; rfl)
  have hrest : toLink O s = "wireguard://" ++ (enc s.secret ++ "@" ++ bracketed s ++ "?"
      ++ renderQuery (wireguardParams s) ++ "#" ++ enc s.name) := by
    have hscheme : "wireguard://" = "wireguard" ++ "://" := rfl
    rw [toLink_wireguard hp, hscheme]
    simp only [String.append_assoc]
  have htrim : Text.trim (toLink O s) = toLink O s := by
    refine trim_named (c := 'w') (toLink_wireguard hp) ?_ (by decide) hname
    simp only [String.append_assoc]
    rw [String.toList_append]
    rfl
  have hread := wireguard_toLink (J := J) (O := O) hp hf hc hhash hquest (port_nonneg hu) hpbk hlocal
    hmtu
  rw [hrest] at htrim hread ⊢
  rw [parse_wireguard htrim, hread, hostPort_endpoint J hc hclose (port_nonneg hu)]
  split
  · exact filter_usable hu rfl rfl
  · rfl

end

/-- A server is itself under its trimmed name just when the name is trimmed. -/
theorem trimmed_name_iff (s : Server) :
    some { s with name := Text.trim s.name } = some s ↔ Text.trim s.name = s.name := by
  rw [Option.some.injEq]
  refine ⟨fun heq => congrArg Server.name heq, fun hname => ?_⟩
  rw [hname]

/-- A printed server is read back but for the bracket. -/
theorem bare_read_iff {s : Server} (hne : s.protocol ≠ "wireguard") :
    (if Text.startsWith s.address "[" = true then none
      else some { s with name := Text.trim s.name }) = some s ↔
      Text.trim s.name = s.name ∧ (Text.startsWith s.address "[" = true →
        s.protocol = "wireguard" ∧ Text.hasChar s.address ':' = true) := by
  by_cases hb : Text.startsWith s.address "[" = true
  · rw [if_pos hb]
    refine iff_of_false (by simp) ?_
    rintro ⟨-, h⟩
    exact hne (h hb).1
  · rw [if_neg hb, trimmed_name_iff, and_iff_left]
    exact fun h => absurd h hb

/-- **`ss`, `socks`, `wireguard`.** A server read from a link of one of these kinds is
read from its own link exactly when its name has no whitespace at an end and its
address does not begin with a bracket; a `wireguard` address may, if it holds a colon. -/
theorem proxy_round_trip_iff (link source : String) (s : Server)
    (h : parse J O link source = some s)
    (hs : (s.protocol = "shadowsocks" ∨ s.protocol = "socks")
          ∧ '?' ∉ s.address.toList ∧ '#' ∉ s.address.toList
        ∨ s.protocol = "wireguard" ∧ s.pbk ≠ "" ∧ s.localAddress ≠ "" ∧ 0 ≤ s.mtu
          ∧ ']' ∉ s.address.toList) :
    parse J O (toLink O s) s.source = some s ↔
      Text.trim s.name = s.name ∧ (Text.startsWith s.address "[" = true →
        s.protocol = "wireguard" ∧ Text.hasChar s.address ':' = true) := by
  -- for each family: what the parser leaves, and what the printed form gives
  rcases hs with ⟨hp | hp, hquest, hhash⟩ | ⟨hp, hpbk, hlocal, hmtu, hclose⟩
  · obtain ⟨hu, l, hl⟩ := shadowsocks_of_parse h hp
    obtain ⟨hf, hc⟩ := shadowsocks_form hl
    rw [parse_toLink_shadowsocks hp hf hc hhash hquest hu, bare_read_iff]
    rw [hp]
    decide
  · obtain ⟨hu, l, hl⟩ := socks_of_parse h hp
    obtain ⟨hf, hc, -, -⟩ := socks_form hl
    rw [parse_toLink_socks hp hf hc hhash hquest hu, bare_read_iff]
    rw [hp]
    decide
  · obtain ⟨hu, l, hl⟩ := wireguard_of_parse h hp
    obtain ⟨hf, hc, hhash, hquest⟩ := wireguard_form hl
    -- numbers that are not written are zero
    have hzero : (0 : Int32).toInt = 0 := rfl
    rw [Int32.le_iff_toInt_le, hzero] at hmtu
    rw [parse_toLink_wireguard hp hf hc hhash hquest hclose hu hpbk hlocal hmtu]
    -- the address of a WireGuard link is read back but for brackets
    by_cases hb : Text.startsWith s.address "[" = true → Text.hasChar s.address ':' = true
    · rw [if_pos hb, trimmed_name_iff, and_iff_left (fun h => ⟨hp, hb h⟩)]
    · rw [if_neg hb]
      refine iff_of_false (by simp) ?_
      rintro ⟨-, h⟩
      exact hb (fun hstart => (h hstart).2)

/-- Credentials with a colon and a slash, in the plain form, and an address with
colons that stands without brackets. -/
def ssServerV6 : Server :=
  { name := "n", protocol := "shadowsocks", address := "2001:db8::1", port := 8388
    secret := "p:/+", method := "none" }

/-- A Shadowsocks link with an address of version 6 and a slash in its password. -/
theorem proxy_round_trip_ss :
    parse Jvm.ascii JsonText.library "ss://NONE:p:%2F+@[2001:db8::1]:8388/#n" "" = some ssServerV6
    ∧ parse Jvm.ascii JsonText.library (toLink JsonText.library ssServerV6) ssServerV6.source
      = some ssServerV6 := by
  have h : parse Jvm.ascii JsonText.library "ss://NONE:p:%2F+@[2001:db8::1]:8388/#n" ""
      = some ssServerV6 := by decide +kernel
  exact ⟨h, (proxy_round_trip_iff _ _ _ _ _ h
    (.inl ⟨.inl rfl, by decide, by decide⟩)).mpr ⟨by decide +kernel, by decide +kernel⟩⟩

/-- A `socks` server whose address begins with a bracket has no link that is read. -/
theorem socks_bracket_lost : ∃ s,
    parse Jvm.ascii JsonText.library "socks://[[a]:1080#n" "" = some s ∧ s.protocol = "socks"
      ∧ '?' ∉ s.address.toList ∧ '#' ∉ s.address.toList
      ∧ parse Jvm.ascii JsonText.library (toLink JsonText.library s) s.source ≠ some s := by
  refine ⟨{ name := "n", protocol := "socks", address := "[a", port := 1080, secret := "" },
    by decide +kernel, rfl, by decide, by decide, ?_⟩
  decide +kernel

end VlessCard.LinkParser
