/-
`vmess` links written and read again.

The link is a JSON object in Base64. One key, `type`, carries the header type and,
for the network `xhttp`, also the mode; it is written from the header type, with
`none` in the place of nothing. Read again, a missing mode is therefore the mode
`none`; every other field is the one that was written.
-/
import VlessCard.LinkRoundTrip

set_option autoImplicit false

namespace VlessCard.LinkParser

variable (J : Jvm) (O : OrgJson)

/-! ## The text of a link

The link is one Base64 text behind its scheme. It has no blanks and no sign of another scheme, so
the reader decodes what the printer encoded. -/

/-- The printed link is an object in base64. -/
theorem toLink_vmess {s : Server} (hp : s.protocol = "vmess") :
    toLink O s = "vmess://" ++ Base64.encode (O.text (.obj (vmessJson s))) := by
  unfold toLink
  rw [hp, if_neg (by decide), if_neg (by decide), if_neg (by decide), if_neg (by decide),
    if_pos rfl]

/-- No symbol of Base64 is whitespace, and the padding is none either. -/
theorem base64_not_whitespace {text : String} {c : Char}
    (h : c ∈ (Base64.encode text).toList) : Chars.isWhitespace c = false := by
  rcases Base64.mem_encode h with h | rfl
  · exact (Base64.std_plain h).1
  · decide

theorem trim_vmess (text : String) :
    Text.trim ("vmess://" ++ Base64.encode text) = "vmess://" ++ Base64.encode text := by
  apply Text.trim_eq_self
  · intro x hx
    rw [String.toList_append] at hx
    cases hx
    decide
  · intro x hx
    rcases Text.mem_append.mp (List.mem_of_getLast? hx) with h | h
    · have hall : "vmess://".toList.all (fun c => !Chars.isWhitespace c) = true := by decide
      simpa using List.all_eq_true.mp hall x h
    · exact base64_not_whitespace h

/-- A Base64 text is no scheme, so the reader takes the link for what it says. -/
theorem parse_vmess {rest : String} (htrim : Text.trim ("vmess://" ++ rest) = "vmess://" ++ rest)
    (source : String) :
    parse J O ("vmess://" ++ rest) source
      = (vmess J O ("vmess://" ++ rest) source).filter usable := by
  have hother : ∀ p, differ p.toList "vmess://".toList = true →
      Text.startsWithIgnoreCase J ("vmess://" ++ rest) p = false :=
    fun p h => starts_other J rfl h
  have hown : Text.startsWithIgnoreCase J ("vmess://" ++ rest) "vmess://" = true :=
    starts_own J rfl rfl (by decide)
  unfold parse
  simp only [htrim, hother "vless://" (by decide), hother "trojan://" (by decide),
    hother "hysteria2://" (by decide), hother "hy2://" (by decide), hother "tuic://" (by decide),
    hother "anytls://" (by decide), hown, Bool.or_false, if_true, Bool.false_eq_true, if_false]

/-- The body of a link is what was put in Base64. -/
theorem body_vmess {text : String} (h : text ≠ "") :
    Base64.decodeToString (Text.substringBefore
      (Text.substringAfterStr ("vmess://" ++ Base64.encode text) "://") '#') = some text := by
  have hsplit : "vmess://" ++ Base64.encode text = "vmess" ++ "://" ++ Base64.encode text := rfl
  have hhash : '#' ∉ (Base64.encode text).toList := by
    intro hmem
    rcases Base64.mem_encode hmem with h | h
    · have hno : Base64.STD.all (fun c => c != '#') = true := by decide
      exact absurd (List.all_eq_true.mp hno _ h) (by decide)
    · exact absurd h (by decide)
  rw [hsplit, Text.substringAfterStr_append (c := ':') rfl (by decide),
    Text.substringBefore_of_not_mem hhash, Base64.decodeToString_encode h]

/-! ## The object of a link

The object is written with distinct keys, and with values that the JSON text carries without
loss. So it is read back as it was. -/

section
variable {J O}

theorem vmessJson_eq (s : Server) : vmessJson s =
    [("v", .str "2"), ("ps", .str s.name), ("add", .str s.address),
      ("port", .str (toString s.port.toInt)), ("id", .str s.secret),
      ("scy", .str (Text.ifEmpty s.method "auto")), ("net", .str s.network),
      ("type", .str (Text.ifEmpty s.headerType "none")), ("host", .str s.host),
      ("path", .str (if s.network = "grpc" then s.serviceName else s.path)),
      ("tls", .str s.security), ("sni", .str s.sni), ("fp", .str s.fp), ("alpn", .str s.alpn)] := by
  simp [vmessJson, JsonObject.put, JsonObject.empty, Assoc.put]

theorem nodup_vmessJson (s : Server) : (Assoc.keys (vmessJson s)).Nodup := by
  rw [vmessJson_eq]
  show ["v", "ps", "add", "port", "id", "scy", "net", "type", "host", "path", "tls", "sni", "fp",
    "alpn"].Nodup
  decide

theorem plain_vmessJson (s : Server) : Json.plain (.obj (vmessJson s)) = true := by
  rw [Json.plain, Bool.and_eq_true, decide_eq_true_eq]
  refine ⟨?_, nodup_vmessJson s⟩
  rw [vmessJson_eq]
  rfl

/-- The object is read back with the members it was written with. -/
theorem parseObject_vmessJson (s : Server) : ∃ o, O.parseObject (O.text (.obj (vmessJson s))) = some o
    ∧ ∀ k v d, (k, Json.str v) ∈ vmessJson s → JsonObject.optString O o k d = v := by
  obtain ⟨o, ho, hget⟩ := O.parse_text (vmessJson s) (plain_vmessJson s)
  refine ⟨o, ho, fun k v d hmem => ?_⟩
  have hk : Assoc.get? (vmessJson s) k = some (.str v) :=
    Assoc.get?_of_mem (nodup_vmessJson s) hmem
  rw [JsonObject.optString, JsonObject.get?, hget, hk]
  rfl

/-! ## What a server read from a `vmess` link looks like

Most fields come back by the lemmas on the object. The key `type` is written from the header
type, and it is read as the header type and, for `xhttp`, as the mode too. So a mode that was
missing comes back as `none`. -/

/-- The network of a `vmess` link that was read stands for itself. -/
theorem vmessNetwork_lowercase (t : String) :
    vmessNetwork (J.lowercase (vmessNetwork (J.lowercase t))) = vmessNetwork (J.lowercase t) := by
  generalize hl : J.lowercase t = l
  have hfix : J.lowercase l = l := by rw [← hl, J.lowercase_idem]
  by_cases h1 : l = "http"
  · have hh2 : vmessNetwork l = "h2" := by rw [h1]; decide
    rw [hh2, lowercase_const (by decide) (by decide)]
    decide
  by_cases h2 : l = "splithttp"
  · have hx : vmessNetwork l = "xhttp" := by rw [h2]; decide
    rw [hx, lowercase_const (by decide) (by decide)]
    decide
  by_cases h3 : l = ""
  · have htcp : vmessNetwork l = "tcp" := by rw [h3]; decide
    rw [htcp, lowercase_const (by decide) (by decide)]
    decide
  · have hself : vmessNetwork l = l := by
      rw [vmessNetwork, if_neg h1, if_neg h2, Text.ifEmpty_of_ne h3]
    rw [hself, hfix, hself]

/-- What `parse` guarantees of a server `vmess` made. -/
structure VmessForm (J : Jvm) (s : Server) : Prop where
  name : s.name ≠ ""
  method : s.method ≠ ""
  network : vmessNetwork (J.lowercase s.network) = s.network
  security : (if J.lowercase s.security = "none" then "" else J.lowercase s.security) = s.security
  path : s.network = "grpc" → s.path = ""
  serviceName : s.network ≠ "grpc" → s.serviceName = ""
  headerType : s.headerType ≠ "none"
  modeXhttp : s.network = "xhttp" → s.headerType = if s.mode = "none" then "" else s.mode
  modeOther : s.network ≠ "xhttp" → s.mode = ""
  unused : s.flow = "" ∧ s.encryption = "none" ∧ s.pbk = "" ∧ s.sid = "" ∧ s.spx = "" ∧ s.pqv = ""
    ∧ s.insecure = false ∧ s.ech = "" ∧ s.pcs = "" ∧ s.vcn = "" ∧ s.obfsPassword = "" ∧ s.extra = ""
    ∧ s.localAddress = "" ∧ s.reserved = "" ∧ s.mtu = 0 ∧ s.psk = "" ∧ s.user = ""

/-- A security that was read is read again. -/
theorem vmessSecurity_lowercase (t : String) :
    (if J.lowercase (if J.lowercase t = "none" then "" else J.lowercase t) = "none" then ""
      else J.lowercase (if J.lowercase t = "none" then "" else J.lowercase t))
      = if J.lowercase t = "none" then "" else J.lowercase t := by
  by_cases h : J.lowercase t = "none"
  · have hempty : J.lowercase "" = "" := lowercase_const (by decide) (by decide)
    rw [if_pos h, hempty, if_neg (by decide)]
  · rw [if_neg h, J.lowercase_idem, if_neg h]

theorem address_ne_empty {s : Server} (hu : usable s = true) : s.address ≠ "" := by
  intro h0
  simp only [usable, Bool.and_eq_true, Bool.not_eq_true'] at hu
  rw [h0] at hu
  exact absurd hu.1.2 (by decide)

theorem vmess_form {link source : String} {s : Server} (h : vmess J O link source = some s)
    (hu : usable s = true) : VmessForm J s ∧ s.source = source := by
  obtain ⟨json, _, h⟩ := Option.bind_eq_some_iff.mp h
  obtain ⟨o, _, h⟩ := Option.bind_eq_some_iff.mp h
  obtain ⟨port, _, rfl⟩ := Option.map_eq_some_iff.mp h
  have hadd : JsonObject.optString O o "add" "" ≠ "" := address_ne_empty hu
  refine ⟨⟨?_, ?_, ?_, ?_, ?_, ?_, ?_, ?_, ?_, ?_⟩, rfl⟩
  -- the name falls back to the address, which is there
  · show Text.ifEmpty (JsonObject.optString O o "ps" "") (JsonObject.optString O o "add" "") ≠ ""
    unfold Text.ifEmpty
    split
    · exact hadd
    · rename_i hps
      exact hps
  -- the cipher falls back to `auto`
  · show Text.ifEmpty (JsonObject.optString O o "scy" "auto") "auto" ≠ ""
    unfold Text.ifEmpty
    split
    · decide
    · rename_i hscy
      exact hscy
  · exact vmessNetwork_lowercase _
  · exact vmessSecurity_lowercase _
  · intro hg
    exact if_pos hg
  · intro hg
    exact if_neg hg
  -- the header is none where the source writes `none`
  · show (if JsonObject.optString O o "type" "" = "none" then ""
      else JsonObject.optString O o "type" "") ≠ "none"
    split
    · decide
    · rename_i htype
      exact htype
  · intro hx
    -- for xhttp the same member is the mode
    have hmode : (vmessServer J O o port source).mode = JsonObject.optString O o "type" "" :=
      if_pos hx
    rw [hmode]
    rfl
  · intro hx
    exact if_neg hx
  · exact ⟨rfl, rfl, rfl, rfl, rfl, rfl, rfl, rfl, rfl, rfl, rfl, rfl, rfl, rfl, rfl, rfl, rfl⟩

/-- **Which server a written `vmess` link is read as**: only the mode may differ. -/
theorem vmess_toLink {s : Server} (hp : s.protocol = "vmess") (hf : VmessForm J s)
    (hport : 0 ≤ s.port.toInt) :
    vmess J O (toLink O s) s.source = some { s with
      mode := if s.network = "xhttp" then Text.ifEmpty s.headerType "none" else "" } := by
  obtain ⟨o, ho, hget⟩ := parseObject_vmessJson (O := O) s
  rw [vmessJson_eq] at hget
  rw [toLink_vmess O hp, vmess, body_vmess (O.text_ne_empty ho), Option.bind_some, ho,
    Option.bind_some, hget "port" (toString s.port.toInt) _ (by simp), Text.toInt?_toString J hport,
    Option.map_some]
  have hname : Text.ifEmpty s.name s.address = s.name := Text.ifEmpty_of_ne hf.name
  have hmethod : Text.ifEmpty (Text.ifEmpty s.method "auto") "auto" = s.method := by
    rw [Text.ifEmpty_of_ne hf.method, Text.ifEmpty_of_ne hf.method]
  -- the header type is written as `none` when there is none, and `none` is read as nothing
  have htype : (if Text.ifEmpty s.headerType "none" = "none" then ""
      else Text.ifEmpty s.headerType "none") = s.headerType := by
    by_cases h : s.headerType = ""
    · rw [h, Text.ifEmpty_empty, if_pos rfl]
    · rw [Text.ifEmpty_of_ne h, if_neg hf.headerType]
  have hpath : (if s.network = "grpc" then ""
      else if s.network = "grpc" then s.serviceName else s.path) = s.path := by
    by_cases h : s.network = "grpc"
    · rw [if_pos h, hf.path h]
    · rw [if_neg h, if_neg h]
  have hservice : (if s.network = "grpc" then
      (if s.network = "grpc" then s.serviceName else s.path) else "") = s.serviceName := by
    by_cases h : s.network = "grpc"
    · rw [if_pos h, if_pos h]
    · rw [if_neg h, hf.serviceName h]
  obtain ⟨h1, h2, h3, h4, h5, h6, h7, h8, h9, h10, h11, h12, h13, h14, h15, h16, h17⟩ := hf.unused
  unfold vmessServer
  simp only [hget "ps" s.name _ (by simp), hget "add" s.address _ (by simp),
    hget "id" s.secret _ (by simp), hget "scy" (Text.ifEmpty s.method "auto") _ (by simp),
    hget "net" s.network _ (by simp), hget "type" (Text.ifEmpty s.headerType "none") _ (by simp),
    hget "host" s.host _ (by simp),
    hget "path" (if s.network = "grpc" then s.serviceName else s.path) _ (by simp),
    hget "tls" s.security _ (by simp), hget "sni" s.sni _ (by simp), hget "fp" s.fp _ (by simp),
    hget "alpn" s.alpn _ (by simp), hf.network, hf.security, hname, hmethod, htype, hpath, hservice,
    h1, h2, h3, h4, h5, h6, h7, h8, h9, h10, h11, h12, h13, h14, h15, h16, h17, ← hp]

/-- **Read again, a printed link gives the server**, but for the mode that it does not name. -/
theorem parse_toLink_vmess {s : Server} (hp : s.protocol = "vmess") (hf : VmessForm J s)
    (hu : usable s = true) :
    parse J O (toLink O s) s.source = some { s with
      mode := if s.network = "xhttp" then Text.ifEmpty s.headerType "none" else "" } := by
  have htrim := trim_vmess (O.text (.obj (vmessJson s)))
  rw [toLink_vmess O hp, parse_vmess J O htrim, ← toLink_vmess O hp,
    vmess_toLink hp hf (port_nonneg hu), filter_usable hu (by rfl) (by rfl)]

/-- The mode that is read again is the mode, unless there was none for `xhttp`. -/
theorem mode_written_iff {s : Server} (hf : VmessForm J s) :
    (if s.network = "xhttp" then Text.ifEmpty s.headerType "none" else "") = s.mode ↔
      ¬ (s.network = "xhttp" ∧ s.mode = "") := by
  by_cases hx : s.network = "xhttp"
  · rw [if_pos hx, hf.modeXhttp hx]
    by_cases hn : s.mode = "none"
    · simp [hn]
    · rw [if_neg hn]
      by_cases he : s.mode = ""
      · simp [he, hx]
      · simp [Text.ifEmpty_of_ne he, he]
  · simp [hx, hf.modeOther hx]

end

/-- The server of an object with a gRPC service in its path, its port a number. -/
def vmessGrpc : Server :=
  { name := "h", protocol := "vmess", address := "h", port := 443, secret := "", method := "auto"
    network := "grpc", serviceName := "s" }

end VlessCard.LinkParser
