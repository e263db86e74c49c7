/-
`Masks.compatible` and `XrayConfigBuilder.outbound`: whether a mask that suits a
server is applied in full.

Each thing a mask asks for is a layer. The builder applies each under a condition
of its own, which is proved here layer by layer; compatibility is to imply all of
them. It does, but for two: the cases for noise and changing ports come before the
one that keeps a local engine away from datagrams, so a mask of the user's own may
ask for both; and a server whose protocol has no TLS keeps its security field.
-/
import VlessCard.MyMasks
import VlessCard.QuicInitial
import VlessCard.UpdateCopy
import VlessCard.XrayRefs

set_option autoImplicit false

namespace VlessCard

open XrayConfigBuilder

/-! ## Layers

A mask asks for some layers, and each has a place in the outbound where it has to stand. Both are
said here in terms of the mask and of the object that Xray gets. -/

/-- What a mask may ask for. -/
inductive Layer where
  | fragment
  | noise
  | hop
  | dialer
  | mss
  | tfo
  | ipv6
  | mux
  | sni
  | alpn
deriving DecidableEq

namespace Mask

def asks (m : Mask) : Layer → Bool
  | .fragment => m.packets ≠ ""
  | .noise => m.hasNoise
  | .hop => m.hop ≠ ""
  | .dialer => m.viaByeDpi
  | .mss => 0 < m.mss
  | .tfo => m.tfo
  | .ipv6 => m.ipv6
  | .mux => m.mux
  | .sni => m.sni ≠ ""
  | .alpn => m.alpn ≠ ""

/-- The cuts of a mask, as a `fragment` has them. -/
structure Cuts (m : Mask) (f : JsonObject) : Prop where
  packets : f.get? "packets" = some (.str m.packets)
  pieces : m.lengths = "" → f.get? "length" = some (.str m.length) ∧ f.get? "delay" = some (.str m.delay)
  ladder : m.lengths ≠ "" → f.get? "lengths" = some (Json.strings (csv m.lengths)) ∧
    f.get? "delays" = some (Json.strings (csv m.delays))
  maxSplit : m.maxSplit ≠ "" → m.maxSplit ≠ "0" → f.get? "maxSplit" = some (.str m.maxSplit)

/-- The ports that change: one's own, or WARP's as well. -/
structure Hops (m : Mask) (h : JsonObject) : Prop where
  interval : h.get? "interval" = some (.str "10-20")
  warp : m.hop = Masks.HOP_WARP → h.get? "mode" = some (.str "intervalLocal,intervalRemote") ∧
    h.get? "remotePorts" = some (.str Masks.WARP_PORTS)
  own : m.hop ≠ Masks.HOP_WARP → h.get? "mode" = some (.str "intervalLocal")

end Mask

/-- The object under a key; none is empty. -/
def sub (o : JsonObject) (k : String) : JsonObject := (o.optJSONObject k).getD []

/-- The array under a key; none is empty. -/
def elems (o : JsonObject) (k : String) : List Json := (o.optJSONArray k).getD []

/-- The noise, as the transport has it. -/
def noiseObject (items : List Json) : JsonObject := typed "noise" (JsonObject.empty.put "noise" (.arr items))

section
variable (J : OrgJson) (U : Jvm) (noiseItems : String → Option String)

/-- A layer of a mask is in the transport of an outbound. -/
def InStream (m : Mask) (st : JsonObject) : Layer → Prop
  | .fragment => ∃ f, m.Cuts f ∧ .obj (typed "fragment" f) ∈ elems (sub st "finalmask") "tcp"
  | .noise => ∃ text items, Masks.noiseFor noiseItems m = some text ∧ J.parseArray text = some items ∧
      .obj (noiseObject items) ∈ elems (sub st "finalmask") "udp"
  | .hop => ∃ h, m.Hops h ∧ .obj (typed "udphop" h) ∈ elems (sub st "finalmask") "udp"
  | .dialer => (sub st "sockopt").get? "dialerProxy" = some (.str (dpiTag m.dpi))
  | .mss => (sub st "sockopt").get? "tcpMaxSeg" = some (.int m.mss)
  | .tfo => (sub st "sockopt").get? "tcpFastOpen" = some (.bool true)
  | .ipv6 => (sub st "sockopt").get? "domainStrategy" = some (.str "UseIPv6v4")
  | .mux => True
  | .sni => (sub st "tlsSettings").get? "serverName" = some (.str m.sni)
  | .alpn => (sub st "tlsSettings").get? "alpn" = some (Json.strings (csv m.alpn))

/-- A layer of a mask is in an outbound; multiplexing is beside the transport. -/
def Carries (m : Mask) (o : JsonObject) (l : Layer) : Prop :=
  InStream J noiseItems m (sub o "streamSettings") l ∧ (l = .mux → o.get? "mux" = some (.obj muxSettings))

/-- The outbound is built, with every layer its mask asks for. -/
def AppliedInFull (s : Server) (tag : String) (m : Mask) : Prop :=
  ∃ o, outbound J U noiseItems s tag (some m) false = some o ∧ ∀ l, m.asks l = true → Carries J noiseItems m o l

end

/-! ## Where the builder puts each layer

The builder puts its parts together by conditional puts. For each layer it is shown under which
key it stands and that no later put takes it away. -/

/-- An object that is put under a key is read back; the lemmas that follow leave other keys alone. -/
theorem sub_put_self (o v : JsonObject) (k : String) : sub (o.put k (.obj v)) k = v := by
  rw [sub, JsonObject.optJSONObject, JsonObject.get?_put, if_pos rfl]
  rfl

theorem sub_put_ne {k k' : String} (h : k ≠ k') (o : JsonObject) (v : Json) : sub (o.put k v) k' = sub o k' := by
  rw [sub, JsonObject.optJSONObject, JsonObject.get?_put, if_neg h]
  rfl

/-- A conditional put is seen under its key only where the condition holds. -/
theorem get?_putIf_self (c : Bool) (o : JsonObject) (k : String) (v : Json) :
    (putIf c o k v).get? k = if c then some v else o.get? k := by
  rw [putIf]
  split
  · rw [JsonObject.get?_put, if_pos rfl]
  · rfl

/-- Another key keeps its object there too. -/
theorem sub_putIf_ne {k k' : String} (h : k ≠ k') (c : Bool) (o : JsonObject) (v : Json) :
    sub (putIf c o k v) k' = sub o k' := by
  rw [sub, JsonObject.optJSONObject, get?_putIf h]
  rfl

/-- The fragment that a mask makes cuts as the mask says. -/
theorem cuts_fragment (m : Mask) : m.Cuts (fragment m) := by
  have hother : ∀ {k : String}, k ≠ "maxSplit" → (fragment m).get? k =
      (if m.lengths ≠ "" then
        JsonObject.empty.put "packets" (.str m.packets) |>.put "lengths" (Json.strings (csv m.lengths))
          |>.put "delays" (Json.strings (csv m.delays))
      else JsonObject.empty.put "packets" (.str m.packets) |>.put "length" (.str m.length)
        |>.put "delay" (.str m.delay)).get? k := fun hk => get?_putIf (Ne.symm hk)
  refine ⟨?_, fun hl => ?_, fun hl => ?_, fun h0 h1 => ?_⟩
  · rw [hother (by decide)]
    split
    · simp
    · simp
  · rw [hother (by decide), hother (by decide), if_neg (not_not.mpr hl)]
    simp
  · rw [hother (by decide), hother (by decide), if_pos hl]
    simp
  · rw [fragment, get?_putIf_self, if_pos (decide_eq_true ⟨h0, h1⟩)]

/-- The options of a changing port. -/
def hopSettings (m : Mask) : JsonObject :=
  let h := JsonObject.empty.put "interval" (.str "10-20")
  if m.hop = Masks.HOP_WARP then
    h |>.put "mode" (.str "intervalLocal,intervalRemote") |>.put "remotePorts" (.str Masks.WARP_PORTS)
  else h.put "mode" (.str "intervalLocal")

theorem hops_hopSettings (m : Mask) : m.Hops (hopSettings m) := by
  refine ⟨?_, fun h => ?_, fun h => ?_⟩
  · rw [hopSettings]
    split
    · simp
    · simp
  · rw [hopSettings, if_pos h]
    simp
  · rw [hopSettings, if_neg h]
    simp

/-- An item for UDP goes behind those that are there. -/
theorem elems_appendUdp (fm v : JsonObject) : elems (appendUdp fm v) "udp" = elems fm "udp" ++ [.obj v] := by
  rw [elems, appendUdp, JsonObject.optJSONArray, JsonObject.get?_put, if_pos rfl]
  rfl

theorem elems_appendUdp_tcp (fm v : JsonObject) : elems (appendUdp fm v) "tcp" = elems fm "tcp" := by
  rw [elems, appendUdp, JsonObject.optJSONArray, JsonObject.get?_put, if_neg (by decide)]
  rfl

section
variable {J : OrgJson} {U : Jvm} {noiseItems : String → Option String} {s : Server} {m : Mask}

/-- The noise of a mask can be read. -/
def Legible (J : OrgJson) (noiseItems : String → Option String) (m : Mask) : Prop :=
  ∀ text, Masks.noiseFor noiseItems m = some text → ∃ items, J.parseArray text = some items

/-- The cuts, and the password of Hysteria. -/
def withCuts (s : Server) (m : Mask) : JsonObject :=
  putIf (s.protocol = "hysteria2" ∧ s.obfsPassword ≠ "")
    (putIf (m.packets ≠ "" ∧ s.isTcpBased) JsonObject.empty "tcp" (.arr [.obj (typed "fragment" (fragment m))])) "udp"
    (.arr [.obj (typed "salamander" (JsonObject.empty.put "password" (.str s.obfsPassword)))])

def withNoise (J : OrgJson) (s : Server) (noise : Option String) (fm : JsonObject) : Option JsonObject :=
  match noise with
  | some text =>
    if !s.isTcpBased then (J.parseArray text).map fun items => appendUdp fm (noiseObject items) else some fm
  | none => some fm

def withHop (s : Server) (m : Mask) (fm : JsonObject) : JsonObject :=
  if m.hop ≠ "" ∧ s.protocol = "wireguard" then appendUdp fm (typed "udphop" (hopSettings m)) else fm

/-- The final mask is made in three steps: the cuts, the noise, the hops. -/
theorem finalmask_eq : finalmask J noiseItems s (some m) =
    (withNoise J s (Masks.noiseFor noiseItems m) (withCuts s m)).map (withHop s m) := by
  rw [finalmask, Option.bind_some]
  cases Masks.noiseFor noiseItems m with
  | none => rfl
  | some text =>
    cases ht : s.isTcpBased with
    | true =>
      rw [withNoise, withCuts, ht]
      rfl
    | false =>
      rw [withNoise, withCuts, ht]
      dsimp only
      cases J.parseArray text with
      | none => rfl
      | some items => rfl

/-- A noise that can be read is added for UDP, and only for a server without TCP. -/
theorem withNoise_spec (hm : Legible J noiseItems m) (fm : JsonObject) :
    ∃ fm', withNoise J s (Masks.noiseFor noiseItems m) fm = some fm' ∧ elems fm' "tcp" = elems fm "tcp" ∧
      (s.isTcpBased = false → ∀ text items, Masks.noiseFor noiseItems m = some text → J.parseArray text = some items →
        .obj (noiseObject items) ∈ elems fm' "udp") := by
  cases hn : Masks.noiseFor noiseItems m with
  | none => exact ⟨fm, rfl, rfl, fun _ _ _ h => nomatch h⟩
  | some text =>
    cases ht : s.isTcpBased with
    | true => exact ⟨fm, by rw [withNoise, ht]; rfl, rfl, fun h => nomatch h⟩
    | false =>
      obtain ⟨items, hitems⟩ := hm text hn
      refine ⟨appendUdp fm (noiseObject items), by rw [withNoise, ht, hitems]; rfl, elems_appendUdp_tcp _ _, ?_⟩
      intro _ text' items' htext hitems'
      rw [← Option.some.inj htext, hitems] at hitems'
      rw [← Option.some.inj hitems', elems_appendUdp]
      exact List.mem_append_right _ (List.mem_singleton_self _)

/-- Cuts go to TCP, noise to datagrams, changing ports to WireGuard. -/
theorem finalmask_spec (hm : Legible J noiseItems m) : ∃ fm, finalmask J noiseItems s (some m) = some fm ∧
    (m.packets ≠ "" → s.isTcpBased = true → .obj (typed "fragment" (fragment m)) ∈ elems fm "tcp") ∧
    (s.isTcpBased = false → ∀ text items, Masks.noiseFor noiseItems m = some text → J.parseArray text = some items →
      .obj (noiseObject items) ∈ elems fm "udp") ∧
    (m.hop ≠ "" → s.protocol = "wireguard" → .obj (typed "udphop" (hopSettings m)) ∈ elems fm "udp") := by
  have hcuts : m.packets ≠ "" → s.isTcpBased = true →
      .obj (typed "fragment" (fragment m)) ∈ elems (withCuts s m) "tcp" := by
    intro hp ht
    rw [withCuts, elems, JsonObject.optJSONArray, get?_putIf (by decide), get?_putIf_self,
      if_pos (decide_eq_true ⟨hp, ht⟩)]
    exact List.mem_singleton_self _
  obtain ⟨fm, hfm, htcp, hnoise⟩ := withNoise_spec (s := s) hm (withCuts s m)
  refine ⟨withHop s m fm, by rw [finalmask_eq, hfm, Option.map_some], ?_⟩
  rw [withHop]
  by_cases hhop : m.hop ≠ "" ∧ s.protocol = "wireguard"
  · rw [if_pos hhop, elems_appendUdp_tcp, htcp, elems_appendUdp]
    exact ⟨hcuts, fun ht text items htext hitems => List.mem_append_left _ (hnoise ht text items htext hitems),
      fun _ _ => List.mem_append_right _ (List.mem_singleton_self _)⟩
  · rw [if_neg hhop, htcp]
    exact ⟨hcuts, hnoise, fun h0 h1 => absurd ⟨h0, h1⟩ hhop⟩

/-! ### Socket options

A local engine is reached through a dialer in the socket options, which is set for servers of TCP
only. Without an engine the mask's own options stand there. -/

/-- A local engine is named for TCP alone. -/
theorem get?_sockopt_dialer (s : Server) (m : Mask) : (sockopt s (some m)).get? "dialerProxy" =
    if m.viaByeDpi ∧ s.isTcpBased then some (.str (dpiTag m.dpi)) else none := by
  rw [sockopt]
  dsimp only
  by_cases h : m.viaByeDpi ∧ s.isTcpBased
  · rw [if_pos h, if_pos h, JsonObject.get?_put, if_pos rfl]
  · rw [if_neg h, if_neg h]
    split
    · rw [JsonObject.get?_put, if_neg (by decide), JsonObject.get?_put, if_neg (by decide), get?_putIf (by decide),
        get?_putIf (by decide)]
      rfl
    · rw [get?_putIf (by decide), get?_putIf (by decide)]
      rfl

/-- Without an engine the socket has what the mask says. -/
theorem sockopt_direct (h : ¬(m.viaByeDpi ∧ s.isTcpBased)) :
    (0 < m.mss → s.isTcpBased = true → (sockopt s (some m)).get? "tcpMaxSeg" = some (.int m.mss)) ∧
    (m.tfo = true → s.isTcpBased = true → (sockopt s (some m)).get? "tcpFastOpen" = some (.bool true)) ∧
    (m.ipv6 = true → (sockopt s (some m)).get? "domainStrategy" = some (.str "UseIPv6v4")) := by
  rw [sockopt]
  dsimp only
  rw [if_neg h]
  refine ⟨fun hmss ht => ?_, fun htfo ht => ?_, fun hv6 => ?_⟩
  · have hput : (putIf (0 < m.mss ∧ s.isTcpBased) (JsonObject.empty.put "tcpKeepAliveInterval" (.int 15))
        "tcpMaxSeg" (.int m.mss)).get? "tcpMaxSeg" = some (.int m.mss) := by
      rw [get?_putIf_self, if_pos (decide_eq_true ⟨hmss, ht⟩)]
    split
    · rw [JsonObject.get?_put, if_neg (by decide), JsonObject.get?_put, if_neg (by decide), get?_putIf (by decide)]
      exact hput
    · rw [get?_putIf (by decide)]
      exact hput
  · have hput (o : JsonObject) : (putIf (m.tfo ∧ s.isTcpBased) o "tcpFastOpen" (.bool true)).get? "tcpFastOpen"
        = some (.bool true) := by
      rw [get?_putIf_self, if_pos (decide_eq_true ⟨htfo, ht⟩)]
    split
    · rw [JsonObject.get?_put, if_neg (by decide), JsonObject.get?_put, if_neg (by decide)]
      exact hput _
    · exact hput _
  · rw [if_pos hv6, JsonObject.get?_put, if_neg (by decide), JsonObject.get?_put, if_pos rfl]

/-! ### TLS

The name and the protocols that are sent come from the mask where it has them. A name that is not
the server's needs a pinned certificate to be let through. -/

/-- The server name that is sent, or none at all. -/
theorem get?_tls_serverName (hsec : security s = "tls") (mask : Option Mask) (st : JsonObject) (hostSni : String) :
    (sub (secured s mask st hostSni) "tlsSettings").get? "serverName" =
      if serverName s mask hostSni ≠ "" then some (.str (serverName s mask hostSni)) else none := by
  rw [secured]
  dsimp only
  rw [if_pos (.inl hsec), if_pos hsec, sub_put_self, get?_putIf (by decide), get?_putIf (by decide),
    get?_putIf (by decide), get?_putIf (by decide), get?_putIf (by decide), get?_putIf_self]
  simp only [decide_eq_true_eq]
  rfl

/-- The protocols that are offered, or none. -/
theorem get?_tls_alpn (hsec : security s = "tls") (mask : Option Mask) (st : JsonObject) (hostSni : String) :
    (sub (secured s mask st hostSni) "tlsSettings").get? "alpn" =
      if alpn s mask ≠ [] then some (Json.strings (alpn s mask)) else none := by
  rw [secured]
  dsimp only
  rw [if_pos (.inl hsec), if_pos hsec, sub_put_self, get?_putIf (by decide), get?_putIf (by decide),
    get?_putIf (by decide), get?_putIf_self, get?_putIf (by decide), get?_putIf (by decide)]
  simp only [decide_eq_true_eq]
  rfl

/-- The name of the mask, where the certificate is pinned. -/
theorem serverName_mask (hsec : security s = "tls") (hp : s.protocol ≠ "hysteria2") (hpcs : s.pcs ≠ "")
    (hsni : m.sni ≠ "") (hostSni : String) : serverName s (some m) hostSni = m.sni :=
  if_pos ⟨hsni, hsec, hpcs, hp⟩

/-- A pinned certificate lets the mask's name be sent. -/
theorem tls_sni (hsec : security s = "tls") (hp : s.protocol ≠ "hysteria2") (hpcs : s.pcs ≠ "")
    (hsni : m.sni ≠ "") (st : JsonObject) (hostSni : String) :
    (sub (secured s (some m) st hostSni) "tlsSettings").get? "serverName" = some (.str m.sni) := by
  rw [get?_tls_serverName hsec, serverName_mask hsec hp hpcs hsni, if_pos hsni]

/-- A mask's protocols replace those of the server, unless it is Hysteria. -/
theorem tls_alpn (hsec : security s = "tls") (hp : s.protocol ≠ "hysteria2") (halpn : m.alpn ∈ Masks.ALPNS)
    (st : JsonObject) (hostSni : String) :
    (sub (secured s (some m) st hostSni) "tlsSettings").get? "alpn" = some (Json.strings (csv m.alpn)) := by
  have hne : ∀ a ∈ Masks.ALPNS, a ≠ "" ∧ csv a ≠ [] := by decide
  have hown : alpn s (some m) = csv m.alpn := if_pos ⟨(hne _ halpn).1, hp⟩
  rw [get?_tls_alpn hsec, hown, if_pos (hne _ halpn).2]

/-- Protocols without TLS have no settings of it. -/
theorem no_tls (hp : s.protocol ∈ ["socks", "shadowsocks"]) (mask : Option Mask) :
    sub (secured s mask (transport J s).1 (transport J s).2) "tlsSettings" = [] := by
  have hsec : security s = "" := by
    rcases List.mem_pair.mp hp with h | h
    · rw [security, h]
      rfl
    · rw [security, h]
      rfl
  have hnet : network s = "tcp" := by
    rcases List.mem_pair.mp hp with h | h
    · rw [network, h]
      rfl
    · rw [network, h]
      rfl
  rw [secured, hsec, if_neg (by decide), transport, hnet]
  dsimp only
  rw [if_pos rfl]
  split
  · rw [sub_put_ne (by decide), sub_putIf_ne (by decide)]
    rfl
  · rw [sub_putIf_ne (by decide)]
    rfl

/-! ### The outbound

The transport is one object under the outbound, and what the mask asks for is found in it.
Multiplexing alone stands beside it. -/

/-- The transport, put together. -/
def streamOf (J : OrgJson) (s : Server) (m : Mask) (fm : JsonObject) : JsonObject :=
  putIf (fm ≠ []) (secured s (some m) (transport J s).1 (transport J s).2) "finalmask" (.obj fm)
    |>.put "sockopt" (.obj (sockopt s (some m)))

/-- The socket options of the finished transport. -/
theorem sub_streamOf_sockopt (fm : JsonObject) : sub (streamOf J s m fm) "sockopt" = sockopt s (some m) :=
  sub_put_self _ _ _

theorem sub_streamOf_tls (fm : JsonObject) : sub (streamOf J s m fm) "tlsSettings" =
    sub (secured s (some m) (transport J s).1 (transport J s).2) "tlsSettings" := by
  rw [streamOf, sub_put_ne (by decide), sub_putIf_ne (by decide)]

/-- What the object has is not empty, so it is put. -/
theorem mem_streamOf_finalmask {fm : JsonObject} {k : String} {v : Json} (h : v ∈ elems fm k) :
    v ∈ elems (sub (streamOf J s m fm) "finalmask") k := by
  have hne : fm ≠ [] := by
    rintro rfl
    cases h
  rw [streamOf, sub_put_ne (by decide), putIf, if_pos (decide_eq_true hne), sub_put_self]
  exact h

/-- The protocols with settings of their own. -/
def PROTOCOLS : List String := ["wireguard", "socks", "vless", "vmess", "trojan", "shadowsocks", "hysteria2"]

/-- There are settings exactly for the protocols that are known. -/
theorem protocolSettings_isSome (U : Jvm) (s : Server) :
    (protocolSettings U s).isSome = true ↔ s.protocol ∈ PROTOCOLS := by
  -- one case for each of the protocols, and none for any other
  have hcases : (protocolSettings U s).isSome = if s.protocol = "wireguard" then true
      else if s.protocol = "socks" then true else if s.protocol = "vless" then true
      else if s.protocol = "vmess" then true else if s.protocol = "trojan" then true
      else if s.protocol = "shadowsocks" then true else if s.protocol = "hysteria2" then true else false := by
    simp only [protocolSettings, apply_ite Option.isSome, Option.isSome_some, Option.isSome_none]
  rw [hcases, PROTOCOLS]
  simp only [Bool.if_true_left, Bool.or_false, Bool.or_eq_true, decide_eq_true_eq, List.mem_cons, List.not_mem_nil,
    or_false]

/-- The outbound of a protocol with settings of its own. -/
theorem outbound_built (hm : Legible J noiseItems m) (hp : s.protocol ∈ PROTOCOLS) (tag : String) :
    ∃ fm o, finalmask J noiseItems s (some m) = some fm ∧ outbound J U noiseItems s tag (some m) false = some o ∧
      sub o "streamSettings" = streamOf J s m fm ∧
      (m.mux = true → muxable s = true → o.get? "mux" = some (.obj muxSettings)) := by
  have hraw : s.protocol ≠ "xray" := by
    intro hx
    rw [hx] at hp
    revert hp
    decide
  obtain ⟨⟨protocol, settings⟩, hsettings⟩ := Option.isSome_iff_exists.mp ((protocolSettings_isSome U s).mpr hp)
  obtain ⟨fm, hfm, -⟩ := finalmask_spec (s := s) hm
  have hstream : stream J noiseItems s (some m) = some (streamOf J s m fm) := by
    rw [stream, hfm]
    rfl
  refine ⟨fm, putIf ((false ∨ m.mux) ∧ muxable s) (JsonObject.empty |>.put "tag" (.str tag)
    |>.put "protocol" (.str protocol) |>.put "settings" (.obj settings)
    |>.put "streamSettings" (.obj (streamOf J s m fm))) "mux" (.obj muxSettings), hfm, ?_, ?_, fun hmux hs => ?_⟩
  · rw [outbound, if_neg hraw, hsettings, hstream]
    rfl
  · rw [sub_putIf_ne (by decide), sub_put_self]
  · rw [get?_putIf_self, if_pos (decide_eq_true ⟨.inr hmux, hs⟩)]

end

/-! ## What compatibility says of a server

Compatibility asks something of the server for each layer. Taken apart by the kinds of masks this
gives what a server has to have for the layer to be applied. -/

namespace Masks

section
variable {U : Jvm} {s : Server} {m : Mask}

/-- What each layer of a signature asks of the server. -/
structure Suits (m : Mask) (s : Server) : Prop where
  sni : m.sni ≠ "" → s.security = "tls" ∧ s.protocol ≠ "hysteria2" ∧ s.isTcpBased = true ∧ s.pcs ≠ ""
  alpn : m.alpn ≠ "" → s.security = "tls" ∧ s.protocol ≠ "hysteria2" ∧ s.isTcpBased = true
  mss : 0 < m.mss → s.isTcpBased = true ∧ m.viaByeDpi = false
  mux : m.mux = true → muxable s = true
  tfo : m.tfo = true → s.isTcpBased = true ∧ m.viaByeDpi = false
  ipv6 : m.ipv6 = true → m.viaByeDpi = false

/-- A mask that is offered for a server suits it. -/
theorem suits_of_signatureOk (h : signatureOk U m s = true) : Suits m s := by
  rw [signatureOk] at h
  split at h
  · cases h
  rename_i hsni
  split at h
  · cases h
  rename_i halpn
  split at h
  · cases h
  split at h
  · cases h
  split at h
  · cases h
  rename_i hmss
  split at h
  · cases h
  rename_i hmux
  split at h
  · cases h
  rename_i htfo
  split at h
  · cases h
  rename_i hipv6
  -- each test that was passed over, read as what it rules out
  simp only [Bool.and_eq_true, Bool.or_eq_true, Bool.not_eq_true', Bool.and_eq_false_iff, decide_eq_true_eq,
    decide_eq_false_iff_not, not_and, not_or, not_not] at hsni halpn hmss hmux htfo hipv6
  refine ⟨fun h => ?_, fun h => ?_, fun h => ?_, fun h => ?_, fun h => ?_, fun h => ?_⟩
  · obtain ⟨⟨⟨htls, hp⟩, htcp⟩, hpcs⟩ := hsni h
    exact ⟨htls, hp, Bool.not_eq_false _ ▸ htcp, hpcs⟩
  · obtain ⟨⟨htls, hp⟩, htcp⟩ := halpn h
    exact ⟨htls, hp, Bool.not_eq_false _ ▸ htcp⟩
  · obtain ⟨htcp, hvia⟩ := hmss h
    exact ⟨Bool.not_eq_false _ ▸ htcp, Bool.eq_false_iff.mpr hvia⟩
  · exact Bool.not_eq_false _ ▸ hmux h
  · obtain ⟨htcp, hvia⟩ := htfo h
    exact ⟨Bool.not_eq_false _ ▸ htcp, Bool.eq_false_iff.mpr hvia⟩
  · exact Bool.eq_false_iff.mpr (hipv6 h).1.1

end

section
variable {s : Server} {m : NamedMask}

/-- WireGuard does not run on TCP, so it takes noise. -/
theorem not_tcp_of_wireguard (h : s.protocol = "wireguard") : s.isTcpBased = false := by
  rw [Server.isTcpBased, h]
  rfl

/-- Changing ports are for WireGuard. -/
theorem wireguard_of_hop (h : compatible0 m s = true) (hhop : m.hop ≠ "") : s.protocol = "wireguard" := by
  rw [compatible0] at h
  split at h
  · rw [isWarp, Bool.and_eq_true, decide_eq_true_eq] at h
    exact h.1
  · exact of_decide_eq_true h

/-- Noise is for datagrams, and not for raw outbounds. -/
theorem not_tcp_of_noise (h : compatible0 m s = true) (hnoise : m.hasNoise = true) :
    s.isTcpBased = false ∧ s.protocol ≠ "xray" := by
  have hwireguard : s.protocol = "wireguard" → s.isTcpBased = false ∧ s.protocol ≠ "xray" := by
    intro hw
    refine ⟨not_tcp_of_wireguard hw, ?_⟩
    rw [hw]
    decide
  by_cases hhop : m.hop = ""
  · have hwarp : m.hop ≠ HOP_WARP := by
      rw [hhop]
      decide
    rw [compatible0, if_neg hwarp, if_neg (not_not.mpr hhop)] at h
    split at h
    · exact hwireguard (of_decide_eq_true h)
    · rw [Bool.and_eq_true, Bool.not_eq_true', decide_eq_true_eq] at h
      exact h
  · exact hwireguard (wireguard_of_hop h hhop)

/-- A mask without either is for raw outbounds when it is the default one; otherwise a
local engine and cuts are for TCP. -/
theorem plain_cases (h : compatible0 m s = true) (hhop : m.hop = "") (hnoise : m.hasNoise = false) :
    (s.protocol = "xray" ∧ m.id = DEFAULT_ID) ∨
      s.protocol ≠ "xray" ∧ (m.viaByeDpi = true → s.isTcpBased = true) ∧ (m.packets ≠ "" → s.isTcpBased = true) := by
  have hwarp : m.hop ≠ HOP_WARP := by
    rw [hhop]
    decide
  have hpreset : ¬(m.noise ≠ "" && m.noise ∈ WG_NOISE_IDS) = true := by
    rw [Mask.hasNoise, Bool.or_eq_false_iff] at hnoise
    rw [hnoise.1, Bool.false_and]
    decide
  rw [compatible0, if_neg hwarp, if_neg (not_not.mpr hhop), if_neg hpreset, hnoise, if_neg Bool.false_ne_true] at h
  split at h
  · rename_i hx
    exact .inl ⟨hx, of_decide_eq_true h⟩
  · rename_i hx
    split at h
    · cases h
    · rename_i hvia
      split at h
      · cases h
      · split at h
        · cases h
        · rename_i hcuts
          simp only [Bool.and_eq_true, Bool.not_eq_true', not_and, Bool.not_eq_false, decide_eq_true_eq]
            at hvia hcuts
          exact .inr ⟨hx, hvia, hcuts⟩

end

/-! ## The masks there are

Masks come from the tables of the program or from the user. Both kinds are well made: the first
by looking at each, the second because they were checked when they were read. -/

/-- What the masks of the program and those `fromJson` lets through have in common. -/
structure WellMade (J : OrgJson) (quic : String → ℕ → String) (m : NamedMask) : Prop where
  cuts : m.packets ≠ "" → m.hop = "" ∧ m.hasNoise = false
  noise : m.hasNoise = true → (noiseFor (noiseItems quic) m.toMask).isSome = true
  legible : Legible J (noiseItems quic) m.toMask
  alpn : m.alpn ≠ "" → m.alpn ∈ ALPNS
  default : m.id = DEFAULT_ID → ∀ l, m.asks l = false

/-- The presets are JSON arrays: those that are written out, and those that `QuicInitial.noise` makes, as
`presetsRead_of_noise` shows. -/
def PresetsRead (J : OrgJson) (quic : String → ℕ → String) : Prop :=
  ∀ id text, noiseItems quic id = some text → ∃ items, J.parseArray text = some items

/-- What can be told of a built-in mask by looking at it. -/
def builtIn (m : NamedMask) : Bool :=
  decide ((m.packets ≠ "" → m.hop = "" ∧ m.noise = "") ∧ m.noiseJson = "" ∧
    (m.noise ≠ "" → m.noise ∈ NOISE_IDS ++ WG_NOISE_IDS) ∧ (m.alpn ≠ "" → m.alpn ∈ ALPNS)) &&
  (m.id ≠ DEFAULT_ID || decide (m.toMask = chrome))

/-- Every built-in mask is made from the built-in parts. -/
theorem builtIn_all : ∀ m ∈ ALL, builtIn m = true := by decide +kernel

/-- **Every built-in mask is well made**, once its noise can be read. -/
theorem wellMade_of_mem_all {J : OrgJson} {quic : String → ℕ → String} (hread : PresetsRead J quic)
    {m : NamedMask} (hm : m ∈ ALL) : WellMade J quic m := by
  have hb := builtIn_all m hm
  rw [builtIn, Bool.and_eq_true, decide_eq_true_eq, Bool.or_eq_true, decide_eq_true_eq, decide_eq_true_eq] at hb
  obtain ⟨⟨hcuts, hown, hpreset, halpn⟩, hdefault⟩ := hb
  have hfor : noiseFor (noiseItems quic) m.toMask = if m.noise ≠ "" then noiseItems quic m.noise else none := by
    rw [noiseFor, if_neg (not_not.mpr hown)]
  refine ⟨fun h => ⟨(hcuts h).1, ?_⟩, fun h => ?_, fun text htext => ?_, halpn, fun h l => ?_⟩
  · rw [Mask.hasNoise, (hcuts h).2, hown]
    rfl
  -- a built-in mask has no text of its own, so its noise is a preset
  · have hnoise : m.noise ≠ "" := by
      intro hno
      rw [Mask.hasNoise, hno, hown] at h
      cases h
    rw [hfor, if_pos hnoise, isSome_noiseItems]
    exact hpreset hnoise
  · rw [hfor] at htext
    split at htext
    · exact hread _ _ htext
    · cases htext
  · rw [hdefault.resolve_left (not_not.mpr h)]
    cases l <;> rfl

/-- What the platform prints, it reads. -/
def ArraysReread (J : OrgJson) : Prop :=
  ∀ text a, J.parseArray text = some a → ∃ a', J.parseArray (J.text (.arr a)) = some a'

/-- **So is every mask of one's own that was accepted.** -/
theorem wellMade_of_fromJson {P : MyMasks.Platform} (hread : PresetsRead P.json P.quic) (hreread : ArraysReread P.json)
    {o : JsonObject} {m : OwnMask} (h : MyMasks.fromJson P o = .ok m) :
    WellMade P.json P.quic m.toNamedMask := by
  have hm := MyMasks.accepted_of_fromJson P h
  refine ⟨fun hp => ⟨(hm.cuts hp).1, ?_⟩, fun hn => ?_, fun text htext => ?_, hm.alpn, fun hid => ?_⟩
  -- cuts and noise exclude each other in an accepted mask
  · rw [Mask.hasNoise, (hm.cuts hp).2.1, (hm.cuts hp).2.2]
    rfl
  · rw [noiseFor]
    -- noise is the mask's own, or one of the presets
    by_cases hown : m.noiseJson = ""
    · have hnoise : m.noise ≠ "" := by
        intro hno
        rw [Mask.hasNoise, hno, hown] at hn
        cases hn
      rw [if_neg (not_not.mpr hown), if_pos hnoise]
      exact hm.noise hnoise
    · rw [if_pos hown]
      rfl
  · rw [noiseFor] at htext
    split at htext
    · rename_i hown
      obtain ⟨nj, a, ha, htext'⟩ := hm.noiseJson hown
      rw [← Option.some.inj htext, htext']
      exact hreread nj a ha
    · split at htext
      · exact hread _ _ htext
      · cases htext
  · -- the id of an own mask begins otherwise
    obtain ⟨d, hd⟩ := hm.id
    have hchars := congrArg String.toList (hd.symm.trans hid)
    rw [String.toList_append] at hchars
    cases hchars

/-- A mask of the program, or one of the user's own that was let through. -/
def Known (P : MyMasks.Platform) (m : NamedMask) : Prop :=
  m ∈ ALL ∨ ∃ o own, MyMasks.fromJson P o = .ok own ∧ own.toNamedMask = m

theorem Known.wellMade {P : MyMasks.Platform} {m : NamedMask} (h : Known P m) (hread : PresetsRead P.json P.quic)
    (hreread : ArraysReread P.json) : WellMade P.json P.quic m := by
  rcases h with hall | ⟨o, own, hown, rfl⟩
  · exact wellMade_of_mem_all hread hall
  · exact wellMade_of_fromJson hread hreread hown

/-! ## Which layers are applied

Two kinds of layers can be asked for and not applied: an engine in front of a server without TCP,
and names for a protocol without TLS. All others are applied, layer by layer. -/

/-- The servers an outbound can be built for. -/
def Buildable (J : OrgJson) (s : Server) : Prop :=
  s.protocol ∈ PROTOCOLS ∨ s.protocol = "xray" ∧ (J.parseObject s.extra).isSome = true

section
variable {J : OrgJson} {U : Jvm} {quic : String → ℕ → String} {s : Server} {m : NamedMask}

/-- A mask for a raw outbound asks for nothing. -/
theorem asks_nothing (hm : WellMade J quic m) (h : compatible0 m s = true) (hx : s.protocol = "xray") (l : Layer) :
    m.asks l = false := by
  have hhop : m.hop = "" := by
    by_contra hne
    have hw := wireguard_of_hop h hne
    rw [hx] at hw
    revert hw
    decide
  have hnoise : m.hasNoise = false := by
    by_contra hne
    exact (not_tcp_of_noise h (Bool.not_eq_false _ ▸ hne)).2 hx
  rcases plain_cases h hhop hnoise with ⟨-, hid⟩ | ⟨hne, -⟩
  · exact hm.default hid l
  · exact absurd hx hne

/-- A layer that compatibility does not secure: an engine before datagrams, and names for
a protocol without TLS. -/
def Lost (m : Mask) (s : Server) : Layer → Prop
  | .dialer => m.hop ≠ "" ∨ m.hasNoise = true
  | .sni => s.protocol ∈ ["socks", "shadowsocks"]
  | .alpn => s.protocol ∈ ["socks", "shadowsocks"]
  | _ => False

/-- TLS is kept on every protocol that has a TCP stream of its own. -/
theorem security_eq_tls (hsec : s.security = "tls") (htcp : s.isTcpBased = true)
    (hp : s.protocol ∉ ["socks", "shadowsocks"]) : security s = "tls" := by
  rw [Server.isTcpBased, Bool.and_eq_true, Bool.and_eq_true, decide_eq_true_eq] at htcp
  have hudp := htcp.1.1
  simp only [Server.UDP_PROTOCOLS, List.mem_cons, List.not_mem_nil, or_false, not_or] at hudp hp
  rw [security, if_neg hudp.1, if_neg, hsec]
  simp only [List.mem_cons, List.not_mem_nil, or_false, not_or]
  exact ⟨hudp.2, hp.1, hp.2⟩

/-- The layers that are not lost are applied. -/
theorem carries_of_not_lost (hm : WellMade J quic m) (h : compatible U m s = true) {fm o : JsonObject}
    (hfm : finalmask J (noiseItems quic) s (some m.toMask) = some fm)
    (hst : sub o "streamSettings" = streamOf J s m.toMask fm)
    (hmux : m.mux = true → muxable s = true → o.get? "mux" = some (.obj muxSettings)) {l : Layer}
    (hl : m.asks l = true) (hlost : ¬Lost m.toMask s l) : Carries J (noiseItems quic) m.toMask o l := by
  rw [compatible, Bool.and_eq_true] at h
  obtain ⟨hsig, hcase⟩ := h
  have hsuits := suits_of_signatureOk hsig
  obtain ⟨fm', hfm', hcuts, hnoise, hhop⟩ := finalmask_spec (s := s) hm.legible
  obtain rfl : fm = fm' := Option.some.inj (hfm.symm.trans hfm')
  -- a mask that asks for something is no default one, so the cases for engines and cuts apply
  have hplain : m.hop = "" → m.hasNoise = false →
      (m.viaByeDpi = true → s.isTcpBased = true) ∧ (m.packets ≠ "" → s.isTcpBased = true) := by
    intro hnohop hnonoise
    rcases plain_cases hcase hnohop hnonoise with ⟨-, hid⟩ | ⟨-, hboth⟩
    · rw [hm.default hid l] at hl
      cases hl
    · exact hboth
  have hdirect : m.viaByeDpi = false → ¬(m.viaByeDpi ∧ s.isTcpBased) := by
    intro hvia hboth
    rw [hvia] at hboth
    exact Bool.false_ne_true hboth.1
  rw [Carries, hst]
  cases l with
  -- a mask that cuts has neither hop nor noise, so compatibility asked for TCP
  | fragment =>
    have hpackets : m.packets ≠ "" := of_decide_eq_true hl
    obtain ⟨hnohop, hnonoise⟩ := hm.cuts hpackets
    have htcp := (hplain hnohop hnonoise).2 hpackets
    exact ⟨⟨fragment m.toMask, cuts_fragment _, mem_streamOf_finalmask (hcuts hpackets htcp)⟩, nofun⟩
  | noise =>
    obtain ⟨text, htext⟩ := Option.isSome_iff_exists.mp (hm.noise hl)
    obtain ⟨items, hitems⟩ := hm.legible text htext
    have hudp := (not_tcp_of_noise hcase hl).1
    exact ⟨⟨text, items, htext, hitems, mem_streamOf_finalmask (hnoise hudp text items htext hitems)⟩, nofun⟩
  -- only WireGuard hops
  | hop =>
    have hasked : m.hop ≠ "" := of_decide_eq_true hl
    exact ⟨⟨hopSettings m.toMask, hops_hopSettings _,
      mem_streamOf_finalmask (hhop hasked (wireguard_of_hop hcase hasked))⟩, nofun⟩
  -- the engine of a mask without datagrams is in front of TCP alone
  | dialer =>
    obtain ⟨hnohop, hnonoise⟩ := not_or.mp hlost
    have htcp := (hplain (not_not.mp hnohop) (Bool.eq_false_iff.mpr hnonoise)).1 hl
    refine ⟨?_, nofun⟩
    rw [InStream, sub_streamOf_sockopt, get?_sockopt_dialer, if_pos ⟨hl, htcp⟩]
  -- the socket options are those of a connection without an engine
  | mss =>
    have hasked : 0 < m.mss := of_decide_eq_true hl
    obtain ⟨htcp, hvia⟩ := hsuits.mss hasked
    refine ⟨?_, nofun⟩
    rw [InStream, sub_streamOf_sockopt]
    exact (sockopt_direct (hdirect hvia)).1 hasked htcp
  | tfo =>
    obtain ⟨htcp, hvia⟩ := hsuits.tfo hl
    refine ⟨?_, nofun⟩
    rw [InStream, sub_streamOf_sockopt]
    exact (sockopt_direct (hdirect hvia)).2.1 hl htcp
  | ipv6 =>
    refine ⟨?_, nofun⟩
    rw [InStream, sub_streamOf_sockopt]
    exact (sockopt_direct (hdirect (hsuits.ipv6 hl))).2.2 hl
  | mux => exact ⟨trivial, fun _ => hmux hl (hsuits.mux hl)⟩
  | sni =>
    have hasked : m.sni ≠ "" := of_decide_eq_true hl
    obtain ⟨hsec, hp, htcp, hpcs⟩ := hsuits.sni hasked
    refine ⟨?_, nofun⟩
    rw [InStream, sub_streamOf_tls]
    exact tls_sni (security_eq_tls hsec htcp hlost) hp hpcs hasked _ _
  | alpn =>
    have hasked : m.alpn ≠ "" := of_decide_eq_true hl
    obtain ⟨hsec, hp, htcp⟩ := hsuits.alpn hasked
    refine ⟨?_, nofun⟩
    rw [InStream, sub_streamOf_tls]
    exact tls_alpn (security_eq_tls hsec htcp hlost) hp (hm.alpn hasked) _ _

/-- Those that are lost are not. -/
theorem not_carries_of_lost (h : compatible U m s = true) {fm o : JsonObject}
    (hst : sub o "streamSettings" = streamOf J s m.toMask fm) {l : Layer} (hlost : Lost m.toMask s l) :
    ¬Carries J (noiseItems quic) m.toMask o l := by
  rw [compatible, Bool.and_eq_true] at h
  rw [Carries, hst]
  rintro ⟨hin, -⟩
  cases l with
  | dialer =>
    -- hop and noise go with datagrams, and there no engine is dialled
    have hudp : s.isTcpBased = false := by
      rcases hlost with hhop | hnoise
      · exact not_tcp_of_wireguard (wireguard_of_hop h.2 hhop)
      · exact (not_tcp_of_noise h.2 hnoise).1
    rw [InStream, sub_streamOf_sockopt, get?_sockopt_dialer, if_neg (fun hboth => by simp [hudp] at hboth)] at hin
    cases hin
  | sni =>
    rw [InStream, sub_streamOf_tls, no_tls hlost] at hin
    cases hin
  | alpn =>
    rw [InStream, sub_streamOf_tls, no_tls hlost] at hin
    cases hin
  | _ => exact hlost

end

section
variable {P : MyMasks.Platform}

/-- When a compatible mask is applied in full. -/
theorem applied_in_full_iff (hread : PresetsRead P.json P.quic) (hreread : ArraysReread P.json) {m : NamedMask}
    (hm : Known P m) {s : Server} (h : compatible P.jvm m s = true) (tag : String) :
    AppliedInFull P.json P.jvm (noiseItems P.quic) s tag m.toMask ↔
      Buildable P.json s ∧ ¬(m.viaByeDpi = true ∧ (m.hop ≠ "" ∨ m.hasNoise = true)) ∧
        ¬((m.sni ≠ "" ∨ m.alpn ≠ "") ∧ s.protocol ∈ ["socks", "shadowsocks"]) := by
  have hwell := hm.wellMade hread hreread
  by_cases hx : s.protocol = "xray"
  · -- a raw outbound is used as it is, and its mask asks for nothing
    rw [compatible, Bool.and_eq_true] at h
    have hnothing := asks_nothing hwell h.2 hx
    constructor
    · rintro ⟨o, ho, -⟩
      rw [outbound, if_pos hx] at ho
      obtain ⟨raw, hraw, -⟩ := Option.map_eq_some_iff.mp ho
      refine ⟨.inr ⟨hx, by rw [hraw]; rfl⟩, fun hvia => ?_, fun hnames => ?_⟩
      · exact Bool.false_ne_true ((hnothing .dialer).symm.trans hvia.1)
      · rcases hnames.1 with hsni | halpn
        · exact Bool.false_ne_true ((hnothing .sni).symm.trans (decide_eq_true hsni))
        · exact Bool.false_ne_true ((hnothing .alpn).symm.trans (decide_eq_true halpn))
    · rintro ⟨hbuild, -, -⟩
      -- `xray` is no protocol with settings of its own
      have hraw : (P.json.parseObject s.extra).isSome = true := by
        rcases hbuild with hp | ⟨-, hraw⟩
        · rw [hx] at hp
          exact absurd hp (by decide)
        · exact hraw
      obtain ⟨raw, hraw⟩ := Option.isSome_iff_exists.mp hraw
      refine ⟨raw.put "tag" (.str tag), by rw [outbound, if_pos hx, hraw]; rfl, fun l hl => ?_⟩
      rw [hnothing l] at hl
      cases hl
  · have hbuild : Buildable P.json s ↔ s.protocol ∈ PROTOCOLS := or_iff_left fun hraw => hx hraw.1
    rw [hbuild]
    constructor
    · rintro ⟨o, ho, hall⟩
      have hp : s.protocol ∈ PROTOCOLS := by
        rw [outbound, if_neg hx] at ho
        obtain ⟨settings, hsettings, -⟩ := Option.bind_eq_some_iff.mp ho
        exact (protocolSettings_isSome P.jvm s).mp (by rw [hsettings]; rfl)
      -- the outbound is the built one, and a lost layer asked for would be missing in it
      obtain ⟨fm, o', hfm, ho', hst, -⟩ := outbound_built (U := P.jvm) hwell.legible hp tag
      obtain rfl : o = o' := Option.some.inj (ho.symm.trans ho')
      refine ⟨hp, fun hvia => ?_, fun hnames => ?_⟩
      · exact not_carries_of_lost h hst (l := .dialer) hvia.2 (hall .dialer hvia.1)
      · rcases hnames.1 with hsni | halpn
        · exact not_carries_of_lost h hst (l := .sni) hnames.2 (hall .sni (decide_eq_true hsni))
        · exact not_carries_of_lost h hst (l := .alpn) hnames.2 (hall .alpn (decide_eq_true halpn))
    · rintro ⟨hp, hengine, hnames⟩
      obtain ⟨fm, o, hfm, ho, hst, hmux⟩ := outbound_built (U := P.jvm) hwell.legible hp tag
      -- what could be lost is what the condition excludes
      refine ⟨o, ho, fun l hl => carries_of_not_lost hwell h hfm hst hmux hl fun hlost => ?_⟩
      cases l with
      | dialer => exact hengine ⟨hl, hlost⟩
      | sni => exact hnames ⟨.inl (of_decide_eq_true hl), hlost⟩
      | alpn => exact hnames ⟨.inr (of_decide_eq_true hl), hlost⟩
      | _ => exact hlost

end

/-! ## A mask that is not

A platform for the examples, with the printer and the reader of this development. -/

/-- A phone whose JSON has no fractions. -/
def samplePlatform : MyMasks.Platform where
  json := { JsonText.library with
    parseArray := fun s => (JsonText.library.parseArray s).filter Json.plainList }
  jvm := .ascii
  quic _ _ := items [quicLike]
  digest _ := "00000000"

/-! ### The presets are read

Evaluating the reader on the texts is slow, so they are shown to be what the printer
makes of arrays. -/

section
open JsonText (render renderList renderTail renderMembers renderMembersTail renderString escapeChar)

/-- A text JSON prints as it is. -/
def unescaped (s : String) : Bool := s.toList.all fun c => escapeChar c = [c]

/-- A text that needs no escape is printed between quotes as it is. -/
theorem renderString_of_unescaped {s : String} (h : unescaped s = true) :
    renderString s = '"' :: (s.toList ++ ['"']) := by
  have hflat : ∀ l : List Char, (l.all fun c => escapeChar c = [c]) = true → l.flatMap escapeChar = l := by
    intro l hl
    induction l with
    | nil => rfl
    | cons c l ih =>
      rw [List.all_cons, Bool.and_eq_true, decide_eq_true_eq] at hl
      rw [List.flatMap_cons, hl.1, ih hl.2, List.singleton_append]
  rw [renderString, hflat _ h]

/-- An item of a preset is a value as JSON prints it. -/
def Printed (text : String) : Prop := ∃ v, text = .ofList (render v) ∧ Json.plain v = true

/-- An item of random bytes is printed as the source writes it. -/
theorem printed_rand {range delay : String} (hr : unescaped range = true) (hd : unescaped delay = true) :
    Printed (rand range delay) := by
  have hkey : unescaped "rand" = true ∧ unescaped "delay" = true := by decide +kernel
  refine ⟨.obj [("rand", .str range), ("delay", .str delay)], ?_, by
    simp [Json.plain, Json.plainObject, Assoc.keys]⟩
  apply String.toList_inj.mp
  rw [String.toList_ofList, render, renderMembers, render, renderMembersTail, render, renderMembersTail,
    renderString_of_unescaped hr, renderString_of_unescaped hd, renderString_of_unescaped hkey.1,
    renderString_of_unescaped hkey.2]
  unfold rand
  simp

theorem printed_exp {packet delay : String} (hp : unescaped packet = true) (hd : unescaped delay = true) :
    Printed (exp packet delay) := by
  have hkey : unescaped "type" = true ∧ unescaped "exp" = true ∧ unescaped "packet" = true ∧
      unescaped "delay" = true := by decide +kernel
  refine ⟨.obj [("type", .str "exp"), ("packet", .str packet), ("delay", .str delay)], ?_, by
    simp [Json.plain, Json.plainObject, Assoc.keys]⟩
  apply String.toList_inj.mp
  rw [String.toList_ofList, render, renderMembers, render, renderMembersTail, render, renderMembersTail, render,
    renderMembersTail, renderString_of_unescaped hp, renderString_of_unescaped hd,
    renderString_of_unescaped hkey.1, renderString_of_unescaped hkey.2.1, renderString_of_unescaped hkey.2.2.1,
    renderString_of_unescaped hkey.2.2.2]
  unfold exp
  simp

/-- The items of a list joined by commas are what a printer of lists writes. -/
theorem renderTail_toList (v : Json) (vs : List Json) :
    (Text.join "," ((v :: vs).map fun v => .ofList (render v))).toList = render v ++ renderTail vs := by
  induction vs generalizing v with
  | nil => simp [Text.join, renderTail]
  | cons w vs ih =>
    have h := ih w
    rw [List.map_cons] at h
    rw [List.map_cons, List.map_cons, Text.join, String.toList_append, String.toList_append, h, renderTail]
    · simp
    · simp

/-- An array of printed values is what the printer makes of an array. -/
theorem exists_items_eq {xs : List String} (h : ∀ x ∈ xs, Printed x) :
    ∃ vs, items xs = .ofList (render (.arr vs)) ∧ Json.plainList vs = true := by
  obtain ⟨vs, rfl, hvs⟩ : ∃ vs : List Json, xs = vs.map (fun v => .ofList (render v)) ∧ Json.plainList vs = true := by
    induction xs with
    | nil => exact ⟨[], rfl, rfl⟩
    | cons x xs ih =>
      obtain ⟨hx, hxs⟩ := List.forall_mem_cons.mp h
      obtain ⟨v, rfl, hv⟩ := hx
      obtain ⟨vs, rfl, hvs⟩ := ih hxs
      exact ⟨v :: vs, rfl, by rw [Json.plainList, hv, hvs, Bool.and_self]⟩
  refine ⟨vs, ?_, hvs⟩
  apply String.toList_inj.mp
  rw [items, String.toList_append, String.toList_append, String.toList_ofList, render]
  cases vs with
  | nil => rfl
  | cons v vs =>
    rw [renderTail_toList, renderList]
    simp

/-- A preset is an array of values as JSON prints them. -/
def Listed (text : String) : Prop := ∃ xs, text = items xs ∧ ∀ x ∈ xs, Printed x

/-- All presets are lists of such items, whatever the packets are. -/
theorem presets_listed {quic : String → ℕ → String} (hquic : ∀ sni junk, Listed (quic sni junk)) :
    ∀ e ∈ NOISES ++ WG_NOISES quic, Listed e.2 := by
  have hlike : Printed quicLike := printed_exp (by decide +kernel) (by decide +kernel)
  simp only [NOISES, WG_NOISES, List.cons_append, List.nil_append, List.forall_mem_cons]
  refine ⟨⟨_, rfl, ?_⟩, ⟨_, rfl, ?_⟩, ⟨_, rfl, ?_⟩, ⟨_, rfl, ?_⟩, ⟨_, rfl, ?_⟩, ⟨_, rfl, ?_⟩, ⟨_, rfl, ?_⟩,
    ⟨_, rfl, ?_⟩, ⟨_, rfl, ?_⟩, ⟨_, rfl, ?_⟩, ⟨_, rfl, ?_⟩, hquic _ _, hquic _ _, hquic _ _, hquic _ _,
    ⟨_, rfl, ?_⟩, nofun⟩
  all_goals
    simp (disch := decide +kernel) [printed_rand, printed_exp, hlike, List.replicate]

/-- What JSON prints, the platform reads. -/
def ReadsPrinted (J : OrgJson) : Prop :=
  ∀ vs, Json.plainList vs = true → ∃ a, J.parseArray (.ofList (render (.arr vs))) = some a

/-- A reader that reads back what is printed reads all presets. -/
theorem presetsRead_of_listed {J : OrgJson} (hJ : ReadsPrinted J) {quic : String → ℕ → String}
    (hquic : ∀ sni junk, Listed (quic sni junk)) : PresetsRead J quic := by
  intro id text h
  obtain ⟨xs, hxs, hprinted⟩ := presets_listed hquic (id, text) (Assoc.mem_keys_of_get? h)
  obtain ⟨vs, hvs, hplain⟩ := exists_items_eq hprinted
  obtain ⟨a, ha⟩ := hJ vs hplain
  exact ⟨a, by rw [show text = items xs from hxs, hvs, ha]⟩

/-- `QuicInitial.noise`: a packet, and junk behind it. -/
def noise (C : QuicInitial.Crypto) (sni : String) (junk : ℕ) : Draw String :=
  QuicInitial.packet C sni >>= fun p =>
    pure (items (exp ("<b " ++ .ofList (p.flatMap UpdatePolicy.hexByte) ++ ">") "2-5" ::
      List.replicate junk (rand "40-70" "1-3")))

/-- The bytes of a packet in hexadecimal need no escape. -/
theorem unescaped_packet (p : List UInt8) : unescaped ("<b " ++ .ofList (p.flatMap UpdatePolicy.hexByte) ++ ">") = true := by
  have hdigit : ∀ n < 16, escapeChar (Nat.digitChar n) = [Nat.digitChar n] := by decide
  have hopen : ("<b ".toList.all fun c => escapeChar c = [c]) = true := by decide
  have hclose : (">".toList.all fun c => escapeChar c = [c]) = true := by decide
  have hbytes : ((p.flatMap UpdatePolicy.hexByte).all fun c => escapeChar c = [c]) = true := by
    rw [List.all_eq_true]
    intro c hc
    obtain ⟨b, -, hb⟩ := List.mem_flatMap.mp hc
    have hlt := b.toNat_lt
    obtain rfl | hb := List.mem_cons.mp hb
    · exact decide_eq_true (hdigit _ (by omega))
    · rw [List.mem_singleton.mp hb]
      exact decide_eq_true (hdigit _ (by omega))
  have htext : (String.ofList (p.flatMap UpdatePolicy.hexByte)).toList = p.flatMap UpdatePolicy.hexByte := String.toList_ofList
  unfold unescaped
  rw [String.toList_append, String.toList_append, htext, List.all_append, List.all_append, hopen, hbytes, hclose]
  rfl

/-- Whatever is drawn for a packet, the noise made of it is such an array. -/
theorem listed_noise {C : QuicInitial.Crypto} {sni : String} {junk : ℕ} {r : ℕ → ℕ} {text : String}
    (h : (noise C sni junk r).1 = some text) : Listed text := by
  obtain ⟨p, -, htext⟩ := Draw.exists_of_bind_some h
  refine ⟨_, (Option.some.inj htext).symm, ?_⟩
  intro x hx
  obtain rfl | hx := List.mem_cons.mp hx
  · exact printed_exp (unescaped_packet p) (by decide +kernel)
  · rw [List.eq_of_mem_replicate hx]
    exact printed_rand (by decide +kernel) (by decide +kernel)

/-- The presets are read as the app makes them. -/
theorem presetsRead_of_noise {J : OrgJson} (hJ : ReadsPrinted J) (C : QuicInitial.Crypto) {quic : String → ℕ → String}
    (hquic : ∀ sni junk, ∃ r, (noise C sni junk r).1 = some (quic sni junk)) : PresetsRead J quic := by
  refine presetsRead_of_listed hJ fun sni junk => ?_
  obtain ⟨r, hr⟩ := hquic sni junk
  exact listed_noise hr

end

theorem sample_presets : PresetsRead samplePlatform.json samplePlatform.quic := by
  refine presetsRead_of_listed ?_ fun _ _ => ⟨_, rfl, fun x hx => ?_⟩
  · intro vs hvs
    refine ⟨vs, ?_⟩
    show ((JsonText.parse (.ofList (JsonText.render (.arr vs)))).bind Json.asArray).filter Json.plainList = some vs
    rw [JsonText.parse_render (v := .arr vs) hvs, Option.bind_some, Json.asArray_arr, Option.filter_some, if_pos hvs]
  · rw [List.mem_singleton.mp hx]
    exact printed_exp (by decide +kernel) (by decide +kernel)

theorem sample_arrays : ArraysReread samplePlatform.json := by
  intro text a h
  obtain ⟨-, hplain⟩ := Option.filter_eq_some_iff.mp h
  have hread : JsonText.parse (.ofList (JsonText.render (.arr a))) = some (.arr a) :=
    JsonText.parse_render (v := .arr a) hplain
  refine ⟨a, ?_⟩
  show ((JsonText.parse (.ofList (JsonText.render (.arr a)))).bind Json.asArray).filter Json.plainList = some a
  rw [hread, Option.bind_some, Json.asArray_arr, Option.filter_some, if_pos hplain]

def wireguardServer : Server :=
  { name := "w", protocol := "wireguard", address := "10.0.0.1", port := 2408, secret := "k", pbk := "p" }

def tlsServer : Server :=
  { name := "t", protocol := "vless", address := "example.org", port := 443, secret := "u", security := "tls" }

/-- Noise and a local engine in one mask: it suits a WireGuard server, which no engine is in
front of. -/
theorem engine_before_datagrams_lost : ∃ own, MyMasks.fromJson samplePlatform
      [("n", .str "z1"), ("dpi", .str "cur")] = .ok own ∧
    compatible .ascii own.toNamedMask wireguardServer = true ∧
    ¬AppliedInFull samplePlatform.json .ascii (noiseItems samplePlatform.quic) wireguardServer "proxy-0"
      own.toMask := by
  have hread : ((MyMasks.fromJson samplePlatform [("n", .str "z1"), ("dpi", .str "cur")]).toOption.map fun own =>
      (compatible .ascii own.toNamedMask wireguardServer, own.viaByeDpi, own.hasNoise)) = some (true, true, true) := by
    decide +kernel
  cases hown : MyMasks.fromJson samplePlatform [("n", .str "z1"), ("dpi", .str "cur")] with
  | error e =>
    rw [hown] at hread
    cases hread
  | ok own =>
    rw [hown] at hread
    obtain ⟨hcompatible, hrest⟩ := Prod.mk.inj (Option.some.inj hread)
    obtain ⟨hvia, hnoise⟩ := Prod.mk.inj hrest
    refine ⟨own, rfl, hcompatible, ?_⟩
    rintro ⟨o, ho, hall⟩
    have hwell := wellMade_of_fromJson sample_presets sample_arrays hown
    obtain ⟨fm, o', -, ho', hst, -⟩ := outbound_built (U := .ascii) (s := wireguardServer) hwell.legible (by decide)
      "proxy-0"
    obtain rfl : o = o' := Option.some.inj (ho.symm.trans ho')
    exact not_carries_of_lost hcompatible hst (l := .dialer) (.inr hnoise) (hall .dialer hvia)

/-- A mask of the program on a server with TLS. -/
theorem applied_in_full_iff_fast : AppliedInFull samplePlatform.json .ascii (noiseItems samplePlatform.quic) tlsServer
    "proxy-0" { firefox with mss := 300, tfo := true } := by
  have hmem : Known samplePlatform { firefox with id := "vc.tfo.mss300", mss := 300, tfo := true } := by
    refine .inl (List.mem_append_left _ (List.mem_append_right _ ?_))
    simp [SIGNATURES]
  exact (applied_in_full_iff sample_presets sample_arrays hmem (s := tlsServer) (by decide) "proxy-0").mpr
    ⟨.inl (by decide), by decide, by decide⟩

end Masks

end VlessCard
