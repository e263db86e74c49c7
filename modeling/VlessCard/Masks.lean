/-
`Masks.kt` and `MyMasks.fromJson`: the masks there are, and which of them a
server is offered.

A mask asks for several things at once, and `compatible` decides by a list of
cases of which the first that applies counts. The masks of the program are
tables; a mask of the user's own is a JSON object, and what is refused is
refused with a text for the user.
-/
import VlessCard.ByeDpi
import VlessCard.JsonText
import VlessCard.Outbound

set_option autoImplicit false

namespace VlessCard

/-- A mask and the id it is chosen by. -/
structure NamedMask extends Mask where
  id : String

/-- A mask the user made. -/
structure OwnMask extends NamedMask where
  title : String

namespace Mask

def signature (m : Mask) : Bool := m.sni ≠ "" || m.alpn ≠ "" || 0 < m.mss || m.mux || m.tfo || m.ipv6

def hasNoise (m : Mask) : Bool := m.noise ≠ "" || m.noiseJson ≠ ""

end Mask

namespace Masks

/-! ## Noise

The presets are JSON texts. Those that look like a greeting of QUIC are made by
`QuicInitial.noise`, which is `quic` here: of a host and a number of junk packets. -/

def rand (range delay : String) : String :=
  "\x7b\"rand\":\"" ++ range ++ "\",\"delay\":\"" ++ delay ++ "\"\x7d"

def exp (packet delay : String) : String :=
  "\x7b\"type\":\"exp\",\"packet\":\"" ++ packet ++ "\",\"delay\":\"" ++ delay ++ "\"\x7d"

def items (xs : List String) : String := "[" ++ Text.join "," xs ++ "]"

def NOISES : List (String × String) :=
  [ ("z1", items [rand "10-60" "5-10", rand "10-60" "5-10", rand "80-200" "5-15"]),
    ("z2", items [exp "<r 2><b 0100 0001 0000 0000 0000 0279 6102 7275 0000 0100 01>" "5-10",
      rand "20-80" "5-10"]),
    ("z3", items (List.replicate 2 (exp "<b 0001 0000 2112 a442><r 12>" "3-8"))),
    ("z4", items (List.replicate 6 (rand "1-16" "1-3"))) ]

/-- The first bytes of a QUIC packet. -/
def quicLike : String := exp "<b c3 00000001 08><r 8><b 00 00 44 d0><r 1150>" "2-5"

def WG_NOISES (quic : String → ℕ → String) : List (String × String) :=
  [ ("z5", items (List.replicate 4 (rand "40-70" "1-3"))),
    ("z6", items [quicLike, quicLike]),
    ("z7", items [exp "<b 16 fefd 0000 0000 0000 0000><r 2><b 01><r 3><b 0000><r 110>" "3-6",
      rand "20-60" "2-4"]),
    ("z8", items (List.replicate 3 (exp "<b 80 60><r 10><r 160>" "20-20"))),
    ("z10", items (rand "900-1200" "1-3" :: List.replicate 6 (rand "10-40" "1-2"))),
    ("z11", items (quicLike :: List.replicate 3 (rand "40-70" "1-3"))),
    ("z12", items (List.replicate 8 (rand "20-60" "8-16"))),
    ("z13", quic "ya.ru" 0),
    ("z14", quic "vk.com" 3),
    ("z15", quic "gosuslugi.ru" 0),
    ("z16", quic "ozon.ru" 3),
    ("z9", items (List.replicate 10 (rand "50-1000" "1-2"))) ]

def NOISE_IDS : List String := ["z1", "z2", "z3", "z4"]

def WG_NOISE_IDS : List String :=
  ["z5", "z6", "z7", "z8", "z10", "z11", "z12", "z13", "z14", "z15", "z16", "z9"]

/-- The ids are those of the tables, whatever the texts. -/
theorem keys_noises (quic : String → ℕ → String) :
    Assoc.keys (NOISES ++ WG_NOISES quic) = NOISE_IDS ++ WG_NOISE_IDS := rfl

def noiseItems (quic : String → ℕ → String) (id : String) : Option String :=
  Assoc.get? (NOISES ++ WG_NOISES quic) id

theorem isSome_noiseItems (quic : String → ℕ → String) (id : String) :
    (noiseItems quic id).isSome = true ↔ id ∈ NOISE_IDS ++ WG_NOISE_IDS := by
  rw [noiseItems, Assoc.get?_isSome_iff, keys_noises]

def HOP_LOCAL : String := "hl"

/-! ## The tables

The tables of the source, entry by entry. Where a family of masks is made by a function there, it
is made by one here. -/

def FINGERPRINTS : List String := ["chrome", "firefox", "safari", "edge", "ios", "android", "qq"]

def REALITY_FPS : List String := ["chrome", "firefox", "safari"]

def WHITE_SNI : List String := ["vk.com", "ya.ru", "gosuslugi.ru", "ozon.ru", "yandex.ru", "vkvideo.ru"]

def ALPNS : List String := ["h2,http/1.1", "http/1.1"]

/-- A way to cut the first bytes of a connection. -/
def cut (packets length delay maxSplit lengths delays : String) : Mask :=
  { fingerprint := "", packets := packets, length := length, delay := delay, maxSplit := maxSplit,
    lengths := lengths, delays := delays }

def FRAGMENTS : List (String × Mask) :=
  [ ("n", cut "" "" "" "" "" ""),
    ("h1", cut "tlshello" "1-3" "1-3" "0" "" ""),
    ("h2", cut "tlshello" "3-8" "2-5" "0" "" ""),
    ("h3", cut "tlshello" "10-30" "5-10" "0" "" ""),
    ("h4", cut "tlshello" "50-100" "10-20" "10" "" ""),
    ("h5", cut "tlshello" "100-200" "10-20" "10" "" ""),
    ("h6", cut "tlshello" "200-400" "5-15" "0" "" ""),
    ("p1", cut "1-1" "1-5" "1-3" "0" "" ""),
    ("p2", cut "1-3" "10-20" "10-20" "0" "" ""),
    ("p3", cut "1-3" "50-100" "5-10" "10" "" ""),
    ("p4", cut "1-5" "100-200" "10-30" "8" "" ""),
    ("p5", cut "1-2" "20-60" "30-60" "4" "" ""),
    ("l1", cut "tlshello" "" "" "0" "1-1,2-4,5-10,20-60" "1-2,2-4,3-6,5-10"),
    ("l2", cut "tlshello" "" "" "0" "90-120,1-2,1-2,1-2,1-2,1-3,1-3,200-400"
      "1-3,1-2,1-2,1-2,1-2,1-2,1-2,1-3"),
    ("l3", cut "1-1" "" "" "0" "1-1,500-1000" "60-120,1-2"),
    ("l4", cut "tlshello" "" "" "0" "40-60,15-20,4-6,1-1,1-1" "1-2,2-4,4-8,8-12,1-2"),
    ("l5", cut "tlshello" "" "" "0" "1-2,30-60,1-2,30-60,1-2,100-200" "5-10,1-2,5-10,1-2,5-10,1-2"),
    ("l6", cut "tlshello" "" "" "0" "70-110,1-1,1-1,1-1,1-1,1-1,1-1,1-1,1-1,300-600"
      "1-2,3-5,3-5,3-5,3-5,3-5,3-5,3-5,3-5,1-2"),
    ("p6", cut "1-4" "1-10" "2-6" "6" "" ""),
    ("h7", cut "tlshello" "1-2" "10-30" "4" "" ""),
    ("p7", cut "1-2" "30-80" "3-8" "0" "" ""),
    ("l7", cut "tlshello" "" "" "0" "1-1,1-1,2-2,3-3,5-5,8-8,13-13,21-21"
      "1-1,1-1,2-2,3-3,5-5,8-8,13-13,21-21") ]

def chrome : Mask := { fingerprint := "chrome" }

def firefox : Mask := { fingerprint := "firefox" }

def safari : Mask := { fingerprint := "safari" }

/-- A ladder: pieces of different lengths. -/
def ladder (m : Mask) (lengths delays : String) : Mask :=
  { m with packets := "tlshello", maxSplit := "0", lengths := lengths, delays := delays }

/-- Cut in pieces of one kind. -/
def pieces (m : Mask) (packets length delay : String) : Mask :=
  { m with packets := packets, length := length, delay := delay, maxSplit := "0" }

/-- Fingerprints and cuts, directly or through the current strategy. -/
def CUTS : List NamedMask :=
  [false, true].flatMap fun via => FRAGMENTS.flatMap fun f => FINGERPRINTS.map fun fp =>
    { f.2 with
      id := fp ++ "." ++ f.1 ++ (if via then ".b" else "")
      fingerprint := fp
      dpi := if via then CURRENT_DPI else "" }

/-- Noise and changing ports, for datagrams. -/
def DATAGRAMS : List NamedMask :=
  (NOISE_IDS.map fun n => ({ chrome with id := "chrome." ++ n, noise := n } : NamedMask)) ++
  (WG_NOISE_IDS.map fun n => ({ chrome with id := "chrome." ++ n, noise := n } : NamedMask)) ++
  [HOP_LOCAL, HOP_WARP].flatMap fun h =>
    ({ chrome with id := "chrome." ++ h, hop := h } : NamedMask) ::
      ["z1", "z5", "z6", "z7", "z9", "z10", "z11", "z12", "z13", "z14", "z15", "z16"].map fun n =>
        { chrome with id := "chrome." ++ n ++ "." ++ h, noise := n, hop := h }

/-- The masks that change more than how the first bytes are cut. -/
def SIGNATURES : List NamedMask :=
  (WHITE_SNI.map fun d => ({ chrome with id := "vc.sni." ++ d, sni := d } : NamedMask)) ++
  (["vk.com", "ya.ru", "yandex.ru", "vkvideo.ru"].map fun d =>
    ({ chrome with
        id := "vc.sni." ++ d ++ ".fast", packets := "tlshello", length := "100-200", delay := "0-1", sni := d } :
      NamedMask)) ++
  ((WHITE_SNI.take 2).map fun d =>
    ({ ladder firefox "90-120,1-2,1-2,1-2,1-2,1-3,1-3,200-400" "1-3,1-2,1-2,1-2,1-2,1-2,1-2,1-3" with
        id := "vc.sni." ++ d ++ ".l2", sni := d } : NamedMask)) ++
  [ { chrome with id := "vc.mss536", mss := 536 },
    { firefox with id := "vc.mss300", mss := 300 },
    { safari with id := "vc.mss120", mss := 120 },
    { chrome with id := "vc.mss88", mss := 88 },
    { ladder firefox "70-110,1-1,1-1,1-1,1-1,1-1,1-1,1-1,1-1,300-600" "1-2,3-5,3-5,3-5,3-5,3-5,3-5,3-5,3-5,1-2" with
      id := "vc.mss120.l6", mss := 120 },
    { chrome with id := "vc.alpn.br", alpn := "h2,http/1.1" },
    { safari with id := "vc.alpn.11", alpn := "http/1.1" },
    { chrome with id := "vc.mux", mux := true },
    { firefox with id := "vc.mux.mss300", mss := 300, mux := true },
    { safari with id := "vc.ghost", alpn := "h2,http/1.1", mss := 300, mux := true },
    { chrome with id := "vc.ghost.sni", sni := "vk.com", mss := 120, mux := true },
    { ladder chrome "1-1,2-4,5-10,20-60" "1-2,2-4,3-6,5-10" with
      id := "vc.ghost.l1", alpn := "h2,http/1.1", mss := 300 },
    { chrome with id := "vc.tfo", tfo := true },
    { firefox with id := "vc.tfo.mss300", mss := 300, tfo := true },
    { chrome with id := "vc.v6", ipv6 := true },
    { ladder chrome "1-1,2-4,5-10,20-60" "1-2,2-4,3-6,5-10" with id := "vc.v6.l1", ipv6 := true },
    { safari with id := "vc.v6.mss300", mss := 300, ipv6 := true } ] ++
  (WHITE_SNI.map fun d => ({ chrome with id := "vc.sni." ++ d ++ ".mss120", sni := d, mss := 120 } : NamedMask)) ++
  [ { pieces chrome "tlshello" "1-3" "1-3" with id := "vc.alpn.br.h1", alpn := "h2,http/1.1" },
    { pieces { fingerprint := "ios" } "1-1" "1-5" "1-3" with id := "vc.alpn.br.p1", alpn := "h2,http/1.1" },
    { ladder safari "1-2,30-60,1-2,30-60,1-2,100-200" "5-10,1-2,5-10,1-2,5-10,1-2" with
      id := "vc.mux.l5", mux := true },
    { chrome with id := "vc.mux.b", dpi := CURRENT_DPI, mux := true },
    { safari with id := "vc.ghost.v6", alpn := "h2,http/1.1", mss := 300, mux := true, ipv6 := true },
    { chrome with id := "vc.ghost.tfo", mss := 120, mux := true, tfo := true },
    { chrome with id := "vc.turbo.sni.tfo", sni := "vk.com", tfo := true },
    { chrome with id := "vc.turbo.v6.tfo", tfo := true, ipv6 := true },
    { chrome with id := "vc.turbo.sni.v6", sni := "ya.ru", ipv6 := true },
    { chrome with id := "vc.turbo.mux.v6", mux := true, ipv6 := true } ]

/-- Fingerprints in front of fixed strategies; the outbound cuts as well as Xray's own do. -/
def FIXED : List NamedMask :=
  (DpiStrategies.BUILT_IN.filter fun st => st.engine ≠ .XRAY).flatMap fun st => FINGERPRINTS.map fun fp =>
    { id := fp ++ ".d:" ++ st.id, fingerprint := fp, dpi := st.id }

def ALL : List NamedMask := CUTS ++ DATAGRAMS ++ SIGNATURES ++ FIXED

/-- `DEFAULT.id`. -/
def DEFAULT_ID : String := "chrome.n"

/-! ## Which masks suit a server

A mask is offered for a server when each of its parts suits it. The cases are tried in turn, and
the first that applies decides. -/

section
variable (U : Jvm)

def isWarp (s : Server) : Bool :=
  s.protocol = "wireguard" && (s.source = "warp" || s.pbk = "bmXOC+F1FxEMF9dyiK2H5/1SUtzH0JuVo51h2wPfgyo=")

/-- Signature layers need a suitable server. -/
def signatureOk (m : Mask) (s : Server) : Bool :=
  let tls := s.security = "tls" && s.protocol ≠ "hysteria2" && s.isTcpBased
  if m.sni ≠ "" && !(tls && s.pcs ≠ "") then false
  else if m.alpn ≠ "" && !tls then false
  else if m.alpn ≠ "" && (s.network = "ws" || s.network = "httpupgrade") && m.alpn ≠ "http/1.1" then false
  else if m.alpn ≠ "" && (s.network = "grpc" || s.network = "h2" || s.network = "xhttp")
    && !Text.startsWith m.alpn "h2" then false
  else if 0 < m.mss && (!s.isTcpBased || m.viaByeDpi) then false
  else if m.mux && !XrayConfigBuilder.muxable s then false
  else if m.tfo && (!s.isTcpBased || m.viaByeDpi) then false
  else if m.ipv6 && (m.viaByeDpi || s.address.toList.all (fun c => (U.digit 10 c).isSome || c = '.')
    || Text.hasChar s.address ':') then false
  else true

/-- The cases; the first that applies decides. -/
def compatible0 (m : NamedMask) (s : Server) : Bool :=
  if m.hop = HOP_WARP then isWarp s
  else if m.hop ≠ "" then s.protocol = "wireguard"
  else if m.noise ≠ "" && m.noise ∈ WG_NOISE_IDS then s.protocol = "wireguard"
  else if m.hasNoise then !s.isTcpBased && s.protocol ≠ "xray"
  else if s.protocol = "xray" then m.id = DEFAULT_ID
  else if m.viaByeDpi && !s.isTcpBased then false
  else if m.viaByeDpi && m.dpi ≠ CURRENT_DPI && m.packets ≠ "" then false
  else if m.packets ≠ "" && !s.isTcpBased then false
  else if s.security = "reality" then m.fingerprint ∈ REALITY_FPS
  else if s.network = "grpc" && s.security = "tls" then m.fingerprint ≠ "android"
  else if s.security ≠ "tls" && s.protocol ≠ "hysteria2" then m.fingerprint = "chrome"
  else if s.protocol = "hysteria2" then m.fingerprint = "chrome" && m.packets = "" && !m.viaByeDpi
  else true

def compatible (m : NamedMask) (s : Server) : Bool := signatureOk U m.toMask s && compatible0 m s

end

end Masks

end VlessCard
