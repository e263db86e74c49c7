/-
`MyMasks.kt`: masks the user builds, or takes from a friend's link.

A mask is a JSON object. `fromJson` checks one field after the other and stops at the
first that will not do, with a text for the user; what it lets through is written
back in one form, of which the id is a digest.
-/
import VlessCard.Lists
import VlessCard.Masks

set_option autoImplicit false

namespace VlessCard

namespace MyMasks

open Masks

/-! ## Texts of one form

The fields of a mask are checked by regular expressions, which are written out as predicates on
characters here. -/

/-- One to four digits. -/
def isNumber (s : String) : Bool :=
  decide (1 ≤ s.toList.length ∧ s.toList.length ≤ 4) && s.toList.all Char.isDigit

/-- `RANGE.matches`: a number, or two with a hyphen between. -/
def isRange (s : String) : Bool :=
  let parts := Text.split s '-'
  decide (parts.length ≤ 2) && parts.all isNumber

/-- `[a-z0-9]`. -/
def isNameChar (c : Char) : Bool := c.isLower || c.isDigit

/-- One label of a name. -/
def isLabel (l : List Char) : Bool :=
  decide (1 ≤ l.length ∧ l.length ≤ 63) && l.all (fun c => isNameChar c || c = '-')
    && l.head?.any isNameChar && l.getLast?.any isNameChar

/-- `SNI.matches`: two labels or more. -/
def isSni (s : String) : Bool :=
  let labels := s.toList.splitOn '.'
  decide (2 ≤ labels.length) && labels.all isLabel

def NOISE_KEYS : List String := ["rand", "type", "packet", "delay"]

/-! ## Writing

A mask is written as an object with the members that differ from their defaults. Its id is a hash
of the same object without the title. -/

/-- The members of a mask; what is not asked for is left out. -/
def toJson (m : OwnMask) : JsonObject :=
  let putText (o : JsonObject) (k v : String) : JsonObject := XrayConfigBuilder.putIf (v ≠ "") o k (.str v)
  let o := JsonObject.empty |>.put "t" (.str m.title) |>.put "fp" (.str m.fingerprint)
  let o := putText o "p" m.packets
  let o := putText o "l" m.length
  let o := putText o "d" m.delay
  let o := XrayConfigBuilder.putIf (m.maxSplit ≠ "" ∧ m.maxSplit ≠ "0") o "ms" (.str m.maxSplit)
  let o := putText o "ls" m.lengths
  let o := putText o "ds" m.delays
  let o := putText o "n" m.noise
  let o := putText o "nj" m.noiseJson
  let o := putText o "h" m.hop
  let o := XrayConfigBuilder.putIf (m.dpi = CURRENT_DPI) o "dpi" (.str m.dpi)
  let o := putText o "sni" m.sni
  let o := putText o "alpn" m.alpn
  let o := XrayConfigBuilder.putIf (0 < m.mss) o "mss" (.int m.mss)
  let o := XrayConfigBuilder.putIf m.mux o "mux" (.bool true)
  let o := XrayConfigBuilder.putIf m.tfo o "tfo" (.bool true)
  XrayConfigBuilder.putIf m.ipv6 o "v6" (.bool true)

/-- What the app asks the platform for. -/
structure Platform where
  json : OrgJson
  jvm : Jvm
  /-- `QuicInitial.noise`. -/
  quic : String → ℕ → String
  /-- The first five bytes of SHA-256 of a text, in hexadecimal. -/
  digest : String → String

variable (P : Platform)

/-- The id of the parameters; the title does not count. -/
def idOf (m : OwnMask) : String := P.digest (P.json.text (.obj (toJson { m with title := "" })))

/-! ## Reading

The checks come in the order of the source, each with its message. What passes is normalised and
gets its id at the end. -/

/-- `require`. -/
def require (c : Bool) (message : String) : Except String Unit := if c then .ok () else .error message

/-- What is said of the cuts. -/
def checkCuts (packets length delay lengths delays : String) : Except String Unit :=
  if packets = "" then .ok ()
  else if lengths = "" then
    require (isRange length && isRange delay) "Дробление: укажите размер и паузу, например 10-30 и 5-10"
  else do
    let a := Text.split lengths ','
    let b := Text.split delays ','
    require ((a.all fun t => isRange (Text.trim t)) && b.all fun t => isRange (Text.trim t))
      "Лесенка: диапазоны через запятую, например 1-1,2-4,5-10"
    require (a.length = b.length) ("Лесенка: длин " ++ toString a.length ++ ", а пауз " ++ toString b.length ++
      " — должно быть поровну")
    require (a.length ≤ 16) "Лесенка: не больше 16 ступенек"

/-- One packet of the noise. -/
def checkPacket (v : Json) : Except String Unit :=
  match v.asObject with
  | none => .error "Свой шум: каждый пакет — объект \x7b…\x7d"
  | some o => do
    require (o.keys.all (· ∈ NOISE_KEYS)) "Свой шум: допустимы поля rand, type, packet, delay"
    require (o.has "rand" || o.has "packet") "Свой шум: у пакета нужен rand или packet"

/-- The noise in the form the library prints; none is the empty text. -/
def checkNoise (nj : String) : Except String String :=
  if nj = "" then .ok ""
  else match P.json.parseArray nj with
    | none =>
      .error "Свой шум: нужен JSON-массив [\x7b\"rand\":\"10-60\",\"delay\":\"5-10\"\x7d]"
    | some a => do
      require (decide (1 ≤ a.length ∧ a.length ≤ 16)) "Свой шум: от 1 до 16 пакетов"
      a.forM checkPacket
      return P.json.text (.arr a)

def fromJson (o : JsonObject) : Except String OwnMask := do
  let J := P.json
  let title := Text.ifEmpty (Text.take 60 (Text.trim (o.optString J "t" ""))) "Моя маскировка"
  let fp := Text.ifEmpty (o.optString J "fp" "chrome") "chrome"
  require (fp ∈ FINGERPRINTS) ("Неизвестный отпечаток: " ++ fp)
  let packets := o.optString J "p" ""
  require (packets = "" || packets = "tlshello" || isRange packets) "Пакеты: «tlshello» или диапазон вида 1-3"
  let length := o.optString J "l" ""
  let delay := o.optString J "d" ""
  let lengths := o.optString J "ls" ""
  let delays := o.optString J "ds" ""
  checkCuts packets length delay lengths delays
  let maxSplit := o.optString J "ms" ""
  require (maxSplit = "" || (Text.toInt? P.jvm maxSplit).any fun n => decide (0 ≤ n.toInt ∧ n.toInt ≤ 64))
    "Макс. кусков: число 0-64"
  let noise := o.optString J "n" ""
  require (noise = "" || (noiseItems P.quic noise).isSome) ("Неизвестный шум: " ++ noise)
  let nj := Text.trim (o.optString J "nj" "")
  let noiseJson ← checkNoise P nj
  let hop := o.optString J "h" ""
  require (hop = "" || hop = HOP_LOCAL || hop = HOP_WARP) "Неизвестный режим смены порта"
  let dpi := if o.optString J "dpi" "" = CURRENT_DPI then CURRENT_DPI else ""
  require (!(packets ≠ "" && (noise ≠ "" || nj ≠ "" || hop ≠ "")))
    "Дробление (TCP) и шум/порты (UDP) — для разных серверов: сделайте две маскировки"
  let sni := P.jvm.lowercase (Text.trim (o.optString J "sni" ""))
  require (sni = "" || isSni sni) "SNI: домен вида vk.com"
  let alpn := Text.replace (o.optString J "alpn" "") " " ""
  require (alpn = "" || alpn ∈ ALPNS) "ALPN: h2,http/1.1 или http/1.1"
  let mss := (o.optInt J "mss" 0).toInt
  require (decide (mss = 0 ∨ 88 ≤ mss ∧ mss ≤ 1460)) "MSS: от 88 до 1460"
  let mux := o.optBoolean J "mux" false
  let tfo := o.optBoolean J "tfo" false
  let v6 := o.optBoolean J "v6" false
  require (!((0 < mss || mux || tfo || sni ≠ "") && (noise ≠ "" || nj ≠ "" || hop ≠ "")))
    "SNI, MSS и «один поток» — для TCP-серверов, шум — для UDP: сделайте две маскировки"
  let norm : OwnMask :=
    { id := "", title := title, fingerprint := fp, packets := packets
      length := if lengths = "" then length else ""
      delay := if lengths = "" then delay else ""
      maxSplit := Text.ifEmpty maxSplit "0", dpi := dpi
      lengths := Text.replace lengths " " "", delays := Text.replace delays " " ""
      noise := noise, hop := hop, noiseJson := noiseJson
      sni := sni, alpn := alpn, mss := mss, mux := mux, tfo := tfo, ipv6 := v6 }
  return { norm with id := "my:" ++ idOf P norm }

/-! ## What is let through

What passes is described by one predicate, check by check. Later modules use it in the place of
the reader. -/

/-- The fields of a form, as the getters read them. -/
def form (J : OrgJson) (o : JsonObject) : OwnMask :=
  { id := "", title := o.optString J "t" "", fingerprint := o.optString J "fp" "chrome"
    packets := o.optString J "p" "", length := o.optString J "l" "", delay := o.optString J "d" ""
    maxSplit := o.optString J "ms" "", dpi := o.optString J "dpi" "", lengths := o.optString J "ls" ""
    delays := o.optString J "ds" "", noise := o.optString J "n" "", hop := o.optString J "h" ""
    noiseJson := o.optString J "nj" "", sni := o.optString J "sni" "", alpn := o.optString J "alpn" ""
    mss := (o.optInt J "mss" 0).toInt, mux := o.optBoolean J "mux" false, tfo := o.optBoolean J "tfo" false
    ipv6 := o.optBoolean J "v6" false }

/-- The one form a mask is kept in; its noise is what the library printed. -/
def norm (r : OwnMask) (noiseJson : String) : OwnMask :=
  { id := "", title := Text.ifEmpty (Text.take 60 (Text.trim r.title)) "Моя маскировка"
    fingerprint := Text.ifEmpty r.fingerprint "chrome", packets := r.packets
    length := if r.lengths = "" then r.length else ""
    delay := if r.lengths = "" then r.delay else ""
    maxSplit := Text.ifEmpty r.maxSplit "0", dpi := if r.dpi = CURRENT_DPI then CURRENT_DPI else ""
    lengths := Text.replace r.lengths " " "", delays := Text.replace r.delays " " ""
    noise := r.noise, hop := r.hop, noiseJson := noiseJson
    sni := P.jvm.lowercase (Text.trim r.sni), alpn := Text.replace r.alpn " " ""
    mss := r.mss, mux := r.mux, tfo := r.tfo, ipv6 := r.ipv6 }

/-- The mask under its id. -/
def settled (n : OwnMask) : OwnMask := { n with id := "my:" ++ idOf P n }

/-- No layer for datagrams is asked for. -/
def Quiet (r : OwnMask) : Prop := (r.noise = "" ∧ Text.trim r.noiseJson = "") ∧ r.hop = ""

/-- The checks a form `r` passes, of which the mask is `n`. -/
structure Passes (n r : OwnMask) : Prop where
  fingerprint : n.fingerprint ∈ FINGERPRINTS
  packets : (r.packets = "" ∨ r.packets = "tlshello") ∨ isRange r.packets = true
  cuts : checkCuts r.packets r.length r.delay r.lengths r.delays = .ok ()
  maxSplit : r.maxSplit = "" ∨ ∃ k, Text.toInt? P.jvm r.maxSplit = some k ∧ 0 ≤ k.toInt ∧ k.toInt ≤ 64
  noise : r.noise = "" ∨ (noiseItems P.quic r.noise).isSome = true
  noiseJson : checkNoise P (Text.trim r.noiseJson) = .ok n.noiseJson
  hop : (r.hop = "" ∨ r.hop = HOP_LOCAL) ∨ r.hop = HOP_WARP
  fragment : r.packets = "" ∨ Quiet r
  sni : n.sni = "" ∨ isSni n.sni = true
  alpn : n.alpn = "" ∨ n.alpn ∈ ALPNS
  mss : r.mss = 0 ∨ 88 ≤ r.mss ∧ r.mss ≤ 1460
  stream : (((¬0 < r.mss ∧ r.mux = false) ∧ r.tfo = false) ∧ n.sni = "") ∨ Quiet r

theorem require_ok_iff {c : Bool} {message : String} {u : Unit} : require c message = .ok u ↔ c = true := by
  cases c with
  | true => exact ⟨fun _ => rfl, fun _ => rfl⟩
  | false => exact ⟨nofun, nofun⟩

/-- **What `fromJson` lets through, and what it makes of it.** -/
theorem fromJson_ok_iff (o : JsonObject) (m : OwnMask) : fromJson P o = .ok m ↔
    ∃ noiseJson, Passes P (norm P (form P.json o) noiseJson) (form P.json o) ∧
      m = settled P (norm P (form P.json o) noiseJson) := by
  rw [fromJson]
  -- the checks become conditions, one by one
  simp only [except_bind_iff, require_ok_iff, Unique.exists_iff, Bool.or_eq_true, decide_eq_true_eq,
    Bool.not_eq_true', Bool.and_eq_false_iff, Bool.or_eq_false_iff, decide_eq_false_iff_not, not_not,
    Option.any_eq_true]
  constructor
  · rintro ⟨hfp, hpackets, hcuts, hsplit, hnoise, noiseJson, hnj, hhop, hfragment, hsni, halpn, hmss, hstream, hm⟩
    refine ⟨noiseJson, ⟨hfp, hpackets, hcuts, hsplit, hnoise, hnj, hhop, hfragment, hsni, halpn, hmss, hstream⟩, ?_⟩
    simp only [settled, norm, form]
    exact (Except.ok.inj hm).symm
  · rintro ⟨noiseJson, h, hm⟩
    simp only [settled, norm, form] at hm
    exact ⟨h.fingerprint, h.packets, h.cuts, h.maxSplit, h.noise, noiseJson, h.noiseJson, h.hop, h.fragment, h.sni,
      h.alpn, h.mss, h.stream, congrArg Except.ok hm.symm⟩

/-- Noise that passed is none, or an array printed again. -/
theorem checkNoise_ok {nj text : String} (h : checkNoise P nj = .ok text) :
    (nj = "" ∧ text = "") ∨ nj ≠ "" ∧ ∃ a, P.json.parseArray nj = some a ∧
      (decide (1 ≤ a.length ∧ a.length ≤ 16) = true ∧ a.forM checkPacket = .ok ()) ∧ text = P.json.text (.arr a) := by
  rw [checkNoise] at h
  split at h
  · rename_i hnj
    exact .inl ⟨hnj, (Except.ok.inj h).symm⟩
  · rename_i hnj
    cases ha : P.json.parseArray nj with
    | none =>
      rw [ha] at h
      cases h
    | some a =>
      rw [ha] at h
      simp only [except_bind_iff, require_ok_iff, Unique.exists_iff] at h
      obtain ⟨hlength, hpackets, h⟩ := h
      exact .inr ⟨hnj, a, rfl, ⟨hlength, hpackets⟩, (Except.ok.inj h).symm⟩

/-- What later readers rely on. -/
structure Accepted (m : OwnMask) : Prop where
  id : ∃ d, m.id = "my:" ++ d
  cuts : m.packets ≠ "" → m.hop = "" ∧ m.noise = "" ∧ m.noiseJson = ""
  noise : m.noise ≠ "" → (noiseItems P.quic m.noise).isSome = true
  noiseJson : m.noiseJson ≠ "" → ∃ nj a, P.json.parseArray nj = some a ∧ m.noiseJson = P.json.text (.arr a)
  alpn : m.alpn ≠ "" → m.alpn ∈ ALPNS

/-- Without layers for datagrams the mask has no noise of its own either. -/
theorem Passes.quiet {n r : OwnMask} (h : Passes P n r) (hr : Quiet r) : n.noiseJson = "" := by
  rcases checkNoise_ok P h.noiseJson with ⟨-, htext⟩ | ⟨hne, -⟩
  · exact htext
  · exact absurd hr.1.2 hne

theorem accepted_of_fromJson {o : JsonObject} {m : OwnMask} (h : fromJson P o = .ok m) : Accepted P m := by
  obtain ⟨noiseJson, hpass, rfl⟩ := (fromJson_ok_iff P o m).mp h
  refine ⟨⟨_, rfl⟩, fun hp => ?_, fun hn => hpass.noise.resolve_left hn, fun hn => ?_,
    fun ha => hpass.alpn.resolve_left ha⟩
  · have hquiet := hpass.fragment.resolve_left hp
    exact ⟨hquiet.2, hquiet.1.1, hpass.quiet P hquiet⟩
  · rcases checkNoise_ok P hpass.noiseJson with ⟨-, htext⟩ | ⟨-, a, ha, -, htext⟩
    · exact absurd htext hn
    · exact ⟨_, a, ha, htext⟩

end MyMasks

end VlessCard
