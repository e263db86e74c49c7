/-
`Route.cs`: what the desktop client reads of a share link, and the Xray configuration it
writes.

The link is cut by `System.Uri`, at the signs of the generic syntax of a URI: the
fragment after the first `#`, the query after the first `?` before it, the path from the
first slash after the authority, and in the authority the credentials before the first
`@` and the port after the host, which may stand in brackets. The options of the query
become a dictionary that does not tell apart the case of letters and refuses a key that
occurs twice. Most options are not looked at. What escaping, host names, identifiers and
letters are is the library's, and a parameter.
-/
import VlessCard.AutoSelector
import VlessCard.Json
import VlessCard.Lists
import VlessCard.Text

set_option autoImplicit false

namespace VlessCard

/-! ## The library

What .NET does with text, addresses and query strings is a parameter, with what is documented of
it as the fields of the structure. Cutting and comparing are written out. -/

/-- The signs that stand unescaped in a query, a percent sign apart. -/
def plainSign (c : Char) : Bool :=
  c.isAlphanum || c = '-' || c = '.' || c = '_' || c = '~' || c = '&' || c = '=' || c = '?'

/-- What `Route.cs` uses of .NET beyond cutting and comparing texts. -/
structure DotNet where
  /-- A component as `Uri` keeps it: what may not stand in a URI is escaped. -/
  escaped : String → String
  /-- `Uri.UnescapeDataString`. -/
  unescape : String → String
  /-- `Host` and `IdnHost` of the host of a link; `none` where it is no host. -/
  host : String → Option (String × String)
  /-- `Guid.TryParse`, and `ToString` of the result. -/
  guid : String → Option String
  /-- `Char.ToUpperInvariant`. -/
  upper : Char → Char
  escaped_plain : ∀ s, (∀ c ∈ s.toList, plainSign c = true) → escaped s = s
  unescape_plain : ∀ s, '%' ∉ s.toList → unescape s = s
  guid_empty : guid "" = none
  guid_form : ∀ s id, guid s = some id → ∀ c ∈ id.toList, c.isAlphanum = true ∨ c = '-'
  upper_ascii : ∀ c, c.toNat < 128 → upper c = c.toUpper

namespace DotNet

/-- `Char.IsWhiteSpace`. -/
def isWhiteSpace (c : Char) : Bool :=
  (9 ≤ c.toNat && c.toNat ≤ 13) || c.toNat == 32 || c.toNat == 0x85 || c.toNat == 0xA0
    || c.toNat == 0x1680 || (0x2000 ≤ c.toNat && c.toNat ≤ 0x200A) || c.toNat == 0x2028
    || c.toNat == 0x2029 || c.toNat == 0x202F || c.toNat == 0x205F || c.toNat == 0x3000

/-- `s.Trim()`. -/
def trim (s : String) : String := .ofList ((s.toList.dropWhile isWhiteSpace).rdropWhile isWhiteSpace)

/-- `s.TrimStart(c)`. -/
def trimStart (s : String) (c : Char) : String := .ofList (s.toList.dropWhile fun x => x = c)

/-- What `StringComparer.OrdinalIgnoreCase` compares. -/
def fold (N : DotNet) (s : String) : String := .ofList (s.toList.map N.upper)

end DotNet

/-! ## `Uri`

`Uri` takes a text apart from its front: scheme, authority, path, query and fragment. Only its
part for schemes without rules of their own is used, and so only that part is modelled. -/

structure Uri where
  scheme : String
  userInfo : String
  host : String
  idnHost : String
  port : ℤ
  query : String
  fragment : String

namespace Uri

def isScheme (s : String) : Bool :=
  match s.toList with
  | [] => false
  | c :: rest => c.isAlpha && rest.all fun c => c.isAlphanum || c = '+' || c = '-' || c = '.'

/-- What follows the scheme and two slashes. -/
def body (text : String) : String := Text.removePrefix (Text.substringAfter text ':') "//"

/-- What stands before the fragment. -/
def main (text : String) : String := Text.substringBefore (body text) '#'

/-- The authority and the path. -/
def hierarchy (text : String) : String := Text.substringBefore (main text) '?'

def authority (text : String) : String := Text.substringBefore (hierarchy text) '/'

def path (text : String) : String := .ofList ((hierarchy text).toList.dropWhile fun c => c ≠ '/')

/-- The credentials, as they are written. -/
def credentials (text : String) : String :=
  if Text.hasChar (authority text) '@' then Text.substringBefore (authority text) '@' else ""

/-- The host and the port. -/
def endpoint (text : String) : String :=
  if Text.hasChar (authority text) '@' then Text.substringAfter (authority text) '@' else authority text

/-- The host with its brackets, and what follows it. -/
def cutHost (l : List Char) : Option (List Char × List Char) :=
  if l.head? = some '[' then
    if ']' ∈ l then some (Chars.before ']' l ++ [']'], Chars.after ']' l) else none
  else some (Chars.before ':' l, l.dropWhile fun c => c ≠ ':')

/-- The port in what follows a host; -1 where there is none. -/
def portOf : List Char → Option ℤ
  | [] => some (-1)
  | c :: digits =>
    if c ≠ ':' then none
    else if digits = [] then some (-1)
    else if digits.all Char.isDigit && Nat.ofDigitChars 10 digits 0 ≤ 65535 then
      some (Nat.ofDigitChars 10 digits 0)
    else none

/-- `new Uri(text)` for a scheme without rules of its own; `none` where it throws. -/
def create (N : DotNet) (text : String) : Option Uri :=
  if !Text.hasChar text ':' || !isScheme (Text.substringBefore text ':')
      || !Text.startsWith (Text.substringAfter text ':') "//" || 0xFFF0 ≤ Text.length text then none
  else
    (cutHost (endpoint text).toList).bind fun cut =>
      (portOf cut.2).bind fun port =>
        if '@' ∈ cut.1 then none
        else (N.host (.ofList cut.1)).map fun host =>
          { scheme := .ofList ((Text.substringBefore text ':').toList.map Char.toLower)
            userInfo := N.escaped (credentials text)
            host := host.1, idnHost := host.2, port
            query := if Text.hasChar (main text) '?' then
              "?" ++ N.escaped (Text.substringAfter (main text) '?') else ""
            fragment := if Text.hasChar (body text) '#' then
              "#" ++ N.escaped (Text.substringAfter (body text) '#') else "" }

end Uri

/-! ## `Route.Parse`

The checks come in the order of the source, and each has its own message. A link is refused by
the first that fails, whatever the later ones would say. -/

/-- The exceptions of `Parse`. -/
inductive Refusal where
  /-- `UriFormatException`. -/
  | uri
  /-- `ArgumentException` of `ToDictionary`. -/
  | duplicate
  | format (message : String)
  deriving DecidableEq

namespace Route

/-- `if (!c) throw new FormatException(message)`. -/
def check (c : Bool) (message : String) : Except Refusal Unit :=
  if c then .ok () else .error (.format message)

def orThrow {α : Type} (refusal : Refusal) : Option α → Except Refusal α
  | some a => .ok a
  | none => .error refusal

/-- The options of a query with their keys, both unescaped. -/
def options (N : DotNet) (query : String) : List (String × String) :=
  ((Text.split (DotNet.trimStart query '?') '&').filter fun x => x ≠ "").map fun x =>
    (N.unescape (Text.substringBefore x '='),
      if Text.hasChar x '=' then N.unescape (Text.substringAfter x '=') else "")

/-- `ToDictionary` with `OrdinalIgnoreCase`; `none` where a key occurs twice. -/
def toDictionary (N : DotNet) (entries : List (String × String)) : Option (OrderedMap String String) :=
  if (entries.map fun e => N.fold e.1).Nodup then some (.ofList (entries.map fun e => (N.fold e.1, e.2))) else none

def get (N : DotNet) (q : OrderedMap String String) (key fallback : String) : String :=
  (q.get? (N.fold key)).getD fallback

/-- The UUID of a link with a port; `none` where the first check fails. -/
def identified (N : DotNet) (u : Uri) : Option String :=
  if u.scheme ≠ "vless" ∨ u.port < 1 ∨ 65535 < u.port then none
  else (N.guid (N.unescape u.userInfo)).filter fun _ => u.host ≠ ""

/-- The route of a link that passed the checks. -/
def ofLink (N : DotNet) (u : Uri) (id : String) (q : OrderedMap String String) : Route :=
  { name := Text.replaceChar (Text.replaceChar (N.unescape (DotNet.trimStart u.fragment '#')) '\n' ' ') '\r' ' '
    host := u.idnHost
    port := Int32.ofInt u.port
    id
    security := get N q "security" "none"
    sni := get N q "sni" (get N q "serverName" u.idnHost)
    fingerprint := get N q "fp" "chrome"
    publicKey := get N q "pbk" ""
    shortId := get N q "sid" ""
    flow := get N q "flow" "" }

/-- `Route.Parse`. -/
def parse (N : DotNet) (text : String) : Except Refusal Route := do
  let u ← orThrow .uri (Uri.create N (DotNet.trim text))
  let id ← orThrow (.format "Нужна ссылка VLESS с UUID и явным портом") (identified N u)
  let q ← orThrow .duplicate (toDictionary N (options N u.query))
  let security := get N q "security" "none"
  let type := get N q "type" "tcp"
  check (type = "tcp" || type = "raw") "В preview поддерживается только TCP/raw"
  check (security = "tls" || security = "reality") "В preview требуется TLS или Reality"
  check (!(get N q "allowInsecure" "" = "1" || get N q "allowInsecure" "" = "true"))
    "Небезопасный TLS не поддерживается"
  check (!(security = "reality" && get N q "pbk" "" = "")) "Не указан публичный ключ Reality"
  check (get N q "flow" "" = "" || get N q "flow" "" = "xtls-rprx-vision") "Неподдерживаемый flow"
  return ofLink N u id q

/-! ## `Route.Config`

The configuration has one inbound and one outbound. Defaults are written out where the phone
leaves them away, which the comparison of both has to look through. -/

/-- The one outbound. -/
def outbound (r : Route) : JsonObject :=
  let tls := JsonObject.empty |>.put "serverName" (.str r.sni) |>.put "fingerprint" (.str r.fingerprint)
  let tls := if r.security = "reality" then
      tls |>.put "publicKey" (.str r.publicKey) |>.put "shortId" (.str r.shortId)
    else tls
  let stream := JsonObject.empty |>.put "network" (.str "tcp") |>.put "security" (.str r.security)
    |>.put (r.security ++ "Settings") (.obj tls)
  let user := JsonObject.empty |>.put "id" (.str r.id) |>.put "encryption" (.str "none") |>.put "flow" (.str r.flow)
  let server := JsonObject.empty |>.put "address" (.str r.host) |>.put "port" (.int r.port.toInt)
    |>.put "users" (.arr [.obj user])
  JsonObject.empty |>.put "protocol" (.str "vless")
    |>.put "settings" (.obj (JsonObject.empty.put "vnext" (.arr [.obj server])))
    |>.put "streamSettings" (.obj stream)

/-- `Config`, before it is written as a text. -/
def config (r : Route) (localPort : Int32) (user pass : String) : JsonObject :=
  let account := JsonObject.empty |>.put "user" (.str user) |>.put "pass" (.str pass)
  let settings := JsonObject.empty |>.put "auth" (.str "password") |>.put "udp" (.bool false)
    |>.put "accounts" (.arr [.obj account])
  let inbound := JsonObject.empty |>.put "listen" (.str "127.0.0.1") |>.put "port" (.int localPort.toInt)
    |>.put "protocol" (.str "socks") |>.put "settings" (.obj settings)
  JsonObject.empty |>.put "log" (.obj (JsonObject.empty.put "loglevel" (.str "none")))
    |>.put "inbounds" (.arr [.obj inbound])
    |>.put "outbounds" (.arr [.obj (outbound r)])

end Route

/-! ## A link at its signs

A link that was accepted is put together from its parts again: none of them holds a sign that
would have ended it. So a link is known by its parts, and parts can be compared instead of texts. -/

namespace Uri

/-- The parts of a link hold none of the signs that end them. -/
structure Signs (scheme credentials endpoint path : String) : Prop where
  inScheme : ':' ∉ scheme.toList
  inCredentials : ∀ c ∈ ['@', '/', '?', '#'], c ∉ credentials.toList
  inEndpoint : ∀ c ∈ ['/', '?', '#'], c ∉ endpoint.toList
  inPath : ∀ c ∈ ['?', '#'], c ∉ path.toList
  rooted : path = "" ∨ path.toList.head? = some '/'

section
variable {text : String}

/-- A text is its scheme and what is behind the two slashes. -/
theorem scheme_body (hcolon : Text.hasChar text ':' = true)
    (hslash : Text.startsWith (Text.substringAfter text ':') "//" = true) :
    text = Text.substringBefore text ':' ++ "://" ++ body text := by
  obtain ⟨t, ht⟩ := of_decide_eq_true hslash
  have hafter : Text.substringAfter text ':' = "//" ++ .ofList t := by
    apply String.toList_injective
    rw [String.toList_append, ← ht]
    exact congrArg _ String.toList_ofList.symm
  have hsep : "://" = ":" ++ "//" := rfl
  rw [body, hafter, Text.removePrefix_append, hsep]
  calc text = Text.substringBefore text ':' ++ ":" ++ Text.substringAfter text ':' := Text.cut_first rfl hcolon
    _ = Text.substringBefore text ':' ++ (":" ++ "//") ++ .ofList t := by
      rw [hafter]
      simp only [String.append_assoc]

/-- The fragment is the rest of the text, if there is one. -/
theorem body_main (text : String) : ∃ rest, body text = main text ++ rest := by
  by_cases h : Text.hasChar (body text) '#' = true
  · exact ⟨"#" ++ Text.substringAfter (body text) '#', by rw [← String.append_assoc]; exact Text.cut_first rfl h⟩
  · have hno := Text.hasChar_eq_false_iff.mp (Bool.not_eq_true _ ▸ h)
    exact ⟨"", by rw [main, Text.substringBefore_of_not_mem hno, String.append_empty]⟩

/-- The hierarchy is the authority and the path. -/
theorem hierarchy_path (text : String) : hierarchy text = authority text ++ path text := by
  apply String.toList_injective
  rw [String.toList_append, authority, path, Text.substringBefore, String.toList_ofList, String.toList_ofList]
  exact (List.takeWhile_append_dropWhile).symm

/-- **A link with credentials and a query**, put together from its parts. -/
theorem link_eq (hcolon : Text.hasChar text ':' = true)
    (hslash : Text.startsWith (Text.substringAfter text ':') "//" = true)
    (hat : Text.hasChar (authority text) '@' = true) (hquery : Text.hasChar (main text) '?' = true) :
    ∃ rest, text = Text.substringBefore text ':' ++ "://" ++
        (credentials text ++ "@" ++ endpoint text ++ path text ++ "?" ++ rest) ∧
      Signs (Text.substringBefore text ':') (credentials text) (endpoint text) (path text) := by
  -- what was cut off at a sign does not hold it
  have hsign : ∀ c ∈ ['?', '#'], c ∉ (hierarchy text).toList := by
    intro c hc
    rcases List.mem_pair.mp hc with rfl | rfl
    · exact Text.not_mem_substringBefore _ _
    · exact fun hmem => Text.not_mem_substringBefore _ _ (Text.mem_of_mem_substringBefore hmem)
  have hauthority : ∀ c ∈ ['/', '?', '#'], c ∉ (authority text).toList := by
    intro c hc
    rcases List.mem_cons.mp hc with rfl | hc
    · exact Text.not_mem_substringBefore _ _
    · exact fun hmem => hsign c hc (Text.mem_of_mem_substringBefore hmem)
  -- the credentials end at the last at sign of the authority
  have hcut : authority text = credentials text ++ "@" ++ endpoint text := by
    rw [credentials, endpoint, if_pos hat, if_pos hat]
    exact Text.cut_first rfl hat
  obtain ⟨fragment, hfragment⟩ := body_main text
  refine ⟨Text.substringAfter (main text) '?' ++ fragment, ?_, Text.not_mem_substringBefore _ _, fun c hc => ?_,
    fun c hc hmem => ?_, fun c hc hmem => ?_, ?_⟩
  -- put together again in the order in which it was cut
  · have hmain : main text = hierarchy text ++ "?" ++ Text.substringAfter (main text) '?' := Text.cut_first rfl hquery
    have hbody : body text = credentials text ++ "@" ++ endpoint text ++ path text ++ "?" ++
        (Text.substringAfter (main text) '?' ++ fragment) := by
      rw [← hcut, ← hierarchy_path, ← String.append_assoc, ← hmain]
      exact hfragment
    rw [← hbody]
    exact scheme_body hcolon hslash
  · rw [credentials, if_pos hat]
    rcases List.mem_cons.mp hc with rfl | hc
    · exact Text.not_mem_substringBefore _ _
    · exact fun hmem => hauthority c hc (Text.mem_of_mem_substringBefore hmem)
  · rw [endpoint, if_pos hat] at hmem
    exact hauthority c hc (Text.mem_of_mem_substringAfter hmem)
  · rw [path, String.toList_ofList] at hmem
    exact hsign c hc ((List.dropWhile_suffix _).subset hmem)
  · -- the path begins where the authority ends
    rw [path]
    generalize (hierarchy text).toList = l
    cases hl : l.dropWhile fun c => c ≠ '/' with
    | nil => exact .inl rfl
    | cons x rest =>
      have hx := List.head?_dropWhile_not (fun c : Char => decide (c ≠ '/')) l
      rw [hl] at hx
      have hslash : x = '/' := not_not.mp (of_decide_eq_false hx)
      rw [String.toList_ofList, hslash]
      exact .inr rfl

/-- The host of a link, with its brackets. -/
def hostText (text : String) : String := .ofList (((cutHost (endpoint text).toList).map Prod.fst).getD [])

/-- An endpoint with a port, its host and the port. -/
structure Ends (endpoint host : String) (port : ℤ) : Prop where
  cut : ∃ tail, cutHost endpoint.toList = some (host.toList, tail) ∧ portOf tail = some port
  positive : 1 ≤ port
  hostNoAt : '@' ∉ host.toList

/-- What the constructor reads. -/
structure Read (N : DotNet) (text : String) (u : Uri) : Prop where
  colon : Text.hasChar text ':' = true
  scheme : isScheme (Text.substringBefore text ':') = true
  slashes : Text.startsWith (Text.substringAfter text ':') "//" = true
  host : ∃ tail, cutHost (endpoint text).toList = some ((hostText text).toList, tail) ∧ portOf tail = some u.port
  noAt : '@' ∉ (hostText text).toList
  names : N.host (hostText text) = some (u.host, u.idnHost)
  lower : u.scheme = .ofList ((Text.substringBefore text ':').toList.map Char.toLower)
  userInfo : u.userInfo = N.escaped (credentials text)
  query : u.query = if Text.hasChar (main text) '?' then
    "?" ++ N.escaped (Text.substringAfter (main text) '?') else ""

/-- Nothing is left out of an endpoint. -/
theorem cutHost_append {l host tail : List Char} (h : cutHost l = some (host, tail)) : l = host ++ tail := by
  rw [cutHost] at h
  split at h
  · split at h
    · rename_i hclose
      obtain ⟨rfl, rfl⟩ := Prod.mk.inj (Option.some.inj h)
      rw [List.append_assoc, List.singleton_append]
      exact (Chars.split_first hclose).1
    · cases h
  · obtain ⟨rfl, rfl⟩ := Prod.mk.inj (Option.some.inj h)
    exact (List.takeWhile_append_dropWhile).symm

/-- What was created was read part by part. -/
theorem read_of_create {N : DotNet} {u : Uri} (h : create N text = some u) : Read N text u := by
  rw [create] at h
  split at h
  · cases h
  · rename_i hform
    simp only [Bool.or_eq_true, Bool.not_eq_true', decide_eq_true_eq, not_or, Bool.not_eq_false] at hform
    obtain ⟨⟨⟨hcolon, hscheme⟩, hslashes⟩, -⟩ := hform
    obtain ⟨⟨host, tail⟩, hcut, h⟩ := Option.bind_eq_some_iff.mp h
    obtain ⟨port, hport, h⟩ := Option.bind_eq_some_iff.mp h
    have htext : hostText text = .ofList host := by
      rw [hostText, hcut]
      rfl
    split at h
    · cases h
    · rename_i hat
      obtain ⟨⟨name, idn⟩, hnames, hu⟩ := Option.map_eq_some_iff.mp h
      refine ⟨hcolon, hscheme, hslashes, ⟨tail, ?_, ?_⟩, ?_, ?_, ?_, ?_, ?_⟩
      · rw [htext, String.toList_ofList]
        exact hcut
      · rw [← hu]
        exact hport
      · rw [htext, String.toList_ofList]
        exact hat
      · rw [htext, ← hu]
        exact hnames
      · rw [← hu]
      · rw [← hu]
      · rw [← hu]

/-- A port that is not missing stands after a colon, in digits. -/
theorem portOf_spec {l : List Char} {port : ℤ} (h : portOf l = some port) (hport : 1 ≤ port) :
    ∃ digits, l = ':' :: digits ∧ digits ≠ [] ∧ (∀ c ∈ digits, c.isDigit = true) ∧
      port = Nat.ofDigitChars 10 digits 0 ∧ port ≤ 65535 := by
  cases l with
  | nil =>
    rw [portOf] at h
    have hnone := Option.some.inj h
    omega
  | cons c digits =>
    rw [portOf] at h
    split at h
    · cases h
    · rename_i hcolon
      split at h
      · have hnone := Option.some.inj h
        omega
      · rename_i hne
        split at h
        · rename_i hdigits
          rw [Bool.and_eq_true, List.all_eq_true, decide_eq_true_eq] at hdigits
          rw [Option.some.injEq] at h
          refine ⟨digits, ?_, hne, hdigits.1, h.symm, ?_⟩
          · rw [not_not.mp hcolon]
          · omega
        · cases h

/-- An endpoint ends in the digits of its port. -/
theorem Ends.digits {endpoint host : String} {port : ℤ} (h : Ends endpoint host port) :
    ∃ digits, endpoint.toList = host.toList ++ ':' :: digits ∧ digits ≠ [] ∧ (∀ c ∈ digits, c.isDigit = true) := by
  obtain ⟨tail, hcut, hport⟩ := h.cut
  obtain ⟨digits, rfl, hne, hdigits, -⟩ := portOf_spec hport h.positive
  exact ⟨digits, cutHost_append hcut, hne, hdigits⟩

theorem Ends.last {endpoint host : String} {port : ℤ} (h : Ends endpoint host port) :
    ∃ x, endpoint.toList.getLast? = some x := by
  obtain ⟨digits, heq, -⟩ := h.digits
  rw [heq, List.getLast?_append]
  exact ⟨_, rfl⟩

/-- And no at sign, so the credentials end at the last one before it. -/
theorem Ends.noAt {endpoint host : String} {port : ℤ} (h : Ends endpoint host port) : '@' ∉ endpoint.toList := by
  obtain ⟨digits, heq, -, hdigits⟩ := h.digits
  rw [heq, List.mem_append, List.mem_cons, not_or, not_or]
  exact ⟨h.hostNoAt, by decide, fun hmem => absurd (hdigits '@' hmem) (by decide)⟩

end

section
variable {scheme credentials endpoint path : String}

/-- The main part has neither a question mark nor a hash. -/
theorem Signs.not_mem_main (h : Signs scheme credentials endpoint path) (c : Char) (hc : c ∈ ['?', '#']) :
    c ∉ (credentials ++ "@" ++ endpoint ++ path).toList := by
  have hsign : c ∈ ['/', '?', '#'] := List.mem_cons_of_mem _ hc
  have hat : c ∉ "@".toList := by
    rcases List.mem_pair.mp hc with rfl | rfl
    · decide
    · decide
  exact Text.not_mem_append (Text.not_mem_append (Text.not_mem_append
    (h.inCredentials c (List.mem_cons_of_mem _ hsign)) hat) (h.inEndpoint c hsign)) (h.inPath c hc)

/-! ### The parts of a link that is put together

The other way round, parts without such signs give a link that is taken apart into them. With it
the function is characterised: which links it accepts, and what it makes of them. -/

section
variable (query fragment : String)

/-- A link of its parts. -/
def compose (scheme credentials endpoint path query fragment : String) : String :=
  scheme ++ "://" ++ (credentials ++ "@" ++ endpoint ++ path ++ "?" ++ query ++ "#" ++ fragment)

variable (h : Signs scheme credentials endpoint path) (hquery : '#' ∉ query.toList)

include h

/-- A composed link is taken apart as it was composed: first its scheme. -/
theorem scheme_compose : Text.substringBefore (compose scheme credentials endpoint path query fragment) ':' = scheme ∧
    Text.substringAfter (compose scheme credentials endpoint path query fragment) ':' =
      "//" ++ (credentials ++ "@" ++ endpoint ++ path ++ "?" ++ query ++ "#" ++ fragment) ∧
    Text.hasChar (compose scheme credentials endpoint path query fragment) ':' = true := by
  have hsep : "://" = ":" ++ "//" := rfl
  have heq : compose scheme credentials endpoint path query fragment = scheme ++ ":" ++
      ("//" ++ (credentials ++ "@" ++ endpoint ++ path ++ "?" ++ query ++ "#" ++ fragment)) := by
    rw [compose, hsep]
    simp only [String.append_assoc]
  rw [heq]
  exact ⟨Text.substringBefore_append rfl h.inScheme, Text.substringAfter_append rfl h.inScheme,
    Text.hasChar_append_self rfl⟩

theorem body_compose : body (compose scheme credentials endpoint path query fragment) =
    credentials ++ "@" ++ endpoint ++ path ++ "?" ++ query ++ "#" ++ fragment := by
  rw [body, (scheme_compose query fragment h).2.1, Text.removePrefix_append]

include hquery

theorem main_compose : main (compose scheme credentials endpoint path query fragment) =
    credentials ++ "@" ++ endpoint ++ path ++ "?" ++ query := by
  rw [main, body_compose query fragment h]
  refine Text.substringBefore_append rfl (Text.not_mem_append (Text.not_mem_append ?_ (by decide)) hquery)
  exact h.not_mem_main '#' (by decide)

theorem hierarchy_compose : hierarchy (compose scheme credentials endpoint path query fragment) =
    credentials ++ "@" ++ endpoint ++ path := by
  rw [hierarchy, main_compose query fragment h hquery]
  exact Text.substringBefore_append rfl (h.not_mem_main '?' (by decide))

theorem authority_compose : authority (compose scheme credentials endpoint path query fragment) =
    credentials ++ "@" ++ endpoint := by
  have hslash : '/' ∉ (credentials ++ "@" ++ endpoint).toList :=
    Text.not_mem_append (Text.not_mem_append (h.inCredentials '/' (by decide)) (by decide)) (h.inEndpoint '/' (by decide))
  rw [authority, hierarchy_compose query fragment h hquery]
  rcases h.rooted with hpath | hhead
  · rw [hpath, String.append_empty, Text.substringBefore_of_not_mem hslash]
  · obtain ⟨rest, hrest⟩ := List.head?_eq_some_iff.mp hhead
    rw [Text.substringBefore, String.toList_append, hrest, Chars.before_append hslash, String.ofList_toList]

theorem credentials_compose : Uri.credentials (compose scheme credentials endpoint path query fragment) = credentials ∧
    Uri.endpoint (compose scheme credentials endpoint path query fragment) = endpoint := by
  have hat : Text.hasChar (credentials ++ "@" ++ endpoint) '@' = true := Text.hasChar_append_self rfl
  unfold Uri.credentials Uri.endpoint
  rw [authority_compose query fragment h hquery, if_pos hat, if_pos hat]
  exact ⟨Text.substringBefore_append rfl (h.inCredentials '@' (by decide)),
    Text.substringAfter_append rfl (h.inCredentials '@' (by decide))⟩

/-- The constructor reads the parts back. -/
theorem create_compose {N : DotNet} {host : String} {port : ℤ} {name : String × String}
    (hscheme : isScheme scheme = true) (hends : Ends endpoint host port) (hname : N.host host = some name)
    (hlength : Text.length (compose scheme credentials endpoint path query fragment) < 0xFFF0) :
    create N (compose scheme credentials endpoint path query fragment) =
      some ⟨.ofList (scheme.toList.map Char.toLower), N.escaped credentials, name.1, name.2, port,
        "?" ++ N.escaped query, "#" ++ N.escaped fragment⟩ := by
  obtain ⟨hbefore, hafter, hcolon⟩ := scheme_compose query fragment h
  obtain ⟨hcredentials, hendpoint⟩ := credentials_compose query fragment h hquery
  obtain ⟨tail, hcut, hport⟩ := hends.cut
  have hslashes : Text.startsWith (Text.substringAfter (compose scheme credentials endpoint path query fragment) ':')
      "//" = true := by
    rw [hafter]
    exact Text.startsWith_append _ _
  have hmain := main_compose query fragment h hquery
  have hbody := body_compose query fragment h
  have hfront : '?' ∉ (credentials ++ "@" ++ endpoint ++ path).toList := h.not_mem_main '?' (by decide)
  have hwhole : '#' ∉ (credentials ++ "@" ++ endpoint ++ path ++ "?" ++ query).toList :=
    Text.not_mem_append (Text.not_mem_append (h.not_mem_main '#' (by decide)) (by decide)) hquery
  rw [create, if_neg, hendpoint, hcut, Option.bind_some, hport, Option.bind_some, if_neg hends.hostNoAt,
    String.ofList_toList, hname, Option.map_some, hmain, hbody, if_pos (Text.hasChar_append_self rfl),
    if_pos (Text.hasChar_append_self rfl), Text.substringAfter_append rfl hfront,
    Text.substringAfter_append rfl hwhole, hbefore, hcredentials]
  rw [hcolon, hbefore, hscheme, hslashes]
  simp only [Bool.not_true, Bool.or_self, Bool.false_or, decide_eq_true_eq, not_le]
  exact hlength

end

end

end Uri

namespace Route

section
variable {N : DotNet} {text : String} {r : Route}

theorem check_ok_iff {c : Bool} {message : String} {u : Unit} : check c message = .ok u ↔ c = true := by
  cases c with
  | true => exact ⟨fun _ => rfl, fun _ => rfl⟩
  | false => exact ⟨nofun, nofun⟩

theorem orThrow_ok_iff {α : Type} {refusal : Refusal} {o : Option α} {a : α} :
    orThrow refusal o = .ok a ↔ o = some a := by
  cases o with
  | none => exact ⟨nofun, nofun⟩
  | some b => exact ⟨fun h => congrArg some (Except.ok.inj h), fun h => congrArg Except.ok (Option.some.inj h)⟩

/-- What the checks of `Parse` leave of the options. -/
structure Checked (N : DotNet) (q : OrderedMap String String) : Prop where
  type : get N q "type" "tcp" = "tcp" ∨ get N q "type" "tcp" = "raw"
  security : get N q "security" "none" = "tls" ∨ get N q "security" "none" = "reality"
  secure : get N q "allowInsecure" "" ≠ "1" ∧ get N q "allowInsecure" "" ≠ "true"
  publicKey : get N q "security" "none" = "reality" → get N q "pbk" "" ≠ ""
  flow : get N q "flow" "" = "" ∨ get N q "flow" "" = "xtls-rprx-vision"

/-- **What `Parse` accepts, and what it makes of it.** -/
theorem parse_ok_iff : parse N text = .ok r ↔ ∃ u id q, Uri.create N (DotNet.trim text) = some u ∧
    identified N u = some id ∧ toDictionary N (options N u.query) = some q ∧ Checked N q ∧ r = ofLink N u id q := by
  rw [parse]
  simp only [except_bind_iff, orThrow_ok_iff, check_ok_iff, Unique.exists_iff, Bool.or_eq_true, Bool.not_eq_true',
    Bool.or_eq_false_iff, Bool.and_eq_false_iff, decide_eq_true_eq, decide_eq_false_iff_not]
  constructor
  · rintro ⟨u, hu, id, hid, q, hq, htype, hsecurity, hsecure, hkey, hflow, hr⟩
    refine ⟨u, id, q, hu, hid, hq, ⟨htype, hsecurity, hsecure, fun h => ?_, hflow⟩, (Except.ok.inj hr).symm⟩
    exact hkey.resolve_left (not_not.mpr h)
  · rintro ⟨u, id, q, hu, hid, hq, hchecked, rfl⟩
    refine ⟨u, hu, id, hid, q, hq, hchecked.type, hchecked.security, hchecked.secure, ?_, hchecked.flow, rfl⟩
    exact or_iff_not_imp_left.mpr fun h => hchecked.publicKey (not_not.mp h)

/-- A link is identified with a scheme, a port and a GUID. -/
theorem identified_spec {u : Uri} {id : String} (h : identified N u = some id) :
    u.scheme = "vless" ∧ 1 ≤ u.port ∧ u.port ≤ 65535 ∧ N.guid (N.unescape u.userInfo) = some id := by
  rw [identified] at h
  split at h
  · cases h
  · rename_i hform
    simp only [not_or, not_not, not_lt] at hform
    exact ⟨hform.1, hform.2.1, hform.2.2, (Option.filter_eq_some_iff.mp h).1⟩

/-- Without a query nothing is said of the security. -/
theorem query_ne_empty {query : String} {q : OrderedMap String String}
    (h : toDictionary N (options N query) = some q) (hq : Checked N q) : query ≠ "" := by
  rintro rfl
  have hempty : options N "" = [] := rfl
  rw [hempty] at h
  have hnone : get N q "security" "none" = "none" := by
    rw [← Option.some.inj h]
    rfl
  rcases hq.security with hs | hs
  · exact absurd (hnone.symm.trans hs) (by decide)
  · exact absurd (hnone.symm.trans hs) (by decide)

/-- Without credentials there is no UUID. -/
theorem credentials_ne_empty {t id : String} (h : N.guid (N.unescape (N.escaped (Uri.credentials t))) = some id) :
    Text.hasChar (Uri.authority t) '@' = true := by
  by_contra hat
  have hescaped : N.escaped "" = "" := N.escaped_plain "" nofun
  have hunescaped : N.unescape "" = "" := N.unescape_plain "" List.not_mem_nil
  rw [Uri.credentials, if_neg hat, hescaped, hunescaped, N.guid_empty] at h
  cases h

end

end Route

end VlessCard
