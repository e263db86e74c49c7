/-
`XrayJson.kt`: the proxies of an Xray configuration, each used as it stands.

A text is one configuration, an array of them, or one bare outbound. Each outbound
with a proxy protocol is printed, read back, cleared of what works only inside its
configuration, and becomes a server whose endpoint is looked for in three places.
An exception anywhere leaves nothing of the whole text. The port is checked here
and the host for blanks, and nothing else is.
-/
import VlessCard.KeyedList
import VlessCard.LinkParser

set_option autoImplicit false

namespace VlessCard

namespace Text

/-- `s.trim(*chars)`. -/
def trimChars (s : String) (chars : List Char) : String :=
  .ofList ((s.toList.dropWhile fun c => c ∈ chars).rdropWhile fun c => c ∈ chars)

end Text

namespace XrayJson

open JsonObject

def PROXY : List String := ["vless", "vmess", "trojan", "shadowsocks", "hysteria", "wireguard", "socks", "http"]

section
variable (U : Jvm) (O : OrgJson)

/-- `o.optJSONArray(k)?.optJSONObject(0)`. -/
def firstObject (o : JsonObject) (k : String) : Option JsonObject :=
  (o.optJSONArray k).bind fun a => a.head?.bind Json.asObject

/-- What works only inside its configuration goes. -/
def standalone (o : JsonObject) : JsonObject :=
  let o := (o.remove "tag").remove "proxySettings"
  match o.optJSONObject "streamSettings" with
  | none => o
  | some stream =>
    match stream.optJSONObject "sockopt" with
    | none => o
    | some sockopt => o.put "streamSettings" (.obj (stream.put "sockopt" (.obj (sockopt.remove "dialerProxy"))))

/-- The host and the port of the settings. -/
def endpoint (st : JsonObject) : Option (String × Int32) :=
  match (firstObject st "vnext").or (firstObject st "servers") with
  | some first => some (optString O first "address" "", optInt O first "port" 0)
  | none =>
    if st.has "address" then some (optString O st "address" "", optInt O st "port" 0)
    else if (st.optJSONArray "peers").isSome then
      let ep := ((firstObject st "peers").map fun peer => optString O peer "endpoint" "").getD ""
      some (Text.trimChars (Text.substringBeforeLast ep ':') ['[', ']'],
        (Text.toInt? U (Text.substringAfterLast ep ':')).getD 0)
    else none

/-- The server of an outbound: `none` for an exception, nothing for an outbound that
has no usable endpoint. -/
def server (o0 : JsonObject) (name source : String) : Option (Option Server) :=
  (O.parseObject (O.text (.obj o0))).map fun o1 =>
    let o := standalone o1
    (endpoint U O ((o.optJSONObject "settings").getD .empty)).bind fun hp =>
      if Text.isBlank hp.1 ∨ ¬ (1 ≤ hp.2 ∧ hp.2 ≤ 65535) then none
      else
        let json := O.text (.obj o)
        some { name := Text.ifEmpty name (hp.1 ++ ":" ++ toString hp.2.toInt), protocol := "xray", address := hp.1
               port := hp.2, secret := toHexString (hashCode json), network := optString O o "protocol" ""
               extra := json, source }

/-- The outbounds of one configuration that are proxies, with the names they get. -/
def outbounds (c : JsonObject) : List (JsonObject × String) :=
  let list := match c.optJSONArray "outbounds" with
    | some outs => outs.filterMap Json.asObject
    | none => [c]
  let remarks := optString O c "remarks" ""
  (list.filter fun o => optString O o "protocol" "" ∈ PROXY).zipIdx.map fun e =>
    let name := Text.ifEmpty remarks (optString O e.1 "tag" "")
    (e.1, if 0 < e.2 then name ++ " #" ++ toString (e.2 + 1) else name)

def configs (t : String) : Option (List JsonObject) :=
  if Text.startsWith t "[" then (O.parseArray t).map fun a => a.filterMap Json.asObject
  else (O.parseObject t).map fun c => [c]

/-- The servers of a text as they are found; none at all after an exception. -/
def found (text source : String) : List Server :=
  match configs O (Text.trim text) with
  | none => []
  | some cs =>
    let read := (cs.flatMap (outbounds O)).map fun e => server U O e.1 e.2 source
    if read.any Option.isNone then [] else read.filterMap Option.join

def parse (text source : String) : List Server := distinctBy (Server.id U) (found U O text source)

end

/-! ## What is checked

What is read of an outbound has a port in range and a host that is not blank. The length of the
host is not looked at here. -/

section
variable {U : Jvm} {O : OrgJson}

/-- The port is in range and the host is not blank. -/
theorem server_checked {o : JsonObject} {name source : String} {s : Server}
    (h : server U O o name source = some (some s)) :
    (1 ≤ s.port ∧ s.port ≤ 65535) ∧ Text.isBlank s.address = false := by
  rw [server, Option.map_eq_some_iff] at h
  obtain ⟨o1, -, h⟩ := h
  rw [Option.bind_eq_some_iff] at h
  obtain ⟨hp, -, h⟩ := h
  by_cases hc : Text.isBlank hp.1 = true ∨ ¬ (1 ≤ hp.2 ∧ hp.2 ≤ 65535)
  · rw [if_pos hc] at h
    cases h
  · rw [if_neg hc] at h
    rw [not_or, Bool.not_eq_true, not_not] at hc
    rw [← Option.some.inj h]
    exact ⟨hc.2, hc.1⟩

theorem found_checked {text source : String} {s : Server} (h : s ∈ found U O text source) :
    (1 ≤ s.port ∧ s.port ≤ 65535) ∧ Text.isBlank s.address = false := by
  rw [found] at h
  split at h
  · cases h
  · dsimp only at h
    split at h
    · cases h
    · obtain ⟨r, hr, hjoin⟩ := List.mem_filterMap.mp h
      obtain ⟨e, -, rfl⟩ := List.mem_map.mp hr
      rw [Option.join_eq_some_iff] at hjoin
      exact server_checked hjoin

end

end XrayJson

end VlessCard
