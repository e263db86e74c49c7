/-
`Services.kt`, `ServiceRoutes.kt`, `SpeedBalance.kt`, `TransportPolicy.kt` and the
domain list of `AppWatch.kt`: the tables the Xray configuration is built from.

A service is a list of Xray domain patterns and address groups. A service route
pins a service to the one or two servers that were measured to reach it;
`ServiceRoutes.indices` turns the remembered server ids into positions of the
running server list, dropping those that are gone.
-/
import VlessCard.Json
import VlessCard.Lists
import VlessCard.OrderedMap

set_option autoImplicit false

namespace VlessCard

namespace AppWatch

/-- Services that refuse Russian addresses. -/
def AI_DOMAINS : List String :=
  ["domain:gemini.google.com", "domain:gemini.google", "domain:bard.google.com",
    "domain:aistudio.google.com", "domain:ai.google.dev", "domain:generativelanguage.googleapis.com",
    "domain:alkalimakersuite-pa.clients6.google.com", "domain:proactivebackend-pa.googleapis.com",
    "domain:robinfrontend-pa.googleapis.com", "domain:geller-pa.googleapis.com",
    "domain:assistant-s3-pa.googleapis.com", "domain:notebooklm.google",
    "domain:notebooklm.google.com", "domain:labs.google", "domain:deepmind.google",
    "domain:openai.com", "domain:chatgpt.com", "domain:oaistatic.com", "domain:oaiusercontent.com",
    "domain:anthropic.com", "domain:claude.ai", "domain:perplexity.ai",
    "domain:copilot.microsoft.com", "domain:x.ai", "domain:grok.com"]

end AppWatch

/-! ## `Services`

The services by name, with their domains and addresses. -/

structure Service where
  id : String
  domains : List String
  ips : List String := []

namespace Services

def ALL : List Service :=
  [ ⟨"youtube", ["geosite:youtube", "domain:googlevideo.com", "domain:ytimg.com",
      "domain:ggpht.com", "domain:youtu.be"], []⟩,
    ⟨"telegram", ["geosite:telegram", "domain:t.me", "domain:telegram.org", "domain:telegram.me",
      "domain:telesco.pe", "domain:tdesktop.com"], ["geoip:telegram"]⟩,
    ⟨"instagram", ["geosite:meta", "geosite:instagram", "geosite:facebook"], []⟩,
    ⟨"whatsapp", ["geosite:whatsapp"], []⟩,
    ⟨"discord", ["geosite:discord"], []⟩,
    ⟨"x", ["geosite:twitter"], []⟩,
    ⟨"ai", "geosite:openai" :: AppWatch.AI_DOMAINS, []⟩,
    ⟨"tiktok", ["geosite:tiktok"], []⟩ ]

/-- `byId`; the ids of `ALL` are distinct. -/
def byId (id : String) : Option Service := ALL.find? fun s => s.id = id

def of (ids : List String) : List Service := ids.filterMap byId

def domains (ids : List String) : List String := ((of ids).flatMap (·.domains)).eraseDups

def ips (ids : List String) : List String := ((of ids).flatMap (·.ips)).eraseDups

end Services

/-! ## `ServiceRoutes`

A service is pinned to servers that were measured for it. The positions are those in the running
list, and ids that have left it are dropped. -/

namespace ServiceRoutes

structure Target where
  id : String
  domains : List String
  ips : List String := []
deriving DecidableEq

def targets : List Target :=
  [ ⟨"telegram", Services.domains ["telegram"], Services.ips ["telegram"]⟩,
    ⟨"youtube", ["geosite:youtube", "domain:googlevideo.com", "domain:ytimg.com",
      "domain:ggpht.com", "domain:youtube.com", "domain:youtu.be"], []⟩,
    ⟨"gemini", ["domain:gemini.google.com", "domain:generativelanguage.googleapis.com",
      "domain:aistudio.google.com", "domain:ai.google.dev", "domain:notebooklm.google",
      "domain:notebooklm.google.com"], []⟩,
    ⟨"chatgpt", ["domain:chatgpt.com", "domain:openai.com", "domain:oaistatic.com",
      "domain:oaiusercontent.com"], []⟩,
    ⟨"claude", ["domain:claude.ai", "domain:anthropic.com"], []⟩,
    ⟨"discord", ["domain:discord.com", "domain:discord.gg", "domain:discordapp.com",
      "domain:discordapp.net", "domain:discord.media"], []⟩,
    ⟨"spotify", ["domain:spotify.com", "domain:scdn.co"], []⟩ ]

/-- The id finds its target. -/
theorem find?_target {t : Target} (h : t ∈ targets) :
    targets.find? (fun u => u.id = t.id) = some t := by
  revert t
  decide

/-- The positions one target is pinned to: those of the remembered ids still in
the list, the first two. -/
def pool (ids : List String) (route : List String) : List ℕ :=
  ((route.filterMap fun id => ids.idxOf? id).eraseDups).take 2

/-- The pairs `indices` collects, one for each target that has a pool. -/
def pairs (ids : List String) (routes : OrderedMap String (List String)) :
    List (String × List ℕ) :=
  targets.filterMap fun t =>
    (routes.get? t.id).bind fun route =>
      if pool ids route = [] then none else some (t.id, pool ids route)

def indices (ids : List String) (routes : OrderedMap String (List String)) :
    OrderedMap String (List ℕ) := .ofList (pairs ids routes)

/-- A pool has at most two positions, all different and all of the list. -/
theorem pool_spec (ids route : List String) :
    (pool ids route).length ≤ 2 ∧ (pool ids route).Nodup ∧ ∀ i ∈ pool ids route, i < ids.length := by
  refine ⟨List.length_take_le _ _, ?_, ?_⟩
  · exact (List.take_sublist _ _).nodup (nodup_eraseDups _)
  · intro i hi
    have hmem := List.mem_of_mem_take hi
    rw [List.mem_eraseDups, List.mem_filterMap] at hmem
    obtain ⟨id, -, hid⟩ := hmem
    rw [List.idxOf?_eq_some_iff] at hid
    exact hid.1

/-- The target ids are distinct, so `toMap` keeps every pair. -/
theorem indices_entries (ids : List String) (routes : OrderedMap String (List String)) :
    (indices ids routes).entries = pairs ids routes := by
  refine OrderedMap.entries_ofList ?_
  have hsub : List.Sublist ((pairs ids routes).map Prod.fst) (targets.map (·.id)) := by
    refine keys_filterMap_sublist _ _ (fun t e he => ?_) targets
    obtain ⟨route, -, hr⟩ := Option.bind_eq_some_iff.mp he
    split at hr
    · cases hr
    · rw [← Option.some.inj hr]
  exact hsub.nodup (by decide)

theorem mem_indices {ids : List String} {routes : OrderedMap String (List String)}
    {e : String × List ℕ} (h : e ∈ (indices ids routes).entries) :
    e.1 ∈ targets.map (·.id) ∧ e.2 ≠ [] ∧ e.2.length ≤ 2 ∧ e.2.Nodup ∧
      ∀ i ∈ e.2, i < ids.length := by
  rw [indices_entries, pairs, List.mem_filterMap] at h
  obtain ⟨t, ht, hp⟩ := h
  obtain ⟨route, -, hr⟩ := Option.bind_eq_some_iff.mp hp
  by_cases hnil : pool ids route = []
  · simp [hnil] at hr
  · simp only [hnil, if_false, Option.some.injEq] at hr
    subst hr
    exact ⟨List.mem_map_of_mem ht, hnil, pool_spec ids route⟩

end ServiceRoutes

/-! ## `SpeedBalance` and `TransportPolicy`

The cost of a server is computed from its measured speed and latency, and the strategy of the
balancer follows from the settings. -/

namespace AutoEligibility

def TOP : ℤ := 8

end AutoEligibility

namespace SpeedBalance

/-- The cost of a server, from its measured speed and latency. -/
def costs (speeds latencies : List ℤ) : List ℚ :=
  let best : ℚ := (max ((speeds.max?).getD 1) 1 : ℤ)
  speeds.mapIdx fun i kbps =>
    let relative : ℚ := if 0 < kbps then best / kbps else 16
    let baseline : ℚ := match latencies[i]? with
      | some l => if 0 < l then (min l 60000 : ℤ) else 100
      | none => 100
    max (1 / 10 ^ 8) (min ((100 * relative / baseline) ^ 2) (10 ^ 12))

def strategy (speeds latencies : List ℤ) : JsonObject :=
  let best := max ((speeds.max?).getD 1) 1
  let comparable : ℤ := speeds.countP fun v => decide (0 < v ∧ best * 6 ≤ v * 10)
  JsonObject.empty |>.put "type" (.str "leastLoad") |>.put "settings" (.obj
    (JsonObject.empty |>.put "expected" (.int (max 1 (min comparable AutoEligibility.TOP)))
      |>.put "maxRTT" (.str "4s") |>.put "tolerance" (.real (3 / 10))
      |>.put "costs" (.arr ((costs speeds latencies).mapIdx fun i v => .obj
        (JsonObject.empty |>.put "regexp" (.bool true)
          |>.put "match" (.str ("^proxy-" ++ toString i ++ "$")) |>.put "value" (.real v))))))

end SpeedBalance

namespace TransportPolicy

def sniff (quicAllowed : Bool) : List String :=
  if quicAllowed then ["http", "tls", "quic"] else ["http", "tls"]

end TransportPolicy

end VlessCard
