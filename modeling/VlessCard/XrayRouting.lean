/-
Where traffic goes: first-match routing over the rules of a configuration.

Xray evaluates the rules in order and takes the first whose conditions all hold.
`Rule.admits` is that condition for a connection by name (addresses are not
resolved, so a rule by address admits none). Two questions are settled here for
every input of the builder: whether "all traffic through Tor" leaves a rule that
goes elsewhere, and that the user's own lists and the AI services are decided
before any other domain rule.
-/
import VlessCard.XrayRefs

set_option autoImplicit false

namespace VlessCard.XrayConfigBuilder

/-! ## Everything through Tor

Everything goes through Tor when no rule has another target, apart from the exempt ones. The
theorem lists the settings and pins that bring such a rule. -/

/-- The rules "all traffic through Tor" leaves alone: blocking, the DNS port, private
addresses, the user's direct list and the Russian direct rules. -/
def Exempt (s : Settings) (r : JsonObject) : Prop :=
  r.get? "outboundTag" = some (.str "block") ∨
    (r.get? "port" = some (.str "53") ∧ r.get? "outboundTag" = some (.str "dns-out")) ∨
    (r.get? "outboundTag" = some (.str "direct") ∧
      (r.get? "ip" = some (Json.strings ["geoip:private"]) ∨
        r.get? "domain" = some (Json.strings (s.alwaysDirect.map ("domain:" ++ ·))) ∨
        r.get? "ip" = some (Json.strings [RU_DNS]) ∨
        r.get? "domain" = some (Json.strings RU_DOMAINS) ∨
        r.get? "ip" = some (Json.strings ["geoip:ru"])))

/-- The rule is exempt or goes to Tor. -/
def TorOrExempt (s : Settings) (r : JsonObject) : Prop :=
  Exempt s r ∨ r.get? "outboundTag" = some (.str TOR_TAG)

/-- A rule that is exempt or goes to Tor ends at one of four outbounds. -/
theorem TorOrExempt.outbound {s : Settings} {r : JsonObject} (h : TorOrExempt s r) :
    ∃ t ∈ ["block", "dns-out", "direct", TOR_TAG], r.get? "outboundTag" = some (.str t) := by
  rcases h with (h | h | h) | h
  · exact ⟨_, by decide, h⟩
  · exact ⟨_, by decide, h.2⟩
  · exact ⟨_, by decide, h.1⟩
  · exact ⟨_, by decide, h⟩

/-- The catch-all that sends the rest direct is neither. -/
theorem not_torOrExempt_direct (s : Settings) :
    ¬ TorOrExempt s (VpnInput.toTag VpnInput.anyTraffic "direct") := by
  simp [TorOrExempt, Exempt, VpnInput.toTag, VpnInput.anyTraffic, TOR_TAG]

namespace VpnInput

variable (U : Jvm) (i : VpnInput)

/-- The inputs on which `torAll` leaves no other route. -/
structure TorCovers : Prop where
  hybrid : i.settings.mode = .HYBRID → hybridDomains i.settings = []
  heavy : i.heavyOn = false
  services : Services.domains i.settings.services = []
  pins : ∀ e ∈ (i.servicePools U).entries, ∀ t ∈ ServiceRoutes.targets, t.id = e.1 →
    i.pinEmitted t = true → e.1 ∈ i.settings.services

theorem tor_of_target {s : Settings} {r : JsonObject}
    (h : target r = route ("outboundTag", TOR_TAG)) : TorOrExempt s r :=
  .inr (congrArg Prod.fst h)

theorem exempt_of_block {s : Settings} {r : JsonObject}
    (h : target r = route ("outboundTag", "block")) : TorOrExempt s r :=
  .inl (.inl (congrArg Prod.fst h))

/-- Each group of rules in turn; here those of the network. -/
theorem network_torOrExempt (hmain : i.mainTarget = ("outboundTag", TOR_TAG)) {r : JsonObject}
    (h : r ∈ i.networkRules) : TorOrExempt i.settings r := by
  simp only [networkRules, List.mem_append, mem_when, List.mem_cons, List.not_mem_nil,
    or_false] at h
  rcases h with ((((rfl | ⟨-, rfl⟩) | rfl | rfl | rfl) | ⟨-, rfl⟩) | h)
  · exact .inl (.inr (.inl (by simp [toTag, ruleOf])))
  · exact .inl (.inr (.inr (by simp [toTag, ruleOf])))
  · exact tor_of_target (hmain ▸ target_toMain i (plain_inbound _))
  · exact .inl (.inr (.inr (by simp [toTag, ruleOf])))
  · exact .inl (.inl (by simp [toTag]))
  · exact .inl (.inl (by simp [toTag]))
  · split at h
    · rw [List.mem_singleton.mp h]
      exact .inl (.inl (by simp [toTag]))
    · rw [List.mem_singleton.mp (mem_when.mp h).2]
      exact .inl (.inl (by simp [toTag]))

theorem alwaysDirect_exempt {r : JsonObject} (h : r ∈ i.alwaysDirectRules) :
    TorOrExempt i.settings r := by
  rw [List.mem_singleton.mp (mem_when.mp h).2]
  exact .inl (.inr (.inr (by simp [toTag, ruleOf])))

theorem ru_exempt {r : JsonObject} (h : r ∈ i.ruRules) : TorOrExempt i.settings r := by
  simp only [ruRules, mem_when, List.mem_cons, List.not_mem_nil, or_false] at h
  rcases h with ⟨-, rfl | rfl⟩
  · exact .inl (.inr (.inr (by simp [toTag, ruleOf])))
  · exact .inl (.inr (.inr (by simp [toTag, ruleOf])))

/-- With servers in use, `torAll` makes Tor the main route. -/
theorem mainTarget_tor (htor : i.settings.torAll = true) (hu : i.useServers = true) :
    i.torOn = true ∧ i.mainTarget = ("outboundTag", TOR_TAG) := by
  have hon : i.torOn = true := by simp [torOn, hu, htor]
  exact ⟨hon, by rw [mainTarget, if_pos ⟨htor, hon⟩]⟩

/-- The pin of a service outside the list does not go to Tor. -/
theorem pin_not_torOrExempt {e : String × List ℕ} {base : JsonObject} (hbase : Plain base)
    (hout : e.1 ∉ i.settings.services) : ¬ TorOrExempt i.settings (i.pinned e.1 e.2 base) := by
  intro h
  obtain ⟨t, ht, hget⟩ := h.outbound
  have htarget := congrArg Prod.fst (i.target_pinned e.1 e.2 hbase)
  rw [target, hget, pinTarget, if_neg (fun hc => hout hc.2)] at htarget
  split at htarget
  · simp only [route, if_true, Option.some.injEq, Json.str.injEq] at htarget
    have hkind := kind_proxyTag (e.2.head?.getD 0)
    rw [← htarget] at hkind
    simp only [List.mem_cons, List.not_mem_nil, or_false] at ht
    rcases ht with rfl | rfl | rfl | rfl
    · exact absurd hkind (by decide)
    · exact absurd hkind (by decide)
    · exact absurd hkind (by decide)
    · exact absurd hkind (by decide)
  · simp [route] at htarget

/-- A pin that is emitted is among the rules. -/
theorem mem_rules_of_pin {e : String × List ℕ} (he : e ∈ (i.servicePools U).entries)
    {t : ServiceRoutes.Target} (ht : t ∈ ServiceRoutes.targets) (hid : t.id = e.1)
    (hem : i.pinEmitted t = true) :
    i.pinned e.1 e.2 (ruleOf "domain" t.domains) ∈ i.serviceRules U := by
  refine List.mem_flatMap.mpr ⟨e, he, ?_⟩
  have hfind := ServiceRoutes.find?_target ht
  rw [hid] at hfind
  rw [pinRules, hfind]
  exact mem_when.mpr ⟨hem, List.mem_cons_self ..⟩

/-- **Every rule goes to Tor or is exempt**, where no pin leads elsewhere. -/
theorem rules_torOrExempt (hcov : i.TorCovers U) (htor : i.settings.torAll = true)
    (hu : i.useServers = true) {r : JsonObject} (hr : r ∈ i.rules U) :
    TorOrExempt i.settings r := by
  obtain ⟨hon, hmain⟩ := i.mainTarget_tor htor hu
  have main (h : target r = route i.mainTarget) : TorOrExempt i.settings r :=
    tor_of_target (hmain ▸ h)
  simp only [rules, List.mem_append] at hr
  rcases hr with (((((((((h | h) | h) | h) | h) | h) | h) | h) | h) | h) | h
  · exact i.network_torOrExempt hmain h
  · exact i.alwaysDirect_exempt h
  · exact main (i.target_alwaysVpn h)
  -- a pin is on the list of services, and Tor has taken it over
  · obtain ⟨e, he, hpin⟩ := List.mem_flatMap.mp h
    obtain ⟨t, ht, hid, hem, hform⟩ := i.mem_pinRules hpin
    have hin := hcov.pins e he t ht hid hem
    have hpt : i.pinTarget e.1 e.2 = ("outboundTag", TOR_TAG) := by
      rw [pinTarget, if_pos ⟨hon, hin⟩]
    refine tor_of_target (hpt ▸ ?_)
    rcases hform with rfl | rfl
    · exact i.target_pinned _ _ (plain_domain _)
    · exact i.target_pinned _ _ (plain_ip _)
  · exact main (i.target_ai h)
  · exact exempt_of_block (i.target_ad h)
  · obtain ⟨hm, hne, -⟩ := i.target_hybrid h
    exact absurd (hcov.hybrid hm) hne
  · exact main (i.target_telegram h)
  · exact i.ru_exempt h
  · have hoff := hcov.heavy
    rw [(i.target_heavy h).1] at hoff
    exact absurd hoff (by decide)
  -- with Tor for everything the rest goes to the main target, never around it
  · rcases i.target_catchAll h with ht | ⟨hne, -⟩
    · exact main ht
    · exact absurd hcov.services hne

end VpnInput

section
variable (J : OrgJson) (U : Jvm) (noiseItems : String → Option String)

/-- **When "all traffic through Tor" is total.** With `torAll` on and servers in
use, every rule of the configuration that is not exempt goes to Tor if and only
if there is no hybrid route, no video pool, no services-only selection, and no pin
of a service the user did not list. -/
theorem torAll_total_iff (i : VpnInput) (c : JsonObject)
    (h : vpnConfig J U noiseItems i = some c) (htor : i.settings.torAll = true)
    (hu : i.useServers = true) :
    (∀ r ∈ rulesOf c, TorOrExempt i.settings r) ↔ i.TorCovers U := by
  obtain ⟨-, outs, -, rfl⟩ := vpnConfig_eq_some J U noiseItems h
  rw [i.rulesOf_assemble U]
  refine ⟨fun hall => ⟨fun hm => ?_, ?_, ?_, ?_⟩, fun hcov r hr =>
    i.rules_torOrExempt U hcov htor hu hr⟩
  -- the hybrid domains would go to the DPI engine
  · by_contra hne
    have hmem : VpnInput.toTag (VpnInput.ruleOf "domain" (hybridDomains i.settings)) BYEDPI_TAG
        ∈ i.rules U := by
      simp [VpnInput.rules, VpnInput.hybridRules, VpnInput.mem_when, hm, hne]
    obtain ⟨t, ht, hget⟩ := (hall _ hmem).outbound
    rw [VpnInput.toTag, JsonObject.get?_put, if_pos rfl, Option.some.injEq, Json.str.injEq] at hget
    rw [← hget] at ht
    exact absurd ht (by decide)
  -- the heavy domains would go to their balancer
  · by_contra hne
    have hon : i.heavyOn = true := by simpa using hne
    have hmem : (VpnInput.ruleOf "domain" HEAVY_DOMAINS).put "balancerTag" (.str "heavy")
        ∈ i.rules U := by
      simp [VpnInput.rules, VpnInput.heavyRules, VpnInput.mem_when, hon]
    obtain ⟨t, -, hget⟩ := (hall _ hmem).outbound
    simp [VpnInput.ruleOf] at hget
  -- with services only the rest would go out directly
  · by_contra hne
    have hmem : VpnInput.toTag VpnInput.anyTraffic "direct" ∈ i.rules U := by
      have honly : i.only ≠ [] := hne
      simp [VpnInput.rules, VpnInput.catchAllRules, honly]
    exact not_torOrExempt_direct i.settings (hall _ hmem)
  -- a pin the service shows would go to its own outbound
  · intro e he t ht hid hem
    by_contra hout
    refine i.pin_not_torOrExempt (VpnInput.plain_domain t.domains) hout (hall _ ?_)
    have hmem := i.mem_rules_of_pin U he ht hid hem
    simp only [VpnInput.rules, List.mem_append]
    exact .inl (.inl (.inl (.inl (.inl (.inl (.inl (.inr hmem)))))))

end

/-- One server with everything through Tor. -/
def torServer : VpnInput :=
  { servers := [({ name := "s", protocol := "trojan", address := "h", port := 443, secret := "p" },
      none)]
    settings0 := { mode := .SERVERS, torAll := true }
    byeDpiPort := none }

/-- The same, with ChatGPT measured on that server. -/
def torServerPinned : VpnInput :=
  { torServer with
    serviceRoutes := .ofList [("chatgpt", torServer.servers.map fun e => e.1.id Jvm.ascii)] }

theorem torAll_total_torServer :
    ∃ c, vpnConfig JsonText.library Jvm.ascii (fun _ => none) torServer = some c ∧
      ((∀ r ∈ rulesOf c, TorOrExempt torServer.settings r) ↔ torServer.TorCovers Jvm.ascii) := by
  obtain ⟨c, hc⟩ := Option.isSome_iff_exists.mp
    (by decide +kernel : (vpnConfig JsonText.library Jvm.ascii (fun _ => none) torServer).isSome)
  exact ⟨c, hc, torAll_total_iff JsonText.library Jvm.ascii (fun _ => none) torServer c hc
    (by decide) (by decide)⟩

/-- With `torAll` on, a measured ChatGPT still goes to the server itself. -/
theorem torAll_pin_bypasses_tor :
    torServerPinned.settings.torAll = true ∧ torServerPinned.useServers = true ∧
      ∃ c, vpnConfig JsonText.library Jvm.ascii (fun _ => none) torServerPinned = some c ∧
        ¬ ∀ r ∈ rulesOf c, TorOrExempt torServerPinned.settings r := by
  refine ⟨by decide, by decide, ?_⟩
  obtain ⟨c, hc⟩ := Option.isSome_iff_exists.mp (by decide +kernel :
    (vpnConfig JsonText.library Jvm.ascii (fun _ => none) torServerPinned).isSome)
  refine ⟨c, hc, fun hall => ?_⟩
  obtain ⟨-, outs, -, rfl⟩ := vpnConfig_eq_some _ _ _ hc
  rw [torServerPinned.rulesOf_assemble] at hall
  have hpools : ("chatgpt", [0]) ∈ (torServerPinned.servicePools Jvm.ascii).entries := by
    decide +kernel
  obtain ⟨t, ht, hid⟩ : ∃ t ∈ ServiceRoutes.targets, t.id = "chatgpt" := by decide
  have hem : torServerPinned.pinEmitted t = true := by
    simp only [VpnInput.pinEmitted, hid]
    rfl
  have hmem := torServerPinned.mem_rules_of_pin Jvm.ascii hpools ht hid hem
  refine torServerPinned.pin_not_torOrExempt (e := ("chatgpt", [0]))
    (VpnInput.plain_domain t.domains) (by decide) (hall _ ?_)
  simp only [VpnInput.rules, List.mem_append]
  exact .inl (.inl (.inl (.inl (.inl (.inl (.inl (.inr hmem)))))))

/-! ## First match

Xray takes the first rule whose conditions all hold. The user's lists and the services for AI
come before the rules that could catch their connections, except for those of the network. -/

/-- A connection by name that entered at an inbound. -/
structure Conn where
  inbound : String
  udp : Bool
  port : ℕ
  host : String

namespace Rule

/-- A decimal port. -/
def portOf (s : String) : ℕ := Nat.ofDigitChars 10 s.toList 0

/-- Xray's port list: single ports and ranges, separated by commas. -/
def portIn (spec : String) (p : ℕ) : Bool :=
  (Text.split spec ',').any fun part =>
    match Text.split part '-' with
    | [a] => portOf a = p
    | [a, b] => portOf a ≤ p && p ≤ portOf b
    | _ => false

/-- Whether a domain pattern matches a host: a domain with its subdomains, a full
name, and by `other` the kinds that need Xray's data (`geosite:`, `regexp:`, plain). -/
def domainMatches (other : String → String → Bool) (pattern host : String) : Bool :=
  if Text.startsWith pattern "domain:" then
    let d := Text.removePrefix pattern "domain:"
    host = d || decide (("." ++ d).toList <:+ host.toList)
  else if Text.startsWith pattern "full:" then host = Text.removePrefix pattern "full:"
  else other pattern host

/-- All conditions of the rule hold for the connection. -/
def admits (other : String → String → Bool) (c : Conn) (r : JsonObject) : Bool :=
  (!r.has "inboundTag" || c.inbound ∈ textsOf r "inboundTag")
    && (!r.has "network" || (if c.udp then "udp" else "tcp") ∈ Text.split (textOf r "network") ',')
    && (!r.has "port" || portIn (textOf r "port") c.port)
    && !r.has "ip"
    && (!r.has "domain" || (textsOf r "domain").any fun p => domainMatches other p c.host)

end Rule

section
variable (other : String → String → Bool) (conn : Conn)

/-- A rule by domain admits what one of its patterns matches. -/
theorem admits_domain (l : List String) {k : String} (v : Json)
    (hk : k = "outboundTag" ∨ k = "balancerTag") :
    Rule.admits other conn ((VpnInput.ruleOf "domain" l).put k v) =
      l.any fun p => Rule.domainMatches other p conn.host := by
  have htexts : textsOf ((VpnInput.ruleOf "domain" l).put k v) "domain" = l := by
    refine VpnInput.textsOf_strings ?_
    rcases hk with rfl | rfl
    · simp [VpnInput.ruleOf]
    · simp [VpnInput.ruleOf]
  rw [Rule.admits, htexts]
  rcases hk with rfl | rfl
  · simp [VpnInput.ruleOf, JsonObject.has]
  · simp [VpnInput.ruleOf, JsonObject.has]

/-- Port 53 is not among the ports of any other connection. -/
theorem portIn_dns {p : ℕ} (h : p ≠ 53) : Rule.portIn "53" p = false := by
  have hsplit : Text.split "53" ',' = ["53"] ∧ Text.split "53" '-' = ["53"] := by decide
  rw [Rule.portIn, hsplit.1]
  simp only [List.any_cons, List.any_nil, Bool.or_false, hsplit.2]
  have hport : Rule.portOf "53" = 53 := by decide
  rw [hport, decide_eq_false_iff_not]
  exact fun heq => h heq.symm

namespace VpnInput

variable (U : Jvm) (i : VpnInput)

/-- The target key is one of the two. -/
theorem mainTarget_key : i.mainTarget.1 = "outboundTag" ∨ i.mainTarget.1 = "balancerTag" := by
  unfold mainTarget
  split_ifs <;> simp

/-- No rule of the first block takes a TCP connection by name from an app. -/
theorem network_not_admits (hin : conn.inbound ≠ "dns-module") (htcp : conn.udp = false)
    (hport : conn.port ≠ 53) {r : JsonObject} (h : r ∈ i.networkRules) :
    Rule.admits other conn r = false := by
  have hsplit : Text.split "udp" ',' = ["udp"] := by decide
  have hdns := portIn_dns hport
  have hudp (o : JsonObject) (hn : o.get? "network" = some (.str "udp")) :
      Rule.admits other conn o = false := by
    simp [Rule.admits, JsonObject.has, hn, textOf_str hn, hsplit, htcp]
  simp only [networkRules, List.mem_append, mem_when, List.mem_cons, List.not_mem_nil,
    or_false] at h
  rcases h with ((((rfl | ⟨-, rfl⟩) | rfl | rfl | rfl) | ⟨-, rfl⟩) | h)
  · have hp : (toTag ((ruleOf "inboundTag" ["socks"]).put "port" (.str "53")) "dns-out").get? "port"
        = some (.str "53") := by simp [toTag]
    simp [Rule.admits, JsonObject.has, hp, textOf_str hp, hdns]
  · simp [Rule.admits, JsonObject.has, toTag, ruleOf]
  · have hi : (i.toMain (ruleOf "inboundTag" ["dns-module"])).get? "inboundTag"
        = some (Json.strings ["dns-module"]) := by
      rcases i.mainTarget_key with hk | hk
      · simp [toMain, hk, ruleOf]
      · simp [toMain, hk, ruleOf]
    simp [Rule.admits, JsonObject.has, hi, textsOf_strings hi, hin]
  · simp [Rule.admits, JsonObject.has, toTag, ruleOf]
  · simp [Rule.admits, JsonObject.has, toTag, ruleOf]
  · exact hudp _ (by simp [toTag, udpPort])
  · split at h
    · rw [List.mem_singleton.mp h]
      exact hudp _ (by simp [toTag, udpPort])
    · rw [List.mem_singleton.mp (mem_when.mp h).2]
      exact hudp _ (by simp [toTag, udpPort])

/-- The inbounds apps connect to. -/
theorem inbounds_tags {J : OrgJson} {noiseItems : String → Option String} {c : JsonObject}
    (h : vpnConfig J U noiseItems i = some c) {t : String}
    (ht : t ∈ (inboundsOf c).map fun o => textOf o "tag") : t ≠ "dns-module" := by
  obtain ⟨-, outs, -, rfl⟩ := vpnConfig_eq_some J U noiseItems h
  have hobs : i.observatory.1 ≠ "inbounds" := by
    unfold observatory
    split <;> simp
  have hin : inboundsOf (i.assemble U outs) = i.inbounds :=
    objectsOf_objects _ _ _ (by simp [assemble, get?_putIf hobs])
  have htag (tag protocol : String) (port : Int32) (o : JsonObject) :
      textOf (i.inboundOf tag protocol port o) "tag" = tag := textOf_str (by simp [inboundOf])
  rw [hin, inbounds] at ht
  cases hp : i.httpPort with
  | none =>
    simp only [hp, Option.map_none, Option.toList_none, List.map_cons, List.map_nil, htag,
      List.mem_singleton] at ht
    rw [ht]
    decide
  | some p =>
    simp only [hp, Option.map_some, Option.toList_some, List.map_cons, List.map_nil, htag,
      List.mem_cons, List.not_mem_nil, or_false] at ht
    rcases ht with rfl | rfl
    · decide
    · decide

/-- The main route over servers is none of the ways around them. -/
theorem main_not_around (hu : i.useServers = true) {r : JsonObject}
    (h : target r = route i.mainTarget) {t : String} (ht : t ∈ ["direct", BYEDPI_TAG, "block"]) :
    r.get? "outboundTag" ≠ some (.str t) := by
  have hget : r.get? "outboundTag" = (route i.mainTarget).1 := congrArg Prod.fst h
  rw [hget]
  intro heq
  have hcases : i.mainTarget ∈ [("outboundTag", TOR_TAG), ("outboundTag", WARP_CHAIN),
      ("balancerTag", "balancer"), ("outboundTag", proxyTag 0)] := by
    unfold mainTarget
    rw [hu]
    split_ifs <;> simp_all
  have hnone : ∀ kt ∈ [("outboundTag", TOR_TAG), ("outboundTag", WARP_CHAIN),
      ("balancerTag", "balancer"), ("outboundTag", proxyTag 0)],
      ∀ t ∈ ["direct", BYEDPI_TAG, "block"], ¬ (kt.1 = "outboundTag" ∧ kt.2 = t) := by decide
  refine hnone _ hcases t ht ?_
  unfold route at heq
  by_cases hk : i.mainTarget.1 = "outboundTag"
  · rw [if_pos hk, Option.some.injEq, Json.str.injEq] at heq
    exact ⟨hk, heq⟩
  · rw [if_neg hk] at heq
    cases heq

/-- Nor is the pin of a service. -/
theorem pin_not_around {r : JsonObject} (h : r ∈ i.serviceRules U) {t : String}
    (ht : t ∈ ["direct", BYEDPI_TAG, "block"]) : r.get? "outboundTag" ≠ some (.str t) := by
  obtain ⟨e, he, htarget⟩ := i.target_service U h
  have hget : r.get? "outboundTag" = (route (i.pinTarget e.1 e.2)).1 := congrArg Prod.fst htarget
  rw [hget, pinTarget]
  simp only [List.mem_cons, List.not_mem_nil, or_false] at ht
  split
  · rcases ht with rfl | rfl | rfl
    · simp [route, TOR_TAG]
    · simp [route, TOR_TAG, BYEDPI_TAG]
    · simp [route, TOR_TAG]
  · split
    · intro heq
      simp only [route, if_true, Option.some.injEq, Json.str.injEq] at heq
      have hkind := kind_proxyTag (e.2.head?.getD 0)
      rw [heq] at hkind
      rcases ht with rfl | rfl | rfl
      · exact absurd hkind (by decide)
      · exact absurd hkind (by decide)
      · exact absurd hkind (by decide)
    · simp [route]

/-- Before the user's lists only QUIC is decided by domain, and nothing catches all. -/
theorem network_early {r : JsonObject} (h : r ∈ i.networkRules) :
    (r.has "domain" = true → r.get? "network" = some (.str "udp") ∧
        r.get? "port" = some (.str "443") ∧ r.get? "outboundTag" = some (.str "block")) ∧
      r.get? "network" ≠ some (.str "tcp,udp") := by
  simp only [networkRules, List.mem_append, mem_when, List.mem_cons, List.not_mem_nil,
    or_false] at h
  rcases h with ((((rfl | ⟨-, rfl⟩) | rfl | rfl | rfl) | ⟨-, rfl⟩) | h)
  · simp [toTag, ruleOf, JsonObject.has]
  · simp [toTag, ruleOf, JsonObject.has]
  · rcases i.mainTarget_key with hk | hk
    · simp [toMain, hk, ruleOf, JsonObject.has]
    · simp [toMain, hk, ruleOf, JsonObject.has]
  · simp [toTag, ruleOf, JsonObject.has]
  · simp [toTag, ruleOf, JsonObject.has]
  · simp [toTag, udpPort, JsonObject.has]
  · split at h
    · rw [List.mem_singleton.mp h]
      simp [toTag, udpPort, JsonObject.has]
    · rw [List.mem_singleton.mp (mem_when.mp h).2]
      simp [toTag, udpPort, JsonObject.has]

end VpnInput

/-- The first rule of `pre ++ mid ++ post` that admits the connection is one of `mid`,
when none of `pre` does and the last of `mid` does. -/
theorem find?_mid {p : JsonObject → Bool} {pre : List JsonObject} (mid post : List JsonObject)
    (hpre : ∀ r ∈ pre, p r = false) {last : JsonObject} (hlast : last ∈ mid) (hp : p last = true) :
    ∃ r ∈ mid, (pre ++ mid ++ post).find? p = some r := by
  have hnone : pre.find? p = none := List.find?_eq_none.mpr fun r hr => by simp [hpre r hr]
  obtain ⟨r, hr⟩ := Option.isSome_iff_exists.mp (List.find?_isSome.mpr ⟨last, hlast, hp⟩)
  refine ⟨r, List.mem_of_find?_eq_some hr, ?_⟩
  rw [List.append_assoc, List.find?_append, hnone, List.find?_append, hr]
  rfl

/-- **The user's lists and the AI services are decided first.** In every
configuration over servers the direct list and then the VPN list come before every
other rule by domain and before the catch-all (only blocking QUIC of the hybrid
domains is earlier); and a TCP connection by name to an AI domain that is in no
direct list is taken to the main route or to the pin of a service, never to the
direct, DPI or blocking outbound. -/
theorem user_choices_first (J : OrgJson) (U : Jvm) (noiseItems : String → Option String)
    (i : VpnInput) (c : JsonObject) (h : vpnConfig J U noiseItems i = some c)
    (hu : i.useServers = true) :
    (∃ pre, rulesOf c = pre ++ i.alwaysDirectRules ++ i.alwaysVpnRules ++ (i.serviceRules U
          ++ i.aiRules ++ i.adRules ++ i.hybridRules ++ i.telegramRules ++ i.ruRules
          ++ i.heavyRules ++ i.catchAllRules) ∧
        ∀ r ∈ pre, (r.has "domain" = true → r.get? "network" = some (.str "udp") ∧
            r.get? "port" = some (.str "443") ∧ r.get? "outboundTag" = some (.str "block")) ∧
          r.get? "network" ≠ some (.str "tcp,udp")) ∧
      ∀ conn : Conn, conn.inbound ∈ (inboundsOf c).map (fun o => textOf o "tag") →
        conn.udp = false → conn.port ≠ 53 →
        (∃ p ∈ AppWatch.AI_DOMAINS, Rule.domainMatches other p conn.host = true) →
        (∀ d ∈ i.settings.alwaysDirect,
          Rule.domainMatches other ("domain:" ++ d) conn.host = false) →
        ∃ r, (rulesOf c).find? (Rule.admits other conn) = some r ∧
          (target r = route i.mainTarget ∨ r ∈ i.serviceRules U) ∧
          ∀ t ∈ ["direct", BYEDPI_TAG, "block"], r.get? "outboundTag" ≠ some (.str t) := by
  have hrules : rulesOf c = i.rules U := by
    obtain ⟨-, outs, -, rfl⟩ := vpnConfig_eq_some J U noiseItems h
    exact i.rulesOf_assemble U outs
  constructor
  · refine ⟨i.networkRules, ?_, fun r hr => i.network_early hr⟩
    rw [hrules, VpnInput.rules]
    simp only [List.append_assoc]
  · intro conn hin htcp hport hai hdirect
    have hinb := i.inbounds_tags U h hin
    -- neither the network rules nor the direct list take this connection
    have hpre : ∀ r ∈ i.networkRules ++ i.alwaysDirectRules, Rule.admits other conn r = false := by
      intro r hr
      rcases List.mem_append.mp hr with hr | hr
      · exact i.network_not_admits other conn hinb htcp hport hr
      · rw [List.mem_singleton.mp (VpnInput.mem_when.mp hr).2]
        rw [VpnInput.toTag, admits_domain other conn _ _ (.inl rfl), List.any_map,
          List.any_eq_false]
        intro d hd
        simpa using hdirect d hd
    have hai' : i.toMain (VpnInput.ruleOf "domain" AppWatch.AI_DOMAINS) ∈ i.aiRules :=
      VpnInput.mem_when.mpr ⟨hu, List.mem_singleton_self _⟩
    have hadm : Rule.admits other conn
        (i.toMain (VpnInput.ruleOf "domain" AppWatch.AI_DOMAINS)) = true := by
      rw [VpnInput.toMain, admits_domain other conn _ _ i.mainTarget_key, List.any_eq_true]
      exact hai
    -- so the first rule that takes it is among those of the user
    obtain ⟨r, hmid, hfind⟩ := find?_mid (p := Rule.admits other conn)
      (i.alwaysVpnRules ++ i.serviceRules U ++ i.aiRules)
      (i.adRules ++ i.hybridRules ++ i.telegramRules ++ i.ruRules ++ i.heavyRules
        ++ i.catchAllRules) hpre (List.mem_append_right _ hai') hadm
    refine ⟨r, ?_, ?_⟩
    · rw [hrules, ← hfind, VpnInput.rules]
      simp only [List.append_assoc]
    · simp only [List.mem_append] at hmid
      rcases hmid with (hv | hs) | ha
      · exact ⟨.inl (i.target_alwaysVpn hv),
          fun t ht => i.main_not_around hu (i.target_alwaysVpn hv) ht⟩
      · exact ⟨.inr hs, fun t ht => i.pin_not_around U hs ht⟩
      · exact ⟨.inl (i.target_ai ha), fun t ht => i.main_not_around hu (i.target_ai ha) ht⟩

end

/-- ChatGPT by name over the two servers in hybrid mode. -/
theorem user_choices_first_hybridPair :
    ∃ c, vpnConfig JsonText.library Jvm.ascii (fun _ => none) hybridPair = some c ∧
      ∃ r, (rulesOf c).find?
          (Rule.admits (fun _ _ => true) ⟨"socks", false, 443, "api.openai.com"⟩) = some r ∧
        (target r = route hybridPair.mainTarget ∨ r ∈ hybridPair.serviceRules Jvm.ascii) ∧
        ∀ t ∈ ["direct", BYEDPI_TAG, "block"], r.get? "outboundTag" ≠ some (.str t) := by
  obtain ⟨c, hc⟩ := Option.isSome_iff_exists.mp
    (by decide +kernel : (vpnConfig JsonText.library Jvm.ascii (fun _ => none) hybridPair).isSome)
  have hin : "socks" ∈ (inboundsOf c).map fun o => textOf o "tag" := by
    obtain ⟨-, outs, -, rfl⟩ := vpnConfig_eq_some _ _ _ hc
    exact List.mem_cons_self ..
  exact ⟨c, hc, (user_choices_first (fun _ _ => true) JsonText.library Jvm.ascii (fun _ => none)
    hybridPair c hc (by decide)).2 ⟨"socks", false, 443, "api.openai.com"⟩ hin rfl (by decide)
    (by decide) (by decide)⟩

end VlessCard.XrayConfigBuilder
