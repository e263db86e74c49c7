/-
The routing rules of the running VPN, one by one.

A rule is a condition and one target, an outbound or a balancer. `target` reads
the target off a finished rule; `target_cases` says once what the target of any
rule the builder emits can be, with the switch that had to be on for it. What is
proved later about references and about routes goes through that list and never
opens the builder again.
-/
import VlessCard.XrayConfig

set_option autoImplicit false

namespace VlessCard.XrayConfigBuilder

/-! ## The target of a rule

A rule is made without a target and gets one at the end, an outbound or a balancer. So what a
rule does can be read off the function that made it. -/

/-- The outbound and the balancer a rule names. -/
def target (r : JsonObject) : Option Json × Option Json :=
  (r.get? "outboundTag", r.get? "balancerTag")

/-- The target written by `put key tag`. -/
def route (kt : String × String) : Option Json × Option Json :=
  (if kt.1 = "outboundTag" then some (.str kt.2) else none,
    if kt.1 = "balancerTag" then some (.str kt.2) else none)

/-- A condition without a target. -/
structure Plain (r : JsonObject) : Prop where
  outboundTag : r.get? "outboundTag" = none
  balancerTag : r.get? "balancerTag" = none

/-- A rule that has no target yet gets the one that is put. -/
theorem target_put {r : JsonObject} (h : Plain r) (kt : String × String) :
    target (r.put kt.1 (.str kt.2)) = route kt := by
  rw [target, route, JsonObject.get?_put, JsonObject.get?_put, h.outboundTag, h.balancerTag]

namespace VpnInput

/-- Rules under a condition are there when it holds. -/
theorem mem_when {c : Bool} {l : List JsonObject} {r : JsonObject} :
    r ∈ when c l ↔ c = true ∧ r ∈ l := by
  unfold when
  cases c
  · simp
  · simp

/-- The rules are made without a target: by one field. -/
theorem plain_ruleOf {k : String} (v : List String) (h₁ : k ≠ "outboundTag")
    (h₂ : k ≠ "balancerTag") : Plain (ruleOf k v) :=
  ⟨by simp [ruleOf, h₁], by simp [ruleOf, h₂]⟩

theorem plain_domain (v : List String) : Plain (ruleOf "domain" v) :=
  plain_ruleOf v (by decide) (by decide)

theorem plain_ip (v : List String) : Plain (ruleOf "ip" v) :=
  plain_ruleOf v (by decide) (by decide)

theorem plain_inbound (v : List String) : Plain (ruleOf "inboundTag" v) :=
  plain_ruleOf v (by decide) (by decide)

theorem plain_udpPort (p : String) : Plain (udpPort p) :=
  ⟨by simp [udpPort], by simp [udpPort]⟩

theorem plain_anyTraffic : Plain anyTraffic := ⟨by simp [anyTraffic], by simp [anyTraffic]⟩

/-- A further condition leaves a rule without target. -/
theorem plain_put {r : JsonObject} (h : Plain r) {k : String} (v : Json) (h₁ : k ≠ "outboundTag")
    (h₂ : k ≠ "balancerTag") : Plain (r.put k v) :=
  ⟨by simp [h₁, h.outboundTag], by simp [h₂, h.balancerTag]⟩

/-- A rule to an outbound has that target. -/
theorem target_toTag {r : JsonObject} (h : Plain r) (t : String) :
    target (toTag r t) = route ("outboundTag", t) := target_put h ("outboundTag", t)

/-- A rule to the main route has the main target. -/
theorem target_toMain (i : VpnInput) {r : JsonObject} (h : Plain r) :
    target (i.toMain r) = route i.mainTarget := target_put h i.mainTarget

/-- A rule for a service has the target of its pool. -/
theorem target_pinned (i : VpnInput) (id : String) (pool : List ℕ) {r : JsonObject}
    (h : Plain r) : target (i.pinned id pool r) = route (i.pinTarget id pool) :=
  target_put h (i.pinTarget id pool)

/-! ## The targets of each block

Block by block, where the rules of each go. The last theorem puts them together: no rule has any
other target. -/

variable (U : Jvm) (i : VpnInput)

/-- Each group of rules has its targets; those of the network have one of four. -/
theorem target_network {r : JsonObject} (h : r ∈ i.networkRules) :
    target r = route ("outboundTag", "dns-out") ∨ target r = route ("outboundTag", "direct") ∨
      target r = route ("outboundTag", "block") ∨ target r = route i.mainTarget := by
  simp only [networkRules, List.mem_append, mem_when, List.mem_cons, List.not_mem_nil,
    or_false] at h
  rcases h with ((((rfl | ⟨-, rfl⟩) | rfl | rfl | rfl) | ⟨-, rfl⟩) | h)
  · exact .inl (target_toTag (plain_put (plain_inbound _) _ (by decide) (by decide)) _)
  · exact .inr (.inl (target_toTag (plain_put (plain_inbound _) _ (by decide) (by decide)) _))
  · exact .inr (.inr (.inr (target_toMain i (plain_inbound _))))
  · exact .inr (.inl (target_toTag (plain_ip _) _))
  · exact .inr (.inr (.inl (target_toTag (plain_ip _) _)))
  · exact .inr (.inr (.inl (target_toTag (plain_udpPort _) _)))
  · refine .inr (.inr (.inl ?_))
    split at h
    · rw [List.mem_singleton.mp h]
      exact target_toTag (plain_udpPort _) _
    · rw [List.mem_singleton.mp (mem_when.mp h).2]
      exact target_toTag (plain_put (plain_udpPort _) _ (by decide) (by decide)) _

/-- What the user wants direct goes direct. -/
theorem target_alwaysDirect {r : JsonObject} (h : r ∈ i.alwaysDirectRules) :
    target r = route ("outboundTag", "direct") := by
  rw [List.mem_singleton.mp (mem_when.mp h).2]
  exact target_toTag (plain_domain _) _

/-- What the user wants in the tunnel goes there. -/
theorem target_alwaysVpn {r : JsonObject} (h : r ∈ i.alwaysVpnRules) :
    target r = route i.mainTarget := by
  rw [List.mem_singleton.mp (mem_when.mp h).2]
  exact target_toMain i (plain_domain _)

/-- The pin of a pool: emitted for a known target, by domain and by address. -/
theorem mem_pinRules {e : String × List ℕ} {r : JsonObject} (h : r ∈ i.pinRules e) :
    ∃ t ∈ ServiceRoutes.targets, t.id = e.1 ∧ i.pinEmitted t = true ∧
      (r = i.pinned e.1 e.2 (ruleOf "domain" t.domains) ∨
        r = i.pinned e.1 e.2 (ruleOf "ip" t.ips)) := by
  unfold pinRules at h
  split at h
  · rename_i t ht
    obtain ⟨hc, hr⟩ := mem_when.mp h
    refine ⟨t, List.mem_of_find?_eq_some ht, by simpa using List.find?_some ht, hc, ?_⟩
    rcases List.mem_cons.mp hr with rfl | hr
    · exact .inl rfl
    · exact .inr (List.mem_singleton.mp (mem_when.mp hr).2)
  · simp at h

theorem target_service {r : JsonObject} (h : r ∈ i.serviceRules U) :
    ∃ e ∈ (i.servicePools U).entries, target r = route (i.pinTarget e.1 e.2) := by
  obtain ⟨e, he, hr⟩ := List.mem_flatMap.mp h
  obtain ⟨t, -, -, -, rfl | rfl⟩ := i.mem_pinRules hr
  · exact ⟨e, he, i.target_pinned _ _ (plain_domain _)⟩
  · exact ⟨e, he, i.target_pinned _ _ (plain_ip _)⟩

theorem target_ai {r : JsonObject} (h : r ∈ i.aiRules) : target r = route i.mainTarget := by
  rw [List.mem_singleton.mp (mem_when.mp h).2]
  exact target_toMain i (plain_domain _)

theorem target_ad {r : JsonObject} (h : r ∈ i.adRules) :
    target r = route ("outboundTag", "block") := by
  simp only [adRules, List.mem_append, mem_when, List.mem_cons, List.not_mem_nil, or_false] at h
  rcases h with ⟨-, rfl⟩ | ⟨-, rfl | rfl⟩
  · exact target_toTag (plain_domain _) _
  · exact target_toTag (plain_domain _) _
  · exact target_toTag (plain_put plain_anyTraffic _ (by decide) (by decide)) _

/-- In hybrid mode the chosen domains go to the engine. -/
theorem target_hybrid {r : JsonObject} (h : r ∈ i.hybridRules) :
    i.settings.mode = .HYBRID ∧ hybridDomains i.settings ≠ [] ∧
      target r = route ("outboundTag", BYEDPI_TAG) := by
  obtain ⟨hc, hr⟩ := mem_when.mp h
  rw [decide_eq_true_iff] at hc
  refine ⟨hc.1, hc.2, ?_⟩
  rw [List.mem_singleton.mp hr]
  exact target_toTag (plain_domain _) _

theorem target_telegram {r : JsonObject} (h : r ∈ i.telegramRules) :
    target r = route i.mainTarget := by
  simp only [telegramRules, mem_when, List.mem_cons, List.not_mem_nil, or_false] at h
  rcases h with ⟨-, rfl | rfl⟩
  · exact target_toMain i (plain_domain _)
  · exact target_toMain i (plain_ip _)

theorem target_ru {r : JsonObject} (h : r ∈ i.ruRules) :
    target r = route ("outboundTag", "direct") := by
  simp only [ruRules, mem_when, List.mem_cons, List.not_mem_nil, or_false] at h
  rcases h with ⟨-, rfl | rfl⟩
  · exact target_toTag (plain_domain _) _
  · exact target_toTag (plain_ip _) _

theorem target_heavy {r : JsonObject} (h : r ∈ i.heavyRules) :
    i.heavyOn = true ∧ target r = route ("balancerTag", "heavy") := by
  obtain ⟨hc, hr⟩ := mem_when.mp h
  refine ⟨hc, ?_⟩
  rw [List.mem_singleton.mp hr]
  exact target_put (plain_domain _) ("balancerTag", "heavy")

/-- And what is left goes to the main route, or direct where only some services are chosen. -/
theorem target_catchAll {r : JsonObject} (h : r ∈ i.catchAllRules) :
    target r = route i.mainTarget ∨ (i.only ≠ [] ∧ r = toTag anyTraffic "direct") := by
  unfold catchAllRules at h
  split at h
  · rename_i honly
    simp only [List.mem_append, mem_when, List.mem_cons, List.not_mem_nil, or_false] at h
    rcases h with ((rfl | ⟨-, rfl⟩) | ⟨-, rfl⟩) | rfl
    · exact .inl (target_toMain i (plain_domain _))
    · exact .inl (target_toMain i (plain_ip _))
    · exact .inl (target_toMain i (plain_udpPort _))
    · exact .inr ⟨honly, rfl⟩
  · rw [List.mem_singleton.mp h]
    exact .inl (target_toMain i plain_anyTraffic)

/-- **Every rule ends at one of these targets.** A fixed outbound, the main route,
the local DPI engine (in hybrid mode only), the pool for video (when it is on) or
the pin of a service. -/
theorem target_cases {r : JsonObject} (h : r ∈ i.rules U) :
    (∃ t ∈ ["dns-out", "direct", "block"], target r = route ("outboundTag", t)) ∨
      target r = route i.mainTarget ∨
      (i.settings.mode = .HYBRID ∧ target r = route ("outboundTag", BYEDPI_TAG)) ∨
      (i.heavyOn = true ∧ target r = route ("balancerTag", "heavy")) ∨
      ∃ e ∈ (i.servicePools U).entries, target r = route (i.pinTarget e.1 e.2) := by
  have hdirect (ht : target r = route ("outboundTag", "direct")) :
      ∃ t ∈ ["dns-out", "direct", "block"], target r = route ("outboundTag", t) :=
    ⟨"direct", by decide, ht⟩
  have hblock (ht : target r = route ("outboundTag", "block")) :
      ∃ t ∈ ["dns-out", "direct", "block"], target r = route ("outboundTag", t) :=
    ⟨"block", by decide, ht⟩
  simp only [rules, List.mem_append] at h
  -- the rules block by block, in the order they are put together
  rcases h with (((((((((h | h) | h) | h) | h) | h) | h) | h) | h) | h) | h
  · rcases i.target_network h with ht | ht | ht | ht
    · exact .inl ⟨"dns-out", by decide, ht⟩
    · exact .inl (hdirect ht)
    · exact .inl (hblock ht)
    · exact .inr (.inl ht)
  · exact .inl (hdirect (i.target_alwaysDirect h))
  · exact .inr (.inl (i.target_alwaysVpn h))
  · exact .inr (.inr (.inr (.inr (i.target_service U h))))
  · exact .inr (.inl (i.target_ai h))
  · exact .inl (hblock (i.target_ad h))
  · exact .inr (.inr (.inl ⟨(i.target_hybrid h).1, (i.target_hybrid h).2.2⟩))
  · exact .inr (.inl (i.target_telegram h))
  · exact .inl (hdirect (i.target_ru h))
  · exact .inr (.inr (.inr (.inl (i.target_heavy h))))
  · rcases i.target_catchAll h with ht | ⟨-, rfl⟩
    · exact .inr (.inl ht)
    · exact .inl (hdirect (target_toTag plain_anyTraffic _))

end VpnInput

end VlessCard.XrayConfigBuilder
