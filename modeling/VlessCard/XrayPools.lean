/-
The servers a balancer really spreads over.

A selector entry picks every outbound whose tag starts with it. The entries of a
pool are numbered tags, so `proxy-1` also picks `proxy-10`, `proxy-11` and on. The
pool for video is used for at most ten servers only, where no number extends
another; the pools of the services are not, and are exact just when the list ends
before ten times each of their positions.
-/
import VlessCard.XrayRefs

set_option autoImplicit false

namespace VlessCard.XrayConfigBuilder

/-- The balancer's selector picks the outbound tagged `t`. -/
def Selected (c b : JsonObject) (t : String) : Prop :=
  t ∈ tagsOf c ∧ ∃ e ∈ textsOf b "selector", e.toList <+: t.toList

/-- The pools of a configuration are the intended ones: the measured video servers,
and for each service the positions `ServiceRoutes.indices` gives it. -/
structure PoolsExact (U : Jvm) (i : VpnInput) (c : JsonObject) : Prop where
  heavy : ∀ b ∈ balancersOf c, textOf b "tag" = "heavy" →
    ∀ t, Selected c b t ↔ ∃ v ∈ i.heavy.toList, t = proxyTag v
  service : ∀ b ∈ balancersOf c,
    ∀ e ∈ (ServiceRoutes.indices (i.servers.map fun s => s.1.id U) i.serviceRoutes).entries,
      textOf b "tag" = "service-" ++ e.1 → ∀ t, Selected c b t ↔ ∃ k ∈ e.2, t = proxyTag (k : ℕ)

/-! ## Which tags extend a server's tag

A balancer selects by prefixes, and the tag of one server is a prefix of others. Which ones
depends on the decimal digits of their numbers. -/

theorem kind_dpiTag_ne (id : String) : kind (dpiTag id) ≠ ['p', 'r'] := by
  by_cases h : dpiTag id = BYEDPI_TAG
  · rw [h]
    decide
  · rw [kind_dpiTag h]
    decide

theorem kind_dpiTags {cur : Option Int32} {ports : OrderedMap String Int32} {t : String}
    (h : t ∈ dpiTags cur ports) : kind t ≠ ['p', 'r'] := by
  rcases List.mem_append.mp h with h | h
  · obtain ⟨p, -, rfl⟩ := Option.map_eq_some_iff.mp (Option.mem_toList.mp h)
    decide
  · obtain ⟨id, -, rfl⟩ := List.mem_map.mp h
    exact kind_dpiTag_ne id

/-- What starts like a server's tag is of its kind. -/
theorem kind_of_starts {k : ℕ} {t : String} (h : (proxyTag k).toList <+: t.toList) :
    kind t = ['p', 'r'] := by
  obtain ⟨rest, hrest⟩ := h
  rw [proxyTag_natCast, String.toList_append] at hrest
  rw [kind, ← hrest]
  rfl

namespace VpnInput

variable (i : VpnInput)

/-- An outbound is a server's or of another kind. -/
theorem mem_tagList {t : String} (h : t ∈ i.tagList) :
    (∃ j < i.servers.length, t = proxyTag (j : ℕ)) ∨ kind t ≠ ['p', 'r'] := by
  simp only [tagList, List.mem_append, List.mem_cons, List.not_mem_nil, or_false] at h
  rcases h with ((((h | rfl) | h) | rfl | rfl) | h) | h
  · split at h
    · obtain ⟨j, hj, rfl⟩ := List.mem_map.mp h
      exact .inl ⟨j, List.mem_range.mp hj, rfl⟩
    · cases h
  · exact .inr (by decide)
  · split at h
    · rw [List.mem_singleton.mp h]
      exact .inr (by decide)
    · cases h
  · exact .inr (by decide)
  · exact .inr (by decide)
  · exact .inr (kind_dpiTags h)
  · split at h
    · rw [List.mem_singleton.mp h]
      exact .inr (by decide)
    · cases h

/-- The outbounds a numbered selector entry picks. -/
theorem prefix_proxyTag_iff (hu : i.useServers = true) (k : ℕ) (t : String) :
    (t ∈ i.tagList ∧ (proxyTag k).toList <+: t.toList) ↔
      ∃ j < i.servers.length, t = proxyTag (j : ℕ) ∧ Nat.toDigits 10 k <+: Nat.toDigits 10 j := by
  constructor
  · rintro ⟨hmem, hpre⟩
    rcases i.mem_tagList hmem with ⟨j, hj, rfl⟩ | hkind
    · exact ⟨j, hj, rfl, (Decimal.numbered_prefix PROXY_PREFIX).mp hpre⟩
    · exact absurd (kind_of_starts hpre) hkind
  · rintro ⟨j, hj, rfl, hpre⟩
    exact ⟨i.proxyTag_mem hu hj, (Decimal.numbered_prefix PROXY_PREFIX).mpr hpre⟩

/-- A numbered selector is exact when no number outside the pool extends one in it. -/
theorem selector_exact_iff (hu : i.useServers = true) {p : List ℕ}
    (hp : ∀ k ∈ p, k < i.servers.length) :
    (∀ t, (t ∈ i.tagList ∧ ∃ e ∈ p.map (fun k : ℕ => proxyTag k), e.toList <+: t.toList) ↔
        ∃ k ∈ p, t = proxyTag (k : ℕ)) ↔
      ∀ k ∈ p, ∀ j < i.servers.length, Nat.toDigits 10 k <+: Nat.toDigits 10 j → j ∈ p := by
  constructor
  · intro h k hk j hj hpre
    obtain ⟨hmem, hpre'⟩ := (i.prefix_proxyTag_iff hu k (proxyTag j)).mpr ⟨j, hj, rfl, hpre⟩
    obtain ⟨k', hk', heq⟩ := (h (proxyTag j)).mp ⟨hmem, _, List.mem_map_of_mem hk, hpre'⟩
    rw [proxyTag_inj.mp heq]
    exact hk'
  · intro h t
    constructor
    · rintro ⟨hmem, e, he, hpre⟩
      obtain ⟨k, hk, rfl⟩ := List.mem_map.mp he
      obtain ⟨j, hj, rfl, hd⟩ := (i.prefix_proxyTag_iff hu k t).mp ⟨hmem, hpre⟩
      exact ⟨j, h k hk j hj hd, rfl⟩
    · rintro ⟨k, hk, rfl⟩
      exact ⟨i.proxyTag_mem hu (hp k hk), _, List.mem_map_of_mem hk, List.prefix_refl _⟩

end VpnInput

/-- Two positions of a list of `n` are closed under extension of their numerals
just when the list ends before ten times each of them, or at it when that is the
other position. -/
theorem two_digits_closed_iff {p : List ℕ} {n : ℕ} (hlen : p.length ≤ 2) :
    (∀ k ∈ p, ∀ j < n, Nat.toDigits 10 k <+: Nat.toDigits 10 j → j ∈ p) ↔
      ∀ k ∈ p, k = 0 ∨ n ≤ 10 * k ∨ (n = 10 * k + 1 ∧ 10 * k ∈ p) := by
  constructor
  · intro h k hk
    rcases Nat.eq_zero_or_pos k with h0 | hpos
    · exact .inl h0
    refine .inr ?_
    by_contra hcon
    rw [not_or, Nat.not_le] at hcon
    have h10 : 10 * k ∈ p := h k hk (10 * k) hcon.1 (Decimal.toDigits_prefix (d := 0) hpos (by omega))
    have hlt : 10 * k + 1 < n := by
      have hne : n ≠ 10 * k + 1 := fun hn => hcon.2 ⟨hn, h10⟩
      omega
    have h11 : 10 * k + 1 ∈ p := h k hk _ hlt (Decimal.toDigits_prefix hpos (by omega))
    -- three different members of a list of two
    have hthree : [k, 10 * k, 10 * k + 1].Nodup := by
      simp only [List.nodup_cons, List.mem_cons, List.not_mem_nil, or_false, not_or,
        not_false_eq_true, List.nodup_nil, and_true]
      omega
    have hsub : [k, 10 * k, 10 * k + 1] ⊆ p := by
      intro x hx
      simp only [List.mem_cons, List.not_mem_nil, or_false] at hx
      rcases hx with rfl | rfl | rfl
      · exact hk
      · exact h10
      · exact h11
    have hle := (hthree.subperm hsub).length_le
    simp only [List.length_cons, List.length_nil] at hle
    omega
  · intro h k hk j hj hpre
    rcases Decimal.eq_or_ten_mul_le hpre with rfl | ⟨hpos, hle⟩
    · exact hk
    · rcases h k hk with h0 | hn | ⟨hn, hmem⟩
      · omega
      · omega
      · have hj10 : j = 10 * k := by omega
        exact hj10 ▸ hmem

/-! ## The balancers of a configuration

The pool of video has the first ten servers at most and is always exact. The pool of a service
may have any numbers, so it depends on how many servers there are. -/

section
variable (J : OrgJson) (U : Jvm) (noiseItems : String → Option String)

namespace VpnInput

variable (i : VpnInput)

/-- With at most ten servers the video pool is exact. -/
theorem heavy_exact (h : i.heavyOn = true) (t : String) :
    (t ∈ i.tagList ∧ ∃ e ∈ (i.heavy.toList.insertionSort (· ≤ ·)).map proxyTag,
      e.toList <+: t.toList) ↔ ∃ v ∈ i.heavy.toList, t = proxyTag v := by
  have hu : i.useServers = true := (i.useServers_of_many (i.heavyOn_many h)).1
  have hten : i.servers.length ≤ 10 := by
    simp only [heavyOn, Bool.and_eq_true, decide_eq_true_eq] at h
    exact h.1.1.1.1.2
  constructor
  · rintro ⟨hmem, e, he, hpre⟩
    obtain ⟨v, hv, rfl⟩ := List.mem_map.mp he
    have hv' : v ∈ i.heavy.toList := (List.mem_insertionSort _).mp hv
    obtain ⟨k, rfl, hk⟩ := i.heavy_mem h hv'
    obtain ⟨j, hj, rfl, hd⟩ := (i.prefix_proxyTag_iff hu k t).mp ⟨hmem, hpre⟩
    rcases Decimal.eq_or_ten_mul_le hd with rfl | ⟨hpos, hle⟩
    · exact ⟨j, hv', rfl⟩
    · omega
  · rintro ⟨v, hv, rfl⟩
    obtain ⟨k, rfl, hk⟩ := i.heavy_mem h hv
    exact ⟨i.proxyTag_mem hu hk, _, List.mem_map_of_mem ((List.mem_insertionSort _).mpr hv),
      List.prefix_refl _⟩

theorem textOf_balancerOf (tag : String) (sel : List String) (fb : String) :
    textOf (i.balancerOf tag sel fb) "tag" = tag := textOf_str (by simp [balancerOf])

/-- The balancer tagged `heavy` is the one of the video pool. -/
theorem eq_heavyBalancer {b : JsonObject} (hb : b ∈ i.balancers U)
    (htag : textOf b "tag" = "heavy") : i.heavyOn = true ∧ b = i.heavyBalancer := by
  simp only [balancers, List.mem_append, mem_when, List.mem_singleton] at hb
  rcases hb with (rfl | ⟨hh, rfl⟩) | hb
  · rw [mainBalancer, textOf_balancerOf] at htag
    exact absurd htag (by decide)
  · exact ⟨hh, rfl⟩
  · obtain ⟨e, -, rfl⟩ := List.mem_map.mp hb
    rw [serviceBalancer, textOf_balancerOf] at htag
    have hhead := congrArg (fun s => s.toList.head?) htag
    simp only [String.toList_append] at hhead
    exact absurd hhead (by simp)

/-- The balancer tagged for a service is the one of its pool. -/
theorem eq_serviceBalancer {b : JsonObject} (hb : b ∈ i.balancers U) {e : String × List ℕ}
    (he : e ∈ (ServiceRoutes.indices (i.servers.map fun s => s.1.id U) i.serviceRoutes).entries)
    (htag : textOf b "tag" = "service-" ++ e.1) :
    e ∈ (i.servicePools U).entries ∧ 1 < e.2.length ∧ b = i.serviceBalancer e := by
  simp only [balancers, List.mem_append, mem_when, List.mem_singleton] at hb
  have hhead := congrArg (fun s => s.toList.head?) htag
  simp only [String.toList_append] at hhead
  rcases hb with (rfl | ⟨hh, rfl⟩) | hb
  · rw [mainBalancer, textOf_balancerOf] at hhead
    exact absurd hhead (by simp)
  · rw [heavyBalancer, textOf_balancerOf] at hhead
    exact absurd hhead (by simp)
  · obtain ⟨e', he', rfl⟩ := List.mem_map.mp hb
    obtain ⟨hmem, hlen⟩ := List.mem_filter.mp he'
    rw [serviceBalancer, textOf_balancerOf, String.append_right_inj] at htag
    -- the pools in use are those of `indices`, where the id determines the pool
    have hmem' := hmem
    unfold servicePools at hmem'
    split at hmem'
    · have h₁ := OrderedMap.get?_of_mem _ hmem'
      have h₂ := OrderedMap.get?_of_mem _ he
      rw [htag, h₂, Option.some.injEq] at h₁
      have heq : e' = e := Prod.ext htag h₁.symm
      subst heq
      exact ⟨hmem, by simpa using hlen, rfl⟩
    · cases hmem'

end VpnInput

/-- **Service pools are exact just when the list is short enough.** In every
configuration the builder returns, the video pool and the pools of the services
select exactly their servers if and only if for each pool of two its positions
are zero, or the list ends before ten times them, or at it with that position in
the pool as well. -/
theorem poolsExact_iff (i : VpnInput) (c : JsonObject) (h : vpnConfig J U noiseItems i = some c) :
    PoolsExact U i c ↔ ∀ e ∈ (i.servicePools U).entries, 1 < e.2.length → ∀ k ∈ e.2,
      k = 0 ∨ i.servers.length ≤ 10 * k ∨ (i.servers.length = 10 * k + 1 ∧ 10 * k ∈ e.2) := by
  obtain ⟨-, outs, houts, rfl⟩ := vpnConfig_eq_some J U noiseItems h
  have ht : tagsOf (i.assemble U outs) = i.tagList := by
    rw [tagsOf, i.outboundsOf_assemble U, (i.outbounds_spec J U noiseItems houts).1]
  -- a prefix selector takes the pool alone just when no longer number starts with one of it
  have hpool {e : String × List ℕ} (he : e ∈ (i.servicePools U).entries) :
      (∀ t, Selected (i.assemble U outs) (i.serviceBalancer e) t ↔
          ∃ k ∈ e.2, t = proxyTag (k : ℕ)) ↔
        ∀ k ∈ e.2, k = 0 ∨ i.servers.length ≤ 10 * k ∨
          (i.servers.length = 10 * k + 1 ∧ 10 * k ∈ e.2) := by
    obtain ⟨hu, -, hlen, -, hlt⟩ := i.mem_servicePools U he
    unfold Selected
    rw [ht, VpnInput.serviceBalancer, i.textsOf_selector, i.selector_exact_iff hu hlt,
      two_digits_closed_iff hlen]
  constructor
  -- every service with two or more outbounds has a balancer of its own
  · intro hexact e he hlen
    refine (hpool he).mp (hexact.service (i.serviceBalancer e) ?_ e ?_ ?_)
    · rw [i.balancersOf_assemble U, if_pos (i.many_of_pool U he hlen)]
      refine List.mem_append_right _ (List.mem_map_of_mem (List.mem_filter.mpr ⟨he, ?_⟩))
      exact decide_eq_true hlen
    · unfold VpnInput.servicePools at he
      split at he
      · exact he
      · cases he
    · exact i.textOf_balancerOf _ _ _
  · intro hcond
    constructor
    -- the heavy balancer takes every proxy, and no other tag starts that way
    · intro b hb htag t
      rw [i.balancersOf_assemble U] at hb
      split at hb
      · obtain ⟨hh, rfl⟩ := i.eq_heavyBalancer U hb htag
        unfold Selected
        rw [ht, VpnInput.heavyBalancer, i.textsOf_selector]
        exact i.heavy_exact hh t
      · cases hb
    -- the balancer of a service takes its pool by the condition
    · intro b hb e he htag
      rw [i.balancersOf_assemble U] at hb
      split at hb
      · obtain ⟨hmem, hlen, rfl⟩ := i.eq_serviceBalancer U hb he htag
        exact (hpool hmem).mpr (hcond e hmem hlen)
      · cases hb

end

/-- Eleven servers, ChatGPT measured on the second and the third. -/
def elevenServers : VpnInput :=
  let server (n : ℕ) : Server :=
    { name := "s", protocol := "trojan", address := "h" ++ toString n, port := 443, secret := "p" }
  { servers := (List.range 11).map fun n => (server n, none)
    settings0 := { mode := .SERVERS }
    byeDpiPort := none
    serviceRoutes := .ofList [("chatgpt", [(server 1).id Jvm.ascii, (server 2).id Jvm.ascii])] }

/-- The same two servers measured in a list of ten. -/
def tenServers : VpnInput := { elevenServers with servers := elevenServers.servers.take 10 }

theorem poolsExact_ten_servers :
    ∃ c, vpnConfig JsonText.library Jvm.ascii (fun _ => none) tenServers = some c ∧
      (PoolsExact Jvm.ascii tenServers c ↔
        ∀ e ∈ (tenServers.servicePools Jvm.ascii).entries, 1 < e.2.length → ∀ k ∈ e.2,
          k = 0 ∨ tenServers.servers.length ≤ 10 * k ∨
            (tenServers.servers.length = 10 * k + 1 ∧ 10 * k ∈ e.2)) ∧
      (tenServers.servicePools Jvm.ascii).entries = [("chatgpt", [1, 2])] := by
  obtain ⟨c, hc⟩ := Option.isSome_iff_exists.mp
    (by decide +kernel : (vpnConfig JsonText.library Jvm.ascii (fun _ => none) tenServers).isSome)
  exact ⟨c, hc, poolsExact_iff JsonText.library Jvm.ascii (fun _ => none) tenServers c hc,
    by decide +kernel⟩

/-- With eleven servers the pool of the second and third also gets `proxy-10`. -/
theorem service_pool_spreads :
    ∃ c, vpnConfig JsonText.library Jvm.ascii (fun _ => none) elevenServers = some c ∧
      ¬ PoolsExact Jvm.ascii elevenServers c := by
  obtain ⟨c, hc⟩ := Option.isSome_iff_exists.mp
    (by decide +kernel : (vpnConfig JsonText.library Jvm.ascii (fun _ => none) elevenServers).isSome)
  refine ⟨c, hc, fun hexact => ?_⟩
  obtain ⟨-, outs, houts, rfl⟩ := vpnConfig_eq_some _ _ _ hc
  have hpools : (elevenServers.servicePools Jvm.ascii).entries = [("chatgpt", [1, 2])] := by
    decide +kernel
  have hmany : elevenServers.many = true := by decide +kernel
  have hb : elevenServers.serviceBalancer ("chatgpt", [1, 2]) ∈
      balancersOf (elevenServers.assemble Jvm.ascii outs) := by
    rw [elevenServers.balancersOf_assemble, if_pos hmany, VpnInput.balancers, hpools]
    exact List.mem_append_right _ (List.mem_cons_self ..)
  have he : ("chatgpt", [1, 2]) ∈ (ServiceRoutes.indices
      (elevenServers.servers.map fun s => s.1.id Jvm.ascii) elevenServers.serviceRoutes).entries := by
    decide +kernel
  have htag : "proxy-10" ∈ tagsOf (elevenServers.assemble Jvm.ascii outs) := by
    rw [tagsOf, elevenServers.outboundsOf_assemble, (elevenServers.outbounds_spec _ _ _ houts).1]
    exact elevenServers.proxyTag_mem (k := 10) (by decide +kernel) (by decide +kernel)
  have hsel := hexact.service _ hb _ he (elevenServers.textOf_balancerOf _ _ _) "proxy-10"
  obtain ⟨k, hk, heq⟩ := hsel.mp ⟨htag, "proxy-1", by
    rw [VpnInput.serviceBalancer, elevenServers.textsOf_selector]
    exact List.mem_cons_self .., by decide⟩
  simp only [List.mem_cons, List.not_mem_nil, or_false] at hk
  rcases hk with rfl | rfl
  · exact absurd heq (by decide)
  · exact absurd heq (by decide)

end VlessCard.XrayConfigBuilder
