/-
References of a finished configuration.

Outbounds are found by tag: a rule names one as its target, a balancer as its
fallback and by a prefix in its selector, a socket as its dialer. `Closed` says
that every such name resolves. The tags of the outbounds are `tagList`, in order;
every reference the builder writes is then a membership in that list.
-/
import Mathlib.Data.List.Sort
import VlessCard.Decimal
import VlessCard.JsonText
import VlessCard.Lists
import VlessCard.XrayRules

set_option autoImplicit false

namespace VlessCard.XrayConfigBuilder

/-! ## What a closed configuration is

A reference is a tag in a rule, a balancer or a dialer, and it needs an outbound or a balancer of
that tag. A configuration is closed when every reference has one, and no two outbounds have one
tag. -/

/-- The tags of the outbounds. -/
def tagsOf (c : JsonObject) : List String := (outboundsOf c).map fun o => textOf o "tag"

def balancerTagsOf (c : JsonObject) : List String := (balancersOf c).map fun b => textOf b "tag"

/-- The value names a member of `tags`. -/
def Names (tags : List String) (v : Option Json) : Prop := ∀ w, v = some w → ∃ t ∈ tags, w = .str t

/-- Every reference of the configuration resolves. -/
structure Closed (c : JsonObject) : Prop where
  tags : (tagsOf c).Nodup
  rules : ∀ r ∈ rulesOf c, Names (tagsOf c) (r.get? "outboundTag") ∧
    Names (balancerTagsOf c) (r.get? "balancerTag")
  balancers : ∀ b ∈ balancersOf c, Names (tagsOf c) (b.get? "fallbackTag") ∧
    ∀ e ∈ textsOf b "selector", ∃ t ∈ tagsOf c, e.toList <+: t.toList
  dialers : ∀ o ∈ outboundsOf c, Names (tagsOf c) (dialerProxy o)

/-- A field that is there refers to a tag of the list. -/
theorem names_some {tags : List String} {t : String} (h : t ∈ tags) : Names tags (some (.str t)) := by
  rintro w hw
  exact ⟨t, h, (Option.some.inj hw).symm⟩

/-- A field that is missing refers to nothing. -/
theorem names_none {tags : List String} : Names tags none := by
  rintro w hw
  cases hw

/-- The target written by `put key tag` exists. -/
def Resolves (tags bals : List String) (kt : String × String) : Prop :=
  (kt.1 = "outboundTag" → kt.2 ∈ tags) ∧ (kt.1 = "balancerTag" → kt.2 ∈ bals)

/-- A rule may name an outbound that there is. -/
theorem resolves_outbound {tags bals : List String} {t : String} (h : t ∈ tags) :
    Resolves tags bals ("outboundTag", t) :=
  ⟨fun _ => h, fun hk => absurd hk (by decide : "outboundTag" ≠ "balancerTag")⟩

/-- A rule may name a balancer that there is. -/
theorem resolves_balancer {tags bals : List String} {t : String} (h : t ∈ bals) :
    Resolves tags bals ("balancerTag", t) :=
  ⟨fun hk => absurd hk (by decide : "balancerTag" ≠ "outboundTag"), fun _ => h⟩

/-- A rule with such a target refers to nothing else. -/
theorem names_route {tags bals : List String} {kt : String × String} (h : Resolves tags bals kt) :
    Names tags (route kt).1 ∧ Names bals (route kt).2 := by
  constructor
  · by_cases hk : kt.1 = "outboundTag"
    · rw [route, if_pos hk]
      exact names_some (h.1 hk)
    · rw [route, if_neg hk]
      exact names_none
  · by_cases hk : kt.1 = "balancerTag"
    · rw [route, if_pos hk]
      exact names_some (h.2 hk)
    · rw [route, if_neg hk]
      exact names_none

/-- An array of objects that was put under a key is read back from there. -/
theorem objectsOf_objects (c : JsonObject) (k : String) (l : List JsonObject)
    (h : c.get? k = some (VpnInput.objects l)) : objectsOf c k = l := by
  rw [objectsOf, JsonObject.optJSONArray, h, VpnInput.objects]
  simp only [Option.bind_some, Json.asArray_arr, Option.getD_some, List.filterMap_map]
  exact List.filterMap_some

/-! ## Outbounds and their dialers

An outbound dials through another only if its mask names an engine. The mask was resolved before,
so the engine is one that runs. -/

section
variable (J : OrgJson) (U : Jvm) (noiseItems : String → Option String)

/-- A raw Xray outbound brings no dialer of its own. -/
def RawClean (s : Server) : Prop :=
  s.protocol = "xray" → ∀ o, J.parseObject s.extra = some o → dialerProxy o = none

/-- A conditional `put` leaves every other key as it is. -/
theorem get?_putIf {c : Bool} {o : JsonObject} {k k' : String} {v : Json} (h : k ≠ k') :
    (putIf c o k v).get? k' = o.get? k' := by
  unfold putIf
  split
  · rw [JsonObject.get?_put, if_neg h]
  · rfl

/-- A text under a key is what `textOf` reads. -/
theorem textOf_str {o : JsonObject} {k t : String} (h : o.get? k = some (.str t)) :
    textOf o k = t := by
  rw [textOf, h]

/-- The socket options name a dialer only for a mask through a DPI engine. -/
theorem sockopt_dialer {s : Server} {mask : Option Mask} {v : Json}
    (h : (sockopt s mask).get? "dialerProxy" = some v) :
    ∃ m, mask = some m ∧ m.viaByeDpi = true ∧ v = .str (dpiTag m.dpi) := by
  unfold sockopt at h
  cases mask with
  | none => simp at h
  | some m =>
    simp only at h
    split at h
    · rename_i hc
      refine ⟨m, rfl, hc.1, ?_⟩
      rw [JsonObject.get?_put, if_pos rfl] at h
      exact (Option.some.inj h).symm
    · exfalso
      split at h
      · rw [JsonObject.get?_put, if_neg (by decide), JsonObject.get?_put, if_neg (by decide),
          get?_putIf (by decide), get?_putIf (by decide), JsonObject.get?_put,
          if_neg (by decide)] at h
        cases h
      · rw [get?_putIf (by decide), get?_putIf (by decide), JsonObject.get?_put,
          if_neg (by decide)] at h
        cases h

/-- An outbound carries its tag, and names a dialer only as its mask says. -/
theorem outbound_spec {s : Server} {tag : String} {mask : Option Mask} {mux : Bool}
    {o : JsonObject} (h : outbound J U noiseItems s tag mask mux = some o) :
    textOf o "tag" = tag ∧ (RawClean J s → ∀ v, dialerProxy o = some v →
      ∃ m, mask = some m ∧ m.viaByeDpi = true ∧ v = .str (dpiTag m.dpi)) := by
  unfold outbound at h
  split at h
  · rename_i hx
    obtain ⟨raw, hraw, rfl⟩ := Option.map_eq_some_iff.mp h
    refine ⟨textOf_str (by simp), fun hclean v hv => ?_⟩
    have hnone : dialerProxy (raw.put "tag" (.str tag)) = dialerProxy raw := by
      simp [dialerProxy, JsonObject.optJSONObject]
    rw [hnone, hclean hx raw hraw] at hv
    cases hv
  · simp only [Option.bind_eq_bind, Option.bind_eq_some_iff, Option.pure_def,
      Option.some.injEq] at h
    obtain ⟨⟨protocol, settings⟩, -, st, hst, rfl⟩ := h
    refine ⟨textOf_str ?_, fun _ v hv => ?_⟩
    · rw [get?_putIf (by decide)]
      simp
    · simp only [stream, Option.bind_eq_bind, Option.bind_eq_some_iff, Option.pure_def,
        Option.some.injEq] at hst
      obtain ⟨fm, -, rfl⟩ := hst
      rw [dialerProxy, JsonObject.optJSONObject, get?_putIf (by decide)] at hv
      simp only [JsonObject.get?_put, if_true, Option.bind_some, Json.asObject_obj,
        JsonObject.optJSONObject] at hv
      exact sockopt_dialer hv

/-- The engine a resolved mask is dialled through is running. -/
theorem resolveMask_running {mask : Option Mask} {cur : Option Int32}
    {ports : OrderedMap String Int32} {m : Mask} (h : resolveMask mask cur ports = some m)
    (hv : m.viaByeDpi = true) :
    (cur.isSome = true ∧ dpiTag m.dpi = BYEDPI_TAG) ∨ m.dpi ∈ ports.keys := by
  obtain ⟨m₀, -, hm⟩ := Option.map_eq_some_iff.mp h
  split at hm
  · rename_i h₀
    rw [← hm] at hv
    simp [hv] at h₀
  · split at hm
    · rename_i hcur
      split at hm
      · rename_i hsome
        rw [← hm]
        exact .inl ⟨hsome, if_pos (.inr hcur)⟩
      · rw [← hm] at hv
        cases hv
    · split at hm
      · rename_i hports
        rw [← hm]
        exact .inr ((OrderedMap.contains_iff _ _).mp hports)
      · split at hm
        · rename_i hsome
          rw [← hm]
          exact .inl ⟨hsome, rfl⟩
        · rw [← hm] at hv
          cases hv

/-- The tags of the local DPI engines. -/
def dpiTags (cur : Option Int32) (ports : OrderedMap String Int32) : List String :=
  (cur.map fun _ => BYEDPI_TAG).toList ++ ports.keys.map dpiTag

/-- An engine's outbound carries the tag that it was made with. -/
theorem textOf_byeDpiOutbound (port : Int32) (tag : String) :
    textOf (byeDpiOutbound port tag) "tag" = tag := textOf_str (by simp [byeDpiOutbound])

/-- An outbound without a transport dials through no other. -/
theorem dialerProxy_of_no_stream {o : JsonObject} (h : o.get? "streamSettings" = none) :
    dialerProxy o = none := by
  rw [dialerProxy, JsonObject.optJSONObject, h]
  rfl

/-- The engines' outbounds carry the engines' tags, in their order. -/
theorem dpiOutbounds_tags (cur : Option Int32) (ports : OrderedMap String Int32) :
    (dpiOutbounds cur ports).map (fun o => textOf o "tag") = dpiTags cur ports := by
  rw [dpiOutbounds, dpiTags, List.map_append, List.map_map, OrderedMap.keys, List.map_map]
  refine congrArg₂ (· ++ ·) ?_ (List.map_congr_left fun e _ => textOf_byeDpiOutbound e.2 _)
  cases cur with
  | none => rfl
  | some p => simp [textOf_byeDpiOutbound]

theorem dpiOutbounds_dialer {cur : Option Int32} {ports : OrderedMap String Int32} {o : JsonObject}
    (h : o ∈ dpiOutbounds cur ports) : dialerProxy o = none := by
  rcases List.mem_append.mp h with h | h
  · obtain ⟨p, -, rfl⟩ := Option.map_eq_some_iff.mp (Option.mem_toList.mp h)
    exact dialerProxy_of_no_stream (by simp [byeDpiOutbound])
  · obtain ⟨e, -, rfl⟩ := List.mem_map.mp h
    exact dialerProxy_of_no_stream (by simp [byeDpiOutbound])

/-- What a resolved mask dials through has an outbound. -/
theorem dialer_mem_dpiTags {mask : Option Mask} {cur : Option Int32}
    {ports : OrderedMap String Int32} {m : Mask} (h : resolveMask mask cur ports = some m)
    (hv : m.viaByeDpi = true) : dpiTag m.dpi ∈ dpiTags cur ports := by
  rcases resolveMask_running h hv with ⟨hcur, htag⟩ | hmem
  · obtain ⟨p, rfl⟩ := Option.isSome_iff_exists.mp hcur
    rw [htag]
    exact List.mem_append_left _ (List.mem_cons_self ..)
  · exact List.mem_append_right _ (List.mem_map_of_mem hmem)

/-- Outbounds built over a numbered list: their tags in order, and their dialers. -/
theorem mapM_outbound_spec {l : List (Server × Option Mask)} (tag : ℕ → String)
    {cur : Option Int32} {ports : OrderedMap String Int32} {mux : Bool} {outs : List JsonObject}
    (h : l.zipIdx.mapM (fun e => outbound J U noiseItems e.1.1 (tag e.2)
      (resolveMask e.1.2 cur ports) mux) = some outs) :
    outs.map (fun o => textOf o "tag") = (List.range l.length).map tag ∧
      ((∀ e ∈ l, RawClean J e.1) → ∀ o ∈ outs, Names (dpiTags cur ports) (dialerProxy o)) := by
  have hall := mapM_forall₂ h
  constructor
  · have htags : List.Forall₂ (fun e o => textOf o "tag" = tag e.2) l.zipIdx outs :=
      hall.imp fun e o he => (outbound_spec J U noiseItems he).1
    rw [map_eq_of_forall₂ (f := fun e : (Server × Option Mask) × ℕ => tag e.2) htags, List.range_eq_range',
      ← List.zipIdx_map_snd, List.map_map]
    rfl
  · intro hclean o ho v hv
    obtain ⟨e, he, heo⟩ := mem_of_forall₂ hall ho
    have hraw := hclean e.1 (List.fst_mem_of_mem_zipIdx he)
    obtain ⟨m, hm, hvia, rfl⟩ := (outbound_spec J U noiseItems heo).2 hraw v hv
    exact ⟨_, dialer_mem_dpiTags hm hvia, rfl⟩

/-! ## The running VPN

The tags of a running VPN are known beforehand: those of the servers, of the engines, and the
fixed ones. They differ by their first letters, and within a kind by their numbers. -/

/-- The engines' tags can be told apart: what Xray needs of `dpiPorts`. -/
structure DistinctEngines (ports : OrderedMap String Int32) : Prop where
  nodup : (ports.keys.map dpiTag).Nodup
  notCurrent : BYEDPI_TAG ∉ ports.keys.map dpiTag

/-- Proxies are numbered behind one prefix. -/
theorem proxyTag_natCast (k : ℕ) : proxyTag (k : ℤ) = PROXY_PREFIX ++ toString k := rfl

theorem proxyTag_inj {j k : ℕ} : proxyTag (j : ℤ) = proxyTag (k : ℤ) ↔ j = k :=
  Decimal.numbered_inj PROXY_PREFIX

/-- The first letters of a tag, by which the kinds of outbounds differ. -/
def kind (t : String) : List Char :=
  if t.toList.head? = some 'v' then ['v'] else t.toList.take 2

/-- The first two letters tell a proxy's tag from all others. -/
theorem kind_proxyTag (k : ℕ) : kind (proxyTag k) = ['p', 'r'] := by
  rw [kind, proxyTag_natCast, String.toList_append]
  rfl

/-- They tell an engine's tag too, but for the default engine's. -/
theorem kind_dpiTag {id : String} (h : dpiTag id ≠ BYEDPI_TAG) : kind (dpiTag id) = ['d', 'p'] := by
  unfold dpiTag at h ⊢
  split at h
  · exact absurd rfl h
  · rename_i hid
    rw [if_neg hid, kind, String.toList_append]
    rfl

namespace VpnInput

/-- The tags of the outbounds, in order. -/
def tagList (i : VpnInput) : List String :=
  (if i.useServers then (List.range i.servers.length).map fun k : ℕ => proxyTag k else [])
    ++ ["direct"] ++ (if i.torOn then [TOR_TAG] else []) ++ ["block", "dns-out"]
    ++ dpiTags i.byeDpiPort (if i.useServers then i.dpiPorts else .empty)
    ++ (if i.hopIdx.isSome then [WARP_CHAIN] else [])

variable (i : VpnInput)

/-- The hop is one of the servers of the configuration. -/
theorem hopIdx_lt {k : ℕ} (h : i.hopIdx = some k) : i.useServers = true ∧ k < i.servers.length := by
  unfold hopIdx at h
  split at h
  · rename_i hc
    obtain ⟨hk, -⟩ := List.findIdx?_eq_some_iff_getElem.mp h
    exact ⟨hc.1, hk⟩
  · cases h

/-- Each server of the configuration has its tag among the outbounds. -/
theorem proxyTag_mem {k : ℕ} (hu : i.useServers = true) (hk : k < i.servers.length) :
    proxyTag k ∈ i.tagList := by
  simp only [tagList, hu, if_true, List.mem_append]
  refine .inl (.inl (.inl (.inl (.inl ?_))))
  exact List.mem_map.mpr ⟨k, List.mem_range.mpr hk, rfl⟩

/-- The servers' outbounds carry the servers' tags in order, and dial through tags that there are. -/
theorem proxyOutbounds_spec {outs : List JsonObject}
    (h : i.proxyOutbounds J U noiseItems = some outs) :
    outs.map (fun o => textOf o "tag") =
        (if i.useServers then (List.range i.servers.length).map fun k : ℕ => proxyTag k else []) ∧
      ((∀ e ∈ i.servers, RawClean J e.1) → ∀ o ∈ outs, Names
        (dpiTags i.byeDpiPort (if i.useServers then i.dpiPorts else .empty)) (dialerProxy o)) := by
  unfold proxyOutbounds at h
  split at h
  · rename_i hu
    simp only [hu, if_true]
    exact mapM_outbound_spec J U noiseItems (fun k : ℕ => proxyTag k) h
  · rename_i hu
    obtain rfl := Option.some.inj h
    refine ⟨by simp [hu], fun _ o ho => ?_⟩
    cases ho

/-- The outbound behind the hop carries its own tag, and dials through the hop. -/
theorem warpOutbounds_spec {outs : List JsonObject}
    (h : i.warpOutbounds J U noiseItems = some outs) :
    outs.map (fun o => textOf o "tag") = (if i.hopIdx.isSome then [WARP_CHAIN] else []) ∧
      ∀ o ∈ outs, Names i.tagList (dialerProxy o) := by
  unfold warpOutbounds at h
  split at h
  · rename_i hop idx hh hidx
    obtain ⟨w, hw, rfl⟩ := Option.map_eq_some_iff.mp h
    have htag : textOf (dialThrough w idx) "tag" = WARP_CHAIN := by
      rw [← (outbound_spec J U noiseItems hw).1]
      simp [textOf, dialThrough]
    refine ⟨by simp [htag, hidx], fun o ho => ?_⟩
    rw [List.mem_singleton.mp ho]
    have hdial : dialerProxy (dialThrough w idx) = some (.str (proxyTag idx)) := by
      simp [dialerProxy, dialThrough, JsonObject.optJSONObject, JsonObject.get?_remove]
    rw [hdial]
    obtain ⟨hu, hlt⟩ := i.hopIdx_lt hidx
    exact names_some (i.proxyTag_mem hu hlt)
  · rename_i hne
    obtain rfl := Option.some.inj h
    refine ⟨?_, fun o ho => by cases ho⟩
    cases hidx : i.hopIdx with
    | none => rfl
    | some k =>
      exfalso
      cases hw : i.warpHop with
      | none => simp [hopIdx, hw] at hidx
      | some s => exact hne s k hw hidx

/-- The outbounds carry the tags of `tagList` and dial only through each other. -/
theorem outbounds_spec {outs : List JsonObject} (h : i.outbounds J U noiseItems = some outs) :
    outs.map (fun o => textOf o "tag") = i.tagList ∧
      ((∀ e ∈ i.servers, RawClean J e.1) → ∀ o ∈ outs, Names i.tagList (dialerProxy o)) := by
  simp only [outbounds, Option.bind_eq_bind, Option.bind_eq_some_iff, Option.pure_def,
    Option.some.injEq] at h
  obtain ⟨proxies, hp, warp, hw, rfl⟩ := h
  obtain ⟨hptags, hpdial⟩ := i.proxyOutbounds_spec J U noiseItems hp
  obtain ⟨hwtags, hwdial⟩ := i.warpOutbounds_spec J U noiseItems hw
  constructor
  -- the tags of the outbounds, block by block, in the order they are put together
  · have hfixed : textOf directOutbound "tag" = "direct" ∧ textOf torOutbound "tag" = TOR_TAG ∧
        textOf blockOutbound "tag" = "block" ∧ textOf dnsOutbound "tag" = "dns-out" :=
      ⟨rfl, rfl, rfl, rfl⟩
    have htor : (if i.torOn = true then [torOutbound] else []).map (fun o => textOf o "tag")
        = if i.torOn = true then [TOR_TAG] else [] := by
      split <;> rfl
    simp only [List.map_append, List.map_cons, List.map_nil, hptags, htor, hwtags,
      dpiOutbounds_tags, hfixed, tagList]
  -- where an outbound dials through another, that one is in the list
  · intro hclean o ho
    have hnone (hn : dialerProxy o = none) : Names i.tagList (dialerProxy o) := hn ▸ names_none
    simp only [List.mem_append, List.mem_cons, List.not_mem_nil, or_false] at ho
    rcases ho with ((((ho | rfl) | ho) | rfl | rfl) | ho) | ho
    · intro v hv
      obtain ⟨t, ht, rfl⟩ := hpdial hclean o ho v hv
      refine ⟨t, ?_, rfl⟩
      exact List.mem_append_left _ (List.mem_append_right _ ht)
    · exact hnone (dialerProxy_of_no_stream (by simp [directOutbound]))
    · split at ho
      · rw [List.mem_singleton.mp ho] at hnone ⊢
        exact hnone (dialerProxy_of_no_stream (by simp [torOutbound]))
      · cases ho
    · exact hnone (dialerProxy_of_no_stream (by simp [blockOutbound]))
    · exact hnone (dialerProxy_of_no_stream (by simp [dnsOutbound]))
    · exact hnone (dpiOutbounds_dialer ho)
    · exact hwdial o ho

/-- Engines that are not used at all do not share a port. -/
theorem dpiPorts_used {ports : OrderedMap String Int32} (h : DistinctEngines ports) (c : Bool) :
    DistinctEngines (if c then ports else .empty) := by
  cases c
  · exact ⟨List.nodup_nil, List.not_mem_nil⟩
  · exact h

/-- **No two outbounds have one tag**, as long as no two engines do. -/
theorem tagList_nodup (h : DistinctEngines i.dpiPorts) : i.tagList.Nodup := by
  have hused := dpiPorts_used h i.useServers
  have hblocks : i.tagList = List.flatMap Prod.snd
      [(['p', 'r'], if i.useServers then (List.range i.servers.length).map fun k : ℕ => proxyTag k
          else []),
        (['d', 'i'], ["direct"]), (['t', 'o'], if i.torOn then [TOR_TAG] else []),
        (['b', 'l'], ["block"]), (['d', 'n'], ["dns-out"]),
        (['b', 'y'], (i.byeDpiPort.map fun _ => BYEDPI_TAG).toList),
        (['d', 'p'], (if i.useServers then i.dpiPorts else .empty).keys.map dpiTag),
        (['w', 'a'], if i.hopIdx.isSome then [WARP_CHAIN] else [])] := by
    simp [tagList, dpiTags]
  rw [hblocks]
  refine nodup_of_blocks kind _ (by simp) ?_ ?_
  · simp only [List.forall_mem_cons]
    refine ⟨?_, List.nodup_singleton _, ?_, List.nodup_singleton _, List.nodup_singleton _, ?_,
      hused.nodup, ?_, by simp⟩
    -- within one block the tags are numbered, so they differ
    · split
      · refine List.nodup_range.map ?_
        intro j k hjk
        exact proxyTag_inj.mp hjk
      · exact List.nodup_nil
    · split <;> simp
    · cases i.byeDpiPort <;> simp
    · split <;> simp
  -- two blocks differ by the kind of their tags
  · simp only [List.forall_mem_cons]
    refine ⟨?_, by simp [kind], ?_, by simp [kind], by simp [kind], ?_, ?_, ?_, by simp⟩
    · intro t ht
      split at ht
      · obtain ⟨k, -, rfl⟩ := List.mem_map.mp ht
        exact kind_proxyTag k
      · cases ht
    · split <;> simp [kind, TOR_TAG]
    · cases i.byeDpiPort <;> simp [kind, BYEDPI_TAG]
    · intro t ht
      obtain ⟨id, hid, rfl⟩ := List.mem_map.mp ht
      exact kind_dpiTag fun heq => hused.notCurrent (heq ▸ ht)
    · split <;> simp [kind, WARP_CHAIN]

/-! ### Targets of rules and balancers

Each rule goes to the main route, a pin, a pool or a fixed outbound, and each of these is there
when the rule is. -/

/-- The tags of the balancers, with several servers. -/
def balancerTags : List String :=
  if i.many then
    ["balancer"] ++ (if i.heavyOn then ["heavy"] else [])
      ++ ((i.servicePools U).entries.filter fun e => 1 < e.2.length).map fun e => "service-" ++ e.1
  else []

/-- The three outbounds of every configuration are there. -/
theorem fixed_mem {t : String} (h : t ∈ ["dns-out", "direct", "block"]) : t ∈ i.tagList := by
  simp only [List.mem_cons, List.not_mem_nil, or_false] at h
  rcases h with rfl | rfl | rfl
  · simp [tagList]
  · simp [tagList]
  · simp [tagList]

theorem byeDpi_mem (h : i.byeDpiPort.isSome = true) : BYEDPI_TAG ∈ i.tagList := by
  obtain ⟨p, hp⟩ := Option.isSome_iff_exists.mp h
  simp [tagList, dpiTags, hp]

/-- A pool is made from more than one server. -/
theorem useServers_of_many (h : i.many = true) : i.useServers = true ∧ 1 < i.servers.length := by
  simpa [many] using h

/-- The conditions under which `vpnConfig` goes on. -/
structure Started : Prop where
  servers : i.settings.mode = .BYEDPI ∨ i.servers ≠ []
  engine : i.settings.mode = .SERVERS ∨ i.byeDpiPort.isSome = true

variable {i}

/-- What was started with servers has one. -/
theorem Started.servers_pos (h : i.Started) (hu : i.useServers = true) : 0 < i.servers.length := by
  have hmode : i.settings.mode ≠ .BYEDPI := by simpa [useServers] using hu
  exact List.length_pos_of_ne_nil (h.servers.resolve_left hmode)

/-- A mode without servers was started with an engine. -/
theorem Started.engine_of {m : Mode} (h : i.Started) (hm : i.settings.mode = m)
    (hne : m ≠ .SERVERS) : BYEDPI_TAG ∈ i.tagList := by
  refine i.byeDpi_mem (h.engine.resolve_left ?_)
  rw [hm]
  exact hne

/-- The main route exists. -/
theorem Started.main (h : i.Started) : Resolves i.tagList (i.balancerTags U) i.mainTarget := by
  unfold mainTarget
  split
  · rename_i hc
    exact resolves_outbound (by simp [tagList, hc.2])
  · split
    · rename_i hu
      have hmode : i.settings.mode = .BYEDPI := by simpa [useServers] using hu
      exact resolves_outbound (h.engine_of hmode (by decide))
    · rename_i hu
      have hu' : i.useServers = true := by simpa using hu
      split
      · rename_i hidx
        exact resolves_outbound (by simp [tagList, hidx])
      · split
        · rename_i hmany
          exact resolves_balancer (by simp [balancerTags, hmany])
        · exact resolves_outbound (i.proxyTag_mem hu' (h.servers_pos hu'))

variable (i)

/-- A pool of the running list: servers are in use, and its positions are theirs. -/
theorem mem_servicePools {e : String × List ℕ} (h : e ∈ (i.servicePools U).entries) :
    i.useServers = true ∧ e.2 ≠ [] ∧ e.2.length ≤ 2 ∧ e.2.Nodup ∧
      ∀ k ∈ e.2, k < i.servers.length := by
  unfold servicePools at h
  split at h
  · rename_i hc
    obtain ⟨-, hne, hlen, hnd, hlt⟩ := ServiceRoutes.mem_indices h
    rw [List.length_map] at hlt
    exact ⟨hc.1, hne, hlen, hnd, hlt⟩
  · cases h

/-- Two different positions need two servers. -/
theorem many_of_pool {e : String × List ℕ} (h : e ∈ (i.servicePools U).entries)
    (hlen : 1 < e.2.length) : i.many = true := by
  obtain ⟨hu, -, -, hnd, hlt⟩ := i.mem_servicePools U h
  have hcard : e.2.length ≤ (List.range i.servers.length).length :=
    (hnd.subperm fun k hk => List.mem_range.mpr (hlt k hk)).length_le
  rw [List.length_range] at hcard
  simp only [many, hu, Bool.true_and, decide_eq_true_eq]
  omega

/-- The pin of a pool exists. -/
theorem pinTarget_mem {e : String × List ℕ} (h : e ∈ (i.servicePools U).entries) :
    Resolves i.tagList (i.balancerTags U) (i.pinTarget e.1 e.2) := by
  obtain ⟨hu, hne, hlen, hnd, hlt⟩ := i.mem_servicePools U h
  unfold pinTarget
  split
  · rename_i hc
    exact resolves_outbound (by simp [tagList, hc.1])
  · split
    · obtain ⟨k, rest, hk⟩ := List.exists_cons_of_ne_nil hne
      rw [hk]
      exact resolves_outbound (i.proxyTag_mem hu (hlt k (hk ▸ List.mem_cons_self ..)))
    · rename_i hone
      have hpos := List.length_pos_of_ne_nil hne
      have htwo : 1 < e.2.length := by omega
      refine resolves_balancer ?_
      rw [balancerTags, if_pos (i.many_of_pool U h htwo)]
      refine List.mem_append_right _ (List.mem_map.mpr ⟨e, List.mem_filter.mpr ⟨h, ?_⟩, rfl⟩)
      exact decide_eq_true htwo

/-- Heavy balancing is only there with a pool. -/
theorem heavyOn_many (h : i.heavyOn = true) : i.many = true := by
  simp only [heavyOn, Bool.and_eq_true] at h
  exact h.1.1.1.1.1.1.2

/-- Every rule's target exists. -/
theorem rules_closed (h : i.Started) {r : JsonObject} (hr : r ∈ i.rules U) :
    Names i.tagList (r.get? "outboundTag") ∧ Names (i.balancerTags U) (r.get? "balancerTag") := by
  have key (kt : String × String) (ht : target r = route kt)
      (hkt : Resolves i.tagList (i.balancerTags U) kt) :
      Names i.tagList (target r).1 ∧ Names (i.balancerTags U) (target r).2 :=
    ht ▸ names_route hkt
  rcases i.target_cases U hr with ⟨t, ht, he⟩ | he | ⟨hm, he⟩ | ⟨hh, he⟩ | ⟨e, hmem, he⟩
  · exact key _ he (resolves_outbound (i.fixed_mem ht))
  · exact key _ he (h.main U)
  · exact key _ he (resolves_outbound (h.engine_of hm (by decide)))
  · exact key _ he (resolves_balancer (by simp [balancerTags, i.heavyOn_many hh, hh]))
  · exact key _ he (i.pinTarget_mem U hmem)

/-- An array of texts that was put under a key is read back from there. -/
theorem textsOf_strings {o : JsonObject} {k : String} {l : List String}
    (h : o.get? k = some (Json.strings l)) : textsOf o k = l := by
  rw [textsOf, JsonObject.optJSONArray, h, Json.strings]
  simp only [Option.bind_some, Json.asArray_arr, Option.getD_some, List.filterMap_map]
  exact List.filterMap_some

/-- A balancer selects what it was made with. -/
theorem textsOf_selector (tag : String) (sel : List String) (fallback : String) :
    textsOf (i.balancerOf tag sel fallback) "selector" = sel :=
  textsOf_strings (by simp [balancerOf])

/-- A balancer over existing outbounds refers to nothing else. -/
theorem balancerOf_closed {tag fallback : String} {sel : List String} (hf : fallback ∈ i.tagList)
    (hs : ∀ e ∈ sel, ∃ t ∈ i.tagList, e.toList <+: t.toList) :
    Names i.tagList ((i.balancerOf tag sel fallback).get? "fallbackTag") ∧
      ∀ e ∈ textsOf (i.balancerOf tag sel fallback) "selector",
        ∃ t ∈ i.tagList, e.toList <+: t.toList := by
  rw [textsOf_selector]
  refine ⟨?_, hs⟩
  have hget : (i.balancerOf tag sel fallback).get? "fallbackTag" = some (.str fallback) := by
    simp [balancerOf]
  rw [hget]
  exact names_some hf

/-- The members of the pool for video are positions of the list. -/
theorem heavy_mem (h : i.heavyOn = true) {v : ℤ} (hv : v ∈ i.heavy.toList) :
    ∃ k : ℕ, v = k ∧ k < i.servers.length := by
  simp only [heavyOn, Bool.and_eq_true, List.all_eq_true, decide_eq_true_eq] at h
  obtain ⟨h₀, h₁⟩ := h.1.2 v hv
  exact ⟨v.toNat, (Int.toNat_of_nonneg h₀).symm, by omega⟩

/-- Heavy balancing needs a service to balance. -/
theorem heavy_ne_nil (h : i.heavyOn = true) : i.heavy.toList ≠ [] := by
  simp only [heavyOn, Bool.and_eq_true, decide_eq_true_eq] at h
  exact h.1.1.1.2

/-- Each balancer falls back to an outbound that there is, and each of its selectors begins one's tag. -/
theorem balancers_closed (hmany : i.many = true) {b : JsonObject} (hb : b ∈ i.balancers U) :
    Names i.tagList (b.get? "fallbackTag") ∧
      ∀ e ∈ textsOf b "selector", ∃ t ∈ i.tagList, e.toList <+: t.toList := by
  obtain ⟨hu, hone⟩ := i.useServers_of_many hmany
  have hzero : proxyTag (0 : ℕ) ∈ i.tagList := i.proxyTag_mem hu (by omega)
  simp only [balancers, List.mem_append, mem_when, List.mem_singleton] at hb
  rcases hb with (rfl | ⟨hh, rfl⟩) | hb
  · refine i.balancerOf_closed hzero fun e he => ⟨proxyTag (0 : ℕ), hzero, ?_⟩
    rw [List.mem_singleton.mp he, proxyTag_natCast, String.toList_append]
    exact List.prefix_append _ _
  · have hmem {v : ℤ} (hv : v ∈ i.heavy.toList) : proxyTag v ∈ i.tagList := by
      obtain ⟨k, rfl, hk⟩ := i.heavy_mem hh hv
      exact i.proxyTag_mem hu hk
    refine i.balancerOf_closed ?_ fun e he => ?_
    · obtain ⟨m, hm⟩ := Option.isSome_iff_exists.mp
        (List.isSome_min?_of_ne_nil (i.heavy_ne_nil hh))
      rw [hm]
      exact hmem (List.min?_mem hm)
    · obtain ⟨v, hv, rfl⟩ := List.mem_map.mp he
      exact ⟨proxyTag v, hmem ((List.mem_insertionSort _).mp hv), List.prefix_refl _⟩
  · obtain ⟨e, he, rfl⟩ := List.mem_map.mp hb
    obtain ⟨-, hne, -, -, hlt⟩ := i.mem_servicePools U (List.mem_filter.mp he).1
    refine i.balancerOf_closed ?_ fun t ht => ?_
    · obtain ⟨k, rest, hk⟩ := List.exists_cons_of_ne_nil hne
      rw [hk]
      exact i.proxyTag_mem hu (hlt k (hk ▸ List.mem_cons_self ..))
    · obtain ⟨k, hk, rfl⟩ := List.mem_map.mp ht
      exact ⟨proxyTag k, i.proxyTag_mem hu (hlt k hk), List.prefix_refl _⟩

/-- The balancers carry the tags that the rules may name. -/
theorem balancers_tags (hmany : i.many = true) :
    (i.balancers U).map (fun b => textOf b "tag") = i.balancerTags U := by
  have htag (tag : String) (sel : List String) (fb : String) :
      textOf (i.balancerOf tag sel fb) "tag" = tag := textOf_str (by simp [balancerOf])
  have hheavy : (when i.heavyOn [i.heavyBalancer]).map (fun b => textOf b "tag")
      = if i.heavyOn = true then ["heavy"] else [] := by
    unfold when
    split
    · rw [List.map_singleton, heavyBalancer, htag]
    · rfl
  rw [balancers, balancerTags, if_pos hmany, List.map_append, List.map_append, hheavy,
    List.map_singleton, mainBalancer, htag, List.map_map]
  refine congrArg _ (List.map_congr_left fun e _ => ?_)
  rw [Function.comp_apply, serviceBalancer, htag]

/-! ### The assembled object

The parts are read back from the assembled object, where no later put has overwritten them. -/

/-- The assembled configuration keeps the outbounds it was given; so it does with the parts below. -/
theorem get?_assemble_outbounds (outs : List JsonObject) :
    (i.assemble U outs).get? "outbounds" = some (objects outs) := by
  have hobs : i.observatory.1 ≠ "outbounds" := by
    unfold observatory
    split <;> simp
  simp [assemble, get?_putIf hobs]

/-- The routing of the assembled configuration. -/
theorem get?_assemble_routing (outs : List JsonObject) :
    (i.assemble U outs).get? "routing" = some (.obj (i.routing U)) := by
  simp [assemble]

theorem routingOf_assemble (outs : List JsonObject) :
    routingOf (i.assemble U outs) = i.routing U := by
  rw [routingOf, JsonObject.optJSONObject, get?_assemble_routing]
  rfl

theorem outboundsOf_assemble (outs : List JsonObject) : outboundsOf (i.assemble U outs) = outs :=
  objectsOf_objects _ _ _ (i.get?_assemble_outbounds U outs)

theorem rulesOf_assemble (outs : List JsonObject) : rulesOf (i.assemble U outs) = i.rules U := by
  rw [rulesOf, routingOf_assemble]
  refine objectsOf_objects _ _ _ ?_
  rw [routing, get?_putIf (by decide)]
  simp

/-- The balancers, which are there only with a pool. -/
theorem balancersOf_assemble (outs : List JsonObject) :
    balancersOf (i.assemble U outs) = if i.many then i.balancers U else [] := by
  rw [balancersOf, routingOf_assemble]
  split
  · rename_i h
    refine objectsOf_objects _ _ _ ?_
    simp [routing, putIf, h]
  · rename_i h
    simp [objectsOf, routing, putIf, h, JsonObject.optJSONArray]

end VpnInput

/-- What a returned configuration was made of. -/
theorem vpnConfig_eq_some {i : VpnInput} {c : JsonObject}
    (h : vpnConfig J U noiseItems i = some c) :
    i.Started ∧ ∃ outs, i.outbounds J U noiseItems = some outs ∧ c = i.assemble U outs := by
  simp only [vpnConfig, Option.bind_eq_bind, Option.bind_eq_some_iff, Option.guard_eq_some',
    Option.pure_def, Option.some.injEq] at h
  obtain ⟨-, hs, -, he, outs, houts, rfl⟩ := h
  exact ⟨⟨hs, he⟩, outs, houts, rfl⟩

/-- **Every reference of a running configuration has its target.** -/
theorem vpnConfig_closed {i : VpnInput} {c : JsonObject} (hports : DistinctEngines i.dpiPorts)
    (hraw : ∀ e ∈ i.servers, RawClean J e.1) (h : vpnConfig J U noiseItems i = some c) :
    Closed c := by
  obtain ⟨hstart, outs, houts, rfl⟩ := vpnConfig_eq_some J U noiseItems h
  obtain ⟨htags, hdial⟩ := i.outbounds_spec J U noiseItems houts
  have ht : tagsOf (i.assemble U outs) = i.tagList := by
    rw [tagsOf, i.outboundsOf_assemble U, htags]
  have hb : balancerTagsOf (i.assemble U outs) = i.balancerTags U := by
    rw [balancerTagsOf, i.balancersOf_assemble U]
    split
    · rename_i hmany
      exact i.balancers_tags U hmany
    · rename_i hmany
      rw [VpnInput.balancerTags, if_neg hmany, List.map_nil]
  constructor
  · rw [ht]
    exact i.tagList_nodup hports
  -- a rule names an outbound or a balancer that is there
  · intro r hr
    rw [i.rulesOf_assemble U] at hr
    rw [ht, hb]
    exact i.rules_closed U hstart hr
  -- the selectors of a balancer start with proxies only
  · intro b hmem
    rw [i.balancersOf_assemble U] at hmem
    rw [ht]
    split at hmem
    · rename_i hmany
      exact i.balancers_closed U hmany hmem
    · cases hmem
  · intro o ho
    rw [i.outboundsOf_assemble U] at ho
    rw [ht]
    exact hdial hraw o ho

/-! ## The test configuration

In a test each variant has an inbound, a rule and an outbound with one number, so its references
close by construction. -/

section
variable {variants : List (Server × Option Mask)} {ports : List Int32} {cur : Option Int32}
  {dpiPorts : OrderedMap String Int32} {c : JsonObject}

/-- The tags of the outbounds of a test. -/
def testTags (variants : List (Server × Option Mask)) (cur : Option Int32)
    (dpiPorts : OrderedMap String Int32) : List String :=
  (List.range variants.length).map testOut ++ dpiTags cur dpiPorts ++ ["block"]

/-- The outbounds of a test differ in their tags as well. -/
theorem testTags_nodup (h : DistinctEngines dpiPorts) : (testTags variants cur dpiPorts).Nodup := by
  have hblocks : testTags variants cur dpiPorts = List.flatMap Prod.snd
      [(['v'], (List.range variants.length).map testOut),
        (['b', 'y'], (cur.map fun _ => BYEDPI_TAG).toList),
        (['d', 'p'], dpiPorts.keys.map dpiTag), (['b', 'l'], ["block"])] := by
    simp [testTags, dpiTags]
  rw [hblocks]
  refine nodup_of_blocks kind _ (by simp) ?_ ?_
  · simp only [List.forall_mem_cons]
    refine ⟨?_, ?_, h.nodup, List.nodup_singleton _, by simp⟩
    · exact List.nodup_range.map fun j k hjk => (Decimal.numbered_inj "v").mp hjk
    · cases cur <;> simp
  · simp only [List.forall_mem_cons]
    refine ⟨?_, ?_, ?_, by simp [kind], by simp⟩
    · intro t ht
      obtain ⟨k, -, rfl⟩ := List.mem_map.mp ht
      rw [kind, testOut, String.toList_append]
      rfl
    · cases cur <;> simp [kind, BYEDPI_TAG]
    · intro t ht
      obtain ⟨id, hid, rfl⟩ := List.mem_map.mp ht
      exact kind_dpiTag fun heq => h.notCurrent (heq ▸ ht)

/-- What a returned test configuration was made of. -/
theorem testConfig_eq_some (h : testConfig J U noiseItems variants ports cur dpiPorts = some c) :
    ∃ outs, ports.length = variants.length ∧
      variants.zipIdx.mapM (fun e => outbound J U noiseItems e.1.1 (testOut e.2)
        (resolveMask e.1.2 cur dpiPorts) false) = some outs ∧
      outboundsOf c = outs ++ dpiOutbounds cur dpiPorts ++ [VpnInput.blockOutbound] ∧
      inboundsOf c = ports.mapIdx testInbound ∧
      rulesOf c = (List.range variants.length).map testRule ∧ balancersOf c = [] := by
  simp only [testConfig, Option.bind_eq_bind, Option.bind_eq_some_iff, Option.guard_eq_some',
    Option.pure_def, Option.some.injEq] at h
  obtain ⟨-, hlen, outs, houts, rfl⟩ := h
  refine ⟨outs, hlen, houts, objectsOf_objects _ _ _ (by simp), objectsOf_objects _ _ _ (by simp),
    ?_, ?_⟩
  · refine objectsOf_objects _ _ _ ?_
    simp [routingOf, JsonObject.optJSONObject]
  · simp [balancersOf, objectsOf, routingOf, JsonObject.optJSONObject, JsonObject.optJSONArray]

/-- **Every reference of a test configuration has its target.** -/
theorem testConfig_closed (hports : DistinctEngines dpiPorts)
    (hraw : ∀ e ∈ variants, RawClean J e.1)
    (h : testConfig J U noiseItems variants ports cur dpiPorts = some c) : Closed c := by
  obtain ⟨outs, -, houts, hout, -, hrules, hbal⟩ := testConfig_eq_some J U noiseItems h
  obtain ⟨htags, hdial⟩ := mapM_outbound_spec J U noiseItems testOut houts
  have ht : tagsOf c = testTags variants cur dpiPorts := by
    rw [tagsOf, hout, List.map_append, List.map_append, htags, dpiOutbounds_tags, testTags]
    rfl
  constructor
  · rw [ht]
    exact testTags_nodup hports
  · intro r hr
    rw [hrules] at hr
    obtain ⟨k, hk, rfl⟩ := List.mem_map.mp hr
    -- each rule of the test sends one inbound to its own outbound
    have htarget : (testRule k).get? "outboundTag" = some (.str (testOut k)) ∧
        (testRule k).get? "balancerTag" = none := ⟨by simp [testRule], by simp [testRule]⟩
    rw [htarget.1, htarget.2, ht]
    refine ⟨names_some ?_, names_none⟩
    exact List.mem_append_left _ (List.mem_append_left _ (List.mem_map_of_mem hk))
  · intro b hb
    rw [hbal] at hb
    cases hb
  · intro o ho
    rw [hout, List.mem_append, List.mem_append, List.mem_singleton] at ho
    rw [ht]
    rcases ho with (ho | ho) | rfl
    · intro v hv
      obtain ⟨t, hmem, rfl⟩ := hdial hraw o ho v hv
      exact ⟨t, List.mem_append_left _ (List.mem_append_right _ hmem), rfl⟩
    · rw [dpiOutbounds_dialer ho]
      exact names_none
    · rw [dialerProxy_of_no_stream (by simp [VpnInput.blockOutbound])]
      exact names_none

/-- Inbound `t<k>` leads to outbound `v<k>` and nowhere else, and that outbound is
the one of variant `k`. -/
structure TestRouted (variants : List (Server × Option Mask)) (cur : Option Int32)
    (dpiPorts : OrderedMap String Int32) (c : JsonObject) : Prop where
  inbounds : (inboundsOf c).map (fun o => textOf o "tag") = (List.range variants.length).map testIn
  only : ∀ r ∈ rulesOf c, ∀ k, testIn k ∈ textsOf r "inboundTag" →
    target r = route ("outboundTag", testOut k)
  routed : ∀ k < variants.length, ∃ r ∈ rulesOf c, textsOf r "inboundTag" = [testIn k]
  outbound : ∀ k v, variants[k]? = some v → ∃ o ∈ outboundsOf c, textOf o "tag" = testOut k ∧
    outbound J U noiseItems v.1 (testOut k) (resolveMask v.2 cur dpiPorts) false = some o

/-- Each inbound of a test is led to its own variant. -/
theorem testConfig_routed (h : testConfig J U noiseItems variants ports cur dpiPorts = some c) :
    TestRouted J U noiseItems variants cur dpiPorts c := by
  obtain ⟨outs, hlen, houts, hout, hin, hrules, -⟩ := testConfig_eq_some J U noiseItems h
  have htexts (k : ℕ) : textsOf (testRule k) "inboundTag" = [testIn k] :=
    VpnInput.textsOf_strings (by simp [testRule])
  constructor
  · rw [hin, ← hlen]
    refine List.ext_getElem (by simp) fun n h₁ h₂ => ?_
    simp only [List.getElem_map, List.getElem_mapIdx, List.getElem_range]
    exact textOf_str (by simp [testInbound])
  · intro r hr k hk
    rw [hrules] at hr
    obtain ⟨j, -, rfl⟩ := List.mem_map.mp hr
    rw [htexts, List.mem_singleton] at hk
    rw [(Decimal.numbered_inj "t").mp hk]
    simp [target, testRule, route]
  · intro k hk
    rw [hrules]
    exact ⟨testRule k, List.mem_map_of_mem (List.mem_range.mpr hk), htexts k⟩
  · intro k v hv
    have hz : variants.zipIdx[k]? = some (v, k) := by simp [hv]
    obtain ⟨o, ho, heq⟩ := mem_of_forall₂ (mapM_forall₂ houts).flip
      (List.mem_of_getElem? hz)
    refine ⟨o, ?_, (outbound_spec J U noiseItems heq).1, heq⟩
    rw [hout]
    exact List.mem_append_left _ (List.mem_append_left _ ho)

end

/-- **References are closed.** In every configuration of the running VPN and of a
test that the builder returns, the outbound tags are distinct and every tag a
rule, a balancer or a socket names exists; in a test, inbound `t<k>` is routed to
outbound `v<k>` of variant `k` and nowhere else. The engines' tags must be
distinct and raw outbounds without a dialer of their own. -/
theorem references_closed :
    (∀ (i : VpnInput) (c : JsonObject), DistinctEngines i.dpiPorts →
        (∀ e ∈ i.servers, RawClean J e.1) → vpnConfig J U noiseItems i = some c → Closed c) ∧
      ∀ (variants : List (Server × Option Mask)) (ports : List Int32) (cur : Option Int32)
        (dpiPorts : OrderedMap String Int32) (c : JsonObject), DistinctEngines dpiPorts →
        (∀ e ∈ variants, RawClean J e.1) →
        testConfig J U noiseItems variants ports cur dpiPorts = some c →
        Closed c ∧ TestRouted J U noiseItems variants cur dpiPorts c := by
  refine ⟨fun i c hports hraw h => vpnConfig_closed J U noiseItems hports hraw h, ?_⟩
  intro variants ports cur dpiPorts c hports hraw h
  exact ⟨testConfig_closed J U noiseItems hports hraw h, testConfig_routed J U noiseItems h⟩

end

/-- Two servers in hybrid mode, one masked through an engine of its own. -/
def hybridPair : VpnInput :=
  let server (address : String) : Server :=
    { name := "s", protocol := "vless", address := address, port := 443, secret := "id" }
  { servers := [(server "a.example", some { fingerprint := "chrome", dpi := "BYEDPI#1" }),
      (server "b.example", none)]
    settings0 := { mode := .HYBRID }
    byeDpiPort := some 1080
    dpiPorts := .ofList [("BYEDPI#1", 1081)] }

/-- Two servers and two engines, for a run and for a test. -/
theorem references_closed_hybridPair :
    DistinctEngines hybridPair.dpiPorts ∧
      (∃ c, vpnConfig JsonText.library Jvm.ascii (fun _ => none) hybridPair = some c ∧ Closed c) ∧
      ∃ c, testConfig JsonText.library Jvm.ascii (fun _ => none) hybridPair.servers [2001, 2002]
          hybridPair.byeDpiPort hybridPair.dpiPorts = some c ∧ Closed c ∧
        TestRouted JsonText.library Jvm.ascii (fun _ => none) hybridPair.servers
          hybridPair.byeDpiPort hybridPair.dpiPorts c := by
  have hports : DistinctEngines hybridPair.dpiPorts := ⟨by decide, by decide⟩
  have hraw : ∀ e ∈ hybridPair.servers, RawClean JsonText.library e.1 := by
    intro e he hx
    simp only [hybridPair, List.mem_cons, List.not_mem_nil, or_false] at he
    rcases he with rfl | rfl
    · exact absurd hx (by decide)
    · exact absurd hx (by decide)
  obtain ⟨c, hc⟩ := Option.isSome_iff_exists.mp
    (by decide +kernel : (vpnConfig JsonText.library Jvm.ascii (fun _ => none) hybridPair).isSome)
  obtain ⟨d, hd⟩ := Option.isSome_iff_exists.mp
    (by decide +kernel : (testConfig JsonText.library Jvm.ascii (fun _ => none) hybridPair.servers
      [2001, 2002] hybridPair.byeDpiPort hybridPair.dpiPorts).isSome)
  have hclosed := references_closed JsonText.library Jvm.ascii (fun _ => none)
  exact ⟨hports, ⟨c, hc, hclosed.1 _ _ hports hraw hc⟩, d, hd, hclosed.2 _ _ _ _ _ hports hraw hd⟩

end VlessCard.XrayConfigBuilder
