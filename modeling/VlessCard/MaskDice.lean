/-
`Masks.searchOrder` and `Actions.rollDice`: a mask taken at random instead of the one
in use.

The masks that passed are kept with the server, the mask in use apart. A roll is to
keep the mask it replaces. What it keeps is the mask the server was last given on any
network, which on the current network need not be the one in use: that one is looked
up by network.
-/
import VlessCard.Comparator
import VlessCard.Draws
import VlessCard.MaskRotation
import VlessCard.Masks

set_option autoImplicit false

namespace VlessCard

deriving instance DecidableEq for NamedMask

namespace Masks

/-! ## The order of the masks

One mask stands in front of all, behind it those of the user and of the feed, and then those of
the program by what they cost. A mask of the program that suits the server is always among them. -/

/-- How much a mask slows the connection itself. -/
def cost (m : Mask) : ℕ :=
  (if 1 ≤ m.mss ∧ m.mss ≤ 200 then 3 else if 201 ≤ m.mss ∧ m.mss ≤ 400 then 2 else if 0 < m.mss then 1 else 0) +
    (if m.mux then 1 else 0) + (if m.viaByeDpi then 1 else 0)

/-- The local `first`. -/
def FIRST : List String :=
  ["chrome.n", "vc.turbo.sni.tfo", "vc.turbo.v6.tfo", "vc.turbo.sni.v6", "vc.turbo.mux.v6",
    "vc.sni.vk.com.fast", "vc.sni.ya.ru.fast", "vc.sni.yandex.ru.fast", "vc.sni.vkvideo.ru.fast",
    "vc.sni.vk.com", "vc.sni.yandex.ru", "vc.sni.vkvideo.ru", "vc.mss300", "vc.ghost",
    "vc.sni.ya.ru.l2", "vc.mss120", "vc.alpn.br", "vc.mux", "vc.ghost.sni", "vc.mss120.l6",
    "vc.ghost.v6", "vc.sni.vk.com.mss120", "vc.tfo", "vc.v6", "vc.ghost.tfo", "vc.alpn.br.h1",
    "vc.mux.l5", "chrome.z5", "chrome.z10", "chrome.z1", "chrome.z5.hw", "chrome.z6.hw",
    "chrome.z9", "chrome.z1.hl", "chrome.z11.hw", "chrome.z12", "chrome.z15", "chrome.z16",
    "chrome.z7", "chrome.hw", "chrome.z2", "chrome.z3", "chrome.z4", "chrome.h4", "chrome.l1",
    "firefox.l2", "chrome.l4", "safari.l5", "firefox.l6", "chrome.p6", "firefox.l7", "chrome.h7",
    "safari.p7", "chrome.p2", "firefox.h2", "safari.p3", "edge.h5", "chrome.h1", "ios.p1",
    "safari.l3", "chrome.l2.b", "android.h3", "firefox.h4", "chrome.n.b", "chrome.h4.b",
    "firefox.p4", "chrome.p5", "chrome.h6", "qq.h2", "safari.n", "firefox.n", "edge.p2", "ios.h4",
    "android.p3", "safari.h1", "chrome.p1.b", "firefox.h3.b", "chrome.d:BYEDPI#VCARD_CASCADE",
    "chrome.d:BYEDPI#VK_ADAPTIVE", "chrome.d:BYEDPI#YANDEX_ADAPTIVE", "firefox.d:TPWS#VCARD_SHRED",
    "chrome.d:BYEDPI#VCARD_SHRED", "safari.d:BYEDPI#VCARD_STEALTH", "chrome.d:BYEDPI#VCARD_RECVER",
    "chrome.d:TPWS#SPLIT_DISORDER", "firefox.d:TPWS#TLSREC", "chrome.d:BYEDPI#OOB_THEN_DISORDER",
    "safari.d:TPWS#HOST_DISORDER", "chrome.d:BYEDPI#MULTI_DISORDER", "chrome.d:TPWS#TLSREC_OOB",
    "firefox.d:BYEDPI#MASK_AUTO_FAKE"]

/-- `byId` of the built-in masks. -/
def builtInById (id : String) : Option NamedMask := ALL.find? fun m => m.id = id

variable (U : Jvm)

/-- What is tried for a server, in turn; `own` are the masks of the user and `cloud`
those that came with the feed. Built-in masks are not `custom`, so that filter drops
none of them. -/
def searchOrder (own cloud : List NamedMask) (byeDpiAvailable : Bool) (server : Option Server) : List NamedMask :=
  let curated := (FIRST.filterMap builtInById ++ ALL).eraseDups
  let ordered := ((builtInById "chrome.n").toList ++ own ++ cloud ++
    Comparator.sortedWith (compareOn fun m : NamedMask => cost m.toMask) curated).eraseDups
  ordered.filter fun m => (byeDpiAvailable || !m.viaByeDpi) && server.all fun s => compatible U m s

/-- A built-in mask that suits the server is tried. -/
theorem mem_searchOrder {own cloud : List NamedMask} {byeDpiAvailable : Bool} {s : Server} {m : NamedMask}
    (hm : m ∈ ALL) (hvia : byeDpiAvailable = true ∨ m.viaByeDpi = false) (hs : compatible U m s = true) :
    m ∈ searchOrder U own cloud byeDpiAvailable (some s) := by
  unfold searchOrder
  rw [List.mem_filter, List.mem_eraseDups]
  constructor
  · apply List.mem_append_right
    rw [Comparator.mem_sortedWith, List.mem_eraseDups]
    exact List.mem_append_right _ hm
  · rw [Option.all_some, hs, Bool.and_true]
    rcases hvia with h | h
    · rw [h, Bool.true_or]
    · rw [h, Bool.not_false, Bool.or_true]

end Masks

namespace Actions

/-! ## The code

A roll draws one of the masks that are not in use, for each server that has another one. What was
in use is kept among the proven masks, but it is the last mask given that is saved and not the
one of the network. -/

variable (U : Jvm) (own cloud : List NamedMask) (net : String) (st : AppState)

/-- The masks a roll for a server chooses from. -/
def dicePool (s : Server) : List NamedMask :=
  (Masks.searchOrder U own cloud true (some s)).filter fun m => m.id ≠ (st.state U s).maskId

/-- What a roll leaves of a server. -/
def rolledState (ss : ServerState) (dice : String) : ServerState :=
  { ss with
    maskId := dice
    netMasks := ss.netMasks.put net dice
    goodMasks := if ss.maskId ∈ ss.goodMasks then ss.goodMasks else ss.goodMasks ++ [ss.maskId] }

/-- The pairs of `mapNotNull`; a server without another mask is left alone. -/
def rolls : List Server → Draw (List (String × ServerState))
  | [] => pure []
  | s :: servers =>
    if dicePool U own cloud st s = [] then rolls servers
    else Draw.element (dicePool U own cloud st s) >>= fun dice =>
      rolls servers >>= fun rest => pure ((s.id U, rolledState net (st.state U s) dice.id) :: rest)

/-- How many masks were rolled, and the new state. -/
def rollDice (servers : List Server) : Draw (ℕ × AppState) :=
  rolls U own cloud net st servers >>= fun pairs =>
    pure (pairs.length, { st with states := withStates st.states pairs })

/-! ## What a roll leaves

The servers that are rolled are told apart by their ids, and each write touches one of them. So
the whole roll keeps its promise when each single one does. -/

/-- The server has another mask to try. -/
def Rolled (s : Server) : Prop := dicePool U own cloud st s ≠ []

/-- What is promised of a server whose mask was rolled: the mask that was in use is
kept, and so are those kept before, none more often than it was. -/
structure Proven (before after : ServerState) : Prop where
  inUse : before.maskFor net ∈ after.goodMasks
  kept : before.goodMasks ⊆ after.goodMasks
  once : ∀ m, after.goodMasks.count m ≤ max 1 (before.goodMasks.count m)

variable {U own cloud net st}

/-- One roll keeps the promise where the mask in use is the one last given, or is kept
already. -/
theorem proven_iff {ss after : ServerState} {dice : String}
    (h : after.goodMasks = (rolledState net ss dice).goodMasks) :
    Proven net ss after ↔ ss.maskFor net = ss.maskId ∨ ss.maskFor net ∈ ss.goodMasks := by
  have hgood : after.goodMasks = if ss.maskId ∈ ss.goodMasks then ss.goodMasks else ss.goodMasks ++ [ss.maskId] := h
  -- the mask was known already, so nothing is added
  by_cases hmem : ss.maskId ∈ ss.goodMasks
  · rw [if_pos hmem] at hgood
    constructor
    · intro hp
      have huse := hp.inUse
      rw [hgood] at huse
      exact .inr huse
    · intro hcases
      refine ⟨?_, ?_, ?_⟩
      · rw [hgood]
        rcases hcases with h | h
        · rw [h]
          exact hmem
        · exact h
      · rw [hgood]
        exact List.Subset.refl _
      · intro m
        rw [hgood]
        exact le_max_right _ _
  -- it was not, so the one that was in use is added
  · rw [if_neg hmem] at hgood
    constructor
    · intro hp
      have huse := hp.inUse
      rw [hgood, List.mem_append, List.mem_singleton] at huse
      exact huse.symm
    · intro hcases
      refine ⟨?_, ?_, ?_⟩
      · rw [hgood, List.mem_append, List.mem_singleton]
        exact hcases.symm
      · rw [hgood]
        exact List.subset_append_left _ _
      · intro m
        rw [hgood, List.count_append]
        by_cases hm : m = ss.maskId
        · -- the mask that is added was not kept before
          rw [hm, List.count_eq_zero.mpr hmem, List.count_singleton_self]
          omega
        · rw [List.count_eq_zero.mpr (fun h => hm (List.mem_singleton.mp h))]
          omega

theorem get?_withStates_of_not_mem {pairs : List (String × ServerState)} {k : String}
    (h : k ∉ pairs.map Prod.fst) (m : OrderedMap String ServerState) : (withStates m pairs).get? k = m.get? k := by
  induction pairs generalizing m with
  | nil => rfl
  | cons e pairs ih =>
    rw [List.map_cons, List.mem_cons, not_or] at h
    rw [withStates, List.foldl_cons]
    refine (ih h.2 _).trans ?_
    rw [OrderedMap.get?_put, if_neg (Ne.symm h.1)]

/-- What was written last under a key is one of the values written under it. -/
theorem get?_withStates_mem {pairs : List (String × ServerState)} {k : String} (h : k ∈ pairs.map Prod.fst)
    (m : OrderedMap String ServerState) : ∃ v, (k, v) ∈ pairs ∧ (withStates m pairs).get? k = some v := by
  induction pairs generalizing m with
  | nil => cases h
  | cons e pairs ih =>
    rw [withStates, List.foldl_cons]
    by_cases hk : k ∈ pairs.map Prod.fst
    · obtain ⟨v, hv, hget⟩ := ih hk (m.put e.1 e.2)
      exact ⟨v, List.mem_cons_of_mem _ hv, hget⟩
    · -- the first pair is the last under its key
      have he : k = e.1 := (List.mem_cons.mp h).resolve_right hk
      have hget := get?_withStates_of_not_mem hk (m.put e.1 e.2)
      rw [OrderedMap.get?_put, if_pos he.symm] at hget
      rw [he] at hget ⊢
      exact ⟨e.2, List.mem_cons_self, hget⟩

/-- Every server with another mask to try is rolled once for each place it has in the
list, and no other is. -/
theorem returns_rolls (servers : List Server) : Draw.Returns (rolls U own cloud net st servers) fun pairs =>
    (∀ e ∈ pairs, ∃ s ∈ servers, Rolled U own cloud st s ∧ e.1 = s.id U ∧
      ∃ dice, e.2 = rolledState net (st.state U s) dice) ∧
      ∀ s ∈ servers, Rolled U own cloud st s → s.id U ∈ pairs.map Prod.fst := by
  induction servers with
  | nil =>
    refine Draw.returns_pure ⟨fun e he => ?_, fun s hs => ?_⟩
    · cases he
    · cases hs
  | cons s servers ih =>
    unfold rolls
    refine Draw.returns_ite (fun hnone => ?_) fun hsome => ?_
    · refine ih.mono fun pairs hpairs => ⟨fun e he => ?_, fun t ht hrolled => ?_⟩
      · obtain ⟨t, ht, hrest⟩ := hpairs.1 e he
        exact ⟨t, List.mem_cons_of_mem _ ht, hrest⟩
      · rcases List.mem_cons.mp ht with rfl | ht
        · exact absurd hnone hrolled
        · exact hpairs.2 t ht hrolled
    · refine (Draw.returns_element hsome).bind fun dice _ => ih.bind fun rest hrest => Draw.returns_pure ⟨?_, ?_⟩
      · intro e he
        rcases List.mem_cons.mp he with rfl | he
        · exact ⟨s, List.mem_cons_self, hsome, rfl, dice.id, rfl⟩
        · obtain ⟨t, ht, htail⟩ := hrest.1 e he
          exact ⟨t, List.mem_cons_of_mem _ ht, htail⟩
      · intro t ht hrolled
        rw [List.map_cons]
        rcases List.mem_cons.mp ht with rfl | ht
        · exact List.mem_cons_self
        · exact List.mem_cons_of_mem _ (hrest.2 t ht hrolled)

/-- Whatever was drawn, a rolled server keeps what one roll of it keeps. -/
theorem returns_rollDice (servers : List Server) : Draw.Returns (rollDice U own cloud net st servers) fun after =>
    ∀ s ∈ servers, Rolled U own cloud st s →
      ∃ dice, after.2.state U s = rolledState net (st.state U s) dice := by
  unfold rollDice
  refine (returns_rolls servers).bind fun pairs hpairs => Draw.returns_pure ?_
  intro s hs hrolled
  obtain ⟨v, hv, hget⟩ := get?_withStates_mem (hpairs.2 s hs hrolled) st.states
  obtain ⟨t, -, -, hid, dice, hval⟩ := hpairs.1 _ hv
  have hsame : st.state U t = st.state U s := by
    rw [AppState.state, AppState.state, ← hid]
  refine ⟨dice, ?_⟩
  rw [AppState.state]
  show ((withStates st.states pairs).get? (s.id U)).getD {} = _
  rw [hget, Option.getD_some, ← hsame]
  exact hval

/-- **A roll keeps the proven mask just when** for every server it rolls the mask in
use on the network is the one it was last given on any, or is kept already; whatever
is drawn, and for any masks of the user and the feed. -/
theorem rollDice_keeps_iff (U : Jvm) (own cloud : List NamedMask) (net : String) (st : AppState)
    (servers : List Server) : Draw.Returns (rollDice U own cloud net st servers) fun after =>
      (∀ s ∈ servers, Rolled U own cloud st s → Proven net (st.state U s) (after.2.state U s)) ↔
        ∀ s ∈ servers, Rolled U own cloud st s → (st.state U s).maskFor net = (st.state U s).maskId ∨
          (st.state U s).maskFor net ∈ (st.state U s).goodMasks := by
  refine (returns_rollDice servers).mono fun after hafter => ?_
  have hone (s : Server) (hs : s ∈ servers) (hrolled : Rolled U own cloud st s) :
      Proven net (st.state U s) (after.2.state U s) ↔ (st.state U s).maskFor net = (st.state U s).maskId ∨
        (st.state U s).maskFor net ∈ (st.state U s).goodMasks := by
    obtain ⟨dice, hstate⟩ := hafter s hs hrolled
    have hgood : (after.2.state U s).goodMasks = (rolledState net (st.state U s) dice).goodMasks := by rw [hstate]
    exact proven_iff hgood
  constructor
  · intro h s hs hrolled
    exact (hone s hs hrolled).mp (h s hs hrolled)
  · intro h s hs hrolled
    exact (hone s hs hrolled).mpr (h s hs hrolled)

/-- Two searches for one server, each on a network of its own. -/
def foundTwice : List MaskEvent :=
  [.found "Wi-Fi · a" 1 sampleServer [("chrome.h1", 80)] (some ⟨"chrome.h1", 80, none, 0, none⟩),
    .found "LTE" 2 sampleServer [("chrome.p1", 90)] (some ⟨"chrome.p1", 90, none, 0, none⟩)]

/-- What they leave of the server. -/
def stateFoundTwice : ServerState :=
  { realMs := 90
    maskId := "chrome.p1"
    checkedAt := 2
    netMasks := .ofList [("Wi-Fi · a", "chrome.h1"), ("LTE", "chrome.p1")] }

theorem state_foundTwice : (maskRun Jvm.ascii {} foundTwice).state Jvm.ascii sampleServer = stateFoundTwice := by
  refine (state_found _ _ _ _ _ _).trans ?_
  rw [state_found, keepFound, keepFound, List.mergeSort_singleton, List.mergeSort_singleton]
  decide +kernel

/-- Back on the first network a roll loses the mask that is in use there. -/
theorem roll_after_other_network_loses :
    ¬ ∀ (st : AppState) (net : String) (servers : List Server),
      Draw.Returns (rollDice Jvm.ascii [] [] net st servers) fun after =>
        ∀ s ∈ servers, Rolled Jvm.ascii [] [] st s →
          Proven net (st.state Jvm.ascii s) (after.2.state Jvm.ascii s) := by
  intro h
  have hrolled : Rolled Jvm.ascii [] [] (maskRun Jvm.ascii {} foundTwice) sampleServer := by
    have hmem : ({ Masks.chrome with id := "chrome.n" } : NamedMask)
        ∈ Masks.searchOrder Jvm.ascii [] [] true (some sampleServer) :=
      Masks.mem_searchOrder _ (by decide +kernel) (.inl rfl) (by decide +kernel)
    refine List.ne_nil_of_mem (List.mem_filter.mpr ⟨hmem, ?_⟩)
    rw [state_foundTwice]
    decide
  obtain ⟨after, hafter, hproven⟩ := h (maskRun Jvm.ascii {} foundTwice) "Wi-Fi · a" [sampleServer] fun _ => 0
  have hreturns : Draw.Returns (rollDice Jvm.ascii [] [] "Wi-Fi · a" (maskRun Jvm.ascii {} foundTwice) [sampleServer]) _ :=
    returns_rollDice [sampleServer]
  obtain ⟨after', hafter', hstate⟩ := hreturns fun _ => 0
  rw [hafter, Option.some.injEq] at hafter'
  obtain ⟨dice, hdice⟩ := hstate sampleServer List.mem_cons_self hrolled
  have hkept := hproven sampleServer List.mem_cons_self hrolled
  rw [hafter', hdice, state_foundTwice] at hkept
  have hcases := (proven_iff rfl).mp hkept
  revert hcases
  decide +kernel

end Actions

end VlessCard
