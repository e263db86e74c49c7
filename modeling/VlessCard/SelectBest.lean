/-
`Actions.selectBest`: which servers the tunnel uses from now on.

The working servers are ranked, those with a WireGuard key that stands before them
fall out, and the beginning of the rest is taken. Outside of Auto a call that wants
close servers only then adds the favourites, and those were never held against the
keys. So two tunnels of one key are selected exactly when a favourite brings the
second one. Scores are exact numbers; what they are plays no part in the argument.
-/
import VlessCard.ServerChoice
import VlessCard.Services
import VlessCard.StoreUpdates

set_option autoImplicit false

namespace VlessCard

open Comparator KeyedList

/-- What `selectBest` reads besides the state: the game, the network, two times, this
phone's name, and what the cloud says of servers. -/
structure SelectEnv where
  gaming : Bool := false
  netKey : String := ""
  poolTime : Int64 := 0
  rankTime : Int64 := 0
  phone : String := ""
  /-- `Report.load`. -/
  load : String → Option Int32 := fun _ => none
  /-- `CloudSpeed.net`. -/
  net : String → Option (List Int32) := fun _ => none
  /-- `Report.serverKey`. -/
  serverKey : Server → String := fun _ => ""

namespace AutoEligibility

/-- Unknown is not failed: failures stay out while others exist. -/
def servicePool (list : List Server) (state : Server → ServerState) (net : String) (now : Int64) : List Server :=
  let fit := list.filter fun s => serviceRank (state s) net now ≠ 2
  if fit = [] then list else fit

end AutoEligibility

namespace Actions

/-- `Double.toInt()`. -/
def toInt (q : ℚ) : Int32 := Int32.ofIntClamp (q.num.tdiv q.den)

/-- What other phones on this operator saw. -/
def operatorFactor (e : Option (List Int32)) : ℚ :=
  match e with
  | some (_ :: share :: checks :: _) =>
    if checks < 2 then 1
    else
      let target : ℚ := if 80 ≤ share then 17 / 20 else if share < 25 then 2 else if share < 50 then 13 / 10 else 1
      1 + ServerChoice.evidence checks * (target - 1)
  | _ => 1

def spreadScore (U : Jvm) (X : SelectEnv) (ss : ServerState) (s : Server) : Int32 :=
  if ss.score = Int32.maxValue ∨ X.phone = "" then ss.score
  else
    let taste : ℚ := ((hashCode (X.phone ++ s.id U) % 2 ^ 31 % 1000 : ℕ) : ℚ) / 1000 * (1 / 5)
    let others : Int32 := max (((X.load (X.serverKey s)).getD 0) - if ss.selected then 1 else 0) 0
    toInt ((ss.score.toInt : ℚ) * (1 + taste + min 1 ((others.toInt : ℚ) * (1 / 4))) * operatorFactor (X.net (X.serverKey s))
      * ServerChoice.stayFactor ss.selected)

/-- How many servers are about as good as the first. -/
def closeOnes (scores : List Int32) : ℕ :=
  match scores with
  | [] => 0
  | b :: _ => scores.countP fun x => decide ((x.toInt : ℚ) ≤ (b.toInt : ℚ) * (5 / 4) + 50)

section
variable (U : Jvm) (st : AppState)

/-- Only the chosen country when a server of it is there. -/
def preferred (list : List Server) : List Server :=
  let safe := if st.settings.mode = .AUTO then list.filter (AutoEligibility.allowed U) else list
  if st.settings.country = "" then safe
  else
    let there := safe.filter fun s => Countries.of U s.name = st.settings.country
    if there = [] then safe else there

variable (X : SelectEnv) (n : ℤ) (among : Option (List Server)) (close : Bool)

def works : List Server :=
  st.servers.filter fun s => (match among with | none => true | some l => decide (s.id U ∈ l.map (Server.id U)))
    && (st.state U s).works

def all : List Server :=
  if st.settings.mode = .AUTO then
    AutoEligibility.servicePool ((works U st among).filter (AutoEligibility.allowed U)) (st.state U) X.netKey X.poolTime
  else works U st among

def spread (s : Server) : Int32 :=
  if X.gaming then toInt (ServerChoice.latencyScore ((st.state U s).evidenceFor X.netKey) (st.state U s).realMs)
  else if st.settings.mode = .AUTO then ServerChoice.qualityScore (st.state U s) X.netKey X.rankTime
  else spreadScore U X (st.state U s) s

def primary : Bool :=
  ServerChoice.automaticPrimary (decide (st.settings.mode = .AUTO)) (decide (st.settings.balance = .LEAST_PING)) X.gaming

def ranked : List Server :=
  let pool := preferred U st (all U st X among)
  if st.settings.mode = .AUTO ∧ X.gaming = false then
    sortedWith (ServerChoice.downloadOrder (st.state U) X.netKey X.rankTime) pool
  else sortedWith (compareOn fun s => (spread U st X s).toInt) pool

/-- One WireGuard tunnel per key. -/
def tunnelKey (s : Server) : String := if s.protocol = "wireguard" then "wg:" ++ s.secret else s.id U

/-- How many are taken. -/
def room : ℤ := if st.settings.mode = .AUTO then AutoEligibility.TOP else if primary st X then 1 else n

/-- The first of the ranking, one for a key. -/
def sorted : List Server := (distinctBy (tunnelKey U) (ranked U st X among)).take (room st X n).toNat

/-- Whether only close servers are wanted, and the favourites with them. -/
def closeOnly : Bool := decide (st.settings.mode ≠ .AUTO) && close && !primary st X

/-- The servers taken for their rank. -/
def fastest : List Server :=
  if closeOnly st X close then
    (sorted U st X n among).take (closeOnes ((sorted U st X n among).map (spread U st X)))
  else sorted U st X n among

def favs : List Server :=
  if closeOnly st X close then (all U st X among).filter fun s => s.id U ∈ st.settings.favorites else []

/-- The ids that are selected. -/
def best : List String := ((fastest U st X n among close ++ favs U st X among close).map (Server.id U)).eraseDups

/-- `selectBest`: the count and the state after it; `take` throws for a negative count. -/
def selectBest : Option (ℕ × AppState) :=
  if room st X n < 0 then none
  else
    let best := best U st X n among close
    some (best.length, Store.update U false (fun st =>
      { st with states := .ofList (st.servers.map fun s => (s.id U, { st.state U s with selected := decide (s.id U ∈ best) })) }) st)

/-- The servers a state has selected. -/
def selected : List Server := st.servers.filter fun s => (st.state U s).selected

/-- What a selection promises: the call returns the number of the servers selected; they
are distinct, listed, working and of the candidates, and each WireGuard key is used
once. -/
structure OneTunnelPerKey (c : ℕ) (after : AppState) : Prop where
  servers : after.servers = st.servers
  count : (selected U after).length = c
  ids : ((selected U after).map (Server.id U)).Nodup
  listed : ∀ i ss, after.states.get? i = some ss → ss.selected = true → i ∈ st.ids U
  working : ∀ s ∈ selected U after, (after.state U s).works = true
  within : ∀ l, among = some l → ∀ s ∈ selected U after, s.id U ∈ l.map (Server.id U)
  keys : ∀ s ∈ selected U after, ∀ t ∈ selected U after, s.protocol = "wireguard" → t.protocol = "wireguard" →
    s.secret = t.secret → s = t

end

/-! ## What is selected

Candidates are filtered, ranked and cut, and favourites are put behind. Each step keeps the
servers among the candidates that work. -/

section
variable {U : Jvm} {st : AppState} {X : SelectEnv} {n : ℤ} {among : Option (List Server)} {close : Bool}

theorem all_subset : all U st X among ⊆ works U st among := by
  intro s hs
  rw [all] at hs
  by_cases hm : st.settings.mode = .AUTO
  · rw [if_pos hm, AutoEligibility.servicePool] at hs
    split at hs
    · exact List.mem_of_mem_filter hs
    · exact List.mem_of_mem_filter (List.mem_of_mem_filter hs)
  · rw [if_neg hm] at hs
    exact hs

theorem preferred_subset (list : List Server) : preferred U st list ⊆ list := by
  have hsafe : (if st.settings.mode = .AUTO then list.filter (AutoEligibility.allowed U) else list) ⊆ list := by
    split
    · exact List.filter_subset_self _
    · exact List.Subset.refl _
  intro s hs
  unfold preferred at hs
  generalize (if st.settings.mode = .AUTO then list.filter (AutoEligibility.allowed U) else list) = safe at hs hsafe
  dsimp only at hs
  split at hs
  · exact hsafe hs
  · split at hs
    · exact hsafe hs
    · exact hsafe (List.mem_of_mem_filter hs)

/-- Ranking neither adds nor drops a server. -/
theorem mem_ranked {s : Server} : s ∈ ranked U st X among ↔ s ∈ preferred U st (all U st X among) := by
  rw [ranked]
  split
  · exact mem_sortedWith _
  · exact mem_sortedWith _

theorem sorted_subset : sorted U st X n among ⊆ works U st among := by
  intro s hs
  have hr : s ∈ ranked U st X among := distinctBy_subset _ _ (List.mem_of_mem_take hs)
  exact all_subset (preferred_subset _ (mem_ranked.mp hr))

theorem fastest_sublist : (fastest U st X n among close).Sublist (sorted U st X n among) := by
  rw [fastest]
  split
  · exact List.take_sublist _ _
  · exact List.Sublist.refl _

/-- The favourites that are added work too. -/
theorem favs_subset : favs U st X among close ⊆ works U st among := by
  intro s hs
  rw [favs] at hs
  split at hs
  · exact all_subset (List.mem_of_mem_filter hs)
  · cases hs

/-- The ids that are selected are those of working candidates. -/
theorem exists_of_mem_best {i : String} (h : i ∈ best U st X n among close) :
    ∃ s ∈ works U st among, s.id U = i ∧ (s ∈ fastest U st X n among close ∨ s ∈ favs U st X among close) := by
  rw [best, List.mem_eraseDups] at h
  obtain ⟨s, hs, rfl⟩ := List.mem_map.mp h
  rcases List.mem_append.mp hs with hs | hs
  · exact ⟨s, sorted_subset (fastest_sublist.subset hs), rfl, .inl hs⟩
  · exact ⟨s, favs_subset hs, rfl, .inr hs⟩

/-- Among the servers taken for their rank a key is used once. -/
theorem fastest_keys {s t : Server} (hs : s ∈ fastest U st X n among close) (ht : t ∈ fastest U st X n among close)
    (hws : s.protocol = "wireguard") (hwt : t.protocol = "wireguard") (hkey : s.secret = t.secret) : s = t := by
  -- two WireGuard servers of one key have one tunnel key
  have hn : ((fastest U st X n among close).map (tunnelKey U)).Nodup :=
    (nodup_distinctBy (tunnelKey U) (ranked U st X among)).sublist
      ((fastest_sublist.trans (List.take_sublist _ _)).map _)
  apply List.inj_on_of_nodup_map hn hs ht
  rw [tunnelKey, tunnelKey, if_pos hws, if_pos hwt, hkey]

/-! ## The state after it

What is selected are ids, and every server gets its mark. The promise about keys is the only one
that can fail, and it fails just where a favourite brings a second tunnel of one key. -/

/-- The state after a selection of ids. -/
def withSelected (U : Jvm) (st : AppState) (best : List String) : AppState :=
  Store.update U false (fun st =>
    { st with states := .ofList (st.servers.map fun s => (s.id U, { st.state U s with selected := decide (s.id U ∈ best) })) }) st

/-- Marking the selection leaves the servers as they are. -/
theorem servers_withSelected (best : List String) : (withSelected U st best).servers = st.servers := rfl

/-- Every server gets its mark, and keeps the rest of its state. -/
theorem states_withSelected (hn : (st.ids U).Nodup) (best : List String) : (withSelected U st best).states.entries
    = st.servers.map fun s => (s.id U, { st.state U s with selected := decide (s.id U ∈ best) }) := by
  apply OrderedMap.entries_ofList
  rw [List.map_map]
  exact hn

theorem state_withSelected (hn : (st.ids U).Nodup) (best : List String) {s : Server} (hs : s ∈ st.servers) :
    (withSelected U st best).state U s = { st.state U s with selected := decide (s.id U ∈ best) } := by
  have hmem : (s.id U, { st.state U s with selected := decide (s.id U ∈ best) })
      ∈ (withSelected U st best).states.entries := by
    rw [states_withSelected hn]
    exact List.mem_map_of_mem hs
  have hget : (withSelected U st best).states.get? (s.id U)
      = some { st.state U s with selected := decide (s.id U ∈ best) } := OrderedMap.get?_of_mem _ hmem
  rw [AppState.state, hget]
  rfl

/-- What is selected afterwards is what was marked. -/
theorem selected_withSelected (hn : (st.ids U).Nodup) (best : List String) :
    selected U (withSelected U st best) = st.servers.filter fun s => decide (s.id U ∈ best) := by
  rw [selected, servers_withSelected]
  apply List.filter_congr
  intro s hs
  rw [state_withSelected hn best hs]

/-- The number of ids is the number of servers. -/
theorem length_selected (hn : (st.ids U).Nodup) {best : List String} (hb : best.Nodup) (hsub : best ⊆ st.ids U) :
    (st.servers.filter fun s => decide (s.id U ∈ best)).length = best.length := by
  rw [← List.length_map (f := Server.id U)]
  apply List.Perm.length_eq
  rw [List.perm_ext_iff_of_nodup (nodup_filter hn _) hb]
  intro i
  constructor
  · intro hi
    obtain ⟨s, hs, rfl⟩ := List.mem_map.mp hi
    exact decide_eq_true_eq.mp (List.mem_filter.mp hs).2
  · intro hi
    obtain ⟨s, hs, rfl⟩ := List.mem_map.mp (hsub hi)
    exact List.mem_map_of_mem (List.mem_filter.mpr ⟨hs, decide_eq_true hi⟩)

theorem works_subset : works U st among ⊆ st.servers := List.filter_subset_self _

/-- Outside of the automatic mode only the switch for games counts. -/
theorem primary_of_mode (h : st.settings.mode ≠ .AUTO) : primary st X = X.gaming := by
  rw [primary, ServerChoice.automaticPrimary, decide_eq_false h, Bool.false_and, Bool.or_false]

/-- The call throws for a negative count that is used. -/
theorem room_nonneg : ¬ room st X n < 0 ↔ st.settings.mode = .AUTO ∨ X.gaming = true ∨ 0 ≤ n := by
  have htop : ¬ AutoEligibility.TOP < 0 := by decide
  rw [room]
  by_cases hm : st.settings.mode = .AUTO
  · simp [hm, htop]
  · rw [if_neg hm, primary_of_mode hm]
    by_cases hg : X.gaming = true
    · simp [hg]
    · simp [hm, hg]

/-- Only the near ones are kept in one case. -/
theorem closeOnly_iff : closeOnly st X close = true ↔ st.settings.mode ≠ .AUTO ∧ close = true ∧ X.gaming = false := by
  rw [closeOnly, Bool.and_eq_true, Bool.and_eq_true, decide_eq_true_eq, Bool.not_eq_true', and_assoc]
  constructor
  · rintro ⟨hm, hc, hp⟩
    exact ⟨hm, hc, by rw [← primary_of_mode hm, hp]⟩
  · rintro ⟨hm, hc, hg⟩
    exact ⟨hm, hc, by rw [primary_of_mode hm, hg]⟩

/-- A favourite brings no second tunnel of a key. -/
def FavouritesFit (U : Jvm) (st : AppState) (X : SelectEnv) (n : ℤ) (among : Option (List Server)) (close : Bool) : Prop :=
  ∀ f ∈ works U st among, f.id U ∈ st.settings.favorites → f.protocol = "wireguard" →
    ∀ g ∈ works U st among, g.protocol = "wireguard" → g.secret = f.secret →
      (g.id U ∈ st.settings.favorites ∨ g ∈ fastest U st X n among close) → g = f

/-- With distinct ids a selected server was taken for its rank or as a favourite. -/
theorem taken_of_mem_best (hn : (st.ids U).Nodup) {s : Server} (hs : s ∈ st.servers)
    (h : s.id U ∈ best U st X n among close) :
    s ∈ works U st among ∧ (s ∈ fastest U st X n among close ∨ s ∈ favs U st X among close) := by
  obtain ⟨t, ht, hid, htaken⟩ := exists_of_mem_best h
  -- an id names one server of the list
  have hts : t = s := List.inj_on_of_nodup_map hn (works_subset ht) hs hid
  exact hts ▸ ⟨ht, htaken⟩

/-- **What is best shares no WireGuard key just where no favourite brings one back.** -/
theorem keys_iff (hn : (st.ids U).Nodup) :
    (∀ s ∈ st.servers, s.id U ∈ best U st X n among close → ∀ t ∈ st.servers, t.id U ∈ best U st X n among close →
      s.protocol = "wireguard" → t.protocol = "wireguard" → s.secret = t.secret → s = t) ↔
    (st.settings.mode = .AUTO ∨ close = false ∨ X.gaming = true ∨ FavouritesFit U st X n among close) := by
  have hbest : ∀ s, s ∈ fastest U st X n among close ++ favs U st X among close → s.id U ∈ best U st X n among close := by
    intro s hs
    rw [best, List.mem_eraseDups]
    exact List.mem_map_of_mem hs
  constructor
  · intro hkeys
    -- outside of close servers the condition asks for nothing
    by_cases hclose : closeOnly st X close = true
    · have hmode := (closeOnly_iff.mp hclose).1
      have hfav : ∀ f ∈ works U st among, f.id U ∈ st.settings.favorites → f ∈ favs U st X among close := by
        intro f hf hfid
        rw [favs, if_pos hclose, all, if_neg hmode]
        exact List.mem_filter.mpr ⟨hf, decide_eq_true hfid⟩
      refine .inr (.inr (.inr ?_))
      intro f hf hfid hfw g hg hgw hkey htaken
      have hgbest : g.id U ∈ best U st X n among close := by
        apply hbest
        rcases htaken with hgid | hgfast
        · exact List.mem_append_right _ (hfav g hg hgid)
        · exact List.mem_append_left _ hgfast
      exact hkeys g (works_subset hg) hgbest f (works_subset hf) (hbest f (List.mem_append_right _ (hfav f hf hfid)))
        hgw hfw hkey
    · rw [closeOnly_iff, not_and_or, not_and_or, not_not, Bool.not_eq_true, Bool.not_eq_false] at hclose
      rcases hclose with hm | hc | hg
      · exact .inl hm
      · exact .inr (.inl hc)
      · exact .inr (.inr (.inl hg))
  · intro hcond s hs hsb t ht htb hsw htw hkey
    obtain ⟨hsworks, hstaken⟩ := taken_of_mem_best hn hs hsb
    obtain ⟨htworks, httaken⟩ := taken_of_mem_best hn ht htb
    -- a favourite is only there when close servers are wanted, and then the condition speaks
    have hfavs : ∀ f, f ∈ favs U st X among close →
        f.id U ∈ st.settings.favorites ∧ FavouritesFit U st X n among close := by
      intro f hf
      rw [favs] at hf
      split at hf
      · rename_i hclose
        obtain ⟨hm, hc, hg⟩ := closeOnly_iff.mp hclose
        refine ⟨decide_eq_true_eq.mp (List.mem_filter.mp hf).2, ?_⟩
        rcases hcond with hm' | hc' | hg' | hfit
        · exact absurd hm' hm
        · rw [hc] at hc'
          cases hc'
        · rw [hg] at hg'
          cases hg'
        · exact hfit
      · cases hf
    -- two by rank, or one of them a favourite
    rcases hstaken with hsfast | hsfav
    · rcases httaken with htfast | htfav
      · exact fastest_keys hsfast htfast hsw htw hkey
      · obtain ⟨hid, hfit⟩ := hfavs t htfav
        exact hfit t htworks hid htw s hsworks hsw hkey (.inr hsfast)
    · obtain ⟨hid, hfit⟩ := hfavs s hsfav
      have hts : t = s := by
        apply hfit s hsworks hid hsw t htworks htw hkey.symm
        rcases httaken with htfast | htfav
        · exact .inr htfast
        · exact .inl (hfavs t htfav).1
      exact hts.symm

/-- What is selected keeps all promises but the one about keys. -/
theorem promise_iff (hn : (st.ids U).Nodup) :
    OneTunnelPerKey U st among (best U st X n among close).length (withSelected U st (best U st X n among close)) ↔
    (∀ s ∈ st.servers, s.id U ∈ best U st X n among close → ∀ t ∈ st.servers, t.id U ∈ best U st X n among close →
      s.protocol = "wireguard" → t.protocol = "wireguard" → s.secret = t.secret → s = t) := by
  have hmem : ∀ s, s ∈ selected U (withSelected U st (best U st X n among close)) ↔
      s ∈ st.servers ∧ s.id U ∈ best U st X n among close := by
    intro s
    rw [selected_withSelected hn, List.mem_filter, decide_eq_true_eq]
  have hsub : best U st X n among close ⊆ st.ids U := by
    intro i hi
    obtain ⟨s, hs, rfl, -⟩ := exists_of_mem_best hi
    exact List.mem_map_of_mem (works_subset hs)
  have hworks : ∀ s, s ∈ selected U (withSelected U st (best U st X n among close)) → s ∈ works U st among := by
    intro s hs
    exact (taken_of_mem_best hn ((hmem s).mp hs).1 ((hmem s).mp hs).2).1
  constructor
  · intro h s hs hsb t ht htb
    exact h.keys s ((hmem s).mpr ⟨hs, hsb⟩) t ((hmem t).mpr ⟨ht, htb⟩)
  · intro hkeys
    refine { servers := rfl, count := ?_, ids := ?_, listed := ?_, working := ?_, within := ?_, keys := ?_ }
    · rw [selected_withSelected hn]
      exact length_selected hn (nodup_eraseDups _) hsub
    · rw [selected_withSelected hn]
      exact nodup_filter hn _
    · intro i ss hget hsel
      have hentry := OrderedMap.mem_of_get? hget
      rw [states_withSelected hn] at hentry
      -- the new states are those of the listed servers and no others
      obtain ⟨s, hs, heq⟩ := List.mem_map.mp hentry
      exact (Prod.mk.inj heq).1 ▸ List.mem_map_of_mem hs
    · intro s hs
      have hw := (List.mem_filter.mp (hworks s hs)).2
      rw [Bool.and_eq_true] at hw
      rw [state_withSelected hn _ ((hmem s).mp hs).1]
      exact hw.2
    · intro l hl s hs
      have hw := (List.mem_filter.mp (hworks s hs)).2
      rw [Bool.and_eq_true, hl] at hw
      exact decide_eq_true_eq.mp hw.1
    · intro s hs t ht
      exact hkeys s ((hmem s).mp hs).1 ((hmem s).mp hs).2 t ((hmem t).mp ht).1 ((hmem t).mp ht).2

end

end Actions

end VlessCard
