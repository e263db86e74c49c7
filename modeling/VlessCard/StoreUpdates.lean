/-
`Store.update` and what is run through it: the list of servers grows by hand,
by subscription, by the cloud catalogue, by the list of the phones and by a
backup, and shrinks by removal (`Store.kt`, `CloudControl.kt`, `Report.kt`,
`Backup.kt`).

Each operation rebuilds the list with a filter of its own and `Store.update`
ends with `AutoEligibility.clean`. The law is an invariant of whole runs: no two
servers share an identity and every server is allowed. The last section is about
`Backup.merge` alone: what it takes from the backup and what it leaves.
-/
import VlessCard.KeyedList
import VlessCard.LinkParser
import VlessCard.Store

set_option autoImplicit false

namespace VlessCard

/-- `st.states[s.id] ?: ServerState()`. -/
def AppState.state (U : Jvm) (st : AppState) (s : Server) : ServerState :=
  (st.states.get? (s.id U)).getD {}

/-- The identities of the listed servers. -/
def AppState.ids (U : Jvm) (st : AppState) : List String := st.servers.map (Server.id U)

/-- `list.filter { ids.add(it.id) }` after the servers that stay. -/
def mergeServers (U : Jvm) (keep list : List Server) : List Server :=
  KeyedList.merge (Server.id U) keep list

/-! ## The operations

Each operation takes a state and gives the next, and `update` cleans what it gives. Whether the
list was changed decides whether it is cleaned at all. -/

namespace CloudControl

def SOURCE : String := "cloud-manifest"

/-- The catalogue of the cloud; servers in use stay when it drops them. -/
def apply (U : Jvm) (entries : List Server) (st : AppState) : AppState :=
  let keep := st.servers.filter fun s => s.source ≠ SOURCE || (st.state U s).selected
  { st with servers := mergeServers U keep entries }

end CloudControl

namespace Report

def PHONES : String := "https://raw.githubusercontent.com/Bugaga31/vless-card-vpn/servers/phones"

/-- The servers named by the `servers` array of the cloud, forty at most. -/
def phoneServers (U : Jvm) (J : OrgJson) (a : List Json) : List Server :=
  (a.take 40).filterMap fun v => LinkParser.parse U J (Json.asString J v) PHONES

/-- Servers that worked on phones; the ones in use stay. -/
def applyPhones (U : Jvm) (list : List Server) (st : AppState) : AppState :=
  let keep := st.servers.filter fun s => s.source ≠ PHONES || (st.state U s).selected
  { st with servers := mergeServers U keep list }

end Report

namespace Backup

/-- Settings of the backup; servers, results and statistics added to what is here. -/
def merge (U : Jvm) (cur b : AppState) : AppState × ℕ :=
  let fresh := KeyedList.fresh (Server.id U) (cur.ids U) b.servers
  let ids := fresh.map (Server.id U)
  let nets := (b.maskStats.keys ++ cur.maskStats.keys).eraseDups
  let stats := OrderedMap.associateWith nets fun net =>
    ((b.maskStats.get? net).getD .empty).plus ((cur.maskStats.get? net).getD .empty)
  ({ cur with
      servers := cur.servers ++ fresh
      states := cur.states.plus (b.states.filterKeys fun k => k ∈ ids)
      settings := b.settings
      maskStats := stats }, fresh.length)

end Backup

namespace Store

/-- `Store.update`; `relisted` stands for `next.servers !== old.servers`, which is so
of every change that builds its list anew. -/
def update (U : Jvm) (relisted : Bool) (change : AppState → AppState) (st : AppState) : AppState :=
  let next := change st
  if relisted then AutoEligibility.clean U next else next

def addServers (U : Jvm) (list : List Server) : AppState → AppState :=
  update U true fun st => { st with servers := mergeServers U st.servers list }

def replaceSource (U : Jvm) (source : String) (list : List Server) : AppState → AppState :=
  update U true fun st =>
    { st with servers := mergeServers U (st.servers.filter fun s => s.source ≠ source) list }

def remove (U : Jvm) (ids : List String) : AppState → AppState :=
  update U true fun st =>
    { st with
      servers := st.servers.filter fun s => s.id U ∉ ids
      states := st.states.filterKeys fun k => k ∉ ids }

/-- What is run through `Store.update` to change the list of servers. -/
inductive Op where
  | addServers (list : List Server)
  | replaceSource (source : String) (list : List Server)
  | remove (ids : List String)
  | catalogue (entries : List Server)
  | phones (servers : List Json)
  | restore (b : AppState)

/-- One operation. An empty list of the phones is not applied. -/
def step (U : Jvm) (J : OrgJson) (st : AppState) : Op → AppState
  | .addServers list => addServers U list st
  | .replaceSource source list => replaceSource U source list st
  | .remove ids => remove U ids st
  | .catalogue entries => update U true (CloudControl.apply U entries) st
  | .phones servers =>
    let list := Report.phoneServers U J servers
    if list = [] then st else update U true (Report.applyPhones U list) st
  | .restore b => update U true (fun cur => (Backup.merge U cur b).1) st

/-- The operations of a run, in order. -/
def run (U : Jvm) (J : OrgJson) (st : AppState) (ops : List Op) : AppState :=
  ops.foldl (step U J) st

/-! ## The invariant

A sound list has distinct ids and allowed servers only. Every operation keeps it, and so does
every run. -/

/-- No two servers share an identity, and every server is allowed. -/
structure Sound (U : Jvm) (st : AppState) : Prop where
  ids_nodup : (st.ids U).Nodup
  allowed : ∀ s ∈ st.servers, AutoEligibility.allowed U s = true

section
variable (U : Jvm)

/-- `clean` keeps exactly the allowed servers. -/
theorem servers_clean (st : AppState) :
    (AutoEligibility.clean U st).servers = st.servers.filter (AutoEligibility.allowed U) := by
  unfold AutoEligibility.clean
  dsimp only
  split
  · rename_i h
    exact (List.filter_sublist.eq_of_length h).symm
  · rfl

/-- `clean` keeps the result of every server it keeps. -/
theorem states_clean {st : AppState} {i : String}
    (h : i ∈ (AutoEligibility.clean U st).ids U) :
    (AutoEligibility.clean U st).states.get? i = st.states.get? i := by
  rw [AppState.ids, servers_clean] at h
  unfold AutoEligibility.clean
  dsimp only
  split
  · rfl
  · rw [OrderedMap.get?_filterKeys, if_pos (decide_eq_true h)]

theorem servers_update (change : AppState → AppState) (st : AppState) :
    (update U true change st).servers = (change st).servers.filter (AutoEligibility.allowed U) :=
  servers_clean U (change st)

/-- Cleaning makes a list with distinct identities sound. -/
theorem sound_update {change : AppState → AppState} {st : AppState}
    (h : ((change st).ids U).Nodup) : Sound U (update U true change st) := by
  constructor
  · rw [AppState.ids, servers_update]
    exact KeyedList.nodup_filter h _
  · intro s hs
    rw [servers_update, List.mem_filter] at hs
    exact hs.2

/-- A server that a change keeps is kept by `update` when it is allowed. -/
theorem mem_update {change : AppState → AppState} {st : AppState} {s : Server}
    (hs : s ∈ (change st).servers) (ha : AutoEligibility.allowed U s = true) :
    s ∈ (update U true change st).servers := by
  rw [servers_update, List.mem_filter]
  exact ⟨hs, ha⟩

/-- What is merged into a part of the list has distinct identities. -/
theorem nodup_mergeServers {st : AppState} (h : (st.ids U).Nodup) (p : Server → Bool)
    (list : List Server) : ((mergeServers U (st.servers.filter p) list).map (Server.id U)).Nodup :=
  KeyedList.nodup_merge (KeyedList.nodup_filter h p) list

/-- One operation keeps the invariant. -/
theorem step_sound (J : OrgJson) {st : AppState} (h : Sound U st) (op : Op) :
    Sound U (step U J st op) := by
  cases op with
  | addServers list =>
    rw [step, addServers]
    apply sound_update
    exact KeyedList.nodup_merge h.ids_nodup list
  | replaceSource source list =>
    rw [step, replaceSource]
    apply sound_update
    exact nodup_mergeServers U h.ids_nodup _ list
  | remove ids =>
    rw [step, remove]
    apply sound_update
    exact KeyedList.nodup_filter h.ids_nodup _
  | catalogue entries =>
    rw [step]
    apply sound_update
    exact nodup_mergeServers U h.ids_nodup _ entries
  | phones servers =>
    rw [step]
    split
    · exact h
    · apply sound_update
      exact nodup_mergeServers U h.ids_nodup _ _
  | restore b =>
    rw [step]
    apply sound_update
    exact KeyedList.nodup_merge h.ids_nodup b.servers

/-- A run keeps the invariant. -/
theorem run_sound (J : OrgJson) {st : AppState} (h : Sound U st) (ops : List Op) :
    Sound U (run U J st ops) := by
  induction ops generalizing st with
  | nil => exact h
  | cons op ops ih => exact ih (step_sound U J h op)

/-! ## What each operation leaves alone

What an operation must not touch is said of each: the servers of other sources, the results of
those that stay, and the servers in use. -/

/-- The servers of the other sources stay in front, in order. -/
theorem others_stay {st : AppState} (h : Sound U st) (source : String) (list : List Server) :
    (st.servers.filter fun s => s.source ≠ source) <+: (replaceSource U source list st).servers := by
  rw [replaceSource, servers_update, mergeServers, KeyedList.merge, List.filter_append]
  -- all of them are allowed, so cleaning keeps them
  have hkeep : (st.servers.filter fun s => s.source ≠ source).filter (AutoEligibility.allowed U)
      = st.servers.filter fun s => s.source ≠ source := by
    apply List.filter_eq_self.mpr
    intro s hs
    exact h.allowed s (List.mem_filter.mp hs).1
  rw [hkeep]
  exact List.prefix_append ..

/-- A result is kept with its server. -/
theorem results_stay (st : AppState) (source : String) (list : List Server) {i : String}
    (h : i ∈ (replaceSource U source list st).ids U) :
    (replaceSource U source list st).states.get? i = st.states.get? i :=
  states_clean U h

/-- Neither cloud update drops an allowed server in use. -/
theorem selected_stay (J : OrgJson) {st : AppState} {s : Server} (hs : s ∈ st.servers)
    (ha : AutoEligibility.allowed U s = true) (hsel : (st.state U s).selected = true) (l : List Server)
    (a : List Json) : s ∈ (step U J st (.catalogue l)).servers ∧
      s ∈ (step U J st (.phones a)).servers := by
  have hkeep (source : String) :
      s ∈ st.servers.filter fun v => v.source ≠ source || (st.state U v).selected := by
    rw [List.mem_filter, hsel, Bool.or_true]
    exact ⟨hs, rfl⟩
  constructor
  · apply mem_update U _ ha
    exact KeyedList.mem_merge_of_mem (hkeep CloudControl.SOURCE) l
  · rw [step]
    split
    · exact hs
    · apply mem_update U _ ha
      exact KeyedList.mem_merge_of_mem (hkeep Report.PHONES) _

/-- **The list of servers stays sound over every run.** From a sound state, any
sequence of the six operations leads to a sound state; a subscription update
leaves the servers of the other sources and the results of the servers that stay;
the cloud updates keep every server in use. -/
theorem runs_stay_sound (J : OrgJson) (st : AppState) (h : Sound U st) :
    (∀ ops, Sound U (run U J st ops)) ∧
      (∀ source list,
        ((st.servers.filter fun s => s.source ≠ source)
            <+: (step U J st (.replaceSource source list)).servers) ∧
          ∀ i ∈ st.ids U, i ∈ (step U J st (.replaceSource source list)).ids U →
            (step U J st (.replaceSource source list)).states.get? i = st.states.get? i) ∧
      ∀ s ∈ st.servers, AutoEligibility.allowed U s = true → (st.state U s).selected = true →
        (∀ entries, s ∈ (step U J st (.catalogue entries)).servers) ∧
          ∀ a, s ∈ (step U J st (.phones a)).servers := by
  refine ⟨run_sound U J h, ?_, ?_⟩
  · intro source list
    refine ⟨others_stay U h source list, ?_⟩
    intro i _ hi
    exact results_stay U st source list hi
  · intro s hs ha hsel
    exact ⟨fun entries => (selected_stay U J hs ha hsel entries []).1,
      fun a => (selected_stay U J hs ha hsel [] a).2⟩

end

/-- Two servers of two sources, the second in use. -/
theorem runs_stay_sound_pair :
    let a : Server := { name := "a", protocol := "vless", address := "10.0.0.1", port := 443,
                        secret := "u", source := "manual" }
    let b : Server := { a with address := "10.0.0.2", source := CloudControl.SOURCE }
    let st : AppState := { servers := [a, b], states := .ofList [(b.id .ascii, { selected := true })] }
    Sound .ascii st ∧ (st.state .ascii b).selected = true ∧
      (∀ ops, Sound .ascii (run .ascii JsonText.library st ops)) ∧
      ∀ entries, b ∈ (step .ascii JsonText.library st (.catalogue entries)).servers := by
  intro a b st
  have hs : Sound .ascii st := ⟨by decide +kernel, by decide +kernel⟩
  have hsel : (st.state .ascii b).selected = true := by decide +kernel
  have h := runs_stay_sound .ascii JsonText.library st hs
  refine ⟨hs, hsel, h.1, ?_⟩
  exact (h.2.2 b (by decide) (hs.allowed b (by decide)) hsel).1

/-! ## What is reported as added

The number that is reported was counted before the cleaning. It is the growth of the list exactly
when all the new servers are allowed. -/

/-- One attempt of the update in `addServers`: how many servers it counted, and the state it
would leave. -/
def attempt (U : Jvm) (list : List Server) (st : AppState) : ℕ × AppState :=
  let fresh := KeyedList.fresh (Server.id U) (st.ids U) list
  (fresh.length, AutoEligibility.clean U { st with servers := st.servers ++ fresh })

/-- `addServers` with its result. The attempts that lost a race against other updates saw the
states `lost`; the last one saw `st`, and what it counted is returned. -/
def addServersCounted (U : Jvm) (list : List Server) (lost : List AppState) (st : AppState) : ℕ × AppState :=
  (lost ++ [st]).foldl (fun _ seen => attempt U list seen) (0, st)

section
variable (U : Jvm)

theorem addServersCounted_eq (list : List Server) (lost : List AppState) (st : AppState) :
    addServersCounted U list lost st =
      ((KeyedList.fresh (Server.id U) (st.ids U) list).length, addServers U list st) := by
  rw [addServersCounted, List.foldl_append]
  rfl

theorem servers_addServers {st : AppState} (h : Sound U st) (list : List Server) :
    (addServers U list st).servers = st.servers ++
      (KeyedList.fresh (Server.id U) (st.ids U) list).filter (AutoEligibility.allowed U) := by
  rw [addServers, servers_update, mergeServers, KeyedList.merge, List.filter_append, List.filter_eq_self.mpr h.allowed]
  rfl

/-- What `addServers` promises: it returns by how much the list grows, leaves the servers that
were there in front with their results, and appends the first of each new identity among the
allowed servers. -/
structure Added (U : Jvm) (list : List Server) (st : AppState) (r : ℕ × AppState) : Prop where
  count : r.2.servers.length = st.servers.length + r.1
  kept : st.servers <+: r.2.servers
  states : ∀ s ∈ st.servers, r.2.state U s = st.state U s
  appended : r.2.servers = st.servers ++
    KeyedList.fresh (Server.id U) (st.ids U) (list.filter (AutoEligibility.allowed U))

/-- **The number of servers that were added is the one reported exactly when the first server of
each new identity is allowed.** -/
theorem added_iff {st : AppState} (h : Sound U st) (list : List Server) (lost : List AppState) :
    Added U list st (addServersCounted U list lost st) ↔
      ∀ s ∈ KeyedList.fresh (Server.id U) (st.ids U) list, AutoEligibility.allowed U s = true := by
  have hservers := servers_addServers U h list
  rw [addServersCounted_eq]
  constructor
  · intro hadded
    have hcount := hadded.count
    rw [hservers, List.length_append] at hcount
    exact List.length_filter_eq_length_iff.mp (by omega)
  · intro hall
    have hfilter : (KeyedList.fresh (Server.id U) (st.ids U) list).filter (AutoEligibility.allowed U) =
        KeyedList.fresh (Server.id U) (st.ids U) list := List.filter_eq_self.mpr hall
    rw [hfilter] at hservers
    refine ⟨?_, ?_, fun s hs => ?_, ?_⟩
    · rw [hservers, List.length_append]
    · rw [hservers]
      exact List.prefix_append _ _
    · have hlisted : s.id U ∈ (addServers U list st).ids U := by
        rw [AppState.ids, hservers, List.map_append]
        exact List.mem_append_left _ (List.mem_map_of_mem hs)
      rw [AppState.state, AppState.state]
      exact congrArg (Option.getD · {}) (states_clean U hlisted)
    · rw [hservers, KeyedList.fresh_filter_of_forall _ list hall]

end

/-- A server that is labelled Russian. -/
def russianServer : Server :=
  { name := "🇷🇺 Москва", protocol := "vless", address := "10.0.0.3", port := 443, secret := "u" }

theorem added_iff_one : Added Jvm.ascii [{ russianServer with name := "Berlin" }] {}
    (addServersCounted Jvm.ascii [{ russianServer with name := "Berlin" }] [] {}) := by
  have hsound : Sound Jvm.ascii {} := ⟨by decide, by decide⟩
  apply (added_iff Jvm.ascii hsound _ _).mpr
  decide +kernel

/-- It is reported as added, and not listed. -/
theorem russian_server_counted : Sound Jvm.ascii {} ∧
    (addServersCounted Jvm.ascii [russianServer] [] {}).1 = 1 ∧
    (addServersCounted Jvm.ascii [russianServer] [] {}).2.servers = [] ∧
    ¬ Added Jvm.ascii [russianServer] {} (addServersCounted Jvm.ascii [russianServer] [] {}) := by
  have hcount : (addServersCounted Jvm.ascii [russianServer] [] {}).1 = 1 := by decide +kernel
  have hlist : (addServersCounted Jvm.ascii [russianServer] [] {}).2.servers = [] := by decide +kernel
  refine ⟨⟨by decide, by decide⟩, hcount, hlist, fun hadded => ?_⟩
  have hgrown := hadded.count
  rw [hcount, hlist] at hgrown
  exact absurd hgrown (by decide)

end Store

/-! ## Restoring a backup

A backup is merged so that this phone's own data count first. This fails for the result of a
server that has left the list here and comes back with the backup. -/

namespace Backup

/-- The counters of one mask on one network. -/
def stat (st : AppState) (net mask : String) : Option MaskStat :=
  (st.maskStats.get? net).bind fun m => m.get? mask

/-- This phone wins: what `cur` knows is in `r` as it was, and what else is in `r`
is a server, a result or a counter of `b` that `cur` has nothing under. -/
structure PhoneWins (U : Jvm) (cur b r : AppState) : Prop where
  servers_stay : cur.servers <+: r.servers
  servers_new : ∀ s ∈ r.servers, s ∈ cur.servers ∨ s ∈ b.servers ∧ s.id U ∉ cur.ids U
  states_stay : ∀ i v, cur.states.get? i = some v → r.states.get? i = some v
  states_new : ∀ i v, r.states.get? i = some v →
    cur.states.get? i = some v ∨ cur.states.get? i = none ∧ b.states.get? i = some v
  stats_stay : ∀ net mask v, stat cur net mask = some v → stat r net mask = some v
  stats_new : ∀ net mask v, stat r net mask = some v →
    stat cur net mask = some v ∨ stat cur net mask = none ∧ stat b net mask = some v

section
variable (U : Jvm) (cur b : AppState)

theorem stat_getD (st : AppState) (net mask : String) :
    ((st.maskStats.get? net).getD .empty).get? mask = stat st net mask := by
  rw [stat]
  cases st.maskStats.get? net with
  | none => rfl
  | some m => rfl

/-- The counters of this phone, else those of the backup. -/
theorem stat_merge (net mask : String) :
    stat (merge U cur b).1 net mask = (stat cur net mask).or (stat b net mask) := by
  have hmem : net ∈ (b.maskStats.keys ++ cur.maskStats.keys).eraseDups ↔
      b.maskStats.contains net = true ∨ cur.maskStats.contains net = true := by
    rw [List.mem_eraseDups, List.mem_append, OrderedMap.contains_iff, OrderedMap.contains_iff]
  show ((OrderedMap.associateWith _ _).get? net).bind _ = _
  rw [OrderedMap.get?_associateWith (nodup_eraseDups _)]
  by_cases h : net ∈ (b.maskStats.keys ++ cur.maskStats.keys).eraseDups
  · rw [if_pos h, Option.bind_some, OrderedMap.get?_plus, stat_getD, stat_getD]
  · -- neither side knows the network
    rw [hmem, not_or, OrderedMap.contains, OrderedMap.contains, Option.not_isSome_iff_eq_none,
      Option.not_isSome_iff_eq_none] at h
    rw [if_neg (by rwa [hmem, not_or, OrderedMap.contains, OrderedMap.contains,
      Option.not_isSome_iff_eq_none, Option.not_isSome_iff_eq_none]), stat, stat, h.1, h.2]
    rfl

/-- The result kept under an identity. -/
theorem states_merge (i : String) :
    (merge U cur b).1.states.get? i =
      (if i ∈ b.ids U ∧ i ∉ cur.ids U then b.states.get? i else none).or (cur.states.get? i) := by
  show (OrderedMap.plus _ _).get? i = _
  rw [OrderedMap.get?_plus, OrderedMap.get?_filterKeys]
  congr 1
  refine if_congr ?_ rfl rfl
  rw [decide_eq_true_iff]
  exact KeyedList.mem_keys_fresh (Server.id U) b.servers i (cur.ids U)

/-- **A backup overrides a result exactly when its server left the list.** The
merge lets this phone win if and only if no server that only the backup lists has
a result on both sides, unless the two results are the same. -/
theorem phone_wins_iff :
    PhoneWins U cur b (merge U cur b).1 ↔
      ∀ i ∈ b.ids U, i ∉ cur.ids U → ∀ v w, cur.states.get? i = some v →
        b.states.get? i = some w → v = w := by
  constructor
  · intro h i hb hc v w hv hw
    have hkept := h.states_stay i v hv
    rw [states_merge, if_pos ⟨hb, hc⟩, hw, Option.some_or, Option.some.injEq] at hkept
    exact hkept.symm
  · intro h
    -- the states of a merged id: the backup's where the server is new here, else the phone's
    have hstates (i : String) : (merge U cur b).1.states.get? i = (cur.states.get? i).or
        (if i ∈ b.ids U ∧ i ∉ cur.ids U then b.states.get? i else none) := by
      rw [states_merge]
      by_cases hi : i ∈ b.ids U ∧ i ∉ cur.ids U
      · rw [if_pos hi]
        cases hv : cur.states.get? i with
        | none => rw [Option.or_none, Option.none_or]
        | some v =>
          cases hw : b.states.get? i with
          | none => rfl
          | some w => rw [h i hi.1 hi.2 v w hv hw]
      · rw [if_neg hi, Option.none_or, Option.or_none]
    -- the fields one by one, those about the states by that equation
    constructor
    · exact List.prefix_append ..
    · intro s hs
      rcases List.mem_append.mp hs with hs | hs
      · exact .inl hs
      · exact .inr ⟨(KeyedList.fresh_sublist _ _ _).subset hs,
          KeyedList.not_known_of_mem_fresh _ _ hs⟩
    · intro i v hv
      rw [hstates, hv, Option.some_or]
    · intro i v hv
      rw [hstates, Option.or_eq_some_iff] at hv
      refine hv.imp_right ?_
      rintro ⟨hnone, hv⟩
      rw [Option.ite_none_right_eq_some] at hv
      exact ⟨hnone, hv.2⟩
    · intro net mask v hv
      rw [stat_merge, hv, Option.some_or]
    · intro net mask v hv
      rw [stat_merge, Option.or_eq_some_iff] at hv
      exact hv

end

/-- A subscription dropped the server but its result stayed; the backup of another
phone lists the server with a failed result, and that result takes its place. -/
theorem dropped_server_overridden :
    let s : Server := { name := "a", protocol := "vless", address := "10.0.0.1", port := 443,
                        secret := "u" }
    let cur : AppState := { states := .ofList [(s.id .ascii, { realMs := 90 })] }
    let b : AppState := { servers := [s], states := .ofList [(s.id .ascii, { realMs := 0 })] }
    cur = Store.replaceSource .ascii "" []
        { servers := [s], states := .ofList [(s.id .ascii, { realMs := 90 })] } ∧
      cur.states.get? (s.id .ascii) = some { realMs := 90 } ∧
      (merge .ascii cur b).1.states.get? (s.id .ascii) = some { realMs := 0 } ∧
      ¬ PhoneWins .ascii cur b (merge .ascii cur b).1 := by
  intro s cur b
  have hcur : cur.states.get? (s.id .ascii) = some { realMs := 90 } := by decide +kernel
  have hmerged : (merge .ascii cur b).1.states.get? (s.id .ascii) = some { realMs := 0 } := by
    decide +kernel
  refine ⟨by decide +kernel, hcur, hmerged, ?_⟩
  intro h
  have hkept := h.states_stay _ _ hcur
  rw [hmerged] at hkept
  exact absurd hkept (by decide)

end Backup

end VlessCard
