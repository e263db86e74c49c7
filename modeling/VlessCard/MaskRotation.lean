/-
`Actions.nextMasks`: the next mask of a server whose check failed.

A server keeps the masks that passed, the one in use apart, and the mask in use is
looked up by network. A call puts the first of the kept masks in use on the current
network and the mask it replaces at the end; seen from one network this turns the ring
of the mask in use and the kept ones by one place. The kept masks are shared by all
networks, so on another network the first of them may already be in use.
-/
import Mathlib.Data.List.Rotate
import VlessCard.Restart

set_option autoImplicit false

namespace VlessCard

/-- What the search of masks found for a server: the best mask and how its check went. -/
structure MaskFound where
  maskId : String
  realMs : Int32
  bigOk : Option Bool
  kbps : Int32
  ytOk : Option Bool

namespace Actions

/-- What the search writes, `good` being the masks that passed with their times. -/
def keepFound (net : String) (now : Int64) (good : List (String × Int32)) (b : Option MaskFound)
    (v : ServerState) : ServerState :=
  match b with
  | none => { v with realMs := 0, checkedAt := now }
  | some b =>
    { v with
      maskId := b.maskId
      netMasks := v.netMasks.put net b.maskId
      realMs := b.realMs
      bigOk := b.bigOk
      kbps := if 0 < b.kbps then b.kbps else v.kbps
      speedCheckedAt := 0
      ytOk := b.ytOk.or v.ytOk
      checkedAt := now
      goodMasks := (((good.mergeSort fun g h => g.2 ≤ h.2).map Prod.fst).filter fun g => g ≠ b.maskId).take 8 }

/-- The next mask of one server, if there is one. -/
def nextMask (net : String) (v : ServerState) : Option ServerState :=
  v.goodMasks.head?.map fun next =>
    { v with
      maskId := next
      netMasks := v.netMasks.put net next
      -- the failing mask goes to the end of the list
      goodMasks := v.goodMasks.drop 1 ++ [v.maskFor net] }

/-- `states + pairs`. -/
def withStates (states : OrderedMap String ServerState) (pairs : List (String × ServerState)) :
    OrderedMap String ServerState :=
  pairs.foldl (fun m e => m.put e.1 e.2) states

variable (U : Jvm)

def nextMasks (net : String) (servers : List Server) (st : AppState) : Bool × AppState :=
  let pairs := servers.filterMap fun s => (nextMask net (st.state U s)).map fun v => (s.id U, v)
  (!pairs.isEmpty, { st with states := withStates st.states pairs })

/-- The result of a search for one server, or a call on a network. -/
inductive MaskEvent where
  | found (net : String) (now : Int64) (s : Server) (good : List (String × Int32)) (b : Option MaskFound)
  | next (net : String) (servers : List Server)

def maskStep (st : AppState) : MaskEvent → AppState
  | .found net now s good b =>
    { st with states := st.states.put (s.id U) (keepFound net now good b (st.state U s)) }
  | .next net servers => (nextMasks U net servers st).2

def maskRun (st : AppState) (es : List MaskEvent) : AppState := es.foldl (maskStep U) st

/-! ## One server

The mask in use and those that are kept form a ring, and a call turns it by one place. Whether
the mask changes by it depends on whether the head of the kept ones is another mask. -/

/-- The mask in use on a network, and the masks that are kept, in turn. -/
def ring (net : String) (v : ServerState) : List String := v.maskFor net :: v.goodMasks

/-- What a call leaves of a server. -/
def nextValue (net : String) (v : ServerState) : ServerState := (nextMask net v).getD v

theorem maskFor_put (v : ServerState) (net next : String) (good : List String) :
    ServerState.maskFor { v with maskId := next, netMasks := v.netMasks.put net next, goodMasks := good } net
      = next := by
  rw [ServerState.maskFor, OrderedMap.get?_put, if_pos rfl]
  rfl

/-- A call turns the ring by one place. -/
theorem ring_nextValue (net : String) (v : ServerState) :
    ring net (nextValue net v) = (ring net v).rotate 1 := by
  rw [nextValue, nextMask, ring, ring]
  cases hgood : v.goodMasks with
  | nil =>
    show v.maskFor net :: v.goodMasks = _
    rw [hgood]
    exact (List.rotate_singleton _ 1).symm
  | cons next rest =>
    rw [List.head?_cons, Option.map_some, Option.getD_some, maskFor_put, List.rotate_cons_succ,
      List.rotate_zero]
    rfl

theorem ring_iterate (net : String) (v : ServerState) (n : ℕ) :
    ring net ((nextValue net)^[n] v) = (ring net v).rotate n := by
  induction n with
  | zero => exact (List.rotate_zero _).symm
  | succ n ih => rw [Function.iterate_succ_apply', ring_nextValue, ih, List.rotate_rotate]

/-- The ring starts with the mask in use. -/
theorem maskFor_iterate (net : String) (v : ServerState) {n : ℕ} (hn : n < (ring net v).length) :
    ((nextValue net)^[n] v).maskFor net = (ring net v)[n] := by
  have hring := ring_iterate net v n
  have hhead : (ring net ((nextValue net)^[n] v)).head? = ((ring net v).rotate n).head? := by rw [hring]
  rw [List.head?_rotate hn] at hhead
  exact Option.some.inj (hhead.trans (List.getElem?_eq_getElem hn))

/-! ## The store

The servers of a call are written one after the other, under keys of their own. So what happens
to one server in a run is the turning of its ring, call by call. -/

variable {U}

/-- Pairs whose values depend on their keys alone, written one after another. -/
theorem get?_withStates {pairs : List (String × ServerState)} {g : String → ServerState}
    (h : ∀ e ∈ pairs, e.2 = g e.1) (k : String) : ∀ (m : OrderedMap String ServerState),
    (withStates m pairs).get? k = if k ∈ pairs.map Prod.fst then some (g k) else m.get? k := by
  induction pairs with
  | nil => exact fun m => (if_neg List.not_mem_nil).symm
  | cons e pairs ih =>
    intro m
    rw [List.forall_mem_cons] at h
    rw [withStates, List.foldl_cons]
    refine (ih h.2 _).trans ?_
    rw [OrderedMap.get?_put, List.map_cons, h.1]
    by_cases hk : k ∈ pairs.map Prod.fst
    · rw [if_pos hk, if_pos (List.mem_cons_of_mem _ hk)]
    · rw [if_neg hk]
      by_cases he : e.1 = k
      · rw [if_pos he, he, if_pos (List.mem_cons_self ..)]
      · rw [if_neg he, if_neg]
        exact fun hmem => (List.mem_cons.mp hmem).elim (fun heq => he heq.symm) hk

/-- A call moves every server it is about on by one mask. -/
theorem state_nextMasks (net : String) {servers : List Server} (st : AppState) {s : Server}
    (hs : s ∈ servers) : (nextMasks U net servers st).2.state U s = nextValue net (st.state U s) := by
  let g : String → ServerState := fun k => nextValue net ((st.states.get? k).getD {})
  have hpairs : ∀ e ∈ servers.filterMap (fun s => (nextMask net (st.state U s)).map fun v => (s.id U, v)),
      e.2 = g e.1 := by
    intro e he
    obtain ⟨t, -, ht⟩ := List.mem_filterMap.mp he
    obtain ⟨v, hv, rfl⟩ := Option.map_eq_some_iff.mp ht
    show v = (nextMask net (st.state U t)).getD (st.state U t)
    rw [hv, Option.getD_some]
  have hget := get?_withStates (g := g) hpairs (s.id U) st.states
  rw [AppState.state]
  show ((withStates st.states _).get? (s.id U)).getD {} = _
  rw [hget]
  split
  · rfl
  · -- a server without a kept mask is not written
    rename_i hnot
    have hnone : nextMask net (st.state U s) = none := by
      by_contra hne
      obtain ⟨v, hv⟩ := Option.ne_none_iff_exists'.mp hne
      exact hnot (List.mem_map.mpr ⟨(s.id U, v), List.mem_filterMap.mpr ⟨s, hs, by rw [hv]; rfl⟩, rfl⟩)
    rw [nextValue, hnone]
    rfl

theorem state_found (st : AppState) (net : String) (now : Int64) (s : Server)
    (good : List (String × Int32)) (b : Option MaskFound) :
    (maskStep U st (.found net now s good b)).state U s = keepFound net now good b (st.state U s) := by
  rw [AppState.state, maskStep, OrderedMap.get?_put, if_pos rfl]
  rfl

/-- The servers a call counts as changed. -/
def counted (U : Jvm) (st : AppState) (servers : List Server) (s : Server) : Prop :=
  s ∈ servers ∧ (st.state U s).goodMasks ≠ []

/-- Every call of a run gives every server it counts another mask. -/
def EveryCallChanges (U : Jvm) (st : AppState) (es : List MaskEvent) : Prop :=
  ∀ pre net servers post, es = pre ++ .next net servers :: post → ∀ s,
    counted U (maskRun U st pre) servers s →
      ((maskRun U st (pre ++ [.next net servers])).state U s).maskFor net ≠
        ((maskRun U st pre).state U s).maskFor net

/-- At every call of a run, the first of the kept masks is not the one in use. -/
def EveryHeadIsNew (U : Jvm) (st : AppState) (es : List MaskEvent) : Prop :=
  ∀ pre net servers post, es = pre ++ .next net servers :: post → ∀ s,
    counted U (maskRun U st pre) servers s →
      ((maskRun U st pre).state U s).goodMasks.head? ≠ some (((maskRun U st pre).state U s).maskFor net)

/-- Of as many calls on one network as there are masks in the ring, each puts another one in
use, and the last the first again. -/
structure GoesRound (U : Jvm) (net : String) (servers : List Server) (st : AppState) (s : Server) : Prop where
  distinct : ((List.range (ring net (st.state U s)).length).map fun i =>
    ((maskRun U st (List.replicate (i + 1) (.next net servers))).state U s).maskFor net).Nodup
  back : ring net ((maskRun U st (List.replicate (ring net (st.state U s)).length
    (.next net servers))).state U s) = ring net (st.state U s)

theorem maskRun_append (st : AppState) (es fs : List MaskEvent) :
    maskRun U st (es ++ fs) = maskRun U (maskRun U st es) fs := List.foldl_append

/-- **A call takes the head of the good masks.** -/
theorem maskFor_nextMasks (net : String) {servers : List Server} {st : AppState} {s : Server}
    (h : counted U st servers s) :
    some (((nextMasks U net servers st).2.state U s).maskFor net) = (st.state U s).goodMasks.head? := by
  rw [state_nextMasks net st h.1, nextValue, nextMask]
  obtain ⟨next, rest, hgood⟩ := List.exists_cons_of_ne_nil h.2
  rw [hgood, List.head?_cons, Option.map_some, Option.getD_some, maskFor_put]

/-- So every call changes the mask just when the head is always another. -/
theorem everyCallChanges_iff (st : AppState) (es : List MaskEvent) :
    EveryCallChanges U st es ↔ EveryHeadIsNew U st es := by
  refine forall₄_congr fun pre net servers post => forall_congr' fun _ => forall₂_congr fun s hs => ?_
  have hnext := maskFor_nextMasks net hs
  rw [maskRun_append, ← hnext, ne_eq, ne_eq, Option.some.injEq]
  rfl

/-- Calls in turn are steps round the ring. -/
theorem state_calls (net : String) {servers : List Server} (st : AppState) {s : Server} (hs : s ∈ servers)
    (n : ℕ) : (maskRun U st (List.replicate n (.next net servers))).state U s =
      (nextValue net)^[n] (st.state U s) := by
  induction n with
  | zero => rfl
  | succ n ih =>
    rw [List.replicate_succ', maskRun_append, Function.iterate_succ_apply', ← ih]
    exact state_nextMasks net _ hs

theorem goesRound_iff {net : String} {servers : List Server} (st : AppState) {s : Server}
    (hs : s ∈ servers) : GoesRound U net servers st s ↔ (ring net (st.state U s)).Nodup := by
  have hmasks : (List.range (ring net (st.state U s)).length).map (fun i =>
      ((maskRun U st (List.replicate (i + 1) (.next net servers))).state U s).maskFor net)
        = (ring net (st.state U s)).rotate 1 := by
    refine List.ext_getElem ?_ fun i hi hi' => ?_
    · rw [List.length_map, List.length_range, List.length_rotate]
    · rw [List.getElem_map, List.getElem_range, state_calls net st hs, Function.iterate_succ_apply]
      rw [List.length_rotate] at hi'
      have hlen : i < (ring net (nextValue net (st.state U s))).length := by
        rw [ring_nextValue, List.length_rotate]
        exact hi'
      rw [maskFor_iterate net _ hlen]
      exact List.getElem_of_eq (ring_nextValue net _) _
  constructor
  · intro h
    have hdistinct := h.distinct
    rw [hmasks, List.nodup_rotate] at hdistinct
    exact hdistinct
  · intro h
    refine ⟨?_, ?_⟩
    · rw [hmasks, List.nodup_rotate]
      exact h
    · rw [state_calls net st hs, ring_iterate, List.rotate_length]

/-- **A call changes the mask where the first of the kept masks is not the one in use**, and
calls on one network go round where the mask in use and the kept ones are all different:
both in every run of searches and calls. -/
theorem masks_rotate_iff (st : AppState) (es : List MaskEvent) :
    (EveryCallChanges U st es ↔ EveryHeadIsNew U st es) ∧
      ∀ net servers, ∀ s ∈ servers, GoesRound U net servers (maskRun U st es) s ↔
        (ring net ((maskRun U st es).state U s)).Nodup :=
  ⟨everyCallChanges_iff st es, fun _ _ _ hs => goesRound_iff (maskRun U st es) hs⟩

/-- After a search that found masks on a network, all masks of its ring are different. -/
theorem ring_nodup_found (net : String) (now : Int64) {good : List (String × Int32)}
    (h : (good.map Prod.fst).Nodup) (b : MaskFound) (v : ServerState) :
    (ring net (keepFound net now good (some b) v)).Nodup := by
  have hfor : (keepFound net now good (some b) v).maskFor net = b.maskId := by
    rw [ServerState.maskFor, keepFound, OrderedMap.get?_put, if_pos rfl]
    rfl
  rw [ring, hfor, List.nodup_cons]
  constructor
  · intro hmem
    have hfilter := List.mem_of_mem_take hmem
    exact of_decide_eq_true (List.mem_filter.mp hfilter).2 rfl
  · have hsorted : ((good.mergeSort fun g h => g.2 ≤ h.2).map Prod.fst).Nodup :=
      ((List.mergeSort_perm good _).map Prod.fst).nodup_iff.mpr h
    exact (hsorted.filter _).sublist (List.take_sublist _ _)

/-! ## Two networks

The kept masks are shared by all networks while the mask in use belongs to one of them. A call on
another network can therefore bring the mask in use to the head of those that are kept. -/

def sampleServer : Server := { name := "a", protocol := "vless", address := "10.0.0.1", port := 443, secret := "a" }

def sampleFound : MaskEvent :=
  .found "Wi-Fi · a" 1 sampleServer [("tls", 80), ("frag", 90)] (some ⟨"tls", 80, none, 0, none⟩)

/-- Two masks found on a network, and a call there, on another, and there again. -/
def twoNetworks : List MaskEvent :=
  [sampleFound, .next "Wi-Fi · a" [sampleServer], .next "LTE" [sampleServer],
    .next "Wi-Fi · a" [sampleServer]]

/-- What the search leaves of the server. -/
def sampleValue : ServerState :=
  { realMs := 80
    maskId := "tls"
    checkedAt := 1
    goodMasks := ["frag"]
    netMasks := .ofList [("Wi-Fi · a", "tls")] }

theorem state_sampleFound : (maskRun Jvm.ascii {} [sampleFound]).state Jvm.ascii sampleServer = sampleValue := by
  have hsorted : [("tls", (80 : Int32)), ("frag", 90)].mergeSort (fun g h => g.2 ≤ h.2)
      = [("tls", 80), ("frag", 90)] := List.mergeSort_of_pairwise (by decide)
  refine (state_found {} _ _ _ _ _).trans ?_
  show keepFound "Wi-Fi · a" 1 [("tls", 80), ("frag", 90)] (some ⟨"tls", 80, none, 0, none⟩) {} = sampleValue
  rw [keepFound, hsorted]
  decide +kernel

/-- The last call counts the server and leaves its mask as it was. -/
theorem call_after_other_network_changes_nothing : ¬ EveryCallChanges Jvm.ascii {} twoNetworks := by
  have hcall (net : String) (st : AppState) :
      (maskStep Jvm.ascii st (.next net [sampleServer])).state Jvm.ascii sampleServer
        = nextValue net (st.state Jvm.ascii sampleServer) :=
    state_nextMasks net st (List.mem_singleton_self _)
  have hbefore : (maskRun Jvm.ascii {} (twoNetworks.take 3)).state Jvm.ascii sampleServer
      = nextValue "LTE" (nextValue "Wi-Fi · a" sampleValue) :=
    (hcall "LTE" _).trans (congrArg _ ((hcall "Wi-Fi · a" _).trans (congrArg _ state_sampleFound)))
  have hafter : (maskRun Jvm.ascii {} twoNetworks).state Jvm.ascii sampleServer
      = nextValue "Wi-Fi · a" (nextValue "LTE" (nextValue "Wi-Fi · a" sampleValue)) :=
    (hcall "Wi-Fi · a" _).trans (congrArg _ hbefore)
  intro h
  refine h (twoNetworks.take 3) "Wi-Fi · a" [sampleServer] [] rfl sampleServer ⟨List.mem_singleton_self _, ?_⟩ ?_
  · rw [hbefore]
    decide +kernel
  · rw [hbefore]
    refine (congrArg (fun v => ServerState.maskFor v "Wi-Fi · a") hafter).trans ?_
    decide +kernel

/-- After the search alone, two calls on its network go round. -/
theorem masks_rotate_iff_found :
    GoesRound Jvm.ascii "Wi-Fi · a" [sampleServer] (maskRun Jvm.ascii {} [sampleFound]) sampleServer := by
  refine ((masks_rotate_iff {} [sampleFound]).2 "Wi-Fi · a" [sampleServer] sampleServer
    (List.mem_singleton_self _)).mpr ?_
  rw [state_sampleFound]
  decide +kernel

end Actions

end VlessCard
