/-
`ConnectPolicy.kt`: which servers a foreground search tries first.

The servers of the list are ranked by score, those that are not cooling down before
those that are, and the queue of the cloud is built on that ranking. A list may have
several servers under one id. Then the first of them is asked, for its score and
for whether it cools down, and the last one is the one that is tried: `asked` and
`tried` name the two, and every result below is about them. Where ids are not
repeated both are the server itself.

The queue splits into what is ready (the leader, the slots of the cloud, the ready
servers) and what comes after it, and a cut for variety takes nothing from behind
while a host in front is missing.
-/
import VlessCard.CloudQueue

set_option autoImplicit false

namespace VlessCard

open Diversity KeyedList Comparator

namespace ConnectPolicy

def FIRST : ℤ := 8

section
variable (U : Jvm)

/-- By score, then what the network remembers, then what the cloud names. -/
def order (remembered cloudIds : List String) (score : Server → Int32) : Server → Server → Ordering :=
  compareLex (compareOn fun s => (score s).toInt) <|
    compareLex (compareOn fun s => if s.id U ∈ remembered then 0 else 1)
      (compareOn fun s => if s.id U ∈ cloudIds then 0 else 1)

/-- The list in its order, one server for an id. -/
def unique (list cloud : List Server) (remembered : List String) (score : Server → Int32) : List Server :=
  let cloudIds := (PublicCloudQueue.found U list cloud).map (Server.id U)
  sortedWith (order U remembered cloudIds score) (distinctBy (Server.id U) list)

section
variable (list cloud : List Server) (remembered : List String) (cooling : Server → Bool) (score : Server → Int32)

def deferred : List Server := (unique U list cloud remembered score).filter cooling

def ready : List Server := (unique U list cloud remembered score).filter fun s => !cooling s

def eligibleCloud : List Server :=
  cloud.filter fun hint => (ready U list cloud remembered cooling score).any fun s => s.id U = hint.id U

def candidates : List Server :=
  PublicCloudQueue.merge U
    (ready U list cloud remembered cooling score ++ deferred U list cloud remembered cooling score)
    (eligibleCloud U list cloud remembered cooling score) list FIRST (FIRST / 2)

end

/-! ## The server that is asked and the one that is tried

The policy builds a map from ids to servers and asks it for states, while it tries the servers of
the list. With repeated ids the map has the last server under an id, and the list is thinned out
to the first. -/

/-- The first server of the list under the id of `s`. -/
def asked (list : List Server) (s : Server) : Server :=
  (list.find? fun t => decide (t.id U = s.id U)).getD s

/-- The last one. -/
def tried (list : List Server) (s : Server) : Server := (PublicCloudQueue.allowed U list (s.id U)).getD s

end

section
variable {U : Jvm} {list : List Server}

/-- Each server is asked for by the one that stands for its id. -/
theorem asked_mem_distinctBy {s : Server} (h : s ∈ list) :
    asked U list s ∈ distinctBy (Server.id U) list ∧ (asked U list s).id U = s.id U := by
  obtain ⟨t, ht, hid⟩ := List.mem_map.mp ((mem_keys_distinctBy (Server.id U) list (s.id U)).mpr (List.mem_map_of_mem h))
  have hfind := find?_of_mem_distinctBy (Server.id U) ht
  rw [hid] at hfind
  have hasked : asked U list s = t := by
    rw [asked, hfind]
    rfl
  exact hasked ▸ ⟨ht, hid⟩

/-- Which is the server itself where it is the one that was kept. -/
theorem asked_of_mem_distinctBy {s t : Server} (h : t ∈ distinctBy (Server.id U) list) (hid : s.id U = t.id U) :
    asked U list s = t := by
  rw [asked, hid, find?_of_mem_distinctBy (Server.id U) h]
  rfl

theorem allowed_tried {s : Server} (h : s ∈ list) :
    PublicCloudQueue.allowed U list (s.id U) = some (tried U list s) := by
  obtain ⟨t, ht⟩ := PublicCloudQueue.exists_allowed (U := U) (List.mem_map_of_mem h)
  rw [tried, ht]
  rfl

/-- With distinct ids a server is asked and tried itself. -/
theorem asked_eq_tried (hk : Keyed (Server.id U) list) {s : Server} (h : s ∈ list) :
    asked U list s = s ∧ tried U list s = s := by
  have hasked := asked_mem_distinctBy (U := U) h
  have htried := OrderedMap.of_get?_associateBy (allowed_tried (U := U) h)
  exact ⟨hk _ (distinctBy_subset _ _ hasked.1) _ h hasked.2, hk _ htried.1 _ h htried.2⟩

end

/-! ## The ranking

Servers are ranked by score first. Those that are cooling down are moved behind the others,
unless there are no others. -/

section
variable {U : Jvm} {list cloud : List Server} {remembered : List String} {cooling : Server → Bool}
  {score : Server → Int32}

/-- Ordering neither adds nor drops a server. -/
theorem mem_unique {s : Server} : s ∈ unique U list cloud remembered score ↔ s ∈ distinctBy (Server.id U) list :=
  mem_sortedWith _

theorem nodup_unique : ((unique U list cloud remembered score).map (Server.id U)).Nodup :=
  ((perm_sortedWith _ _).map _).nodup_iff.mpr (nodup_distinctBy _ _)

/-- No server stands before one of a smaller score. -/
theorem pairwise_unique : (unique U list cloud remembered score).Pairwise fun a b => score a ≤ score b := by
  have hsorted : (unique U list cloud remembered score).Pairwise fun a b => (order U remembered
      ((PublicCloudQueue.found U list cloud).map (Server.id U)) score a b).isLE = true := by
    have : Std.TransCmp (order U remembered ((PublicCloudQueue.found U list cloud).map (Server.id U)) score) := by
      unfold order
      infer_instance
    exact pairwise_sortedWith _
  refine hsorted.imp ?_
  intro a b h
  have hscore : (compare (score a).toInt (score b).toInt).isLE = true := Ordering.isLE_left_of_isLE_then h
  rw [Int32.le_iff_toInt_le]
  exact Std.isLE_compare.mp hscore

/-- Ready are those that do not have to cool down. -/
theorem mem_ready {s : Server} : s ∈ ready U list cloud remembered cooling score ↔
    s ∈ distinctBy (Server.id U) list ∧ cooling s = false := by
  rw [ready, List.mem_filter, mem_unique, Bool.not_eq_true']

theorem mem_deferred {s : Server} : s ∈ deferred U list cloud remembered cooling score ↔
    s ∈ distinctBy (Server.id U) list ∧ cooling s = true := by
  rw [deferred, List.mem_filter, mem_unique]

/-- So a server is ready where the one that is asked for is. -/
theorem asked_mem_ready {s : Server} (h : s ∈ list) (hc : cooling (asked U list s) = false) :
    asked U list s ∈ ready U list cloud remembered cooling score :=
  mem_ready.mpr ⟨(asked_mem_distinctBy h).1, hc⟩

/-- The ids of the ranking are distinct and of the list. -/
theorem nodup_ranking : ((ready U list cloud remembered cooling score
    ++ deferred U list cloud remembered cooling score).map (Server.id U)).Nodup := by
  have hperm : (ready U list cloud remembered cooling score ++ deferred U list cloud remembered cooling score).Perm
      (unique U list cloud remembered score) := by
    -- ready and deferred are one list split by the cooling
    have hsplit := List.filter_append_perm (fun s => !cooling s) (unique U list cloud remembered score)
    simpa only [Bool.not_not, Bool.decide_eq_true, ready, deferred] using hsplit
  exact (hperm.map _).nodup_iff.mpr nodup_unique

theorem ranking_subset {s : Server} (h : s ∈ ready U list cloud remembered cooling score
    ++ deferred U list cloud remembered cooling score) : s ∈ list := by
  rcases List.mem_append.mp h with h | h
  · exact distinctBy_subset _ _ (mem_ready.mp h).1
  · exact distinctBy_subset _ _ (mem_deferred.mp h).1

/-! ## The front of the queue

In front are the best server, a few that the cloud names and the ready ones in their order. As
long as any server is ready nothing that has to cool down is among them. -/

section
variable (U list cloud remembered cooling score)

/-- The leader, the slots of the cloud and the ready servers. -/
def front : List Server :=
  let locals := ready U list cloud remembered cooling score ++ deferred U list cloud remembered cooling score
  PublicCloudQueue.leader U locals list
    ++ PublicCloudQueue.reserved U (eligibleCloud U list cloud remembered cooling score) list FIRST (FIRST / 2)
      (PublicCloudQueue.leader U locals list)
    ++ PublicCloudQueue.found U list (ready U list cloud remembered cooling score)

/-- What comes after it. -/
def back : List Server :=
  PublicCloudQueue.found U list (deferred U list cloud remembered cooling score) ++ PublicCloudQueue.found U list list

/-- The candidates are the front and the back, thinned out by hosts to eight. -/
theorem candidates_eq : candidates U list cloud remembered cooling score
    = diverse (Server.id U) (ServerChoice.host U)
      (front U list cloud remembered cooling score ++ back U list cloud remembered cooling score) 8 := by
  have hids : ((PublicCloudQueue.found U list (ready U list cloud remembered cooling score
      ++ deferred U list cloud remembered cooling score)).map (Server.id U)).Nodup := by
    rw [PublicCloudQueue.map_found fun s hs => List.mem_map_of_mem (ranking_subset hs)]
    exact nodup_ranking
  have happ : PublicCloudQueue.found U list (ready U list cloud remembered cooling score
      ++ deferred U list cloud remembered cooling score)
      = PublicCloudQueue.found U list (ready U list cloud remembered cooling score)
        ++ PublicCloudQueue.found U list (deferred U list cloud remembered cooling score) := List.filterMap_append
  rw [candidates, PublicCloudQueue.merge_eq _ _ _ _ _ (by decide), PublicCloudQueue.queue, distinctBy_of_nodup hids, happ,
    front, back]
  simp only [List.append_assoc]
  rfl

end

theorem keyed_front : Keyed (Server.id U) (front U list cloud remembered cooling score) := by
  have hfront : PublicCloudQueue.LookedUp U list (front U list cloud remembered cooling score) := by
    rw [front]
    refine (PublicCloudQueue.LookedUp.append ?_ ?_).append ?_
    · exact (PublicCloudQueue.lookedUp_found _ _).subset PublicCloudQueue.leader_subset
    · exact (PublicCloudQueue.lookedUp_found _ _).subset PublicCloudQueue.reserved_subset
    · exact PublicCloudQueue.lookedUp_found _ _
  exact hfront.keyed

/-- The best of the ready servers leads. -/
theorem leader_ready {s : Server} {rest : List Server} (h : ready U list cloud remembered cooling score = s :: rest) :
    ∃ first, PublicCloudQueue.leader U (ready U list cloud remembered cooling score
      ++ deferred U list cloud remembered cooling score) list = [first] ∧ first.id U = s.id U := by
  -- the first of the ready ones is listed, and so found
  have hr : s ∈ ready U list cloud remembered cooling score := by
    rw [h]
    exact List.mem_cons_self
  have hs : s ∈ list := ranking_subset (List.mem_append_left _ hr)
  apply PublicCloudQueue.leader_eq
  rw [h, List.cons_append, List.find?_cons, decide_eq_true (List.mem_map_of_mem hs)]

/-- Everything in front is ready, once anything is. -/
theorem asked_of_mem_front (h : ready U list cloud remembered cooling score ≠ []) {t : Server}
    (ht : t ∈ front U list cloud remembered cooling score) :
    asked U list t ∈ ready U list cloud remembered cooling score := by
  -- it is enough to find a ready server with the same id
  have hready : ∀ s ∈ ready U list cloud remembered cooling score, s.id U = t.id U →
      asked U list t ∈ ready U list cloud remembered cooling score := by
    intro s hs hid
    rw [asked_of_mem_distinctBy (mem_ready.mp hs).1 hid.symm]
    exact hs
  rw [front, List.mem_append, List.mem_append] at ht
  rcases ht with (ht | ht) | ht
  · obtain ⟨s, rest, hcons⟩ := List.exists_cons_of_ne_nil h
    obtain ⟨first, hleader, hid⟩ := leader_ready hcons
    rw [hleader, List.mem_singleton] at ht
    apply hready s
    · rw [hcons]
      exact List.mem_cons_self
    · rw [ht, hid]
  · obtain ⟨-, -, hint, hhint, hid⟩ := PublicCloudQueue.mem_found (PublicCloudQueue.reserved_subset ht)
    obtain ⟨-, hany⟩ := List.mem_filter.mp hhint
    obtain ⟨s, hs, heq⟩ := List.any_eq_true.mp hany
    exact hready s hs ((decide_eq_true_eq.mp heq).trans hid)
  · obtain ⟨-, -, s, hs, hid⟩ := PublicCloudQueue.mem_found ht
    exact hready s hs hid

/-! ## What is tried

The queue is thinned out by hosts and cut to eight. That keeps its first server and, as the front
is long enough or all there is, no server that cools down comes before a ready one on a host of
its own. -/

/-- The first one tried is ready and of least score. -/
theorem head?_candidates {s : Server} (hs : s ∈ list) (hc : cooling (asked U list s) = false) :
    ∃ first, (candidates U list cloud remembered cooling score).head? = some first ∧
      cooling (asked U list first) = false ∧
      ∀ x ∈ list, cooling (asked U list x) = false → score (asked U list first) ≤ score (asked U list x) := by
  -- a server that is not cooling makes the ready list nonempty
  have hready : asked U list s ∈ ready U list cloud remembered cooling score := asked_mem_ready hs hc
  obtain ⟨best, rest, hcons⟩ := List.exists_cons_of_ne_nil (List.ne_nil_of_mem hready)
  obtain ⟨first, hleader, hid⟩ := leader_ready hcons
  have hbest : best ∈ ready U list cloud remembered cooling score := by
    rw [hcons]
    exact List.mem_cons_self
  have hasked : asked U list first = best := asked_of_mem_distinctBy (mem_ready.mp hbest).1 hid
  refine ⟨first, ?_, ?_, ?_⟩
  · rw [candidates_eq, head?_diverse, front, hleader]
    rfl
  · rw [hasked]
    exact (mem_ready.mp hbest).2
  · intro x hx hxc
    have hsorted : (ready U list cloud remembered cooling score).Pairwise fun a b => score a ≤ score b :=
      pairwise_unique.sublist List.filter_sublist
    have hmem : asked U list x ∈ ready U list cloud remembered cooling score := asked_mem_ready hx hxc
    rw [hasked]
    rw [hcons] at hsorted hmem
    rcases List.mem_cons.mp hmem with heq | hmem
    · exact heq ▸ Int32.le_refl _
    · exact (List.pairwise_cons.mp hsorted).1 _ hmem

/-- **Cooling servers do not crowd out fresh hosts.** At most eight servers of the list
are tried, with distinct ids, a ready one of least score first; and when one that
cools down is tried, a ready one is tried on every host that has one. -/
theorem candidates_prefer_ready (U : Jvm) (list cloud : List Server) (remembered : List String)
    (cooling : Server → Bool) (score : Server → Int32) :
    (candidates U list cloud remembered cooling score).length ≤ 8 ∧
      ((candidates U list cloud remembered cooling score).map (Server.id U)).Nodup ∧
      candidates U list cloud remembered cooling score ⊆ list ∧
      (∀ s ∈ list, cooling (asked U list s) = false →
        ∃ first, (candidates U list cloud remembered cooling score).head? = some first ∧
          cooling (asked U list first) = false ∧
          ∀ x ∈ list, cooling (asked U list x) = false → score (asked U list first) ≤ score (asked U list x)) ∧
      ∀ d ∈ candidates U list cloud remembered cooling score, cooling (asked U list d) = true →
        ∀ s ∈ list, cooling (asked U list s) = false →
          ∃ t ∈ candidates U list cloud remembered cooling score, cooling (asked U list t) = false ∧
            ServerChoice.host U t = ServerChoice.host U (tried U list s) := by
  refine ⟨?_, ?_, ?_, fun s hs hc => head?_candidates hs hc, ?_⟩
  · rw [candidates_eq, length_diverse]
    exact Nat.min_le_left _ _
  · rw [candidates_eq]
    exact nodup_diverse _ _ _ _
  · intro t ht
    have hlook : PublicCloudQueue.LookedUp U list (PublicCloudQueue.queue U (ready U list cloud remembered cooling score
        ++ deferred U list cloud remembered cooling score) (eligibleCloud U list cloud remembered cooling score) list FIRST
        (FIRST / 2)) := PublicCloudQueue.lookedUp_queue
    rw [candidates, PublicCloudQueue.merge_eq _ _ _ _ _ (by decide)] at ht
    exact hlook.mem_catalog (diverse_subset _ _ _ _ ht)
  · intro d hd hdc s hs hc
    have hmem : asked U list s ∈ ready U list cloud remembered cooling score := asked_mem_ready hs hc
    have hfront : ∀ t ∈ front U list cloud remembered cooling score, cooling (asked U list t) = false :=
      fun t ht => (mem_ready.mp (asked_of_mem_front (List.ne_nil_of_mem hmem) ht)).2
    -- the cooling one is not in front, the one to be tried on the host of `s` is
    have hback : d ∉ front U list cloud remembered cooling score := by
      intro hin
      rw [hfront d hin] at hdc
      cases hdc
    have htried : tried U list s ∈ front U list cloud remembered cooling score := by
      apply List.mem_append_right
      apply PublicCloudQueue.mem_found_of_allowed hmem
      rw [(asked_mem_distinctBy hs).2]
      exact allowed_tried hs
    rw [candidates_eq] at hd ⊢
    obtain ⟨t, ht, htf, hhost⟩ := group_mem_diverse (ServerChoice.host U) keyed_front hd hback htried
    exact ⟨t, ht, hfront t htf, hhost⟩

/-- Of three servers, one cooling down, the ready ones come first. -/
theorem candidates_prefer_ready_three :
    let a : Server := { name := "a", protocol := "vless", address := "a.com", port := 443, secret := "s" }
    let b : Server := { a with name := "b", address := "b.com" }
    let c : Server := { a with name := "c", address := "c.com" }
    let tries := candidates Jvm.ascii [a, b, c] [] [] (fun s => decide (s.name = "a")) fun _ => 0
    tries = [b, c, a] ∧
      ∃ t ∈ tries, decide ((asked Jvm.ascii [a, b, c] t).name = "a") = false ∧
        ServerChoice.host Jvm.ascii t = ServerChoice.host Jvm.ascii (tried Jvm.ascii [a, b, c] c) := by
  intro a b c tries
  have htries : tries = [b, c, a] := by decide +kernel
  refine ⟨htries, ?_⟩
  apply (candidates_prefer_ready Jvm.ascii [a, b, c] [] [] (fun s => decide (s.name = "a")) fun _ => 0).2.2.2.2 a
  · show a ∈ tries
    rw [htries]
    simp
  · decide +kernel
  · simp
  · decide +kernel

/-- The first server under an id is asked and the last one is tried, so a cooling server
may come first although another one of the list does not cool down. -/
theorem cooling_duplicate_first :
    let fresh : Server := { name := "new", protocol := "vless", address := "a.com", port := 443, secret := "s" }
    let old : Server := { fresh with name := "old" }
    let cooling : Server → Bool := fun s => decide (s.name = "old")
    candidates Jvm.ascii [fresh, old] [] [] cooling (fun _ => 0) = [old] ∧ cooling fresh = false ∧
      cooling old = true := by
  decide +kernel

end

end ConnectPolicy

end VlessCard
