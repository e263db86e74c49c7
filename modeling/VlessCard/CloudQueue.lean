/-
`PublicCloudQueue.kt`: the bounded queue of servers that are tried next.

A queue is put together from a local order, from what the cloud suggests and from
the whole catalogue, and then cut to different hosts. Servers are told apart by id,
and everything that enters a queue is looked up in the catalogue first, so a queue
holds one server for an id: the last one the catalogue has under it. That is what
lets the general facts about such cuts be used here, first of all for the slot of a
server the cloud names.
-/
import VlessCard.ServerChoice

set_option autoImplicit false

namespace VlessCard

open Diversity KeyedList

namespace PublicCloudQueue

section
variable (U : Jvm)

/-- `allowed[id]` with `allowed = catalog.associateBy { it.id }`. -/
def allowed (catalog : List Server) (id : String) : Option Server :=
  (OrderedMap.associateBy (Server.id U) catalog).get? id

/-- `l.mapNotNull { allowed[it.id] }`. -/
def found (catalog l : List Server) : List Server := l.filterMap fun s => allowed U catalog (s.id U)

def merge (locals cloud catalog : List Server) (limit slots : ℤ) : List Server :=
  if limit ≤ 0 then []
  else
    let ranked := distinctBy (Server.id U) (found U catalog locals)
    let challengers := distinctBy (Server.id U) (found U catalog cloud)
    let head := ranked.take 1
    let reserved := ServerChoice.diverse U (challengers.filter fun s => head.all fun h => h.id U ≠ s.id U)
      (min (max slots 0) (limit - head.length))
    ServerChoice.diverse U
      (distinctBy (Server.id U) (head ++ reserved ++ ranked ++ found U catalog catalog)) limit

/-! ## One server for an id

Servers are looked up by their ids in a map of the catalogue, so two servers with one id become
the later of them. Everything in the queue was looked up, so in it an id does tell the server. -/

variable {U}

/-- What is found in the catalogue was asked for, and is allowed. -/
theorem mem_found {catalog l : List Server} {t : Server} (h : t ∈ found U catalog l) :
    allowed U catalog (t.id U) = some t ∧ t ∈ catalog ∧ ∃ s ∈ l, s.id U = t.id U := by
  obtain ⟨s, hs, hget⟩ := List.mem_filterMap.mp h
  obtain ⟨hmem, hid⟩ := OrderedMap.of_get?_associateBy hget
  exact ⟨hid ▸ hget, hmem, s, hs, hid.symm⟩

theorem mem_found_of_allowed {catalog l : List Server} {s t : Server} (hs : s ∈ l)
    (h : allowed U catalog (s.id U) = some t) : t ∈ found U catalog l :=
  List.mem_filterMap.mpr ⟨s, hs, h⟩

/-- A server whose id is in the catalogue is. -/
theorem exists_allowed {catalog : List Server} {s : Server} (h : s.id U ∈ catalog.map (Server.id U)) :
    ∃ t, allowed U catalog (s.id U) = some t := OrderedMap.exists_get?_associateBy h

/-- Everything in the list was looked up in the catalogue. -/
def LookedUp (U : Jvm) (catalog l : List Server) : Prop := ∀ t ∈ l, allowed U catalog (t.id U) = some t

/-- Among servers that were looked up an id tells the server. -/
theorem LookedUp.keyed {catalog l : List Server} (h : LookedUp U catalog l) : Keyed (Server.id U) l := by
  intro a ha b hb hid
  have hab : some a = some b := (h a ha).symm.trans (hid ▸ h b hb)
  exact Option.some.inj hab

theorem LookedUp.subset {catalog l m : List Server} (h : LookedUp U catalog l) (hs : m ⊆ l) :
    LookedUp U catalog m := fun t ht => h t (hs ht)

theorem LookedUp.mem_catalog {catalog l : List Server} (h : LookedUp U catalog l) {t : Server} (ht : t ∈ l) :
    t ∈ catalog := (OrderedMap.of_get?_associateBy (h t ht)).1

theorem lookedUp_found (catalog l : List Server) : LookedUp U catalog (found U catalog l) :=
  fun _ ht => (mem_found ht).1

/-- Two lists that were looked up are so together. -/
theorem LookedUp.append {catalog l m : List Server} (hl : LookedUp U catalog l) (hm : LookedUp U catalog m) :
    LookedUp U catalog (l ++ m) := by
  intro t ht
  rcases List.mem_append.mp ht with h | h
  · exact hl t h
  · exact hm t h

/-- The first of a list that the catalogue has is the first that is found. -/
theorem head?_found {catalog l : List Server} {s : Server}
    (h : l.find? (fun s => decide (s.id U ∈ catalog.map (Server.id U))) = some s) :
    (found U catalog l).head? = allowed U catalog (s.id U) := by
  obtain ⟨hs, pre, post, rfl, hpre⟩ := List.find?_eq_some_iff_append.mp h
  obtain ⟨t, ht⟩ := exists_allowed (decide_eq_true_eq.mp hs)
  have hnone : found U catalog pre = [] := by
    rw [found, List.filterMap_eq_nil_iff]
    intro x hx
    cases hget : allowed U catalog (x.id U) with
    | none => rfl
    | some y =>
      obtain ⟨hy, hid⟩ := OrderedMap.of_get?_associateBy hget
      have hin : x.id U ∈ catalog.map (Server.id U) := List.mem_map.mpr ⟨y, hy, hid⟩
      have hnot := hpre x hx
      rw [decide_eq_true hin] at hnot
      cases hnot
  have happ : found U catalog (pre ++ s :: post) = found U catalog pre ++ found U catalog (s :: post) :=
    List.filterMap_append
  have hcons : found U catalog (s :: post) = t :: found U catalog post := List.filterMap_cons_some ht
  rw [happ, hnone, List.nil_append, hcons, List.head?_cons, ht]

/-- What is named with ids of the catalogue is all found. -/
theorem map_found {catalog l : List Server} (h : ∀ s ∈ l, s.id U ∈ catalog.map (Server.id U)) :
    (found U catalog l).map (Server.id U) = l.map (Server.id U) := by
  induction l with
  | nil => rfl
  | cons s l ih =>
    obtain ⟨t, ht⟩ := exists_allowed (h s List.mem_cons_self)
    have hcons : found U catalog (s :: l) = t :: found U catalog l := List.filterMap_cons_some ht
    rw [hcons, List.map_cons, List.map_cons, ih fun x hx => h x (List.mem_cons_of_mem _ hx),
      (OrderedMap.of_get?_associateBy ht).2]

/-! ## The queue before it is cut

Before the cut the queue is the head, the reserved slots and the rest of both orders, each server
once. So it has as many servers as the catalogue has ids, and the cut by hosts only reorders and
shortens it. -/

section
variable (U) (locals cloud catalog : List Server) (limit slots : ℤ)

/-- The slots of the cloud behind the servers of `head`. -/
def reserved (head : List Server) : List Server :=
  ServerChoice.diverse U ((distinctBy (Server.id U) (found U catalog cloud)).filter fun s =>
    head.all fun h => h.id U ≠ s.id U) (min (max slots 0) (limit - head.length))

/-- The first of the local order. -/
def leader : List Server := (distinctBy (Server.id U) (found U catalog locals)).take 1

/-- What `merge` cuts. -/
def queue : List Server :=
  leader U locals catalog ++ reserved U cloud catalog limit slots (leader U locals catalog)
    ++ distinctBy (Server.id U) (found U catalog locals) ++ found U catalog catalog

variable {limit}

/-- The merge is a queue, thinned out by hosts. -/
theorem merge_eq (h : 0 < limit) : merge U locals cloud catalog limit slots
    = diverse (Server.id U) (ServerChoice.host U) (queue U locals cloud catalog limit slots) limit.toNat := by
  rw [merge, if_neg (by omega)]
  show ((spread _ (distinctBy _ (distinctBy _ (queue U locals cloud catalog limit slots)))).take _) = _
  rw [distinctBy_of_nodup (nodup_distinctBy _ _)]
  rfl

variable {locals cloud catalog} {U} {slots}

theorem leader_subset : leader U locals catalog ⊆ found U catalog locals := fun _ ht =>
  distinctBy_subset _ _ (List.mem_of_mem_take ht)

/-- The reserved slots are for servers from the cloud. -/
theorem reserved_subset {head : List Server} :
    reserved U cloud catalog limit slots head ⊆ found U catalog cloud := fun _ ht =>
  distinctBy_subset _ _ (List.mem_of_mem_filter (diverse_subset _ _ _ _ ht))

theorem lookedUp_queue : LookedUp U catalog (queue U locals cloud catalog limit slots) := by
  refine (((LookedUp.append ?_ ?_).append ?_).append ?_)
  · exact (lookedUp_found catalog locals).subset leader_subset
  · exact (lookedUp_found catalog cloud).subset reserved_subset
  · exact (lookedUp_found catalog locals).subset (distinctBy_subset _ _)
  · exact lookedUp_found catalog catalog

/-- The queue has the ids of the catalogue. -/
theorem mem_ids_queue (i : String) :
    i ∈ (queue U locals cloud catalog limit slots).map (Server.id U) ↔ i ∈ catalog.map (Server.id U) := by
  constructor
  · intro hi
    obtain ⟨t, ht, rfl⟩ := List.mem_map.mp hi
    exact List.mem_map_of_mem (lookedUp_queue.mem_catalog ht)
  · intro hi
    rw [queue, List.map_append, map_found fun s hs => List.mem_map_of_mem hs]
    exact List.mem_append_right _ hi

/-- **It has as many servers as the catalogue has ids.** -/
theorem length_distinct_queue : (distinctBy (Server.id U) (queue U locals cloud catalog limit slots)).length
    = (catalog.map (Server.id U)).eraseDups.length := by
  rw [← List.length_map (f := Server.id U)]
  apply List.Perm.length_eq
  rw [List.perm_ext_iff_of_nodup (nodup_distinctBy _ _) (nodup_eraseDups _)]
  intro i
  rw [mem_keys_distinctBy, mem_ids_queue, List.mem_eraseDups]

end

/-! ## What a queue holds

The bound, the distinct ids and the place of the cloud's server come from the queue before the
cut and from what the cut by hosts is known to do. -/

/-- The head of the local order, when the catalogue has one of it. -/
theorem leader_eq {locals catalog : List Server} {s : Server}
    (h : locals.find? (fun s => decide (s.id U ∈ catalog.map (Server.id U))) = some s) :
    ∃ first, leader U locals catalog = [first] ∧ first.id U = s.id U := by
  obtain ⟨hs, -⟩ := List.find?_eq_some_iff_append.mp h
  obtain ⟨first, hfirst⟩ := exists_allowed (decide_eq_true_eq.mp hs)
  refine ⟨first, ?_, (OrderedMap.of_get?_associateBy hfirst).2⟩
  obtain ⟨rest, hrest⟩ := List.head?_eq_some_iff.mp ((head?_found h).trans hfirst)
  rw [leader, hrest, distinctBy, List.take_succ_cons, List.take_zero]

/-- A cloud server on another host gets a slot. -/
theorem exists_mem_reserved {cloud catalog : List Server} {limit slots : ℤ} {first c t : Server} (hl : 3 ≤ limit)
    (hs : 2 ≤ slots) (hfirst : allowed U catalog (first.id U) = some first) (hc : c ∈ cloud)
    (ht : allowed U catalog (c.id U) = some t) (hhost : ServerChoice.host U t ≠ ServerChoice.host U first) :
    ∃ y ∈ reserved U cloud catalog limit slots [first], ServerChoice.host U y ≠ ServerChoice.host U first := by
  have hlook := lookedUp_found catalog cloud (U := U)
  have hmem : t ∈ (distinctBy (Server.id U) (found U catalog cloud)).filter
      fun s => [first].all fun h => h.id U ≠ s.id U := by
    rw [List.mem_filter]
    refine ⟨hlook.keyed.mem_distinctBy.mpr (mem_found_of_allowed hc ht), ?_⟩
    -- servers with one id are one server and stand on one host
    have hne : first.id U ≠ t.id U := by
      intro hid
      have hsame : some first = some t := by
        rw [← hfirst, hid, hlook t (mem_found_of_allowed hc ht)]
      exact hhost (by rw [Option.some.inj hsame])
    simpa using hne
  have hkeyed : Keyed (Server.id U) ((distinctBy (Server.id U) (found U catalog cloud)).filter
      fun s => [first].all fun h => h.id U ≠ s.id U) :=
    hlook.keyed.subset (List.Subset.trans (List.filter_subset_self _) (distinctBy_subset _ _))
  have hroom : ∃ n, (min (max slots 0) (limit - ([first].length : ℕ))).toNat = n + 2 := by
    have hlen : (([first] : List Server).length : ℤ) = 1 := rfl
    rw [hlen]
    exact ⟨(min (max slots 0) (limit - 1)).toNat - 2, by omega⟩
  obtain ⟨n, hn⟩ := hroom
  rw [reserved, ServerChoice.diverse, hn]
  exact exists_mem_diverse_ne (ServerChoice.host U) hkeyed hmem hhost

/-- **The cloud suggests.** A queue has as many servers as fit, each of the catalogue
and none twice; the first of the local order leads it, and a server the cloud
names on another host is in it. The catalogue's server under an id is the last one
it has, as `associateBy` keeps it. -/
theorem merge_bounded (U : Jvm) (locals cloud catalog : List Server) {limit slots : ℤ} (hl : 3 ≤ limit)
    (hs : 2 ≤ slots) :
    (merge U locals cloud catalog limit slots).length
        = min limit.toNat (catalog.map (Server.id U)).eraseDups.length ∧
      ((merge U locals cloud catalog limit slots).map (Server.id U)).Nodup ∧
      merge U locals cloud catalog limit slots ⊆ catalog ∧
      ∀ s, locals.find? (fun s => decide (s.id U ∈ catalog.map (Server.id U))) = some s →
        ∃ first, (merge U locals cloud catalog limit slots).head? = some first ∧ first.id U = s.id U ∧
          ∀ c ∈ cloud, ∀ t, (OrderedMap.associateBy (Server.id U) catalog).get? (c.id U) = some t →
            ServerChoice.host U t ≠ ServerChoice.host U first →
            ∃ y ∈ merge U locals cloud catalog limit slots, (∃ c ∈ cloud, c.id U = y.id U) ∧
              ServerChoice.host U y ≠ ServerChoice.host U first := by
  have hlook : LookedUp U catalog (queue U locals cloud catalog limit slots) := lookedUp_queue
  rw [merge_eq U locals cloud catalog slots (by omega)]
  refine ⟨?_, nodup_diverse _ _ _ _, ?_, ?_⟩
  · rw [length_diverse, length_distinct_queue]
  · intro t ht
    exact hlook.mem_catalog (diverse_subset _ _ _ _ ht)
  · intro s hfind
    obtain ⟨first, hleader, hid⟩ := leader_eq hfind
    have hqueue : queue U locals cloud catalog limit slots = first :: (reserved U cloud catalog limit slots [first]
        ++ distinctBy (Server.id U) (found U catalog locals) ++ found U catalog catalog) := by
      rw [queue, hleader]
      rfl
    have hfirst : allowed U catalog (first.id U) = some first := by
      apply hlook first
      rw [hqueue]
      exact List.mem_cons_self
    obtain ⟨n, hn⟩ : ∃ n, limit.toNat = n + 2 := ⟨limit.toNat - 2, by omega⟩
    refine ⟨first, ?_, hid, ?_⟩
    · rw [hn, head?_diverse, hqueue, List.head?_cons]
    · intro c hc t ht hhost
      obtain ⟨y, hy, hyhost⟩ := exists_mem_reserved hl hs hfirst hc ht hhost
      -- of the reserved ones the first on another host comes second
      have hsome : ((reserved U cloud catalog limit slots [first]).find?
          fun x => decide (ServerChoice.host U x ≠ ServerChoice.host U first)).isSome = true := by
        rw [List.find?_isSome]
        exact ⟨y, hy, decide_eq_true hyhost⟩
      obtain ⟨z, hz⟩ := Option.isSome_iff_exists.mp hsome
      have hzmem := mem_found (reserved_subset (List.mem_of_find?_eq_some hz))
      have hzhost := List.find?_some hz
      rw [decide_eq_true_eq] at hzhost
      refine ⟨z, ?_, hzmem.2.2, hzhost⟩
      rw [hn, hqueue]
      apply mem_diverse_of_find? (ServerChoice.host U)
      · rw [← hqueue]
        exact hlook.keyed
      · rw [List.append_assoc, List.find?_append, hz]
        rfl

/-- Three servers in a queue of three: the second place is the cloud's. -/
theorem merge_bounded_three :
    let a : Server := { name := "a", protocol := "vless", address := "a.com", port := 443, secret := "s" }
    let b : Server := { a with name := "b", address := "b.com" }
    let c : Server := { a with name := "c", address := "c.com" }
    merge Jvm.ascii [a, b] [c] [a, b, c] 3 2 = [a, c, b] ∧
      (merge Jvm.ascii [a, b] [c] [a, b, c] 3 2).length = 3 := by
  refine ⟨by decide +kernel, ?_⟩
  exact (merge_bounded Jvm.ascii _ _ _ (by decide) (by decide)).1.trans (by decide +kernel)

/-- Two servers may share an id, and then the cloud's suggestion is the later one, be it
on the leader's host: `0z.com` and `1[.com` have one hash code. -/
theorem shared_id_suggests_another :
    let a : Server := { name := "a", protocol := "vless", address := "0z.com", port := 443, secret := "s" }
    let b : Server := { a with name := "b", address := "1[.com" }
    let l : Server := { a with name := "l", address := "1[.com", port := 8443 }
    merge Jvm.ascii [l] [a] [l, a, b] 3 2 = [l, b] ∧ a ∈ [l, a, b] ∧
      ServerChoice.host Jvm.ascii a ≠ ServerChoice.host Jvm.ascii l ∧
      ∀ y ∈ merge Jvm.ascii [l] [a] [l, a, b] 3 2,
        ServerChoice.host Jvm.ascii y = ServerChoice.host Jvm.ascii l := by
  decide +kernel

end

end PublicCloudQueue

end VlessCard
