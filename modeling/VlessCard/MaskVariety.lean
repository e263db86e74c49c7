/-
`Masks.diverse`: the masks of a search in the order they are tried, a trick of every kind first.

The masks are queued by kind, in the order of the list, and the queues are gone through in
rounds. So no mask is lost or tried twice, masks of one kind keep their order, and however early
a search stops, no kind is two tries ahead of one that still has masks to try.
-/
import VlessCard.MaskTuning
import VlessCard.RoundRobin

set_option autoImplicit false

namespace VlessCard.Masks

/-! ## Kinds

Masks made by the user or bred by the program are of the kind of their trick, and those of the
program are told apart more finely. -/

/-- A mask, and whether the user made it or the program bred it. -/
structure SearchMask extends NamedMask where
  custom : Bool := false
  auto : Bool := false

/-- `family`, of a mask that says where it is from. -/
def familyOf (m : SearchMask) : String :=
  if m.custom then "my" else if m.auto then "auto" else family [] m.toNamedMask

/-- `kind`: masks of the brand are told apart by their trick. -/
def kind (m : SearchMask) : String :=
  if familyOf m ≠ "brand" then familyOf m
  else if m.sni ≠ "" then "sni"
  else if 0 < m.mss then "mss"
  else if m.mux then "mux"
  else if m.alpn ≠ "" then "alpn"
  else if m.tfo then "tfo"
  else "v6"

/-! ## `diverse`

The source puts the masks into queues by kind and takes one of each in turn. The queues stand in
the order in which the kinds first came up. -/

/-- `groups.getOrPut(kind(it)) \x7b ArrayDeque() \x7d.addLast(it)`. -/
def group (groups : OrderedMap String (List SearchMask)) (m : SearchMask) : OrderedMap String (List SearchMask) :=
  groups.put (kind m) ((groups.get? (kind m)).getD [] ++ [m])

def groups (list : List SearchMask) : OrderedMap String (List SearchMask) := list.foldl group .empty

def diverse (list : List SearchMask) : List SearchMask := RoundRobin.drain (groups list).entries

/-! ## The groups

Grouping keeps the order within a kind, so the queues are the parts of the list. What taking
turns does to them is in the library. -/

theorem groups_append_singleton (list : List SearchMask) (m : SearchMask) :
    groups (list ++ [m]) = group (groups list) m := by
  unfold groups
  rw [List.foldl_append]
  rfl

/-- A group is the masks of its kind, in order. -/
theorem queue_groups (list : List SearchMask) (k : String) :
    RoundRobin.queue (groups list).entries k = list.filter fun m => decide (kind m = k) := by
  induction list using List.reverseRecOn with
  | nil => rfl
  | append_singleton list m ih =>
    have hput : RoundRobin.queue (groups (list ++ [m])).entries k =
        if kind m = k then RoundRobin.queue (groups list).entries (kind m) ++ [m]
        else RoundRobin.queue (groups list).entries k := by
      unfold RoundRobin.queue
      rw [groups_append_singleton, group, OrderedMap.put, Assoc.get?_put]
      split <;> rfl
    rw [hput, List.filter_append]
    by_cases hk : kind m = k
    · rw [if_pos hk, hk, ih]
      simp [hk]
    · rw [if_neg hk, ih]
      simp [hk]

theorem sorted_groups (list : List SearchMask) : RoundRobin.Sorted kind (groups list).entries := by
  refine ⟨(groups list).nodup, ?_⟩
  intro q hq m hm
  have hqueue : RoundRobin.queue (groups list).entries q.1 = q.2 := by
    rw [RoundRobin.queue, Assoc.get?_of_mem (groups list).nodup hq]
    rfl
  rw [← hqueue, queue_groups] at hm
  exact of_decide_eq_true (List.mem_filter.mp hm).2

/-! ## A fair permutation

With the queues known the order is a round robin of the kinds: nothing is lost, and no kind comes
again before the others had their turn. -/

/-- **The search order is a fair permutation.** It is the masks of the list, as often as they are
there; masks of one kind are in the order of the list; and at no point has a kind had two tries
more than another, unless the other has no masks left. -/
theorem diverse_fair (list : List SearchMask) :
    List.Perm (diverse list) list ∧
      (∀ k, (diverse list).filter (fun m => decide (kind m = k)) = list.filter fun m => decide (kind m = k)) ∧
      ∀ pre, pre <+: diverse list → ∀ j k : String,
        pre.countP (fun m => decide (kind m = k)) + 1 < pre.countP (fun m => decide (kind m = j)) →
          pre.countP (fun m => decide (kind m = k)) = list.countP fun m => decide (kind m = k) := by
  have hkinds : ∀ k, (diverse list).filter (fun m => decide (kind m = k)) =
      list.filter fun m => decide (kind m = k) := by
    intro k
    rw [diverse, RoundRobin.filter_drain (sorted_groups list), queue_groups]
  refine ⟨?_, hkinds, ?_⟩
  · -- a mask is as often in the order as it is among those of its kind
    classical
    rw [List.perm_iff_count]
    intro m
    have hkeep : ∀ l : List SearchMask, (l.filter fun x => decide (kind x = kind m)).count m = l.count m := fun l =>
      List.count_filter (by simp)
    rw [← hkeep, hkinds, hkeep]
  · intro pre hpre j k hlt
    have hall := RoundRobin.exhausted_of_lt (sorted_groups list) hpre hlt
    rw [queue_groups, ← List.countP_eq_length_filter] at hall
    exact hall

end VlessCard.Masks
