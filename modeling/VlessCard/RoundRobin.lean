/-
Round robin over queues: in every round each queue gives its first member, until all are empty.

The queues are under keys, and a member is of the key of its queue. A round takes one member of
every key that still has any, so after `r` rounds and a part of the next one a key has given `r`
or `r + 1` members, or all it had.
-/
import Mathlib
import VlessCard.OrderedMap

set_option autoImplicit false

namespace VlessCard.RoundRobin

variable {κ α : Type}

/-- One round. -/
def heads (qs : List (κ × List α)) : List α := qs.filterMap fun q => q.2.head?

/-- What a round leaves. -/
def tails (qs : List (κ × List α)) : List (κ × List α) := qs.map fun q => (q.1, q.2.tail)

/-- How much there is. -/
def size (qs : List (κ × List α)) : ℕ := (qs.map fun q => q.2.length).sum

/-- A round leaves no more than there was. -/
theorem size_tails_le (qs : List (κ × List α)) : size (tails qs) ≤ size qs := by
  induction qs with
  | nil => exact Nat.le_refl _
  | cons q qs ih =>
    have hq : q.2.tail.length = q.2.length - 1 := List.length_tail
    change q.2.tail.length + size (tails qs) ≤ q.2.length + size qs
    omega

/-- A round takes something as long as there is something. -/
theorem size_tails_lt {qs : List (κ × List α)} (h : qs.any (fun q => !q.2.isEmpty) = true) :
    size (tails qs) < size qs := by
  induction qs with
  | nil => cases h
  | cons q qs ih =>
    have hq : q.2.tail.length = q.2.length - 1 := List.length_tail
    have hqs := size_tails_le qs
    change q.2.tail.length + size (tails qs) < q.2.length + size qs
    by_cases hempty : q.2 = []
    · rw [List.any_cons, hempty] at h
      have hrest := ih h
      omega
    · have hpos : 0 < q.2.length := List.length_pos_iff.mpr hempty
      omega

/-- Rounds until the queues are empty. -/
def drain (qs : List (κ × List α)) : List α :=
  if qs.any fun q => !q.2.isEmpty then heads qs ++ drain (tails qs) else []
termination_by size qs
decreasing_by exact size_tails_lt ‹_›

/-! ## The queue of a key

In one round each key gives the first of its queue. What a key gives over all rounds is therefore
its queue, in its order. -/

/-- Every key has one queue, of members of that key. -/
structure Sorted (key : α → κ) (qs : List (κ × List α)) : Prop where
  nodup : (qs.map Prod.fst).Nodup
  of_key : ∀ q ∈ qs, ∀ a ∈ q.2, key a = q.1

theorem sorted_tails {key : α → κ} {qs : List (κ × List α)} (h : Sorted key qs) : Sorted key (tails qs) := by
  refine ⟨?_, ?_⟩
  · have hkeys : (tails qs).map Prod.fst = qs.map Prod.fst := by
      rw [tails, List.map_map]
      rfl
    rw [hkeys]
    exact h.nodup
  · intro q hq a ha
    obtain ⟨p, hp, rfl⟩ := List.mem_map.mp hq
    exact h.of_key p hp a (List.mem_of_mem_tail ha)

variable [DecidableEq κ]

/-- What is queued under a key. -/
def queue (qs : List (κ × List α)) (k : κ) : List α := (Assoc.get? qs k).getD []

/-- The queue of a key is the first that has it. -/
theorem queue_cons (q : κ × List α) (qs : List (κ × List α)) (k : κ) :
    queue (q :: qs) k = if q.1 = k then q.2 else queue qs k := by
  unfold queue
  rw [Assoc.get?_cons]
  split <;> rfl

theorem queue_tails (qs : List (κ × List α)) (k : κ) : queue (tails qs) k = (queue qs k).tail := by
  unfold queue tails
  rw [Assoc.get?_map_value List.tail]
  cases Assoc.get? qs k with
  | none => rfl
  | some q => rfl

/-- A key that is not there has an empty queue. -/
theorem queue_of_not_mem {qs : List (κ × List α)} {k : κ} (h : k ∉ qs.map Prod.fst) : queue qs k = [] := by
  unfold queue
  cases hget : Assoc.get? qs k with
  | none => rfl
  | some q => exact absurd (List.mem_map_of_mem (Assoc.mem_keys_of_get? hget)) h

variable {key : α → κ} {qs : List (κ × List α)}

/-- A round takes the first of the queue. -/
theorem filter_heads (h : Sorted key qs) (k : κ) :
    (heads qs).filter (fun a => decide (key a = k)) = (queue qs k).head?.toList := by
  induction qs with
  | nil => rfl
  | cons q qs ih =>
    have hnodup := List.nodup_cons.mp (List.map_cons ▸ h.nodup)
    have hrest := ih ⟨hnodup.2, fun p hp => h.of_key p (List.mem_cons_of_mem q hp)⟩
    have hcons : heads (q :: qs) = q.2.head?.toList ++ heads qs := by
      unfold heads
      rw [List.filterMap_cons]
      cases q.2.head? with
      | none => rfl
      | some a => rfl
    have hkey : ∀ a ∈ q.2.head?.toList, key a = q.1 := fun a ha =>
      h.of_key q List.mem_cons_self a (List.mem_of_mem_head? (Option.mem_toList.mp ha))
    rw [hcons, List.filter_append, hrest, queue_cons]
    by_cases hk : q.1 = k
    · have hnone : queue qs k = [] := queue_of_not_mem (hk ▸ hnodup.1)
      rw [if_pos hk, hnone, List.filter_eq_self.mpr fun a ha => decide_eq_true ((hkey a ha).trans hk)]
      exact List.append_nil _
    · rw [if_neg hk, List.filter_eq_nil_iff.mpr fun a ha hak => hk ((hkey a ha).symm.trans (of_decide_eq_true hak))]
      rfl

/-- **Each queue is emptied, in its order.** -/
theorem filter_drain (h : Sorted key qs) (k : κ) :
    (drain qs).filter (fun a => decide (key a = k)) = queue qs k := by
  fun_induction drain qs with
  | case1 qs _ ih =>
    rw [List.filter_append, filter_heads h k, ih (sorted_tails h), queue_tails]
    cases queue qs k with
    | nil => rfl
    | cons a q => rfl
  | case2 qs hempty =>
    have hnil : ∀ q ∈ qs, q.2 = [] := by
      intro q hq
      by_contra hne
      apply hempty
      rw [List.any_eq_true]
      exact ⟨q, hq, by simpa using hne⟩
    unfold queue
    cases hget : Assoc.get? qs k with
    | none => rfl
    | some q =>
      exact (hnil (k, q) (Assoc.mem_keys_of_get? hget)).symm

/-! ## Balance

After any number of rounds each key that is not exhausted has given as many as the others. Within
a round the count may be one more. -/

/-- How many members of a key there are. -/
def count (key : α → κ) (k : κ) (l : List α) : ℕ := l.countP fun a => decide (key a = k)

/-- Each key has given what `r` rounds take, or one more. -/
def Balanced (key : α → κ) (qs : List (κ × List α)) (r : ℕ) (l : List α) : Prop :=
  ∀ k, min r (queue qs k).length ≤ count key k l ∧ count key k l ≤ min (r + 1) (queue qs k).length

theorem count_heads (h : Sorted key qs) (k : κ) : count key k (heads qs) = min 1 (queue qs k).length := by
  unfold count
  rw [List.countP_eq_length_filter, filter_heads h]
  cases queue qs k with
  | nil => rfl
  | cons a q => simp

/-- **The rounds go evenly over the keys.** -/
theorem exists_balanced (h : Sorted key qs) {pre : List α} (hpre : pre <+: drain qs) :
    ∃ r, Balanced key qs r pre := by
  fun_induction drain qs generalizing pre with
  | case1 qs _ ih =>
    rcases List.prefix_or_prefix_of_prefix hpre (List.prefix_append (heads qs) _) with hshort | hlong
    · -- a part of the first round
      refine ⟨0, fun k => ⟨by omega, ?_⟩⟩
      rw [← count_heads h]
      exact hshort.sublist.countP_le
    · obtain ⟨rest, rfl⟩ := hlong
      obtain ⟨r, hr⟩ := ih (sorted_tails h) ((List.prefix_append_right_inj (heads qs)).mp hpre)
      refine ⟨r + 1, fun k => ?_⟩
      have hk := hr k
      have hhead := count_heads h k
      rw [queue_tails, List.length_tail] at hk
      unfold count at hk hhead ⊢
      rw [List.countP_append]
      omega
  | case2 qs _ =>
    rw [List.prefix_nil.mp hpre]
    exact ⟨0, fun k => ⟨by omega, Nat.zero_le _⟩⟩

/-- **A key is two ahead only of a key that is exhausted.** -/
theorem exhausted_of_lt (h : Sorted key qs) {pre : List α} (hpre : pre <+: drain qs) {j k : κ}
    (hlt : count key k pre + 1 < count key j pre) : count key k pre = (queue qs k).length := by
  obtain ⟨r, hr⟩ := exists_balanced h hpre
  have hj := hr j
  have hk := hr k
  omega

end VlessCard.RoundRobin
