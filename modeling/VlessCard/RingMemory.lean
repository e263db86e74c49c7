/-
Places of a circle, and a memory in which such places are written and looked at.

A row of places goes on at zero where it comes to the end. Two rows that follow one another and
together are no longer than the circle have no place in common, so that the one may be written while
the other is still looked at.
-/
import Mathlib

set_option autoImplicit false

namespace VlessCard.RingMemory

variable {α : Type}

/-! ## Places

Places are counted from a start and wrap at the end of the memory. Rows of them are put together
and cut like lists. -/

/-- `n` places of a circle of `max`, from `start` on. -/
def places (max start n : ℕ) : List ℕ := (List.range n).map fun j => (start + j) % max

@[simp] theorem length_places (max start n : ℕ) : (places max start n).length = n := by
  unfold places
  rw [List.length_map, List.length_range]

@[simp] theorem places_zero (max start : ℕ) : places max start 0 = [] := rfl

/-- It makes no difference how often the ring was gone round before. -/
theorem places_mod (max start n : ℕ) : places max (start % max) n = places max start n := by
  unfold places
  simp only [Nat.mod_add_mod]

/-- Of two rows the second goes on where the first ends. -/
theorem places_add (max start m n : ℕ) : places max start (m + n) = places max start m ++ places max (start + m) n := by
  unfold places
  rw [List.range_add, List.map_append, List.map_map]
  simp only [Function.comp_def, Nat.add_assoc]

/-- The places behind the first are those from further on. -/
theorem drop_places {n k : ℕ} (hk : k ≤ n) (max start : ℕ) : (places max start n).drop k = places max (start + k) (n - k) := by
  rw [← Nat.add_sub_cancel' hk, places_add, List.drop_left' (length_places _ _ _), Nat.add_sub_cancel_left]

theorem lt_of_mem_places {max start n p : ℕ} (hmax : 0 < max) (hp : p ∈ places max start n) : p < max := by
  obtain ⟨j, -, rfl⟩ := List.mem_map.mp hp
  exact Nat.mod_lt _ hmax

/-- Two turns from one start, neither once around, end at one place only if they are the same. -/
theorem eq_of_mod_eq {max start i j : ℕ} (hi : i < max) (hj : j < max) (h : (start + i) % max = (start + j) % max) : i = j := by
  have hmod := Nat.ModEq.add_left_cancel' start h
  rwa [Nat.ModEq, Nat.mod_eq_of_lt hi, Nat.mod_eq_of_lt hj] at hmod

theorem nodup_places {max n : ℕ} (hn : n ≤ max) (start : ℕ) : (places max start n).Nodup := by
  refine List.Nodup.map_on (fun i hi j hj h => ?_) List.nodup_range
  rw [List.mem_range] at hi hj
  exact eq_of_mod_eq (by omega) (by omega) h

theorem not_mem_places {max start m n p : ℕ} (hmn : m + n ≤ max) (hp : p ∈ places max start m) :
    p ∉ places max (start + m) n := by
  have hnodup := nodup_places hmn start
  rw [places_add] at hnodup
  exact fun hq => (List.disjoint_of_nodup_append hnodup) hp hq

/-- A row that is no longer than the circle wraps at most once. -/
theorem places_eq {max start n : ℕ} (hstart : start < max) (hn : n ≤ max) :
    places max start n =
      if n ≤ max - start then List.range' start n
      else List.range' start (max - start) ++ List.range' 0 (n - (max - start)) := by
  have hrow : ∀ {a k : ℕ}, a + k ≤ max → places max a k = List.range' a k := by
    intro a k hak
    rw [List.range'_eq_map_range]
    refine List.map_congr_left fun j hj => ?_
    rw [List.mem_range] at hj
    exact Nat.mod_eq_of_lt (by omega)
  split
  · exact hrow (by omega)
  · have hsplit : n = (max - start) + (n - (max - start)) := by omega
    conv_lhs => rw [hsplit]
    rw [places_add, hrow (by omega), ← places_mod, Nat.add_sub_cancel' hstart.le, Nat.mod_self, hrow (by omega)]

/-- The places of segments, each an offset and a length, one after the other. -/
def spots (iov : List (ℕ × ℕ)) : List ℕ := iov.flatMap fun seg => List.range' seg.1 seg.2

/-- The segments of a list have so many places. -/
theorem length_spots (iov : List (ℕ × ℕ)) : (spots iov).length = (iov.map Prod.snd).sum := by
  unfold spots
  simp only [List.length_flatMap, List.length_range']

/-! ## A memory

Writing goes from place to place and has no result outside of the memory. What was written is
found there, if the places differ, and everything else is as before. -/

/-- What stands at some places. -/
def look (data : List α) (ps : List ℕ) : List (Option α) := ps.map (data[·]?)

/-- One looks at places one after the other. -/
theorem look_append (data : List α) (ps qs : List ℕ) : look data (ps ++ qs) = look data ps ++ look data qs := List.map_append

theorem look_congr {data data' : List α} {ps : List ℕ} (h : ∀ p ∈ ps, data'[p]? = data[p]?) : look data' ps = look data ps :=
  List.map_congr_left h

/-- One element after the other is written to its place; there is no result where a place is outside. -/
def write : List (ℕ × α) → List α → Option (List α)
  | [], data => some data
  | (p, x) :: more, data => if p < data.length then write more (data.set p x) else none

/-- **What is written stands there, and nothing else is changed.** -/
theorem write_spec {ps : List ℕ} (hnodup : ps.Nodup) {xs data : List α} (hlen : ps.length = xs.length)
    (hin : ∀ p ∈ ps, p < data.length) :
    ∃ data', write (ps.zip xs) data = some data' ∧ data'.length = data.length ∧ look data' ps = xs.map some ∧
      ∀ p ∉ ps, data'[p]? = data[p]? := by
  induction ps generalizing xs data with
  | nil =>
    obtain rfl := List.length_eq_zero_iff.mp hlen.symm
    exact ⟨data, rfl, rfl, rfl, fun _ _ => rfl⟩
  | cons p ps ih =>
    obtain ⟨x, xs, rfl⟩ : ∃ x ys, xs = x :: ys := List.exists_cons_of_length_eq_add_one hlen.symm
    obtain ⟨hp, hnodup⟩ := List.nodup_cons.mp hnodup
    have hpin := hin p List.mem_cons_self
    have hrest : ∀ q ∈ ps, q < (data.set p x).length := fun q hq => by
      rw [List.length_set]
      exact hin q (List.mem_cons_of_mem p hq)
    obtain ⟨data', hwrite, hlength, hlook, hframe⟩ := ih hnodup (Nat.succ.inj hlen) hrest
    refine ⟨data', ?_, hlength.trans List.length_set, ?_, ?_⟩
    · rw [List.zip_cons_cons, write, if_pos hpin, hwrite]
    · -- the first place is not written again
      rw [look, List.map_cons, hframe p hp, List.getElem?_set_self hpin, List.map_cons]
      exact congrArg _ hlook
    · intro q hq
      obtain ⟨hqp, hqs⟩ := not_or.mp (List.mem_cons.not.mp hq)
      rw [hframe q hqs, List.getElem?_set_ne (Ne.symm hqp)]

end VlessCard.RingMemory
