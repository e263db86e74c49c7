/-
A block of memory as the list of what it holds.

A read or a write that leaves the block has no result. The rules say what an access does to a block
that is split at its ends, so that a chain of accesses is followed by splitting the block once.
-/
import Mathlib

set_option autoImplicit false

namespace VlessCard.Memory

variable {α : Type}

/-- `len` elements from `i` on. -/
def load (mem : List α) (i len : ℕ) : Option (List α) :=
  if i + len ≤ mem.length then some ((mem.drop i).take len) else none

def store (mem : List α) (i : ℕ) (data : List α) : Option (List α) :=
  if i + data.length ≤ mem.length then some (mem.take i ++ (data ++ mem.drop (i + data.length))) else none

/-- What is copied is read before anything is written. -/
def move (mem : List α) (dst src len : ℕ) : Option (List α) := (load mem src len).bind (store mem dst)

theorem load_append (A M B : List α) {i len : ℕ} (hi : A.length = i) (hlen : M.length = len) :
    load (A ++ (M ++ B)) i len = some M := by
  subst hi hlen
  unfold load
  rw [if_pos (by simp only [List.length_append]; omega), List.drop_left, List.take_left]

theorem store_append (A M B : List α) {i : ℕ} {data : List α} (hi : A.length = i) (hlen : M.length = data.length) :
    store (A ++ (M ++ B)) i data = some (A ++ (data ++ B)) := by
  subst hi
  unfold store
  rw [if_pos (by simp only [List.length_append]; omega), List.take_left, ← List.append_assoc A M B,
    List.drop_left' (by rw [List.length_append, hlen])]

/-- A row is moved up by a gap: the gap comes to hold what it held, or what is moved. -/
theorem move_up (A M gap B : List α) {dst src len : ℕ} (hsrc : A.length = src) (hlen : M.length = len)
    (hdst : src + gap.length = dst) :
    move (A ++ (M ++ (gap ++ B))) dst src len = some (A ++ ((M ++ gap).take gap.length ++ (M ++ B))) := by
  unfold move
  rw [load_append A M (gap ++ B) hsrc hlen, Option.bind_some]
  have hsplit : A ++ (M ++ (gap ++ B)) = (A ++ (M ++ gap).take gap.length) ++ ((M ++ gap).drop gap.length ++ B) := by
    rw [List.append_assoc, ← List.append_assoc (List.take _ _), List.take_append_drop, List.append_assoc]
  rw [hsplit, store_append, List.append_assoc]
  · rw [List.length_append, List.length_take, List.length_append]
    omega
  · rw [List.length_drop, List.length_append]
    omega

end VlessCard.Memory
