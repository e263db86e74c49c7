/-
A choice that does not flap. Candidates come ranked, the best first. The one chosen
last time keeps the lead while it is `near` the best; else the best leads. Behind the
lead come the others, by rank, up to a number.

What a caller relies on: the best is never left out once there is room for two, the
lead is near the best, and choosing again from the same candidates, the lead held,
gives the same choice. Nothing is said of what the ranking or `near` is made of.
-/
import VlessCard.KeyedList

set_option autoImplicit false

namespace VlessCard

namespace Hysteresis

open KeyedList

section
variable {α κ : Type} [DecidableEq κ] (key : α → κ) (near : α → α → Bool)

/-- What leads: the candidate held before, where the best leaves it near. -/
def lead (held : Option κ) (best : α) (ranked : List α) : α :=
  (ranked.find? fun a => decide (held = some (key a)) && near best a).getD best

/-- The keys of the lead and of those behind it, `n` at most. -/
def pinned (n : ℕ) (held : Option κ) : List α → List κ
  | [] => []
  | best :: rest =>
    ((distinctBy key (lead key near held best (best :: rest) :: best :: rest)).take n).map key

variable {key near} {held : Option κ} {best : α} {rest l : List α} {n : ℕ}

theorem lead_mem : lead key near held best (best :: rest) ∈ best :: rest := by
  unfold lead
  cases h : (best :: rest).find? fun a => decide (held = some (key a)) && near best a with
  | none => exact List.mem_cons_self
  | some a => exact List.mem_of_find?_eq_some h

theorem near_lead (hnear : near best best = true) : near best (lead key near held best l) = true := by
  unfold lead
  cases h : l.find? fun a => decide (held = some (key a)) && near best a with
  | none => exact hnear
  | some a =>
    have hp := List.find?_some h
    rw [Bool.and_eq_true] at hp
    exact hp.2

/-- Once it leads it is found again. -/
theorem lead_again (hkeys : ((best :: rest).map key).Nodup) (hnear : near best best = true) :
    lead key near (some (key (lead key near held best (best :: rest)))) best (best :: rest)
      = lead key near held best (best :: rest) := by
  generalize ha : lead key near held best (best :: rest) = a
  have hmem : a ∈ best :: rest := ha ▸ lead_mem
  have hreach : near best a = true := ha ▸ near_lead hnear
  have hfound : (best :: rest).find? (fun b => decide (some (key a) = some (key b)) && near best b) = some a := by
    obtain ⟨pre, post, hl⟩ := List.append_of_mem hmem
    rw [List.find?_eq_some_iff_append]
    refine ⟨by rw [decide_eq_true rfl, hreach]; rfl, pre, post, hl, ?_⟩
    intro b hb
    -- before `a` no candidate has its key
    rw [hl, List.map_append, List.map_cons] at hkeys
    have hne : key a ≠ key b := by
      intro heq
      apply List.disjoint_of_nodup_append hkeys (List.mem_map_of_mem hb)
      rw [← heq]
      exact List.mem_cons_self
    rw [decide_eq_false (fun h => hne (Option.some.inj h)), Bool.false_and]
    rfl
  rw [lead, hfound, Option.getD_some]

/-! ## The choice

The one chosen before leads as long as the best is not much better, and the best of the others
follow. When the choice is made again from the same candidates, it leads again. -/

/-- The lead comes first, then those with another key. -/
theorem pinned_cons (hkeys : ((best :: rest).map key).Nodup) :
    pinned key near (n + 1) held (best :: rest) = key (lead key near held best (best :: rest)) ::
      (((best :: rest).filter fun b => key b ≠ key (lead key near held best (best :: rest))).take n).map key := by
  rw [pinned, distinctBy, distinctBy_of_nodup hkeys, List.take_succ_cons, List.map_cons]

theorem length_pinned_le : (pinned key near n held l).length ≤ n := by
  cases l with
  | nil => exact Nat.zero_le n
  | cons best rest =>
    rw [pinned, List.length_map]
    exact List.length_take_le _ _

theorem nodup_pinned : (pinned key near n held l).Nodup := by
  cases l with
  | nil => exact List.nodup_nil
  | cons best rest =>
    rw [pinned, List.map_take]
    exact (nodup_distinctBy key _).sublist (List.take_sublist _ _)

theorem pinned_subset : pinned key near n held l ⊆ l.map key := by
  cases l with
  | nil => exact List.Subset.refl _
  | cons best rest =>
    intro k hk
    rw [pinned, List.mem_map] at hk
    obtain ⟨a, ha, rfl⟩ := hk
    have hmem := distinctBy_subset key _ (List.mem_of_mem_take ha)
    apply List.mem_map_of_mem
    rcases List.mem_cons.mp hmem with rfl | h
    · exact lead_mem
    · exact h

theorem head?_pinned (hkeys : ((best :: rest).map key).Nodup) :
    (pinned key near (n + 1) held (best :: rest)).head? = some (key (lead key near held best (best :: rest))) := by
  rw [pinned_cons hkeys, List.head?_cons]

/-- With room for two the best is chosen, in the lead or behind it. -/
theorem best_mem_pinned (hkeys : ((best :: rest).map key).Nodup) :
    key best ∈ pinned key near (n + 2) held (best :: rest) := by
  rw [pinned_cons hkeys]
  by_cases h : key best = key (lead key near held best (best :: rest))
  · rw [h]
    exact List.mem_cons_self
  · apply List.mem_cons_of_mem
    have hfirst : decide (key best ≠ key (lead key near held best (best :: rest))) = true := decide_eq_true h
    rw [List.filter_cons, if_pos hfirst, List.take_succ_cons, List.map_cons]
    exact List.mem_cons_self

/-- **Choosing again from the same candidates changes nothing.** -/
theorem pinned_again (hkeys : (l.map key).Nodup) (hnear : ∀ a ∈ l, near a a = true) :
    pinned key near n (pinned key near n held l).head? l = pinned key near n held l := by
  cases l with
  | nil => rfl
  | cons best rest =>
    cases n with
    | zero => rw [pinned, pinned, List.take_zero, List.take_zero]
    | succ n =>
      have hagain : lead key near (some (key (lead key near held best (best :: rest)))) best (best :: rest)
          = lead key near held best (best :: rest) := lead_again hkeys (hnear best List.mem_cons_self)
      rw [head?_pinned hkeys, pinned, hagain, pinned]

end

end Hysteresis

end VlessCard
