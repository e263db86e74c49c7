/-
Bisection with a test of whole lists: what the test refuses is cut in the middle, down to
single items.

`blocks` is the cut a list ends with. Its blocks are the list again, and every block is
accepted or is one item. Where the test is one of the items each, the accepted blocks
together are the accepted items, whatever the cut.
-/
import Mathlib.Data.List.Basic

set_option autoImplicit false

namespace VlessCard.Bisection

variable {α : Type}

/-- The halves of a list of two items or more are shorter than it. -/
theorem length_half {l : List α} (h : 2 ≤ l.length) :
    (l.take (l.length / 2)).length < l.length ∧ (l.drop (l.length / 2)).length < l.length := by
  rw [List.length_take, List.length_drop]
  omega

/-- The blocks a list is cut into. -/
def blocks (valid : List α → Bool) (l : List α) : List (List α) :=
  if l.length = 0 then []
  else if valid l then [l]
  else if l.length = 1 then [l]
  else blocks valid (l.take (l.length / 2)) ++ blocks valid (l.drop (l.length / 2))
termination_by l.length
decreasing_by
  · exact (length_half (by omega)).1
  · exact (length_half (by omega)).2

variable (valid : List α → Bool)

/-- A test that asks each item. -/
def Itemwise : Prop := ∀ l, valid l = true ↔ ∀ x ∈ l, valid [x] = true

/-- What a cut may end with: every block is accepted or one item. -/
def Settled (bs : List (List α)) : Prop := ∀ b ∈ bs, b ≠ [] ∧ (valid b = false → b.length = 1)

/-! ## The blocks are the list again

Cutting a list only puts boundaries into it: no item is lost, repeated or moved, and it stops
where a block is accepted or has one item left. -/

theorem flatten_blocks (l : List α) : (blocks valid l).flatten = l := by
  fun_induction blocks valid l with
  | case1 l hzero => exact (List.length_eq_zero_iff.mp hzero).symm
  | case2 l _ _ => exact List.append_nil l
  | case3 l _ _ _ => exact List.append_nil l
  | case4 l _ _ _ ihtake ihdrop =>
    rw [List.flatten_append, ihtake, ihdrop]
    exact List.take_append_drop (l.length / 2) l

/-- **Each block is taken as a whole, or is a single element.** -/
theorem settled_blocks (l : List α) : Settled valid (blocks valid l) := by
  fun_induction blocks valid l with
  | case1 l _ => exact fun b hb => absurd hb List.not_mem_nil
  | case2 l hzero hvalid =>
    intro b hb
    rw [List.mem_singleton.mp hb]
    refine ⟨fun hnil => hzero (by rw [hnil]; rfl), fun hfalse => ?_⟩
    rw [hvalid] at hfalse
    exact absurd hfalse (by decide)
  | case3 l hzero _ hone =>
    intro b hb
    rw [List.mem_singleton.mp hb]
    exact ⟨fun hnil => hzero (by rw [hnil]; rfl), fun _ => hone⟩
  | case4 l _ _ _ ihtake ihdrop =>
    intro b hb
    rcases List.mem_append.mp hb with h | h
    · exact ihtake b h
    · exact ihdrop b h

/-! ## What is kept of a cut

What is kept are the blocks that pass in the end. For a test that asks each item by itself the
boundaries do not matter, and what is kept is the list of the accepted items. -/

/-- The accepted blocks, together. -/
def kept (bs : List (List α)) : List α := (bs.filter valid).flatten

theorem kept_append (as bs : List (List α)) : kept valid (as ++ bs) = kept valid as ++ kept valid bs := by
  unfold kept
  rw [List.filter_append, List.flatten_append]

theorem kept_cons (b : List α) (bs : List (List α)) :
    kept valid (b :: bs) = (if valid b then b else []) ++ kept valid bs := by
  unfold kept
  by_cases h : valid b = true
  · rw [List.filter_cons_of_pos h, if_pos h, List.flatten_cons]
  · rw [List.filter_cons_of_neg h, if_neg h, List.nil_append]

theorem kept_sublist (bs : List (List α)) : List.Sublist (kept valid bs) bs.flatten := by
  induction bs with
  | nil => exact List.Sublist.refl []
  | cons b bs ih =>
    rw [kept_cons, List.flatten_cons]
    apply List.Sublist.append _ ih
    by_cases h : valid b = true
    · rw [if_pos h]
    · rw [if_neg h]
      exact List.nil_sublist b

/-- **Of a settled cut an itemwise test keeps the items it accepts.** -/
theorem kept_itemwise (hitem : Itemwise valid) {bs : List (List α)} (h : Settled valid bs) :
    kept valid bs = bs.flatten.filter fun x => valid [x] := by
  induction bs with
  | nil => rfl
  | cons b bs ih =>
    have hrest := ih fun c hc => h c (List.mem_cons_of_mem b hc)
    rw [kept_cons, List.flatten_cons, List.filter_append, hrest]
    congr 1
    by_cases hb : valid b = true
    · rw [if_pos hb]
      exact (List.filter_eq_self.mpr ((hitem b).mp hb)).symm
    · -- a refused block is one item, and the item is what is refused
      have hone := (h b List.mem_cons_self).2 (Bool.eq_false_iff.mpr hb)
      obtain ⟨x, rfl⟩ := List.length_eq_one_iff.mp hone
      rw [if_neg hb]
      exact (List.filter_eq_nil_iff.mpr fun y hy => by rwa [List.mem_singleton.mp hy]).symm

end VlessCard.Bisection
