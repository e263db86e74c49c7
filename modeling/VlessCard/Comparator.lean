/-
Comparators: three-way comparisons a program sorts and searches with.

`Std.TransCmp` says what a sort relies on, a total preorder, and Lean's library
builds such comparisons from keys (`compareOn`) and from one another
(`compareLex`). This file adds the two things a program does with one: a sort that
keeps the order of equals, and the first of the least. Both are executable, so
that a run can be evaluated.
-/
import Mathlib.Data.List.Sort

set_option autoImplicit false

namespace VlessCard

namespace Comparator

section
variable {α : Type} (cmp : α → α → Ordering)

/-- `sortedWith`: equals keep their order. -/
def sortedWith (l : List α) : List α := l.insertionSort fun a b => (cmp a b).isLE = true

/-- One step of `minWithOrNull`. -/
def least (m b : α) : α := if cmp m b = .gt then b else m

/-- `minWithOrNull`: the first of the least. -/
def minWithOrNull : List α → Option α
  | [] => none
  | a :: l => some (l.foldl (least cmp) a)

theorem perm_sortedWith (l : List α) : (sortedWith cmp l).Perm l := List.perm_insertionSort _ l

theorem mem_sortedWith {l : List α} {a : α} : a ∈ sortedWith cmp l ↔ a ∈ l :=
  (perm_sortedWith cmp l).mem_iff

theorem length_sortedWith (l : List α) : (sortedWith cmp l).length = l.length :=
  (perm_sortedWith cmp l).length_eq

/-! ## The first of the least

`minWithOrNull` goes through the list with the least element so far. What it ends with is in the
list and not greater than anything in it, and of several such elements it is the first. -/

theorem foldl_least_mem (l : List α) (a : α) : l.foldl (least cmp) a ∈ a :: l := by
  induction l generalizing a with
  | nil => exact List.mem_cons_self
  | cons b l ih =>
    rw [List.foldl_cons]
    rcases List.mem_cons.mp (ih (least cmp a b)) with h | h
    · rw [h, least]
      split
      · exact List.mem_cons_of_mem _ List.mem_cons_self
      · exact List.mem_cons_self
    · exact List.mem_cons_of_mem _ (List.mem_cons_of_mem _ h)

theorem mem_of_minWithOrNull {l : List α} {m : α} (h : minWithOrNull cmp l = some m) : m ∈ l := by
  cases l with
  | nil => cases h
  | cons a l =>
    rw [minWithOrNull, Option.some.injEq] at h
    exact h ▸ foldl_least_mem cmp l a

end

section
variable {α : Type} {cmp : α → α → Ordering} [Std.TransCmp cmp]

/-- A sort puts no element before a smaller one. -/
theorem pairwise_sortedWith (l : List α) : (sortedWith cmp l).Pairwise fun a b => (cmp a b).isLE = true := by
  have htotal : Std.Total fun a b : α => (cmp a b).isLE = true := by
    constructor
    intro a b
    have hswap : cmp a b = (cmp b a).swap := Std.OrientedCmp.eq_swap
    cases h : cmp b a
    · right
      rfl
    · right
      rfl
    · left
      rw [hswap, h]
      rfl
  have htrans : IsTrans α fun a b : α => (cmp a b).isLE = true :=
    ⟨fun _ _ _ h1 h2 => Std.TransCmp.isLE_trans h1 h2⟩
  exact List.pairwise_insertionSort _ l

theorem isLE_self (a : α) : (cmp a a).isLE = true := by
  have heq : cmp a a = .eq := Std.ReflCmp.compare_self
  rw [heq]
  rfl

/-- One step gives what is least of the two. -/
theorem least_isLE (m b : α) : (cmp (least cmp m b) m).isLE = true ∧ (cmp (least cmp m b) b).isLE = true := by
  rw [least]
  by_cases h : cmp m b = .gt
  · rw [if_pos h]
    have hlt : cmp b m = .lt := Std.OrientedCmp.gt_iff_lt.mp h
    rw [hlt]
    exact ⟨rfl, isLE_self b⟩
  · rw [if_neg h]
    refine ⟨isLE_self m, ?_⟩
    cases hc : cmp m b
    · rfl
    · rfl
    · exact absurd hc h

/-- Nothing in the list is less than the least. -/
theorem foldl_least_isLE (l : List α) (a : α) : ∀ b ∈ a :: l, (cmp (l.foldl (least cmp) a) b).isLE = true := by
  induction l generalizing a with
  | nil =>
    intro b hb
    rw [List.mem_singleton.mp hb, List.foldl_nil]
    exact isLE_self a
  | cons x l ih =>
    intro b hb
    rw [List.foldl_cons]
    have hstart := ih (least cmp a x) (least cmp a x) List.mem_cons_self
    rcases List.mem_cons.mp hb with rfl | hb
    · exact Std.TransCmp.isLE_trans hstart (least_isLE b x).1
    · rcases List.mem_cons.mp hb with rfl | hb
      · exact Std.TransCmp.isLE_trans hstart (least_isLE a b).2
      · exact ih (least cmp a x) b (List.mem_cons_of_mem _ hb)

/-- What `minWithOrNull` finds is least. -/
theorem minWithOrNull_isLE {l : List α} {m : α} (h : minWithOrNull cmp l = some m) :
    ∀ b ∈ l, (cmp m b).isLE = true := by
  cases l with
  | nil => cases h
  | cons a l =>
    rw [minWithOrNull, Option.some.injEq] at h
    exact h ▸ foldl_least_isLE l a

end

section
variable {α : Type} {cmp : α → α → Ordering}

/-- What comes first in a sorted list is what `minWithOrNull` finds there. -/
theorem minWithOrNull_of_pairwise {l : List α} (h : l.Pairwise fun a b => (cmp a b).isLE = true) :
    minWithOrNull cmp l = l.head? := by
  have hfold : ∀ (l : List α) (a : α), (∀ b ∈ l, (cmp a b).isLE = true) → l.foldl (least cmp) a = a := by
    intro l a hle
    induction l with
    | nil => rfl
    | cons b l ih =>
      have hb : cmp a b ≠ .gt := by
        intro hgt
        have := hle b List.mem_cons_self
        rw [hgt] at this
        cases this
      rw [List.foldl_cons, least, if_neg hb]
      exact ih fun x hx => hle x (List.mem_cons_of_mem _ hx)
  cases l with
  | nil => rfl
  | cons a l =>
    rw [minWithOrNull, hfold l a (List.pairwise_cons.mp h).1, List.head?_cons]

end

end Comparator

end VlessCard
