/-
Rankings: a list in a strict order, cut to its first `n`.

A stable sort ranks a list by its measure and, where the measure does not tell two
members apart, by their places in the list. What is left of a ranking that is cut to
`n` members is a given set exactly when the set has at most `n` members and everything
else in the list has `n` of them before it.
-/
import Mathlib.Data.Finset.Card
import Mathlib.Data.List.Nodup
import Mathlib.Data.List.Pairwise
import Mathlib.Order.Defs.Unbundled

set_option autoImplicit false

namespace VlessCard

namespace Ranking

variable {α : Type}

/-- What is cut off comes after all that is left. -/
theorem take_before {R : α → α → Prop} {l : List α} {n : ℕ} (hl : l.Pairwise R) {a b : α}
    (ha : a ∈ l.take n) (hb : b ∈ l) (hcut : b ∉ l.take n) : R a b := by
  rw [← List.take_append_drop n l] at hl hb
  have hdrop := (List.mem_append.mp hb).resolve_left hcut
  exact (List.pairwise_append.mp hl).2.2 a ha b hdrop

variable [DecidableEq α]

/-! ## A stable sort -/

/-- `a` stands before `b` in the stable sort of `l`: by the measure, and among equals by the
place in `l`. -/
def Ahead (le : α → α → Bool) (l : List α) (a b : α) : Prop :=
  le a b = true ∧ (le b a = true → l.idxOf a < l.idxOf b)

instance (le : α → α → Bool) (l : List α) : DecidableRel (Ahead le l) := fun a b =>
  inferInstanceAs (Decidable (le a b = true ∧ (le b a = true → l.idxOf a < l.idxOf b)))

/-- Nothing is ahead of what is ahead of it. -/
theorem Ahead.asymm {le : α → α → Bool} {l : List α} {a b : α} (h : Ahead le l a b) : ¬ Ahead le l b a :=
  fun h' => absurd (h.2 h'.1) (Nat.lt_asymm (h'.2 h.1))

/-- The numbers of a numbered list without repetitions are the places of its members. -/
theorem idxOf_of_mem_zipIdx {l : List α} (hn : l.Nodup) {e : α × ℕ} (he : e ∈ l.zipIdx) :
    l.idxOf e.1 = e.2 := by
  obtain ⟨hlt, hget⟩ := List.mem_zipIdx' he
  rw [hget]
  exact hn.idxOf_getElem e.2 hlt

/-- A sorted list is ranked by what it is sorted by and, among equals, by the list it was
made from. -/
theorem pairwise_mergeSort {le : α → α → Bool}
    (trans : ∀ a b c, le a b = true → le b c = true → le a c = true)
    (total : ∀ a b, (le a b || le b a) = true) {l : List α} (hn : l.Nodup) :
    (l.mergeSort le).Pairwise (Ahead le l) := by
  -- sort the numbered list, where no two members are equal
  have hsorted := List.pairwise_mergeSort (List.zipIdxLE_trans trans) (List.zipIdxLE_total total) l.zipIdx
  have hperm := List.mergeSort_perm l.zipIdx (List.zipIdxLE le)
  have hnodup : (l.zipIdx.mergeSort (List.zipIdxLE le)).Nodup := by
    refine hperm.nodup_iff.mpr (List.Nodup.of_map Prod.fst ?_)
    rw [List.zipIdx_map_fst]
    exact hn
  rw [← List.mergeSort_zipIdx, List.pairwise_map]
  refine (hsorted.and hnodup).imp_of_mem ?_
  rintro a b ha hb ⟨hle, hne⟩
  have hia := idxOf_of_mem_zipIdx hn (hperm.subset ha)
  have hib := idxOf_of_mem_zipIdx hn (hperm.subset hb)
  rw [List.zipIdxLE] at hle
  by_cases hab : le a.1 b.1 = true
  · refine ⟨hab, fun hba => ?_⟩
    rw [if_pos hab, if_pos hba, decide_eq_true_iff] at hle
    rw [hia, hib]
    refine lt_of_le_of_ne hle fun heq => hne ?_
    -- one place has one member
    refine Prod.ext ?_ heq
    rw [(List.mem_zipIdx' (hperm.subset ha)).2, (List.mem_zipIdx' (hperm.subset hb)).2]
    congr 1
  · rw [if_neg hab] at hle
    cases hle

/-! ## The first of a ranking -/

/-- Where the ranking is longer than the cut, the cut is full. -/
theorem card_take {l : List α} {n : ℕ} (hn : l.Nodup) (h : ∃ a ∈ l, a ∉ l.take n) : (l.take n).toFinset.card = n := by
  obtain ⟨a, ha, hcut⟩ := h
  have hlen : n ≤ l.length := by
    by_contra hlt
    rw [List.take_of_length_le (by omega)] at hcut
    exact hcut ha
  rw [List.toFinset_card_of_nodup (hn.sublist (List.take_sublist n l)), List.length_take,
    Nat.min_eq_left hlen]

/-- A set that fits into the cut, and that everything else comes after, is left whole. -/
theorem subset_take {R : α → α → Prop} {l : List α} {n : ℕ} (hl : l.Pairwise R) (hn : l.Nodup)
    (hasymm : ∀ a b, R a b → ¬ R b a) {s : Finset α} (hs : ∀ a ∈ s, a ∈ l) (hfew : s.card ≤ n)
    (hall : ∀ a ∈ l, a ∉ s → ∀ b ∈ s, R b a) : s ⊆ (l.take n).toFinset := by
  intro b hb
  rw [List.mem_toFinset]
  by_contra hcut
  have hfull := card_take hn ⟨b, hs b hb, hcut⟩
  -- all that is left comes before `b`, so all of it is in the set, and so is `b`
  have hsub : (l.take n).toFinset ⊆ s.erase b := by
    intro a ha
    rw [List.mem_toFinset] at ha
    have hab := take_before hl ha (hs b hb) hcut
    refine Finset.mem_erase.mpr ⟨fun heq => hcut (heq ▸ ha), ?_⟩
    by_contra hout
    exact hasymm a b hab (hall a (List.mem_of_mem_take ha) hout b hb)
  have hcard := Finset.card_le_card hsub
  rw [Finset.card_erase_of_mem hb, hfull] at hcard
  have hpos := Finset.card_pos.mpr ⟨b, hb⟩
  omega

/-- **The first of a ranking.** The first `n` are the members of a set exactly when the set
has at most `n` members and whatever else is ranked comes after `n` of them. -/
theorem take_iff {R : α → α → Prop} [DecidableRel R] {l : List α} {n : ℕ} (hl : l.Pairwise R)
    (hn : l.Nodup) (hasymm : ∀ a b, R a b → ¬ R b a) {s : Finset α} (hs : ∀ a ∈ s, a ∈ l) :
    (∀ a, a ∈ l.take n ↔ a ∈ s) ↔
      s.card ≤ n ∧ ∀ a ∈ l, a ∉ s → n ≤ (s.filter fun b => R b a).card := by
  constructor
  · intro h
    have heq : (l.take n).toFinset = s := by
      ext a
      rw [List.mem_toFinset]
      exact h a
    constructor
    · rw [← heq]
      exact (List.toFinset_card_le _).trans (List.length_take_le n l)
    · intro a ha hout
      have hcut : a ∉ l.take n := fun hin => hout ((h a).mp hin)
      have hall : s.filter (fun b => R b a) = s :=
        Finset.filter_true_of_mem fun b hb => take_before hl ((h b).mpr hb) ha hcut
      rw [hall, ← heq, card_take hn ⟨a, ha, hcut⟩]
  · rintro ⟨hfew, hafter⟩
    -- what is not in the set comes after all of it
    have hall : ∀ a ∈ l, a ∉ s → s.card = n ∧ ∀ b ∈ s, R b a := by
      intro a ha hout
      have hle := hafter a ha hout
      have heq : s.filter (fun b => R b a) = s :=
        Finset.eq_of_subset_of_card_le (Finset.filter_subset _ _) (hfew.trans hle)
      rw [heq] at hle
      exact ⟨le_antisymm hfew hle, Finset.filter_eq_self.mp heq⟩
    have hin := subset_take hl hn hasymm hs hfew fun a ha hout => (hall a ha hout).2
    intro a
    refine ⟨fun ha => ?_, fun ha => List.mem_toFinset.mp (hin ha)⟩
    by_contra hout
    -- the set already fills the cut
    have hcard := (hall a (List.mem_of_mem_take ha) hout).1
    have hsub : insert a s ⊆ (l.take n).toFinset :=
      Finset.insert_subset (List.mem_toFinset.mpr ha) hin
    have hle := Finset.card_le_card hsub
    rw [Finset.card_insert_of_notMem hout] at hle
    have hmax := (List.toFinset_card_le (l.take n)).trans (List.length_take_le n l)
    omega

end Ranking

end VlessCard
