/-
Greedy selection: a scan that keeps what conflicts with nothing kept before.

`pool` is that selection. A program rarely asks the question in these words: it
scans once, with some memory of what it saw, and answers from the memory. `kept` is
such a scan with an arbitrary memory. It is the greedy selection as soon as it
refuses what conflicts with something kept, and refuses nothing else; the first
half usually holds by itself, and the second is asked for at the prefixes of the
list that is scanned.
-/
import Mathlib.Data.List.Infix
import Mathlib.Data.List.Induction

set_option autoImplicit false

namespace VlessCard

namespace Greedy

section
variable {α : Type} (conflict : α → α → Prop) [DecidableRel conflict]

/-- Keep what conflicts with nothing kept so far. -/
def step (kept : List α) (a : α) : List α := if ∃ t ∈ kept, conflict t a then kept else kept ++ [a]

def pool (l : List α) : List α := l.foldl (step conflict) []

theorem pool_append_singleton (l : List α) (a : α) : pool conflict (l ++ [a]) = step conflict (pool conflict l) a := by
  rw [pool, List.foldl_append, List.foldl_cons, List.foldl_nil, ← pool]

/-- Longer lists keep what shorter ones kept. -/
theorem pool_prefix_append (l m : List α) : pool conflict l <+: pool conflict (l ++ m) := by
  induction m using List.reverseRecOn with
  | nil => rw [List.append_nil]
  | append_singleton m a ih =>
    rw [← List.append_assoc, pool_append_singleton, step]
    by_cases h : ∃ t ∈ pool conflict (l ++ m), conflict t a
    · rw [if_pos h]
      exact ih
    · rw [if_neg h]
      exact ih.trans (List.prefix_append _ _)

/-- No two members conflict. -/
theorem pairwise_pool (l : List α) : (pool conflict l).Pairwise fun t s => ¬ conflict t s := by
  induction l using List.reverseRecOn with
  | nil => exact List.Pairwise.nil
  | append_singleton l a ih =>
    rw [pool_append_singleton, step]
    by_cases h : ∃ t ∈ pool conflict l, conflict t a
    · rw [if_pos h]
      exact ih
    · rw [if_neg h, List.pairwise_append]
      refine ⟨ih, List.pairwise_singleton _ _, ?_⟩
      intro t ht s hs hc
      rw [List.mem_singleton.mp hs] at hc
      exact h ⟨t, ht, hc⟩

end

/-! ## A scan with a memory

A program does not compare with all kept elements but asks a memory that it updates on the way.
Its selection is the greedy one if the memory refuses no more than conflicts, and no less. -/

section
variable {α σ : Type} (accept : σ → α → Bool × σ)

/-- The memory after a list. -/
def memory (c : σ) (l : List α) : σ := l.foldl (fun c a => (accept c a).2) c

/-- `l.filter { accept }` where the predicate changes the memory. -/
def kept : σ → List α → List α
  | _, [] => []
  | c, a :: l => if (accept c a).1 then a :: kept (accept c a).2 l else kept (accept c a).2 l

theorem memory_append_singleton (c : σ) (l : List α) (a : α) :
    memory accept c (l ++ [a]) = (accept (memory accept c l) a).2 := by
  rw [memory, List.foldl_append, List.foldl_cons, List.foldl_nil, ← memory]

theorem kept_append_singleton (l : List α) (a : α) : ∀ c : σ,
    kept accept c (l ++ [a]) = kept accept c l ++ if (accept (memory accept c l) a).1 then [a] else [] := by
  induction l with
  | nil =>
    intro c
    rw [List.nil_append, kept, kept, kept, List.nil_append]
    rfl
  | cons b l ih =>
    intro c
    have hmem : memory accept c (b :: l) = memory accept (accept c b).2 l := rfl
    rw [List.cons_append, kept, kept, ih, hmem]
    by_cases h : (accept c b).1
    · rw [if_pos h, if_pos h, List.cons_append]
    · rw [if_neg h, if_neg h]

theorem kept_sublist (l : List α) : ∀ c : σ, List.Sublist (kept accept c l) l := by
  induction l with
  | nil => exact fun _ => List.Sublist.refl _
  | cons a l ih =>
    intro c
    rw [kept]
    by_cases h : (accept c a).1
    · rw [if_pos h]
      exact (ih _).cons_cons a
    · rw [if_neg h]
      exact (ih _).cons a

/-- What was admitted after a list shows on the list with it. -/
theorem kept_append_singleton_eq (c : σ) (l : List α) (a : α) :
    kept accept c (l ++ [a]) = kept accept c l ++ [a] ↔ (accept (memory accept c l) a).1 = true := by
  rw [kept_append_singleton]
  by_cases h : (accept (memory accept c l) a).1
  · simp [h]
  · simp [h]

variable {accept} {conflict : α → α → Prop} [DecidableRel conflict]

/-- **A scan that refuses no more than it must is greedy.** On the way the two selections
are the same, so a conflict with a member of either will do. -/
theorem kept_eq_pool {c : σ} {l : List α}
    (hsound : ∀ pre a, (∃ t ∈ kept accept c pre, conflict t a) → (accept (memory accept c pre) a).1 = false)
    (hexact : ∀ pre a, pre ++ [a] <+: l → (accept (memory accept c pre) a).1 = false →
      ∃ t ∈ kept accept c pre ++ pool conflict pre, conflict t a) :
    ∀ pre, pre <+: l → kept accept c pre = pool conflict pre := by
  intro pre
  induction pre using List.reverseRecOn with
  | nil => exact fun _ => rfl
  | append_singleton pre a ih =>
    intro hpre
    have heq := ih ((List.prefix_append pre [a]).trans hpre)
    rw [kept_append_singleton, pool_append_singleton, step, heq]
    by_cases h : ∃ t ∈ pool conflict pre, conflict t a
    -- both selections leave `a` out
    · rw [if_pos h, hsound pre a (heq ▸ h), if_neg (by decide), List.append_nil]
    -- both take it: a refusal would come from a conflict with what both have so far
    · have haccept : (accept (memory accept c pre) a).1 = true := by
        by_contra hno
        obtain ⟨t, ht, hc⟩ := hexact pre a hpre (eq_false_of_ne_true hno)
        rw [heq, List.mem_append, or_self] at ht
        exact h ⟨t, ht, hc⟩
      rw [if_neg h, if_pos haccept]

end

end Greedy

end VlessCard
