/-
Lists: what the builders and readers of this development do with them.

Distinctness of lists built from parts, the keys a filtered table keeps, a map
whose function may fail, and one such step after another.
-/
import Mathlib.Data.List.Forall2
import Mathlib.Data.List.Nodup
import Mathlib.Data.List.Perm.Subperm

set_option autoImplicit false

namespace VlessCard

/-! ## Distinct members

Lists that are put together of blocks, or cleaned of repetitions, come up in every builder. Here
is what is known of their members, in the forms in which it is needed. -/

/-- `distinct()` leaves no member twice. -/
theorem nodup_eraseDups {α : Type} [DecidableEq α] (l : List α) : l.eraseDups.Nodup := by
  match l with
  | [] => exact List.nodup_nil
  | a :: l =>
    rw [List.eraseDups_cons, List.nodup_cons, List.mem_eraseDups]
    refine ⟨?_, nodup_eraseDups _⟩
    simp
termination_by l.length
decreasing_by
  have := List.length_filter_le (fun b => !b == a) l
  simp only [List.length_cons]
  omega

/-- A list without repetitions is its own `distinct()`. -/
theorem eraseDups_of_nodup {α : Type} [DecidableEq α] {l : List α} (h : l.Nodup) :
    l.eraseDups = l := by
  induction l with
  | nil => rfl
  | cons a l ih =>
    rw [List.nodup_cons] at h
    have hfilter : l.filter (fun b => !b == a) = l := by
      rw [List.filter_eq_self]
      intro b hb
      have hne : b ≠ a := fun heq => h.1 (heq ▸ hb)
      rw [beq_false_of_ne hne, Bool.not_false]
    rw [List.eraseDups_cons, hfilter, ih h.2]

/-- Repetitions that went once need not go again. -/
theorem eraseDups_append_left {α : Type} [DecidableEq α] (p q : List α) :
    (p.eraseDups ++ q).eraseDups = (p ++ q).eraseDups := by
  have hq : q.removeAll p.eraseDups = q.removeAll p := by
    rw [List.removeAll, List.removeAll]
    refine List.filter_congr fun a _ => ?_
    rw [List.elem_eq_mem, List.elem_eq_mem, decide_eq_decide.mpr (List.mem_eraseDups (l := p))]
  rw [List.eraseDups_append, List.eraseDups_append, eraseDups_of_nodup (nodup_eraseDups p), hq]

/-- What comes first stays first when repetitions go. -/
theorem subset_take_eraseDups_append {α : Type} [DecidableEq α] {n : ℕ} (p q : List α) (h : p.length ≤ n) :
    p ⊆ (p ++ q).eraseDups.take n := by
  intro a ha
  have hlen : p.eraseDups.length ≤ n := by
    refine Nat.le_trans ?_ h
    exact (nodup_eraseDups p).subperm (fun b hb => List.mem_eraseDups.mp hb) |>.length_le
  rw [List.eraseDups_append, List.take_append, List.take_of_length_le hlen]
  exact List.mem_append_left _ (List.mem_eraseDups.mpr ha)

/-- The first members are among those of a part that has enough different ones. -/
theorem take_eraseDups_append_subset {α : Type} [DecidableEq α] {n : ℕ} (p q : List α)
    (h : n ≤ p.eraseDups.length) : (p ++ q).eraseDups.take n ⊆ p := by
  intro a ha
  rw [List.eraseDups_append, List.take_append_of_le_length h] at ha
  exact List.mem_eraseDups.mp (List.mem_of_mem_take ha)

/-- `DistinctBy`: the first member with each key. -/
def distinctBy {α κ : Type} [DecidableEq κ] (f : α → κ) : List α → List α
  | [] => []
  | a :: l => a :: (distinctBy f l).filter fun b => f b ≠ f a

theorem distinctBy_subset {α κ : Type} [DecidableEq κ] (f : α → κ) (l : List α) : distinctBy f l ⊆ l := by
  induction l with
  | nil => exact List.Subset.refl _
  | cons a l ih =>
    intro b hb
    rcases List.mem_cons.mp hb with rfl | hb
    · exact List.mem_cons_self
    · exact List.mem_cons_of_mem _ (ih (List.mem_of_mem_filter hb))

theorem distinctBy_of_nodup {α κ : Type} [DecidableEq κ] {f : α → κ} {l : List α} (h : (l.map f).Nodup) :
    distinctBy f l = l := by
  induction l with
  | nil => rfl
  | cons a l ih =>
    rw [List.map_cons, List.nodup_cons] at h
    rw [distinctBy, ih h.2, List.filter_eq_self.mpr]
    intro b hb
    exact decide_eq_true fun heq => h.1 (heq ▸ List.mem_map_of_mem hb)

/-- `mapNotNull` with keys taken from the elements keeps the order of the keys. -/
theorem keys_filterMap_sublist {τ κ α : Type} (k : τ → κ) (f : τ → Option (κ × α))
    (hf : ∀ t e, f t = some e → e.1 = k t) (l : List τ) :
    List.Sublist ((l.filterMap f).map Prod.fst) (l.map k) := by
  induction l with
  | nil => exact List.Sublist.refl _
  | cons t l ih =>
    cases h : f t with
    | none =>
      rw [List.filterMap_cons_none h, List.map_cons]
      exact ih.cons _
    | some e =>
      rw [List.filterMap_cons_some h, List.map_cons, List.map_cons, hf t e h]
      exact ih.cons_cons _

/-- Blocks whose members are told apart by a key have no member in common. -/
theorem nodup_of_blocks {α κ : Type} (kind : α → κ) (bs : List (κ × List α))
    (hk : (bs.map Prod.fst).Nodup) (hn : ∀ b ∈ bs, b.2.Nodup)
    (hb : ∀ b ∈ bs, ∀ a ∈ b.2, kind a = b.1) : (bs.flatMap Prod.snd).Nodup := by
  induction bs with
  | nil => exact List.nodup_nil
  | cons b bs ih =>
    rw [List.map_cons, List.nodup_cons] at hk
    rw [List.flatMap_cons, List.nodup_append]
    refine ⟨hn b (List.mem_cons_self ..), ih hk.2 (fun b' h => hn b' (List.mem_cons_of_mem _ h))
      (fun b' h => hb b' (List.mem_cons_of_mem _ h)), ?_⟩
    rintro a ha c hc rfl
    obtain ⟨b', hb', hab'⟩ := List.mem_flatMap.mp hc
    have h₁ : kind a = b.1 := hb b (List.mem_cons_self ..) a ha
    have h₂ : kind a = b'.1 := hb b' (List.mem_cons_of_mem _ hb') a hab'
    exact hk.1 (List.mem_map.mpr ⟨b', hb', h₂.symm.trans h₁⟩)

/-! ## A map that may fail

A builder that may fail on an element fails on the list. Where it succeeded, each element stands
beside its result, and facts about one carry over to the other. -/

/-- A map that did not fail relates each element to its image. -/
theorem mapM_forall₂ {α β : Type} {f : α → Option β} {l : List α} {r : List β}
    (h : l.mapM f = some r) : List.Forall₂ (fun a b => f a = some b) l r := by
  induction l generalizing r with
  | nil =>
    rw [List.mapM_nil, Option.pure_def, Option.some.injEq] at h
    exact h ▸ List.Forall₂.nil
  | cons a l ih =>
    simp only [List.mapM_cons, Option.bind_eq_bind, Option.bind_eq_some_iff, Option.pure_def,
      Option.some.injEq] at h
    obtain ⟨b, hb, rs, hrs, rfl⟩ := h
    exact List.Forall₂.cons hb (ih hrs)

/-- A map over the values of a function none of which fails. -/
theorem mapM_ofFn {α β : Type} {n : ℕ} {f : α → Option β} {g : Fin n → α} {h : Fin n → β}
    (hf : ∀ i, f (g i) = some (h i)) : (List.ofFn g).mapM f = some (List.ofFn h) := by
  induction n with
  | zero => rfl
  | succ n ih =>
    rw [List.ofFn_succ, List.ofFn_succ, List.mapM_cons, hf, ih fun i => hf i.succ]
    rfl

theorem map_eq_of_forall₂ {α β γ : Type} {f : α → γ} {g : β → γ} {l : List α} {r : List β}
    (h : List.Forall₂ (fun a b => g b = f a) l r) : r.map g = l.map f := by
  induction h with
  | nil => rfl
  | cons hab _ ih => rw [List.map_cons, List.map_cons, hab, ih]

theorem mem_of_forall₂ {α β : Type} {R : α → β → Prop} {l : List α} {r : List β}
    (h : List.Forall₂ R l r) {b : β} (hb : b ∈ r) : ∃ a ∈ l, R a b := by
  induction h with
  | nil => cases hb
  | cons hab _ ih =>
    rcases List.mem_cons.mp hb with rfl | hb
    · exact ⟨_, List.mem_cons_self .., hab⟩
    · obtain ⟨a, ha, hr⟩ := ih hb
      exact ⟨a, List.mem_cons_of_mem _ ha, hr⟩

/-! ## One step after another

In `Except` a sequence of steps succeeds when each of them does. The lemma takes a bind apart
into the two. -/

/-- Two steps are done just when the first is and then the second. -/
theorem except_bind_iff {ε α β : Type} {x : Except ε α} {f : α → Except ε β} {b : β} :
    x >>= f = .ok b ↔ ∃ a, x = .ok a ∧ f a = .ok b := by
  cases x with
  | error e => exact ⟨nofun, fun ⟨_, h, _⟩ => nomatch h⟩
  | ok a => exact ⟨fun h => ⟨a, rfl, h⟩, fun ⟨_, h, h'⟩ => Except.ok.inj h ▸ h'⟩

end VlessCard
