/-
Variety before order: a ranked list cut to a few members, of as many kinds as
possible.

Two keys are involved. Members with one identity are one member; members of one
group are alternatives. `spread` puts the first member of each group before all
the others and keeps the order otherwise, and `diverse` takes the beginning of
that. The lemmas say what such a cut certainly holds: what stood first, something
of a second group, and one member of every group when a member from further back
got in.
-/
import VlessCard.KeyedList
import Mathlib.Data.Finset.Card
import Mathlib.Data.List.Find

set_option autoImplicit false

namespace VlessCard

namespace Diversity

open KeyedList

variable {α ι κ : Type} [DecidableEq ι] [DecidableEq κ] (id : α → ι) (group : α → κ)

/-- The first member of each group, then the others. -/
def spread (l : List α) : List α := fresh group [] l ++ repeated group [] l

/-- `n` members at most, of different groups as far as there are any. -/
def diverse (l : List α) (n : ℕ) : List α := (spread group (distinctBy id l)).take n

theorem perm_spread (l : List α) : (spread group l).Perm l := perm_fresh_append_repeated group l []

theorem diverse_subset (l : List α) (n : ℕ) : diverse id group l n ⊆ l := by
  intro a ha
  have hmem : a ∈ distinctBy id l := (perm_spread group _).mem_iff.mp (List.mem_of_mem_take ha)
  exact distinctBy_subset id l hmem

theorem nodup_diverse (l : List α) (n : ℕ) : ((diverse id group l n).map id).Nodup := by
  have hall : ((spread group (distinctBy id l)).map id).Nodup :=
    ((perm_spread group (distinctBy id l)).map id).nodup_iff.mpr (nodup_distinctBy id l)
  exact hall.sublist ((List.take_sublist _ _).map id)

/-- As many are given as asked for, or all there are. -/
theorem length_diverse (l : List α) (n : ℕ) :
    (diverse id group l n).length = min n (distinctBy id l).length := by
  rw [diverse, List.length_take, (perm_spread group _).length_eq]

/-- Enough room for all of them. -/
theorem mem_diverse_of_length_le {l : List α} {n : ℕ} (h : l.length ≤ n) {a : α} :
    a ∈ diverse id group l n ↔ a ∈ distinctBy id l := by
  have hlen : (spread group (distinctBy id l)).length ≤ n := by
    rw [(perm_spread group _).length_eq, distinctBy_eq_fresh]
    exact Nat.le_trans (fresh_sublist id l []).length_le h
  rw [diverse, List.take_of_length_le hlen]
  exact (perm_spread group _).mem_iff

/-- What is cut is what comes first, then what is fresh beside it, then the rest. -/
theorem diverse_cons (a : α) (l : List α) (n : ℕ) :
    diverse id group (a :: l) (n + 1) = a ::
      (fresh group [group a] ((distinctBy id l).filter fun b => decide (id b ≠ id a))
        ++ repeated group [group a] ((distinctBy id l).filter fun b => decide (id b ≠ id a))).take n := by
  rw [diverse, distinctBy, spread, fresh, repeated, if_neg List.not_mem_nil, if_neg List.not_mem_nil,
    List.cons_append, List.take_succ_cons]

theorem head?_diverse (l : List α) (n : ℕ) : (diverse id group l (n + 1)).head? = l.head? := by
  cases l with
  | nil => rfl
  | cons a l => rw [diverse_cons, List.head?_cons, List.head?_cons]

/-! ## One member for each identity

Servers are compared by their ids where the lists may hold two of one id. In a list where an id
tells the server the repetitions can be dropped without a loss. -/

/-- Members of the list with one identity are one member. -/
def Keyed (l : List α) : Prop := ∀ a ∈ l, ∀ b ∈ l, id a = id b → a = b

variable {id}

omit [DecidableEq ι] in
/-- Among fewer servers an id tells the server as well. -/
theorem Keyed.subset {l m : List α} (h : Keyed id l) (hs : m ⊆ l) : Keyed id m :=
  fun a ha b hb => h a (hs ha) b (hs hb)

omit [DecidableEq ι] in
theorem Keyed.of_nodup {l : List α} (h : (l.map id).Nodup) : Keyed id l :=
  fun _ ha _ hb => List.inj_on_of_nodup_map h ha hb

theorem Keyed.mem_distinctBy {l : List α} (h : Keyed id l) {a : α} : a ∈ distinctBy id l ↔ a ∈ l := by
  constructor
  · intro ha
    exact distinctBy_subset id l ha
  · intro ha
    obtain ⟨b, hb, hkey⟩ := List.mem_map.mp ((mem_keys_distinctBy id l (id a)).mpr (List.mem_map_of_mem ha))
    have hba : b = a := h b (distinctBy_subset id l hb) a ha hkey
    exact hba ▸ hb

omit [DecidableEq κ] in
/-- A search that does not tell members of one identity apart finds the same without the
repetitions. -/
theorem find?_distinctBy_of_congr {l : List α} {p : α → Bool}
    (h : ∀ a ∈ l, ∀ b ∈ l, id a = id b → p a = p b) : (distinctBy id l).find? p = l.find? p := by
  induction l with
  | nil => rfl
  | cons a l ih =>
    have hrest : ∀ b ∈ l, ∀ c ∈ l, id b = id c → p b = p c := fun b hb c hc =>
      h b (List.mem_cons_of_mem _ hb) c (List.mem_cons_of_mem _ hc)
    rw [distinctBy]
    by_cases ha : p a = true
    · rw [List.find?_cons_of_pos ha, List.find?_cons_of_pos ha]
    · rw [List.find?_cons_of_neg ha, List.find?_cons_of_neg ha, List.find?_filter, ← ih hrest]
      -- what satisfies `p` has not the identity of `a`, so the filter keeps it
      apply List.find?_congr
      intro b hb
      by_cases hpb : p b = true
      · have hne : id b ≠ id a := by
          intro hkey
          have hba := h b (List.mem_cons_of_mem _ (distinctBy_subset id l hb)) a List.mem_cons_self hkey
          exact ha (hba ▸ hpb)
        simp [hpb, hne]
      · simp [hpb]

/-- Nothing is searched in vain when repetitions go. -/
theorem Keyed.find?_distinctBy {l : List α} (h : Keyed id l) (p : α → Bool) :
    (distinctBy id l).find? p = l.find? p := by
  exact find?_distinctBy_of_congr fun a ha b hb hid => congrArg p (h a ha b hb hid)

/-- **The second place goes to another group.** It is taken by the first member that
is not of the group of the first one. -/
theorem mem_diverse_of_find? {a b : α} {l : List α} {n : ℕ} (h : Keyed id (a :: l))
    (hb : l.find? (fun x => decide (group x ≠ group a)) = some b) :
    b ∈ diverse id group (a :: l) (n + 2) := by
  have hne : decide (group a ≠ group a) = false := by simp
  have hfind : ((distinctBy id l).filter fun x => decide (id x ≠ id a)).find?
      (fun x => decide (group x ∉ [group a])) = some b := by
    have hall := h.find?_distinctBy fun x => decide (group x ≠ group a)
    rw [distinctBy, List.find?_cons_of_neg (by simp), List.find?_cons_of_neg (by simp), hb] at hall
    simpa only [List.mem_singleton] using hall
  rw [← head?_fresh] at hfind
  obtain ⟨rest, hrest⟩ := List.head?_eq_some_iff.mp hfind
  rw [diverse_cons, hrest, List.cons_append, List.take_succ_cons]
  exact List.mem_cons_of_mem _ List.mem_cons_self

/-- **With two places another group comes in**, where there is one. -/
theorem exists_mem_diverse_ne {l : List α} {n : ℕ} (h : Keyed id l) {t : α} (ht : t ∈ l) {g : κ} (hne : group t ≠ g) :
    ∃ y ∈ diverse id group l (n + 2), group y ≠ g := by
  cases l with
  | nil => cases ht
  | cons a l =>
    by_cases ha : group a = g
    · -- the first member is of the group to be avoided, so the second is not
      have hsome : (l.find? fun x => decide (group x ≠ group a)).isSome = true := by
        rw [List.find?_isSome]
        rcases List.mem_cons.mp ht with rfl | ht
        · exact absurd ha hne
        · exact ⟨t, ht, decide_eq_true (ha ▸ hne)⟩
      obtain ⟨y, hy⟩ := Option.isSome_iff_exists.mp hsome
      refine ⟨y, mem_diverse_of_find? group h hy, ?_⟩
      have hkey := List.find?_some hy
      rw [decide_eq_true_eq] at hkey
      exact ha ▸ hkey
    · refine ⟨a, ?_, ha⟩
      rw [diverse_cons]
      exact List.mem_cons_self

/-! ## A preferred part

A list in two parts, the preferred one in front: the cut takes a member of each group in front
before anything from behind. So what comes from behind says that the front has no other groups
left. -/

/-- **A member from behind means that every group in front is there.** When something
that is not of the first part is taken, a member of the first part is taken for
each of its groups. -/
theorem group_mem_diverse {a b : List α} {n : ℕ} (h : Keyed id a) {d : α}
    (hd : d ∈ diverse id group (a ++ b) n) (hda : d ∉ a) {x : α} (hx : x ∈ a) : ∃ t ∈ diverse id group (a ++ b) n, t ∈ a ∧ group t = group x := by
  have hsplit : diverse id group (a ++ b) n = (fresh group [] (distinctBy id a)
      ++ (fresh group ((distinctBy id a).map group) (fresh id (a.map id) b)
        ++ repeated group [] (distinctBy id (a ++ b)))).take n := by
    rw [diverse, spread, distinctBy_append, fresh_append, List.append_nil, List.append_assoc]
  rw [hsplit] at hd ⊢
  have hsub : fresh group [] (distinctBy id a) ⊆ a := fun t ht =>
    distinctBy_subset id a ((fresh_sublist group _ _).subset ht)
  -- the groups of the first part come first, and `d` is behind them
  have hlt : (fresh group [] (distinctBy id a)).length ≤ n := by
    by_contra hlt
    rw [List.take_append_of_le_length (by omega)] at hd
    exact hda (hsub (List.mem_of_mem_take hd))
  have hgroup : group x ∈ (fresh group [] (distinctBy id a)).map group := by
    rw [mem_keys_fresh]
    exact ⟨List.mem_map_of_mem (h.mem_distinctBy.mpr hx), List.not_mem_nil⟩
  obtain ⟨t, ht, hkey⟩ := List.mem_map.mp hgroup
  refine ⟨t, ?_, hsub ht, hkey⟩
  rw [List.take_append, List.take_of_length_le hlt]
  exact List.mem_append_left _ ht

/-- Members of known groups may as well be absent. -/
theorem fresh_filter {known : List κ} {l : List α} {p : α → Bool} (h : ∀ x ∈ l, p x = false → group x ∈ known) :
    fresh group known (l.filter p) = fresh group known l := by
  induction l generalizing known with
  | nil => rfl
  | cons a l ih =>
    have hrest : ∀ x ∈ l, p x = false → group x ∈ known := fun x hx => h x (List.mem_cons_of_mem _ hx)
    by_cases hp : p a = true
    · rw [List.filter_cons_of_pos hp, fresh, fresh]
      by_cases hk : group a ∈ known
      · rw [if_pos hk, if_pos hk, ih hrest]
      · rw [if_neg hk, if_neg hk, ih fun x hx hpx => List.mem_cons_of_mem _ (hrest x hx hpx)]
    · rw [List.filter_cons_of_neg hp, fresh, if_pos (h a List.mem_cons_self (eq_false_of_ne_true hp)), ih hrest]

/-- A second member of the group that leads takes the third place at most: what is of
another group are the first two of the other groups. -/
theorem mem_diverse_three {a c : α} {l : List α} (h : Keyed id (a :: c :: l)) (hca : id c ≠ id a)
    (hgroup : group c = group a) (hn : (l.map id).Nodup) {x : α} :
    (x ∈ diverse id group (a :: c :: l) 3 ∧ group x ≠ group a) ↔ x ∈ (fresh group [group a] l).take 2 := by
  have hrest : (distinctBy id (c :: l)).filter (fun b => decide (id b ≠ id a))
      = c :: (l.filter fun b => decide (id b ≠ id c)).filter fun b => decide (id b ≠ id a) := by
    rw [distinctBy, distinctBy_of_nodup hn, List.filter_cons, if_pos (decide_eq_true hca)]
  have hfresh : fresh group [group a] ((l.filter fun b => decide (id b ≠ id c)).filter fun b => decide (id b ≠ id a))
      = fresh group [group a] l := by
    -- what the filters drop is `a` or `c`, and both are of the known group
    rw [List.filter_filter]
    apply fresh_filter
    intro b hb hdrop
    rw [Bool.and_eq_false_iff, decide_eq_false_iff_not, decide_eq_false_iff_not, not_not, not_not] at hdrop
    have hmem : b ∈ a :: c :: l := List.mem_cons_of_mem _ (List.mem_cons_of_mem _ hb)
    rw [List.mem_singleton]
    rcases hdrop with hba | hbc
    · rw [h b hmem a List.mem_cons_self hba]
    · rw [h b hmem c (List.mem_cons_of_mem _ List.mem_cons_self) hbc, hgroup]
  have hknown : group c ∈ [group a] := List.mem_singleton.mpr hgroup
  have hcut : diverse id group (a :: c :: l) 3 = a :: (fresh group [group a] l
      ++ c :: repeated group [group a] ((l.filter fun b => decide (id b ≠ id c)).filter
        fun b => decide (id b ≠ id a))).take 2 := by
    rw [diverse_cons, hrest, fresh, repeated, if_pos hknown, if_pos hknown, hfresh]
  have hother : ∀ y ∈ fresh group [group a] l, group y ≠ group a := by
    intro y hy hya
    exact not_known_of_mem_fresh group l hy (List.mem_singleton.mpr hya)
  rw [hcut]
  -- by the number of other groups: two, one or none
  rcases hl : fresh group [group a] l with _ | ⟨y, _ | ⟨z, rest⟩⟩
  · have hall : ∀ b ∈ l, group b = group a := by
      intro b hb
      by_contra hne
      have hmem : group b ∈ (fresh group [group a] l).map group := by
        rw [mem_keys_fresh]
        exact ⟨List.mem_map_of_mem hb, fun hk => hne (List.mem_singleton.mp hk)⟩
      rw [hl] at hmem
      cases hmem
    simp only [List.nil_append, List.take_nil, List.not_mem_nil, iff_false, not_and, not_not]
    intro hx
    rcases List.mem_cons.mp hx with rfl | hx
    · rfl
    · rcases List.mem_cons.mp (List.mem_of_mem_take hx) with rfl | hx
      · exact hgroup
      · have hsub := (perm_fresh_append_repeated group _ [group a]).mem_iff.mp (List.mem_append_right _ hx)
        exact hall x (List.mem_of_mem_filter (List.mem_of_mem_filter hsub))
  · have hy := hother y (by rw [hl]; exact List.mem_cons_self)
    simp only [List.cons_append, List.nil_append, List.take_succ_cons, List.take_zero, List.take_nil, List.mem_cons,
      List.not_mem_nil, or_false]
    constructor
    · rintro ⟨rfl | rfl | rfl, hne⟩
      · exact absurd rfl hne
      · rfl
      · exact absurd hgroup hne
    · rintro rfl
      exact ⟨.inr (.inl rfl), hy⟩
  · have hy := hother y (by rw [hl]; exact List.mem_cons_self)
    have hz := hother z (by rw [hl]; exact List.mem_cons_of_mem _ List.mem_cons_self)
    simp only [List.cons_append, List.take_succ_cons, List.take_zero, List.mem_cons, List.not_mem_nil, or_false]
    constructor
    · rintro ⟨rfl | hx, hne⟩
      · exact absurd rfl hne
      · exact hx
    · rintro (rfl | rfl)
      · exact ⟨.inr (.inl rfl), hy⟩
      · exact ⟨.inr (.inr rfl), hz⟩

/-! ## What a cut covers

How many groups a cut covers depends on its size and on the groups there are, not on the order.
Behind one member of each group the others follow in their order. -/

section

variable (id)

/-- The groups of a list. -/
def groups (l : List α) : Finset κ := (l.map group).toFinset

/-- Dropping repetitions leaves the groups as they are. -/
theorem groups_fresh (l : List α) : groups group (fresh group [] l) = groups group l := by
  ext k
  rw [groups, groups, List.mem_toFinset, List.mem_toFinset, mem_keys_fresh]
  simp

omit [DecidableEq ι] in
/-- The representatives are as many as the groups. -/
theorem length_fresh (l : List α) : (fresh group [] l).length = (groups group l).card := by
  rw [← groups_fresh, groups, List.toFinset_card_of_nodup (nodup_fresh group l []), List.length_map]

omit [DecidableEq κ] in
/-- The members are as many as the identities. -/
theorem length_distinctBy (l : List α) : (distinctBy id l).length = (groups id l).card := by
  rw [distinctBy_eq_fresh]
  exact length_fresh id l

/-- **A cut covers as many groups as it has room for.** -/
theorem card_groups_diverse (l : List α) (n : ℕ) :
    (groups group (diverse id group l n)).card = min n (groups group (distinctBy id l)).card := by
  have hlen := length_fresh group (distinctBy id l)
  unfold diverse spread
  by_cases hn : n ≤ (fresh group [] (distinctBy id l)).length
  · have hnodup : (((fresh group [] (distinctBy id l)).take n).map group).Nodup :=
      (nodup_fresh group (distinctBy id l) []).sublist ((List.take_sublist n _).map group)
    rw [List.take_append_of_le_length hn, groups, List.toFinset_card_of_nodup hnodup, List.length_map,
      List.length_take, hlen]
  · -- every representative is in the cut, and nothing in it is of another group
    have hall : groups group ((fresh group [] (distinctBy id l) ++ repeated group [] (distinctBy id l)).take n) =
        groups group (distinctBy id l) := by
      apply Finset.Subset.antisymm
      · intro k hk
        obtain ⟨a, ha, rfl⟩ := List.mem_map.mp (List.mem_toFinset.mp hk)
        have hmem := (perm_spread group (distinctBy id l)).mem_iff.mp (List.mem_of_mem_take ha)
        exact List.mem_toFinset.mpr (List.mem_map_of_mem hmem)
      · rw [← groups_fresh, List.take_append, List.take_of_length_le (by omega)]
        intro k hk
        rw [groups, List.map_append, List.mem_toFinset]
        exact List.mem_append_left _ (List.mem_toFinset.mp hk)
    rw [hall]
    omega

/-- **A second member of one group comes behind a member of each.** -/
theorem covered_of_repeated {l pre : List α} {n : ℕ} (hpre : pre <+: diverse id group l n)
    (hrepeat : ¬ (pre.map group).Nodup) : ∀ a ∈ distinctBy id l, group a ∈ pre.map group := by
  intro a ha
  have hspread : pre <+: spread group (distinctBy id l) := hpre.trans (List.take_prefix n _)
  have hreps : fresh group [] (distinctBy id l) <+: spread group (distinctBy id l) := List.prefix_append _ _
  rcases List.prefix_or_prefix_of_prefix hspread hreps with h | h
  · exact absurd ((nodup_fresh group (distinctBy id l) []).sublist (h.sublist.map group)) hrepeat
  · have hmem : group a ∈ (fresh group [] (distinctBy id l)).map group := by
      rw [mem_keys_fresh]
      exact ⟨List.mem_map_of_mem ha, List.not_mem_nil⟩
    exact (h.sublist.map group).subset hmem

omit [DecidableEq ι] in
/-- What is passed over is not the first of its group. -/
theorem not_first_of_mem_repeated {l : List α} (hl : (l.map id).Nodup) {a : α} (ha : a ∈ repeated group [] l) :
    l.find? (fun b => decide (group b = group a)) ≠ some a := by
  intro hfirst
  have hmem := (find?_eq_some_iff_mem group).mp hfirst
  rw [distinctBy_eq_fresh] at hmem
  have hnodup : (fresh group [] l ++ repeated group [] l).Nodup :=
    (perm_fresh_append_repeated group l []).nodup_iff.mpr (List.Nodup.of_map id hl)
  exact (List.nodup_append.mp hnodup).2.2 a hmem a ha rfl

/-- **A cut is its representatives, then others, each part in order.** -/
theorem diverse_split (l : List α) (n : ℕ) :
    ∃ reps rest : List α, diverse id group l n = reps ++ rest ∧ List.Sublist reps (distinctBy id l) ∧
      List.Sublist rest (distinctBy id l) ∧
      (∀ a ∈ reps, (distinctBy id l).find? (fun b => decide (group b = group a)) = some a) ∧
      ∀ a ∈ rest, (distinctBy id l).find? (fun b => decide (group b = group a)) ≠ some a := by
  refine ⟨(fresh group [] (distinctBy id l)).take n,
    (repeated group [] (distinctBy id l)).take (n - (fresh group [] (distinctBy id l)).length), ?_, ?_, ?_, ?_, ?_⟩
  · exact List.take_append
  · exact (List.take_sublist _ _).trans (fresh_sublist group _ [])
  · exact (List.take_sublist _ _).trans (repeated_sublist group _ [])
  · intro a ha
    apply find?_of_mem_distinctBy group
    rw [distinctBy_eq_fresh]
    exact List.mem_of_mem_take ha
  · intro a ha
    exact not_first_of_mem_repeated id group (nodup_distinctBy id l) (List.mem_of_mem_take ha)

/-- Where a repetition is of the group too, no group goes with it. -/
theorem groups_distinctBy {l : List α} (h : ∀ a ∈ l, ∀ b ∈ l, id a = id b → group a = group b) :
    groups group (distinctBy id l) = groups group l := by
  apply Finset.Subset.antisymm
  · intro k hk
    obtain ⟨a, ha, rfl⟩ := List.mem_map.mp (List.mem_toFinset.mp hk)
    exact List.mem_toFinset.mpr (List.mem_map_of_mem (distinctBy_subset id l ha))
  · intro k hk
    obtain ⟨a, ha, rfl⟩ := List.mem_map.mp (List.mem_toFinset.mp hk)
    obtain ⟨b, hb, hid⟩ := List.mem_map.mp ((mem_keys_distinctBy id l (id a)).mpr (List.mem_map_of_mem ha))
    rw [h a ha b (distinctBy_subset id l hb) hid.symm]
    exact List.mem_toFinset.mpr (List.mem_map_of_mem hb)

end

end Diversity

end VlessCard
