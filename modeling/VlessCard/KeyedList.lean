/-
Lists of records told apart by a key, and how such a list grows.

A catalogue that must not hold two records with one key is extended by
`list.filter { known.add(key(it)) }`: a record is taken when its key is seen for
the first time. `fresh` is that filter and `merge` the extended list. The lemmas
say that what stood first still stands first, that every key is named once, and
that a property of all records survives when the newcomers have it.
-/
import VlessCard.Lists

set_option autoImplicit false

namespace VlessCard

namespace KeyedList

variable {α κ : Type} [DecidableEq κ] (key : α → κ)

/-- The records of `l` whose key is neither known nor that of an earlier one. -/
def fresh : List κ → List α → List α
  | _, [] => []
  | known, a :: l => if key a ∈ known then fresh known l else a :: fresh (key a :: known) l

/-- The elements with new keys are taken from the front. -/
theorem fresh_nil (known : List κ) : fresh key known [] = [] := by rfl

/-- An element whose key is known is left out, and else makes it known. -/
theorem fresh_cons (known : List κ) (a : α) (l : List α) : fresh key known (a :: l) =
    if key a ∈ known then fresh key known l else a :: fresh key (key a :: known) l := by rfl

/-- `base` followed by what is fresh of `l`. -/
def merge (base l : List α) : List α := base ++ fresh key (base.map key) l

theorem fresh_sublist (l : List α) : ∀ known : List κ, List.Sublist (fresh key known l) l := by
  induction l with
  | nil => intro known; exact List.Sublist.refl _
  | cons a l ih =>
    intro known
    rw [fresh_cons]
    split
    · exact (ih known).cons a
    · exact (ih _).cons_cons a

/-- A filter that lets all that is fresh pass makes no difference. -/
theorem fresh_filter_of_forall {p : α → Bool} (l : List α) : ∀ {known : List κ},
    (∀ a ∈ fresh key known l, p a = true) → fresh key known (l.filter p) = fresh key known l := by
  induction l with
  | nil => intro known _; rfl
  | cons a l ih =>
    intro known h
    rw [fresh_cons] at h ⊢
    by_cases hk : key a ∈ known
    · rw [if_pos hk] at h ⊢
      rw [List.filter_cons]
      split
      · rw [fresh_cons, if_pos hk, ih h]
      · exact ih h
    · rw [if_neg hk] at h ⊢
      rw [List.filter_cons_of_pos (h a List.mem_cons_self), fresh_cons, if_neg hk,
        ih fun b hb => h b (List.mem_cons_of_mem a hb)]

theorem not_known_of_mem_fresh {a : α} (l : List α) :
    ∀ {known : List κ}, a ∈ fresh key known l → key a ∉ known := by
  induction l with
  | nil => intro known h; cases h
  | cons b l ih =>
    intro known h
    rw [fresh_cons] at h
    split at h
    · exact ih h
    · rename_i hb
      rcases List.mem_cons.mp h with rfl | h
      · exact hb
      · intro hk
        exact ih h (List.mem_cons_of_mem _ hk)

theorem nodup_fresh (l : List α) : ∀ known : List κ, ((fresh key known l).map key).Nodup := by
  induction l with
  | nil => intro known; exact List.nodup_nil
  | cons a l ih =>
    intro known
    rw [fresh_cons]
    split
    · exact ih known
    · rw [List.map_cons, List.nodup_cons]
      refine ⟨?_, ih _⟩
      intro hmem
      obtain ⟨b, hb, hkey⟩ := List.mem_map.mp hmem
      -- the key of `a` is known to everything taken after it
      apply not_known_of_mem_fresh key l hb
      rw [hkey]
      exact List.mem_cons_self ..

/-- The fresh keys are those of `l` that were not known. -/
theorem mem_keys_fresh (l : List α) (k : κ) :
    ∀ known : List κ, k ∈ (fresh key known l).map key ↔ k ∈ l.map key ∧ k ∉ known := by
  induction l with
  | nil => intro known; simp [fresh_nil]
  | cons a l ih =>
    intro known
    rw [fresh_cons, List.map_cons, List.mem_cons]
    split
    · rename_i ha
      rw [ih]
      constructor
      · rintro ⟨hk, hn⟩
        exact ⟨.inr hk, hn⟩
      · rintro ⟨rfl | hk, hn⟩
        · exact absurd ha hn
        · exact ⟨hk, hn⟩
    · rename_i ha
      rw [List.map_cons, List.mem_cons, ih, List.mem_cons, not_or]
      by_cases hk : k = key a
      · rw [hk]
        simp [ha]
      · simp [hk]

/-! ## The extended list

An extended list has the old one in front, unchanged, and behind it the records that are new. Its
keys are told apart if those of the old one were. -/

variable {key}

theorem mem_merge_of_mem {base : List α} {a : α} (h : a ∈ base) (l : List α) :
    a ∈ merge key base l := List.mem_append_left _ h

/-- Every key is named once when that was so before. -/
theorem nodup_merge {base : List α} (h : (base.map key).Nodup) (l : List α) :
    ((merge key base l).map key).Nodup := by
  rw [merge, List.map_append, List.nodup_append]
  refine ⟨h, nodup_fresh key l _, ?_⟩
  rintro k hk k' hk' rfl
  obtain ⟨a, ha, rfl⟩ := List.mem_map.mp hk'
  exact not_known_of_mem_fresh key l ha hk

omit [DecidableEq κ] in
/-- A part of a list that names every key once names every key once. -/
theorem nodup_filter {base : List α} (h : (base.map key).Nodup) (p : α → Bool) :
    ((base.filter p).map key).Nodup :=
  h.sublist (List.filter_sublist.map key)

/-! ## What is passed over

The records with a known key are left out, and of several with a new key all but the first.
Together with those that are kept they are the list again, in another order. -/

section
variable (key)

/-- The records `fresh` passes over. -/
def repeated : List κ → List α → List α
  | _, [] => []
  | known, a :: l =>
      if key a ∈ known then a :: repeated known l else repeated (key a :: known) l

/-- No record is lost and none is made. -/
theorem perm_fresh_append_repeated (l : List α) :
    ∀ known : List κ, (fresh key known l ++ repeated key known l).Perm l := by
  induction l with
  | nil => intro known; exact List.Perm.refl _
  | cons a l ih =>
    intro known
    rw [fresh_cons, repeated]
    by_cases h : key a ∈ known
    · rw [if_pos h, if_pos h]
      exact List.perm_middle.trans ((ih known).cons a)
    · rw [if_neg h, if_neg h, List.cons_append]
      exact (ih (key a :: known)).cons a

/-- Those that are left out keep their order too. -/
theorem repeated_sublist (l : List α) : ∀ known : List κ, List.Sublist (repeated key known l) l := by
  induction l with
  | nil => intro known; exact List.Sublist.refl _
  | cons a l ih =>
    intro known
    rw [repeated]
    split
    · exact (ih known).cons_cons a
    · exact (ih _).cons a

/-- Nothing is fresh whose key is known. -/
theorem fresh_eq_nil {known : List κ} {l : List α} (h : ∀ a ∈ l, key a ∈ known) : fresh key known l = [] := by
  rw [List.eq_nil_iff_forall_not_mem]
  intro a ha
  exact not_known_of_mem_fresh key l ha (h a ((fresh_sublist key l known).subset ha))

/-- What is not fresh is passed over, in a list without repetitions. -/
theorem filter_not_fresh [DecidableEq α] {l : List α} (hn : l.Nodup) (known : List κ) :
    l.filter (fun a => a ∉ fresh key known l) = repeated key known l := by
  induction l generalizing known with
  | nil => rfl
  | cons a l ih =>
    rw [List.nodup_cons] at hn
    rw [fresh_cons, repeated]
    by_cases ha : key a ∈ known
    · have hout : a ∉ fresh key known l := fun hmem => hn.1 ((fresh_sublist key l known).subset hmem)
      rw [if_pos ha, if_pos ha, List.filter_cons_of_pos (by simpa using hout), ih hn.2]
    · rw [if_neg ha, if_neg ha, List.filter_cons_of_neg (by simp), ← ih hn.2 (key a :: known)]
      apply List.filter_congr
      intro b hb
      have hne : b ≠ a := fun heq => hn.1 (heq ▸ hb)
      simp [hne]

/-- Only which keys are known matters. -/
theorem fresh_congr (l : List α) : ∀ {known known' : List κ}, (∀ k, k ∈ known ↔ k ∈ known') →
    fresh key known l = fresh key known' l := by
  induction l with
  | nil => intro known known' _; rfl
  | cons a l ih =>
    intro known known' h
    have hcons : ∀ k, k ∈ key a :: known ↔ k ∈ key a :: known' := by
      intro k
      rw [List.mem_cons, List.mem_cons, h k]
    rw [fresh_cons, fresh_cons]
    by_cases ha : key a ∈ known
    · rw [if_pos ha, if_pos ((h _).mp ha), ih h]
    · rw [if_neg ha, if_neg (fun hk => ha ((h _).mpr hk)), ih hcons]

/-- The keys of the first part are known to the second. -/
theorem fresh_append (a b : List α) : ∀ known : List κ,
    fresh key known (a ++ b) = fresh key known a ++ fresh key (a.map key ++ known) b := by
  induction a with
  | nil => intro known; rfl
  | cons x a ih =>
    intro known
    rw [List.cons_append, fresh_cons, fresh_cons, List.map_cons]
    by_cases hx : key x ∈ known
    · rw [if_pos hx, if_pos hx, ih]
      congr 1
      apply fresh_congr
      intro k
      simp only [List.cons_append, List.mem_cons, List.mem_append]
      constructor
      · intro h
        exact .inr h
      · rintro (rfl | h)
        · exact .inr hx
        · exact h
    · rw [if_neg hx, if_neg hx, ih, List.cons_append]
      congr 2
      apply fresh_congr
      intro k
      simp only [List.cons_append, List.mem_cons, List.mem_append]
      exact or_left_comm

/-- The first new one is the first whose key is not known. -/
theorem head?_fresh (l : List α) : ∀ known : List κ,
    (fresh key known l).head? = l.find? fun a => decide (key a ∉ known) := by
  induction l with
  | nil => intro known; rfl
  | cons a l ih =>
    intro known
    rw [fresh_cons]
    by_cases ha : key a ∈ known
    · rw [if_pos ha, ih, List.find?_cons_of_neg (by simpa using ha)]
    · rw [if_neg ha, List.head?_cons, List.find?_cons_of_pos (by simpa using ha)]

/-- The new ones are those of the distinct ones. -/
theorem fresh_eq_filter (l : List α) : ∀ known : List κ,
    fresh key known l = (distinctBy key l).filter fun a => decide (key a ∉ known) := by
  induction l with
  | nil => intro known; rfl
  | cons a l ih =>
    intro known
    rw [fresh_cons, distinctBy, ih, ih, List.filter_cons, List.filter_filter]
    by_cases ha : key a ∈ known
    · rw [if_pos ha, if_neg (by simpa using ha)]
      apply List.filter_congr
      intro b _
      by_cases hb : key b ∈ known
      · simp [hb]
      · have hne : key b ≠ key a := fun h => hb (h ▸ ha)
        simp [hb, hne]
    · rw [if_neg ha, if_pos (by simpa using ha)]
      congr 1
      apply List.filter_congr
      intro b _
      simp only [List.mem_cons, not_or, Bool.decide_and]
      exact Bool.and_comm _ _

/-- `distinctBy` takes what is fresh when nothing is known. -/
theorem distinctBy_eq_fresh (l : List α) : distinctBy key l = fresh key [] l := by
  rw [fresh_eq_filter, List.filter_eq_self.mpr]
  intro a _
  simp

theorem nodup_distinctBy (l : List α) : ((distinctBy key l).map key).Nodup := by
  rw [distinctBy_eq_fresh]
  exact nodup_fresh key l []

theorem mem_keys_distinctBy (l : List α) (k : κ) : k ∈ (distinctBy key l).map key ↔ k ∈ l.map key := by
  rw [distinctBy_eq_fresh, mem_keys_fresh]
  simp

/-- What `distinctBy` keeps is the first record with its key. -/
theorem find?_of_mem_distinctBy {l : List α} {a : α} (h : a ∈ distinctBy key l) :
    l.find? (fun b => decide (key b = key a)) = some a := by
  induction l with
  | nil => cases h
  | cons b l ih =>
    rw [distinctBy, List.mem_cons, List.mem_filter, decide_eq_true_eq] at h
    rcases h with rfl | ⟨hmem, hne⟩
    · rw [List.find?_cons, decide_eq_true rfl]
    · rw [List.find?_cons, decide_eq_false (fun hk => hne hk.symm)]
      exact ih hmem

theorem distinctBy_sublist (l : List α) : List.Sublist (distinctBy key l) l := by
  rw [distinctBy_eq_fresh]
  exact fresh_sublist key l []

theorem distinctBy_append (a b : List α) :
    distinctBy key (a ++ b) = distinctBy key a ++ fresh key (a.map key) b := by
  rw [distinctBy_eq_fresh, distinctBy_eq_fresh, fresh_append, List.append_nil]

/-- `distinctBy` keeps the records whose key does not occur before them. -/
theorem mem_distinctBy_iff {l : List α} {a : α} :
    a ∈ distinctBy key l ↔ ∃ pre post, l = pre ++ a :: post ∧ key a ∉ pre.map key := by
  constructor
  · intro h
    obtain ⟨-, pre, post, hl, hpre⟩ := List.find?_eq_some_iff_append.mp (find?_of_mem_distinctBy key h)
    refine ⟨pre, post, hl, ?_⟩
    intro hmem
    obtain ⟨b, hb, hkey⟩ := List.mem_map.mp hmem
    have hno := hpre b hb
    rw [decide_eq_true hkey] at hno
    cases hno
  · rintro ⟨pre, post, rfl, hfresh⟩
    rw [distinctBy_append, fresh_cons, if_neg hfresh]
    exact List.mem_append_right _ List.mem_cons_self

/-- An element is kept when it is the first of its key. -/
theorem find?_eq_some_iff_mem {l : List α} {a : α} :
    l.find? (fun b => decide (key b = key a)) = some a ↔ a ∈ distinctBy key l := by
  constructor
  · intro h
    obtain ⟨-, pre, post, hl, hpre⟩ := List.find?_eq_some_iff_append.mp h
    refine (mem_distinctBy_iff key).mpr ⟨pre, post, hl, fun hmem => ?_⟩
    obtain ⟨b, hb, hkey⟩ := List.mem_map.mp hmem
    have hno := hpre b hb
    rw [decide_eq_true hkey] at hno
    cases hno
  · exact find?_of_mem_distinctBy key

end

end KeyedList

end VlessCard
