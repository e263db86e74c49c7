/-
Finite maps in insertion order, and the association lists they are made of.

The programs this development is about keep their data in linked hash maps: a
map remembers the order in which its keys first arrived, writing an existing
key keeps its place, and a lookup after a write returns what was written.
`Assoc` is that behaviour on bare lists of pairs, because a JSON object is such
a list inside a recursive type and cannot carry a proof there. `OrderedMap` and
`OrderedSet` are the same lists with the invariant (no key twice) as a field, so
that two maps with the same entries in the same order are equal and a map read
back from its own entries is the map itself.
-/
import Mathlib.Data.List.Nodup
import Mathlib.Data.List.Basic
import Mathlib.Data.List.Induction

set_option autoImplicit false

namespace VlessCard

/-! ## Association lists

The operations on the list of entries, with the lemmas that say what is found after each. The
order of the keys matters, since it is what a program prints and what a sort keeps among equals. -/

namespace Assoc

variable {κ α β : Type} [DecidableEq κ]

/-- The value of the first entry with key `k`. -/
def get? : List (κ × α) → κ → Option α
  | [], _ => none
  | (k', v) :: rest, k => if k' = k then some v else get? rest k

/-- Write `v` under `k`: an existing key keeps its place, a new one goes last. -/
def put : List (κ × α) → κ → α → List (κ × α)
  | [], k, v => [(k, v)]
  | (k', v') :: rest, k, v =>
      if k' = k then (k', v) :: rest else (k', v') :: put rest k v

/-- Remove every entry with key `k`. -/
def remove (o : List (κ × α)) (k : κ) : List (κ × α) := o.filter (fun e => e.1 ≠ k)

/-- One `put` per entry, in order. -/
def putAll (o es : List (κ × α)) : List (κ × α) := es.foldl (fun acc e => put acc e.1 e.2) o

/-- The keys in the order of the list. -/
def keys (o : List (κ × α)) : List κ := o.map Prod.fst

@[simp] theorem get?_nil (k : κ) : get? ([] : List (κ × α)) k = none := rfl

/-- The first entry of a key is the one that is found. -/
theorem get?_cons (e : κ × α) (o : List (κ × α)) (k : κ) :
    get? (e :: o) k = if e.1 = k then some e.2 else get? o k := rfl

/-- Get after put, the law every reader of this development rests on. -/
@[simp] theorem get?_put (o : List (κ × α)) (k k' : κ) (v : α) :
    get? (put o k v) k' = if k = k' then some v else get? o k' := by
  induction o with
  | nil => rfl
  | cons e rest ih =>
      by_cases he : e.1 = k
      · by_cases hk : k = k'
        · simp [put, get?_cons, he, hk]
        · simp [put, get?_cons, he, hk]
      · simp only [put, if_neg he, get?_cons, ih]
        by_cases hk : k = k'
        · have hne : e.1 ≠ k' := by rw [← hk]; exact he
          simp only [if_neg hne, if_pos hk]
        · simp only [if_neg hk]

/-- A key that is removed is not found, and every other one is found as before. -/
theorem get?_remove (o : List (κ × α)) (k k' : κ) :
    get? (remove o k) k' = if k = k' then none else get? o k' := by
  induction o with
  | nil => simp [remove]
  | cons e rest ih =>
      unfold remove at ih ⊢
      by_cases he : e.1 = k
      · rw [List.filter_cons_of_neg (by simpa using he), ih]
        by_cases hk : k = k'
        · simp [hk]
        · simp [hk, get?_cons, he]
      · rw [List.filter_cons_of_pos (by simpa using he), get?_cons, ih, get?_cons]
        by_cases hk : k = k'
        · have hne : e.1 ≠ k' := by rw [← hk]; exact he
          simp [hk, hne]
        · simp [hk]

/-- A key that is there keeps its place, and a new one comes last, as in a `LinkedHashMap`. -/
theorem keys_put (o : List (κ × α)) (k : κ) (v : α) :
    keys (put o k v) = if k ∈ keys o then keys o else keys o ++ [k] := by
  induction o with
  | nil => simp [put, keys]
  | cons e rest ih =>
      by_cases he : e.1 = k
      · simp [put, keys, he]
      · have hne : k ≠ e.1 := fun h => he h.symm
        simp only [put, if_neg he]
        simp only [keys, List.map_cons, List.mem_cons, hne, false_or] at ih ⊢
        rw [ih]
        split <;> simp_all

/-- Putting never makes a key stand twice. -/
theorem keys_put_nodup {o : List (κ × α)} (h : (keys o).Nodup) (k : κ) (v : α) :
    (keys (put o k v)).Nodup := by
  rw [keys_put]
  split
  · exact h
  · rename_i hk
    exact List.nodup_append.mpr ⟨h, List.nodup_singleton k, by
      intro a ha b hb hab
      rw [List.mem_singleton] at hb
      exact hk (hb ▸ hab ▸ ha)⟩

theorem keys_putAll_nodup (es : List (κ × α)) : ∀ {o : List (κ × α)}, (keys o).Nodup →
    (keys (putAll o es)).Nodup := by
  induction es with
  | nil => intro o h; exact h
  | cons e rest ih => intro o h; exact ih (keys_put_nodup h e.1 e.2)

/-- A new key goes last. -/
theorem put_of_not_mem {o : List (κ × α)} {k : κ} (h : k ∉ keys o) (v : α) :
    put o k v = o ++ [(k, v)] := by
  induction o with
  | nil => rfl
  | cons e rest ih =>
      simp only [keys, List.map_cons, List.mem_cons, not_or] at h
      have he : e.1 ≠ k := fun hk => h.1 hk.symm
      simp only [put, if_neg he, List.cons_append]
      rw [ih h.2]

/-- Writing entries with distinct keys, none of them present yet, appends them. -/
theorem putAll_eq_append (es : List (κ × α)) : ∀ (o : List (κ × α)),
    (keys (o ++ es)).Nodup → putAll o es = o ++ es := by
  induction es with
  | nil => intro o _; simp [putAll]
  | cons e rest ih =>
      intro o h
      have hk : e.1 ∉ keys o := by
        intro hmem
        rw [keys, List.map_append, List.nodup_append] at h
        exact h.2.2 e.1 hmem e.1 (by simp) rfl
      have hstep : putAll o (e :: rest) = putAll (put o e.1 e.2) rest := rfl
      rw [hstep, put_of_not_mem hk, ih (o ++ [(e.1, e.2)]) (by simpa using h)]
      simp

theorem mem_keys_of_get? {o : List (κ × α)} {k : κ} {v : α} (h : get? o k = some v) :
    (k, v) ∈ o := by
  induction o with
  | nil => cases h
  | cons e rest ih =>
      rw [get?_cons] at h
      split at h
      · rename_i he
        cases h
        rw [← he]
        exact List.mem_cons_self
      · exact List.mem_cons_of_mem _ (ih h)

/-- With distinct keys every entry is found under its own key. -/
theorem get?_of_mem {o : List (κ × α)} (hn : (keys o).Nodup) {e : κ × α} (h : e ∈ o) :
    get? o e.1 = some e.2 := by
  induction o with
  | nil => cases h
  | cons e' rest ih =>
      simp only [keys, List.map_cons, List.nodup_cons] at hn
      rcases List.mem_cons.mp h with rfl | hr
      · simp [get?_cons]
      · have hne : e'.1 ≠ e.1 := fun he => hn.1 (he ▸ List.mem_map_of_mem hr)
        rw [get?_cons, if_neg hne]
        exact ih hn.2 hr

/-- Something is found exactly for the keys that are there. -/
theorem get?_isSome_iff (o : List (κ × α)) (k : κ) : (get? o k).isSome ↔ k ∈ keys o := by
  induction o with
  | nil => simp [keys]
  | cons e rest ih =>
      rw [get?_cons]
      by_cases he : e.1 = k
      · simp [he, keys]
      · have hne : k ≠ e.1 := fun h => he h.symm
        simp only [if_neg he, ih, keys, List.map_cons, List.mem_cons, hne, false_or]

/-- The entries that have a value, of a list in which each key is named once. -/
def present (o : List (κ × Option α)) : List (κ × α) := o.filterMap fun e => e.2.map (Prod.mk e.1)

omit [DecidableEq κ] in
/-- Leaving out the absent values keeps the order of the keys. -/
theorem keys_present_sublist (o : List (κ × Option α)) :
    List.Sublist (keys (present o)) (keys o) := by
  induction o with
  | nil => exact List.Sublist.refl _
  | cons e rest ih =>
    obtain ⟨k, v⟩ := e
    cases v with
    | none => exact ih.cons k
    | some v => exact ih.cons_cons k

/-- A key that is named finds its value, or nothing where it has none. -/
theorem get?_present {o : List (κ × Option α)} (hn : (keys o).Nodup) {k : κ} {v : Option α}
    (h : (k, v) ∈ o) : get? (present o) k = v := by
  cases v with
  | some v =>
    have hmem : (k, v) ∈ present o := List.mem_filterMap.mpr ⟨(k, some v), h, rfl⟩
    exact get?_of_mem (hn.sublist (keys_present_sublist o)) hmem
  | none =>
    by_contra hne
    obtain ⟨v, hv⟩ := Option.ne_none_iff_exists'.mp hne
    obtain ⟨⟨k', w⟩, hmem, heq⟩ := List.mem_filterMap.mp (mem_keys_of_get? hv)
    obtain ⟨w', rfl, hpair⟩ := Option.map_eq_some_iff.mp heq
    obtain ⟨rfl, rfl⟩ := Prod.mk.inj hpair
    -- the key would be named twice, with a value and without one
    have h1 := get?_of_mem hn h
    rw [get?_of_mem hn hmem] at h1
    cases h1

/-- A key that is not there is not found among the present ones either. -/
theorem get?_present_of_not_mem {o : List (κ × Option α)} {k : κ} (h : k ∉ keys o) :
    get? (present o) k = none := by
  rw [← Option.not_isSome_iff_eq_none, get?_isSome_iff]
  exact fun hk => h ((keys_present_sublist o).subset hk)

/-- Writing a list that names each key once: what it says is read, the rest stays. -/
theorem get?_putAll {es : List (κ × α)} : (keys es).Nodup → ∀ (o : List (κ × α)) (k : κ),
    get? (putAll o es) k = (get? es k).or (get? o k) := by
  induction es with
  | nil => intro _ o k; rfl
  | cons e rest ih =>
    intro hn o k
    rw [keys, List.map_cons, List.nodup_cons] at hn
    have hstep : putAll o (e :: rest) = putAll (put o e.1 e.2) rest := rfl
    rw [hstep, ih hn.2, get?_put, get?_cons]
    by_cases hk : e.1 = k
    · -- the key is not written again
      have hrest : get? rest k = none := by
        rw [← Option.not_isSome_iff_eq_none, get?_isSome_iff, ← hk]
        exact hn.1
      rw [if_pos hk, if_pos hk, hrest]
      rfl
    · rw [if_neg hk, if_neg hk]

omit [DecidableEq κ] in
theorem keys_pairs (f : κ → α) (ks : List κ) : keys (ks.map fun k => (k, f k)) = ks := by
  rw [keys, List.map_map]
  exact List.map_id ks

/-- A table of a function is that function on its keys. -/
theorem get?_pairs (f : κ → α) (ks : List κ) (k : κ) :
    get? (ks.map fun k => (k, f k)) k = if k ∈ ks then some (f k) else none := by
  induction ks with
  | nil => rfl
  | cons k' ks ih =>
    rw [List.map_cons, get?_cons, ih]
    by_cases hk : k' = k
    · rw [if_pos hk, if_pos (hk ▸ List.mem_cons_self ..), hk]
    · have hiff : k ∈ k' :: ks ↔ k ∈ ks := by
        rw [List.mem_cons]
        exact or_iff_right (Ne.symm hk)
      rw [if_neg hk]
      exact if_congr hiff.symm rfl rfl

/-- Keeping the entries whose key passes a test. -/
theorem get?_filter_key (p : κ → Bool) (o : List (κ × α)) (k : κ) :
    get? (o.filter fun e => p e.1) k = if p k then get? o k else none := by
  induction o with
  | nil => rw [List.filter_nil, get?_nil, ite_self]
  | cons e rest ih =>
    by_cases hp : p e.1 = true
    · rw [List.filter_cons_of_pos (by simpa using hp), get?_cons, get?_cons, ih]
      by_cases hk : e.1 = k
      · rw [if_pos hk, if_pos hk, ← hk, if_pos hp]
      · rw [if_neg hk, if_neg hk]
    · rw [List.filter_cons_of_neg (by simpa using hp), ih, get?_cons]
      by_cases hk : e.1 = k
      · rw [← hk, if_neg hp, if_neg hp]
      · rw [if_neg hk]

/-- Keeping the entries that pass a test, each key named once. -/
theorem get?_filter_entry {o : List (κ × α)} (hn : (keys o).Nodup) (p : κ × α → Bool) (k : κ) :
    get? (o.filter p) k = (get? o k).filter fun v => p (k, v) := by
  induction o with
  | nil => rfl
  | cons e rest ih =>
    rw [keys, List.map_cons, List.nodup_cons] at hn
    rw [get?_cons]
    by_cases hk : e.1 = k
    · have hrest : get? rest k = none := by
        rw [← Option.not_isSome_iff_eq_none, get?_isSome_iff, ← hk]
        exact hn.1
      rw [if_pos hk, Option.filter_some]
      have hpe : p (k, e.2) = p e := by rw [← hk]
      rw [hpe]
      by_cases hp : p e = true
      · rw [List.filter_cons_of_pos hp, get?_cons, if_pos hk, if_pos hp]
      · rw [List.filter_cons_of_neg hp, ih hn.2, hrest, if_neg hp]
        rfl
    · rw [if_neg hk, ← ih hn.2]
      by_cases hp : p e = true
      · rw [List.filter_cons_of_pos hp, get?_cons, if_neg hk]
      · rw [List.filter_cons_of_neg hp]

/-- A change of every value, by its key. -/
theorem get?_map_entry (f : κ → α → β) (o : List (κ × α)) (k : κ) :
    get? (o.map fun e => (e.1, f e.1 e.2)) k = (get? o k).map (f k) := by
  induction o with
  | nil => rfl
  | cons e rest ih =>
    rw [List.map_cons, get?_cons, get?_cons, ih]
    by_cases hk : e.1 = k
    · rw [if_pos hk, if_pos hk, hk, Option.map_some]
    · rw [if_neg hk, if_neg hk]

/-- Changing the values does not change where they are found. -/
theorem get?_map_value (f : α → β) (o : List (κ × α)) (k : κ) :
    get? (o.map fun e => (e.1, f e.2)) k = (get? o k).map f := get?_map_entry (fun _ => f) o k

end Assoc

/-! ## Maps

A map is such a list in which no key stands twice. This is a field of the structure, so every
operation has to show it once and nobody else has to ask. -/

/-- A map whose keys are remembered in the order they were first written. -/
structure OrderedMap (κ α : Type) where
  entries : List (κ × α)
  nodup : (entries.map Prod.fst).Nodup

namespace OrderedMap

variable {κ α β : Type} [DecidableEq κ]

omit [DecidableEq κ] in
/-- A map is its entries; that their keys differ is no data. -/
theorem ext_entries {m n : OrderedMap κ α} (h : m.entries = n.entries) : m = n := by
  cases m; cases n; cases h; rfl

instance [DecidableEq α] : DecidableEq (OrderedMap κ α) := fun m n =>
  decidable_of_iff (m.entries = n.entries) ⟨ext_entries, fun h => h ▸ rfl⟩

/-- The map with no keys. -/
def empty : OrderedMap κ α := ⟨[], List.nodup_nil⟩

/-- The map of a list of pairs, each written in turn. -/
def ofList (es : List (κ × α)) : OrderedMap κ α :=
  ⟨Assoc.putAll [] es, Assoc.keys_putAll_nodup es List.nodup_nil⟩

def get? (m : OrderedMap κ α) (k : κ) : Option α := Assoc.get? m.entries k

def keys (m : OrderedMap κ α) : List κ := m.entries.map Prod.fst

def contains (m : OrderedMap κ α) (k : κ) : Bool := (m.get? k).isSome

def put (m : OrderedMap κ α) (k : κ) (v : α) : OrderedMap κ α :=
  ⟨Assoc.put m.entries k v, Assoc.keys_put_nodup m.nodup k v⟩

/-- Keep the entries whose key passes `p`. -/
def filterKeys (m : OrderedMap κ α) (p : κ → Bool) : OrderedMap κ α :=
  ⟨m.entries.filter (fun e => p e.1), m.nodup.sublist (List.filter_sublist.map _)⟩

/-- Replace every value, keys and their order kept. -/
def mapValues (m : OrderedMap κ α) (f : α → β) : OrderedMap κ β :=
  ⟨m.entries.map (fun e => (e.1, f e.2)), by
    simpa only [List.map_map, Function.comp_def] using m.nodup⟩

/-- A list of pairs with distinct keys is its own map. -/
theorem ofList_entries (m : OrderedMap κ α) : ofList m.entries = m :=
  ext_entries (Assoc.putAll_eq_append m.entries [] m.nodup)

/-- A map with a key put finds the new value there, and the old ones elsewhere. -/
@[simp] theorem get?_put (m : OrderedMap κ α) (k k' : κ) (v : α) :
    (m.put k v).get? k' = if k = k' then some v else m.get? k' :=
  Assoc.get?_put m.entries k k' v

/-- As the keys differ, every entry is the one that its key finds. -/
theorem get?_of_mem (m : OrderedMap κ α) {e : κ × α} (h : e ∈ m.entries) :
    m.get? e.1 = some e.2 := Assoc.get?_of_mem m.nodup h

theorem contains_iff (m : OrderedMap κ α) (k : κ) : m.contains k = true ↔ k ∈ m.keys :=
  Assoc.get?_isSome_iff m.entries k

/-- `m + n`: the entries of `n` written over those of `m`. -/
def plus (m n : OrderedMap κ α) : OrderedMap κ α :=
  ⟨Assoc.putAll m.entries n.entries, Assoc.keys_putAll_nodup n.entries m.nodup⟩

/-- `ks.associateWith f`. -/
def associateWith (ks : List κ) (f : κ → α) : OrderedMap κ α := ofList (ks.map fun k => (k, f k))

/-- What is found among filtered keys is what was found before, if the key passed. -/
theorem get?_filterKeys (m : OrderedMap κ α) (p : κ → Bool) (k : κ) :
    (m.filterKeys p).get? k = if p k then m.get? k else none :=
  Assoc.get?_filter_key p m.entries k

theorem get?_plus (m n : OrderedMap κ α) (k : κ) :
    (m.plus n).get? k = (n.get? k).or (m.get? k) := Assoc.get?_putAll n.nodup m.entries k

/-- `mapValues` changes what is found and not where. -/
theorem get?_mapValues (m : OrderedMap κ α) (f : α → β) (k : κ) :
    (m.mapValues f).get? k = (m.get? k).map f := Assoc.get?_map_value f m.entries k

omit [DecidableEq κ] in
/-- A map whose values are all kept is the same map. -/
theorem mapValues_id (m : OrderedMap κ α) : m.mapValues id = m :=
  ext_entries (List.map_id m.entries)

/-- `associateWith` over keys that differ finds the function's value for each of them. -/
theorem get?_associateWith {ks : List κ} (h : ks.Nodup) (f : κ → α) (k : κ) :
    (associateWith ks f).get? k = if k ∈ ks then some (f k) else none := by
  have hn : (Assoc.keys (ks.map fun k => (k, f k))).Nodup := by
    rw [Assoc.keys_pairs]
    exact h
  have hput := Assoc.get?_putAll hn [] k
  rw [Assoc.get?_nil, Option.or_none, Assoc.get?_pairs] at hput
  exact hput

/-! ### A table of changes

A table of changes touches each key by itself, if its own keys are distinct. So what is found
after the table is what was found before, changed once or not at all. -/

/-- Keep the entries that pass `p`. -/
def filter (m : OrderedMap κ α) (p : κ × α → Bool) : OrderedMap κ α :=
  ⟨m.entries.filter p, m.nodup.sublist (List.filter_sublist.map _)⟩

/-- The entries of a table in turn: `g` sees the value under the key and the value of
the entry, and says what to write, if anything. -/
def updateWith (g : Option α → β → Option α) (m : OrderedMap κ α) (es : List (κ × β)) :
    OrderedMap κ α :=
  es.foldl (fun m e => match g (m.get? e.1) e.2 with
    | some v => m.put e.1 v
    | none => m) m

/-- What is found in a filtered map is what was found before, if the entry passed. -/
theorem get?_filter (m : OrderedMap κ α) (p : κ × α → Bool) (k : κ) :
    (m.filter p).get? k = (m.get? k).filter fun v => p (k, v) :=
  Assoc.get?_filter_entry m.nodup p k

/-- What a map finds is one of its entries. -/
theorem mem_of_get? {m : OrderedMap κ α} {k : κ} {v : α} (h : m.get? k = some v) :
    (k, v) ∈ m.entries := Assoc.mem_keys_of_get? h

/-- One step of `updateWith`. -/
theorem get?_update_one (g : Option α → β → Option α) (m : OrderedMap κ α) (e : κ × β) (k : κ) :
    (match g (m.get? e.1) e.2 with
      | some v => m.put e.1 v
      | none => m).get? k
      = if e.1 = k then (g (m.get? k) e.2).or (m.get? k) else m.get? k := by
  by_cases hk : e.1 = k
  · rw [if_pos hk, hk]
    cases g (m.get? k) e.2 with
    | none => rfl
    | some v => rw [get?_put, if_pos rfl, Option.some_or]
  · rw [if_neg hk]
    cases g (m.get? e.1) e.2 with
    | none => rfl
    | some v => rw [get?_put, if_neg hk]

/-- Each entry changes the value under its own key, and no other. -/
theorem get?_updateWith (g : Option α → β → Option α) {es : List (κ × β)} :
    (Assoc.keys es).Nodup → ∀ (m : OrderedMap κ α) (k : κ),
      (updateWith g m es).get? k = match Assoc.get? es k with
        | some b => (g (m.get? k) b).or (m.get? k)
        | none => m.get? k := by
  induction es with
  | nil => intro _ m k; rfl
  | cons e es ih =>
    intro hn m k
    rw [Assoc.keys, List.map_cons, List.nodup_cons] at hn
    rw [updateWith, List.foldl_cons]
    refine (ih hn.2 _ k).trans ?_
    rw [get?_update_one, Assoc.get?_cons]
    by_cases hk : e.1 = k
    · -- the rest of the table does not name the key again
      have hrest : Assoc.get? es k = none := by
        rw [← Option.not_isSome_iff_eq_none, Assoc.get?_isSome_iff, ← hk]
        exact hn.1
      rw [hrest, if_pos hk, if_pos hk]
    · rw [if_neg hk, if_neg hk]

/-- What holds of every entry holds after a write of an entry of which it holds. -/
theorem forall_put {p : κ × α → Prop} {m : OrderedMap κ α} (h : ∀ e ∈ m.entries, p e) {k : κ} {v : α}
    (hv : p (k, v)) : ∀ e ∈ (m.put k v).entries, p e := by
  rintro ⟨k', v'⟩ he
  have hget := (m.put k v).get?_of_mem he
  rw [get?_put] at hget
  by_cases hk : k = k'
  · rw [if_pos hk] at hget
    have hvalue : v = v' := Option.some.inj hget
    rw [← hk, ← hvalue]
    exact hv
  · rw [if_neg hk] at hget
    exact h _ (mem_of_get? hget)

/-- What holds of every entry written holds of every entry of the map. -/
theorem forall_ofList {p : κ × α → Prop} {es : List (κ × α)} (h : ∀ e ∈ es, p e) :
    ∀ e ∈ (ofList es).entries, p e := by
  -- the map so far keeps the property while the rest is written
  have hall : ∀ (es o : List (κ × α)) (hn : (o.map Prod.fst).Nodup), (∀ e ∈ o, p e) → (∀ e ∈ es, p e) →
      ∀ e ∈ Assoc.putAll o es, p e := by
    intro es
    induction es with
    | nil => exact fun o _ ho _ => ho
    | cons e es ih =>
      intro o hn ho hes
      rw [List.forall_mem_cons] at hes
      refine ih (Assoc.put o e.1 e.2) (Assoc.keys_put_nodup hn _ _) ?_ hes.2
      exact forall_put (m := ⟨o, hn⟩) ho hes.1
  exact hall es [] List.nodup_nil (fun e he => absurd he List.not_mem_nil) h

/-- What is written is the new entry; the others have other keys. -/
theorem mem_entries_put {m : OrderedMap κ α} {k : κ} {v : α} {e : κ × α} (h : e ∈ (m.put k v).entries) :
    e = (k, v) ∨ e ∈ m.entries ∧ e.1 ≠ k := by
  have hget := get?_of_mem _ h
  rw [get?_put] at hget
  by_cases hk : k = e.1
  · rw [if_pos hk] at hget
    left
    rw [Option.some.inj hget, hk]
  · rw [if_neg hk] at hget
    exact .inr ⟨mem_of_get? hget, Ne.symm hk⟩

/-- At most one entry has a given key. -/
theorem entries_filter_key (m : OrderedMap κ α) (k : κ) :
    m.entries.filter (fun e => e.1 = k) = ((m.get? k).map fun v => (k, v)).toList := by
  obtain ⟨es, hes⟩ := m
  show es.filter (fun e => e.1 = k) = ((Assoc.get? es k).map fun v => (k, v)).toList
  induction es with
  | nil => rfl
  | cons e es ih =>
    rw [List.map_cons, List.nodup_cons] at hes
    have hrest := ih hes.2
    rw [Assoc.get?_cons]
    by_cases hk : e.1 = k
    · have hnone : es.filter (fun e => e.1 = k) = [] := by
        rw [List.filter_eq_nil_iff]
        intro e' he' heq
        exact hes.1 (List.mem_map.mpr ⟨e', he', (of_decide_eq_true heq).trans hk.symm⟩)
      rw [if_pos hk, List.filter_cons, if_pos (decide_eq_true hk), hnone, ← hk]
      rfl
    · rw [if_neg hk, List.filter_cons, if_neg (by rw [decide_eq_true_iff]; exact hk)]
      exact hrest

/-- A new key is written at the end. -/
theorem entries_put {m : OrderedMap κ α} {k : κ} (h : m.contains k = false) (v : α) :
    (m.put k v).entries = m.entries ++ [(k, v)] := by
  apply Assoc.put_of_not_mem
  intro hk
  rw [(m.contains_iff k).mpr hk] at h
  cases h

/-- A new key makes the map longer by one. -/
theorem length_put {m : OrderedMap κ α} {k : κ} (h : m.contains k = false) (v : α) :
    (m.put k v).entries.length = m.entries.length + 1 := by
  rw [entries_put h, List.length_append, List.length_singleton]

/-- Entries whose keys are distinct are kept as they are. -/
theorem entries_ofList {es : List (κ × α)} (h : (es.map Prod.fst).Nodup) :
    (ofList es).entries = es := Assoc.putAll_eq_append es [] h

/-- `associateBy`: of several members with one key the last is kept. -/
def associateBy (key : α → κ) (l : List α) : OrderedMap κ α := ofList (l.map fun a => (key a, a))

/-- `associateBy` keeps the last element of a key. -/
theorem get?_associateBy (key : α → κ) (l : List α) (k : κ) :
    (associateBy key l).get? k = l.reverse.find? fun a => decide (key a = k) := by
  induction l using List.reverseRecOn with
  | nil => rfl
  | append_singleton l a ih =>
    have hput : associateBy key (l ++ [a]) = (associateBy key l).put (key a) a := by
      apply ext_entries
      show Assoc.putAll [] _ = Assoc.put (Assoc.putAll [] _) _ _
      rw [Assoc.putAll, List.map_append, List.foldl_append]
      rfl
    have hget : (associateBy key (l ++ [a])).get? k
        = if key a = k then some a else (associateBy key l).get? k := by
      rw [hput]
      exact Assoc.get?_put _ _ _ _
    rw [hget, ih, List.reverse_append, List.reverse_singleton, List.singleton_append, List.find?_cons]
    by_cases h : key a = k
    · rw [if_pos h, decide_eq_true h]
    · rw [if_neg h, decide_eq_false h]

/-- What is found under a key is a member with that key. -/
theorem of_get?_associateBy {key : α → κ} {l : List α} {k : κ} {a : α}
    (h : (associateBy key l).get? k = some a) : a ∈ l ∧ key a = k := by
  rw [get?_associateBy] at h
  exact ⟨List.mem_reverse.mp (List.mem_of_find?_eq_some h), by simpa using List.find?_some h⟩

/-- Every key that some element has is found. -/
theorem exists_get?_associateBy {key : α → κ} {l : List α} {k : κ} (h : k ∈ l.map key) :
    ∃ a, (associateBy key l).get? k = some a := by
  obtain ⟨a, ha, hk⟩ := List.mem_map.mp h
  rw [get?_associateBy]
  exact Option.isSome_iff_exists.mp (List.find?_isSome.mpr ⟨a, List.mem_reverse.mpr ha, decide_eq_true hk⟩)

end OrderedMap

/-! ## Sets

Sets are lists without repetitions, in the order in which their members came. -/

/-- A set whose members are remembered in the order they were first added. -/
structure OrderedSet (α : Type) where
  toList : List α
  nodup : toList.Nodup

end VlessCard
