/-
`cloud_real.py`, checking in shards: the queue is cut into strides, every shard
checks its own, and `merge_results` puts the result files together.

The merge reads files another job wrote, so it checks everything it uses and
raises `ValueError` on whatever does not fit. Two laws: shards of one queue put
together are the unsharded check, and nothing but a complete set of shards is
put together at all.
-/
import VlessCard.CloudHistory
import VlessCard.Strides

set_option autoImplicit false

namespace VlessCard

namespace CloudReal

open Strides

/-! ## Checking

A check asks for each link by itself, so its result does not depend on which other links are
asked for. A shard writes down what it was given and what it found. -/

/-- `check`: link to milliseconds; a link Xray cannot express has no result. `probe`
is the real request. -/
def check (probe : String → Option ℕ) (links : List String) : OrderedMap String ℤ :=
  .ofList (links.filterMap fun l => (probe l).map fun ms : ℕ => (l, (ms : ℤ)))

/-- One result file. -/
structure Shard where
  shard : ℤ
  shards : ℤ
  assigned : ℤ
  results : OrderedMap String PyVal

/-- What `json.loads` makes of the file. -/
def Shard.toPy (s : Shard) : PyVal :=
  .dict [("shard", .int s.shard), ("shards", .int s.shards), ("assigned", .int s.assigned),
    ("results", .dict s.results.entries)]

/-- The file a shard writes: `assigned` of the queue checked. -/
def shardFile (probe : String → Option ℕ) (todo : List String) (index count : ℕ) : Shard :=
  let assigned := stride index count todo
  { shard := index, shards := count, assigned := assigned.length
    results := (check probe assigned).mapValues .int }

/-! ## `merge_results`

The merge reads the files of a directory in any order, and refuses them all when one is not as it
should be. It gives the numbers of the shards a second look after the loop, so missing ones are
found as well. -/

/-- One result of a file. -/
def addResult (todo expected : List String) (merged : OrderedMap String ℤ)
    (e : String × PyVal) : Py (OrderedMap String ℤ) :=
  match e.2 with
  | .int ms =>
    if e.1 ∉ todo ∨ e.1 ∉ expected ∨ merged.contains e.1 = true ∨ ms < 0 then .error .ValueError
    else .ok (merged.put e.1 ms)
  | _ => .error .ValueError

/-- `todo[start::count]`. -/
def slice (todo : List String) (start : ℤ) (count : ℕ) : List String :=
  stride (if start < 0 then (start + todo.length).toNat else start.toNat) count todo

/-- One file. -/
def addRow (todo : List String) (count : ℕ) (merged : OrderedMap String ℤ) (row : PyVal) :
    Py (OrderedMap String ℤ) := do
  let start ← (← row.item "shard").index
  let expected := slice todo start count
  if !(← row.item "assigned").eqInt (distinct expected).length then throw .ValueError
  let results ← (← row.item "results").items
  results.foldlM (addResult todo expected) merged

/-- `{r["shard"] for r in rows} != set(range(count))` is false. -/
def sameShards (shards : List PyVal) (count : ℕ) : Bool :=
  shards.all (fun v => (List.range count).any fun i => v.eqInt i) &&
    (List.range count).all fun i => shards.any fun v => v.eqInt i

/-- `r["shard"]`, hashed. -/
def shardOf (row : PyVal) : Py PyVal := do
  let v ← row.item "shard"
  if v.hashable then return v else throw .TypeError

/-- `any(r["shards"] != count for r in rows)`. -/
def anyOther (count : ℤ) : List PyVal → Py Bool
  | [] => return false
  | row :: rows => do
    if (← row.item "shards").eqInt count then anyOther count rows else return true

/-- The shard count of the first file. -/
def countOf (row : PyVal) : Py ℕ := do
  match ← row.item "shards" with
  | .int n => if 1 ≤ n ∧ n ≤ 16 then return n.toNat else throw .ValueError
  | _ => throw .ValueError

/-- `merge_results` over the files of the directory. -/
def mergeResults (rows : List PyVal) (todo : List String) : Py (OrderedMap String ℤ) := do
  match rows with
  | [] => throw .ValueError
  | first :: _ =>
    let count ← countOf first
    if rows.length ≠ count then throw .ValueError
    if !sameShards (← rows.mapM shardOf) count then throw .ValueError
    if ← anyOther count rows then throw .ValueError
    rows.foldlM (addRow todo count) .empty

/-! ## One file

One file is taken if it has all of its stride and its results are of links in it, each named
once. Anything else raises `ValueError`, whatever is wrong with it. -/

/-- A result that belongs to the shard: one of its links, with a time. -/
def Fits (expected : List String) (e : String × PyVal) : Prop :=
  e.1 ∈ expected ∧ ∃ ms, 0 ≤ ms ∧ e.2 = .int ms

theorem addResult_ok {todo expected : List String} {merged : OrderedMap String ℤ}
    (hsub : ∀ l ∈ expected, l ∈ todo) {l : String} {ms : ℤ} (hl : l ∈ expected) (hms : 0 ≤ ms)
    (hnew : merged.contains l = false) :
    addResult todo expected merged (l, .int ms) = .ok (merged.put l ms) := by
  rw [addResult]
  dsimp only
  rw [if_neg]
  rintro (h | h | h | h)
  · exact h (hsub l hl)
  · exact h hl
  · rw [hnew] at h
    cases h
  · omega

theorem addResult_error {todo expected : List String} {merged : OrderedMap String ℤ}
    {e : String × PyVal} (h : ¬ Fits expected e) :
    addResult todo expected merged e = .error .ValueError := by
  obtain ⟨l, v⟩ := e
  unfold addResult
  dsimp only
  split
  · rename_i ms
    rw [if_pos]
    by_contra hno
    simp only [not_or, not_not, not_lt] at hno
    exact h ⟨hno.2.1, ms, hno.2.2.2, rfl⟩
  · rfl

/-- Whatever is wrong with a result, the error is the same. -/
theorem addResult_raises {todo expected : List String} {merged : OrderedMap String ℤ}
    {e : String × PyVal} {x : PyError} (h : addResult todo expected merged e = .error x) :
    x = .ValueError := by
  unfold addResult at h
  split at h
  · split at h
    · exact (Except.error.inj h).symm
    · cases h
  · exact (Except.error.inj h).symm

/-- The results of one file, all of them links of the shard not seen before. -/
theorem addResults_ok {todo expected : List String} (hsub : ∀ l ∈ expected, l ∈ todo)
    {es : List (String × PyVal)} : (Assoc.keys es).Nodup → ∀ (merged : OrderedMap String ℤ),
    (∀ e ∈ es, Fits expected e) → (∀ e ∈ es, merged.contains e.1 = false) →
    ∃ m, es.foldlM (addResult todo expected) merged = .ok m ∧
      ∀ l ms, m.get? l = some ms ↔ (l, .int ms) ∈ es ∨ merged.get? l = some ms := by
  induction es with
  | nil =>
    intro _ merged _ _
    exact ⟨merged, rfl, by simp⟩
  | cons e es ih =>
    intro hkeys merged hfits hnew
    obtain ⟨l, v⟩ := e
    obtain ⟨hl, ms, hms, hv⟩ := hfits (l, v) (List.mem_cons_self ..)
    obtain rfl : v = .int ms := hv
    have hl' : l ∉ Assoc.keys es ∧ (Assoc.keys es).Nodup := List.nodup_cons.mp hkeys
    -- writing this link leaves the later ones new
    have hrest : ∀ e ∈ es, (merged.put l ms).contains e.1 = false := by
      intro e he
      have hne : l ≠ e.1 := fun heq => hl'.1 (heq ▸ List.mem_map_of_mem he)
      rw [OrderedMap.contains, OrderedMap.get?_put, if_neg hne]
      exact hnew e (List.mem_cons_of_mem _ he)
    obtain ⟨m, hm, hget⟩ := ih hl'.2 (merged.put l ms)
      (fun e he => hfits e (List.mem_cons_of_mem _ he)) hrest
    refine ⟨m, ?_, ?_⟩
    · rw [List.foldlM_cons, addResult_ok hsub hl hms (hnew (l, .int ms) (List.mem_cons_self ..))]
      exact hm
    · intro k n
      rw [hget, OrderedMap.get?_put, List.mem_cons, Prod.mk.injEq, PyVal.int.injEq]
      by_cases hk : l = k
      · have hnone : merged.get? k = none := by
          have := hnew (l, .int ms) (List.mem_cons_self ..)
          rw [OrderedMap.contains, Option.isSome_eq_false_iff, Option.isNone_iff_eq_none] at this
          rw [← hk]
          exact this
        rw [if_pos hk, hnone, Option.some.injEq]
        constructor
        · rintro (h | h)
          · exact .inl (.inr h)
          · exact .inl (.inl ⟨hk.symm, h.symm⟩)
        · rintro ((⟨-, h⟩ | h) | h)
          · exact .inr h.symm
          · exact .inl h
          · cases h
      · rw [if_neg hk]
        constructor
        · rintro (h | h)
          · exact .inl (.inr h)
          · exact .inr h
        · rintro ((⟨h, -⟩ | h) | h)
          · exact absurd h.symm hk
          · exact .inl h
          · exact .inr h

/-- A result that does not fit stops the merge. -/
theorem addResults_error {todo expected : List String} {es : List (String × PyVal)} :
    ∀ {merged : OrderedMap String ℤ}, (¬ ∀ e ∈ es, Fits expected e) →
      es.foldlM (addResult todo expected) merged = .error .ValueError := by
  induction es with
  | nil =>
    intro merged h
    exact absurd (fun e he => by cases he) h
  | cons e es ih =>
    intro merged h
    rw [List.foldlM_cons]
    by_cases he : Fits expected e
    · have hrest : ¬ ∀ e ∈ es, Fits expected e := by
        intro hall
        apply h
        intro e' he'
        rcases List.mem_cons.mp he' with rfl | he'
        · exact he
        · exact hall e' he'
      cases hstep : addResult todo expected merged e with
      | error x =>
        rw [addResult_raises hstep]
        rfl
      | ok m => exact ih hrest
    · rw [addResult_error he]
      rfl

/-! ## All files

A complete set of files has each shard once, all of one count and all whole. Such a set is put
together in any order, and any other set is refused. -/

/-- A file of the shard it names: the whole stride was assigned, and every result
belongs to it. -/
def Shard.Whole (todo : List String) (count : ℕ) (s : Shard) : Prop :=
  s.assigned = (distinct (slice todo s.shard count)).length ∧
    ∀ e ∈ s.results.entries, Fits (slice todo s.shard count) e

/-- A file is taken when it has as many results as its part of the list. -/
theorem addRow_toPy (todo : List String) (count : ℕ) (merged : OrderedMap String ℤ) (s : Shard) :
    addRow todo count merged s.toPy =
      if s.assigned = (distinct (slice todo s.shard count)).length then
        s.results.entries.foldlM (addResult todo (slice todo s.shard count)) merged
      else .error .ValueError := by
  have hshard : s.toPy.item "shard" = .ok (.int s.shard) := rfl
  have hassigned : s.toPy.item "assigned" = .ok (.int s.assigned) := rfl
  have hresults : s.toPy.item "results" = .ok (.dict s.results.entries) := rfl
  rw [addRow, hshard, hassigned, hresults]
  by_cases h : s.assigned = (distinct (slice todo s.shard count)).length
  · have heq : (PyVal.int s.assigned).eqInt (distinct (slice todo s.shard count)).length = true :=
      (PyVal.eqInt_int _ _).mpr h
    rw [if_pos h]
    simp only [PyVal.index, PyVal.items, bind, Except.bind, heq, Bool.not_true, Bool.false_eq_true,
      if_false]
  · have heq : (PyVal.int s.assigned).eqInt (distinct (slice todo s.shard count)).length = false := by
      rw [Bool.eq_false_iff, ne_eq, PyVal.eqInt_int]
      exact h
    rw [if_neg h]
    simp only [PyVal.index, bind, Except.bind, heq, Bool.not_false, if_true]
    rfl

theorem slice_subset (todo : List String) (start : ℤ) (count : ℕ) :
    ∀ l ∈ slice todo start count, l ∈ todo := fun _ h => (stride_sublist _ _ _).subset h

/-- Whole files of different shards add up. -/
theorem addRows_ok {todo : List String} (htodo : todo.Nodup) {count : ℕ} {rows : List Shard} :
    (rows.map Shard.shard).Nodup → (∀ s ∈ rows, 0 ≤ s.shard ∧ s.shard < count) →
    (∀ s ∈ rows, s.Whole todo count) → ∀ (merged : OrderedMap String ℤ),
    (∀ s ∈ rows, ∀ l ∈ slice todo s.shard count, merged.contains l = false) →
    ∃ m, (rows.map Shard.toPy).foldlM (addRow todo count) merged = .ok m ∧
      ∀ l ms, m.get? l = some ms ↔
        (∃ s ∈ rows, s.results.get? l = some (.int ms)) ∨ merged.get? l = some ms := by
  induction rows with
  | nil =>
    intro _ _ _ merged _
    exact ⟨merged, rfl, by simp⟩
  | cons s rows ih =>
    intro hshards hrange hwhole merged hnew
    rw [List.map_cons, List.nodup_cons] at hshards
    obtain ⟨hassigned, hfits⟩ := hwhole s (List.mem_cons_self ..)
    obtain ⟨m₁, hm₁, hget₁⟩ := addResults_ok (slice_subset todo s.shard count) s.results.nodup
      merged hfits fun e he => hnew s (List.mem_cons_self ..) e.1 (hfits e he).1
    -- the other shards have other links
    have hother : ∀ s' ∈ rows, ∀ l ∈ slice todo s'.shard count, m₁.contains l = false := by
      intro s' hs' l hl
      rw [OrderedMap.contains, Option.isSome_eq_false_iff, Option.isNone_iff_eq_none,
        Option.eq_none_iff_forall_ne_some]
      intro ms hms
      rcases (hget₁ l ms).mp hms with hmem | hold
      · have hs := hrange s (List.mem_cons_self ..)
        have hs'' := hrange s' (List.mem_cons_of_mem _ hs')
        have hin : l ∈ slice todo s.shard count := (hfits _ hmem).1
        rw [slice, if_neg (by omega)] at hl hin
        have heq := stride_unique htodo (by omega) (by omega) hin hl
        have : s.shard = s'.shard := by omega
        exact hshards.1 (this ▸ List.mem_map_of_mem hs')
      · have hno := hnew s' (List.mem_cons_of_mem _ hs') l hl
        rw [OrderedMap.contains, hold] at hno
        cases hno
    obtain ⟨m, hm, hget⟩ := ih hshards.2 (fun s' h => hrange s' (List.mem_cons_of_mem _ h))
      (fun s' h => hwhole s' (List.mem_cons_of_mem _ h)) m₁ hother
    refine ⟨m, ?_, ?_⟩
    · rw [List.map_cons, List.foldlM_cons, addRow_toPy, if_pos hassigned, hm₁]
      exact hm
    · intro l ms
      rw [hget, hget₁, List.exists_mem_cons_iff, or_assoc]
      have hentry : (l, PyVal.int ms) ∈ s.results.entries ↔ s.results.get? l = some (.int ms) :=
        ⟨fun h => s.results.get?_of_mem h, OrderedMap.mem_of_get?⟩
      rw [hentry]
      constructor
      · rintro (h | h | h)
        · exact .inr (.inl h)
        · exact .inl h
        · exact .inr (.inr h)
      · rintro (h | h | h)
        · exact .inr (.inl h)
        · exact .inl h
        · exact .inr (.inr h)

/-- What is refused is refused as a wrong value. -/
theorem addRow_raises {todo : List String} {count : ℕ} {merged : OrderedMap String ℤ} {s : Shard}
    {x : PyError} (h : addRow todo count merged s.toPy = .error x) : x = .ValueError := by
  rw [addRow_toPy] at h
  split at h
  · exact Python.foldlM_raises (fun _ _ _ => addResult_raises) h
  · exact (Except.error.inj h).symm

/-- A file that is not whole stops the merge. -/
theorem addRows_error {todo : List String} {count : ℕ} {rows : List Shard} :
    ∀ {merged : OrderedMap String ℤ}, (¬ ∀ s ∈ rows, s.Whole todo count) →
      (rows.map Shard.toPy).foldlM (addRow todo count) merged = .error .ValueError := by
  induction rows with
  | nil =>
    intro merged h
    exact absurd (fun s hs => by cases hs) h
  | cons s rows ih =>
    intro merged h
    rw [List.map_cons, List.foldlM_cons]
    cases hstep : addRow todo count merged s.toPy with
    | error x =>
      rw [addRow_raises hstep]
      rfl
    | ok m =>
      -- this file is whole, so another is not
      have hs : s.Whole todo count := by
        rw [addRow_toPy] at hstep
        split at hstep
        · rename_i hassigned
          refine ⟨hassigned, ?_⟩
          by_contra hno
          rw [addResults_error hno] at hstep
          cases hstep
        · cases hstep
      apply ih
      intro hall
      apply h
      intro s' hs'
      rcases List.mem_cons.mp hs' with rfl | hs'
      · exact hs
      · exact hall s' hs'

/-- The shards are those of the count, each once. -/
def Numbered (count : ℕ) (rows : List Shard) : Prop :=
  (rows.map Shard.shard).Perm ((List.range count).map Nat.cast)

/-- A complete set of files: one a shard, all of one count, all whole. -/
structure Complete (todo : List String) (rows : List Shard) (count : ℕ) : Prop where
  pos : 1 ≤ count
  le : count ≤ 16
  same : ∀ s ∈ rows, s.shards = count
  numbered : Numbered count rows
  whole : ∀ s ∈ rows, s.Whole todo count

/-- As many files as numbers, and every number among them. -/
theorem numbered_of_cover {rows : List Shard} {count : ℕ} (hlen : rows.length = count)
    (hcover : ∀ i ∈ (List.range count).map (Nat.cast : ℕ → ℤ), i ∈ rows.map Shard.shard) :
    Numbered count rows := by
  have hnodup : ((List.range count).map (Nat.cast : ℕ → ℤ)).Nodup :=
    List.Nodup.map Nat.cast_injective List.nodup_range
  have hlength : (rows.map Shard.shard).length = ((List.range count).map (Nat.cast : ℕ → ℤ)).length := by
    rw [List.length_map, List.length_map, List.length_range, hlen]
  have hsub : List.Subperm ((List.range count).map (Nat.cast : ℕ → ℤ)) (rows.map Shard.shard) :=
    hnodup.subperm hcover
  exact (hsub.perm_of_length_le hlength.le).symm

/-- The files are there once each just when they are numbered so. -/
theorem sameShards_iff {rows : List Shard} {count : ℕ} (hlen : rows.length = count) :
    sameShards (rows.map fun s => .int s.shard) count = true ↔ Numbered count rows := by
  -- the set of the source, as a statement about both lists
  have hset : sameShards (rows.map fun s => .int s.shard) count = true ↔
      (∀ s ∈ rows, s.shard ∈ (List.range count).map Nat.cast) ∧
        ∀ i ∈ (List.range count).map (Nat.cast : ℕ → ℤ), i ∈ rows.map Shard.shard := by
    rw [sameShards, Bool.and_eq_true, List.all_eq_true, List.all_eq_true]
    constructor
    · rintro ⟨hknown, hall⟩
      constructor
      · intro s hs
        obtain ⟨i, hi, heq⟩ := List.any_eq_true.mp (hknown _ (List.mem_map_of_mem hs))
        exact List.mem_map.mpr ⟨i, hi, ((PyVal.eqInt_int _ _).mp heq).symm⟩
      · intro n hn
        obtain ⟨i, hi, rfl⟩ := List.mem_map.mp hn
        obtain ⟨v, hv, heq⟩ := List.any_eq_true.mp (hall i hi)
        obtain ⟨s, hs, rfl⟩ := List.mem_map.mp hv
        exact List.mem_map.mpr ⟨s, hs, (PyVal.eqInt_int _ _).mp heq⟩
    · rintro ⟨hknown, hall⟩
      constructor
      · intro v hv
        obtain ⟨s, hs, rfl⟩ := List.mem_map.mp hv
        obtain ⟨i, hi, heq⟩ := List.mem_map.mp (hknown s hs)
        exact List.any_eq_true.mpr ⟨i, hi, (PyVal.eqInt_int _ _).mpr heq.symm⟩
      · intro i hi
        obtain ⟨s, hs, heq⟩ := List.mem_map.mp (hall i (List.mem_map_of_mem hi))
        exact List.any_eq_true.mpr ⟨_, List.mem_map_of_mem hs, (PyVal.eqInt_int _ _).mpr heq⟩
  rw [hset]
  -- one direction is counting: as many files as numbers, and all numbers there
  constructor
  · rintro ⟨-, hcover⟩
    exact numbered_of_cover hlen hcover
  · intro hperm
    refine ⟨fun s hs => hperm.subset (List.mem_map_of_mem hs), fun i hi => hperm.symm.subset hi⟩

theorem anyOther_toPy (count : ℕ) (rows : List Shard) :
    anyOther count (rows.map Shard.toPy) = .ok (rows.any fun s => s.shards ≠ count) := by
  induction rows with
  | nil => rfl
  | cons s rows ih =>
    have hshards : s.toPy.item "shards" = .ok (.int s.shards) := rfl
    rw [List.map_cons, anyOther, hshards, List.any_cons]
    by_cases h : s.shards = count
    · have heq : (PyVal.int s.shards).eqInt count = true := (PyVal.eqInt_int _ _).mpr h
      have hfalse : decide (s.shards ≠ count) = false := decide_eq_false (not_not.mpr h)
      rw [hfalse, Bool.false_or]
      simp only [bind, Except.bind, heq, if_true, ih]
    · have heq : (PyVal.int s.shards).eqInt count = false := by
        rw [Bool.eq_false_iff, ne_eq, PyVal.eqInt_int]
        exact h
      rw [decide_eq_true h, Bool.true_or]
      simp only [bind, Except.bind, heq, Bool.false_eq_true, if_false]
      rfl

theorem shardOf_toPy (rows : List Shard) :
    (rows.map Shard.toPy).mapM shardOf = .ok (rows.map fun s => .int s.shard) := by
  induction rows with
  | nil => rfl
  | cons s rows ih =>
    rw [List.map_cons, List.mapM_cons, ih]
    rfl

theorem countOf_toPy (s : Shard) :
    countOf s.toPy =
      if 1 ≤ s.shards ∧ s.shards ≤ 16 then .ok s.shards.toNat else .error .ValueError := rfl

/-- The merge of well-formed files, check by check. -/
theorem mergeResults_toPy (todo : List String) (first : Shard) (rest : List Shard) :
    mergeResults ((first :: rest).map Shard.toPy) todo =
      if ¬ (1 ≤ first.shards ∧ first.shards ≤ 16) ∨
          (first :: rest).length ≠ first.shards.toNat ∨
          sameShards ((first :: rest).map fun s => .int s.shard) first.shards.toNat = false ∨
          ((first :: rest).any fun s => s.shards ≠ first.shards.toNat) = true then
        .error .ValueError
      else ((first :: rest).map Shard.toPy).foldlM (addRow todo first.shards.toNat) .empty := by
  have hshards := shardOf_toPy (first :: rest)
  have hany := anyOther_toPy first.shards.toNat (first :: rest)
  rw [List.map_cons] at hshards hany ⊢
  rw [mergeResults, countOf_toPy]
  -- the checks in the order of the source
  by_cases hcount : 1 ≤ first.shards ∧ first.shards ≤ 16
  · rw [if_pos hcount]
    simp only [bind, Except.bind, hshards, hany, List.length_cons, List.length_map]
    by_cases hlen : rest.length + 1 ≠ first.shards.toNat
    · rw [if_pos hlen]
      exact (if_pos (.inr (.inl hlen))).symm
    rw [if_neg hlen]
    by_cases hsame : sameShards ((first :: rest).map fun s => .int s.shard) first.shards.toNat = false
    · rw [if_pos (by rw [hsame]; rfl)]
      exact (if_pos (.inr (.inr (.inl hsame)))).symm
    have hset := hsame
    rw [Bool.not_eq_false] at hsame
    rw [if_neg (by rw [hsame]; decide)]
    by_cases hother : ((first :: rest).any fun s => s.shards ≠ first.shards.toNat) = true
    · rw [if_pos hother]
      exact (if_pos (.inr (.inr (.inr hother)))).symm
    · rw [if_neg hother, if_neg]
      rintro (h | h | h | h)
      · exact h hcount
      · exact hlen h
      · exact hset h
      · exact hother h
  · rw [if_neg hcount, if_pos (.inl hcount)]
    rfl

/-- A complete set of files is put together: every result of every file, and no other. -/
theorem mergeResults_complete {todo : List String} (htodo : todo.Nodup) {rows : List Shard}
    {count : ℕ} (h : Complete todo rows count) :
    ∃ m, mergeResults (rows.map Shard.toPy) todo = .ok m ∧
      ∀ l ms, m.get? l = some ms ↔ ∃ s ∈ rows, s.results.get? l = some (.int ms) := by
  have hlen : rows.length = count := by
    have := h.numbered.length_eq
    rwa [List.length_map, List.length_map, List.length_range] at this
  have hnodup : (rows.map Shard.shard).Nodup :=
    h.numbered.nodup_iff.mpr (List.Nodup.map Nat.cast_injective List.nodup_range)
  have hrange : ∀ s ∈ rows, 0 ≤ s.shard ∧ s.shard < count := by
    intro s hs
    obtain ⟨i, hi, heq⟩ := List.mem_map.mp (h.numbered.subset (List.mem_map_of_mem hs))
    rw [List.mem_range] at hi
    omega
  obtain ⟨m, hm, hget⟩ := addRows_ok htodo hnodup hrange h.whole .empty
    fun s _ l _ => rfl
  refine ⟨m, ?_, ?_⟩
  -- there is a first file, which the checks go by
  · cases rows with
    | nil =>
      have := h.pos
      rw [List.length_nil] at hlen
      omega
    | cons first rest =>
      have hfirst : first.shards = count := h.same first (List.mem_cons_self ..)
      have hcount : first.shards.toNat = count := by omega
      have hpos := h.pos
      have hle := h.le
      rw [mergeResults_toPy, hcount, if_neg]
      · exact hm
      · rintro (hno | hno | hno | hno)
        · omega
        · exact hno hlen
        · rw [(sameShards_iff hlen).mpr h.numbered] at hno
          cases hno
        · obtain ⟨s, hs, hne⟩ := List.any_eq_true.mp hno
          exact of_decide_eq_true hne (h.same s hs)
  · intro l ms
    rw [hget]
    exact or_iff_left (fun hempty => by cases hempty)

/-- Anything else is refused, and with `ValueError`. -/
theorem mergeResults_refused {todo : List String} {rows : List Shard}
    (h : ¬ ∃ count, Complete todo rows count) :
    mergeResults (rows.map Shard.toPy) todo = .error .ValueError := by
  cases rows with
  | nil => rfl
  | cons first rest =>
    rw [mergeResults_toPy]
    split
    · rfl
    · rename_i hchecks
      simp only [not_or, not_not] at hchecks
      obtain ⟨hcount, hlen, hset, hsame⟩ := hchecks
      have hcast : (first.shards.toNat : ℤ) = first.shards := by omega
      apply addRows_error
      intro hwhole
      refine h ⟨first.shards.toNat, by omega, by omega, ?_, ?_, hwhole⟩
      · intro s hs
        by_contra hne
        exact hsame (List.any_eq_true.mpr ⟨s, hs, decide_eq_true hne⟩)
      · rw [Bool.not_eq_false] at hset
        exact (sameShards_iff hlen).mp hset

/-! ## Files of any shape

The files could hold anything, since they come from other machines. Here it is shown that a merge
which returns has read nothing but whole files, with numbers that may be written in any way
Python compares as equal. -/

/-- What the merge reads in a file: numbers as Python compares them, and results. -/
def FileOf (row : PyVal) (s : Shard) : Prop :=
  (∃ v, row.item "shard" = .ok v ∧ v.index = .ok s.shard) ∧
    (∃ v, row.item "shards" = .ok v ∧ v.eqInt s.shards = true) ∧
    (∃ v, row.item "assigned" = .ok v ∧ v.eqInt s.assigned = true) ∧
    row.item "results" = .ok (.dict s.results.entries)

/-- Results that were all added are new, named once, and belong to the shard. -/
theorem addResults_fits {todo expected : List String} {es : List (String × PyVal)} :
    ∀ {merged m : OrderedMap String ℤ}, es.foldlM (addResult todo expected) merged = .ok m →
      (Assoc.keys es).Nodup ∧ ∀ e ∈ es, Fits expected e ∧ merged.contains e.1 = false := by
  induction es with
  | nil =>
    intro merged m _
    exact ⟨List.nodup_nil, fun e he => by cases he⟩
  | cons e es ih =>
    intro merged m h
    rw [List.foldlM_cons] at h
    obtain ⟨l, v⟩ := e
    have hfits : Fits expected (l, v) := by
      by_contra hno
      rw [addResult_error hno] at h
      cases h
    obtain ⟨hl, ms, hms, hv⟩ := hfits
    obtain rfl : v = .int ms := hv
    unfold addResult at h
    dsimp only at h
    split at h
    · cases h
    · rename_i hnew
      simp only [not_or, Bool.not_eq_true] at hnew
      obtain ⟨hkeys, hrest⟩ := ih h
      -- a later result under the same link would find it taken
      have hlater : ∀ e ∈ es, l ≠ e.1 ∧ merged.contains e.1 = false := by
        intro e he
        have hput := (hrest e he).2
        rw [OrderedMap.contains, OrderedMap.get?_put] at hput
        by_cases heq : l = e.1
        · rw [if_pos heq] at hput
          cases hput
        · rw [if_neg heq] at hput
          exact ⟨heq, hput⟩
      refine ⟨List.nodup_cons.mpr ⟨?_, hkeys⟩, ?_⟩
      · intro hmem
        obtain ⟨e, he, heq⟩ := List.mem_map.mp hmem
        exact (hlater e he).1 heq.symm
      · intro e he
        rcases List.mem_cons.mp he with rfl | he
        · exact ⟨⟨hl, ms, hms, rfl⟩, hnew.2.2.1⟩
        · exact ⟨(hrest e he).1, (hlater e he).2⟩

/-- A file that was added is the whole file of the shard it names. -/
theorem addRow_file {todo : List String} {count : ℕ} {merged m : OrderedMap String ℤ} {row : PyVal}
    (h : addRow todo count merged row = .ok m)
    (hshards : ∃ v, row.item "shards" = .ok v ∧ v.eqInt count = true) :
    ∃ s, FileOf row s ∧ s.shards = count ∧ s.Whole todo count := by
  rw [addRow] at h
  obtain ⟨v, hv, h⟩ := Python.bind_ok h
  obtain ⟨start, hstart, h⟩ := Python.bind_ok h
  obtain ⟨w, hw, h⟩ := Python.bind_ok h
  dsimp only at h
  split at h
  · cases h
  · rename_i hassigned
    rw [Bool.not_eq_true, Bool.not_eq_false'] at hassigned
    obtain ⟨r, hr, h⟩ := Python.bind_ok h
    obtain ⟨es, hes, h⟩ := Python.bind_ok h
    obtain ⟨hkeys, hfits⟩ := addResults_fits h
    have hdict : r = .dict es := by
      cases r with
      | dict o => exact congrArg PyVal.dict (Except.ok.inj hes)
      | _ => cases hes
    refine ⟨⟨start, count, (distinct (slice todo start count)).length, ⟨es, hkeys⟩⟩,
      ⟨⟨v, hv, hstart⟩, hshards, ⟨w, hw, hassigned⟩, hdict ▸ hr⟩, rfl, rfl, ?_⟩
    intro e he
    exact (hfits e he).1

/-- Files that were all added are whole, each of the shard it names. -/
theorem addRows_files {todo : List String} {count : ℕ} {rows : List PyVal} :
    ∀ {merged m : OrderedMap String ℤ}, rows.foldlM (addRow todo count) merged = .ok m →
      anyOther count rows = .ok false →
      ∃ files, List.Forall₂ FileOf rows files ∧ ∀ s ∈ files, s.shards = count ∧ s.Whole todo count := by
  induction rows with
  | nil =>
    intro merged m _ _
    exact ⟨[], List.Forall₂.nil, fun s hs => by cases hs⟩
  | cons row rows ih =>
    intro merged m h hother
    rw [List.foldlM_cons] at h
    obtain ⟨m₁, hrow, hrows⟩ := Python.bind_ok h
    rw [anyOther] at hother
    obtain ⟨v, hv, hother⟩ := Python.bind_ok hother
    split at hother
    · rename_i hcount
      obtain ⟨s, hs, hall⟩ := addRow_file hrow ⟨v, hv, hcount⟩
      obtain ⟨files, hfiles, hwhole⟩ := ih hrows hother
      refine ⟨s :: files, List.Forall₂.cons hs hfiles, ?_⟩
      intro s' hs'
      rcases List.mem_cons.mp hs' with rfl | hs'
      · exact hall
      · exact hwhole s' hs'
    · cases hother

/-- The shard a file names compares as its number. -/
theorem shardOf_files {rows : List PyVal} {files : List Shard} (h : List.Forall₂ FileOf rows files) :
    ∀ {vs : List PyVal}, rows.mapM shardOf = .ok vs →
      ∀ i : ℤ, vs.map (fun v => v.eqInt i) = files.map fun s => (PyVal.int s.shard).eqInt i := by
  induction h with
  | nil =>
    intro vs hvs i
    cases hvs
    rfl
  | cons hfile _ ih =>
    intro vs hvs i
    obtain ⟨⟨v, hv, hindex⟩, -⟩ := hfile
    rw [List.mapM_cons] at hvs
    obtain ⟨v', hv', hvs⟩ := Python.bind_ok hvs
    obtain ⟨vs', hvs', hvs⟩ := Python.bind_ok hvs
    cases hvs
    rw [shardOf, hv] at hv'
    have heq : v' = v := by
      change (if v.hashable then _ else _) = _ at hv'
      split at hv'
      · exact (Except.ok.inj hv').symm
      · cases hv'
    rw [List.map_cons, List.map_cons, ih hvs' i, heq, PyVal.eqInt_of_index hindex]

/-- So files that are read are files that were written. -/
theorem sameShards_files {vs : List PyVal} {files : List Shard} {count : ℕ}
    (h : ∀ i : ℤ, vs.map (fun v => v.eqInt i) = files.map fun s => (PyVal.int s.shard).eqInt i)
    (hsame : sameShards vs count = true) :
    ∀ i ∈ (List.range count).map (Nat.cast : ℕ → ℤ), i ∈ files.map Shard.shard := by
  rw [sameShards, Bool.and_eq_true, List.all_eq_true, List.all_eq_true] at hsame
  intro n hn
  obtain ⟨i, hi, rfl⟩ := List.mem_map.mp hn
  obtain ⟨v, hv, heq⟩ := List.any_eq_true.mp (hsame.2 i hi)
  have hmem : true ∈ vs.map fun v => v.eqInt (i : ℤ) := List.mem_map.mpr ⟨v, hv, heq⟩
  rw [h] at hmem
  obtain ⟨s, hs, heq⟩ := List.mem_map.mp hmem
  exact List.mem_map.mpr ⟨s, hs, (PyVal.eqInt_int _ _).mp heq⟩

/-- Whatever the files hold, only a complete set of them is put together. -/
theorem mergeResults_returns {todo : List String} {rows : List PyVal} {m : OrderedMap String ℤ}
    (h : mergeResults rows todo = .ok m) :
    ∃ files count, List.Forall₂ FileOf rows files ∧ Complete todo files count := by
  unfold mergeResults at h
  cases rows with
  | nil => cases h
  | cons first rest =>
    dsimp only at h
    obtain ⟨count, hcount, h⟩ := Python.bind_ok h
    -- `countOf` gives only what is an integer from one to sixteen
    have hrange : 1 ≤ count ∧ count ≤ 16 := by
      rw [countOf] at hcount
      obtain ⟨v, -, hcount⟩ := Python.bind_ok hcount
      cases v with
      | int n =>
        dsimp only at hcount
        split at hcount
        · have hn := Except.ok.inj hcount
          omega
        · cases hcount
      | _ => cases hcount
    -- each check that was passed is a condition of `Complete`
    split at h
    · cases h
    · rename_i hlen
      obtain ⟨vs, hvs, h⟩ := Python.bind_ok h
      split at h
      · cases h
      · rename_i hsame
        rw [Bool.not_eq_true, Bool.not_eq_false'] at hsame
        obtain ⟨other, hother, h⟩ := Python.bind_ok h
        cases other with
        | true => cases h
        | false =>
          obtain ⟨files, hfiles, hwhole⟩ := addRows_files h hother
          have hlength : files.length = count := hfiles.length_eq.symm.trans (not_not.mp hlen)
          have hcover := sameShards_files (shardOf_files hfiles hvs) hsame
          exact ⟨files, count, hfiles, hrange.1, hrange.2, fun s hs => (hwhole s hs).1,
            numbered_of_cover hlength hcover, fun s hs => (hwhole s hs).2⟩

/-! ## Shards of one queue

The strides of a queue share no link and leave none out. So the results of all shards say of each
link what one check of the queue says of it. -/

/-- A link that was checked has its own result, whatever else was checked. -/
theorem get?_check (probe : String → Option ℕ) {links : List String} (hn : links.Nodup)
    (l : String) : (check probe links).get? l =
      if l ∈ links then (probe l).map fun ms : ℕ => (ms : ℤ) else none := by
  have hpresent : (links.filterMap fun l => (probe l).map fun ms : ℕ => (l, (ms : ℤ))) =
      Assoc.present (links.map fun l => (l, (probe l).map fun ms : ℕ => (ms : ℤ))) := by
    rw [Assoc.present, List.filterMap_map]
    congr 1
    funext l
    exact (Option.map_map ..).symm
  have hkeys : (Assoc.keys (links.map fun l => (l, (probe l).map fun ms : ℕ => (ms : ℤ)))).Nodup := by
    rw [Assoc.keys_pairs]
    exact hn
  have hsub := hkeys.sublist (Assoc.keys_present_sublist _)
  rw [check, OrderedMap.get?, hpresent, OrderedMap.entries_ofList hsub]
  by_cases hl : l ∈ links
  · rw [if_pos hl]
    exact Assoc.get?_present hkeys (List.mem_map.mpr ⟨l, hl, rfl⟩)
  · rw [if_neg hl]
    apply Assoc.get?_present_of_not_mem
    rw [Assoc.keys_pairs]
    exact hl

/-- The files of all shards of a queue, in any order, are complete. -/
theorem complete_shardFiles (probe : String → Option ℕ) {todo : List String} (htodo : todo.Nodup)
    {count : ℕ} (hpos : 1 ≤ count) (hle : count ≤ 16) {rows : List Shard}
    (hrows : rows.Perm ((List.range count).map fun i => shardFile probe todo i count)) :
    Complete todo rows count := by
  -- every file is one that a runner writes
  have hfile : ∀ s ∈ rows, ∃ i : ℕ, s = shardFile probe todo i count := by
    intro s hs
    obtain ⟨i, -, heq⟩ := List.mem_map.mp (hrows.subset hs)
    exact ⟨i, heq.symm⟩
  refine ⟨hpos, hle, ?_, ?_, ?_⟩
  · intro s hs
    obtain ⟨i, rfl⟩ := hfile s hs
    rfl
  · have hmap := hrows.map Shard.shard
    rw [List.map_map] at hmap
    exact hmap
  · intro s hs
    obtain ⟨i, rfl⟩ := hfile s hs
    have hslice : slice todo (i : ℤ) count = stride i count todo := by
      rw [slice, if_neg (by omega), Int.toNat_natCast]
    have hnodup : (stride i count todo).Nodup := htodo.sublist (stride_sublist i count todo)
    refine ⟨?_, ?_⟩
    · show ((stride i count todo).length : ℤ) = (distinct (slice todo (i : ℤ) count)).length
      rw [hslice, distinct_of_nodup hnodup]
    · intro e he
      have hget := ((check probe (stride i count todo)).mapValues PyVal.int).get?_of_mem he
      rw [OrderedMap.get?_mapValues, get?_check probe hnodup] at hget
      -- what a file has are the links of its own part, each with a number that is not negative
      by_cases hmem : e.1 ∈ stride i count todo
      · rw [if_pos hmem] at hget
        obtain ⟨n, hn, hint⟩ := Option.map_eq_some_iff.mp hget
        obtain ⟨ms, -, rfl⟩ := Option.map_eq_some_iff.mp hn
        exact ⟨by rw [← hslice] at hmem; exact hmem, ms, Int.natCast_nonneg ms, hint.symm⟩
      · rw [if_neg hmem] at hget
        cases hget

/-- The files of all shards together say of every link what one check of the whole queue
says of it. -/
theorem get?_shardFiles (probe : String → Option ℕ) {todo : List String} (htodo : todo.Nodup)
    {count : ℕ} (hpos : 1 ≤ count) {rows : List Shard}
    (hrows : rows.Perm ((List.range count).map fun i => shardFile probe todo i count))
    (l : String) (ms : ℤ) :
    (∃ s ∈ rows, s.results.get? l = some (.int ms)) ↔ (check probe todo).get? l = some ms := by
  have hfile (i : ℕ) : (shardFile probe todo i count).results.get? l =
      if l ∈ stride i count todo then (probe l).map fun ms => .int ms else none := by
    rw [shardFile, OrderedMap.get?_mapValues,
      get?_check probe (htodo.sublist (stride_sublist i count todo))]
    split
    · exact Option.map_map ..
    · rfl
  rw [get?_check probe htodo]
  constructor
  -- a link is in the file of its own part alone
  · rintro ⟨s, hs, hget⟩
    obtain ⟨i, -, rfl⟩ := List.mem_map.mp (hrows.subset hs)
    rw [hfile] at hget
    by_cases hl : l ∈ stride i count todo
    · rw [if_pos hl] at hget
      obtain ⟨n, hn, hint⟩ := Option.map_eq_some_iff.mp hget
      rw [if_pos ((stride_sublist i count todo).subset hl), hn]
      exact congrArg some (PyVal.int.inj hint)
    · rw [if_neg hl] at hget
      cases hget
  · intro hget
    by_cases hl : l ∈ todo
    · rw [if_pos hl] at hget
      obtain ⟨n, hn, rfl⟩ := Option.map_eq_some_iff.mp hget
      -- each link is in some part, as the parts go through the whole list
      obtain ⟨i, hi, hmem⟩ := exists_stride (k := count) hpos hl
      refine ⟨shardFile probe todo i count,
        hrows.symm.subset (List.mem_map.mpr ⟨i, List.mem_range.mpr hi, rfl⟩), ?_⟩
      rw [hfile, if_pos hmem, hn]
      rfl
    · rw [if_neg hl] at hget
      cases hget

/-- **Checking in shards is checking at once, or nothing.** The queue holds every
link that answered exactly once. Whatever the requests say of the links, the
files of all shards, read in any order, are put together into the results of one
check of the whole queue. Files that are no such complete set (a shard missing,
named twice or too many, another count, another number of assigned links, a link
of another shard, a time that is negative or no integer) raise `ValueError`; and
whatever JSON the files hold, the merge returns nothing unless they are complete. -/
theorem sharded_check_is_check (ru all : List String) (hist : History)
    (hn : ∀ e ∈ hist.entries, 0 ≤ e.2.n) :
    ∃ todo, checkQueue ru all hist = .ok todo ∧
      (todo.Nodup ∧ ∀ l, l ∈ todo ↔ l ∈ ru ∨ l ∈ all) ∧
      (∀ (probe : String → Option ℕ) (count : ℕ), 1 ≤ count → count ≤ 16 → ∀ rows : List Shard,
        rows.Perm ((List.range count).map fun i => shardFile probe todo i count) →
        ∃ m, mergeResults (rows.map Shard.toPy) todo = .ok m ∧
          ∀ l, m.get? l = (check probe todo).get? l) ∧
      (∀ rows : List Shard, (¬ ∃ count, Complete todo rows count) →
        mergeResults (rows.map Shard.toPy) todo = .error .ValueError) ∧
      ∀ (rows : List PyVal) m, mergeResults rows todo = .ok m →
        ∃ files count, List.Forall₂ FileOf rows files ∧ Complete todo files count := by
  obtain ⟨todo, hqueue, hperm⟩ := checkQueue_ok ru all hn
  have htodo : todo.Nodup := hperm.nodup_iff.mpr (nodup_distinct (ru ++ all))
  refine ⟨todo, hqueue, ⟨htodo, ?_⟩, ?_, ?_, ?_⟩
  · intro l
    rw [hperm.mem_iff, mem_distinct, List.mem_append]
  · intro probe count hpos hle rows hrows
    obtain ⟨m, hm, hget⟩ := mergeResults_complete htodo
      (complete_shardFiles probe htodo hpos hle hrows)
    refine ⟨m, hm, ?_⟩
    intro l
    apply Option.ext
    intro ms
    rw [hget, get?_shardFiles probe htodo hpos hrows]
  · intro rows hrows
    exact mergeResults_refused hrows
  · intro rows m hm
    exact mergeResults_returns hm

/-- Three links in two shards, one of them not expressible. -/
theorem sharded_check_is_check_two :
    ∃ todo, checkQueue ["vless://a", "vless://b"] ["vless://b", "vless://c"] .empty = .ok todo ∧
      ∃ m, mergeResults [(shardFile (fun l => if l = "vless://b" then none else some 90) todo 1 2).toPy,
          (shardFile (fun l => if l = "vless://b" then none else some 90) todo 0 2).toPy] todo = .ok m ∧
        m.get? "vless://c" = some 90 ∧ m.get? "vless://b" = none := by
  obtain ⟨todo, hqueue, ⟨hnodup, hmem⟩, hsharded, -⟩ :=
    sharded_check_is_check ["vless://a", "vless://b"] ["vless://b", "vless://c"] .empty
      (fun e he => by cases he)
  obtain ⟨m, hm, hget⟩ := hsharded (fun l => if l = "vless://b" then none else some 90) 2
    (by decide) (by decide) _ (List.Perm.swap _ _ [])
  refine ⟨todo, hqueue, m, hm, ?_, ?_⟩
  · rw [hget, get?_check _ hnodup, if_pos ((hmem _).mpr (by decide))]
    rfl
  · rw [hget, get?_check _ hnodup]
    split
    · rfl
    · rfl

end CloudReal

end VlessCard
