/-
`cloud_reports.py`: how many phones sit on each server.

A report lists the servers its phone uses, and the merge keeps the last list of each
phone for three hours. The published load of a server is how often it occurs in the
lists that are kept, for the three hundred servers that occur most. It is the number of
phones on the server only where no list repeats it, no list is kept that an empty one
should have replaced, and the table has room for every server in use.
-/
import VlessCard.CloudMalformed
import VlessCard.Ranking

set_option autoImplicit false

namespace VlessCard

/-! ## Counting

The script counts with a dictionary whose entries stay where they were first put. So the count of
a key is how often it stands in the list, and keys with equal counts keep the order of their
first occurrence. -/

theorem nodup_keys {κ α : Type} (m : OrderedMap κ α) : m.keys.Nodup := m.nodup

section Counting

variable {κ : Type} [DecidableEq κ]

/-- One more of each of the keys. -/
def countAll (m : OrderedMap κ ℕ) (ks : List κ) : OrderedMap κ ℕ :=
  ks.foldl (fun m k => m.put k ((m.get? k).getD 0 + 1)) m

theorem getD_countAll (ks : List κ) (k : κ) : ∀ (m : OrderedMap κ ℕ),
    ((countAll m ks).get? k).getD 0 = (m.get? k).getD 0 + ks.count k := by
  induction ks with
  | nil => exact fun m => rfl
  | cons a ks ih =>
    intro m
    rw [countAll, List.foldl_cons]
    refine (ih _).trans ?_
    rw [OrderedMap.get?_put, List.count_cons]
    by_cases hk : a = k
    · rw [if_pos hk, if_pos (beq_iff_eq.mpr hk), hk, Option.getD_some]
      omega
    · rw [if_neg hk, if_neg (by rw [beq_iff_eq]; exact hk), Nat.add_zero]

/-- A key that is written goes last, or stays where it was. -/
theorem keys_put_eq {α : Type} (m : OrderedMap κ α) (k : κ) (v : α) :
    (m.put k v).keys = (m.keys ++ [k]).eraseDups := by
  refine (Assoc.keys_put m.entries k v).trans ?_
  show (if k ∈ m.keys then m.keys else m.keys ++ [k]) = _
  split
  · rename_i hk
    rw [List.eraseDups_append, eraseDups_of_nodup (nodup_keys m)]
    simp [List.removeAll, hk]
  · rename_i hk
    rw [eraseDups_of_nodup (List.nodup_append.mpr ⟨nodup_keys m, List.nodup_singleton k, ?_⟩)]
    intro a ha b hb hab
    rw [List.mem_singleton.mp hb] at hab
    exact hk (hab ▸ ha)

/-- The keys that are counted stand in the order in which they first occur. -/
theorem keys_countAll {ks : List κ} : ∀ {m : OrderedMap κ ℕ}, (countAll m ks).keys = (m.keys ++ ks).eraseDups := by
  induction ks with
  | nil =>
    intro m
    rw [List.append_nil, eraseDups_of_nodup (nodup_keys m)]
    rfl
  | cons a ks ih =>
    intro m
    rw [countAll, List.foldl_cons]
    refine ih.trans ?_
    rw [keys_put_eq, eraseDups_append_left, List.append_assoc, List.singleton_append]

/-- So an entry says how often its key stands in the list. -/
theorem countAll_entry {ks : List κ} {e : κ × ℕ} (h : e ∈ (countAll .empty ks).entries) :
    e.2 = ks.count e.1 := by
  have hcount := getD_countAll ks e.1 .empty
  rw [OrderedMap.get?_of_mem _ h] at hcount
  exact hcount.trans (Nat.zero_add _)

end Counting

namespace CloudReports

open PyVal (Sliceable elements)

variable (P : Runtime)

/-! ## Phones and their lists

What the claim speaks of is said without the merge: the list of each phone that is reported last,
the list that is kept of it, and the servers that phones sit on. The two lists differ where the
last one is empty. -/

/-- The phone a report is from. -/
def phoneOf (r : Report) : String := P.sha10 (field P r "id" 16)

/-- The servers a report lists. -/
def keysOf (r : Report) : List String := usersOf (elements (Assoc.get? r "use") 8)

def reportsOf (reports : List Report) (phone : String) : List Report :=
  reports.filter fun r => phoneOf P r = phone

/-- The list of a phone that the state still knows. -/
def knownUse (prev : Option Cloud) (now : ℤ) (phone : String) : List String :=
  ((prev.bind fun c => (c.use.get? phone).filter fun u => decide (now - u.t < 3 * 3600)).map Use.s).getD []

/-- What the last report of a phone within three hours lists. -/
def lastUse (prev : Option Cloud) (reports : List Report) (now : ℤ) (phone : String) : List String :=
  ((reportsOf P reports phone).getLast?.map keysOf).getD (knownUse prev now phone)

/-- The list of a phone that is counted: the last one with a server in it. -/
def keptUse (prev : Option Cloud) (reports : List Report) (now : ℤ) (phone : String) : List String :=
  (((reportsOf P reports phone).filter fun r => keysOf r ≠ []).getLast?.map keysOf).getD
    (knownUse prev now phone)

/-- All phones there are lists of. -/
def phones (prev : Option Cloud) (reports : List Report) : Finset String :=
  (((prev.map fun c => c.use.keys).getD []) ++ reports.map (phoneOf P)).toFinset

/-- How many phones sit on a server. -/
def sitting (prev : Option Cloud) (reports : List Report) (now : ℤ) (key : String) : ℕ :=
  ((phones P prev reports).filter fun p => key ∈ lastUse P prev reports now p).card

/-- No phone's list names the server twice, and none is kept that names it after the phone
reported that it left. -/
def CountedOnce (prev : Option Cloud) (reports : List Report) (now : ℤ) (key : String) : Prop :=
  ∀ p, (keptUse P prev reports now p).count key ≤ 1 ∧
    (key ∈ keptUse P prev reports now p → key ∈ lastUse P prev reports now p)

/-- The servers phones sit on. -/
def inUse (prev : Option Cloud) (reports : List Report) (now : ℤ) : Finset String :=
  (phones P prev reports).biUnion fun p => (lastUse P prev reports now p).toFinset

/-- The phones whose lists are kept, in the order the state has them in. -/
def keptPhones (prev : Option Cloud) (reports : List Report) (now : ℤ) : List String :=
  (((prev.map fun c => (c.use.filter fun e => decide (now - e.2.t < 3 * 3600)).keys).getD []) ++
    (reports.filter fun r => keysOf r ≠ []).map (phoneOf P)).eraseDups

/-- What the kept lists name, list after list. -/
def listed (prev : Option Cloud) (reports : List Report) (now : ℤ) : List String :=
  (keptPhones P prev reports now).flatMap (keptUse P prev reports now)

/-- `a` is listed at least as often as `b`. -/
def atLeast (prev : Option Cloud) (reports : List Report) (now : ℤ) (a b : String) : Bool :=
  (listed P prev reports now).count b ≤ (listed P prev reports now).count a

/-- The servers of the lists, those that are listed most in front. -/
def ranked (prev : Option Cloud) (reports : List Report) (now : ℤ) : List String :=
  (listed P prev reports now).eraseDups.mergeSort (atLeast P prev reports now)

/-- `a` has a better place in the table than `b`: it is listed more often, or as often and
named first. -/
def Heavier (prev : Option Cloud) (reports : List Report) (now : ℤ) : String → String → Prop :=
  Ranking.Ahead (atLeast P prev reports now) (listed P prev reports now).eraseDups

instance (prev : Option Cloud) (reports : List Report) (now : ℤ) :
    DecidableRel (Heavier P prev reports now) :=
  fun a b => inferInstanceAs (Decidable (Ranking.Ahead _ _ a b))

/-- Nobody sits on the server any more, and three hundred servers in use push it out of the
table. -/
def PushedOut (prev : Option Cloud) (reports : List Report) (now : ℤ) (key : String) : Prop :=
  key ∉ inUse P prev reports now ∧
    300 ≤ ((inUse P prev reports now).filter fun k => Heavier P prev reports now k key).card

/-- The table has room for every server in use, and the lists that are kept are right about
each server that is not pushed out of it. -/
structure LoadsFit (prev : Option Cloud) (reports : List Report) (now : ℤ) : Prop where
  few : (inUse P prev reports now).card ≤ 300
  counted : ∀ key, CountedOnce P prev reports now key ∨ PushedOut P prev reports now key

variable {P}

/-- Where the last report lists anything, its list is the one that is kept. -/
theorem keptUse_of_mem {prev : Option Cloud} {reports : List Report} {now : ℤ} {p key : String}
    (h : key ∈ lastUse P prev reports now p) : keptUse P prev reports now p = lastUse P prev reports now p := by
  rw [lastUse] at h ⊢
  rw [keptUse]
  cases hlast : (reportsOf P reports p).getLast? with
  | none =>
    have hnil := List.getLast?_eq_none_iff.mp hlast
    rw [hnil]
    rfl
  | some r =>
    rw [hlast, Option.map_some, Option.getD_some] at h
    obtain ⟨init, hinit⟩ := List.getLast?_eq_some_iff.mp hlast
    have hlisted : [r].filter (fun r => decide (keysOf r ≠ [])) = [r] := by
      rw [List.filter_eq_self]
      intro r' hr'
      rw [List.mem_singleton.mp hr']
      exact decide_eq_true (List.ne_nil_of_mem h)
    rw [hinit, List.filter_append, hlisted, List.getLast?_concat]

/-! ## What the merge keeps

The loop over the reports writes the list of a phone only when it names a server. After it a
phone has the last such list, or what the state before had of it within three hours. -/

/-- A report with keys replaces what its phone had in use. -/
theorem use_addReport {now : ℤ} {w w' : Work} {r : Report} (h : addReport P now w r = .ok w') :
    w'.use = if keysOf r = [] then w.use else w.use.put (phoneOf P r) { t := now, s := keysOf r } := by
  have hs := ((addReport_returns_iff P now w r).mp ⟨w', h⟩).1
  rw [addReport_eq, PyVal.sliceOr_eq hs, Python.ok_bind] at h
  obtain ⟨acc, -, h⟩ := Python.bind_ok h
  obtain ⟨votes, -, h⟩ := Python.bind_ok h
  obtain ⟨links, -, h⟩ := Python.bind_ok h
  rw [← Except.ok.inj h]
  rfl

/-- The lists after the loop: of each phone the last one with a server in it. -/
theorem use_loop {now : ℤ} {reports : List Report} (p : String) : ∀ {w w' : Work},
    reports.foldlM (addReport P now) w = .ok w' →
      w'.use.get? p = (((reportsOf P reports p).filter fun r => keysOf r ≠ []).getLast?.map
        fun r => { t := now, s := keysOf r }).or (w.use.get? p) := by
  induction reports with
  | nil =>
    intro w w' h
    rw [← Except.ok.inj h]
    rfl
  | cons r reports ih =>
    -- a later report of the phone wins, as it does in the dict
    intro w w' h
    rw [List.foldlM_cons] at h
    obtain ⟨w₁, hw₁, h⟩ := Python.bind_ok h
    have huse := use_addReport hw₁
    rw [ih h, huse]
    by_cases hp : phoneOf P r = p
    · have hcons : reportsOf P (r :: reports) p = r :: reportsOf P reports p :=
        List.filter_cons_of_pos (decide_eq_true hp)
      rw [hcons]
      -- a report without keys leaves what was there
      by_cases hk : keysOf r = []
      · rw [if_pos hk, List.filter_cons_of_neg (by simp [hk])]
      · rw [if_neg hk, OrderedMap.get?_put, if_pos hp, List.filter_cons_of_pos (by simp [hk]),
          List.getLast?_cons]
        cases ((reportsOf P reports p).filter fun r => keysOf r ≠ []).getLast? with
        | none => rfl
        | some r' => rfl
    · have hcons : reportsOf P (r :: reports) p = reportsOf P reports p :=
        List.filter_cons_of_neg (by rw [decide_eq_true_iff]; exact hp)
      rw [hcons]
      by_cases hk : keysOf r = []
      · rw [if_pos hk]
      · rw [if_neg hk, OrderedMap.get?_put, if_neg hp]

/-- At the start a phone has what it reported within three hours. -/
theorem start_use (prev : Option Cloud) (now : ℤ) (p : String) :
    (start P prev now).2.use.get? p =
      prev.bind fun c => (c.use.get? p).filter fun u => decide (now - u.t < 3 * 3600) := by
  cases prev with
  | none => rfl
  | some c => exact OrderedMap.get?_filter c.use _ p

/-- The lists that are counted are those the state keeps. -/
theorem kept_eq {prev : Option Cloud} {reports : List Report} {now : ℤ} {w : Work}
    (h : reports.foldlM (addReport P now) (start P prev now).2 = .ok w) (p : String) :
    ((w.use.get? p).map Use.s).getD [] = keptUse P prev reports now p := by
  rw [use_loop p h, start_use, keptUse, knownUse]
  cases ((reportsOf P reports p).filter fun r => keysOf r ≠ []).getLast? with
  | none => rfl
  | some r => rfl

/-- The phones that are kept: those of the last three hours, and those that report now. -/
theorem mem_keptPhones {prev : Option Cloud} {reports : List Report} {now : ℤ} {p : String} :
    p ∈ keptPhones P prev reports now ↔
      p ∈ ((prev.map fun c => (c.use.filter fun e => decide (now - e.2.t < 3 * 3600)).keys).getD []) ∨
        ∃ r ∈ reports, keysOf r ≠ [] ∧ phoneOf P r = p := by
  rw [keptPhones, List.mem_eraseDups, List.mem_append, List.mem_map]
  refine or_congr_right (exists_congr fun r => ?_)
  rw [List.mem_filter, decide_eq_true_iff, and_assoc]

/-- A phone without a kept list has none. -/
theorem keptUse_of_not_mem {prev : Option Cloud} {reports : List Report} {now : ℤ} {p : String}
    (hp : p ∉ keptPhones P prev reports now) : keptUse P prev reports now p = [] := by
  rw [mem_keptPhones, not_or] at hp
  have hnone : (reportsOf P reports p).filter (fun r => keysOf r ≠ []) = [] := by
    rw [List.filter_eq_nil_iff]
    intro r hr hk
    rw [reportsOf, List.mem_filter, decide_eq_true_iff] at hr
    exact hp.2 ⟨r, hr.1, of_decide_eq_true hk, hr.2⟩
  have hknown : knownUse prev now p = [] := by
    rw [knownUse]
    cases prev with
    | none => rfl
    | some c =>
      have hget : (c.use.filter fun e => decide (now - e.2.t < 3 * 3600)).get? p = none := by
        rw [← Option.not_isSome_iff_eq_none]
        exact fun hsome => hp.1 ((OrderedMap.contains_iff _ p).mp hsome)
      rw [OrderedMap.get?_filter] at hget
      rw [Option.bind_some, hget]
      rfl
  rw [keptUse, hnone, hknown]
  rfl

/-- Only phones there are reports of have lists. -/
theorem keptPhones_subset {prev : Option Cloud} {reports : List Report} {now : ℤ} {p : String}
    (hp : p ∈ keptPhones P prev reports now) : p ∈ phones P prev reports := by
  rw [phones, List.mem_toFinset, List.mem_append]
  rcases mem_keptPhones.mp hp with hp | ⟨r, hr, -, rfl⟩
  · cases prev with
    | none => exact absurd hp List.not_mem_nil
    | some c =>
      obtain ⟨e, he, rfl⟩ := List.mem_map.mp hp
      exact .inl (List.mem_map_of_mem (List.mem_of_mem_filter he))
  · exact .inr (List.mem_map_of_mem hr)

/-- How often a server is listed, as a sum over all phones. -/
theorem count_listed (prev : Option Cloud) (reports : List Report) (now : ℤ) (key : String) :
    (listed P prev reports now).count key =
      ∑ p ∈ phones P prev reports, (keptUse P prev reports now p).count key := by
  have hsub : (keptPhones P prev reports now).toFinset ⊆ phones P prev reports :=
    fun p hp => keptPhones_subset (List.mem_toFinset.mp hp)
  calc (listed P prev reports now).count key
      = ((keptPhones P prev reports now).map fun p => (keptUse P prev reports now p).count key).sum :=
        List.count_flatMap
    _ = ∑ p ∈ (keptPhones P prev reports now).toFinset, (keptUse P prev reports now p).count key :=
        (List.sum_toFinset _ (nodup_eraseDups _)).symm
    _ = ∑ p ∈ phones P prev reports, (keptUse P prev reports now p).count key := by
        refine Finset.sum_subset hsub fun p _ hp => ?_
        -- a phone without a list counts nowhere
        rw [keptUse_of_not_mem fun hmem => hp (List.mem_toFinset.mpr hmem)]
        rfl

/-- The phones of the lists, in the order of the state. -/
theorem keys_loop {now : ℤ} {reports : List Report} : ∀ {w w' : Work},
    reports.foldlM (addReport P now) w = .ok w' →
      w'.use.keys = (w.use.keys ++ (reports.filter fun r => keysOf r ≠ []).map (phoneOf P)).eraseDups := by
  induction reports with
  | nil =>
    intro w w' h
    rw [← Except.ok.inj h, List.filter_nil, List.map_nil, List.append_nil,
      eraseDups_of_nodup (nodup_keys w.use)]
  | cons r reports ih =>
    intro w w' h
    rw [List.foldlM_cons] at h
    obtain ⟨w₁, hw₁, h⟩ := Python.bind_ok h
    rw [ih h, use_addReport hw₁]
    by_cases hk : keysOf r = []
    · rw [if_pos hk, List.filter_cons_of_neg (by simp [hk])]
    · rw [if_neg hk, List.filter_cons_of_pos (by simp [hk]), keys_put_eq, eraseDups_append_left,
        List.append_assoc, List.map_cons, List.singleton_append]

/-- The lists of the state, one after the other. -/
theorem lists_loop {prev : Option Cloud} {reports : List Report} {now : ℤ} {w : Work}
    (h : reports.foldlM (addReport P now) (start P prev now).2 = .ok w) :
    (w.use.entries.flatMap fun u => u.2.s) = listed P prev reports now := by
  have hkeys : w.use.keys = keptPhones P prev reports now := by
    rw [keys_loop h, keptPhones]
    cases prev with
    | none => rfl
    | some c => rfl
  rw [listed, ← hkeys, OrderedMap.keys, List.flatMap_map]
  refine List.flatMap_congr fun u hu => ?_
  rw [← kept_eq h, OrderedMap.get?_of_mem _ hu]
  rfl

/-! ## The published table

The table is sorted by the counts, and only its first three hundred entries are published. What
is cut off counts as no load at all. -/

theorem mem_ranked {prev : Option Cloud} {reports : List Report} {now : ℤ} {key : String} :
    key ∈ ranked P prev reports now ↔ key ∈ listed P prev reports now := by
  rw [ranked, List.mem_mergeSort, List.mem_eraseDups]

theorem nodup_ranked (prev : Option Cloud) (reports : List Report) (now : ℤ) :
    (ranked P prev reports now).Nodup :=
  (List.mergeSort_perm _ _).nodup_iff.mpr (nodup_eraseDups _)

theorem pairwise_ranked (prev : Option Cloud) (reports : List Report) (now : ℤ) :
    (ranked P prev reports now).Pairwise (Heavier P prev reports now) := by
  refine Ranking.pairwise_mergeSort ?_ ?_ (nodup_eraseDups _)
  · intro a b c hab hbc
    exact decide_eq_true ((of_decide_eq_true hbc).trans (of_decide_eq_true hab))
  · intro a b
    rw [Bool.or_eq_true]
    exact (le_total _ _).imp decide_eq_true decide_eq_true

/-- The published load: the first three hundred servers, each with how often it is listed. -/
theorem load_eq {prev : Option Cloud} {reports : List Report} {now : ℤ} {c : Cloud}
    (h : merge P prev reports now = .ok c) :
    c.load = ((ranked P prev reports now).take 300).map fun k => (k, (listed P prev reports now).count k) := by
  rw [merge] at h
  obtain ⟨net, -, h⟩ := Python.bind_ok h
  obtain ⟨work, hwork, h⟩ := Python.bind_ok h
  obtain ⟨profiles, -, h⟩ := Python.bind_ok h
  split at h
  · rw [← Except.ok.inj h]
    show ((countAll .empty (work.use.entries.flatMap fun u => u.2.s)).entries.mergeSort
      fun a b => b.2 ≤ a.2).take 300 = _
    -- the table in the order of the lists
    have htable : (countAll .empty (listed P prev reports now)).entries =
        (listed P prev reports now).eraseDups.map fun k => (k, (listed P prev reports now).count k) := by
      have hkeys : (countAll .empty (listed P prev reports now)).keys = _ := keys_countAll
      rw [show OrderedMap.empty.keys = ([] : List String) from rfl, List.nil_append] at hkeys
      rw [← hkeys, OrderedMap.keys, List.map_map]
      refine (List.map_id _).symm.trans (List.map_congr_left fun e he => ?_)
      rw [Function.comp_apply, ← countAll_entry he]
      rfl
    rw [lists_loop hwork, htable, List.map_take, ranked, List.map_mergeSort]
    exact fun a _ b _ => rfl
  · cases h

/-- The published load of a server, none being zero. -/
def loadAt (c : Cloud) (key : String) : ℕ := (Assoc.get? c.load key).getD 0

/-- **What is published of a key**: what is listed, where it is among the first 300. -/
theorem loadAt_eq {prev : Option Cloud} {reports : List Report} {now : ℤ} {c : Cloud}
    (h : merge P prev reports now = .ok c) (key : String) :
    loadAt c key = if key ∈ (ranked P prev reports now).take 300 then
      (listed P prev reports now).count key else 0 := by
  rw [loadAt, load_eq h, Assoc.get?_pairs]
  split
  · rfl
  · rfl

/-! ## The phones on a server

Each kept list adds to a server as often as it names it. Summed over the phones this is the
number of phones on it when no list repeats it and none is out of date; and the cut takes no
server in use when there are few enough. -/

/-- A key is in use when some phone sits on it. -/
theorem mem_inUse {prev : Option Cloud} {reports : List Report} {now : ℤ} {key : String} :
    key ∈ inUse P prev reports now ↔ 0 < sitting P prev reports now key := by
  rw [inUse, Finset.mem_biUnion, sitting, Finset.card_pos]
  constructor
  · rintro ⟨p, hp, hkey⟩
    exact ⟨p, Finset.mem_filter.mpr ⟨hp, List.mem_toFinset.mp hkey⟩⟩
  · rintro ⟨p, hp⟩
    rw [Finset.mem_filter] at hp
    exact ⟨p, hp.1, List.mem_toFinset.mpr hp.2⟩

/-- A phone on a server is counted for it at least once. -/
theorem sitting_eq_sum (prev : Option Cloud) (reports : List Report) (now : ℤ) (key : String) :
    sitting P prev reports now key =
      ∑ p ∈ phones P prev reports, if key ∈ lastUse P prev reports now p then 1 else 0 := by
  rw [sitting, Finset.card_filter]

/-- A phone that sits on a key has named it, once or more often. -/
theorem sitting_le_count (prev : Option Cloud) (reports : List Report) (now : ℤ) (key p : String) :
    (if key ∈ lastUse P prev reports now p then 1 else 0) ≤ (keptUse P prev reports now p).count key := by
  by_cases h : key ∈ lastUse P prev reports now p
  · rw [if_pos h, keptUse_of_mem h]
    exact List.one_le_count_iff.mpr h
  · rw [if_neg h]
    exact Nat.zero_le _

/-- What it names adds up to the one phone just where it names the key no more than once. -/
theorem sitting_eq_count_iff (prev : Option Cloud) (reports : List Report) (now : ℤ) (key p : String) :
    (if key ∈ lastUse P prev reports now p then 1 else 0) = (keptUse P prev reports now p).count key ↔
      (keptUse P prev reports now p).count key ≤ 1 ∧
        (key ∈ keptUse P prev reports now p → key ∈ lastUse P prev reports now p) := by
  by_cases h : key ∈ lastUse P prev reports now p
  · have hpos := List.one_le_count_iff.mpr (keptUse_of_mem h ▸ h)
    rw [if_pos h]
    exact ⟨fun heq => ⟨heq.symm.le, fun _ => h⟩, fun hle => le_antisymm hpos hle.1⟩
  · rw [if_neg h]
    constructor
    · intro hzero
      refine ⟨by omega, fun hmem => ?_⟩
      exact absurd hmem (List.count_eq_zero.mp hzero.symm)
    · rintro ⟨-, hsub⟩
      exact (List.count_eq_zero.mpr fun hmem => h (hsub hmem)).symm

/-- A server is listed once for each phone on it exactly when every list counts once. -/
theorem count_eq_sitting_iff (prev : Option Cloud) (reports : List Report) (now : ℤ) (key : String) :
    (listed P prev reports now).count key = sitting P prev reports now key ↔
      CountedOnce P prev reports now key := by
  rw [count_listed, sitting_eq_sum, eq_comm, Finset.sum_eq_sum_iff_of_le fun p _ =>
    sitting_le_count prev reports now key p]
  constructor
  · intro heq p
    by_cases hp : p ∈ phones P prev reports
    · exact (sitting_eq_count_iff prev reports now key p).mp (heq p hp)
    · rw [keptUse_of_not_mem fun hmem => hp (keptPhones_subset hmem)]
      exact ⟨Nat.zero_le 1, fun hmem => absurd hmem List.not_mem_nil⟩
  · exact fun hone p _ => (sitting_eq_count_iff prev reports now key p).mpr (hone p)

/-- Servers in use are listed. -/
theorem listed_of_inUse {prev : Option Cloud} {reports : List Report} {now : ℤ} {key : String}
    (h : key ∈ inUse P prev reports now) : key ∈ listed P prev reports now := by
  obtain ⟨p, -, hkey⟩ := Finset.mem_biUnion.mp h
  rw [List.mem_toFinset] at hkey
  have hkept : key ∈ keptUse P prev reports now p := keptUse_of_mem hkey ▸ hkey
  refine List.mem_flatMap.mpr ⟨p, ?_, hkept⟩
  by_contra hout
  rw [keptUse_of_not_mem hout] at hkept
  exact List.not_mem_nil hkept

/-- The table has exactly the servers in use when they are few and push out whatever else is
listed. -/
theorem table_inUse_iff (prev : Option Cloud) (reports : List Report) (now : ℤ) :
    (∀ key, key ∈ (ranked P prev reports now).take 300 ↔ key ∈ inUse P prev reports now) ↔
      (inUse P prev reports now).card ≤ 300 ∧
        ∀ key ∈ ranked P prev reports now, key ∉ inUse P prev reports now →
          300 ≤ ((inUse P prev reports now).filter fun k => Heavier P prev reports now k key).card :=
  Ranking.take_iff (pairwise_ranked prev reports now) (nodup_ranked prev reports now)
    (fun _ _ => Ranking.Ahead.asymm) fun _ h => mem_ranked.mpr (listed_of_inUse h)

/-- A report of what one phone uses. -/
def usingReport (keys : List String) : Report := [("use", .list (keys.map .str))]

theorem load_of_one {keys : List String} {load : List (String × ℕ)}
    (h : (merge bareRuntime none [usingReport keys] 0).toOption.map Cloud.load = some load) :
    ∃ c, merge bareRuntime none [usingReport keys] 0 = .ok c ∧ c.load = load := by
  cases hm : merge bareRuntime none [usingReport keys] 0 with
  | error e =>
    rw [hm] at h
    cases h
  | ok c =>
    rw [hm] at h
    exact ⟨c, rfl, Option.some.inj h⟩

end CloudReports

end VlessCard
