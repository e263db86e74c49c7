/-
`MaskLab.keep`: which bred masks a search leaves in the settings.

The winners stand first, then the masks that were there before and are neither winners nor
dead, as many as there is room for. A mask is dead by its counters over all networks, and
these are added up and multiplied as `Int`s: counters far from anything a phone counts, but
which a state can hold, wrap around, and then a mask is judged by other numbers than its
own. What such a verdict changes is said exactly, mask by mask.
-/
import VlessCard.KeyedList
import VlessCard.MaskLab
import VlessCard.Store

set_option autoImplicit false

namespace VlessCard

/-- Two filters of one list agree up to a cap where every member they disagree on stands
behind enough others. -/
theorem take_filter_eq_iff {α : Type} {f g : α → Bool} {l : List α} (h : l.Nodup) (k : ℕ) :
    (l.filter f).take k = (l.filter g).take k
      ↔ ∀ pre a post, l = pre ++ a :: post → f a ≠ g a → k ≤ (pre.filter g).length := by
  induction l generalizing k with
  | nil => simp
  | cons x l ih =>
    obtain ⟨hx, hl⟩ := List.nodup_cons.mp h
    by_cases hk : k = 0
    · simp [hk]
    obtain ⟨k, rfl⟩ := Nat.exists_eq_succ_of_ne_zero hk
    have hno : ∀ p : α → Bool, x ∉ (l.filter p).take (k + 1) :=
      fun p hmem => hx (List.mem_of_mem_filter (List.mem_of_mem_take hmem))
    -- the first element where the two filters differ decides
    cases hf : f x <;> cases hg : g x
    · rw [List.filter_cons_of_neg (by simp [hf]), List.filter_cons_of_neg (by simp [hg]), ih hl]
      constructor
      -- it is not the head, so it is further on in both lists
      · rintro hall (_ | ⟨y, pre⟩) a post heq hne
        · obtain ⟨rfl, -⟩ := List.cons.inj heq
          exact absurd (hf.trans hg.symm) hne
        · obtain ⟨rfl, hrest⟩ := List.cons.inj heq
          rw [List.filter_cons_of_neg (by simp [hg])]
          exact hall pre a post hrest hne
      · intro hall pre a post heq hne
        have hlen := hall (x :: pre) a post (by rw [heq, List.cons_append]) hne
        rwa [List.filter_cons_of_neg (by simp [hg])] at hlen
    -- the head is kept by one of them only, so the lists differ at once
    · refine iff_of_false ?_ fun hall => ?_
      · rw [List.filter_cons_of_neg (by simp [hf]), List.filter_cons_of_pos hg, List.take_succ_cons]
        intro heq
        exact hno f (heq ▸ List.mem_cons_self)
      · exact absurd (hall [] x l rfl (by simp [hf, hg])) (by simp)
    · refine iff_of_false ?_ fun hall => ?_
      · rw [List.filter_cons_of_pos hf, List.filter_cons_of_neg (by simp [hg]), List.take_succ_cons]
        intro heq
        exact hno g (heq ▸ List.mem_cons_self)
      · exact absurd (hall [] x l rfl (by simp [hf, hg])) (by simp)
    -- both keep the head, which uses up one place
    · rw [List.filter_cons_of_pos hf, List.filter_cons_of_pos hg, List.take_succ_cons, List.take_succ_cons,
        List.cons.injEq, eq_self, true_and, ih hl]
      constructor
      · rintro hall (_ | ⟨y, pre⟩) a post heq hne
        · obtain ⟨rfl, -⟩ := List.cons.inj heq
          exact absurd (hf.trans hg.symm) hne
        · obtain ⟨rfl, hrest⟩ := List.cons.inj heq
          rw [List.filter_cons_of_pos hg, List.length_cons]
          exact Nat.succ_le_succ (hall pre a post hrest hne)
      · intro hall pre a post heq hne
        have hlen := hall (x :: pre) a post (by rw [heq, List.cons_append]) hne
        rw [List.filter_cons_of_pos hg, List.length_cons] at hlen
        exact Nat.le_of_succ_le_succ hlen

/-- Parts of a list with different keys are known by their keys. -/
theorem eq_of_map_eq {α κ : Type} {f : α → κ} {l : List α} (hl : (l.map f).Nodup) {a b : List α}
    (ha : a ⊆ l) (hb : b ⊆ l) (h : a.map f = b.map f) : a = b := by
  induction a generalizing b with
  | nil => exact (List.map_eq_nil_iff.mp h.symm).symm
  | cons x a ih =>
    obtain ⟨y, b', rfl, hxy, hrest⟩ := List.map_eq_cons_iff.mp h.symm
    obtain ⟨hx, ha⟩ := List.cons_subset.mp ha
    obtain ⟨hy, hb⟩ := List.cons_subset.mp hb
    rw [List.inj_on_of_nodup_map hl hx hy hxy.symm, ih ha hb hrest.symm]

namespace MaskLab

open Masks MyMasks

/-- The counters of all masks, by network. -/
abbrev Stats : Type := OrderedMap String (OrderedMap String MaskStat)

def CAP : ℕ := 60

/-- The counters of a mask on the networks that have them. -/
def counters (stats : Stats) (id : String) : List MaskStat := stats.entries.filterMap fun n => n.2.get? id

/-- The sums `ok` and `fail` of `dead`. -/
def tally (stats : Stats) (id : String) : MaskStat :=
  (counters stats id).foldl (fun t s => { ok := t.ok + s.ok, fail := t.fail + s.fail }) {}

def dead (stats : Stats) (m : OwnMask) : Bool :=
  let t := tally stats m.id
  6 ≤ t.fail && t.ok * 4 < t.fail

section
variable (P : Platform)

def keep (stored : List String) (winners : List OwnMask) (stats : Stats) : List String :=
  let old := load P stored
  let win := winners.map fun m => m.id
  ((distinctBy (fun m => m.id) (winners ++ old.filter fun m => decide (m.id ∈ win) || !dead stats m)).take CAP).map (store P)

/-! ## What is kept

The list that is kept has the winners in front, then those that were there, without the ones that
are taken for dead, up to the cap. What should be kept is said with sums that do not overflow. -/

/-- All the successes of a mask. -/
def passes (stats : Stats) (id : String) : ℤ := ((counters stats id).map fun s => s.ok.toInt).sum

/-- All its failures. -/
def failures (stats : Stats) (id : String) : ℤ := ((counters stats id).map fun s => s.fail.toInt).sum

/-- The mask failed six times and passed less than once in four failures. -/
def died (stats : Stats) (id : String) : Prop :=
  6 ≤ failures stats id ∧ passes stats id * 4 < failures stats id

instance (stats : Stats) (id : String) : Decidable (died stats id) := inferInstanceAs (Decidable (_ ∧ _))

/-- The masks that were there and are not winners. -/
def others (stored : List String) (winners : List OwnMask) : List OwnMask :=
  (load P stored).filter fun m => decide (m.id ∉ winners.map fun w => w.id)

/-- The masks that should be kept. -/
def survivors (stored : List String) (winners : List OwnMask) (stats : Stats) : List OwnMask :=
  (distinctBy (fun m => m.id) winners ++ (others P stored winners).filter fun m => decide (¬ died stats m.id)).take 60

/-- What is promised of the texts that are kept. -/
structure Keeps (stored : List String) (winners : List OwnMask) (stats : Stats) (kept : List String) : Prop where
  capped : kept.length ≤ 60
  /-- Each text is a mask, and no two are one. -/
  loaded : (load P kept).length = kept.length
  distinct : ((load P kept).map fun m => m.id).Nodup
  /-- They are the survivors, in their order. -/
  survivors : List.Forall₂ Renamed (survivors P stored winners stats) (load P kept)

end

section
variable {P : Platform}

theorem id_eq_of_renamed {m m' : OwnMask} (h : Renamed m m') : m'.id = m.id := by
  rw [Renamed] at h
  rw [h]

variable (P) in
/-- The mask of one text. -/
def read (s : String) : Option OwnMask := (P.json.parseObject s).bind fun o => (make P o).toOption

/-- What is loaded are the masks that can be read, each id once. -/
theorem load_eq (stored : List String) : load P stored = distinctBy (fun m => m.id) (stored.filterMap (read P)) := rfl

/-- A stored mask is read just when its object is accepted. -/
theorem read_eq_some_iff {s : String} {m : OwnMask} :
    read P s = some m ↔ ∃ o, P.json.parseObject s = some o ∧ make P o = .ok m := by
  rw [read, Option.bind_eq_some_iff]
  refine exists_congr fun o => and_congr_right fun _ => ?_
  cases hm : make P o with
  | error e => simp [Except.toOption]
  | ok c => simp [Except.toOption]

/-- What is loaded was made. -/
theorem made_of_mem_load {stored : List String} {m : OwnMask} (h : m ∈ load P stored) : ∃ o, make P o = .ok m := by
  obtain ⟨s, -, hs⟩ := List.mem_filterMap.mp (distinctBy_subset _ _ h)
  obtain ⟨o, -, ho⟩ := read_eq_some_iff.mp hs
  exact ⟨o, ho⟩

/-- What is stored is read. -/
theorem read_store (hJ : Stable P.json) {o : JsonObject} {m : OwnMask} (h : make P o = .ok m) :
    ∃ c, read P (store P m) = some c ∧ Renamed m c := by
  obtain ⟨c, hload, hsame⟩ := load_store hJ h
  refine ⟨c, ?_, hsame⟩
  rw [load_eq] at hload
  cases hs : read P (store P m) with
  | none =>
    rw [List.filterMap_cons_none hs] at hload
    cases hload
  | some c' =>
    rw [List.filterMap_cons_some hs] at hload
    rw [(List.cons.inj hload).1]

/-- **Masks with different ids are stored and loaded**, each under its id. -/
theorem load_map_store (hJ : Stable P.json) {ms : List OwnMask} (hmade : ∀ m ∈ ms, ∃ o, make P o = .ok m)
    (hids : (ms.map fun m => m.id).Nodup) : List.Forall₂ Renamed ms (load P (ms.map (store P))) := by
  have hparsed : List.Forall₂ Renamed ms ((ms.map (store P)).filterMap (read P)) := by
    clear hids
    induction ms with
    | nil => exact .nil
    | cons m ms ih =>
      obtain ⟨o, ho⟩ := hmade m List.mem_cons_self
      obtain ⟨c, hread, hsame⟩ := read_store hJ ho
      rw [List.map_cons, List.filterMap_cons_some hread]
      exact .cons hsame (ih fun n hn => hmade n (List.mem_cons_of_mem m hn))
  have hsameIds : ((ms.map (store P)).filterMap (read P)).map (fun m => m.id) = ms.map fun m => m.id :=
    map_eq_of_forall₂ (hparsed.imp fun _ _ h => id_eq_of_renamed h)
  rw [load_eq, distinctBy_of_nodup (hsameIds ▸ hids)]
  exact hparsed

/-- What `keep` stores: the winners, and the others it does not take for dead. -/
theorem keep_eq (stored : List String) (winners : List OwnMask) (stats : Stats) :
    keep P stored winners stats = ((distinctBy (fun m => m.id) winners
      ++ (others P stored winners).filter fun m => !dead stats m).take 60).map (store P) := by
  have hnodup : ((load P stored).map fun m => m.id).Nodup := KeyedList.nodup_distinctBy _ _
  have hold : (((load P stored).filter fun m => decide (m.id ∈ winners.map fun w => w.id) || !dead stats m).map fun m => m.id).Nodup :=
    hnodup.sublist (List.filter_sublist.map _)
  have hothers : ((load P stored).filter fun m => decide (m.id ∈ winners.map fun w => w.id) || !dead stats m).filter
      (fun m => decide (m.id ∉ winners.map fun w => w.id)) = (others P stored winners).filter fun m => !dead stats m := by
    rw [others, List.filter_filter, List.filter_filter]
    apply List.filter_congr
    intro m _
    by_cases hm : m.id ∈ winners.map fun w => w.id <;> simp [hm]
  rw [keep]
  simp only [CAP]
  rw [KeyedList.distinctBy_append, KeyedList.fresh_eq_filter, distinctBy_of_nodup hold, hothers]

/-- The winners and the others, no two of them one mask. -/
theorem nodup_candidates (stored : List String) (winners : List OwnMask) (p : OwnMask → Bool) :
    ((distinctBy (fun m => m.id) winners ++ (others P stored winners).filter p).map fun m => m.id).Nodup := by
  have hothers : ((others P stored winners).map fun m => m.id).Nodup :=
    (KeyedList.nodup_distinctBy _ _).sublist (List.filter_sublist.map _)
  rw [List.map_append, List.nodup_append']
  refine ⟨KeyedList.nodup_distinctBy _ _, hothers.sublist (List.filter_sublist.map _), ?_⟩
  intro id hwinner hother
  rw [KeyedList.mem_keys_distinctBy] at hwinner
  obtain ⟨m, hm, rfl⟩ := List.mem_map.mp hother
  exact of_decide_eq_true (List.mem_filter.mp (List.mem_of_mem_filter hm)).2 hwinner

/-- Masks that were made stay so under the filter and the cap. -/
theorem made_candidates {stored : List String} {winners : List OwnMask} (hw : ∀ w ∈ winners, ∃ o, make P o = .ok w)
    {p : OwnMask → Bool} {m : OwnMask}
    (h : m ∈ (distinctBy (fun m => m.id) winners ++ (others P stored winners).filter p).take 60) : ∃ o, make P o = .ok m := by
  rcases List.mem_append.mp (List.mem_of_mem_take h) with hm | hm
  · exact hw m (distinctBy_subset _ _ hm)
  · exact made_of_mem_load (List.mem_of_mem_filter (List.mem_of_mem_filter hm))

/-- The promise is that the masks not taken for dead are those that are not. -/
theorem keeps_iff_eq (hJ : Stable P.json) (stored : List String) {winners : List OwnMask} (stats : Stats)
    (hw : ∀ w ∈ winners, ∃ o, make P o = .ok w) :
    Keeps P stored winners stats (keep P stored winners stats)
      ↔ (distinctBy (fun m => m.id) winners ++ (others P stored winners).filter fun m => !dead stats m).take 60
        = survivors P stored winners stats := by
  have hids := nodup_candidates (P := P) stored winners fun m => !dead stats m
  have hloaded := load_map_store hJ (fun m => made_candidates (P := P) (p := fun m => !dead stats m) hw)
    (hids.sublist ((List.take_sublist 60 _).map _))
  rw [← keep_eq] at hloaded
  constructor
  · intro h
    -- both lists have the ids of what is loaded, and stand in one list without repetitions
    have hsame : ((distinctBy (fun m => m.id) winners ++ (others P stored winners).filter fun m => !dead stats m).take 60).map
        (fun m => m.id) = (survivors P stored winners stats).map fun m => m.id :=
      (map_eq_of_forall₂ (hloaded.imp fun _ _ h => id_eq_of_renamed h)).symm.trans
        (map_eq_of_forall₂ (h.survivors.imp fun _ _ h => id_eq_of_renamed h))
    have hall : ((distinctBy (fun m => m.id) winners ++ others P stored winners).map fun m => m.id).Nodup := by
      have h := nodup_candidates (P := P) stored winners fun _ => true
      rwa [List.filter_true] at h
    refine eq_of_map_eq hall ?_ ?_ hsame
    · exact ((List.take_sublist _ _).trans (List.filter_sublist.append_left _)).subset
    · exact ((List.take_sublist _ _).trans (List.filter_sublist.append_left _)).subset
  · intro h
    rw [h] at hloaded
    have hlen : (keep P stored winners stats).length = (survivors P stored winners stats).length := by
      rw [keep_eq, List.length_map, h]
    constructor
    · rw [keep_eq, List.length_map, List.length_take]
      omega
    · rw [hlen, hloaded.length_eq]
    · exact KeyedList.nodup_distinctBy _ _
    · exact hloaded

/-! ## Verdicts that wrapped around

The counters of all networks are added up in `Int`s, so the sums wrap, and so does four times the
successes. A verdict goes wrong only where the wrapped numbers compare differently. -/

/-- The number an `Int` holds in the place of `n`. -/
def wrapped (n : ℤ) : ℤ := n.bmod (2 ^ 32)

/-- The verdict by the wrapped numbers is not the verdict by the numbers. -/
def Misjudged (stats : Stats) (id : String) : Prop :=
  ¬(6 ≤ wrapped (failures stats id) ∧ wrapped (passes stats id * 4) < wrapped (failures stats id) ↔ died stats id)

/-- Sums of `Int`s wrap once, at the end. -/
theorem toInt_foldl (l : List MaskStat) (t : MaskStat) :
    (l.foldl (fun t s => ({ ok := t.ok + s.ok, fail := t.fail + s.fail } : MaskStat)) t).ok.toInt
        = wrapped (t.ok.toInt + (l.map fun s => s.ok.toInt).sum)
      ∧ (l.foldl (fun t s => ({ ok := t.ok + s.ok, fail := t.fail + s.fail } : MaskStat)) t).fail.toInt
        = wrapped (t.fail.toInt + (l.map fun s => s.fail.toInt).sum) := by
  induction l generalizing t with
  | nil => simp [wrapped]
  | cons s l ih =>
    rw [List.foldl_cons, List.map_cons, List.map_cons, List.sum_cons, List.sum_cons]
    obtain ⟨hok, hfail⟩ := ih { ok := t.ok + s.ok, fail := t.fail + s.fail }
    rw [hok, hfail]
    simp only [wrapped, Int32.toInt_add, Int.bmod_add_bmod, Int.add_assoc, and_self]

/-- A mask is dead after six failures, with less than a quarter as many passes; both counters wrap. -/
theorem dead_iff (stats : Stats) (m : OwnMask) :
    dead stats m = true
      ↔ 6 ≤ wrapped (failures stats m.id) ∧ wrapped (passes stats m.id * 4) < wrapped (failures stats m.id) := by
  obtain ⟨hok, hfail⟩ := toInt_foldl (counters stats m.id) {}
  have hok' : (tally stats m.id).ok.toInt = wrapped (passes stats m.id) := by
    rw [tally, hok, passes]
    simp
  have hfail' : (tally stats m.id).fail.toInt = wrapped (failures stats m.id) := by
    rw [tally, hfail, failures]
    simp
  have hfour : ((tally stats m.id).ok * 4).toInt = wrapped (passes stats m.id * 4) := by
    rw [Int32.toInt_mul, hok', wrapped, wrapped]
    exact Int.bmod_mul_bmod
  rw [dead]
  simp only [Bool.and_eq_true, decide_eq_true_eq, Int32.le_iff_toInt_le, Int32.lt_iff_toInt_lt, hfail', hfour]
  rfl

/-- Counters in the range of an `Int` are judged as they are. -/
theorem not_misjudged {stats : Stats} {id : String} (hfail : failures stats id ∈ Set.Ico (-2 ^ 31) (2 ^ 31))
    (hok : passes stats id * 4 ∈ Set.Ico (-2 ^ 31) (2 ^ 31)) : ¬ Misjudged stats id := by
  have hsame : ∀ n : ℤ, n ∈ Set.Ico (-2 ^ 31) (2 ^ 31) → wrapped n = n := by
    rintro n ⟨hlo, hhi⟩
    exact Int.bmod_eq_of_le (by omega) (by omega)
  rw [Misjudged, not_not, hsame _ hfail, hsame _ hok, died]

/-- **A search keeps what it should exactly where no mask is misjudged before the list is full**:
each mask that was there, is no winner and is judged by wrapped counters stands behind sixty. -/
theorem keeps_iff (P : Platform) (hJ : Stable P.json) (stored : List String) (winners : List OwnMask) (stats : Stats)
    (hw : ∀ w ∈ winners, ∃ o, make P o = .ok w) :
    Keeps P stored winners stats (keep P stored winners stats)
      ↔ ∀ pre m post, others P stored winners = pre ++ m :: post → Misjudged stats m.id →
          60 ≤ (distinctBy (fun m => m.id) winners).length + (pre.filter fun m => decide (¬ died stats m.id)).length := by
  have hnodup : (others P stored winners).Nodup :=
    ((KeyedList.nodup_distinctBy _ _).of_map _).sublist List.filter_sublist
  rw [keeps_iff_eq hJ stored stats hw, survivors, List.take_append, List.take_append, List.append_cancel_left_eq,
    take_filter_eq_iff hnodup]
  have hjudged : ∀ m : OwnMask, (!dead stats m) ≠ decide (¬ died stats m.id) ↔ Misjudged stats m.id := by
    intro m
    rw [Misjudged, ← dead_iff stats m]
    cases hd : dead stats m <;> by_cases hx : died stats m.id <;> simp [hx]
  simp only [hjudged, Nat.sub_le_iff_le_add']

/-! ## Half a thousand million successes

A counter of a backup may be any `Int`. With enough successes four times as many are a negative
number, and a mask that nearly always passes is dropped. -/

theorem exists_sample : ∃ c, make samplePlatform [("sni", .str "vk.com")] = .ok c := by
  have hsome : (make samplePlatform [("sni", .str "vk.com")]).toOption.isSome = true := by decide +kernel
  cases hm : make samplePlatform [("sni", .str "vk.com")] with
  | error e =>
    rw [hm] at hsome
    cases hsome
  | ok c => exact ⟨c, rfl⟩

/-- One network that knows one mask. -/
def soleStats (id : String) (s : MaskStat) : Stats := OrderedMap.empty.put "wifi" (OrderedMap.empty.put id s)

theorem counters_soleStats (id : String) (s : MaskStat) : counters (soleStats id s) id = [s] := by
  have hnet : (soleStats id s).entries = [("wifi", OrderedMap.empty.put id s)] := rfl
  rw [counters, hnet, List.filterMap_cons_some (b := s), List.filterMap_nil]
  simp

/-- Without counters a stored mask is kept. -/
theorem keeps_iff_new : ∃ c, make samplePlatform [("sni", .str "vk.com")] = .ok c
    ∧ Keeps samplePlatform [store samplePlatform c] [] .empty (keep samplePlatform [store samplePlatform c] [] .empty) := by
  obtain ⟨c, hc⟩ := exists_sample
  refine ⟨c, hc, (keeps_iff samplePlatform sample_stable _ _ _ (by simp)).mpr fun pre m post _ hwrong => ?_⟩
  have hfailures : failures .empty m.id = 0 := rfl
  have hpasses : passes .empty m.id = 0 := rfl
  exact absurd hwrong (not_misjudged (by simp [hfailures]) (by simp [hpasses]))

/-- A mask that passed 536870912 times is dropped after six failures. -/
theorem busy_mask_dropped : ∃ c, make samplePlatform [("sni", .str "vk.com")] = .ok c
    ∧ ¬ Keeps samplePlatform [store samplePlatform c] [] (soleStats c.id ⟨536870912, 6⟩)
        (keep samplePlatform [store samplePlatform c] [] (soleStats c.id ⟨536870912, 6⟩)) := by
  obtain ⟨c, hc⟩ := exists_sample
  obtain ⟨c', hload, hsame⟩ := load_store sample_stable hc
  have hid : c'.id = c.id := id_eq_of_renamed hsame
  have hcounters := counters_soleStats c.id ⟨536870912, 6⟩
  have hothers : others samplePlatform [store samplePlatform c] [] = [c'] := by
    rw [others, hload]
    rfl
  have hpasses : passes (soleStats c.id ⟨536870912, 6⟩) c'.id = 536870912 := by
    rw [hid, passes, hcounters]
    decide
  have hfailures : failures (soleStats c.id ⟨536870912, 6⟩) c'.id = 6 := by
    rw [hid, failures, hcounters]
    decide
  have hdead : dead (soleStats c.id ⟨536870912, 6⟩) c' = true := by
    rw [dead_iff, hpasses, hfailures]
    decide
  have halive : ¬ died (soleStats c.id ⟨536870912, 6⟩) c'.id := by
    rw [died, hpasses, hfailures]
    decide
  refine ⟨c, hc, fun h => ?_⟩
  have heq := (keeps_iff_eq sample_stable _ _ (by simp)).mp h
  rw [survivors, hothers, List.filter_cons_of_neg (by simp [hdead]), List.filter_cons_of_pos (by simpa using halive)] at heq
  cases heq

end

end MaskLab

end VlessCard
