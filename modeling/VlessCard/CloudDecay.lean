/-
`cloud_reports.py`: what becomes of votes and counters when the cloud is merged
again and again without news.

A merge multiplies every weight by what is left of it since the merge before, and
rounds the product to three places. The rounding is meant to be harmless; but it
is made at every merge, so its errors add up with the number of merges, and a
small weight is rounded back to what it was. The weights of a run are near those of
a single merge exactly where the errors of the roundings cancel (`HalfLife.drift`)
and no weight falls below its threshold on one side only. They do where the echo of
the times is short, and they do not for small weights merged every ten minutes.
-/
import VlessCard.CloudReports
import VlessCard.HalfLife

set_option autoImplicit false

namespace VlessCard

namespace CloudReports

open Binary64 HalfLife

/-! ## Looking weights up

The state has its votes by network, kind and key, and its counters by network and server.
Everything below is said of what is found under such a place, so that the order and the size of
the tables do not matter. -/

/-- The three kinds of votes. -/
inductive Kind where
  | d
  | m
  | x

def Votes.of (f : Votes) : Kind → Tally
  | .d => f.d
  | .m => f.m
  | .x => f.x

/-- The weight of a vote, if there is one. -/
def weight? (c : Cloud) (fam : String) (kind : Kind) (k : PyVal) : Option ℚ :=
  (c.votes.get? fam).bind fun f => (f.of kind).get? k

/-- The weight of a vote; none is zero. -/
def weight (c : Cloud) (fam : String) (kind : Kind) (k : PyVal) : ℚ := (weight? c fam kind k).getD 0

/-- What an operator's network knows of a server. -/
def entryAt (c : Cloud) (fam key : String) : Option NetEntry := (c.net.get? fam).bind fun d => d.get? key

/-- Two entries, both missing or with counters at most a hundredth apart. -/
def Near : Option NetEntry → Option NetEntry → Prop
  | none, none => True
  | some a, some b => |a.ok - b.ok| ≤ 1 / 100 ∧ |a.n - b.n| ≤ 1 / 100
  | _, _ => False

variable (P : Runtime)

/-- A merge without reports at each of the times in turn. -/
def mergeAll (prev : Cloud) (ts : List ℤ) : Py Cloud :=
  ts.foldlM (fun c t => merge P (some c) [] t) prev

/-! ## One merge

Without reports a merge only fades and drops. Under each place it does so by itself, and the cuts
to a number of entries drop nothing, since a state that a merge has made is within them already. -/

/-- Votes that can be read are published, and nothing else may raise. -/
theorem merge_nil {c : Cloud} (hc : LegibleVotes P c.votes) {t : ℤ} {stamp : String}
    (h : P.stamp t = some stamp) : ∃ profiles, merge P (some c) [] t =
      .ok (finish t stamp (start P (some c) t).1 (start P (some c) t).2 profiles) := by
  have hprev : ∀ d ∈ some c, LegibleVotes P d.votes := fun d hd => Option.some.inj hd ▸ hc
  have hstart := legibleVotes_start hprev t
  obtain ⟨profiles, hp⟩ := hstart.publish
  refine ⟨profiles, ?_⟩
  rw [merge]
  simp only [List.foldlM_nil, h, hp, pure_bind]
  rfl

theorem of_fadeVotes (fade : ℚ) (f : Votes) (kind : Kind) :
    (fadeVotes fade f).of kind = fadeTally fade (f.of kind) := by
  cases kind with
  | d => rfl
  | m => rfl
  | x => rfl

/-- Every vote fades by itself. -/
theorem weight?_merge (c : Cloud) (t : ℤ) (stamp : String) (profiles : OrderedMap String String)
    (fam : String) (kind : Kind) (k : PyVal) :
    weight? (finish t stamp (start P (some c) t).1 (start P (some c) t).2 profiles) fam kind k =
      (weight? c fam kind k).bind (fadeWeight (P.halved (elapsed (some c) t) WEEK)) := by
  show ((c.votes.mapValues (fadeVotes (P.halved (elapsed (some c) t) WEEK))).get? fam).bind
    (fun f => (f.of kind).get? k) = _
  rw [OrderedMap.get?_mapValues, weight?]
  cases c.votes.get? fam with
  | none => rfl
  | some f =>
    rw [Option.map_some, Option.bind_some, Option.bind_some, of_fadeVotes]
    exact Tally.get?_update _ _ _

/-- Few enough servers that none is cut off. -/
def Small (net : Net) : Prop := ∀ e ∈ net.entries, e.2.entries.length ≤ 600

/-- A server's entry fades by itself, and may be forgotten. -/
theorem get?_fadeServers (fade : ℚ) (now : ℤ) (d : OrderedMap String NetEntry) (key : String) :
    (fadeServers fade now d).get? key = (d.get? key).bind (fadeEntry fade now) := by
  have hpresent : (d.entries.filterMap fun e => (fadeEntry fade now e.2).map fun v => (e.1, v)) =
      Assoc.present (d.entries.map fun e => (e.1, fadeEntry fade now e.2)) := by
    rw [Assoc.present, List.filterMap_map]
    rfl
  have hkeys : (Assoc.keys (d.entries.map fun e => (e.1, fadeEntry fade now e.2))).Nodup := by
    rw [Assoc.keys, List.map_map]
    exact d.nodup
  have hsub := hkeys.sublist (Assoc.keys_present_sublist _)
  rw [fadeServers, OrderedMap.get?, hpresent, OrderedMap.entries_ofList hsub]
  cases hget : d.get? key with
  | none =>
    apply Assoc.get?_present_of_not_mem
    rw [Assoc.keys, List.map_map]
    intro hmem
    have hsome := (Assoc.get?_isSome_iff d.entries key).mpr hmem
    rw [OrderedMap.get?] at hget
    rw [hget] at hsome
    cases hsome
  | some e =>
    have hmem := OrderedMap.mem_of_get? hget
    exact Assoc.get?_present hkeys (List.mem_map.mpr ⟨(key, e), hmem, rfl⟩)

/-- Sorting and cutting loses nothing when there are few. -/
theorem get?_mostChecked {d : OrderedMap String NetEntry} (h : d.entries.length ≤ 600) (key : String) :
    (mostChecked d).get? key = d.get? key := by
  have hperm : ((d.entries.mergeSort fun a b => b.2.n ≤ a.2.n).take 600).Perm d.entries := by
    rw [List.take_of_length_le (by rw [List.length_mergeSort]; exact h)]
    exact List.mergeSort_perm _ _
  have hnodup : (((d.entries.mergeSort fun a b => b.2.n ≤ a.2.n).take 600).map Prod.fst).Nodup :=
    (hperm.map Prod.fst).nodup_iff.mpr d.nodup
  have hentries := OrderedMap.entries_ofList hnodup
  apply Option.ext
  intro e
  constructor
  · intro hget
    have hmem := OrderedMap.mem_of_get? hget
    rw [mostChecked, hentries] at hmem
    exact d.get?_of_mem (hperm.subset hmem)
  · intro hget
    have hmem : (key, e) ∈ (mostChecked d).entries := by
      rw [mostChecked, hentries]
      exact hperm.symm.subset (OrderedMap.mem_of_get? hget)
    exact (mostChecked d).get?_of_mem hmem

theorem length_fadeServers (fade : ℚ) (now : ℤ) (d : OrderedMap String NetEntry) :
    (fadeServers fade now d).entries.length ≤ d.entries.length := by
  have hnodup : ((d.entries.filterMap fun e =>
      (fadeEntry fade now e.2).map fun v => (e.1, v)).map Prod.fst).Nodup := by
    refine d.nodup.sublist (keys_filterMap_sublist Prod.fst _ ?_ d.entries)
    intro e e' he
    obtain ⟨v, -, rfl⟩ := Option.map_eq_some_iff.mp he
    rfl
  rw [fadeServers, OrderedMap.entries_ofList hnodup]
  exact List.length_filterMap_le _ _

/-- Every counter fades by itself. -/
theorem entryAt_merge {c : Cloud} (hsmall : Small c.net) (t : ℤ) (stamp : String)
    (profiles : OrderedMap String String) (fam key : String) :
    entryAt (finish t stamp (start P (some c) t).1 (start P (some c) t).2 profiles) fam key =
      (entryAt c fam key).bind (fadeEntry (P.halved (elapsed (some c) t) DAY) t) := by
  show (((fadeNet (P.halved (elapsed (some c) t) DAY) t c.net).mapValues mostChecked).get? fam).bind
    (fun d => d.get? key) = _
  rw [OrderedMap.get?_mapValues, fadeNet, OrderedMap.get?_filter, OrderedMap.get?_mapValues, entryAt]
  cases hget : c.net.get? fam with
  | none => rfl
  | some d =>
    have hd : (fadeServers (P.halved (elapsed (some c) t) DAY) t d).entries.length ≤ 600 :=
      (length_fadeServers _ _ _).trans (hsmall (fam, d) (OrderedMap.mem_of_get? hget))
    rw [Option.map_some, Option.bind_some, ← get?_fadeServers, Option.filter_some]
    split
    · rw [Option.map_some, Option.bind_some, get?_mostChecked hd]
    · -- an operator without an entry left has no entry under the key either
      rename_i hempty
      rw [Bool.not_eq_true', Bool.not_eq_false, List.isEmpty_iff] at hempty
      rw [OrderedMap.get?, hempty]
      rfl

/-- The limits are kept by what is written in the end. -/
theorem small_finish (now : ℤ) (stamp : String) (net : Net) (w : Work)
    (profiles : OrderedMap String String) : Small (finish now stamp net w profiles).net := by
  intro e he
  obtain ⟨e', -, rfl⟩ := List.mem_map.mp he
  show (mostChecked e'.2).entries.length ≤ 600
  have hnodup : (((e'.2.entries.mergeSort fun a b => b.2.n ≤ a.2.n).take 600).map Prod.fst).Nodup := by
    have hperm := (List.mergeSort_perm e'.2.entries fun a b => b.2.n ≤ a.2.n).map Prod.fst
    exact (hperm.nodup_iff.mpr e'.2.nodup).sublist ((List.take_sublist _ _).map _)
  rw [mostChecked, OrderedMap.entries_ofList hnodup]
  exact List.length_take_le _ _

/-- Whatever was merged, an operator has at most 600 servers. -/
theorem small_merge {prev : Option Cloud} {reports : List Report} {now : ℤ} {c : Cloud}
    (h : merge P prev reports now = .ok c) : Small c.net := by
  rw [merge] at h
  obtain ⟨net, -, h⟩ := Python.bind_ok h
  obtain ⟨work, -, h⟩ := Python.bind_ok h
  obtain ⟨profiles, -, h⟩ := Python.bind_ok h
  split at h
  · rw [← Except.ok.inj h]
    exact small_finish now _ net work profiles
  · cases h

theorem Made.small {c : Cloud} (h : Made P (some c)) : Small c.net := by
  cases h with
  | merge _ hmerge => exact small_merge P hmerge

/-! ## The error of one merge

A merge multiplies by a power of a half, computed in doubles, and rounds to three decimals. Both
errors together are a little more than half a thousandth for weights up to a million. -/

/-- What one rounding can be off, for weights up to a million. -/
noncomputable def UNIT : ℝ := ((1 / 2000 + 1 / 2 ^ 29 : ℚ) : ℝ)

/-- A weight or a counter of ordinary size. -/
def Ordinary (w : ℚ) : Prop := 0 ≤ w ∧ w ≤ 1000000

/-- Four units in the last place of a double below one. -/
def ULPS : ℚ := 1 / 2 ^ 50

/-- `0.5 ** (elapsed / half_life)` as a double: never more than one, and at most four units
in the last place off. -/
def Accurate (e : ℤ) : Prop :=
  ∀ half, half = WEEK ∨ half = DAY →
    (0 ≤ P.halved e half ∧ P.halved e half ≤ 1) ∧ |(P.halved e half : ℝ) - share half e| ≤ (ULPS : ℝ)

/-- `ULPS` as a power of two. -/
theorem ulps_eq : (ULPS : ℝ) = 1 / 2 ^ 50 := by
  rw [ULPS]
  norm_num

/-- An ordinary number fades into an ordinary one. -/
theorem ordinary_fadedBy {fade w : ℚ} (h0 : 0 ≤ fade) (h1 : fade ≤ 1) (hw : Ordinary w) :
    Ordinary (fadedBy fade w) := by
  have hprod : 0 ≤ w * fade := mul_nonneg hw.1 h0
  have hle : w * fade ≤ 1000000 := (mul_le_of_le_one_right hw.1 h1).trans hw.2
  have hfix : fl 1000000 = 1000000 := fl_intCast (n := 1000000) (by norm_num)
  have hround : roundTo 3 1000000 = 1000000 := roundTo_intCast 3 (n := 1000000) (by norm_num)
  refine ⟨roundTo_nonneg 3 (fl_nonneg hprod), ?_⟩
  calc fadedBy fade w ≤ roundTo 3 (fl 1000000) := roundTo_mono 3 (fl_mono hle)
    _ = 1000000 := by rw [hfix, hround]

/-- One merge takes a number by one unit at most from what it should be. -/
theorem fadedBy_close {fade w : ℚ} {left : ℝ} (h0 : 0 ≤ fade) (h1 : fade ≤ 1) (hw : Ordinary w)
    (hleft : |(fade : ℝ) - left| ≤ (ULPS : ℝ)) : |(fadedBy fade w : ℝ) - w * left| ≤ UNIT := by
  have hprod : 0 ≤ w * fade := mul_nonneg hw.1 h0
  have hle : w * fade ≤ 1000000 := (mul_le_of_le_one_right hw.1 h1).trans hw.2
  -- the product, the rounding, and the power that is not exact
  have hmul : |fl (w * fade) - w * fade| ≤ 1000000 / 2 ^ 53 := by
    refine (abs_fl_sub_le _).trans ?_
    rw [abs_of_nonneg hprod]
    exact div_le_div_of_nonneg_right hle (by norm_num)
  have hsize : |fl (w * fade)| ≤ 1000001 := by
    have htri := abs_sub_abs_le_abs_sub (fl (w * fade)) (w * fade)
    rw [abs_of_nonneg hprod] at htri
    have : (1000000 : ℚ) / 2 ^ 53 ≤ 1 := by norm_num
    linarith
  have hround := abs_roundTo_sub 3 (fl (w * fade))
  have hdist : |fadedBy fade w - w * fade| ≤ 1 / 2000 + 2000002 / 2 ^ 53 := by
    have htri := abs_sub_le (fadedBy fade w) (fl (w * fade)) (w * fade)
    have hbound : (|fl (w * fade)| + 1) / 2 ^ 53 ≤ (1000002 : ℚ) / 2 ^ 53 :=
      div_le_div_of_nonneg_right (by linarith) (by norm_num)
    have hhalf : (1 : ℚ) / (2 * 10 ^ 3) = 1 / 2000 := by norm_num
    rw [hhalf] at hround
    rw [fadedBy] at htri ⊢
    linarith
  have hreal : |(fadedBy fade w : ℝ) - w * fade| ≤ 1 / 2000 + 2000002 / 2 ^ 53 := by
    have hcast : ((|fadedBy fade w - w * fade| : ℚ) : ℝ) ≤ ((1 / 2000 + 2000002 / 2 ^ 53 : ℚ) : ℝ) :=
      Rat.cast_le.mpr hdist
    push_cast at hcast
    exact hcast
  have hpow : |(w : ℝ) * fade - w * left| ≤ 1000000 / 2 ^ 50 := by
    have hw0 : (0 : ℝ) ≤ w := by exact_mod_cast hw.1
    have hw1 : (w : ℝ) ≤ 1000000 := by exact_mod_cast hw.2
    rw [ulps_eq] at hleft
    rw [← mul_sub, abs_mul, abs_of_nonneg hw0]
    calc (w : ℝ) * |(fade : ℝ) - left| ≤ 1000000 * (1 / 2 ^ 50) :=
          mul_le_mul hw1 hleft (abs_nonneg _) (by norm_num)
      _ = 1000000 / 2 ^ 50 := by ring
  have htri := abs_sub_le (fadedBy fade w : ℝ) (w * fade) (w * left)
  have hunit : (1 / 2000 + 2000002 / 2 ^ 53 : ℝ) + 1000000 / 2 ^ 50 ≤ UNIT := by
    rw [UNIT]
    norm_num
  linarith

/-- The thresholds are the doubles nearest to a fifth and to three tenths. -/
theorem threshold_close {q : ℚ} (h0 : 0 ≤ q) (h1 : q ≤ 1) : |(fl q : ℝ) - q| ≤ 1 / 2 ^ 53 := by
  have hle : |fl q - q| ≤ 1 / 2 ^ 53 := by
    refine (abs_fl_sub_le q).trans ?_
    rw [abs_of_nonneg h0]
    exact div_le_div_of_nonneg_right h1 (by norm_num)
  have hcast : ((|fl q - q| : ℚ) : ℝ) ≤ ((1 / 2 ^ 53 : ℚ) : ℝ) := Rat.cast_le.mpr hle
  push_cast at hcast
  exact hcast

theorem unit_nonneg : 0 ≤ UNIT := by
  rw [UNIT]
  positivity

/-! ## A run

A run of merges is followed place by place: what it leaves of a weight is what its own steps
leave, each with the time since the one before. An entry without news of the last three days is
dropped whatever its counters are. -/

/-- What a merge makes of a vote. -/
def voteStep (e : ℤ) (w : ℚ) : ℚ := fadedBy (P.halved e WEEK) w

/-- What a merge makes of a counter. -/
def counterStep (e : ℤ) (w : ℚ) : ℚ := fadedBy (P.halved e DAY) w

/-- What a run leaves of an entry there is at the time `since`. -/
def keptEntry : ℤ → List ℤ → NetEntry → Option NetEntry
  | _, [], e => some e
  | since, t :: ts, e => (fadeEntry (P.halved (t - since) DAY) t e).bind (keptEntry t ts)

/-- The times of a run: none before the one it follows, and each with a date. -/
structure Times (since : ℤ) (ts : List ℤ) : Prop where
  sorted : (since :: ts).Pairwise (· ≤ ·)
  dated : ∀ t ∈ ts, (P.stamp t).isSome = true

/-- The later times of a run are one themselves. -/
theorem Times.tail {since t : ℤ} {ts : List ℤ} (h : Times P since (t :: ts)) : Times P t ts :=
  ⟨(List.pairwise_cons.mp h.sorted).2, fun s hs => h.dated s (List.mem_cons_of_mem _ hs)⟩

/-- **What a run leaves.** Every vote and every entry is left what its own steps leave,
whatever else the cloud holds. -/
theorem mergeAll_spec {ts : List ℤ} : ∀ {c : Cloud}, Small c.net → LegibleVotes P c.votes →
    Times P c.at_ ts → ∃ d, mergeAll P c ts = .ok d ∧
      (∀ fam kind k, weight? d fam kind k =
        (weight? c fam kind k).bind (kept (voteStep P) (fl (1 / 5)) c.at_ ts)) ∧
      ∀ fam key, entryAt d fam key = (entryAt c fam key).bind (keptEntry P c.at_ ts) := by
  induction ts with
  | nil =>
    intro c _ _ _
    refine ⟨c, rfl, fun fam kind k => ?_, fun fam key => ?_⟩
    · cases weight? c fam kind k with
      | none => rfl
      | some w => rfl
    · cases entryAt c fam key with
      | none => rfl
      | some e => rfl
  | cons t ts ih =>
    -- the first merge, and then the run from what it leaves
    intro c hsmall hlegible htimes
    obtain ⟨stamp, hs⟩ := Option.isSome_iff_exists.mp (htimes.dated t (List.mem_cons_self ..))
    obtain ⟨profiles, hmerge⟩ := merge_nil P hlegible hs
    have hle := List.rel_of_pairwise_cons htimes.sorted (List.mem_cons_self ..)
    have helapsed : elapsed (some c) t = t - c.at_ := by
      show max 0 (t - c.at_) = t - c.at_
      omega
    have hprev : ∀ d ∈ some c, LegibleVotes P d.votes := fun d hd => Option.some.inj hd ▸ hlegible
    obtain ⟨d, hd, hvotes, hentries⟩ := ih
      (c := finish t stamp (start P (some c) t).1 (start P (some c) t).2 profiles)
      (small_finish _ _ _ _ _) (legibleVotes_start hprev t) htimes.tail
    refine ⟨d, ?_, fun fam kind k => ?_, fun fam key => ?_⟩
    -- the merges one after the other give the same cloud
    · rw [mergeAll, List.foldlM_cons, hmerge]
      exact hd
    -- a weight fades by the time that passed since the merge before
    · rw [hvotes, weight?_merge, helapsed, Option.bind_assoc]
      refine congrArg _ (funext fun w => ?_)
      rw [fadeWeight, kept, voteStep]
      split
      · rfl
      · rfl
    · rw [hentries, entryAt_merge P hsmall, helapsed, Option.bind_assoc]
      rfl

/-- An entry with news of the last three days: only its counters decide. -/
theorem fadeEntry_recent {fade : ℚ} {now : ℤ} {e : NetEntry} (h : now - e.t ≤ 3 * 86400) :
    fadeEntry fade now e = if fl (3 / 10) ≤ fadedBy fade e.n then
      some { e with ok := fadedBy fade e.ok, n := fadedBy fade e.n } else none := by
  rw [fadeEntry, if_neg (not_lt.mpr h)]

/-- An entry without is dropped. -/
theorem fadeEntry_old {fade : ℚ} {now : ℤ} {e : NetEntry} (h : 3 * 86400 < now - e.t) :
    fadeEntry fade now e = none := by
  rw [fadeEntry, if_pos h]

/-- Of an entry with news of three days before the last merge only the counters decide. -/
theorem keptEntry_recent {now : ℤ} {ts : List ℤ} : ∀ {since : ℤ} {e : NetEntry},
    (∀ t ∈ ts, t ≤ now) → now - e.t ≤ 3 * 86400 →
      keptEntry P since ts e = (kept (counterStep P) (fl (3 / 10)) since ts e.n).map
        fun n => { e with ok := left (counterStep P) since ts e.ok, n := n } := by
  induction ts with
  | nil => exact fun _ _ => rfl
  | cons t ts ih =>
    intro since e hnow hrecent
    rw [List.forall_mem_cons] at hnow
    have hfade : fadeEntry (P.halved (t - since) DAY) t e = _ := fadeEntry_recent (show t - e.t ≤ 3 * 86400 by omega)
    rw [← counterStep, ← counterStep] at hfade
    rw [keptEntry, hfade, kept]
    by_cases hlt : counterStep P (t - since) e.n < fl (3 / 10)
    · rw [if_pos hlt, if_neg (not_le.mpr hlt)]
      rfl
    · rw [if_neg hlt, if_pos (not_lt.mp hlt), Option.bind_some]
      exact ih hnow.2 hrecent

/-- Of an entry without nothing is left. -/
theorem keptEntry_old {now : ℤ} {ts : List ℤ} : ∀ {since : ℤ} {e : NetEntry},
    3 * 86400 < now - e.t → keptEntry P since (ts ++ [now]) e = none := by
  induction ts with
  | nil =>
    intro since e hold
    rw [List.nil_append, keptEntry, fadeEntry_old hold]
    rfl
  | cons t ts ih =>
    intro since e hold
    rw [List.cons_append, keptEntry]
    cases hfade : fadeEntry (P.halved (t - since) DAY) t e with
    | none => rfl
    | some e' =>
      -- an entry that fades keeps the time of its news
      have ht : e'.t = e.t := by
        rw [fadeEntry] at hfade
        split at hfade
        · cases hfade
        · simp only at hfade
          split at hfade
          · rw [← Option.some.inj hfade]
          · cases hfade
      exact ih (by rw [ht]; exact hold)

/-! ## Many merges and one

The run and the single merge start from the same weight, so they differ by their errors alone.
That the results are near each other is therefore the same as that the errors cancel, up to the
entries that are dropped at the thresholds. -/

/-- The errors of the roundings cancel: of every vote, and of both counters of every entry with
news of the last three days, the errors of the run add up, each faded to the end, to within
a hundredth of the one error of a single merge; and nothing falls below its threshold in the
run only, or in the single merge only. -/
structure ErrorsCancel (prev : Cloud) (ts : List ℤ) (now : ℤ) : Prop where
  votes : ∀ fam kind k, ∀ w ∈ weight? prev fam kind k,
    InStep (voteStep P) WEEK (fl (1 / 5)) (1 / 100) now prev.at_ (ts ++ [now]) [now] w
  entries : ∀ fam key, ∀ e ∈ entryAt prev fam key, now - e.t ≤ 3 * 86400 →
    InStep (counterStep P) DAY (fl (3 / 10)) (1 / 100) now prev.at_ (ts ++ [now]) [now] e.n ∧
      (¬ Falls (counterStep P) (fl (3 / 10)) prev.at_ (ts ++ [now]) e.n →
        |drift (counterStep P) DAY now prev.at_ (ts ++ [now]) e.ok
          - drift (counterStep P) DAY now prev.at_ [now] e.ok| ≤ 1 / 100)

/-- The thresholds are doubles, and far from a hundredth. -/
theorem hundredth_lt {q : ℚ} (h0 : 1 / 5 ≤ q) (h1 : q ≤ 1) : (1 / 100 : ℝ) < fl q := by
  have hq : (1 / 5 : ℝ) ≤ q := by
    have hcast := (Rat.cast_le (K := ℝ)).mpr h0
    push_cast at hcast
    exact hcast
  have hclose := (abs_le.mp (threshold_close (q := q) (by linarith) h1)).1
  have hsmall : (1 : ℝ) / 2 ^ 53 ≤ 1 / 100 := by norm_num
  linarith

/-- A hundredth is a hundredth in both fields. -/
theorem cast_le_hundredth {x y : ℚ} : |x - y| ≤ 1 / 100 ↔ |(x : ℝ) - y| ≤ 1 / 100 := by
  rw [← Rat.cast_le (K := ℝ)]
  push_cast
  exact Iff.rfl

/-- One vote after a run and after a single merge. -/
theorem vote_near_iff (since now : ℤ) (ts : List ℤ) (v : Option ℚ) :
    |(v.bind (kept (voteStep P) (fl (1 / 5)) since (ts ++ [now]))).getD 0
      - (v.bind (kept (voteStep P) (fl (1 / 5)) since [now])).getD 0| ≤ 1 / 100 ↔
    ∀ w ∈ v, InStep (voteStep P) WEEK (fl (1 / 5)) (1 / 100) now since (ts ++ [now]) [now] w := by
  cases v with
  | none =>
    rw [Option.bind_none, Option.bind_none, sub_self, abs_zero]
    exact ⟨fun _ w hw => (by cases hw), fun _ => (by norm_num)⟩
  | some w =>
    have hiff : |((kept (voteStep P) (fl (1 / 5)) since (ts ++ [now]) w).getD 0 : ℝ)
          - ((kept (voteStep P) (fl (1 / 5)) since ([] ++ [now]) w).getD 0 : ℚ)| ≤ 1 / 100 ↔
        InStep (voteStep P) WEEK (fl (1 / 5)) (1 / 100) now since (ts ++ [now]) ([] ++ [now]) w :=
      inStep_iff (by norm_num) (hundredth_lt (by norm_num) (by norm_num))
    rw [Option.bind_some, Option.bind_some, cast_le_hundredth]
    refine hiff.trans ⟨fun h w' hw' => ?_, fun h => h w rfl⟩
    rw [← Option.some.inj hw']
    exact h

/-- One entry after a run and after a single merge. -/
theorem entry_near_iff {since now : ℤ} {ts : List ℤ} (hnow : ∀ t ∈ ts ++ [now], t ≤ now)
    (v : Option NetEntry) :
    Near (v.bind (keptEntry P since (ts ++ [now]))) (v.bind (keptEntry P since [now])) ↔
    ∀ e ∈ v, now - e.t ≤ 3 * 86400 →
      InStep (counterStep P) DAY (fl (3 / 10)) (1 / 100) now since (ts ++ [now]) [now] e.n ∧
        (¬ Falls (counterStep P) (fl (3 / 10)) since (ts ++ [now]) e.n →
          |drift (counterStep P) DAY now since (ts ++ [now]) e.ok
            - drift (counterStep P) DAY now since [now] e.ok| ≤ 1 / 100) := by
  cases v with
  | none => exact ⟨fun _ e he => (by cases he), fun _ => trivial⟩
  | some e =>
    rw [Option.bind_some, Option.bind_some]
    simp only [Option.mem_some_iff, forall_eq']
    by_cases hrecent : now - e.t ≤ 3 * 86400
    · have hone : ∀ t ∈ [now], t ≤ now := fun t ht => (List.mem_singleton.mp ht).le
      -- whatever the quantity, what is left differs as the drifts do
      have hleft (w : ℚ) : (left (counterStep P) since (ts ++ [now]) w : ℝ) - left (counterStep P) since ([] ++ [now]) w =
          drift (counterStep P) DAY now since (ts ++ [now]) w - drift (counterStep P) DAY now since ([] ++ [now]) w :=
        left_sub_left DAY
      have hoks := hleft e.ok
      have hns := hleft e.n
      rw [List.nil_append] at hoks hns
      rw [keptEntry_recent P hnow hrecent, keptEntry_recent P hone hrecent]
      simp only [hrecent, true_implies]
      by_cases h : Falls (counterStep P) (fl (3 / 10)) since (ts ++ [now]) e.n
      · rw [kept_of_falls h]
        by_cases h' : Falls (counterStep P) (fl (3 / 10)) since [now] e.n
        · rw [kept_of_falls h']
          exact ⟨fun _ => ⟨⟨iff_of_true h h', fun hn => absurd h hn⟩, fun hn => absurd h hn⟩, fun _ => trivial⟩
        · rw [kept_of_not_falls h']
          exact ⟨fun hf => absurd hf id, fun hs => absurd (hs.1.1.mp h) h'⟩
      · rw [kept_of_not_falls h]
        by_cases h' : Falls (counterStep P) (fl (3 / 10)) since [now] e.n
        · rw [kept_of_falls h']
          exact ⟨fun hf => absurd hf id, fun hs => absurd (hs.1.1.mpr h') h⟩
        · rw [kept_of_not_falls h']
          show (|left (counterStep P) since (ts ++ [now]) e.ok - left (counterStep P) since [now] e.ok| ≤ 1 / 100
            ∧ |left (counterStep P) since (ts ++ [now]) e.n - left (counterStep P) since [now] e.n| ≤ 1 / 100) ↔ _
          rw [cast_le_hundredth, cast_le_hundredth, hoks, hns]
          exact ⟨fun hf => ⟨⟨iff_of_false h h', fun _ => hf.2⟩, fun _ => hf.1⟩, fun hs => ⟨hs.2 h, hs.1.2 h⟩⟩
    · rw [keptEntry_old P (not_le.mp hrecent)]
      have hone : keptEntry P since ([] ++ [now]) e = none := keptEntry_old P (not_le.mp hrecent)
      rw [List.nil_append] at hone
      rw [hone]
      exact ⟨fun _ h => absurd h hrecent, fun _ => trivial⟩

/-- A run and a single merge, vote by vote and entry by entry. -/
theorem runs_spec {prev : Cloud} (hsmall : Small prev.net) (hlegible : LegibleVotes P prev.votes)
    {ts : List ℤ} {now : ℤ} (htimes : Times P prev.at_ (ts ++ [now])) :
    ∃ c d, mergeAll P prev (ts ++ [now]) = .ok c ∧ merge P (some prev) [] now = .ok d ∧
      (∀ fam kind k, |weight c fam kind k - weight d fam kind k| ≤ 1 / 100 ↔
        ∀ w ∈ weight? prev fam kind k,
          InStep (voteStep P) WEEK (fl (1 / 5)) (1 / 100) now prev.at_ (ts ++ [now]) [now] w) ∧
      (∀ fam key, Near (entryAt c fam key) (entryAt d fam key) ↔
        ∀ e ∈ entryAt prev fam key, now - e.t ≤ 3 * 86400 →
          InStep (counterStep P) DAY (fl (3 / 10)) (1 / 100) now prev.at_ (ts ++ [now]) [now] e.n ∧
            (¬ Falls (counterStep P) (fl (3 / 10)) prev.at_ (ts ++ [now]) e.n →
              |drift (counterStep P) DAY now prev.at_ (ts ++ [now]) e.ok
                - drift (counterStep P) DAY now prev.at_ [now] e.ok| ≤ 1 / 100)) := by
  have hmem : now ∈ ts ++ [now] := List.mem_append_right _ (List.mem_singleton_self now)
  have hlast : ∀ t ∈ ts ++ [now], t ≤ now := by
    intro t ht
    rcases List.mem_append.mp ht with ht | ht
    · have hpair := (List.pairwise_cons.mp htimes.sorted).2
      exact (List.pairwise_append.mp hpair).2.2 t ht now (List.mem_singleton_self now)
    · exact (List.mem_singleton.mp ht).le
  -- the single merge is a run too, at its last time
  have hone : Times P prev.at_ [now] := by
    refine ⟨?_, fun t ht => ?_⟩
    · rw [List.pairwise_pair]
      exact List.rel_of_pairwise_cons htimes.sorted hmem
    · rw [List.mem_singleton.mp ht]
      exact htimes.dated now hmem
  obtain ⟨c, hc, hcv, hce⟩ := mergeAll_spec P hsmall hlegible htimes
  obtain ⟨d, hd, hdv, hde⟩ := mergeAll_spec P hsmall hlegible hone
  have hd' : merge P (some prev) [] now = .ok d := by
    rw [← hd, mergeAll, List.foldlM_cons]
    exact (bind_pure _).symm
  refine ⟨c, d, hc, hd', fun fam kind k => ?_, fun fam key => ?_⟩
  · rw [weight, weight, hcv, hdv]
    exact vote_near_iff P prev.at_ now ts _
  · rw [hce, hde]
    exact entry_near_iff P hlast _

/-! ## Merges far apart

Merges that lie far apart have time to forget each other's errors. Their echo is short, and a
bound for the error of one merge gives one for the run. -/

/-- Wherever the times of a run lie, the power is accurate between them. -/
def AccurateOver (since : ℤ) (ts : List ℤ) : Prop :=
  ∀ s ∈ since :: ts, ∀ t ∈ since :: ts, s ≤ t → Accurate P (t - s)

/-- Every vote and every recent counter is of ordinary size, has merges so far apart that
their echo is short, and has not faded to its threshold at the end. -/
structure Spread (prev : Cloud) (ts : List ℤ) (now : ℤ) : Prop where
  votes : ∀ fam kind k, ∀ w ∈ weight? prev fam kind k, Ordinary w ∧
    HalfLife.echo WEEK (ts ++ [now]) now ≤ 18 ∧
    1 / 100 < |(w : ℝ) * share WEEK (now - prev.at_) - 1 / 5|
  entries : ∀ fam key, ∀ e ∈ entryAt prev fam key, now - e.t ≤ 3 * 86400 → Ordinary e.n ∧ Ordinary e.ok ∧
    HalfLife.echo DAY (ts ++ [now]) now ≤ 18 ∧
    1 / 100 < |(e.n : ℝ) * share DAY (now - prev.at_) - 3 / 10|

/-- Weights of ordinary size stay ordinary, and a step is at most a rounding off. -/
theorem within_of_accurate {half since : ℤ} (hh : half = WEEK ∨ half = DAY) {ts : List ℤ}
    (h : AccurateOver P since ts) :
    Within (fun e w => fadedBy (P.halved e half) w) half Ordinary UNIT since ts := by
  intro s hs t ht hle w hw
  obtain ⟨⟨h0, h1⟩, hacc⟩ := h s hs t (List.mem_cons_of_mem _ ht) hle half hh
  exact ⟨fadedBy_close h0 h1 hw hacc, ordinary_fadedBy h0 h1 hw⟩

/-- The errors of a short echo stay below a hundredth. -/
theorem error_lt {steps : ℝ} (h : steps ≤ 18) {ideal : ℝ} {q : ℚ} (h0 : 0 ≤ q) (h1 : q ≤ 1)
    (hfar : 1 / 100 < |ideal - q|) : UNIT * steps < |ideal - fl q| := by
  have hclose := threshold_close h0 h1
  have htri := abs_sub_le ideal (fl q : ℝ) q
  have hu : UNIT * steps ≤ UNIT * 18 := mul_le_mul_of_nonneg_left h unit_nonneg
  have hunit : UNIT * 18 < 1 / 100 - 1 / 2 ^ 53 := by
    rw [UNIT]
    norm_num
  linarith

/-- Up to eighteen units make less than a hundredth. -/
theorem sum_le {steps : ℝ} (h : steps ≤ 18) : UNIT * steps + UNIT * 1 ≤ 1 / 100 := by
  have hu : UNIT * steps ≤ UNIT * 18 := mul_le_mul_of_nonneg_left h unit_nonneg
  have hunit : UNIT * 18 + UNIT * 1 ≤ 1 / 100 := by
    rw [UNIT]
    norm_num
  linarith

/-- A merge that was only just made counts in full. -/
theorem echo_single (half now : ℤ) : HalfLife.echo half [now] now = 1 := by
  rw [echo_cons, sub_self, share_zero, echo_nil, add_zero]

/-- **Where merges are few, their number does not matter.** The errors cancel where the echo
of the times is at most 18, as it is for up to eighteen merges and for any number of them
far enough apart, and no weight has faded to within a hundredth of its threshold. -/
theorem errorsCancel_of_spread {prev : Cloud} {ts : List ℤ} {now : ℤ} (htimes : Times P prev.at_ (ts ++ [now]))
    (hacc : AccurateOver P prev.at_ (ts ++ [now])) (h : Spread prev ts now) : ErrorsCancel P prev ts now := by
  have hsub : prev.at_ :: [now] ⊆ prev.at_ :: (ts ++ [now]) :=
    List.cons_subset_cons _ (List.subset_append_right ts [now])
  have hone : (prev.at_ :: ([] ++ [now])).Pairwise (· ≤ ·) :=
    htimes.sorted.sublist ((List.sublist_append_right ts [now]).cons_cons _)
  have hacc' : AccurateOver P prev.at_ [now] := fun s hs t ht => hacc s (hsub hs) t (hsub ht)
  have hshort (half : ℤ) : HalfLife.echo half ([] ++ [now]) now ≤ 18 := by
    rw [List.nil_append, echo_single]
    norm_num
  -- the single merge is a run with an echo of one
  have hsum {half : ℤ} (hecho : HalfLife.echo half (ts ++ [now]) now ≤ 18) :
      UNIT * HalfLife.echo half (ts ++ [now]) now + UNIT * HalfLife.echo half ([] ++ [now]) now ≤ 1 / 100 := by
    rw [List.nil_append, echo_single]
    exact sum_le hecho
  constructor
  · intro fam kind k w hw
    obtain ⟨hord, hecho, hfar⟩ := h.votes fam kind k w hw
    have hfar' : 1 / 100 < |(w : ℝ) * share WEEK (now - prev.at_) - (1 / 5 : ℚ)| := by
      push_cast
      exact hfar
    have hthr : 0 ≤ fl (1 / 5) := fl_nonneg (by norm_num)
    exact inStep_of_echo (by decide) hthr unit_nonneg htimes.sorted hone
      (within_of_accurate P (.inl rfl) hacc) (within_of_accurate P (.inl rfl) hacc') hord (hsum hecho)
      (error_lt hecho (by norm_num) (by norm_num) hfar')
      (error_lt (hshort WEEK) (by norm_num) (by norm_num) hfar')
  · intro fam key e he hrecent
    obtain ⟨hn, hok, hecho, hfar⟩ := h.entries fam key e he hrecent
    have hfar' : 1 / 100 < |(e.n : ℝ) * share DAY (now - prev.at_) - (3 / 10 : ℚ)| := by
      push_cast
      exact hfar
    have hthr : 0 ≤ fl (3 / 10) := fl_nonneg (by norm_num)
    have hin := within_of_accurate P (.inr rfl) hacc
    have hin' := within_of_accurate P (.inr rfl) hacc'
    refine ⟨inStep_of_echo (by decide) hthr unit_nonneg htimes.sorted hone hin hin' hn (hsum hecho)
      (error_lt hecho (by norm_num) (by norm_num) hfar')
      (error_lt (hshort DAY) (by norm_num) (by norm_num) hfar'), fun _ => ?_⟩
    have hdrift := abs_drift_le now htimes.sorted hin hok
    have hdrift' := abs_drift_le now hone hin' hok
    exact (abs_sub _ _).trans ((add_le_add hdrift hdrift').trans (hsum hecho))

/-- A weight of at most 0.7 that fades by less than 0.07 percent is rounded back. -/
theorem fadedBy_sticks {n : ℕ} (h0 : 200 ≤ n) (h1 : n ≤ 700) {fade : ℚ} (hf0 : 9993 / 10000 ≤ fade)
    (hf1 : fade ≤ 1) : fadedBy fade (fl (n / 1000)) = fl (n / 1000) := by
  have hn0 : (200 : ℚ) ≤ n := by exact_mod_cast h0
  have hn1 : (n : ℚ) ≤ 700 := by exact_mod_cast h1
  have hw := abs_fl_sub_le ((n : ℚ) / 1000)
  rw [abs_of_nonneg (show (0 : ℚ) ≤ n / 1000 by positivity)] at hw
  have hw' : |fl ((n : ℚ) / 1000) - n / 1000| ≤ 1 / 2 ^ 53 :=
    hw.trans (div_le_div_of_nonneg_right (by linarith) (by norm_num))
  obtain ⟨hlo, hhi⟩ := abs_le.mp hw'
  have hpos : 0 ≤ fl ((n : ℚ) / 1000) := fl_nonneg (by positivity)
  have hprod0 : fl ((n : ℚ) / 1000) * (9993 / 10000) ≤ fl ((n : ℚ) / 1000) * fade :=
    mul_le_mul_of_nonneg_left hf0 hpos
  have hprod1 : fl ((n : ℚ) / 1000) * fade ≤ fl ((n : ℚ) / 1000) := mul_le_of_le_one_right hpos hf1
  have hmul := abs_fl_sub_le (fl ((n : ℚ) / 1000) * fade)
  rw [abs_of_nonneg (show 0 ≤ fl ((n : ℚ) / 1000) * fade from mul_nonneg hpos (by linarith))] at hmul
  have hmul' : |fl (fl ((n : ℚ) / 1000) * fade) - fl ((n : ℚ) / 1000) * fade| ≤ 1 / 2 ^ 53 := by
    refine hmul.trans (div_le_div_of_nonneg_right ?_ (by norm_num))
    have : (1 : ℚ) / 2 ^ 53 ≤ 1 / 10 := by norm_num
    linarith
  obtain ⟨hlo', hhi'⟩ := abs_le.mp hmul'
  -- the product is less than half a thousandth away
  have hround : roundEven (fl (fl ((n : ℚ) / 1000) * fade) * 10 ^ 3) = n := by
    apply roundEven_eq
    have heps : (1 : ℚ) / 2 ^ 53 ≤ 1 / 1000000000 := by norm_num
    rw [Int.cast_natCast, abs_lt]
    constructor
    · linarith
    · linarith
  rw [fadedBy, roundTo, hround]
  norm_num

/-- Ten minutes leave more than 99.93 percent of what halves in a week. -/
theorem share_ten_minutes : 99931 / 100000 ≤ share WEEK 600 := by
  have hpow : share WEEK 600 ^ 1008 = 1 / 2 := by
    have h := Real.rpow_mul_natCast (x := (1 / 2 : ℝ)) (by norm_num) (((600 : ℤ) : ℝ) / WEEK) 1008
    rw [share, ← h, WEEK]
    push_cast
    norm_num
  by_contra hlt
  have hlt := not_le.mp hlt
  have hle : share WEEK 600 ^ 1008 < (99931 / 100000 : ℝ) ^ 1008 :=
    pow_lt_pow_left₀ hlt (share_nonneg _ _) (by norm_num)
  -- the power in three steps: 1008 is 16 * 9 * 7
  have hnum : (99931 / 100000 : ℝ) ^ 1008 ≤ 1 / 2 := by
    have h16 : (99931 / 100000 : ℝ) ^ 16 ≤ 98903 / 100000 := by norm_num
    have h9 : (98903 / 100000 : ℝ) ^ 9 ≤ 90551 / 100000 := by norm_num
    have h7 : (90551 / 100000 : ℝ) ^ 7 ≤ 1 / 2 := by norm_num
    calc (99931 / 100000 : ℝ) ^ 1008 = (((99931 / 100000 : ℝ) ^ 16) ^ 9) ^ 7 := by
          rw [← pow_mul, ← pow_mul]
      _ ≤ ((98903 / 100000 : ℝ) ^ 9) ^ 7 := by gcongr
      _ ≤ (90551 / 100000 : ℝ) ^ 7 := by gcongr
      _ ≤ 1 / 2 := h7
  rw [hpow] at hle
  exact absurd (hle.trans_le hnum) (lt_irrefl _)

/-- The times of merges ten minutes apart. -/
def everyTenMinutes : ℤ → ℕ → List ℤ
  | _, 0 => []
  | since, n + 1 => (since + 600) :: everyTenMinutes (since + 600) n

/-- One more merge comes ten minutes after the last. -/
theorem everyTenMinutes_succ (n : ℕ) : ∀ since : ℤ, everyTenMinutes since (n + 1) =
    everyTenMinutes since n ++ [since + 600 * ((n : ℤ) + 1)] := by
  induction n with
  | zero => exact fun since => rfl
  | succ n ih =>
    intro since
    rw [everyTenMinutes, ih, everyTenMinutes, List.cons_append]
    congr 3
    push_cast
    ring

theorem le_everyTenMinutes {n : ℕ} : ∀ {since t : ℤ}, t ∈ everyTenMinutes since n → since < t := by
  induction n with
  | zero => exact fun h => absurd h List.not_mem_nil
  | succ n ih =>
    intro since t h
    rcases List.mem_cons.mp h with rfl | h
    · omega
    · have hlt := ih h
      omega

theorem pairwise_everyTenMinutes (n : ℕ) : ∀ since : ℤ,
    (since :: everyTenMinutes since n).Pairwise (· ≤ ·) := by
  induction n with
  | zero => exact fun since => List.pairwise_singleton _ _
  | succ n ih => exact fun since =>
      List.pairwise_cons.mpr ⟨fun t ht => (le_everyTenMinutes ht).le, ih (since + 600)⟩

/-- What ten minutes leave unchanged, any number of them do. -/
theorem kept_everyTenMinutes {w : ℚ} (hw : voteStep P 600 w = w) {threshold : ℚ} (hthr : threshold ≤ w) (n : ℕ) :
    ∀ since : ℤ, kept (voteStep P) threshold since (everyTenMinutes since n) w = some w := by
  induction n with
  | zero => exact fun since => rfl
  | succ n ih =>
    intro since
    rw [everyTenMinutes, kept, add_sub_cancel_left, hw, if_neg (not_lt.mpr hthr)]
    exact ih (since + 600)

/-- **Merged every ten minutes, a small vote never fades.** A vote that weighs from 0.2 to
0.7 in thousandths weighs the same after any number of such merges. -/
theorem votes_stick {n : ℕ} (h0 : 200 ≤ n) (h1 : n ≤ 700) (ha : Accurate P 600) (count : ℕ) (since : ℤ) :
    kept (voteStep P) (fl (1 / 5)) since (everyTenMinutes since count) (fl (n / 1000)) = some (fl (n / 1000)) := by
  obtain ⟨⟨-, hle⟩, hacc⟩ := ha WEEK (.inl rfl)
  have hfade : 9993 / 10000 ≤ P.halved 600 WEEK := by
    have hreal : ((9993 / 10000 : ℚ) : ℝ) ≤ P.halved 600 WEEK := by
      have hclose := (abs_le.mp hacc).1
      have hshare := share_ten_minutes
      rw [ulps_eq] at hclose
      push_cast
      norm_num at hclose ⊢
      linarith
    exact Rat.cast_le.mp hreal
  refine kept_everyTenMinutes P (fadedBy_sticks h0 h1 hfade hle) (fl_mono ?_) count since
  have hn : (200 : ℚ) ≤ n := by exact_mod_cast h0
  linarith

/-- A single merge leaves at most one unit more than should be left. -/
theorem kept_single_le {e : ℤ} (ha : Accurate P e) {w : ℚ} (hw : Ordinary w) (threshold : ℚ) (since : ℤ) :
    ((kept (voteStep P) threshold since [since + e] w).getD 0 : ℝ) ≤ w * share WEEK e + UNIT := by
  obtain ⟨⟨hf0, hf1⟩, hacc⟩ := ha WEEK (.inl rfl)
  have hclose := (abs_le.mp (fadedBy_close hf0 hf1 hw hacc)).2
  rw [kept, kept, add_sub_cancel_left, voteStep]
  split
  · rw [Option.getD_none, Rat.cast_zero]
    have hw0 : (0 : ℝ) ≤ w := Rat.cast_nonneg.mpr hw.1
    exact add_nonneg (mul_nonneg hw0 (share_nonneg _ _)) unit_nonneg
  · rw [Option.getD_some]
    linarith

/-- Once such a vote should have faded by a little more than a hundredth, the run is out of
step with a single merge. -/
theorem not_inStep_of_sticks {n : ℕ} (h0 : 200 ≤ n) (h1 : n ≤ 700) (ha : Accurate P 600) {count : ℕ}
    (ha' : Accurate P (600 * ((count : ℤ) + 1)))
    (hfaded : 11 / 1000 < (n : ℝ) / 1000 * (1 - share WEEK (600 * ((count : ℤ) + 1)))) (since : ℤ) :
    ¬ InStep (voteStep P) WEEK (fl (1 / 5)) (1 / 100) (since + 600 * ((count : ℤ) + 1)) since
      (everyTenMinutes since count ++ [since + 600 * ((count : ℤ) + 1)])
      [since + 600 * ((count : ℤ) + 1)] (fl (n / 1000)) := by
  have hn0 : (0 : ℚ) ≤ (n : ℚ) / 1000 := by positivity
  have hn1 : (n : ℚ) / 1000 ≤ 1 := by
    have hn : (n : ℚ) ≤ 700 := by exact_mod_cast h1
    linarith
  have hord : Ordinary (fl ((n : ℚ) / 1000)) := by
    have hone : fl 1 = 1 := fl_intCast (n := 1) (by norm_num)
    have hle : fl ((n : ℚ) / 1000) ≤ fl 1 := fl_mono hn1
    exact ⟨fl_nonneg hn0, by linarith⟩
  have hwhole := abs_le.mp (threshold_close hn0 hn1)
  push_cast at hwhole
  intro hin
  -- the run keeps the weight, and the single merge leaves at most what should be left
  have hnear := (inStep_iff (by norm_num) (hundredth_lt (by norm_num) (by norm_num))).mpr
    (show InStep _ _ _ _ _ _ _ ([] ++ [since + 600 * ((count : ℤ) + 1)]) _ from hin)
  rw [← everyTenMinutes_succ, votes_stick P h0 h1 ha, Option.getD_some, List.nil_append] at hnear
  have hsingle := kept_single_le P ha' hord (fl (1 / 5)) since
  have hs0 := share_nonneg WEEK (600 * ((count : ℤ) + 1))
  have hs1 := share_le_one (show 0 < WEEK by decide) (show 0 ≤ 600 * ((count : ℤ) + 1) by positivity)
  have hunit : UNIT ≤ 6 / 10000 := by
    rw [UNIT]
    norm_num
  have hloss : (n : ℝ) / 1000 * (1 - share WEEK (600 * ((count : ℤ) + 1))) - 1 / 2 ^ 53
      ≤ fl ((n : ℚ) / 1000) * (1 - share WEEK (600 * ((count : ℤ) + 1))) := by
    have hsub := mul_le_mul_of_nonneg_right hwhole.1 (show 0 ≤ 1 - share WEEK (600 * ((count : ℤ) + 1)) by linarith)
    have hsmall : (1 : ℝ) / 2 ^ 53 * (1 - share WEEK (600 * ((count : ℤ) + 1))) ≤ 1 / 2 ^ 53 :=
      mul_le_of_le_one_right (by norm_num) (by linarith)
    linarith
  have htiny : (1 : ℝ) / 2 ^ 53 ≤ 1 / 10000 := by norm_num
  have hdiff := (abs_le.mp hnear).2
  linarith

/-! ## A state of one report

The state of one report with four strategies. The powers of its runtime are the doubles that are
nearest, chosen by their existence, and all else is evaluated. -/

/-- A double within four units in the last place of the power. -/
theorem exists_power (e half : ℤ) : ∃ q : ℚ, (0 ≤ e → 0 < half →
    (0 ≤ q ∧ q ≤ 1) ∧ |(q : ℝ) - share half e| ≤ (ULPS : ℝ)) := by
  rw [ulps_eq]
  by_cases h : 0 ≤ e ∧ 0 < half
  · have h0 := share_nonneg half e
    have h1 := share_le_one h.2 h.1
    obtain ⟨q, hlo, hhi⟩ := exists_rat_btwn (show share half e - 1 / 2 ^ 50 < share half e by norm_num)
    -- a negative approximation gives way to zero
    refine ⟨max q 0, fun _ _ => ⟨⟨le_max_right _ _, ?_⟩, ?_⟩⟩
    · have hq : (q : ℝ) ≤ 1 := by linarith
      exact max_le (by exact_mod_cast hq) (by norm_num)
    · rw [Rat.cast_max, Rat.cast_zero, abs_le]
      have hmax := le_max_left (q : ℝ) 0
      refine ⟨by linarith, ?_⟩
      rw [sub_le_iff_le_add]
      exact max_le (by linarith [show (0 : ℝ) ≤ 1 / 2 ^ 50 by positivity]) (by positivity)
  · exact ⟨0, fun he hh => absurd ⟨he, hh⟩ h⟩

/-- The profile of the report, four strategies by rank: `{"d":["a","b","c","e"]}`. -/
def sampleProfile : PyVal := .dict [("d", .list [.str "a", .str "b", .str "c", .str "e"])]

/-- The runtime on this report. -/
noncomputable def sampleRuntime : Runtime where
  str v := v.text?.getD ""
  int _ := none
  halved e half := (exists_power e half).choose
  sha10 _ := "e3b0c44298"
  stamp _ := some "1970-01-01 00:00"
  b64decode s :=
    if s = "eyJkIjpbImEiLCJiIiwiYyIsImUiXX0=" then
      some (Utf8.encode "\x7b\"d\":[\"a\",\"b\",\"c\",\"e\"]\x7d".toList)
    else none
  loads b :=
    if b = Utf8.encode "\x7b\"d\":[\"a\",\"b\",\"c\",\"e\"]\x7d".toList then some sampleProfile else none
  dumps _ := "\x7b\x7d"
  dumpsSorted _ := "\x7b\x7d"
  quote s := s

/-- One phone on Wi-Fi. -/
def sampleReport : Report :=
  [("profiles", .dict [("Wi-Fi", .str "vcnet://eyJkIjpbImEiLCJiIiwiYyIsImUiXX0")])]

/-- The sample runtime computes powers within `ULPS`. -/
theorem sample_accurate {e : ℤ} (he : 0 ≤ e) : Accurate sampleRuntime e := by
  intro half hhalf
  have hpos : 0 < half := by
    rcases hhalf with rfl | rfl
    · decide
    · decide
  exact (exists_power e half).choose_spec he hpos

/-- The profile has no masks of the phone's own. -/
theorem sample_rereads : Rereads sampleRuntime := by
  intro b p x own hp hx hown v hv
  have hprofile : p = sampleProfile := by
    have hloads : (if b = Utf8.encode "\x7b\"d\":[\"a\",\"b\",\"c\",\"e\"]\x7d".toList then
        some sampleProfile else none) = some p := hp
    split at hloads
    · exact (Option.some.inj hloads).symm
    · cases hloads
  rw [hprofile] at hx
  rw [← Except.ok.inj hx] at hown
  rw [← Except.ok.inj hown] at hv
  cases hv

/-- All weights of a state. -/
def allWeights (c : Cloud) : List ℚ :=
  c.votes.entries.flatMap fun f => (f.2.d.entries ++ f.2.m.entries ++ f.2.x.entries).map Prod.snd

/-- A weight that is looked up is one of all weights. -/
theorem weight?_mem {c : Cloud} {fam : String} {kind : Kind} {k : PyVal} {w : ℚ}
    (h : weight? c fam kind k = some w) : w ∈ allWeights c := by
  obtain ⟨f, hf, hget⟩ := Option.bind_eq_some_iff.mp h
  obtain ⟨e, he, rfl⟩ := Option.map_eq_some_iff.mp hget
  have hmem : e ∈ (f.of kind).entries := List.mem_of_find?_eq_some he
  refine List.mem_flatMap.mpr ⟨(fam, f), OrderedMap.mem_of_get? hf, List.mem_map_of_mem ?_⟩
  rw [List.mem_append, List.mem_append]
  cases kind with
  | d => exact .inl (.inl hmem)
  | m => exact .inl (.inr hmem)
  | x => exact .inr hmem

/-- Its votes weigh one at most, and the fourth strategy weighs 0.4. -/
theorem sample_merge : ∃ c, merge sampleRuntime none [sampleReport] 0 = .ok c ∧ c.at_ = 0 ∧
    c.net.entries.length = 0 ∧ weight? c "Wi-Fi" .d (.str "e") = some (fl ((400 : ℕ) / 1000)) ∧
    ∀ w ∈ allWeights c, 0 ≤ w ∧ w ≤ 1 := by
  have hrun : (merge sampleRuntime none [sampleReport] 0).toOption.map (fun c =>
      (c.at_, c.net.entries.length, weight? c "Wi-Fi" .d (.str "e"),
        decide (∀ w ∈ allWeights c, 0 ≤ w ∧ w ≤ 1)))
      = some (0, 0, some (fl ((400 : ℕ) / 1000)), true) := by decide +kernel
  cases hm : merge sampleRuntime none [sampleReport] 0 with
  | error x =>
    rw [hm] at hrun
    cases hrun
  | ok c =>
    rw [hm] at hrun
    obtain ⟨h1, h2⟩ := Prod.mk.inj (Option.some.inj hrun)
    obtain ⟨h2, h3⟩ := Prod.mk.inj h2
    obtain ⟨h3, h4⟩ := Prod.mk.inj h3
    exact ⟨c, rfl, h1, h2, h3, of_decide_eq_true h4⟩

theorem sample_entry {c : Cloud} (hnet : c.net.entries.length = 0) (fam key : String) :
    entryAt c fam key = none := by
  have hnil := List.length_eq_zero_iff.mp hnet
  have hget : c.net.get? fam = none := by
    rw [OrderedMap.get?, hnil]
    rfl
  rw [entryAt, hget]
  rfl

theorem sample_accurateOver (since : ℤ) (ts : List ℤ) : AccurateOver sampleRuntime since ts :=
  fun _ _ _ _ hle => sample_accurate (by omega)

end CloudReports

end VlessCard
