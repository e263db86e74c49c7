/-
`cloud_real.speed_trials`: which of the links that answered get their speed measured.

The trials are the fastest measured links, a head of half the slots, then the links
measured longest ago; of that order the first link of each host comes before the
second of any. So they are a cut for variety as `Diversity` has it, and what is said
there of such cuts is said here of the trials: the head takes no more than its share,
the link that waited longest has a place unless its host has one already, and no host
is tried twice while another is not tried at all.
-/
import VlessCard.CloudHistory
import VlessCard.Diversity

set_option autoImplicit false

namespace VlessCard

namespace CloudReal

open Binary64 KeyedList Diversity

/-! ## The parts of `speed_trials`

The trials have a head of fast links and a rest in the order of waiting. What they promise is
said without the loop that takes them: distinct hosts, no more than the limit, and room for those
that were not measured. -/

/-- The links that answered. -/
def working (res : OrderedMap String ℤ) : List String := (res.entries.filter fun e => 0 < e.2).map Prod.fst

/-- How many of the trials the fastest links may take. -/
def share (limit : ℤ) : ℕ := (max 1 (limit / 2)).toNat

/-- The local `keep`: the fastest measured links. -/
def fastest (res : OrderedMap String ℤ) (hist : History) (now limit : ℤ) : Py (List String) := do
  let ranked ← Python.sortedBy pairLe (speedKey hist now) (working res)
  return ranked.take (share limit)

/-- The last measurement of a link; zero where it has none. -/
def lastSpeed (hist : History) (link : String) : ℤ := ((hist.get? link).map Entry.kb_t).getD 0

def latency (res : OrderedMap String ℤ) (link : String) : ℤ := (res.get? link).getD 0

/-- Of the links outside the head the one that comes first: measured longest ago, then
answering fastest, then first among the results. -/
structure Waiting (res : OrderedMap String ℤ) (hist : History) (head : List String) (b : String) : Prop where
  works : b ∈ working res
  outside : b ∉ head
  least : ∀ c ∈ working res, c ∉ head → c ≠ b →
    lastSpeed hist b < lastSpeed hist c ∨ lastSpeed hist b = lastSpeed hist c ∧
      (latency res b < latency res c ∨ latency res b = latency res c ∧ [b, c].Sublist (working res))

/-- The head: as many working links as it may have, none outside ranked before one of
them. -/
structure Head (res : OrderedMap String ℤ) (hist : History) (now limit : ℤ) (head : List String) : Prop where
  nodup : head.Nodup
  works : head ⊆ working res
  length : head.length = min (share limit) (working res).length
  fast : ∀ a ∈ head, ∀ b ∈ working res, b ∉ head →
    ∃ ka kb, speedKey hist now a = .ok ka ∧ speedKey hist now b = .ok kb ∧ pairLe ka kb = true

/-- What the trials promise. -/
structure Trials (key : String → String) (res : OrderedMap String ℤ) (hist : History) (limit : ℤ)
    (head trials : List String) : Prop where
  nodup : trials.Nodup
  works : trials ⊆ working res
  full : trials.length = min limit.toNat (working res).length
  few : (trials.filter fun l => l ∈ head).length ≤ share limit
  waiting : 2 ≤ limit → ∀ b, Waiting res hist head b → b ∈ trials ∨ ∃ a ∈ trials, a ∈ head ∧ key a = key b
  diverse : ∀ a ∈ trials, ∀ b ∈ trials, a ≠ b → key a = key b →
    ∀ c ∈ working res, ∃ d ∈ trials, key d = key c

/-! ## The loop

The loop takes a link if its host is new, until it has enough. This is the same as dropping
repeated hosts first and cutting afterwards. -/

section
variable {key : String → String} {limit : ℕ}

/-- The loop takes what is fresh until there is enough. -/
theorem pick_eq {l selected hosts : List String} (hlen : selected.length < limit)
    (hhosts : ∀ a ∈ selected, key a ∈ hosts) :
    pick key limit l selected hosts = ((selected ++ fresh key hosts l).take limit,
      decide (limit ≤ (selected ++ fresh key hosts l).length)) := by
  -- the invariant is that the hosts of all chosen links are known
  induction l generalizing selected hosts with
  | nil =>
    rw [pick, fresh, List.append_nil, List.take_of_length_le hlen.le, decide_eq_false (by omega)]
  | cons a l ih =>
    rw [pick, fresh]
    by_cases ha : key a ∈ hosts
    · rw [if_neg (fun h => h.2 ha), if_neg (by omega), if_pos ha]
      exact ih hlen hhosts
    · -- a link of a new host is none of those chosen
      have hnew : a ∉ selected := fun hmem => ha (hhosts a hmem)
      rw [if_pos ⟨hnew, ha⟩, if_neg ha]
      have hassoc : selected ++ a :: fresh key (key a :: hosts) l
          = selected ++ [a] ++ fresh key (key a :: hosts) l := by
        rw [List.append_assoc, List.singleton_append]
      have hone : (selected ++ [a]).length = selected.length + 1 := List.length_append
      rw [hassoc]
      -- the last place is taken, or there is one more
      by_cases hfull : limit ≤ (selected ++ [a]).length
      · have heq : limit = (selected ++ [a]).length := by omega
        dsimp only
        have hle : (selected ++ [a]).length ≤ (selected ++ [a] ++ fresh key (key a :: hosts) l).length :=
          (List.sublist_append_left _ _).length_le
        rw [if_pos hfull, heq, List.take_left, decide_eq_true hle]
      · dsimp only
        rw [if_neg hfull]
        apply ih
        · omega
        · intro b hb
          rcases List.mem_append.mp hb with hb | hb
          · exact List.mem_cons_of_mem _ (hhosts b hb)
          · rw [List.mem_singleton.mp hb]
            exact List.mem_cons_self

end

/-! ## The order of the trials

The head is the working links sorted by speed and cut to its share, and the rest are the others
sorted by the time of their last measurement. Both together are the working links, each once. -/

/-- Pairs are compared by their first part, then by the second. -/
theorem pairLe_iff {a b : ℤ × ℚ} : pairLe a b = true ↔ a.1 < b.1 ∨ a.1 = b.1 ∧ a.2 ≤ b.2 := by
  rw [pairLe, Bool.or_eq_true, Bool.and_eq_true, decide_eq_true_eq, decide_eq_true_eq, decide_eq_true_eq]

theorem pairLe_trans {a b c : ℤ × ℚ} (h1 : pairLe a b = true) (h2 : pairLe b c = true) : pairLe a c = true := by
  rw [pairLe_iff] at h1 h2 ⊢
  rcases h1 with h1 | ⟨h1, h1'⟩
  · rcases h2 with h2 | ⟨h2, -⟩
    · exact .inl (lt_trans h1 h2)
    · exact .inl (h2 ▸ h1)
  · rcases h2 with h2 | ⟨h2, h2'⟩
    · exact .inl (h1 ▸ h2)
    · exact .inr ⟨h1.trans h2, le_trans h1' h2'⟩

theorem pairLe_total (a b : ℤ × ℚ) : (pairLe a b || pairLe b a) = true := by
  rw [Bool.or_eq_true, pairLe_iff, pairLe_iff]
  rcases lt_trichotomy a.1 b.1 with h | h | h
  · exact .inl (.inl h)
  · rcases le_total a.2 b.2 with h' | h'
    · exact .inl (.inr ⟨h, h'⟩)
    · exact .inr (.inr ⟨h.symm, h'⟩)
  · exact .inr (.inl h)

section
variable {key : String → String} {res : OrderedMap String ℤ} {hist : History} {now limit : ℤ}

/-- The two parts the trials are chosen from. -/
structure Parts (res : OrderedMap String ℤ) (hist : History) (now limit : ℤ) (head rest : List String) : Prop where
  cut : fastest res hist now limit = .ok head
  sorted : Python.sortedBy pairLe (ageKey res hist) ((working res).filter fun l => l ∉ head) = .ok rest

theorem nodup_working (res : OrderedMap String ℤ) : (working res).Nodup :=
  res.nodup.sublist (List.filter_sublist.map Prod.fst)

/-- The head is cut from the working links, ranked. -/
theorem fastest_spec {head : List String} (h : fastest res hist now limit = .ok head) :
    ∃ g : String → ℤ × ℚ, (∀ l ∈ working res, speedKey hist now l = .ok (g l)) ∧
      Python.sortedBy pairLe (speedKey hist now) (working res)
        = .ok ((working res).mergeSort fun a b => pairLe (g a) (g b)) ∧
      head = ((working res).mergeSort fun a b => pairLe (g a) (g b)).take (share limit) := by
  rw [fastest] at h
  obtain ⟨ranked, hranked, h⟩ := Python.bind_ok h
  obtain ⟨g, hg, rfl⟩ := Python.sortedBy_spec hranked
  exact ⟨g, hg, hranked, (Except.ok.inj h).symm⟩

/-- The head of the trials are the fastest. -/
theorem head_spec {head : List String} (h : fastest res hist now limit = .ok head) :
    Head res hist now limit head := by
  obtain ⟨g, hg, -, rfl⟩ := fastest_spec h
  have hperm := List.mergeSort_perm (working res) fun a b => pairLe (g a) (g b)
  constructor
  · exact (List.take_sublist _ _).nodup (hperm.nodup_iff.mpr (nodup_working res))
  · exact fun a ha => hperm.mem_iff.mp (List.mem_of_mem_take ha)
  · rw [List.length_take, hperm.length_eq]
  · intro a ha b hb hout
    have hbdrop : b ∈ ((working res).mergeSort fun a b => pairLe (g a) (g b)).drop (share limit) := by
      have hmem := hperm.mem_iff.mpr hb
      rw [← List.take_append_drop (share limit) ((working res).mergeSort _), List.mem_append] at hmem
      exact hmem.resolve_left hout
    have hpair : ((working res).mergeSort fun a b => pairLe (g a) (g b)).Pairwise
        fun a b => pairLe (g a) (g b) = true :=
      List.pairwise_mergeSort (fun a b c => @pairLe_trans (g a) (g b) (g c)) (fun a b => pairLe_total (g a) (g b))
        (working res)
    rw [← List.take_append_drop (share limit) ((working res).mergeSort _), List.pairwise_append] at hpair
    exact ⟨g a, g b, hg a (hperm.mem_iff.mp (List.mem_of_mem_take ha)), hg b hb, hpair.2.2 a ha b hbdrop⟩

/-- The others are ordered by when they were measured, then by latency. -/
theorem ageKey_eq {l : String} {k : ℤ × ℚ} (h : ageKey res hist l = .ok k) :
    k = (lastSpeed hist l, ((latency res l : ℤ) : ℚ)) := by
  rw [ageKey] at h
  obtain ⟨e, he, h⟩ := Python.bind_ok h
  rw [lookup] at he
  split at he
  · rename_i e' hget
    rw [← Except.ok.inj h, ← Except.ok.inj he, lastSpeed, hget]
    rfl
  · cases he

namespace Parts

variable {head rest : List String} (h : Parts res hist now limit head rest)
include h

/-- The parts are the working links, each once. -/
theorem perm : (head ++ rest).Perm (working res) := by
  obtain ⟨g, -, hrest⟩ := Python.sortedBy_spec h.sorted
  have hhead := head_spec h.cut
  have hmem : ((working res).filter fun l => decide (l ∈ head)).Perm head := by
    rw [List.perm_ext_iff_of_nodup ((nodup_working res).filter _) hhead.nodup]
    intro a
    rw [List.mem_filter, decide_eq_true_eq]
    exact ⟨fun ha => ha.2, fun ha => ⟨hhead.works ha, ha⟩⟩
  have hout : rest.Perm ((working res).filter fun l => !decide (l ∈ head)) := by
    rw [hrest]
    refine (List.mergeSort_perm _ _).trans (List.Perm.of_eq ?_)
    apply List.filter_congr
    intro a _
    exact decide_not
  exact (hmem.symm.append hout).trans (List.filter_append_perm _ _)

theorem nodup : (head ++ rest).Nodup := h.perm.nodup_iff.mpr (nodup_working res)

/-- The link that waited longest comes first behind the head. -/
theorem head?_rest {b : String} (hb : Waiting res hist head b) : rest.head? = some b := by
  obtain ⟨g, hg, rfl⟩ := Python.sortedBy_spec h.sorted
  have hmem : ∀ c, c ∈ (working res).filter (fun l => l ∉ head) ↔ c ∈ working res ∧ c ∉ head := by
    intro c
    rw [List.mem_filter, decide_eq_true_eq]
  have hage : ∀ c ∈ working res, c ∉ head → g c = (lastSpeed hist c, ((latency res c : ℤ) : ℚ)) :=
    fun c hc hout => ageKey_eq (hg c ((hmem c).mpr ⟨hc, hout⟩))
  apply Python.head?_mergeSort
  · exact fun _ _ _ => pairLe_trans
  · exact fun _ _ => pairLe_total _ _
  · exact (nodup_working res).filter _
  · exact (hmem b).mpr ⟨hb.works, hb.outside⟩
  · intro c hc hne
    obtain ⟨hcw, hout⟩ := (hmem c).mp hc
    rw [hage c hcw hout, hage b hb.works hb.outside, pairLe_iff, pairLe_iff]
    dsimp only
    rw [Int.cast_le, Int.cast_le]
    rcases hb.least c hcw hout hne with hlt | ⟨heq, hlt | ⟨heq', hsub⟩⟩
    · exact ⟨.inl hlt, fun hback => by omega⟩
    · exact ⟨.inr ⟨heq, hlt.le⟩, fun hback => by omega⟩
    · refine ⟨.inr ⟨heq, heq'.le⟩, fun _ => ?_⟩
      -- the filter keeps both, in their order
      have hkept := hsub.filter fun l => decide (l ∉ head)
      rwa [List.filter_cons_of_pos (by simpa using hb.outside),
        List.filter_cons_of_pos (by simpa using hout), List.filter_nil] at hkept

end Parts

/-- The trials are the parts, a link of each host first, cut to the limit. -/
theorem speedTrials_eq {trials : List String} (hlimit : 1 ≤ limit)
    (h : speedTrials key res hist now limit = .ok trials) :
    ∃ head rest, Parts res hist now limit head rest ∧
      trials = (spread key (head ++ rest)).take limit.toNat := by
  rw [speedTrials, if_neg (by omega)] at h
  obtain ⟨ranked, hranked, h⟩ := Python.bind_ok h
  obtain ⟨rest, hrest, h⟩ := Python.bind_ok h
  have hfast : fastest res hist now limit = .ok (ranked.take (share limit)) := by
    rw [fastest, working, hranked]
    rfl
  have hparts : Parts res hist now limit (ranked.take (share limit)) rest := ⟨hfast, hrest⟩
  refine ⟨_, rest, hparts, ?_⟩
  obtain ⟨g, -, hsorted⟩ := Python.sortedBy_spec hranked
  -- the ranked links were all offered before
  have hoffered : fresh key [] (ranked.take (share limit) ++ rest ++ ranked)
      = fresh key [] (ranked.take (share limit) ++ rest) := by
    rw [fresh_append _ _ ranked, fresh_eq_nil key (l := ranked), List.append_nil]
    intro a ha
    rw [List.append_nil]
    apply List.mem_map_of_mem
    rw [hparts.perm.mem_iff]
    rw [hsorted] at ha
    exact (List.mergeSort_perm _ _).mem_iff.mp ha
  have hpick : pick key limit.toNat (ranked.take (share limit) ++ rest ++ ranked) [] []
      = ((fresh key [] (ranked.take (share limit) ++ rest)).take limit.toNat,
        decide (limit.toNat ≤ (fresh key [] (ranked.take (share limit) ++ rest)).length)) := by
    rw [pick_eq (by rw [List.length_nil]; omega) (fun a ha => absurd ha List.not_mem_nil), List.nil_append, hoffered]
  have hshare : (max 1 (limit / 2)).toNat = share limit := rfl
  rw [hshare, hpick] at h
  dsimp only at h
  rw [spread]
  by_cases hfull : limit.toNat ≤ (fresh key [] (ranked.take (share limit) ++ rest)).length
  · rw [decide_eq_true hfull, if_pos rfl] at h
    rw [List.take_append_of_le_length hfull]
    exact (Except.ok.inj h).symm
  · have hshort : (fresh key [] (ranked.take (share limit) ++ rest)).length ≤ limit.toNat := by omega
    rw [decide_eq_false hfull, if_neg (by decide), List.take_of_length_le hshort,
      filter_not_fresh key hparts.nodup] at h
    exact (Except.ok.inj h).symm

/-! ## What they promise

The four promises follow from the two parts alone, whatever they were sorted by. -/

/-- **The trials keep room for those that were not measured.** -/
theorem trials_of_parts {head rest : List String} (h : Parts res hist now limit head rest) :
    Trials key res hist limit head ((spread key (head ++ rest)).take limit.toNat) := by
  have hhead := head_spec h.cut
  have hperm : (spread key (head ++ rest)).Perm (working res) := (perm_spread key _).trans h.perm
  have hnodup : ((spread key (head ++ rest)).take limit.toNat).Nodup :=
    (List.take_sublist _ _).nodup (hperm.nodup_iff.mpr (nodup_working res))
  constructor
  · exact hnodup
  · exact fun a ha => hperm.mem_iff.mp (List.mem_of_mem_take ha)
  · rw [List.length_take, hperm.length_eq]
  · have hsub : ((spread key (head ++ rest)).take limit.toNat).filter (fun l => l ∈ head) ⊆ head := by
      intro a ha
      exact of_decide_eq_true (List.mem_filter.mp ha).2
    have hle := ((hnodup.filter _).subperm hsub).length_le
    have hlen := hhead.length
    omega
  · intro htwo b hb
    -- the head leaves a place
    have hroom : (fresh key [] head).length < limit.toNat := by
      have hsub := (fresh_sublist key head []).length_le
      have hlen := hhead.length
      have hshare : share limit < limit.toNat := by
        rw [share]
        omega
      omega
    have htake : (spread key (head ++ rest)).take limit.toNat = fresh key [] head
        ++ (fresh key (head.map key) rest ++ repeated key [] (head ++ rest)).take
          (limit.toNat - (fresh key [] head).length) := by
      rw [spread, fresh_append, List.append_nil, List.append_assoc, List.take_append,
        List.take_of_length_le hroom.le]
    rw [htake]
    by_cases hkey : key b ∈ head.map key
    · right
      have hfresh : key b ∈ (fresh key [] head).map key := by
        rw [mem_keys_fresh]
        exact ⟨hkey, List.not_mem_nil⟩
      obtain ⟨a, ha, hab⟩ := List.mem_map.mp hfresh
      exact ⟨a, List.mem_append_left _ ha, (fresh_sublist key head []).subset ha, hab⟩
    · left
      obtain ⟨others, hothers⟩ := List.head?_eq_some_iff.mp (h.head?_rest hb)
      obtain ⟨n, hn⟩ : ∃ n, limit.toNat - (fresh key [] head).length = n + 1 :=
        ⟨limit.toNat - (fresh key [] head).length - 1, by omega⟩
      apply List.mem_append_right
      rw [hothers, fresh, if_neg hkey, hn, List.cons_append, List.take_succ_cons]
      exact List.mem_cons_self
  · intro a ha b hb hne hkey c hc
    -- a repeated host means that every host was reached
    have hall : (fresh key [] (head ++ rest)).length ≤ limit.toNat := by
      by_contra hlong
      rw [spread, List.take_append_of_le_length (by omega)] at ha hb
      exact hne (List.inj_on_of_nodup_map (nodup_fresh key (head ++ rest) []) (List.mem_of_mem_take ha)
        (List.mem_of_mem_take hb) hkey)
    have hkeyc : key c ∈ (fresh key [] (head ++ rest)).map key := by
      rw [mem_keys_fresh]
      exact ⟨List.mem_map_of_mem (h.perm.mem_iff.mpr hc), List.not_mem_nil⟩
    obtain ⟨d, hd, hdc⟩ := List.mem_map.mp hkeyc
    refine ⟨d, ?_, hdc⟩
    rw [spread, List.take_append, List.take_of_length_le hall]
    exact List.mem_append_left _ hd

/-! ## When they are chosen at all

Choosing the trials divides by the number of checks plus one. A history in which that is zero
does not come up in a run; the theorem names it since it speaks of any history. -/

/-- A link is ranked unless it was checked minus one times. -/
theorem speedKey_returns_iff {l : String} {e : Entry} (hget : hist.get? l = some e) :
    (∃ k, speedKey hist now l = .ok k) ↔ e.n ≠ -1 := by
  have hzero : fl (e.n + 1) = 0 ↔ e.n = -1 := by
    rw [fl_eq_zero_iff]
    exact ⟨eq_neg_of_add_eq_zero_left, fun h => by rw [h]; norm_num⟩
  rw [speedKey, lookup_ok hget, Python.ok_bind, score, divide]
  by_cases hn : e.n = -1
  · rw [if_pos (hzero.mpr hn)]
    refine iff_of_false (fun h => ?_) (not_not.mpr hn)
    obtain ⟨k, hk⟩ := h
    cases hk
  · rw [if_neg (fun h => hn (hzero.mp h))]
    exact iff_of_true ⟨_, rfl⟩ hn

/-- They are found just when no link that works has a counter of -1, for which `score` divides by zero. -/
theorem speedTrials_returns_iff (hlimit : 1 ≤ limit) (hhist : ∀ l ∈ working res, ∃ e, hist.get? l = some e) :
    (∃ trials, speedTrials key res hist now limit = .ok trials) ↔
      ∀ l ∈ working res, ∀ e, hist.get? l = some e → e.n ≠ -1 := by
  constructor
  · rintro ⟨trials, h⟩ l hl e he
    obtain ⟨head, rest, hparts, -⟩ := speedTrials_eq hlimit h
    obtain ⟨g, hg, -⟩ := fastest_spec hparts.cut
    exact (speedKey_returns_iff he).mp ⟨g l, hg l hl⟩
  · intro hn
    have hspeed : ∀ l ∈ working res, ∃ k, speedKey hist now l = .ok k := by
      intro l hl
      obtain ⟨e, he⟩ := hhist l hl
      exact (speedKey_returns_iff he).mpr (hn l hl e he)
    obtain ⟨ranked, hranked, -⟩ := Python.sortedBy_ok pairLe hspeed
    have hage : ∀ l ∈ (working res).filter (fun l => l ∉ ranked.take (share limit)), ∃ k, ageKey res hist l = .ok k := by
      intro l hl
      obtain ⟨e, he⟩ := hhist l (List.mem_of_mem_filter hl)
      exact ageKey_ok he res
    obtain ⟨rest, hrest, -⟩ := Python.sortedBy_ok pairLe hage
    rw [working] at hranked hrest
    rw [share] at hrest
    rw [speedTrials, if_neg (by omega)]
    simp only [hranked, hrest, Python.ok_bind]
    split
    · exact ⟨_, rfl⟩
    · exact ⟨_, rfl⟩

/-- **Speed trials are different, as many as fit, and leave room for what was not
measured.** For a history that has every working link they are chosen unless some
link was checked minus one times, as none is (`history_stays_usable`). The head are
the fastest measured links and fill half the trials at most; the link that waited
longest outside it is tried, or one of its host in the head is; and no host is tried
twice unless every host is tried. -/
theorem trials_leave_room (key : String → String) (res : OrderedMap String ℤ) (hist : History) (now : ℤ)
    {limit : ℤ} (hlimit : 1 ≤ limit) (hhist : ∀ l ∈ working res, ∃ e, hist.get? l = some e) :
    ((∃ trials, speedTrials key res hist now limit = .ok trials) ↔
        ∀ l ∈ working res, ∀ e, hist.get? l = some e → e.n ≠ -1) ∧
      ∀ trials, speedTrials key res hist now limit = .ok trials →
        ∃ head, fastest res hist now limit = .ok head ∧ Head res hist now limit head ∧
          Trials key res hist limit head trials := by
  refine ⟨speedTrials_returns_iff hlimit hhist, ?_⟩
  intro trials h
  obtain ⟨head, rest, hparts, rfl⟩ := speedTrials_eq hlimit h
  exact ⟨head, hparts.cut, head_spec hparts.cut, trials_of_parts hparts⟩

end

/-- Three links on two hosts and two slots: the trials are of both hosts. -/
theorem trials_leave_room_three :
    let res : OrderedMap String ℤ := .ofList [("a1", 90), ("a2", 80), ("b1", 200)]
    let hist : History := .ofList [("a1", { ok := 9, n := 10, t := 1000, kb_t := 500 }),
      ("a2", { ok := 9, n := 10, t := 1000, kb_t := 900 }), ("b1", { ok := 5, n := 10, t := 1000 })]
    let host : String → String := fun l => .ofList (l.toList.take 1)
    ∃ trials, speedTrials host res hist 1000 2 = .ok trials ∧ trials.length = 2 := by
  intro res hist host
  have hhist : ∀ l ∈ working res, ∃ e, hist.get? l = some e := by
    intro l hl
    exact Option.isSome_iff_exists.mp
      ((by decide +kernel : ∀ l ∈ working res, (hist.get? l).isSome = true) l hl)
  have hlimit : (1 : ℤ) ≤ 2 := by decide
  have hmain := trials_leave_room host res hist 1000 hlimit hhist
  have hall : ∀ l ∈ working res, ∀ e, hist.get? l = some e → e.n ≠ -1 := by
    intro l hl e he
    exact (by decide +kernel : ∀ l ∈ working res, ∀ e ∈ hist.get? l, e.n ≠ -1) l hl e he
  obtain ⟨trials, htrials⟩ := hmain.1.mpr hall
  obtain ⟨head, -, -, hpromise⟩ := hmain.2 trials htrials
  exact ⟨trials, htrials, hpromise.full.trans (by decide +kernel)⟩

end CloudReal

end VlessCard
