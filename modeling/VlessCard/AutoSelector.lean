/-
`AutoSelector.RunAsync`: which routes of a catalogue get their speed measured.

Of the candidates of a run only the first four hosts are measured: the best route of
the last minutes, the head of an exploration window and the first routes of the
catalogue. The best route was measured before, and the first routes are the same
each time, so what is new to a run is the head alone. It goes six places a run round
the catalogue: with a length that has no divisor in common with six it comes by every
route, and otherwise only by some. The place is a 32-bit number that wraps, and where
it is negative the head is the first route.
-/
import Mathlib.Data.Int.GCD
import Mathlib.Data.Finset.Card
import Mathlib.Data.Nat.Prime.Basic
import Mathlib.Tactic.NormNum
import VlessCard.Lists
import VlessCard.OrderedMap

set_option autoImplicit false

namespace VlessCard

structure Route where
  name : String
  host : String
  port : Int32
  id : String
  security : String
  sni : String
  fingerprint : String
  publicKey : String
  shortId : String
  flow : String
  deriving DecidableEq

structure ProbeResult where
  httpsOk : Bool
  kbps : Int32
  latencyMs : Int32
  deriving DecidableEq

/-- How awaiting one probe ends. -/
inductive Probed where
  | result (r : ProbeResult)
  /-- Its own five seconds are over. -/
  | slow
  /-- The connection failed. -/
  | failed
  /-- The time of the whole run is over. -/
  | over

/-- What one run meets: the clock in ticks of 100 ns, the answers of the routes, and whether
the time of the run is over when the turn of a route comes. -/
structure Run where
  now : ℤ
  tcp : Route → Bool
  expired : Route → Bool
  probe : Route → Probed
  ended : Route → ℤ

structure AutoSelector where
  samples : OrderedMap Route (ProbeResult × ℤ)
  cooldown : OrderedMap Route ℤ
  network : String
  cursor : ℤ

namespace AutoSelector

def MINUTE : ℤ := 600000000

/-- `new AutoSelector()`. -/
def fresh : AutoSelector := ⟨.empty, .empty, "", 0⟩

/-- The sum of two `int`. -/
def add (a b : ℤ) : ℤ := (a + b).bmod (2 ^ 32)

def Better (a b : ProbeResult) : Bool :=
  a.httpsOk && (!b.httpsOk || b.kbps < a.kbps || (a.kbps = b.kbps && a.latencyMs < b.latencyMs))

/-- What `Skip` leaves out: nothing for a negative count. -/
def head (cursor : ℤ) (count : ℕ) : ℕ := if count = 0 then 0 else (cursor.tmod count).toNat

def available (catalog : List Route) (now : ℤ) (s : AutoSelector) : List Route :=
  catalog.eraseDups.filter fun r => (s.cooldown.get? r).all fun till => till ≤ now

/-- The routes measured in the last five minutes, the fastest first. -/
def leaders (available : List Route) (now : ℤ) (s : AutoSelector) : List Route :=
  ((available.filter fun r => (s.samples.get? r).any fun e => now - e.2 < 5 * MINUTE).mergeSort
    fun a b => ((s.samples.get? b).map fun e => e.1.kbps).getD 0 ≤ ((s.samples.get? a).map fun e => e.1.kbps).getD 0).take 2

def exploration (available : List Route) (cursor : ℤ) : List Route :=
  (available.drop (head cursor available.length) ++ available).take 6

def candidates (available leaders exploration : List Route) : List Route :=
  (leaders.take 1 ++ exploration.take 1 ++ available.take 12 ++ exploration).eraseDups.take 24

section
variable (lower : String → String)

/-- The first four hosts; `lower` is `ToLowerInvariant`. -/
def shortlist (ready : List Route) : List Route :=
  (distinctBy (fun r => lower r.host) ready ++ ready).eraseDups.take 4

end

/-- A run while it measures; `probed` are the routes that were passed to the probe. -/
structure Comparing where
  selector : AutoSelector
  winner : Option Route
  best : Option ProbeResult
  compared : ℕ
  timedOut : Bool
  probed : List Route

/-- What a result changes. -/
def record (run : Run) (route : Route) (result : ProbeResult) (c : Comparing) : Comparing :=
  if result.httpsOk then
    let selector := { c.selector with samples := c.selector.samples.put route (result, run.ended route) }
    if c.best.all fun best => Better result best then
      { c with selector := selector, winner := some route, best := some result, compared := c.compared + 1 }
    else { c with selector := selector, compared := c.compared + 1 }
  else
    { c with
      selector := { c.selector with
        cooldown := c.selector.cooldown.put route (run.ended route + 2 * MINUTE) }
      compared := c.compared + 1 }

def measure (run : Run) : List Route → Comparing → Comparing
  | [], c => c
  | route :: rest, c =>
    if run.expired route then { c with timedOut := true }
    else
      let c := { c with probed := c.probed ++ [route] }
      match run.probe route with
      | .over => { c with timedOut := true }
      | .slow => measure run rest c
      | .failed => measure run rest (record run route ⟨false, 0, 0⟩ c)
      | .result r => measure run rest (record run route r c)

/-- What is forgotten before a run. -/
def renew (networkKey : String) (s : AutoSelector) : AutoSelector :=
  let s := if s.network ≠ networkKey then ⟨.empty, .empty, networkKey, 0⟩ else s
  { s with
    samples := if 600 < s.samples.entries.length then .empty else s.samples
    cooldown := if 600 < s.cooldown.entries.length then .empty else s.cooldown }

section
variable (lower : String → String) (catalog : List Route) (networkKey : String)

/-- What a run chooses from, and the selector with its cursor moved. -/
def choose (now : ℤ) (s : AutoSelector) : List Route × AutoSelector :=
  let s := renew networkKey s
  let routes := available catalog now s
  (candidates routes (leaders routes now s) (exploration routes s.cursor),
    { s with cursor := add s.cursor 6 })

/-- `RunAsync`. -/
def runAsync (run : Run) (s : AutoSelector) : Comparing :=
  let (routes, s) := choose catalog networkKey run.now s
  measure run (shortlist lower (routes.filter run.tcp)) ⟨s, none, none, 0, false, []⟩

/-- Run after run, and the routes passed to the probe. -/
def runAll : List Run → AutoSelector → List Route × AutoSelector
  | [], s => ([], s)
  | run :: runs, s =>
    let c := runAsync lower catalog networkKey run s
    let rest := runAll runs c.selector
    (c.probed ++ rest.1, rest.2)

end

/-! ## Where the head goes

Every run moves the head on by six, modulo the number of places behind the first four. Whether it
comes by every place is a question about common divisors, and for very long catalogues about the
overflow of the product as well. -/

/-- The head of the run that follows `i` others. -/
def headAt (n i : ℕ) : ℕ := head ((6 * i : ℤ).bmod (2 ^ 32)) n

/-- Where nothing overflows the head moves on by six. -/
theorem headAt_small {n i : ℕ} (hn : 0 < n) (hi : 6 * i < 2 ^ 31) : headAt n i = 6 * i % n := by
  have hmod : (6 * i : ℤ).bmod (2 ^ 32) = (6 * i : ℕ) := by
    push_cast
    exact Int.bmod_eq_of_le (by omega) (by omega)
  rw [headAt, hmod, head, if_neg hn.ne', ← Int.ofNat_tmod]
  rfl

/-- The place is negative, and nothing is skipped. -/
theorem headAt_wrapped {n i : ℕ} (h1 : 2 ^ 31 ≤ 6 * i) (h2 : 6 * i < 2 ^ 32) : headAt n i = 0 := by
  have hmod : (6 * i : ℤ).bmod (2 ^ 32) = -((2 ^ 32 - 6 * i : ℕ) : ℤ) := by
    have hrem : (6 * i : ℤ) % ((2 ^ 32 : ℕ) : ℤ) = 6 * i := Int.emod_eq_of_lt (by omega) (by omega)
    rw [Int.bmod_def, hrem, if_neg (by omega)]
    omega
  rw [headAt, hmod, head]
  split
  · rfl
  · rw [Int.neg_tmod, ← Int.ofNat_tmod]
    exact Int.toNat_neg_natCast _

/-- The head comes by every place but the first four in as many runs as there are places. -/
def Sweeps (n : ℕ) : Prop := ∀ j < n, 4 ≤ j → ∃ i < n, headAt n i = j

/-- A common divisor keeps the head from the sixth place. -/
theorem not_sweeps_of_dvd {n p : ℕ} (hn : 5 < n) (hsmall : n ≤ 357913945) (hp : p ∣ n) (h6 : p ∣ 6)
    (h5 : ¬ p ∣ 5) : ¬ Sweeps n := by
  intro h
  obtain ⟨i, hi, hhead⟩ := h 5 hn (by norm_num)
  by_cases hlow : 6 * i < 2 ^ 31
  · rw [headAt_small (by omega) hlow] at hhead
    exact h5 (hhead ▸ (Nat.dvd_mod_iff hp).mpr (Dvd.dvd.mul_right h6 i))
  · rw [headAt_wrapped (by omega) (by omega)] at hhead
    cases hhead

/-- The last run falls on a negative place, and its route is missed. -/
theorem not_sweeps_of_wrapped {n : ℕ} (h1 : 357913942 < n) (h2 : n ≤ 357913945) (h6 : n.Coprime 6) :
    ¬ Sweeps n := by
  intro h
  obtain ⟨i, hi, hhead⟩ := h (n - 6) (by omega) (by omega)
  by_cases hlow : 6 * i < 2 ^ 31
  · rw [headAt_small (by omega) hlow] at hhead
    -- one more step would end at the start of the catalogue
    have hdvd : n ∣ 6 * (i + 1) := by
      have hsplit := Nat.div_add_mod (6 * i) n
      rw [hhead] at hsplit
      refine ⟨6 * i / n + 1, ?_⟩
      rw [Nat.mul_succ, Nat.mul_succ]
      omega
    have hle := Nat.le_of_dvd (Nat.succ_pos i) (h6.dvd_of_dvd_mul_left hdvd)
    omega
  · rw [headAt_wrapped (by omega) (by omega)] at hhead
    omega

/-- Five runs with the head on the first route are too many. -/
theorem not_sweeps_of_many {n : ℕ} (h : 357913945 < n) : ¬ Sweeps n := by
  intro hs
  let lost : Finset ℕ := {0, 357913942, 357913943, 357913944, 357913945}
  -- five indices give the head 0 again, the first and those that wrap around
  have hlost : ∀ i ∈ lost, headAt n i = 0 := by
    intro i hi
    simp only [lost, Finset.mem_insert, Finset.mem_singleton] at hi
    rcases hi with rfl | hi
    · rw [headAt_small (by omega) (by norm_num)]
      exact Nat.zero_mod n
    · exact headAt_wrapped (by omega) (by omega)
  have hsub : lost ⊆ Finset.range n := by
    intro i hi
    simp only [lost, Finset.mem_insert, Finset.mem_singleton] at hi
    rw [Finset.mem_range]
    omega
  -- so the other indices have to cover all places from the fourth on
  have hcover : Finset.range n ⊆ Finset.range 4 ∪ (Finset.range n \ lost).image (headAt n) := by
    intro j hj
    rw [Finset.mem_range] at hj
    rw [Finset.mem_union, Finset.mem_range, Finset.mem_image]
    by_cases h4 : 4 ≤ j
    · obtain ⟨i, hi, hhead⟩ := hs j hj h4
      refine .inr ⟨i, ?_, hhead⟩
      rw [Finset.mem_sdiff, Finset.mem_range]
      refine ⟨hi, fun hmem => ?_⟩
      rw [hlost i hmem] at hhead
      omega
    · exact .inl (by omega)
  -- and there are too few of them
  have hcard := Finset.card_le_card hcover
  have hunion := Finset.card_union_le (Finset.range 4) ((Finset.range n \ lost).image (headAt n))
  have himage := Finset.card_image_le (s := Finset.range n \ lost) (f := headAt n)
  have hfive : lost.card = 5 := rfl
  have hle := Finset.card_le_card hsub
  rw [Finset.card_sdiff_of_subset hsub] at himage
  rw [Finset.card_range] at *
  omega

/-- Without a common divisor the head comes by every place. -/
theorem exists_headAt {n : ℕ} (hn : 0 < n) (h6 : n.Coprime 6) (hsmall : n ≤ 357913942) {j : ℕ} (hj : j < n) :
    ∃ i < n, headAt n i = j := by
  obtain ⟨i, hi, hmod⟩ := Nat.exists_mul_mod_eq_of_coprime j h6.symm hn.ne'
  refine ⟨i, hi, ?_⟩
  rw [headAt_small hn (by omega), hmod, Nat.mod_eq_of_lt hj]

/-- **The heads reach every route just for these numbers of routes.** -/
theorem sweeps_iff {n : ℕ} (hn : 0 < n) : Sweeps n ↔ n ≤ 4 ∨ n.Coprime 6 ∧ n ≤ 357913942 := by
  constructor
  · intro h
    by_contra hnot
    push Not at hnot
    obtain ⟨h4, hnot⟩ := hnot
    by_cases hmany : 357913945 < n
    · exact not_sweeps_of_many hmany h
    · by_cases h6 : n.Coprime 6
      · exact not_sweeps_of_wrapped (hnot h6) (by omega) h6 h
      · have hfive : n ≠ 5 := by
          rintro rfl
          exact h6 (by decide)
        obtain ⟨p, hp, hpn, hp6⟩ := Nat.Prime.not_coprime_iff_dvd.mp h6
        refine not_sweeps_of_dvd (by omega) (by omega) hpn hp6 (fun h5 => ?_) h
        have hone : p ∣ 1 := (Nat.dvd_sub hp6 h5)
        exact hp.one_lt.ne' (Nat.dvd_one.mp hone)
  · rintro (h4 | ⟨h6, hsmall⟩) j hj hfour
    · omega
    · obtain ⟨i, hi, hmod⟩ := Nat.exists_mul_mod_eq_of_coprime j h6.symm hn.ne'
      refine ⟨i, hi, ?_⟩
      rw [headAt_small hn (by omega), hmod, Nat.mod_eq_of_lt hj]

/-! ## One run in which all goes well

Without failures, pauses and shared hosts a run is simple: it measures the first four of its
candidates, and writes down nothing but their samples. The other parts of the selector stay as
they were. -/

section
variable {lower : String → String} {catalog : List Route} {networkKey : String}

/-- No two routes have the same host, whatever the case of its letters. -/
def DistinctHosts (lower : String → String) (catalog : List Route) : Prop :=
  (catalog.map fun r => lower r.host).Nodup

instance (lower : String → String) (catalog : List Route) : Decidable (DistinctHosts lower catalog) :=
  inferInstanceAs (Decidable (List.Nodup _))

/-- Every TCP check succeeds, and every probe has an HTTPS result in time. -/
def Healthy (catalog : List Route) (run : Run) : Prop :=
  ∀ r ∈ catalog, run.tcp r = true ∧ run.expired r = false ∧
    ∃ p, run.probe r = .result p ∧ p.httpsOk = true

/-- A result with HTTPS is remembered, and brings no pause. -/
theorem record_ok {run : Run} {route : Route} {p : ProbeResult} (h : p.httpsOk = true) (c : Comparing) :
    (record run route p c).selector
        = { c.selector with samples := c.selector.samples.put route (p, run.ended route) } ∧
      (record run route p c).probed = c.probed := by
  rw [record, if_pos h]
  split
  · exact ⟨rfl, rfl⟩
  · exact ⟨rfl, rfl⟩

/-- All of the list is measured, and nothing but samples is written. -/
theorem measure_healthy {run : Run} {l : List Route} (h : Healthy l run) (c : Comparing) :
    (measure run l c).probed = c.probed ++ l ∧
      (measure run l c).selector.cooldown = c.selector.cooldown ∧
      (measure run l c).selector.network = c.selector.network ∧
      (measure run l c).selector.cursor = c.selector.cursor ∧
      ∀ r, (measure run l c).selector.samples.contains r = true →
        c.selector.samples.contains r = true ∨ r ∈ l := by
  induction l generalizing c with
  | nil => exact ⟨(List.append_nil _).symm, rfl, rfl, rfl, fun r hr => .inl hr⟩
  | cons route rest ih =>
    obtain ⟨-, hexpired, p, hp, hok⟩ := h route List.mem_cons_self
    rw [measure, if_neg (by rw [hexpired]; decide)]
    simp only [hp]
    obtain ⟨hsel, hprobed⟩ := @record_ok run route p hok
      { c with probed := c.probed ++ [route] }
    obtain ⟨h1, h2, h3, h4, h5⟩ := ih (fun r hr => h r (List.mem_cons_of_mem _ hr))
      (record run route p { c with probed := c.probed ++ [route] })
    rw [hsel] at h2 h3 h4 h5
    rw [hprobed] at h1
    refine ⟨?_, h2, h3, h4, fun r hr => ?_⟩
    · rw [h1, List.append_assoc, List.singleton_append]
    · rcases h5 r hr with hold | hrest
      · rw [OrderedMap.contains, OrderedMap.get?_put] at hold
        by_cases heq : route = r
        · exact .inr (heq ▸ List.mem_cons_self)
        · rw [if_neg heq] at hold
          exact .inl hold
      · exact .inr (List.mem_cons_of_mem _ hrest)

theorem head_lt {n : ℕ} (hn : 0 < n) (cursor : ℤ) : head cursor n < n := by
  have hlt := Int.tmod_lt_of_pos cursor (show (0 : ℤ) < n by omega)
  rw [head, if_neg hn.ne']
  omega

/-- The window begins with the head. -/
theorem exploration_head (h : catalog ≠ []) (cursor : ℤ) :
    ∃ r, catalog[head cursor catalog.length]? = some r ∧ (exploration catalog cursor).take 1 = [r] := by
  have hlt := head_lt (List.length_pos_of_ne_nil h) cursor
  refine ⟨catalog[head cursor catalog.length], List.getElem?_eq_getElem hlt, ?_⟩
  rw [exploration, List.take_take, List.drop_eq_getElem_cons hlt, List.cons_append]
  rfl

/-- What is explored is from the catalogue. -/
theorem exploration_subset (cursor : ℤ) : exploration catalog cursor ⊆ catalog := by
  intro r hr
  rcases List.mem_append.mp (List.mem_of_mem_take hr) with h | h
  · exact List.mem_of_mem_drop h
  · exact h

theorem leaders_spec (now : ℤ) (s : AutoSelector) {r : Route} (h : r ∈ leaders catalog now s) :
    r ∈ catalog ∧ s.samples.contains r = true := by
  have hmem := List.mem_mergeSort.mp (List.mem_of_mem_take h)
  rw [List.mem_filter] at hmem
  refine ⟨hmem.1, ?_⟩
  rw [OrderedMap.contains]
  cases hget : s.samples.get? r with
  | none =>
    rw [hget] at hmem
    cases hmem.2
  | some e => rfl

/-- Without cooldowns every route is available. -/
theorem available_of_cool (h : catalog.Nodup) (now : ℤ) {s : AutoSelector} (hs : s.cooldown = .empty) :
    available catalog now s = catalog := by
  rw [available, eraseDups_of_nodup h, hs, List.filter_eq_self]
  exact fun r _ => rfl

/-- All parts of the candidates are from the catalogue. -/
theorem parts_subset (now : ℤ) (s : AutoSelector) (cursor : ℤ) :
    (leaders catalog now s).take 1 ++ (exploration catalog cursor).take 1 ++ catalog.take 12
      ++ exploration catalog cursor ⊆ catalog := by
  intro r hr
  simp only [List.mem_append] at hr
  rcases hr with ((h | h) | h) | h
  · exact (leaders_spec now s (List.mem_of_mem_take h)).1
  · exact exploration_subset cursor (List.mem_of_mem_take h)
  · exact List.mem_of_mem_take h
  · exact exploration_subset cursor h

theorem candidates_subset (now : ℤ) (s : AutoSelector) (cursor : ℤ) :
    candidates catalog (leaders catalog now s) (exploration catalog cursor) ⊆ catalog :=
  fun _ hr => parts_subset now s cursor (List.mem_eraseDups.mp (List.mem_of_mem_take hr))

/-- The shortlist of candidates on different hosts is their first four. -/
theorem shortlist_of_distinct {l : List Route} (hl : l.Nodup) (hosts : (l.map fun r => lower r.host).Nodup) :
    shortlist lower l = l.take 4 := by
  rw [shortlist, distinctBy_of_nodup hosts]
  congr 1
  rw [List.eraseDups_append, eraseDups_of_nodup hl]
  have hnone : l.removeAll l = [] := by
    rw [List.removeAll, List.filter_eq_nil_iff]
    intro a ha
    simpa using ha
  rw [hnone, List.eraseDups_nil, List.append_nil]

/-! ## Run after run

The invariant of a run of runs says where the head stands and which routes have been measured so
far: those at the heads gone by, and the first four. With it the exploration reaches every route
just when the heads do. -/

/-- The selector before the run that follows `i` others; `seen` are the routes measured. -/
structure Exploring (networkKey : String) (i : ℕ) (seen : List Route) (s : AutoSelector) : Prop where
  network : s.network = networkKey
  cursor : s.cursor = (6 * i : ℤ).bmod (2 ^ 32)
  cooldown : s.cooldown = .empty
  samples : ∀ r, s.samples.contains r = true → r ∈ seen

/-- A call on the same network goes on exploring. -/
theorem Exploring.renewed {i : ℕ} {seen : List Route} {s : AutoSelector} (h : Exploring networkKey i seen s) :
    Exploring networkKey i seen (renew networkKey s) := by
  rw [AutoSelector.renew, if_neg (not_not.mpr h.network)]
  refine ⟨h.network, h.cursor, ?_, fun r hr => ?_⟩
  · show (if _ then _ else s.cooldown) = _
    rw [h.cooldown, ite_self]
  · by_cases hlong : 600 < s.samples.entries.length
    · simp only [if_pos hlong] at hr
      cases hr
    · simp only [if_neg hlong] at hr
      exact h.samples r hr

/-- The cursor after one more run. -/
theorem add_cursor (i : ℕ) : add ((6 * i : ℤ).bmod (2 ^ 32)) 6 = (6 * (i + 1 : ℕ) : ℤ).bmod (2 ^ 32) := by
  rw [add, Int.bmod_add_bmod]
  congr 1

/-- What one run measures: the head, and otherwise nothing new but the first four routes. -/
structure Measured (catalog : List Route) (i : ℕ) (seen probed : List Route) : Prop where
  subset : ∀ r ∈ probed, r ∈ catalog.take 4 ∨ catalog[headAt catalog.length i]? = some r ∨ r ∈ seen
  head : ∀ r, catalog[headAt catalog.length i]? = some r → r ∈ probed
  small : catalog.length ≤ 4 → catalog ⊆ probed

/-- What is explored next comes to be measured. -/
theorem measured_candidates {i : ℕ} {seen : List Route} {s : AutoSelector} (hne : catalog ≠ [])
    (hnodup : catalog.Nodup) (h : Exploring networkKey i seen s) (now : ℤ) :
    Measured catalog i seen
      ((candidates catalog (leaders catalog now s) (exploration catalog s.cursor)).take 4) := by
  obtain ⟨r₀, hr₀, hwindow⟩ := exploration_head hne s.cursor
  have hat : head s.cursor catalog.length = headAt catalog.length i := by
    rw [h.cursor, headAt]
  rw [hat] at hr₀
  have hleader : ((leaders catalog now s).take 1).length ≤ 1 := List.length_take_le 1 _
  rw [candidates, List.take_take, hwindow]
  refine ⟨fun r hr => ?_, fun r hr => ?_, fun hsmall => ?_⟩
  · by_cases hfour : 4 ≤ catalog.length
    · -- four different routes stand before the rest of the first dozen
      have hsplit : catalog.take 12 = catalog.take 4 ++ (catalog.drop 4).take 8 :=
        (List.take_add : catalog.take (4 + 8) = _)
      have hlen : 4 ≤ ((leaders catalog now s).take 1 ++ [r₀] ++ catalog.take 4).eraseDups.length := by
        have hsub : catalog.take 4 ⊆ ((leaders catalog now s).take 1 ++ [r₀] ++ catalog.take 4).eraseDups :=
          fun a ha => List.mem_eraseDups.mpr (List.mem_append_right _ ha)
        have hle := (((List.take_sublist 4 catalog).nodup hnodup).subperm hsub).length_le
        rwa [List.length_take_of_le hfour] at hle
      rw [hsplit, ← List.append_assoc, List.append_assoc _ _ (exploration catalog s.cursor)] at hr
      have hmem := take_eraseDups_append_subset _ _ hlen hr
      simp only [List.mem_append, List.mem_singleton] at hmem
      rcases hmem with (hmem | rfl) | hmem
      · exact .inr (.inr (h.samples r (leaders_spec now s (List.mem_of_mem_take hmem)).2))
      · exact .inr (.inl hr₀)
      · exact .inl hmem
    · refine .inl ?_
      rw [List.take_of_length_le (by omega)]
      refine candidates_subset now s s.cursor ?_
      rw [candidates, hwindow]
      exact (List.take_subset_take_left _ (by decide)) hr
  · have hsame : r = r₀ := Option.some.inj (hr.symm.trans hr₀)
    rw [hsame, List.append_assoc]
    refine subset_take_eraseDups_append _ _ ?_ (List.mem_append_right _ (List.mem_singleton_self r₀))
    rw [List.length_append, List.length_singleton]
    show _ + 1 ≤ 4
    omega
  · -- there are no more candidates than routes
    have hparts := @parts_subset catalog now s s.cursor
    rw [hwindow] at hparts
    intro r hr
    rw [List.take_of_length_le]
    · refine List.mem_eraseDups.mpr (List.mem_append_left _ (List.mem_append_right _ ?_))
      rw [List.take_of_length_le (by omega)]
      exact hr
    · have hle := ((nodup_eraseDups _).subperm fun a ha => hparts (List.mem_eraseDups.mp ha)).length_le
      exact hle.trans (by omega)

/-- One run. -/
theorem Exploring.step {i : ℕ} {seen : List Route} {s : AutoSelector} (hne : catalog ≠ [])
    (hosts : DistinctHosts lower catalog) (hs : Exploring networkKey i seen (renew networkKey s))
    {run : Run} (hrun : Healthy catalog run) :
    Measured catalog i seen (runAsync lower catalog networkKey run s).probed ∧
      Exploring networkKey (i + 1) (seen ++ (runAsync lower catalog networkKey run s).probed)
        (runAsync lower catalog networkKey run s).selector := by
  -- all routes are free, so the call takes the candidates as they are
  have hnodup : catalog.Nodup := List.Nodup.of_map _ hosts
  have havailable := available_of_cool hnodup run.now hs.cooldown
  have hchoose : choose catalog networkKey run.now s =
      (candidates catalog (leaders catalog run.now (renew networkKey s))
          (exploration catalog (renew networkKey s).cursor),
        { renew networkKey s with cursor := add (renew networkKey s).cursor 6 }) := by
    rw [choose]
    simp only [havailable]
  have hsubset := @candidates_subset catalog run.now (renew networkKey s)
    (renew networkKey s).cursor
  have hmeasured := measured_candidates hne hnodup hs run.now
  generalize hl : candidates catalog (leaders catalog run.now (renew networkKey s))
    (exploration catalog (renew networkKey s).cursor) = l at hchoose hsubset hmeasured
  have hdistinct : l.Nodup := by
    rw [← hl, candidates]
    exact (List.take_sublist 24 _).nodup (nodup_eraseDups _)
  have hready : l.filter run.tcp = l := List.filter_eq_self.mpr fun r hr => (hrun r (hsubset hr)).1
  have hinj := List.inj_on_of_nodup_map hosts
  -- with hosts that differ the shortlist is the first four
  have hshort : shortlist lower l = l.take 4 := by
    refine shortlist_of_distinct hdistinct (hdistinct.map_on fun r hr r' hr' heq => ?_)
    exact hinj (hsubset hr) (hsubset hr') heq
  have hhealthy : Healthy (l.take 4) run := fun r hr => hrun r (hsubset (List.mem_of_mem_take hr))
  -- nothing fails and nothing is cut short, so all four are measured
  have hmeasure : runAsync lower catalog networkKey run s = measure run (l.take 4)
      ⟨{ renew networkKey s with cursor := add (renew networkKey s).cursor 6 },
        none, none, 0, false, []⟩ := by
    rw [runAsync, hchoose]
    show measure run (shortlist lower (l.filter run.tcp)) _ = _
    rw [hready, hshort]
  rw [hmeasure]
  obtain ⟨h1, h2, h3, h4, h5⟩ := measure_healthy hhealthy
    ⟨{ renew networkKey s with cursor := add (renew networkKey s).cursor 6 },
      none, none, 0, false, []⟩
  rw [h1]
  refine ⟨hmeasured, h3.trans hs.network, ?_, h2.trans hs.cooldown, fun r hr => ?_⟩
  · rw [h4, ← add_cursor, ← hs.cursor]
  · rcases h5 r hr with hold | hnew
    · exact List.mem_append_left _ (hs.samples r hold)
    · exact List.mem_append_right _ hnew

/-- **What runs measure**: the heads, and otherwise nothing new but the first four routes. -/
theorem Exploring.run {i : ℕ} {seen : List Route} {s : AutoSelector} (hne : catalog ≠ [])
    (hosts : DistinctHosts lower catalog) (h : Exploring networkKey i seen (renew networkKey s))
    {runs : List Run}
    (hruns : ∀ run ∈ runs, Healthy catalog run) :
    (∀ r ∈ (runAll lower catalog networkKey runs s).1, r ∈ catalog.take 4 ∨
      (∃ k < runs.length, catalog[headAt catalog.length (i + k)]? = some r) ∨ r ∈ seen) ∧
    (∀ k < runs.length, ∀ r, catalog[headAt catalog.length (i + k)]? = some r →
      r ∈ (runAll lower catalog networkKey runs s).1) ∧
    (catalog.length ≤ 4 → runs ≠ [] → catalog ⊆ (runAll lower catalog networkKey runs s).1) := by
  induction runs generalizing i seen s with
  | nil =>
    refine ⟨fun r hr => ?_, fun k hk => absurd hk (Nat.not_lt_zero k), fun _ hn => absurd rfl hn⟩
    cases hr
  | cons run runs ih =>
    -- the first call measures what stands at its own head, the others what stands at theirs
    obtain ⟨hmeasured, hnext⟩ := h.step hne hosts (hruns run List.mem_cons_self)
    obtain ⟨ih1, ih2, -⟩ := ih hnext.renewed fun r hr => hruns r (List.mem_cons_of_mem _ hr)
    rw [runAll]
    refine ⟨fun r hr => ?_, fun k hk r hr => ?_, fun hsmall _ r hr => ?_⟩
    · rcases List.mem_append.mp hr with hr | hr
      · rcases hmeasured.subset r hr with hfirst | hhead | hseen
        · exact .inl hfirst
        · exact .inr (.inl ⟨0, Nat.succ_pos _, hhead⟩)
        · exact .inr (.inr hseen)
      · rcases ih1 r hr with hfirst | ⟨k, hk, hhead⟩ | hseen
        · exact .inl hfirst
        · refine .inr (.inl ⟨k + 1, Nat.succ_lt_succ hk, ?_⟩)
          rw [Nat.add_right_comm] at hhead
          exact hhead
        · rcases List.mem_append.mp hseen with hseen | hprobed
          · exact .inr (.inr hseen)
          · rcases hmeasured.subset r hprobed with hfirst | hhead | hseen
            · exact .inl hfirst
            · exact .inr (.inl ⟨0, Nat.succ_pos _, hhead⟩)
            · exact .inr (.inr hseen)
    -- a place is met in the first call, or in a later one
    · cases k with
      | zero => exact List.mem_append_left _ (hmeasured.head r hr)
      | succ k =>
        refine List.mem_append_right _ (ih2 k (Nat.lt_of_succ_lt_succ hk) r ?_)
        rw [Nat.add_right_comm]
        exact hr
    · exact List.mem_append_left _ (hmeasured.small hsmall hr)

/-- A selector for which the network of the calls is new. -/
def Begins (networkKey : String) (s : AutoSelector) : Prop := s = fresh ∨ s.network ≠ networkKey

/-- A new network starts at its first route. -/
theorem Begins.exploring {s : AutoSelector} (h : Begins networkKey s) :
    Exploring networkKey 0 [] (renew networkKey s) := by
  have hnew : renew networkKey s = ⟨.empty, .empty, networkKey, 0⟩ := by
    by_cases hnet : s.network ≠ networkKey
    · rw [renew, if_pos hnet]
      rfl
    · rcases h with rfl | h
      · rw [renew, if_neg hnet, ← not_not.mp hnet]
        rfl
      · exact absurd h hnet
  rw [hnew]
  exact ⟨rfl, rfl, rfl, fun r hr => nomatch hr⟩

/-- **Exploration reaches every route exactly for some lengths.** After as many calls as the
catalogue has routes, all of which go well, every route was passed to the probe exactly when
there are at most four routes, or their number has no divisor in common with six and is at
most 357,913,942, so that the cursor does not wrap. -/
theorem exploration_reaches_all_iff {s : AutoSelector} (hne : catalog ≠ [])
    (hosts : DistinctHosts lower catalog) (hs : Begins networkKey s) {runs : List Run}
    (hlen : runs.length = catalog.length) (hruns : ∀ run ∈ runs, Healthy catalog run) :
    (∀ r ∈ catalog, r ∈ (runAll lower catalog networkKey runs s).1) ↔
      catalog.length ≤ 4 ∨ catalog.length.Coprime 6 ∧ catalog.length ≤ 357913942 := by
  have hpos := List.length_pos_of_ne_nil hne
  have hnodup : catalog.Nodup := List.Nodup.of_map _ hosts
  obtain ⟨hsub, hhead, hsmall⟩ := hs.exploring.run hne hosts hruns
  rw [hlen] at hsub hhead
  constructor
  · refine fun hall => (sweeps_iff hpos).mp fun j hj hfour => ?_
    rcases hsub catalog[j] (hall _ (List.getElem_mem hj)) with hfirst | ⟨k, hk, hat⟩ | hseen
    · -- a route stands at one place only
      obtain ⟨m, hm, heq⟩ := List.mem_take_iff_getElem.mp hfirst
      have hsame := (hnodup.getElem_inj_iff).mp heq
      omega
    · rw [Nat.zero_add] at hat
      obtain ⟨hlt, heq⟩ := List.getElem?_eq_some_iff.mp hat
      exact ⟨k, hk, (hnodup.getElem_inj_iff).mp heq⟩
    · cases hseen
  · rintro (hfew | ⟨h6, hlong⟩) r hr
    · refine hsmall hfew (fun hnil => ?_) hr
      rw [hnil] at hlen
      exact hpos.ne hlen
    · obtain ⟨j, hj, rfl⟩ := List.mem_iff_getElem.mp hr
      obtain ⟨k, hk, hat⟩ := exists_headAt hpos h6 hlong hj
      refine hhead k hk _ ?_
      rw [Nat.zero_add, hat]
      exact List.getElem?_eq_getElem hj

end

/-! ## Five routes and six

Five routes are all reached, and of six the last two are not: with two places behind the first
four the head always falls on the same one. -/

/-- Routes that differ in their hosts. -/
def routesAt (hosts : List String) : List Route :=
  hosts.map fun host => ⟨host, host, 443, "2d6c1a2e-6f0b-4c1f-9d0e-8a4b6d2c7f10", "tls", host, "chrome", "", "", ""⟩

def fiveRoutes : List Route := routesAt ["a.example", "b.example", "c.example", "d.example", "e.example"]

def sixRoutes : List Route :=
  routesAt ["a.example", "b.example", "c.example", "d.example", "e.example", "f.example"]

/-- A run in which every route answers alike. -/
def goodRun : Run := ⟨0, fun _ => true, fun _ => false, fun _ => .result ⟨true, 1000, 20⟩, fun _ => 0⟩

theorem healthy_goodRun (catalog : List Route) (n : ℕ) : ∀ run ∈ List.replicate n goodRun, Healthy catalog run := by
  intro run hrun r _
  rw [List.eq_of_mem_replicate hrun]
  exact ⟨rfl, rfl, _, rfl, rfl⟩

/-- Five runs come by five routes. -/
theorem exploration_reaches_all_iff_five :
    fiveRoutes ⊆ (runAll id fiveRoutes "net" (List.replicate 5 goodRun) fresh).1 := by
  have hne : fiveRoutes ≠ [] := by decide
  have hosts : DistinctHosts id fiveRoutes := by decide
  intro r hr
  exact (exploration_reaches_all_iff hne hosts (.inl rfl) rfl (healthy_goodRun _ 5)).mpr
    (.inr ⟨by decide, by decide⟩) r hr

/-- Of six routes the last two are never measured: the head is the first route in every run. -/
theorem last_of_six_never_probed :
    DistinctHosts id sixRoutes ∧ (∀ run ∈ List.replicate 6 goodRun, Healthy sixRoutes run) ∧
      ¬ ∀ r ∈ sixRoutes, r ∈ (runAll id sixRoutes "net" (List.replicate 6 goodRun) fresh).1 := by
  have hosts : DistinctHosts id sixRoutes := by decide
  have hbegin : Begins "net" fresh := .inl rfl
  have hrun := hbegin.exploring.run (List.cons_ne_nil _ _) hosts (healthy_goodRun sixRoutes 6)
  refine ⟨hosts, healthy_goodRun _ 6, fun hall => ?_⟩
  rcases hrun.1 sixRoutes[5] (hall _ (List.getElem_mem _)) with hfirst | ⟨k, hk, hat⟩ | hseen
  · exact absurd hfirst (by decide)
  · have hmiss : ∀ k < 6, sixRoutes[headAt sixRoutes.length (0 + k)]? ≠ some sixRoutes[5] := by decide
    exact hmiss k hk hat
  · cases hseen

end AutoSelector

end VlessCard
