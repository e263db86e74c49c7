/-
`ServerChoice.kt`: which server is tried first, and which of two is better.

Results are compared in five steps: a server that works beats one that does not, a
fresh failure of YouTube or Telegram loses, then the measured speed decides, then
the service rank, and last a score in milliseconds. The rank is used twice, once as
a mere yes or no before the speed and once in full after it, so the comparison is a
lexicographic one over five keys, and as such a total preorder. The sums of the
score are `Int` sums; each stays far below the end of its type.
-/
import VlessCard.Comparator
import VlessCard.Diversity
import VlessCard.Restart

set_option autoImplicit false

namespace VlessCard

namespace Text

/-- `s.removeSuffix(p)`. -/
def removeSuffix (s p : String) : String :=
  if p.toList <:+ s.toList then .ofList (s.toList.take (s.toList.length - p.toList.length)) else s

/-- `s.removeSurrounding(p, q)`. -/
def removeSurrounding (s p q : String) : String :=
  if p.toList.length + q.toList.length ≤ s.toList.length ∧ p.toList <+: s.toList ∧ q.toList <:+ s.toList then
    .ofList ((s.toList.take (s.toList.length - q.toList.length)).drop p.toList.length)
  else s

end Text

namespace ServerChoice

section
variable (U : Jvm)

/-- The machine a server stands on, as `diverse` tells machines apart. -/
def host (s : Server) : String :=
  Text.removeSurrounding (Text.removeSuffix (U.lowercase s.address) ".") "[" "]"

/-- Different hosts before link clones of one machine. -/
def diverse (ranked : List Server) (limit : ℤ) : List Server :=
  Diversity.diverse (Server.id U) (host U) ranked limit.toNat

end

/-! ## Scores

Scores are sums of penalties in integers and in exact fractions. An old or foreign speed counts
as a hint and not as a measurement. -/

/-- `a.coerceIn(lo, hi)`. -/
def coerceIn (a lo hi : Int32) : Int32 := if a < lo then lo else if hi < a then hi else a

def qualityScore (s : ServerState) (net : String) (now : Int64) : Int32 :=
  if !s.works then Int32.maxValue
  else coerceAtMost s.realMs 60000 + ServerState.speedPenalty (measuredSpeed s net now)
    + if s.ytOk = some false then 700 else 0

/-- An old or foreign speed is a candidate hint only. -/
def candidateScore (s : ServerState) (net : String) (now : Int64) : Int32 :=
  if s.works ∧ measuredSpeed s net now = 0 ∧ 0 < s.kbps then
    coerceIn s.realMs 0 60000 + ServerState.speedPenalty s.kbps + 1500
  else qualityScore s net now

/-- `latencyScore`, as an exact number. -/
def latencyScore (e : RouteEvidence) (fallbackMs : Int32) : ℚ :=
  (if 0 < e.latency then e.latency else if 0 < fallbackMs then (fallbackMs.toInt : ℚ) else 3000)
    + 2 * max e.jitter 0 + (1 - min (max e.ema 0) 1) * 1000 + if e.checks < 2 then 200 else 0

/-- `evidence`, as an exact number. -/
def evidence (checks : Int32) : ℚ := max (checks.toInt : ℚ) 0 / (max (checks.toInt : ℚ) 0 + 6)

/-- Small hysteresis for a server already in use. -/
def stayFactor (selected : Bool) : ℚ := if selected then 23 / 25 else 1

def automaticPrimary (auto leastPing gaming : Bool) : Bool := gaming || auto && leastPing

/-! ## The comparison

Two results are compared by several criteria, the first that differs deciding. A higher rate
counts before a lower ping. -/

/-- `x.compareTo(y)`. -/
def compareTo (x y : Int32) : Ordering := compare x.toInt y.toInt

/-- `compareDownload`: a lower ping cannot outweigh a higher verified rate. -/
def compareDownload (a b : ServerState) (net : String) (now : Int64) : Ordering :=
  if a.works ≠ b.works then if a.works then .lt else .gt
  else
    let aService := AutoEligibility.serviceRank a net now
    let bService := AutoEligibility.serviceRank b net now
    if decide (aService = 2) ≠ decide (bService = 2) then if aService = 2 then .gt else .lt
    else
      let speed := compareTo (measuredSpeed b net now) (measuredSpeed a net now)
      if speed ≠ .eq then speed
      else
        let service := compare aService bService
        if service ≠ .eq then service
        else compareTo (qualityScore a net now) (qualityScore b net now)

/-- `downloadOrder`. -/
def downloadOrder (state : Server → ServerState) (net : String) (now : Int64) (a b : Server) : Ordering :=
  compareDownload (state a) (state b) net now

/-! ## The comparison over its five keys

The comparison is lexicographic in five keys. Seen so, it is a total preorder without any case
distinction. -/

/-- The keys of the comparison, the more important first. -/
structure Keys where
  fails : Bool
  refused : Bool
  slowness : ℤ
  service : ℕ
  quality : ℤ

def keys (s : ServerState) (net : String) (now : Int64) : Keys :=
  { fails := !s.works
    refused := decide (AutoEligibility.serviceRank s net now = 2)
    slowness := -(measuredSpeed s net now).toInt
    service := AutoEligibility.serviceRank s net now
    quality := (qualityScore s net now).toInt }

/-- Lexicographic in the keys. -/
def compareKeys : Keys → Keys → Ordering :=
  compareLex (compareOn Keys.fails) <| compareLex (compareOn Keys.refused) <|
    compareLex (compareOn Keys.slowness) <| compareLex (compareOn Keys.service) (compareOn Keys.quality)

instance : Std.TransCmp compareKeys := by
  unfold compareKeys
  infer_instance

/-- The second comparison counts where the first has none to tell. -/
theorem then_eq_ite (a b : Ordering) : a.then b = if a ≠ .eq then a else b := by
  cases a <;> rfl

/-- `true` comes first where the order is turned. -/
theorem compare_bool (a b : Bool) : compare (!a) (!b) = if a ≠ b then if a then .lt else .gt else .eq := by
  cases a <;> cases b <;> rfl

theorem compare_bool' (a b : Bool) : compare a b = if a ≠ b then if a then .gt else .lt else .eq := by
  cases a <;> cases b <;> rfl

theorem compare_neg (x y : ℤ) : compare (-x) (-y) = compare y x := by
  rcases lt_trichotomy x y with h | h | h
  · rw [compare_gt_iff_gt.mpr (by omega), compare_gt_iff_gt.mpr (by omega)]
  · rw [h, compare_eq_iff_eq.mpr rfl, compare_eq_iff_eq.mpr rfl]
  · rw [compare_lt_iff_lt.mpr (by omega), compare_lt_iff_lt.mpr (by omega)]

/-- The comparison of two results is the one of their keys. -/
theorem compareDownload_eq (a b : ServerState) (net : String) (now : Int64) :
    compareDownload a b net now = compareKeys (keys a net now) (keys b net now) := by
  have hfails : compare (!a.works) (!b.works) = if a.works ≠ b.works then if a.works then .lt else .gt else .eq := by
    rw [compare_bool]
  have hslow : compare (-(measuredSpeed a net now).toInt) (-(measuredSpeed b net now).toInt)
      = compareTo (measuredSpeed b net now) (measuredSpeed a net now) := compare_neg _ _
  simp only [compareDownload, compareKeys, compareLex, compareOn, keys, then_eq_ite, hfails, hslow]
  by_cases hw : a.works = b.works
  · simp only [hw, ne_eq, not_true_eq_false, if_false]
    rw [compare_bool']
    by_cases hr : decide (AutoEligibility.serviceRank a net now = 2) = decide (AutoEligibility.serviceRank b net now = 2)
    · simp only [hr, ne_eq, not_true_eq_false, if_false]
      rfl
    · simp only [hr, ne_eq, not_false_eq_true, if_true, decide_eq_true_eq]
      by_cases ha : AutoEligibility.serviceRank a net now = 2
      · rw [if_pos ha, if_pos (by decide)]
      · rw [if_neg ha, if_pos (by decide)]
  · simp only [hw, ne_eq, not_false_eq_true, if_true]
    by_cases ha : a.works = true
    · rw [if_pos ha, if_pos (by decide)]
    · rw [if_neg ha, if_pos (by decide)]

/-! ## The sums

The sums stay within an `Int`, so they can be compared as numbers. This is where the bounds of
the measured values are used. -/

theorem speedPenalty_range (k : Int32) :
    0 ≤ (ServerState.speedPenalty k).toInt ∧ (ServerState.speedPenalty k).toInt ≤ 6000 := by
  rw [ServerState.speedPenalty]
  by_cases hk : k ≤ 0
  · rw [if_pos hk]
    decide
  · rw [if_neg hk, toInt_coerceAtMost, Int32.toInt_div]
    have hpos : 0 < k.toInt := Int32.lt_iff_toInt_lt.mp (Int32.not_le.mp hk)
    have hdiv : 0 ≤ (4000000 : ℤ).tdiv k.toInt := Int.tdiv_nonneg (by omega) (by omega)
    have hle : (4000000 : ℤ).tdiv k.toInt ≤ 4000000 := by
      rw [Int.tdiv_eq_ediv_of_nonneg (by omega)]
      exact Int.ediv_le_self _ (by omega)
    have hquot : ((4000000 : Int32).toInt.tdiv k.toInt).bmod (2 ^ 32) = (4000000 : ℤ).tdiv k.toInt := by
      have hconst : (4000000 : Int32).toInt = 4000000 := by decide
      rw [hconst]
      apply Int.bmod_eq_of_le
      · omega
      · omega
    have hcap : (6000 : Int32).toInt = 6000 := by decide
    rw [hquot, hcap]
    omega

/-- What one working result adds up to, step by step. -/
theorem toInt_qualityScore {s : ServerState} (h : s.works = true) (net : String) (now : Int64) :
    (coerceAtMost s.realMs 60000 + ServerState.speedPenalty (measuredSpeed s net now)).toInt
        = min s.realMs.toInt 60000 + (ServerState.speedPenalty (measuredSpeed s net now)).toInt ∧
      (qualityScore s net now).toInt
        = min s.realMs.toInt 60000 + (ServerState.speedPenalty (measuredSpeed s net now)).toInt
          + if s.ytOk = some false then 700 else 0 := by
  have hreal : 0 < s.realMs.toInt := by
    rw [ServerState.works, Bool.and_eq_true, decide_eq_true_eq] at h
    exact Int32.lt_iff_toInt_lt.mp h.1
  have hmin : (coerceAtMost s.realMs 60000).toInt = min s.realMs.toInt 60000 := toInt_coerceAtMost _ _
  have hpenalty := speedPenalty_range (measuredSpeed s net now)
  have hsum : (coerceAtMost s.realMs 60000 + ServerState.speedPenalty (measuredSpeed s net now)).toInt
      = min s.realMs.toInt 60000 + (ServerState.speedPenalty (measuredSpeed s net now)).toInt := by
    rw [toInt_add_of_range (by rw [hmin]; omega), hmin]
  refine ⟨hsum, ?_⟩
  rw [qualityScore, h, if_neg (by decide)]
  by_cases hyt : s.ytOk = some false
  · have h700 : (700 : Int32).toInt = 700 := by decide
    rw [if_pos hyt, if_pos hyt, toInt_add_of_range (by rw [hsum, h700]; omega), hsum, h700]
  · have h0 : (0 : Int32).toInt = 0 := rfl
    rw [if_neg hyt, if_neg hyt, toInt_add_of_range (by rw [hsum, h0]; omega), hsum, h0]

/-! ## The order

What a sort needs of the comparison follows from the keys: it is total, transitive, and
antisymmetric up to equal keys. -/

/-- The comparison of results is one that a sort may rely on. -/
theorem transCmp_compareDownload (net : String) (now : Int64) :
    Std.TransCmp fun a b => compareDownload a b net now := by
  have hcmp : (fun a b => compareDownload a b net now)
      = fun a b => compareKeys (keys a net now) (keys b net now) := by
    funext a b
    exact compareDownload_eq a b net now
  rw [hcmp]
  exact { eq_swap := fun {a b} => Std.OrientedCmp.eq_swap
          isLE_trans := fun {a b c} h1 h2 => Std.TransCmp.isLE_trans h1 h2 }

instance (state : Server → ServerState) (net : String) (now : Int64) :
    Std.TransCmp (downloadOrder state net now) := by
  have h := transCmp_compareDownload net now
  exact { eq_swap := fun {a b} => h.eq_swap
          isLE_trans := fun {a b c} h1 h2 => h.isLE_trans h1 h2 }

/-- Before the speed only two things are asked: whether both work, and whether one of
them was refused by a service. -/
theorem compareDownload_speed {a b : ServerState} {net : String} {now : Int64} (ha : a.works = true)
    (hb : b.works = true) (hra : AutoEligibility.serviceRank a net now ≠ 2)
    (hrb : AutoEligibility.serviceRank b net now ≠ 2) (h : measuredSpeed b net now < measuredSpeed a net now) :
    compareDownload a b net now = .lt := by
  have hspeed : compareTo (measuredSpeed b net now) (measuredSpeed a net now) = .lt :=
    compare_lt_iff_lt.mpr (Int32.lt_iff_toInt_lt.mp h)
  simp only [compareDownload, ha, hb, hra, hrb, hspeed, ne_eq, not_true_eq_false, if_false,
    reduceCtorEq, not_false_eq_true, if_true]

/-- **The ranking by download is a sound order.** It is a total preorder in which
results of equal rank cannot be told apart, its sums are exact, and among working
results that no service refused the faster one comes first. -/
theorem compareDownload_order (net : String) (now : Int64) :
    (∀ a b, compareDownload b a net now = (compareDownload a b net now).swap) ∧
    (∀ a b c, (compareDownload a b net now).isLE = true → (compareDownload b c net now).isLE = true →
      (compareDownload a c net now).isLE = true) ∧
    (∀ a b c, compareDownload a b net now = .eq →
      compareDownload a c net now = compareDownload b c net now ∧
      compareDownload c a net now = compareDownload c b net now) ∧
    (∀ s : ServerState, s.works = true →
      (coerceAtMost s.realMs 60000 + ServerState.speedPenalty (measuredSpeed s net now)).toInt
          = min s.realMs.toInt 60000 + (ServerState.speedPenalty (measuredSpeed s net now)).toInt ∧
        (qualityScore s net now).toInt
          = min s.realMs.toInt 60000 + (ServerState.speedPenalty (measuredSpeed s net now)).toInt
            + if s.ytOk = some false then 700 else 0) ∧
    (∀ a b : ServerState, a.works = true → b.works = true → AutoEligibility.serviceRank a net now ≠ 2 →
      AutoEligibility.serviceRank b net now ≠ 2 → measuredSpeed b net now < measuredSpeed a net now →
      compareDownload a b net now = .lt) := by
  have h := transCmp_compareDownload net now
  refine ⟨?_, ?_, ?_, ?_, ?_⟩
  · intro a b
    exact h.eq_swap
  · intro a b c h1 h2
    exact h.isLE_trans h1 h2
  · intro a b c heq
    exact ⟨@Std.TransCmp.congr_left _ _ h a b c heq, @Std.TransCmp.congr_right _ _ h c a b heq⟩
  · intro s hs
    exact toInt_qualityScore hs net now
  · intro a b ha hb hra hrb hlt
    exact compareDownload_speed ha hb hra hrb hlt

/-- A server of 40 Mbit/s and 900 ms before one of 20 Mbit/s and 30 ms. -/
theorem compareDownload_order_wifi :
    compareDownload
      { realMs := 900, kbps := 40000, speedNetwork := "wifi", speedCheckedAt := 400000 }
      { realMs := 30, kbps := 20000, speedNetwork := "wifi", speedCheckedAt := 400000 } "wifi" 400000 = .lt :=
  (compareDownload_order "wifi" 400000).2.2.2.2 _ _ (by decide) (by decide) (by decide) (by decide) (by decide)

/-! ## Different hosts first

Different machines come before clones of one. How hosts are told apart is by the address as
`host` reads it, and two servers of one id may be of different hosts. -/

section

/-- **The selection is of as many hosts as can be, in ranked order.** An id is two hash codes, so
servers of two hosts may have one, and then the later one is dropped with its host. Of what is left
the selection takes `limit` servers; it covers as many hosts as it can, names no host twice before
each is named, and is the first server of each host, then others, both in ranked order. Where an
id is of one host, the hosts and their first servers are those of the list itself. -/
theorem diverse_hosts (U : Jvm) (ranked : List Server) (limit : ℤ) :
    (diverse U ranked limit).length = min limit.toNat (ranked.map (Server.id U)).toFinset.card ∧
      ((diverse U ranked limit).map (Server.id U)).Nodup ∧
      List.Sublist (distinctBy (Server.id U) ranked) ranked ∧
      ((diverse U ranked limit).map (host U)).toFinset.card =
        min limit.toNat ((distinctBy (Server.id U) ranked).map (host U)).toFinset.card ∧
      (∀ pre, pre <+: diverse U ranked limit → ¬ (pre.map (host U)).Nodup →
        ∀ s ∈ distinctBy (Server.id U) ranked, host U s ∈ pre.map (host U)) ∧
      (∃ reps rest : List Server, diverse U ranked limit = reps ++ rest ∧
        List.Sublist reps (distinctBy (Server.id U) ranked) ∧
        List.Sublist rest (distinctBy (Server.id U) ranked) ∧
        (∀ s ∈ reps, (distinctBy (Server.id U) ranked).find? (fun t => decide (host U t = host U s)) = some s) ∧
        ∀ s ∈ rest, (distinctBy (Server.id U) ranked).find? (fun t => decide (host U t = host U s)) ≠ some s) ∧
      ((∀ s ∈ ranked, ∀ t ∈ ranked, Server.id U s = Server.id U t → host U s = host U t) →
        ((distinctBy (Server.id U) ranked).map (host U)).toFinset = (ranked.map (host U)).toFinset ∧
        ∀ h, (distinctBy (Server.id U) ranked).find? (fun t => decide (host U t = h)) =
          ranked.find? fun t => decide (host U t = h)) := by
  unfold diverse
  refine ⟨?_, ?_, ?_, ?_, ?_, ?_, fun hone => ⟨?_, fun h => ?_⟩⟩
  · rw [Diversity.length_diverse, Diversity.length_distinctBy]
    rfl
  · exact Diversity.nodup_diverse (Server.id U) (host U) ranked limit.toNat
  · exact KeyedList.distinctBy_sublist (Server.id U) ranked
  · exact Diversity.card_groups_diverse (Server.id U) (host U) ranked limit.toNat
  · intro pre hpre hrepeat
    exact Diversity.covered_of_repeated (Server.id U) (host U) hpre hrepeat
  · exact Diversity.diverse_split (Server.id U) (host U) ranked limit.toNat
  · exact Diversity.groups_distinctBy (Server.id U) (host U) hone
  · apply Diversity.find?_distinctBy_of_congr
    intro s hs t ht hid
    rw [hone s hs t ht hid]

/-- Two links that differ in the address alone. -/
def link (address : String) : Server :=
  { name := address, protocol := "trojan", address := address, port := 443, secret := "p" }

/-- Both addresses have one hash code, and so do the links: one of two hosts is covered. -/
theorem two_hosts_of_one_id :
    ((diverse .ascii [link "c0.example", link "an.example"] 2).map (host .ascii)).toFinset.card ≠
      min (2 : ℤ).toNat ([link "c0.example", link "an.example"].map (host .ascii)).toFinset.card := by
  have hid : Server.id .ascii (link "an.example") = Server.id .ascii (link "c0.example") := by decide +kernel
  have hhost : host .ascii (link "c0.example") ≠ host .ascii (link "an.example") := by decide +kernel
  have hone : distinctBy (Server.id .ascii) [link "c0.example", link "an.example"] = [link "c0.example"] := by
    simp [distinctBy, hid]
  have hcard := Diversity.card_groups_diverse (Server.id .ascii) (host .ascii)
    [link "c0.example", link "an.example"] (2 : ℤ).toNat
  rw [hone] at hcard
  unfold diverse
  rw [← Diversity.groups, hcard]
  simp [Diversity.groups, hhost]

end

end ServerChoice

end VlessCard
