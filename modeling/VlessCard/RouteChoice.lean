/-
`ServiceRoutes.select`, `measuredChoices` and `update`: which servers a service is
pinned to on a network.

A result is a server with a cost, positive where the server was measured to reach the
service. The choice is that of `Hysteresis` with room for two: ranked by cost, and
near the best up to a factor of 1.3 and 50 more, as doubles compute it. Costs are of
type `Int`, so what the doubles lose is less than a tenth, and the bound holds of the
exact numbers.
-/
import VlessCard.Binary64
import VlessCard.Comparator
import VlessCard.Diversity
import VlessCard.Hysteresis
import VlessCard.OrderedMap

set_option autoImplicit false

namespace VlessCard

namespace ServiceRoutes

open Binary64 Hysteresis

/-! ## The code

The choice of servers for a service is made from measured values, some of them in doubles. What
is held already stays if it is near the best. -/

/-- A server's id and what was measured; positive is a pass. -/
abbrev Result := String × Int32

/-- The measured value as a number. -/
def cost (r : Result) : ℤ := r.2.toInt

/-- `it.second <= first.second * 1.3 + 50`, in doubles. -/
def near (first it : Result) : Bool := decide ((cost it : ℚ) ≤ fl (fl (cost first * fl (13 / 10)) + 50))

/-- The local `good` of `select`. -/
def good (results : List Result) : List Result :=
  Comparator.sortedWith (compareOn cost) (distinctBy Prod.fst (results.filter fun r => 0 < cost r))

def select (results : List Result) (previous : Option String) : List String :=
  match good results with
  | [] => []
  | first :: rest =>
    let old := (first :: rest).find? fun r => decide (previous = some r.1) && near first r
    ((distinctBy Prod.fst (old.getD first :: first :: rest)).take 2).map Prod.fst

/-- The local `best` of `measuredChoices`. -/
def best (results : List Result) : Option ℤ := ((results.filter fun r => 0 < cost r).map cost).min?

/-- The local `comparable`: a video route is not paired with one much slower. The
products are of type `Long` and do not overflow. -/
def comparable (id : String) (results : List Result) : List Result :=
  match best results with
  | some b => if id = "youtube" then results.filter fun r => 0 < cost r ∧ cost r * 10 ≤ b * 13 else results
  | none => results

def measuredChoices (id : String) (results : List Result) (previous : Option String) : List String :=
  select (comparable id results) previous

structure Entry where
  ids : List String
  at_ : Int64

abbrev Cache := OrderedMap String Entry

/-- The key of a service on a network. -/
def keyOf (net id : String) : String := net ++ "|" ++ id

/-- The servers a service is pinned to, if any. -/
def pin (cache : Cache) (net id : String) : Option (List String) := (cache.get? (keyOf net id)).map Entry.ids

def update (net id : String) (results : List Result) (now : Int64) (cache : Cache) : Bool × Cache :=
  let previous := cache.get? (keyOf net id)
  let pick := measuredChoices id results ((previous.map Entry.ids).bind List.head?)
  if pick = [] then (previous.isSome, cache.filterKeys fun k => k ≠ keyOf net id)
  else (decide (some pick ≠ previous.map Entry.ids), cache.put (keyOf net id) ⟨pick, now⟩)

/-! ## What the doubles lose

Near is computed in doubles, with a product and a sum. For values as large as they can be, one
rounding loses less than the difference between two integers. -/

/-- One rounding of a number that is not large. -/
theorem fl_le_add {q b : ℚ} (h0 : 0 ≤ q) (hb : q ≤ b) : fl q ≤ q + b / 2 ^ 53 := by
  have herr := abs_le.mp (abs_fl_sub_le q)
  rw [abs_of_nonneg h0] at herr
  have hscale : q / 2 ^ 53 ≤ b / 2 ^ 53 := div_le_div_of_nonneg_right hb (by positivity)
  linarith [herr.2]

theorem cost_lt (r : Result) : cost r < 2 ^ 31 := r.2.toInt_lt

/-- **Near is near as exact numbers have it.** -/
theorem cost_le_of_near {first r : Result} (hpos : 0 < cost first) (h : near first r = true) :
    10 * cost r ≤ 13 * cost first + 500 := by
  have hle : (cost r : ℚ) ≤ fl (fl (cost first * fl (13 / 10)) + 50) := of_decide_eq_true h
  have hc0 : (0 : ℚ) < cost first := by exact_mod_cast hpos
  have hc1 : (cost first : ℚ) ≤ 2 ^ 31 := by exact_mod_cast (cost_lt first).le
  have hfactor : fl (13 / 10) ≤ 13 / 10 + 2 / 2 ^ 53 := fl_le_add (by norm_num) (by norm_num)
  have hfactor0 : 0 ≤ fl (13 / 10) := fl_nonneg (by norm_num)
  -- the product, the sum and their roundings, each within 2^33
  have hprod : (cost first : ℚ) * fl (13 / 10) ≤ cost first * (13 / 10) + 1 / 2 ^ 21 := by
    have hmul : (cost first : ℚ) * fl (13 / 10) ≤ cost first * (13 / 10 + 2 / 2 ^ 53) :=
      mul_le_mul_of_nonneg_left hfactor hc0.le
    linarith
  have hround : fl (cost first * fl (13 / 10)) ≤ cost first * fl (13 / 10) + 2 ^ 33 / 2 ^ 53 :=
    fl_le_add (mul_nonneg hc0.le hfactor0) (by linarith)
  have hsum : fl (fl (cost first * fl (13 / 10)) + 50) ≤ fl (cost first * fl (13 / 10)) + 50 + 2 ^ 33 / 2 ^ 53 := by
    apply fl_le_add
    · have hnonneg : 0 ≤ fl (cost first * fl (13 / 10)) := fl_nonneg (mul_nonneg hc0.le hfactor0)
      linarith
    · linarith
  have hlt : (10 * cost r : ℚ) < 13 * cost first + 500 + 1 := by linarith
  have hint : 10 * cost r < 13 * cost first + 500 + 1 := by exact_mod_cast hlt
  omega

/-- A server is near itself. -/
theorem near_self {r : Result} (hpos : 0 < cost r) : near r r = true := by
  have hc0 : (0 : ℚ) ≤ cost r := by exact_mod_cast hpos.le
  have hrep : Representable (cost r) := by
    apply representable_intCast
    have hlt := cost_lt r
    rw [abs_of_pos hpos]
    omega
  have hfactor : 1 ≤ fl (13 / 10) := le_fl (by exact_mod_cast representable_intCast (n := 1) (by norm_num)) (by norm_num)
  have hprod : (cost r : ℚ) ≤ fl (cost r * fl (13 / 10)) := le_fl hrep (le_mul_of_one_le_right hc0 hfactor)
  exact decide_eq_true (le_fl hrep (by linarith))

/-! ## `select`

The choice is the one with hysteresis of the library, over the results that passed. So it keeps
its promises and is stable under repetition. -/

/-- The choice is one with hysteresis, among the good results. -/
theorem select_eq_pinned (results : List Result) (previous : Option String) :
    select results previous = pinned Prod.fst near 2 previous (good results) := by
  unfold select pinned lead
  cases good results <;> rfl

section
variable {results : List Result}

theorem mem_good (hids : (results.map Prod.fst).Nodup) {r : Result} :
    r ∈ good results ↔ r ∈ results ∧ 0 < cost r := by
  have hsub : ((results.filter fun r => 0 < cost r).map Prod.fst).Nodup :=
    hids.sublist (List.filter_sublist.map Prod.fst)
  rw [good, Comparator.mem_sortedWith, distinctBy_of_nodup hsub, List.mem_filter, decide_eq_true_eq]

theorem nodup_good (results : List Result) : ((good results).map Prod.fst).Nodup := by
  have hperm := (Comparator.perm_sortedWith (compareOn cost)
    (distinctBy Prod.fst (results.filter fun r => 0 < cost r))).map Prod.fst
  exact hperm.nodup_iff.mpr (KeyedList.nodup_distinctBy Prod.fst _)

theorem cost_pos_of_mem_good {r : Result} (h : r ∈ good results) : 0 < cost r := by
  rw [good, Comparator.mem_sortedWith] at h
  have hmem := distinctBy_subset Prod.fst _ h
  exact of_decide_eq_true (List.mem_filter.mp hmem).2

/-- The first of `good` costs least. -/
theorem least_good {first : Result} {rest : List Result} (h : good results = first :: rest) :
    ∀ r ∈ good results, cost first ≤ cost r := by
  have hsorted : (good results).Pairwise fun a b => (compareOn cost a b).isLE = true :=
    Comparator.pairwise_sortedWith _
  intro r hr
  rw [h] at hsorted hr
  rcases List.mem_cons.mp hr with rfl | hr
  · exact le_refl _
  · have hle := (List.pairwise_cons.mp hsorted).1 r hr
    rw [compareOn, Std.isLE_compare] at hle
    exact hle

/-- Whether anything is chosen does not hang on what was chosen before. -/
theorem select_eq_nil_iff {previous : Option String} : select results previous = [] ↔ good results = [] := by
  rw [select_eq_pinned]
  cases good results with
  | nil => simp [pinned]
  | cons first rest => simp [pinned, distinctBy]

/-- Choosing again from the same results changes nothing. -/
theorem select_again (results : List Result) (previous : Option String) :
    select results (select results previous).head? = select results previous := by
  rw [select_eq_pinned, select_eq_pinned]
  apply pinned_again (nodup_good results)
  intro r hr
  exact near_self (cost_pos_of_mem_good hr)

/-- What a choice from results promises. -/
structure Chosen (results : List Result) (ids : List String) : Prop where
  few : ids.length ≤ 2
  distinct : ids.Nodup
  passed : ∀ i ∈ ids, ∃ r ∈ results, r.1 = i ∧ 0 < cost r
  least : ∃ r ∈ results, r.1 ∈ ids ∧ 0 < cost r ∧ ∀ s ∈ results, 0 < cost s → cost r ≤ cost s
  leading : ∀ r ∈ results, ids.head? = some r.1 →
    ∀ s ∈ results, 0 < cost s → 10 * cost r ≤ 13 * cost s + 500

/-- The choice is empty where nothing passed, else it keeps its promise. -/
theorem select_spec (hids : (results.map Prod.fst).Nodup) (previous : Option String) :
    (∀ r ∈ results, cost r ≤ 0) ∧ select results previous = [] ∨
      (∃ r ∈ results, 0 < cost r) ∧ Chosen results (select results previous) := by
  rw [select_eq_pinned]
  cases h : good results with
  | nil =>
    refine .inl ⟨fun r hr => ?_, rfl⟩
    by_contra hpos
    have hmem : r ∈ good results := (mem_good hids).mpr ⟨hr, not_le.mp hpos⟩
    rw [h] at hmem
    cases hmem
  | cons first rest =>
    right
    have hkeys : ((first :: rest).map Prod.fst).Nodup := h ▸ nodup_good results
    have hfirst := (mem_good hids).mp (h ▸ List.mem_cons_self)
    have hleast : ∀ s ∈ results, 0 < cost s → cost first ≤ cost s := by
      intro s hs hpos
      exact least_good h s ((mem_good hids).mpr ⟨hs, hpos⟩)
    refine ⟨⟨first, hfirst⟩, length_pinned_le, nodup_pinned, ?_, ?_, ?_⟩
    · intro i hi
      obtain ⟨r, hr, rfl⟩ := List.mem_map.mp (pinned_subset hi)
      have hr' := (mem_good hids).mp (h ▸ hr)
      exact ⟨r, hr'.1, rfl, hr'.2⟩
    · exact ⟨first, hfirst.1, best_mem_pinned hkeys, hfirst.2, hleast⟩
    · intro r hr hhead s hs hpos
      rw [head?_pinned hkeys, Option.some.injEq] at hhead
      have hmem : lead Prod.fst near previous first (first :: rest) ∈ good results := by
        rw [h]
        exact lead_mem
      have hlead := (mem_good hids).mp hmem
      -- the ids are distinct, so `r` is the lead
      have heq : lead Prod.fst near previous first (first :: rest) = r :=
        List.inj_on_of_nodup_map hids hlead.1 hr hhead
      have hnear : near first (lead Prod.fst near previous first (first :: rest)) = true :=
        near_lead (near_self hfirst.2)
      rw [heq] at hnear
      have hbound := cost_le_of_near hfirst.2 hnear
      have hfs := hleast s hs hpos
      omega

/-! ## `measuredChoices`

For video, servers much slower than the best are left out before the choice. The pin has the
measured choice of each kind of service. -/

/-- What is compared are some of the results. -/
theorem comparable_sublist (id : String) (results : List Result) : List.Sublist (comparable id results) results := by
  unfold comparable
  split
  · split
    · exact List.filter_sublist
    · exact List.Sublist.refl _
  · exact List.Sublist.refl _

/-- There is no best where nothing was measured. -/
theorem best_eq_none : best results = none ↔ ∀ r ∈ results, cost r ≤ 0 := by
  rw [best, List.min?_eq_none_iff, List.map_eq_nil_iff, List.filter_eq_nil_iff]
  simp only [decide_eq_true_eq, not_lt]

theorem best_spec {b : ℤ} (h : best results = some b) :
    (∃ r ∈ results, 0 < cost r ∧ cost r = b) ∧ ∀ r ∈ results, 0 < cost r → b ≤ cost r := by
  obtain ⟨hmem, hle⟩ := List.min?_eq_some_iff.mp h
  constructor
  · obtain ⟨r, hr, rfl⟩ := List.mem_map.mp hmem
    rw [List.mem_filter, decide_eq_true_eq] at hr
    exact ⟨r, hr.1, hr.2, rfl⟩
  · intro r hr hpos
    exact hle _ (List.mem_map_of_mem (List.mem_filter.mpr ⟨hr, decide_eq_true hpos⟩))

/-- What costs no more than something comparable is comparable. -/
theorem mem_comparable_of_le {id : String} {r s : Result} (hr : r ∈ comparable id results) (hs : s ∈ results)
    (hpos : 0 < cost s) (hle : cost s ≤ cost r) : s ∈ comparable id results := by
  unfold comparable at hr ⊢
  cases h : best results with
  | none => exact hs
  | some b =>
    simp only [h] at hr ⊢
    split
    · rename_i hid
      rw [if_pos hid, List.mem_filter, decide_eq_true_eq] at hr
      rw [List.mem_filter, decide_eq_true_eq]
      exact ⟨hs, hpos, by omega⟩
    · exact hs

/-- What passed and is comparable exists where something passed. -/
theorem exists_mem_comparable (id : String) {s : Result} (hs : s ∈ results) (hpos : 0 < cost s) :
    ∃ r ∈ comparable id results, 0 < cost r := by
  unfold comparable
  cases h : best results with
  | none => exact ⟨s, hs, hpos⟩
  | some b =>
    obtain ⟨⟨r, hr, hrpos, hrb⟩, -⟩ := best_spec h
    dsimp only
    split
    · exact ⟨r, List.mem_filter.mpr ⟨hr, decide_eq_true ⟨hrpos, by omega⟩⟩, hrpos⟩
    · exact ⟨r, hr, hrpos⟩

/-- What is compared for video is not much dearer than the best. -/
theorem cost_le_of_mem_comparable {r s : Result} (hr : r ∈ comparable "youtube" results) (hs : s ∈ results)
    (hpos : 0 < cost s) : 10 * cost r ≤ 13 * cost s := by
  unfold comparable at hr
  cases h : best results with
  | none =>
    have hle := best_eq_none.mp h s hs
    omega
  | some b =>
    simp only [h, if_pos, List.mem_filter, decide_eq_true_eq] at hr
    have hb := (best_spec h).2 s hs hpos
    omega

/-- What the pin of a service promises: it is chosen from the results, and a video
route is comparable to the best one. -/
structure Measured (id : String) (results : List Result) (ids : List String) : Prop extends Chosen results ids where
  video : id = "youtube" → ∀ r ∈ results, r.1 ∈ ids → ∀ s ∈ results, 0 < cost s → 10 * cost r ≤ 13 * cost s

/-- **What is chosen**: nothing, where nothing was measured, and else a pool around the best. -/
theorem measuredChoices_spec (hids : (results.map Prod.fst).Nodup) (id : String) (previous : Option String) :
    (∀ r ∈ results, cost r ≤ 0) ∧ measuredChoices id results previous = [] ∨
      (∃ r ∈ results, 0 < cost r) ∧ Measured id results (measuredChoices id results previous) := by
  have hsub := comparable_sublist id results
  unfold measuredChoices
  -- with no good result nothing is chosen
  rcases select_spec (hids.sublist (hsub.map Prod.fst)) previous with ⟨hnone, hnil⟩ | ⟨⟨p, hp, hppos⟩, hchosen⟩
  · refine .inl ⟨fun s hs => ?_, hnil⟩
    by_contra hpos
    obtain ⟨r, hr, hrpos⟩ := exists_mem_comparable id hs (not_le.mp hpos)
    exact absurd (hnone r hr) (not_le.mpr hrpos)
  · refine .inr ⟨⟨p, hsub.subset hp, hppos⟩, ⟨hchosen.few, hchosen.distinct, ?_, ?_, ?_⟩, ?_⟩
    · intro i hi
      obtain ⟨r, hr, hri⟩ := hchosen.passed i hi
      exact ⟨r, hsub.subset hr, hri⟩
    · obtain ⟨r, hr, hri, hrpos, hleast⟩ := hchosen.least
      refine ⟨r, hsub.subset hr, hri, hrpos, fun s hs hpos => ?_⟩
      by_contra hlt
      -- what is cheaper than the first choice can be compared as well
      have hmem := mem_comparable_of_le hr hs hpos (not_le.mp hlt).le
      exact hlt (hleast s hmem hpos)
    · intro r hr hhead s hs hpos
      obtain ⟨c, hc, hci, -⟩ := hchosen.passed r.1 (List.mem_of_head? hhead)
      -- no two results are of one route
      have heq : c = r := List.inj_on_of_nodup_map hids (hsub.subset hc) hr hci
      rw [heq] at hc
      rcases le_total (cost s) (cost r) with hle | hle
      · exact hchosen.leading r hc hhead s (mem_comparable_of_le hc hs hpos hle) hpos
      · omega
    · rintro rfl r hr hmem s hs hpos
      obtain ⟨c, hc, hci, -⟩ := hchosen.passed r.1 hmem
      have heq : c = r := List.inj_on_of_nodup_map hids (hsub.subset hc) hr hci
      exact cost_le_of_mem_comparable (heq ▸ hc) hs hpos

/-! ## `update`

An update replaces the pin of a service and says whether it moved. With the same results a second
update leaves it as it is, whatever was cached before. -/

/-- The pin after an update, and whether it moved. -/
theorem update_spec (net id : String) (results : List Result) (now : Int64) (cache : Cache) :
    let pick := measuredChoices id results ((pin cache net id).bind List.head?)
    let after := update net id results now cache
    pin after.2 net id = (if pick = [] then none else some pick) ∧
      after.1 = decide (pin after.2 net id ≠ pin cache net id) ∧
        ∀ k, k ≠ keyOf net id → after.2.get? k = cache.get? k := by
  intro pick after
  by_cases hnil : pick = []
  · have hafter : after = ((cache.get? (keyOf net id)).isSome, cache.filterKeys fun k => k ≠ keyOf net id) :=
      if_pos hnil
    have hpin : pin after.2 net id = none := by
      rw [hafter, pin, OrderedMap.get?_filterKeys, if_neg (by simp), Option.map_none]
    refine ⟨by rw [hpin, if_pos hnil], ?_, ?_⟩
    · rw [hpin, hafter, pin]
      cases cache.get? (keyOf net id) <;> rfl
    · intro k hk
      rw [hafter, OrderedMap.get?_filterKeys, if_pos (decide_eq_true hk)]
  · have hafter : after = (decide (some pick ≠ pin cache net id), cache.put (keyOf net id) ⟨pick, now⟩) :=
      if_neg hnil
    have hpin : pin after.2 net id = some pick := by
      rw [hafter, pin, OrderedMap.get?_put, if_pos rfl, Option.map_some]
    refine ⟨by rw [hpin, if_neg hnil], ?_, ?_⟩
    · rw [hpin, hafter]
    · intro k hk
      rw [hafter, OrderedMap.get?_put, if_neg hk.symm]

/-- Updating again with the same results leaves the pin. -/
theorem pin_update_again (net id : String) (results : List Result) (now later : Int64) (cache : Cache) :
    pin (update net id results later (update net id results now cache).2).2 net id
      = pin (update net id results now cache).2 net id := by
  have hfirst := (update_spec net id results now cache).1
  have hagain := (update_spec net id results later (update net id results now cache).2).1
  rw [hagain, hfirst]
  by_cases hnil : measuredChoices id results ((pin cache net id).bind List.head?) = []
  · have hnil' : measuredChoices id results (none.bind List.head?) = [] :=
      select_eq_nil_iff.mpr (select_eq_nil_iff.mp hnil)
    rw [if_pos hnil, if_pos hnil']
  · have hsame : measuredChoices id results (measuredChoices id results ((pin cache net id).bind List.head?)).head?
        = measuredChoices id results ((pin cache net id).bind List.head?) := select_again _ _
    rw [if_neg hnil, Option.bind_some, hsame, if_neg hnil]

/-- **Service routes are measured and do not flap.** After an update the service is
pinned to what the results promise, or, where nothing passed, to nothing; no other
service and no other network is touched; and a second update with the same results, at
any time, says that nothing changed, and nothing did. -/
theorem update_measured (net id : String) (results : List Result) (now later : Int64) (cache : Cache)
    (hids : (results.map Prod.fst).Nodup) :
    let after := (update net id results now cache).2
    let again := update net id results later after
    ((∃ r ∈ results, 0 < cost r) → ∃ ids, pin after net id = some ids ∧ Measured id results ids) ∧
      ((∀ r ∈ results, cost r ≤ 0) → after.get? (keyOf net id) = none) ∧
      (∀ k, k ≠ keyOf net id → after.get? k = cache.get? k) ∧
      again.1 = false ∧ pin again.2 net id = pin after net id := by
  intro after again
  obtain ⟨hpin, -, hothers⟩ := update_spec net id results now cache
  have hagain : pin again.2 net id = pin after net id := pin_update_again net id results now later cache
  have hspec := measuredChoices_spec hids id ((pin cache net id).bind List.head?)
  refine ⟨?_, ?_, hothers, ?_, hagain⟩
  · rintro ⟨r, hr, hpos⟩
    rcases hspec with ⟨hnone, -⟩ | ⟨-, hmeasured⟩
    · exact absurd (hnone r hr) (not_le.mpr hpos)
    · refine ⟨_, hpin.trans (if_neg ?_), hmeasured⟩
      -- a least result is among the ids
      obtain ⟨c, -, hc, -⟩ := hmeasured.least
      exact List.ne_nil_of_mem hc
  · intro hnone
    rcases hspec with ⟨-, hnil⟩ | ⟨⟨r, hr, hpos⟩, -⟩
    · rw [if_pos hnil] at hpin
      exact Option.map_eq_none_iff.mp hpin
    · exact absurd (hnone r hr) (not_le.mpr hpos)
  · rw [(update_spec net id results later after).2.1]
    exact decide_eq_false (fun hne => hne hagain)

/-- Two servers of a video network, the slower one held before. -/
theorem update_measured_video :
    let results : List Result := [("slow", 125), ("fast", 100), ("dead", 0)]
    let cache : Cache := .ofList [("wifi|youtube", ⟨["slow"], 0⟩)]
    let after := (update "wifi" "youtube" results 1 cache).2
    (∃ ids, pin after "wifi" "youtube" = some ids ∧ Measured "youtube" results ids) ∧
      (update "wifi" "youtube" results 2 after).1 = false := by
  intro results cache after
  have h := update_measured "wifi" "youtube" results 1 2 cache (by decide)
  exact ⟨h.1 ⟨("fast", 100), by decide, by decide⟩, h.2.2.2.1⟩

end

end ServiceRoutes

end VlessCard
