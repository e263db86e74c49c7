/-
`cloud_reports.py`: what a merge publishes stays in range.

A published weight is the mean of the contributing vectors, computed in doubles. Its
sum is compared with the exact weighted sum, which lies between the least and the
greatest contribution times the weight: an addition is off by at most `2^-49` of the
weight reached, and the errors of all additions by at most `t^2 / 2^49`. The bound of
the weights themselves needs no such sum, since rounding keeps what is bounded by a
double so bounded.
-/
import VlessCard.Brain
import VlessCard.CloudDecay
import VlessCard.CloudMalformed

set_option autoImplicit false

namespace VlessCard

namespace CloudReports

open Binary64

/-! ## Means in doubles

The script adds products of weights and counts in doubles and divides by the total. Each
operation loses at most half a unit in the last place, and with totals of a few thousand checks
the mean is off by less than a ten thousandth. -/

/-- A rounded sum of values from a list, of total weight `t`. -/
structure Mixes (vs : List ℚ) (s : ℚ) (t : ℤ) : Prop where
  pos : 0 < t
  size : |s| ≤ 8 * t
  close : ∃ exact : ℚ, |s - exact| ≤ t ^ 2 / 2 ^ 49 ∧
    (∀ hi, (∀ v ∈ vs, v ≤ hi) → exact ≤ hi * t) ∧ ∀ lo, (∀ v ∈ vs, lo ≤ v) → lo * t ≤ exact

/-- What is bounded by an integer that is a double stays so. -/
theorem abs_fl_le {q : ℚ} {n : ℤ} (hn : |n| ≤ 2 ^ 53) (h : |q| ≤ n) : |fl q| ≤ n := by
  obtain ⟨hlo, hhi⟩ := abs_le.mp h
  have hneg : Representable (-(n : ℚ)) := by
    have hrep := representable_intCast (n := -n) (by rwa [abs_neg])
    rwa [Int.cast_neg] at hrep
  exact abs_le.mpr ⟨le_fl hneg hlo, fl_le (representable_intCast hn) hhi⟩

/-- A weight within bounds, counted so often. -/
theorem abs_mul_weight {v : ℚ} {w : ℤ} (hv : |v| ≤ 8) (hw : 0 < w) : |v * w| ≤ ((8 * w : ℤ) : ℚ) := by
  have hw' : (0 : ℚ) < w := by exact_mod_cast hw
  rw [abs_mul, abs_of_pos hw']
  push_cast
  exact mul_le_mul_of_nonneg_right hv hw'.le

variable {vs : List ℚ} {s v : ℚ} {t w : ℤ}

/-- One more contribution. -/
theorem Mixes.add (h : Mixes vs s t) (hmem : v ∈ vs) (hv : |v| ≤ 8) (hw : 0 < w) (hbound : t + w ≤ 2 ^ 49) :
    Mixes vs (fl (s + fl (v * w))) (t + w) := by
  have hpos := h.pos
  have ht' : (0 : ℚ) < t := by exact_mod_cast hpos
  have hw' : (1 : ℚ) ≤ w := by exact_mod_cast hw
  have hprod := abs_mul_weight hv hw
  have hterm : |fl (v * w)| ≤ ((8 * w : ℤ) : ℚ) := abs_fl_le (by rw [abs_of_pos (by omega)]; omega) hprod
  -- the sum is within eight for each unit of weight
  have hsum : |s + fl (v * w)| ≤ ((8 * (t + w) : ℤ) : ℚ) := by
    have htri := abs_add_le s (fl (v * w))
    have hsize := h.size
    push_cast at hterm ⊢
    linarith
  obtain ⟨exact, hclose, habove, hbelow⟩ := h.close
  refine ⟨by omega, ?_, exact + v * w, ?_, fun hi hhi => ?_, fun lo hlo => ?_⟩
  · have hfl := abs_fl_le (by rw [abs_of_pos (by omega)]; omega) hsum
    push_cast at hfl ⊢
    exact hfl
  · -- the product and the sum are each off by their share of the new weight
    have herr1 := abs_fl_sub_le (v * w)
    have herr2 := abs_fl_sub_le (s + fl (v * w))
    have htri : |fl (s + fl (v * w)) - (exact + v * w)| ≤
        |fl (s + fl (v * w)) - (s + fl (v * w))| + |s - exact| + |fl (v * w) - v * w| := by
      have hsplit : fl (s + fl (v * w)) - (exact + v * w) =
          (fl (s + fl (v * w)) - (s + fl (v * w))) + (s - exact) + (fl (v * w) - v * w) := by ring
      rw [hsplit]
      exact (abs_add_le _ _).trans (add_le_add (abs_add_le _ _) le_rfl)
    push_cast at hprod hsum ⊢
    have hsquare : (t : ℚ) ^ 2 + (t + w) ≤ (t + w) ^ 2 := by nlinarith
    have h1 : |v * w| / 2 ^ 53 ≤ 8 * w / 2 ^ 53 := div_le_div_of_nonneg_right hprod (by norm_num)
    have h2 : |s + fl (v * w)| / 2 ^ 53 ≤ 8 * (t + w) / 2 ^ 53 := div_le_div_of_nonneg_right hsum (by norm_num)
    have h3 : (t : ℚ) ^ 2 / 2 ^ 49 + (t + w) / 2 ^ 49 ≤ (t + w) ^ 2 / 2 ^ 49 := by
      rw [← add_div]
      exact div_le_div_of_nonneg_right hsquare (by norm_num)
    linarith
  -- a bound of all values is one of their mean
  · have hle := mul_le_mul_of_nonneg_right (hhi v hmem) (by linarith : (0 : ℚ) ≤ w)
    push_cast
    linarith [habove hi hhi]
  · have hle := mul_le_mul_of_nonneg_right (hlo v hmem) (by linarith : (0 : ℚ) ≤ w)
    push_cast
    linarith [hbelow lo hlo]

/-- The first contribution. -/
theorem mixes_new (hmem : v ∈ vs) (hv : |v| ≤ 8) (hw : 0 < w) (hbound : w ≤ 2 ^ 49) :
    Mixes vs (fl (0 + fl (v * w))) w := by
  have hw' : (1 : ℚ) ≤ w := by exact_mod_cast hw
  have hprod := abs_mul_weight hv hw
  have hterm : |fl (v * w)| ≤ ((8 * w : ℤ) : ℚ) := abs_fl_le (by rw [abs_of_pos (by omega)]; omega) hprod
  have hagain : fl (0 + fl (v * w)) = fl (v * w) := by rw [zero_add, fl_of_representable (representable_fl _)]
  rw [hagain]
  refine ⟨hw, by exact_mod_cast hterm, v * w, ?_, fun hi hhi => ?_, fun lo hlo => ?_⟩
  · have herr := abs_fl_sub_le (v * w)
    push_cast at hprod
    have h1 : |v * w| / 2 ^ 53 ≤ 8 * w / 2 ^ 53 := div_le_div_of_nonneg_right hprod (by norm_num)
    have h2 : (w : ℚ) / 2 ^ 49 ≤ w ^ 2 / 2 ^ 49 := div_le_div_of_nonneg_right (by nlinarith) (by norm_num)
    linarith
  · exact mul_le_mul_of_nonneg_right (hhi v hmem) (by linarith)
  · exact mul_le_mul_of_nonneg_right (hlo v hmem) (by linarith)

/-- The previous model, worth a hundred checks a phone. -/
theorem mixes_prev (hmem : v ∈ vs) (hv : |v| ≤ 8) (hw : 0 < w) (hbound : w ≤ 50) :
    Mixes vs (fl (fl (v * w) * 100)) (w * 100) := by
  have hw' : (1 : ℚ) ≤ w := by exact_mod_cast hw
  have hprod := abs_mul_weight hv hw
  have hterm : |fl (v * w)| ≤ ((8 * w : ℤ) : ℚ) := abs_fl_le (by rw [abs_of_pos (by omega)]; omega) hprod
  have hscaled : |fl (v * w) * 100| ≤ ((800 * w : ℤ) : ℚ) := by
    rw [abs_mul, abs_of_pos (show (0 : ℚ) < 100 by norm_num)]
    push_cast at hterm ⊢
    linarith
  refine ⟨by omega, ?_, v * (w * 100), ?_, fun hi hhi => ?_, fun lo hlo => ?_⟩
  · have hfl := abs_fl_le (by rw [abs_of_pos (by omega)]; omega) hscaled
    push_cast at hfl ⊢
    linarith
  -- the product and the scaling are each off by one rounding
  · have herr1 := abs_fl_sub_le (v * w)
    have herr2 := abs_fl_sub_le (fl (v * w) * 100)
    have htri : |fl (fl (v * w) * 100) - v * (w * 100)| ≤
        |fl (fl (v * w) * 100) - fl (v * w) * 100| + |fl (v * w) - v * w| * 100 := by
      have hsplit : fl (fl (v * w) * 100) - v * (w * 100) =
          (fl (fl (v * w) * 100) - fl (v * w) * 100) + (fl (v * w) - v * w) * 100 := by ring
      rw [hsplit]
      refine (abs_add_le _ _).trans (add_le_add le_rfl ?_)
      rw [abs_mul, abs_of_pos (show (0 : ℚ) < 100 by norm_num)]
    push_cast at hprod hscaled ⊢
    have h1 : |v * w| / 2 ^ 53 ≤ 8 * w / 2 ^ 53 := div_le_div_of_nonneg_right hprod (by norm_num)
    have h2 : |fl (v * w) * 100| / 2 ^ 53 ≤ 800 * w / 2 ^ 53 := div_le_div_of_nonneg_right hscaled (by norm_num)
    have h3 : (w * 100 : ℚ) / 2 ^ 49 ≤ (w * 100) ^ 2 / 2 ^ 49 :=
      div_le_div_of_nonneg_right (by nlinarith) (by norm_num)
    linarith
  · push_cast
    exact mul_le_mul_of_nonneg_right (hhi v hmem) (by linarith)
  · push_cast
    exact mul_le_mul_of_nonneg_right (hlo v hmem) (by linarith)

/-- **The mean.** It is in range, and not beyond the contributions but for a ten thousandth. -/
theorem Mixes.mean (h : Mixes vs s t) (hbound : t ≤ 2 ^ 29) :
    |roundTo 4 (fl (s / t))| ≤ 8 ∧ (∃ a ∈ vs, a - 1 / 10000 ≤ roundTo 4 (fl (s / t))) ∧
      ∃ b ∈ vs, roundTo 4 (fl (s / t)) ≤ b + 1 / 10000 := by
  have hpos : (0 : ℚ) < t := by exact_mod_cast h.pos
  have hle : (t : ℚ) ≤ 2 ^ 29 := by exact_mod_cast hbound
  have hquot : |s / t| ≤ ((8 : ℤ) : ℚ) := by
    rw [abs_div, abs_of_pos hpos, div_le_iff₀ hpos]
    exact_mod_cast h.size
  have hfl : |fl (s / t)| ≤ ((8 : ℤ) : ℚ) := abs_fl_le (by norm_num) hquot
  have hrange : |roundTo 4 (fl (s / t))| ≤ 8 := by
    obtain ⟨hlo, hhi⟩ := abs_le.mp hfl
    have hup := roundTo_mono 4 hhi
    have hdown := roundTo_mono 4 ((show ((-8 : ℤ) : ℚ) = -((8 : ℤ) : ℚ) by norm_num).trans_le hlo)
    rw [roundTo_intCast 4 (by norm_num)] at hup hdown
    push_cast at hup hdown
    exact abs_le.mpr ⟨hdown, hup⟩
  obtain ⟨exact, hclose, habove, hbelow⟩ := h.close
  -- the published weight is near the exact mean
  have hnear : |roundTo 4 (fl (s / t)) - exact / t| ≤ 9 / 100000 := by
    have h1 := abs_roundTo_sub 4 (fl (s / t))
    have h2 := abs_fl_sub_le (s / t)
    have h3 : |s / t - exact / t| ≤ t / 2 ^ 49 := by
      rw [← sub_div, abs_div, abs_of_pos hpos, div_le_iff₀ hpos]
      calc |s - exact| ≤ (t : ℚ) ^ 2 / 2 ^ 49 := hclose
        _ = t / 2 ^ 49 * t := by ring
    have htri := abs_sub_le (roundTo 4 (fl (s / t))) (fl (s / t)) (exact / t)
    have htri' := abs_sub_le (fl (s / t)) (s / t) (exact / t)
    push_cast at hfl hquot
    have h4 : (|fl (s / t)| + 1) / 2 ^ 53 ≤ (8 + 1) / 2 ^ 53 := div_le_div_of_nonneg_right (by linarith) (by norm_num)
    have h5 : |s / t| / 2 ^ 53 ≤ 8 / 2 ^ 53 := div_le_div_of_nonneg_right hquot (by norm_num)
    have h6 : (t : ℚ) / 2 ^ 49 ≤ 2 ^ 29 / 2 ^ 49 := div_le_div_of_nonneg_right hle (by norm_num)
    norm_num at h1 h4 h5 h6
    linarith
  obtain ⟨hlo, hhi⟩ := abs_le.mp hnear
  refine ⟨hrange, ?_, ?_⟩
  · by_contra hnone
    push Not at hnone
    have hall : ∀ v ∈ vs, roundTo 4 (fl (s / t)) + 1 / 10000 ≤ v := fun v hv => by linarith [hnone v hv]
    have hmean := (le_div_iff₀ hpos).mpr (hbelow _ hall)
    linarith
  · by_contra hnone
    push Not at hnone
    have hall : ∀ v ∈ vs, v ≤ roundTo 4 (fl (s / t)) - 1 / 10000 := fun v hv => by linarith [hnone v hv]
    have hmean := (div_le_iff₀ hpos).mpr (habove _ hall)
    linarith

/-! ## What contributes

The published vector is a mean of the previous one and of those in the reports that were let in.
All of them have fourteen numbers from -8 to 8, since this is what the check lets pass. -/

/-- The previous model, where it is valid and phones stand behind it. -/
def prevVector (prev : Option Cloud) (k : String) : Option (List ℚ) := do
  let c ← prev
  let a ← c.brain.get? k
  if a.length = N ∧ (∀ v ∈ a, -8 ≤ v ∧ v ≤ 8) ∧ min (c.phones : ℤ) 50 ≠ 0 then some a else none

section
variable (P : Runtime)

/-- The model of a report, where it is valid and has checks behind it. -/
def reportVector (k : String) (r : Report) : Option (List ℚ) :=
  if weightOf P (brainOf r) ≠ 0 ∧ (validVector (Assoc.get? (brainOf r) k)).toOption = some true then
    some (vectorOf (Assoc.get? (brainOf r) k))
  else none

/-- The vectors that a published one is the mean of. -/
def contributing (prev : Option Cloud) (reports : List Report) (k : String) : List (List ℚ) :=
  (prevVector prev k).toList ++ reports.filterMap (reportVector P k)

end

/-- The weights at one place of the vectors. -/
def column (as : List (List ℚ)) (i : ℕ) : List ℚ := as.map fun a => a.getD i 0

/-- A vector of the model: fourteen weights, in range. -/
def Proper (a : List ℚ) : Prop := a.length = N ∧ ∀ v ∈ a, |v| ≤ 8

/-- Each place of a proper vector is within bounds. -/
theorem Proper.getD {a : List ℚ} (h : Proper a) {i : ℕ} (hi : i < N) : |a.getD i 0| ≤ 8 := by
  rw [List.getD_eq_getElem _ _ (h.1.symm ▸ hi)]
  exact h.2 _ (List.getElem_mem _)

/-- A value that was let in is a number within bounds. -/
theorem number_of_weighs {v : PyVal} (h : weighs v = true) : ∃ q, v.number = some q ∧ |q| ≤ 8 := by
  cases v with
  | int n =>
    rw [weighs, Bool.and_eq_true, decide_eq_true_eq, decide_eq_true_eq] at h
    refine ⟨n, rfl, abs_le.mpr ⟨?_, ?_⟩⟩
    · exact_mod_cast h.1
    · exact_mod_cast h.2
  | float x =>
    cases x with
    | finite q =>
      rw [weighs, Bool.and_eq_true, decide_eq_true_eq, decide_eq_true_eq] at h
      exact ⟨q, rfl, abs_le.mpr h⟩
    | _ => cases h
  | _ => cases h

theorem weighs_of_validWeights {xs : List PyVal} (h : validWeights xs = .ok true) : ∀ v ∈ xs, weighs v = true := by
  induction xs with
  | nil => exact fun v hv => absurd hv List.not_mem_nil
  | cons x xs ih =>
    rw [validWeights] at h
    obtain ⟨b, hb, h⟩ := Python.bind_ok h
    have hx : beyond x = false := by
      cases hbeyond : beyond x with
      | false => rfl
      | true =>
        rw [validWeight_beyond hbeyond] at hb
        cases hb
    rw [validWeight_eq hx] at hb
    cases b with
    | false => cases h
    | true =>
      intro v hv
      rcases List.mem_cons.mp hv with rfl | hv
      · exact Except.ok.inj hb
      · exact ih h v hv

/-- Nothing is dropped where everything is there. -/
theorem length_filterMap_of_isSome {α β : Type} {f : α → Option β} {xs : List α}
    (h : ∀ x ∈ xs, (f x).isSome = true) : (xs.filterMap f).length = xs.length := by
  induction xs with
  | nil => rfl
  | cons x xs ih =>
    rw [List.forall_mem_cons] at h
    obtain ⟨y, hy⟩ := Option.isSome_iff_exists.mp h.1
    rw [List.filterMap_cons_some hy, List.length_cons, List.length_cons, ih h.2]

/-- A vector that passed the check has its weights in range. -/
theorem proper_vectorOf {a : Option PyVal} (h : validVector a = .ok true) : Proper (vectorOf a) := by
  match a with
  | some (.list xs) =>
    rw [validVector] at h
    split at h
    · rename_i hlen
      have hall := weighs_of_validWeights h
      refine ⟨?_, fun v hv => ?_⟩
      · rw [vectorOf, ← hlen]
        have hsome : ∀ x ∈ xs, (PyVal.number x).isSome = true := by
          intro x hx
          obtain ⟨q, hq, -⟩ := number_of_weighs (hall x hx)
          rw [hq]
          rfl
        exact length_filterMap_of_isSome hsome
      · obtain ⟨x, hx, hq⟩ := List.mem_filterMap.mp hv
        obtain ⟨q, hq', hbound⟩ := number_of_weighs (hall x hx)
        rw [hq] at hq'
        rw [Option.some.inj hq']
        exact hbound
    · cases h
  | none => cases h
  | some .none => cases h
  | some (.bool _) => cases h
  | some (.int _) => cases h
  | some (.float _) => cases h
  | some (.str _) => cases h
  | some (.dict _) => cases h

/-! ## The sums while the reports are read

While the reports are read a family has a vector of sums and a total weight. The invariant says
that the sums are rounded sums of the contributions seen so far, and how many of them there were. -/

/-- The sum of one family: its weights are rounded sums of the contributions. -/
structure Summed (as : List (List ℚ)) (most : ℤ) (e : List ℚ × ℤ) : Prop where
  length : e.1.length = N
  most : e.2 ≤ most
  mixes : ∀ i < N, Mixes (column as i) (e.1.getD i 0) e.2

def AllSummed (as : String → List (List ℚ)) (most : ℤ) (acc : OrderedMap String (List ℚ × ℤ)) : Prop :=
  ∀ e ∈ acc.entries, Summed (as e.1) most e.2

theorem AllSummed.mono {as : String → List (List ℚ)} {most most' : ℤ} {acc : OrderedMap String (List ℚ × ℤ)}
    (h : AllSummed as most acc) (hle : most ≤ most') : AllSummed as most' acc :=
  fun e he => ⟨(h e he).length, (h e he).most.trans hle, (h e he).mixes⟩

/-- A report weighs nothing to two hundred. -/
theorem weightOf_range (P : Runtime) (b : Report) : 0 ≤ weightOf P b ∧ weightOf P b ≤ 200 := by
  rw [weightOf]
  split
  · omega
  · omega

/-- A place of a vector is one of its column. -/
theorem getD_mem_column {as : List (List ℚ)} {a : List ℚ} (h : a ∈ as) (i : ℕ) : a.getD i 0 ∈ column as i :=
  List.mem_map.mpr ⟨a, h, rfl⟩

/-- A vector added to a sum, place by place. -/
def addVector (s a : List ℚ) (wt : ℤ) : List ℚ :=
  List.zipWith (fun s v => fl (s + fl (max (-8) (min 8 v) * wt))) s a

theorem length_addVector {s a : List ℚ} (hs : s.length = N) (ha : a.length = N) (wt : ℤ) :
    (addVector s a wt).length = N := by
  rw [addVector, List.length_zipWith, hs, ha, min_self]

/-- The clamp changes nothing: what was valid is in range. -/
theorem getD_addVector {s a : List ℚ} (hs : s.length = N) (ha : Proper a) (wt : ℤ) {i : ℕ} (hi : i < N) :
    (addVector s a wt).getD i 0 = fl (s.getD i 0 + fl (a.getD i 0 * wt)) := by
  obtain ⟨hlo, hhi⟩ := abs_le.mp (ha.getD hi)
  have hclamp : max (-8) (min 8 (a.getD i 0)) = a.getD i 0 := by rw [min_eq_right hhi, max_eq_right hlo]
  have hlen : i < (addVector s a wt).length := (length_addVector hs ha.1 wt).symm ▸ hi
  rw [← hclamp, List.getD_eq_getElem _ _ hlen, List.getD_eq_getElem _ _ (hs.symm ▸ hi),
    List.getD_eq_getElem _ _ (ha.1.symm ▸ hi)]
  exact List.getElem_zipWith

section
variable {as : List (List ℚ)} {a : List ℚ} {most : ℤ}

/-- A family that had no sum yet. -/
theorem summed_new (ha : Proper a) (hmem : a ∈ as) (hw : 0 < w) (hmost : w ≤ most) (hbound : most ≤ 2 ^ 49) :
    Summed as most (addVector (List.replicate N 0) a w, 0 + w) := by
  refine ⟨length_addVector List.length_replicate ha.1 w, ?_, fun i hi => ?_⟩
  · show 0 + w ≤ most
    omega
  · rw [getD_addVector List.length_replicate ha w hi, List.getD_replicate _ hi, zero_add (w : ℤ)]
    exact mixes_new (getD_mem_column hmem i) (ha.getD hi) hw (hmost.trans hbound)

/-- One more vector is summed within the bound that grows by its weight. -/
theorem Summed.add {e : List ℚ × ℤ} (h : Summed as most e) (ha : Proper a) (hmem : a ∈ as) (hw : 0 < w)
    (hbound : most + w ≤ 2 ^ 49) : Summed as (most + w) (addVector e.1 a w, e.2 + w) := by
  have hle := h.most
  refine ⟨length_addVector h.length ha.1 w, ?_, fun i hi => ?_⟩
  · show e.2 + w ≤ most + w
    omega
  · rw [getD_addVector h.length ha w hi]
    exact (h.mixes i hi).add (getD_mem_column hmem i) (ha.getD hi) hw (by omega)

end

/-- One family of one report. -/
theorem AllSummed.addModel {as : String → List (List ℚ)} {most : ℤ} {acc acc' : OrderedMap String (List ℚ × ℤ)}
    (h : AllSummed as most acc) {b : Report} {wt : ℤ} {k : String} (hwt : 0 ≤ wt ∧ wt ≤ 200)
    (hmost : 0 ≤ most ∧ most + 200 ≤ 2 ^ 49)
    (has : wt ≠ 0 → validVector (Assoc.get? b k) = .ok true → vectorOf (Assoc.get? b k) ∈ as k)
    (hadd : addModel b wt acc k = .ok acc') : AllSummed as (most + 200) acc' := by
  rw [CloudReports.addModel] at hadd
  by_cases hzero : wt = 0
  · rw [if_pos hzero] at hadd
    rw [← Except.ok.inj hadd]
    exact h.mono (by omega)
  rw [if_neg hzero] at hadd
  obtain ⟨valid, hvalid, hadd⟩ := Python.bind_ok hadd
  cases valid with
  | false =>
    rw [← Except.ok.inj hadd]
    exact h.mono (by omega)
  | true =>
    have hproper := proper_vectorOf hvalid
    have hmem := has hzero hvalid
    have hpos : 0 < wt := by omega
    rw [← Except.ok.inj hadd]
    refine OrderedMap.forall_put (h.mono (by omega)) ?_
    cases hget : acc.get? k with
    | none => exact summed_new hproper hmem hpos (by omega) (by omega)
    | some e =>
      have hold := h _ (OrderedMap.mem_of_get? hget)
      have hnew := hold.add hproper hmem hpos (by omega)
      exact ⟨hnew.length, hnew.most.trans (by omega), hnew.mixes⟩

/-! ## The reports in turn

One report adds to the sums of either family at most once, with a weight of at most two hundred.
So the invariant goes through the loop with a bound that grows by this much. -/

section
variable {P : Runtime} {prev : Option Cloud} {now : ℤ}

/-- The vector of a report that counts is one that was contributed. -/
theorem reportVector_mem {r : Report} {reports : List Report} (hr : r ∈ reports) {k : String}
    (hw : weightOf P (brainOf r) ≠ 0) (hv : validVector (Assoc.get? (brainOf r) k) = .ok true) :
    vectorOf (Assoc.get? (brainOf r) k) ∈ contributing P prev reports k := by
  refine List.mem_append_right _ (List.mem_filterMap.mpr ⟨r, hr, ?_⟩)
  rw [reportVector, hv]
  exact if_pos ⟨hw, rfl⟩

/-- One report: at most two hundred checks for either family. -/
theorem AllSummed.addReport {as : String → List (List ℚ)} {most : ℤ} {w w' : Work} {r : Report}
    (h : AllSummed as most w.acc) (hmost : 0 ≤ most ∧ most + 400 ≤ 2 ^ 49)
    (has : ∀ k, weightOf P (brainOf r) ≠ 0 → validVector (Assoc.get? (brainOf r) k) = .ok true →
      vectorOf (Assoc.get? (brainOf r) k) ∈ as k)
    (hadd : addReport P now w r = .ok w') : AllSummed as (most + 400) w'.acc := by
  rw [CloudReports.addReport] at hadd
  obtain ⟨use, -, hadd⟩ := Python.bind_ok hadd
  obtain ⟨acc, hacc, hadd⟩ := Python.bind_ok hadd
  obtain ⟨es, -, hadd⟩ := Python.bind_ok hadd
  obtain ⟨votes, -, hadd⟩ := Python.bind_ok hadd
  obtain ⟨links, -, hadd⟩ := Python.bind_ok hadd
  rw [← Except.ok.inj hadd]
  obtain ⟨acc₁, h₁, hacc⟩ := Python.bind_ok hacc
  obtain ⟨acc₂, h₂, hacc⟩ := Python.bind_ok hacc
  rw [← Except.ok.inj hacc]
  have hwt := weightOf_range P (brainOf r)
  have hm := h.addModel hwt ⟨hmost.1, by omega⟩ (has "m") h₁
  have hboth := hm.addModel hwt ⟨by omega, by omega⟩ (has "w") h₂
  exact hboth.mono (by omega)

/-- All reports. -/
theorem AllSummed.addReports {as : String → List (List ℚ)} {reports : List Report} :
    ∀ {most : ℤ} {w w' : Work}, AllSummed as most w.acc → 0 ≤ most ∧ most + 400 * reports.length ≤ 2 ^ 49 →
      (∀ r ∈ reports, ∀ k, weightOf P (brainOf r) ≠ 0 → validVector (Assoc.get? (brainOf r) k) = .ok true →
        vectorOf (Assoc.get? (brainOf r) k) ∈ as k) →
      reports.foldlM (CloudReports.addReport P now) w = .ok w' →
      AllSummed as (most + 400 * reports.length) w'.acc := by
  induction reports with
  | nil =>
    intro most w w' h _ _ hrun
    rw [← Except.ok.inj hrun]
    exact h.mono (by omega)
  | cons r reports ih =>
    intro most w w' h hmost has hrun
    rw [List.foldlM_cons] at hrun
    obtain ⟨v, hv, hrun⟩ := Python.bind_ok hrun
    rw [List.length_cons] at hmost ⊢
    rw [List.forall_mem_cons] at has
    push_cast at hmost ⊢
    have hnext := h.addReport ⟨hmost.1, by omega⟩ has.1 hv
    exact (ih hnext ⟨by omega, by omega⟩ has.2 hrun).mono (by omega)

/-- The previous model alone. -/
theorem allSummed_start (reports : List Report) :
    AllSummed (contributing P prev reports) 5000 (start P prev now).2.acc := by
  cases prev with
  | none => exact fun e he => absurd he List.not_mem_nil
  | some c =>
    show AllSummed _ 5000 (prevModel c)
    refine OrderedMap.forall_ofList fun e he => ?_
    obtain ⟨k, -, hk⟩ := List.mem_filterMap.mp he
    obtain ⟨a, ha, hk⟩ := Option.bind_eq_some_iff.mp hk
    split at hk
    · rename_i hvalid
      rw [← Option.some.inj hk]
      -- the vector of the last merge is one of the contributions
      have hmem : a ∈ contributing P (some c) reports k := by
        refine List.mem_append_left _ ?_
        rw [prevVector, Option.bind_eq_bind, Option.bind_some, ha, Option.bind_eq_bind, Option.bind_some, if_pos hvalid]
        exact List.mem_singleton_self a
      have hproper : Proper a := ⟨hvalid.1, fun v hv => abs_le.mpr (hvalid.2.1 v hv)⟩
      -- it weighs as many phones as were counted, fifty at most
      have hphones : (0 : ℤ) < min (c.phones : ℤ) 50 := by
        have hne := hvalid.2.2
        omega
      refine ⟨?_, ?_, fun i hi => ?_⟩
      · rw [List.length_map]
        exact hvalid.1
      · show min (c.phones : ℤ) 50 * 100 ≤ 5000
        omega
      · have hlen : i < a.length := hvalid.1.symm ▸ hi
        have hget : (a.map fun v => fl (fl (v * (min (c.phones : ℤ) 50 : ℤ)) * 100)).getD i 0 =
            fl (fl (a.getD i 0 * (min (c.phones : ℤ) 50 : ℤ)) * 100) := by
          rw [List.getD_eq_getElem _ _ (by rw [List.length_map]; exact hlen), List.getElem_map,
            List.getD_eq_getElem _ _ hlen]
        rw [hget]
        exact mixes_prev (getD_mem_column hmem i) (hproper.getD hi) hphones (by omega)
    · cases hk

end

/-! ## The published model

In the end each sum is divided by its total. The mean is clamped and rounded to five decimals,
which moves it by no more than the bound allows. -/

section
variable {P : Runtime} {prev : Option Cloud} {reports : List Report} {now : ℤ} {c : Cloud}

/-- What a merge is made of. -/
theorem merge_parts (h : merge P prev reports now = .ok c) :
    ∃ stamp net work profiles, reports.foldlM (addSpeeds P now) (start P prev now).1 = .ok net ∧
      reports.foldlM (addReport P now) (start P prev now).2 = .ok work ∧
      c = finish now stamp net work profiles := by
  rw [merge] at h
  obtain ⟨net, hnet, h⟩ := Python.bind_ok h
  obtain ⟨work, hwork, h⟩ := Python.bind_ok h
  obtain ⟨profiles, -, h⟩ := Python.bind_ok h
  cases hs : P.stamp now with
  | none =>
    rw [hs] at h
    cases h
  | some stamp =>
    rw [hs] at h
    exact ⟨stamp, net, work, profiles, hnet, hwork, (Except.ok.inj h).symm⟩

/-- A vector to publish: fourteen weights from -8 to 8, none of them beyond what
contributed to it but for a ten thousandth. -/
structure InRange (as : List (List ℚ)) (a : List ℚ) : Prop where
  length : a.length = N
  range : ∀ v ∈ a, -8 ≤ v ∧ v ≤ 8
  between : ∀ i < N, (∃ b ∈ as, b.getD i 0 - 1 / 10000 ≤ a.getD i 0) ∧
    ∃ b ∈ as, a.getD i 0 ≤ b.getD i 0 + 1 / 10000

/-- **A weighted mean lies within its column**, up to rounding. -/
theorem Summed.inRange {as : List (List ℚ)} {most : ℤ} {e : List ℚ × ℤ} (h : Summed as most e)
    (hmost : most ≤ 2 ^ 29) : InRange as (e.1.map fun v => roundTo 4 (fl (v / e.2))) := by
  -- every place is a mean of what contributed there, but for the roundings
  have hmean : ∀ i (hi : i < N), |roundTo 4 (fl (e.1.getD i 0 / e.2))| ≤ 8 ∧ _ ∧ _ :=
    fun i hi => (h.mixes i hi).mean (h.most.trans hmost)
  refine ⟨by rw [List.length_map, h.length], fun v hv => ?_, fun i hi => ?_⟩
  · obtain ⟨s, hs, rfl⟩ := List.mem_map.mp hv
    obtain ⟨i, hi, rfl⟩ := List.getElem_of_mem hs
    have hbound := (hmean i (h.length ▸ hi)).1
    rw [List.getD_eq_getElem _ _ hi] at hbound
    exact abs_le.mp hbound
  · obtain ⟨-, ⟨a, ha, hlo⟩, ⟨b, hb, hhi⟩⟩ := hmean i hi
    have hlen : i < e.1.length := h.length.symm ▸ hi
    have hget : (e.1.map fun v => roundTo 4 (fl (v / e.2))).getD i 0 = roundTo 4 (fl (e.1.getD i 0 / e.2)) := by
      rw [List.getD_eq_getElem _ _ (by rw [List.length_map]; exact hlen), List.getElem_map,
        List.getD_eq_getElem _ _ hlen]
    obtain ⟨a', ha', rfl⟩ := List.mem_map.mp ha
    obtain ⟨b', hb', rfl⟩ := List.mem_map.mp hb
    rw [hget]
    exact ⟨⟨a', ha', hlo⟩, b', hb', hhi⟩

/-- Every published vector is in range. -/
theorem brain_inRange (hlen : reports.length ≤ 2 ^ 20) (hmerge : merge P prev reports now = .ok c) :
    ∀ e ∈ c.brain.entries, InRange (contributing P prev reports e.1) e.2 := by
  obtain ⟨stamp, net, work, profiles, -, hwork, rfl⟩ := merge_parts hmerge
  -- a report weighs 400 at most and there are 2 ^ 20 of them, so no total passes 2 ^ 29
  have hsummed : AllSummed (contributing P prev reports) (5000 + 400 * reports.length) work.acc :=
    (allSummed_start reports).addReports ⟨by omega, by omega⟩
      (fun r hr k hw hv => reportVector_mem hr hw hv) hwork
  refine OrderedMap.forall_ofList fun e he => ?_
  obtain ⟨⟨k, s, t⟩, hst, hk⟩ := List.mem_filterMap.mp he
  by_cases hzero : t = 0
  · rw [if_pos hzero] at hk
    cases hk
  · rw [if_neg hzero] at hk
    rw [← Option.some.inj hk]
    exact (hsummed _ hst).inRange (by omega)

/-- The phone takes such a vector as it is. -/
theorem InRange.accepted {as : List (List ℚ)} {a : List ℚ} (h : InRange as a) :
    Brain.vector (some (a.map Json.real)) = some fun i : Fin Brain.N => a.getD i 0 := by
  have hmap : ∀ l : List ℚ, (∀ v ∈ l, -8 ≤ v ∧ v ≤ 8) → (l.map Json.real).mapM Brain.weightOf = some l := by
    intro l
    induction l with
    | nil => exact fun _ => rfl
    | cons v l ih =>
      intro hl
      rw [List.forall_mem_cons] at hl
      rw [List.map_cons, List.mapM_cons, Brain.weightOf, if_pos hl.1, ih hl.2]
      rfl
  have hlen : (a.map Json.real).length = Brain.N := by
    rw [List.length_map]
    exact h.length
  show (if (a.map Json.real).length ≠ Brain.N then none else _) = _
  rw [if_neg (not_not.mpr hlen), hmap a h.range]
  rfl

end

/-! ## The operators' networks

The counters of an operator's network grow by one check each, and fade together by the same
factor. So the successes are never more than the checks, in every state the merge makes. -/

/-- No more checks that worked than checks. -/
structure Counted (e : NetEntry) : Prop where
  ok : 0 ≤ e.ok
  checks : e.ok ≤ e.n
  double : Representable e.n

def AllCounted (net : Net) : Prop := ∀ f ∈ net.entries, ∀ e ∈ f.2.entries, Counted e.2

/-- Fading keeps counters as they should be. -/
theorem counted_fadeEntry {fade : ℚ} (hfade : 0 ≤ fade) {now : ℤ} {e e' : NetEntry} (h : Counted e)
    (hfaded : fadeEntry fade now e = some e') : Counted e' := by
  have hold : ¬3 * 86400 < now - e.t := by
    intro hold
    rw [fadeEntry_old hold] at hfaded
    cases hfaded
  rw [fadeEntry_recent (not_lt.mp hold)] at hfaded
  split at hfaded
  · rw [← Option.some.inj hfaded]
    refine ⟨?_, ?_, representable_fl _⟩
    · exact roundTo_nonneg 3 (fl_nonneg (mul_nonneg h.ok hfade))
    · exact roundTo_mono 3 (fl_mono (mul_le_mul_of_nonneg_right h.checks hfade))
  · cases hfaded

/-- A check adds one to both counts, or to the checks alone. -/
theorem Counted.observe {e : NetEntry} (h : Counted e) (now kb ms : ℤ) (yt : Bool) :
    Counted (e.observe now kb ms yt) := by
  have hn : 0 ≤ e.n := h.ok.trans h.checks
  -- a count that is a double and has one added is not rounded below itself
  have hgrows : e.n ≤ roundTo 3 (fl (e.n + 1)) := le_roundTo_add_one 3 h.double hn
  refine ⟨?_, ?_, representable_fl _⟩
  · show 0 ≤ if 0 < ms then roundTo 3 (fl (e.ok + 1)) else e.ok
    split
    · have hok := h.ok
      exact roundTo_nonneg 3 (fl_nonneg (by linarith))
    · exact h.ok
  · show (if 0 < ms then roundTo 3 (fl (e.ok + 1)) else e.ok) ≤ roundTo 3 (fl (e.n + 1))
    split
    · have hle := h.checks
      exact roundTo_mono 3 (fl_mono (by linarith))
    · exact h.checks.trans hgrows

theorem AllCounted.observeIn {net : Net} (h : AllCounted net) (fam key : String) (now kb ms : ℤ) (yt : Bool) :
    AllCounted (CloudReports.observeIn net fam key now kb ms yt) := by
  -- the operator's servers before this check
  have hold : ∀ e ∈ ((net.get? fam).getD .empty).entries, Counted e.2 := by
    cases hget : net.get? fam with
    | none => exact fun e he => absurd he List.not_mem_nil
    | some d => exact h _ (OrderedMap.mem_of_get? hget)
  refine OrderedMap.forall_put h ?_
  refine OrderedMap.forall_put hold ?_
  refine Counted.observe ?_ now kb ms yt
  cases hget : ((net.get? fam).getD .empty).get? key with
  | none => exact ⟨le_rfl, le_rfl, representable_intCast (n := 0) (by norm_num)⟩
  | some e => exact hold _ (OrderedMap.mem_of_get? hget)

section
variable {P : Runtime} {now : ℤ}

theorem AllCounted.addRow {net net' : Net} (h : AllCounted net) {fam : String} {row : PyVal}
    (hadd : addRow P now fam net row = .ok net') : AllCounted net' := by
  rw [CloudReports.addRow.eq_def] at hadd
  split at hadd
  · split at hadd
    · split at hadd
      · rw [← Except.ok.inj hadd]
        exact AllCounted.observeIn h _ _ _ _ _ _
      · rw [← Except.ok.inj hadd]
        exact h
      · rw [← Except.ok.inj hadd]
        exact h
      · cases hadd
    · rw [← Except.ok.inj hadd]
      exact h
  · rw [← Except.ok.inj hadd]
    exact h

theorem AllCounted.addSpeeds {net net' : Net} (h : AllCounted net) {r : Report}
    (hadd : addSpeeds P now net r = .ok net') : AllCounted net' := by
  rw [CloudReports.addSpeeds] at hadd
  split at hadd
  · obtain ⟨rows, -, hadd⟩ := Python.bind_ok hadd
    exact Python.foldlM_inv (p := AllCounted) (fun _ _ _ _ hs hrow => hs.addRow hrow) h hadd
  · rw [← Except.ok.inj hadd]
    exact h

/-- Fading divides both counts alike. -/
theorem allCounted_start (hfade : ∀ e half, 0 ≤ P.halved e half) {prev : Option Cloud}
    (h : ∀ c ∈ prev, AllCounted c.net) : AllCounted (start P prev now).1 := by
  cases prev with
  | none => exact fun f hf => absurd hf List.not_mem_nil
  | some c =>
    intro f hf
    obtain ⟨f', hf', rfl⟩ := List.mem_map.mp (List.mem_of_mem_filter hf)
    refine OrderedMap.forall_ofList fun e he => ?_
    obtain ⟨e', he', hfaded⟩ := List.mem_filterMap.mp he
    obtain ⟨v, hv, rfl⟩ := Option.map_eq_some_iff.mp hfaded
    exact counted_fadeEntry (hfade _ _) (h c rfl f' hf' e' he') hv

/-- Publishing keeps entries as they are. -/
theorem AllCounted.mostChecked {net : Net} (h : AllCounted net) : AllCounted (net.mapValues mostChecked) := by
  intro f hf
  obtain ⟨f', hf', rfl⟩ := List.mem_map.mp hf
  exact OrderedMap.forall_ofList fun e he => h f' hf' e ((List.mergeSort_perm _ _).subset (List.mem_of_mem_take he))

/-- One merge. -/
theorem allCounted_merge (hfade : ∀ e half, 0 ≤ P.halved e half) {prev : Option Cloud} {reports : List Report}
    {c : Cloud} (h : ∀ c ∈ prev, AllCounted c.net) (hmerge : merge P prev reports now = .ok c) :
    AllCounted c.net := by
  obtain ⟨stamp, net, work, profiles, hnet, -, rfl⟩ := merge_parts hmerge
  -- the reports are folded into the faded counts of the cloud before
  have hcounted : AllCounted net := Python.foldlM_inv (p := AllCounted)
    (fun _ _ _ _ hs hadd => hs.addSpeeds hadd) (allCounted_start hfade h) hnet
  exact hcounted.mostChecked

/-- Every state the cloud makes. -/
theorem Made.counted (hfade : ∀ e half, 0 ≤ P.halved e half) {prev : Option Cloud} (h : Made P prev) :
    ∀ c ∈ prev, AllCounted c.net := by
  induction h with
  | none => exact fun c hc => absurd hc (Option.not_mem_none c)
  | merge _ hmerge ih =>
    intro c hc
    rw [← Option.some.inj hc]
    exact allCounted_merge hfade ih hmerge

end

/-! ## The published rows

What phones download are integers: a speed, a percentage and a count. A count that would be
rounded down to zero is published as one, and the percentage stays below a hundred because the
counters are in order. -/

/-- `[kbit/s, % worked, checks]`. -/
def publicRow (e : NetEntry) : ℤ × ℤ × ℤ :=
  (e.kb, if e.n ≠ 0 then roundEven (fl (fl (100 * e.ok) / e.n)) else 0, max 1 (roundEven e.n))

/-- `public_net`. -/
def publicNet (net : Net) : OrderedMap String (OrderedMap String (ℤ × ℤ × ℤ)) :=
  net.mapValues fun d =>
    .ofList (((d.entries.mergeSort fun a b => b.2.n ≤ a.2.n).take 300).map fun e => (e.1, publicRow e.2))

/-- The percentage is one, also where the division rounds up. -/
theorem Counted.publicRow {e : NetEntry} (h : Counted e) :
    0 ≤ (publicRow e).2.1 ∧ (publicRow e).2.1 ≤ 100 ∧ 1 ≤ (publicRow e).2.2 := by
  have hn : 0 ≤ e.n := h.ok.trans h.checks
  refine ⟨?_, ?_, le_max_left _ _⟩
  · show 0 ≤ if e.n ≠ 0 then roundEven (fl (fl (100 * e.ok) / e.n)) else 0
    split
    · have hquot : 0 ≤ fl (100 * e.ok) / e.n := div_nonneg (fl_nonneg (mul_nonneg (by norm_num) h.ok)) hn
      have hround := roundEven_mono (fl_nonneg hquot)
      rwa [roundEven_zero] at hround
    · exact le_rfl
  · show (if e.n ≠ 0 then roundEven (fl (fl (100 * e.ok) / e.n)) else 0) ≤ 100
    split
    · rename_i hne
      have hpos : 0 < e.n := lt_of_le_of_ne hn (Ne.symm hne)
      have hnum : fl (100 * e.ok) ≤ 100 * e.n * (1 + 1 / 2 ^ 53) := by
        have hmul := fl_mono (mul_le_mul_of_nonneg_left h.checks (show (0 : ℚ) ≤ 100 by norm_num))
        have herr := (abs_le.mp (abs_fl_sub_le (100 * e.n))).2
        rw [abs_of_nonneg (by linarith : (0 : ℚ) ≤ 100 * e.n)] at herr
        linarith
      have hquot : fl (100 * e.ok) / e.n ≤ 100 + 1 / 4 := by
        rw [div_le_iff₀ hpos]
        nlinarith
      have hround := roundEven_mono (fl_mono hquot)
      have hexact : fl (100 + 1 / 4) = 100 + 1 / 4 := fl_of_representable ⟨401, -2, by norm_num, by norm_num⟩
      have hhundred : roundEven (100 + 1 / 4) = 100 := roundEven_eq (by norm_num)
      rw [hexact, hhundred] at hround
      exact hround
    · norm_num

/-- **What is published is a percentage and a count that is not zero.** -/
theorem publicNet_rows {net : Net} (h : AllCounted net) : ∀ f ∈ (publicNet net).entries,
    ∀ row ∈ f.2.entries, 0 ≤ row.2.2.1 ∧ row.2.2.1 ≤ 100 ∧ 1 ≤ row.2.2.2 := by
  intro f hf
  obtain ⟨f', hf', rfl⟩ := List.mem_map.mp hf
  refine OrderedMap.forall_ofList fun row hrow => ?_
  obtain ⟨e, he, rfl⟩ := List.mem_map.mp hrow
  exact (h f' hf' e ((List.mergeSort_perm _ _).subset (List.mem_of_mem_take he))).publicRow

/-! ## What is published

A published state is in range whatever was merged before. That the earlier states were made by
the merge as well is what bounds the previous vector and the counters. -/

/-- What phones can rely on in a published state. -/
structure Published (as : String → List (List ℚ)) (c : Cloud) : Prop where
  brain : ∀ e ∈ c.brain.entries, InRange (as e.1) e.2 ∧
    Brain.vector (some (e.2.map Json.real)) = some fun i : Fin Brain.N => e.2.getD i 0
  net : ∀ f ∈ c.net.entries, ∀ e ∈ f.2.entries, 0 ≤ e.2.ok ∧ e.2.ok ≤ e.2.n
  rows : ∀ f ∈ (publicNet c.net).entries, ∀ row ∈ f.2.entries,
    0 ≤ row.2.2.1 ∧ row.2.2.1 ≤ 100 ∧ 1 ≤ row.2.2.2

/-- Whatever merges came before, a merge keeps the models and the counts in range. A merge
reads five pages of a hundred reports at most, so the bound on their number is far away. -/
theorem published_in_range {P : Runtime} (hfade : ∀ e half, 0 ≤ P.halved e half) {prev : Option Cloud}
    (hmade : Made P prev) {reports : List Report} (hlen : reports.length ≤ 2 ^ 20) {now : ℤ} {c : Cloud}
    (hmerge : merge P prev reports now = .ok c) : Published (contributing P prev reports) c := by
  have hcounted := hmade.counted hfade
  have hnet : AllCounted c.net := allCounted_merge hfade hcounted hmerge
  refine ⟨fun e he => ?_, fun f hf e he => ⟨(hnet f hf e he).ok, (hnet f hf e he).checks⟩, publicNet_rows hnet⟩
  have hrange := brain_inRange hlen hmerge e he
  exact ⟨hrange, hrange.accepted⟩

/-- A phone with a model and a speed, after fifteen checks. -/
def trainedReport : Report :=
  [("net", .str "Wi-Fi"), ("sp", .list [.list [.str "0123abcd", .int 900, .int 120]]),
    ("brain", .dict [("seen", .int 15), ("m", .list (List.replicate 14 (.float (.finite 7))))])]

/-- Two merges, each with such a report. -/
theorem published_in_range_twice : ∃ prev c, merge bareRuntime none [trainedReport] 0 = .ok prev ∧
    merge bareRuntime (some prev) [trainedReport] 0 = .ok c ∧
    c.brain.entries = [("m", List.replicate 14 7)] ∧
    Published (contributing bareRuntime (some prev) [trainedReport]) c := by
  have hrun : ((merge bareRuntime none [trainedReport] 0).bind fun prev =>
      merge bareRuntime (some prev) [trainedReport] 0).toOption.map (fun c => c.brain.entries)
      = some [("m", List.replicate 14 7)] := by decide +kernel
  cases hprev : merge bareRuntime none [trainedReport] 0 with
  | error e =>
    rw [hprev] at hrun
    cases hrun
  | ok prev =>
    rw [hprev] at hrun
    cases hc : merge bareRuntime (some prev) [trainedReport] 0 with
    | error e =>
      rw [Except.bind, hc] at hrun
      cases hrun
    | ok c =>
      rw [Except.bind, hc] at hrun
      have hfade : ∀ e half, 0 ≤ bareRuntime.halved e half := fun _ _ => zero_le_one
      exact ⟨prev, c, rfl, hc, Option.some.inj hrun,
        published_in_range hfade (.merge .none hprev) (by decide) hc⟩

end CloudReports

end VlessCard
