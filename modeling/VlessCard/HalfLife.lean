/-
Exponential decay in rounded steps.

A quantity that halves in a fixed time is multiplied, at each of a list of times,
by the share that is left since the time before, and the product is rounded. An
error made at one time fades with the quantity itself, and what they all add up to
at the end is the *drift* of the run: the quantity is its exact decay plus the
drift. The drift is at most the error of one step times the *echo* of the times,
the sum of the shares that are left of each. A quantity that falls below a
threshold is dropped, and stays dropped.
-/
import Mathlib

set_option autoImplicit false

namespace VlessCard

namespace HalfLife

/-- What is left after a time, of a quantity that halves in `half`. -/
noncomputable def share (half elapsed : ℤ) : ℝ := (1 / 2 : ℝ) ^ ((elapsed : ℝ) / half)

theorem share_zero (half : ℤ) : share half 0 = 1 := by
  rw [share, Int.cast_zero, zero_div, Real.rpow_zero]

/-- What is left after two times is left of what was left after the first. -/
theorem share_add (half a b : ℤ) : share half (a + b) = share half a * share half b := by
  rw [share, share, share, ← Real.rpow_add (by norm_num), ← add_div, Int.cast_add]

theorem share_nonneg (half elapsed : ℤ) : 0 ≤ share half elapsed :=
  Real.rpow_nonneg (by norm_num) _

theorem share_le_one {half elapsed : ℤ} (hh : 0 < half) (he : 0 ≤ elapsed) :
    share half elapsed ≤ 1 := by
  apply Real.rpow_le_one (by norm_num) (by norm_num)
  have h1 : (0 : ℝ) ≤ elapsed := by exact_mod_cast he
  have h2 : (0 : ℝ) < half := by exact_mod_cast hh
  positivity

/-- A whole number of half-lives. -/
theorem share_mul {half : ℤ} (hh : half ≠ 0) (n : ℕ) : share half (n * half) = (1 / 2) ^ n := by
  have h : (half : ℝ) ≠ 0 := by exact_mod_cast hh
  rw [share, Int.cast_mul, mul_div_assoc, div_self h, mul_one, Int.cast_natCast, Real.rpow_natCast]

/-! ## The echo of a list of times

An error made at one time has faded at the end by the share for the time in between. The echo
adds these shares up, so it counts recent times in full and old ones hardly at all. -/

/-- The shares that are left of each time. -/
noncomputable def echo (half : ℤ) (ts : List ℤ) (now : ℤ) : ℝ :=
  (ts.map fun t => share half (now - t)).sum

/-- Without steps there is nothing to count. -/
theorem echo_nil (half now : ℤ) : echo half [] now = 0 := rfl

/-! ## Rounded steps

A step is given the time that has passed, and what it makes of a quantity is rounded. -/

section Steps

variable (step : ℤ → ℚ → ℚ) (half : ℤ) (threshold : ℚ)

/-- What is left of `w`, which there is at the time `since`, after steps at each of the times. -/
def left : ℤ → List ℤ → ℚ → ℚ
  | _, [], w => w
  | since, t :: ts, w => left t ts (step (t - since) w)

/-- Some step leaves less than the threshold. -/
def Falls : ℤ → List ℤ → ℚ → Prop
  | _, [], _ => False
  | since, t :: ts, w => step (t - since) w < threshold ∨ Falls t ts (step (t - since) w)

/-- What is left of `w` where whatever is below the threshold is dropped. -/
def kept : ℤ → List ℤ → ℚ → Option ℚ
  | _, [], w => some w
  | since, t :: ts, w =>
    if step (t - since) w < threshold then none else kept t ts (step (t - since) w)

/-- What the errors of the steps add up to at the time `now`: of each the share that is left. -/
noncomputable def drift (now : ℤ) : ℤ → List ℤ → ℚ → ℝ
  | _, [], _ => 0
  | since, t :: ts, w =>
    (step (t - since) w - w * share half (t - since)) * share half (now - t) +
      drift now t ts (step (t - since) w)

variable {step half threshold}

/-- What falls below the threshold on the way is dropped. -/
theorem kept_of_falls {ts : List ℤ} : ∀ {since : ℤ} {w : ℚ}, Falls step threshold since ts w →
    kept step threshold since ts w = none := by
  induction ts with
  | nil => exact fun h => absurd h id
  | cons t ts ih =>
    intro since w h
    rw [kept]
    by_cases hlt : step (t - since) w < threshold
    · rw [if_pos hlt]
    · rw [if_neg hlt]
      exact ih (h.resolve_left hlt)

/-- What does not is kept, as much as is left of it. -/
theorem kept_of_not_falls {ts : List ℤ} : ∀ {since : ℤ} {w : ℚ}, ¬ Falls step threshold since ts w →
    kept step threshold since ts w = some (left step since ts w) := by
  induction ts with
  | nil => exact fun _ => rfl
  | cons t ts ih =>
    intro since w h
    rw [Falls, not_or] at h
    rw [kept, if_neg h.1]
    exact ih h.2

/-- What has not fallen is not below the threshold. -/
theorem le_left {ts : List ℤ} {now : ℤ} : ∀ {since : ℤ} {w : ℚ},
    ¬ Falls step threshold since (ts ++ [now]) w → threshold ≤ left step since (ts ++ [now]) w := by
  induction ts with
  | nil => exact fun h => not_lt.mp fun hlt => h (.inl hlt)
  | cons t ts ih => exact fun h => ih fun hfalls => h (.inr hfalls)

variable (half) in
/-- **The drift of a run.** A run leaves what exact decay leaves, and its drift. -/
theorem left_eq {ts : List ℤ} {now : ℤ} : ∀ {since : ℤ} {w : ℚ},
    (left step since (ts ++ [now]) w : ℝ) =
      w * share half (now - since) + drift step half now since (ts ++ [now]) w := by
  induction ts with
  | nil =>
    intro since w
    show (step (now - since) w : ℝ) = w * share half (now - since) +
      ((step (now - since) w - w * share half (now - since)) * share half (now - now) + 0)
    rw [sub_self, share_zero]
    ring
  | cons t ts ih =>
    intro since w
    have hshare : share half (now - since) = share half (t - since) * share half (now - t) := by
      rw [← share_add]
      congr 1
      ring
    show (left step t (ts ++ [now]) (step (t - since) w) : ℝ) = w * share half (now - since) +
      ((step (t - since) w - w * share half (t - since)) * share half (now - t) +
        drift step half now t (ts ++ [now]) (step (t - since) w))
    rw [ih, hshare]
    ring

/-! ## Two runs to one time

Whether two runs end near each other is a matter of the drifts alone, because the exact decay is
the same for both. A quantity that is dropped in one run has to be dropped in the other, as the
threshold is far from zero. -/

variable (step half threshold) in
/-- Two runs to the same time are in step: the quantity falls below the threshold in both or
in neither, and if it stays their drifts are at most `d` apart. -/
def InStep (d : ℝ) (now since : ℤ) (ts ts' : List ℤ) (w : ℚ) : Prop :=
  (Falls step threshold since ts w ↔ Falls step threshold since ts' w) ∧
    (¬ Falls step threshold since ts w →
      |drift step half now since ts w - drift step half now since ts' w| ≤ d)

variable {d : ℝ} {now since : ℤ} {ts ts' : List ℤ} {w : ℚ}

variable (half) in
/-- What two runs leave is as far apart as their drifts. -/
theorem left_sub_left : (left step since (ts ++ [now]) w : ℝ) - left step since (ts' ++ [now]) w =
    drift step half now since (ts ++ [now]) w - drift step half now since (ts' ++ [now]) w := by
  rw [left_eq half, left_eq half, add_sub_add_left_eq_sub]

/-- Where a dropped quantity counts as zero, two runs end within `d` of each other exactly
when they are in step. -/
theorem inStep_iff (hd : 0 ≤ d) (hlt : d < threshold) :
    |((kept step threshold since (ts ++ [now]) w).getD 0 : ℝ)
      - ((kept step threshold since (ts' ++ [now]) w).getD 0 : ℚ)| ≤ d ↔
      InStep step half threshold d now since (ts ++ [now]) (ts' ++ [now]) w := by
  -- what is kept is not below the threshold, so not within `d` of zero
  have hfar {ts : List ℤ} (h : ¬ Falls step threshold since (ts ++ [now]) w) :
      d < |(left step since (ts ++ [now]) w : ℝ)| := by
    have hle : (threshold : ℝ) ≤ left step since (ts ++ [now]) w := Rat.cast_le.mpr (le_left h)
    exact (hlt.trans_le hle).trans_le (le_abs_self _)
  by_cases h : Falls step threshold since (ts ++ [now]) w
  · by_cases h' : Falls step threshold since (ts' ++ [now]) w
    · rw [kept_of_falls h, kept_of_falls h', sub_self, abs_zero]
      exact ⟨fun _ => ⟨iff_of_true h h', fun hn => absurd h hn⟩, fun _ => hd⟩
    · rw [kept_of_falls h, kept_of_not_falls h', Option.getD_none, Rat.cast_zero, zero_sub, abs_neg]
      exact ⟨fun hle => absurd (hfar h') (not_lt.mpr hle), fun hs => absurd (hs.1.mp h) h'⟩
  · by_cases h' : Falls step threshold since (ts' ++ [now]) w
    · rw [kept_of_not_falls h, kept_of_falls h', Option.getD_none, Rat.cast_zero, sub_zero]
      exact ⟨fun hle => absurd (hfar h) (not_lt.mpr hle), fun hs => absurd (hs.1.mpr h') h⟩
    · rw [kept_of_not_falls h, kept_of_not_falls h', Option.getD_some, Option.getD_some,
        left_sub_left half]
      exact ⟨fun hle => ⟨iff_of_false h h', fun _ => hle⟩, fun hs => hs.2 h⟩

/-! ## A bound for the drift

With a bound for the error of one step the drift is bounded by the echo. This is a condition on
the times alone, and enough for two runs to be in step unless the quantity ends near its
threshold. -/

variable (step half) in
/-- Every step of a run is at most `unit` off, for quantities of which `p` holds, as it does
after every step. -/
def Within (p : ℚ → Prop) (unit : ℝ) (since : ℤ) (ts : List ℤ) : Prop :=
  ∀ s ∈ since :: ts, ∀ t ∈ ts, s ≤ t → ∀ w, p w →
    |(step (t - s) w : ℝ) - w * share half (t - s)| ≤ unit ∧ p (step (t - s) w)

variable {p : ℚ → Prop} {unit : ℝ}

/-- The later steps are within the unit as well. -/
theorem Within.tail {t : ℤ} (h : Within step half p unit since (t :: ts)) : Within step half p unit t ts :=
  fun s hs t' ht' => h s (List.mem_cons_of_mem _ hs) t' (List.mem_cons_of_mem _ ht')

/-- Each step counts by what has faded of it since. -/
theorem echo_cons (half t now : ℤ) (ts : List ℤ) : echo half (t :: ts) now = share half (now - t) + echo half ts now :=
  rfl

theorem echo_nonneg (half : ℤ) (ts : List ℤ) (now : ℤ) : 0 ≤ echo half ts now := by
  refine List.sum_nonneg fun x hx => ?_
  obtain ⟨t, -, rfl⟩ := List.mem_map.mp hx
  exact share_nonneg _ _

/-- The drift is at most the error of a step times the echo. -/
theorem abs_drift_le (now : ℤ) {ts : List ℤ} : ∀ {since : ℤ} {w : ℚ}, (since :: ts).Pairwise (· ≤ ·) →
    Within step half p unit since ts → p w →
      |drift step half now since ts w| ≤ unit * echo half ts now := by
  induction ts with
  | nil =>
    intro since w _ _ _
    show |(0 : ℝ)| ≤ unit * 0
    rw [abs_zero, mul_zero]
  | cons t ts ih =>
    intro since w hsorted h hw
    have hle := List.rel_of_pairwise_cons hsorted (List.mem_cons_self ..)
    obtain ⟨herr, hw'⟩ := h since (List.mem_cons_self ..) t (List.mem_cons_self ..) hle w hw
    have hrest := ih (List.pairwise_cons.mp hsorted).2 h.tail hw'
    have hfirst : |((step (t - since) w : ℝ) - w * share half (t - since)) * share half (now - t)|
        ≤ unit * share half (now - t) := by
      rw [abs_mul, abs_of_nonneg (share_nonneg _ _)]
      exact mul_le_mul_of_nonneg_right herr (share_nonneg _ _)
    rw [drift, echo_cons, mul_add]
    exact (abs_add_le _ _).trans (add_le_add hfirst hrest)

/-- A quantity that falls is at the end no further above the threshold than the echo allows. -/
theorem le_of_falls (hh : 0 < half) (ht : 0 ≤ threshold) (hu : 0 ≤ unit) {ts : List ℤ} :
    ∀ {since : ℤ} {w : ℚ}, (since :: ts).Pairwise (· ≤ ·) → (∀ t ∈ ts, t ≤ now) →
      Within step half p unit since ts → p w → Falls step threshold since ts w →
        (w : ℝ) * share half (now - since) ≤ threshold + unit * echo half ts now := by
  induction ts with
  | nil => exact fun _ _ _ _ h => absurd h id
  | cons t ts ih =>
    intro since w hsorted hnow h hw hfalls
    have hle := List.rel_of_pairwise_cons hsorted (List.mem_cons_self ..)
    obtain ⟨herr, hw'⟩ := h since (List.mem_cons_self ..) t (List.mem_cons_self ..) hle w hw
    rw [List.forall_mem_cons] at hnow
    have hl0 : 0 ≤ share half (now - t) := share_nonneg _ _
    have hl1 : share half (now - t) ≤ 1 := share_le_one hh (by omega)
    have hshare : share half (now - since) = share half (t - since) * share half (now - t) := by
      rw [← share_add]
      congr 1
      ring
    -- the exact quantity, against that of the step
    have hexact : (w : ℝ) * share half (now - since)
        ≤ step (t - since) w * share half (now - t) + unit * share half (now - t) := by
      rw [hshare, ← mul_assoc, ← add_mul]
      refine mul_le_mul_of_nonneg_right ?_ hl0
      linarith [(abs_le.mp herr).1]
    rw [echo_cons, mul_add]
    rcases hfalls with hlt | hfalls
    · have hthr : (step (t - since) w : ℝ) * share half (now - t) ≤ threshold := by
        have hlt' : (step (t - since) w : ℝ) ≤ threshold := Rat.cast_le.mpr hlt.le
        have ht' : (0 : ℝ) ≤ threshold := by exact_mod_cast ht
        exact (mul_le_mul_of_nonneg_right hlt' hl0).trans (mul_le_of_le_one_right ht' hl1)
      have hecho : 0 ≤ unit * echo half ts now := mul_nonneg hu (echo_nonneg _ _ _)
      linarith
    · have hrest := ih (List.pairwise_cons.mp hsorted).2 hnow.2 h.tail hw' hfalls
      linarith

/-- Runs with short echoes are in step, unless the exact quantity ends near the threshold. -/
theorem inStep_of_echo (hh : 0 < half) (ht : 0 ≤ threshold) (hu : 0 ≤ unit)
    (hs : (since :: (ts ++ [now])).Pairwise (· ≤ ·)) (hs' : (since :: (ts' ++ [now])).Pairwise (· ≤ ·))
    (h : Within step half p unit since (ts ++ [now])) (h' : Within step half p unit since (ts' ++ [now]))
    (hw : p w) (hd : unit * echo half (ts ++ [now]) now + unit * echo half (ts' ++ [now]) now ≤ d)
    (hfar : unit * echo half (ts ++ [now]) now < |(w : ℝ) * share half (now - since) - threshold|)
    (hfar' : unit * echo half (ts' ++ [now]) now < |(w : ℝ) * share half (now - since) - threshold|) :
    InStep step half threshold d now since (ts ++ [now]) (ts' ++ [now]) w := by
  have hlast {ts : List ℤ} (hs : (since :: (ts ++ [now])).Pairwise (· ≤ ·)) : ∀ t ∈ ts ++ [now], t ≤ now := by
    intro t ht
    rcases List.mem_append.mp ht with ht | ht
    · exact (List.pairwise_append.mp (List.pairwise_cons.mp hs).2).2.2 t ht now (List.mem_singleton_self now)
    · exact (List.mem_singleton.mp ht).le
  -- on which side of the threshold the weight is, is told by its exact share
  have hside {ts : List ℤ} (hs : (since :: (ts ++ [now])).Pairwise (· ≤ ·))
      (h : Within step half p unit since (ts ++ [now]))
      (hfar : unit * echo half (ts ++ [now]) now < |(w : ℝ) * share half (now - since) - threshold|) :
      Falls step threshold since (ts ++ [now]) w ↔ (w : ℝ) * share half (now - since) < threshold := by
    constructor
    · intro hfalls
      have hle := le_of_falls hh ht hu hs (hlast hs) h hw hfalls
      by_contra hge
      rw [abs_of_nonneg (by linarith)] at hfar
      linarith
    · intro hlt
      by_contra hstay
      have hle : (threshold : ℝ) ≤ left step since (ts ++ [now]) w := Rat.cast_le.mpr (le_left hstay)
      rw [left_eq half] at hle
      have hdrift := (abs_le.mp (abs_drift_le now hs h hw)).2
      rw [abs_of_neg (by linarith)] at hfar
      linarith
  refine ⟨(hside hs h hfar).trans (hside hs' h' hfar').symm, fun _ => ?_⟩
  -- both are off by their own echo, and this is little enough
  have hdrift := abs_drift_le now hs h hw
  have hdrift' := abs_drift_le now hs' h' hw
  exact (abs_sub _ _).trans ((add_le_add hdrift hdrift').trans hd)

end Steps

end HalfLife

end VlessCard
