/-
A restart of the app: what was learned about the servers is read back from what
was saved (`Server.kt`, `RouteEvidence.kt`, `ServerChoice.kt`,
`AutoEligibility.kt`, `Store.kt`).

A result is written without what the reader would not use: a speed without its
time, a service check without its time. So a result read back need not be equal
to the one that was saved; it is equal in everything the app asks of it.
-/
import VlessCard.StoreUpdates
import Mathlib.Tactic.Linarith

set_option autoImplicit false

namespace VlessCard

/-! ## Evidence about a route

Evidence about a route is a handful of counters, each with a bound. An observation keeps them in
their bounds, which is what the reader checks. -/

/-- `a.coerceAtMost(b)`. -/
def coerceAtMost (a b : Int32) : Int32 := if a ≤ b then a else b

/-- Sums of `Int`s that stay in range are exact. -/
theorem toInt_add_of_range {x y : Int32} (h : -2 ^ 31 ≤ x.toInt + y.toInt ∧ x.toInt + y.toInt < 2 ^ 31) :
    (x + y).toInt = x.toInt + y.toInt := by
  rw [Int32.toInt_add]
  apply Int.bmod_eq_of_le
  · omega
  · omega

/-- Among small numbers the bound is the least of two. -/
theorem toInt_coerceAtMost (a b : Int32) : (coerceAtMost a b).toInt = min a.toInt b.toInt := by
  rw [coerceAtMost]
  by_cases h : a ≤ b
  · rw [if_pos h, min_eq_left (Int32.le_iff_toInt_le.mp h)]
  · rw [if_neg h, min_eq_right (by have := Int32.lt_iff_toInt_lt.mp (Int32.not_le.mp h); omega)]

namespace RouteEvidence

/-- One more observation, successful or not, after `ms` milliseconds. -/
def observe (e : RouteEvidence) (ok : Bool) (ms : Int32) (now : Int64) : RouteEvidence :=
  let sample : ℚ := if ok then 1 else 0
  let t : ℚ := ms.toInt
  { checks := coerceAtMost (e.checks + 1) 1000000
    successes := coerceAtMost (e.successes + if ok then 1 else 0) 1000000
    ema := e.ema * (65 / 100) + sample * (35 / 100)
    latency :=
      if !ok then e.latency
      else if e.latency ≤ 0 then t else e.latency * (65 / 100) + t * (35 / 100)
    jitter :=
      if !ok || e.latency ≤ 0 then e.jitter
      else e.jitter * (65 / 100) + |t - e.latency| * (35 / 100)
    streak := if ok then 0 else coerceAtMost (e.streak + 1) 3
    updated := now }

/-- Evidence made of observations: every time is a minute at most. -/
inductive Observed : RouteEvidence → Prop where
  | start : Observed {}
  | observe {e : RouteEvidence} (ok : Bool) {ms : Int32} {now : Int64} (hms : 0 ≤ ms)
      (hmax : ms ≤ 60000) (hnow : 0 ≤ now) (he : Observed e) : Observed (e.observe ok ms now)

/-- What `parse` requires of the evidence it reads. -/
structure InRange (e : RouteEvidence) : Prop where
  checks : 0 ≤ e.checks ∧ e.checks ≤ 1000000
  successes : 0 ≤ e.successes ∧ e.successes ≤ e.checks
  ema : 0 ≤ e.ema ∧ e.ema ≤ 1
  latency : 0 ≤ e.latency ∧ e.latency ≤ 60000
  jitter : 0 ≤ e.jitter ∧ e.jitter ≤ 60000
  streak : 0 ≤ e.streak ∧ e.streak ≤ 3
  updated : 0 ≤ e.updated

/-- A convex mean of two values stays in the range of both. -/
theorem mean_range {a b m : ℚ} (ha : 0 ≤ a ∧ a ≤ m) (hb : 0 ≤ b ∧ b ≤ m) :
    0 ≤ a * (65 / 100) + b * (35 / 100) ∧ a * (65 / 100) + b * (35 / 100) ≤ m := by
  constructor
  · linarith [ha.1, hb.1]
  · linarith [ha.2, hb.2]

/-- Two counters that stop at one bound keep their order. -/
theorem counters_range {a b d : Int32} (ha : 0 ≤ a ∧ a ≤ 1000000) (hb : 0 ≤ b ∧ b ≤ a)
    (hd : 0 ≤ d ∧ d ≤ 1) :
    (0 ≤ coerceAtMost (a + 1) 1000000 ∧ coerceAtMost (a + 1) 1000000 ≤ 1000000) ∧
      0 ≤ coerceAtMost (b + d) 1000000 ∧
      coerceAtMost (b + d) 1000000 ≤ coerceAtMost (a + 1) 1000000 := by
  -- no counter comes near the end of its type
  have hpos : 0 ≤ b + d := by grind
  have hle : b + d ≤ a + 1 := by grind
  unfold coerceAtMost
  constructor
  · split <;> grind
  · split <;> split <;> grind

/-- A streak stays between nothing and three. -/
theorem streak_range {a : Int32} (ha : 0 ≤ a ∧ a ≤ 3) :
    0 ≤ coerceAtMost (a + 1) 3 ∧ coerceAtMost (a + 1) 3 ≤ 3 := by
  unfold coerceAtMost
  grind

/-- A time of a minute at most, as a number. -/
theorem ms_range {ms : Int32} (hms : 0 ≤ ms) (hmax : ms ≤ 60000) :
    (0 : ℚ) ≤ ms.toInt ∧ (ms.toInt : ℚ) ≤ 60000 := by
  have h0 : 0 ≤ ms.toInt := Int32.le_iff_toInt_le.mp hms
  have h1 : ms.toInt ≤ 60000 := Int32.le_iff_toInt_le.mp hmax
  exact ⟨by exact_mod_cast h0, by exact_mod_cast h1⟩

/-- One observation keeps the evidence in range. -/
theorem observe_inRange {e : RouteEvidence} (h : InRange e) (ok : Bool) {ms : Int32} {now : Int64}
    (hms : 0 ≤ ms) (hmax : ms ≤ 60000) (hnow : 0 ≤ now) : InRange (e.observe ok ms now) := by
  have ht := ms_range hms hmax
  -- the difference to the average is no larger than a minute
  have hdiff : 0 ≤ |(ms.toInt : ℚ) - e.latency| ∧ |(ms.toInt : ℚ) - e.latency| ≤ 60000 := by
    refine ⟨abs_nonneg _, abs_le.mpr ?_⟩
    constructor
    · linarith [ht.1, h.latency.2]
    · linarith [ht.2, h.latency.1]
  -- the counters are halved before they grow too large
  have hcount := counters_range h.checks h.successes (d := if ok then 1 else 0) (by split <;> decide)
  constructor
  · exact hcount.1
  · exact hcount.2
  -- each average stays between what it averages
  · apply mean_range h.ema
    split <;> norm_num
  · show 0 ≤ (if !ok then _ else if e.latency ≤ 0 then _ else _) ∧ _ ≤ _
    rw [observe]
    dsimp only
    split
    · exact h.latency
    · split
      · exact ht
      · exact mean_range h.latency ht
  · rw [observe]
    dsimp only
    split
    · exact h.jitter
    · exact mean_range h.jitter hdiff
  · rw [observe]
    dsimp only
    split
    · decide
    · exact streak_range h.streak
  · exact hnow

/-- Observed evidence is in range, however many observations made it. -/
theorem inRange_of_observed {e : RouteEvidence} (h : Observed e) : InRange e := by
  induction h with
  | start => exact ⟨by decide, by decide, by norm_num, by norm_num, by norm_num, by decide, by decide⟩
  | observe ok hms hmax hnow _ ih => exact observe_inRange ih ok hms hmax hnow

/-- Evidence in range is read back as it was written. -/
theorem parse_toJson (J : OrgJson) {e : RouteEvidence} (h : InRange e) :
    parse J e.toJson = some e := by
  have h₁ : 0 ≤ e.checks ∧ e.checks ≤ 1000000 ∧ 0 ≤ e.successes ∧ e.successes ≤ e.checks
      ∧ 0 ≤ e.ema ∧ e.ema ≤ 1 := ⟨h.checks.1, h.checks.2, h.successes.1, h.successes.2, h.ema⟩
  have h₂ : 0 ≤ e.latency ∧ e.latency ≤ 60000 ∧ 0 ≤ e.jitter ∧ e.jitter ≤ 60000
      ∧ 0 ≤ e.streak ∧ e.streak ≤ 3 ∧ 0 ≤ e.updated :=
    ⟨h.latency.1, h.latency.2, h.jitter.1, h.jitter.2, h.streak.1, h.streak.2, h.updated⟩
  simp only [parse, toJson, JsonObject.getInt, JsonObject.getLong, JsonObject.getDouble,
    JsonObject.get?_put, String.reduceEq, if_true, if_false, Option.bind_some, Json.asInt_int,
    Json.asLong_int, Json.asNumber, Int32.ofInt_toInt, Int64.ofInt_toInt, Option.bind_eq_bind,
    h₁, h₂, and_self, guard_true, Option.pure_def]

/-! ## Runs of observations

A run of observations is a list, and the counters are read off it: the streak is the number of
failures since the last success, up to three. -/

/-- The evidence after observations `(ok, ms, now)`, from none. -/
def observed (calls : List (Bool × Int32 × Int64)) : RouteEvidence :=
  calls.foldl (fun e o => e.observe o.1 o.2.1 o.2.2) {}

/-- The calls since the last success. -/
def failures (calls : List (Bool × Int32 × Int64)) : ℕ := (calls.reverse.takeWhile fun o => !o.1).length

/-- One more call is observed after the others. -/
theorem observed_append_singleton (calls : List (Bool × Int32 × Int64)) (o : Bool × Int32 × Int64) :
    observed (calls ++ [o]) = (observed calls).observe o.1 o.2.1 o.2.2 := by
  unfold observed
  rw [List.foldl_append]
  rfl

/-- A success ends the streak of failures, and a failure makes it longer. -/
theorem failures_append_singleton (calls : List (Bool × Int32 × Int64)) (o : Bool × Int32 × Int64) :
    failures (calls ++ [o]) = if o.1 then 0 else failures calls + 1 := by
  unfold failures
  rw [List.reverse_append, List.reverse_singleton, List.singleton_append, List.takeWhile_cons]
  cases o.1 <;> rfl

/-- What each call is made with. -/
def Timed (calls : List (Bool × Int32 × Int64)) : Prop := ∀ o ∈ calls, 0 ≤ o.2.1 ∧ o.2.1 ≤ 60000 ∧ 0 ≤ o.2.2

/-- What was observed is a state that can be. -/
theorem observed_observed {calls : List (Bool × Int32 × Int64)} (h : Timed calls) : Observed (observed calls) := by
  induction calls using List.reverseRecOn with
  | nil => exact .start
  | append_singleton calls o ih =>
    obtain ⟨hms, hmax, hnow⟩ := h o (List.mem_append_right calls List.mem_cons_self)
    rw [observed_append_singleton]
    exact .observe o.1 hms hmax hnow (ih fun p hp => h p (List.mem_append_left [o] hp))

/-- The streak counts the failures, up to three. -/
theorem toInt_streak (calls : List (Bool × Int32 × Int64)) :
    (observed calls).streak.toInt = min 3 (failures calls : ℤ) := by
  induction calls using List.reverseRecOn with
  | nil => decide
  | append_singleton calls o ih =>
    rw [observed_append_singleton, failures_append_singleton]
    unfold observe
    dsimp only
    cases o.1 with
    | true => rfl
    | false =>
      have hadd : ((observed calls).streak + 1).toInt = (observed calls).streak.toInt + 1 := by
        have hone : (1 : Int32).toInt = 1 := by decide
        have hrange : -2 ^ 31 ≤ (observed calls).streak.toInt + (1 : Int32).toInt ∧
            (observed calls).streak.toInt + (1 : Int32).toInt < 2 ^ 31 := by
          rw [ih, hone]
          omega
        rw [toInt_add_of_range hrange, hone]
      rw [if_neg (by decide), if_neg (by decide), toInt_coerceAtMost, hadd, ih]
      push_cast
      omega

/-- **Route evidence is always read back.** After observations in any number the counters are in
order and at their bounds at most, the means are in range, the streak counts the failures since the
last success, up to three, and what is saved is read as it was. -/
theorem observed_reloads (J : OrgJson) (calls : List (Bool × Int32 × Int64))
    (h : ∀ o ∈ calls, 0 ≤ o.2.1 ∧ o.2.1 ≤ 60000 ∧ 0 ≤ o.2.2) :
    (0 ≤ (observed calls).successes ∧ (observed calls).successes ≤ (observed calls).checks ∧
        (observed calls).checks ≤ 1000000) ∧
      (0 ≤ (observed calls).ema ∧ (observed calls).ema ≤ 1) ∧
      (0 ≤ (observed calls).latency ∧ (observed calls).latency ≤ 60000) ∧
      (0 ≤ (observed calls).jitter ∧ (observed calls).jitter ≤ 60000) ∧
      (0 ≤ (observed calls).streak ∧ (observed calls).streak ≤ 3 ∧
        (observed calls).streak.toInt = min 3 ((calls.reverse.takeWhile fun o => !o.1).length : ℤ)) ∧
      parse J (observed calls).toJson = some (observed calls) := by
  have hrange := inRange_of_observed (observed_observed h)
  refine ⟨⟨hrange.successes.1, hrange.successes.2, hrange.checks.2⟩, hrange.ema, hrange.latency, hrange.jitter,
    ⟨hrange.streak.1, hrange.streak.2, toInt_streak calls⟩, parse_toJson J hrange⟩

/-- A success and two failures. -/
theorem observed_reloads_two : (observed [(true, 90, 5), (false, 0, 6), (false, 60000, 7)]).streak.toInt = 2 := by
  refine (observed_reloads JsonText.library [(true, 90, 5), (false, 0, 6), (false, 60000, 7)] ?_).2.2.2.2.1.2.2
  intro o ho
  simp only [List.mem_cons, List.not_mem_nil, or_false] at ho
  rcases ho with rfl | rfl | rfl
  · decide
  · decide
  · decide

end RouteEvidence

/-! ## What is asked of a result

These are the questions the app asks of a result: whether it works, what it costs, which mask
belongs to a network. Two results that answer all of them alike are not told apart. -/

namespace ServerState

def works (s : ServerState) : Bool := 0 < s.realMs && s.bigOk ≠ some false

/-- Slow downloads cost milliseconds; an unknown speed is no proof of speed. -/
def speedPenalty (kbps : Int32) : Int32 :=
  if kbps ≤ 0 then 5000 else coerceAtMost (4000000 / kbps) 6000

/-- Rank for the fastest server: lower is better. -/
def score (s : ServerState) : Int32 :=
  if !s.works then Int32.maxValue
  else s.realMs + speedPenalty s.kbps + if s.ytOk = some false then 700 else 0

def maskFor (s : ServerState) (network : String) : String :=
  ((s.netMasks.get? network).or
    (s.netMasks.get? (Text.substringBeforeStr network " · "))).getD s.maskId

def evidenceFor (s : ServerState) (network : String) : RouteEvidence :=
  (s.netEvidence.get? (network ++ "|" ++ s.maskFor network)).getD {}

end ServerState

namespace ServerChoice

/-- A throughput sample applies only to its network, mask and recent window. -/
def measuredSpeed (s : ServerState) (net : String) (now : Int64) : Int32 :=
  if 0 < s.kbps ∧ s.speedNetwork = net ∧ s.speedMask = s.maskFor net ∧ 0 < s.speedCheckedAt ∧
      s.speedCheckedAt ≤ now ∧ now - s.speedCheckedAt ≤ 30 * 60000 then s.kbps else 0

end ServerChoice

namespace AutoEligibility

def serviceRank (s : ServerState) (net : String) (now : Int64) : ℕ :=
  if s.serviceNetwork ≠ net ∨ s.serviceMask ≠ s.maskFor net ∨ s.serviceCheckedAt ≤ 0 ∨
      now < s.serviceCheckedAt ∨ now - s.serviceCheckedAt > 5 * 60000 then 1
  else if s.ytOk = some false ∨ s.tgOk = some false then 2
  else if s.ytOk = some true ∧ s.tgOk = some true then 0 else 1

end AutoEligibility

/-! ## A result written and read

The writer leaves out what has its default, and the reader drops a speed or a check without its
time. What is read back is the result without these. -/

namespace ServerState

/-- The result the reader makes: a speed or a service check without its time is
dropped, and a negative speed is none. -/
def kept (s : ServerState) : ServerState :=
  { s with
    kbps := if 0 < s.kbps then s.kbps else 0
    serviceNetwork := if 0 < s.serviceCheckedAt then s.serviceNetwork else ""
    serviceMask := if 0 < s.serviceCheckedAt then s.serviceMask else ""
    serviceCheckedAt := if 0 < s.serviceCheckedAt then s.serviceCheckedAt else 0
    speedNetwork := if 0 < s.speedCheckedAt then s.speedNetwork else ""
    speedMask := if 0 < s.speedCheckedAt then s.speedMask else ""
    speedCheckedAt := if 0 < s.speedCheckedAt then s.speedCheckedAt else 0 }

/-- Two results that no question of the app tells apart. -/
structure Alike (a b : ServerState) : Prop where
  selected : a.selected = b.selected
  works : a.works = b.works
  score : a.score = b.score
  maskFor : ∀ net, a.maskFor net = b.maskFor net
  goodMasks : a.goodMasks = b.goodMasks
  evidenceFor : ∀ net, a.evidenceFor net = b.evidenceFor net
  measuredSpeed : ∀ net now, ServerChoice.measuredSpeed a net now = ServerChoice.measuredSpeed b net now
  serviceRank : ∀ net now, AutoEligibility.serviceRank a net now = AutoEligibility.serviceRank b net now

/-- A speed that is stored costs what it did. -/
theorem speedPenalty_kept (k : Int32) : speedPenalty (if 0 < k then k else 0) = speedPenalty k := by
  by_cases hk : 0 < k
  · rw [if_pos hk]
  · rw [if_neg hk, speedPenalty, speedPenalty, if_pos (by decide), if_pos (Int32.not_lt.mp hk)]

/-- What is dropped answers no question. -/
theorem kept_alike (s : ServerState) : Alike s.kept s := by
  have hmask (net : String) : s.kept.maskFor net = s.maskFor net := rfl
  constructor
  · rfl
  · rfl
  · show (if !s.works then _ else s.realMs + speedPenalty (if 0 < s.kbps then s.kbps else 0) + _) = _
    rw [speedPenalty_kept]
    rfl
  · exact hmask
  · rfl
  · intro net
    rfl
  · intro net now
    unfold ServerChoice.measuredSpeed
    rw [hmask]
    by_cases hk : 0 < s.kbps
    · by_cases ht : 0 < s.speedCheckedAt
      · simp only [kept, hk, ht, if_true]
      · simp only [kept, ht, if_false, Int64.lt_irrefl, false_and, and_false]
    · simp only [kept, hk, if_false, Int32.lt_irrefl, false_and]
  · intro net now
    unfold AutoEligibility.serviceRank
    rw [hmask]
    by_cases ht : 0 < s.serviceCheckedAt
    · simp only [kept, ht, if_true]
    · have hle : s.serviceCheckedAt ≤ 0 := Int64.not_lt.mp ht
      simp only [kept, ht, if_false, Int64.le_refl, hle, true_or, or_true, if_true]

section
variable (J : OrgJson)

/-- Evidence that one result may hold: eight observed routes at most. -/
def Evident (s : ServerState) : Prop :=
  s.netEvidence.entries.length ≤ 8 ∧ ∀ e ∈ s.netEvidence.entries, RouteEvidence.Observed e.2

theorem get?_putBool? (o : JsonObject) (k k' : String) (v : Option Bool) :
    (putBool? o k v).get? k' = if k = k' then (v.map Json.bool).or (o.get? k') else o.get? k' := by
  cases v with
  | none => exact (ite_self _).symm
  | some b => exact JsonObject.get?_put o k k' (.bool b)

/-- The evidence object, read entry by entry, is the evidence. -/
theorem netEvidence_restored {s : ServerState} (h : Evident s) :
    OrderedMap.ofList (((s.netEvidence.toJson fun e => .obj e.toJson).take 8).filterMap fun e =>
      (e.2.asObject.bind (RouteEvidence.parse J)).map fun v => (e.1, v)) = s.netEvidence := by
  have hread : ∀ e ∈ s.netEvidence.entries,
      ((Json.obj e.2.toJson).asObject.bind (RouteEvidence.parse J)).map (fun v => (e.1, v))
        = some e := by
    intro e he
    rw [Json.asObject_obj, Option.bind_some,
      RouteEvidence.parse_toJson J (RouteEvidence.inRange_of_observed (h.2 e he))]
    rfl
  have hlist : ((s.netEvidence.toJson fun e => .obj e.toJson).take 8).filterMap
      (fun e => (e.2.asObject.bind (RouteEvidence.parse J)).map fun v => (e.1, v))
        = s.netEvidence.entries := by
    rw [OrderedMap.toJson_eq, List.take_of_length_le (by rw [List.length_map]; exact h.1),
      List.filterMap_map]
    exact (List.filterMap_congr hread).trans List.filterMap_some
  rw [hlist, OrderedMap.ofList_entries]

/-- A value written when it is not the reader's default is read back. -/
theorem value_or_default {α : Type} (c : Prop) [Decidable c] (v : Json) (f : Json → Option α) (d : α) :
    ((if c then some v else none).bind f).getD d = if c then (f v).getD d else d := by
  split <;> rfl

/-- A text that is written where it is there is read back. -/
theorem text_if (c : Prop) [Decidable c] (v : String) :
    ((if c then some (Json.str v) else none).map (Json.asString J)).getD "" = if c then v else "" := by
  split <;> rfl

theorem bool_restored (b : Option Bool) :
    (if (b.map Json.bool).isSome = true
      then some (((b.map Json.bool).bind (Json.asBool J)).getD false) else none) = b := by
  cases b <;> rfl

/-- **A result read back is the result without what was not written.** -/
theorem fromJson_toJson {s : ServerState} (h : Evident s) : fromJson J s.toJson = s.kept := by
  have hsel : ((if s.selected = true then some (Json.bool true) else none).bind
      (Json.asBool J)).getD false = s.selected := by
    cases s.selected <;> rfl
  simp only [fromJson, toJson, bool?, JsonObject.has, JsonObject.optString, JsonObject.optBoolean,
    JsonObject.optInt, JsonObject.optLong, JsonObject.optJSONArray, JsonObject.optJSONObject,
    Server.get?_ite, get?_putBool?, JsonObject.get?_put, JsonObject.get?_empty, String.reduceEq,
    if_true, if_false, ite_self, Option.or_none, Option.bind_some, Option.getD_some,
    Json.asInt_int, Json.asLong_int, Int32.ofInt_toInt, Int64.ofInt_toInt, kept, value_or_default,
    text_if, bool_restored, Server.text_or_default, hsel]
  -- the three collections remain; an empty one was not written
  congr 1
  · by_cases hg : s.goodMasks = []
    · rw [if_pos hg, hg]
      rfl
    · rw [if_neg hg]
      exact Option.some.inj (Json.asArray_strings J s.goodMasks)
  · by_cases hm : s.netMasks.entries = []
    · rw [if_pos hm]
      exact OrderedMap.ext_entries hm.symm
    · rw [if_neg hm]
      exact OrderedMap.ofJson_toJson (Json.asString_str J) s.netMasks
  · by_cases he : s.netEvidence.entries = []
    · rw [if_pos he]
      exact OrderedMap.ext_entries he.symm
    · rw [if_neg he]
      exact netEvidence_restored J h

end

end ServerState

/-! ## A saved state

A state is saved with its servers, and results of servers that are not listed are left out. For a
listed one the result is what was kept of it. -/

namespace Store

section
variable (J : OrgJson) (U : Jvm)

/-- A written map is read when every value of it is. -/
theorem readEntries_eq {α β : Type} {f : Json → Option α} {g : β → Json} {h : β → α}
    {m : OrderedMap String β} (hf : ∀ e ∈ m.entries, f (g e.2) = some (h e.2)) :
    readEntries f (m.toJson g) = some (m.mapValues h).entries := by
  have key : ∀ es : List (String × β), (∀ e ∈ es, f (g e.2) = some (h e.2)) →
      (es.map fun e => (e.1, g e.2)).mapM (fun e => (f e.2).map fun v => (e.1, v))
        = some (es.map fun e => (e.1, h e.2)) := by
    intro es
    induction es with
    | nil => intro _; rfl
    | cons e es ih =>
      intro hes
      rw [List.map_cons, List.mapM_cons, hes e (List.mem_cons_self ..),
        ih fun e' he' => hes e' (List.mem_cons_of_mem _ he')]
      rfl
  rw [readEntries, OrderedMap.toJson_eq]
  exact key m.entries hf

theorem decodeStat_encoded (v : MaskStat) :
    decodeStat J (.arr [.int v.ok.toInt, .int v.fail.toInt]) = some v := by
  simp [decodeStat]

theorem stats_restored (m : OrderedMap String MaskStat) :
    (readEntries (decodeStat J) (encodeStats m)).map OrderedMap.ofList = some m := by
  rw [encodeStats, readEntries_eq (h := id) fun e _ => decodeStat_encoded J e.2, Option.map_some,
    OrderedMap.mapValues_id, OrderedMap.ofList_entries]

/-- What a restart makes of a state: its servers and statistics, and for every
listed server the part of its result that was written. -/
theorem decode_encode_kept {st : AppState}
    (ha : ∀ s ∈ st.servers, AutoEligibility.allowed U s = true)
    (hm : ∀ s ∈ st.servers, 0 ≤ s.mtu)
    (he : ∀ e ∈ st.states.entries, e.2.Evident) :
    ∃ st', decode J U (encode U st) = some st' ∧ st'.servers = st.servers ∧
      st'.maskStats = st.maskStats ∧
      st'.states = (st.states.filterKeys fun k => k ∈ st.ids U).mapValues ServerState.kept := by
  have hservers : (st.servers.map fun s => { s with mtu := if 0 < s.mtu then s.mtu else 0 })
      = st.servers := by
    refine (List.map_congr_left ?_).trans (List.map_id st.servers)
    intro s hs
    by_cases hpos : 0 < s.mtu
    · rw [if_pos hpos]
      rfl
    · have hzero : s.mtu = 0 := Int32.le_antisymm (Int32.not_lt.mp hpos) (hm s hs)
      rw [if_neg hpos, ← hzero]
      rfl
  have hstates : readEntries (fun v => v.asObject.map (ServerState.fromJson J))
      ((st.states.filterKeys fun k => k ∈ st.ids U).toJson fun v => .obj v.toJson)
        = some ((st.states.filterKeys fun k => k ∈ st.ids U).mapValues ServerState.kept).entries := by
    refine readEntries_eq fun e hmem => ?_
    rw [Json.asObject_obj, Option.map_some,
      ServerState.fromJson_toJson J (he e (List.mem_filter.mp hmem).1)]
  have hstats : readEntries (fun v => v.asObject.bind fun m =>
      (readEntries (decodeStat J) m).map OrderedMap.ofList)
      (st.maskStats.toJson fun m => .obj (encodeStats m)) = some (st.maskStats.mapValues id).entries := by
    refine readEntries_eq fun e _ => ?_
    rw [Json.asObject_obj, Option.bind_some, stats_restored, id]
  refine ⟨⟨st.servers, (st.states.filterKeys fun k => k ∈ st.ids U).mapValues ServerState.kept,
    Settings.migrate (Settings.fromJson J st.settings.toJson), st.maskStats⟩, ?_, rfl, rfl, rfl⟩
  rw [AppState.ids] at hstates
  simp only [decode, encode, JsonObject.optJSONArray, JsonObject.optJSONObject,
    JsonObject.get?_put, String.reduceEq, if_true, if_false, Option.bind_some,
    Json.asArray_arr, Json.asObject_obj, Option.getD_some, servers_restored, hservers, hstates,
    hstats, Option.bind_eq_bind, Option.pure_def, OrderedMap.ofList_entries, OrderedMap.mapValues_id]
  -- every server is allowed, so cleaning changes nothing
  exact congrArg some (AutoEligibility.clean_of_allowed U ha)

/-- The result of a listed server after a restart. -/
theorem state_restored {st st' : AppState} {s : Server} (hs : s ∈ st.servers)
    (h : st'.states = (st.states.filterKeys fun k => k ∈ st.ids U).mapValues ServerState.kept) :
    (st'.state U s).Alike (st.state U s) := by
  have hid : s.id U ∈ st.ids U := List.mem_map_of_mem hs
  rw [AppState.state, AppState.state, h, OrderedMap.get?_mapValues, OrderedMap.get?_filterKeys,
    if_pos (decide_eq_true hid)]
  cases st.states.get? (s.id U) with
  | none => exact ServerState.kept_alike {}
  | some v => exact ServerState.kept_alike v

/-- **A restart preserves what was learned about servers.** The saved state reads
back with the same servers, field by field, and the same mask statistics; and of
every listed server, on every network and at every time, the app gets the same
answers as before. -/
theorem restart_preserves (st : AppState)
    (ha : ∀ s ∈ st.servers, AutoEligibility.allowed U s = true)
    (hm : ∀ s ∈ st.servers, 0 ≤ s.mtu)
    (he : ∀ e ∈ st.states.entries, e.2.Evident) :
    ∃ st', decode J U (encode U st) = some st' ∧ st'.servers = st.servers ∧
      st'.maskStats = st.maskStats ∧
      ∀ s ∈ st.servers, (st'.state U s).Alike (st.state U s) := by
  obtain ⟨st', hdec, hservers, hstats, hstates⟩ := decode_encode_kept J U ha hm he
  refine ⟨st', hdec, hservers, hstats, ?_⟩
  intro s hs
  exact state_restored U hs hstates

end

/-- One server in use, with a speed, a speed without its time and one observation. -/
theorem restart_preserves_observed :
    let s : Server := { name := "a", protocol := "vless", address := "10.0.0.1", port := 443,
                        secret := "u" }
    let v : ServerState :=
      { selected := true, realMs := 90, kbps := 4000, speedNetwork := "Wi-Fi", serviceMask := "m",
        netEvidence := .ofList [("Wi-Fi|", ({} : RouteEvidence).observe true 90 5)] }
    let st : AppState := { servers := [s], states := .ofList [(s.id .ascii, v)] }
    ∃ st', decode JsonText.library .ascii (encode .ascii st) = some st' ∧
      st'.servers = st.servers ∧ st'.maskStats = st.maskStats ∧
      ∀ s ∈ st.servers, (st'.state .ascii s).Alike (st.state .ascii s) := by
  intro s v st
  apply restart_preserves JsonText.library .ascii st
  · decide +kernel
  · decide
  · intro e hmem
    have he : e = (s.id .ascii, v) := List.mem_singleton.mp hmem
    rw [he]
    refine ⟨by decide, ?_⟩
    intro e' hmem'
    have he' : e' = ("Wi-Fi|", ({} : RouteEvidence).observe true 90 5) := List.mem_singleton.mp hmem'
    rw [he']
    exact .observe true (by decide) (by decide) (by decide) .start

end Store

end VlessCard
