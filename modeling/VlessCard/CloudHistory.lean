/-
`cloud_real.py`, the cloud's memory of the links it checked: what one run adds to
it and drops from it, which measured speed still counts, and the order in which
links are queued, tried and published.

The counters fade at every check and are rounded to three places, so they are
doubles here and every operation on them rounds. The law is an invariant of whole
runs: whatever is learned, in whatever order, the counters stay between zero and
ten, the samples stay sorted, and a link that has just worked is still remembered
when the ranking looks it up.
-/
import VlessCard.Binary64
import VlessCard.Lists
import VlessCard.Python

set_option autoImplicit false

namespace VlessCard

namespace CloudReal

open Binary64

/-! ## The memory

The memory is a JSON object from links to entries, so it is an ordered map here. A round of
checks fades every counter it touches and drops what is too old; the isolated speed is written by
a second call, later in the same run of the script. -/

/-- What is remembered of one link; `kb`, `kb_t` and `kb_isolated` are the isolated
speed measurement, zero and false where it is missing. -/
structure Entry where
  ok : ℚ := 0
  n : ℚ := 0
  ms : ℤ := 0
  t : ℤ
  samples : List (ℤ × Bool) := []
  kb : ℤ := 0
  kb_t : ℤ := 0
  kb_isolated : Bool := false
deriving DecidableEq

/-- Link to what is remembered of it. -/
abbrev History : Type := OrderedMap String Entry

/-- `int(x)` of a float. -/
def truncate (q : ℚ) : ℤ := q.num.tdiv q.den

/-- `round(x * 0.9 + hit, 3)`. -/
def faded (x : ℚ) (hit : Bool) : ℚ := roundTo 3 (fl (fl (x * fl (9 / 10)) + if hit then 1 else 0))

/-- The samples of the last day and one more, 288 at most. -/
def sampled (now : ℤ) (old : List (ℤ × Bool)) (hit : Bool) : List (ℤ × Bool) :=
  let samples := old.filter (fun s => now - 86400 ≤ s.1 && s.1 ≤ now) ++ [(now, hit)]
  samples.drop (samples.length - 288)

/-- One result of a run, after `hist.get(l) or {…}`. -/
def learned (now : ℤ) (old : Option Entry) (ms : ℤ) : Entry :=
  let h := old.getD { t := now }
  let hit : Bool := ms ≠ 0
  { h with
    ok := faded h.ok hit
    n := faded h.n true
    ms := if ms = 0 then h.ms else if h.ms = 0 then ms
      else truncate (fl (fl (h.ms * fl (6 / 10)) + fl (ms * fl (4 / 10))))
    samples := sampled now h.samples hit
    t := now }

/-- What is too old, or fails almost always. -/
def forgotten (now : ℤ) (h : Entry) : Bool :=
  2 * 86400 < now - h.t || (3 < h.n && fl (h.ok / h.n) < fl (5 / 100))

/-- `learn`. -/
def learn (hist : History) (res : OrderedMap String ℤ) (now : ℤ) : History :=
  (hist.updateWith (fun old ms => some (learned now old ms)) res.entries).filter
    fun e => !forgotten now e.2

/-- `learn_speed`: links no longer remembered are passed over. -/
def learnSpeed (hist : History) (sp : OrderedMap String ℤ) (now : ℤ) : History :=
  hist.updateWith (fun old kb => old.map fun h =>
    { h with kb := max 0 kb, kb_t := now, kb_isolated := true }) sp.entries

def SPEED_TTL : ℤ := 3600

/-- `measured_kbps`: recent isolated samples only; a failed check revokes them. -/
def measuredKbps (h : Entry) (now : ℤ) : ℤ :=
  match h.samples.getLast? with
  | none => 0
  | some last =>
    if last.2 = false then 0
    else if h.kb_isolated = false ∨ ¬ (now - SPEED_TTL ≤ h.kb_t ∧ h.kb_t ≤ now) ∨
        ¬ (now - SPEED_TTL ≤ last.1 ∧ last.1 ≤ now) then 0
    else max 0 h.kb

/-! ## Orders

The lists the script publishes are sorted by tuples, whose parts are fractions of counters.
Python raises where a link is missing or a divisor is zero, so each of these functions returns
its result or an exception. -/

/-- `a / b` of two floats. -/
def divide (a b : ℚ) : Py ℚ := if b = 0 then .error .ZeroDivisionError else .ok (fl (a / b))

/-- `score`: lower is better. -/
def score (h : Entry) : Py ℚ := do
  let rate ← divide (fl (h.ok + 1 / 2)) (fl (h.n + 1))
  let base := fl (fl (fl (1 - rate) * 3000) + if h.ms = 0 then 3000 else h.ms)
  return fl (base - fl (min h.kb 30000 / 20))

/-- `hist[link]`. -/
def lookup (hist : History) (link : String) : Py Entry :=
  match hist.get? link with
  | some h => .ok h
  | none => .error .KeyError

/-- Tuples compare by their first parts, then by their second parts. -/
def pairLe (a b : ℤ × ℚ) : Bool := a.1 < b.1 || (a.1 = b.1 && a.2 ≤ b.2)

/-- `list(dict.fromkeys(l))`. -/
def distinct (l : List String) : List String := l.eraseDups

/-- `check_queue` over the two lists of links that answered. -/
def checkQueue (ru all : List String) (hist : History) : Py (List String) :=
  Python.sortedBy pairLe
    (fun link => match hist.get? link with
      | some h => (score h).map fun s => (if 0 < h.ok then 0 else 1, s)
      | none => .ok (1, 10000))
    (distinct (ru ++ all))

/-- Triples compare part by part. -/
def tripleLe (a b : ℚ × ℤ × ℤ) : Bool :=
  a.1 < b.1 || (a.1 = b.1 && (a.2.1 < b.2.1 || (a.2.1 = b.2.1 && a.2.2 ≤ b.2.2)))

/-- The loop of `speed_trials`: links of hosts not chosen yet, and whether the limit
was reached. -/
def pick (key : String → String) (limit : ℕ) :
    List String → List String → List String → List String × Bool
  | [], selected, _ => (selected, false)
  | link :: rest, selected, hosts =>
    if link ∉ selected ∧ key link ∉ hosts then
      let selected := selected ++ [link]
      if limit ≤ selected.length then (selected, true)
      else pick key limit rest selected (key link :: hosts)
    else if limit ≤ selected.length then (selected, true)
    else pick key limit rest selected hosts

/-- The fastest measured links first, then the best scores. -/
def speedKey (hist : History) (now : ℤ) (link : String) : Py (ℤ × ℚ) := do
  let h ← lookup hist link
  let s ← score h
  return (-measuredKbps h now, s)

/-- The links measured longest ago first, then the quickest answers. -/
def ageKey (res : OrderedMap String ℤ) (hist : History) (link : String) : Py (ℤ × ℚ) := do
  let h ← lookup hist link
  return (h.kb_t, (((res.get? link).getD 0 : ℤ) : ℚ))

/-- `speed_trials`; `key` names the host of a link. -/
def speedTrials (key : String → String) (res : OrderedMap String ℤ) (hist : History) (now : ℤ)
    (limit : ℤ) : Py (List String) := do
  if limit ≤ 0 then return []
  let working := (res.entries.filter fun e => 0 < e.2).map Prod.fst
  let ranked ← Python.sortedBy pairLe (speedKey hist now) working
  let keep := ranked.take (max 1 (limit / 2)).toNat
  let rest ← Python.sortedBy pairLe (ageKey res hist) (working.filter fun link => link ∉ keep)
  let (selected, full) := pick key limit.toNat (keep ++ rest ++ ranked) [] []
  if full then return selected
  return (selected ++ (keep ++ rest).filter fun link => link ∉ selected).take limit.toNat

/-- The most stable links first, then the fastest, then the quickest answers. -/
def worksKey (hist : History) (now : ℤ) (l : String) : Py (ℚ × ℤ × ℤ) := do
  let h ← lookup hist l
  let rate ← divide (-fl (h.ok + 1 / 2)) (fl (h.n + 1))
  return (rate, -measuredKbps h now, h.ms)

/-- The working links of a published list, in order. -/
def works (body : List String) (res : OrderedMap String ℤ) (hist : History) (now : ℤ) :
    Py (List String) :=
  Python.sortedBy tripleLe (worksKey hist now) (body.filter fun l => (res.get? l).getD 0 ≠ 0)

/-! ## Runs

Rounds and speed measurements follow each other in any order, each at a later time than the one
before. What is said of the memory is said after any such run. -/

/-- What changes the memory, and when. -/
inductive Op where
  | learn (res : OrderedMap String ℤ) (now : ℤ)
  | speed (sp : OrderedMap String ℤ) (now : ℤ)

def step (hist : History) : Op → History
  | .learn res now => learn hist res now
  | .speed sp now => learnSpeed hist sp now

/-- The memory after a run that starts with none. -/
def run (ops : List Op) : History := ops.foldl step .empty

/-! ## The counters

A counter is multiplied by nine tenths and rounded to three decimals, in doubles. Ten is where it
stops growing, and that it stops there exactly is computed. -/

theorem fl_nine_tenths : fl (9 / 10) = 8106479329266893 / 2 ^ 53 := by
  have hulp : ulp (9 / 10) = 2 ^ (-1 - 52 : ℤ) := by
    apply ulp_eq <;> norm_num [abs_of_pos]
  have hround : roundEven (8106479329266892 + 4 / 5) = 8106479329266893 := by
    have hfloor : ⌊(8106479329266892 + 4 / 5 : ℚ)⌋ = 8106479329266892 := by
      rw [Int.floor_eq_iff]
      norm_num
    rw [roundEven_of_gt (by rw [hfloor]; norm_num), hfloor]
    norm_num
  rw [fl, hulp, show (9 / 10 : ℚ) / 2 ^ (-1 - 52 : ℤ) = 8106479329266892 + 4 / 5 by norm_num, hround]
  norm_num

/-- Ten checks fade to nine. -/
theorem fl_ten_faded : fl (10 * fl (9 / 10)) = 9 := by
  have hulp : ulp (10 * (8106479329266893 / 2 ^ 53)) = 2 ^ (3 - 52 : ℤ) := by
    apply ulp_eq <;> norm_num [abs_of_pos]
  have hround : roundEven (5066549580791808 + 1 / 8) = 5066549580791808 := by
    have hfloor : ⌊(5066549580791808 + 1 / 8 : ℚ)⌋ = 5066549580791808 := by
      rw [Int.floor_eq_iff]
      norm_num
    rw [roundEven_of_lt (by rw [hfloor]; norm_num), hfloor]
  rw [fl_nine_tenths, fl, hulp, show (10 * (8106479329266893 / 2 ^ 53) : ℚ) / 2 ^ (3 - 52 : ℤ)
    = 5066549580791808 + 1 / 8 by norm_num, hround]
  norm_num

/-- A counter that is larger stays so when both fade. -/
theorem faded_mono {x y : ℚ} (h : x ≤ y) {a b : Bool} (hab : a = true → b = true) :
    faded x a ≤ faded y b := by
  have hp : 0 ≤ fl (9 / 10) := fl_nonneg (by norm_num)
  apply roundTo_mono
  apply fl_mono
  have hx : fl (x * fl (9 / 10)) ≤ fl (y * fl (9 / 10)) := fl_mono (mul_le_mul_of_nonneg_right h hp)
  have hh : (if a then 1 else 0 : ℚ) ≤ if b then 1 else 0 := by
    by_cases ha : a = true
    · rw [if_pos ha, if_pos (hab ha)]
    · rw [if_neg ha]
      split <;> norm_num
  linarith

theorem faded_ten : faded 10 true = 10 := by
  have h10 : fl 10 = 10 := fl_intCast (n := 10) (by norm_num)
  rw [faded, fl_ten_faded, if_pos rfl, show (9 + 1 : ℚ) = 10 by norm_num, h10]
  exact roundTo_intCast 3 (n := 10) (by norm_num)

theorem faded_zero_true : faded 0 true = 1 := by
  have h1 : fl 1 = 1 := fl_intCast (n := 1) (by norm_num)
  rw [faded, zero_mul, fl_zero, if_pos rfl, zero_add, h1]
  exact roundTo_intCast 3 (n := 1) (by norm_num)

theorem faded_zero_false : faded 0 false = 0 := by
  rw [faded, zero_mul, fl_zero, if_neg (by decide), zero_add, fl_zero]
  exact roundTo_intCast 3 (n := 0) (by norm_num)

/-! ## The invariant of an entry

What every entry has in common, whatever the checks were: the counters are between zero and ten
and in the right order, and the samples are those of one day. A round keeps it, and so does a
measured speed. -/

/-- Between zero and ten checks, no more successes than checks, and at most 288
samples, sorted, none older than a day at the last check. -/
structure Entry.Good (h : Entry) : Prop where
  ok_nonneg : 0 ≤ h.ok
  ok_le : h.ok ≤ h.n
  n_le : h.n ≤ 10
  few : h.samples.length ≤ 288
  sorted : h.samples.Pairwise fun a b => a.1 ≤ b.1
  window : ∀ s ∈ h.samples, h.t - 86400 ≤ s.1 ∧ s.1 ≤ h.t

/-- Every link starts with nothing known of it. -/
theorem good_start (now : ℤ) : Entry.Good { t := now } := by
  constructor
  · exact le_refl _
  · exact le_refl _
  · norm_num
  · exact Nat.zero_le _
  · exact List.Pairwise.nil
  · intro s hs
    cases hs

/-- The newest sample is the check that was just made. -/
theorem getLast?_sampled (now : ℤ) (old : List (ℤ × Bool)) (hit : Bool) :
    (sampled now old hit).getLast? = some (now, hit) := by
  unfold sampled
  dsimp only
  rw [List.getLast?_drop, if_neg, List.getLast?_concat]
  rw [List.length_append, List.length_singleton]
  omega

/-- What is in the samples of a check: earlier ones of the last day, and its own. -/
theorem mem_sampled {now : ℤ} {old : List (ℤ × Bool)} {hit : Bool} {s : ℤ × Bool}
    (h : s ∈ sampled now old hit) : now - 86400 ≤ s.1 ∧ s.1 ≤ now := by
  rcases List.mem_append.mp (List.mem_of_mem_drop h) with hs | hs
  · rw [List.mem_filter, Bool.and_eq_true, decide_eq_true_eq, decide_eq_true_eq] at hs
    exact hs.2
  · rw [List.mem_singleton] at hs
    rw [hs]
    omega

/-- The samples stay in the order of time. -/
theorem sorted_sampled {now : ℤ} {old : List (ℤ × Bool)} (h : old.Pairwise fun a b => a.1 ≤ b.1)
    (hit : Bool) : (sampled now old hit).Pairwise fun a b => a.1 ≤ b.1 := by
  apply List.Pairwise.sublist (List.drop_sublist _ _)
  rw [List.pairwise_append]
  refine ⟨h.sublist List.filter_sublist, List.pairwise_singleton _ _, ?_⟩
  intro a ha b hb
  rw [List.mem_singleton] at hb
  rw [List.mem_filter, Bool.and_eq_true, decide_eq_true_eq, decide_eq_true_eq] at ha
  rw [hb]
  exact ha.2.2

/-- A day of checks at five minutes is kept, and no more. -/
theorem length_sampled (now : ℤ) (old : List (ℤ × Bool)) (hit : Bool) :
    (sampled now old hit).length ≤ 288 := by
  unfold sampled
  dsimp only
  rw [List.length_drop]
  omega

/-- What a check leaves in an entry, field by field; here the hits. -/
theorem ok_learned (now : ℤ) (old : Option Entry) (ms : ℤ) :
    (learned now old ms).ok = faded (old.getD { t := now }).ok (decide (ms ≠ 0)) := rfl

theorem n_learned (now : ℤ) (old : Option Entry) (ms : ℤ) :
    (learned now old ms).n = faded (old.getD { t := now }).n true := rfl

theorem samples_learned (now : ℤ) (old : Option Entry) (ms : ℤ) :
    (learned now old ms).samples = sampled now (old.getD { t := now }).samples (decide (ms ≠ 0)) := by
  rw [learned]

theorem t_learned (now : ℤ) (old : Option Entry) (ms : ℤ) : (learned now old ms).t = now := rfl

/-- A check keeps an entry good, whatever was known before. -/
theorem good_learned {now : ℤ} {old : Option Entry} (h : (old.getD { t := now }).Good) (ms : ℤ) :
    (learned now old ms).Good := by
  constructor
  · calc 0 = faded 0 false := faded_zero_false.symm
      _ ≤ faded (old.getD { t := now }).ok (decide (ms ≠ 0)) :=
        faded_mono h.ok_nonneg (fun hf => absurd hf (by decide))
  · rw [ok_learned, n_learned]
    exact faded_mono h.ok_le (fun _ => rfl)
  · calc faded (old.getD { t := now }).n true ≤ faded 10 true := faded_mono h.n_le (fun _ => rfl)
      _ = 10 := faded_ten
  · rw [samples_learned]
    exact length_sampled _ _ _
  · rw [samples_learned]
    exact sorted_sampled h.sorted _
  · intro s hs
    rw [samples_learned] at hs
    exact mem_sampled hs

/-- One success in at most ten checks is more than one in twenty. -/
theorem kept_learned {now : ℤ} {old : Option Entry} (h : (old.getD { t := now }).Good) {ms : ℤ}
    (hms : ms ≠ 0) : forgotten now (learned now old ms) = false := by
  have hg := good_learned h ms
  have hok : 1 ≤ (learned now old ms).ok := by
    calc 1 = faded 0 true := faded_zero_true.symm
      _ ≤ faded (old.getD { t := now }).ok (decide (ms ≠ 0)) :=
        faded_mono h.ok_nonneg (fun _ => decide_eq_true hms)
  have hn : 0 < (learned now old ms).n := by linarith [hg.ok_le]
  have hrate : (1 / 16 : ℚ) ≤ (learned now old ms).ok / (learned now old ms).n := by
    rw [le_div_iff₀ hn]
    linarith [hg.n_le]
  -- a sixteenth is a double, and more than the threshold rounds to
  have hhigh : (1 / 16 : ℚ) ≤ fl ((learned now old ms).ok / (learned now old ms).n) :=
    le_fl ⟨1, -4, by norm_num, by norm_num⟩ hrate
  have hlow : fl (5 / 100) ≤ 1 / 16 := fl_le ⟨1, -4, by norm_num, by norm_num⟩ (by norm_num)
  rw [forgotten, t_learned, Bool.or_eq_false_iff, decide_eq_false_iff_not, Bool.and_eq_false_iff,
    decide_eq_false_iff_not, decide_eq_false_iff_not]
  refine ⟨by omega, .inr ?_⟩
  linarith

/-- Recording a speed keeps an entry good. -/
theorem good_speed {h : Entry} (hg : h.Good) (kb kb_t : ℤ) (b : Bool) :
    Entry.Good { h with kb := kb, kb_t := kb_t, kb_isolated := b } :=
  ⟨hg.ok_nonneg, hg.ok_le, hg.n_le, hg.few, hg.sorted, hg.window⟩

/-! ## The invariant of a run

The memory after a run has good entries, no entry from before the last three days, and every link
that passed its last check. The last part is what the published list relies on when it looks
links up. -/

/-- After a round a link has what it learned in it, unless it is forgotten. -/
theorem get?_learn (hist : History) (res : OrderedMap String ℤ) (now : ℤ) (l : String) :
    (learn hist res now).get? l =
      (match res.get? l with
        | some ms => some (learned now (hist.get? l) ms)
        | none => hist.get? l).filter fun h => !forgotten now h := by
  rw [learn, OrderedMap.get?_filter, OrderedMap.get?_updateWith _ res.nodup]
  show Option.filter _ _ = Option.filter _ (match Assoc.get? res.entries l with
    | some ms => some (learned now (hist.get? l) ms)
    | none => hist.get? l)
  cases Assoc.get? res.entries l with
  | none => rfl
  | some ms => rfl

/-- After speeds were measured a link has its new one, and no other link is touched. -/
theorem get?_learnSpeed (hist : History) (sp : OrderedMap String ℤ) (now : ℤ) (l : String) :
    (learnSpeed hist sp now).get? l =
      match sp.get? l with
      | some kb => (hist.get? l).map fun h =>
          { h with kb := max 0 kb, kb_t := now, kb_isolated := true }
      | none => hist.get? l := by
  rw [learnSpeed, OrderedMap.get?_updateWith _ sp.nodup, OrderedMap.get?]
  show _ = match Assoc.get? sp.entries l with
    | some kb => _
    | none => _
  cases Assoc.get? sp.entries l with
  | none => rfl
  | some kb =>
    cases Assoc.get? hist.entries l with
    | none => rfl
    | some h => rfl

/-- The last check of a link in a run: when it was and whether it passed. -/
def LastCheck (ops : List Op) (l : String) (checked : ℤ) (passed : Bool) : Prop :=
  ∃ before res after ms, ops = before ++ .learn res checked :: after ∧ res.get? l = some ms ∧
    passed = decide (ms ≠ 0) ∧ ∀ res' now, .learn res' now ∈ after → res'.get? l = none

/-- The round that was just run is the last check of its links. -/
theorem lastCheck_here (ops : List Op) {res : OrderedMap String ℤ} {now : ℤ} {l : String} {ms : ℤ}
    (h : res.get? l = some ms) : LastCheck (ops ++ [.learn res now]) l now (decide (ms ≠ 0)) := by
  refine ⟨ops, res, [], ms, rfl, h, rfl, ?_⟩
  intro res' now' hmem
  cases hmem

/-- A later operation that does not check the link. -/
theorem lastCheck_append {ops : List Op} {l : String} {checked : ℤ} {b : Bool} {op : Op}
    (h : LastCheck ops l checked b) (hop : ∀ res now, op = .learn res now → res.get? l = none) :
    LastCheck (ops ++ [op]) l checked b := by
  obtain ⟨before, res, after, ms, rfl, hget, hb, hafter⟩ := h
  refine ⟨before, res, after ++ [op], ms, ?_, hget, hb, ?_⟩
  · rw [List.append_assoc, List.cons_append]
  · intro res' now hmem
    rcases List.mem_append.mp hmem with hmem | hmem
    · exact hafter res' now hmem
    · exact hop res' now (List.mem_singleton.mp hmem).symm

/-- What holds of an entry after a run. -/
structure Known (ops : List Op) (l : String) (h : Entry) : Prop where
  good : h.Good
  last : ∃ b, h.samples.getLast? = some (h.t, b) ∧ LastCheck ops l h.t b

theorem run_append (ops : List Op) (op : Op) : run (ops ++ [op]) = step (run ops) op := by
  rw [run, List.foldl_append]
  rfl

/-- What one operation makes of the entries. -/
theorem known_step {ops : List Op} (hk : ∀ l h, (run ops).get? l = some h → Known ops l h) (op : Op)
    (l : String) (h : Entry) (hget : (step (run ops) op).get? l = some h) :
    Known (ops ++ [op]) l h := by
  -- a link that was never checked starts from a good entry
  have hstart (now : ℤ) : (((run ops).get? l).getD { t := now }).Good := by
    cases ho : (run ops).get? l with
    | none => exact good_start now
    | some h' => exact (hk l h' ho).good
  cases op with
  | learn res now =>
    rw [step, get?_learn, Option.filter_eq_some_iff] at hget
    obtain ⟨hget, -⟩ := hget
    -- links that are not in the round keep what they had
    cases hres : res.get? l with
    | none =>
      rw [hres] at hget
      obtain ⟨hgood, b, hlast, hcheck⟩ := hk l h hget
      refine ⟨hgood, b, hlast, lastCheck_append hcheck ?_⟩
      rintro res' now' heq
      cases heq
      exact hres
    | some ms =>
      rw [hres] at hget
      cases hget
      refine ⟨good_learned (hstart now) ms, decide (ms ≠ 0), ?_, lastCheck_here ops hres⟩
      rw [samples_learned, getLast?_sampled, t_learned]
  | speed sp now =>
    -- a speed touches links that are known, and no check
    have hop : ∀ res now', Op.speed sp now = .learn res now' → res.get? l = none := by
      intro res now' heq
      cases heq
    rw [step, get?_learnSpeed] at hget
    cases hsp : sp.get? l with
    | none =>
      rw [hsp] at hget
      obtain ⟨hgood, b, hlast, hcheck⟩ := hk l h hget
      exact ⟨hgood, b, hlast, lastCheck_append hcheck hop⟩
    | some kb =>
      rw [hsp] at hget
      obtain ⟨h', hh', rfl⟩ := Option.map_eq_some_iff.mp hget
      obtain ⟨hgood, b, hlast, hcheck⟩ := hk l h' hh'
      exact ⟨good_speed hgood _ _ _, b, hlast, lastCheck_append hcheck hop⟩

/-- What every run makes of the entries. -/
theorem known_run (ops : List Op) : ∀ l h, (run ops).get? l = some h → Known ops l h := by
  induction ops using List.reverseRecOn with
  | nil =>
    intro l h hget
    cases hget
  | append_singleton ops op ih =>
    intro l h hget
    rw [run_append] at hget
    exact known_step ih op l h hget

/-- A link that worked in the last check is remembered. -/
theorem working_remembered (before : List Op) {res : OrderedMap String ℤ} {now : ℤ}
    {after : List Op} (hafter : ∀ op ∈ after, ∃ sp t, op = .speed sp t) {l : String} {ms : ℤ}
    (h : res.get? l = some ms) (hms : ms ≠ 0) :
    ((run (before ++ .learn res now :: after)).get? l).isSome = true := by
  induction after using List.reverseRecOn with
  | nil =>
    have hgood : (((run before).get? l).getD { t := now }).Good := by
      cases ho : (run before).get? l with
      | none => exact good_start now
      | some h' => exact (known_run before l h' ho).good
    rw [run_append, step, get?_learn, h, Option.filter_some, kept_learned hgood hms]
    rfl
  | append_singleton after op ih =>
    obtain ⟨sp, t, rfl⟩ := hafter op (List.mem_append_right _ (List.mem_singleton_self _))
    have hprev := ih fun op hop => hafter op (List.mem_append_left _ hop)
    rw [← List.cons_append, ← List.append_assoc, run_append, step, get?_learnSpeed]
    cases sp.get? l with
    | none => exact hprev
    | some kb =>
      rw [Option.isSome_map]
      exact hprev

/-! ## Looking links up

None of the orders raises: the counters are never negative, so no divisor is zero, and every
working link is remembered. With this the claims about the published lists need no case for an
exception. -/

/-- Nothing is divided by zero checks. -/
theorem divide_checks_ok (a : ℚ) {h : Entry} (hn : 0 ≤ h.n) :
    ∃ r, divide a (fl (h.n + 1)) = .ok r := by
  have h1 : (1 : ℚ) ≤ fl (h.n + 1) :=
    le_fl (representable_intCast (n := 1) (by norm_num)) (by linarith)
  rw [divide, if_neg (by linarith)]
  exact ⟨_, rfl⟩

/-- A score is found for every entry whose counter is not negative. -/
theorem score_ok {h : Entry} (hn : 0 ≤ h.n) : ∃ s, score h = .ok s := by
  obtain ⟨r, hr⟩ := divide_checks_ok (fl (h.ok + 1 / 2)) hn
  rw [score, hr]
  exact ⟨_, rfl⟩

theorem lookup_ok {hist : History} {l : String} {h : Entry} (hget : hist.get? l = some h) :
    lookup hist l = .ok h := by
  rw [lookup, hget]

/-- Dropping repetitions drops no element. -/
theorem mem_distinct {l : List String} {a : String} : a ∈ distinct l ↔ a ∈ l := List.mem_eraseDups

theorem nodup_distinct (l : List String) : (distinct l).Nodup := nodup_eraseDups l

/-- A list without repetitions is left as it is. -/
theorem distinct_of_nodup {l : List String} (h : l.Nodup) : distinct l = l := eraseDups_of_nodup h

/-- The queue is made whatever is remembered, and holds every link once. -/
theorem checkQueue_ok (ru all : List String) {hist : History}
    (hn : ∀ e ∈ hist.entries, 0 ≤ e.2.n) :
    ∃ q, checkQueue ru all hist = .ok q ∧ q.Perm (distinct (ru ++ all)) := by
  apply Python.sortedBy_ok
  intro l _
  cases hget : hist.get? l with
  | none => exact ⟨_, rfl⟩
  | some h =>
    have hpos : 0 ≤ h.n := hn (l, h) (OrderedMap.mem_of_get? hget)
    obtain ⟨s, hs⟩ := score_ok hpos
    exact ⟨(if 0 < h.ok then 0 else 1, s), by dsimp only; rw [hs]; rfl⟩

/-- A key is found for the order by speed. -/
theorem speedKey_ok {hist : History} {l : String} {h : Entry} (hget : hist.get? l = some h)
    (hn : 0 ≤ h.n) (now : ℤ) : ∃ k, speedKey hist now l = .ok k := by
  obtain ⟨s, hs⟩ := score_ok hn
  rw [speedKey, lookup_ok hget]
  exact ⟨(-measuredKbps h now, s), by simp only [hs, bind, Except.bind, pure, Except.pure]⟩

theorem ageKey_ok {hist : History} {l : String} {h : Entry} (hget : hist.get? l = some h)
    (res : OrderedMap String ℤ) : ∃ k, ageKey res hist l = .ok k := by
  rw [ageKey, lookup_ok hget]
  exact ⟨_, rfl⟩

theorem worksKey_ok {hist : History} {l : String} {h : Entry} (hget : hist.get? l = some h)
    (hn : 0 ≤ h.n) (now : ℤ) : ∃ k, worksKey hist now l = .ok k := by
  obtain ⟨rate, hrate⟩ := divide_checks_ok (-fl (h.ok + 1 / 2)) hn
  rw [worksKey, lookup_ok hget]
  exact ⟨(rate, -measuredKbps h now, h.ms),
    by simp only [hrate, bind, Except.bind, pure, Except.pure]⟩

/-- The trials are chosen when every working link is remembered. -/
theorem speedTrials_ok (key : String → String) {res : OrderedMap String ℤ} {hist : History}
    (hget : ∀ e ∈ res.entries, 0 < e.2 → ∃ h, hist.get? e.1 = some h ∧ 0 ≤ h.n) (now limit : ℤ) :
    ∃ top, speedTrials key res hist now limit = .ok top := by
  rw [speedTrials]
  by_cases hlimit : limit ≤ 0
  · rw [if_pos hlimit]
    exact ⟨[], rfl⟩
  rw [if_neg hlimit]
  -- every link that works has been learned, so it has an entry
  have hworking : ∀ l ∈ (res.entries.filter fun e => 0 < e.2).map Prod.fst,
      ∃ h, hist.get? l = some h ∧ 0 ≤ h.n := by
    intro l hl
    obtain ⟨e, he, rfl⟩ := List.mem_map.mp hl
    rw [List.mem_filter, decide_eq_true_eq] at he
    exact hget e he.1 he.2
  have hspeed : ∀ l ∈ (res.entries.filter fun e => 0 < e.2).map Prod.fst,
      ∃ k, speedKey hist now l = .ok k := by
    intro l hl
    obtain ⟨h, hh, hn⟩ := hworking l hl
    exact speedKey_ok hh hn now
  -- both sorts find all their keys, so neither raises
  obtain ⟨ranked, hranked, -⟩ := Python.sortedBy_ok pairLe hspeed
  have hage : ∀ l ∈ ((res.entries.filter fun e => 0 < e.2).map Prod.fst).filter
      (fun link => link ∉ ranked.take (max 1 (limit / 2)).toNat), ∃ k, ageKey res hist l = .ok k := by
    intro l hl
    obtain ⟨h, hh, -⟩ := hworking l (List.mem_filter.mp hl).1
    exact ageKey_ok hh res
  obtain ⟨rest, hrest, -⟩ := Python.sortedBy_ok pairLe hage
  simp only [hranked, hrest, bind, Except.bind]
  split
  · exact ⟨_, rfl⟩
  · exact ⟨_, rfl⟩

/-- The working links are ranked when every one of them is remembered. -/
theorem works_ok {body : List String} {res : OrderedMap String ℤ} {hist : History}
    (hget : ∀ l ms, res.get? l = some ms → ms ≠ 0 → ∃ h, hist.get? l = some h ∧ 0 ≤ h.n) (now : ℤ) :
    ∃ r, works body res hist now = .ok r := by
  have hkeys : ∀ l ∈ body.filter (fun l => (res.get? l).getD 0 ≠ 0),
      ∃ k, worksKey hist now l = .ok k := by
    intro l hl
    rw [List.mem_filter, decide_eq_true_eq] at hl
    cases hres : res.get? l with
    | none =>
      rw [hres] at hl
      exact absurd rfl hl.2
    | some ms =>
      rw [hres] at hl
      obtain ⟨h, hh, hn⟩ := hget l ms hres hl.2
      exact worksKey_ok hh hn now
  obtain ⟨r, hr, -⟩ := Python.sortedBy_ok tripleLe hkeys
  exact ⟨r, hr⟩

/-- What a measured speed rests on: a sample that passed and a measurement, both of the
last hour. -/
theorem measuredKbps_pos {h : Entry} {now : ℤ} (hpos : 0 < measuredKbps h now) :
    ∃ t, h.samples.getLast? = some (t, true) ∧ (now - SPEED_TTL ≤ t ∧ t ≤ now) ∧
      h.kb_isolated = true ∧ now - SPEED_TTL ≤ h.kb_t ∧ h.kb_t ≤ now := by
  rw [measuredKbps] at hpos
  split at hpos
  · exact absurd hpos (lt_irrefl 0)
  · rename_i last hlast
    by_cases hpass : last.2 = false
    · rw [if_pos hpass] at hpos
      exact absurd hpos (lt_irrefl 0)
    · rw [if_neg hpass] at hpos
      split at hpos
      · exact absurd hpos (lt_irrefl 0)
      · rename_i hrecent
        rw [not_or, not_or, not_not, not_not, Bool.not_eq_false] at hrecent
        obtain ⟨hiso, hkb, ht⟩ := hrecent
        refine ⟨last.1, ?_, ht, hiso, hkb⟩
        rw [hlast]
        exact congrArg some (Prod.ext rfl (Bool.not_eq_false _ |>.mp hpass))

/-- **The memory stays usable over every run.** However checks and speed measurements
follow each other, the counters of every entry lie between zero and ten, its
samples are few, sorted and of one day; after a check every link that worked is
still remembered, so that neither the speed trials nor the published ranking looks
up a link in vain; and a measured speed counts only within the hour, and only
while the last check of the link passed. -/
theorem history_stays_usable (key : String → String) (ops : List Op) :
    (∀ e ∈ (run ops).entries, e.2.Good) ∧
      (∀ before res now after, ops = before ++ .learn res now :: after →
        (∀ op ∈ after, ∃ sp t, op = .speed sp t) →
          (∀ l ms, res.get? l = some ms → 0 < ms → ((run ops).get? l).isSome = true) ∧
          (∀ moment limit, ∃ top, speedTrials key res (run ops) moment limit = .ok top) ∧
          ∀ body moment, ∃ r, works body res (run ops) moment = .ok r) ∧
      ∀ l h now, (run ops).get? l = some h → 0 < measuredKbps h now →
        ∃ t, h.samples.getLast? = some (t, true) ∧ (now - 3600 ≤ t ∧ t ≤ now) ∧
          (h.kb_isolated = true ∧ now - 3600 ≤ h.kb_t ∧ h.kb_t ≤ now) ∧
          LastCheck ops l t true := by
  have hgood : ∀ e ∈ (run ops).entries, e.2.Good := fun e he =>
    (known_run ops e.1 e.2 ((run ops).get?_of_mem he)).good
  refine ⟨hgood, ?_, ?_⟩
  -- every link that has just answered is remembered
  · rintro before res now after rfl hafter
    have hget (l : String) (ms : ℤ) (h : res.get? l = some ms) (hms : ms ≠ 0) :
        ∃ h, (run (before ++ .learn res now :: after)).get? l = some h ∧ 0 ≤ h.n := by
      obtain ⟨e, he⟩ := Option.isSome_iff_exists.mp (working_remembered before hafter h hms)
      have hg := hgood _ (OrderedMap.mem_of_get? he)
      exact ⟨e, he, hg.ok_nonneg.trans hg.ok_le⟩
    refine ⟨?_, ?_, ?_⟩
    · intro l ms h hms
      exact working_remembered before hafter h hms.ne'
    · intro moment limit
      apply speedTrials_ok
      intro e he hpos
      exact hget e.1 e.2 (res.get?_of_mem he) hpos.ne'
    · intro body moment
      exact works_ok hget moment
  -- a speed is told only of a link whose last check was a hit
  · intro l h now hl hpos
    obtain ⟨t, hlast, ht, hkb⟩ := measuredKbps_pos hpos
    obtain ⟨-, b, hlast', hcheck⟩ := known_run ops l h hl
    rw [hlast] at hlast'
    obtain ⟨rfl, rfl⟩ := Prod.mk.inj (Option.some.inj hlast')
    exact ⟨h.t, hlast, ht, hkb, hcheck⟩

/-- A link that passed at 1000 and was measured at 1100 still counts at 1200. -/
theorem history_stays_usable_once :
    let res : OrderedMap String ℤ := .ofList [("vless://a", 90)]
    let ops : List Op := [.learn res 1000, .speed (.ofList [("vless://a", 5000)]) 1100]
    (∃ top, speedTrials id res (run ops) 1200 24 = .ok top) ∧
      ∃ h, (run ops).get? "vless://a" = some h ∧ measuredKbps h 1200 = 5000 ∧
        LastCheck ops "vless://a" 1000 true := by
  intro res ops
  have hall := history_stays_usable id ops
  have hafter : ∀ op ∈ [Op.speed (.ofList [("vless://a", 5000)]) 1100],
      ∃ sp t, op = .speed sp t := by
    intro op hop
    exact ⟨_, _, List.mem_singleton.mp hop⟩
  have hlearn := hall.2.1 [] res 1000 _ rfl hafter
  have hkbps : ((run ops).get? "vless://a").map (fun h => (measuredKbps h 1200, h.samples.getLast?))
      = some (5000, some (1000, true)) := by decide +kernel
  obtain ⟨h, hh, hpair⟩ := Option.map_eq_some_iff.mp hkbps
  obtain ⟨hmeasured, hlast⟩ := Prod.mk.inj hpair
  obtain ⟨t, ht, -, -, hcheck⟩ := hall.2.2 "vless://a" h 1200 hh (by rw [hmeasured]; decide)
  rw [hlast] at ht
  cases ht
  exact ⟨hlearn.2.1 1200 24, h, hh, hmeasured, hcheck⟩

end CloudReal

end VlessCard
