/-
`AutoSelector.RunAsync` step by step: the checks that run at once, the probes that do
not, and what calls leave to later calls.

The TCP checks are started in the order of the candidates while fewer than four run,
and they end in any order; the phase may be cut short at any moment. Then the routes
of the shortlist are probed one after another, unless the time of the call is over.
Nothing else is left to chance, so a call that is finished did what `runAsync` computes
of the routes that were found reachable, and a call that its caller cancels leaves the
selector as one of the states on the way.
-/
import Mathlib.Logic.Relation
import VlessCard.AutoSelector

set_option autoImplicit false

namespace VlessCard

namespace AutoSelector

/-! ## The machine

The call is a machine whose steps are those between two suspensions: checks that start and end,
probes that start and end, and the time that runs out. What awaits outside is an event. -/

inductive Stage where
  /-- The candidates that wait for their check, and those whose check runs. -/
  | sifting (waiting active : List Route)
  /-- The routes to probe, and the one whose probe runs. -/
  | measuring (rest : List Route) (probing : Option Route)
  | finished
  deriving DecidableEq

structure Machine where
  stage : Stage
  /-- The routes that were passed to the TCP check. -/
  checked : List Route
  reachable : List Route
  comparing : Comparing

/-- What a call is given, and what it meets. -/
structure Call where
  catalog : List Route
  networkKey : String
  run : Run

inductive Event where
  /-- The next candidate's check begins. -/
  | check
  /-- A check ends: it answers, fails, or is cancelled. -/
  | answer (r : Route)
  /-- No check begins any more. -/
  | stop
  | compare
  /-- The time of the call is over. -/
  | expire
  | ask
  /-- The probe that runs ends. -/
  | reply
  | finish

section
variable (lower : String → String)

def Call.candidates (call : Call) (s : AutoSelector) : List Route :=
  (choose call.catalog call.networkKey call.run.now s).1

/-- The selector when the checks begin. -/
def Call.renewed (call : Call) (s : AutoSelector) : AutoSelector :=
  (choose call.catalog call.networkKey call.run.now s).2

def Call.start (call : Call) (s : AutoSelector) : Machine :=
  ⟨.sifting (call.candidates s) [], [], [], ⟨call.renewed s, none, none, 0, false, []⟩⟩

/-- One step; `none` where it cannot be taken. -/
def step (routes : List Route) (run : Run) (m : Machine) : Event → Option Machine
  | .check =>
    match m.stage with
    | .sifting (r :: waiting) active =>
      -- `MaxDegreeOfParallelism`
      if active.length < 4 then some { m with stage := .sifting waiting (r :: active), checked := m.checked ++ [r] }
      else none
    | _ => none
  | .answer r =>
    match m.stage with
    | .sifting waiting active =>
      if r ∈ active then
        some { m with
          stage := .sifting waiting (active.erase r)
          reachable := if run.tcp r then m.reachable ++ [r] else m.reachable }
      else none
    | _ => none
  | .stop =>
    match m.stage with
    | .sifting _ active => some { m with stage := .sifting [] active }
    | _ => none
  | .compare =>
    match m.stage with
    | .sifting [] [] =>
      some { m with stage := .measuring (shortlist lower (routes.filter fun r => r ∈ m.reachable)) none }
    | _ => none
  | .expire =>
    match m.stage with
    | .measuring (r :: _) none =>
      if run.expired r then some { m with stage := .finished, comparing := { m.comparing with timedOut := true } }
      else none
    | _ => none
  | .ask =>
    match m.stage with
    | .measuring (r :: rest) none =>
      if run.expired r then none
      else some { m with
        stage := .measuring rest (some r)
        comparing := { m.comparing with probed := m.comparing.probed ++ [r] } }
    | _ => none
  | .reply =>
    match m.stage with
    | .measuring rest (some r) =>
      match run.probe r with
      | .over => some { m with stage := .finished, comparing := { m.comparing with timedOut := true } }
      | .slow => some { m with stage := .measuring rest none }
      | .failed => some { m with stage := .measuring rest none, comparing := record run r ⟨false, 0, 0⟩ m.comparing }
      | .result p => some { m with stage := .measuring rest none, comparing := record run r p m.comparing }
    | _ => none
  | .finish =>
    match m.stage with
    | .measuring [] none => some { m with stage := .finished }
    | _ => none

/-- The machine after some events. -/
def advance (routes : List Route) (run : Run) : List Event → Machine → Option Machine
  | [], m => some m
  | e :: es, m => (step lower routes run m e).bind (advance routes run es)

/-- A call comes to this point. -/
def Call.Comes (call : Call) (s : AutoSelector) (m : Machine) : Prop :=
  ∃ es, advance lower (call.candidates s) call.run es (call.start s) = some m

end

/-! ## What a step can do

The steps are listed with their conditions, so that what follows never looks at the step function
again. A run keeps what each of them keeps. -/

section
variable (lower : String → String) (routes : List Route) (run : Run)

/-- The steps, each with the condition under which it is taken. -/
inductive Moves : Machine → Machine → Prop where
  | check {r : Route} {waiting active checked reachable : List Route} {c : Comparing} (h : active.length < 4) :
    Moves ⟨.sifting (r :: waiting) active, checked, reachable, c⟩
      ⟨.sifting waiting (r :: active), checked ++ [r], reachable, c⟩
  | answer {r : Route} {waiting active checked reachable : List Route} {c : Comparing} (h : r ∈ active) :
    Moves ⟨.sifting waiting active, checked, reachable, c⟩
      ⟨.sifting waiting (active.erase r), checked, if run.tcp r then reachable ++ [r] else reachable, c⟩
  | stop {waiting active checked reachable : List Route} {c : Comparing} :
    Moves ⟨.sifting waiting active, checked, reachable, c⟩ ⟨.sifting [] active, checked, reachable, c⟩
  | compare {checked reachable : List Route} {c : Comparing} :
    Moves ⟨.sifting [] [], checked, reachable, c⟩
      ⟨.measuring (shortlist lower (routes.filter fun r => r ∈ reachable)) none, checked, reachable, c⟩
  | expire {r : Route} {rest checked reachable : List Route} {c : Comparing} (h : run.expired r = true) :
    Moves ⟨.measuring (r :: rest) none, checked, reachable, c⟩
      ⟨.finished, checked, reachable, { c with timedOut := true }⟩
  | ask {r : Route} {rest checked reachable : List Route} {c : Comparing} (h : run.expired r = false) :
    Moves ⟨.measuring (r :: rest) none, checked, reachable, c⟩
      ⟨.measuring rest (some r), checked, reachable, { c with probed := c.probed ++ [r] }⟩
  | cut {r : Route} {rest checked reachable : List Route} {c : Comparing} (h : run.probe r = .over) :
    Moves ⟨.measuring rest (some r), checked, reachable, c⟩
      ⟨.finished, checked, reachable, { c with timedOut := true }⟩
  | slow {r : Route} {rest checked reachable : List Route} {c : Comparing} (h : run.probe r = .slow) :
    Moves ⟨.measuring rest (some r), checked, reachable, c⟩ ⟨.measuring rest none, checked, reachable, c⟩
  | failed {r : Route} {rest checked reachable : List Route} {c : Comparing} (h : run.probe r = .failed) :
    Moves ⟨.measuring rest (some r), checked, reachable, c⟩
      ⟨.measuring rest none, checked, reachable, record run r ⟨false, 0, 0⟩ c⟩
  | result {r : Route} {p : ProbeResult} {rest checked reachable : List Route} {c : Comparing}
      (h : run.probe r = .result p) :
    Moves ⟨.measuring rest (some r), checked, reachable, c⟩ ⟨.measuring rest none, checked, reachable, record run r p c⟩
  | finish {checked reachable : List Route} {c : Comparing} :
    Moves ⟨.measuring [] none, checked, reachable, c⟩ ⟨.finished, checked, reachable, c⟩

variable {lower routes run}

/-- What an event does to the machine is one of the moves that it can make. -/
theorem moves_of_step {m m' : Machine} {e : Event} (h : step lower routes run m e = some m') :
    Moves lower routes run m m' := by
  obtain ⟨stage, checked, reachable, c⟩ := m
  -- event by event, each in the one stage where it can happen
  cases e with
  | check =>
    match stage with
    | .sifting (r :: waiting) active =>
      simp only [step] at h
      split at h
      · rename_i hfree
        rw [← Option.some.inj h]
        exact .check hfree
      · cases h
    | .sifting [] _ => cases h
    | .measuring _ _ => cases h
    | .finished => cases h
  | answer r =>
    match stage with
    | .sifting waiting active =>
      simp only [step] at h
      split at h
      · rename_i hactive
        rw [← Option.some.inj h]
        exact .answer hactive
      · cases h
    | .measuring _ _ => cases h
    | .finished => cases h
  | stop =>
    match stage with
    | .sifting waiting active =>
      rw [← Option.some.inj h]
      exact .stop
    | .measuring _ _ => cases h
    | .finished => cases h
  | compare =>
    -- checks that were begun are all of the front of the list
    match stage with
    | .sifting [] [] =>
      rw [← Option.some.inj h]
      exact .compare
    | .sifting [] (_ :: _) => cases h
    | .sifting (_ :: _) _ => cases h
    | .measuring _ _ => cases h
    | .finished => cases h
  | expire =>
    match stage with
    | .measuring (r :: rest) none =>
      simp only [step] at h
      split at h
      · rename_i hexpired
        rw [← Option.some.inj h]
        exact .expire hexpired
      · cases h
    | .measuring [] _ => cases h
    | .measuring (_ :: _) (some _) => cases h
    | .sifting _ _ => cases h
    | .finished => cases h
  | ask =>
    match stage with
    | .measuring (r :: rest) none =>
      simp only [step] at h
      split at h
      · cases h
      · rename_i hexpired
        rw [← Option.some.inj h]
        exact .ask (Bool.not_eq_true _ ▸ hexpired)
    | .measuring [] _ => cases h
    | .measuring (_ :: _) (some _) => cases h
    | .sifting _ _ => cases h
    | .finished => cases h
  | reply =>
    match stage with
    | .measuring rest (some r) =>
      simp only [step] at h
      split at h
      · rename_i hprobe
        rw [← Option.some.inj h]
        exact .cut hprobe
      · rename_i hprobe
        rw [← Option.some.inj h]
        exact .slow hprobe
      · rename_i hprobe
        rw [← Option.some.inj h]
        exact .failed hprobe
      · rename_i p hprobe
        rw [← Option.some.inj h]
        exact .result hprobe
    | .measuring _ none => cases h
    | .sifting _ _ => cases h
    | .finished => cases h
  | finish =>
    match stage with
    | .measuring [] none =>
      rw [← Option.some.inj h]
      exact .finish
    | .measuring [] (some _) => cases h
    | .measuring (_ :: _) _ => cases h
    | .sifting _ _ => cases h
    | .finished => cases h

/-- What every step keeps, a run keeps. -/
theorem advance_keeps {I : Machine → Prop} (hstep : ∀ m m', I m → Moves lower routes run m m' → I m')
    {es : List Event} : ∀ {m m' : Machine}, I m → advance lower routes run es m = some m' → I m' := by
  induction es with
  | nil =>
    intro m m' hm h
    exact Option.some.inj h ▸ hm
  | cons e es ih =>
    intro m m' hm h
    obtain ⟨u, hu, h⟩ := Option.bind_eq_some_iff.mp h
    exact ih (hstep m u hm (moves_of_step hu)) h

end

/-! ## The best of what was measured

The best result so far is never worse than one that was seen. Results are compared by speed and
by whether HTTPS worked, and this is a preorder. -/

theorem better_self (p : ProbeResult) : Better p p = false := by
  simp [Better]

theorem better_trans {p q r : ProbeResult} (h1 : Better p q = true) (h2 : Better q r = true) : Better p r = true := by
  simp only [Better, Bool.and_eq_true, Bool.or_eq_true, Bool.not_eq_true', decide_eq_true_eq] at h1 h2 ⊢
  refine ⟨h1.1, ?_⟩
  rcases h2.2 with (hr | hr) | hr
  · exact .inl (.inl hr)
  · rcases h1.2 with (hq | hq) | hq
    · exact absurd (h2.1.symm.trans hq) (by decide)
    · exact .inl (.inr (Int32.lt_trans hr hq))
    · exact .inl (.inr (hq.1 ▸ hr))
  · rcases h1.2 with (hq | hq) | hq
    · exact absurd (h2.1.symm.trans hq) (by decide)
    · exact .inl (.inr (hr.1 ▸ hq))
    · exact .inr ⟨hq.1.trans hr.1, Int32.lt_trans hq.2 hr.2⟩

/-- Of the results of these routes none is better than the best, and there is one if there is
any. -/
def Leading (run : Run) (done : List Route) (c : Comparing) : Prop :=
  (c.winner = none ∧ c.best = none ∧ ∀ r ∈ done, ∀ p, run.probe r = .result p → p.httpsOk = false) ∨
    ∃ w p, c.winner = some w ∧ c.best = some p ∧ w ∈ done ∧ run.probe w = .result p ∧ p.httpsOk = true ∧
      ∀ r ∈ done, ∀ q, run.probe r = .result q → Better q p = false

section
variable {run : Run} {done : List Route} {c : Comparing} {r : Route}

/-- A route without a result changes nothing. -/
theorem Leading.pass (h : Leading run done c) (hr : ∀ p, run.probe r ≠ .result p) {c' : Comparing}
    (hwinner : c'.winner = c.winner) (hbest : c'.best = c.best) : Leading run (done ++ [r]) c' := by
  rcases h with ⟨h1, h2, h3⟩ | ⟨w, p, h1, h2, h3, h4, h5, h6⟩
  · refine .inl ⟨hwinner.trans h1, hbest.trans h2, List.forall_mem_append.mpr ⟨h3, ?_⟩⟩
    exact List.forall_mem_singleton.mpr fun p hp => absurd hp (hr p)
  · refine .inr ⟨w, p, hwinner.trans h1, hbest.trans h2, List.mem_append_left _ h3, h4, h5, ?_⟩
    exact List.forall_mem_append.mpr ⟨h6, List.forall_mem_singleton.mpr fun q hq => absurd hq (hr q)⟩

/-- A result without HTTPS is not better than another. -/
theorem not_better_of_not_ok {p q : ProbeResult} (h : p.httpsOk = false) : Better p q = false := by
  rw [Better, h, Bool.false_and]

/-- A result is taken when it is better, and otherwise none is better still. -/
theorem Leading.record {p : ProbeResult} (h : Leading run done c) (hr : run.probe r = .result p) :
    Leading run (done ++ [r]) (record run r p c) := by
  have hown : ∀ q, run.probe r = .result q → q = p := fun q hq => Probed.result.inj (hq.symm.trans hr)
  rw [AutoSelector.record]
  cases hok : p.httpsOk with
  | false =>
    rw [if_neg (by decide)]
    rcases h with ⟨h1, h2, h3⟩ | ⟨w, b, h1, h2, h3, h4, h5, h6⟩
    · refine .inl ⟨h1, h2, List.forall_mem_append.mpr ⟨h3, List.forall_mem_singleton.mpr fun q hq => ?_⟩⟩
      rw [hown q hq, hok]
    · refine .inr ⟨w, b, h1, h2, List.mem_append_left _ h3, h4, h5, List.forall_mem_append.mpr ⟨h6, ?_⟩⟩
      exact List.forall_mem_singleton.mpr fun q hq => hown q hq ▸ not_better_of_not_ok hok
  | true =>
    rw [if_pos rfl]
    have hself : ∀ q, run.probe r = .result q → Better q p = false := fun q hq => hown q hq ▸ better_self p
    rcases h with ⟨h1, h2, h3⟩ | ⟨w, b, h1, h2, h3, h4, h5, h6⟩
    · rw [h2, Option.all_none, if_pos rfl]
      refine .inr ⟨r, p, rfl, rfl, List.mem_append_right _ (List.mem_singleton_self r), hr, hok, ?_⟩
      refine List.forall_mem_append.mpr ⟨fun t ht q hq => ?_, List.forall_mem_singleton.mpr hself⟩
      exact not_better_of_not_ok (h3 t ht q hq)
    · have hbest : (c.best.all fun best => Better p best) = Better p b := by rw [h2, Option.all_some]
      rw [hbest]
      cases hbetter : Better p b with
      | true =>
        rw [if_pos rfl]
        refine .inr ⟨r, p, rfl, rfl, List.mem_append_right _ (List.mem_singleton_self r), hr, hok, ?_⟩
        refine List.forall_mem_append.mpr ⟨fun t ht q hq => ?_, List.forall_mem_singleton.mpr hself⟩
        -- what was better than the new best was better than the old
        by_contra hq'
        have hlast := h6 t ht q hq
        rw [better_trans (Bool.not_eq_false _ ▸ hq') hbetter] at hlast
        cases hlast
      | false =>
        rw [if_neg (by decide)]
        refine .inr ⟨w, b, h1, h2, List.mem_append_left _ h3, h4, h5, List.forall_mem_append.mpr ⟨h6, ?_⟩⟩
        exact List.forall_mem_singleton.mpr fun q hq => hown q hq ▸ hbetter

/-- Recording does not change what was probed. -/
theorem record_probed (p : ProbeResult) (c : Comparing) : (record run r p c).probed = c.probed := by
  rw [record]
  split
  · split
    · rfl
    · rfl
  · rfl

/-- The checks are over when the measuring begins. -/
theorem measure_tcp (run : Run) (tcp : Route → Bool) (l : List Route) (c : Comparing) :
    measure { run with tcp := tcp } l c = measure run l c := by
  induction l generalizing c with
  | nil => rfl
  | cons r rest ih =>
    rw [measure, measure]
    simp only [ih]
    rfl

/-- Measuring the routes in turn keeps the best one in front. -/
theorem leading_measure (l : List Route) (h : Leading run c.probed c) :
    Leading run (measure run l c).probed (measure run l c) := by
  induction l generalizing c with
  | nil => exact h
  | cons r rest ih =>
    rw [measure]
    split
    · exact h
    · simp only
      have hpass (hr : ∀ p, run.probe r ≠ .result p) : Leading run (c.probed ++ [r])
          { c with probed := c.probed ++ [r] } := h.pass hr rfl rfl
      split
      · rename_i hprobe
        refine hpass fun p hp => ?_
        cases hp.symm.trans hprobe
      · rename_i hprobe
        refine ih (hpass fun p hp => ?_)
        cases hp.symm.trans hprobe
      · rename_i hprobe
        apply ih
        rw [record_probed]
        refine h.pass (fun p hp => ?_) rfl rfl
        cases hp.symm.trans hprobe
      · rename_i p hprobe
        apply ih
        rw [record_probed]
        exact Leading.record (c := { c with probed := c.probed ++ [r] }) h hprobe

end

/-! ## What a call does

The invariant says what the machine has done and that the rest of it leads to the outcome of
`runAsync`. So the order in which checks end does not matter, and a call that finishes gives the
outcome of the model without steps. -/

/-- The routes one call works on: four checks at a time, twenty-four in all, one probe at a
time, four in all. -/
structure Bounded (routes : List Route) (m : Machine) : Prop where
  atOnce : ∀ waiting active, m.stage = .sifting waiting active → active.length ≤ 4
  checks : m.checked.length ≤ 24
  once : m.checked.Nodup
  among : m.checked ⊆ routes
  probes : m.comparing.probed.length ≤ 4
  /-- No probe begins before the last check has ended. -/
  sequential : ∀ waiting active, m.stage = .sifting waiting active → m.comparing.probed = []

/-- The winner is the best of what was measured. -/
structure Honest (run : Run) (c : Comparing) : Prop where
  none_iff : c.winner = none ↔ ∀ r ∈ c.probed, ∀ p, run.probe r = .result p → p.httpsOk = false
  best : ∀ w, c.winner = some w → w ∈ c.probed ∧ ∃ p, c.best = some p ∧ run.probe w = .result p ∧
    p.httpsOk = true ∧ ∀ r ∈ c.probed, ∀ q, run.probe r = .result q → Better q p = false

/-- The one in front is honest: it was measured, and nothing measured is better. -/
theorem Leading.honest {run : Run} {c : Comparing} (h : Leading run c.probed c) : Honest run c := by
  rcases h with ⟨h1, -, h3⟩ | ⟨w, p, h1, h2, h3, h4, h5, h6⟩
  · refine ⟨iff_of_true h1 h3, fun w hw => ?_⟩
    rw [h1] at hw
    cases hw
  · refine ⟨⟨fun hnone => ?_, fun hall => ?_⟩, fun w' hw' => ?_⟩
    · rw [h1] at hnone
      cases hnone
    · rw [hall w h3 p h4] at h5
      cases h5
    · rw [← Option.some.inj (h1.symm.trans hw')]
      exact ⟨h3, p, h2, h4, h5, h6⟩

section
variable {lower : String → String} {call : Call} {s : AutoSelector}

theorem candidates_few (call : Call) (s : AutoSelector) :
    (call.candidates s).length ≤ 24 ∧ (call.candidates s).Nodup :=
  ⟨List.length_take_le 24 _, (List.take_sublist 24 _).nodup (nodup_eraseDups _)⟩

/-- The routes to probe, when these are reachable. -/
def Call.shortlisted (lower : String → String) (call : Call) (s : AutoSelector) (reachable : List Route) : List Route :=
  shortlist lower ((call.candidates s).filter fun r => r ∈ reachable)

/-- The outcome, when these are reachable. -/
def Call.measured (lower : String → String) (call : Call) (s : AutoSelector) (reachable : List Route) : Comparing :=
  measure call.run (call.shortlisted lower s reachable) (call.start s).comparing

/-- What is left to do when the probe of a route runs. -/
def resume (run : Run) (r : Route) (rest : List Route) (c : Comparing) : Comparing :=
  match run.probe r with
  | .over => { c with timedOut := true }
  | .slow => measure run rest c
  | .failed => measure run rest (record run r ⟨false, 0, 0⟩ c)
  | .result p => measure run rest (record run r p c)

/-- One more probe, or the budget of time is spent. -/
theorem measure_cons (run : Run) (r : Route) (rest : List Route) (c : Comparing) : measure run (r :: rest) c =
    if run.expired r then { c with timedOut := true } else resume run r rest { c with probed := c.probed ++ [r] } := by
  rw [measure]
  rfl

/-- What a machine has done, and that what is left to do leads to the outcome. -/
structure Inv (lower : String → String) (call : Call) (s : AutoSelector) (m : Machine) : Prop where
  begun : m.checked <+: call.candidates s
  sifting : ∀ waiting active, m.stage = .sifting waiting active →
    (waiting = [] ∨ m.checked ++ waiting = call.candidates s) ∧ active.length ≤ 4 ∧
      m.comparing = (call.start s).comparing
  measuring : ∀ rest probing, m.stage = .measuring rest probing →
    m.comparing.probed ++ rest = call.shortlisted lower s m.reachable ∧
      (match probing with
        | none => measure call.run rest m.comparing
        | some r => resume call.run r rest m.comparing) = call.measured lower s m.reachable
  finished : m.stage = .finished → m.comparing.probed <+: call.shortlisted lower s m.reachable ∧
    m.comparing = call.measured lower s m.reachable

/-- The invariant holds when a call starts. -/
theorem inv_start (lower : String → String) (call : Call) (s : AutoSelector) : Inv lower call s (call.start s) := by
  refine ⟨List.nil_prefix, fun waiting active h => ?_, fun rest probing h => ?_, fun h => ?_⟩
  · obtain ⟨hwaiting, hactive⟩ := Stage.sifting.inj h
    rw [← hwaiting, ← hactive]
    exact ⟨.inr rfl, Nat.zero_le _, rfl⟩
  · cases h
  · cases h

theorem Inv.moves {m m' : Machine} (hm : Inv lower call s m) (h : Moves lower (call.candidates s) call.run m m') :
    Inv lower call s m' := by
  cases h with
  | check hfree =>
    obtain ⟨hleft, -, hc⟩ := hm.sifting _ _ rfl
    have hall := hleft.resolve_left (List.cons_ne_nil _ _)
    refine ⟨⟨_, by rw [List.append_assoc, List.singleton_append]; exact hall⟩, fun waiting active h => ?_, nofun, nofun⟩
    obtain ⟨rfl, rfl⟩ := Stage.sifting.inj h
    refine ⟨.inr ?_, ?_, hc⟩
    · rw [List.append_assoc, List.singleton_append]
      exact hall
    · rw [List.length_cons]
      omega
  | answer hactive =>
    obtain ⟨hleft, hfour, hc⟩ := hm.sifting _ _ rfl
    refine ⟨hm.begun, fun waiting active h => ?_, nofun, nofun⟩
    obtain ⟨rfl, rfl⟩ := Stage.sifting.inj h
    exact ⟨hleft, (List.erase_sublist).length_le.trans hfour, hc⟩
  | stop =>
    obtain ⟨-, hfour, hc⟩ := hm.sifting _ _ rfl
    refine ⟨hm.begun, fun waiting active h => ?_, nofun, nofun⟩
    obtain ⟨rfl, rfl⟩ := Stage.sifting.inj h
    exact ⟨.inl rfl, hfour, hc⟩
  | compare =>
    obtain ⟨-, -, hc⟩ := hm.sifting _ _ rfl
    refine ⟨hm.begun, nofun, fun rest probing h => ?_, nofun⟩
    -- the measurement begins with nothing measured
    obtain ⟨rfl, rfl⟩ := Stage.measuring.inj h
    simp only at hc
    rw [hc]
    exact ⟨rfl, rfl⟩
  | expire hexpired =>
    obtain ⟨hlist, hvalue⟩ := hm.measuring _ _ rfl
    refine ⟨hm.begun, nofun, nofun, fun _ => ⟨⟨_, hlist⟩, ?_⟩⟩
    rw [← hvalue]
    simp only [measure_cons, if_pos hexpired]
  | ask hexpired =>
    obtain ⟨hlist, hvalue⟩ := hm.measuring _ _ rfl
    refine ⟨hm.begun, nofun, fun rest probing h => ?_, nofun⟩
    obtain ⟨rfl, rfl⟩ := Stage.measuring.inj h
    refine ⟨?_, ?_⟩
    · rw [← hlist, List.append_assoc, List.singleton_append]
    · rw [← hvalue]
      simp only [measure_cons, hexpired, Bool.false_eq_true, if_false]
  | cut hprobe =>
    obtain ⟨hlist, hvalue⟩ := hm.measuring _ _ rfl
    refine ⟨hm.begun, nofun, nofun, fun _ => ⟨⟨_, hlist⟩, ?_⟩⟩
    rw [← hvalue]
    simp only [resume, hprobe]
  | slow hprobe | failed hprobe =>
    -- a probe that failed or was too slow is measured, with no result
    obtain ⟨hlist, hvalue⟩ := hm.measuring _ _ rfl
    refine ⟨hm.begun, nofun, fun rest probing h => ?_, nofun⟩
    obtain ⟨rfl, rfl⟩ := Stage.measuring.inj h
    refine ⟨hlist, ?_⟩
    rw [← hvalue]
    simp only [resume, hprobe]
  | result hprobe =>
    obtain ⟨hlist, hvalue⟩ := hm.measuring _ _ rfl
    refine ⟨hm.begun, nofun, fun rest probing h => ?_, nofun⟩
    obtain ⟨rfl, rfl⟩ := Stage.measuring.inj h
    refine ⟨?_, ?_⟩
    · rw [record_probed]
      exact hlist
    · rw [← hvalue]
      simp only [resume, hprobe]
  | finish =>
    obtain ⟨hlist, hvalue⟩ := hm.measuring _ _ rfl
    exact ⟨hm.begun, nofun, nofun, fun _ => ⟨⟨_, hlist⟩, hvalue⟩⟩

theorem Call.Comes.inv {m : Machine} (h : call.Comes lower s m) : Inv lower call s m := by
  obtain ⟨es, hes⟩ := h
  exact advance_keeps (fun _ _ hm h => hm.moves h) (inv_start lower call s) hes

/-- **Few checks at a time, and few probes.** -/
theorem Inv.bounded {m : Machine} (h : Inv lower call s m) : Bounded (call.candidates s) m := by
  obtain ⟨hfew, hnodup⟩ := candidates_few call s
  have hprobed : m.comparing.probed.length ≤ 4 := by
    have hshort : (call.shortlisted lower s m.reachable).length ≤ 4 := List.length_take_le 4 _
    match hstage : m.stage with
    | .sifting waiting active =>
      rw [(h.sifting _ _ hstage).2.2]
      exact Nat.zero_le _
    | .measuring rest probing =>
      rw [← (h.measuring _ _ hstage).1, List.length_append] at hshort
      omega
    | .finished => exact (h.finished hstage).1.length_le.trans hshort
  refine ⟨fun waiting active hstage => (h.sifting _ _ hstage).2.1, h.begun.length_le.trans hfew,
    h.begun.sublist.nodup hnodup, h.begun.subset, hprobed, fun waiting active hstage => ?_⟩
  rw [(h.sifting _ _ hstage).2.2]
  rfl

/-- **A finished call did what `runAsync` computes** of the routes that were reachable. -/
theorem Inv.runAsync {m : Machine} (h : Inv lower call s m) (hfinished : m.stage = .finished) :
    m.comparing = AutoSelector.runAsync lower call.catalog call.networkKey
      { call.run with tcp := fun r => r ∈ m.reachable } s := by
  rw [(h.finished hfinished).2]
  exact (measure_tcp _ _ _ _).symm

/-- **The winner is the best of what was measured.** -/
theorem Inv.honest {m : Machine} (h : Inv lower call s m) (hfinished : m.stage = .finished) :
    Honest call.run m.comparing := by
  rw [(h.finished hfinished).2]
  exact (leading_measure _ (.inl ⟨rfl, rfl, fun r hr => absurd hr List.not_mem_nil⟩)).honest

end

/-! ## What is left to later calls

A route that failed is paused, and later calls pass it over until its time is up. Calls on
another network clear the pauses, and more than 600 of them are cut. -/

/-- The probe of a route ended without HTTPS. -/
def Machine.Failed (run : Run) (m : Machine) (r : Route) : Prop :=
  r ∈ m.comparing.probed ∧ (∀ rest, m.stage ≠ .measuring rest (some r)) ∧
    (run.probe r = .failed ∨ ∃ p, run.probe r = .result p ∧ p.httpsOk = false)

/-- Nothing but candidates gets a new cooldown, and a route that failed has one. -/
structure Cooled (routes : List Route) (run : Run) (base : AutoSelector) (m : Machine) : Prop where
  network : m.comparing.selector.network = base.network
  among : ∀ rest probing, m.stage = .measuring rest probing → rest ⊆ routes ∧ ∀ r, probing = some r → r ∈ routes
  untouched : ∀ r, r ∉ routes → m.comparing.selector.cooldown.get? r = base.cooldown.get? r
  failed : ∀ r, m.Failed run r → m.comparing.selector.cooldown.get? r = some (run.ended r + 2 * MINUTE)

/-- A result does not change the network that the selector is on. -/
theorem record_network (run : Run) (r : Route) (p : ProbeResult) (c : Comparing) :
    (record run r p c).selector.network = c.selector.network := by
  rw [record]
  split
  · split
    · rfl
    · rfl
  · rfl

theorem get?_record (run : Run) (r t : Route) (p : ProbeResult) (c : Comparing) :
    (record run r p c).selector.cooldown.get? t =
      if r = t ∧ p.httpsOk = false then some (run.ended r + 2 * MINUTE) else c.selector.cooldown.get? t := by
  rw [record]
  cases hok : p.httpsOk with
  | true =>
    have hnot : ¬(r = t ∧ true = false) := fun h => Bool.noConfusion h.2
    rw [if_pos rfl, if_neg hnot]
    split
    · rfl
    · rfl
  | false =>
    rw [if_neg (by decide)]
    simp only [OrderedMap.get?_put, and_true]

/-- Only routes that answered are measured. -/
theorem shortlist_subset (lower : String → String) (ready : List Route) : shortlist lower ready ⊆ ready := by
  intro r hr
  rcases List.mem_append.mp (List.mem_eraseDups.mp (List.mem_of_mem_take hr)) with h | h
  · exact distinctBy_subset _ _ h
  · exact h

section
variable {lower : String → String} {routes : List Route} {run : Run} {base : AutoSelector}

/-- What a result leaves. -/
theorem Cooled.record {r : Route} {p : ProbeResult} {rest checked reachable : List Route} {c : Comparing}
    (h : Cooled routes run base ⟨.measuring rest (some r), checked, reachable, c⟩)
    (hfailed : run.probe r = .failed ∨ (∃ q, run.probe r = .result q ∧ q.httpsOk = false) → p.httpsOk = false) :
    Cooled routes run base ⟨.measuring rest none, checked, reachable, record run r p c⟩ := by
  obtain ⟨hrest, hr⟩ := h.among _ _ rfl
  refine ⟨(record_network run r p c).trans h.network, fun rest' probing hstage => ?_, fun t ht => ?_, fun t ht => ?_⟩
  · obtain ⟨rfl, rfl⟩ := Stage.measuring.inj hstage
    exact ⟨hrest, nofun⟩
  · have hne : ¬(r = t ∧ p.httpsOk = false) := fun hrt => ht (hrt.1 ▸ hr r rfl)
    rw [get?_record, if_neg hne]
    exact h.untouched t ht
  · obtain ⟨hprobed, -, hkind⟩ := ht
    rw [record_probed] at hprobed
    rw [get?_record]
    by_cases hrt : r = t
    · rw [if_pos ⟨hrt, hfailed (hrt ▸ hkind)⟩, hrt]
    · rw [if_neg fun hand => hrt hand.1]
      refine h.failed t ⟨hprobed, fun rest' hstage => ?_, hkind⟩
      exact hrt (Option.some.inj (Stage.measuring.inj hstage).2)

/-- What a probe leaves that ends without a result. -/
theorem Cooled.ended {stage : Stage} {r : Route} {rest checked reachable : List Route} {c : Comparing} {late : Bool}
    (h : Cooled routes run base ⟨.measuring rest (some r), checked, reachable, c⟩)
    (hprobe : run.probe r = .over ∨ run.probe r = .slow) (hstage : stage = .finished ∨ stage = .measuring rest none) :
    Cooled routes run base ⟨stage, checked, reachable, { c with timedOut := late }⟩ := by
  obtain ⟨hrest, -⟩ := h.among _ _ rfl
  refine ⟨h.network, fun rest' probing hs => ?_, h.untouched, fun t ht => ?_⟩
  · rcases hstage with rfl | rfl
    · cases hs
    · obtain ⟨rfl, rfl⟩ := Stage.measuring.inj hs
      exact ⟨hrest, nofun⟩
  · obtain ⟨hprobed, -, hkind⟩ := ht
    refine h.failed t ⟨hprobed, fun rest' hs => ?_, hkind⟩
    rw [← Option.some.inj (Stage.measuring.inj hs).2] at hkind
    rcases hprobe with hp | hp
    · rw [hp] at hkind
      rcases hkind with hk | ⟨q, hk, -⟩
      · cases hk
      · cases hk
    · rw [hp] at hkind
      rcases hkind with hk | ⟨q, hk, -⟩
      · cases hk
      · cases hk

/-- While no probe runs, only the stage and the time change. -/
theorem Cooled.stays {stage stage' : Stage} {checked checked' reachable reachable' : List Route} {c : Comparing}
    {late : Bool} (h : Cooled routes run base ⟨stage, checked, reachable, c⟩) (hidle : ∀ rest r, stage ≠ .measuring rest (some r))
    (hamong : ∀ rest probing, stage' = .measuring rest probing → rest ⊆ routes ∧ ∀ r, probing = some r → r ∈ routes) :
    Cooled routes run base ⟨stage', checked', reachable', { c with timedOut := late }⟩ :=
  ⟨h.network, hamong, h.untouched, fun t ht => h.failed t ⟨ht.1, fun rest => hidle rest t, ht.2.2⟩⟩

/-- Every move keeps the pauses of the routes that failed. -/
theorem Cooled.moves {m m' : Machine} (hm : Cooled routes run base m) (h : Moves lower routes run m m') :
    Cooled routes run base m' := by
  cases h with
  | check _ => exact hm.stays nofun nofun
  | answer _ => exact hm.stays nofun nofun
  | stop => exact hm.stays nofun nofun
  | compare =>
    refine hm.stays nofun fun rest probing h => ?_
    obtain ⟨rfl, rfl⟩ := Stage.measuring.inj h
    exact ⟨fun r hr => List.mem_of_mem_filter (shortlist_subset lower _ hr), nofun⟩
  | expire _ => exact hm.stays nofun nofun
  | @ask r rest _ _ c _ =>
    obtain ⟨hrest, -⟩ := hm.among _ _ rfl
    refine ⟨hm.network, fun rest' probing h => ?_, hm.untouched, fun t ht => ?_⟩
    · obtain ⟨rfl, rfl⟩ := Stage.measuring.inj h
      exact ⟨fun a ha => hrest (List.mem_cons_of_mem _ ha), fun a ha => Option.some.inj ha ▸ hrest List.mem_cons_self⟩
    · obtain ⟨hprobed, hidle, hkind⟩ := ht
      refine hm.failed t ⟨?_, nofun, hkind⟩
      rcases List.mem_append.mp hprobed with hold | hnew
      · exact hold
      · -- the probe of the new route still runs
        exact absurd (congrArg _ (congrArg _ (List.mem_singleton.mp hnew).symm)) (hidle rest)
  | cut hprobe => exact hm.ended (.inl hprobe) (.inl rfl)
  | slow hprobe => exact hm.ended (.inr hprobe) (.inr rfl)
  | failed hprobe => exact hm.record fun _ => rfl
  | result hprobe =>
    refine hm.record fun h => ?_
    rcases h with h | ⟨q, hq, hok⟩
    · cases hprobe.symm.trans h
    · rw [Probed.result.inj (hprobe.symm.trans hq)]
      exact hok
  | finish => exact hm.stays nofun nofun

end

section
variable {lower : String → String} {call : Call} {s : AutoSelector} {m : Machine} {key : String} {till : ℤ} {r : Route}

theorem Call.Comes.cooled (h : call.Comes lower s m) : Cooled (call.candidates s) call.run (call.renewed s) m := by
  obtain ⟨es, hes⟩ := h
  refine advance_keeps (fun _ _ hm h => hm.moves h) ?_ hes
  exact ⟨rfl, nofun, fun _ _ => rfl, fun t ht => absurd ht.1 List.not_mem_nil⟩

/-- The network of a call is the selector's from then on. -/
theorem renewed_network (call : Call) (s : AutoSelector) : (call.renewed s).network = call.networkKey := by
  show (renew call.networkKey s).network = call.networkKey
  rw [renew]
  by_cases h : s.network ≠ call.networkKey
  · rw [if_pos h]
  · rw [if_neg h]
    exact not_not.mp h

/-- A call on this network before this time, which finds no more than 600 cooldowns. -/
structure Call.Within (key : String) (till : ℤ) (call : Call) (s : AutoSelector) : Prop where
  network : call.networkKey = key
  early : call.run.now < till
  few : s.cooldown.entries.length ≤ 600

/-- A route that has to wait. -/
structure Waits (key : String) (till : ℤ) (r : Route) (s : AutoSelector) : Prop where
  network : s.network = key
  cooldown : s.cooldown.get? r = some till

/-- A call on the same network within the time forgets no pause. -/
theorem Waits.renewed (hs : Waits key till r s) (h : call.Within key till s) : (call.renewed s).cooldown = s.cooldown := by
  show (renew call.networkKey s).cooldown = s.cooldown
  rw [renew, if_neg (not_not.mpr (hs.network.trans h.network.symm))]
  exact if_neg (Nat.not_lt.mpr h.few)

/-- A candidate is one of the available routes. -/
theorem candidates_subset_available (call : Call) (s : AutoSelector) :
    call.candidates s ⊆ available call.catalog call.run.now (renew call.networkKey s) :=
  candidates_subset _ _ _

/-- **A route that waits is no candidate.** -/
theorem Waits.not_candidate (hs : Waits key till r s) (h : call.Within key till s) : r ∉ call.candidates s := by
  intro hr
  have havailable := (List.mem_filter.mp (candidates_subset_available call s hr)).2
  have hcooldown : (renew call.networkKey s).cooldown = s.cooldown := hs.renewed h
  rw [hcooldown, hs.cooldown, Option.all_some, decide_eq_true_eq] at havailable
  exact absurd h.early (not_lt.mpr havailable)

/-- Whether the call ends or its caller cancels it, the route goes on waiting. -/
theorem Waits.comes (hs : Waits key till r s) (h : call.Within key till s) (hm : call.Comes lower s m) :
    Waits key till r m.comparing.selector := by
  refine ⟨hm.cooled.network.trans ((renewed_network call s).trans h.network), ?_⟩
  rw [hm.cooled.untouched r (hs.not_candidate h), hs.renewed h]
  exact hs.cooldown

/-- From a selector to what such a call leaves, finished or not. -/
def Follows (lower : String → String) (key : String) (till : ℤ) (s s' : AutoSelector) : Prop :=
  ∃ (call : Call) (m : Machine), call.Within key till s ∧ call.Comes lower s m ∧ s' = m.comparing.selector

/-- Call after call the route goes on waiting. -/
theorem Waits.follows {s' : AutoSelector} (hs : Waits key till r s)
    (h : Relation.ReflTransGen (Follows lower key till) s s') : Waits key till r s' := by
  induction h with
  | refl => exact hs
  | tail _ hstep ih =>
    obtain ⟨call, m, hwithin, hcomes, rfl⟩ := hstep
    exact ih.comes hwithin hcomes

/-- **A route that failed waits for two minutes.** -/
theorem Call.Comes.waits (h : call.Comes lower s m) (hr : m.Failed call.run r) :
    Waits call.networkKey (call.run.ended r + 2 * MINUTE) r m.comparing.selector :=
  ⟨h.cooled.network.trans (renewed_network call s), h.cooled.failed r hr⟩

/-- **Of another network nothing is left** when a call begins. -/
theorem start_of_new {s' : AutoSelector} (hs : s.network ≠ call.networkKey) (hs' : s'.network ≠ call.networkKey) :
    call.start s = call.start s' := by
  have hrenew : renew call.networkKey s = renew call.networkKey s' := by
    rw [renew, renew, if_pos hs, if_pos hs']
  rw [Call.start, Call.start, Call.candidates, Call.candidates, Call.renewed, Call.renewed, choose, choose, hrenew]

/-- A call on a new network does not see what was learned elsewhere. -/
theorem comes_of_new {s' : AutoSelector} (hs : s.network ≠ call.networkKey) (hs' : s'.network ≠ call.networkKey)
    (h : call.Comes lower s m) : call.Comes lower s' m := by
  have hstart := start_of_new hs hs'
  have hroutes : call.candidates s = call.candidates s' := (Stage.sifting.inj (Machine.mk.inj hstart).1).1
  rw [Call.Comes, ← hstart, ← hroutes]
  exact h

/-! ## Every call can finish

From every point of a call some events lead to its end. So a call is never stuck, whatever was
awaited. -/

theorem advance_append (lower : String → String) (routes : List Route) (run : Run) (es es' : List Event) (m : Machine) :
    advance lower routes run (es ++ es') m = (advance lower routes run es m).bind (advance lower routes run es') := by
  induction es generalizing m with
  | nil => rfl
  | cons e es ih =>
    rw [List.cons_append, advance, advance, Option.bind_assoc]
    congr 1
    exact funext ih

/-- Some events end the call from here. -/
def Machine.Finishes (lower : String → String) (routes : List Route) (run : Run) (m : Machine) : Prop :=
  ∃ es m', advance lower routes run es m = some m' ∧ m'.stage = .finished

/-- A machine that can finish after an event could before. -/
theorem Machine.Finishes.after {routes : List Route} {run : Run} {m m' : Machine} (h : m'.Finishes lower routes run)
    (e : Event) (he : step lower routes run m e = some m') : m.Finishes lower routes run := by
  obtain ⟨es, m'', hes, hfinished⟩ := h
  refine ⟨e :: es, m'', ?_, hfinished⟩
  rw [advance, he]
  exact hes

/-- The rest of the lemmas show that every phase can come to its end; here the last one. -/
theorem finishes_finished (lower : String → String) (routes : List Route) (run : Run) (checked reachable : List Route)
    (c : Comparing) : Machine.Finishes lower routes run ⟨.finished, checked, reachable, c⟩ :=
  ⟨[], _, rfl, rfl⟩

/-- The probe that runs ends in one of four ways. -/
theorem finishes_probing {routes : List Route} {run : Run} {rest checked reachable : List Route}
    (hrest : ∀ c, Machine.Finishes lower routes run ⟨.measuring rest none, checked, reachable, c⟩) (r : Route)
    (c : Comparing) : Machine.Finishes lower routes run ⟨.measuring rest (some r), checked, reachable, c⟩ := by
  match hprobe : run.probe r with
  | .over =>
    apply (finishes_finished lower routes run checked reachable { c with timedOut := true }).after .reply
    simp only [step, hprobe]
  | .slow =>
    apply (hrest c).after .reply
    simp only [step, hprobe]
  | .failed =>
    apply (hrest (record run r ⟨false, 0, 0⟩ c)).after .reply
    simp only [step, hprobe]
  | .result p =>
    apply (hrest (record run r p c)).after .reply
    simp only [step, hprobe]

/-- The phase that measures ends with its list. -/
theorem finishes_measuring (lower : String → String) (routes : List Route) (run : Run) (rest checked reachable : List Route)
    (c : Comparing) : Machine.Finishes lower routes run ⟨.measuring rest none, checked, reachable, c⟩ := by
  induction rest generalizing c with
  | nil => exact (finishes_finished lower routes run checked reachable c).after .finish rfl
  | cons r rest ih =>
    cases hexpired : run.expired r with
    | true =>
      exact (finishes_finished lower routes run checked reachable _).after .expire (if_pos hexpired)
    | false =>
      apply (finishes_probing ih r { c with probed := c.probed ++ [r] }).after .ask
      simp only [step, hexpired, Bool.false_eq_true, if_false]

/-- The phase that checks ends when the checks do. -/
theorem finishes_sifting (lower : String → String) (routes : List Route) (run : Run) (active checked reachable : List Route)
    (c : Comparing) : Machine.Finishes lower routes run ⟨.sifting [] active, checked, reachable, c⟩ := by
  induction active generalizing reachable with
  | nil => exact (finishes_measuring lower routes run _ checked reachable c).after .compare rfl
  | cons r active ih =>
    refine (ih (if run.tcp r then reachable ++ [r] else reachable)).after (.answer r) ?_
    simp only [step, if_pos List.mem_cons_self, List.erase_cons_head]

/-- **No call is stuck**: from every point it comes to, it can finish. -/
theorem Call.Comes.finishes (h : call.Comes lower s m) :
    ∃ m', call.Comes lower s m' ∧ m'.stage = .finished := by
  obtain ⟨es, hes⟩ := h
  have hfinishes : m.Finishes lower (call.candidates s) call.run := by
    obtain ⟨stage, checked, reachable, c⟩ := m
    match stage with
    | .sifting waiting active => exact (finishes_sifting lower _ _ active checked reachable c).after .stop rfl
    | .measuring rest none => exact finishes_measuring lower _ _ rest checked reachable c
    | .measuring rest (some r) =>
      exact finishes_probing (finishes_measuring lower _ _ rest checked reachable) r c
    | .finished => exact finishes_finished lower _ _ checked reachable c
  obtain ⟨es', m', hes', hfinished⟩ := hfinishes
  refine ⟨m', ⟨es ++ es', ?_⟩, hfinished⟩
  rw [advance_append, hes]
  exact hes'

/-! ## The selector over all calls

The bounds, the winner and the pauses are put together here, for the selector over all its calls. -/

/-- **The winner is the best route measured.** At every point of a call the checks and probes
are few. When it is finished it has a winner exactly when a probe returned HTTPS, and none is
better. A route that failed is no candidate for two minutes, whatever calls follow on its
network, until one comes on another network or finds more than 600 cooldowns. Of other
networks nothing is left. -/
theorem winner_is_best (h : call.Comes lower s m) :
    Bounded (call.candidates s) m ∧
    (m.stage = .finished → Honest call.run m.comparing ∧
      m.comparing = runAsync lower call.catalog call.networkKey { call.run with tcp := fun r => r ∈ m.reachable } s) ∧
    (∀ r, m.Failed call.run r → ∀ s' (next : Call),
      Relation.ReflTransGen (Follows lower call.networkKey (call.run.ended r + 2 * MINUTE)) m.comparing.selector s' →
      next.Within call.networkKey (call.run.ended r + 2 * MINUTE) s' → r ∉ next.candidates s') ∧
    (s.network ≠ call.networkKey → ∀ s', s'.network ≠ call.networkKey → call.Comes lower s' m) := by
  refine ⟨h.inv.bounded, fun hfinished => ⟨h.inv.honest hfinished, h.inv.runAsync hfinished⟩, ?_, ?_⟩
  · intro r hr s' next hfollows hwithin
    exact ((h.waits hr).follows hfollows).not_candidate hwithin
  · exact fun hs s' hs' => comes_of_new hs hs' h

end

/-! ## One route that is down

A call in which one route is down, and one in which two answer. A call on another network in
between makes the selector forget the pause. -/

def downRoute : Route :=
  ⟨"Down", "down.example", 443, "2d6c1a2e-6f0b-4c1f-9d0e-8a4b6d2c7f10", "tls", "down.example", "chrome", "", "", ""⟩

/-- A call in which the route's port is open and HTTPS fails. -/
def downCall (networkKey : String) : Call :=
  ⟨[downRoute], networkKey,
    ⟨0, fun _ => true, fun _ => false, fun _ => .result ⟨false, 0, 0⟩, fun _ => 0⟩⟩

/-- On a network that is new the route is measured, and its cooldown is all that is left. -/
theorem downCall_comes {networkKey : String} {s : AutoSelector} (h : s.network ≠ networkKey) :
    (downCall networkKey).candidates s = [downRoute] ∧
      (downCall networkKey).Comes id s ⟨.finished, [downRoute], [downRoute],
        ⟨⟨.empty, .put .empty downRoute (2 * MINUTE), networkKey, 6⟩, none, none, 1, false, [downRoute]⟩⟩ := by
  have hrenew : renew networkKey s = ⟨.empty, .empty, networkKey, 0⟩ := by
    rw [renew, if_pos h]
    rfl
  have hchoose : choose [downRoute] networkKey 0 s = ([downRoute], ⟨.empty, .empty, networkKey, 6⟩) := by
    rw [choose, hrenew]
    have havailable : available [downRoute] 0 ⟨.empty, .empty, networkKey, 0⟩ = [downRoute] := by
      rw [available, eraseDups_of_nodup (List.nodup_singleton _)]
      rfl
    simp only [havailable]
    have hleaders : leaders [downRoute] 0 ⟨.empty, .empty, networkKey, 0⟩ = [] := by
      refine List.eq_nil_iff_forall_not_mem.mpr fun r hr => ?_
      cases (leaders_spec _ _ hr).2
    rw [hleaders]
    rfl
  have hcandidates : (downCall networkKey).candidates s = [downRoute] := congrArg Prod.fst hchoose
  refine ⟨hcandidates, [.check, .answer downRoute, .compare, .ask, .reply, .finish], ?_⟩
  have hrenewed : (downCall networkKey).renewed s = ⟨.empty, .empty, networkKey, 6⟩ := congrArg Prod.snd hchoose
  rw [Call.start, hcandidates, hrenewed]
  rfl

def slowRoute : Route := { downRoute with name := "Slow", host := "slow.example" }

def fastRoute : Route := { downRoute with name := "Fast", host := "fast.example" }

/-- A call in which two routes answer. -/
def twoCall : Call :=
  ⟨[slowRoute, fastRoute], "home", ⟨0, fun _ => true, fun _ => false,
    fun r => .result (if r = fastRoute then ⟨true, 9000, 20⟩ else ⟨true, 1000, 50⟩), fun _ => 0⟩⟩

/-- Both are checked at a time, and measured one after the other. -/
theorem twoCall_comes : ∃ m, twoCall.Comes id fresh m ∧ m.stage = .finished ∧ m.comparing.winner = some fastRoute ∧
    m.comparing.probed = [slowRoute, fastRoute] := by
  have hrun : ((advance id (twoCall.candidates fresh) twoCall.run
      [.check, .check, .answer fastRoute, .answer slowRoute, .compare, .ask, .reply, .ask, .reply, .finish]
      (twoCall.start fresh)).map fun m => (m.stage, m.comparing.winner, m.comparing.probed)) =
        some (.finished, some fastRoute, [slowRoute, fastRoute]) := by decide +kernel
  obtain ⟨m, hm, heq⟩ := Option.map_eq_some_iff.mp hrun
  obtain ⟨hstage, hrest⟩ := Prod.mk.inj heq
  obtain ⟨hwinner, hprobed⟩ := Prod.mk.inj hrest
  exact ⟨m, ⟨_, hm⟩, hstage, hwinner, hprobed⟩

/-- Of two routes that were measured the winner is the faster one; and a route that is down is no candidate of
the next call on its network. -/
theorem winner_is_best_two :
    (∃ m, m.comparing.winner = some fastRoute ∧ m.comparing.probed = [slowRoute, fastRoute] ∧
      Bounded (twoCall.candidates fresh) m ∧ Honest twoCall.run m.comparing) ∧
    downRoute ∉ (downCall "home").candidates ⟨.empty, .put .empty downRoute (2 * MINUTE), "home", 6⟩ := by
  constructor
  · obtain ⟨m, hcomes, hfinished, hwinner, hprobed⟩ := twoCall_comes
    obtain ⟨hbounded, hhonest, -⟩ := winner_is_best hcomes
    exact ⟨m, hwinner, hprobed, hbounded, (hhonest hfinished).1⟩
  · obtain ⟨-, hcomes⟩ := downCall_comes (show fresh.network ≠ "home" by decide)
    refine (winner_is_best hcomes).2.2.1 downRoute ⟨List.mem_singleton_self _, nofun, .inr ⟨_, rfl, rfl⟩⟩ _ _ .refl ?_
    exact ⟨rfl, by decide, by decide⟩

/-- Between two calls on a network there was one on another, and the cooldown is gone. -/
theorem cooldown_forgotten : ∃ m1 m2 : Machine,
    (downCall "home").Comes id fresh m1 ∧ m1.stage = .finished ∧ m1.Failed (downCall "home").run downRoute ∧
      (downCall "office").Comes id m1.comparing.selector m2 ∧ m2.stage = .finished ∧
      (downCall "home").run.now < (downCall "home").run.ended downRoute + 2 * MINUTE ∧
      downRoute ∈ (downCall "home").candidates m2.comparing.selector := by
  obtain ⟨-, hhome⟩ := downCall_comes (show fresh.network ≠ "home" by decide)
  have hmoved : (⟨.empty, .put .empty downRoute (2 * MINUTE), "home", 6⟩ : AutoSelector).network ≠ "office" :=
    show "home" ≠ "office" by decide
  obtain ⟨-, hoffice⟩ := downCall_comes hmoved
  have hback : (⟨.empty, .put .empty downRoute (2 * MINUTE), "office", 6⟩ : AutoSelector).network ≠ "home" :=
    show "office" ≠ "home" by decide
  refine ⟨_, _, hhome, rfl, ⟨List.mem_singleton_self _, nofun, .inr ⟨_, rfl, rfl⟩⟩, hoffice, rfl, by decide, ?_⟩
  rw [(downCall_comes hback).1]
  exact List.mem_singleton_self _

end AutoSelector

end VlessCard
