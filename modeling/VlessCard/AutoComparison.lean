/-
`AutoSelection.compare`: the finalists measured one after another, and the winner.

Everything the comparison looks at (the results of servers, two clocks, the network,
permission to download, its own cancellation) may change while it runs. So time is
counted in ticks, one for each look and two for a probe, and an `Env` answers at
every tick as it likes. What a probe or another thread does to the results shows in
later answers, so no run is lost by this.

The argument has two parts. The loop spends at most what is left of seven seconds on
each probe, so the time of all probes together is bounded whatever else takes time.
The rest reads each result once: a server that was probed and has no newer sample
than before enters the ranking without a speed.
-/
import VlessCard.AutoSelection

set_option autoImplicit false

namespace VlessCard

open Comparator Diversity KeyedList

/-- What the comparison sees at each tick. -/
structure Env where
  state : ℕ → Server → ServerState
  now : ℕ → Int64
  /-- The clock of the budgets, in milliseconds. -/
  elapsed : ℕ → ℤ
  active : ℕ → Bool
  validNetwork : ℕ → Bool
  allowDownload : ℕ → Bool
  /-- Whether the probe started at a tick ends with an exception other than its timeout. -/
  throws : ℕ → Bool

namespace AutoSelection

/-- One probe: `attemptedAt` is the time of the sample before it. -/
structure Attempt where
  server : Server
  budget : ℤ
  attemptedAt : Int64
  start : ℕ
  stop : ℕ

/-- How the loop ended. -/
inductive Ended where
  | finished (tick : ℕ)
  | networkLost
  | cancelled

structure Loop where
  attempts : List Attempt
  /-- The ticks at which the network was looked at. -/
  asked : List ℕ
  ended : Ended

/-- What a comparison leaves: `result` is `none` after an exception, `some none` for
`null`; `ranked` is what the winner was chosen by, if it came to that. -/
structure Outcome where
  probes : List Attempt
  asked : List ℕ
  /-- The probes with the results they were checked against. -/
  checks : List (Attempt × ServerState) := []
  /-- The calls of `onInconclusive`. -/
  inconclusive : List (Server × Int64) := []
  ranking : Option ((Server → ServerState) × Int64) := none
  result : Option (Option Server)

section
variable (U : Jvm) (E : Env) (net : String) (started : ℤ)

/-- The loop over the finalists, from a tick on. -/
def loop : ℕ → List Server → Loop
  | t, [] => { attempts := [], asked := [], ended := .finished t }
  | t, server :: rest =>
    if !E.active t then { attempts := [], asked := [], ended := .cancelled }
    else if !E.validNetwork (t + 1) then { attempts := [], asked := [t + 1], ended := .networkLost }
    else if !E.allowDownload (t + 2) then { attempts := [], asked := [t + 1], ended := .finished (t + 3) }
    else if !needsSample (E.state (t + 3) server) net (E.now (t + 4)) then
      let more := loop (t + 5) rest
      { more with asked := (t + 1) :: more.asked }
    else
      let remaining := TOTAL_MS - max (E.elapsed (t + 5) - started) 0
      if remaining < MIN_PROBE_MS then { attempts := [], asked := [t + 1], ended := .finished (t + 6) }
      else
        let attempt : Attempt :=
          { server, budget := min PROBE_MS remaining, attemptedAt := (E.state (t + 6) server).speedCheckedAt
            start := t + 7, stop := t + 8 }
        if E.throws (t + 7) then { attempts := [attempt], asked := [t + 1], ended := .cancelled }
        else
          let more := loop (t + 8) rest
          { attempts := attempt :: more.attempts, asked := (t + 1) :: more.asked, ended := more.ended }

/-- The results the probes are checked against, one tick each. -/
def checkAll : ℕ → List Attempt → List (Attempt × ServerState)
  | _, [] => []
  | t, p :: rest => (p, E.state t p.server) :: checkAll (t + 1) rest

/-- Whether a result has no newer sample than before a probe. -/
def inconclusive (s : ServerState) (p : Attempt) : Bool := decide (s.speedCheckedAt ≤ p.attemptedAt)

/-- `results`: the state of each finalist, one tick each. -/
def resultAt (t : ℕ) (valid : List Server) (s : Server) : ServerState := E.state (t + valid.idxOf s) s

/-- The local `effective`. -/
def effective (probes : List Attempt) (result : Server → ServerState) (s : Server) : ServerState :=
  if (probes.find? fun p => p.server.id U = s.id U).any fun p => inconclusive (result s) p then
    { result s with speedCheckedAt := 0 }
  else result s

/-- The finalists, by latency when a game runs. -/
def entrants (candidates : List Server) (gaming : Bool) (hint : Server → Int32) : List Server :=
  if gaming then
    (sortedWith (compareOn fun s => ServerChoice.latencyScore ((E.state 0 s).evidenceFor net) (E.state 0 s).realMs)
      ((distinctBy (Server.id U) candidates).filter fun s => (E.state 0 s).works)).take 3
  else finalists U candidates (E.state 0) net (E.now 1) hint

/-- The winner among the working finalists. -/
def winner (valid : List Server) (gaming : Bool) (probes : List Attempt) (result : Server → ServerState) (now : Int64) :
    Option Server :=
  let working := valid.filter fun s => (result s).works
  if gaming then
    minWithOrNull (compareOn fun s => ServerChoice.latencyScore ((result s).evidenceFor net) (result s).realMs) working
  else minWithOrNull (ServerChoice.downloadOrder (effective U probes result) net now) working

/-- What follows the loop when it ended by itself. -/
def conclude (valid : List Server) (gaming : Bool) (probes : List Attempt) (asked : List ℕ) (t : ℕ) : Outcome :=
  if !E.active t then { probes, asked, result := none }
  else if !E.validNetwork (t + 1) then { probes, asked := asked ++ [t + 1], result := some none }
  else
    let checks := checkAll E (t + 2) probes
    let calls := (checks.filter fun c => inconclusive c.2 c.1).map fun c => (c.1.server, c.1.attemptedAt)
    let result := resultAt E (t + 2 + probes.length) valid
    let now := E.now (t + 2 + probes.length + valid.length)
    { probes, asked := asked ++ [t + 1], checks, inconclusive := calls, ranking := some (result, now)
      result := some (winner U net valid gaming probes result now) }

def finish (valid : List Server) (gaming : Bool) (l : Loop) : Outcome :=
  match l.ended with
  | .cancelled => { probes := l.attempts, asked := l.asked, result := none }
  | .networkLost => { probes := l.attempts, asked := l.asked, result := some none }
  | .finished t => conclude U E net valid gaming l.attempts l.asked t

def compare (candidates : List Server) (gaming : Bool) (hint : Server → Int32) : Outcome :=
  let valid := entrants U E net candidates gaming hint
  finish U E net valid gaming
    (if gaming then { attempts := [], asked := [], ended := .finished 3 } else loop E net (E.elapsed 2) 3 valid)

/-- How long a probe lasts. -/
def duration (p : Attempt) : ℤ := E.elapsed p.stop - E.elapsed p.start

end

/-! ## The loop

The loop is a recursion over the finalists that are left, with the tick as its clock. What one
run of it is certain of is said once, as `LoopFacts`, and proved by the induction of the loop
itself: each case adds one question or one probe to what the rest of the loop is known to do. -/

section
variable {U : Jvm} {E : Env} {net : String} {started : ℤ}

/-- Probes run in the order of their ticks. -/
structure Sequential (t : ℕ) (attempts : List Attempt) : Prop where
  from_tick : ∀ p ∈ attempts, t ≤ p.start ∧ p.stop = p.start + 1
  pairwise : attempts.Pairwise fun p q => p.stop ≤ q.start

/-- Where nothing is probed nothing is out of turn. -/
theorem sequential_nil (t : ℕ) : Sequential t [] :=
  { from_tick := by simp, pairwise := List.Pairwise.nil }

/-- What comes after a time comes after an earlier one. -/
theorem Sequential.mono {t t' : ℕ} {attempts : List Attempt} (h : Sequential t' attempts) (ht : t ≤ t') :
    Sequential t attempts :=
  { from_tick := fun p hp => ⟨Nat.le_trans ht (h.from_tick p hp).1, (h.from_tick p hp).2⟩, pairwise := h.pairwise }

theorem Sequential.cons {t : ℕ} {p : Attempt} {attempts : List Attempt} (h : Sequential p.stop attempts)
    (hp : t ≤ p.start) (hstop : p.stop = p.start + 1) : Sequential t (p :: attempts) where
  from_tick := by
    intro q hq
    rcases List.mem_cons.mp hq with rfl | hq
    · exact ⟨hp, hstop⟩
    · have hfrom := h.from_tick q hq
      exact ⟨by omega, hfrom.2⟩
  pairwise := List.pairwise_cons.mpr ⟨fun q hq => (h.from_tick q hq).1, h.pairwise⟩

/-- What one run of the loop is certain of. -/
structure LoopFacts (E : Env) (t : ℕ) (valid : List Server) (l : Loop) : Prop where
  sequential : Sequential t l.attempts
  budgets : ∀ p ∈ l.attempts, MIN_PROBE_MS ≤ p.budget ∧ p.budget ≤ PROBE_MS
  servers : (l.attempts.map Attempt.server).Sublist valid
  asked : l.ended ≠ .networkLost → ∀ a ∈ l.asked, E.validNetwork a = true
  lost : l.ended = .networkLost → ∃ a ∈ l.asked, E.validNetwork a = false
  finished : ∀ t', l.ended = .finished t' → t ≤ t' ∧ ∀ p ∈ l.attempts, p.stop ≤ t'

/-- Nothing was probed. -/
theorem LoopFacts.idle {t : ℕ} {valid : List Server} {l : Loop} (h : l.attempts = [])
    (hasked : l.ended ≠ .networkLost → ∀ a ∈ l.asked, E.validNetwork a = true)
    (hlost : l.ended = .networkLost → ∃ a ∈ l.asked, E.validNetwork a = false)
    (hfinished : ∀ t', l.ended = .finished t' → t ≤ t') : LoopFacts E t valid l where
  sequential := h ▸ sequential_nil t
  budgets := by simp [h]
  servers := by simp [h]
  asked := hasked
  lost := hlost
  finished := fun t' ht => ⟨hfinished t' ht, by simp [h]⟩

/-- A question more that was answered well. -/
theorem LoopFacts.asked_cons {t a : ℕ} {valid : List Server} {l : Loop} (h : LoopFacts E t valid l)
    (hvalid : E.validNetwork a = true) (hlost : l.ended ≠ .networkLost) :
    ∀ b ∈ a :: l.asked, E.validNetwork b = true := by
  intro b hmem
  rcases List.mem_cons.mp hmem with rfl | hmem
  · exact hvalid
  · exact h.asked hlost b hmem

/-- The question that was answered badly stays among them. -/
theorem LoopFacts.lost_cons {t a : ℕ} {valid : List Server} {l : Loop} (h : LoopFacts E t valid l)
    (hlost : l.ended = .networkLost) : ∃ b ∈ a :: l.asked, E.validNetwork b = false := by
  obtain ⟨b, hmem, hfalse⟩ := h.lost hlost
  exact ⟨b, List.mem_cons_of_mem _ hmem, hfalse⟩

/-- A probe gets what is left, within its own limits. -/
theorem remaining_budget {r : ℤ} (h : ¬ r < MIN_PROBE_MS) :
    MIN_PROBE_MS ≤ min PROBE_MS r ∧ min PROBE_MS r ≤ PROBE_MS := by
  have hconst : MIN_PROBE_MS ≤ PROBE_MS := by decide
  omega

/-- **What the loop over the finalists leaves**: probes in turn, within the budget. -/
theorem loop_facts (t : ℕ) (valid : List Server) : LoopFacts E t valid (loop E net started t valid) := by
  fun_induction loop E net started t valid with
  | case1 t => exact .idle rfl (by simp) (by simp) (by simp)
  | case2 t server rest ha => exact .idle rfl (by simp) (by simp) (by simp)
  -- the network is gone: the answer just asked for says so
  | case3 t server rest ha hv => exact .idle rfl (by simp) (fun _ => ⟨t + 1, by simp, by simpa using hv⟩) (by simp)
  | case4 t server rest ha hv hd =>
    refine .idle rfl ?_ (by simp) ?_
    · intro _ a hmem
      rw [List.mem_singleton.mp hmem]
      simpa using hv
    · intro t' h
      cases h
      omega
  -- a server that needs no sample costs ticks and nothing else
  | case5 t server rest ha hv hd hn more ih =>
    have hvalid : E.validNetwork (t + 1) = true := by simpa using hv
    refine { sequential := ih.sequential.mono (by omega), budgets := ih.budgets, servers := ih.servers.cons server,
             asked := ih.asked_cons hvalid, lost := ih.lost_cons, finished := ?_ }
    intro t' h
    obtain ⟨hle, hstop⟩ := ih.finished t' h
    exact ⟨by omega, hstop⟩
  | case6 t server rest ha hv hd hn remaining hr =>
    refine .idle rfl ?_ (by simp) ?_
    · intro _ a hmem
      rw [List.mem_singleton.mp hmem]
      simpa using hv
    · intro t' h
      cases h
      omega
  | case7 t server rest ha hv hd hn remaining hr attempt hthrow =>
    have hvalid : E.validNetwork (t + 1) = true := by simpa using hv
    have hbudget := remaining_budget hr
    refine { sequential := (sequential_nil _).cons (by show t ≤ t + 7; omega) rfl, budgets := ?_, servers := ?_,
             asked := ?_, lost := by simp, finished := ?_ }
    · intro p hp
      rw [List.mem_singleton.mp hp]
      exact hbudget
    · exact (List.nil_sublist rest).cons_cons server
    · intro _ a hmem
      rw [List.mem_singleton.mp hmem]
      exact hvalid
    · intro t' h
      cases h
  | case8 t server rest ha hv hd hn remaining hr attempt hthrow more ih =>
    have hvalid : E.validNetwork (t + 1) = true := by simpa using hv
    have hbudget := remaining_budget hr
    refine { sequential := ih.sequential.cons (p := attempt) (by show t ≤ t + 7; omega) rfl, budgets := ?_,
             servers := ih.servers.cons_cons server, asked := ih.asked_cons hvalid, lost := ih.lost_cons, finished := ?_ }
    · intro p hp
      rcases List.mem_cons.mp hp with rfl | hp
      · exact hbudget
      · exact ih.budgets p hp
    · intro t' h
      obtain ⟨hle, hstop⟩ := ih.finished t' h
      refine ⟨by omega, ?_⟩
      intro p hp
      rcases List.mem_cons.mp hp with rfl | hp
      · exact hle
      · exact hstop p hp

/-- What is left of the time covers all probes that are still made. -/
theorem loop_time (hclock : Monotone E.elapsed) (t : ℕ) (valid : List Server) (hstart : started ≤ E.elapsed t)
    (hprobe : ∀ p ∈ (loop E net started t valid).attempts, duration E p ≤ p.budget)
    (hne : (loop E net started t valid).attempts ≠ []) :
    ((loop E net started t valid).attempts.map (duration E)).sum ≤ TOTAL_MS - (E.elapsed t - started) := by
  fun_induction loop E net started t valid with
  | case1 t => exact absurd rfl hne
  | case2 t server rest ha => exact absurd rfl hne
  | case3 t server rest ha hv => exact absurd rfl hne
  | case4 t server rest ha hv hd => exact absurd rfl hne
  | case5 t server rest ha hv hd hn more ih =>
    -- the switch of networks is awaited, and no probe is made in this step
    have hlater : E.elapsed t ≤ E.elapsed (t + 5) := hclock (by omega)
    have hmore : (more.attempts.map (duration E)).sum ≤ TOTAL_MS - (E.elapsed (t + 5) - started) :=
      ih (by omega) hprobe hne
    show (more.attempts.map (duration E)).sum ≤ _
    omega
  | case6 t server rest ha hv hd hn remaining hr => exact absurd rfl hne
  | case7 t server rest ha hv hd hn remaining hr attempt hthrow =>
    -- the probe threw: it is the last one, and its time is within what was left
    have hlater : E.elapsed t ≤ E.elapsed (t + 5) := hclock (by omega)
    have hdur : duration E attempt ≤ min PROBE_MS remaining := hprobe attempt List.mem_cons_self
    rw [List.map_cons, List.map_nil, List.sum_cons, List.sum_nil]
    omega
  | case8 t server rest ha hv hd hn remaining hr attempt hthrow more ih =>
    -- the probe came to an end, and the loop goes on with what is left then
    have hlater : E.elapsed t ≤ E.elapsed (t + 5) := hclock (by omega)
    have hbefore : E.elapsed t ≤ E.elapsed (t + 7) := hclock (by omega)
    have hafter : E.elapsed (t + 7) ≤ E.elapsed (t + 8) := hclock (by omega)
    have hdur : duration E attempt ≤ min PROBE_MS remaining := hprobe attempt List.mem_cons_self
    have hlength : duration E attempt = E.elapsed (t + 8) - E.elapsed (t + 7) := rfl
    rw [List.map_cons, List.sum_cons]
    by_cases hlast : more.attempts = []
    · rw [hlast, List.map_nil, List.sum_nil]
      omega
    · -- the later probes have what is left at the end of this one
      have hmore : (more.attempts.map (duration E)).sum ≤ TOTAL_MS - (E.elapsed (t + 8) - started) :=
        ih (by omega) (fun p hp => hprobe p (List.mem_cons_of_mem _ hp)) hlast
      omega

end

/-! ## What follows the loop

Behind the loop the results are read again, one tick each, and a server counts with its new speed
only when a sample newer than the probe is there. The two parts meet in `compare_bounded_honest`:
the bounds come from the loop, honesty from what follows it. -/

section
variable {U : Jvm} {E : Env} {net : String}

theorem map_checkAll (t : ℕ) (probes : List Attempt) : (checkAll E t probes).map Prod.fst = probes := by
  induction probes generalizing t with
  | nil => rfl
  | cons p rest ih => rw [checkAll, List.map_cons, ih]

theorem mem_checkAll {t : ℕ} {probes : List Attempt} {c : Attempt × ServerState} (h : c ∈ checkAll E t probes) :
    ∃ tick, t ≤ tick ∧ c.2 = E.state tick c.1.server := by
  induction probes generalizing t with
  | nil => cases h
  | cons p rest ih =>
    rw [checkAll] at h
    rcases List.mem_cons.mp h with rfl | h
    · exact ⟨t, Nat.le_refl t, rfl⟩
    · obtain ⟨tick, hle, heq⟩ := ih h
      exact ⟨tick, by omega, heq⟩

/-- The final result of a server, without its speed when it was probed and has no newer
sample. -/
def counted (probes : List Attempt) (result : Server → ServerState) (s : Server) : ServerState :=
  if ∃ p ∈ probes, p.server = s ∧ (result s).speedCheckedAt ≤ p.attemptedAt then { result s with speedCheckedAt := 0 }
  else result s

/-- Looked up by id, a probe is the one of the server. -/
theorem effective_eq_counted {valid : List Server} {probes : List Attempt} {result : Server → ServerState}
    (hn : (valid.map (Server.id U)).Nodup) (hsub : (probes.map Attempt.server).Sublist valid) {s : Server}
    (hs : s ∈ valid) : effective U probes result s = counted probes result s := by
  have hkeyed : Keyed (Server.id U) valid := .of_nodup hn
  have hprobes : (probes.map fun p => p.server.id U).Nodup := by
    have hmap := hn.sublist (hsub.map (Server.id U))
    rwa [List.map_map] at hmap
  -- the finalists have distinct ids, so the first probe with the id is the only one
  have hfind : (probes.find? fun p => p.server.id U = s.id U).any (inconclusive (result s)) = true ↔
      ∃ p ∈ probes, p.server = s ∧ (result s).speedCheckedAt ≤ p.attemptedAt := by
    rw [Option.any_eq_true]
    constructor
    · rintro ⟨p, hp, hold⟩
      have hid := List.find?_some hp
      rw [decide_eq_true_eq] at hid
      have hmem : p.server ∈ valid := hsub.subset (List.mem_map_of_mem (List.mem_of_find?_eq_some hp))
      exact ⟨p, List.mem_of_find?_eq_some hp, hkeyed _ hmem _ hs hid, decide_eq_true_eq.mp hold⟩
    · rintro ⟨p, hp, rfl, hold⟩
      refine ⟨p, ?_, decide_eq_true hold⟩
      obtain ⟨q, hq⟩ := Option.isSome_iff_exists.mp
        (List.find?_isSome (p := fun q : Attempt => decide (q.server.id U = p.server.id U)).mpr
          ⟨p, hp, decide_eq_true rfl⟩)
      have hid := List.find?_some hq
      rw [decide_eq_true_eq] at hid
      have hqp : q = p := List.inj_on_of_nodup_map hprobes (List.mem_of_find?_eq_some hq) hp hid
      exact hqp ▸ hq
  rw [effective, counted]
  by_cases h : ∃ p ∈ probes, p.server = s ∧ (result s).speedCheckedAt ≤ p.attemptedAt
  · rw [if_pos (hfind.mpr h), if_pos h]
  · rw [if_neg fun hany => h (hfind.mp hany), if_neg h]

theorem nodup_entrants {candidates : List Server} {gaming : Bool} {hint : Server → Int32} :
    ((entrants U E net candidates gaming hint).map (Server.id U)).Nodup := by
  rw [entrants]
  by_cases hg : gaming = true
  · rw [if_pos hg]
    have hall : ((sortedWith (compareOn fun s => ServerChoice.latencyScore ((E.state 0 s).evidenceFor net)
        (E.state 0 s).realMs) ((distinctBy (Server.id U) candidates).filter fun s => (E.state 0 s).works)).map
          (Server.id U)).Nodup :=
      ((perm_sortedWith _ _).map _).nodup_iff.mpr (nodup_filter (nodup_distinctBy _ _) _)
    exact hall.sublist ((List.take_sublist _ _).map _)
  · rw [if_neg hg]
    exact nodup_finalists

/-- What a comparison promises. -/
structure BoundedHonest (U : Jvm) (E : Env) (net : String) (valid : List Server) (gaming : Bool) (o : Outcome) :
    Prop where
  oneAtATime : o.probes.Pairwise fun p q => p.stop ≤ q.start
  budgets : ∀ p ∈ o.probes, 800 ≤ p.budget ∧ p.budget ≤ 2500
  total : (o.probes.map (duration E)).sum ≤ 7000
  /-- The winner is a working finalist, and without a game none is before it. -/
  winner : ∀ s, o.result = some (some s) → ∃ result now, o.ranking = some (result, now) ∧
    (∀ t ∈ valid, ∃ tick, result t = E.state tick t ∧ ∀ p ∈ o.probes, p.stop ≤ tick) ∧
    s ∈ valid ∧ (result s).works = true ∧
    (gaming = false → ∀ t ∈ valid, (result t).works = true →
      (ServerChoice.downloadOrder (counted o.probes result) net now s t).isLE = true)
  /-- Each probe is checked once, after it; a call is made for those without a newer
  sample and for no other. -/
  reported : o.result.isSome = true → (∀ a ∈ o.asked, E.validNetwork a = true) →
    o.checks.map Prod.fst = o.probes ∧
    (∀ c ∈ o.checks, ∃ tick, c.2 = E.state tick c.1.server ∧ ∀ p ∈ o.probes, p.stop ≤ tick) ∧
    (o.inconclusive.map fun c => c.1.id U).Nodup ∧
    ∀ s at_, (s, at_) ∈ o.inconclusive ↔
      ∃ c ∈ o.checks, c.1.server = s ∧ c.1.attemptedAt = at_ ∧ c.2.speedCheckedAt ≤ at_
  silent : (∃ a ∈ o.asked, E.validNetwork a = false) → o.inconclusive = [] ∧ o.result = some none

/-- The probes of a run keep their bounds whatever comes after the loop. -/
structure ProbesBounded (E : Env) (probes : List Attempt) : Prop where
  oneAtATime : probes.Pairwise fun p q => p.stop ≤ q.start
  budgets : ∀ p ∈ probes, 800 ≤ p.budget ∧ p.budget ≤ 2500
  total : (probes.map (duration E)).sum ≤ 7000

/-- A run that ends without a ranking reports nothing. -/
theorem BoundedHonest.of_aborted {valid : List Server} {gaming : Bool} {probes : List Attempt} {asked : List ℕ}
    (hb : ProbesBounded E probes) {result : Option (Option Server)}
    (hresult : result = none ∧ (∀ a ∈ asked, E.validNetwork a = true) ∨
      result = some none ∧ ∃ a ∈ asked, E.validNetwork a = false) :
    BoundedHonest U E net valid gaming { probes, asked, result } where
  oneAtATime := hb.oneAtATime
  budgets := hb.budgets
  total := hb.total
  winner := by
    intro s hs
    rcases hresult with ⟨rfl, -⟩ | ⟨rfl, -⟩
    · cases hs
    · cases hs
  reported := by
    intro hsome hasked
    rcases hresult with ⟨rfl, -⟩ | ⟨-, a, ha, hfalse⟩
    · cases hsome
    · rw [hasked a ha] at hfalse
      cases hfalse
  silent := by
    rintro ⟨a, ha, hfalse⟩
    rcases hresult with ⟨-, hasked⟩ | ⟨rfl, -⟩
    · rw [hasked a ha] at hfalse
      cases hfalse
    · exact ⟨rfl, rfl⟩

/-- The winner is one of those that are valid. -/
theorem mem_of_winner {valid : List Server} {gaming : Bool} {probes : List Attempt} {result : Server → ServerState}
    {now : Int64} {s : Server} (h : winner U net valid gaming probes result now = some s) :
    s ∈ valid ∧ (result s).works = true := by
  rw [← List.mem_filter (p := fun s => (result s).works)]
  rw [winner] at h
  by_cases hg : gaming = true
  · rw [if_pos hg] at h
    exact mem_of_minWithOrNull _ h
  · rw [if_neg hg] at h
    exact mem_of_minWithOrNull _ h

/-- Without a game no working finalist is before the winner. -/
theorem winner_isLE {valid : List Server} {probes : List Attempt} {result : Server → ServerState} {now : Int64}
    (hn : (valid.map (Server.id U)).Nodup) (hsub : (probes.map Attempt.server).Sublist valid) {s : Server}
    (h : winner U net valid false probes result now = some s) {t : Server} (ht : t ∈ valid)
    (hw : (result t).works = true) : (ServerChoice.downloadOrder (counted probes result) net now s t).isLE = true := by
  have hle := minWithOrNull_isLE h t (List.mem_filter.mpr ⟨ht, hw⟩)
  rw [ServerChoice.downloadOrder, effective_eq_counted hn hsub (mem_of_winner h).1,
    effective_eq_counted hn hsub ht] at hle
  exact hle

/-- **The result is honest**: what is said of a server was measured. -/
theorem conclude_honest {valid : List Server} {gaming : Bool} {probes : List Attempt} {asked : List ℕ} {t : ℕ}
    (hb : ProbesBounded E probes) (hn : (valid.map (Server.id U)).Nodup)
    (hsub : (probes.map Attempt.server).Sublist valid) (hasked : ∀ a ∈ asked, E.validNetwork a = true)
    (hstop : ∀ p ∈ probes, p.stop ≤ t) : BoundedHonest U E net valid gaming (conclude U E net valid gaming probes asked t) := by
  rw [conclude]
  by_cases ha : E.active t = true
  · by_cases hv : E.validNetwork (t + 1) = true
    · rw [if_neg (by simp [ha]), if_neg (by simp [hv])]
      refine { oneAtATime := hb.oneAtATime, budgets := hb.budgets, total := hb.total, winner := ?_, reported := ?_,
               silent := ?_ }
      · intro s hs
        have hwinner := Option.some.inj hs
        obtain ⟨hmem, hw⟩ := mem_of_winner hwinner
        refine ⟨_, _, rfl, ?_, hmem, hw, ?_⟩
        · intro x hx
          refine ⟨t + 2 + probes.length + valid.idxOf x, rfl, ?_⟩
          intro p hp
          have := hstop p hp
          omega
        -- the order compares what counted, which is what the honest results are
        · intro hg x hx hxw
          rw [hg] at hwinner
          exact winner_isLE hn hsub hwinner hx hxw
      · intro _ _
        refine ⟨map_checkAll _ _, ?_, ?_, ?_⟩
        · intro c hc
          obtain ⟨tick, hle, heq⟩ := mem_checkAll hc
          refine ⟨tick, heq, ?_⟩
          intro p hp
          have := hstop p hp
          omega
        · -- the calls are a part of the checks, and those have distinct servers
          have hids : ((checkAll E (t + 2) probes).map fun c => c.1.server.id U).Nodup := by
            have hmap := hn.sublist (hsub.map (Server.id U))
            rw [List.map_map, ← map_checkAll (E := E) (t + 2) probes, List.map_map] at hmap
            exact hmap
          rw [List.map_map]
          exact hids.sublist (List.filter_sublist.map _)
        · intro s at_
          simp only [List.mem_map, List.mem_filter, inconclusive, decide_eq_true_eq, Prod.mk.injEq]
          constructor
          · rintro ⟨c, ⟨hc, hold⟩, rfl, rfl⟩
            exact ⟨c, hc, rfl, rfl, hold⟩
          · rintro ⟨c, hc, rfl, rfl, hold⟩
            exact ⟨c, ⟨hc, hold⟩, rfl, rfl⟩
      · rintro ⟨a, hmem, hfalse⟩
    -- every answer asked for was yes, the last one included
        rcases List.mem_append.mp hmem with hmem | hmem
        · rw [hasked a hmem] at hfalse
          cases hfalse
        · rw [List.mem_singleton.mp hmem, hv] at hfalse
          cases hfalse
    · rw [if_neg (by simp [ha]), if_pos (by simp [hv])]
      apply BoundedHonest.of_aborted hb
      exact .inr ⟨rfl, t + 1, by simp, eq_false_of_ne_true hv⟩
  · rw [if_pos (by simp [ha])]
    apply BoundedHonest.of_aborted hb
    exact .inl ⟨rfl, hasked⟩

/-- However the loop ended. -/
theorem finish_honest {valid : List Server} {gaming : Bool} {l : Loop} {t : ℕ} (hf : LoopFacts E t valid l)
    (hn : (valid.map (Server.id U)).Nodup) (htotal : (l.attempts.map (duration E)).sum ≤ 7000) :
    BoundedHonest U E net valid gaming (finish U E net valid gaming l) := by
  have hb : ProbesBounded E l.attempts :=
    { oneAtATime := hf.sequential.pairwise, budgets := hf.budgets, total := htotal }
  rw [finish]
  cases hended : l.ended with
  | cancelled =>
    apply BoundedHonest.of_aborted hb
    exact .inl ⟨rfl, hf.asked (by simp [hended])⟩
  | networkLost =>
    apply BoundedHonest.of_aborted hb
    exact .inr ⟨rfl, hf.lost hended⟩
  | finished t' => exact conclude_honest hb hn hf.servers (hf.asked (by simp [hended])) (hf.finished t' hended).2

/-- **The comparison is bounded and honest.** Whatever changes while it runs, when the
clock does not go back and every probe keeps to its budget. -/
theorem compare_bounded_honest (U : Jvm) (E : Env) (net : String) (candidates : List Server) (gaming : Bool)
    (hint : Server → Int32) (hclock : Monotone E.elapsed)
    (hprobe : ∀ p ∈ (compare U E net candidates gaming hint).probes, duration E p ≤ p.budget) :
    BoundedHonest U E net (entrants U E net candidates gaming hint) gaming (compare U E net candidates gaming hint) := by
  -- nothing after the loop makes a probe
  have hprobes : ∀ l : Loop, (finish U E net (entrants U E net candidates gaming hint) gaming l).probes = l.attempts := by
    intro l
    rw [finish]
    split
    · rfl
    · rfl
    · rw [conclude]
      split
      · rfl
      · split
        · rfl
        · rfl
  rw [compare, hprobes] at hprobe
  rw [compare]
  by_cases hg : gaming = true
  · rw [if_pos hg]
    -- a game compares latencies alone: no loop, no probes
    apply finish_honest (t := 3)
    · exact .idle rfl (by simp) (by simp) (by simp)
    · exact nodup_entrants
    · simp
  · rw [if_neg hg] at hprobe ⊢
    apply finish_honest (loop_facts 3 _) nodup_entrants
    by_cases hne : (loop E net (E.elapsed 2) 3 (entrants U E net candidates gaming hint)).attempts = []
    · rw [hne]
      simp
    · have htime := loop_time hclock 3 _ (hclock (by omega)) hprobe hne
      have hlater : E.elapsed 2 ≤ E.elapsed 3 := hclock (by omega)
      have htotal : TOTAL_MS = 7000 := rfl
      omega

end

/-- Two servers on a clock of 100 ms a tick: one is measured first, one needs nothing. -/
theorem compare_bounded_honest_two :
    let a : Server := { name := "a", protocol := "vless", address := "a.com", port := 443, secret := "s" }
    let b : Server := { a with name := "b", address := "b.com" }
    let E : Env :=
      { state := fun _ s => if s = b then
          { realMs := 100, kbps := 3000, speedNetwork := "wifi", speedCheckedAt := 400000 } else { realMs := 50 }
        now := fun _ => 400000, elapsed := fun t => 100 * t, active := fun _ => true, validNetwork := fun _ => true
        allowDownload := fun _ => true, throws := fun _ => false }
    let o := compare Jvm.ascii E "wifi" [a, b] false fun _ => 0
    o.probes.map (fun p => (p.server, p.budget)) = [(a, 2500)] ∧ o.result = some (some b) ∧
      BoundedHonest Jvm.ascii E "wifi" (entrants Jvm.ascii E "wifi" [a, b] false fun _ => 0) false o := by
  intro a b E o
  refine ⟨by decide +kernel, by decide +kernel, ?_⟩
  apply compare_bounded_honest
  · intro t t' h
    show 100 * (t : ℤ) ≤ 100 * (t' : ℤ)
    omega
  · decide +kernel

/-- While a game runs the winner is the server of least latency, whatever its speed. -/
theorem game_prefers_latency :
    let a : Server := { name := "a", protocol := "vless", address := "a.com", port := 443, secret := "s" }
    let b : Server := { a with name := "b", address := "b.com" }
    let state : Server → ServerState := fun s =>
      { realMs := if s = a then 900 else 30, kbps := if s = a then 50000 else 1000, speedNetwork := "wifi"
        speedCheckedAt := 400000 }
    let E : Env :=
      { state := fun _ => state, now := fun _ => 400000, elapsed := fun _ => 0, active := fun _ => true
        validNetwork := fun _ => true, allowDownload := fun _ => true, throws := fun _ => false }
    (compare Jvm.ascii E "wifi" [a, b] true fun _ => 0).result = some (some b) ∧
      ServerChoice.downloadOrder state "wifi" 400000 b a = .gt := by
  decide +kernel

end AutoSelection

end VlessCard
