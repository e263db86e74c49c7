/-
`ProbeRace.run`: probes that run at once, where enough successes cancel the others.

Each position of the list has a coroutine, which starts lazily, may be held back by a
delay, waits for a permit and then probes; the steps of all of them interleave freely.
Almost every step moves one coroutine (`Move`), and what a move keeps is kept by the
run: a permit is held by who is between its grant and its release, and a coroutine has
reported once when it is past its report, and not before. The step of another kind is a
cancellation. It leads to the report of a skipped probe everywhere but in a coroutine
that has not begun: its body never runs, and nothing is reported.
-/
import Mathlib.Algebra.BigOperators.Group.Finset.Piecewise
import Mathlib.Algebra.Order.BigOperators.Group.Finset
import Mathlib.Tactic.NormNum

set_option autoImplicit false

namespace VlessCard

structure Probe where
  realMs : Int32
  bigOk : Option Bool
  ytOk : Option Bool
  error : String
  tgOk : Option Bool
  kbps : Int32
  ytKbps : Int32
  deriving DecidableEq

def Probe.works (p : Probe) : Bool := 0 < p.realMs && p.bigOk ≠ some false

def Tester.SKIPPED : Probe := ⟨0, none, none, "пропущено", none, 0, 0⟩

namespace ProbeRace

/-- Where a coroutine is. -/
inductive Phase where
  /-- Lazy, and not started. -/
  | new
  /-- Started, before its first dispatch. -/
  | queued
  | staggered
  /-- About to ask for a permit. -/
  | ready
  | waiting
  | holding
  | probing
  /-- With a result that is counted and not reported. -/
  | found (r : Probe) (reached : Bool)
  /-- Cancelling the jobs from this position on. -/
  | cancelling (next : ℕ)
  | leaving
  | done
  /-- Cancelled before its first dispatch: completed without its body. -/
  | never
  deriving DecidableEq

/-- The permits it has. -/
def Phase.held : Phase → ℕ
  | .holding | .probing | .found _ _ | .cancelling _ | .leaving => 1
  | _ => 0

/-- Whether it has reported. -/
def Phase.told : Phase → Bool
  | .cancelling _ | .leaving | .done => true
  | _ => false

/-- The arguments of a race; what `skip` and `probe` answer is left to the run. -/
structure Race where
  indices : List ℤ
  parallel : ℤ
  stopAfter : ℤ
  staggerMs : ℤ

structure State where
  phase : ℕ → Phase
  cancelled : ℕ → Bool
  /-- How many jobs the caller has started. -/
  started : ℕ
  permits : ℕ
  successes : ℕ
  /-- The calls of `onEach`: position, index and probe. -/
  reports : List (ℕ × ℤ × Probe)

inductive Event where
  /-- The caller starts its next job. -/
  | start
  | dispatch (p : ℕ)
  /-- The delay is over. -/
  | wake (p : ℕ)
  | acquire (p : ℕ)
  | grant (p : ℕ)
  /-- A look at the successes and at `skip`, which answers `skips`. -/
  | look (p : ℕ) (skips : Bool)
  /-- The probe returns. -/
  | result (p : ℕ) (r : Probe)
  | report (p : ℕ)
  | cancelNext (p : ℕ)
  | leave (p : ℕ)
  /-- A `CancellationException` at a suspension point. -/
  | interrupt (p : ℕ)

variable (c : Race)

def Race.size : ℕ := c.indices.length

/-- `parallel.coerceAtLeast(1)`. -/
def Race.limit : ℕ := (max c.parallel 1).toNat

/-- `stopAfter.coerceAtLeast(1)`. -/
def Race.enough : ℤ := max c.stopAfter 1

/-- How long a position is held back. -/
def Race.stagger (p : ℕ) : ℤ := if 0 < c.staggerMs then (p / 2 : ℕ) * min c.staggerMs 500 else 0

def initial : State := ⟨fun _ => .new, fun _ => false, 0, c.limit, 0, []⟩

namespace State

def move (s : State) (p : ℕ) (b : Phase) : State := { s with phase := Function.update s.phase p b }

def onEach (s : State) (p : ℕ) (r : Probe) : State :=
  { s with reports := s.reports ++ [(p, c.indices.getD p 0, r)] }

/-- `cancel()` of a job. -/
def cancel (s : State) (k : ℕ) : State :=
  { s with
    cancelled := Function.update s.cancelled k true
    -- a job that was never started is completed at once
    phase := if s.phase k = .new then Function.update s.phase k .never else s.phase }

end State

/-- One step; `none` where it cannot be taken. -/
def step (s : State) : Event → Option State
  | .start =>
    if s.started < c.size then
      some { s with
        started := s.started + 1
        phase := if s.phase s.started = .new then Function.update s.phase s.started .queued else s.phase }
    else none
  | .dispatch p =>
    match s.phase p with
    | .queued => some (s.move p (if s.cancelled p then .never else if 0 < c.stagger p then .staggered else .ready))
    | _ => none
  | .wake p =>
    match s.phase p with
    | .staggered => if s.cancelled p then none else some (s.move p .ready)
    | _ => none
  | .acquire p =>
    match s.phase p with
    | .ready => some (if 0 < s.permits then { s.move p .holding with permits := s.permits - 1 } else s.move p .waiting)
    | _ => none
  | .grant p =>
    match s.phase p with
    | .waiting =>
      if s.cancelled p = false ∧ 0 < s.permits then some { s.move p .holding with permits := s.permits - 1 }
      else none
    | _ => none
  | .look p skips =>
    match s.phase p with
    | .holding =>
      some (if c.enough ≤ s.successes ∨ skips = true then (s.move p .leaving).onEach c p Tester.SKIPPED
        else s.move p .probing)
    | _ => none
  | .result p r =>
    match s.phase p with
    | .probing =>
      some (if r.works then
          { s.move p (.found r (c.enough ≤ (s.successes + 1 : ℕ))) with successes := s.successes + 1 }
        else s.move p (.found r false))
    | _ => none
  | .report p =>
    match s.phase p with
    | .found r reached => some ((s.move p (if reached then .cancelling 0 else .leaving)).onEach c p r)
    | _ => none
  | .cancelNext p =>
    match s.phase p with
    | .cancelling k =>
      some (if k < c.size then (if k = p then s else s.cancel k).move p (.cancelling (k + 1)) else s.move p .leaving)
    | _ => none
  | .leave p =>
    match s.phase p with
    | .leaving => some { s.move p .done with permits := s.permits + 1 }
    | _ => none
  | .interrupt p =>
    match s.phase p with
    | .staggered | .waiting => if s.cancelled p then some ((s.move p .done).onEach c p Tester.SKIPPED) else none
    -- the permit is released on the way out
    | .probing => some { (s.move p .done).onEach c p Tester.SKIPPED with permits := s.permits + 1 }
    | _ => none

def run (s : State) : List Event → Option State
  | [] => some s
  | e :: es => (step c s e).bind fun t => run t es

/-! ## What a step can do

A step starts a coroutine, moves one to its next phase, or cancels a job. A move changes one
coroutine and perhaps the permits, and may report. -/

/-- One coroutine moves to another phase. -/
structure Move (s t : State) (p : ℕ) (b : Phase) : Prop where
  phase : t.phase = Function.update s.phase p b
  cancelled : t.cancelled = s.cancelled
  started : t.started = s.started
  permits : t.permits + b.held = s.permits + (s.phase p).held
  reports : (s.phase p).told = b.told ∧ t.reports = s.reports ∨
    (s.phase p).told = false ∧ b.told = true ∧ ∃ r, t.reports = s.reports ++ [(p, c.indices.getD p 0, r)]
  begun : s.phase p ≠ .new ∧ s.phase p ≠ .never ∧ b ≠ .new ∧ b ≠ .queued
  doomed : b = .never ↔ s.phase p = .queued ∧ s.cancelled p = true

variable {c} {s t : State}

/-- A move that reports nothing: what has to be shown of the phases and the permits. -/
theorem move_quiet {p : ℕ} {a b : Phase} (hp : s.phase p = a) (m n : ℕ)
    (hm : m + b.held = s.permits + a.held) (htold : a.told = b.told)
    (hbegun : a ≠ .new ∧ a ≠ .never ∧ b ≠ .new ∧ b ≠ .queued)
    (hdoomed : b = .never ↔ a = .queued ∧ s.cancelled p = true) :
    Move c s { s.move p b with permits := m, successes := n } p b := by
  rw [← hp] at hm htold hbegun hdoomed
  exact ⟨rfl, rfl, rfl, hm, .inl ⟨htold, rfl⟩, hbegun, hdoomed⟩

/-- A move that reports a result, with the same conditions. -/
theorem move_report {p : ℕ} {a b : Phase} (hp : s.phase p = a) (m : ℕ) (r : Probe)
    (hm : m + b.held = s.permits + a.held) (htold : a.told = false ∧ b.told = true)
    (hbegun : a ≠ .new ∧ a ≠ .never ∧ b ≠ .new ∧ b ≠ .queued)
    (hdoomed : b = .never ↔ a = .queued ∧ s.cancelled p = true) :
    Move c s { (s.move p b).onEach c p r with permits := m } p b := by
  rw [← hp] at hm htold hbegun hdoomed
  exact ⟨rfl, rfl, rfl, hm, .inr ⟨htold.1, htold.2, r, rfl⟩, hbegun, hdoomed⟩

/-- The step is a start, a move, or the cancellation of another job. -/
theorem step_cases {e : Event} (h : step c s e = some t) :
    (e = .start ∧ s.started < c.size ∧ t = { s with
      started := s.started + 1
      phase := if s.phase s.started = .new then Function.update s.phase s.started .queued else s.phase }) ∨
    (∃ p b, Move c s t p b) ∨
    (∃ p k, e = .cancelNext p ∧ s.phase p = .cancelling k ∧ k < c.size ∧ k ≠ p ∧
      t = (s.cancel k).move p (.cancelling (k + 1))) := by
  -- event by event, each from the one phase in which it can happen
  cases e with
  | start =>
    rw [step] at h
    split at h
    · rename_i hlt
      exact .inl ⟨rfl, hlt, (Option.some.inj h).symm⟩
    · cases h
  | dispatch p =>
    simp only [step] at h
    split at h
    · rename_i hp
      rw [← Option.some.inj h]
      -- a dispatched probe was cancelled before it began, or it begins
      by_cases hc : s.cancelled p = true
      · rw [if_pos hc]
        exact .inr (.inl ⟨p, .never, move_quiet hp s.permits s.successes rfl rfl (by decide) (by simp [hc])⟩)
      · rw [if_neg hc]
        split
        · exact .inr (.inl ⟨p, .staggered, move_quiet hp s.permits s.successes rfl rfl (by decide) (by simp [hc])⟩)
        · exact .inr (.inl ⟨p, .ready, move_quiet hp s.permits s.successes rfl rfl (by decide) (by simp [hc])⟩)
    · cases h
  | wake p =>
    simp only [step] at h
    split at h
    · rename_i hp
      split at h
      · cases h
      · rw [← Option.some.inj h]
        exact .inr (.inl ⟨p, .ready, move_quiet hp s.permits s.successes rfl rfl (by decide) (by simp)⟩)
    · cases h
  | acquire p =>
    simp only [step] at h
    split at h
    · rename_i hp
      rw [← Option.some.inj h]
      split
      · rename_i hfree
        exact .inr (.inl ⟨p, .holding, move_quiet hp (s.permits - 1) s.successes
          (Nat.sub_add_cancel hfree) rfl (by decide) (by simp)⟩)
      · exact .inr (.inl ⟨p, .waiting, move_quiet hp s.permits s.successes rfl rfl (by decide) (by simp)⟩)
    · cases h
  | grant p =>
    simp only [step] at h
    split at h
    · rename_i hp
      split at h
      · rename_i hfree
        rw [← Option.some.inj h]
        exact .inr (.inl ⟨p, .holding, move_quiet hp (s.permits - 1) s.successes
          (Nat.sub_add_cancel hfree.2) rfl (by decide) (by simp)⟩)
      · cases h
    · cases h
  | look p skips =>
    simp only [step] at h
    split at h
    · rename_i hp
      rw [← Option.some.inj h]
      split
      · exact .inr (.inl ⟨p, .leaving, move_report hp s.permits _ rfl ⟨rfl, rfl⟩ (by decide) (by simp)⟩)
      · exact .inr (.inl ⟨p, .probing, move_quiet hp s.permits s.successes rfl rfl (by decide) (by simp)⟩)
    · cases h
  | result p r =>
    simp only [step] at h
    split at h
    · rename_i hp
      rw [← Option.some.inj h]
      split
      · exact .inr (.inl ⟨p, .found r _, move_quiet hp s.permits (s.successes + 1) rfl rfl (by simp) (by simp)⟩)
      · exact .inr (.inl ⟨p, .found r false, move_quiet hp s.permits s.successes rfl rfl (by simp) (by simp)⟩)
    · cases h
  | report p =>
    simp only [step] at h
    split at h
    · rename_i r reached hp
      rw [← Option.some.inj h]
      -- a probe that reached the goal cancels the others, and any other one leaves
      cases reached with
      | true =>
        exact .inr (.inl ⟨p, .cancelling 0, move_report hp s.permits r rfl ⟨rfl, rfl⟩ (by simp) (by simp)⟩)
      | false =>
        exact .inr (.inl ⟨p, .leaving, move_report hp s.permits r rfl ⟨rfl, rfl⟩ (by simp) (by simp)⟩)
    · cases h
  | cancelNext p =>
    simp only [step] at h
    split at h
    · rename_i k hp
      rw [← Option.some.inj h]
      split
      · rename_i hk
        -- a probe does not cancel itself
        by_cases hself : k = p
        · rw [if_pos hself]
          exact .inr (.inl ⟨p, .cancelling (k + 1), move_quiet hp s.permits s.successes rfl rfl (by simp) (by simp)⟩)
        · rw [if_neg hself]
          exact .inr (.inr ⟨p, k, rfl, hp, hk, hself, rfl⟩)
      · exact .inr (.inl ⟨p, .leaving, move_quiet hp s.permits s.successes rfl rfl (by simp) (by simp)⟩)
    · cases h
  | leave p =>
    simp only [step] at h
    split at h
    · rename_i hp
      rw [← Option.some.inj h]
      exact .inr (.inl ⟨p, .done, move_quiet hp (s.permits + 1) s.successes rfl rfl (by decide) (by simp)⟩)
    · cases h
  | interrupt p =>
    simp only [step] at h
    split at h
    · rename_i hp
      split at h
      · rw [← Option.some.inj h]
        exact .inr (.inl ⟨p, .done, move_report hp s.permits _ rfl ⟨rfl, rfl⟩ (by decide) (by simp)⟩)
      · cases h
    · rename_i hp
      split at h
      · rw [← Option.some.inj h]
        exact .inr (.inl ⟨p, .done, move_report hp s.permits _ rfl ⟨rfl, rfl⟩ (by decide) (by simp)⟩)
      · cases h
    · rename_i hp
      rw [← Option.some.inj h]
      exact .inr (.inl ⟨p, .done, move_report hp (s.permits + 1) _ rfl ⟨rfl, rfl⟩ (by decide) (by simp)⟩)
    · cases h

/-! ## What every step keeps

The invariant counts permits and reports: no more permits are held than there are, and a
coroutine has reported once just when it is past the report. Every step keeps it. -/

/-- The calls of `onEach` for a position. -/
def calls (s : State) (p : ℕ) : List (ℕ × ℤ × Probe) := s.reports.filter fun e => e.1 = p

/-- There was one call for the position, with its index. -/
def ReportedOnce (c : Race) (s : State) (p : ℕ) : Prop :=
  ∃ r, calls s p = [(p, c.indices.getD p 0, r)]

/-- The permits that coroutines have. -/
def inUse (c : Race) (s : State) : ℕ := ∑ p ∈ Finset.range c.size, (s.phase p).held

structure Inv (c : Race) (s : State) : Prop where
  started : s.started ≤ c.size
  bound : ∀ p, s.phase p ≠ .new → p < c.size
  fresh : ∀ p, s.phase p = .new → s.cancelled p = false
  permits : s.permits + inUse c s = c.limit
  once : ∀ p, (s.phase p).told = true → ReportedOnce c s p
  silent : ∀ p, (s.phase p).told = false → calls s p = []

/-- The invariant holds before anything started. -/
theorem inv_initial : Inv c (initial c) := by
  refine ⟨Nat.zero_le _, fun p hp => absurd rfl hp, fun _ _ => rfl, ?_, (fun p hp => nomatch hp), fun _ _ => rfl⟩
  show c.limit + ∑ p ∈ Finset.range c.size, Phase.held .new = c.limit
  have hzero : ∑ p ∈ Finset.range c.size, Phase.held .new = 0 := Finset.sum_eq_zero fun _ _ => rfl
  rw [hzero, Nat.add_zero]

/-- Steps that neither move a permit nor report. -/
theorem Inv.of_same (h : Inv c s) (hstarted : t.started ≤ c.size) (hbound : ∀ p, t.phase p ≠ .new → p < c.size)
    (hfresh : ∀ p, t.phase p = .new → t.cancelled p = false) (hpermits : t.permits = s.permits)
    (hreports : t.reports = s.reports) (hheld : ∀ p, (t.phase p).held = (s.phase p).held)
    (htold : ∀ p, (t.phase p).told = (s.phase p).told) : Inv c t := by
  have hcalls (p : ℕ) : calls t p = calls s p := by rw [calls, calls, hreports]
  refine ⟨hstarted, hbound, hfresh, ?_, fun p hp => ?_, fun p hp => ?_⟩
  · rw [hpermits, ← h.permits, inUse, inUse, Finset.sum_congr rfl fun p _ => hheld p]
  · rw [ReportedOnce, hcalls]
    exact h.once p (htold p ▸ hp)
  · rw [hcalls]
    exact h.silent p (htold p ▸ hp)

/-- A move keeps count of the permits that are held. -/
theorem Move.inUse {p : ℕ} {b : Phase} (h : Move c s t p b) (hp : p < c.size) :
    inUse c t + (s.phase p).held = inUse c s + b.held := by
  have hmem : p ∈ Finset.range c.size := Finset.mem_range.mpr hp
  have hrest : ∑ q ∈ (Finset.range c.size).erase p, (t.phase q).held
      = ∑ q ∈ (Finset.range c.size).erase p, (s.phase q).held := by
    refine Finset.sum_congr rfl fun q hq => ?_
    rw [h.phase, Function.update_of_ne (Finset.ne_of_mem_erase hq)]
  have hself : (t.phase p).held = b.held := by rw [h.phase, Function.update_self]
  rw [ProbeRace.inUse, ProbeRace.inUse, ← Finset.add_sum_erase _ _ hmem, ← Finset.add_sum_erase _ _ hmem, hrest,
    hself]
  omega

theorem Move.inv {p : ℕ} {b : Phase} (hi : Inv c s) (h : Move c s t p b) : Inv c t := by
  have hp := hi.bound p h.begun.1
  have hself : t.phase p = b := by rw [h.phase, Function.update_self]
  have hother {q : ℕ} (hq : q ≠ p) : t.phase q = s.phase q := by rw [h.phase, Function.update_of_ne hq]
  -- who reports is the one that moves, and no other is concerned
  have hcalls {q : ℕ} (hq : q ≠ p) : calls t q = calls s q := by
    rcases h.reports with ⟨-, hsame⟩ | ⟨-, -, r, happend⟩
    · rw [calls, calls, hsame]
    · rw [calls, calls, happend, List.filter_append, List.filter_cons_of_neg (by simpa using hq.symm),
        List.filter_nil, List.append_nil]
  refine ⟨h.started ▸ hi.started, fun q hq => ?_, fun q hq => ?_, ?_, fun q hq => ?_, fun q hq => ?_⟩
  · by_cases heq : q = p
    · exact heq ▸ hp
    · exact hi.bound q (hother heq ▸ hq)
  · by_cases heq : q = p
    · rw [heq, hself] at hq
      exact absurd hq h.begun.2.2.1
    · rw [h.cancelled]
      exact hi.fresh q (hother heq ▸ hq)
  · have hsum := h.inUse hp
    have hpermits := h.permits
    have hlimit := hi.permits
    omega
  · by_cases heq : q = p
    · rw [heq] at hq ⊢
      rw [hself] at hq
      rcases h.reports with ⟨htold, hsame⟩ | ⟨htold, -, r, happend⟩
      · rw [ReportedOnce, calls, hsame]
        exact hi.once p (htold.trans hq)
      · refine ⟨r, ?_⟩
        have hnone := hi.silent p htold
        rw [calls] at hnone
        rw [calls, happend, List.filter_append, hnone, List.nil_append]
        exact List.filter_cons_of_pos (by simp)
    · rw [ReportedOnce, hcalls heq]
      exact hi.once q (hother heq ▸ hq)
  · by_cases heq : q = p
    · rw [heq] at hq ⊢
      rw [hself] at hq
      rcases h.reports with ⟨htold, hsame⟩ | ⟨-, htold, -⟩
      · rw [calls, hsame]
        exact hi.silent p (htold.trans hq)
      · rw [hq] at htold
        cases htold
    · rw [hcalls heq]
      exact hi.silent q (hother heq ▸ hq)

/-- A change of one phase, made only where it is new. -/
theorem update_new (f : ℕ → Phase) (k : ℕ) (b : Phase) (q : ℕ) :
    (if f k = .new then Function.update f k b else f) q = if q = k ∧ f q = .new then b else f q := by
  by_cases hnew : f k = .new
  · rw [if_pos hnew]
    by_cases heq : q = k
    · rw [if_pos ⟨heq, heq ▸ hnew⟩, heq, Function.update_self]
    · rw [if_neg (fun h => heq h.1), Function.update_of_ne heq]
  · rw [if_neg hnew, if_neg]
    rintro ⟨rfl, h⟩
    exact hnew h

/-- Cancelling touches its own probe alone, and only before it began. -/
theorem phase_cancel (s : State) (k q : ℕ) :
    (s.cancel k).phase q = if q = k ∧ s.phase q = .new then .never else s.phase q :=
  update_new s.phase k .never q

/-- Starting the next probe keeps the invariant. -/
theorem Inv.start (hi : Inv c s) (hlt : s.started < c.size) : Inv c { s with
    started := s.started + 1
    phase := if s.phase s.started = .new then Function.update s.phase s.started .queued else s.phase } := by
  have hphase := update_new s.phase s.started .queued
  refine hi.of_same (s := s) hlt (fun q hq => ?_) (fun q hq => ?_) rfl rfl (fun q => ?_) fun q => ?_
  · simp only [hphase] at hq
    by_cases hnew : q = s.started ∧ s.phase q = .new
    · exact hnew.1 ▸ hlt
    · rw [if_neg hnew] at hq
      exact hi.bound q hq
  · simp only [hphase] at hq
    by_cases hnew : q = s.started ∧ s.phase q = .new
    · rw [if_pos hnew] at hq
      cases hq
    · rw [if_neg hnew] at hq
      exact hi.fresh q hq
  · simp only [hphase]
    by_cases hnew : q = s.started ∧ s.phase q = .new
    · rw [if_pos hnew, hnew.2]
      rfl
    · rw [if_neg hnew]
  · simp only [hphase]
    by_cases hnew : q = s.started ∧ s.phase q = .new
    · rw [if_pos hnew, hnew.2]
      rfl
    · rw [if_neg hnew]

theorem Inv.cancel (hi : Inv c s) {k : ℕ} (hk : k < c.size) : Inv c (s.cancel k) := by
  have hphase := phase_cancel s k
  refine hi.of_same (s := s) hi.started (fun q hq => ?_) (fun q hq => ?_) rfl rfl (fun q => ?_) fun q => ?_
  · rw [hphase] at hq
    by_cases hnew : q = k ∧ s.phase q = .new
    · exact hnew.1 ▸ hk
    · rw [if_neg hnew] at hq
      exact hi.bound q hq
  · rw [hphase] at hq
    by_cases hnew : q = k ∧ s.phase q = .new
    · rw [if_pos hnew] at hq
      cases hq
    · rw [if_neg hnew] at hq
      have hne : q ≠ k := fun heq => hnew ⟨heq, hq⟩
      show Function.update s.cancelled k true q = false
      rw [Function.update_of_ne hne]
      exact hi.fresh q hq
  · rw [hphase]
    by_cases hnew : q = k ∧ s.phase q = .new
    · rw [if_pos hnew, hnew.2]
      rfl
    · rw [if_neg hnew]
  · rw [hphase]
    by_cases hnew : q = k ∧ s.phase q = .new
    · rw [if_pos hnew, hnew.2]
      rfl
    · rw [if_neg hnew]

/-- The one that cancels goes on to the next job. -/
theorem move_cancelling {p k : ℕ} (hp : s.phase p = .cancelling k) (hne : k ≠ p) :
    Move c (s.cancel k) ((s.cancel k).move p (.cancelling (k + 1))) p (.cancelling (k + 1)) := by
  have hphase : (s.cancel k).phase p = .cancelling k := by
    rw [phase_cancel, if_neg fun h => hne h.1.symm, hp]
  exact move_quiet hphase (s.cancel k).permits (s.cancel k).successes rfl rfl (by simp) (by simp)

theorem Inv.step (hi : Inv c s) {e : Event} (h : step c s e = some t) : Inv c t := by
  rcases step_cases h with ⟨-, hlt, rfl⟩ | ⟨p, b, hmove⟩ | ⟨p, k, -, hp, hk, hne, rfl⟩
  · exact hi.start hlt
  · exact hmove.inv hi
  · exact (move_cancelling hp hne).inv (hi.cancel hk)

/-! ## Coroutines that will never run

A coroutine that is cancelled before its first dispatch never runs its body, and so it never
reports. Only such a step dooms one. -/

/-- Cancelled before the first dispatch. -/
def Doomed (s : State) (q : ℕ) : Prop := s.phase q = .never ∨ s.phase q = .queued ∧ s.cancelled q = true

/-- The step cancels a coroutine that was not dispatched yet. -/
def Hits (c : Race) (e : Event) (s : State) (q : ℕ) : Prop :=
  ∃ p, e = .cancelNext p ∧ s.phase p = .cancelling q ∧ q < c.size ∧ q ≠ p ∧
    (s.phase q = .new ∨ s.phase q = .queued)

theorem Move.doomed_iff {p : ℕ} {b : Phase} (h : Move c s t p b) (q : ℕ) : Doomed t q ↔ Doomed s q := by
  rw [Doomed, Doomed, h.phase, h.cancelled]
  by_cases heq : q = p
  · rw [heq, Function.update_self, h.doomed]
    constructor
    · rintro (hnew | hqueued)
      · exact .inr hnew
      · exact absurd hqueued.1 h.begun.2.2.2
    · rintro (hnever | hqueued)
      · exact absurd hnever h.begun.2.1
      · exact .inl hqueued
  · rw [Function.update_of_ne heq]

/-- Only a step that cancels it dooms a coroutine, and for good. -/
theorem doomed_step (hi : Inv c s) {e : Event} (h : step c s e = some t) (q : ℕ) :
    Doomed t q ↔ Doomed s q ∨ Hits c e s q := by
  by_cases hcancel : ∃ p k, e = .cancelNext p ∧ s.phase p = .cancelling k ∧ k < c.size ∧ k ≠ p ∧
      t = (s.cancel k).move p (.cancelling (k + 1))
  · obtain ⟨p, k, rfl, hp, hk, hne, rfl⟩ := hcancel
    rw [(move_cancelling (c := c) hp hne).doomed_iff, Doomed, Doomed, phase_cancel]
    -- the probe that is cancelled is doomed if it had not begun
    by_cases heq : q = k
    · have hit (hphase : s.phase q = .new ∨ s.phase q = .queued) : Hits c (.cancelNext p) s q :=
        ⟨p, rfl, heq ▸ hp, heq ▸ hk, heq ▸ hne, hphase⟩
      by_cases hnew : s.phase q = .new
      · rw [if_pos ⟨heq, hnew⟩]
        exact iff_of_true (.inl rfl) (.inr (hit (.inl hnew)))
      · rw [if_neg fun h => hnew h.2]
        have hflag : (s.cancel k).cancelled q = true := by
          show Function.update s.cancelled k true q = true
          rw [heq, Function.update_self]
        constructor
        · rintro (hnever | ⟨hqueued, -⟩)
          · exact .inl (.inl hnever)
          · exact .inr (hit (.inr hqueued))
        · rintro ((hnever | ⟨hqueued, -⟩) | ⟨-, -, -, -, -, hphase⟩)
          · exact .inl hnever
          · exact .inr ⟨hqueued, hflag⟩
          · exact .inr ⟨hphase.resolve_left hnew, hflag⟩
    · have hflag : (s.cancel k).cancelled q = s.cancelled q := Function.update_of_ne heq _ _
      have hmiss : ¬ Hits c (.cancelNext p) s q := by
        rintro ⟨p', hevent, hp', -⟩
        rw [← Event.cancelNext.inj hevent, hp] at hp'
        exact heq (Phase.cancelling.inj hp').symm
      rw [if_neg fun h => heq h.1, hflag, or_iff_left hmiss]
  -- no other event dooms a probe
  · have hnot : ¬ Hits c e s q := by
      rintro ⟨p, rfl, hp, hq, hne, -⟩
      refine hcancel ⟨p, q, rfl, hp, hq, hne, ?_⟩
      simp only [step, hp, if_pos hq, if_neg hne] at h
      exact (Option.some.inj h).symm
    rw [or_iff_left hnot]
    rcases step_cases h with ⟨-, hlt, rfl⟩ | ⟨p, b, hmove⟩ | hrest
    · simp only [Doomed, update_new]
      by_cases hnew : q = s.started ∧ s.phase q = .new
      · rw [if_pos hnew, hnew.2, hi.fresh q hnew.2]
        decide
      · rw [if_neg hnew]
    · exact hmove.doomed_iff q
    · exact absurd hrest hcancel

/-! ## Runs

When all jobs are complete each has reported, unless it was doomed. So the condition on a run is
that no step cancels a coroutine that was not dispatched. -/

/-- No step of the run cancels a coroutine that was not dispatched yet. -/
def SparesUnstarted (c : Race) (s : State) (es : List Event) : Prop :=
  ∀ pre e post, es = pre ++ e :: post → ∀ t, run c s pre = some t → ∀ q, ¬ Hits c e t q

/-- At no point of the run are there more probes than permits. -/
def Bounded (c : Race) (s : State) (es : List Event) : Prop :=
  ∀ pre post, es = pre ++ post → ∀ t, run c s pre = some t →
    ((Finset.range c.size).filter fun p => t.phase p = .probing).card ≤ c.limit

/-- Every job is complete, so that `joinAll` returns. -/
def Finished (c : Race) (s : State) : Prop := ∀ p < c.size, s.phase p = .done ∨ s.phase p = .never

instance (c : Race) (s : State) : Decidable (Finished c s) :=
  inferInstanceAs (Decidable (∀ p < c.size, s.phase p = .done ∨ s.phase p = .never))

theorem run_cons {e : Event} {u : State} (h : step c s e = some u) (es : List Event) :
    run c s (e :: es) = run c u es := by
  rw [run, h, Option.bind_some]

/-- **The invariant holds after every run.** -/
theorem Inv.run (hi : Inv c s) {es : List Event} (h : run c s es = some t) : Inv c t := by
  induction es generalizing s with
  | nil => exact Option.some.inj h ▸ hi
  | cons e es ih =>
    obtain ⟨u, hu, hrest⟩ := Option.bind_eq_some_iff.mp h
    exact ih (hi.step hu) hrest

/-- The condition on a run is one on each of its events. -/
theorem sparesUnstarted_cons {e : Event} {u : State} (h : step c s e = some u) (es : List Event) :
    SparesUnstarted c s (e :: es) ↔ (∀ q, ¬ Hits c e s q) ∧ SparesUnstarted c u es := by
  constructor
  · intro hspare
    refine ⟨hspare [] e es rfl s rfl, fun pre e' post hes t ht => ?_⟩
    exact hspare (e :: pre) e' post (by rw [hes, List.cons_append]) t ((run_cons h pre).trans ht)
  · rintro ⟨hfirst, hrest⟩ pre e' post hes t ht
    cases pre with
    | nil =>
      rw [List.nil_append, List.cons.injEq] at hes
      rw [← Option.some.inj ht, ← hes.1]
      exact hfirst
    | cons e₀ pre =>
      rw [List.cons_append, List.cons.injEq] at hes
      rw [← hes.1, run_cons h] at ht
      exact hrest pre e' post hes.2 t ht

/-- A run dooms no coroutine exactly when none of its steps hits one. -/
theorem doomed_run (hi : Inv c s) {es : List Event} (h : run c s es = some t) :
    (∀ q, ¬ Doomed t q) ↔ (∀ q, ¬ Doomed s q) ∧ SparesUnstarted c s es := by
  induction es generalizing s with
  | nil =>
    rw [← Option.some.inj h, and_iff_left]
    intro pre e post hes
    exact absurd hes (by simp)
  | cons e es ih =>
    obtain ⟨u, hu, hrest⟩ := Option.bind_eq_some_iff.mp h
    rw [ih (hi.step hu) hrest, sparesUnstarted_cons hu, ← and_assoc, ← forall_and]
    refine and_congr_left fun _ => forall_congr' fun q => ?_
    rw [doomed_step hi hu, not_or]

/-- No more probes run at once than there are permits. -/
theorem Inv.probing_le (h : Inv c s) :
    ((Finset.range c.size).filter fun p => s.phase p = .probing).card ≤ c.limit := by
  have hle : ∑ p ∈ (Finset.range c.size).filter (fun p => s.phase p = .probing), 1 ≤ inUse c s := by
    refine (Finset.sum_le_sum fun p hp => ?_).trans
      (Finset.sum_le_sum_of_subset (f := fun p => (s.phase p).held) (Finset.filter_subset _ _))
    rw [(Finset.mem_filter.mp hp).2]
    exact Nat.le_refl 1
  rw [Finset.card_eq_sum_ones]
  have hpermits := h.permits
  omega

/-- Complete, a coroutine has reported unless its body never ran. -/
theorem Inv.reportedOnce_iff (h : Inv c s) (hfin : Finished c s) :
    (∀ p < c.size, ReportedOnce c s p) ↔ ∀ q, ¬ Doomed s q := by
  constructor
  · intro honce q hq
    have hnever : s.phase q = .never := by
      rcases hq with hnever | ⟨hqueued, -⟩
      · exact hnever
      · rcases hfin q (h.bound q (by rw [hqueued]; decide)) with hdone | hnever
        · rw [hqueued] at hdone
          cases hdone
        · exact hnever
    obtain ⟨r, hr⟩ := honce q (h.bound q (by rw [hnever]; decide))
    rw [h.silent q (by rw [hnever]; rfl)] at hr
    cases hr
  · intro hnone p hp
    rcases hfin p hp with hdone | hnever
    · exact h.once p (by rw [hdone]; rfl)
    · exact absurd (.inl hnever) (hnone p)

/-- **Every position is reported exactly once where no cancellation comes too early.** In a
complete race `onEach` was called once for each position and at most `max(parallel, 1)` probes
were in progress at any moment, exactly when no success cancelled a coroutine before its first
dispatch. -/
theorem reports_exactly_once_iff {es : List Event} (hrun : run c (initial c) es = some t)
    (hfin : Finished c t) :
    ((∀ p < c.size, ReportedOnce c t p) ∧ Bounded c (initial c) es) ↔ SparesUnstarted c (initial c) es := by
  have hi := inv_initial (c := c)
  have hbounded : Bounded c (initial c) es := fun pre _ _ u hu => (hi.run hu).probing_le
  rw [and_iff_left hbounded, (hi.run hrun).reportedOnce_iff hfin, doomed_run hi hrun, and_iff_right]
  rintro q (hnever | ⟨hqueued, -⟩)
  · cases hnever
  · cases hqueued

/-! ## Two servers

With two servers and one success the order of two events decides: whether the second coroutine is
dispatched before the first one cancels it. -/

/-- Two indices, both may run at once, and one success is enough. -/
def twoServers : Race := ⟨[7, 9], 2, 1, 0⟩

def reached : Probe := ⟨20, none, none, "", none, 0, 0⟩

/-- The first probe succeeds before the second coroutine is dispatched. -/
def earlySuccess : List Event :=
  [.start, .start, .dispatch 0, .acquire 0, .look 0 false, .result 0 reached, .report 0,
    .cancelNext 0, .cancelNext 0, .cancelNext 0, .leave 0, .dispatch 1]

/-- The second is dispatched and waits in its probe. -/
def lateSuccess : List Event :=
  [.start, .start, .dispatch 0, .dispatch 1, .acquire 0, .acquire 1, .look 0 false, .look 1 false,
    .result 0 reached, .report 0, .cancelNext 0, .cancelNext 0, .cancelNext 0, .leave 0, .interrupt 1]

/-- Both are reported where the second was dispatched before the first succeeded. -/
theorem reports_exactly_once_iff_two : ∃ t, run twoServers (initial twoServers) lateSuccess = some t ∧
    (((∀ p < twoServers.size, ReportedOnce twoServers t p) ∧
      Bounded twoServers (initial twoServers) lateSuccess) ↔
        SparesUnstarted twoServers (initial twoServers) lateSuccess) := by
  have hfin : (run twoServers (initial twoServers) lateSuccess).any (fun t => Finished twoServers t) = true := by
    decide +kernel
  obtain ⟨t, ht, hdone⟩ := (Option.any_eq_true _ _).mp hfin
  exact ⟨t, ht, reports_exactly_once_iff ht (of_decide_eq_true hdone)⟩

/-- The second server is never reported: it is cancelled before its first dispatch. -/
theorem cancelled_before_dispatch_not_reported : ∃ t,
    run twoServers (initial twoServers) earlySuccess = some t ∧ Finished twoServers t ∧
      ¬ ReportedOnce twoServers t 1 := by
  have hfin : (run twoServers (initial twoServers) earlySuccess).any
      (fun t => decide (Finished twoServers t) && (calls t 1).isEmpty) = true := by
    decide +kernel
  obtain ⟨t, ht, hdone⟩ := (Option.any_eq_true _ _).mp hfin
  rw [Bool.and_eq_true, decide_eq_true_eq, List.isEmpty_iff] at hdone
  refine ⟨t, ht, hdone.1, ?_⟩
  rintro ⟨r, hr⟩
  rw [hdone.2] at hr
  cases hr

end ProbeRace

end VlessCard
