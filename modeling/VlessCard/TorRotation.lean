/-
`TorRotation.kt` and `TorRotator.kt`: the policy that chooses Tor exits, and the tick
that carries its choice out over the control port.

Latencies are doubles, times are milliseconds. The order in which `HashMap` walks
through its keys is a parameter (`walk`), and so are the numbers drawn at random and
what the two commands of a tick come back with.
-/
import Mathlib.Data.Int.Notation
import VlessCard.OrderedMap
import VlessCard.Text

set_option autoImplicit false

namespace VlessCard

/-- `Double.compareTo`: what is not a number comes last, and `-0.0` before `0.0`. -/
def doubleLe (a b : Float) : Bool :=
  if a < b then true
  else if b < a then false
  else decide (a.toBits.toInt64 ≤ b.toBits.toInt64)

/-- `minByOrNull`: the first of the least. -/
def minByOrNull {α : Type} (key : α → Float) : List α → Option α
  | [] => none
  | a :: l => some (l.foldl (fun best x => if doubleLe (key best) (key x) then best else x) a)

/-- The arguments of the constructor. -/
structure RotationConfig where
  rotateEveryMs : ℤ := 10 * 60 * 1000
  blacklistTtlMs : ℤ := 15 * 60 * 1000
  emaAlpha : Float := 0.3
  topN : ℕ := 3
  ceilingMs : ℤ := 7000
  thresholdFloorMs : ℤ := 1500
  snowflakeFactor : Float := 2.0

inductive Transport where
  | direct
  | obfs4
  | snowflake
deriving DecidableEq

/-- What is known of one exit country. -/
structure ExitEntry where
  ema : Float
  lastSeenMs : ℤ
  samples : ℕ

structure TorRotation where
  history : OrderedMap String ExitEntry := .empty
  blacklist : OrderedMap String ℤ := .empty
  lastRotationAt : ℤ := 0
  lastCountry : Option String := none

namespace TorRotation

variable (cfg : RotationConfig) (walk : List String → List String)

def MAX_VALUE : Float := 1.7976931348623157e308

/-- The latency ceiling of a transport. -/
def ceilingMs (t : Transport) : ℤ :=
  match t with
  | .snowflake => (Float.ofInt cfg.ceilingMs * cfg.snowflakeFactor).toInt64.toInt
  | _ => cfg.ceilingMs

def record (s : TorRotation) (country : String) (latencyMs : ℤ) (transport : Transport)
    (nowMs : ℤ) : Bool × TorRotation :=
  if Text.isBlank country then (false, s)
  else if ceilingMs cfg transport < latencyMs then
    (false, { s with blacklist := s.blacklist.put country nowMs })
  else
    let prev := s.history.get? country
    let ema := match prev with
      | none => Float.ofInt latencyMs
      | some p => p.ema + cfg.emaAlpha * (Float.ofInt latencyMs - p.ema)
    (true, { s with
      history := s.history.put country
        { ema := ema, lastSeenMs := nowMs, samples := ((prev.map ExitEntry.samples).getD 0) + 1 }
      blacklist := s.blacklist.filterKeys fun k => k ≠ country })

def blacklistCountry (s : TorRotation) (country : String) (nowMs : ℤ) : TorRotation :=
  { s with blacklist := s.blacklist.put country nowMs }

/-- Whether a country is on the blacklist; an entry that has expired is taken off. -/
def isBlacklisted (s : TorRotation) (country : String) (nowMs : ℤ) : Bool × TorRotation :=
  match s.blacklist.get? country with
  | none => (false, s)
  | some at_ =>
    if cfg.blacklistTtlMs ≤ nowMs - at_ then
      (false, { s with blacklist := s.blacklist.filterKeys fun k => k ≠ country })
    else (true, s)

/-- The countries of the history that are not on the blacklist. -/
def candidates (s : TorRotation) (nowMs : ℤ) : List String × TorRotation :=
  (walk s.history.keys).foldl (fun acc c =>
    let (bad, s) := acc.2.isBlacklisted cfg c nowMs
    (if bad then acc.1 else acc.1 ++ [c], s)) ([], s)

def emaOr (s : TorRotation) (d : Float) (c : String) : Float := ((s.history.get? c).map ExitEntry.ema).getD d

/-- What is drawn at random for a pick: whether to explore, what, and where in the weights. -/
structure Draw where
  explore : Float
  index : ℕ
  weight : Float

/-- The loop over the weights. -/
def pickWeighted : Float → List (String × Float) → Option String
  | _, [] => none
  | x, (c, w) :: rest => if x - w ≤ 0 then some c else pickWeighted (x - w) rest

/-- The choice among the candidates. -/
def choose (s : TorRotation) (cs : List String) (draw : Draw) : Option String :=
  let sorted := cs.mergeSort fun a b => doubleLe (s.emaOr MAX_VALUE a) (s.emaOr MAX_VALUE b)
  match sorted with
  | [] => none
  | first :: others =>
    -- a clear winner, at least twice as fast as the next
    let clear := match (s.history.get? first).map ExitEntry.ema, others with
      | some best, second :: _ => decide (best * 2.0 < s.emaOr (best * 2.0) second)
      | _, _ => false
    if clear then some first
    else if cfg.topN < sorted.length ∧ draw.explore < 0.2 then
      (sorted.drop cfg.topN)[draw.index % (sorted.length - cfg.topN)]?
    else
      let head := sorted.take cfg.topN
      let weights := head.map fun c => 1.0 / (1.0 + s.emaOr (Float.ofInt cfg.ceilingMs) c)
      let total := weights.foldl (· + ·) 0
      (pickWeighted (draw.weight * total) (head.zip weights)).or head.getLast?

def pick (s : TorRotation) (draw : Draw) (nowMs : ℤ) : Option String × TorRotation :=
  let (cs, s') := s.candidates cfg walk nowMs
  (s.choose cfg cs draw, s')

/-- Whether another exit is worth a rotation, once the time has come. -/
def worthwhile (s : TorRotation) (cs : List String) : Bool :=
  match s.lastCountry.bind fun cur => (s.history.get? cur).map fun e => (cur, e.ema) with
  | none => !cs.isEmpty
  | some (cur, curEma) =>
    match minByOrNull (s.emaOr MAX_VALUE) cs with
    | none => false
    | some best =>
      let bestEma := s.emaOr MAX_VALUE best
      if best = cur then false
      -- less than 30 percent better
      else if curEma * 0.7 ≤ bestEma then false
      else decide (Float.ofInt cfg.thresholdFloorMs ≤ curEma - bestEma)

def shouldRotate (s : TorRotation) (nowMs : ℤ) : Bool × TorRotation :=
  if nowMs - s.lastRotationAt < cfg.rotateEveryMs then (false, s)
  else
    let (cs, s') := s.candidates cfg walk nowMs
    (s.worthwhile cfg cs, s')

def markRotated (s : TorRotation) (nowMs : ℤ) : TorRotation := { s with lastRotationAt := nowMs }

def notePicked (s : TorRotation) (country : String) : TorRotation := { s with lastCountry := some country }

/-! ## What decisions depend on

Looking at a country takes it off the blacklist when its entry has expired. Two states that
differ in expired entries only decide alike from then on. -/

/-- Whether the blacklist keeps a country away at a time. -/
def blocked (s : TorRotation) (c : String) (t : ℤ) : Bool :=
  (s.blacklist.get? c).any fun at_ => decide (t - at_ < cfg.blacklistTtlMs)

/-- Two states that agree in everything but entries of the blacklist expired at `since`. -/
structure Agrees (since : ℤ) (s s' : TorRotation) : Prop where
  history : s'.history = s.history
  lastRotationAt : s'.lastRotationAt = s.lastRotationAt
  lastCountry : s'.lastCountry = s.lastCountry
  blocked : ∀ c t, since ≤ t → blocked cfg s' c t = blocked cfg s c t

variable {cfg}

theorem Agrees.refl (since : ℤ) (s : TorRotation) : Agrees cfg since s s :=
  ⟨rfl, rfl, rfl, fun _ _ _ => rfl⟩

theorem Agrees.trans {since : ℤ} {s s' s'' : TorRotation} (h : Agrees cfg since s s')
    (h' : Agrees cfg since s' s'') : Agrees cfg since s s'' :=
  ⟨h'.history.trans h.history, h'.lastRotationAt.trans h.lastRotationAt,
    h'.lastCountry.trans h.lastCountry, fun c t ht => (h'.blocked c t ht).trans (h.blocked c t ht)⟩

/-- The answer is whether the country is kept away, and only an expired entry is taken off. -/
theorem isBlacklisted_spec (s : TorRotation) (c : String) (now : ℤ) :
    (s.isBlacklisted cfg c now).1 = blocked cfg s c now ∧
      Agrees cfg now s (s.isBlacklisted cfg c now).2 := by
  rw [isBlacklisted, blocked]
  cases hget : s.blacklist.get? c with
  | none => exact ⟨rfl, Agrees.refl now s⟩
  | some at_ =>
    by_cases hold : cfg.blacklistTtlMs ≤ now - at_
    · simp only [hold, if_true]
      refine ⟨(decide_eq_false (not_lt.mpr hold)).symm, rfl, rfl, rfl, ?_⟩
      intro c' t ht
      rw [blocked, blocked, OrderedMap.get?_filterKeys]
      by_cases hc : c' = c
      · -- the entry that was taken off is expired at every later time
        have hlate : ¬ t - at_ < cfg.blacklistTtlMs := by omega
        rw [hc, if_neg (by simp), hget, Option.any_none, Option.any_some, decide_eq_false hlate]
      · rw [if_pos (decide_eq_true hc)]
    · simp only [hold, if_false]
      exact ⟨(decide_eq_true (not_le.mp hold)).symm, Agrees.refl now s⟩

/-- The candidates are the walk over the history without what is blocked; expired blocks are dropped on the way. -/
theorem candidates_spec (s : TorRotation) (now : ℤ) :
    (s.candidates cfg walk now).1 = (walk s.history.keys).filter (fun c => !blocked cfg s c now) ∧
      Agrees cfg now s (s.candidates cfg walk now).2 := by
  have hloop : ∀ (ks : List String) (acc : List String × TorRotation), Agrees cfg now s acc.2 →
      (ks.foldl (fun acc c => (if (acc.2.isBlacklisted cfg c now).1 then acc.1 else acc.1 ++ [c],
        (acc.2.isBlacklisted cfg c now).2)) acc).1 = acc.1 ++ ks.filter (fun c => !blocked cfg s c now) ∧
      Agrees cfg now s (ks.foldl (fun acc c => (if (acc.2.isBlacklisted cfg c now).1 then acc.1
        else acc.1 ++ [c], (acc.2.isBlacklisted cfg c now).2)) acc).2 := by
    intro ks
    induction ks with
    | nil => exact fun acc h => ⟨(List.append_nil _).symm, h⟩
    | cons c ks ih =>
      intro acc h
      obtain ⟨hans, hagree⟩ : _ ∧ Agrees cfg now _ _ := isBlacklisted_spec acc.2 c now
      obtain ⟨hlist, hrest⟩ := ih (_, _) (h.trans hagree)
      rw [List.foldl_cons]
      refine ⟨?_, hrest⟩
      rw [hlist, hans, h.blocked c now le_rfl]
      cases hb : blocked cfg s c now with
      | true => rw [if_pos rfl, List.filter_cons_of_neg (by rw [hb]; decide)]
      | false =>
        rw [if_neg Bool.false_ne_true, List.filter_cons_of_pos (by rw [hb]; rfl), List.append_assoc]
        rfl
  exact hloop (walk s.history.keys) ([], s) (Agrees.refl now s)

/-- States that agree have the same candidates from then on. -/
theorem Agrees.candidates {since t : ℤ} {s s' : TorRotation} (h : Agrees cfg since s s') (ht : since ≤ t) :
    (s'.candidates cfg walk t).1 = (s.candidates cfg walk t).1 := by
  rw [(candidates_spec walk s' t).1, (candidates_spec walk s t).1, h.history]
  congr 1
  funext c
  rw [h.blocked c t ht]

/-- Asking whether to rotate changes nothing that counts. -/
theorem shouldRotate_agrees (s : TorRotation) (now : ℤ) :
    Agrees cfg now s (s.shouldRotate cfg walk now).2 := by
  rw [shouldRotate]
  split
  · exact Agrees.refl now s
  · exact (candidates_spec walk s now).2

theorem pick_agrees (s : TorRotation) (draw : Draw) (now : ℤ) :
    Agrees cfg now s (s.pick cfg walk draw now).2 := (candidates_spec walk s now).2

theorem Agrees.emaOr {since : ℤ} {s s' : TorRotation} (h : Agrees cfg since s s') :
    s'.emaOr = s.emaOr := by
  funext d c
  rw [TorRotation.emaOr, TorRotation.emaOr, h.history]

/-- The decision at a later time is the same. -/
theorem Agrees.shouldRotate {since t : ℤ} {s s' : TorRotation} (h : Agrees cfg since s s')
    (ht : since ≤ t) : (s'.shouldRotate cfg walk t).1 = (s.shouldRotate cfg walk t).1 := by
  rw [TorRotation.shouldRotate, TorRotation.shouldRotate, h.lastRotationAt]
  split
  · rfl
  · show s'.worthwhile cfg (s'.candidates cfg walk t).1 = s.worthwhile cfg (s.candidates cfg walk t).1
    rw [h.candidates walk ht, worthwhile, worthwhile, h.emaOr, h.history, h.lastCountry]

/-- So is the exit that would be picked with the same draw. -/
theorem Agrees.pick {since t : ℤ} {s s' : TorRotation} (h : Agrees cfg since s s') (draw : Draw)
    (ht : since ≤ t) : (s'.pick cfg walk draw t).1 = (s.pick cfg walk draw t).1 := by
  show s'.choose cfg (s'.candidates cfg walk t).1 draw = s.choose cfg (s.candidates cfg walk t).1 draw
  rw [h.candidates walk ht, choose, choose, h.emaOr, h.history]

/-! ## Runs of the policy

The times of a run do not go back, so what has expired stays expired. With it the conditions of a
rotation can be read off the history. -/

/-- What is asked or told of the policy. -/
inductive Call where
  | record (country : String) (latencyMs : ℤ) (transport : Transport)
  | blacklistCountry (country : String)
  | notePicked (country : String)
  | markRotated
  | shouldRotate
  | pick (draw : Draw)

section
variable (cfg)

def step (s : TorRotation) (now : ℤ) : Call → TorRotation
  | .record country latencyMs transport => (s.record cfg country latencyMs transport now).2
  | .blacklistCountry country => s.blacklistCountry country now
  | .notePicked country => s.notePicked country
  | .markRotated => s.markRotated now
  | .shouldRotate => (s.shouldRotate cfg walk now).2
  | .pick draw => (s.pick cfg walk draw now).2

/-- The policy after calls, each with its time, the latest of which is the first of the list. -/
def after : List (ℤ × Call) → TorRotation
  | [] => {}
  | (now, c) :: earlier => step cfg walk (after earlier) now c

/-- The times do not go back. -/
def InOrder (calls : List (ℤ × Call)) : Prop := calls.Pairwise fun later earlier => earlier.1 ≤ later.1

instance (calls : List (ℤ × Call)) : Decidable (InOrder calls) :=
  inferInstanceAs (Decidable (calls.Pairwise fun later earlier => earlier.1 ≤ later.1))

/-- The fastest country that is not kept away, if any. -/
def fastest (s : TorRotation) (t : ℤ) : Option String :=
  minByOrNull (s.emaOr MAX_VALUE) ((walk s.history.keys).filter fun c => !blocked cfg s c t)

/-- Nothing is known of the current country any more, or the fastest of the others is faster by
more than 30 percent, and by the floor, than what is known of it. -/
def Overtaken (s : TorRotation) (cur : String) (t : ℤ) : Prop :=
  ∀ e, s.history.get? cur = some e → ∃ best, fastest cfg walk s t = some best ∧
    ¬ e.ema * 0.7 ≤ s.emaOr MAX_VALUE best ∧ Float.ofInt cfg.thresholdFloorMs ≤ e.ema - s.emaOr MAX_VALUE best

variable {cfg}

theorem mem_of_minByOrNull {α : Type} {key : α → Float} {l : List α} {a : α} (h : minByOrNull key l = some a) :
    a ∈ l := by
  cases l with
  | nil => cases h
  | cons b l =>
    rw [minByOrNull, Option.some.injEq] at h
    rw [← h]
    clear h
    induction l generalizing b with
    | nil => exact List.mem_singleton_self b
    | cons x l ih =>
      rw [List.foldl_cons]
      split
      · exact List.mem_cons.mpr ((List.mem_cons.mp (ih b)).imp_right (List.mem_cons_of_mem x))
      · exact List.mem_cons_of_mem b (ih x)

theorem minByOrNull_isSome {α : Type} (key : α → Float) {l : List α} (h : l ≠ []) : ∃ a, minByOrNull key l = some a := by
  cases l with
  | nil => exact absurd rfl h
  | cons a l => exact ⟨_, rfl⟩

/-- What is picked by weight is in the list. -/
theorem pickWeighted_mem {x : Float} {l : List (String × Float)} {c : String} (h : pickWeighted x l = some c) :
    c ∈ l.map Prod.fst := by
  induction l generalizing x with
  | nil => cases h
  | cons e l ih =>
    rw [pickWeighted] at h
    split at h
    · rw [← Option.some.inj h]
      exact List.mem_cons_self ..
    · exact List.mem_cons_of_mem _ (ih h)

/-- What is picked is one of the candidates. -/
theorem mem_of_choose {s : TorRotation} {cs : List String} {draw : Draw} {c : String}
    (h : s.choose cfg cs draw = some c) : c ∈ cs := by
  have hsorted : ∀ x ∈ cs.mergeSort fun a b => doubleLe (s.emaOr MAX_VALUE a) (s.emaOr MAX_VALUE b), x ∈ cs :=
    fun x hx => (List.mergeSort_perm cs _).mem_iff.mp hx
  rw [choose] at h
  revert h hsorted
  generalize (cs.mergeSort fun a b => doubleLe (s.emaOr MAX_VALUE a) (s.emaOr MAX_VALUE b)) = sorted
  intro h hsorted
  cases sorted with
  | nil => cases h
  | cons first others =>
    apply hsorted
    dsimp only at h
    generalize (match (s.history.get? first).map ExitEntry.ema, others with
      | some best, second :: _ => decide (best * 2.0 < s.emaOr (best * 2.0) second)
      | _, _ => false) = clear at h
    split at h
    · rw [← Option.some.inj h]
      exact List.mem_cons_self ..
    · split at h
      · exact List.mem_of_mem_drop (List.mem_of_getElem? h)
      · rcases Option.or_eq_some_iff.mp h with hweighted | ⟨-, hlast⟩
        · have hhead := pickWeighted_mem hweighted
          rw [List.map_fst_zip (by rw [List.length_map])] at hhead
          exact List.mem_of_mem_take hhead
        · exact List.mem_of_mem_take (List.mem_of_getLast? hlast)

/-- What is picked is not kept away. -/
theorem not_blocked_of_pick {s : TorRotation} {draw : Draw} {t : ℤ} {c : String}
    (h : (s.pick cfg walk draw t).1 = some c) : blocked cfg s c t = false := by
  have hmem : c ∈ (s.candidates cfg walk t).1 := mem_of_choose h
  rw [(candidates_spec walk s t).1, List.mem_filter, Bool.not_eq_true'] at hmem
  exact hmem.2

/-- A country that is kept away is left when it is overtaken. -/
theorem shouldRotate_iff {s : TorRotation} {t : ℤ} {cur : String} (hwalk : ∀ ks c, c ∈ walk ks ↔ c ∈ ks)
    (hcur : s.lastCountry = some cur) (hblocked : blocked cfg s cur t = true)
    (hother : ∃ c, (s.history.get? c).isSome ∧ blocked cfg s c t = false)
    (hcadence : cfg.rotateEveryMs ≤ t - s.lastRotationAt) :
    (s.shouldRotate cfg walk t).1 = true ↔ Overtaken cfg walk s cur t := by
  have hcandidates : (s.candidates cfg walk t).1 = (walk s.history.keys).filter (fun c => !blocked cfg s c t) :=
    (candidates_spec walk s t).1
  have hne : (walk s.history.keys).filter (fun c => !blocked cfg s c t) ≠ [] := by
    obtain ⟨c, hc, hfree⟩ := hother
    refine List.ne_nil_of_mem (List.mem_filter.mpr ⟨(hwalk _ c).mpr ?_, ?_⟩)
    · exact (s.history.contains_iff c).mp hc
    · rw [hfree]
      rfl
  have hdue : (s.shouldRotate cfg walk t).1 =
      s.worthwhile cfg ((walk s.history.keys).filter fun c => !blocked cfg s c t) := by
    rw [shouldRotate, if_neg (not_lt.mpr hcadence), ← hcandidates]
  rw [hdue, worthwhile, hcur, Option.bind_some, Overtaken, fastest]
  cases hget : s.history.get? cur with
  | none =>
    have hsome : (!((walk s.history.keys).filter fun c => !blocked cfg s c t).isEmpty) = true := by
      rw [Bool.not_eq_true', List.isEmpty_eq_false_iff]
      exact hne
    exact ⟨fun _ => nofun, fun _ => hsome⟩
  | some e =>
    obtain ⟨best, hbest⟩ := minByOrNull_isSome (s.emaOr MAX_VALUE) hne
    have hfree := (List.mem_filter.mp (mem_of_minByOrNull hbest)).2
    -- the fastest country is not the current one, which is kept away
    have hother : best ≠ cur := by
      rintro rfl
      rw [hblocked] at hfree
      cases hfree
    rw [Option.map_some, hbest]
    dsimp only
    rw [if_neg hother]
    constructor
    · intro h e' he'
      obtain rfl := Option.some.inj he'
      split at h
      · cases h
      · rename_i hfaster
        exact ⟨best, rfl, hfaster, of_decide_eq_true h⟩
    · intro h
      obtain ⟨best', hbest', hfaster, hgap⟩ := h e rfl
      obtain rfl := Option.some.inj hbest'
      rw [if_neg hfaster]
      exact decide_eq_true hgap

/-- Only a rotation sets the clock. -/
theorem step_lastRotationAt (s : TorRotation) (now : ℤ) (c : Call) :
    c = .markRotated ∧ (step cfg walk s now c).lastRotationAt = now ∨
      c ≠ .markRotated ∧ (step cfg walk s now c).lastRotationAt = s.lastRotationAt := by
  cases c with
  | markRotated => exact .inl ⟨rfl, rfl⟩
  | record country latencyMs transport =>
    refine .inr ⟨nofun, ?_⟩
    show (s.record cfg country latencyMs transport now).2.lastRotationAt = _
    rw [record]
    split
    · rfl
    · split
      · rfl
      · rfl
  | blacklistCountry country => exact .inr ⟨nofun, rfl⟩
  | notePicked country => exact .inr ⟨nofun, rfl⟩
  | shouldRotate => exact .inr ⟨nofun, (shouldRotate_agrees walk s now).lastRotationAt⟩
  | pick draw => exact .inr ⟨nofun, (pick_agrees walk s draw now).lastRotationAt⟩

/-- The clock stands at the last rotation. -/
theorem markRotated_le {calls : List (ℤ × Call)} (h : InOrder calls) {t : ℤ} (ht : (t, Call.markRotated) ∈ calls) :
    t ≤ (after cfg walk calls).lastRotationAt := by
  induction calls with
  | nil => exact absurd ht List.not_mem_nil
  | cons e earlier ih =>
    obtain ⟨now, c⟩ := e
    obtain ⟨hnow, hearlier⟩ := List.pairwise_cons.mp h
    rw [after]
    rcases step_lastRotationAt walk (after cfg walk earlier) now c with ⟨-, hset⟩ | ⟨hc, hkept⟩
    · rw [hset]
      rcases List.mem_cons.mp ht with heq | hmem
      · exact (Prod.mk.inj heq).1.le
      · exact hnow _ hmem
    · rw [hkept]
      refine ih hearlier ((List.mem_cons.mp ht).resolve_left fun heq => ?_)
      exact hc (Prod.mk.inj heq).2.symm

/-- **When a stuck exit is left.** After any calls, a current country that is kept away while
another one is not is left at the next rotation exactly when it is overtaken; what is picked is
never kept away; and a rotation that was due is no earlier than the cadence after every other. -/
theorem stuck_exit_left_iff (hwalk : ∀ ks c, c ∈ walk ks ↔ c ∈ ks) {calls : List (ℤ × Call)} {t : ℤ}
    (h : InOrder ((t, .shouldRotate) :: calls)) :
    (∀ cur, (after cfg walk calls).lastCountry = some cur → blocked cfg (after cfg walk calls) cur t = true →
      (∃ c, c ≠ cur ∧ ((after cfg walk calls).history.get? c).isSome ∧
        blocked cfg (after cfg walk calls) c t = false) →
      cfg.rotateEveryMs ≤ t - (after cfg walk calls).lastRotationAt →
      (((after cfg walk calls).shouldRotate cfg walk t).1 = true ↔ Overtaken cfg walk (after cfg walk calls) cur t)) ∧
    (∀ draw c, ((after cfg walk calls).pick cfg walk draw t).1 = some c →
      blocked cfg (after cfg walk calls) c t = false) ∧
    (((after cfg walk calls).shouldRotate cfg walk t).1 = true →
      ∀ t', (t', Call.markRotated) ∈ calls → t' + cfg.rotateEveryMs ≤ t) := by
  refine ⟨fun cur hcur hblocked hother hcadence => ?_, fun draw c => not_blocked_of_pick walk, fun hdue t' ht' => ?_⟩
  · obtain ⟨c, -, hc, hfree⟩ := hother
    exact shouldRotate_iff walk hwalk hcur hblocked ⟨c, hc, hfree⟩ hcadence
  · have hle : t' ≤ (after cfg walk calls).lastRotationAt := markRotated_le walk (List.pairwise_cons.mp h).2 ht'
    have hgate : cfg.rotateEveryMs ≤ t - (after cfg walk calls).lastRotationAt := by
      by_contra hearly
      rw [shouldRotate, if_pos (not_le.mp hearly)] at hdue
      cases hdue
    omega

/-- A slow exit is blacklisted, a fast one is known. -/
def slowRun : List (ℤ × Call) :=
  [(599000, .record "de" 9000 .direct), (2000, .record "nl" 100 .direct), (1000, .notePicked "de"),
    (1000, .record "de" 5000 .direct)]

theorem stuck_exit_left_iff_slow : ((after {} id slowRun).shouldRotate {} id 700000).1 = true := by
  have hall := @stuck_exit_left_iff {} id (fun _ _ => Iff.rfl) slowRun 700000 (by decide)
  refine (hall.1 "de" (by decide +kernel) (by decide +kernel) ⟨"nl", by decide, by decide +kernel, by decide +kernel⟩
    (by decide +kernel)).mpr ?_
  intro e he
  have hslow : ((after {} id slowRun).history.get? "de").all (fun e =>
      !decide (e.ema * 0.7 ≤ (after {} id slowRun).emaOr MAX_VALUE "nl") &&
        decide (Float.ofInt 1500 ≤ e.ema - (after {} id slowRun).emaOr MAX_VALUE "nl")) = true := by
    decide +kernel
  rw [he, Option.all_some, Bool.and_eq_true, Bool.not_eq_true', decide_eq_false_iff_not, decide_eq_true_eq] at hslow
  exact ⟨"nl", by decide +kernel, hslow.1, hslow.2⟩

/-- An exit that was fast once, and is blacklisted. -/
def stuckRun : List (ℤ × Call) :=
  [(599000, .record "de" 9000 .direct), (2000, .record "nl" 400 .direct), (1000, .notePicked "de"),
    (1000, .record "de" 100 .direct)]

/-- It is compared with what it was, and is not left. -/
theorem stuck_exit_kept : ¬ ∀ (calls : List (ℤ × Call)) (t : ℤ) (cur : String), InOrder ((t, .shouldRotate) :: calls) →
    (after {} id calls).lastCountry = some cur → blocked {} (after {} id calls) cur t = true →
    (∃ c, c ≠ cur ∧ ((after {} id calls).history.get? c).isSome ∧ blocked {} (after {} id calls) c t = false) →
    600000 ≤ t - (after {} id calls).lastRotationAt → ((after {} id calls).shouldRotate {} id t).1 = true := by
  intro h
  have hleft := h stuckRun 700000 "de" (by decide) (by decide +kernel) (by decide +kernel)
    ⟨"nl", by decide, by decide +kernel, by decide +kernel⟩ (by decide +kernel)
  exact absurd hleft (by decide +kernel)

end

end TorRotation

/-! ## The rotator

A tick asks the policy, tells the control port and notes what it picked. A command may throw
between any two of these, and then the policy has to be as it was. -/

/-- How a command of the control port ends. -/
inductive Outcome where
  | done
  | ioException (message : String)

structure TorRotator where
  rotation : TorRotation
  countries : List String := []
  connected : Bool := false
  lastError : Option String := none

namespace TorRotator

open TorRotation

variable (cfg : RotationConfig) (walk : List String → List String)

/-- The policy and the error after commands that may fail. -/
abbrev Attempt : Type := TorRotation × Option String

/-- `connect`: the clock is set after the commands. -/
def connect (r : TorRotator) (login setExitCountries : Outcome) (now : ℤ) : TorRotator :=
  match login with
  | .ioException message => { r with lastError := some message }
  | .done =>
    match if r.countries ≠ [] then setExitCountries else .done with
    | .ioException message => { r with lastError := some message }
    | .done => { r with rotation := r.rotation.markRotated now, connected := true, lastError := none }

/-- The body of the `try` of `tick`: the policy when it ends or throws, and what was thrown. -/
def attempt (s : TorRotation) (draw : TorRotation.Draw) (setExitCountries signalNewNym : Outcome) (nowMs : ℤ) :
    Attempt :=
  let renew (s : TorRotation) : Attempt := match signalNewNym with
    | .ioException message => (s, some message)
    | .done => (s.markRotated nowMs, none)
  match s.pick cfg walk draw nowMs with
  | (none, s) => renew s
  | (some best, s) => match setExitCountries with
    | .ioException message => (s, some message)
    | .done => renew (s.notePicked best)

/-- `tick`. -/
def tick (r : TorRotator) (draw : TorRotation.Draw) (setExitCountries signalNewNym : Outcome) (nowMs : ℤ) :
    Bool × TorRotator :=
  if r.connected = false then (false, r)
  else
    let (due, s) := r.rotation.shouldRotate cfg walk nowMs
    if due = false then (false, { r with rotation := s })
    else match attempt cfg walk s draw setExitCountries signalNewNym nowMs with
      | (s, none) => (true, { r with rotation := s })
      | (s, some message) => (false, { r with rotation := s, lastError := some message })

/-- The tick gives up because a command threw. -/
def Fails (r : TorRotator) (draw : TorRotation.Draw) (setExitCountries signalNewNym : Outcome) (now : ℤ) : Prop :=
  r.connected = true ∧ (r.rotation.shouldRotate cfg walk now).1 = true ∧
    (attempt cfg walk (r.rotation.shouldRotate cfg walk now).2 draw setExitCountries signalNewNym now).2 ≠ none

/-- The policy is as it was, and decides at every later time what it would have decided. -/
structure Undone (now : ℤ) (s s' : TorRotation) : Prop where
  lastCountry : s'.lastCountry = s.lastCountry
  lastRotationAt : s'.lastRotationAt = s.lastRotationAt
  history : s'.history = s.history
  shouldRotate : ∀ t, now ≤ t → (s'.shouldRotate cfg walk t).1 = (s.shouldRotate cfg walk t).1
  pick : ∀ draw t, now ≤ t → (s'.pick cfg walk draw t).1 = (s.pick cfg walk draw t).1

variable {cfg} {walk}

/-- A tick that changes nothing that counts is undone. -/
theorem undone_of_agrees {now : ℤ} {s s' : TorRotation} (h : Agrees cfg now s s') :
    Undone cfg walk now s s' :=
  ⟨h.lastCountry, h.lastRotationAt, h.history, fun _ ht => h.shouldRotate walk ht,
    fun draw _ ht => h.pick walk draw ht⟩

/-- What a failed attempt leaves: the policy, except that a pinned exit is noted. -/
theorem attempt_failed {s : TorRotation} {draw : TorRotation.Draw} {set nym : Outcome} {now : ℤ}
    (h : (attempt cfg walk s draw set nym now).2 ≠ none) :
    (attempt cfg walk s draw set nym now).1 = (s.pick cfg walk draw now).2 ∧
        ((s.pick cfg walk draw now).1 = none ∨ set ≠ .done) ∨
      ∃ best, (s.pick cfg walk draw now).1 = some best ∧ set = .done ∧
        (attempt cfg walk s draw set nym now).1 = (s.pick cfg walk draw now).2.notePicked best := by
  revert h
  rw [attempt]
  cases s.pick cfg walk draw now with
  | mk picked s' =>
    cases picked with
    | none =>
      intro h
      cases nym with
      | done => exact absurd rfl h
      | ioException message => exact .inl ⟨rfl, .inl rfl⟩
    | some best =>
      intro h
      cases set with
      | ioException message => exact .inl ⟨rfl, .inr (by rintro ⟨⟩)⟩
      | done =>
        cases nym with
        | done => exact absurd rfl h
        | ioException message => exact .inr ⟨best, rfl, rfl, rfl⟩

/-- A tick that failed reports so, and leaves what was there before. -/
theorem tick_failed {r : TorRotator} {draw : TorRotation.Draw} {set nym : Outcome} {now : ℤ}
    (h : Fails cfg walk r draw set nym now) :
    (tick cfg walk r draw set nym now).1 = false ∧ (tick cfg walk r draw set nym now).2.rotation =
      (attempt cfg walk (r.rotation.shouldRotate cfg walk now).2 draw set nym now).1 := by
  obtain ⟨hconn, hdue, hthrown⟩ := h
  revert hdue hthrown
  rw [tick, if_neg (by rw [hconn]; decide)]
  cases r.rotation.shouldRotate cfg walk now with
  | mk due s =>
    intro hdue hthrown
    dsimp only at hdue hthrown ⊢
    rw [if_neg (by rw [hdue]; decide)]
    revert hthrown
    cases attempt cfg walk s draw set nym now with
    | mk s' thrown =>
      intro hthrown
      cases thrown with
      | none => exact absurd rfl hthrown
      | some message => exact ⟨rfl, rfl⟩

/-- **A failed tick leaves the policy as it was, unless the exit was already pinned.** When
a command of a tick throws, the policy is unchanged (and decides the same later) exactly
when no exit was picked, or it is the current one, or pinning it is what threw. -/
theorem failed_tick_undone_iff {r : TorRotator} {draw : TorRotation.Draw} {set nym : Outcome} {now : ℤ}
    (h : Fails cfg walk r draw set nym now) :
    Undone cfg walk now r.rotation (tick cfg walk r draw set nym now).2.rotation ↔
      (∀ best, (r.rotation.pick cfg walk draw now).1 = some best → r.rotation.lastCountry = some best) ∨
        set ≠ .done := by
  rw [(tick_failed h).2]
  -- asking whether it is due and drawing the exit both agree with the walk
  have hdue : Agrees cfg now _ _ := shouldRotate_agrees walk r.rotation now
  have hpick : Agrees cfg now _ _ := pick_agrees walk (r.rotation.shouldRotate cfg walk now).2 draw now
  have hsame := hdue.pick walk draw le_rfl
  rcases attempt_failed h.2.2 with ⟨hs, hcause⟩ | ⟨best, hbest, hset, hs⟩
  · rw [hs]
    refine ⟨fun _ => ?_, fun _ => undone_of_agrees (hdue.trans hpick)⟩
    -- nothing was to be tried, or the control port refused
    rcases hcause with hnone | hset
    · rw [hsame] at hnone
      exact .inl fun best hbest => by rw [hnone] at hbest; cases hbest
    · exact .inr hset
  · rw [hs, ← hsame, hbest]
    constructor
    -- the country was set, so what is undone says which exit it was
    · intro hun
      refine .inl fun best' hbest' => ?_
      rw [← hun.lastCountry, ← hbest']
      rfl
    · rintro (hcur | hnot)
      · -- noting the current exit changes nothing
        have heq : (((r.rotation.shouldRotate cfg walk now).2.pick cfg walk draw now).2).notePicked best
            = ((r.rotation.shouldRotate cfg walk now).2.pick cfg walk draw now).2 := by
          have hlast := (hdue.trans hpick).lastCountry
          rw [hcur best rfl] at hlast
          rw [notePicked, ← hlast]
        rw [heq]
        exact undone_of_agrees (hdue.trans hpick)
      · exact absurd hset hnot

/-- Connected at the beginning, one exit measured a second later. -/
def sampleRotator : TorRotator :=
  let r := connect { rotation := {} } .done .done 0
  { r with rotation := (r.rotation.record {} "de" 300 .direct 1000).2 }

def sampleDraw : TorRotation.Draw := { explore := 0.5, index := 0, weight := 0.5 }

/-- `NEWNYM` fails after the exit was pinned: the exit counts as current, and the tick is
not repeated. -/
theorem failed_newnym_not_undone :
    Fails {} id sampleRotator sampleDraw .done (.ioException "NEWNYM failed: 551") 600000 ∧
      sampleRotator.rotation.lastCountry = none ∧
      (tick {} id sampleRotator sampleDraw .done (.ioException "NEWNYM failed: 551") 600000).2.rotation.lastCountry
        = some "de" ∧
      ((tick {} id sampleRotator sampleDraw .done (.ioException "NEWNYM failed: 551") 600000).2.rotation.shouldRotate
        {} id 610000).1 = false := by
  refine ⟨⟨rfl, ?_, ?_⟩, rfl, ?_, ?_⟩
  · decide +kernel
  · decide +kernel
  · decide +kernel
  · decide +kernel

/-- Where pinning the exit fails, nothing has changed. -/
theorem failed_tick_undone_iff_pinning :
    Undone {} id 600000 sampleRotator.rotation
      (tick {} id sampleRotator sampleDraw (.ioException "SETCONF failed: 552") .done 600000).2.rotation := by
  refine (failed_tick_undone_iff ⟨rfl, ?_, ?_⟩).mpr (.inr ?_)
  · decide +kernel
  · decide +kernel
  · rintro ⟨⟩

end TorRotator

end VlessCard
