/-
`ProbeMemory.kt`: the candidates whose probe failed a short while ago.

A failure is remembered under the network, the server and the mask. It is taken out and
written again when it is renewed, so the map stands in the order of the last failures, and
what is too many goes at its front. Times are milliseconds and never go back; their
differences stay far from the end of their range.
-/
import Mathlib.Algebra.Order.Group.Int
import VlessCard.OrderedMap

set_option autoImplicit false

namespace VlessCard

/-- `ProbeMemory.Failure`. -/
structure ProbeFailure where
  time : ℤ
  streak : ℕ
  deriving DecidableEq

/-- The network, the server and the mask. -/
abbrev ProbeKey : Type := String × String × String

/-- What is remembered, the oldest failure first. -/
abbrev ProbeMemory : Type := OrderedMap ProbeKey ProbeFailure

namespace ProbeMemory

def cooldownMs (streak : ℕ) : ℤ := if streak ≤ 1 then 120000 else if streak = 2 then 900000 else 7200000

/-- `while (failed.size > limit) failed.remove(failed.keys.first())`. -/
def evict {α : Type} (limit : ℕ) : List α → List α
  | [] => []
  | e :: rest => if limit < (e :: rest).length then evict limit rest else e :: rest

theorem evict_suffix {α : Type} (limit : ℕ) (l : List α) : evict limit l <:+ l := by
  induction l with
  | nil => exact List.suffix_refl _
  | cons e rest ih =>
    rw [evict]
    split
    · exact ih.trans (List.suffix_cons e rest)
    · exact List.suffix_refl _

theorem length_evict {α : Type} (limit : ℕ) (l : List α) : (evict limit l).length ≤ limit := by
  induction l with
  | nil => exact Nat.zero_le _
  | cons e rest ih =>
    rw [evict]
    split
    · exact ih
    · rename_i hfits
      exact not_lt.mp hfits

/-- Nothing is taken out of what fits, and no more than necessary of what does not. -/
theorem length_evict_of_ne {α : Type} {limit : ℕ} {l : List α} (h : evict limit l ≠ l) :
    (evict limit l).length = limit := by
  induction l with
  | nil => exact absurd rfl h
  | cons e rest ih =>
    rw [evict] at h ⊢
    split at h
    · rename_i hlong
      rw [if_pos hlong]
      by_cases hrest : evict limit rest = rest
      · have hfits := length_evict limit rest
        rw [List.length_cons] at hlong
        rw [hrest] at hfits ⊢
        omega
      · exact ih hrest
    · exact absurd rfl h

/-- The last one written stays. -/
theorem mem_evict_concat {α : Type} {limit : ℕ} (h : 1 ≤ limit) (l : List α) (e : α) :
    e ∈ evict limit (l ++ [e]) := by
  induction l with
  | nil =>
    have hfits : ¬ limit < [e].length := not_lt.mpr h
    rw [List.nil_append, evict, if_neg hfits]
    exact List.mem_singleton_self e
  | cons x l ih =>
    rw [List.cons_append, evict]
    split
    · exact ih
    · exact List.mem_cons_of_mem x (List.mem_append_right l (List.mem_singleton_self e))

section
variable (ttlMs capacity : ℤ)

/-- `capacity.coerceAtLeast(1)`. -/
def limit : ℕ := (max capacity 1).toNat

theorem one_le_limit : 1 ≤ limit capacity := by
  unfold limit
  omega

/-- The streak of a failure that follows another one. -/
def nextStreak (old : Option ProbeFailure) (now : ℤ) : ℕ :=
  match old with
  | none => 1
  | some f => if f.time ≤ now ∧ now - f.time < 86400000 then min (f.streak + 1) 3 else 1

/-- The map before what is too many is taken out. -/
def noted (m : ProbeMemory) (key : ProbeKey) (ok : Bool) (now : ℤ) : ProbeMemory :=
  let rest := m.filterKeys fun k => k ≠ key
  if ok then rest else rest.put key ⟨now, nextStreak (m.get? key) now⟩

def record (m : ProbeMemory) (key : ProbeKey) (ok : Bool) (now : ℤ) : ProbeMemory :=
  let m := noted m key ok now
  ⟨evict (limit capacity) m.entries, m.nodup.sublist ((evict_suffix _ _).sublist.map _)⟩

/-- Whether a candidate has to wait; a failure from the future is forgotten. -/
def cooling (m : ProbeMemory) (key : ProbeKey) (now : ℤ) : Bool × ProbeMemory :=
  match m.get? key with
  | none => (false, m)
  | some f =>
    if now < f.time then (false, m.filterKeys fun k => k ≠ key)
    else
      let duration := if ttlMs = 120000 then cooldownMs f.streak else ttlMs
      (decide (now - f.time < duration), m)

end

/-! ## Calls

The memory after calls is defined along them, and so are the streak and whether a key was pushed
out. The two are then compared. -/

inductive Call where
  | record (key : ProbeKey) (ok : Bool) (now : ℤ)
  | cooling (key : ProbeKey) (now : ℤ)
  deriving DecidableEq

def Call.time : Call → ℤ
  | .record _ _ now => now
  | .cooling _ now => now

section
variable (capacity : ℤ)

def step (m : ProbeMemory) : Call → ProbeMemory
  | .record key ok now => m.record capacity key ok now
  | .cooling key now => (m.cooling 120000 key now).2

/-- The memory after calls, the latest of which is the first of the list. -/
def after : List Call → ProbeMemory
  | [] => .empty
  | c :: earlier => step capacity (after earlier) c

/-- Whether a call pushes a key out, which then is too many. -/
def pushesOut (earlier : List Call) (c : Call) (key : ProbeKey) : Bool :=
  match c with
  | .record k ok now => (noted (after capacity earlier) k ok now).contains key &&
      !((after capacity earlier).record capacity k ok now).contains key
  | .cooling _ _ => false

/-- Whether a key was pushed out since it was recorded last. -/
def evicted (key : ProbeKey) : List Call → Bool
  | [] => false
  | .record k ok now :: earlier =>
    if k = key then false else evicted key earlier || pushesOut capacity earlier (.record k ok now) key
  | .cooling _ _ :: earlier => evicted key earlier

/-- The failures of a key since its last success, the latest first. -/
def failures (key : ProbeKey) : List Call → List ℤ
  | [] => []
  | .record k ok now :: earlier =>
    if k = key then (if ok then [] else now :: failures key earlier) else failures key earlier
  | .cooling _ _ :: earlier => failures key earlier

/-- The failures of a key since its last success and since it was last pushed out. -/
def keptFailures (key : ProbeKey) : List Call → List ℤ
  | [] => []
  | .record k ok now :: earlier =>
    if k = key then (if ok then [] else now :: keptFailures key earlier)
    else if pushesOut capacity earlier (.record k ok now) key then [] else keptFailures key earlier
  | .cooling _ _ :: earlier => keptFailures key earlier

/-- How many failures in a row lie less than a day apart, the latest first. -/
def streak : List ℤ → ℕ
  | [] => 0
  | [_] => 1
  | a :: b :: earlier => if a - b < 86400000 then streak (b :: earlier) + 1 else 1

/-- The calls are at times that do not go back. -/
def InOrder (calls : List Call) : Prop := calls.Pairwise fun later earlier => earlier.time ≤ later.time

instance (calls : List Call) : Decidable (InOrder calls) :=
  inferInstanceAs (Decidable (calls.Pairwise fun later earlier => earlier.time ≤ later.time))

end

/-! ## One call

A call changes what is remembered of its key, and may push out the oldest failure. Nothing else
is touched. -/

section
variable {capacity : ℤ} {m : ProbeMemory} {key : ProbeKey} {ok : Bool} {now : ℤ}

/-- A call changes what is remembered of its own key. -/
theorem get?_noted (key' : ProbeKey) : (noted m key ok now).get? key' =
    if key = key' then (if ok then none else some ⟨now, nextStreak (m.get? key) now⟩) else m.get? key' := by
  have hrest : (m.filterKeys fun k => k ≠ key).get? key' = if key = key' then none else m.get? key' := by
    rw [OrderedMap.get?_filterKeys]
    by_cases hk : key = key'
    · rw [if_pos hk, if_neg (by simp [hk])]
    · rw [if_neg hk, if_pos (by simp [Ne.symm hk])]
  rw [noted]
  cases ok with
  | true => rw [if_pos rfl, hrest, if_pos rfl]
  | false =>
    rw [if_neg Bool.false_ne_true, OrderedMap.get?_put, hrest, if_neg Bool.false_ne_true]
    by_cases hk : key = key'
    · rw [if_pos hk, if_pos hk]
    · rw [if_neg hk, if_neg hk, if_neg hk]

/-- A failure is written at the end. -/
theorem entries_noted : (noted m key false now).entries =
    (m.filterKeys fun k => k ≠ key).entries ++ [(key, ⟨now, nextStreak (m.get? key) now⟩)] := by
  have hgone : (m.filterKeys fun k => k ≠ key).contains key = false := by
    rw [OrderedMap.contains, OrderedMap.get?_filterKeys, if_neg (by simp)]
    rfl
  rw [noted, if_neg Bool.false_ne_true]
  exact OrderedMap.entries_put hgone _

theorem entries_noted_ok : (noted m key true now).entries = (m.filterKeys fun k => k ≠ key).entries := rfl

/-- What is still there is as it was noted. -/
theorem get?_record (key' : ProbeKey) : (m.record capacity key ok now).get? key' =
    if (m.record capacity key ok now).contains key' then (noted m key ok now).get? key' else none := by
  cases hget : (m.record capacity key ok now).get? key' with
  | none =>
    have hgone : (m.record capacity key ok now).contains key' = false := by rw [OrderedMap.contains, hget]; rfl
    rw [hgone, if_neg Bool.false_ne_true]
  | some f =>
    have hthere : (m.record capacity key ok now).contains key' = true := by rw [OrderedMap.contains, hget]; rfl
    have hmem : (key', f) ∈ (noted m key ok now).entries :=
      (evict_suffix _ _).subset (OrderedMap.mem_of_get? hget)
    rw [hthere, if_pos rfl]
    exact (OrderedMap.get?_of_mem _ hmem).symm

/-- A key is there as it was noted, or it is pushed out. -/
theorem get?_record_pushesOut (earlier : List Call) (key' : ProbeKey) :
    ((after capacity earlier).record capacity key ok now).get? key' =
      if pushesOut capacity earlier (.record key ok now) key' then none
      else (noted (after capacity earlier) key ok now).get? key' := by
  rw [get?_record, pushesOut]
  cases hthere : ((after capacity earlier).record capacity key ok now).contains key' with
  | true => rw [if_pos rfl, Bool.not_true, Bool.and_false, if_neg Bool.false_ne_true]
  | false =>
    rw [if_neg Bool.false_ne_true, Bool.not_false, Bool.and_true]
    cases hnoted : (noted (after capacity earlier) key ok now).contains key' with
    | true => rw [if_pos rfl]
    | false =>
      rw [if_neg Bool.false_ne_true]
      exact (Option.isSome_eq_false_iff.mp hnoted |> Option.isNone_iff_eq_none.mp).symm

/-- A failure that was just recorded is not pushed out. -/
theorem pushesOut_self (earlier : List Call) : pushesOut capacity earlier (.record key ok now) key = false := by
  rw [pushesOut]
  cases ok with
  | true =>
    have hgone : (noted (after capacity earlier) key true now).contains key = false := by
      rw [OrderedMap.contains, get?_noted, if_pos rfl]
      rfl
    rw [hgone, Bool.false_and]
  | false =>
    have hmem : (key, (⟨now, nextStreak ((after capacity earlier).get? key) now⟩ : ProbeFailure)) ∈
        ((after capacity earlier).record capacity key false now).entries := by
      show _ ∈ evict _ (noted _ _ _ _).entries
      rw [entries_noted]
      exact mem_evict_concat (one_le_limit capacity) _ _
    have hthere : ((after capacity earlier).record capacity key false now).contains key = true := by
      rw [OrderedMap.contains, OrderedMap.get?_of_mem _ hmem]
      rfl
    rw [hthere, Bool.not_true, Bool.and_false]

end

/-! ## Whole histories

The invariant says of each key what is remembered: its latest failures since its last success, up
to where it was pushed out. The oldest failure stands in front. -/

section
variable {capacity : ℤ} {calls : List Call} {key : ProbeKey}

/-- What is remembered after calls. -/
structure Remembers (capacity : ℤ) (calls : List Call) : Prop where
  size : (after capacity calls).entries.length ≤ limit capacity
  sorted : (after capacity calls).entries.Pairwise fun e e' => e.2.time ≤ e'.2.time
  past : ∀ e ∈ (after capacity calls).entries, ∀ t, (∀ c ∈ calls, c.time ≤ t) → e.2.time ≤ t
  kept : ∀ key, (after capacity calls).get? key = (keptFailures capacity key calls).head?.map fun a =>
    ⟨a, min (streak (keptFailures capacity key calls)) 3⟩
  /-- What was forgotten failed before all that is kept. -/
  lost : ∀ key a, (failures key calls).head? = some a → (after capacity calls).get? key = none →
    ∀ e ∈ (after capacity calls).entries, a ≤ e.2.time

/-- One failure more. -/
theorem nextStreak_spec {now : ℤ} {times : List ℤ} (hpast : ∀ a ∈ times.head?, a ≤ now) :
    nextStreak (times.head?.map fun a => ⟨a, min (streak times) 3⟩) now = min (streak (now :: times)) 3 := by
  cases times with
  | nil => rfl
  | cons b earlier =>
    have hle : b ≤ now := hpast b rfl
    rw [List.head?_cons, Option.map_some, nextStreak, streak]
    by_cases hgap : now - b < 86400000
    · rw [if_pos ⟨hle, hgap⟩, if_pos hgap]
      show min (min (streak (b :: earlier)) 3 + 1) 3 = min (streak (b :: earlier) + 1) 3
      omega
    · rw [if_neg (fun h => hgap h.2), if_neg hgap]
      rfl

/-- A failure is one of a call. -/
theorem mem_failures {a : ℤ} (h : a ∈ failures key calls) : ∃ c ∈ calls, c.time = a := by
  induction calls with
  | nil => exact absurd h List.not_mem_nil
  | cons c earlier ih =>
    have hrest (h : a ∈ failures key earlier) : ∃ c' ∈ c :: earlier, c'.time = a := by
      obtain ⟨c', hc', ha⟩ := ih h
      exact ⟨c', List.mem_cons_of_mem c hc', ha⟩
    cases c with
    | cooling k now => exact hrest h
    | record k ok now =>
      rw [failures] at h
      split at h
      · split at h
        · exact absurd h List.not_mem_nil
        · rcases List.mem_cons.mp h with rfl | h
          · exact ⟨_, List.mem_cons_self .., rfl⟩
          · exact hrest h
      · exact hrest h

/-- The failures that were not forgotten are the latest ones. -/
theorem keptFailures_prefix (capacity : ℤ) (key : ProbeKey) (calls : List Call) :
    keptFailures capacity key calls <+: failures key calls := by
  induction calls with
  | nil => exact List.prefix_refl _
  | cons c earlier ih =>
    cases c with
    | cooling k now => exact ih
    | record k ok now =>
      rw [keptFailures, failures]
      by_cases hk : k = key
      · rw [if_pos hk, if_pos hk]
        cases ok with
        | true => exact List.prefix_refl _
        | false => exact (List.prefix_cons_inj now).mpr ih
      · rw [if_neg hk, if_neg hk]
        split
        · exact List.nil_prefix
        · exact ih

/-- The last failure that is kept is the last that was. -/
theorem head?_failures {a : ℤ} (h : (keptFailures capacity key calls).head? = some a) :
    (failures key calls).head? = some a := by
  obtain ⟨rest, hrest⟩ := keptFailures_prefix capacity key calls
  obtain ⟨earlier, hearlier⟩ := List.head?_eq_some_iff.mp h
  rw [← hrest, hearlier]
  rfl

/-- Before the first call nothing is remembered. -/
theorem remembers_nil : Remembers capacity [] where
  size := Nat.zero_le _
  sorted := List.Pairwise.nil
  past _ he := absurd he List.not_mem_nil
  kept _ := rfl
  lost _ _ ha := absurd ha (by rw [failures]; nofun)

/-- A check changes nothing. -/
theorem Remembers.cooling {key : ProbeKey} {now : ℤ} (h : Remembers capacity calls)
    (hnow : ∀ c ∈ calls, c.time ≤ now) : Remembers capacity (.cooling key now :: calls) := by
  have hsame : after capacity (.cooling key now :: calls) = after capacity calls := by
    show ((after capacity calls).cooling 120000 key now).2 = after capacity calls
    rw [ProbeMemory.cooling]
    split
    · rfl
    · rename_i f hf
      have hle := h.past _ (OrderedMap.mem_of_get? hf) now hnow
      rw [if_neg (not_lt.mpr hle)]
  refine ⟨?_, ?_, ?_, ?_, ?_⟩
  · rw [hsame]
    exact h.size
  · rw [hsame]
    exact h.sorted
  · rw [hsame]
    exact fun e he t ht => h.past e he t fun c hc => ht c (List.mem_cons_of_mem _ hc)
  · rw [hsame]
    exact h.kept
  · rw [hsame]
    exact h.lost

/-- Before what is too many is taken out. -/
theorem Remembers.sorted_noted {now : ℤ} (key : ProbeKey) (ok : Bool) (h : Remembers capacity calls)
    (hnow : ∀ c ∈ calls, c.time ≤ now) :
    (noted (after capacity calls) key ok now).entries.Pairwise fun e e' => e.2.time ≤ e'.2.time := by
  have hrest : ((after capacity calls).filterKeys fun k => k ≠ key).entries.Pairwise
      fun e e' => e.2.time ≤ e'.2.time := h.sorted.sublist List.filter_sublist
  cases ok with
  | true =>
    rw [entries_noted_ok]
    exact hrest
  | false =>
    rw [entries_noted, List.pairwise_append]
    refine ⟨hrest, List.pairwise_singleton _ _, fun e he e' he' => ?_⟩
    rw [List.mem_singleton.mp he']
    exact h.past e (List.mem_of_mem_filter he) now hnow

/-- An entry is an earlier one or the one that was just written. -/
theorem mem_noted {m : ProbeMemory} {ok : Bool} {now : ℤ} {e : ProbeKey × ProbeFailure}
    (h : e ∈ (noted m key ok now).entries) : e ∈ m.entries ∨ e.2.time = now := by
  cases ok with
  | true =>
    rw [entries_noted_ok] at h
    exact .inl (List.mem_of_mem_filter h)
  | false =>
    rw [entries_noted, List.mem_append, List.mem_singleton] at h
    rcases h with h | rfl
    · exact .inl (List.mem_of_mem_filter h)
    · exact .inr rfl

/-- What is pushed out failed before what stays. -/
theorem le_of_pushesOut {ok : Bool} {now : ℤ} {key' : ProbeKey} {f : ProbeFailure}
    (hsorted : (noted (after capacity calls) key ok now).entries.Pairwise fun e e' => e.2.time ≤ e'.2.time)
    (hf : (noted (after capacity calls) key ok now).get? key' = some f)
    (hgone : ((after capacity calls).record capacity key ok now).get? key' = none)
    {e : ProbeKey × ProbeFailure} (he : e ∈ ((after capacity calls).record capacity key ok now).entries) :
    f.time ≤ e.2.time := by
  obtain ⟨front, hfront⟩ := evict_suffix (limit capacity) (noted (after capacity calls) key ok now).entries
  have hmem := OrderedMap.mem_of_get? hf
  rw [← hfront] at hmem hsorted
  rcases List.mem_append.mp hmem with hmem | hmem
  · exact (List.pairwise_append.mp hsorted).2.2 _ hmem e he
  · have hthere := OrderedMap.get?_of_mem ((after capacity calls).record capacity key ok now) hmem
    rw [hgone] at hthere
    cases hthere

/-- Each call keeps what should be remembered. -/
theorem Remembers.record {ok : Bool} {now : ℤ} (h : Remembers capacity calls)
    (hnow : ∀ c ∈ calls, c.time ≤ now) : Remembers capacity (.record key ok now :: calls) := by
  have hsuffix : (after capacity (.record key ok now :: calls)).entries <:+
      (noted (after capacity calls) key ok now).entries := evict_suffix _ _
  have hsorted := h.sorted_noted key ok hnow
  refine ⟨length_evict _ _, hsorted.sublist hsuffix.sublist, fun e he t ht => ?_, fun key' => ?_, fun key' a ha hnone e he => ?_⟩
  -- nothing that is remembered is of the future
  · rcases mem_noted (hsuffix.subset he) with hold | hnew
    · exact h.past e hold t fun c hc => ht c (List.mem_cons_of_mem _ hc)
    · rw [hnew]
      exact ht _ (List.mem_cons_self ..)
  · show ((after capacity calls).record capacity key ok now).get? key' = _
    rw [get?_record_pushesOut, get?_noted, keptFailures]
    by_cases hk : key = key'
    -- the call's own key has its new entry
    · subst hk
      rw [pushesOut_self, if_neg Bool.false_ne_true, if_pos rfl, if_pos rfl]
      cases ok with
      | true => rfl
      | false =>
        have hpast : ∀ b ∈ (keptFailures capacity key calls).head?, b ≤ now := by
          intro b hb
          obtain ⟨c, hc, rfl⟩ := mem_failures (List.mem_of_mem_head? (head?_failures hb))
          exact hnow c hc
        rw [if_neg Bool.false_ne_true, if_neg Bool.false_ne_true, h.kept key, nextStreak_spec hpast]
        rfl
    -- every other key keeps what it had
    · rw [if_neg hk, if_neg hk]
      split
      · rfl
      · exact h.kept key'
  · have hgone : ((after capacity calls).record capacity key ok now).get? key' = none := hnone
    by_cases hk : key = key'
    · subst hk
      rw [failures, if_pos rfl] at ha
      cases ok with
      | true => cases ha
      | false =>
        rw [get?_record_pushesOut, pushesOut_self, if_neg Bool.false_ne_true, get?_noted, if_pos rfl] at hgone
        cases hgone
    · rw [failures, if_neg hk] at ha
      cases hold : (after capacity calls).get? key' with
      | some f =>
        -- a key that was pushed out is older than all that stay
        have hf : (noted (after capacity calls) key ok now).get? key' = some f := by
          rw [get?_noted, if_neg hk, hold]
        have hlast : f.time = a := by
          have hkept := h.kept key'
          rw [hold] at hkept
          obtain ⟨b, hb, hfb⟩ := Option.map_eq_some_iff.mp hkept.symm
          rw [head?_failures hb] at ha
          rw [← Option.some.inj ha, ← hfb]
        rw [← hlast]
        exact le_of_pushesOut hsorted hf hgone he
      | none =>
        rcases mem_noted (hsuffix.subset he) with hmem | hnew
        · exact h.lost key' a ha hold e hmem
        · obtain ⟨c, hc, rfl⟩ := mem_failures (List.mem_of_mem_head? ha)
          rw [hnew]
          exact hnow c hc

/-- **What is remembered after any calls.** -/
theorem remembers (h : InOrder calls) : Remembers capacity calls := by
  induction calls with
  | nil => exact remembers_nil
  | cons c earlier ih =>
    obtain ⟨hnow, hearlier⟩ := List.pairwise_cons.mp h
    cases c with
    | record k ok now => exact (ih hearlier).record hnow
    | cooling k now => exact (ih hearlier).cooling hnow

/-! ### The cooldown

A candidate waits for a time that grows with its streak. In terms of the history this is the
streak since its last success, cut where it was pushed out. -/

theorem cooldownMs_min (n : ℕ) : cooldownMs (min n 3) = cooldownMs n := by
  rcases Nat.lt_or_ge n 3 with h | h
  · rw [Nat.min_eq_left h.le]
  · have hone : ¬ n ≤ 1 := by omega
    have htwo : n ≠ 2 := by omega
    rw [Nat.min_eq_right h, cooldownMs, cooldownMs, if_neg hone, if_neg htwo]
    rfl

/-- A key that was not pushed out keeps its last failure. -/
theorem head?_keptFailures (h : evicted capacity key calls = false) :
    (keptFailures capacity key calls).head? = (failures key calls).head? := by
  induction calls with
  | nil => rfl
  | cons c earlier ih =>
    cases c with
    | cooling k now => exact ih h
    | record k ok now =>
      rw [evicted] at h
      rw [keptFailures, failures]
      by_cases hk : k = key
      · rw [if_pos hk, if_pos hk]
        cases ok with
        | true => rfl
        | false => rfl
      · rw [if_neg hk, Bool.or_eq_false_iff] at h
        rw [if_neg hk, if_neg hk, h.2, if_neg Bool.false_ne_true]
        exact ih h.1

/-- And one that was pushed out keeps none. -/
theorem keptFailures_of_evicted (h : evicted capacity key calls = true) : keptFailures capacity key calls = [] := by
  induction calls with
  | nil => rfl
  | cons c earlier ih =>
    cases c with
    | cooling k now => exact ih h
    | record k ok now =>
      rw [evicted] at h
      split at h
      · cases h
      · rename_i hk
        rw [keptFailures, if_neg hk]
        split
        · rfl
        · rename_i hpushed
          exact ih ((Bool.or_eq_true_iff.mp h).resolve_right hpushed)

/-- Something is pushed out only when the memory is full. -/
theorem length_of_pushesOut {c : Call} (h : pushesOut capacity calls c key = true) :
    (after capacity (c :: calls)).entries.length = limit capacity := by
  cases c with
  | cooling k now => cases h
  | record k ok now =>
    obtain ⟨hnoted, hgone⟩ := Bool.and_eq_true_iff.mp h
    refine length_evict_of_ne fun hsame => ?_
    have heq : (after capacity calls).record capacity k ok now = noted (after capacity calls) k ok now :=
      OrderedMap.ext_entries hsame
    rw [heq, hnoted] at hgone
    cases hgone

/-- What a check answers. -/
theorem Remembers.waits_iff {now : ℤ} (h : Remembers capacity calls) (hnow : ∀ c ∈ calls, c.time ≤ now) :
    ((after capacity calls).cooling 120000 key now).1 = true ↔ ∃ a,
      (keptFailures capacity key calls).head? = some a ∧
        now - a < cooldownMs (streak (keptFailures capacity key calls)) := by
  rw [ProbeMemory.cooling, h.kept key]
  cases hhead : (keptFailures capacity key calls).head? with
  | none => exact ⟨nofun, fun ⟨_, ha, _⟩ => nomatch ha⟩
  | some a =>
    obtain ⟨c, hc, hca⟩ := mem_failures (List.mem_of_mem_head? (head?_failures hhead))
    have hle : ¬ now < a := not_lt.mpr (hca ▸ hnow c hc)
    show (if now < a then (false, _) else
      (decide (now - a < if (120000 : ℤ) = 120000 then cooldownMs (min (streak _) 3) else 120000), _)).1 = true ↔ _
    rw [if_neg hle, if_pos rfl, cooldownMs_min, decide_eq_true_iff]
    exact ⟨fun hshort => ⟨a, rfl, hshort⟩, fun ⟨b, hb, hshort⟩ => Option.some.inj hb ▸ hshort⟩

/-- What a history of failures promises: a candidate waits while its last failure is not older
than its streak asks for. -/
def Waits (times : List ℤ) (lastFailure : Option ℤ) (now : ℤ) : Prop :=
  ∃ a, lastFailure = some a ∧ now - a < cooldownMs (streak times)

/-- A key is remembered as long as its last record is a failure and it was not pushed out. -/
theorem Remembers.contains_iff (h : Remembers capacity calls) (key : ProbeKey) :
    (after capacity calls).contains key = true ↔ failures key calls ≠ [] ∧ evicted capacity key calls = false := by
  rw [OrderedMap.contains, h.kept key, Option.isSome_map, List.isSome_head?]
  cases hevicted : evicted capacity key calls with
  | true => exact ⟨fun hkept => absurd (keptFailures_of_evicted hevicted) hkept, fun hboth => by cases hboth.2⟩
  | false =>
    have hhead := head?_keptFailures hevicted
    constructor
    · refine fun hkept => ⟨fun hnone => hkept ?_, rfl⟩
      rw [hnone] at hhead
      exact List.head?_eq_none_iff.mp hhead
    · refine fun hboth hnone => hboth.1 ?_
      rw [hnone] at hhead
      exact List.head?_eq_none_iff.mp hhead.symm

/-- **Failed probes cool down.** No more than `max capacity 1` failures are remembered, of
every key that did not succeed since and was not pushed out; what is pushed out failed before
all that is kept, and only a full memory pushes something out. A key that was not pushed out
waits exactly for the time of its streak, which counts the failures since the last success
and since the key was last pushed out. -/
theorem cooling_iff (h : InOrder calls) :
    ((after capacity calls).entries.length : ℤ) ≤ max capacity 1 ∧
    (∀ key, (after capacity calls).contains key = true ↔
      failures key calls ≠ [] ∧ evicted capacity key calls = false) ∧
    (∀ key a key' a', (after capacity calls).contains key = true → (failures key calls).head? = some a →
      (after capacity calls).contains key' = false → (failures key' calls).head? = some a' → a' ≤ a) ∧
    (∀ c key, pushesOut capacity calls c key = true →
      ((after capacity (c :: calls)).entries.length : ℤ) = max capacity 1) ∧
    ∀ key now, (∀ c ∈ calls, c.time ≤ now) → evicted capacity key calls = false →
      (((after capacity calls).cooling 120000 key now).1 = true ↔
        Waits (keptFailures capacity key calls) (failures key calls).head? now) := by
  have hall : Remembers capacity calls := remembers h
  have hlimit : (limit capacity : ℤ) = max capacity 1 := Int.toNat_of_nonneg (by omega)
  refine ⟨?_, hall.contains_iff, fun key a key' a' hthere ha hgone ha' => ?_, fun c key hpushed => ?_,
    fun key now hnow hevicted => ?_⟩
  · rw [← hlimit]
    exact Int.ofNat_le.mpr hall.size
  · obtain ⟨f, hf⟩ := Option.isSome_iff_exists.mp hthere
    have hkept := hall.kept key
    rw [hf] at hkept
    obtain ⟨b, hb, hfb⟩ := Option.map_eq_some_iff.mp hkept.symm
    have hlast : a = f.time := by
      rw [← hfb]
      exact Option.some.inj (ha.symm.trans (head?_failures hb))
    rw [hlast]
    exact hall.lost key' a' ha' (Option.isNone_iff_eq_none.mp (Option.isSome_eq_false_iff.mp hgone)) _
      (OrderedMap.mem_of_get? hf)
  · rw [length_of_pushesOut hpushed, hlimit]
  · rw [hall.waits_iff hnow, Waits, head?_keptFailures hevicted]

end

/-! ### A small memory

In a memory of one failure every other failure pushes the last one out. So the streak that counts
is always one. -/

/-- Three failures of two keys, the latest first. -/
def alternating : List Call :=
  [.record ("n", "a", "") false 2, .record ("n", "b", "") false 1, .record ("n", "a", "") false 0]

/-- A memory of one failure, after two others of the same key in a row. -/
theorem cooling_iff_alternating :
    ((after 1 alternating).entries.length : ℤ) ≤ max 1 1 ∧
      ((after 1 alternating).cooling 120000 ("n", "a", "") 100000).1 = true := by
  have hall := @cooling_iff 1 alternating (by decide)
  exact ⟨hall.1, (hall.2.2.2.2 ("n", "a", "") 100000 (by decide) (by decide)).mpr ⟨2, rfl, by decide⟩⟩

/-- The failure that was pushed out does not count for the streak. -/
theorem streak_forgotten : ¬ ∀ capacity calls key now, InOrder calls → (∀ c ∈ calls, c.time ≤ now) →
    evicted capacity key calls = false →
      (((after capacity calls).cooling 120000 key now).1 = true ↔
        Waits (failures key calls) (failures key calls).head? now) := by
  intro h
  have hwaits : Waits (failures ("n", "a", "") alternating) (failures ("n", "a", "") alternating).head? 150000 :=
    ⟨2, rfl, by decide⟩
  have htrue := (h 1 alternating ("n", "a", "") 150000 (by decide) (by decide) (by decide)).mpr hwaits
  exact absurd htrue (by decide)

end ProbeMemory

end VlessCard
