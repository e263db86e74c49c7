/-
`Actions.StateBatch`: results of parallel checks on their way into the store.

A put writes a function under the id of its server; a flush copies what is pending,
removes the keys of the copy one by one and hands the copy to `Store.setStates`. Flushes
exclude each other, puts do not. What was put and what was applied is recorded in two
history variables, so that a run can say which functions were lost.
-/
import VlessCard.Server

set_option autoImplicit false

namespace VlessCard

namespace StateBatch

/-- A function that was put: which one it is, by whom, for which server. -/
structure Task where
  number : ℕ
  thread : ℕ
  id : String
  f : ServerState → ServerState

/-- The copy a flush works on, and the keys it has not removed yet. -/
structure Flush where
  snap : OrderedMap String Task
  todo : List String

structure State where
  pending : OrderedMap String Task := .empty
  flushing : Option Flush := none
  /-- `AppState.states`. -/
  states : OrderedMap String ServerState := .empty
  puts : List Task := []
  applied : List Task := []

/-- `states[id] ?: ServerState()`. -/
def stateOf (states : OrderedMap String ServerState) (id : String) : ServerState :=
  (states.get? id).getD {}

/-- `Store.setStates`. -/
def setStates (states : OrderedMap String ServerState) (changes : List Task) :
    OrderedMap String ServerState :=
  changes.foldl (fun states t => states.put t.id (t.f (stateOf states t.id))) states

/-- What may happen next: a put of any thread, or a step of the flush that is running. -/
inductive Event where
  | put (thread : ℕ) (id : String) (f : ServerState → ServerState)
  | snapshot
  | remove (id : String)
  | apply

/-- The function of the next put. -/
def task (s : State) (thread : ℕ) (id : String) (f : ServerState → ServerState) : Task :=
  { number := s.puts.length, thread := thread, id := id, f := f }

/-- `pending[id] = f`. -/
def put (s : State) (t : Task) : State :=
  { s with pending := s.pending.put t.id t, puts := s.puts ++ [t] }

/-- `HashMap(pending)`. -/
def snapshot (s : State) : State :=
  { s with flushing := some { snap := s.pending, todo := s.pending.keys } }

/-- `pending.remove(id)`. -/
def remove (s : State) (fl : Flush) (id : String) : State :=
  { s with
    pending := s.pending.filterKeys fun k => k ≠ id
    flushing := some { fl with todo := fl.todo.filter fun k => k ≠ id } }

/-- `Store.setStates(snap)`, and the flush is over. -/
def apply (s : State) (fl : Flush) : State :=
  { s with
    flushing := none
    states := setStates s.states (fl.snap.entries.map Prod.snd)
    applied := s.applied ++ fl.snap.entries.map Prod.snd }

/-- One step. A flush starts when none is running, and its steps follow each other. -/
def step (s : State) : Event → Option State
  | .put thread id f => some (put s (task s thread id f))
  | .snapshot => if s.flushing.isSome then none else some (snapshot s)
  | .remove id => s.flushing.bind fun fl => if id ∈ fl.todo then some (remove s fl id) else none
  | .apply => s.flushing.bind fun fl => if fl.todo = [] then some (apply s fl) else none

def run (s : State) (es : List Event) : Option State := es.foldlM step s

/-- A put finds nothing pending for its server. -/
def Fresh (s : State) : Event → Prop
  | .put _ id _ => s.pending.get? id = none
  | _ => True

/-- Every put of a run does. -/
def FreshPuts : State → List Event → Prop
  | _, [] => True
  | s, e :: es => Fresh s e ∧ ∀ s', step s e = some s' → FreshPuts s' es

/-- Nothing was lost: every function that was put was applied once, those of one thread for
one server in order, and the states are what they make of the states before. -/
structure AllApplied (before : OrderedMap String ServerState) (s : State) : Prop where
  once : ∀ t ∈ s.puts, (s.applied.map Task.number).count t.number = 1
  order : ∀ thread id, (s.applied.filter fun t => t.thread = thread ∧ t.id = id) =
    s.puts.filter fun t => t.thread = thread ∧ t.id = id
  states : ∀ id, stateOf s.states id =
    (s.puts.filter fun t => t.id = id).foldl (fun v t => t.f v) (stateOf before id)

/-! ## What a step does

The steps of a flush follow each other, and puts come in between. The four kinds of steps are all
that the later proofs look at. -/

/-- The keys of the running flush that are still to be removed. -/
def todo (s : State) : List String := (s.flushing.map Flush.todo).getD []

/-- What the running flush will apply. -/
def snapped (s : State) : List Task := (s.flushing.map fun fl => fl.snap.entries.map Prod.snd).getD []

/-- **What a step can do**: each of the four events, with what it needs and what it leaves. -/
theorem step_cases {s s' : State} {e : Event} (h : step s e = some s') :
    (∃ thread id f, e = .put thread id f ∧ s' = put s (task s thread id f)) ∨
    (e = .snapshot ∧ s.flushing = none ∧ s' = snapshot s) ∨
    (∃ id fl, e = .remove id ∧ s.flushing = some fl ∧ id ∈ fl.todo ∧ s' = remove s fl id) ∨
    (∃ fl, e = .apply ∧ s.flushing = some fl ∧ fl.todo = [] ∧ s' = apply s fl) := by
  cases e with
  | put thread id f => exact .inl ⟨thread, id, f, rfl, (Option.some.inj h).symm⟩
  | snapshot =>
    rw [step] at h
    split at h
    · cases h
    · rename_i hnone
      exact .inr (.inl ⟨rfl, Option.not_isSome_iff_eq_none.mp hnone, (Option.some.inj h).symm⟩)
  | remove id =>
    obtain ⟨fl, hfl, h⟩ := Option.bind_eq_some_iff.mp h
    split at h
    · exact .inr (.inr (.inl ⟨id, fl, rfl, hfl, ‹_›, (Option.some.inj h).symm⟩))
    · cases h
  | apply =>
    obtain ⟨fl, hfl, h⟩ := Option.bind_eq_some_iff.mp h
    split at h
    · exact .inr (.inr (.inr ⟨fl, rfl, hfl, ‹_›, (Option.some.inj h).symm⟩))
    · cases h

/-! ## Runs without loss

As long as no put finds another one pending, each task is in exactly one place: pending, in the
copy of a flush, or applied. The order of those for one server is the order of their puts. -/

/-- What the running flush will apply to a server. -/
def snapOf (s : State) (id : String) : Option Task := s.flushing.bind fun fl => fl.snap.get? id

/-- What is pending for a server and is not in the copy. -/
def unsnapped (s : State) (id : String) : Option Task :=
  if id ∈ todo s then none else s.pending.get? id

/-- Functions are filed under their servers, and the puts for a server are those that were
applied, the one in the copy and the one that is pending, in this order. -/
structure Whole (before : OrderedMap String ServerState) (s : State) : Prop where
  filed : ∀ e ∈ s.pending.entries, e.2.id = e.1
  copied : ∀ fl ∈ s.flushing, ∀ e ∈ fl.snap.entries, e.2.id = e.1
  numbered : s.puts.map Task.number = List.range s.puts.length
  pending_of_todo : ∀ id ∈ todo s, s.pending.get? id ≠ none
  puts : ∀ id, s.puts.filter (fun t => t.id = id) =
    s.applied.filter (fun t => t.id = id) ++ (snapOf s id).toList ++ (unsnapped s id).toList
  states : ∀ id, stateOf s.states id =
    (s.applied.filter fun t => t.id = id).foldl (fun v t => t.f v) (stateOf before id)

/-- Before the first call the stored states are the whole. -/
theorem whole_init (before : OrderedMap String ServerState) : Whole before { states := before } :=
  ⟨fun _ he => absurd he List.not_mem_nil, (fun _ hfl => by cases hfl), rfl,
    fun _ hid => absurd hid List.not_mem_nil, fun _ => rfl, fun _ => rfl⟩

/-- What an update leaves in a server's state is its own tasks, in order. -/
theorem stateOf_setStates (id : String) (changes : List Task) : ∀ states : OrderedMap String ServerState,
    stateOf (setStates states changes) id =
      (changes.filter fun t => t.id = id).foldl (fun v t => t.f v) (stateOf states id) := by
  induction changes with
  | nil => exact fun states => rfl
  | cons t changes ih =>
    intro states
    refine (ih _).trans ?_
    by_cases hid : t.id = id
    · rw [List.filter_cons, if_pos (decide_eq_true hid), List.foldl_cons, stateOf, OrderedMap.get?_put,
        if_pos hid, hid]
      rfl
    · rw [List.filter_cons, if_neg (by rw [decide_eq_true_iff]; exact hid), stateOf, OrderedMap.get?_put,
        if_neg hid]
      rfl

/-- The functions of a copy for one server: the one filed under it. -/
theorem filter_copy {m : OrderedMap String Task} (h : ∀ e ∈ m.entries, e.2.id = e.1) (id : String) :
    (m.entries.map Prod.snd).filter (fun t => t.id = id) = (m.get? id).toList := by
  have hkeys : m.entries.filter (fun e => e.2.id = id) = m.entries.filter (fun e => e.1 = id) :=
    List.filter_congr fun e he => by rw [h e he]
  rw [List.filter_map]
  show (m.entries.filter fun e => e.2.id = id).map Prod.snd = _
  rw [hkeys, OrderedMap.entries_filter_key]
  cases m.get? id with
  | none => rfl
  | some t => rfl

/-- A new task waits for the next snapshot, unless its server is being written. -/
theorem unsnapped_put (s : State) (t : Task) (id : String) : unsnapped (put s t) id =
    if id ∈ todo s then none else if t.id = id then some t else s.pending.get? id := by
  rw [unsnapped, put, OrderedMap.get?_put]
  rfl

/-- A task for a server that has none pending keeps the invariant. -/
theorem Whole.put {before : OrderedMap String ServerState} {s : State} (h : Whole before s) {t : Task}
    (hnumber : t.number = s.puts.length) (hfresh : s.pending.get? t.id = none) :
    Whole before (put s t) := by
  refine ⟨OrderedMap.forall_put h.filed rfl, h.copied, ?_, ?_, ?_, h.states⟩
  · show (s.puts ++ [t]).map Task.number = List.range (s.puts ++ [t]).length
    rw [List.map_append, h.numbered, List.length_append, List.length_singleton, List.range_succ,
      ← hnumber]
    rfl
  · intro id hid
    show (s.pending.put t.id t).get? id ≠ none
    rw [OrderedMap.get?_put]
    split
    · exact Option.some_ne_none _
    · exact h.pending_of_todo id hid
  · intro id
    show (s.puts ++ [t]).filter (fun t => t.id = id) = s.applied.filter (fun t => t.id = id) ++
      (snapOf s id).toList ++ (unsnapped (StateBatch.put s t) id).toList
    rw [List.filter_append, h.puts id, unsnapped_put, unsnapped, List.filter_cons, List.filter_nil]
    by_cases hid : t.id = id
    · -- nothing was pending, so the new function follows all others of its server
      have hnot : id ∉ todo s := fun hmem => h.pending_of_todo id hmem (hid ▸ hfresh)
      rw [if_neg hnot, if_neg hnot, if_pos hid, if_pos (decide_eq_true hid), ← hid, hfresh,
        Option.toList_none, List.append_nil]
      rfl
    · have hdec : ¬ decide (t.id = id) = true := fun h => hid (of_decide_eq_true h)
      rw [if_neg hid, if_neg hdec, List.append_nil]

theorem Whole.snapshot {before : OrderedMap String ServerState} {s : State} (h : Whole before s)
    (hnone : s.flushing = none) : Whole before (snapshot s) := by
  refine ⟨h.filed, ?_, h.numbered, ?_, ?_, h.states⟩
  · intro fl hfl
    rw [← Option.some.inj hfl]
    exact h.filed
  · intro id hid
    have hsome := (OrderedMap.contains_iff s.pending id).mpr hid
    exact Option.ne_none_iff_isSome.mpr hsome
  · -- the copy takes over what was pending
    intro id
    have hcopy : snapOf (StateBatch.snapshot s) id = s.pending.get? id := rfl
    have hrest : unsnapped (StateBatch.snapshot s) id = none := by
      rw [unsnapped]
      by_cases hid : id ∈ s.pending.keys
      · exact if_pos hid
      · have hget : s.pending.get? id = none := by
          rw [← Option.not_isSome_iff_eq_none]
          exact fun hsome => hid ((OrderedMap.contains_iff s.pending id).mp hsome)
        exact (if_neg hid).trans hget
    have hbefore : unsnapped s id = s.pending.get? id := by
      rw [unsnapped, todo, hnone]
      exact if_neg List.not_mem_nil
    have hputs := h.puts id
    rw [hbefore, snapOf, hnone] at hputs
    rw [hcopy, hrest]
    show s.puts.filter _ = s.applied.filter _ ++ _ ++ []
    rw [List.append_nil, hputs, Option.bind_none, Option.toList_none, List.append_nil]

theorem Whole.remove {before : OrderedMap String ServerState} {s : State} (h : Whole before s) {fl : Flush}
    (hfl : s.flushing = some fl) {id : String} (hid : id ∈ fl.todo) : Whole before (remove s fl id) := by
  have htodo : todo s = fl.todo := by rw [todo, hfl]; rfl
  refine ⟨fun e he => h.filed e (List.mem_of_mem_filter he), ?_, h.numbered, ?_, ?_, h.states⟩
  · intro fl' hfl'
    rw [← Option.some.inj hfl']
    exact h.copied fl hfl
  · intro id' hid'
    have hmem : id' ∈ fl.todo.filter fun k => k ≠ id := hid'
    rw [List.mem_filter] at hmem
    show (s.pending.filterKeys fun k => k ≠ id).get? id' ≠ none
    rw [OrderedMap.get?_filterKeys, if_pos hmem.2]
    exact h.pending_of_todo id' (htodo ▸ hmem.1)
  · intro id'
    have hcopy : snapOf (StateBatch.remove s fl id) id' = snapOf s id' := by
      rw [snapOf, snapOf, hfl]
      rfl
    have hrest : unsnapped (StateBatch.remove s fl id) id' = unsnapped s id' := by
      show (if id' ∈ fl.todo.filter (fun k => k ≠ id) then none
        else (s.pending.filterKeys fun k => k ≠ id).get? id') = _
      rw [unsnapped, htodo, OrderedMap.get?_filterKeys]
      by_cases heq : id' = id
      · simp only [heq, hid, ne_eq, not_true_eq_false, decide_false, Bool.false_eq_true, if_false,
          if_true, ite_self]
      · simp only [List.mem_filter, heq, ne_eq, not_false_eq_true, decide_true, and_true, if_true]
    show s.puts.filter _ = s.applied.filter _ ++ _ ++ _
    rw [hcopy, hrest]
    exact h.puts id'

theorem Whole.apply {before : OrderedMap String ServerState} {s : State} (h : Whole before s) {fl : Flush}
    (hfl : s.flushing = some fl) (hdone : fl.todo = []) : Whole before (apply s fl) := by
  have htodo : todo s = [] := by rw [todo, hfl]; exact hdone
  have hcopy (id : String) := filter_copy (h.copied fl hfl) id
  refine ⟨h.filed, (fun fl hfl => by cases hfl), h.numbered, fun _ hid => absurd hid List.not_mem_nil,
    ?_, ?_⟩
  · intro id
    have hputs := h.puts id
    have hsnap : snapOf s id = fl.snap.get? id := by rw [snapOf, hfl]; rfl
    have hrest : unsnapped (StateBatch.apply s fl) id = unsnapped s id := by
      rw [unsnapped, unsnapped, htodo]
      rfl
    show s.puts.filter _ = (s.applied ++ fl.snap.entries.map Prod.snd).filter _ ++ [] ++ _
    rw [hrest, List.append_nil, List.filter_append, hcopy, ← hsnap]
    exact hputs
  · intro id
    show stateOf (setStates s.states (fl.snap.entries.map Prod.snd)) id
      = ((s.applied ++ fl.snap.entries.map Prod.snd).filter _).foldl _ _
    rw [stateOf_setStates, List.filter_append, List.foldl_append, h.states]

theorem Whole.step {before : OrderedMap String ServerState} {s s' : State} {e : Event}
    (h : Whole before s) (hfresh : Fresh s e) (hstep : step s e = some s') : Whole before s' := by
  rcases step_cases hstep with ⟨thread, id, f, rfl, rfl⟩ | ⟨rfl, hnone, rfl⟩ |
    ⟨id, fl, rfl, hfl, hid, rfl⟩ | ⟨fl, rfl, hfl, htodo, rfl⟩
  · exact h.put rfl hfresh
  · exact h.snapshot hnone
  · exact h.remove hfl hid
  · exact h.apply hfl htodo

theorem Whole.run {before : OrderedMap String ServerState} {es : List Event} : ∀ {s s' : State},
    Whole before s → FreshPuts s es → run s es = some s' → Whole before s' := by
  induction es with
  | nil =>
    intro s s' h _ hrun
    rw [← Option.some.inj hrun]
    exact h
  | cons e es ih =>
    intro s s' h hfresh hrun
    rw [StateBatch.run, List.foldlM_cons] at hrun
    obtain ⟨t, ht, hrun⟩ := Option.bind_eq_some_iff.mp hrun
    exact ih (h.step hfresh.1 ht) (hfresh.2 t ht) hrun

/-! ## The last flush

A last flush without puts applies everything that is left. With it a run without loss ends with
all tasks applied. -/

/-- A flush that no put comes into, its keys removed in some order. -/
def flush (ids : List String) : List Event := .snapshot :: (ids.map .remove ++ [.apply])

/-- Events that put nothing make no put that is not fresh. -/
theorem freshPuts_append {es fs : List Event} : ∀ {s : State},
    FreshPuts s es → (∀ e ∈ fs, ∀ s, Fresh s e) → FreshPuts s (es ++ fs) := by
  induction es with
  | nil =>
    intro s _ hfs
    induction fs generalizing s with
    | nil => exact trivial
    | cons e fs ih =>
      rw [List.forall_mem_cons] at hfs
      exact ⟨hfs.1 s, fun s' _ => ih trivial hfs.2⟩
  | cons e es ih => exact fun h hfs => ⟨h.1, fun s' hs' => ih (h.2 s' hs') hfs⟩

theorem freshPuts_left {es fs : List Event} : ∀ {s : State}, FreshPuts s (es ++ fs) → FreshPuts s es := by
  induction es with
  | nil => exact fun _ => trivial
  | cons e es ih => exact fun h => ⟨h.1, fun s' hs' => ih (h.2 s' hs')⟩

theorem fresh_flush (ids : List String) : ∀ e ∈ flush ids, ∀ s, Fresh s e := by
  intro e he s
  rcases List.mem_cons.mp he with rfl | he
  · trivial
  · rcases List.mem_append.mp he with he | he
    · obtain ⟨id, -, rfl⟩ := List.mem_map.mp he
      trivial
    · rw [List.mem_singleton.mp he]
      trivial

/-- During the last flush nothing is pending but what is to be removed. -/
theorem pending_todo_removes {ids : List String} : ∀ {s s' : State},
    (∀ id, s.pending.get? id ≠ none → id ∈ todo s) → run s (ids.map .remove) = some s' →
      ∀ id, s'.pending.get? id ≠ none → id ∈ todo s' := by
  induction ids with
  | nil =>
    intro s s' h hrun
    rw [← Option.some.inj hrun]
    exact h
  | cons id ids ih =>
    intro s s' h hrun
    rw [List.map_cons, run, List.foldlM_cons] at hrun
    obtain ⟨t, ht, hrun⟩ := Option.bind_eq_some_iff.mp hrun
    refine ih ?_ hrun
    obtain ⟨fl, hfl, ht⟩ := Option.bind_eq_some_iff.mp ht
    split at ht
    · intro id' hid'
      rw [← Option.some.inj ht] at hid' ⊢
      have hget : (s.pending.filterKeys fun k => k ≠ id).get? id' ≠ none := hid'
      rw [OrderedMap.get?_filterKeys] at hget
      by_cases hne : id' = id
      · rw [if_neg (by simp [hne])] at hget
        exact absurd rfl hget
      · rw [if_pos (decide_eq_true hne)] at hget
        have hmem := h id' hget
        rw [todo, hfl] at hmem
        exact List.mem_filter.mpr ⟨hmem, decide_eq_true hne⟩
    · cases ht

/-- After a whole flush nothing is pending and nothing being written. -/
theorem flushed {s s' : State} {ids : List String} (hrun : run s (flush ids) = some s') :
    s'.flushing = none ∧ ∀ id, s'.pending.get? id = none := by
  rw [flush, run, List.foldlM_cons] at hrun
  obtain ⟨t, ht, hrest⟩ := Option.bind_eq_some_iff.mp hrun
  rw [List.foldlM_append] at hrest
  obtain ⟨u, hu, hlast⟩ := Option.bind_eq_some_iff.mp hrest
  simp only [List.foldlM_cons, List.foldlM_nil, bind_pure] at hlast
  have hpending : ∀ id, u.pending.get? id ≠ none → id ∈ todo u := by
    refine pending_todo_removes ?_ hu
    rcases step_cases ht with ⟨_, _, _, he, -⟩ | ⟨-, -, rfl⟩ | ⟨_, _, he, -⟩ | ⟨_, he, -⟩
    · cases he
    · exact fun id hid => (OrderedMap.contains_iff s.pending id).mp (Option.ne_none_iff_isSome.mp hid)
    · cases he
    · cases he
  rcases step_cases hlast with ⟨_, _, _, he, -⟩ | ⟨he, -⟩ | ⟨_, _, he, -⟩ | ⟨fl, -, hfl, htodo, rfl⟩
  · cases he
  · cases he
  · cases he
  · refine ⟨rfl, fun id => ?_⟩
    by_contra hne
    have hmem := hpending id hne
    rw [todo, hfl, Option.map_some, Option.getD_some, htodo] at hmem
    cases hmem

/-- With nothing left pending all tasks of a server have been written, in order. -/
theorem numbers_perm {before : OrderedMap String ServerState} {s : State} (h : Whole before s)
    (hflushing : s.flushing = none) (hpending : ∀ id, s.pending.get? id = none) :
    ∀ id, s.puts.filter (fun t => t.id = id) = s.applied.filter (fun t => t.id = id) := by
  intro id
  have hnone : unsnapped s id = none := by rw [unsnapped, hpending, ite_self]
  rw [h.puts id, snapOf, hflushing, hnone, Option.bind_none, Option.toList_none, List.append_nil,
    List.append_nil]

/-- **So none is lost.** -/
theorem Whole.allApplied {before : OrderedMap String ServerState} {s : State} (h : Whole before s)
    (hflushing : s.flushing = none) (hpending : ∀ id, s.pending.get? id = none) :
    AllApplied before s := by
  have hsame := numbers_perm h hflushing hpending
  refine ⟨?_, ?_, ?_⟩
  · -- what was applied is what was put, in some order
    classical
    have hperm : s.applied.Perm s.puts := by
      rw [List.perm_iff_count]
      intro t
      have hcount (l : List Task) : l.count t = (l.filter fun u => u.id = t.id).count t :=
        (List.count_filter (p := fun u : Task => decide (u.id = t.id)) (decide_eq_true rfl)).symm
      rw [hcount, hcount s.puts, hsame]
    intro t ht
    rw [(hperm.map Task.number).count_eq, h.numbered]
    refine List.count_eq_one_of_mem List.nodup_range ?_
    rw [← h.numbered]
    exact List.mem_map_of_mem ht
  · intro thread id
    have hboth (l : List Task) : l.filter (fun t => t.thread = thread ∧ t.id = id)
        = (l.filter fun t => t.id = id).filter fun t => t.thread = thread := by
      rw [List.filter_filter]
      exact List.filter_congr fun t _ => Bool.decide_and _ _
    rw [hboth, hboth, hsame]
  · intro id
    rw [h.states, hsame]

/-! ## Runs with a loss

A put that finds another one pending replaces it, or is removed together with it. Either way one
task is applied never, and this stays so for the rest of the run. -/

/-- No function is pending, copied or applied under two numbers or before it was put. -/
structure Numbered (s : State) : Prop where
  applied : ∀ t ∈ s.applied, t.number < s.puts.length
  copied : ∀ t ∈ snapped s, t.number < s.puts.length
  pending : ∀ e ∈ s.pending.entries, e.2 ∈ s.puts ∧ e.2.number < s.puts.length
  distinct : ∀ e ∈ s.pending.entries, ∀ e' ∈ s.pending.entries, e.2.number = e'.2.number → e.1 = e'.1
  fresh : ∀ e ∈ s.pending.entries, e.1 ∉ todo s →
    ∀ t ∈ s.applied ++ snapped s, t.number ≠ e.2.number

/-- The function with the number `n` was put and will not be applied: what is pending under
it is about to be removed. -/
structure Lost (n : ℕ) (s : State) : Prop where
  was_put : ∃ t ∈ s.puts, t.number = n
  number_lt : n < s.puts.length
  not_applied : ∀ t ∈ s.applied ++ snapped s, t.number ≠ n
  removed : ∀ e ∈ s.pending.entries, e.2.number = n → e.1 ∈ todo s

/-- What is left of the pending tasks was pending, and is another server's. -/
theorem mem_filterKeys {m : OrderedMap String Task} {id : String} {e : String × Task}
    (h : e ∈ (m.filterKeys fun k => k ≠ id).entries) : e ∈ m.entries ∧ e.1 ≠ id := by
  obtain ⟨hmem, hne⟩ := List.mem_filter.mp h
  exact ⟨hmem, of_decide_eq_true hne⟩

theorem numbered_init (before : OrderedMap String ServerState) : Numbered { states := before } :=
  ⟨fun _ h => absurd h List.not_mem_nil, fun _ h => absurd h List.not_mem_nil,
    fun _ h => absurd h List.not_mem_nil, fun _ h => absurd h List.not_mem_nil,
    fun _ h => absurd h List.not_mem_nil⟩

theorem Numbered.step {s s' : State} {e : Event} (h : Numbered s) (hstep : step s e = some s') :
    Numbered s' := by
  rcases step_cases hstep with ⟨thread, id, f, rfl, rfl⟩ | ⟨rfl, hnone, rfl⟩ |
    ⟨id, fl, rfl, hfl, hid, rfl⟩ | ⟨fl, rfl, hfl, htodo, rfl⟩
  · have hlen : (put s (task s thread id f)).puts.length = s.puts.length + 1 := by
      rw [put, List.length_append, List.length_singleton]
    refine ⟨fun t ht => ?_, fun t ht => ?_, ?_, ?_, ?_⟩
    · rw [hlen]
      exact Nat.lt_succ_of_lt (h.applied t ht)
    · rw [hlen]
      exact Nat.lt_succ_of_lt (h.copied t ht)
    · rw [hlen]
      refine OrderedMap.forall_put (fun e he => ?_) ?_
      · exact ⟨List.mem_append_left _ (h.pending e he).1, Nat.lt_succ_of_lt (h.pending e he).2⟩
      · exact ⟨List.mem_append_right _ (List.mem_singleton_self _), Nat.lt_succ_self _⟩
    · intro e he e' he' heq
      rcases OrderedMap.mem_entries_put he with rfl | ⟨he, -⟩
      · rcases OrderedMap.mem_entries_put he' with rfl | ⟨he', -⟩
        · rfl
        · exact absurd heq (h.pending e' he').2.ne'
      · rcases OrderedMap.mem_entries_put he' with rfl | ⟨he', -⟩
        · exact absurd heq (h.pending e he).2.ne
        · exact h.distinct e he e' he' heq
    · refine OrderedMap.forall_put h.fresh ?_
      -- the new number is larger than all that were applied or copied
      intro _ t ht
      rcases List.mem_append.mp ht with ht | ht
      · exact (h.applied t ht).ne
      · exact (h.copied t ht).ne
  · refine ⟨h.applied, ?_, h.pending, h.distinct, ?_⟩
    · intro t ht
      obtain ⟨e, he, rfl⟩ := List.mem_map.mp ht
      exact (h.pending e he).2
    · exact fun e he hnot => absurd (List.mem_map_of_mem he) hnot
  · have hsnap : snapped (remove s fl id) = snapped s := by
      rw [snapped, snapped, hfl]
      rfl
    refine ⟨h.applied, hsnap ▸ h.copied, fun e he => h.pending e (mem_filterKeys he).1,
      fun e he e' he' => h.distinct e (mem_filterKeys he).1 e' (mem_filterKeys he').1, ?_⟩
    intro e he hnot
    obtain ⟨hmem, hne⟩ := mem_filterKeys he
    rw [hsnap]
    refine h.fresh e hmem fun htodo => hnot ?_
    rw [todo, hfl] at htodo
    exact List.mem_filter.mpr ⟨htodo, decide_eq_true hne⟩
  · have hsnap : snapped s = fl.snap.entries.map Prod.snd := by rw [snapped, hfl]; rfl
    refine ⟨?_, fun _ ht => absurd ht List.not_mem_nil, h.pending, h.distinct, ?_⟩
    · intro t ht
      rcases List.mem_append.mp ht with ht | ht
      · exact h.applied t ht
      · exact h.copied t (hsnap ▸ ht)
    · intro e he _ t ht
      have hnot : e.1 ∉ todo s := by
        rw [todo, hfl, Option.map_some, Option.getD_some, htodo]
        exact List.not_mem_nil
      refine h.fresh e he hnot t ?_
      rw [hsnap]
      exact (List.append_nil (s.applied ++ fl.snap.entries.map Prod.snd)) ▸ ht

theorem Lost.step {n : ℕ} {s s' : State} {e : Event} (h : Lost n s) (hstep : step s e = some s') :
    Lost n s' := by
  obtain ⟨t₀, ht₀, hn⟩ := h.was_put
  rcases step_cases hstep with ⟨thread, id, f, rfl, rfl⟩ | ⟨rfl, hnone, rfl⟩ |
    ⟨id, fl, rfl, hfl, hid, rfl⟩ | ⟨fl, rfl, hfl, htodo, rfl⟩
  · refine ⟨⟨t₀, List.mem_append_left _ ht₀, hn⟩, ?_, h.not_applied, ?_⟩
    · show n < (s.puts ++ [task s thread id f]).length
      rw [List.length_append]
      exact Nat.lt_add_right _ h.number_lt
    · refine OrderedMap.forall_put h.removed ?_
      -- the new function has another number
      intro heq
      exact absurd heq h.number_lt.ne'
  · have hgone : ∀ e ∈ s.pending.entries, e.2.number ≠ n := by
      intro e he heq
      have hmem := h.removed e he heq
      rw [todo, hnone] at hmem
      cases hmem
    refine ⟨⟨t₀, ht₀, hn⟩, h.number_lt, ?_, fun e he _ => List.mem_map_of_mem he⟩
    intro t ht
    rcases List.mem_append.mp ht with ht | ht
    · exact h.not_applied t (List.mem_append_left _ ht)
    · obtain ⟨e, he, rfl⟩ := List.mem_map.mp ht
      exact hgone e he
  · have hsnap : snapped (remove s fl id) = snapped s := by
      rw [snapped, snapped, hfl]
      rfl
    refine ⟨⟨t₀, ht₀, hn⟩, h.number_lt, hsnap ▸ h.not_applied, ?_⟩
    intro e he heq
    obtain ⟨hmem, hne⟩ := mem_filterKeys he
    have htodo := h.removed e hmem heq
    rw [todo, hfl] at htodo
    exact List.mem_filter.mpr ⟨htodo, decide_eq_true hne⟩
  · have hsnap : snapped s = fl.snap.entries.map Prod.snd := by rw [snapped, hfl]; rfl
    refine ⟨⟨t₀, ht₀, hn⟩, h.number_lt, ?_, ?_⟩
    · intro t ht
      refine h.not_applied t ?_
      rw [hsnap]
      exact (List.append_nil (s.applied ++ fl.snap.entries.map Prod.snd)) ▸ ht
    · intro e he heq
      have hmem := h.removed e he heq
      rw [todo, hfl, Option.map_some, Option.getD_some, htodo] at hmem
      cases hmem

/-- A put that finds a function pending loses one: the pending one, or itself when the key
is about to be removed. -/
theorem lost_of_not_fresh {s : State} (h : Numbered s) {thread : ℕ} {id : String}
    {f : ServerState → ServerState} (hnot : s.pending.get? id ≠ none) :
    ∃ n, Lost n (put s (task s thread id f)) := by
  have hmem : task s thread id f ∈ (put s (task s thread id f)).puts :=
    List.mem_append_right _ (List.mem_singleton_self _)
  have hlen : (put s (task s thread id f)).puts.length = s.puts.length + 1 := by
    rw [put, List.length_append, List.length_singleton]
  by_cases htodo : id ∈ todo s
  · refine ⟨s.puts.length, ⟨_, hmem, rfl⟩, by omega, ?_, ?_⟩
    · intro t ht
      rcases List.mem_append.mp ht with ht | ht
      · exact (h.applied t ht).ne
      · exact (h.copied t ht).ne
    · refine OrderedMap.forall_put (fun e he heq => ?_) (fun _ => htodo)
      exact absurd heq (h.pending e he).2.ne
  · obtain ⟨u, hu⟩ := Option.ne_none_iff_exists'.mp hnot
    have hentry := OrderedMap.mem_of_get? hu
    obtain ⟨hput, hlt⟩ := h.pending _ hentry
    refine ⟨u.number, ⟨u, List.mem_append_left _ hput, rfl⟩, by rw [hlen]; exact Nat.lt_succ_of_lt hlt,
      h.fresh _ hentry htodo, ?_⟩
    intro e he heq
    rcases OrderedMap.mem_entries_put he with rfl | ⟨he, hne⟩
    · exact absurd heq hlt.ne'
    · exact absurd (h.distinct e he _ hentry heq) hne

theorem Lost.run {n : ℕ} {es : List Event} : ∀ {s s' : State}, Lost n s → run s es = some s' → Lost n s' := by
  induction es with
  | nil =>
    intro s s' h hrun
    rw [← Option.some.inj hrun]
    exact h
  | cons e es ih =>
    intro s s' h hrun
    rw [StateBatch.run, List.foldlM_cons] at hrun
    obtain ⟨t, ht, hrest⟩ := Option.bind_eq_some_iff.mp hrun
    exact ih (h.step ht) hrest

/-- A run with a put that is not fresh loses a function. -/
theorem lost_of_run {es : List Event} : ∀ {s s' : State}, Numbered s → run s es = some s' →
    ¬ FreshPuts s es → ∃ n, Lost n s' := by
  induction es with
  | nil => exact fun _ _ hnot => absurd trivial hnot
  | cons e es ih =>
    intro s s' h hrun hnot
    rw [StateBatch.run, List.foldlM_cons] at hrun
    obtain ⟨t, ht, hrest⟩ := Option.bind_eq_some_iff.mp hrun
    by_cases hfresh : Fresh s e
    · refine ih (h.step ht) hrest fun hrestFresh => hnot ⟨hfresh, fun s₁ hs₁ => ?_⟩
      rw [ht] at hs₁
      rw [← Option.some.inj hs₁]
      exact hrestFresh
    · cases e with
      | put thread id f =>
        obtain ⟨n, hn⟩ : ∃ n, Lost n (put s (task s thread id f)) := lost_of_not_fresh h hfresh
        rw [← Option.some.inj ht] at hrest
        exact ⟨n, hn.run hrest⟩
      | _ => exact absurd trivial hfresh

/-- **No function is lost where none finds another before it.** After any run of puts and
flushes and a last flush that no put comes into, every function was applied exactly once,
in the order of its thread, exactly when every put found nothing pending for its server. -/
theorem nothing_lost_iff (before : OrderedMap String ServerState) {es : List Event} {ids : List String}
    {s : State} (hrun : run { states := before } (es ++ flush ids) = some s) :
    AllApplied before s ↔ FreshPuts { states := before } es := by
  constructor
  · intro h
    by_contra hnot
    obtain ⟨n, hn⟩ := lost_of_run (numbered_init before) hrun fun hall => hnot (freshPuts_left hall)
    obtain ⟨t, ht, hnumber⟩ := hn.was_put
    have hcount := h.once t ht
    -- the function with this number is not among those applied
    have hzero : (s.applied.map Task.number).count t.number = 0 := by
      rw [List.count_eq_zero]
      intro hmem
      obtain ⟨u, hu, heq⟩ := List.mem_map.mp hmem
      exact hn.not_applied u (List.mem_append_left _ hu) (heq.trans hnumber)
    omega
  · intro h
    have hwhole := (whole_init before).run (freshPuts_append h (fresh_flush ids)) hrun
    rw [run, List.foldlM_append] at hrun
    obtain ⟨t, -, hlast⟩ := Option.bind_eq_some_iff.mp hrun
    obtain ⟨hflushing, hpending⟩ := flushed hlast
    exact hwhole.allApplied hflushing hpending

/-- A result put between the copy of a flush and the removal of its key is lost. -/
theorem put_during_flush_lost :
    ∃ s, run {} ([.put 0 "a" fun v => { v with tcpMs := 40 }, .snapshot,
        .put 0 "a" fun v => { v with realMs := 90 }, .remove "a", .apply] ++ flush []) = some s ∧
      (stateOf s.states "a").tcpMs = 40 ∧ (stateOf s.states "a").realMs = -1 ∧ ¬ AllApplied .empty s := by
  refine ⟨_, rfl, rfl, rfl, ?_⟩
  intro h
  have hcount := h.once ⟨1, 0, "a", fun v => { v with realMs := 90 }⟩
    (List.mem_cons_of_mem _ (List.mem_singleton_self _))
  cases hcount

/-- A result put after the flush of another. -/
def twoPuts : List Event :=
  [.put 0 "a" fun v => { v with tcpMs := 40 }, .snapshot, .remove "a", .apply,
    .put 0 "a" fun v => { v with realMs := 90 }]

/-- Two calls for two servers, and a flush. -/
theorem nothing_lost_iff_two :
    ∃ s, run { states := .empty } (twoPuts ++ flush ["a"]) = some s ∧ AllApplied .empty s := by
  obtain ⟨s, hs⟩ : ∃ s, run { states := .empty } (twoPuts ++ flush ["a"]) = some s := ⟨_, rfl⟩
  refine ⟨s, hs, (nothing_lost_iff .empty hs).mpr ?_⟩
  refine ⟨rfl, fun s₁ h₁ => ⟨trivial, fun s₂ h₂ => ⟨trivial, fun s₃ h₃ => ⟨trivial, fun s₄ h₄ => ?_⟩⟩⟩⟩
  rw [← Option.some.inj h₁] at h₂
  rw [← Option.some.inj h₂] at h₃
  rw [← Option.some.inj h₃] at h₄
  rw [← Option.some.inj h₄]
  exact ⟨rfl, fun _ _ => trivial⟩

end StateBatch

end VlessCard
