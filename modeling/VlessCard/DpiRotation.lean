/-
`Actions.nextDpi`: the next strategy against inspection, when the one in use stopped
working.

A network keeps its strategies ranked and, apart, the one it uses. A call moves the
strategy in use to the end of the ranking and uses the one that followed it. While the
one in use is the first of the ranking, the call turns the ranking by one place, so as
many calls as there are strategies use each of them once and end where they began.
-/
import VlessCard.ByeDpi

set_option autoImplicit false

namespace VlessCard

namespace Net

/-- The kind of a network, without its profile. -/
def family (key : String) : String := Text.substringBeforeStr key " · "

end Net

namespace DpiStrategies

variable (U : Jvm)

/-- The strategy for a network: the fixed choice, else what was found for the network,
for its kind or for any, else the custom line. -/
def resolve (s : Settings) (network : String) : DpiStrategy :=
  let remembered := fun net => byId U (s.dpiRemembered.get? net) s
  (((((byId U (some s.dpiStrategy) s).or (remembered network)).or (remembered (Net.family network))).or
    (remembered Settings.ANY_NETWORK)).or (custom U s.byeDpiArgs s.byeDpiSni)).getD
      (BUILT_IN.head (List.cons_ne_nil _ _))

end DpiStrategies

namespace Actions

/-- `rank[(rank.indexOf(cur) + 1) % rank.size]`; what is not in the list has index -1. -/
def following (rank : List String) (cur : String) : Option String :=
  rank[(match rank.idxOf? cur with | some i => i + 1 | none => 0) % rank.length]?

variable (U : Jvm)

/-- The settings after a call, where it found a next strategy. -/
def nextDpi (net : String) (st : Settings) : Bool × Settings :=
  let rank := ((st.dpiRanking.get? net).or (st.dpiRanking.get? (Net.family net))).getD []
  let cur := (DpiStrategies.resolve U st net).id
  if st.dpiStrategy ≠ Settings.DPI_AUTO ∨ rank.length < 2 then (false, st)
  else
    match following rank cur with
    | none => (false, st)
    | some next =>
      if next = cur then (false, st)
      else (true, { st with
        dpiRemembered := st.dpiRemembered.put net next
        dpiRanking := st.dpiRanking.put net (rank.erase cur ++ [cur]) })

/-- The settings after some calls on one network. -/
def nextDpiTimes (net : String) (st : Settings) : ℕ → Settings
  | 0 => st
  | n + 1 => (nextDpi U net (nextDpiTimes net st n)).2

/-! ## Strategies and their ids

What an id means depends on the custom line of the settings only. So a call that changes what is
remembered for a network does not change what the ids in its ranking mean. -/

variable {U}

/-- A strategy is found under its own id. -/
theorem id_of_byId {id : String} {s : Settings} {st : DpiStrategy} (h : DpiStrategies.byId U (some id) s = some st) :
    st.id = id := by
  unfold DpiStrategies.byId at h
  dsimp only at h
  split at h
  · cases h
  · split at h
    · rename_i hcustom
      obtain ⟨args, -, rfl⟩ := Option.map_eq_some_iff.mp h
      exact hcustom.symm
    · split at h
      · unfold DpiEvo.decode at h
        split at h
        · cases h
        · rw [← Option.some.inj h]
      · have hp := List.find?_some h
        exact of_decide_eq_true hp

/-- Only the custom line of the settings matters to what an id means. -/
theorem byId_congr {s t : Settings} (hargs : t.byeDpiArgs = s.byeDpiArgs) (hsni : t.byeDpiSni = s.byeDpiSni)
    (id : Option String) : DpiStrategies.byId U id t = DpiStrategies.byId U id s := by
  unfold DpiStrategies.byId
  rw [hargs, hsni]

/-- Without a fixed choice, what was found for the network is used. -/
theorem resolve_remembered {s : Settings} {net id : String} {st : DpiStrategy}
    (hauto : s.dpiStrategy = Settings.DPI_AUTO) (hrem : s.dpiRemembered.get? net = some id)
    (hid : DpiStrategies.byId U (some id) s = some st) : DpiStrategies.resolve U s net = st := by
  have hfixed : DpiStrategies.byId U (some s.dpiStrategy) s = none := by
    unfold DpiStrategies.byId
    exact if_pos (.inr hauto)
  unfold DpiStrategies.resolve
  dsimp only
  rw [hfixed, hrem, hid]
  rfl

/-! ## One call

One call looks for the strategy in use in the ranking, takes the one behind it and moves the
front behind it to the end. Where the one in use is first this is a rotation by one place. -/

/-- A network whose strategies are ranked, the one in use first. -/
structure Ranked (U : Jvm) (net : String) (s : Settings) (rank : List String) : Prop where
  auto : s.dpiStrategy = Settings.DPI_AUTO
  ranking : s.dpiRanking.get? net = some rank
  inUse : s.dpiRemembered.get? net = rank.head?
  several : 2 ≤ rank.length
  distinct : rank.Nodup
  resolvable : ∀ id ∈ rank, (DpiStrategies.byId U (some id) s).isSome

theorem Ranked.resolve {net : String} {s : Settings} {first : String} {others : List String}
    (h : Ranked U net s (first :: others)) :
    DpiStrategies.byId U (some first) s = some (DpiStrategies.resolve U s net) := by
  obtain ⟨st, hst⟩ := Option.isSome_iff_exists.mp (h.resolvable first List.mem_cons_self)
  rw [resolve_remembered h.auto h.inUse hst, hst]

theorem following_first {first second : String} {others : List String} :
    following (first :: second :: others) first = some second := by
  have hidx : (first :: second :: others).idxOf? first = some 0 := by
    rw [List.idxOf?_cons, beq_self_eq_true, if_pos rfl]
  have hmod : (0 + 1) % (first :: second :: others).length = 1 := by
    apply Nat.mod_eq_of_lt
    rw [List.length_cons, List.length_cons]
    omega
  rw [following, hidx]
  dsimp only
  rw [hmod]
  rfl

/-- **One call turns the ranking by one place.** -/
theorem nextDpi_ranked {net : String} {s : Settings} {rank : List String} (h : Ranked U net s rank) :
    (nextDpi U net s).1 = true ∧ Ranked U net (nextDpi U net s).2 (rank.rotate 1) ∧
      ∀ id, DpiStrategies.byId U id (nextDpi U net s).2 = DpiStrategies.byId U id s := by
  match rank, h with
  | [], h => exact absurd h.several (by decide)
  | [_], h => exact absurd h.several (Nat.lt_irrefl 1)
  | first :: second :: others, h =>
    have hcur : (DpiStrategies.resolve U s net).id = first := id_of_byId h.resolve
    have hne : second ≠ first := fun heq => (List.nodup_cons.mp h.distinct).1 (heq ▸ List.mem_cons_self)
    -- with two strategies that work the function does not return at once
    have hguard : ¬ (s.dpiStrategy ≠ Settings.DPI_AUTO ∨ (first :: second :: others).length < 2) := by
      rintro (hauto | hshort)
      · exact hauto h.auto
      · exact absurd h.several (not_le.mpr hshort)
    have hcall : nextDpi U net s = (true, { s with
        dpiRemembered := s.dpiRemembered.put net second
        dpiRanking := s.dpiRanking.put net (second :: others ++ [first]) }) := by
      unfold nextDpi
      dsimp only
      rw [h.ranking, Option.some_or, Option.getD_some, hcur, if_neg hguard, following_first]
      dsimp only
      rw [if_neg hne, List.erase_cons_head]
    -- the bred strategies are not touched, so the ids stand for what they did
    have hsame (id : Option String) : DpiStrategies.byId U id (nextDpi U net s).2 = DpiStrategies.byId U id s := by
      rw [hcall]
      exact byId_congr rfl rfl id
    have hturn : (first :: second :: others).rotate 1 = second :: others ++ [first] := by
      rw [List.rotate_cons_succ, List.rotate_zero]
    refine ⟨by rw [hcall], ?_, hsame⟩
    rw [hturn]
    -- the field of the ranking: the first went to its end
    refine ⟨?_, ?_, ?_, ?_, ?_, ?_⟩
    · rw [hcall]
      exact h.auto
    · rw [hcall, OrderedMap.get?_put, if_pos rfl]
    · rw [hcall, OrderedMap.get?_put, if_pos rfl]
      rfl
    · rw [← hturn, List.length_rotate]
      exact h.several
    · rw [← hturn, List.nodup_rotate]
      exact h.distinct
    · intro id hid
      rw [hsame]
      apply h.resolvable
      rw [← hturn, List.mem_rotate] at hid
      exact hid

/-! ## A round

Rotations add up, so after as many calls as there are strategies the ranking is what it was. On
the way each of them was in front once. -/

/-- Some calls turn the ranking by as many places. -/
theorem nextDpiTimes_ranked {net : String} {s : Settings} {rank : List String} (h : Ranked U net s rank) (n : ℕ) :
    Ranked U net (nextDpiTimes U net s n) (rank.rotate n) ∧
      ∀ id, DpiStrategies.byId U id (nextDpiTimes U net s n) = DpiStrategies.byId U id s := by
  induction n with
  | zero =>
    rw [List.rotate_zero]
    exact ⟨h, fun _ => rfl⟩
  | succ n ih =>
    have hcall := nextDpi_ranked ih.1
    refine ⟨?_, fun id => (hcall.2.2 id).trans (ih.2 id)⟩
    rw [← List.rotate_rotate]
    exact hcall.2.1

/-- The strategy in use after some calls is that of the id the turned ranking starts
with. -/
theorem resolve_times {net : String} {s : Settings} {rank : List String} (h : Ranked U net s rank) (n : ℕ) :
    let used := DpiStrategies.resolve U (nextDpiTimes U net s n) net
    (rank.rotate n).head? = some used.id ∧ DpiStrategies.byId U (some used.id) s = some used := by
  intro used
  obtain ⟨hranked, hsame⟩ := nextDpiTimes_ranked h n
  cases hrot : rank.rotate n with
  | nil =>
    rw [hrot] at hranked
    exact absurd hranked.several (by decide)
  | cons first others =>
    rw [hrot] at hranked
    have hused : DpiStrategies.byId U (some first) s = some used := by
      rw [← hsame]
      exact hranked.resolve
    have hid : used.id = first := id_of_byId hused
    rw [List.head?_cons, hid]
    exact ⟨rfl, hused⟩

/-- The heads of the rotations of a list, in turn. -/
theorem heads_of_rotations {α : Type} (l : List α) :
    (List.range l.length).map (fun i => (l.rotate (i + 1)).head?) = (l.rotate 1).map some := by
  apply List.ext_getElem
  · rw [List.length_map, List.length_map, List.length_range, List.length_rotate]
  · intro i hi _
    rw [List.length_map, List.length_range] at hi
    have hi' : i < (l.rotate 1).length := by rwa [List.length_rotate]
    rw [List.getElem_map, List.getElem_map, List.getElem_range, Nat.add_comm i 1, ← List.rotate_rotate,
      List.head?_rotate hi', List.getElem?_eq_getElem hi']

/-- The ids in use during a round. -/
theorem ids_of_round {net : String} {s : Settings} {rank : List String} (h : Ranked U net s rank) :
    (List.range rank.length).map (fun i => (DpiStrategies.resolve U (nextDpiTimes U net s (i + 1)) net).id)
      = rank.rotate 1 := by
  have hheads : (List.range rank.length).map
      (fun i => some (DpiStrategies.resolve U (nextDpiTimes U net s (i + 1)) net).id) = (rank.rotate 1).map some := by
    rw [← heads_of_rotations]
    apply List.map_congr_left
    intro i _
    exact (resolve_times h (i + 1)).1.symm
  apply List.map_injective_iff.mpr (Option.some_injective String)
  rw [List.map_map]
  exact hheads

/-- **Fallback strategies are all tried.** Every call succeeds and leaves the ranking
the original one in another order, the strategy in use first. As many calls as there
are strategies use each of them once, the original one last; what is in use is always
the strategy of its id. -/
theorem nextDpi_tries_all (net : String) (s : Settings) (rank : List String) (h : Ranked U net s rank) :
    let after := nextDpiTimes U net s
    let used := fun n => DpiStrategies.resolve U (after n) net
    (∀ n, (nextDpi U net (after n)).1 = true ∧
      ∃ turned, (after n).dpiRanking.get? net = some turned ∧ turned.Perm rank ∧
        (after n).dpiRemembered.get? net = turned.head?) ∧
      (List.range rank.length).map (fun i => (used (i + 1)).id) = rank.tail ++ rank.head?.toList ∧
      ∀ n, DpiStrategies.byId U (some (used n).id) s = some (used n) := by
  intro after used
  have hturn : rank.rotate 1 = rank.tail ++ rank.head?.toList := by
    cases rank with
    | nil => rfl
    | cons first others =>
      rw [List.rotate_cons_succ, List.rotate_zero]
      rfl
  refine ⟨fun n => ?_, (ids_of_round h).trans hturn, fun n => (resolve_times h n).2⟩
  have hranked := (nextDpiTimes_ranked h n).1
  exact ⟨(nextDpi_ranked hranked).1, _, hranked.ranking, List.rotate_perm rank n, hranked.inUse⟩

/-- Three built-in strategies, ranked on a network. -/
theorem nextDpi_tries_all_three :
    let s : Settings :=
      { dpiRemembered := .ofList [("Wi-Fi", "BYEDPI#DISORDER")]
        dpiRanking := .ofList [("Wi-Fi", ["BYEDPI#DISORDER", "TPWS#OOB", "XRAY#DUST"])] }
    (List.range 3).map (fun i => (DpiStrategies.resolve Jvm.ascii (nextDpiTimes Jvm.ascii "Wi-Fi" s (i + 1)) "Wi-Fi").id)
      = ["TPWS#OOB", "XRAY#DUST", "BYEDPI#DISORDER"] := by
  intro s
  have hranked : Ranked Jvm.ascii "Wi-Fi" s ["BYEDPI#DISORDER", "TPWS#OOB", "XRAY#DUST"] :=
    { auto := rfl
      ranking := by decide
      inUse := by decide
      several := by decide
      distinct := by decide
      resolvable := by decide +kernel }
  exact (nextDpi_tries_all "Wi-Fi" s _ hranked).2.1

end Actions

end VlessCard
