/-
`AutoSelection.kt`: the finalists of a foreground comparison.

The best measured server leads, one slot is for a server that needs a sample, and
the rest is the ranking, cut for variety of hosts. The slot is chosen by comparing
addresses up to case, the cut compares hosts after a dot and brackets are gone, so
the challenger may be another spelling of the leader's machine. Then the cut puts
the next hosts of the ranking before it and the slot is lost: whether a newcomer on
another host remains depends on the two best servers of other hosts.
-/
import VlessCard.ServerChoice

set_option autoImplicit false

namespace VlessCard

open Comparator Diversity KeyedList

namespace Text

/-- `a.equals(b, ignoreCase = true)`. -/
def equalsIgnoreCase (U : Jvm) (a b : String) : Bool :=
  decide (a.toList.length = b.toList.length) && (a.toList.zip b.toList).all fun p => U.sameLetter p.1 p.2

end Text

namespace AutoSelection

def REFRESH_MS : Int64 := 5 * 60000

def TOTAL_MS : ℤ := 7000

def PROBE_MS : ℤ := 2500

def MIN_PROBE_MS : ℤ := 800

def needsSample (s : ServerState) (net : String) (now : Int64) : Bool :=
  decide (ServerChoice.measuredSpeed s net now = 0) || decide (REFRESH_MS ≤ now - s.speedCheckedAt)

section
variable (U : Jvm) (candidates : List Server) (state : Server → ServerState) (net : String) (now : Int64)
  (hint : Server → Int32)

def ranked : List Server :=
  sortedWith (ServerChoice.downloadOrder state net now)
    ((distinctBy (Server.id U) candidates).filter fun s => (state s).works)

def leader : Option Server := minWithOrNull (ServerChoice.downloadOrder state net now) (ranked U candidates state net now)

/-- `compareByDescending { hint(it) }.thenBy { candidateScore }`. -/
def promise : Server → Server → Ordering :=
  compareLex (fun a b => compare (hint b).toInt (hint a).toInt)
    (compareOn fun s => (ServerChoice.candidateScore (state s) net now).toInt)

/-- The other servers that need a sample, hosts varied. -/
def challengers (leader : Server) : List Server :=
  let others := (ranked U candidates state net now).filter fun s => s.id U ≠ leader.id U
  ServerChoice.diverse U (sortedWith (promise state net now hint) (others.filter fun s => needsSample (state s) net now))
    others.length

/-- The server that gets the slot. -/
def challenger (leader : Server) : Option Server :=
  let challengers := challengers U candidates state net now hint leader
  (challengers.find? fun s => !Text.equalsIgnoreCase U s.address leader.address).or challengers.head?

def finalists : List Server :=
  match leader U candidates state net now with
  | none => []
  | some leader =>
    ServerChoice.diverse U (leader :: (challenger U candidates state net now hint leader).toList
      ++ ranked U candidates state net now) 3

/-- What the finalists promise: at most three servers, distinct and working, a best one
first, and a newcomer on another host whenever there is one. -/
structure GivesChance : Prop where
  short : (finalists U candidates state net now hint).length ≤ 3
  ids : ((finalists U candidates state net now hint).map (Server.id U)).Nodup
  working : ∀ s ∈ finalists U candidates state net now hint, (state s).works = true
  leads : ∀ s ∈ candidates, (state s).works = true →
    ∃ l, (finalists U candidates state net now hint).head? = some l ∧
      (ServerChoice.downloadOrder state net now l s).isLE = true
  newcomer : ∀ l, (finalists U candidates state net now hint).head? = some l →
    ∀ s ∈ candidates, (state s).works = true → needsSample (state s) net now = true →
      ServerChoice.host U s ≠ ServerChoice.host U l →
      ∃ t ∈ finalists U candidates state net now hint, needsSample (state t) net now = true ∧
        ServerChoice.host U t ≠ ServerChoice.host U l

end

/-! ## The ranking

The candidates that have a measurement are sorted by it, and the first of them leads. The others
that need a sample challenge, sorted by what the hint promises and then spread over hosts. -/

section
variable {U : Jvm} {candidates : List Server} {state : Server → ServerState} {net : String} {now : Int64}
  {hint : Server → Int32}

theorem mem_ranked {s : Server} : s ∈ ranked U candidates state net now ↔
    s ∈ distinctBy (Server.id U) candidates ∧ (state s).works = true := by
  rw [ranked, mem_sortedWith, List.mem_filter]

theorem nodup_ranked : ((ranked U candidates state net now).map (Server.id U)).Nodup :=
  ((perm_sortedWith _ _).map _).nodup_iff.mpr (nodup_filter (nodup_distinctBy _ _) _)

theorem keyed_ranked : Keyed (Server.id U) (ranked U candidates state net now) := .of_nodup nodup_ranked

/-- The leader is the first of the ranked. -/
theorem leader_eq : leader U candidates state net now = (ranked U candidates state net now).head? :=
  minWithOrNull_of_pairwise (pairwise_sortedWith _)

theorem mem_of_leader {l : Server} (h : leader U candidates state net now = some l) :
    l ∈ ranked U candidates state net now := mem_of_minWithOrNull _ h

theorem leader_isLE {l s : Server} (h : leader U candidates state net now = some l)
    (hs : s ∈ ranked U candidates state net now) : (ServerChoice.downloadOrder state net now l s).isLE = true :=
  minWithOrNull_isLE h s hs

/-- The challengers are the others that need a sample, all of them. -/
theorem mem_challengers {l s : Server} : s ∈ challengers U candidates state net now hint l ↔
    s ∈ ranked U candidates state net now ∧ s.id U ≠ l.id U ∧ needsSample (state s) net now = true := by
  have hkeyed : Keyed (Server.id U) (sortedWith (promise state net now hint)
      (((ranked U candidates state net now).filter fun s => s.id U ≠ l.id U).filter
        fun s => needsSample (state s) net now)) := by
    apply keyed_ranked.subset
    intro x hx
    exact List.mem_of_mem_filter (List.mem_of_mem_filter ((mem_sortedWith _).mp hx))
  -- the limit is the length of the list, so no challenger is cut off
  rw [challengers, ServerChoice.diverse, mem_diverse_of_length_le, hkeyed.mem_distinctBy, mem_sortedWith, List.mem_filter,
    List.mem_filter, decide_eq_true_eq, and_assoc]
  rw [length_sortedWith, Int.toNat_natCast]
  exact (List.filter_sublist (l := (ranked U candidates state net now).filter fun s => s.id U ≠ l.id U)).length_le

/-- The challenger is one of those that can challenge. -/
theorem mem_of_challenger {l c : Server} (h : challenger U candidates state net now hint l = some c) :
    c ∈ challengers U candidates state net now hint l := by
  rw [challenger, Option.or_eq_some_iff] at h
  rcases h with h | ⟨-, h⟩
  · exact List.mem_of_find?_eq_some h
  · exact List.mem_of_head? h

/-- Without a challenger there is none that could. -/
theorem challenger_eq_none {l : Server} (h : challenger U candidates state net now hint l = none) {s : Server} :
    s ∉ challengers U candidates state net now hint l := by
  rw [challenger, Option.or_eq_none_iff, List.head?_eq_none_iff] at h
  rw [h.2]
  exact List.not_mem_nil

/-! ## The finalists

The leader, the challenger and the best of the rest go through the cut by hosts once more. That
last cut compares hosts by another rule than the choice of the challenger does, which is where a
reserved slot can be lost. -/

/-- Without a leader there are no finalists. -/
theorem finalists_of_none (h : leader U candidates state net now = none) :
    finalists U candidates state net now hint = [] := by
  rw [finalists, h]

/-- Else it is in front, the challenger behind it, and then the rest by hosts. -/
theorem finalists_of_leader {l : Server} (h : leader U candidates state net now = some l) :
    finalists U candidates state net now hint = diverse (Server.id U) (ServerChoice.host U)
      (l :: ((challenger U candidates state net now hint l).toList ++ ranked U candidates state net now)) 3 := by
  rw [finalists, h]
  rfl

theorem finalists_subset {s : Server} (h : s ∈ finalists U candidates state net now hint) :
    s ∈ ranked U candidates state net now := by
  cases hl : leader U candidates state net now with
  | none =>
    rw [finalists_of_none hl] at h
    cases h
  | some l =>
    rw [finalists_of_leader hl] at h
    rcases List.mem_cons.mp (diverse_subset _ _ _ _ h) with rfl | h
    · exact mem_of_leader hl
    · rcases List.mem_append.mp h with h | h
      · exact (mem_challengers.mp (mem_of_challenger (Option.mem_toList.mp h))).1
      · exact h

theorem nodup_finalists : ((finalists U candidates state net now hint).map (Server.id U)).Nodup := by
  cases hl : leader U candidates state net now with
  | none => simp [finalists_of_none hl]
  | some l =>
    rw [finalists_of_leader hl]
    exact nodup_diverse _ _ _ _

theorem head?_finalists : (finalists U candidates state net now hint).head? = leader U candidates state net now := by
  cases hl : leader U candidates state net now with
  | none => rw [finalists_of_none hl, List.head?_nil]
  | some l => rw [finalists_of_leader hl, head?_diverse, List.head?_cons]

/-- A challenger on another host is second. -/
theorem challenger_mem_finalists {l c : Server} (h : leader U candidates state net now = some l)
    (hc : challenger U candidates state net now hint l = some c)
    (hhost : ServerChoice.host U c ≠ ServerChoice.host U l) : c ∈ finalists U candidates state net now hint := by
  rw [finalists_of_leader h]
  apply mem_diverse_of_find? (ServerChoice.host U)
  -- the leader, the challenger and the ranking all come from the ranking
  · have hkeyed : Keyed (Server.id U) (ranked U candidates state net now) := keyed_ranked
    apply hkeyed.subset
    intro s hs
    rcases List.mem_cons.mp hs with rfl | hs
    · exact mem_of_leader h
    · rcases List.mem_append.mp hs with hs | hs
      · exact (mem_challengers.mp (mem_of_challenger (Option.mem_toList.mp hs))).1
      · exact hs
  · rw [hc, Option.toList_some, List.singleton_append, List.find?_cons, decide_eq_true hhost]

/-- Behind a challenger on the leader's own host come the best of the first two other
hosts. -/
theorem mem_finalists_of_same_host {l c : Server} (h : leader U candidates state net now = some l)
    (hc : challenger U candidates state net now hint l = some c)
    (hhost : ServerChoice.host U c = ServerChoice.host U l) {s : Server} :
    (s ∈ finalists U candidates state net now hint ∧ ServerChoice.host U s ≠ ServerChoice.host U l) ↔
      s ∈ (fresh (ServerChoice.host U) [ServerChoice.host U l] (ranked U candidates state net now)).take 2 := by
  obtain ⟨hcr, hcl, -⟩ := mem_challengers.mp (mem_of_challenger hc)
  rw [finalists_of_leader h, hc, Option.toList_some, List.singleton_append]
  -- of the three places one is the leader's and the challenger gets none
  refine mem_diverse_three (ServerChoice.host U) ?_ hcl hhost nodup_ranked
  have hkeyed : Keyed (Server.id U) (ranked U candidates state net now) := keyed_ranked
  apply hkeyed.subset
  intro s hs
  rcases List.mem_cons.mp hs with rfl | hs
  · exact mem_of_leader h
  · rcases List.mem_cons.mp hs with rfl | hs
    · exact hcr
    · exact hs

/-- Without a challenger no finalist but the leader needs a sample. -/
theorem needsSample_of_no_challenger {l : Server} (hc : challenger U candidates state net now hint l = none)
    {t : Server} (ht : t ∈ finalists U candidates state net now hint) (hs : needsSample (state t) net now = true) :
    t.id U = l.id U := by
  by_contra hne
  exact challenger_eq_none hc (mem_challengers.mpr ⟨finalists_subset ht, hne, hs⟩)

/-- A server of another host that needs a sample makes a challenger. -/
theorem exists_challenger {l t : Server} (h : leader U candidates state net now = some l)
    (ht : t ∈ fresh (ServerChoice.host U) [ServerChoice.host U l] (ranked U candidates state net now))
    (hs : needsSample (state t) net now = true) : ∃ c, challenger U candidates state net now hint l = some c := by
  have hmem : t ∈ ranked U candidates state net now := (fresh_sublist _ _ _).subset ht
  rw [← Option.isSome_iff_exists]
  by_contra hno
  rw [Option.not_isSome_iff_eq_none] at hno
  apply challenger_eq_none hno (s := t)
  refine mem_challengers.mpr ⟨hmem, ?_, hs⟩
  intro hid
  have htl : t = l := keyed_ranked t hmem l (mem_of_leader h) hid
  apply not_known_of_mem_fresh (ServerChoice.host U) _ ht
  rw [htl]
  exact List.mem_cons_self

end

end AutoSelection

end VlessCard
