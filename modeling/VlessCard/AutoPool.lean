/-
`AutoEligibility.kt`: the pool of routes that do not depend on one another.

One pass over the ranked servers keeps a server when three sets of keys have room
for its WireGuard secret, its /24 network and its SNI. The secret and the network
are added to their sets before anything is decided, the SNI only when the first two
let the server through. So the SNIs in the set are those of kept servers, while the
secrets and the networks are those of all servers so far, and a server that was
refused for one of them keeps on claiming the other. What is refused in excess of
the greedy selection is exactly what such a claim refuses.
-/
import VlessCard.Greedy
import VlessCard.Server

set_option autoImplicit false

namespace VlessCard

namespace AutoEligibility

/-- The keys that are taken. -/
structure Claimed where
  secrets : List String := []
  subnets : List String := []
  snis : List String := []

/-- `set.add(x)`: whether it was new, and the set with it. -/
def add (set : List String) (x : String) : Bool × List String :=
  if x ∈ set then (false, set) else (true, x :: set)

section
variable (U : Jvm)

def isIpv4 (s : String) : Bool :=
  let parts := Text.split s '.'
  decide (parts.length = 4) && parts.all fun p => match Text.toInt? U p with
    | some n => decide (0 ≤ n ∧ n ≤ 255)
    | none => false

/-- `address.substringBeforeLast('.')`. -/
def subnet (s : Server) : String := Text.substringBeforeLast s.address '.'

def freshSecret (c : Claimed) (s : Server) : Bool × List String :=
  if s.protocol ≠ "wireguard" then (true, c.secrets) else add c.secrets s.secret

def freshSubnet (c : Claimed) (s : Server) : Bool × List String :=
  if isIpv4 U s.address then add c.subnets (subnet s) else (true, c.subnets)

/-- The predicate of the filter: the SNI is looked at only behind the other two. -/
def accept (c : Claimed) (s : Server) : Bool × Claimed :=
  let claimed := { c with secrets := (freshSecret c s).2, subnets := (freshSubnet U c s).2 }
  if (freshSecret c s).1 && (freshSubnet U c s).1 then
    if Text.isBlank s.sni then (true, claimed)
    else ((add c.snis s.sni).1, { claimed with snis := (add c.snis s.sni).2 })
  else (false, claimed)

def independent (servers : List Server) : List Server := Greedy.kept (accept U) {} servers

/-! ## Conflicts

The pool is there so that one blocked account or one blocked network does not take all routes
with it. Two servers conflict when they have a secret, a network or an SNI in common; this is
said here of the servers alone, without the sets of the code. -/

/-- One account, or one network. -/
def SameChannel (t s : Server) : Prop :=
  (t.protocol = "wireguard" ∧ s.protocol = "wireguard" ∧ t.secret = s.secret) ∨
    (isIpv4 U t.address = true ∧ isIpv4 U s.address = true ∧ subnet t = subnet s)

instance : DecidableRel (SameChannel U) := fun _ _ => by
  unfold SameChannel
  infer_instance

def SameSni (t s : Server) : Prop := Text.isBlank s.sni = false ∧ t.sni = s.sni

instance : DecidableRel SameSni := fun _ _ => by
  unfold SameSni
  infer_instance

def Conflict (t s : Server) : Prop := SameChannel U t s ∨ SameSni t s

instance : DecidableRel (Conflict U) := fun _ _ => by
  unfold Conflict
  infer_instance

end

/-! ## What the sets hold

The three sets are never emptied, and a refused server leaves its secret and its network in the
first two. So what they hold after a prefix of the list is known: all secrets and networks of the
prefix, but the SNIs of the kept servers only. -/

section
variable {U : Jvm}

/-- What is claimed stays so; adding claims one more. -/
theorem mem_add {set : List String} {x y : String} : y ∈ (add set x).2 ↔ y = x ∨ y ∈ set := by
  rw [add]
  by_cases h : x ∈ set
  · rw [if_pos h]
    constructor
    · exact .inr
    · rintro (rfl | hy)
      · exact h
      · exact hy
  · rw [if_neg h, List.mem_cons]

theorem add_eq_false {set : List String} {x : String} : (add set x).1 = false ↔ x ∈ set := by
  rw [add]
  by_cases h : x ∈ set
  · simp [h]
  · simp [h]

theorem mem_freshSecret {c : Claimed} {s : Server} {k : String} :
    k ∈ (freshSecret c s).2 ↔ (s.protocol = "wireguard" ∧ s.secret = k) ∨ k ∈ c.secrets := by
  rw [freshSecret]
  by_cases h : s.protocol = "wireguard"
  · rw [if_neg (not_not_intro h), mem_add]
    simp [h, eq_comm]
  · rw [if_pos h]
    simp [h]

theorem freshSecret_eq_false {c : Claimed} {s : Server} :
    (freshSecret c s).1 = false ↔ s.protocol = "wireguard" ∧ s.secret ∈ c.secrets := by
  rw [freshSecret]
  by_cases h : s.protocol = "wireguard"
  · rw [if_neg (not_not_intro h), add_eq_false]
    simp [h]
  · rw [if_pos h]
    simp [h]

theorem mem_freshSubnet {c : Claimed} {s : Server} {k : String} :
    k ∈ (freshSubnet U c s).2 ↔ (isIpv4 U s.address = true ∧ subnet s = k) ∨ k ∈ c.subnets := by
  rw [freshSubnet]
  by_cases h : isIpv4 U s.address = true
  · rw [if_pos h, mem_add]
    simp [h, eq_comm]
  · rw [if_neg h]
    simp [h]

theorem freshSubnet_eq_false {c : Claimed} {s : Server} :
    (freshSubnet U c s).1 = false ↔ isIpv4 U s.address = true ∧ subnet s ∈ c.subnets := by
  rw [freshSubnet]
  by_cases h : isIpv4 U s.address = true
  · rw [if_pos h, add_eq_false]
    simp [h]
  · rw [if_neg h]
    simp [h]

/-- The first two sets do not depend on what is decided. -/
theorem accept_claims (c : Claimed) (s : Server) :
    (accept U c s).2.secrets = (freshSecret c s).2 ∧ (accept U c s).2.subnets = (freshSubnet U c s).2 := by
  rw [accept]
  by_cases h : ((freshSecret c s).1 && (freshSubnet U c s).1) = true
  · rw [if_pos h]
    by_cases hb : Text.isBlank s.sni = true
    · rw [if_pos hb]
      exact ⟨rfl, rfl⟩
    · rw [if_neg hb]
      exact ⟨rfl, rfl⟩
  · rw [if_neg h]
    exact ⟨rfl, rfl⟩

/-- A server is refused for one of three reasons. -/
theorem accept_eq_false {c : Claimed} {s : Server} : (accept U c s).1 = false ↔
    (freshSecret c s).1 = false ∨ (freshSubnet U c s).1 = false ∨ Text.isBlank s.sni = false ∧ s.sni ∈ c.snis := by
  rw [accept]
  by_cases h : ((freshSecret c s).1 && (freshSubnet U c s).1) = true
  · rw [if_pos h]
    rw [Bool.and_eq_true] at h
    by_cases hb : Text.isBlank s.sni = true
    · simp [hb, h.1, h.2]
    · rw [if_neg hb]
      simp [hb, h.1, h.2, add_eq_false]
  · rw [if_neg h]
    rw [Bool.and_eq_true, not_and_or, Bool.not_eq_true, Bool.not_eq_true] at h
    rcases h with h | h
    · simp [h]
    · simp [h]

/-- The SNI of a server is taken when the server is kept, and only then. -/
theorem mem_accept_snis {c : Claimed} {s : Server} {k : String} : k ∈ (accept U c s).2.snis ↔
    ((accept U c s).1 = true ∧ Text.isBlank s.sni = false ∧ s.sni = k) ∨ k ∈ c.snis := by
  rw [accept]
  by_cases h : ((freshSecret c s).1 && (freshSubnet U c s).1) = true
  · rw [if_pos h]
    by_cases hb : Text.isBlank s.sni = true
    · simp [hb]
    · rw [if_neg hb]
      by_cases hin : s.sni ∈ c.snis
      · simp [add, hin]
      · simp [add, hin, hb, eq_comm]
  · rw [if_neg h]
    simp

/-- The secrets and networks of all servers so far, the SNIs of the kept ones. -/
structure Covers (U : Jvm) (c : Claimed) (pre kept : List Server) : Prop where
  secrets : ∀ k, k ∈ c.secrets ↔ ∃ t ∈ pre, t.protocol = "wireguard" ∧ t.secret = k
  subnets : ∀ k, k ∈ c.subnets ↔ ∃ t ∈ pre, isIpv4 U t.address = true ∧ subnet t = k
  snis : ∀ k, k ∈ c.snis ↔ ∃ t ∈ kept, Text.isBlank t.sni = false ∧ t.sni = k

/-- One more server. -/
theorem Covers.accept {c : Claimed} {pre kept : List Server} (h : Covers U c pre kept) (s : Server) :
    Covers U (accept U c s).2 (pre ++ [s]) (kept ++ if (accept U c s).1 then [s] else []) where
  secrets := by
    intro k
    rw [(accept_claims c s).1, mem_freshSecret, h.secrets k]
    simp only [List.mem_append, List.mem_singleton, or_and_right, exists_or, exists_eq_left]
    exact or_comm
  subnets := by
    intro k
    rw [(accept_claims c s).2, mem_freshSubnet, h.subnets k]
    simp only [List.mem_append, List.mem_singleton, or_and_right, exists_or, exists_eq_left]
    exact or_comm
  snis := by
    intro k
    rw [mem_accept_snis, h.snis k]
    by_cases ha : (AutoEligibility.accept U c s).1 = true
    · simp only [ha, if_pos, true_and, List.mem_append, List.mem_singleton, or_and_right, exists_or, exists_eq_left]
      exact or_comm
    · simp [ha]

/-- **What is claimed is what the servers taken so far have.** -/
theorem covers_memory (pre : List Server) :
    Covers U (Greedy.memory (accept U) {} pre) pre (independent U pre) := by
  induction pre using List.reverseRecOn with
  | nil => exact { secrets := by simp [Greedy.memory], subnets := by simp [Greedy.memory],
                   snis := by simp [Greedy.memory, independent, Greedy.kept] }
  | append_singleton pre s ih =>
    rw [Greedy.memory_append_singleton, independent, Greedy.kept_append_singleton]
    exact ih.accept s

/-- A server is refused for a channel that any earlier server has, or for an SNI that a
kept one has. -/
theorem refused_iff (pre : List Server) (s : Server) : (accept U (Greedy.memory (accept U) {} pre) s).1 = false ↔
    (∃ t ∈ pre, SameChannel U t s) ∨ ∃ t ∈ independent U pre, SameSni t s := by
  have h := covers_memory (U := U) pre
  -- by the invariant each of the three sets stands for servers
  rw [accept_eq_false, freshSecret_eq_false, freshSubnet_eq_false, h.secrets, h.subnets, h.snis]
  constructor
  · rintro (⟨hs, t, ht, hp, hk⟩ | ⟨hs, t, ht, hi, hk⟩ | ⟨hs, t, ht, -, hk⟩)
    · exact .inl ⟨t, ht, .inl ⟨hp, hs, hk⟩⟩
    · exact .inl ⟨t, ht, .inr ⟨hi, hs, hk⟩⟩
    · exact .inr ⟨t, ht, hs, hk⟩
  · rintro (⟨t, ht, ⟨hp, hs, hk⟩ | ⟨hi, hs, hk⟩⟩ | ⟨t, ht, hs, hk⟩)
    · exact .inl ⟨hs, t, ht, hp, hk⟩
    · exact .inr (.inl ⟨hs, t, ht, hi, hk⟩)
    · exact .inr (.inr ⟨hs, t, ht, hk ▸ hs, hk⟩)

/-- What conflicts with a kept server is refused. -/
theorem refused_of_conflict (pre : List Server) (s : Server) (h : ∃ t ∈ independent U pre, Conflict U t s) :
    (accept U (Greedy.memory (accept U) {} pre) s).1 = false := by
  obtain ⟨t, ht, hc | hc⟩ := h
  · exact (refused_iff pre s).mpr (.inl ⟨t, (Greedy.kept_sublist _ _ _).subset ht, hc⟩)
  · exact (refused_iff pre s).mpr (.inr ⟨t, ht, hc⟩)

/-! ## The greedy pool

A greedy pool keeps a server just when it conflicts with no kept one. The code refuses more than
that, since a refused server goes on holding its secret and its network; the theorem names the
lists for which this makes no difference. -/

/-- What the pool promises: a server is kept exactly when it conflicts with no server
kept before, so that no two members conflict and what is left out conflicts with a
member. -/
structure PoolIsGreedy (U : Jvm) (servers : List Server) : Prop where
  keeps : ∀ pre s, pre ++ [s] <+: servers →
    (independent U (pre ++ [s]) = independent U pre ++ [s] ↔ ∀ t ∈ independent U pre, ¬ Conflict U t s)
  free : (independent U servers).Pairwise fun t s => ¬ Conflict U t s
  covered : ∀ pre s, pre ++ [s] <+: servers → independent U (pre ++ [s]) ≠ independent U pre ++ [s] →
    ∃ t ∈ independent U servers, Conflict U t s

/-- A server is kept when it is not refused. -/
theorem kept_iff (pre : List Server) (s : Server) : independent U (pre ++ [s]) = independent U pre ++ [s] ↔
    (accept U (Greedy.memory (accept U) {} pre) s).1 = true := Greedy.kept_append_singleton_eq _ _ _ _

/-- A pool that refuses only for a conflict with a member is the greedy one. -/
theorem PoolIsGreedy.of_keeps {servers : List Server} (h : ∀ pre s, pre ++ [s] <+: servers →
    (independent U (pre ++ [s]) = independent U pre ++ [s] ↔ ∀ t ∈ independent U pre, ¬ Conflict U t s)) :
    PoolIsGreedy U servers ∧ ∀ pre, pre <+: servers → independent U pre = Greedy.pool (Conflict U) pre := by
  have heq : ∀ pre, pre <+: servers → independent U pre = Greedy.pool (Conflict U) pre := by
    apply Greedy.kept_eq_pool
    -- a refusal without a conflict would contradict that the pool keeps such a server
    · exact refused_of_conflict
    · intro pre s hpre hrefused
      by_contra hnone
      have hkeep : independent U (pre ++ [s]) = independent U pre ++ [s] := by
        rw [h pre s hpre]
        intro t ht hc
        exact hnone ⟨t, List.mem_append_left _ ht, hc⟩
      rw [kept_iff, hrefused] at hkeep
      cases hkeep
  refine ⟨{ keeps := h, free := ?_, covered := ?_ }, heq⟩
  · rw [heq servers (List.prefix_refl _)]
    exact Greedy.pairwise_pool _ _
  · intro pre s hpre hdropped
    rw [Ne, h pre s hpre, not_forall] at hdropped
    obtain ⟨t, hdropped⟩ := hdropped
    rw [Classical.not_imp, not_not] at hdropped
    obtain ⟨rest, hrest⟩ := (List.prefix_append pre [s]).trans hpre
    rw [heq pre ⟨rest, hrest⟩] at hdropped
    refine ⟨t, ?_, hdropped.2⟩
    -- what was a member before `s` still is one at the end
    rw [heq servers (List.prefix_refl _), ← hrest]
    exact (Greedy.pool_prefix_append (Conflict U) pre rest).subset hdropped.1

/-- **The pool is the greedy one** exactly for lists in which every server that has the
account or the network of an earlier one also conflicts with an earlier server of
the greedy pool. -/
theorem pool_is_greedy_iff (U : Jvm) (servers : List Server) : PoolIsGreedy U servers ↔
    ∀ pre s, pre ++ [s] <+: servers → (∃ t ∈ pre, SameChannel U t s) →
      ∃ t ∈ Greedy.pool (Conflict U) pre, Conflict U t s := by
  constructor
  · intro h pre s hpre hshared
    have heq := (PoolIsGreedy.of_keeps h.keeps).2 pre ((List.prefix_append pre [s]).trans hpre)
    have hrefused := (refused_iff pre s).mpr (.inl hshared)
    by_contra hnone
    have hkeep : independent U (pre ++ [s]) = independent U pre ++ [s] := by
      rw [h.keeps pre s hpre, heq]
      exact fun t ht hc => hnone ⟨t, ht, hc⟩
    rw [kept_iff, hrefused] at hkeep
    cases hkeep
  · intro h
    -- a shared channel is covered by the condition
    -- what is refused for an SNI conflicts with a kept server anyway
    have hcause : ∀ pre s, pre ++ [s] <+: servers → (accept U (Greedy.memory (accept U) {} pre) s).1 = false →
        ∃ t ∈ independent U pre ++ Greedy.pool (Conflict U) pre, Conflict U t s := by
      intro pre s hpre hrefused
      rcases (refused_iff pre s).mp hrefused with hshared | ⟨t, ht, hsni⟩
      · obtain ⟨t, ht, hc⟩ := h pre s hpre hshared
        exact ⟨t, List.mem_append_right _ ht, hc⟩
      · exact ⟨t, List.mem_append_left _ ht, .inr hsni⟩
    have heq : ∀ pre, pre <+: servers → independent U pre = Greedy.pool (Conflict U) pre :=
      Greedy.kept_eq_pool refused_of_conflict hcause
    refine (PoolIsGreedy.of_keeps ?_).1
    intro pre s hpre
    rw [kept_iff]
    constructor
    · intro haccept t ht hc
      rw [refused_of_conflict pre s ⟨t, ht, hc⟩] at haccept
      cases haccept
    · intro hnone
      by_contra hno
      obtain ⟨t, ht, hc⟩ := hcause pre s hpre (eq_false_of_ne_true hno)
      rw [← heq pre ((List.prefix_append pre [s]).trans hpre), List.mem_append, or_self] at ht
      exact hnone t ht hc

/-- A second WireGuard endpoint of one account is refused, but its network stays taken:
the third server is refused as well, and conflicts with nothing in the pool. -/
theorem refused_server_claims_network :
    let first : Server := { name := "a", protocol := "wireguard", address := "1.2.3.4", port := 51820, secret := "k" }
    let second : Server := { first with name := "b", address := "5.6.7.8" }
    let third : Server := { name := "c", protocol := "vless", address := "5.6.7.9", port := 443, secret := "u" }
    independent Jvm.ascii [first, second, third] = [first] ∧ ¬ Conflict Jvm.ascii first third ∧
      ¬ PoolIsGreedy Jvm.ascii [first, second, third] := by
  intro first second third
  have hpool : independent Jvm.ascii [first, second, third] = [first] := by decide +kernel
  have hfree : ¬ Conflict Jvm.ascii first third := by decide +kernel
  refine ⟨hpool, hfree, ?_⟩
  intro h
  -- `first` is all of the pool before `third`, and does not conflict with it
  have hkept : independent Jvm.ascii ([first, second] ++ [third]) = independent Jvm.ascii [first, second] ++ [third] := by
    rw [h.keeps [first, second] third (List.prefix_refl _)]
    decide +kernel
  have hlen := congrArg List.length hkept
  revert hlen
  decide +kernel

end

end AutoEligibility

end VlessCard
