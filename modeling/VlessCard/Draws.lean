/-
Computations that draw numbers at random and may throw.

The numbers come from a stream, one natural number a draw, so that whatever a random
generator can answer is answered by some stream. What is drawn stays drawn when an
exception is thrown and caught. Four judgements say what such a computation does:
`Returns` (whatever is drawn it returns, and what it returns is as said), `Ensures`
(the same of what it returns, if it does), `Reaches` (some draws lead to a value,
whatever is drawn after) and `Throws` (some draws lead to an exception). Each has a
rule for every way to put computations together.
-/
import Mathlib.Data.Nat.Sqrt
import VlessCard.Binary64

set_option autoImplicit false

namespace VlessCard

/-- Draws from a stream; `none` is an exception. -/
def Draw (α : Type) : Type := (ℕ → ℕ) → Option α × (ℕ → ℕ)

namespace Draw

section
variable {α β : Type}

protected def bind (m : Draw α) (f : α → Draw β) : Draw β := fun r =>
  match m r with
  | (some a, rest) => f a rest
  | (none, rest) => (none, rest)

instance : Monad Draw where
  pure a := fun r => (some a, r)
  bind := Draw.bind

def throw : Draw α := fun r => (none, r)

/-- `runCatching { … }.getOrNull()`. -/
def attempt (m : Draw α) : Draw (Option α) := fun r => (some (m r).1, (m r).2)

/-- What is not there throws. -/
def ofOption : Option α → Draw α
  | some a => pure a
  | none => throw

def next : Draw ℕ := fun r => (some (r 0), fun n => r (n + 1))

/-- `nextInt(from, until)`; an empty range throws. -/
def nextInt (lo hi : ℤ) : Draw ℤ :=
  if lo < hi then next >>= fun x => pure (lo + (x : ℤ) % (hi - lo)) else throw

def nextBoolean : Draw Bool := next >>= fun x => pure (decide (x % 2 = 1))

/-- `nextDouble()`: the multiples of 2⁻⁵³ from zero up to one. -/
def nextDouble : Draw ℚ := next >>= fun x => pure (((x % 2 ^ 53 : ℕ) : ℚ) / 2 ^ 53)

/-- `random()`, and `list[nextInt(list.size)]`. -/
def element (l : List α) : Draw α := nextInt 0 l.length >>= fun i => ofOption l[i.toNat]?

/-- `nextInt(n) == 0`. -/
def oneIn (n : ℤ) : Draw Bool := nextInt 0 n >>= fun x => pure (decide (x = 0))

/-- A loop that goes on while it may and turns are left; a turn is told how many are left. -/
def loop {σ : Type} (go : σ → Bool) (turn : ℕ → σ → Draw σ) : ℕ → σ → Draw σ
  | 0, s => pure s
  | k + 1, s => if go s then turn k s >>= fun s => loop go turn k s else pure s

/-! ## What a computation does

A computation is a function of the stream, and four things are said of one: that it returns
something good on every stream, that what it returns is good, that some stream leads to a value,
and that some stream makes it throw. -/

def Returns (m : Draw α) (Q : α → Prop) : Prop := ∀ r, ∃ a, (m r).1 = some a ∧ Q a

def Ensures (m : Draw α) (Q : α → Prop) : Prop := ∀ r a, (m r).1 = some a → Q a

def Reaches (m : Draw α) (a : α) : Prop := ∀ rest, ∃ r, m r = (some a, rest)

def Throws (m : Draw α) : Prop := ∃ r, (m r).1 = none

/-- A run goes on with what was drawn, and with the stream behind it. -/
theorem run_bind_some {m : Draw α} {f : α → Draw β} {r rest : ℕ → ℕ} {a : α} (h : m r = (some a, rest)) :
    (m >>= f) r = f a rest := by
  show Draw.bind m f r = f a rest
  rw [Draw.bind, h]

/-- A run that threw has nothing to go on with. -/
theorem run_bind_none {m : Draw α} {f : α → Draw β} {r : ℕ → ℕ} (h : (m r).1 = none) : ((m >>= f) r).1 = none := by
  show (Draw.bind m f r).1 = none
  rw [Draw.bind]
  cases hm : m r with
  | mk o rest =>
    rw [hm] at h
    cases o with
    | none => rfl
    | some a => cases h

/-- A computation that returned went through both parts. -/
theorem exists_of_bind_some {m : Draw α} {f : α → Draw β} {r : ℕ → ℕ} {b : β} (h : ((m >>= f) r).1 = some b) :
    ∃ a, (m r).1 = some a ∧ (f a (m r).2).1 = some b := by
  cases hm : (m r).1 with
  | none =>
    rw [run_bind_none hm] at h
    cases h
  | some a =>
    have hrun : m r = (some a, (m r).2) := Prod.ext hm rfl
    rw [run_bind_some hrun] at h
    exact ⟨a, rfl, h⟩

/-! ## Rules

One rule for each way of putting computations together. The first two notions go forward through
a bind, the other two ask for a stream, which is put together of two. -/

variable {m : Draw α} {f : α → Draw β} {P Q : α → Prop} {R : β → Prop} {a : α} {b : β}

/-- What always returns something good never returns something else. -/
theorem Returns.ensures (h : Returns m Q) : Ensures m Q := by
  intro r a ha
  obtain ⟨a', ha', hq⟩ := h r
  rw [ha, Option.some.injEq] at ha'
  exact ha' ▸ hq

theorem Returns.mono (h : Returns m P) (hpq : ∀ a, P a → Q a) : Returns m Q := by
  intro r
  obtain ⟨a, ha, hp⟩ := h r
  exact ⟨a, ha, hpq a hp⟩

theorem Ensures.mono (h : Ensures m P) (hpq : ∀ a, P a → Q a) : Ensures m Q :=
  fun r a ha => hpq a (h r a ha)

/-- The rules for `Returns`, `Ensures`, `Reaches` and `Throws` follow, one for each way of making a draw. -/
theorem returns_pure (h : Q a) : Returns (pure a) Q := fun _ => ⟨a, rfl, h⟩

/-- Nothing is drawn, and the value is what it is. -/
theorem ensures_pure (h : Q a) : Ensures (pure a) Q := (returns_pure h).ensures

/-- One draw after another returns, where each does. -/
theorem Returns.bind (h : Returns m P) (hf : ∀ a, P a → Returns (f a) R) : Returns (m >>= f) R := by
  intro r
  obtain ⟨a, ha, hp⟩ := h r
  have hrun : m r = (some a, (m r).2) := Prod.ext ha rfl
  rw [run_bind_some hrun]
  exact hf a hp _

/-- What the first ensures is what the second may rely on. -/
theorem Ensures.bind (h : Ensures m P) (hf : ∀ a, P a → Ensures (f a) R) : Ensures (m >>= f) R := by
  intro r b hb
  obtain ⟨a, ha, hfa⟩ := exists_of_bind_some hb
  exact hf a (h r a ha) _ b hfa

/-- What throws returns nothing, and so nothing bad. -/
theorem ensures_throw : Ensures (throw : Draw α) Q := by
  intro r a h
  cases h

theorem ensures_true : Ensures m fun _ => True := fun _ _ _ => trivial

/-- A value that may be missing: there is nothing to show where it is. -/
theorem ensures_ofOption {o : Option α} (h : ∀ a, o = some a → Q a) : Ensures (ofOption o) Q := by
  cases o with
  | none => exact ensures_throw
  | some a => exact ensures_pure (h a rfl)

/-- What is caught is nothing, or what was returned. -/
theorem returns_attempt (h : Ensures m Q) : Returns (attempt m) fun o => ∀ a, o = some a → Q a :=
  fun r => ⟨(m r).1, rfl, fun a ha => h r a ha⟩

theorem returns_ite {c : Prop} [Decidable c] {n : Draw α} (hm : c → Returns m Q) (hn : ¬ c → Returns n Q) :
    Returns (if c then m else n) Q := by
  split
  · rename_i h
    exact hm h
  · rename_i h
    exact hn h

theorem ensures_ite {c : Prop} [Decidable c] {n : Draw α} (hm : c → Ensures m Q) (hn : ¬ c → Ensures n Q) :
    Ensures (if c then m else n) Q := by
  split
  · rename_i h
    exact hm h
  · rename_i h
    exact hn h

/-- What every turn keeps, the loop keeps. -/
theorem returns_loop {σ : Type} {go : σ → Bool} {turn : ℕ → σ → Draw σ} {I : σ → Prop}
    (hturn : ∀ k s, I s → go s = true → Returns (turn k s) I) (k : ℕ) :
    ∀ s, I s → Returns (loop go turn k s) I := by
  induction k with
  | zero =>
    intro s hs
    exact returns_pure hs
  | succ k ih =>
    intro s hs
    rw [loop]
    exact returns_ite (fun hgo => (hturn k s hs hgo).bind ih) fun _ => returns_pure hs

/-- A value that is not drawn is reached by every stream. -/
theorem reaches_pure (a : α) : Reaches (pure a) a := fun rest => ⟨rest, rfl⟩

/-- What is reached in two steps has a stream that takes both. -/
theorem Reaches.bind (h : Reaches m a) (hf : Reaches (f a) b) : Reaches (m >>= f) b := by
  intro rest
  obtain ⟨mid, hmid⟩ := hf rest
  obtain ⟨r, hr⟩ := h mid
  exact ⟨r, (run_bind_some hr).trans hmid⟩

/-- An exception is thrown after draws that lead to it. -/
theorem Reaches.throws (h : Reaches m a) (hf : Throws (f a)) : Throws (m >>= f) := by
  obtain ⟨mid, hmid⟩ := hf
  obtain ⟨r, hr⟩ := h mid
  exact ⟨r, (congrArg Prod.fst (run_bind_some hr)).trans hmid⟩

/-- An exception in the first step is one of the whole. -/
theorem Throws.bind (h : Throws m) : Throws (m >>= f) := by
  obtain ⟨r, hr⟩ := h
  exact ⟨r, run_bind_none hr⟩

theorem throws_throw : Throws (throw : Draw α) := ⟨fun _ => 0, rfl⟩

/-- What returns on every stream throws on none. -/
theorem Returns.not_throws (h : Returns m Q) : ¬ Throws m := by
  rintro ⟨r, hr⟩
  obtain ⟨a, ha, -⟩ := h r
  rw [hr] at ha
  cases ha

/-! ## The draws

Each draw returns a value of its range, and every value of the range is drawn on some stream.
Nothing is said of how often, as no claim depends on it. -/

theorem returns_next : Returns next fun _ => True := fun r => ⟨r 0, rfl, trivial⟩

theorem reaches_next (x : ℕ) : Reaches next x := fun rest => ⟨fun n => if n = 0 then x else rest (n - 1), rfl⟩

/-- A number is drawn from a range that is not empty. -/
theorem returns_nextInt {lo hi : ℤ} (h : lo < hi) : Returns (nextInt lo hi) fun x => lo ≤ x ∧ x < hi := by
  rw [nextInt, if_pos h]
  apply returns_next.bind
  intro x _
  have hnonneg : 0 ≤ (x : ℤ) % (hi - lo) := Int.emod_nonneg _ (by omega)
  have hlt : (x : ℤ) % (hi - lo) < hi - lo := Int.emod_lt_of_pos _ (by omega)
  exact returns_pure ⟨by omega, by omega⟩

/-- From an empty range none is, as `nextInt` throws there. -/
theorem ensures_nextInt (lo hi : ℤ) : Ensures (nextInt lo hi) fun x => lo ≤ x ∧ x < hi := by
  by_cases h : lo < hi
  · exact (returns_nextInt h).ensures
  · rw [nextInt, if_neg h]
    exact ensures_throw

/-- Every number of the range can be drawn. -/
theorem reaches_nextInt {lo hi x : ℤ} (h0 : lo ≤ x) (h1 : x < hi) : Reaches (nextInt lo hi) x := by
  rw [nextInt, if_pos (by omega)]
  apply (reaches_next (x - lo).toNat).bind
  have hnat : ((x - lo).toNat : ℤ) = x - lo := Int.toNat_of_nonneg (by omega)
  have hmod : (x - lo) % (hi - lo) = x - lo := Int.emod_eq_of_lt (by omega) (by omega)
  have heq : lo + ((x - lo).toNat : ℤ) % (hi - lo) = x := by
    rw [hnat, hmod]
    omega
  rw [heq]
  exact reaches_pure x

theorem returns_nextBoolean : Returns nextBoolean fun _ => True := by
  apply returns_next.bind
  intro x _
  exact returns_pure trivial

theorem reaches_nextBoolean (c : Bool) : Reaches nextBoolean c := by
  cases c with
  | false => exact (reaches_next 0).bind (reaches_pure _)
  | true => exact (reaches_next 1).bind (reaches_pure _)

/-- A double is drawn from the unit interval, without its end. -/
theorem returns_nextDouble : Returns nextDouble fun x => 0 ≤ x ∧ x < 1 := by
  apply returns_next.bind
  intro x _
  apply returns_pure
  constructor
  · positivity
  · rw [div_lt_one (by positivity)]
    exact_mod_cast Nat.mod_lt x (by positivity)

/-- Each multiple of the smallest step can be drawn. -/
theorem reaches_nextDouble {k : ℕ} (h : k < 2 ^ 53) : Reaches nextDouble ((k : ℚ) / 2 ^ 53) := by
  apply (reaches_next k).bind
  rw [Nat.mod_eq_of_lt h]
  exact reaches_pure _

/-- An element is drawn from a list that has one. -/
theorem returns_element {l : List α} (h : l ≠ []) : Returns (element l) fun a => a ∈ l := by
  have hlen : 0 < l.length := List.length_pos_of_ne_nil h
  unfold element
  apply (returns_nextInt (by omega : (0 : ℤ) < l.length)).bind
  rintro i ⟨h0, h1⟩
  have hi : i.toNat < l.length := by omega
  rw [List.getElem?_eq_getElem hi]
  exact returns_pure (List.getElem_mem hi)

/-- Whatever is drawn from a list is in it. -/
theorem ensures_element (l : List α) : Ensures (element l) fun a => a ∈ l := by
  unfold element
  refine (ensures_nextInt 0 l.length).bind fun i _ => ?_
  apply ensures_ofOption
  intro a ha
  exact List.mem_of_getElem? ha

/-! ## The first more often

A double drawn from zero up to one, squared, times the length of a list: the index of
its element, which for the first comes up most often. Every element comes up. -/

/-- The index a double stands for. -/
def favouredIndex (n : ℕ) (x : ℚ) : ℕ := min ⌊Binary64.fl (Binary64.fl (x * x) * n)⌋.toNat (n - 1)

/-- `list[(nextDouble().let { it * it } * list.size).toInt().coerceAtMost(list.size - 1)]`. -/
def favoured (l : List α) : Draw α := nextDouble >>= fun x => ofOption l[favouredIndex l.length x]?

/-- The favoured draw stays within the list as well. -/
theorem returns_favoured {l : List α} (h : l ≠ []) : Returns (favoured l) fun a => a ∈ l := by
  have hlen : 0 < l.length := List.length_pos_of_ne_nil h
  unfold favoured
  refine returns_nextDouble.bind fun x _ => ?_
  have hi : favouredIndex l.length x < l.length := by
    unfold favouredIndex
    omega
  rw [List.getElem?_eq_getElem hi]
  exact returns_pure (List.getElem_mem hi)

/-- The square of some multiple of 2⁻⁵³ is a little less than half a place above `i`. -/
theorem exists_square {n i : ℕ} (hi : i < n) (hn : n ≤ 2 ^ 31) : ∃ k : ℕ, k < 2 ^ 53 ∧
    (i : ℚ) + 1 / 2 - 1 / 2 ^ 21 ≤ (k / 2 ^ 53) * (k / 2 ^ 53) * n ∧
      ((k : ℚ) / 2 ^ 53) * (k / 2 ^ 53) * n ≤ i + 1 / 2 := by
  let q := (2 * i + 1) * 2 ^ 105 / n
  have hn0 : 0 < n := by omega
  have hqn : q * n ≤ (2 * i + 1) * 2 ^ 105 := Nat.div_mul_le_self _ n
  have hnq : (2 * i + 1) * 2 ^ 105 < (q + 1) * n :=
    lt_of_lt_of_eq (Nat.lt_mul_div_succ _ hn0) (Nat.mul_comm n (q + 1))
  have hlow : Nat.sqrt q * Nat.sqrt q ≤ q := Nat.sqrt_le q
  have hhigh : q + 1 ≤ (Nat.sqrt q + 1) * (Nat.sqrt q + 1) := Nat.lt_succ_sqrt q
  generalize Nat.sqrt q = k at hlow hhigh
  have hk : k < 2 ^ 53 := by
    have hq : q < 2 ^ 53 * 2 ^ 53 := by
      apply Nat.div_lt_of_lt_mul
      nlinarith
    by_contra hle
    have hmul : 2 ^ 53 * 2 ^ 53 ≤ k * k := Nat.mul_le_mul (not_lt.mp hle) (not_lt.mp hle)
    omega
  -- the same in rational numbers
  have hn1 : (n : ℚ) ≤ 2 ^ 31 := by exact_mod_cast hn
  have hn2 : (0 : ℚ) < n := by exact_mod_cast hn0
  have hk1 : (k : ℚ) + 1 ≤ 2 ^ 53 := by exact_mod_cast hk
  have hk0 : (0 : ℚ) ≤ k := Nat.cast_nonneg k
  have hqn' : (q : ℚ) * n ≤ (2 * i + 1) * 2 ^ 105 := by exact_mod_cast hqn
  have hnq' : ((2 : ℚ) * i + 1) * 2 ^ 105 ≤ (q + 1) * n := by exact_mod_cast hnq.le
  have hlow' : (k : ℚ) * k ≤ q := by exact_mod_cast hlow
  have hhigh' : (q : ℚ) + 1 ≤ (k + 1) * (k + 1) := by exact_mod_cast hhigh
  have hsquare : ((k : ℚ) / 2 ^ 53) * (k / 2 ^ 53) * n = k * k * n / 2 ^ 106 := by ring
  refine ⟨k, hk, ?_, ?_⟩
  · rw [hsquare, le_div_iff₀ (by positivity)]
    have hstep : ((q : ℚ) + 1) * n ≤ (k + 1) * (k + 1) * n := mul_le_mul_of_nonneg_right hhigh' hn2.le
    have hextra : (2 * (k : ℚ) + 1) * n ≤ 2 ^ 54 * 2 ^ 31 :=
      mul_le_mul (by linarith) hn1 hn2.le (by positivity)
    linarith
  · rw [hsquare, div_le_iff₀ (by positivity)]
    have hstep : (k : ℚ) * k * n ≤ q * n := mul_le_mul_of_nonneg_right hlow' hn2.le
    linarith

/-- Every index comes up, in lists that are not too long for the platform. -/
theorem exists_favouredIndex {n i : ℕ} (hi : i < n) (hn : n ≤ 2 ^ 31) :
    ∃ k : ℕ, k < 2 ^ 53 ∧ favouredIndex n (k / 2 ^ 53) = i := by
  obtain ⟨k, hk, hlow, hhigh⟩ := exists_square hi hn
  generalize hx : (k : ℚ) / 2 ^ 53 = x at hlow hhigh
  have hx0 : 0 ≤ x * x := mul_self_nonneg x
  have hn0 : (0 : ℚ) < n := by exact_mod_cast (by omega : 0 < n)
  have hn1 : (n : ℚ) ≤ 2 ^ 31 := by exact_mod_cast hn
  have hi1 : (i : ℚ) + 1 ≤ n := by exact_mod_cast hi
  have hx1 : x * x ≤ 1 := by
    by_contra hlt
    have hmul : (n : ℚ) < x * x * n := lt_mul_of_one_lt_left hn0 (not_le.mp hlt)
    linarith
  -- the two roundings, each within 2⁻²¹
  have hsq : |Binary64.fl (x * x) * n - x * x * n| ≤ 1 / 2 ^ 22 := by
    have herr := Binary64.abs_fl_sub_le (x * x)
    rw [abs_of_nonneg hx0] at herr
    rw [← sub_mul, abs_mul, abs_of_pos hn0]
    calc |Binary64.fl (x * x) - x * x| * n ≤ (1 / 2 ^ 53) * 2 ^ 31 :=
          mul_le_mul (by linarith) hn1 hn0.le (by positivity)
      _ = 1 / 2 ^ 22 := by norm_num
  rw [abs_le] at hsq
  have hprod0 : 0 ≤ Binary64.fl (x * x) * n := mul_nonneg (Binary64.fl_nonneg hx0) hn0.le
  have hlast := Binary64.abs_fl_sub_le (Binary64.fl (x * x) * n)
  rw [abs_of_nonneg hprod0, abs_le] at hlast
  have hsmall : Binary64.fl (x * x) * n / 2 ^ 53 ≤ 1 / 2 ^ 21 := by
    rw [div_le_iff₀ (by positivity)]
    linarith
  have hfloor : ⌊Binary64.fl (Binary64.fl (x * x) * n)⌋ = (i : ℤ) := by
    rw [Int.floor_eq_iff, Int.cast_natCast]
    constructor
    · linarith
    · linarith
  refine ⟨k, hk, ?_⟩
  unfold favouredIndex
  rw [hx, hfloor, Int.toNat_natCast]
  omega

/-- It can still give every element, the last ones too. -/
theorem reaches_favoured {l : List α} (hlen : l.length ≤ 2 ^ 31) (h : a ∈ l) : Reaches (favoured l) a := by
  obtain ⟨i, hi, rfl⟩ := List.getElem_of_mem h
  obtain ⟨k, hk, hindex⟩ := exists_favouredIndex hi hlen
  unfold favoured
  apply (reaches_nextDouble hk).bind
  rw [hindex, List.getElem?_eq_getElem hi]
  exact reaches_pure _

end

end Draw

end VlessCard
