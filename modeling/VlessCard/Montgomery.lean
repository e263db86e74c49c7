/-
Montgomery's ladder, on the x coordinates of a curve y² = x³ + Ax² + x.

A point is given by its x coordinate as a fraction. The textbook ladder keeps the multiples
m and m + 1 of a point and goes through the digits of a scalar from the highest: a digit
doubles one of the two and adds the other, whose difference is always the point. The ladder
of the implementations keeps four registers instead, does one and the same computation for
either digit, and moves the multiples between the registers before it; a move is put off
until the next digit, since two in a row undo one another. Over any commutative ring the
two end with the same fraction.
-/
import Mathlib.Data.List.Induction
import Mathlib.Tactic.Ring

set_option autoImplicit false

namespace VlessCard.Montgomery

/-- A fraction `x / z`. -/
@[ext] structure Fraction (F : Type) where
  x : F
  z : F
  deriving DecidableEq

variable {F : Type} [CommRing F]

/-! ## The textbook ladder

The textbook doubles a point and adds two whose difference is known, all on x coordinates given
as fractions. One digit of the scalar costs one of each. -/

/-- Twice a point of the curve with the coefficient `A`. -/
def double (A : F) (p : Fraction F) : Fraction F :=
  ⟨(p.x ^ 2 - p.z ^ 2) ^ 2, 4 * p.x * p.z * (p.x ^ 2 + A * p.x * p.z + p.z ^ 2)⟩

/-- The sum of two points whose difference has the x coordinate `u`. -/
def differentialAdd (u : F) (p q : Fraction F) : Fraction F :=
  ⟨4 * (p.x * q.x - p.z * q.z) ^ 2, 4 * u * (p.x * q.z - p.z * q.x) ^ 2⟩

/-- One digit: the multiples m and m + 1 become 2m and 2m + 1, or 2m + 1 and 2m + 2. -/
def advance (A u : F) (p : Fraction F × Fraction F) (digit : Bool) : Fraction F × Fraction F :=
  if digit then (differentialAdd u p.1 p.2, double A p.2) else (double A p.1, differentialAdd u p.1 p.2)

/-- The multiples after the digits, the highest first. -/
def ladder (A u : F) (digits : List Bool) : Fraction F × Fraction F :=
  digits.foldl (advance A u) (⟨1, 0⟩, ⟨u, 1⟩)

/-! ## The ladder with delayed swaps

Implementations exchange the two registers by a flag instead of branching on the digit. They
remember whether the registers are exchanged and undo it one digit later. -/

/-- The registers, and whether they stand the other way round. -/
structure Registers (F : Type) where
  x2 : F
  z2 : F
  x3 : F
  z3 : F
  swap : Bool
  deriving DecidableEq

omit [CommRing F] in
/-- The registers exchanged, if asked to. -/
def Registers.exchange (r : Registers F) (flag : Bool) : Registers F :=
  if flag then { r with x2 := r.x3, z2 := r.z3, x3 := r.x2, z3 := r.z2 } else r

/-- What is computed from the registers for either digit; `a24` is `(A - 2) / 4`. -/
def Registers.turn (a24 u : F) (r : Registers F) (digit : Bool) : Registers F :=
  let a := r.x2 + r.z2
  let b := r.x2 - r.z2
  let e := a ^ 2 - b ^ 2
  let da := (r.x3 - r.z3) * a
  let cb := (r.x3 + r.z3) * b
  { x2 := a ^ 2 * b ^ 2, z2 := e * (a ^ 2 + a24 * e), x3 := (da + cb) ^ 2, z3 := u * (da - cb) ^ 2, swap := digit }

def Registers.step (a24 u : F) (r : Registers F) (digit : Bool) : Registers F :=
  (r.exchange (r.swap ^^ digit)).turn a24 u digit

def Registers.run (a24 u : F) (digits : List Bool) : Registers F :=
  digits.foldl (Registers.step a24 u) { x2 := 1, z2 := 0, x3 := u, z3 := 1, swap := false }

/-- The registers hold the two multiples, as the flag says which way round. -/
def Registers.Holds (r : Registers F) (p : Fraction F × Fraction F) : Prop :=
  (if r.swap then ⟨r.x3, r.z3⟩ else ⟨r.x2, r.z2⟩) = p.1 ∧ (if r.swap then ⟨r.x2, r.z2⟩ else ⟨r.x3, r.z3⟩) = p.2

/-! ## The two agree

The registers hold the two multiples of the textbook ladder, the one way round or the other. This
is kept by every digit and leads through the whole scalar. -/

/-- The formulas of the implementations are the doubling and the differential addition. -/
theorem Registers.turn_eq {A a24 : F} (hA : A = 4 * a24 + 2) (u : F) (r : Registers F) (digit : Bool) :
    (⟨(r.turn a24 u digit).x2, (r.turn a24 u digit).z2⟩ : Fraction F) = double A ⟨r.x2, r.z2⟩
      ∧ (⟨(r.turn a24 u digit).x3, (r.turn a24 u digit).z3⟩ : Fraction F)
          = differentialAdd u ⟨r.x2, r.z2⟩ ⟨r.x3, r.z3⟩ := by
  subst hA
  constructor
  · apply Fraction.ext
    · simp only [Registers.turn, double]
      ring
    · simp only [Registers.turn, double]
      ring
  · apply Fraction.ext
    · simp only [Registers.turn, differentialAdd]
      ring
    · simp only [Registers.turn, differentialAdd]
      ring

/-- The sum does not depend on the order of the two. -/
theorem differentialAdd_comm (u : F) (p q : Fraction F) : differentialAdd u p q = differentialAdd u q p := by
  apply Fraction.ext
  · simp only [differentialAdd]
    ring
  · simp only [differentialAdd]
    ring

/-- One digit. -/
theorem Registers.Holds.step {A a24 u : F} (hA : A = 4 * a24 + 2) {r : Registers F} {p : Fraction F × Fraction F}
    (h : r.Holds p) (digit : Bool) : (r.step a24 u digit).Holds (advance A u p digit) := by
  obtain ⟨p1, p2⟩ := p
  obtain ⟨h1, h2⟩ := h
  subst h1 h2
  obtain ⟨hdouble, hadd⟩ := Registers.turn_eq hA u (r.exchange (r.swap ^^ digit)) digit
  have hswap : (r.step a24 u digit).swap = digit := rfl
  unfold Registers.Holds
  rw [hswap]
  -- after the exchange the register doubled is the one the digit says
  cases digit with
  | false =>
    refine ⟨hdouble.trans ?_, hadd.trans ?_⟩
    all_goals cases hs : r.swap <;> simp [Registers.exchange, advance, hs]
  | true =>
    refine ⟨hadd.trans ?_, hdouble.trans ?_⟩
    · rw [differentialAdd_comm]
      cases hs : r.swap <;> simp [Registers.exchange, advance, hs, differentialAdd_comm]
    · cases hs : r.swap <;> simp [Registers.exchange, advance, hs]

/-- **The registers hold the multiples of the textbook ladder**, after any digits. -/
theorem Registers.holds_run {A a24 : F} (hA : A = 4 * a24 + 2) (u : F) (digits : List Bool) :
    (Registers.run a24 u digits).Holds (ladder A u digits) := by
  induction digits using List.reverseRecOn with
  | nil => exact ⟨rfl, rfl⟩
  | append_singleton digits digit ih =>
    have hrun : Registers.run a24 u (digits ++ [digit]) = (Registers.run a24 u digits).step a24 u digit := by
      simp only [Registers.run, List.foldl_append, List.foldl_cons, List.foldl_nil]
    have hladder : ladder A u (digits ++ [digit]) = advance A u (ladder A u digits) digit := by
      simp only [ladder, List.foldl_append, List.foldl_cons, List.foldl_nil]
    rw [hrun, hladder]
    exact ih.step hA digit

end VlessCard.Montgomery
