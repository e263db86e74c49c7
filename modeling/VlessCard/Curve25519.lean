/-
The field of 2²⁵⁵ - 19 elements, and the X25519 function over it.

The function is the one of the standard, in the terms of its curve: the scalar and the
coordinate are numbers, the point is multiplied by the textbook ladder over the binary
digits of the clamped scalar, and the affine coordinate is written in 32 bytes, the lowest
first.
-/
import Mathlib.FieldTheory.Finite.Basic
import Mathlib.Tactic.NormNum.Prime
import VlessCard.ModPow
import VlessCard.Montgomery

set_option autoImplicit false

namespace VlessCard.Curve25519

open ModPow Montgomery

/-- The order of the field. -/
def p : ℕ := 2 ^ 255 - 19

/-! ## The order is prime

That the order is prime is proved by a certificate: a primitive root, and the factors of the
order less one, which are proved prime in the same way. -/

/-- **2²⁵⁵ - 19 is prime.** -/
theorem prime_p : p.Prime := by
  -- the prime factors that the certificate of p - 1 needs, from the small ones up
  have h2773320623 : Nat.Prime 2773320623 := by
    refine prime_of_order 5 [2, 2437, 569003] (by decide) (by decide +kernel) ?_ (by decide +kernel) (by decide +kernel)
    simp only [List.forall_mem_cons, List.not_mem_nil, false_imp_iff, implies_true, and_true]
    exact ⟨by norm_num, by norm_num, by norm_num⟩
  have h72106336199 : Nat.Prime 72106336199 := by
    refine prime_of_order 7 [2, 13, 2773320623] (by decide) (by decide +kernel) ?_ (by decide +kernel) (by decide +kernel)
    simp only [List.forall_mem_cons, List.not_mem_nil, false_imp_iff, implies_true, and_true]
    exact ⟨by norm_num, by norm_num, h2773320623⟩
  have h1919519569386763 : Nat.Prime 1919519569386763 := by
    refine prime_of_order 2 [2, 3, 7, 19, 47, 47, 127, 8574133] (by decide) (by decide +kernel) ?_ (by decide +kernel)
      (by decide +kernel)
    simp only [List.forall_mem_cons, List.not_mem_nil, false_imp_iff, implies_true, and_true]
    norm_num
  have h31757755568855353 : Nat.Prime 31757755568855353 := by
    refine prime_of_order 10 [2, 2, 2, 3, 31, 107, 223, 4153, 430751] (by decide) (by decide +kernel) ?_ (by decide +kernel)
      (by decide +kernel)
    simp only [List.forall_mem_cons, List.not_mem_nil, false_imp_iff, implies_true, and_true]
    norm_num
  have h75445702479781427272750846543864801 : Nat.Prime 75445702479781427272750846543864801 := by
    refine prime_of_order 7 [2, 2, 2, 2, 2, 3, 3, 5, 5, 75707, 72106336199, 1919519569386763] (by decide)
      (by decide +kernel) ?_ (by decide +kernel) (by decide +kernel)
    have hsmall : Nat.Prime 2 ∧ Nat.Prime 3 ∧ Nat.Prime 5 ∧ Nat.Prime 75707 := by norm_num
    simp only [List.forall_mem_cons, List.not_mem_nil, false_imp_iff, implies_true, and_true, hsmall, true_and]
    exact ⟨h72106336199, h1919519569386763⟩
  have hcofactor : Nat.Prime 74058212732561358302231226437062788676166966415465897661863160754340907 := by
    refine prime_of_order 2 [2, 3, 353, 57467, 132049, 1923133, 31757755568855353, 75445702479781427272750846543864801]
      (by decide) (by decide +kernel) ?_ (by decide +kernel) (by decide +kernel)
    have hsmall : Nat.Prime 2 ∧ Nat.Prime 3 ∧ Nat.Prime 353 ∧ Nat.Prime 57467 ∧ Nat.Prime 132049 ∧ Nat.Prime 1923133 := by
      norm_num
    simp only [List.forall_mem_cons, List.not_mem_nil, false_imp_iff, implies_true, and_true, hsmall, true_and]
    exact ⟨h31757755568855353, h75445702479781427272750846543864801⟩
  -- and p itself, of which two is a primitive root
  refine prime_of_order 2
    [2, 2, 3, 65147, 74058212732561358302231226437062788676166966415465897661863160754340907]
    (by decide +kernel) (by decide +kernel) ?_ (by decide +kernel) (by decide +kernel)
  have hsmall : Nat.Prime 2 ∧ Nat.Prime 3 ∧ Nat.Prime 65147 := by norm_num
  simp only [List.forall_mem_cons, List.not_mem_nil, false_imp_iff, implies_true, and_true, hsmall, true_and]
  exact hcofactor

instance : Fact p.Prime := ⟨prime_p⟩

/-- The field. -/
abbrev Field : Type := ZMod p

/-! ## The function

The function of the standard is written over the points of the curve, with the neutral point
standing for the coordinate zero. Nothing of a ladder or of a representation in limbs is in it. -/

/-- The number of the bytes, the lowest first. -/
def decodeLittleEndian : List UInt8 → ℕ
  | [] => 0
  | b :: rest => b.toNat + 256 * decodeLittleEndian rest

/-- The number in `k` bytes, the lowest first. -/
def encodeLittleEndian : (k n : ℕ) → List UInt8
  | 0, _ => []
  | k + 1, n => UInt8.ofNat (n % 256) :: encodeLittleEndian k (n / 256)

/-- The scalar with its lowest three digits and its highest cleared, and the one below set. -/
def clampedScalar (n : ℕ) : ℕ := 2 ^ 254 + n % 2 ^ 254 / 8 * 8

/-- The binary digits 254 to 0. -/
def digits (k : ℕ) : List Bool := (List.range 255).reverse.map k.testBit

/-- The curve y² = x³ + 486662x² + x. -/
def A : Field := 486662

/-- The x coordinate of the multiple `k` of the point with the x coordinate `u`; zero where
the multiple is the point at infinity. -/
def multiple (k : ℕ) (u : Field) : Field :=
  let point := (ladder A u (digits k)).1
  point.x / point.z

/-- X25519: 32 bytes of a scalar and 32 of a coordinate, whose highest digit is not used. -/
def X25519 (scalar u : List UInt8) : List UInt8 :=
  encodeLittleEndian 32
    (multiple (clampedScalar (decodeLittleEndian scalar)) ((decodeLittleEndian u % 2 ^ 255 : ℕ) : Field)).val

end VlessCard.Curve25519
