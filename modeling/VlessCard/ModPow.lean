/-
Powers modulo a number, by squaring, and primes certified with them.

The power is computed from the binary digits of the exponent, so that the kernel can
evaluate it at numbers of hundreds of bits. A prime is certified by an element whose order
is one less than the number, as Lucas has it: the certificate names the element and the
prime factors, each a prime by a certificate of its own.
-/
import Mathlib.NumberTheory.LucasPrimality
import Mathlib.Data.List.Prime

set_option autoImplicit false

namespace VlessCard.ModPow

/-- `b ^ e % m` for an exponent of at most `bits` binary digits. -/
def go (m : ℕ) : (bits b e : ℕ) → ℕ
  | 0, _, _ => 1 % m
  | bits + 1, b, e =>
    let square := go m bits (b * b % m) (e / 2)
    if e % 2 = 1 then square * b % m else square

/-- `b ^ e % m`. -/
def modPow (b e m : ℕ) : ℕ := go m (Nat.log2 e + 1) b e

theorem go_eq (m : ℕ) {bits e : ℕ} (b : ℕ) (h : e < 2 ^ bits) : go m bits b e = b ^ e % m := by
  induction bits generalizing b e with
  | zero =>
    obtain rfl : e = 0 := by simpa using h
    rfl
  | succ bits ih =>
    have hhalf : e / 2 < 2 ^ bits := by
      rw [pow_succ] at h
      omega
    have hsquare : (b * b % m) ^ (e / 2) % m = b ^ (2 * (e / 2)) % m := by
      rw [← Nat.pow_mod, pow_mul, sq]
    rw [go, ih (b * b % m) hhalf, hsquare]
    split
    · rename_i hodd
      have hsplit : e = 2 * (e / 2) + 1 := by omega
      conv_rhs => rw [hsplit, pow_succ]
      exact Nat.mod_mul_mod _ _ _
    · rename_i heven
      have hsplit : e = 2 * (e / 2) := by omega
      rw [← hsplit]

theorem modPow_eq (b e m : ℕ) : modPow b e m = b ^ e % m := go_eq m b Nat.lt_log2_self

/-- **A number certified by the order of an element.** -/
theorem prime_of_order {p : ℕ} (a : ℕ) (factors : List ℕ) (hp : 2 ≤ p) (hprod : factors.prod = p - 1)
    (hprime : ∀ q ∈ factors, q.Prime) (hone : modPow a (p - 1) p = 1)
    (hproper : ∀ q ∈ factors, modPow a ((p - 1) / q) p ≠ 1) : p.Prime := by
  have hcast : ∀ e : ℕ, (a : ZMod p) ^ e = 1 ↔ modPow a e p = 1 := by
    intro e
    rw [modPow_eq, ← Nat.cast_pow, ← Nat.cast_one, ZMod.natCast_eq_natCast_iff', Nat.one_mod_eq_one.mpr (by omega)]
  refine lucas_primality p (a : ZMod p) ((hcast _).mpr hone) fun q hq hdvd => ?_
  rw [← hprod] at hdvd
  obtain ⟨f, hf, hqf⟩ := (Prime.dvd_prod_iff hq.prime).mp hdvd
  obtain rfl : q = f := (Nat.prime_dvd_prime_iff_eq hq (hprime f hf)).mp hqf
  rw [ne_eq, hcast]
  exact hproper q hf

end VlessCard.ModPow
