/-
`Warp.kt`: X25519 in big integers.

A `BigInteger` is an integer, `mod` is the remainder that is not negative. The registers
are those of the ladder with delayed swaps (`VlessCard.Montgomery`), reduced after most
operations but not after all; modulo the order of the field they are its registers, and the
last power is the inverse. The bytes of a big integer are as many as it needs, the highest
first, so writing it back pads and reverses them.
-/
import VlessCard.Curve25519
import VlessCard.Wire

set_option autoImplicit false

namespace VlessCard.Warp

open ModPow Montgomery Curve25519 Wire

def P : ℤ := 2 ^ 255 - 19

def A24 : ℤ := 121665

/-- `BigInteger(1, magnitude)`. -/
def ofMagnitude (magnitude : List UInt8) : ℕ := magnitude.foldl (fun n b => n * 256 + b.toNat) 0

def bitLength (n : ℕ) : ℕ := if n = 0 then 0 else Nat.log2 n + 1

/-- `toByteArray()` of a number that is not negative: its bits and one for the sign. -/
def toByteArray (n : ℕ) : List UInt8 := bigEndian (bitLength n / 8 + 1) n

def le (b : List UInt8) : ℕ := ofMagnitude b.reverse

def toLe (n : ℤ) : List UInt8 :=
  let all := toByteArray (n % P).toNat
  let be := if all.length > 32 then all.drop (all.length - 32) else all
  (List.replicate (32 - be.length) 0 ++ be).reverse

def clamp (k : List UInt8) : List UInt8 :=
  (k.modify 0 fun b => b &&& 248).modify 31 fun b => (b &&& 127) ||| 64

/-- One round of the loop, for the digit `t` of the scalar. -/
def round (k : ℕ) (x1 : ℤ) (r : Registers ℤ) (t : ℕ) : Registers ℤ :=
  let kt := k.testBit t
  let r := if r.swap ^^ kt then { r with x2 := r.x3, x3 := r.x2, z2 := r.z3, z3 := r.z2 } else r
  let a := (r.x2 + r.z2) % P
  let aa := a * a % P
  let b := (r.x2 - r.z2) % P
  let bb := b * b % P
  let e := (aa - bb) % P
  let c := (r.x3 + r.z3) % P
  let d := (r.x3 - r.z3) % P
  let da := d * a % P
  let cb := c * b % P
  { x3 := (da + cb) ^ 2 % P
    z3 := x1 * (da - cb) ^ 2 % P
    x2 := aa * bb % P
    z2 := e * (aa + A24 * e) % P
    swap := kt }

def x25519 (scalar u : List UInt8) : List UInt8 :=
  let k := le (clamp scalar)
  let x1 : ℤ := le (u.modify 31 fun b => b &&& 127)
  let r := (List.range 255).reverse.foldl (round k x1) { x2 := 1, z2 := 0, x3 := x1, z3 := 1, swap := false }
  let r := if r.swap then { r with x2 := r.x3, z2 := r.z3 } else r
  toLe (r.x2 * modPow (r.z2 % P).toNat (P - 2).toNat P.toNat)

def publicKey (priv : List UInt8) : List UInt8 := x25519 priv (9 :: List.replicate 31 0)

/-! ## Bytes

Keys are byte strings with the lowest byte first, and `BigInteger` wants the highest first, with
room for a sign. Both directions are brought to the one number they stand for. -/

/-- `BigInteger` wants its bytes the other way round. -/
theorem ofMagnitude_reverse (b : List UInt8) : ofMagnitude b.reverse = decodeLittleEndian b := by
  rw [ofMagnitude, List.foldl_reverse]
  induction b with
  | nil => rfl
  | cons x rest ih =>
    rw [List.foldr_cons, ih, decodeLittleEndian]
    omega

theorem le_eq (b : List UInt8) : le b = decodeLittleEndian b := ofMagnitude_reverse b

theorem decodeLittleEndian_append (l m : List UInt8) :
    decodeLittleEndian (l ++ m) = decodeLittleEndian l + 256 ^ l.length * decodeLittleEndian m := by
  induction l with
  | nil => simp [decodeLittleEndian]
  | cons b l ih =>
    rw [List.cons_append, decodeLittleEndian, decodeLittleEndian, ih, List.length_cons]
    ring

theorem decodeLittleEndian_lt (l : List UInt8) : decodeLittleEndian l < 256 ^ l.length := by
  induction l with
  | nil => simp [decodeLittleEndian]
  | cons b l ih =>
    have hb := b.toNat_lt
    rw [decodeLittleEndian, List.length_cons, pow_succ]
    omega

/-- The bytes written are the other way round again. -/
theorem reverse_bigEndian (k n : ℕ) : (bigEndian k n).reverse = encodeLittleEndian k n := by
  induction k generalizing n with
  | zero => rfl
  | succ k ih => rw [bigEndian, List.reverse_append, ih, encodeLittleEndian, List.reverse_singleton, List.singleton_append]

/-- Zeros in front of a number that needs no more bytes. -/
theorem replicate_append_bigEndian {k n : ℕ} (h : n < 256 ^ k) (j : ℕ) :
    List.replicate j 0 ++ bigEndian k n = bigEndian (k + j) n := by
  induction j with
  | zero => rfl
  | succ j ih =>
    have hle : 256 ^ k ≤ 256 ^ (k + j) := Nat.pow_le_pow_right (by omega) (by omega)
    have hzero : n / 256 ^ (k + j) = 0 := Nat.div_eq_of_lt (by omega)
    rw [List.replicate_succ, List.cons_append, ih, ← Nat.add_assoc, bigEndian_succ, hzero]
    rfl

/-- A number is below the power of its length. -/
theorem lt_two_pow_bitLength (n : ℕ) : n < 2 ^ bitLength n := by
  rw [bitLength]
  split
  · rename_i h
    rw [h]
    decide
  · exact Nat.lt_log2_self

theorem bitLength_le {n k : ℕ} (h : n < 2 ^ k) : bitLength n ≤ k := by
  rw [bitLength]
  split
  · exact Nat.zero_le k
  · rename_i hne
    exact (Nat.log2_lt hne).mpr h

/-- **A number of the field is written in 32 bytes.** -/
theorem toLe_eq (n : ℤ) : toLe n = encodeLittleEndian 32 (n : Field).val := by
  have hP : P = ((p : ℕ) : ℤ) := by decide +kernel
  have hval : (n % P).toNat = (n : Field).val := by
    have h := ZMod.val_intCast (n := p) n
    rw [hP, ← h, Int.toNat_natCast]
  have hlt : (n : Field).val < 2 ^ 255 := lt_trans (ZMod.val_lt _) (by decide +kernel)
  have hbits := bitLength_le hlt
  have hfits : (n : Field).val < 256 ^ (bitLength (n : Field).val / 8 + 1) := by
    have hpow : (256 : ℕ) ^ (bitLength (n : Field).val / 8 + 1) = 2 ^ (8 * (bitLength (n : Field).val / 8 + 1)) := by
      rw [pow_mul]
      rfl
    have hle : 2 ^ bitLength (n : Field).val ≤ 2 ^ (8 * (bitLength (n : Field).val / 8 + 1)) :=
      Nat.pow_le_pow_right (by omega) (by omega)
    rw [hpow]
    exact lt_of_lt_of_le (lt_two_pow_bitLength _) hle
  have hshort : ¬ (toByteArray (n : Field).val).length > 32 := by
    rw [toByteArray, length_bigEndian]
    omega
  have hpad : bitLength (n : Field).val / 8 + 1 + (32 - (bitLength (n : Field).val / 8 + 1)) = 32 := by omega
  rw [toLe, hval]
  simp only [if_neg hshort]
  rw [toByteArray, length_bigEndian, replicate_append_bigEndian hfits, reverse_bigEndian, hpad]

/-! ## The scalar and the coordinate

Clamping the scalar and masking the coordinate are byte operations. On the numbers they clear and
set binary digits. -/

/-- The last byte is changed in its place. -/
theorem modify_append_singleton (f : UInt8 → UInt8) (l : List UInt8) (b : UInt8) :
    (l ++ [b]).modify l.length f = l ++ [f b] := by
  induction l with
  | nil => rfl
  | cons x l ih => rw [List.cons_append, List.length_cons, List.modify_succ_cons, ih, List.cons_append]

/-- 32 bytes are the first, thirty more and the last. -/
theorem exists_of_length {l : List UInt8} (h : l.length = 32) :
    ∃ first middle last, middle.length = 30 ∧ l = first :: (middle ++ [last]) := by
  match l, h with
  | first :: rest, h =>
    have hrest : rest.length = 31 := by simpa using h
    obtain rfl | ⟨middle, last, hsplit⟩ := List.eq_nil_or_concat rest
    · cases hrest
    · rw [List.concat_eq_append] at hsplit
      subst hsplit
      exact ⟨first, middle, last, by simpa using hrest, rfl⟩

/-- A key is its first byte, those between, and its last. -/
theorem decode_parts {first last : UInt8} {middle : List UInt8} (h : middle.length = 30) :
    decodeLittleEndian (first :: (middle ++ [last]))
      = first.toNat + 256 * decodeLittleEndian middle + 2 ^ 248 * last.toNat := by
  rw [decodeLittleEndian, decodeLittleEndian_append, h, decodeLittleEndian, decodeLittleEndian]
  ring

/-- The masks clear and set the digits of a byte. -/
theorem masks (b : UInt8) : (b &&& 248).toNat = b.toNat / 8 * 8 ∧ ((b &&& 127) ||| 64).toNat = b.toNat % 64 + 64
    ∧ (b &&& 127).toNat = b.toNat % 128 := by
  have hall : ∀ n < 256, (UInt8.ofNat n &&& 248).toNat = n / 8 * 8 ∧ ((UInt8.ofNat n &&& 127) ||| 64).toNat = n % 64 + 64
      ∧ (UInt8.ofNat n &&& 127).toNat = n % 128 := by decide +kernel
  have hb := hall b.toNat b.toNat_lt
  rwa [UInt8.ofNat_toNat] at hb

/-- The byte operations of `clamp` clear and set the digits of the number. -/
theorem decode_clamp {scalar : List UInt8} (h : scalar.length = 32) :
    decodeLittleEndian (clamp scalar) = clampedScalar (decodeLittleEndian scalar) := by
  obtain ⟨first, middle, last, hmiddle, rfl⟩ := exists_of_length h
  have hclamp : clamp (first :: (middle ++ [last])) = (first &&& 248) :: (middle ++ [(last &&& 127) ||| 64]) := by
    rw [clamp, List.modify_zero_cons, List.modify_succ_cons, ← hmiddle, modify_append_singleton]
  have hD := decodeLittleEndian_lt middle
  rw [hmiddle] at hD
  have hb := first.toNat_lt
  rw [hclamp, decode_parts hmiddle, decode_parts hmiddle, (masks first).1, (masks last).2.1, clampedScalar]
  omega

/-- Masking the last byte leaves the digits below the highest. -/
theorem decode_mask {u : List UInt8} (h : u.length = 32) :
    decodeLittleEndian (u.modify 31 fun b => b &&& 127) = decodeLittleEndian u % 2 ^ 255 := by
  obtain ⟨first, middle, last, hmiddle, rfl⟩ := exists_of_length h
  have hmask : (first :: (middle ++ [last])).modify 31 (fun b => b &&& 127) = first :: (middle ++ [last &&& 127]) := by
    rw [List.modify_succ_cons, ← hmiddle, modify_append_singleton]
  have hD := decodeLittleEndian_lt middle
  rw [hmiddle] at hD
  have hb := first.toNat_lt
  have hl := last.toNat_lt
  rw [hmask, decode_parts hmiddle, decode_parts hmiddle, (masks last).2.2]
  omega

/-! ## The registers

The registers are integers below the order of the field, and each round is the step of the ladder
with delayed swaps. The library says what that ladder computes, and the last power is the
inverse. -/

/-- The registers modulo the order of the field. -/
def reduce (r : Registers ℤ) : Registers Field :=
  { x2 := r.x2, z2 := r.z2, x3 := r.x3, z3 := r.z3, swap := r.swap }

/-- A remainder is the same element. -/
@[simp] theorem cast_mod (n : ℤ) : ((n % P : ℤ) : Field) = (n : Field) := by
  have hP : P = ((p : ℕ) : ℤ) := by decide +kernel
  rw [hP, ZMod.intCast_mod]

/-- One round is one step of the ladder with delayed swaps. -/
theorem reduce_round (k : ℕ) (x1 : ℤ) (r : Registers ℤ) (t : ℕ) :
    reduce (round k x1 r t) = (reduce r).step 121665 (x1 : Field) (k.testBit t) := by
  have hexchange : reduce (if r.swap ^^ k.testBit t then { r with x2 := r.x3, x3 := r.x2, z2 := r.z3, z3 := r.z2 } else r)
      = (reduce r).exchange (r.swap ^^ k.testBit t) := by
    unfold Registers.exchange
    split <;> rfl
  have hA24 : ((A24 : ℤ) : Field) = 121665 := rfl
  rw [Registers.step, show (reduce r).swap = r.swap from rfl, ← hexchange]
  generalize hs : (if r.swap ^^ k.testBit t then { r with x2 := r.x3, x3 := r.x2, z2 := r.z3, z3 := r.z2 } else r) = s
  simp only [round, hs, reduce, Registers.turn, Int.cast_mul, Int.cast_add, Int.cast_sub, cast_mod, hA24,
    sq]

/-- **The ladder over integers is the ladder over the field**, round by round. -/
theorem reduce_foldl (k : ℕ) (x1 : ℤ) (r : Registers ℤ) (ts : List ℕ) :
    reduce (ts.foldl (round k x1) r) = (ts.map k.testBit).foldl (Registers.step 121665 (x1 : Field)) (reduce r) := by
  induction ts generalizing r with
  | nil => rfl
  | cons t ts ih => rw [List.foldl_cons, ih, reduce_round, List.map_cons, List.foldl_cons]

/-- The last power is the inverse. -/
theorem cast_modPow (z : ℤ) : ((modPow (z % P).toNat (P - 2).toNat P.toNat : ℕ) : Field) = (z : Field)⁻¹ := by
  have hP : P = ((p : ℕ) : ℤ) := by decide +kernel
  have hnat : P.toNat = p ∧ (P - 2).toNat = p - 2 := by decide +kernel
  have hnonneg : 0 ≤ z % P := Int.emod_nonneg z (by decide +kernel)
  have hz : (((z % P).toNat : ℕ) : Field) = (z : Field) := by
    rw [← cast_mod z, ← Int.cast_natCast, Int.toNat_of_nonneg hnonneg]
  have hpow : (z : Field) ^ (p - 2) = (z : Field)⁻¹ := by
    have htwo : p - 2 ≠ 0 := by decide +kernel
    by_cases hzero : (z : Field) = 0
    · rw [hzero, zero_pow htwo, inv_zero]
    · have hone : (z : Field) ^ (p - 1) = 1 := ZMod.pow_card_sub_one_eq_one hzero
      have hsplit : p - 1 = p - 2 + 1 := by decide +kernel
      rw [hsplit, pow_succ] at hone
      exact eq_inv_of_mul_eq_one_left hone
  rw [hnat.1, hnat.2, modPow_eq, ZMod.natCast_mod, Nat.cast_pow, hz, hpow]

/-- The fraction the last registers stand for. -/
theorem affine {r : Registers Field} {q : Fraction Field × Fraction Field} (h : r.Holds q) :
    (if r.swap then r.x3 else r.x2) * (if r.swap then r.z3 else r.z2)⁻¹ = q.1.x / q.1.z := by
  have hx := congrArg Fraction.x h.1
  have hz := congrArg Fraction.z h.1
  rw [apply_ite Fraction.x] at hx
  rw [apply_ite Fraction.z] at hz
  rw [← hx, ← hz, div_eq_mul_inv]

/-- **`x25519` is X25519**, and looks at nothing of the scalar and of the coordinate that
clamping and clearing the highest digit take away. -/
theorem x25519_eq (scalar u : List UInt8) (hscalar : scalar.length = 32) (hu : u.length = 32) :
    x25519 scalar u = X25519 scalar u
      ∧ ∀ scalar' u', clamp scalar' = clamp scalar →
          (u'.modify 31 fun b => b &&& 127) = (u.modify 31 fun b => b &&& 127) → x25519 scalar' u' = x25519 scalar u := by
  constructor
  · have hA : A = 4 * 121665 + 2 := by decide +kernel
    have hk : le (clamp scalar) = clampedScalar (decodeLittleEndian scalar) := (le_eq _).trans (decode_clamp hscalar)
    have hx1 : le (u.modify 31 fun b => b &&& 127) = decodeLittleEndian u % 2 ^ 255 := (le_eq _).trans (decode_mask hu)
    rw [x25519, hk, hx1, X25519, multiple]
    generalize clampedScalar (decodeLittleEndian scalar) = k
    generalize decodeLittleEndian u % 2 ^ 255 = x1
    have hrun := reduce_foldl k x1 { x2 := 1, z2 := 0, x3 := x1, z3 := 1, swap := false } (List.range 255).reverse
    have hholds := Registers.holds_run hA (x1 : Field) (digits k)
    have hstart : (reduce { x2 := 1, z2 := 0, x3 := x1, z3 := 1, swap := false } : Registers Field)
        = { x2 := 1, z2 := 0, x3 := (x1 : Field), z3 := 1, swap := false } := by
      simp [reduce]
    rw [hstart, Int.cast_natCast] at hrun
    rw [Registers.run, digits, ← hrun] at hholds
    generalize (List.range 255).reverse.foldl (round k x1) { x2 := 1, z2 := 0, x3 := (x1 : ℤ), z3 := 1, swap := false } = r
      at hholds ⊢
    have haffine := affine hholds
    rw [toLe_eq, Int.cast_mul, Int.cast_natCast, cast_modPow, digits, ← haffine]
    -- the one-sided copy takes the registers of the lower multiple
    cases hs : r.swap <;> simp [reduce, hs]
  · intro scalar' u' hclamp hmask
    rw [x25519, x25519, hclamp, hmask]

/-- The first vector of RFC 7748, section 5.2. -/
theorem x25519_eq_vector : X25519
    [0xa5, 0x46, 0xe3, 0x6b, 0xf0, 0x52, 0x7c, 0x9d, 0x3b, 0x16, 0x15, 0x4b, 0x82, 0x46, 0x5e, 0xdd,
      0x62, 0x14, 0x4c, 0x0a, 0xc1, 0xfc, 0x5a, 0x18, 0x50, 0x6a, 0x22, 0x44, 0xba, 0x44, 0x9a, 0xc4]
    [0xe6, 0xdb, 0x68, 0x67, 0x58, 0x30, 0x30, 0xdb, 0x35, 0x94, 0xc1, 0xa4, 0x24, 0xb1, 0x5f, 0x7c,
      0x72, 0x66, 0x24, 0xec, 0x26, 0xb3, 0x35, 0x3b, 0x10, 0xa9, 0x03, 0xa6, 0xd0, 0xab, 0x1c, 0x4c]
    = [0xc3, 0xda, 0x55, 0x37, 0x9d, 0xe9, 0xc6, 0x90, 0x8e, 0x94, 0xea, 0x4d, 0xf2, 0x8d, 0x08, 0x4f,
      0x32, 0xec, 0xcf, 0x03, 0x49, 0x1c, 0x71, 0xf7, 0x54, 0xb4, 0x07, 0x55, 0x77, 0xa2, 0x85, 0x52] :=
  ((x25519_eq _ _ (by decide) (by decide)).1.symm).trans (by decide +kernel)

/-- Alice's key pair, section 6.1. -/
example : publicKey
    [0x77, 0x07, 0x6d, 0x0a, 0x73, 0x18, 0xa5, 0x7d, 0x3c, 0x16, 0xc1, 0x72, 0x51, 0xb2, 0x66, 0x45,
      0xdf, 0x4c, 0x2f, 0x87, 0xeb, 0xc0, 0x99, 0x2a, 0xb1, 0x77, 0xfb, 0xa5, 0x1d, 0xb9, 0x2c, 0x2a]
    = [0x85, 0x20, 0xf0, 0x09, 0x89, 0x30, 0xa7, 0x54, 0x74, 0x8b, 0x7d, 0xdc, 0xb4, 0x3e, 0xf7, 0x5a,
      0x0d, 0xbf, 0x3a, 0x0d, 0x26, 0x38, 0x1a, 0xf4, 0xeb, 0xa4, 0xa9, 0x8e, 0xaa, 0x9b, 0x4e, 0x6a] := by
  decide +kernel

end VlessCard.Warp
