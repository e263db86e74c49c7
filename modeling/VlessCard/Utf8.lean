/-
UTF-8, as an encoder of characters and a strict decoder of bytes.

The encoder is the standard one, character by character. The decoder is a
machine that reads one byte at a time: between characters it looks at the
leading byte, inside one it counts the continuation bytes still to come and
gathers their bits. It refuses a byte out of place, a longer form than needed, a
surrogate and a number beyond the last character, so what it accepts is exactly
what the encoder writes, and it gives back the characters that were encoded.
-/
import Mathlib

set_option autoImplicit false

namespace VlessCard.Utf8

/-- The bytes of a text. -/
def encode (l : List Char) : List UInt8 := l.flatMap String.utf8EncodeChar

/-- Read the bytes with `need` continuation bytes owed by the character begun,
whose bits so far are `acc`; a character of that length is at least `least`. -/
def decodeGo : (need acc least : ℕ) → List UInt8 → Option (List Char)
  | 0, _, _, [] => some []
  | _ + 1, _, _, [] => none
  | 0, _, _, b :: rest =>
      let n := b.toNat
      if n < 0x80 then (decodeGo 0 0 0 rest).map (Char.ofNat n :: ·)
      else if 0xC0 ≤ n ∧ n < 0xE0 then decodeGo 1 (n - 0xC0) 0x80 rest
      else if 0xE0 ≤ n ∧ n < 0xF0 then decodeGo 2 (n - 0xE0) 0x800 rest
      else if 0xF0 ≤ n ∧ n < 0xF8 then decodeGo 3 (n - 0xF0) 0x10000 rest
      else none
  | need + 1, acc, least, b :: rest =>
      if 0x80 ≤ b.toNat ∧ b.toNat < 0xC0 then
        let acc' := acc * 64 + (b.toNat - 0x80)
        if need ≠ 0 then decodeGo need acc' least rest
        -- the character is complete: shortest form, and a scalar value
        else if least ≤ acc' ∧ acc'.isValidChar then
          (decodeGo 0 0 0 rest).map (Char.ofNat acc' :: ·)
        else none
      else none

/-- The text of the bytes; `none` where they are not UTF-8. -/
def decode (bytes : List UInt8) : Option (List Char) := decodeGo 0 0 0 bytes

/-! ## What is encoded is read back

A leading byte says how many bytes follow, and each of these carries six bits. The decoder
refuses everything that the encoder does not write. -/

/-- A leading byte below `0x80` is a character of its own. -/
theorem decodeGo_single {v : ℕ} (hv : v < 0x80) (rest : List UInt8) :
    decodeGo 0 0 0 (UInt8.ofNat v :: rest) = (decodeGo 0 0 0 rest).map (Char.ofNat v :: ·) := by
  have hb : (UInt8.ofNat v).toNat = v := by
    rw [UInt8.toNat_ofNat']
    omega
  rw [decodeGo]
  simp only [hb, if_pos hv]

/-- A continuation byte that is not the last adds its six bits. -/
theorem decodeGo_more {need acc least d : ℕ} (hd : d < 64) (rest : List UInt8) :
    decodeGo (need + 2) acc least (UInt8.ofNat (d + 0x80) :: rest)
      = decodeGo (need + 1) (acc * 64 + d) least rest := by
  have hb : (UInt8.ofNat (d + 0x80)).toNat = d + 0x80 := by
    rw [UInt8.toNat_ofNat']
    omega
  rw [decodeGo]
  simp only [hb]
  rw [if_pos (by omega), if_pos (by omega), Nat.add_sub_cancel]

/-- The last continuation byte completes the character. -/
theorem decodeGo_last {acc least d : ℕ} (c : Char) (hd : d < 64) (hc : acc * 64 + d = c.toNat)
    (hl : least ≤ c.toNat) (rest : List UInt8) :
    decodeGo 1 acc least (UInt8.ofNat (d + 0x80) :: rest)
      = (decodeGo 0 0 0 rest).map (c :: ·) := by
  have hb : (UInt8.ofNat (d + 0x80)).toNat = d + 0x80 := by
    rw [UInt8.toNat_ofNat']
    omega
  rw [decodeGo]
  simp only [hb]
  rw [if_pos (by omega), if_neg (by omega), Nat.add_sub_cancel, hc, if_pos ⟨hl, c.valid⟩,
    Char.ofNat_toNat]

/-- One encoded character is read as that character. -/
theorem decodeGo_encodeChar (c : Char) (rest : List UInt8) :
    decodeGo 0 0 0 (String.utf8EncodeChar c ++ rest) = (decodeGo 0 0 0 rest).map (c :: ·) := by
  have hmax : c.toNat < 0x110000 := by
    rcases c.valid with h | h
    · exact lt_trans h (by decide)
    · exact h.2
  have hval : c.val.toNat = c.toNat := rfl
  unfold String.utf8EncodeChar
  simp only [hval]
  -- by the length of the encoding; in each case the leading byte sets the machine
  -- up and the continuation bytes bring the rest of the bits
  split
  · rename_i h1
    rw [List.singleton_append, decodeGo_single (by omega), Char.ofNat_toNat]
  · rename_i h1
    split
    · rename_i h2
      have hb : (UInt8.ofNat (c.toNat / 64 % 0x20 + 0xc0)).toNat = c.toNat / 64 + 0xc0 := by
        rw [UInt8.toNat_ofNat']
        omega
      rw [List.cons_append, List.singleton_append, decodeGo]
      simp only [hb]
      rw [if_neg (by omega), if_pos (by omega), Nat.add_sub_cancel,
        decodeGo_last c (Nat.mod_lt _ (by omega)) (by omega) (by omega)]
    · rename_i h2
      split
      · rename_i h3
        have hb : (UInt8.ofNat (c.toNat / 4096 % 0x10 + 0xe0)).toNat = c.toNat / 4096 + 0xe0 := by
          rw [UInt8.toNat_ofNat']
          omega
        rw [List.cons_append, List.cons_append, List.singleton_append, decodeGo]
        simp only [hb]
        rw [if_neg (by omega), if_neg (by omega), if_pos (by omega), Nat.add_sub_cancel,
          decodeGo_more (Nat.mod_lt _ (by omega)),
          decodeGo_last c (Nat.mod_lt _ (by omega)) (by omega) (by omega)]
      · rename_i h3
        have hb : (UInt8.ofNat (c.toNat / 262144 % 0x08 + 0xf0)).toNat
            = c.toNat / 262144 + 0xf0 := by
          rw [UInt8.toNat_ofNat']
          omega
        rw [List.cons_append, List.cons_append, List.cons_append, List.singleton_append, decodeGo]
        simp only [hb]
        rw [if_neg (by omega), if_neg (by omega), if_neg (by omega), if_pos (by omega),
          Nat.add_sub_cancel, decodeGo_more (Nat.mod_lt _ (by omega)),
          decodeGo_more (Nat.mod_lt _ (by omega)),
          decodeGo_last c (Nat.mod_lt _ (by omega)) (by omega) (by omega)]

/-- **Round trip.** The bytes of a text are decoded as that text. -/
theorem decode_encode (l : List Char) : decode (encode l) = some l := by
  unfold decode
  induction l with
  | nil => rfl
  | cons c l ih =>
    have hcons : encode (c :: l) = String.utf8EncodeChar c ++ encode l := List.flatMap_cons
    rw [hcons, decodeGo_encodeChar, ih, Option.map_some]

theorem encode_append (a b : List Char) : encode (a ++ b) = encode a ++ encode b :=
  List.flatMap_append

theorem encode_ne_nil {l : List Char} (h : l ≠ []) : encode l ≠ [] := by
  obtain ⟨c, l, rfl⟩ := List.exists_cons_of_ne_nil h
  intro hnil
  have hd := decode_encode (c :: l)
  rw [hnil] at hd
  exact absurd hd (by simp [decode, decodeGo])

end VlessCard.Utf8
