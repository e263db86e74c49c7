/-
`QuicInitial.kt`: a QUIC Initial with the ClientHello of a browser.

The packet is written by hand, length by length. A middlebox that knows the public keys
of the Initial reads it by the standards, so it is read here by the standards' grammar
(`VlessCard.QuicGrammar`): what is written is read back, to the last byte. HMAC and AES
are functions of their inputs and nothing more; of AES/GCM it is used that it adds a tag of
16 bytes and that what was sealed can be opened.

A `ByteArray` is a list of bytes, an `Int` and a `Long` are words of 32 and 64 bits.
-/
import VlessCard.Draws
import VlessCard.LocalSecrets
import VlessCard.QuicGrammar

set_option autoImplicit false

namespace VlessCard

/-- `nextBytes`, one draw a byte. -/
def Draw.nextBytes : ℕ → Draw Bytes
  | 0 => pure []
  | n + 1 => Draw.next >>= fun x => Draw.nextBytes n >>= fun rest => pure (UInt8.ofNat x :: rest)

/-- What a computation returns it returns after some draws. -/
theorem Draw.Returns.drawn {α : Type} {m : Draw α} {Q : α → Prop} (h : Draw.Returns m Q) :
    Draw.Returns m fun a => Q a ∧ ∃ r, (m r).1 = some a := by
  intro r
  obtain ⟨a, ha, hQ⟩ := h r
  exact ⟨a, ha, hQ, r, ha⟩

namespace QuicInitial

open Wire

/-! ## Bytes of numbers

The source works on a `ByteArray` and on `Int`s, so numbers are converted with their signs.
Everything is written as bit operations and read as arithmetic further down. -/

/-- `toByte()`, the lowest eight bits. -/
def toByte {w : ℕ} (v : BitVec w) : UInt8 := ⟨v.setWidth 8⟩

/-- `toInt()` of a byte, with its sign. -/
def toInt (b : UInt8) : BitVec 32 := b.toBitVec.signExtend 32

/-- `size`. -/
def size (bytes : Bytes) : BitVec 32 := BitVec.ofNat 32 bytes.length

def u16 (v : BitVec 32) : Bytes := [toByte (v.sshiftRight 8), toByte v]

def varint (v : BitVec 64) : Bytes :=
  if v.slt 64 then [toByte v]
  else if v.slt 16384 then [toByte (0x40 ||| (v.sshiftRight 8).setWidth 32), toByte v]
  else if v.slt 1073741824 then
    [toByte (0x80 ||| (v.sshiftRight 24).setWidth 32), toByte (v.sshiftRight 16), toByte (v.sshiftRight 8), toByte v]
  else
    ((List.range 8).map fun i => toByte (v.sshiftRight (8 * (7 - i)))).modifyHead fun b => toByte (toInt b ||| 0xc0)

def tp (id : BitVec 64) (v : Bytes) : Bytes := varint id ++ varint ((size v).signExtend 64) ++ v

/-! ## The hello

The hello has a fixed list of extensions, a random key share and the name. Lengths are written
before their contents, which are built first. -/

def ext (type : BitVec 32) (body : Bytes) : Bytes := u16 type ++ u16 (size body) ++ body

def parameters (own : Bytes) : Bytes :=
  tp 0x01 (varint 30000) ++ tp 0x04 (varint 1048576) ++ tp 0x05 (varint 524288) ++ tp 0x06 (varint 524288)
    ++ tp 0x07 (varint 524288) ++ tp 0x08 (varint 100) ++ tp 0x09 (varint 100) ++ tp 0x0f own

def exts (name keyShare tp : Bytes) : Bytes :=
  ext 0x0000 (u16 (size name + 3) ++ [0] ++ u16 (size name) ++ name)
    ++ ext 0x000a (u16 6 ++ u16 0x001d ++ u16 0x0017 ++ u16 0x0018)
    ++ ext 0x000d (u16 8 ++ u16 0x0403 ++ u16 0x0804 ++ u16 0x0401 ++ u16 0x0503)
    ++ ext 0x0010 (u16 3 ++ [2] ++ utf8 "h3")
    ++ ext 0x002b ([2] ++ u16 0x0304)
    ++ ext 0x002d [1, 1]
    ++ ext 0x0033 (u16 36 ++ u16 0x001d ++ u16 32 ++ keyShare)
    ++ ext 0x0039 tp

def body (random exts : Bytes) : Bytes :=
  u16 0x0303 ++ random ++ [0] ++ u16 6 ++ u16 0x1301 ++ u16 0x1302 ++ u16 0x1303 ++ [1, 0] ++ u16 (size exts) ++ exts

def message (body : Bytes) : Bytes :=
  [1, toByte ((size body).sshiftRight 16), toByte ((size body).sshiftRight 8), toByte (size body)] ++ body

def clientHello (sni : String) : Draw Bytes :=
  Draw.nextBytes 32 >>= fun keyShare =>
  Draw.nextBytes 8 >>= fun own =>
  Draw.nextBytes 32 >>= fun random =>
  pure (message (body random (exts (utf8 sni) keyShare (parameters own))))

/-! ## The packet

The keys come from the connection id by functions of the platform, which are parameters with the
lengths of what they give. The payload is filled up to the size of a datagram. -/

/-- A key of AES-128. -/
abbrev AesKey : Type := { key : Bytes // key.length = 16 }

/-- `Mac` and `Cipher` of the platform. -/
structure Crypto where
  hmac : (key data : Bytes) → Bytes
  gcm : Gcm AesKey
  /-- One block under `AES/ECB/NoPadding`. -/
  ecb : AesKey → Bytes → Bytes

/-- `copyOf(len)`. -/
def copyOf (bytes : Bytes) (len : ℕ) : Bytes := bytes.take len ++ List.replicate (len - bytes.length) 0

/-- A copy has the length that was asked for, cut or filled. -/
theorem length_copyOf (bytes : Bytes) (len : ℕ) : (copyOf bytes len).length = len := by
  simp only [copyOf, List.length_append, List.length_take, List.length_replicate]
  omega

section
variable (C : Crypto)

def SALT : Bytes :=
  [0x38, 0x76, 0x2c, 0xf7, 0xf5, 0x59, 0x34, 0xb3, 0x4d, 0x17, 0x9a, 0xe6, 0xa4, 0xc8, 0x0c, 0xad, 0xcc, 0xbb, 0x7f, 0x0a]

def hkdfExtract (salt ikm : Bytes) : Bytes := C.hmac salt ikm

def expandLabel (secret : Bytes) (label : String) (len : ℕ) : Bytes :=
  let full := utf8 ("tls13 " ++ label)
  let info := u16 (BitVec.ofNat 32 len) ++ [toByte (size full)] ++ full ++ [0]
  copyOf (C.hmac secret (info ++ [1])) len

theorem length_expandLabel (secret : Bytes) (label : String) (len : ℕ) :
    (expandLabel C secret label len).length = len := length_copyOf _ _

/-- `client`, the secret of the client's side under a connection id. -/
def client (dcid : Bytes) : Bytes := expandLabel C (hkdfExtract C SALT dcid) "client in" 32

def key (dcid : Bytes) : AesKey := ⟨expandLabel C (client C dcid) "quic key" 16, length_expandLabel C _ _ _⟩

def iv (dcid : Bytes) : Bytes := expandLabel C (client C dcid) "quic iv" 12

def hp (dcid : Bytes) : AesKey := ⟨expandLabel C (client C dcid) "quic hp" 16, length_expandLabel C _ _ _⟩

/-- The last eight bytes of the initialisation vector take the packet number. -/
def nonce (iv : Bytes) (pn : BitVec 64) : Bytes :=
  iv.mapIdx fun j b =>
    if 4 ≤ j ∧ j ≤ 11 then toByte (toInt b ^^^ (pn.sshiftRight (8 * (11 - j))).setWidth 32) else b

def pnLen : ℕ := 4

def headLen (dcid scid : Bytes) : ℕ := 1 + 4 + 1 + dcid.length + 1 + scid.length + 1 + 2 + pnLen

/-- `payload`: the CRYPTO frame, and PADDING up to a datagram of 1200 bytes. -/
def payload (dcid scid hello : Bytes) : Bytes :=
  let crypto := [0x06, 0x00] ++ varint ((size hello).signExtend 64) ++ hello
  let payloadLen := max crypto.length (1200 - headLen dcid scid - 16)
  crypto ++ List.replicate (payloadLen - crypto.length) 0

def header (dcid scid : Bytes) (payloadSize : ℕ) (pn : BitVec 64) : Bytes :=
  let length := BitVec.ofNat 32 (pnLen + payloadSize + 16)
  [toByte (0xc0 ||| BitVec.ofNat 32 (pnLen - 1)), 0, 0, 0, 1, toByte (size dcid)] ++ dcid ++ [toByte (size scid)] ++ scid
    ++ [0x00] ++ [toByte (0x40 ||| length.sshiftRight 8), toByte length]
    ++ (List.range pnLen).map fun i => toByte (pn.sshiftRight (8 * (pnLen - 1 - i)))

/-- `out` before header protection. -/
def unprotected (dcid scid hello : Bytes) (pn : BitVec 64) : Bytes :=
  let text := payload dcid scid hello
  let head := header dcid scid text.length pn
  head ++ C.gcm.encrypt (key C dcid) (nonce (iv C dcid) pn) head text

/-- Header protection, from a sample of the ciphertext 4 bytes after the packet number's start. -/
def protect (hp : AesKey) (pnOff : ℕ) (out : Bytes) : Bytes :=
  let mask := C.ecb hp ((out.drop (pnOff + 4)).take 16)
  out.mapIdx fun j b =>
    if j = 0 then toByte (toInt b ^^^ (toInt (mask.getD 0 0) &&& 0x0f))
    else if pnOff ≤ j ∧ j < pnOff + pnLen then toByte (toInt b ^^^ toInt (mask.getD (1 + (j - pnOff)) 0))
    else b

def packet (sni : String) : Draw Bytes :=
  Draw.nextBytes 8 >>= fun dcid =>
  Draw.nextBytes 8 >>= fun scid =>
  clientHello sni >>= fun hello =>
  Draw.nextInt 0 4 >>= fun pn =>
  let head := header dcid scid (payload dcid scid hello).length (BitVec.ofInt 64 pn)
  pure (protect C (hp C dcid) (head.length - pnLen) (unprotected C dcid scid hello (BitVec.ofInt 64 pn)))

end

/-! ## Bytes of numbers, as numbers

Each bit operation is an operation on numbers that are small enough. With these lemmas the writer
can be compared with the reader of the grammar. -/

/-- A number that is not negative is shifted as a number. -/
theorem toNat_sshiftRight {w n : ℕ} (h : 2 * n < 2 ^ w) (k : ℕ) :
    ((BitVec.ofNat w n).sshiftRight k).toNat = n / 2 ^ k := by
  have hn : (BitVec.ofNat w n).toNat = n := by
    rw [BitVec.toNat_ofNat]
    exact Nat.mod_eq_of_lt (by omega)
  have hmsb : (BitVec.ofNat w n).msb = false := by
    rw [BitVec.msb_eq_false_iff_two_mul_lt, hn]
    exact h
  rw [BitVec.toNat_sshiftRight, hmsb, if_neg Bool.false_ne_true, hn, Nat.shiftRight_eq_div_pow]

/-- A conversion to a byte keeps the low eight bits. -/
theorem toNat_toByte {w : ℕ} (v : BitVec w) : (toByte v).toNat = v.toNat % 256 := BitVec.toNat_setWidth 8 v

/-- A shift of a number without a sign drops its last bits. -/
theorem toByte_sshiftRight {w n : ℕ} (h : 2 * n < 2 ^ w) (k : ℕ) :
    toByte ((BitVec.ofNat w n).sshiftRight k) = UInt8.ofNat (n / 2 ^ k) := by
  apply UInt8.toNat_inj.mp
  rw [toNat_toByte, toNat_sshiftRight h, UInt8.toNat_ofNat']

/-- A number without a sign keeps its last byte. -/
theorem toByte_ofNat {w n : ℕ} (h : 2 * n < 2 ^ w) : toByte (BitVec.ofNat w n) = UInt8.ofNat n := by
  have hzero := toByte_sshiftRight h 0
  rwa [BitVec.sshiftRight_zero, pow_zero, Nat.div_one] at hzero

/-- The two highest bits of a byte are set over the rest. -/
theorem or_ofNat {c m : ℕ} (hc : c < 4) (hm : m < 64) :
    (UInt8.ofNat (c * 64) ||| UInt8.ofNat m) = UInt8.ofNat (c * 64 + m) := by
  apply UInt8.toNat_inj.mp
  rw [UInt8.toNat_or, UInt8.toNat_ofNat', UInt8.toNat_ofNat', UInt8.toNat_ofNat',
    Nat.mod_eq_of_lt (show c * 64 < 2 ^ 8 by omega), Nat.mod_eq_of_lt (show m < 2 ^ 8 by omega),
    Nat.mod_eq_of_lt (show c * 64 + m < 2 ^ 8 by omega)]
  have h := Nat.two_pow_add_eq_or_of_lt (i := 6) (by omega : m < 2 ^ 6) c
  rw [Nat.mul_comm c 64]
  exact h.symm

/-- The mark of a length, over the highest byte of the number. -/
theorem toByte_or_sshiftRight {c n k : ℕ} (hc : c < 4) (hn : 2 * n < 2 ^ 64) (hk : n / 2 ^ k < 64) :
    toByte (BitVec.ofNat 32 (c * 64) ||| ((BitVec.ofNat 64 n).sshiftRight k).setWidth 32) = UInt8.ofNat (c * 64 + n / 2 ^ k) := by
  rw [← or_ofNat hc hk]
  apply UInt8.toNat_inj.mp
  rw [toNat_toByte, BitVec.toNat_or, BitVec.toNat_setWidth, toNat_sshiftRight hn, BitVec.toNat_ofNat, UInt8.toNat_or,
    UInt8.toNat_ofNat', UInt8.toNat_ofNat', Nat.mod_eq_of_lt (show c * 64 < 2 ^ 32 by omega),
    Nat.mod_eq_of_lt (show n / 2 ^ k < 2 ^ 32 by omega), Nat.mod_eq_of_lt (show c * 64 < 2 ^ 8 by omega),
    Nat.mod_eq_of_lt (show n / 2 ^ k < 2 ^ 8 by omega)]
  have h := Nat.or_lt_two_pow (n := 8) (show c * 64 < 2 ^ 8 by omega) (show n / 2 ^ k < 2 ^ 8 by omega)
  exact Nat.mod_eq_of_lt h

/-- The sign of a byte does not reach its bits. -/
theorem toByte_toInt_or (b : UInt8) (m : BitVec 32) : toByte (toInt b ||| m) = b ||| toByte m := by
  have hsame : (b.toBitVec.signExtend 32).setWidth 8 = b.toBitVec := by
    ext i hi
    rw [BitVec.getElem_setWidth, BitVec.getLsbD_signExtend]
    simp [hi, show i < 32 by omega]
  apply UInt8.toBitVec_inj.mp
  change (b.toBitVec.signExtend 32 ||| m).setWidth 8 = _
  rw [BitVec.setWidth_or, hsame]
  rfl

theorem u16_ofNat {n : ℕ} (h : n < 65536) : u16 (BitVec.ofNat 32 n) = bigEndian 2 n := by
  rw [u16, toByte_sshiftRight (by omega), toByte_ofNat (by omega), bigEndian_succ, bigEndian_one,
    show (2 : ℕ) ^ 8 = 256 ^ 1 from rfl]

/-- Numbers without a sign are compared as such. -/
theorem slt_ofNat {n m : ℕ} (hn : n < 2 ^ 62) (hm : m < 2 ^ 62) :
    (BitVec.ofNat 64 n).slt (BitVec.ofNat 64 m) = decide (n < m) := by
  have htoInt : ∀ k : ℕ, k < 2 ^ 62 → (BitVec.ofNat 64 k).toInt = (k : ℤ) := by
    intro k hk
    have htoNat : (BitVec.ofNat 64 k).toNat = k := by
      rw [BitVec.toNat_ofNat]
      exact Nat.mod_eq_of_lt (by omega)
    rw [BitVec.toInt_eq_toNat_of_lt (by rw [htoNat]; omega), htoNat]
  rw [BitVec.slt, htoInt n hn, htoInt m hm, decide_eq_decide]
  omega

/-- What `varint` writes: a number marked with its length. -/
theorem varint_ofNat {n : ℕ} (h : n < 2 ^ 62) :
    ∃ c < 4, n < 64 * 256 ^ (2 ^ c - 1)
      ∧ varint (BitVec.ofNat 64 n) = bigEndian (2 ^ c) (c * 64 * 256 ^ (2 ^ c - 1) + n) := by
  -- the number is positive as a `Long`, so the shifts bring in zeros
  have hlong : 2 * n < 2 ^ 64 := by omega
  have hcase1 : (BitVec.ofNat 64 n).slt 64 = decide (n < 64) := slt_ofNat (m := 64) h (by omega)
  have hcase2 : (BitVec.ofNat 64 n).slt 16384 = decide (n < 16384) := slt_ofNat (m := 16384) h (by omega)
  have hcase4 : (BitVec.ofNat 64 n).slt 1073741824 = decide (n < 1073741824) :=
    slt_ofNat (m := 1073741824) h (by omega)
  rw [varint, hcase1, hcase2, hcase4]
  simp only [decide_eq_true_eq]
  -- the four lengths, each with its mark in the two highest bits
  by_cases h1 : n < 64
  · refine ⟨0, by omega, by omega, ?_⟩
    rw [if_pos h1, toByte_ofNat hlong, pow_zero, bigEndian_one]
    simp only [Nat.zero_mul, Nat.zero_add]
  rw [if_neg h1]
  by_cases h2 : n < 16384
  · refine ⟨1, by omega, by omega, ?_⟩
    have hmark := toByte_or_sshiftRight (c := 1) (k := 8) (by omega) hlong (by omega)
    rw [if_pos h2, toByte_ofNat hlong, ← bigEndian_one]
    exact (congrArg (· :: bigEndian 1 n) hmark).trans (bigEndian_mark 1 (1 * 64) n).symm
  rw [if_neg h2]
  by_cases h4 : n < 1073741824
  · refine ⟨2, by omega, by omega, ?_⟩
    have hmark := toByte_or_sshiftRight (c := 2) (k := 24) (by omega) hlong (by omega)
    have hrest : bigEndian 3 n = [UInt8.ofNat (n / 2 ^ 16), UInt8.ofNat (n / 2 ^ 8), UInt8.ofNat n] := by
      rw [bigEndian_succ, bigEndian_succ, bigEndian_one]
      rfl
    rw [if_pos h4, toByte_ofNat hlong, toByte_sshiftRight hlong, toByte_sshiftRight hlong, ← hrest]
    exact (congrArg (· :: bigEndian 3 n) hmark).trans (bigEndian_mark 3 (2 * 64) n).symm
  rw [if_neg h4]
  refine ⟨3, by omega, by omega, ?_⟩
  have hbytes : ((List.range 8).map fun i => toByte ((BitVec.ofNat 64 n).sshiftRight (8 * (7 - i)))) = bigEndian 8 n := by
    simp only [toByte_sshiftRight hlong, bigEndian_succ]
    rfl
  have hwrite := bigEndian_mark 7 (3 * 64) n
  rw [hbytes, bigEndian_succ, List.modifyHead_cons, toByte_toInt_or, UInt8.or_comm]
  rw [← or_ofNat (by omega) (by omega)] at hwrite
  exact hwrite.symm

/-- **What `varint` writes is read back.** -/
theorem reads_varint {n : ℕ} (h : n < 2 ^ 62) : Reads Quic.varint (varint (BitVec.ofNat 64 n)) n := by
  obtain ⟨c, hc, hn, hwrite⟩ := varint_ofNat h
  rw [hwrite]
  exact Quic.reads_varint hc hn

/-- A variable-length number takes a byte at least. -/
theorem varint_ne_nil {n : ℕ} (h : n < 2 ^ 62) : varint (BitVec.ofNat 64 n) ≠ [] := by
  obtain ⟨c, hc, hn, hwrite⟩ := varint_ofNat h
  intro hnil
  have hlen := congrArg List.length (hwrite.symm.trans hnil)
  rw [length_bigEndian, List.length_nil] at hlen
  have hpos := Nat.two_pow_pos c
  omega

theorem length_varint_le {n : ℕ} (h : n < 2 ^ 62) : (varint (BitVec.ofNat 64 n)).length ≤ 8 := by
  obtain ⟨c, hc, hn, hwrite⟩ := varint_ofNat h
  rw [hwrite, length_bigEndian]
  exact Nat.pow_le_pow_right (n := 2) (by omega) (by omega : c ≤ 3)

/-! ## The hello, read back

The hello is read back field by field, each extension by the grammar of its type. What was drawn
does not matter to it, only how many bytes it has. -/

@[simp] theorem length_u16 (v : BitVec 32) : (u16 v).length = 2 := rfl

/-- An extension is its body with four bytes before it. -/
@[simp] theorem length_ext (type : BitVec 32) (body : Bytes) : (ext type body).length = 4 + body.length := by
  simp only [ext, List.length_append, length_u16]

/-- The length before a field, as long as the field is short enough for one. -/
theorem u16_size {bytes : Bytes} (h : bytes.length < 65536) : u16 (size bytes) = bigEndian 2 bytes.length :=
  u16_ofNat h

/-- A length as the `Long` that `varint` takes. -/
theorem size_long {bytes : Bytes} (h : bytes.length < 2 ^ 31) : (size bytes).signExtend 64 = BitVec.ofNat 64 bytes.length := by
  have hn : (size bytes).toNat = bytes.length := by
    rw [size, BitVec.toNat_ofNat]
    exact Nat.mod_eq_of_lt (by omega)
  have hmsb : (size bytes).msb = false := by
    rw [BitVec.msb_eq_false_iff_two_mul_lt, hn]
    omega
  rw [BitVec.signExtend_eq_setWidth_of_msb_false hmsb]
  apply BitVec.eq_of_toNat_eq
  rw [BitVec.toNat_setWidth, hn, BitVec.toNat_ofNat]

/-- A transport parameter is read back with its id. -/
theorem reads_tp {id : ℕ} {v : Bytes} {value : Quic.Parameter} (hid : id < 2 ^ 62) (hv : v.length < 2 ^ 31)
    (h : ReadsAll (Quic.parameterValue id) v value) :
    Reads Quic.transportParameter (tp (BitVec.ofNat 64 id) v) (id, value) := by
  rw [tp, size_long hv, List.append_assoc]
  refine (reads_varint hid).bind ((reads_varint (by omega)).bind ((reads_within rfl h).bind_last ?_))
  exact Reads.pure (id, value)

/-- A transport parameter that is one integer. -/
theorem reads_tp_varint {id n : ℕ} (hid : id ∈ Quic.integerParameters) (hn : n < 2 ^ 62) :
    Reads Quic.transportParameter (tp (BitVec.ofNat 64 id) (varint (BitVec.ofNat 64 n))) (id, .integer n) := by
  have hsmall : ∀ i ∈ Quic.integerParameters, i < 2 ^ 62 := by decide
  have hlen := length_varint_le hn
  refine reads_tp (hsmall id hid) (by omega) ?_
  rw [Quic.parameterValue, if_pos hid]
  exact (reads_varint hn).all.map Quic.Parameter.integer

/-- The parameters of the client, as the peer reads them. -/
def parametersRead (own : Bytes) : List (ℕ × Quic.Parameter) :=
  [(0x01, .integer 30000), (0x04, .integer 1048576), (0x05, .integer 524288), (0x06, .integer 524288),
    (0x07, .integer 524288), (0x08, .integer 100), (0x09, .integer 100), (0x0f, .bytes own)]

/-- None is empty, so the loop over them makes progress. -/
theorem tp_ne_nil {id : ℕ} (h : id < 2 ^ 62) (v : Bytes) : tp (BitVec.ofNat 64 id) v ≠ [] := by
  rw [tp, List.append_assoc]
  exact List.append_ne_nil_of_left_ne_nil (varint_ne_nil h) _

/-- **The eight parameters are read back**, the drawn one among them. -/
theorem readsAll_parameters {own : Bytes} (h : own.length = 8) :
    ReadsAll (many Quic.transportParameter) (parameters own) (parametersRead own) := by
  let write : ℕ × Quic.Parameter → Bytes := fun p =>
    tp (BitVec.ofNat 64 p.1) (match p.2 with
      | .integer n => varint (BitVec.ofNat 64 n)
      | .bytes value => value)
  have hall := readsAll_many (r := Quic.transportParameter) write id (parametersRead own) ?_
  · have hbytes : (parametersRead own).flatMap write = parameters own := by
      simp only [parametersRead, List.flatMap_cons, List.flatMap_nil, List.append_nil, parameters, List.append_assoc, write]
      rfl
    rwa [hbytes, List.map_id] at hall
  · have hown : Reads Quic.transportParameter (tp (BitVec.ofNat 64 0x0f) own) (0x0f, .bytes own) :=
      reads_tp (by omega) (by omega) ((readsAll_remaining own).map Quic.Parameter.bytes)
    simp only [parametersRead, List.forall_mem_cons, List.not_mem_nil, false_imp_iff, implies_true, and_true]
    have hint : ∀ i n, i ∈ Quic.integerParameters → i < 2 ^ 62 → n < 2 ^ 62 →
        Reads Quic.transportParameter (write (i, .integer n)) (i, .integer n) ∧ write (i, .integer n) ≠ [] :=
      fun i n hi hlt hn => ⟨reads_tp_varint hi hn, tp_ne_nil hlt _⟩
    exact ⟨hint _ _ (by decide) (by decide) (by decide), hint _ _ (by decide) (by decide) (by decide),
      hint _ _ (by decide) (by decide) (by decide), hint _ _ (by decide) (by decide) (by decide),
      hint _ _ (by decide) (by decide) (by decide), hint _ _ (by decide) (by decide) (by decide),
      hint _ _ (by decide) (by decide) (by decide), hown,
      tp_ne_nil (show 15 < 2 ^ 62 by decide) own⟩

theorem length_parameters {own : Bytes} (h : own.length = 8) : (parameters own).length = 48 := by
  have hfixed : (tp 0x01 (varint 30000) ++ tp 0x04 (varint 1048576) ++ tp 0x05 (varint 524288) ++ tp 0x06 (varint 524288)
      ++ tp 0x07 (varint 524288) ++ tp 0x08 (varint 100) ++ tp 0x09 (varint 100)).length = 38 := by decide
  have hown : (tp 0x0f own).length = 10 := by
    have hheads : (varint 0x0f ++ varint ((BitVec.ofNat 32 8).signExtend 64)).length = 2 := by decide
    rw [tp, size, h, List.length_append, hheads, h]
  rw [parameters, List.length_append, hfixed, hown]

/-- An extension with what its type says it holds. -/
theorem reads_ext {type : ℕ} {data : Bytes} {e : Tls.Extension} (htype : type < 65536) (hdata : data.length < 65536)
    (h : ReadsAll (Tls.content type) data e) :
    Reads Tls.extension (ext (BitVec.ofNat 32 type) data) (type, e) := by
  rw [ext, u16_ofNat htype, u16_size hdata, List.append_assoc]
  refine (reads_uint htype).bind ((reads_vector h (Nat.zero_le _) (by omega) hdata).bind_last ?_)
  exact Reads.pure (type, e)

/-- The extensions, as the server reads them. -/
def extsRead (name keyShare own : Bytes) : List (ℕ × Tls.Extension) :=
  [(0, .serverName [name]), (10, .supportedGroups [0x001d, 0x0017, 0x0018]),
    (13, .signatureAlgorithms [0x0403, 0x0804, 0x0401, 0x0503]), (16, .alpn [utf8 "h3"]),
    (43, .supportedVersions [0x0304]), (45, .pskModes [1]), (51, .keyShare [(0x001d, keyShare)]),
    (57, .quicTransportParameters (parametersRead own))]

/-- The server name behind its two lengths. -/
theorem readsAll_serverName {name : Bytes} (hpos : 1 ≤ name.length) (hmax : name.length ≤ 253) :
    ReadsAll (Tls.content 0) (u16 (size name + 3) ++ [0] ++ u16 (size name) ++ name) (.serverName [name]) := by
  have hentry : Reads Tls.hostName (bigEndian 1 0 ++ (bigEndian 2 name.length ++ name)) name :=
    (reads_uint (by omega)).bind ((reads_ensure rfl).then
      (reads_vector (readsAll_remaining name) hpos (by omega) (by omega)))
  have hlen : (bigEndian 1 0 ++ (bigEndian 2 name.length ++ name)).length = name.length + 3 := by
    simp only [List.length_append, length_bigEndian]
    omega
  have hlist : Reads (vector 2 1 65535 (many Tls.hostName)) (bigEndian 2 (bigEndian 1 0 ++ (bigEndian 2 name.length ++ name)).length
      ++ (bigEndian 1 0 ++ (bigEndian 2 name.length ++ name))) [name] :=
    reads_vector (hentry.many_one (by simp [bigEndian])) (by omega) (by omega) (by omega)
  have hsum : size name + 3 = BitVec.ofNat 32 (name.length + 3) := by
    rw [BitVec.ofNat_add]
    rfl
  rw [hlen] at hlist
  rw [hsum, u16_ofNat (by omega), u16_size (by omega), List.append_assoc, List.append_assoc]
  exact hlist.all.map Tls.Extension.serverName

/-- The key share is read as one entry for X25519. -/
theorem readsAll_keyShare {keyShare : Bytes} (h : keyShare.length = 32) :
    ReadsAll (Tls.content 51) (u16 36 ++ u16 0x001d ++ u16 32 ++ keyShare) (.keyShare [(0x001d, keyShare)]) := by
  have hentry : Reads Tls.keyShareEntry (bigEndian 2 0x001d ++ (bigEndian 2 keyShare.length ++ keyShare)) (0x001d, keyShare) :=
    (reads_uint (by omega)).bind ((reads_vector (readsAll_remaining keyShare) (by omega) (by omega) (by omega)).bind_last
      (Reads.pure (0x001d, keyShare)))
  have hlen : (bigEndian 2 0x001d ++ (bigEndian 2 keyShare.length ++ keyShare)).length = 36 := by
    simp only [List.length_append, length_bigEndian, h]
  have hlist : Reads (vector 2 0 65535 (many Tls.keyShareEntry))
      (bigEndian 2 (bigEndian 2 0x001d ++ (bigEndian 2 keyShare.length ++ keyShare)).length
        ++ (bigEndian 2 0x001d ++ (bigEndian 2 keyShare.length ++ keyShare))) [(0x001d, keyShare)] :=
    reads_vector (hentry.many_one (by simp [bigEndian])) (by omega) (by omega) (by omega)
  rw [hlen, h] at hlist
  have hsize : u16 36 = bigEndian 2 36 ∧ u16 0x001d = bigEndian 2 0x001d ∧ u16 32 = bigEndian 2 32 := by decide
  rw [hsize.1, hsize.2.1, hsize.2.2, List.append_assoc, List.append_assoc]
  exact hlist.all.map Tls.Extension.keyShare

/-- The bytes of each extension, in their order. -/
def extData (name keyShare own : Bytes) : List (ℕ × Bytes × Tls.Extension) :=
  [(0, u16 (size name + 3) ++ [0] ++ u16 (size name) ++ name, .serverName [name]),
    (10, u16 6 ++ u16 0x001d ++ u16 0x0017 ++ u16 0x0018, .supportedGroups [0x001d, 0x0017, 0x0018]),
    (13, u16 8 ++ u16 0x0403 ++ u16 0x0804 ++ u16 0x0401 ++ u16 0x0503,
      .signatureAlgorithms [0x0403, 0x0804, 0x0401, 0x0503]),
    (16, u16 3 ++ [2] ++ utf8 "h3", .alpn [utf8 "h3"]),
    (43, [2] ++ u16 0x0304, .supportedVersions [0x0304]),
    (45, [1, 1], .pskModes [1]),
    (51, u16 36 ++ u16 0x001d ++ u16 32 ++ keyShare, .keyShare [(0x001d, keyShare)]),
    (57, parameters own, .quicTransportParameters (parametersRead own))]

/-- **Every extension holds what its type says.** -/
theorem readsAll_extData {name keyShare own : Bytes} (hpos : 1 ≤ name.length) (hmax : name.length ≤ 253)
    (hshare : keyShare.length = 32) (hown : own.length = 8) :
    ∀ d ∈ extData name keyShare own, d.1 < 65536 ∧ d.2.1.length < 65536 ∧ ReadsAll (Tls.content d.1) d.2.1 d.2.2 := by
  have hgroups : ReadsAll (Tls.content 10) (u16 6 ++ u16 0x001d ++ u16 0x0017 ++ u16 0x0018)
      (.supportedGroups [0x001d, 0x0017, 0x0018]) := by decide
  have hschemes : ReadsAll (Tls.content 13) (u16 8 ++ u16 0x0403 ++ u16 0x0804 ++ u16 0x0401 ++ u16 0x0503)
      (.signatureAlgorithms [0x0403, 0x0804, 0x0401, 0x0503]) := by decide
  have halpn : ReadsAll (Tls.content 16) (u16 3 ++ [2] ++ utf8 "h3") (.alpn [utf8 "h3"]) := by decide
  have hversions : ReadsAll (Tls.content 43) ([2] ++ u16 0x0304) (.supportedVersions [0x0304]) := by decide
  have hmodes : ReadsAll (Tls.content 45) [1, 1] (.pskModes [1]) := by decide
  have hname : (u16 (size name + 3) ++ [0] ++ u16 (size name) ++ name).length = name.length + 5 := by
    simp only [List.length_append, length_u16, List.length_singleton]
    omega
  have hkey : (u16 36 ++ u16 0x001d ++ u16 32 ++ keyShare).length = 38 := by
    simp only [List.length_append, length_u16, hshare]
  have hh3 : (utf8 "h3").length = 2 := by decide
  simp only [extData, List.forall_mem_cons, List.not_mem_nil, false_imp_iff, implies_true, and_true]
  refine ⟨⟨by omega, by omega, readsAll_serverName hpos hmax⟩, ⟨by omega, ?_, hgroups⟩, ⟨by omega, ?_, hschemes⟩,
    ⟨by omega, ?_, halpn⟩, ⟨by omega, ?_, hversions⟩, ⟨by omega, ?_, hmodes⟩,
    ⟨by omega, by omega, readsAll_keyShare hshare⟩, ⟨by omega, ?_, (readsAll_parameters hown).map Tls.Extension.quicTransportParameters⟩⟩
  all_goals simp [length_parameters, hown, hh3]

/-- **All extensions are read back**, each by its own grammar. -/
theorem readsAll_exts {name keyShare own : Bytes} (hpos : 1 ≤ name.length) (hmax : name.length ≤ 253)
    (hshare : keyShare.length = 32) (hown : own.length = 8) :
    ReadsAll (many Tls.extension) (exts name keyShare (parameters own)) (extsRead name keyShare own) := by
  have hdata := readsAll_extData hpos hmax hshare hown
  have hall := readsAll_many (r := Tls.extension) (fun d : ℕ × Bytes × Tls.Extension => ext (BitVec.ofNat 32 d.1) d.2.1)
    (fun d => (d.1, d.2.2)) (extData name keyShare own) fun d hd =>
      ⟨reads_ext (hdata d hd).1 (hdata d hd).2.1 (hdata d hd).2.2, List.cons_ne_nil _ _⟩
  have hbytes : (extData name keyShare own).flatMap (fun d => ext (BitVec.ofNat 32 d.1) d.2.1)
      = exts name keyShare (parameters own) := by
    simp only [extData, List.flatMap_cons, List.flatMap_nil, List.append_nil, exts, List.append_assoc]
    rfl
  rwa [hbytes] at hall

/-- They are as long as the name makes them. -/
theorem length_exts {name keyShare own : Bytes} (hshare : keyShare.length = 32) (hown : own.length = 8) :
    (exts name keyShare (parameters own)).length = name.length + 151 := by
  have hh3 : (utf8 "h3").length = 2 := by decide
  simp only [exts, List.length_append, length_ext, length_u16, List.length_cons, List.length_nil,
    length_parameters hown, hshare, hh3]
  omega

/-- The hello, as the server reads it. -/
def helloRead (random name keyShare own : Bytes) : Tls.ClientHello where
  random := random
  sessionId := []
  cipherSuites := [0x1301, 0x1302, 0x1303]
  extensions := extsRead name keyShare own

/-- The body of the hello is read back with its random bytes and its extensions. -/
theorem reads_body {random name keyShare own : Bytes} (hpos : 1 ≤ name.length) (hmax : name.length ≤ 253)
    (hrandom : random.length = 32) (hshare : keyShare.length = 32) (hown : own.length = 8) :
    Reads Tls.clientHelloBody (body random (exts name keyShare (parameters own))) (helloRead random name keyShare own) := by
  have hlen : (exts name keyShare (parameters own)).length = name.length + 151 := length_exts hshare hown
  have hversion : u16 0x0303 = bigEndian 2 0x0303 := by decide
  have hsession : Reads (vector 1 0 32 remaining) [0] [] :=
    reads_vector (readsAll_remaining []) (by simp) (by simp) (by simp)
  have hsuites : u16 6 ++ (u16 0x1301 ++ (u16 0x1302 ++ u16 0x1303))
      = bigEndian 2 (u16 0x1301 ++ u16 0x1302 ++ u16 0x1303).length ++ (u16 0x1301 ++ u16 0x1302 ++ u16 0x1303) := by
    decide
  have hread : ReadsAll (many (uint 2)) (u16 0x1301 ++ u16 0x1302 ++ u16 0x1303) [0x1301, 0x1302, 0x1303] := by
    decide
  have hcompression : Reads (vector 1 1 255 remaining) [1, 0] [0] :=
    reads_vector (readsAll_remaining [0]) (by simp) (by simp) (by simp)
  have hexts : u16 (size (exts name keyShare (parameters own))) = bigEndian 2 (exts name keyShare (parameters own)).length :=
    u16_size (by omega)
  have hbytes : body random (exts name keyShare (parameters own)) = u16 0x0303 ++ (random ++ ([0]
      ++ ((u16 6 ++ (u16 0x1301 ++ (u16 0x1302 ++ u16 0x1303))) ++ ([1, 0]
      ++ (u16 (size (exts name keyShare (parameters own))) ++ exts name keyShare (parameters own)))))) := by
    simp only [body, List.append_assoc]
  rw [hbytes, hversion, hsuites, hexts]
  refine (reads_uint (by omega)).bind ((reads_ensure rfl).then ?_)
  refine (reads_take hrandom).bind ?_
  refine hsession.bind ((reads_vector hread (by simp) (by simp) (by simp)).bind ?_)
  refine hcompression.bind ((reads_ensure rfl).then ?_)
  refine (reads_vector (readsAll_exts hpos hmax hshare hown) (by omega) (by omega) (by omega)).bind_last ?_
  -- no extension comes twice
  exact (reads_ensure (show ((extsRead name keyShare own).map Prod.fst).Nodup by simp [extsRead])).then (Reads.pure _)

theorem length_body {random name keyShare own : Bytes}
    (hrandom : random.length = 32) (hshare : keyShare.length = 32) (hown : own.length = 8) :
    (body random (exts name keyShare (parameters own))).length = name.length + 198 := by
  simp only [body, List.length_append, length_u16, List.length_cons, List.length_nil, hrandom, length_exts hshare hown]
  omega

/-- **The hello is read back to its last byte.** -/
theorem reads_message {random name keyShare own : Bytes} (hpos : 1 ≤ name.length) (hmax : name.length ≤ 253)
    (hrandom : random.length = 32) (hshare : keyShare.length = 32) (hown : own.length = 8) :
    Reads Tls.clientHello (message (body random (exts name keyShare (parameters own))))
      (helloRead random name keyShare own) := by
  have hlen : (body random (exts name keyShare (parameters own))).length = name.length + 198 :=
    length_body hrandom hshare hown
  have hread := reads_body hpos hmax hrandom hshare hown
  generalize body random (exts name keyShare (parameters own)) = b at hlen hread ⊢
  have hhead : [1, toByte ((size b).sshiftRight 16), toByte ((size b).sshiftRight 8), toByte (size b)]
      = bigEndian 1 1 ++ bigEndian 3 b.length := by
    rw [size, toByte_sshiftRight (by omega), toByte_sshiftRight (by omega), toByte_ofNat (by omega), bigEndian_one,
      bigEndian_succ, bigEndian_succ, bigEndian_one]
    rfl
  rw [message, hhead, List.append_assoc]
  exact (reads_uint (by omega)).bind ((reads_ensure rfl).then
    (reads_vector hread.all (Nat.zero_le _) (by omega) (by omega)))

theorem length_message (b : Bytes) : (message b).length = b.length + 4 := by
  simp [message]

/-! ## The packet, read back

The header has a fixed length, so the packet number and the sample for the protection stand where
the reader looks for them. The payload is one frame with the hello, and padding. -/

/-- The packet has room for the hello, and is filled up to its size. -/
theorem payload_eq {dcid scid hello : Bytes} (hdcid : dcid.length = 8) (hscid : scid.length = 8)
    (hhello : hello.length ≤ 455) :
    payload dcid scid hello = ([0x06, 0x00] ++ varint (BitVec.ofNat 64 hello.length) ++ hello)
        ++ List.replicate (1154 - ([0x06, 0x00] ++ varint (BitVec.ofNat 64 hello.length) ++ hello).length) 0
      ∧ (payload dcid scid hello).length = 1154 := by
  have hvarint := length_varint_le (n := hello.length) (by omega)
  have hcrypto : ([0x06, 0x00] ++ varint (BitVec.ofNat 64 hello.length) ++ hello).length ≤ 1154 := by
    simp only [List.length_append, List.length_cons, List.length_nil]
    omega
  have hhead : 1200 - headLen dcid scid - 16 = 1154 := by
    rw [headLen, hdcid, hscid]
    rfl
  have heq : payload dcid scid hello = ([0x06, 0x00] ++ varint (BitVec.ofNat 64 hello.length) ++ hello)
      ++ List.replicate (1154 - ([0x06, 0x00] ++ varint (BitVec.ofNat 64 hello.length) ++ hello).length) 0 := by
    rw [payload, size_long (by omega), hhead]
    simp only [max_eq_right hcrypto]
  refine ⟨heq, ?_⟩
  rw [heq, List.length_append, List.length_replicate]
  omega

/-- The frame with the hello is read back. -/
theorem reads_crypto {hello : Bytes} (h : hello.length ≤ 455) :
    Reads Quic.frame ([0x06, 0x00] ++ varint (BitVec.ofNat 64 hello.length) ++ hello) (.crypto 0 hello) := by
  have hheads : ([0x06, 0x00] : Bytes) = varint (BitVec.ofNat 64 6) ++ varint (BitVec.ofNat 64 0) := by decide
  rw [hheads, List.append_assoc, List.append_assoc]
  refine (reads_varint (by omega)).bind ((reads_varint (by omega)).bind ?_)
  refine (reads_varint (by omega)).bind ((reads_take rfl).bind_last ?_)
  exact Reads.pure _

theorem reads_padding : Reads Quic.frame [0x00] .padding := by
  have hhead : ([0x00] : Bytes) = varint (BitVec.ofNat 64 0) := by decide
  rw [hhead]
  exact (reads_varint (by omega)).bind_last (Reads.pure _)

/-- **The payload is the CRYPTO frame and padding.** -/
theorem readsAll_payload {dcid scid hello : Bytes} (hdcid : dcid.length = 8) (hscid : scid.length = 8)
    (hhello : hello.length ≤ 455) :
    ∃ k, ReadsAll (many Quic.frame) (payload dcid scid hello) (.crypto 0 hello :: List.replicate k .padding) := by
  rw [(payload_eq hdcid hscid hhello).1]
  generalize 1154 - ([0x06, 0x00] ++ varint (BitVec.ofNat 64 hello.length) ++ hello).length = k
  refine ⟨k, ?_⟩
  let write : Quic.Frame → Bytes := fun f => match f with
    | .crypto _ data => [0x06, 0x00] ++ varint (BitVec.ofNat 64 data.length) ++ data
    | _ => [0x00]
  have hall := readsAll_many (r := Quic.frame) write id
    (.crypto 0 hello :: List.replicate k .padding) ?_
  · have hbytes : (Quic.Frame.crypto 0 hello :: List.replicate k .padding).flatMap write
        = ([0x06, 0x00] ++ varint (BitVec.ofNat 64 hello.length) ++ hello) ++ List.replicate k 0 := by
      rw [List.flatMap_cons, List.flatMap_replicate, List.flatten_replicate_singleton]
    rwa [hbytes, List.map_id] at hall
  · intro f hf
    rcases List.mem_cons.mp hf with rfl | hf
    · exact ⟨reads_crypto hhello, List.cons_ne_nil _ _⟩
    · obtain rfl := List.eq_of_mem_replicate hf
      exact ⟨reads_padding, List.cons_ne_nil _ _⟩

/-- The head of a packet whose payload fills it. -/
theorem header_eq {dcid scid : Bytes} (hdcid : dcid.length = 8) (hscid : scid.length = 8) {pn : ℕ} (hpn : pn < 4) :
    header dcid scid 1154 (BitVec.ofNat 64 pn) = bigEndian 1 0xc3 ++ (bigEndian 4 1 ++ ((bigEndian 1 dcid.length ++ dcid)
      ++ ((bigEndian 1 scid.length ++ scid) ++ (varint (BitVec.ofNat 64 0) ++ (varint (BitVec.ofNat 64 1174)
      ++ bigEndian 4 pn))))) := by
  have hmark : [toByte (0xc0 ||| BitVec.ofNat 32 (pnLen - 1)), 0, 0, 0, 1] = bigEndian 1 0xc3 ++ bigEndian 4 1 := by
    decide
  have hlength : [toByte (0x40 ||| (BitVec.ofNat 32 (pnLen + 1154 + 16)).sshiftRight 8), toByte (BitVec.ofNat 32 (pnLen + 1154 + 16))]
      = varint (BitVec.ofNat 64 1174) := by decide
  have htoken : ([0x00] : Bytes) = varint (BitVec.ofNat 64 0) := by decide
  have hid : ∀ id : Bytes, id.length = 8 → [toByte (size id)] = bigEndian 1 id.length := by
    intro id h
    rw [size, h]
    decide
  have hnumber : ((List.range pnLen).map fun i => toByte ((BitVec.ofNat 64 pn).sshiftRight (8 * (pnLen - 1 - i)))) = bigEndian 4 pn := by
    simp only [toByte_sshiftRight (show 2 * pn < 2 ^ 64 by omega), bigEndian_succ]
    rfl
  rw [header, hlength, htoken, hid scid hscid, hnumber]
  rw [show [toByte (0xc0 ||| BitVec.ofNat 32 (pnLen - 1)), 0, 0, 0, 1, toByte (size dcid)]
      = [toByte (0xc0 ||| BitVec.ofNat 32 (pnLen - 1)), 0, 0, 0, 1] ++ [toByte (size dcid)] from rfl, hmark, hid dcid hdcid]
  simp only [List.append_assoc]

/-- The header has thirty bytes, so the packet number stands at a fixed place. -/
theorem length_header {dcid scid : Bytes} (hdcid : dcid.length = 8) (hscid : scid.length = 8) (n : ℕ) (pn : BitVec 64) :
    (header dcid scid n pn).length = 30 := by
  simp [header, pnLen, hdcid, hscid]

/-- **The packet is read as an Initial** of version 1, whose length covers what follows it. -/
theorem reads_initial {dcid scid text : Bytes} (hdcid : dcid.length = 8) (hscid : scid.length = 8) {pn : ℕ} (hpn : pn < 4)
    (htext : text.length = 1170) :
    Reads Quic.initial (header dcid scid 1154 (BitVec.ofNat 64 pn) ++ text)
      { dcid, scid, token := [], length := 1174, numberLength := 4, number := pn, payload := text } := by
  have hbytes : header dcid scid 1154 (BitVec.ofNat 64 pn) ++ text = bigEndian 1 0xc3 ++ (bigEndian 4 1
      ++ ((bigEndian 1 dcid.length ++ dcid) ++ ((bigEndian 1 scid.length ++ scid) ++ (varint (BitVec.ofNat 64 0) ++ ([]
      ++ (varint (BitVec.ofNat 64 1174) ++ (bigEndian 4 pn ++ text))))))) := by
    rw [header_eq hdcid hscid hpn]
    simp only [List.append_assoc, List.nil_append]
  have htoken : Reads (take 0) ([] : Bytes) [] := reads_take rfl
  rw [hbytes]
  refine (reads_uint (by omega)).bind ((reads_ensure (by decide)).then ?_)
  refine (reads_uint (by omega)).bind ((reads_ensure rfl).then ?_)
  refine (reads_vector (readsAll_remaining dcid) (by omega) (by omega) (by omega)).bind ?_
  refine (reads_vector (readsAll_remaining scid) (by omega) (by omega) (by omega)).bind ?_
  refine (reads_varint (by omega)).bind (htoken.bind ?_)
  refine (reads_varint (by omega)).bind ((reads_ensure (by decide)).then ?_)
  refine (reads_uint (show pn < 256 ^ 4 by omega)).bind ((reads_take htext).bind_last ?_)
  exact Reads.pure _

/-- Header protection changes bytes in place. -/
@[simp] theorem length_protect (C : Crypto) (hp : AesKey) (pnOff : ℕ) (out : Bytes) :
    (protect C hp pnOff out).length = out.length := by
  rw [protect, List.length_mapIdx]

/-! ## Every draw

Whatever is drawn, the lengths are the same, and so a strict reader takes the hello and the
packet. The name is the only part that changes the size. -/

/-- As many bytes are drawn as were asked for. -/
theorem returns_nextBytes (n : ℕ) : Draw.Returns (Draw.nextBytes n) fun bytes => bytes.length = n := by
  induction n with
  | zero => exact Draw.returns_pure rfl
  | succ n ih =>
    refine Draw.returns_next.bind fun x _ => ih.bind fun rest hrest => Draw.returns_pure ?_
    rw [List.length_cons, hrest]

/-- The hello of a name: a strict reader takes all of it, and finds the name and the protocol. -/
def Greets (sni : String) (hello : Bytes) : Prop :=
  ∃ parsed, exactly Tls.clientHello hello = some parsed
    ∧ (0, Tls.Extension.serverName [utf8 sni]) ∈ parsed.extensions
    ∧ (16, Tls.Extension.alpn [utf8 "h3"]) ∈ parsed.extensions

/-- **Every draw gives a hello for the name, and a short one.** -/
theorem returns_clientHello {sni : String} (hpos : 1 ≤ (utf8 sni).length) (hmax : (utf8 sni).length ≤ 253) :
    Draw.Returns (clientHello sni) fun hello => Greets sni hello ∧ hello.length ≤ 455 := by
  refine (returns_nextBytes 32).bind fun keyShare hshare => (returns_nextBytes 8).bind fun own hown =>
    (returns_nextBytes 32).bind fun random hrandom => Draw.returns_pure ?_
  refine ⟨⟨helloRead random (utf8 sni) keyShare own, ?_, ?_, ?_⟩, ?_⟩
  · exact (reads_message hpos hmax hrandom hshare hown).all.exactly_eq
  · simp [helloRead, extsRead]
  · simp [helloRead, extsRead]
  · rw [length_message, length_body hrandom hshare hown]
    omega

section
variable (C : Crypto)

/-- The packet of a hello before its header is protected: an Initial whose length field covers
what follows it, whose payload opens to the hello in one CRYPTO frame and padding. -/
structure Disguises (hello unprotected : Bytes) : Prop where
  size : unprotected.length = 1200
  parsed : ∃ p, exactly Quic.initial unprotected = some p
    ∧ p.length = p.numberLength + p.payload.length
    ∧ ∃ text k, C.gcm.decrypt (key C p.dcid) (nonce (iv C p.dcid) (BitVec.ofNat 64 p.number)) (p.header unprotected) p.payload
          = some text
        ∧ exactly (many Quic.frame) text = some (.crypto 0 hello :: List.replicate k .padding)

/-- The packet before protection disguises the hello: header, frames and padding are read back. -/
theorem disguises {dcid scid hello : Bytes} (hdcid : dcid.length = 8) (hscid : scid.length = 8) (hhello : hello.length ≤ 455)
    (pn : ℕ) (hpn : pn < 4) : Disguises C hello (unprotected C dcid scid hello (BitVec.ofNat 64 pn)) := by
  have htext := (payload_eq hdcid hscid hhello).2
  have hhead := length_header hdcid hscid 1154 (BitVec.ofNat 64 pn)
  obtain ⟨k, hframes⟩ := readsAll_payload hdcid hscid hhello
  have hout : unprotected C dcid scid hello (BitVec.ofNat 64 pn) = header dcid scid 1154 (BitVec.ofNat 64 pn)
      ++ C.gcm.encrypt (key C dcid) (nonce (iv C dcid) (BitVec.ofNat 64 pn)) (header dcid scid 1154 (BitVec.ofNat 64 pn))
          (payload dcid scid hello) := by
    rw [unprotected, htext]
  have hopen := C.gcm.decrypt_encrypt (key C dcid) (nonce (iv C dcid) (BitVec.ofNat 64 pn))
    (header dcid scid 1154 (BitVec.ofNat 64 pn)) (payload dcid scid hello)
  have hsealed := C.gcm.length_encrypt (key C dcid) (nonce (iv C dcid) (BitVec.ofNat 64 pn))
    (header dcid scid 1154 (BitVec.ofNat 64 pn)) (payload dcid scid hello)
  rw [htext] at hsealed
  rw [hout]
  generalize C.gcm.encrypt (key C dcid) (nonce (iv C dcid) (BitVec.ofNat 64 pn)) (header dcid scid 1154 (BitVec.ofNat 64 pn))
    (payload dcid scid hello) = text at hopen hsealed ⊢
  constructor
  · rw [List.length_append, hhead, hsealed]
  · refine ⟨_, (reads_initial hdcid hscid hpn hsealed).all.exactly_eq, by rw [hsealed], payload dcid scid hello, k, ?_,
      hframes.exactly_eq⟩
    have hcut : (header dcid scid 1154 (BitVec.ofNat 64 pn) ++ text).take
        ((header dcid scid 1154 (BitVec.ofNat 64 pn) ++ text).length - text.length)
        = header dcid scid 1154 (BitVec.ofNat 64 pn) := by
      rw [List.length_append, Nat.add_sub_cancel, List.take_left]
    rw [Quic.Initial.header, hcut]
    exact hopen

/-- **The disguise is well formed for every name and whatever is drawn**: the hello, the packet
around it, and every integer of variable length are read back. -/
theorem well_formed (sni : String) (hpos : 1 ≤ (utf8 sni).length) (hmax : (utf8 sni).length ≤ 253) :
    Draw.Returns (clientHello sni) (Greets sni)
      ∧ Draw.Returns (packet C sni) (fun out => ∃ dcid scid hello pn,
          out = protect C (hp C dcid) 26 (unprotected C dcid scid hello pn) ∧ out.length = 1200
            ∧ (∃ r, (clientHello sni r).1 = some hello) ∧ Greets sni hello ∧ Disguises C hello (unprotected C dcid scid hello pn))
      ∧ ∀ v < 2 ^ 62, exactly Quic.varint (varint (BitVec.ofNat 64 v)) = some v := by
  refine ⟨(returns_clientHello hpos hmax).mono fun hello h => h.1, ?_, fun v hv => (reads_varint hv).all.exactly_eq⟩
  refine (returns_nextBytes 8).bind fun dcid hdcid => (returns_nextBytes 8).bind fun scid hscid =>
    (returns_clientHello hpos hmax).drawn.bind fun hello hhello => (Draw.returns_nextInt (by omega)).bind fun pn hpn =>
    Draw.returns_pure ?_
  obtain ⟨n, rfl⟩ := Int.eq_ofNat_of_zero_le hpn.1
  have hdisguise := disguises C hdcid hscid hhello.1.2 n (by omega)
  rw [← BitVec.ofInt_natCast] at hdisguise
  refine ⟨dcid, scid, hello, BitVec.ofInt 64 n, ?_, ?_, hhello.2, hhello.1.1, hdisguise⟩
  · rw [length_header hdcid hscid]
    rfl
  · rw [length_protect]
    exact hdisguise.size

end

/-- A seal of 16 zeros, for examples. -/
def plainGcm : Gcm AesKey where
  encrypt _ _ _ text := text ++ List.replicate 16 0
  decrypt _ _ _ bytes := if 16 ≤ bytes.length then some (bytes.take (bytes.length - 16)) else none
  length_encrypt _ _ _ text := by rw [List.length_append, List.length_replicate]
  decrypt_encrypt _ _ _ text := by simp

def plainCrypto : Crypto where
  hmac _ _ := List.replicate 32 0
  gcm := plainGcm
  ecb _ block := block

/-- A name of five letters, with a cipher that changes nothing. -/
theorem well_formed_ya :
    Draw.Returns (packet plainCrypto "ya.ru") fun out => ∃ dcid scid hello pn,
      out = protect plainCrypto (hp plainCrypto dcid) 26 (unprotected plainCrypto dcid scid hello pn) ∧ out.length = 1200
        ∧ (∃ r, (clientHello "ya.ru" r).1 = some hello) ∧ Greets "ya.ru" hello
        ∧ Disguises plainCrypto hello (unprotected plainCrypto dcid scid hello pn) :=
  (well_formed plainCrypto "ya.ru" (by decide) (by decide +kernel)).2.1

end QuicInitial

end VlessCard
