/-
`TelegramProbe.validResponse`: whether an answer is `resPQ` of MTProto for the nonce that was
sent.

A cursor moves over the answer, and reading past the end is an exception, which counts as no. What
is accepted is read off step by step: each step takes a field of known length off the front, and
says what the field must be. So the fields together are the whole answer, and nothing is left.
-/
import VlessCard.Wire

set_option autoImplicit false

namespace VlessCard.TelegramProbe

open Wire

/-! ## `validResponse`

The bytes are read in order, little-endian and with signs as the JVM has them. Any check that
fails makes the answer no. -/

/-- `b.long`. -/
def long : Reader Int64 := do return Int64.ofNat (ofLittle (← take 8))

/-- `b.int`. -/
def int : Reader Int32 := do return Int32.ofNat (ofLittle (← take 4))

/-- What stands behind the string: the constructor of a vector, its count and its members. -/
def fingerprints : Reader Bool := do
  let constructor ← int
  if constructor ≠ 0x1cb5c415 then return false
  else do
    let count ← int
    let remaining ← left
    return 1 ≤ count && count ≤ 16 && (remaining : ℤ) = count.toInt * 8

/-- The string and its padding, to a whole number of words. -/
def pq : Reader Bool := do
  let head ← take 1
  let len := ofLittle head
  let remaining ← left
  if ¬(1 ≤ len ∧ len ≤ 8) ∨ remaining < len + (4 - (len + 1) % 4) % 4 + 8 then return false
  else do
    let _ ← take (len + (4 - (len + 1) % 4) % 4)
    fingerprints

/-- The body: its constructor, the nonce, the server's nonce and the rest. -/
def body (nonce : List UInt8) : Reader Bool := do
  let constructor ← int
  if constructor ≠ 0x05162463 then return false
  else do
    let got ← take 16
    if got ≠ nonce then return false
    else do
      let _ ← take 16
      pq

/-- The frame of an unencrypted message. -/
def message (size : ℕ) (nonce : List UInt8) : Reader Bool := do
  let authKey ← long
  if authKey ≠ 0 then return false
  else do
    let _ ← take 8
    let length ← int
    if length ≠ Int32.ofNat size - 20 then return false
    else body nonce

def validResponse (bytes nonce : List UInt8) : Bool :=
  if nonce.length ≠ 16 ∨ ¬(76 ≤ bytes.length ∧ bytes.length ≤ 4096) ∨ bytes.length % 4 ≠ 0 then false
  else
    match (message bytes.length nonce).run bytes with
    | some (valid, _) => valid
    | none => false

/-! ## `resPQ`

The serialisation of the answer, as the schema of the protocol describes it. -/

/-- How many bytes fill a string of `len` bytes and its length up to whole words. -/
def fill (len : ℕ) : ℕ := (4 - (len + 1) % 4) % 4

/-- A short string of TL, with its padding. -/
def tlBytes (bytes padding : List UInt8) : List UInt8 := littleEndian 1 bytes.length ++ (bytes ++ padding)

/-- A vector of TL. -/
def tlVector (members : List (List UInt8)) : List UInt8 :=
  littleEndian 4 0x1cb5c415 ++ (littleEndian 4 members.length ++ members.flatten)

/-- `resPQ nonce server_nonce pq fingerprints`. -/
def resPQ (nonce serverNonce pq padding : List UInt8) (fingerprints : List (List UInt8)) : List UInt8 :=
  littleEndian 4 0x05162463 ++ (nonce ++ (serverNonce ++ (tlBytes pq padding ++ tlVector fingerprints)))

/-- An unencrypted message. -/
def unencrypted (messageId body : List UInt8) : List UInt8 :=
  littleEndian 8 0 ++ (messageId ++ (littleEndian 4 body.length ++ body))

/-! ## The fields, one by one

An integer that is compared with a constant is one row of bytes. A length is a count once it is
known not to be negative. -/

theorem accepts_int (f : Int32 → Reader Bool) (bytes : List UInt8) :
    Accepts (int >>= f) bytes ↔
      ∃ front rest, front.length = 4 ∧ bytes = front ++ rest ∧ Accepts (f (Int32.ofNat (ofLittle front))) rest := by
  rw [int, bind_assoc, accepts_take]
  simp only [pure_bind]

theorem accepts_long (f : Int64 → Reader Bool) (bytes : List UInt8) :
    Accepts (long >>= f) bytes ↔
      ∃ front rest, front.length = 8 ∧ bytes = front ++ rest ∧ Accepts (f (Int64.ofNat (ofLittle front))) rest := by
  rw [long, bind_assoc, accepts_take]
  simp only [pure_bind]

/-- An `int` is the number of one row of four bytes. -/
theorem int_eq_iff {front : List UInt8} (h : front.length = 4) {n : ℕ} (hn : n < 2 ^ 32) :
    Int32.ofNat (ofLittle front) = Int32.ofNat n ↔ front = littleEndian 4 n := by
  have hlt : ofLittle front < 2 ^ 32 := ofLittle_lt_of_length h (by decide)
  rw [← ofLittle_eq_iff h hn, ← Int32.toBitVec_inj, Int32.toBitVec_ofNat', Int32.toBitVec_ofNat', ← BitVec.toNat_inj,
    BitVec.toNat_ofNat, BitVec.toNat_ofNat, Nat.mod_eq_of_lt hlt, Nat.mod_eq_of_lt hn]

theorem long_eq_zero_iff {front : List UInt8} (h : front.length = 8) :
    Int64.ofNat (ofLittle front) = 0 ↔ front = littleEndian 8 0 := by
  have hlt : ofLittle front < 2 ^ 64 := ofLittle_lt_of_length h (by decide)
  rw [← ofLittle_eq_iff h (by decide), ← Int64.toBitVec_inj, Int64.toBitVec_ofNat', ← BitVec.toNat_inj,
    BitVec.toNat_ofNat, Nat.mod_eq_of_lt hlt]
  rfl

/-- A count that is not negative as an `int`. -/
theorem count_iff {n : ℕ} (hn : n < 2 ^ 32) :
    1 ≤ Int32.ofNat n ∧ Int32.ofNat n ≤ 16 ↔ 1 ≤ n ∧ n ≤ 16 := by
  have hone : (1 : Int32).toInt = 1 := by decide
  have hsixteen : (16 : Int32).toInt = 16 := by decide
  rw [Int32.le_iff_toInt_le, Int32.le_iff_toInt_le, hone, hsixteen, Int32.toInt_ofNat', Int.bmod_def]
  unfold Int32.size
  omega

theorem toInt_count {n : ℕ} (hn : n ≤ 16) : (Int32.ofNat n).toInt = n := Int32.toInt_ofNat_of_lt (by omega)

/-! ## What is accepted

Each reader accepts exactly the bytes of its field. The form of the whole is put together of
these, in the order of the reads. -/

/-- A vector of one fingerprint to sixteen. -/
structure Fingerprints (members : List (List UInt8)) : Prop where
  one : 1 ≤ members.length
  sixteen : members.length ≤ 16
  long : ∀ f ∈ members, f.length = 8

theorem accepts_fingerprints (bytes : List UInt8) :
    Accepts fingerprints bytes ↔ ∃ members, Fingerprints members ∧ bytes = tlVector members := by
  unfold fingerprints
  rw [accepts_int]
  constructor
  · rintro ⟨front, rest, hfront, rfl, h⟩
    rw [accepts_unless, not_not, accepts_int] at h
    obtain ⟨hname, count, rest, hcount, rfl, h⟩ := h
    rw [accepts_left, accepts_pure] at h
    simp only [Bool.and_eq_true, decide_eq_true_eq] at h
    obtain ⟨hrange, hlen⟩ := h
    have hlt : ofLittle count < 2 ^ 32 := ofLittle_lt_of_length hcount (by decide)
    have hbounds := (count_iff hlt).mp hrange
    rw [toInt_count hbounds.2] at hlen
    have hrest : rest.length = ofLittle count * 8 := by omega
    obtain ⟨members, hmembers, hlong, hflat⟩ := exists_fields hrest
    refine ⟨members, ⟨by omega, by omega, hlong⟩, ?_⟩
    have hcountEq : count = littleEndian 4 members.length := (ofLittle_eq_iff hcount (by omega)).mp hmembers.symm
    rw [tlVector, (int_eq_iff hfront (by decide)).mp hname, hcountEq, hflat]
  · rintro ⟨members, hm, rfl⟩
    have hsmall : members.length < 2 ^ 32 := lt_of_le_of_lt hm.sixteen (by decide)
    refine ⟨littleEndian 4 0x1cb5c415, _, length_littleEndian 4 _, rfl, ?_⟩
    rw [accepts_unless, not_not, accepts_int]
    refine ⟨(int_eq_iff (length_littleEndian 4 _) (by decide)).mpr rfl, littleEndian 4 members.length, _,
      length_littleEndian 4 _, rfl, ?_⟩
    rw [accepts_left, accepts_pure, ofLittle_littleEndian hsmall, length_flatten_fields hm.long, toInt_count hm.sixteen]
    simp only [Bool.and_eq_true, decide_eq_true_eq]
    exact ⟨(count_iff hsmall).mpr ⟨hm.one, hm.sixteen⟩, by push_cast; rfl⟩

/-- A string of one byte to eight, filled up to whole words. -/
structure ShortString (pq padding : List UInt8) : Prop where
  one : 1 ≤ pq.length
  eight : pq.length ≤ 8
  filled : padding.length = fill pq.length

/-- Its head has eight bytes, and each member eight more. -/
theorem length_tlVector {members : List (List UInt8)} (h : Fingerprints members) :
    (tlVector members).length = 8 + members.length * 8 := by
  rw [tlVector, List.length_append, List.length_append, length_littleEndian, length_littleEndian,
    length_flatten_fields h.long]
  omega

theorem accepts_pq (bytes : List UInt8) :
    Accepts pq bytes ↔ ∃ s padding members, ShortString s padding ∧ Fingerprints members ∧
      bytes = tlBytes s padding ++ tlVector members := by
  unfold pq
  rw [accepts_take]
  constructor
  -- from the form to its parts: the head byte is the length of the string
  · rintro ⟨head, rest, hhead, rfl, h⟩
    rw [accepts_left, accepts_unless, accepts_take] at h
    obtain ⟨hlen, text, rest, htext, rfl, h⟩ := h
    obtain ⟨members, hm, rfl⟩ := (accepts_fingerprints rest).mp h
    rw [not_or, not_not] at hlen
    have htake : (text.take (ofLittle head)).length = ofLittle head := by
      rw [List.length_take]
      omega
    have hdrop : (text.drop (ofLittle head)).length = fill (ofLittle head) := by
      rw [List.length_drop, htext, fill]
      omega
    refine ⟨text.take (ofLittle head), text.drop (ofLittle head), members, ⟨?_, ?_, ?_⟩, hm, ?_⟩
    · rw [htake]
      exact hlen.1.1
    · rw [htake]
      exact hlen.1.2
    · rw [htake, hdrop]
    · have hheadEq : littleEndian 1 (ofLittle head) = head := by
        rw [← hhead, littleEndian_ofLittle]
      rw [tlBytes, htake, hheadEq, List.take_append_drop, List.append_assoc]
  -- from the parts to the form: the head byte is written from the string
  · rintro ⟨s, padding, members, hs, hm, rfl⟩
    have hsmall : s.length < 256 := lt_of_le_of_lt hs.eight (by decide)
    refine ⟨littleEndian 1 s.length, (s ++ padding) ++ tlVector members, length_littleEndian 1 _, ?_, ?_⟩
    · rw [tlBytes, List.append_assoc]
    · have hfilled := hs.filled
      have hlong := length_tlVector hm
      have hone := hm.one
      unfold fill at hfilled
      rw [accepts_left, ofLittle_littleEndian hsmall, accepts_unless, accepts_take]
      refine ⟨?_, s ++ padding, tlVector members, ?_, rfl, (accepts_fingerprints _).mpr ⟨members, hm, rfl⟩⟩
      · rw [not_or, not_not, List.length_append, List.length_append, hlong]
        exact ⟨⟨hs.one, hs.eight⟩, by omega⟩
      · rw [List.length_append, hfilled]

/-- The body has both nonces before these. -/
theorem accepts_body (nonce bytes : List UInt8) (hnonce : nonce.length = 16) :
    Accepts (body nonce) bytes ↔ ∃ serverNonce s padding members, serverNonce.length = 16 ∧ ShortString s padding ∧
      Fingerprints members ∧ bytes = resPQ nonce serverNonce s padding members := by
  unfold body
  rw [accepts_int]
  constructor
  · rintro ⟨name, rest, hname, rfl, h⟩
    rw [accepts_unless, not_not, accepts_take] at h
    obtain ⟨hnameEq, got, rest, hgot, rfl, h⟩ := h
    rw [accepts_unless, not_not, accepts_take] at h
    obtain ⟨rfl, server, rest, hserver, rfl, h⟩ := h
    obtain ⟨s, padding, members, hs, hm, rfl⟩ := (accepts_pq rest).mp h
    refine ⟨server, s, padding, members, hserver, hs, hm, ?_⟩
    rw [(int_eq_iff hname (by decide)).mp hnameEq, resPQ]
  · rintro ⟨server, s, padding, members, hserver, hs, hm, rfl⟩
    refine ⟨littleEndian 4 0x05162463, _, length_littleEndian 4 _, rfl, ?_⟩
    rw [accepts_unless, not_not, accepts_take]
    refine ⟨(int_eq_iff (length_littleEndian 4 _) (by decide)).mpr rfl, nonce, _, hnonce, rfl, ?_⟩
    rw [accepts_unless, not_not, accepts_take]
    exact ⟨rfl, server, _, hserver, rfl, (accepts_pq _).mpr ⟨s, padding, members, hs, hm, rfl⟩⟩

/-- **A message is accepted just when it is the serialisation of an answer.** -/
theorem accepts_message (bytes nonce : List UInt8) (hsize : 20 ≤ bytes.length ∧ bytes.length ≤ 4096) :
    Accepts (message bytes.length nonce) bytes ↔
      ∃ messageId rest, messageId.length = 8 ∧ bytes = unencrypted messageId rest ∧ Accepts (body nonce) rest := by
  have hlength : Int32.ofNat bytes.length - 20 = Int32.ofNat (bytes.length - 20) := (Int32.ofNat_sub _ _ hsize.1).symm
  unfold message
  rw [accepts_long]
  -- the layout field by field, in the order the body reads them
  constructor
  · rintro ⟨auth, rest, hauth, hbytes, h⟩
    rw [accepts_unless, not_not, accepts_take] at h
    obtain ⟨hzero, messageId, rest, hid, rfl, h⟩ := h
    rw [accepts_int] at h
    obtain ⟨front, rest, hfront, rfl, h⟩ := h
    rw [accepts_unless, not_not, hlength, int_eq_iff hfront (by omega)] at h
    -- the length field says how many bytes follow it
    refine ⟨messageId, rest, hid, ?_, h.2⟩
    have hrest : bytes.length - 20 = rest.length := by
      rw [hbytes, List.length_append, List.length_append, List.length_append, hauth, hid, hfront]
      omega
    rw [hbytes, unencrypted, (long_eq_zero_iff hauth).mp hzero, h.1, hrest]
  · rintro ⟨messageId, rest, hid, hbytes, h⟩
    have hrest : bytes.length - 20 = rest.length := by
      rw [hbytes, unencrypted, List.length_append, List.length_append, List.length_append, length_littleEndian,
        length_littleEndian, hid]
      omega
    refine ⟨littleEndian 8 0, _, length_littleEndian 8 0, hbytes, ?_⟩
    rw [accepts_unless, not_not, accepts_take]
    refine ⟨(long_eq_zero_iff (length_littleEndian 8 0)).mpr rfl, messageId, _, hid, rfl, ?_⟩
    rw [accepts_int]
    refine ⟨littleEndian 4 rest.length, rest, length_littleEndian 4 _, rfl, ?_⟩
    rw [accepts_unless, not_not, hlength, hrest, int_eq_iff (length_littleEndian 4 _) (by omega)]
    exact ⟨rfl, h⟩

/-! ## Exactly `resPQ`

The form with its lengths is the serialisation, and the bounds on the lengths are those of the
reader. -/

theorem length_resPQ {nonce server s padding : List UInt8} {members : List (List UInt8)} (hnonce : nonce.length = 16)
    (hserver : server.length = 16) (hs : ShortString s padding) (hm : Fingerprints members) :
    (resPQ nonce server s padding members).length = 45 + s.length + fill s.length + members.length * 8 := by
  rw [resPQ, List.length_append, List.length_append, List.length_append, List.length_append, length_tlVector hm, tlBytes,
    List.length_append, List.length_append, length_littleEndian, length_littleEndian, hnonce, hserver, hs.filled]
  omega

/-- **The probe accepts exactly `resPQ`.** An answer is accepted when it is an unencrypted message of
at most 4096 bytes whose body is `resPQ` for the nonce that was sent, whatever the message's id, the
server's nonce, the number to factor and its padding, with one fingerprint to sixteen, and nothing
after it; any other row of bytes is refused. -/
theorem validResponse_iff (bytes nonce : List UInt8) (hnonce : nonce.length = 16) :
    validResponse bytes nonce = true ↔
      bytes.length ≤ 4096 ∧
        ∃ messageId serverNonce pq padding : List UInt8, ∃ members : List (List UInt8),
          messageId.length = 8 ∧ serverNonce.length = 16 ∧
          (1 ≤ pq.length ∧ pq.length ≤ 8) ∧ padding.length = (4 - (pq.length + 1) % 4) % 4 ∧
          (1 ≤ members.length ∧ members.length ≤ 16 ∧ ∀ f ∈ members, f.length = 8) ∧
          bytes = unencrypted messageId (resPQ nonce serverNonce pq padding members) := by
  -- the reader's answer is whether the bytes have the form
  have hrun : (match (message bytes.length nonce).run bytes with
      | some (valid, _) => valid
      | none => false) = true ↔ Accepts (message bytes.length nonce) bytes := by
    unfold Accepts
    cases (message bytes.length nonce).run bytes with
    | none => simp
    | some r => simp [Prod.ext_iff]
  unfold validResponse
  -- the checks on the length come before the form
  constructor
  · intro h
    split at h
    · cases h
    · rename_i hchecks
      rw [not_or, not_or, not_not, not_not, not_not] at hchecks
      obtain ⟨-, ⟨hleast, hmost⟩, -⟩ := hchecks
      obtain ⟨messageId, rest, hid, hbytes, hbody⟩ :=
        (accepts_message bytes nonce ⟨by omega, hmost⟩).mp (hrun.mp h)
      obtain ⟨server, s, padding, members, hserver, hs, hm, rfl⟩ := (accepts_body nonce rest hnonce).mp hbody
      exact ⟨hmost, messageId, server, s, padding, members, hid, hserver, ⟨hs.one, hs.eight⟩, hs.filled,
        ⟨hm.one, hm.sixteen, hm.long⟩, hbytes⟩
  · rintro ⟨hmost, messageId, server, s, padding, members, hid, hserver, ⟨hone, height⟩, hfilled,
      ⟨hleast, hsixteen, hlong⟩, hbytes⟩
    have hs : ShortString s padding := ⟨hone, height, hfilled⟩
    have hm : Fingerprints members := ⟨hleast, hsixteen, hlong⟩
    -- the parts leave the length within both limits
    have hsize : bytes.length = 65 + s.length + fill s.length + members.length * 8 := by
      rw [hbytes, unencrypted, List.length_append, List.length_append, List.length_append, length_littleEndian,
        length_littleEndian, hid, length_resPQ hnonce hserver hs hm]
      omega
    unfold fill at hsize
    rw [if_neg (by omega), hrun, accepts_message bytes nonce ⟨by omega, hmost⟩]
    exact ⟨messageId, _, hid, hbytes, (accepts_body nonce _ hnonce).mpr ⟨server, s, padding, members, hserver, hs, hm, rfl⟩⟩

/-- A number of eight bytes and one fingerprint. -/
theorem validResponse_iff_one :
    validResponse
      (unencrypted [1, 200, 131, 30, 201, 122, 229, 81]
        (resPQ (List.replicate 16 62) (List.replicate 16 165) [23, 237, 72, 148, 26, 8, 249, 129] [0, 0, 0]
          [[33, 107, 232, 108, 2, 43, 180, 195]]))
      (List.replicate 16 62) = true :=
  (validResponse_iff _ (List.replicate 16 62) (by decide)).mpr
    ⟨by decide, _, _, _, _, _, by decide, by decide, by decide, by decide, by decide, rfl⟩

end VlessCard.TelegramProbe
