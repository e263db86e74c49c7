/-
What a strict reader makes of a TLS 1.3 ClientHello and of a QUIC version 1 Initial.

The grammars are the standards', with every length checked against what it announces and
every list read to its end. An extension the reader does not know is kept as it is. Of the
QUIC frames only those of a client's first flight are read, any other is refused.
-/
import VlessCard.Wire

set_option autoImplicit false

namespace VlessCard

open Wire

/-! ## QUIC integers

An integer of variable length carries its own length in its first two bits. Parameters are pairs
of such an integer and a value behind its length. -/

namespace Quic

/-- An integer of variable length: the two highest bits of the first byte say how long. -/
def varint : Reader ℕ := do
  let first ← uint 1
  let more ← uint (2 ^ (first / 64) - 1)
  return first % 64 * 256 ^ (2 ^ (first / 64) - 1) + more

/-- The integers of each length are read back. -/
theorem reads_varint {c n : ℕ} (hc : c < 4) (hn : n < 64 * 256 ^ (2 ^ c - 1)) :
    Reads varint (bigEndian (2 ^ c) (c * 64 * 256 ^ (2 ^ c - 1) + n)) n := by
  obtain ⟨k, hk⟩ : ∃ k, 2 ^ c = k + 1 := ⟨2 ^ c - 1, by have := Nat.two_pow_pos c; omega⟩
  have hk' : 2 ^ c - 1 = k := by omega
  rw [hk'] at hn
  have hpos : 0 < 256 ^ k := Nat.pow_pos (by omega)
  have hsmall : n / 256 ^ k < 64 := Nat.div_lt_of_lt_mul (by rwa [Nat.mul_comm] at hn)
  have hsum : n / 256 ^ k * 256 ^ k + n % 256 ^ k = n := Nat.div_add_mod' n _
  rw [hk', hk, bigEndian_mark, ← bigEndian_mod k n, ← List.singleton_append, ← bigEndian_one]
  generalize n / 256 ^ k = high at hsmall hsum ⊢
  have hmark : (c * 64 + high) / 64 = c := by omega
  have hrest : (c * 64 + high) % 64 = high := by omega
  refine (reads_uint (by omega)).bind ?_
  rw [hmark, hrest, hk']
  refine (reads_uint (Nat.mod_lt n hpos)).bind_last ?_
  rw [hsum]
  exact Reads.pure n

/-- The value of a transport parameter: most are one integer. -/
inductive Parameter where
  | integer (n : ℕ)
  | bytes (value : List UInt8)
  deriving DecidableEq

/-- The transport parameters that are one integer. -/
def integerParameters : List ℕ := [0x01, 0x03, 0x04, 0x05, 0x06, 0x07, 0x08, 0x09, 0x0a, 0x0b, 0x0e]

def parameterValue (id : ℕ) : Reader Parameter :=
  if id ∈ integerParameters then Parameter.integer <$> varint else Parameter.bytes <$> remaining

def transportParameter : Reader (ℕ × Parameter) := do
  let id ← varint
  let length ← varint
  let value ← within length (parameterValue id)
  return (id, value)

end Quic

/-! ## The ClientHello

The grammar of the hello is that of the standard, with the extensions that matter read to their
ends. Anything left over makes the strict reader refuse. -/

namespace Tls

inductive Extension where
  | serverName (names : List (List UInt8))
  | supportedGroups (groups : List ℕ)
  | signatureAlgorithms (schemes : List ℕ)
  | alpn (protocols : List (List UInt8))
  | supportedVersions (versions : List ℕ)
  | pskModes (modes : List ℕ)
  | keyShare (shares : List (ℕ × List UInt8))
  | quicTransportParameters (parameters : List (ℕ × Quic.Parameter))
  | other (data : List UInt8)
  deriving DecidableEq

structure ClientHello where
  random : List UInt8
  sessionId : List UInt8
  cipherSuites : List ℕ
  extensions : List (ℕ × Extension)
  deriving DecidableEq

/-- The only kind of name there is is a host name. -/
def hostName : Reader (List UInt8) := do
  let kind ← uint 1
  ensure (kind = 0)
  vector 2 1 65535 remaining

def keyShareEntry : Reader (ℕ × List UInt8) := do
  let group ← uint 2
  let key ← vector 2 1 65535 remaining
  return (group, key)

/-- What an extension of a type holds. -/
def content : ℕ → Reader Extension
  | 0 => Extension.serverName <$> vector 2 1 65535 (many hostName)
  | 10 => Extension.supportedGroups <$> vector 2 2 65535 (many (uint 2))
  | 13 => Extension.signatureAlgorithms <$> vector 2 2 65534 (many (uint 2))
  | 16 => Extension.alpn <$> vector 2 2 65535 (many (vector 1 1 255 remaining))
  | 43 => Extension.supportedVersions <$> vector 1 2 254 (many (uint 2))
  | 45 => Extension.pskModes <$> vector 1 1 255 (many (uint 1))
  | 51 => Extension.keyShare <$> vector 2 0 65535 (many keyShareEntry)
  | 57 => Extension.quicTransportParameters <$> many Quic.transportParameter
  | _ => Extension.other <$> remaining

def extension : Reader (ℕ × Extension) := do
  let type ← uint 2
  let data ← vector 2 0 65535 (content type)
  return (type, data)

def clientHelloBody : Reader ClientHello := do
  let version ← uint 2
  ensure (version = 0x0303)
  let random ← Wire.take 32
  let sessionId ← vector 1 0 32 remaining
  let cipherSuites ← vector 2 2 65534 (many (uint 2))
  let compression ← vector 1 1 255 remaining
  ensure (compression = [0])
  let extensions ← vector 2 8 65535 (many extension)
  ensure (extensions.map Prod.fst).Nodup
  return { random, sessionId, cipherSuites, extensions }

/-- A handshake message of type 1. -/
def clientHello : Reader ClientHello := do
  let kind ← uint 1
  ensure (kind = 1)
  vector 3 0 16777215 clientHelloBody

end Tls

/-! ## The Initial packet

The header has the version, two connection ids, a token and the length of the rest. The payload
is a list of frames, of which a client's first flight uses two. -/

namespace Quic

structure Initial where
  dcid : List UInt8
  scid : List UInt8
  token : List UInt8
  /-- The value of the length field. -/
  length : ℕ
  /-- The bytes of the packet number, and the packet number. -/
  numberLength : ℕ
  number : ℕ
  /-- What follows the packet number. -/
  payload : List UInt8

/-- An Initial without header protection, to the end of the datagram. -/
def initial : Reader Initial := do
  let first ← uint 1
  -- a long header with the fixed bit, of type Initial, its reserved bits clear
  ensure (first / 4 = 48)
  let version ← uint 4
  ensure (version = 1)
  let dcid ← vector 1 0 20 remaining
  let scid ← vector 1 0 20 remaining
  let tokenLength ← varint
  let token ← Wire.take tokenLength
  let length ← varint
  let numberLength := first % 4 + 1
  ensure (numberLength ≤ length)
  let number ← uint numberLength
  let payload ← Wire.take (length - numberLength)
  return { dcid, scid, token, length, numberLength, number, payload }

/-- The part of the datagram that the payload's seal covers besides the payload. -/
def Initial.header (p : Initial) (datagram : List UInt8) : List UInt8 :=
  datagram.take (datagram.length - p.payload.length)

/-- The frames of a client's first flight. -/
inductive Frame where
  | padding
  | ping
  | crypto (offset : ℕ) (data : List UInt8)
  deriving DecidableEq

def frame : Reader Frame := do
  let type ← varint
  match type with
  | 0 => return .padding
  | 1 => return .ping
  | 6 =>
    let offset ← varint
    let length ← varint
    let data ← Wire.take length
    return .crypto offset data
  | _ => failure

end Quic

end VlessCard
