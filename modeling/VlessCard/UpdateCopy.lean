/-
`UpdatePolicy.copyVerified`: an update is written while it is downloaded, and it is accepted only
as what was announced.

The loop reads, writes and hashes piece by piece, and may end in six ways: at the end of the
input, with an exception of the input, the output or the caller's `progress`, or with a failed
requirement. How the input is cut into pieces is up to the input. One invariant carries the loop:
what was written, what was hashed and what was counted are the bytes read so far. SHA-256 is a
function of bytes of which nothing is known.
-/
import Mathlib.Data.Int.Cast.Lemmas
import Mathlib.Data.List.Basic

set_option autoImplicit false

namespace VlessCard.UpdatePolicy

/-! ## Streams

The stream is a list of turns, each with what is read and what may be thrown in it. So a call is
any cutting of the input and any failure. -/

/-- The size of the buffer. -/
def BUFFER : ℕ := 65536

/-- What one `input.read(buf)` does. -/
inductive Read where
  | chunk (bytes : List UInt8) (fits : bytes.length ≤ BUFFER)
  | eof
  | failed

/-- One turn of the loop: what is read, after how many bytes the write throws, if it does, and
whether `progress` throws. -/
structure Turn where
  read : Read
  writeFails : Option ℕ := none
  progressFails : Bool := false

/-- Where an exception comes from. -/
inductive Thrown where
  | illegalArgument (message : String)
  | input
  | output
  | progress

inductive Result where
  | returned (n : Int64)
  | thrown (e : Thrown)
  | running

/-- How far a call got, and what it wrote. -/
structure Outcome where
  result : Result
  written : List UInt8

/-! ## `copyVerified`

A turn reads a piece, checks its size, writes it and updates the digest. Behind the loop the size
and the digest are compared with what was promised. -/

section

variable (sha256 : List UInt8 → List UInt8)

/-- `"%02x".format(it)`. -/
def hexByte (b : UInt8) : List Char := [Nat.digitChar (b.toNat / 16), Nat.digitChar (b.toNat % 16)]

/-- `md.digest().joinToString("") \x7b "%02x".format(it) \x7d`. -/
def digest (bytes : List UInt8) : String := .ofList ((sha256 bytes).flatMap hexByte)

/-- `^[0-9a-f]\x7b64\x7d$`. -/
def isSha (sha : String) : Bool :=
  sha.toList.length = 64 && sha.toList.all fun c => decide (c ∈ "0123456789abcdef".toList)

/-- What the loop holds: `done`, the file and what `md` was given. -/
structure State where
  done : Int64
  written : List UInt8
  hashed : List UInt8

def start : State := { done := 0, written := [], hashed := [] }

/-- The checks behind the loop. -/
def finish (sha : String) (length : Int64) (st : State) : Result :=
  if ¬(0 < st.done ∧ (length = -1 ∨ st.done = length)) then .thrown (.illegalArgument "APK скачался не полностью")
  else if digest sha256 st.hashed ≠ sha then
    .thrown (.illegalArgument "Контрольная сумма APK не совпала — установка остановлена")
  else .returned st.done

/-- One turn. -/
def turn (sha : String) (length max : Int64) (st : State) (t : Turn) : Outcome ⊕ State :=
  match t.read with
  | .failed => .inl ⟨.thrown .input, st.written⟩
  | .eof => .inl ⟨finish sha256 sha length st, st.written⟩
  | .chunk bytes _ =>
    let n := Int64.ofNat bytes.length
    if ¬ n ≤ max - st.done then .inl ⟨.thrown (.illegalArgument "APK превышает допустимый размер"), st.written⟩
    else
      match t.writeFails with
      | some k => .inl ⟨.thrown .output, st.written ++ bytes.take k⟩
      | none =>
        let next : State := { done := st.done + n, written := st.written ++ bytes, hashed := st.hashed ++ bytes }
        if t.progressFails then .inl ⟨.thrown .progress, next.written⟩ else .inr next

/-- The loop, for as many turns as there are. -/
def copyLoop (sha : String) (length max : Int64) (st : State) : List Turn → Outcome
  | [] => ⟨.running, st.written⟩
  | t :: rest =>
    match turn sha256 sha length max st t with
    | .inl outcome => outcome
    | .inr next => copyLoop sha length max next rest

def copyVerified (sha : String) (length max : Int64) (turns : List Turn) : Outcome :=
  if ¬ isSha sha then ⟨.thrown (.illegalArgument "Failed requirement."), []⟩
  else if ¬(0 < max ∧ length ≤ max ∧ -1 ≤ length) then ⟨.thrown (.illegalArgument "Недопустимый размер APK"), []⟩
  else copyLoop sha256 sha length max start turns

end

/-! ## What the input holds

What the input gives until it ends or throws. This is what the file is compared with. -/

/-- The bytes the input gives before it ends. -/
def contents : List Turn → List UInt8
  | [] => []
  | t :: rest =>
    match t.read with
    | .chunk bytes _ => bytes ++ contents rest
    | .eof => []
    | .failed => []

/-- Whether the input is read to its end. -/
def Ended : List Turn → Prop
  | [] => False
  | t :: rest =>
    match t.read with
    | .chunk _ _ => Ended rest
    | .eof => True
    | .failed => False

/-! ## The invariant

The file, the digest and the counter are all of the bytes read so far. The counter does not
overflow as these are few enough. -/

/-- The file, the digest and the counter are of the bytes read so far, and these are few enough. -/
structure Copied (max : Int64) (bytes : List UInt8) (st : State) : Prop where
  written : st.written = bytes
  hashed : st.hashed = bytes
  done : st.done.toInt = bytes.length
  le : (bytes.length : ℤ) ≤ max.toInt

theorem copied_start {max : Int64} (hmax : 0 < max) : Copied max [] start := by
  have hpos : (0 : Int64).toInt < max.toInt := Int64.lt_iff_toInt_lt.mp hmax
  have hzero : (0 : Int64).toInt = 0 := by decide
  exact ⟨rfl, rfl, by decide, by rw [List.length_nil]; omega⟩

theorem toInt_ofNat {n : ℕ} (h : n ≤ BUFFER) : (Int64.ofNat n).toInt = n := by
  unfold BUFFER at h
  exact Int64.toInt_ofNat_of_lt (by omega)

/-- What is left of `max`, without overflow. -/
theorem toInt_left {max : Int64} {bytes : List UInt8} {st : State} (h : Copied max bytes st) :
    (max - st.done).toInt = max.toInt - bytes.length := by
  have hle := h.le
  have hmax : max.toInt < 2 ^ 63 := Int64.toInt_lt max
  rw [Int64.toInt_sub, h.done]
  exact Int.bmod_eq_of_le (by omega) (by omega)

/-- One piece more. -/
theorem copied_append {max : Int64} {bytes piece : List UInt8} {st : State} (h : Copied max bytes st)
    (hpiece : piece.length ≤ BUFFER) (hroom : Int64.ofNat piece.length ≤ max - st.done) :
    Copied max (bytes ++ piece) { done := st.done + Int64.ofNat piece.length, written := st.written ++ piece,
                                  hashed := st.hashed ++ piece } := by
  have hlen := toInt_ofNat hpiece
  have hfits := Int64.le_iff_toInt_le.mp hroom
  rw [hlen, toInt_left h] at hfits
  have hmax : max.toInt < 2 ^ 63 := Int64.toInt_lt max
  refine ⟨?_, ?_, ?_, ?_⟩
  · rw [h.written]
  · rw [h.hashed]
  · change (st.done + Int64.ofNat piece.length).toInt = _
    rw [Int64.toInt_add, h.done, hlen, List.length_append]
    push_cast
    exact Int.bmod_eq_of_le (by omega) (by omega)
  · rw [List.length_append]
    push_cast
    omega

/-! ## Runs of the loop

A turn goes on with the invariant or ends the call, with a part of the input written. Only a call
whose checks all pass returns, and then all of it was written. -/

variable {sha256 : List UInt8 → List UInt8} {sha : String} {length max : Int64}

/-- What a returned size stands for. -/
structure Verified (sha256 : List UInt8 → List UInt8) (sha : String) (length max n : Int64) (bytes : List UInt8) :
    Prop where
  size : n.toInt = bytes.length
  pos : 1 ≤ n
  le : n ≤ max
  announced : length ≠ -1 → n = length
  digest : digest sha256 bytes = sha

theorem verified_finish {bytes : List UInt8} {st : State} (h : Copied max bytes st) {n : Int64}
    (hn : finish sha256 sha length st = .returned n) : Verified sha256 sha length max n bytes := by
  unfold finish at hn
  split at hn
  · cases hn
  · rename_i hsize
    split at hn
    · cases hn
    · rename_i hdigest
      obtain ⟨hpos, hlength⟩ := not_not.mp hsize
      cases hn
      have hzero : (0 : Int64).toInt = 0 := by decide
      have hone : (1 : Int64).toInt = 1 := by decide
      have hposInt : (0 : Int64).toInt < st.done.toInt := Int64.lt_iff_toInt_lt.mp hpos
      refine ⟨h.done, Int64.le_iff_toInt_le.mpr (by omega), Int64.le_iff_toInt_le.mpr ?_, fun hne => ?_, ?_⟩
      · rw [h.done]
        exact h.le
      · exact hlength.resolve_left hne
      · rw [← h.hashed]
        exact not_not.mp hdigest

/-- What is true however the call goes: the file is a part of the input, and a returned size stands
for all of it. `before` is what was read so far. -/
structure Faithful (sha256 : List UInt8 → List UInt8) (sha : String) (length max : Int64) (before : List UInt8)
    (turns : List Turn) (o : Outcome) : Prop where
  part : o.written <+: before ++ contents turns
  le : (o.written.length : ℤ) ≤ max.toInt
  whole : ∀ n, o.result = .returned n → Ended turns ∧ o.written = before ++ contents turns ∧
    Verified sha256 sha length max n o.written

/-- A call that does not return is asked for the bytes only. -/
theorem faithful_of_part {bytes : List UInt8} {turns : List Turn} {r : Result} {written : List UInt8}
    (hpart : written <+: bytes ++ contents turns) (hle : (written.length : ℤ) ≤ max.toInt)
    (hr : ∀ n, r ≠ .returned n) : Faithful sha256 sha length max bytes turns ⟨r, written⟩ :=
  ⟨hpart, hle, fun n hn => absurd hn (hr n)⟩

theorem contents_chunk {t : Turn} {piece : List UInt8} {hpiece : piece.length ≤ BUFFER}
    (h : t.read = .chunk piece hpiece) (rest : List Turn) : contents (t :: rest) = piece ++ contents rest := by
  rw [contents, h]

/-- A turn that goes on has read a piece and keeps the invariant. -/
theorem copied_turn {bytes : List UInt8} {st next : State} (h : Copied max bytes st) {t : Turn}
    (hturn : turn sha256 sha length max st t = .inr next) :
    ∃ piece hpiece, t.read = .chunk piece hpiece ∧ Copied max (bytes ++ piece) next := by
  unfold turn at hturn
  cases hread : t.read with
  | failed =>
    rw [hread] at hturn
    cases hturn
  | eof =>
    rw [hread] at hturn
    cases hturn
  | chunk piece hpiece =>
    rw [hread] at hturn
    dsimp only at hturn
    -- the piece is within what the size still allows
    by_cases hroom : Int64.ofNat piece.length ≤ max - st.done
    · rw [if_neg (not_not.mpr hroom)] at hturn
      cases hwrite : t.writeFails with
      | some k =>
        rw [hwrite] at hturn
        cases hturn
      | none =>
        rw [hwrite] at hturn
        dsimp only at hturn
        -- the caller can stop the copy between two pieces
        by_cases hprogress : t.progressFails = true
        · rw [if_pos hprogress] at hturn
          cases hturn
        · rw [if_neg hprogress] at hturn
          cases hturn
          exact ⟨piece, hpiece, rfl, copied_append h hpiece hroom⟩
    · rw [if_pos hroom] at hturn
      -- one byte past the size stops the copy before it is written
      cases hturn

/-- A turn that ends the call leaves a part of the input, and all of it when it returns. -/
theorem faithful_turn {bytes : List UInt8} {st : State} (h : Copied max bytes st) {t : Turn} {o : Outcome}
    (hturn : turn sha256 sha length max st t = .inl o) (rest : List Turn) :
    Faithful sha256 sha length max bytes (t :: rest) o := by
  have hbytes : st.written <+: bytes ++ contents (t :: rest) := by
    rw [h.written]
    exact List.prefix_append bytes _
  have hle : (st.written.length : ℤ) ≤ max.toInt := by
    rw [h.written]
    exact h.le
  unfold turn at hturn
  cases hread : t.read with
  | failed =>
    rw [hread] at hturn
    cases hturn
    exact faithful_of_part hbytes hle fun n hn => by cases hn
  | eof =>
    rw [hread] at hturn
    cases hturn
    refine ⟨hbytes, hle, fun n hn => ⟨?_, ?_, ?_⟩⟩
    · rw [Ended, hread]
      trivial
    · rw [contents, hread, List.append_nil]
      exact h.written
    · dsimp only
      rw [h.written]
      exact verified_finish h hn
  | chunk piece hpiece =>
    rw [hread] at hturn
    dsimp only at hturn
    by_cases hroom : Int64.ofNat piece.length ≤ max - st.done
    · have hnext := copied_append h hpiece hroom
      rw [if_neg (not_not.mpr hroom)] at hturn
      cases hwrite : t.writeFails with
      | some k =>
        rw [hwrite] at hturn
        cases hturn
        -- the bytes that got out are a part of the piece
        have htake : piece.take k <+: piece := List.take_prefix k piece
        apply faithful_of_part _ _ fun n hn => by cases hn
        · rw [contents_chunk hread, h.written]
          exact (List.prefix_append_right_inj bytes).mpr (htake.trans (List.prefix_append piece _))
        · have hshort := htake.length_le
          have hall := hnext.le
          rw [h.written]
          rw [List.length_append] at hall ⊢
          push_cast at hall ⊢
          omega
      | none =>
        rw [hwrite] at hturn
        dsimp only at hturn
        by_cases hprogress : t.progressFails = true
        · rw [if_pos hprogress] at hturn
          cases hturn
          apply faithful_of_part _ _ fun n hn => by cases hn
          · rw [contents_chunk hread, h.written, ← List.append_assoc]
            exact List.prefix_append _ _
          · rw [h.written]
            exact hnext.le
        · rw [if_neg hprogress] at hturn
          cases hturn
    · rw [if_pos hroom] at hturn
      cases hturn
      exact faithful_of_part hbytes hle fun n hn => by cases hn

/-- **A run writes what it reads.** -/
theorem faithful_copyLoop {bytes : List UInt8} {st : State} (h : Copied max bytes st) (turns : List Turn) :
    Faithful sha256 sha length max bytes turns (copyLoop sha256 sha length max st turns) := by
  induction turns generalizing bytes st with
  | nil =>
    apply faithful_of_part _ _ fun n hn => by cases hn
    · rw [h.written]
      exact List.prefix_append bytes _
    · rw [h.written]
      exact h.le
  | cons t rest ih =>
    unfold copyLoop
    cases hturn : turn sha256 sha length max st t with
    | inl o => exact faithful_turn h hturn rest
    | inr next =>
      obtain ⟨piece, hpiece, hread, hnext⟩ := copied_turn h hturn
      have hrest := ih hnext
      refine ⟨?_, hrest.le, fun n hn => ?_⟩
      · rw [contents_chunk hread, ← List.append_assoc]
        exact hrest.part
      · obtain ⟨hend, hall, hverified⟩ := hrest.whole n hn
        refine ⟨?_, ?_, hverified⟩
        · rw [Ended, hread]
          exact hend
        · rw [contents_chunk hread, ← List.append_assoc]
          exact hall

/-- **The file is what was verified.** However the reads are cut and whatever throws, the bytes
written are the beginning of the input and `max` at most, none where `max` is not positive; and when
a size is returned, the input was read to its end, the bytes written are all of it, as many as
returned and as many as announced, and their digest is the expected one. -/
theorem copyVerified_spec (sha256 : List UInt8 → List UInt8) (sha : String) (length max : Int64) (turns : List Turn) :
    ((copyVerified sha256 sha length max turns).written <+: contents turns ∧
        (copyVerified sha256 sha length max turns).written.length ≤ max.toInt.toNat) ∧
      ∀ n, (copyVerified sha256 sha length max turns).result = .returned n →
        Ended turns ∧ (copyVerified sha256 sha length max turns).written = contents turns ∧
          n.toInt = (contents turns).length ∧ 1 ≤ n ∧ n ≤ max ∧ (length ≠ -1 → n = length) ∧
          digest sha256 (contents turns) = sha := by
  unfold copyVerified
  by_cases hsha : isSha sha = true
  · rw [if_neg (not_not.mpr hsha)]
    by_cases hsize : 0 < max ∧ length ≤ max ∧ -1 ≤ length
    · rw [if_neg (not_not.mpr hsize)]
      have h : Faithful sha256 sha length max [] turns (copyLoop sha256 sha length max start turns) :=
        faithful_copyLoop (copied_start hsize.1) turns
      have hle := h.le
      refine ⟨⟨h.part, by omega⟩, fun n hn => ?_⟩
      obtain ⟨hend, hall, hv⟩ := h.whole n hn
      rw [List.nil_append] at hall
      rw [hall] at hv
      exact ⟨hend, hall, hv.size, hv.pos, hv.le, hv.announced, hv.digest⟩
    · rw [if_pos hsize]
      exact ⟨⟨List.nil_prefix, Nat.zero_le _⟩, fun n hn => by cases hn⟩
  · rw [if_pos hsha]
    exact ⟨⟨List.nil_prefix, Nat.zero_le _⟩, fun n hn => by cases hn⟩

end VlessCard.UpdatePolicy
