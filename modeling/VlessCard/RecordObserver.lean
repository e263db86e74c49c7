/-
`tls_record_observer.py`: how many TLS records carried a ClientHello.

The counter sees a connection in whatever pieces the socket returns. It keeps the bytes of
the record that has begun, and of the handshake message the payloads of the records before
it have begun, and lets go of both as soon as the message is complete or cannot be one. So
two readers are nested, the message across the records and the record across the pieces,
and every early exit of either must come at the same byte however the stream was cut.
-/
import Mathlib
import VlessCard.Chunking

set_option autoImplicit false

namespace VlessCard.RecordObserver

open Chunking

def MAX_HELLO : ℕ := 65536

def MAX_RECORD : ℕ := 18432

/-- What `feed` returns: the records that carried the message, and its bytes. -/
structure Hello where
  records : ℕ
  bytes : ℕ
  deriving DecidableEq, Repr

/-- `ClientHelloCounter`. -/
structure Counter where
  wire : List UInt8 := []
  hello : List UInt8 := []
  records : ℕ := 0
  finished : Bool := false
  invalid : Bool := false
  deriving DecidableEq, Repr

namespace Counter

def stop (s : Counter) (invalid : Bool) : Counter :=
  { s with finished := true, invalid := invalid, wire := [], hello := [] }

/-- `self._wire.extend(data)`. -/
def extend (s : Counter) (data : List UInt8) : Counter := { s with wire := s.wire ++ data }

def retained_bytes (s : Counter) : ℕ := s.wire.length + s.hello.length

/-- `int.from_bytes(bytes, 'big')`. -/
def from_bytes (bytes : List UInt8) : ℕ := bytes.foldl (fun n b => n * 256 + b.toNat) 0

/-- What stands at the front of the wire. -/
inductive Front where
  | short
  | bad
  | record (payload rest : List UInt8)

/-- One look at the wire: a header of five bytes, its checks, and its payload. -/
def front : List UInt8 → Front
  | kind :: major :: minor :: hi :: lo :: rest =>
    let size := from_bytes [hi, lo]
    if kind ≠ 22 ∨ major ≠ 3 ∨ minor > 4 ∨ ¬(0 < size ∧ size ≤ MAX_RECORD) then .bad
    else if rest.length < size then .short
    else .record (rest.take size) (rest.drop size)
  | _ => .short

/-- What the payloads so far come to. -/
inductive Verdict where
  | more
  | bad
  | complete (bytes : ℕ)
  deriving DecidableEq

/-- The checks of the message: its type, and once its header is there its length. -/
def message (hello : List UInt8) : Verdict :=
  match hello with
  | [] => .more
  | kind :: rest =>
    if kind ≠ 1 then .bad
    else match rest with
      | a :: b :: c :: _ =>
        let expected := 4 + from_bytes [a, b, c]
        if ¬(4 < expected ∧ expected ≤ MAX_HELLO) then .bad
        else if (kind :: rest).length ≥ expected then .complete expected
        else .more
      | _ => .more

/-- The checks after a record, in the order they are made. -/
def verdict (records : ℕ) (hello : List UInt8) : Verdict :=
  if records > 64 ∨ hello.length > MAX_HELLO then .bad else message hello

/-- Each record that is taken off makes the rest shorter, so the loop ends. -/
theorem front_record_length {wire payload rest : List UInt8} (h : front wire = .record payload rest) :
    rest.length < wire.length := by
  unfold front at h
  split at h
  · dsimp only at h
    split at h
    · cases h
    · split at h
      · cases h
      · injection h with hpayload hrest
        subst hrest
        simp only [List.length_drop, List.length_cons]
        omega
  · cases h

/-- A record is counted, its payload joins the message, and its bytes leave the wire. -/
def shift (s : Counter) (payload rest : List UInt8) : Counter :=
  { s with records := s.records + 1, hello := s.hello ++ payload, wire := rest }

/-- The body of `while len(self._wire) >= 5`, over and over. -/
def loop (s : Counter) : Counter × Option Hello :=
  match _h : front s.wire with
  | .short => (s, none)
  | .bad => (s.stop true, none)
  | .record payload rest =>
    match verdict (s.shift payload rest).records (s.shift payload rest).hello with
    | .bad => ((s.shift payload rest).stop true, none)
    | .complete expected => ((s.shift payload rest).stop false, some ⟨(s.shift payload rest).records, expected⟩)
    | .more => loop (s.shift payload rest)
termination_by s.wire.length
decreasing_by exact front_record_length ‹_›

def feed (s : Counter) (data : List UInt8) : Counter × Option Hello :=
  if s.finished then (s, none)
  else if s.wire.length + data.length > MAX_HELLO + MAX_RECORD then (s.stop true, none)
  else loop (s.extend data)

/-! ## One look, and the bytes that come after it

One look at the wire depends on the front of it only. What comes later does not change a record
that is complete, nor a header that was refused. -/

/-- A record of the stream: a valid header and the payload it announces. -/
structure Record where
  minor : UInt8
  payload : List UInt8
  minor_le : minor ≤ 4
  pos : 0 < payload.length
  le_max : payload.length ≤ MAX_RECORD

/-- Its bytes. -/
def Record.wire (r : Record) : List UInt8 :=
  22 :: 3 :: r.minor :: UInt8.ofNat (r.payload.length / 256) :: UInt8.ofNat (r.payload.length % 256) :: r.payload

/-- A record is its payload with five bytes before it. -/
theorem Record.length_wire (r : Record) : r.wire.length = r.payload.length + 5 := rfl

/-- The two bytes of a length are read back. -/
theorem from_bytes_size {n : ℕ} (h : n ≤ MAX_RECORD) :
    from_bytes [UInt8.ofNat (n / 256), UInt8.ofNat (n % 256)] = n := by
  have hmax : n ≤ 18432 := h
  simp only [from_bytes, List.foldl_cons, List.foldl_nil, UInt8.toNat_ofNat']
  omega

/-- Two bytes can be read back from their number. -/
theorem from_bytes_two_inj {hi lo hi' lo' : UInt8} (h : from_bytes [hi, lo] = from_bytes [hi', lo']) :
    hi = hi' ∧ lo = lo' := by
  simp only [from_bytes, List.foldl_cons, List.foldl_nil] at h
  have h1 := hi.toNat_lt
  have h2 := lo.toNat_lt
  have h3 := hi'.toNat_lt
  have h4 := lo'.toNat_lt
  exact ⟨UInt8.toNat_inj.mp (by omega), UInt8.toNat_inj.mp (by omega)⟩

/-- A record is read off whatever stands behind it. -/
theorem front_wire (r : Record) (rest : List UInt8) : front (r.wire ++ rest) = .record r.payload rest := by
  have hsize := from_bytes_size r.le_max
  have hminor : ¬ r.minor > 4 := UInt8.not_lt.mpr r.minor_le
  have hpos := r.pos
  have hmax := r.le_max
  simp only [Record.wire, List.cons_append, front, hsize]
  rw [if_neg (by simp [hminor, hpos, hmax]), if_neg (by simp), List.take_left, List.drop_left]

/-- What is read off is a record. -/
theorem exists_of_front {wire payload rest : List UInt8} (h : front wire = .record payload rest) :
    ∃ r : Record, r.payload = payload ∧ wire = r.wire ++ rest := by
  unfold front at h
  split at h
  · rename_i kind major minor hi lo body
    dsimp only at h
    split at h
    · cases h
    · rename_i hgood
      split at h
      · cases h
      · rename_i hlong
        injection h with hpayload hrest
        simp only [not_or, not_not] at hgood
        obtain ⟨rfl, rfl, hminor, hpos, hmax⟩ := hgood
        have hlen : (body.take (from_bytes [hi, lo])).length = from_bytes [hi, lo] := by
          rw [List.length_take]
          omega
        refine ⟨⟨minor, payload, UInt8.not_lt.mp hminor, ?_, ?_⟩, rfl, ?_⟩
        · rw [← hpayload, hlen]
          exact hpos
        · rw [← hpayload, hlen]
          exact hmax
        · have hbytes := from_bytes_two_inj (from_bytes_size hmax)
          simp only [Record.wire, ← hpayload, ← hrest, hlen, hbytes.1, hbytes.2, List.cons_append,
            List.take_append_drop]
  · cases h

/-- A header that is refused is refused with more behind it. -/
theorem front_bad_append {wire : List UInt8} (h : front wire = .bad) (more : List UInt8) :
    front (wire ++ more) = .bad := by
  unfold front at h
  split at h
  · rename_i kind major minor hi lo body
    dsimp only at h
    split at h
    · rename_i hbad
      simp only [List.cons_append, front]
      rw [if_pos hbad]
    · split at h <;> cases h
  · cases h

/-- A record that is whole is read alike, whatever comes behind it. -/
theorem front_record_append {wire payload rest : List UInt8} (h : front wire = .record payload rest)
    (more : List UInt8) : front (wire ++ more) = .record payload (rest ++ more) := by
  obtain ⟨r, rfl, rfl⟩ := exists_of_front h
  rw [List.append_assoc, front_wire]

/-- A record that is not complete keeps the wire short. -/
theorem length_of_front_short {wire : List UInt8} (h : front wire = .short) :
    wire.length ≤ MAX_RECORD + 4 := by
  unfold front at h
  split at h
  · rename_i kind major minor hi lo body
    dsimp only at h
    split at h
    · cases h
    · rename_i hgood
      split at h
      · rename_i hshort
        simp only [List.length_cons]
        omega
      · cases h
  · rename_i hcons
    match wire, hcons with
    | [], _ => exact Nat.zero_le _
    | [_], _ | [_, _], _ | [_, _, _], _ | [_, _, _, _], _ => simp [MAX_RECORD]
    | a :: b :: c :: d :: e :: rest, hcons => exact absurd rfl (hcons a b c d e rest)

/-! ## The loop, and the bytes that come after it

The loop takes records off as long as it can. So bytes that come later reach it where it has
stopped, which is the reason why cuts do not matter. -/

/-- The loop leaves the flag down with what does not fill another record, or stops. -/
theorem loop_settles (s : Counter) (hs : s.finished = false) :
    ((loop s).1.finished = false ∧ (loop s).2 = none ∧ front (loop s).1.wire = .short)
      ∨ ((loop s).1.finished = true ∧ (loop s).1.retained_bytes = 0) := by
  fun_induction loop s with
  | case1 s h => exact .inl ⟨hs, rfl, h⟩
  | case2 s h => exact .inr ⟨rfl, rfl⟩
  | case3 s payload rest h hv => exact .inr ⟨rfl, rfl⟩
  | case4 s payload rest h expected hv => exact .inr ⟨rfl, rfl⟩
  | case5 s payload rest h hv ih => exact ih hs

theorem loop_of_short {s : Counter} (h : front s.wire = .short) : loop s = (s, none) := by
  rw [loop]
  split <;> simp_all

theorem loop_of_bad {s : Counter} (h : front s.wire = .bad) : loop s = (s.stop true, none) := by
  rw [loop]
  split <;> simp_all

/-- With a whole record it goes by the verdict on what has been collected. -/
theorem loop_of_record {s : Counter} {payload rest : List UInt8} (h : front s.wire = .record payload rest) :
    loop s = match verdict (s.records + 1) (s.hello ++ payload) with
      | .bad => ((s.shift payload rest).stop true, none)
      | .complete expected => ((s.shift payload rest).stop false, some ⟨s.records + 1, expected⟩)
      | .more => loop (s.shift payload rest) := by
  rw [loop]
  split
  · simp_all
  · simp_all
  · rename_i payload' rest' h'
    rw [h] at h'
    injection h' with hpayload hrest
    subst hpayload hrest
    rfl

/-- Bytes that come later reach the loop where it left the wire, unless it has stopped. -/
theorem loop_extend (s : Counter) (hs : s.finished = false) (more : List UInt8) :
    loop (s.extend more) = if (loop s).1.finished then loop s else loop ((loop s).1.extend more) := by
  fun_induction loop s with
  | case1 s h => simp [hs]
  | case2 s h => exact loop_of_bad (front_bad_append h more)
  | case3 s payload rest h hv =>
    rw [loop_of_record (s := s.extend more) (front_record_append h more)]
    rw [show verdict ((s.extend more).records + 1) ((s.extend more).hello ++ payload) = .bad from hv]
    rfl
  | case4 s payload rest h expected hv =>
    rw [loop_of_record (s := s.extend more) (front_record_append h more)]
    rw [show verdict ((s.extend more).records + 1) ((s.extend more).hello ++ payload) = .complete expected from hv]
    rfl
  | case5 s payload rest h hv ih =>
    rw [← ih hs, loop_of_record (s := s.extend more) (front_record_append h more)]
    rw [show verdict ((s.extend more).records + 1) ((s.extend more).hello ++ payload) = .more from hv]
    rfl

/-! ## Cutting the pieces elsewhere

A piece may be cut in two without a difference, and so a stream may be cut anywhere. The bound on
what one call may add is not met by pieces of a socket. -/

/-- A counter between two calls. -/
structure Settled (s : Counter) : Prop where
  short : s.finished = false → front s.wire = .short
  empty : s.finished = true → s.retained_bytes = 0

/-- An observer that is finished looks at nothing more. -/
theorem feed_of_finished {s : Counter} (h : s.finished = true) (data : List UInt8) : feed s data = (s, none) := by
  rw [feed, if_pos h]

/-- The bound on what a call may add is not met by pieces of a socket. -/
theorem feed_of_open {s : Counter} (hs : Settled s) (h : s.finished = false) {data : List UInt8}
    (hdata : data.length ≤ 65532) : feed s data = loop (s.extend data) := by
  have hwire := length_of_front_short (hs.short h)
  simp only [MAX_RECORD] at hwire
  rw [feed, h, if_neg Bool.false_ne_true, if_neg (by simp only [MAX_HELLO, MAX_RECORD]; omega)]

/-- After each piece what is left is shorter than a record. -/
theorem Settled.feed {s : Counter} (hs : Settled s) {data : List UInt8} (hdata : data.length ≤ 65532) :
    Settled (feed s data).1 := by
  cases h : s.finished with
  | true =>
    rw [feed_of_finished h]
    exact hs
  | false =>
    rw [feed_of_open hs h hdata]
    obtain ⟨hopen, -, hshort⟩ | ⟨hdone, hempty⟩ := loop_settles (s.extend data) h
    · exact ⟨fun _ => hshort, fun hdone => absurd hdone (by simp [hopen])⟩
    · exact ⟨fun hopen => absurd hdone (by simp [hopen]), fun _ => hempty⟩

/-- A piece may be cut in two. -/
theorem feedAll_cut {s : Counter} (hs : Settled s) {a b : List UInt8} (hab : (a ++ b).length ≤ 65532) :
    feedAll feed s [a ++ b] = feedAll feed s [a, b] := by
  have hlen : a.length + b.length ≤ 65532 := by simpa using hab
  cases h : s.finished with
  | true => simp [feedAll_cons, feed_of_finished h]
  | false =>
    have hfirst : feed s a = loop (s.extend a) := feed_of_open hs h (by omega)
    have hnext : Settled (feed s a).1 := hs.feed (by omega)
    have hjoined : feed s (a ++ b) = loop ((s.extend a).extend b) := by
      rw [feed_of_open hs h hab]
      simp only [extend, List.append_assoc]
    rw [loop_extend (s.extend a) h b, ← hfirst] at hjoined
    simp only [feedAll_cons, feedAll_nil, List.append_nil, hjoined]
    cases hdone : (feed s a).1.finished with
    | true => simp [feed_of_finished hdone]
    | false =>
      have hquiet : (feed s a).2 = none := by
        rw [hfirst] at hdone ⊢
        obtain ⟨-, hnone, -⟩ | ⟨hstopped, -⟩ := loop_settles (s.extend a) h
        · exact hnone
        · exact absurd hstopped (by simp [hdone])
      rw [if_neg Bool.false_ne_true, feed_of_open hnext hdone (by omega), hquiet, Option.toList_none,
        List.nil_append]

/-- **It makes no difference how the stream is cut into pieces.** -/
theorem cuttable : Cuttable feed Settled 65532 where
  keep _ _ hs hc := hs.feed hc
  nil s hs := by
    cases h : s.finished with
    | true => exact feed_of_finished h []
    | false =>
      rw [feed_of_open hs h (by simp)]
      have hsame : s.extend [] = s := by simp [extend]
      rw [hsame, loop_of_short (hs.short h)]
  cut _ _ _ hs hab := feedAll_cut hs hab

theorem settled_start : Settled {} where
  short _ := rfl
  empty h := absurd h Bool.false_ne_true

/-! ## What a stream announces

What a stream announces is said without the counter: it begins with records whose payloads make
up a message, the last of them completing it. The checks of the source find this out record by
record. -/

/-- The bytes of the records. -/
def wires (rs : List Record) : List UInt8 := rs.flatMap Record.wire

/-- Their payloads joined. -/
def joined (rs : List Record) : List UInt8 := rs.flatMap Record.payload

/-- The payloads hold a whole message of type 1, of `n` bytes with its header. -/
def Completes (hello : List UInt8) (n : ℕ) : Prop :=
  ∃ a b c body, hello = 1 :: a :: b :: c :: body ∧ n = 4 + from_bytes [a, b, c] ∧ 5 ≤ n ∧ n ≤ 65536
    ∧ n ≤ hello.length

/-- The stream begins with records that complete a message with the last of them. -/
def Announces (stream : List UInt8) (h : Hello) : Prop :=
  ∃ rs rest, stream = wires rs ++ rest ∧ rs.length = h.records ∧ h.records ≤ 64 ∧ (joined rs).length ≤ 65536
    ∧ Completes (joined rs) h.bytes ∧ ∀ n, ¬ Completes (joined rs.dropLast) n

@[simp] theorem wires_nil : wires [] = [] := rfl
@[simp] theorem joined_nil : joined [] = [] := rfl

/-- Records that follow each other are written one after the other. -/
theorem wires_append (rs qs : List Record) : wires (rs ++ qs) = wires rs ++ wires qs := List.flatMap_append
theorem joined_append (rs qs : List Record) : joined (rs ++ qs) = joined rs ++ joined qs := List.flatMap_append

@[simp] theorem wires_singleton (r : Record) : wires [r] = r.wire := by simp [wires]
@[simp] theorem joined_singleton (r : Record) : joined [r] = r.payload := by simp [joined]

theorem not_completes_nil (n : ℕ) : ¬ Completes [] n := by
  rintro ⟨a, b, c, body, h, -⟩
  cases h

/-- What is complete stays complete, with the same length. -/
theorem Completes.append {hello : List UInt8} {n : ℕ} (h : Completes hello n) (more : List UInt8) :
    Completes (hello ++ more) n := by
  obtain ⟨a, b, c, body, rfl, hn, hmin, hmax, hlen⟩ := h
  refine ⟨a, b, c, body ++ more, rfl, hn, hmin, hmax, ?_⟩
  rw [List.length_append]
  omega

/-- What a stream announces does not change with what follows. -/
theorem Announces.append {stream : List UInt8} {h : Hello} (hs : Announces stream h) (more : List UInt8) :
    Announces (stream ++ more) h := by
  obtain ⟨rs, rest, rfl, hrs⟩ := hs
  exact ⟨rs, rest ++ more, List.append_assoc _ _ _, hrs⟩

/-- Where the counts are in range, only the message itself is left to judge. -/
theorem verdict_of_le {k : ℕ} {hello : List UInt8} (hk : k ≤ 64) (hlen : hello.length ≤ 65536) :
    verdict k hello = message hello := by
  rw [verdict, if_neg (by simp only [MAX_HELLO]; omega)]

/-- Too many records, or too many bytes, are bad in any case. -/
theorem verdict_of_lt {k : ℕ} {hello : List UInt8} (h : 64 < k ∨ 65536 < hello.length) :
    verdict k hello = .bad := by
  rw [verdict, if_pos (by simpa only [MAX_HELLO] using h)]

/-- Without its whole header a message is refused or waited for. -/
theorem message_short {hello : List UInt8} (h : hello.length < 4) (n : ℕ) : message hello ≠ .complete n := by
  match hello, h with
  | [], _ => simp [message]
  | [kind], _ | [kind, _], _ | [kind, _, _], _ =>
    unfold message
    by_cases hkind : kind = 1 <;> simp [hkind]

/-- A message of at least four bytes is judged by its length. -/
theorem verdict_cons {k : ℕ} {a b c : UInt8} {body : List UInt8} (hk : k ≤ 64)
    (hlen : (1 :: a :: b :: c :: body).length ≤ 65536) :
    verdict k (1 :: a :: b :: c :: body)
      = if ¬(5 ≤ 4 + from_bytes [a, b, c] ∧ 4 + from_bytes [a, b, c] ≤ 65536) then .bad
        else if 4 + from_bytes [a, b, c] ≤ (1 :: a :: b :: c :: body).length
          then .complete (4 + from_bytes [a, b, c]) else .more := by
  rw [verdict_of_le hk hlen]
  rfl

/-- **The checks say that a message is complete exactly when it is.** -/
theorem verdict_complete_iff {k n : ℕ} {hello : List UInt8} :
    verdict k hello = .complete n ↔ k ≤ 64 ∧ hello.length ≤ 65536 ∧ Completes hello n := by
  -- both limits come first
  by_cases hout : 64 < k ∨ 65536 < hello.length
  · rw [verdict_of_lt hout]
    constructor
    · intro h
      cases h
    · rintro ⟨hk, hlen, -⟩
      omega
  have hk : k ≤ 64 := by omega
  have hlen : hello.length ≤ 65536 := by omega
  constructor
  · intro h
    refine ⟨hk, hlen, ?_⟩
    match hello, hlen, h with
    | kind :: a :: b :: c :: body, hlen, h =>
      -- four bytes are there to be looked at
      have hkind : kind = 1 := by
        by_contra hne
        rw [verdict_of_le hk hlen, message, if_pos hne] at h
        cases h
      subst hkind
      rw [verdict_cons hk hlen] at h
      split at h
      · cases h
      · rename_i hrange
        split at h
        · rename_i hcomplete
          injection h with hn
          rw [not_not] at hrange
          exact ⟨a, b, c, body, rfl, hn.symm, hn ▸ hrange.1, hn ▸ hrange.2, hn ▸ hcomplete⟩
        · cases h
    | [], hlen, h | [_], hlen, h | [_, _], hlen, h | [_, _, _], hlen, h =>
      -- with fewer the verdict is to wait
      rw [verdict_of_le hk hlen] at h
      exact absurd h (message_short (by simp) n)
  · rintro ⟨-, -, a, b, c, body, rfl, rfl, hmin, hmax, hcomplete⟩
    rw [verdict_cons hk hlen, if_neg (by omega), if_pos hcomplete]

/-- More is asked for only within both limits, and while no message is complete. -/
theorem verdict_more {k : ℕ} {hello : List UInt8} (h : verdict k hello = .more) :
    k ≤ 64 ∧ hello.length ≤ 65536 ∧ ∀ n, ¬ Completes hello n := by
  have hin : ¬ (64 < k ∨ 65536 < hello.length) := by
    intro hout
    rw [verdict_of_lt hout] at h
    cases h
  have hk : k ≤ 64 := by omega
  have hlen : hello.length ≤ 65536 := by omega
  refine ⟨hk, hlen, fun n hn => ?_⟩
  rw [verdict_complete_iff.mpr ⟨hk, hlen, hn⟩] at h
  cases h

/-- Before the message is complete its beginning passes the checks. -/
theorem verdict_of_prefix {k n : ℕ} {hello more : List UInt8} (hk : k ≤ 64) (hlen : (hello ++ more).length ≤ 65536)
    (hwhole : Completes (hello ++ more) n) (hpart : ∀ n, ¬ Completes hello n) : verdict k hello = .more := by
  obtain ⟨a, b, c, body, heq, hn, hmin, hmax, hcomplete⟩ := hwhole
  rw [List.length_append] at hlen
  match hello, heq, hpart with
  | [], _, _ => exact verdict_of_le hk (by simp)
  | [x], heq, _ =>
    injection heq with hx
    rw [verdict_of_le hk (by simp), hx]
    rfl
  | [x, y], heq, _ =>
    injection heq with hx
    rw [verdict_of_le hk (by simp), hx]
    rfl
  | [x, y, z], heq, _ =>
    injection heq with hx
    rw [verdict_of_le hk (by simp), hx]
    rfl
  | x :: y :: z :: w :: tail, heq, hpart =>
    simp only [List.cons_append, List.cons.injEq] at heq
    obtain ⟨rfl, rfl, rfl, rfl, -⟩ := heq
    rw [verdict_cons hk (by omega), if_neg (by omega), if_neg]
    intro hpre
    exact hpart n ⟨y, z, w, tail, rfl, hn, hmin, hmax, hn ▸ hpre⟩

/-! ## What the counter has read

The counter has taken the first records off and waits for more. This is the invariant; along any
run it says what has been returned, and bounds what is kept. -/

/-- The counter has read the records `rs` off what it has seen, and waits for more. -/
structure Reading (seen : List UInt8) (rs : List Record) (s : Counter) : Prop where
  seen : seen = wires rs ++ s.wire
  hello : s.hello = joined rs
  records : s.records = rs.length
  few : rs.length ≤ 64
  fits : (joined rs).length ≤ 65536
  pending : ∀ n, ¬ Completes (joined rs) n

/-- One record more has been read. -/
theorem Reading.shift {seen : List UInt8} {rs : List Record} {s : Counter} (h : Reading seen rs s)
    {r : Record} {rest : List UInt8} (hwire : s.wire = r.wire ++ rest)
    (hmore : verdict (s.records + 1) (s.hello ++ r.payload) = .more) :
    Reading seen (rs ++ [r]) (s.shift r.payload rest) := by
  have hjoined : joined (rs ++ [r]) = s.hello ++ r.payload := by
    rw [joined_append, joined_singleton, h.hello]
  obtain ⟨hk, hlen, hpending⟩ := verdict_more hmore
  constructor
  · rw [h.seen, hwire, wires_append, wires_singleton, List.append_assoc]
    rfl
  · exact hjoined.symm
  · rw [List.length_append, List.length_singleton, ← h.records]
    rfl
  · rw [List.length_append, List.length_singleton, ← h.records]
    exact hk
  · rw [hjoined]
    exact hlen
  · rw [hjoined]
    exact hpending

/-- **What the loop does to a counter that has read the bytes seen**: it goes on reading, or
stops, and what it returns is announced by them. -/
theorem Reading.loop {seen : List UInt8} {rs : List Record} {s : Counter} (h : Reading seen rs s) :
    (∃ qs, Reading seen qs (loop s).1) ∧ (loop s).2 = none
      ∨ (loop s).1.finished = true ∧ ∀ found ∈ (loop s).2, Announces seen found := by
  fun_induction Counter.loop s generalizing rs with
  | case1 s hfront => exact .inl ⟨⟨rs, h⟩, rfl⟩
  | case2 s hfront => exact .inr ⟨rfl, by simp⟩
  | case3 s payload rest hfront hv => exact .inr ⟨rfl, by simp⟩
  | case4 s payload rest hfront expected hv =>
    obtain ⟨r, rfl, hwire⟩ := exists_of_front hfront
    obtain ⟨hk, hlen, hcomplete⟩ := verdict_complete_iff.mp hv
    have hjoined : joined (rs ++ [r]) = s.hello ++ r.payload := by
      rw [joined_append, joined_singleton, ← h.hello]
    refine .inr ⟨rfl, fun found hfound => ?_⟩
    obtain rfl := Option.mem_some.mp hfound
    refine ⟨rs ++ [r], rest, ?_, ?_, hk, ?_, ?_, ?_⟩
    · rw [h.seen, hwire, wires_append, wires_singleton, List.append_assoc]
    · rw [List.length_append, List.length_singleton, ← h.records]
      rfl
    · rw [hjoined]
      exact hlen
    · rw [hjoined]
      exact hcomplete
    · rw [List.dropLast_concat]
      exact h.pending
  | case5 s payload rest hfront hv ih =>
    obtain ⟨r, rfl, hwire⟩ := exists_of_front hfront
    exact ih (h.shift hwire hv)

/-- A counter and what its calls have returned, over the bytes they have been fed. -/
inductive Follows (fed : List UInt8) (s : Counter) (out : List Hello) : Prop where
  | reading (rs : List Record) (h : Reading fed rs s) (running : s.finished = false) (quiet : out = [])
  | stopped (h : s.finished = true) (one : out.length ≤ 1) (announced : ∀ found ∈ out, Announces fed found)

/-- One call. -/
theorem Follows.feed {fed : List UInt8} {s : Counter} {out : List Hello} (hs : Settled s) (h : Follows fed s out)
    {data : List UInt8} (hdata : data.length ≤ 65532) :
    Follows (fed ++ data) (feed s data).1 (out ++ (feed s data).2.toList) := by
  cases h with
  | stopped hdone hone hannounced =>
    rw [feed_of_finished hdone, Option.toList_none, List.append_nil]
    exact .stopped hdone hone fun found hfound => (hannounced found hfound).append data
  | reading rs hreading hrunning hquiet =>
    have hextended : Reading (fed ++ data) rs (s.extend data) :=
      { hreading with seen := by rw [hreading.seen, List.append_assoc]; rfl }
    rw [feed_of_open hs hrunning hdata, hquiet, List.nil_append]
    obtain ⟨⟨qs, hqs⟩, hnone⟩ | ⟨hdone, hfound⟩ := hextended.loop
    · obtain ⟨hstill, -, -⟩ | ⟨hdone, -⟩ := loop_settles (s.extend data) hrunning
      · exact .reading qs hqs hstill (by rw [hnone, Option.toList_none])
      · exact .stopped hdone (by simp [hnone]) (by simp [hnone])
    · exact .stopped hdone Option.length_toList_le fun found h => hfound found (Option.mem_toList.mp h)

/-- Before anything came nothing was counted. -/
theorem follows_start : Follows [] {} [] :=
  .reading [] ⟨rfl, rfl, rfl, Nat.zero_le _, Nat.zero_le _, not_completes_nil⟩ rfl rfl

/-- **Any run**: the counter is settled, and what it has returned the stream announces. -/
theorem follows_feedAll {chunks : List (List UInt8)} (hchunks : ∀ c ∈ chunks, c.length ≤ 65532) :
    Settled (feedAll feed {} chunks).1 ∧ Follows chunks.flatten (feedAll feed {} chunks).1 (feedAll feed {} chunks).2 := by
  have hrun := feedAll_induction feed (I := fun fed s out => Settled s ∧ Follows fed s out) 65532
    (fun fed s out c hs hc => ⟨hs.1.feed hc, hs.2.feed hs.1 hc⟩) ⟨settled_start, follows_start⟩ hchunks
  simpa only [List.nil_append] using hrun

/-- What a counter keeps between calls. -/
theorem Follows.retained_bytes_le {fed : List UInt8} {s : Counter} {out : List Hello} (hs : Settled s)
    (h : Follows fed s out) : s.retained_bytes ≤ MAX_HELLO + MAX_RECORD + 4 := by
  cases h with
  | stopped hdone => exact le_of_eq_of_le (hs.empty hdone) (Nat.zero_le _)
  | reading rs hreading hrunning =>
    have hwire : s.wire.length ≤ MAX_RECORD + 4 := length_of_front_short (hs.short hrunning)
    have hhello : s.hello.length ≤ MAX_HELLO := hreading.hello ▸ hreading.fits
    rw [retained_bytes]
    omega

/-! ## What is announced is found

The other way round, a stream that announces a message is counted. Fed record by record the
counter finds it, and by the section above any cut gives the same. -/

/-- The counter after the records `rs`, with nothing of the next. -/
def past (rs : List Record) : Counter := { hello := joined rs, records := rs.length }

/-- What has been taken off leaves nothing over. -/
theorem settled_past (rs : List Record) : Settled (past rs) where
  short _ := rfl
  empty h := absurd h Bool.false_ne_true

/-- One record, fed whole. -/
theorem feed_wire (rs : List Record) (r : Record) :
    feed (past rs) r.wire = match verdict (rs ++ [r]).length (joined (rs ++ [r])) with
      | .bad => ((past (rs ++ [r])).stop true, none)
      | .complete expected => ((past (rs ++ [r])).stop false, some ⟨(rs ++ [r]).length, expected⟩)
      | .more => (past (rs ++ [r]), none) := by
  have hlen : r.wire.length ≤ 65532 := by
    have hmax : r.payload.length ≤ 18432 := r.le_max
    rw [r.length_wire]
    omega
  have hfront : front ((past rs).extend r.wire).wire = .record r.payload [] := by
    have h := front_wire r []
    rwa [List.append_nil] at h
  have hshift : ((past rs).extend r.wire).shift r.payload [] = past (rs ++ [r]) := by
    simp [past, extend, shift, joined_append]
  rw [feed_of_open (settled_past rs) rfl hlen, loop_of_record hfront, hshift]
  have hcount : ((past rs).extend r.wire).records + 1 = (rs ++ [r]).length := by simp [past, extend]
  have hjoined : ((past rs).extend r.wire).hello ++ r.payload = joined (rs ++ [r]) := by
    simp [past, extend, joined_append]
  rw [hcount, hjoined, loop_of_short (s := past (rs ++ [r])) rfl]

/-- Records that complete nothing are read, one after another. -/
theorem feedAll_wires (rs : List Record) (h : ∀ qs, qs <+: rs → qs ≠ [] → verdict qs.length (joined qs) = .more) :
    feedAll feed {} (rs.map Record.wire) = (past rs, []) := by
  induction rs using List.reverseRecOn with
  | nil => rfl
  | append_singleton rs r ih =>
    have hbefore := ih fun qs hqs hne => h qs (hqs.trans (List.prefix_append rs [r])) hne
    have hlast := h (rs ++ [r]) (List.prefix_refl _) (by simp)
    rw [List.map_append, feedAll_append, hbefore, List.map_singleton, feedAll_cons, feedAll_nil, feed_wire, hlast]
    rfl

/-- A finished observer reports nothing for any piece. -/
theorem feedAll_of_finished {s : Counter} (h : s.finished = true) (chunks : List (List UInt8)) :
    feedAll feed s chunks = (s, []) := by
  induction chunks with
  | nil => rfl
  | cons c chunks ih =>
    rw [feedAll_cons, feed_of_finished h, ih]
    rfl

/-- **What a stream announces is returned**, however the stream is cut. -/
theorem feedAll_of_announces {chunks : List (List UInt8)} (hchunks : ∀ c ∈ chunks, c.length ≤ 65532)
    {found : Hello} (h : Announces chunks.flatten found) : (feedAll feed {} chunks).2 = [found] := by
  obtain ⟨rs, rest, hstream, hcount, hfew, hfits, hcomplete, hpending⟩ := h
  obtain rfl | ⟨init, last, hrs⟩ := List.eq_nil_or_concat rs
  · exact absurd hcomplete (not_completes_nil _)
  rw [List.concat_eq_append] at hrs
  subst hrs
  rw [List.dropLast_concat] at hpending
  have hinit : feedAll feed {} (init.map Record.wire) = (past init, []) := by
    refine feedAll_wires init fun qs hqs hne => ?_
    obtain ⟨ps, rfl⟩ := hqs
    have hlen : (qs ++ ps ++ [last]).length ≤ 64 := hcount ▸ hfew
    simp only [List.length_append] at hlen
    rw [List.append_assoc, joined_append] at hcomplete hfits
    refine verdict_of_prefix (by omega) hfits hcomplete fun n hn => ?_
    have hmore := hn.append (joined ps)
    rw [← joined_append] at hmore
    exact hpending n hmore
  have hlast : verdict (init ++ [last]).length (joined (init ++ [last])) = .complete found.bytes :=
    verdict_complete_iff.mpr ⟨hcount ▸ hfew, hfits, hcomplete⟩
  -- the stream cut after every record, and after every byte of the rest
  let cut := init.map Record.wire ++ last.wire :: rest.map fun b => [b]
  have hcut : ∀ c ∈ cut, c.length ≤ 65532 := by
    intro c hc
    have hwire : ∀ r : Record, r.wire.length ≤ 65532 := fun r => by
      have hmax : r.payload.length ≤ 18432 := r.le_max
      rw [r.length_wire]
      omega
    simp only [cut, List.mem_append, List.mem_map, List.mem_cons] at hc
    rcases hc with ⟨r, -, rfl⟩ | rfl | ⟨b, -, rfl⟩
    · exact hwire r
    · exact hwire last
    · simp
  have hsame : cut.flatten = chunks.flatten := by
    rw [hstream, wires_append, wires_singleton, wires, List.flatMap_def, List.append_assoc, List.flatten_append,
      List.flatten_cons, ← List.flatMap_def (l := rest), List.flatMap_singleton']
  have hresult : (feedAll feed {} cut).2 = [found] := by
    rw [feedAll_append, hinit, feedAll_cons, feed_wire, hlast, feedAll_of_finished rfl, hcount]
    rfl
  rw [cuttable.feedAll_eq settled_start hchunks, ← hsame, ← cuttable.feedAll_eq settled_start hcut, hresult]

/-- **Counting the records of a ClientHello does not depend on how the stream is cut.** -/
theorem counts_alike (chunks : List (List UInt8)) (hchunks : ∀ c ∈ chunks, c.length ≤ 4096) :
    let run := feedAll feed {} chunks
    let bytewise := feedAll feed {} (chunks.flatten.map fun b => [b])
    run.2 = bytewise.2 ∧ run.1.finished = bytewise.1.finished ∧ run.1.invalid = bytewise.1.invalid
      ∧ run.2.length ≤ 1
      ∧ (∀ found, run.2 = [found] ↔ Announces chunks.flatten found)
      ∧ ∀ called, called <+: chunks →
          (feedAll feed {} called).1.retained_bytes ≤ MAX_HELLO + MAX_RECORD + 4
          ∧ ((feedAll feed {} called).1.finished = true → (feedAll feed {} called).1.retained_bytes = 0) := by
  have hlimit : ∀ c ∈ chunks, c.length ≤ 65532 := fun c hc => (hchunks c hc).trans (by omega)
  have hsame := cuttable.feedAll_eq settled_start hlimit
  have hone : (feedAll feed {} chunks).2.length ≤ 1 := by
    cases (follows_feedAll hlimit).2 with
    | reading rs h hrunning hquiet => simp [hquiet]
    | stopped h hone => exact hone
  refine ⟨congrArg Prod.snd hsame, by rw [hsame], by rw [hsame], hone, fun found => ⟨fun hrun => ?_, ?_⟩, ?_⟩
  · cases (follows_feedAll hlimit).2 with
    | reading rs h hrunning hquiet => exact absurd (hrun.symm.trans hquiet) (List.cons_ne_nil _ _)
    | stopped h hone hannounced => exact hannounced found (by simp [hrun])
  · exact feedAll_of_announces hlimit
  · intro called hcalled
    have hfollows := follows_feedAll fun c hc => hlimit c (hcalled.subset hc)
    exact ⟨hfollows.2.retained_bytes_le hfollows.1, hfollows.1.empty⟩

/-- A hello of five bytes in two records, cut inside both headers. -/
theorem counts_alike_cut :
    (feedAll feed {} [[22, 3, 1, 0], [2, 1, 0, 22, 3], [3, 0, 3, 0, 1, 7]]).2 = [⟨2, 5⟩] := by
  have hpending : ∀ n, ¬ Completes [1, 0] n := by
    rintro n ⟨a, b, c, body, h, -⟩
    injection h with _ h
    injection h with _ h
    cases h
  have halike := counts_alike [[22, 3, 1, 0], [2, 1, 0, 22, 3], [3, 0, 3, 0, 1, 7]] (by decide)
  refine (halike.2.2.2.2.1 ⟨2, 5⟩).mpr ?_
  exact ⟨[⟨1, [1, 0], by decide, by decide, by decide⟩, ⟨3, [0, 1, 7], by decide, by decide, by decide⟩], [], rfl, rfl,
    by decide, by decide, ⟨0, 0, 1, [7], rfl, rfl, by decide, by decide, by decide⟩, hpending⟩

end Counter

end VlessCard.RecordObserver
