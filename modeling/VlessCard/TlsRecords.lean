/-
`desync.c` and `packets.c` of the local engine: a ClientHello cut into several TLS records.

The cuts are made in the buffer the bytes were received into, by moving what follows a cut up by
the five bytes of a head. A position is computed from options, from where the name of the host is
and from a draw, and nothing is known of it. Whatever the positions are, the records that come out
must read as the one that went in, and no byte outside of the buffer may be touched.
-/
import VlessCard.Packets
import VlessCard.HttpHost
import VlessCard.Memory
import VlessCard.Frames
import VlessCard.RecordObserver

set_option autoImplicit false

namespace VlessCard.TlsRecords

open Wire Packets HttpHost Memory

/-! ## Positions

A position is counted from the front, from the end or from the middle, of the packet or of the
name in it, or it is drawn. To find it the packet is looked at once. -/

/-- The bits of a position's `flag`. -/
structure Flag where
  END : Bool := false
  MID : Bool := false
  RAND : Bool := false
  SNI : Bool := false
  HOST : Bool := false
  START : Bool := false
  deriving DecidableEq, Repr

inductive Demode where
  | NONE
  | SPLIT
  | DISORDER
  | OOB
  | DISOOB
  | FAKE
  deriving DecidableEq, Repr

/-- A position, and what is done there, `r` times over, `s` bytes apart; neither number is negative
in what `parse_offset` reads. -/
structure Part where
  m : Demode := .NONE
  flag : Flag := {}
  pos : ℤ
  r : ℕ := 0
  s : ℕ := 0
  deriving DecidableEq, Repr

inductive Proto where
  | unknown
  | HTTP
  | HTTPS
  deriving DecidableEq, Repr

structure ProtoInfo where
  init : Bool := false
  type : Proto := .unknown
  host_len : ℤ := 0
  host_pos : ℤ := 0
  deriving DecidableEq, Repr

/-- `init_proto_info`; a name that `parse_tls` finds and that is empty leaves its position behind. -/
def initProtoInfo (buffer : List UInt8) (info : ProtoInfo) : Option ProtoInfo :=
  if info.init then some info
  else
    (parseTls buffer buffer.length).bind fun (len, hs) =>
      if len ≠ 0 then some { init := true, type := .HTTPS, host_len := len, host_pos := hs }
      else
        (parseHttp buffer).bind fun (len, host) =>
          some { init := true, type := if len ≠ 0 then .HTTP else .unknown, host_len := len, host_pos := host.getD hs }

/-- `gen_offset`, with what `rand` draws if it is called; a remainder by zero has no result. -/
def genOffset (pos : ℤ) (flag : Flag) (buffer : List UInt8) (n lp : ℤ) (info : ProtoInfo) (rand : ℕ) :
    Option (ℤ × ProtoInfo) :=
  if flag.SNI ∨ flag.HOST then
    (initProtoInfo (buffer.take n.toNat) info).bind fun info =>
      if info.host_pos = 0 ∨ (flag.SNI ∧ info.type ≠ .HTTPS) then some (-1, info)
      else if flag.END then some (pos + info.host_pos + info.host_len, info)
      else if flag.MID then some (pos + info.host_pos + info.host_len.tdiv 2, info)
      else if flag.RAND then
        if info.host_len = 0 then none else some (pos + info.host_pos + (rand : ℤ) % info.host_len, info)
      else some (pos + info.host_pos, info)
  else if flag.RAND then
    if (n - lp) % 2 ^ 64 = 0 then none else some (pos + lp + (rand : ℤ) % ((n - lp) % 2 ^ 64), info)
  else if flag.MID then some (pos + n / 2, info)
  else if pos < 0 ∨ flag.END then some (pos + n, info)
  else some (pos, info)

/-- The turns of a loop over `parts`, each part with the number of its turn: `r` of them, and one
where `r` is not given. -/
def turns (parts : List Part) : List (Part × ℕ) := parts.flatMap fun part => (List.range (max 1 part.r)).map (part, ·)

/-! ## Records

A cut moves the bytes behind it by five and writes a head there. The loop goes over the positions
and counts the heads that were put in. -/

/-- `SHTONA`. -/
def SHTONA (mem : List UInt8) (i x : ℕ) : Option (List UInt8) := store mem i (bigEndian 2 x)

/-- `part_tls`: a head is put in after `pos` bytes of the record. -/
def partTls (buffer : List UInt8) (bsize n pos : ℤ) : Option (ℤ × List UInt8) :=
  if n < 3 ∨ (bsize - n) % 2 ^ 64 < 5 ∨ pos < 0 ∨ n < pos + 5 then some (0, buffer)
  else
    (ANTOHS buffer 3).bind fun r_sz =>
      if r_sz < pos then some (n, buffer)
      else
        (move buffer (5 + pos.toNat + 5) (5 + pos.toNat) (n.toNat - (5 + pos.toNat))).bind fun buffer =>
          (move buffer (5 + pos.toNat) 0 3).bind fun buffer =>
            (SHTONA buffer 3 pos.toNat).bind fun buffer =>
              (SHTONA buffer (5 + pos.toNat + 3) (r_sz - pos.toNat)).bind fun buffer => some (5, buffer)

/-- The buffer, the bytes of it that count, and where the last record begins. -/
structure State where
  buffer : List UInt8
  n : ℤ
  lp : ℕ
  info : ProtoInfo
  deriving DecidableEq, Repr

def Flag.any (f : Flag) : Bool := f.END || f.MID || f.RAND || f.SNI || f.HOST || f.START

/-- Where in the buffer the `rc`-th turn cuts: five bytes further for every head put in before, and,
where the position counts from something in the packet, five bytes back for the head that precedes it. -/
def cutPos (part : Part) (k rc : ℕ) (offset : ℤ) : ℤ :=
  (rc * 5 : ℕ) + offset - (if part.pos < 0 ∨ part.flag.any then 5 else 0) + (part.s * k : ℕ)

/-- The loop of `tamp` over `tlsrec`, with the `rc`-th turn in front. -/
def tlsrec (rand : ℕ → ℕ) : List (Part × ℕ) → ℕ → State → Option State
  | [], _, st => some st
  | (part, k) :: more, rc, st =>
    (genOffset part.pos part.flag st.buffer (st.n - (rc * 5 : ℕ)) st.lp st.info (rand rc)).bind fun (offset, info) =>
      if cutPos part k rc offset < st.lp then some { st with info := info }
      else
        (partTls (st.buffer.drop st.lp) (st.buffer.length - st.lp) (st.n - st.lp) (cutPos part k rc offset - st.lp)).bind
          fun (ret, tail) =>
            if ret = 0 then some { st with info := info, buffer := st.buffer.take st.lp ++ tail }
            else tlsrec rand more (rc + 1) ⟨st.buffer.take st.lp ++ tail, st.n + 5, (cutPos part k rc offset + 5).toNat, info⟩

/-- Whatever the packet is, the look at it returns. -/
theorem exists_initProtoInfo (buffer : List UInt8) (info : ProtoInfo) : ∃ info', initProtoInfo buffer info = some info' := by
  unfold initProtoInfo
  split
  · exact ⟨info, rfl⟩
  · obtain ⟨len, hs, htls, -⟩ := exists_parseTls buffer
    obtain ⟨len', host, hhttp, -⟩ := parseHttp_returns buffer
    rw [htls, Option.bind_some]
    dsimp only
    split
    · exact ⟨_, rfl⟩
    · rw [hhttp, Option.bind_some]
      exact ⟨_, rfl⟩

/-- `rand` is called where there is nothing to draw from: a host of no length, or nothing left of the packet. -/
def DrawsFromNothing (flag : Flag) (buffer : List UInt8) (n lp : ℤ) (info : ProtoInfo) : Prop :=
  flag.RAND = true ∧
    if flag.SNI ∨ flag.HOST then
      flag.END = false ∧ flag.MID = false ∧ ∃ info', initProtoInfo (buffer.take n.toNat) info = some info' ∧
        ¬ (info'.host_pos = 0 ∨ (flag.SNI ∧ info'.type ≠ .HTTPS)) ∧ info'.host_len = 0
    else (n - lp) % 2 ^ 64 = 0

/-- Only such a draw is without a result. -/
theorem genOffset_eq_none {flag : Flag} {pos : ℤ} {buffer : List UInt8} {n lp : ℤ} {info : ProtoInfo} {rand : ℕ} :
    genOffset pos flag buffer n lp info rand = none ↔ DrawsFromNothing flag buffer n lp info := by
  unfold genOffset DrawsFromNothing
  by_cases hhost : flag.SNI = true ∨ flag.HOST = true
  · obtain ⟨info', hinfo⟩ := exists_initProtoInfo (buffer.take n.toNat) info
    rw [if_pos hhost, if_pos hhost, hinfo, Option.bind_some]
    constructor
    · intro h
      split_ifs at h with hnone hend hmid hrand hlen
      exact ⟨hrand, by simpa using hend, by simpa using hmid, info', rfl, hnone, hlen⟩
    · rintro ⟨hrand, hend, hmid, info'', heq, hnone, hlen⟩
      obtain rfl := Option.some.inj heq
      rw [if_neg hnone, hend, if_neg Bool.false_ne_true, hmid, if_neg Bool.false_ne_true, if_pos hrand, if_pos hlen]
  · rw [if_neg hhost, if_neg hhost]
    constructor
    · intro h
      split_ifs at h with hrand hzero
      exact ⟨hrand, hzero⟩
    · rintro ⟨hrand, hzero⟩
      rw [if_pos hrand, if_pos hzero]

/-- The options that change a packet before it is sent. -/
structure TampParams where
  mod_http : ModHttp := {}
  tlsminor : Option UInt8 := none
  tlsrec : List Part := []
  deriving DecidableEq, Repr

/-- `tamp`. -/
def tamp (rand : ℕ → ℕ) (dp : TampParams) (buffer : List UInt8) (n : ℕ) (info : ProtoInfo) : Option State :=
  (if dp.mod_http ≠ {} ∧ isHttp (buffer.take n) then
      (modHttp (buffer.take n) dp.mod_http).map fun out => out.2 ++ buffer.drop n
    else some buffer).bind fun buffer =>
    (match dp.tlsminor with
      | some minor => (isTlsChello buffer n).map fun hello => if hello = true then buffer.set 2 minor else buffer
      | none => some buffer).bind fun buffer =>
      if dp.tlsrec ≠ [] then
        (isTlsChello buffer n).bind fun hello =>
          if hello = true then tlsrec rand (turns dp.tlsrec) 0 ⟨buffer, n, 0, info⟩ else some ⟨buffer, n, 0, info⟩
      else some ⟨buffer, n, 0, info⟩

/-! ## One cut

One cut of a record makes two of it, or changes nothing where the position is out of range. Seen
from the head of the record this is all that happens. -/

/-- Type and version of a record, its length, and what it holds. -/
def record (first body : List UInt8) : List UInt8 := first ++ (bigEndian 2 body.length ++ body)

/-- A record is its body with five bytes before it. -/
theorem length_record {first : List UInt8} (hfirst : first.length = 3) (body : List UInt8) :
    (record first body).length = body.length + 5 := by
  unfold record
  simp only [List.length_append, length_bigEndian, hfirst]
  omega

/-- A head is put in behind `body`, and what was there moves into the room behind the record. -/
theorem insert_head {first room : List UInt8} (hfirst : first.length = 3) (hroom : room.length = 5)
    (body tail rest : List UInt8) (R : ℕ) :
    ((move (first ++ (bigEndian 2 R ++ (body ++ tail ++ (room ++ rest)))) (5 + body.length + 5) (5 + body.length)
      tail.length).bind fun buffer => (move buffer (5 + body.length) 0 3).bind fun buffer =>
        (SHTONA buffer 3 body.length).bind fun buffer =>
          SHTONA buffer (5 + body.length + 3) (R - body.length)) =
      some (record first body ++ (first ++ (bigEndian 2 (R - body.length) ++ (tail ++ rest)))) := by
  have hhead : (first ++ (bigEndian 2 R ++ body)).length = 5 + body.length := by
    simp only [List.length_append, length_bigEndian, hfirst]
    omega
  obtain ⟨gap, hgap, hmoved⟩ : ∃ gap : List UInt8, gap.length = 5 ∧
      move (first ++ (bigEndian 2 R ++ (body ++ tail ++ (room ++ rest)))) (5 + body.length + 5) (5 + body.length)
        tail.length = some (first ++ (bigEndian 2 R ++ (body ++ (gap ++ (tail ++ rest))))) := by
    refine ⟨(tail ++ room).take room.length, ?_, ?_⟩
    · rw [List.length_take, List.length_append]
      omega
    · have hmove := move_up (first ++ (bigEndian 2 R ++ body)) tail room rest hhead rfl
        (show 5 + body.length + room.length = 5 + body.length + 5 by omega)
      simp only [List.append_assoc] at hmove ⊢
      exact hmove
  -- the gap takes the type and the version, and then the length
  obtain ⟨g3, g2, rfl, hg3⟩ : ∃ g3 g2, gap = g3 ++ g2 ∧ g3.length = 3 :=
    ⟨gap.take 3, gap.drop 3, (List.take_append_drop _ _).symm, by rw [List.length_take, hgap]; rfl⟩
  rw [List.length_append, hg3] at hgap
  have hcopied : move (first ++ (bigEndian 2 R ++ (body ++ (g3 ++ g2 ++ (tail ++ rest))))) (5 + body.length) 0 3 =
      some (first ++ (bigEndian 2 R ++ (body ++ (first ++ (g2 ++ (tail ++ rest)))))) := by
    have hload := load_append [] first (bigEndian 2 R ++ (body ++ (g3 ++ g2 ++ (tail ++ rest)))) (i := 0) rfl hfirst
    have hstore := store_append (first ++ (bigEndian 2 R ++ body)) g3 (g2 ++ (tail ++ rest)) hhead
      (hg3.trans hfirst.symm)
    simp only [List.append_assoc, List.nil_append] at hload hstore
    unfold move
    rw [List.append_assoc g3, hload, Option.bind_some, hstore]
  have hfirstSize : SHTONA (first ++ (bigEndian 2 R ++ (body ++ (first ++ (g2 ++ (tail ++ rest)))))) 3 body.length =
      some (first ++ (bigEndian 2 body.length ++ (body ++ (first ++ (g2 ++ (tail ++ rest)))))) :=
    store_append first (bigEndian 2 R) _ hfirst (by rw [length_bigEndian, length_bigEndian])
  have hlastSize : SHTONA (first ++ (bigEndian 2 body.length ++ (body ++ (first ++ (g2 ++ (tail ++ rest))))))
        (5 + body.length + 3) (R - body.length) =
      some (first ++ (bigEndian 2 body.length ++ (body ++ (first ++ (bigEndian 2 (R - body.length) ++ (tail ++ rest)))))) := by
    have hstore := store_append (first ++ (bigEndian 2 body.length ++ (body ++ first))) g2 (tail ++ rest)
      (i := 5 + body.length + 3) (by simp only [List.length_append, length_bigEndian, hfirst]; omega)
      (show g2.length = (bigEndian 2 (R - body.length)).length by rw [length_bigEndian]; omega)
    simp only [List.append_assoc] at hstore
    exact hstore
  rw [hmoved, Option.bind_some, hcopied, Option.bind_some, hfirstSize, Option.bind_some, hlastSize, record]
  simp only [List.append_assoc]

/-- Several are their bodies and five bytes each. -/
theorem length_records {first : List UInt8} (hfirst : first.length = 3) (bodies : List (List UInt8)) :
    (bodies.flatMap (record first)).length = bodies.flatten.length + 5 * bodies.length := by
  induction bodies with
  | nil => rfl
  | cons body bodies ih =>
    rw [List.flatMap_cons, List.length_append, length_record hfirst, ih, List.flatten_cons, List.length_append,
      List.length_cons]
    omega

/-- The bytes of a record from its head on: nothing is changed, or a head stands after `pos` bytes of
it and what is behind has moved into the free bytes. -/
theorem partTls_cases {first last slack : List UInt8} {R : ℕ} (hfirst : first.length = 3) (hlast : last.length ≤ R)
    (hR : R < 256 ^ 2) {bsize n : ℤ} (hbsize : bsize = (5 + last.length + slack.length : ℕ)) (hn : n = (5 + last.length : ℕ))
    (pos : ℤ) :
    partTls (first ++ (bigEndian 2 R ++ (last ++ slack))) bsize n pos =
        some (0, first ++ (bigEndian 2 R ++ (last ++ slack))) ∨
      ∃ body tail room rest, last = body ++ tail ∧ pos = body.length ∧ slack = room ++ rest ∧ room.length = 5 ∧
        partTls (first ++ (bigEndian 2 R ++ (last ++ slack))) bsize n pos =
          some (5, record first body ++ (first ++ (bigEndian 2 (R - body.length) ++ (tail ++ rest)))) := by
  unfold partTls
  split
  · exact .inl rfl
  · rename_i hgo
    simp only [not_or, not_lt] at hgo
    obtain ⟨-, hroom, hpos, hfits⟩ := hgo
    right
    -- the record up to the cut, what follows it, and the five bytes that are free
    obtain ⟨body, tail, rfl, rfl⟩ : ∃ body tail, last = body ++ tail ∧ pos = body.length := by
      refine ⟨last.take pos.toNat, last.drop pos.toNat, (List.take_append_drop _ _).symm, ?_⟩
      rw [List.length_take]
      omega
    obtain ⟨room, rest, rfl, hfive⟩ : ∃ room rest, slack = room ++ rest ∧ room.length = 5 := by
      refine ⟨slack.take 5, slack.drop 5, (List.take_append_drop _ _).symm, ?_⟩
      rw [List.length_take]
      omega
    refine ⟨body, tail, room, rest, rfl, rfl, rfl, hfive, ?_⟩
    have hlen : (body ++ tail).length = body.length + tail.length := List.length_append
    have hsize : ANTOHS (first ++ (bigEndian 2 R ++ (body ++ tail ++ (room ++ rest)))) 3 = some R := ANTOHS_append hfirst hR
    have hinsert := insert_head hfirst hfive body tail rest R
    subst hn
    rw [hsize, Option.bind_some, if_neg (by omega), Int.toNat_natCast, Int.toNat_natCast,
      show 5 + (body ++ tail).length - (5 + body.length) = tail.length by omega]
    simp only [← Option.bind_assoc] at hinsert ⊢
    rw [hinsert]
    rfl

/-! ## All cuts

After some cuts the buffer has complete records, and one more that is announced as long as what
is left. The loop keeps this, whatever the positions are. -/

/-- The buffer after some cuts of a record: complete records, and then one that was announced with
what is left of the length, of which `last` is there. -/
structure Cut (first whole : List UInt8) (L size : ℕ) (st : State) where
  bodies : List (List UInt8)
  last : List UInt8
  slack : List UInt8
  whole_eq : bodies.flatten ++ last = whole
  buffer_eq : st.buffer =
    bodies.flatMap (record first) ++ (first ++ (bigEndian 2 (L - bodies.flatten.length) ++ (last ++ slack)))
  length_eq : st.buffer.length = size
  lp_eq : st.lp = (bodies.flatMap (record first)).length
  n_eq : st.n = (st.lp + 5 + last.length : ℕ)

variable {first whole : List UInt8} {L size : ℕ} {st : State}

/-- What is left of the message fits what its header announces. -/
theorem Cut.last_le (hwhole : whole.length ≤ L) (c : Cut first whole L size st) :
    c.last.length ≤ L - c.bodies.flatten.length := by
  have hlen := congrArg List.length c.whole_eq
  rw [List.length_append] at hlen
  omega

theorem Cut.drop_lp (c : Cut first whole L size st) :
    st.buffer.drop st.lp = first ++ (bigEndian 2 (L - c.bodies.flatten.length) ++ (c.last ++ c.slack)) := by
  rw [c.buffer_eq, c.lp_eq, List.drop_left]

theorem Cut.length_buffer (hfirst : first.length = 3) (c : Cut first whole L size st) :
    st.buffer.length = st.lp + (5 + c.last.length + c.slack.length) := by
  rw [c.buffer_eq, c.lp_eq]
  simp only [List.length_append, length_bigEndian, hfirst]
  omega

/-- What a cut of such a buffer makes of it. -/
theorem Cut.partTls_cases (hfirst : first.length = 3) (hwhole : whole.length ≤ L) (hL : L < 256 ^ 2)
    (c : Cut first whole L size st) (pos : ℤ) :
    partTls (st.buffer.drop st.lp) (st.buffer.length - st.lp) (st.n - st.lp) (pos - st.lp) =
        some (0, st.buffer.drop st.lp) ∨
      ∃ body tail room rest, c.last = body ++ tail ∧ pos - st.lp = body.length ∧ c.slack = room ++ rest ∧ room.length = 5 ∧
        partTls (st.buffer.drop st.lp) (st.buffer.length - st.lp) (st.n - st.lp) (pos - st.lp) =
          some (5, record first body ++
            (first ++ (bigEndian 2 (L - c.bodies.flatten.length - body.length) ++ (tail ++ rest)))) := by
  have hlen := c.length_buffer hfirst
  have hn := c.n_eq
  rw [c.drop_lp]
  exact TlsRecords.partTls_cases hfirst (c.last_le hwhole) (by omega) (by omega) (by omega) (pos - st.lp)

/-- The bytes behind the last head come to be cut, or the loop ends. -/
theorem Cut.step (hfirst : first.length = 3) (hwhole : whole.length ≤ L) (hL : L < 256 ^ 2) (c : Cut first whole L size st)
    (pos : ℤ) {ret : ℤ} {tail : List UInt8}
    (h : partTls (st.buffer.drop st.lp) (st.buffer.length - st.lp) (st.n - st.lp) (pos - st.lp) = some (ret, tail))
    (info : ProtoInfo) :
    Nonempty (Cut first whole L size
      (if ret = 0 then { st with info := info, buffer := st.buffer.take st.lp ++ tail }
        else ⟨st.buffer.take st.lp ++ tail, st.n + 5, (pos + 5).toNat, info⟩)) := by
  have htake : st.buffer.take st.lp = c.bodies.flatMap (record first) := by
    rw [c.buffer_eq, c.lp_eq, List.take_left]
  have hlen := c.length_buffer hfirst
  have hn := c.n_eq
  have hsize := c.length_eq
  obtain hnone | ⟨body, rest, room, slack, hsplit, hpos, hslack, hroom, hcut⟩ := c.partTls_cases hfirst hwhole hL pos
  · rw [hnone] at h
    -- the part is refused, and the buffer stays as it was
    obtain ⟨rfl, rfl⟩ := Prod.mk.inj (Option.some.inj h)
    rw [if_pos rfl, List.take_append_drop]
    exact ⟨⟨c.bodies, c.last, c.slack, c.whole_eq, c.buffer_eq, c.length_eq, c.lp_eq, c.n_eq⟩⟩
  · rw [hcut] at h
    obtain ⟨rfl, rfl⟩ := Prod.mk.inj (Option.some.inj h)
    -- one more record stands complete, and the rest of the body is the last one
    have hrest : c.last.length = body.length + rest.length := by rw [hsplit, List.length_append]
    have hfree : c.slack.length = 5 + slack.length := by rw [hslack, List.length_append, hroom]
    have hrecord := length_record hfirst body
    have hlp : (pos + 5).toNat = st.lp + (body.length + 5) := by omega
    rw [if_neg (by decide)]
    refine ⟨⟨c.bodies ++ [body], rest, slack, ?_, ?_, ?_, ?_, ?_⟩⟩
    · refine Eq.trans ?_ c.whole_eq
      rw [hsplit]
      simp only [List.flatten_append, List.flatten_cons, List.flatten_nil, List.append_nil, List.append_assoc]
    · dsimp only
      rw [htake]
      simp only [List.flatMap_append, List.flatMap_cons, List.flatMap_nil, List.append_nil, List.append_assoc,
        List.flatten_append, List.flatten_cons, List.flatten_nil, List.length_append, Nat.sub_sub]
    · refine Eq.trans ?_ (hlen.symm.trans hsize)
      dsimp only
      rw [htake, c.lp_eq]
      simp only [List.length_append, length_bigEndian, hfirst, hrecord]
      omega
    · dsimp only
      rw [hlp, c.lp_eq, List.flatMap_append, List.length_append, List.flatMap_cons, List.flatMap_nil, List.append_nil,
        hrecord]
    · dsimp only
      omega

/-- **Whatever the positions are**, the loop leaves records that together hold what the one record held. -/
theorem Cut.run (hfirst : first.length = 3) (hwhole : whole.length ≤ L) (hL : L < 256 ^ 2) (rand : ℕ → ℕ)
    (turns : List (Part × ℕ)) (rc : ℕ) (c : Cut first whole L size st) {st' : State}
    (h : tlsrec rand turns rc st = some st') : Nonempty (Cut first whole L size st') := by
  induction turns generalizing rc st with
  | nil =>
    obtain rfl := Option.some.inj h
    exact ⟨c⟩
  | cons turn more ih =>
    obtain ⟨part, k⟩ := turn
    unfold tlsrec at h
    obtain ⟨⟨offset, info⟩, -, h⟩ := Option.bind_eq_some_iff.mp h
    dsimp only at h
    split at h
    · obtain rfl := Option.some.inj h
      exact ⟨⟨c.bodies, c.last, c.slack, c.whole_eq, c.buffer_eq, c.length_eq, c.lp_eq, c.n_eq⟩⟩
    · obtain ⟨⟨ret, tail⟩, hpart, h⟩ := Option.bind_eq_some_iff.mp h
      obtain ⟨next⟩ := c.step hfirst hwhole hL _ hpart info
      dsimp only at h
      split at h
      · rename_i hret
        obtain rfl := Option.some.inj h
        rw [if_pos hret] at next
        exact ⟨next⟩
      · rename_i hret
        rw [if_neg hret] at next
        exact ih _ next h

/-- The loop comes to a turn that draws from nothing. -/
inductive Undrawn (rand : ℕ → ℕ) : List (Part × ℕ) → ℕ → State → Prop
  | here {part k more rc} {st : State} (h : DrawsFromNothing part.flag st.buffer (st.n - (rc * 5 : ℕ)) st.lp st.info) :
      Undrawn rand ((part, k) :: more) rc st
  | later {part k more rc offset info ret tail} {st : State}
      (hoffset : genOffset part.pos part.flag st.buffer (st.n - (rc * 5 : ℕ)) st.lp st.info (rand rc) = some (offset, info))
      (hpos : ¬ cutPos part k rc offset < st.lp)
      (hpart : partTls (st.buffer.drop st.lp) (st.buffer.length - st.lp) (st.n - st.lp) (cutPos part k rc offset - st.lp) =
        some (ret, tail))
      (hret : ret ≠ 0)
      (h : Undrawn rand more (rc + 1) ⟨st.buffer.take st.lp ++ tail, st.n + 5, (cutPos part k rc offset + 5).toNat, info⟩) :
      Undrawn rand ((part, k) :: more) rc st

theorem Undrawn.rand {rand : ℕ → ℕ} {turns : List (Part × ℕ)} {rc : ℕ} {st : State} (h : Undrawn rand turns rc st) :
    ∃ turn ∈ turns, turn.1.flag.RAND = true := by
  induction h with
  | here h => exact ⟨_, List.mem_cons_self, h.1⟩
  | later _ _ _ _ _ ih =>
    obtain ⟨turn, hturn, hrand⟩ := ih
    exact ⟨turn, List.mem_cons_of_mem _ hturn, hrand⟩

/-- Nothing is read or written outside of the buffer: only a draw from nothing is without a result. -/
theorem Cut.eq_none_iff (hfirst : first.length = 3) (hwhole : whole.length ≤ L) (hL : L < 256 ^ 2) (rand : ℕ → ℕ)
    (turns : List (Part × ℕ)) (rc : ℕ) (c : Cut first whole L size st) :
    tlsrec rand turns rc st = none ↔ Undrawn rand turns rc st := by
  -- the turns are taken one after the other, each on the buffer the last one left
  induction turns generalizing rc st with
  | nil => exact iff_of_false (by simp [tlsrec]) (by rintro ⟨⟩)
  | cons turn more ih =>
    obtain ⟨part, k⟩ := turn
    have hdraws : genOffset part.pos part.flag st.buffer (st.n - (rc * 5 : ℕ)) st.lp st.info (rand rc) = none ↔
        DrawsFromNothing part.flag st.buffer (st.n - (rc * 5 : ℕ)) st.lp st.info := genOffset_eq_none
    unfold tlsrec
    cases hoffset : genOffset part.pos part.flag st.buffer (st.n - (rc * 5 : ℕ)) st.lp st.info (rand rc) with
    | none => exact iff_of_true rfl (.here (hdraws.mp hoffset))
    | some found =>
      obtain ⟨offset, info⟩ := found
      -- the draw is good, so a later turn has to be the one that fails
      have hnot : ¬ DrawsFromNothing part.flag st.buffer (st.n - (rc * 5 : ℕ)) st.lp st.info := by
        rw [← hdraws, hoffset]
        exact Option.some_ne_none _
      obtain ⟨⟨ret, tail⟩, hpart⟩ : ∃ r, partTls (st.buffer.drop st.lp) (st.buffer.length - st.lp) (st.n - st.lp)
          (cutPos part k rc offset - st.lp) = some r := by
        obtain hpart | ⟨_, _, _, _, -, -, -, -, hpart⟩ := c.partTls_cases hfirst hwhole hL (cutPos part k rc offset)
        · exact ⟨_, hpart⟩
        · exact ⟨_, hpart⟩
      obtain ⟨next⟩ := c.step hfirst hwhole hL _ hpart info
      rw [Option.bind_some]
      dsimp only
      rw [hpart, Option.bind_some]
      dsimp only
      split
      -- the place is below what was cut already, and the loop ends here
      · rename_i hlow
        refine iff_of_false (Option.some_ne_none _) fun h => ?_
        cases h with
        | here h => exact hnot h
        | later hoffset' hpos _ _ _ =>
          obtain ⟨rfl, rfl⟩ := Prod.mk.inj (Option.some.inj (hoffset.symm.trans hoffset'))
          exact hpos hlow
      · rename_i hlow
        split
        -- the cut is refused, and the loop ends here
        · rename_i hret
          refine iff_of_false (Option.some_ne_none _) fun h => ?_
          cases h with
          | here h => exact hnot h
          | later hoffset' _ hpart' hne _ =>
            obtain ⟨rfl, rfl⟩ := Prod.mk.inj (Option.some.inj (hoffset.symm.trans hoffset'))
            exact hne (by rw [← (Prod.mk.inj (Option.some.inj (hpart.symm.trans hpart'))).1, hret])
        · rename_i hret
          rw [if_neg hret] at next
          rw [ih _ next]
          -- the record is cut, and the rest of the turns run on what is left
          refine ⟨.later hoffset hlow hpart hret, fun h => ?_⟩
          cases h with
          | here h => exact absurd h hnot
          | later hoffset' _ hpart' _ h =>
            obtain ⟨rfl, rfl⟩ := Prod.mk.inj (Option.some.inj (hoffset.symm.trans hoffset'))
            obtain ⟨rfl, rfl⟩ := Prod.mk.inj (Option.some.inj (hpart.symm.trans hpart'))
            exact h

/-! ## What the records hold

A reader puts the payloads of the records together and finds what the one record held. Only the
minor version may differ, where an option says so. -/

/-- TLS records, told apart by type and version. -/
def TLS : Frames.Format UInt8 (List UInt8) where
  headLen := 5
  pos := by decide
  size head := (ANTOHS head 3).getD 0
  tag head := head.take 3

/-- The last two bytes of a header are the length. -/
theorem TLS_size (hfirst : first.length = 3) {n : ℕ} (hn : n < 256 ^ 2) : TLS.size (first ++ bigEndian 2 n) = n := by
  have hsize : ANTOHS (first ++ (bigEndian 2 n ++ [])) 3 = some n := ANTOHS_append hfirst hn
  rw [List.append_nil] at hsize
  show (ANTOHS (first ++ bigEndian 2 n) 3).getD 0 = n
  rw [hsize]
  rfl

theorem TLS_tag (hfirst : first.length = 3) (n : ℕ) : TLS.tag (first ++ bigEndian 2 n) = first := List.take_left' hfirst

theorem TLS_headLen (hfirst : first.length = 3) (n : ℕ) : (first ++ bigEndian 2 n).length = TLS.headLen := by
  rw [List.length_append, length_bigEndian, hfirst]
  rfl

theorem exists_records (hfirst : first.length = 3) {bodies : List (List UInt8)} (h : ∀ body ∈ bodies, body.length < 256 ^ 2) :
    ∃ fs : List (Frames.Frame TLS), fs.flatMap Frames.Frame.bytes = bodies.flatMap (record first) ∧
      fs.flatMap Frames.Frame.body = bodies.flatten ∧ ∀ f ∈ fs, TLS.tag f.head = first := by
  induction bodies with
  | nil => exact ⟨[], rfl, rfl, fun f hf => absurd hf List.not_mem_nil⟩
  | cons body bodies ih =>
    obtain ⟨fs, hbytes, hbodies, htag⟩ := ih fun b hb => h b (List.mem_cons_of_mem body hb)
    have hsize := TLS_size hfirst (h body List.mem_cons_self)
    refine ⟨⟨first ++ bigEndian 2 body.length, body, TLS_headLen hfirst _, hsize.symm⟩ :: fs, ?_, ?_, ?_⟩
    · rw [List.flatMap_cons, List.flatMap_cons, hbytes, record, Frames.Frame.bytes, List.append_assoc first]
    · rw [List.flatMap_cons, List.flatten_cons, hbodies]
    · intro f hf
      obtain rfl | hf := List.mem_cons.mp hf
      · exact TLS_tag hfirst _
      · exact htag f hf

/-- What is sent after the cuts: the records before the last, and the last. -/
theorem Cut.take_n (hfirst : first.length = 3) (c : Cut first whole L size st) :
    st.buffer.take st.n.toNat =
      c.bodies.flatMap (record first) ++ (first ++ (bigEndian 2 (L - c.bodies.flatten.length) ++ c.last)) := by
  have hsplit : st.buffer = (c.bodies.flatMap (record first) ++
      (first ++ (bigEndian 2 (L - c.bodies.flatten.length) ++ c.last))) ++ c.slack := by
    refine c.buffer_eq.trans ?_
    simp only [List.append_assoc]
  refine (congrArg (List.take st.n.toNat) hsplit).trans (List.take_left' ?_)
  rw [c.n_eq, Int.toNat_natCast, c.lp_eq]
  simp only [List.length_append, length_bigEndian, hfirst]
  omega

/-- The bytes to be sent hold what the record held, whatever is sent behind them. -/
theorem Cut.content_eq (hfirst : first.length = 3) (hwhole : whole.length ≤ L) (hL : L < 256 ^ 2)
    (c : Cut first whole L size st) (rest : List UInt8) :
    Frames.content TLS (st.buffer.take st.n.toNat ++ rest) =
      Frames.content TLS (first ++ (bigEndian 2 L ++ (whole ++ rest))) := by
  have hflat : c.bodies.flatten.length ≤ L := by
    have hlen := congrArg List.length c.whole_eq
    rw [List.length_append] at hlen
    omega
  have hbodies : ∀ body ∈ c.bodies, body.length < 256 ^ 2 := by
    intro body hbody
    have hle := (List.sublist_flatten_of_mem hbody).length_le
    omega
  obtain ⟨fs, hbytes, hbody, htag⟩ := exists_records hfirst hbodies
  have htags : TLS.tag (first ++ bigEndian 2 (L - c.bodies.flatten.length)) = TLS.tag (first ++ bigEndian 2 L) := by
    rw [TLS_tag hfirst, TLS_tag hfirst]
  have hfs : ∀ f ∈ fs, TLS.tag f.head = TLS.tag (first ++ bigEndian 2 L) := by
    rw [TLS_tag hfirst]
    exact htag
  have hsplit := Frames.content_split (TLS_headLen hfirst _) (TLS_headLen hfirst _) htags hfs
    (by rw [TLS_size hfirst hL, TLS_size hfirst (by omega), hbody]; omega) (c.last ++ rest)
  rw [hbytes, hbody] at hsplit
  have hrest : whole ++ rest = c.bodies.flatten ++ (c.last ++ rest) := by
    rw [← List.append_assoc, c.whole_eq]
  rw [c.take_n hfirst, hrest]
  simp only [List.append_assoc] at hsplit ⊢
  exact hsplit

/-- The whole record, before the first cut. -/
def Cut.start {slack : List UInt8} (hsize : first.length + (2 + (whole.length + slack.length)) = size) (info : ProtoInfo) :
    Cut first whole L size ⟨first ++ (bigEndian 2 L ++ (whole ++ slack)), (5 + whole.length : ℕ), 0, info⟩ where
  bodies := []
  last := whole
  slack := slack
  whole_eq := List.nil_append whole
  buffer_eq := rfl
  length_eq := by
    rw [← hsize]
    simp only [List.length_append, length_bigEndian]
  lp_eq := rfl
  n_eq := by
    simp only [Nat.zero_add]

/-- A record that starts a hello is told to be one, however it is cut. -/
theorem isTlsChello_record (minor : UInt8) (hkind : whole.head? = some 1) (slack : List UInt8) {n : ℕ} (hn : 5 < n) :
    isTlsChello ([22, 3, minor] ++ (bigEndian 2 L ++ (whole ++ slack))) n = some true := by
  have hfirst : ANTOHS ([22, 3, minor] ++ (bigEndian 2 L ++ (whole ++ slack))) 0 = some 0x1603 := rfl
  have hsixth : ([22, 3, minor] ++ (bigEndian 2 L ++ (whole ++ slack)))[5]? = some 1 := by
    cases whole with
    | nil => exact absurd hkind (by decide)
    | cons c more =>
      obtain rfl := Option.some.inj hkind
      rw [bigEndian_succ, bigEndian_one]
      rfl
  unfold isTlsChello
  rw [if_pos hn, hfirst, Option.bind_some, hsixth]
  rfl

theorem isHttp_record (minor : UInt8) (rest : List UInt8) : isHttp (22 :: 3 :: minor :: rest) = false := by
  unfold isHttp
  split
  · rfl
  · dsimp only
    rw [if_pos (.inr (by decide))]

/-- A ClientHello after it has been tampered with. -/
theorem tamp_cut (rand : ℕ → ℕ) (dp : TampParams) (info : ProtoInfo) (minor : UInt8) (whole : List UInt8) (L : ℕ)
    (slack : List UInt8) (hkind : whole.head? = some 1) (hwhole : whole.length ≤ L) (hL : L < 256 ^ 2) :
    (tamp rand dp ([22, 3, minor] ++ (bigEndian 2 L ++ (whole ++ slack))) (5 + whole.length) info = none ↔
        Undrawn rand (turns dp.tlsrec) 0
          ⟨[22, 3, dp.tlsminor.getD minor] ++ (bigEndian 2 L ++ (whole ++ slack)), (5 + whole.length : ℕ), 0, info⟩) ∧
      ∀ out, tamp rand dp ([22, 3, minor] ++ (bigEndian 2 L ++ (whole ++ slack))) (5 + whole.length) info = some out →
        Nonempty (Cut [22, 3, dp.tlsminor.getD minor] whole L (5 + whole.length + slack.length) out) := by
  have hpos : 0 < whole.length := by
    cases whole with
    | nil => exact absurd hkind (by decide)
    | cons => exact Nat.succ_pos _
  have hfive : 5 < 5 + whole.length := by omega
  have hhttp : ¬ (dp.mod_http ≠ {} ∧
      isHttp (([22, 3, minor] ++ (bigEndian 2 L ++ (whole ++ slack))).take (5 + whole.length)) = true) := by
    rintro ⟨-, h⟩
    rw [show 5 + whole.length = whole.length + 2 + 3 by omega] at h
    rw [show ([22, 3, minor] ++ (bigEndian 2 L ++ (whole ++ slack))).take (whole.length + 2 + 3) =
      22 :: 3 :: minor :: (bigEndian 2 L ++ (whole ++ slack)).take (whole.length + 2) from rfl, isHttp_record] at h
    exact absurd h (by decide)
  -- the minor version is the third byte
  have hminor : (match dp.tlsminor with
      | some v => (isTlsChello ([22, 3, minor] ++ (bigEndian 2 L ++ (whole ++ slack))) (5 + whole.length)).map fun hello =>
          if hello = true then ([22, 3, minor] ++ (bigEndian 2 L ++ (whole ++ slack))).set 2 v
          else [22, 3, minor] ++ (bigEndian 2 L ++ (whole ++ slack))
      | none => some ([22, 3, minor] ++ (bigEndian 2 L ++ (whole ++ slack)))) =
      some ([22, 3, dp.tlsminor.getD minor] ++ (bigEndian 2 L ++ (whole ++ slack))) := by
    cases dp.tlsminor with
    | none => rfl
    | some v =>
      dsimp only
      rw [isTlsChello_record minor hkind slack hfive]
      rfl
  have hsize : ([22, 3, dp.tlsminor.getD minor] : List UInt8).length + (2 + (whole.length + slack.length)) =
      5 + whole.length + slack.length := by
    rw [List.length_cons, List.length_cons, List.length_cons, List.length_nil]
    omega
  have hstart := Cut.start (L := L) hsize info
  have htamp : tamp rand dp ([22, 3, minor] ++ (bigEndian 2 L ++ (whole ++ slack))) (5 + whole.length) info =
      if dp.tlsrec ≠ [] then tlsrec rand (turns dp.tlsrec) 0
        ⟨[22, 3, dp.tlsminor.getD minor] ++ (bigEndian 2 L ++ (whole ++ slack)), (5 + whole.length : ℕ), 0, info⟩
      else some ⟨[22, 3, dp.tlsminor.getD minor] ++ (bigEndian 2 L ++ (whole ++ slack)), (5 + whole.length : ℕ), 0, info⟩ := by
    unfold tamp
    rw [if_neg hhttp, Option.bind_some, hminor, Option.bind_some, isTlsChello_record _ hkind slack hfive,
      Option.bind_some, if_pos rfl]
  rw [htamp]
  constructor
  · split
    · exact hstart.eq_none_iff rfl hwhole hL rand (turns dp.tlsrec) 0
    · rename_i hnone
      rw [not_not] at hnone
      rw [hnone]
      exact iff_of_false (Option.some_ne_none _) (by rintro ⟨⟩)
  · intro out hout
    split at hout
    · exact hstart.run rfl hwhole hL rand (turns dp.tlsrec) 0 hout
    · obtain rfl := Option.some.inj hout
      exact ⟨hstart⟩

/-- Without random positions nothing is drawn. -/
theorem not_undrawn {parts : List Part} (hrand : ∀ part ∈ parts, part.flag.RAND = false) (rand : ℕ → ℕ) (rc : ℕ)
    (st : State) : ¬ Undrawn rand (turns parts) rc st := by
  intro h
  obtain ⟨turn, hturn, hdraw⟩ := h.rand
  obtain ⟨part, hpart, hmem⟩ := List.mem_flatMap.mp hturn
  obtain ⟨k, -, rfl⟩ := List.mem_map.mp hmem
  rw [hrand part hpart] at hdraw
  exact Bool.false_ne_true hdraw

/-- **A ClientHello reads the same after it has been tampered with**, but for the minor version of its
records, whatever cuts are asked for; the cuts stay within the buffer, and none fails but for a draw from
nothing. -/
theorem tamp_hello (rand : ℕ → ℕ) (dp : TampParams) (info : ProtoInfo) (minor : UInt8) (whole : List UInt8) (L : ℕ)
    (slack : List UInt8) (hkind : whole.head? = some 1) (hwhole : whole.length ≤ L) (hL : L < 256 ^ 2) :
    ((∀ part ∈ dp.tlsrec, part.flag.RAND = false) →
        tamp rand dp ([22, 3, minor] ++ (bigEndian 2 L ++ (whole ++ slack))) (5 + whole.length) info ≠ none) ∧
      (tamp rand dp ([22, 3, minor] ++ (bigEndian 2 L ++ (whole ++ slack))) (5 + whole.length) info = none ↔
        Undrawn rand (turns dp.tlsrec) 0
          ⟨[22, 3, dp.tlsminor.getD minor] ++ (bigEndian 2 L ++ (whole ++ slack)), (5 + whole.length : ℕ), 0, info⟩) ∧
      ∀ out, tamp rand dp ([22, 3, minor] ++ (bigEndian 2 L ++ (whole ++ slack))) (5 + whole.length) info = some out →
        out.buffer.length = 5 + whole.length + slack.length ∧ 5 + whole.length ≤ out.n ∧ out.n ≤ out.buffer.length ∧
          ∀ rest, Frames.content TLS (out.buffer.take out.n.toNat ++ rest) =
            Frames.content TLS ([22, 3, dp.tlsminor.getD minor] ++ (bigEndian 2 L ++ (whole ++ rest))) := by
  obtain ⟨hnone, hcut⟩ := tamp_cut rand dp info minor whole L slack hkind hwhole hL
  refine ⟨fun hrand h => not_undrawn hrand rand 0 _ (hnone.mp h), hnone, fun out hout => ?_⟩
  obtain ⟨c⟩ := hcut out hout
  have hn := c.n_eq
  have hlen := c.length_buffer rfl
  have hlp := c.lp_eq
  have hpayload := congrArg List.length c.whole_eq
  rw [length_records rfl] at hlp
  rw [List.length_append] at hpayload
  exact ⟨c.length_eq, by omega, by omega, c.content_eq rfl hwhole hL⟩

/-- A cut after two bytes. -/
theorem tamp_hello_short : ∃ out, tamp (fun _ => 0) { tlsrec := [{ pos := 2 }] }
      ([22, 3, 1] ++ (bigEndian 2 3 ++ ([1, 7, 8] ++ List.replicate 6 0))) 8 {} = some out ∧
    ∀ rest, Frames.content TLS (out.buffer.take out.n.toNat ++ rest) =
      Frames.content TLS ([22, 3, 1] ++ (bigEndian 2 3 ++ ([1, 7, 8] ++ rest))) := by
  obtain ⟨hsome, -, hall⟩ := tamp_hello (fun _ => 0) { tlsrec := [{ pos := 2 }] } {} 1 [1, 7, 8] 3
    (List.replicate 6 0) rfl (by decide) (by decide)
  obtain ⟨out, hout⟩ := Option.ne_none_iff_exists'.mp (hsome (by decide))
  exact ⟨out, hout, (hall out hout).2.2.2⟩

/-! ## What the observer of the security probe counts

The observer reads the records as they were cut. It counts them all, if none is empty and there
are not too many. -/

section
open RecordObserver RecordObserver.Counter

/-- A record as the observer has it. -/
theorem exists_observed {minor : UInt8} (hminor : minor ≤ 4) {body : List UInt8} (hpos : body ≠ [])
    (hmax : body.length ≤ MAX_RECORD) : ∃ r : Record, r.payload = body ∧ r.wire = record [22, 3, minor] body := by
  refine ⟨⟨minor, body, hminor, List.length_pos_iff.mpr hpos, hmax⟩, rfl, ?_⟩
  unfold Record.wire record
  rw [bigEndian_succ, bigEndian_one, pow_one]
  have hlow : UInt8.ofNat (body.length % 256) = UInt8.ofNat body.length := by
    rw [← UInt8.toNat_inj, UInt8.toNat_ofNat', UInt8.toNat_ofNat', Nat.mod_mod]
  simp only [hlow, List.cons_append, List.nil_append]

/-- An empty record is refused. -/
theorem front_empty (minor : UInt8) (rest : List UInt8) : RecordObserver.Counter.front (record [22, 3, minor] [] ++ rest) = .bad := by
  have hzero : (bigEndian 2 0 : List UInt8) = [0, 0] := rfl
  unfold record
  rw [List.length_nil, hzero]
  simp only [List.append_nil, List.cons_append, List.nil_append, RecordObserver.Counter.front]
  rw [if_pos]
  exact .inr (.inr (.inr (by decide)))

/-- Less than the whole message: there is more to come. -/
theorem message_of_prefix {front rest : List UInt8} (hwhole : message (front ++ rest) = .complete (front ++ rest).length)
    (hrest : rest ≠ []) : message front = .more := by
  have hlen := List.length_pos_iff.mpr hrest
  match front with
  | [] => rfl
  | [kind] | [kind, a] | [kind, a, b] =>
    simp only [message, List.cons_append, List.nil_append] at hwhole ⊢
    split at hwhole
    · cases hwhole
    · rename_i hkind
      rw [if_neg hkind]
  | kind :: a :: b :: c :: more =>
    simp only [message, List.cons_append] at hwhole ⊢
    split at hwhole
    · cases hwhole
    · rename_i hkind
      rw [if_neg hkind]
      split at hwhole
      · cases hwhole
      · rename_i hsize
        split at hwhole
        · injection hwhole with hexpected
          rw [if_neg hsize, if_neg]
          rw [hexpected]
          simp only [List.length_cons, List.length_append]
          omega
        · cases hwhole

/-- The checks after a record, for a message of which `rest` is still to come. -/
theorem verdict_of_prefix {records : ℕ} {hello rest : List UInt8} (hmax : (hello ++ rest).length ≤ MAX_RECORD)
    (hwhole : message (hello ++ rest) = .complete (hello ++ rest).length) :
    verdict records hello =
      if records > 64 then .bad else if rest = [] then .complete (hello ++ rest).length else .more := by
  have hlen : hello.length ≤ 18432 := by
    have hle : (hello ++ rest).length ≤ 18432 := hmax
    rw [List.length_append] at hle
    omega
  unfold verdict
  by_cases hmany : records > 64
  · rw [if_pos (.inl hmany), if_pos hmany]
  · rw [if_neg (not_or.mpr ⟨hmany, by simp only [MAX_HELLO]; omega⟩), if_neg hmany]
    split
    · rename_i hrest
      rw [hrest, List.append_nil] at hwhole ⊢
      exact hwhole
    · rename_i hrest
      exact message_of_prefix hwhole hrest

/-- One record of the stream, with `rest` of the message and more of the stream behind it. -/
theorem loop_record {minor : UInt8} (hminor : minor ≤ 4) {s : Counter} (body rest wire : List UInt8) {whole : List UInt8}
    (hmax : whole.length ≤ MAX_RECORD) (hwhole : message whole = .complete whole.length)
    (hwire : s.wire = record [22, 3, minor] body ++ wire) (hsplit : s.hello ++ (body ++ rest) = whole) :
    (Counter.loop s).2 = if body = [] ∨ s.records + 1 > 64 then none
      else if rest = [] then some ⟨s.records + 1, whole.length⟩
      else (Counter.loop (s.shift body wire)).2 := by
  by_cases hbody : body = []
  · subst hbody
    rw [if_pos (.inl rfl), loop_of_bad (by rw [hwire, front_empty])]
  · have hle : body.length ≤ MAX_RECORD := by
      rw [← hsplit] at hmax
      simp only [List.length_append] at hmax
      omega
    obtain ⟨r, hpayload, hbytes⟩ := exists_observed hminor hbody hle
    have hfront : RecordObserver.Counter.front s.wire = .record body wire := by
      rw [hwire, ← hbytes, front_wire, hpayload]
    rw [← List.append_assoc] at hsplit
    rw [← hsplit] at hmax hwhole
    rw [loop_of_record hfront, verdict_of_prefix hmax hwhole, hsplit]
    by_cases hmany : s.records + 1 > 64
    · rw [if_pos hmany, if_pos (.inr hmany)]
    · rw [if_neg hmany, if_neg (not_or.mpr ⟨hbody, hmany⟩)]
      by_cases hrest : rest = []
      · rw [if_pos hrest, if_pos hrest]
      · rw [if_neg hrest, if_neg hrest]

/-- The observer goes through the records: it counts them all where none is empty and there are not
too many. -/
theorem loop_records {minor : UInt8} (hminor : minor ≤ 4) {whole last : List UInt8} (hmax : whole.length ≤ MAX_RECORD)
    (hwhole : message whole = .complete whole.length) (bodies : List (List UInt8)) (s : Counter)
    (hwire : s.wire = bodies.flatMap (record [22, 3, minor]) ++ record [22, 3, minor] last)
    (hsplit : s.hello ++ (bodies.flatten ++ last) = whole) :
    (Counter.loop s).2 = some ⟨s.records + bodies.length + 1, whole.length⟩ ↔
      (∀ body ∈ bodies, body ≠ []) ∧ last ≠ [] ∧ s.records + bodies.length < 64 := by
  induction bodies generalizing s with
  | nil =>
    have hloop := loop_record hminor last [] [] hmax hwhole
      (by rw [hwire, List.append_nil]; rfl) (by rw [List.append_nil]; exact hsplit)
    rw [hloop, if_pos (c := [] = []) rfl, List.length_nil]
    constructor
    · intro h
      split at h
      · cases h
      · rename_i hgood
        rw [not_or] at hgood
        exact ⟨fun body hbody => absurd hbody List.not_mem_nil, hgood.1, by omega⟩
    · rintro ⟨-, hlast, hfew⟩
      rw [if_neg (not_or.mpr ⟨hlast, by omega⟩)]
  | cons body bodies ih =>
    have hloop := loop_record hminor body (bodies.flatten ++ last)
      (bodies.flatMap (record [22, 3, minor]) ++ record [22, 3, minor] last) hmax hwhole
      (by rw [hwire, List.flatMap_cons, List.append_assoc])
      (by rw [← hsplit, List.flatten_cons]; simp only [List.append_assoc])
    rw [hloop, List.length_cons]
    by_cases hgood : body = [] ∨ s.records + 1 > 64
    · rw [if_pos hgood]
      -- an empty record, or one too many, ends the reading at once
      refine iff_of_false (by simp) ?_
      rintro ⟨hall, -, hfew⟩
      obtain hempty | hmany := hgood
      · exact hall body List.mem_cons_self hempty
      · omega
    · rw [if_neg hgood]
      rw [not_or] at hgood
      by_cases hrest : bodies.flatten ++ last = []
      · -- the message is complete before its last records
        rw [if_pos hrest]
        refine iff_of_false ?_ ?_
        · intro h
          injection h with h
          injection h with h
          omega
        · rintro ⟨-, hlast, -⟩
          exact hlast (List.append_eq_nil_iff.mp hrest).2
      · rw [if_neg hrest]
        -- the record is taken in, and the reading goes on behind it
        have hnext := ih (s.shift body (bodies.flatMap (record [22, 3, minor]) ++ record [22, 3, minor] last)) rfl (by
          rw [← hsplit, List.flatten_cons]
          simp only [shift, List.append_assoc])
        have hrecords : (s.shift body (bodies.flatMap (record [22, 3, minor]) ++ record [22, 3, minor] last)).records =
          s.records + 1 := rfl
        rw [hrecords, show s.records + 1 + bodies.length + 1 = s.records + (bodies.length + 1) + 1 by omega] at hnext
        rw [hnext]
        constructor
        · rintro ⟨hall, hlast, hfew⟩
          refine ⟨fun b hb => ?_, hlast, by omega⟩
          obtain rfl | hb := List.mem_cons.mp hb
          · exact hgood.1
          · exact hall b hb
        · rintro ⟨hall, hlast, hfew⟩
          exact ⟨fun b hb => hall b (List.mem_cons_of_mem body hb), hlast, by omega⟩

/-- The records that go out, read by the observer in one piece. -/
theorem Cut.counted {minor : UInt8} (hminor : minor ≤ 4) {whole : List UInt8} (hmax : whole.length ≤ MAX_RECORD)
    (hwhole : message whole = .complete whole.length) (c : Cut [22, 3, minor] whole whole.length size st) :
    (Counter.feed {} (st.buffer.take st.n.toNat)).2 = some ⟨c.bodies.length + 1, whole.length⟩ ↔
      (∀ body ∈ c.bodies, body ≠ []) ∧ c.last ≠ [] ∧ c.bodies.length < 64 := by
  have hpayload := congrArg List.length c.whole_eq
  rw [List.length_append] at hpayload
  have hbytes : st.buffer.take st.n.toNat = c.bodies.flatMap (record [22, 3, minor]) ++ record [22, 3, minor] c.last := by
    rw [c.take_n rfl, record, show whole.length - c.bodies.flatten.length = c.last.length by omega]
  have hloop := loop_records hminor hmax hwhole c.bodies (Counter.extend {} (st.buffer.take st.n.toNat)) hbytes c.whole_eq
  have hzero : (Counter.extend {} (st.buffer.take st.n.toNat)).records = 0 := rfl
  have hlen : (st.buffer.take st.n.toNat).length = whole.length + 5 * c.bodies.length + 5 := by
    rw [hbytes, List.length_append, length_records rfl, length_record rfl]
    omega
  rw [hzero, Nat.zero_add] at hloop
  unfold Counter.feed
  rw [if_neg Bool.false_ne_true]
  have hroom : whole.length ≤ 18432 := hmax
  split
  · rename_i hlong
    have hmore : 83968 < (st.buffer.take st.n.toNat).length := by
      have hlong' : (0 : ℕ) + (st.buffer.take st.n.toNat).length > 65536 + 18432 := hlong
      omega
    refine iff_of_false (by simp) ?_
    rintro ⟨-, -, hfew⟩
    omega
  · exact hloop

/-- **What the probe sees of a ClientHello that was cut**: as many records as there are, and the whole
message, where no cut leaves an empty record; and of one that is left empty it sees that it is. -/
theorem tamp_counted (rand : ℕ → ℕ) (dp : TampParams) (info : ProtoInfo) (minor : UInt8) (whole : List UInt8)
    (slack : List UInt8) (hminor : dp.tlsminor.getD minor ≤ 4) (hmax : whole.length ≤ MAX_RECORD)
    (hwhole : message whole = .complete whole.length) {out : State}
    (h : tamp rand dp ([22, 3, minor] ++ (bigEndian 2 whole.length ++ (whole ++ slack))) (5 + whole.length) info = some out) :
    ∃ (bodies : List (List UInt8)) (last : List UInt8), bodies.flatten ++ last = whole ∧
      out.buffer.take out.n.toNat =
        bodies.flatMap (record [22, 3, dp.tlsminor.getD minor]) ++ record [22, 3, dp.tlsminor.getD minor] last ∧
      ((Counter.feed {} (out.buffer.take out.n.toNat)).2 = some ⟨bodies.length + 1, whole.length⟩ ↔
        (∀ body ∈ bodies, body ≠ []) ∧ last ≠ [] ∧ bodies.length < 64) := by
  have hkind : whole.head? = some 1 := by
    unfold message at hwhole
    split at hwhole
    · cases hwhole
    · split at hwhole
      · cases hwhole
      · rename_i hone
        rw [not_not] at hone
        rw [hone]
        rfl
  have hroom : whole.length ≤ 18432 := hmax
  obtain ⟨c⟩ := (tamp_cut rand dp info minor whole whole.length slack hkind (le_refl _) (by omega)).2 out h
  have hpayload := congrArg List.length c.whole_eq
  rw [List.length_append] at hpayload
  refine ⟨c.bodies, c.last, c.whole_eq, ?_, c.counted hminor hmax hwhole⟩
  rw [c.take_n rfl, record, show whole.length - c.bodies.flatten.length = c.last.length by omega]

/-- A cut after two bytes, as the observer counts it. -/
theorem tamp_counted_short : ∃ out, tamp (fun _ => 0) { tlsrec := [{ pos := 2 }] }
      ([22, 3, 1] ++ (bigEndian 2 6 ++ ([1, 0, 0, 2, 7, 8] ++ List.replicate 6 0))) 11 {} = some out ∧
    ∃ (bodies : List (List UInt8)) (last : List UInt8), bodies.flatten ++ last = [1, 0, 0, 2, 7, 8] ∧
      ((Counter.feed {} (out.buffer.take out.n.toNat)).2 = some ⟨bodies.length + 1, 6⟩ ↔
        (∀ body ∈ bodies, body ≠ []) ∧ last ≠ [] ∧ bodies.length < 64) := by
  obtain ⟨hnone, -⟩ := tamp_cut (fun _ => 0) { tlsrec := [{ pos := 2 }] } {} 1 [1, 0, 0, 2, 7, 8] 6
    (List.replicate 6 0) rfl (by decide) (by decide)
  obtain ⟨out, hout⟩ := Option.ne_none_iff_exists'.mp fun h => not_undrawn (by decide) _ _ _ (hnone.mp h)
  obtain ⟨bodies, last, hsplit, -, hcount⟩ := tamp_counted (fun _ => 0) { tlsrec := [{ pos := 2 }] } {} 1
    [1, 0, 0, 2, 7, 8] (List.replicate 6 0) (by decide) (by decide) (by decide) hout
  exact ⟨out, hout, bodies, last, hsplit, hcount⟩

end

end VlessCard.TlsRecords
