/-
`try_set_tls_timer` of the local engine: a server that falls silent in the middle of a record.

The answer of a server is followed record by record as it arrives, in whatever pieces the socket
returns, and a timer runs while a record is not complete. The position within a record is kept
between two calls in two numbers and in the five bytes of its head, and what they mean is the part
of the stream that belongs to the record that has begun: nothing else of the past counts.
-/
import VlessCard.TlsRecords

set_option autoImplicit false

namespace VlessCard.TlsTimer

open Wire Packets TlsRecords Frames

/-! ## The functions

The timer looks at the first bytes of a record only: its type and its length. The loop keeps how
far it is in the record over the pieces of a stream. -/

structure Params where
  to_bytes_lim : ℕ
  ptimeout : ℕ
  deriving DecidableEq, Repr

/-- The fields of an `eval` that follow what a server sends; `timer` is whether `tv_ms` is set, and
`mark` is that of the pair. -/
structure Eval where
  recv_count : ℕ := 0
  tls_rec_size : ℕ := 0
  tls_rec_pos : ℕ := 0
  tls_rec : Fin 5 → UInt8 := fun _ => 0
  timer : Bool := false
  mark : Bool := true

/-- `ANTOHS(val->tls_rec, 3) + 5`. -/
def recSize (tls_rec : Fin 5 → UInt8) : ℕ := (tls_rec 3).toNat * 256 + (tls_rec 4).toNat + 5

def typeOk (t : UInt8) : Bool := 0x14 ≤ t && t ≤ 0x18

/-- `tls_rec_size`, which is set when the head is complete. -/
def Eval.size (val : Eval) : ℕ := if val.tls_rec_pos = 5 then recSize val.tls_rec else val.tls_rec_size

/-- The loop over the bytes from `pos` on, which are `rest`; `none` is the return of `-1`. -/
def loop (val : Eval) : List UInt8 → Option Eval
  | [] => some val
  | b :: rest =>
    if h : val.tls_rec_pos < 5 then
      loop { val with tls_rec := Function.update val.tls_rec ⟨val.tls_rec_pos, h⟩ b, tls_rec_pos := val.tls_rec_pos + 1 } rest
    else if val.tls_rec_pos ≠ 5 ∧ val.tls_rec_pos = val.tls_rec_size then
      -- the byte is looked at again, as the first of a head
      loop { val with tls_rec_pos := 0, tls_rec_size := 0 } (b :: rest)
    else if val.tls_rec_pos = 5 ∧ typeOk (val.tls_rec 0) = false then none
    else if val.size ≤ val.tls_rec_pos then none
    else
      loop { val with
          tls_rec_size := val.size
          tls_rec_pos := val.tls_rec_pos + min (val.size - val.tls_rec_pos) (b :: rest).length }
        ((b :: rest).drop (min (val.size - val.tls_rec_pos) (b :: rest).length))
termination_by l => (l.length, val.tls_rec_pos)
decreasing_by
  · exact Prod.Lex.left _ _ (by simp)
  · exact Prod.Lex.right _ (by omega)
  · refine Prod.Lex.left _ _ ?_
    simp only [List.length_drop, List.length_cons]
    omega

/-- `try_set_tls_timer`: whether it returns zero, and the timer and the position it leaves. -/
def trySetTlsTimer (params : Params) (val : Eval) (buff : List UInt8) : Bool × Eval :=
  if params.to_bytes_lim ≠ 0 ∧ params.to_bytes_lim < val.recv_count then (false, { val with timer := false })
  else
    match loop val buff with
    | none => (false, val)
    | some val =>
      (true, if params.ptimeout ≠ 0 then { val with timer := decide (val.tls_rec_pos ≠ val.tls_rec_size) } else val)

/-- What `tcp_recv_hook` does of it with the bytes of one `recv`. -/
def recv (params : Params) (val : Eval) (buff : List UInt8) : Eval :=
  let val := { val with recv_count := val.recv_count + buff.length }
  if val.mark then
    let r := trySetTlsTimer params val buff
    { r.2 with mark := r.1 }
  else val

/-! ## The record that has begun

What has come of the current record is kept as a list, and the next byte either extends it, ends
it or shows that it is no record. The loop over a piece does this byte by byte. -/

/-- What a record's head says of the bytes behind it. -/
def bodyLen (part : List UInt8) : ℕ := TLS.size (part.take 5)

/-- The bytes of the record that has begun, and one more: its head is judged when a byte follows it. -/
def next (part : List UInt8) (b : UInt8) : Option (List UInt8) :=
  if part.length < 5 then some (part ++ [b])
  else if typeOk (part.headD 0) = false ∨ bodyLen part = 0 then none
  else if part.length + 1 = 5 + bodyLen part then some []
  else some (part ++ [b])

/-- The position of the loop within the record that has begun. -/
structure At (val : Eval) (part : List UInt8) : Prop where
  head : ∀ (i : ℕ) (h : i < 5), i < part.length → val.tls_rec ⟨i, h⟩ = part.getD i 0
  pos : part ≠ [] → val.tls_rec_pos = part.length
  early : part ≠ [] → part.length ≤ 5 → val.tls_rec_size = 0
  late : 5 < part.length → val.tls_rec_size = 5 + bodyLen part ∧ part.length < 5 + bodyLen part ∧ typeOk (part.headD 0) = true
  done : part = [] → val.tls_rec_pos = val.tls_rec_size ∧ (val.tls_rec_pos = 0 ∨ 5 < val.tls_rec_pos)

/-- The length stands in two bytes of the header. -/
theorem bodyLen_eq {part : List UInt8} (h : 5 ≤ part.length) :
    bodyLen part = (part.getD 3 0).toNat * 256 + (part.getD 4 0).toNat := by
  match part, h with
  | a :: b :: c :: d :: e :: more, _ => rfl

/-- The bytes behind the head do not change what it says. -/
theorem bodyLen_append {part : List UInt8} (h : 5 ≤ part.length) (more : List UInt8) : bodyLen (part ++ more) = bodyLen part := by
  unfold bodyLen
  rw [List.take_append_of_le_length h]

/-- What is read of a header does not change with what follows. -/
theorem headD_append {part : List UInt8} (h : 5 ≤ part.length) (more : List UInt8) :
    (part ++ more).headD 0 = part.headD 0 := by
  cases part with
  | nil => exact absurd h (by decide)
  | cons => rfl

variable {val : Eval} {part : List UInt8}

theorem At.recSize_eq (h : At val part) (hlen : 5 ≤ part.length) : recSize val.tls_rec = 5 + bodyLen part := by
  have hhigh := h.head 3 (by decide) (by omega)
  have hlow := h.head 4 (by decide) (by omega)
  rw [bodyLen_eq hlen, ← hhigh, ← hlow, recSize, Nat.add_comm]
  rfl

theorem At.type_eq (h : At val part) (hlen : 5 ≤ part.length) : val.tls_rec 0 = part.headD 0 := by
  have hfirst := h.head 0 (by decide) (by omega)
  cases part with
  | nil => exact absurd hlen (by decide)
  | cons => exact hfirst

theorem At.size_eq (h : At val part) (hlen : 5 ≤ part.length) : val.size = 5 + bodyLen part := by
  have hne : part ≠ [] := List.ne_nil_of_length_pos (by omega)
  have hpos := h.pos hne
  unfold Eval.size
  split
  · exact h.recSize_eq hlen
  · exact (h.late (by omega)).1

/-- A byte of the head. -/
theorem At.push (h : At val part) (hlt : val.tls_rec_pos < 5) (hpos : val.tls_rec_pos = part.length) (b : UInt8) :
    At { val with tls_rec := Function.update val.tls_rec ⟨val.tls_rec_pos, hlt⟩ b, tls_rec_pos := val.tls_rec_pos + 1 }
      (part ++ [b]) where
  head i hi hlen := by
    rw [List.length_append, List.length_singleton] at hlen
    by_cases heq : i = part.length
    · subst heq
      simp only [hpos, Function.update_self, List.getD_append_right _ _ _ _ (le_refl _), Nat.sub_self]
      rfl
    · have hne : (⟨i, hi⟩ : Fin 5) ≠ ⟨val.tls_rec_pos, hlt⟩ := by
        intro hfin
        exact heq ((Fin.mk.inj hfin).trans hpos)
      rw [List.getD_append _ _ _ _ (by omega)]
      simp only [Function.update_of_ne hne]
      exact h.head i hi (by omega)
  pos _ := by
    show val.tls_rec_pos + 1 = _
    rw [List.length_append, List.length_singleton, hpos]
  early _ _ := by
    by_cases hne : part = []
    · have hsize := (h.done hne).1
      rw [hne, List.length_nil] at hpos
      exact hsize.symm.trans hpos
    · exact h.early hne (by omega)
  late hlen := by
    rw [List.length_append, List.length_singleton] at hlen
    omega
  done hnil := absurd hnil (by simp)

/-- Bytes of the body, up to its end. -/
theorem At.extend (h : At val part) (hlen : 5 ≤ part.length) (htype : typeOk (part.headD 0) = true) {xs : List UInt8}
    (hne : xs ≠ []) (hroom : part.length + xs.length ≤ 5 + bodyLen part) :
    At { val with tls_rec_size := val.size, tls_rec_pos := val.tls_rec_pos + xs.length }
      (if part.length + xs.length = 5 + bodyLen part then [] else part ++ xs) := by
  have hpart : part ≠ [] := List.ne_nil_of_length_pos (by omega)
  have hpos := h.pos hpart
  have hsize := h.size_eq hlen
  have hxs := List.length_pos_iff.mpr hne
  split
  -- the bytes end the record, and the timer is still behind its last one
  · rename_i hend
    refine ⟨fun i hi hnil => absurd hnil (Nat.not_lt_zero i), fun hnil => absurd rfl hnil, fun hnil => absurd rfl hnil,
      fun hnil => absurd hnil (by decide), fun _ => ⟨?_, .inr ?_⟩⟩
    · show val.tls_rec_pos + xs.length = val.size
      omega
    · show 5 < val.tls_rec_pos + xs.length
      omega
  · rename_i hend
    -- the record goes on: its head is known and its size with it
    refine ⟨fun i hi hin => ?_, fun _ => ?_, fun _ hshort => ?_, fun _ => ⟨?_, ?_, ?_⟩, fun hnil => ?_⟩
    · rw [List.getD_append _ _ _ _ (by omega)]
      exact h.head i hi (by omega)
    · show val.tls_rec_pos + xs.length = _
      rw [List.length_append, hpos]
    · rw [List.length_append] at hshort
      omega
    · show val.size = _
      rw [bodyLen_append hlen, hsize]
    · rw [bodyLen_append hlen, List.length_append]
      omega
    · rw [headD_append hlen]
      exact htype
    · exact absurd (List.append_eq_nil_iff.mp hnil).1 hpart

/-- Some bytes of the body, up to its end. -/
theorem foldlM_body {xs : List UInt8} (hlen : 5 ≤ part.length) (htype : typeOk (part.headD 0) = true)
    (hsize : bodyLen part ≠ 0) (hne : xs ≠ []) (hroom : part.length + xs.length ≤ 5 + bodyLen part) :
    xs.foldlM next part = some (if part.length + xs.length = 5 + bodyLen part then [] else part ++ xs) := by
  induction xs generalizing part with
  | nil => exact absurd rfl hne
  | cons x xs ih =>
    rw [List.length_cons] at hroom ⊢
    have hgood : ¬ (typeOk (part.headD 0) = false ∨ bodyLen part = 0) := by
      rw [not_or]
      exact ⟨by rw [htype]; decide, hsize⟩
    -- below the end of the record a byte is only appended
    have hnext : next part x = if part.length + 1 = 5 + bodyLen part then some [] else some (part ++ [x]) := by
      unfold next
      rw [if_neg (by omega), if_neg hgood]
    rw [List.foldlM_cons, hnext]
    by_cases hend : part.length + 1 = 5 + bodyLen part
    -- this byte ends the record, so it is the last of them
    · have hnil : xs = [] := List.length_eq_zero_iff.mp (by omega)
      rw [if_pos hend, hnil, List.length_nil, Nat.zero_add, if_pos hend]
      rfl
    · rw [if_neg hend]
      by_cases hnil : xs = []
      · rw [hnil, List.length_nil, Nat.zero_add, if_neg hend]
        rfl
      · have hlong : 5 ≤ (part ++ [x]).length := by
          rw [List.length_append]
          omega
        have hrest := ih hlong
          (by rw [headD_append hlen]; exact htype) (by rw [bodyLen_append hlen]; exact hsize) hnil
          (by rw [List.length_append, List.length_singleton, bodyLen_append hlen]; omega)
        rw [bodyLen_append hlen, List.length_append, List.length_singleton, List.append_assoc, List.singleton_append,
          show part.length + 1 + xs.length = part.length + (xs.length + 1) by omega] at hrest
        exact hrest

/-- A record that is not judged sound is refused with the next byte. -/
theorem foldlM_bad {xs : List UInt8} (hlen : 5 ≤ part.length) (hbad : typeOk (part.headD 0) = false ∨ bodyLen part = 0)
    (hne : xs ≠ []) : xs.foldlM next part = none := by
  cases xs with
  | nil => exact absurd rfl hne
  | cons x xs =>
    rw [List.foldlM_cons, next, if_neg (by omega), if_pos hbad]
    rfl

/-- **The loop over a piece is the reading of its bytes one by one.** -/
theorem loop_eq (h : At val part) (rest : List UInt8) :
    (loop val rest = none ∧ rest.foldlM next part = none) ∨
      ∃ val' part', loop val rest = some val' ∧ rest.foldlM next part = some part' ∧ At val' part' ∧
        val'.recv_count = val.recv_count ∧ val'.mark = val.mark ∧ val'.timer = val.timer := by
  induction val, rest using loop.induct generalizing part with
  | case1 val => exact .inr ⟨val, part, by rw [loop], rfl, h, rfl, rfl, rfl⟩
  | case2 val b rest hlt ih =>
    have hpos : val.tls_rec_pos = part.length := by
      by_cases hne : part = []
      · obtain hzero | hbig := (h.done hne).2
        · rw [hzero, hne, List.length_nil]
        · omega
      · exact h.pos hne
    have hnext : next part b = some (part ++ [b]) := by
      unfold next
      rw [if_pos (by omega)]
    rw [loop, dif_pos hlt, List.foldlM_cons, hnext]
    exact ih (h.push hlt hpos b)
  | case3 val b rest hlt hdone ih =>
    -- a new record begins
    have hnil : part = [] := by
      by_contra hne
      have hpos := h.pos hne
      by_cases hshort : part.length ≤ 5
      · have hsize := h.early hne hshort
        omega
      · have hlate := h.late (by omega)
        omega
    subst hnil
    rw [loop, dif_neg hlt, if_pos hdone]
    exact ih ⟨fun i hi hlen => absurd hlen (Nat.not_lt_zero i), fun hne => absurd rfl hne, fun hne => absurd rfl hne,
      fun hlen => absurd hlen (by decide), fun _ => ⟨rfl, .inl rfl⟩⟩
  | case4 val b rest hlt hdone hbad =>
    obtain ⟨hfive, htype⟩ := hbad
    have hne : part ≠ [] := by
      intro hnil
      obtain hzero | hbig := (h.done hnil).2 <;> omega
    have hpos := h.pos hne
    rw [h.type_eq (by omega)] at htype
    left
    refine ⟨?_, foldlM_bad (by omega) (.inl htype) (List.cons_ne_nil b rest)⟩
    rw [loop, dif_neg hlt, if_neg hdone, if_pos ⟨hfive, by rw [h.type_eq (by omega)]; exact htype⟩]
  | case5 val b rest hlt hdone hbad hsize =>
    have hne : part ≠ [] := by
      intro hnil
      obtain ⟨heq, hzero | hbig⟩ := h.done hnil
      · omega
      · exact hdone ⟨by omega, heq⟩
    have hpos := h.pos hne
    have hnow := h.size_eq (by omega)
    have hempty : bodyLen part = 0 := by
      by_cases hshort : part.length ≤ 5
      · omega
      · have hlate := h.late (by omega)
        omega
    left
    refine ⟨?_, foldlM_bad (by omega) (.inr hempty) (List.cons_ne_nil b rest)⟩
    rw [loop, dif_neg hlt, if_neg hdone, if_neg hbad, if_pos hsize]
  | case6 val b rest hlt hdone hbad hsize ih =>
    have hne : part ≠ [] := by
      intro hnil
      obtain ⟨heq, hzero | hbig⟩ := h.done hnil
      · omega
      · exact hdone ⟨by omega, heq⟩
    have hpos := h.pos hne
    have hlen : 5 ≤ part.length := by omega
    have hnow := h.size_eq hlen
    have htype : typeOk (part.headD 0) = true := by
      by_cases hshort : part.length ≤ 5
      · rw [← h.type_eq hlen]
        by_contra htype
        exact hbad ⟨by omega, by simpa using htype⟩
      · exact (h.late (by omega)).2.2
    -- the piece up to the end of the record, and what is left of it
    have hk : ((b :: rest).take (min (val.size - val.tls_rec_pos) (b :: rest).length)).length =
        min (val.size - val.tls_rec_pos) (b :: rest).length := by
      rw [List.length_take]
      omega
    have hfirst : (b :: rest).take (min (val.size - val.tls_rec_pos) (b :: rest).length) ≠ [] := by
      apply List.ne_nil_of_length_pos
      rw [hk, List.length_cons]
      omega
    have hroom : part.length + ((b :: rest).take (min (val.size - val.tls_rec_pos) (b :: rest).length)).length ≤
        5 + bodyLen part := by
      rw [hk]
      omega
    have hnext := h.extend hlen htype hfirst hroom
    rw [hk] at hnext
    have hfold : (b :: rest).foldlM next part =
        ((b :: rest).drop (min (val.size - val.tls_rec_pos) (b :: rest).length)).foldlM next
          (if part.length + min (val.size - val.tls_rec_pos) (b :: rest).length = 5 + bodyLen part then []
            else part ++ (b :: rest).take (min (val.size - val.tls_rec_pos) (b :: rest).length)) := by
      conv_lhs => rw [← List.take_append_drop (min (val.size - val.tls_rec_pos) (b :: rest).length) (b :: rest)]
      rw [List.foldlM_append, foldlM_body hlen htype (by omega) hfirst hroom, hk]
      rfl
    rw [loop, dif_neg hlt, if_neg hdone, if_neg hbad, if_neg hsize, hfold]
    exact ih hnext

/-! ## The records of a stream

A stream is sound records and the beginning of one more. Reading it byte by byte leaves just that
beginning, since a record that is complete leaves nothing. -/

/-- A stream of sound records, none of them empty, and the beginning of one more. -/
structure Reading (stream : List UInt8) where
  records : List (Frame TLS)
  part : List UInt8
  stream_eq : stream = records.flatMap Frame.bytes ++ part
  sound : ∀ r ∈ records, typeOk (r.head.headD 0) = true ∧ r.body ≠ []
  begun : part.length ≤ 5 ∨ typeOk (part.headD 0) = true ∧ part.length < 5 + bodyLen part

theorem foldlM_head (part xs : List UInt8) (h : part.length + xs.length ≤ 5) : xs.foldlM next part = some (part ++ xs) := by
  induction xs generalizing part with
  | nil => rw [List.append_nil]; rfl
  | cons x xs ih =>
    rw [List.length_cons] at h
    have hnext : next part x = some (part ++ [x]) := by
      unfold next
      rw [if_pos (by omega)]
    have hshort : (part ++ [x]).length + xs.length ≤ 5 := by
      rw [List.length_append, List.length_singleton]
      omega
    have hrest := ih _ hshort
    rw [List.append_assoc, List.singleton_append] at hrest
    rw [List.foldlM_cons, hnext]
    exact hrest

/-- From the first byte of a record on. -/
theorem foldlM_start {head xs : List UInt8} (hhead : head.length = 5) (htype : typeOk (head.headD 0) = true)
    (hne : xs ≠ []) (hroom : xs.length ≤ bodyLen head) :
    (head ++ xs).foldlM next [] = some (if xs.length = bodyLen head then [] else head ++ xs) := by
  have hpos := List.length_pos_iff.mpr hne
  have hbody := foldlM_body hhead.ge htype (by omega) hne (by omega)
  rw [List.foldlM_append, foldlM_head [] head (by rw [List.length_nil]; omega), List.nil_append]
  simp only [hhead, Nat.add_left_cancel_iff] at hbody
  exact hbody

/-- A record that is written says how long it is. -/
theorem Frame.bodyLen_head (r : Frame TLS) : bodyLen r.head = r.body.length := by
  have hhead : r.head.length = 5 := r.length_head
  unfold bodyLen
  rw [List.take_of_length_le (by omega), r.length_body]

/-- **What has been collected is the last record, as far as it came.** -/
theorem Reading.foldlM_eq {stream : List UInt8} (R : Reading stream) : stream.foldlM next [] = some R.part := by
  -- every record that is complete takes the timer back to the start
  have hrecords : ∀ records : List (Frame TLS), (∀ r ∈ records, typeOk (r.head.headD 0) = true ∧ r.body ≠ []) →
      (records.flatMap Frame.bytes).foldlM next [] = some [] := by
    intro records hsound
    induction records with
    | nil => rfl
    | cons r records ih =>
      obtain ⟨htype, hbody⟩ := hsound r List.mem_cons_self
      have hlen := Frame.bodyLen_head r
      have hfirst := foldlM_start r.length_head htype hbody (by omega)
      rw [if_pos hlen.symm] at hfirst
      rw [List.flatMap_cons, List.foldlM_append, Frame.bytes, hfirst]
      exact ih fun x hx => hsound x (List.mem_cons_of_mem r hx)
  -- what has begun is taken in byte by byte, head first
  have hpart : R.part.foldlM next [] = some R.part := by
    by_cases hshort : R.part.length ≤ 5
    · exact foldlM_head [] _ (by rw [List.length_nil]; omega)
    · obtain hle | ⟨htype, hlt⟩ := R.begun
      · exact absurd hle hshort
      · have hhead : (R.part.take 5).length = 5 := by
          rw [List.length_take]
          omega
        have hsplit : R.part.take 5 ++ R.part.drop 5 = R.part := List.take_append_drop 5 R.part
        have hsize : bodyLen (R.part.take 5) = bodyLen R.part := by
          rw [← bodyLen_append (by omega) (R.part.drop 5), hsplit]
        have hroom : (R.part.drop 5).length ≤ bodyLen (R.part.take 5) := by
          rw [hsize, List.length_drop]
          omega
        have hstart := foldlM_start hhead
          (by rw [← headD_append (by omega) (R.part.drop 5), hsplit]; exact htype)
          (List.ne_nil_of_length_pos (by rw [List.length_drop]; omega)) hroom
        rw [hsplit, if_neg (by rw [hsize, List.length_drop]; omega)] at hstart
        exact hstart
  refine (congrArg (List.foldlM next []) R.stream_eq).trans ?_
  rw [List.foldlM_append, hrecords R.records R.sound]
  exact hpart

/-- One byte more. -/
theorem Reading.push {stream : List UInt8} (R : Reading stream) {b : UInt8} {part' : List UInt8}
    (h : next R.part b = some part') : Nonempty (Reading (stream ++ [b])) := by
  have hstream : stream ++ [b] = R.records.flatMap Frame.bytes ++ (R.part ++ [b]) := by
    rw [← List.append_assoc, ← R.stream_eq]
  unfold next at h
  split at h
  -- the head is not complete yet
  · refine ⟨⟨R.records, R.part ++ [b], hstream, R.sound, .inl ?_⟩⟩
    rw [List.length_append, List.length_singleton]
    omega
  · rename_i hlen
    split at h
    · cases h
    · rename_i hgood
      rw [not_or] at hgood
      have htype : typeOk (R.part.headD 0) = true := by simpa using hgood.1
      have hlt : R.part.length < 5 + bodyLen R.part := by
        obtain hle | hbegun := R.begun
        · omega
        · exact hbegun.2
      split at h
      · -- the record is complete
        rename_i hend
        have hhead : ((R.part ++ [b]).take 5).length = TLS.headLen := by
          rw [List.length_take, List.length_append, List.length_singleton]
          show min 5 (R.part.length + 1) = 5
          omega
        have hbody : ((R.part ++ [b]).drop 5).length = TLS.size ((R.part ++ [b]).take 5) := by
          rw [List.length_drop, List.length_append, List.length_singleton, hend]
          have hlong : 5 ≤ R.part.length := by omega
          have hsize := bodyLen_append hlong [b]
          unfold bodyLen at hsize
          rw [hsize]
          show 5 + bodyLen R.part - 5 = bodyLen R.part
          omega
        refine ⟨⟨R.records ++ [⟨_, _, hhead, hbody⟩], [], ?_, fun r hr => ?_, .inl (Nat.zero_le _)⟩⟩
        · rw [hstream, List.flatMap_append, List.flatMap_cons, List.flatMap_nil, List.append_nil, List.append_nil,
            Frame.bytes, List.take_append_drop]
        · obtain hr | hr := List.mem_append.mp hr
          · exact R.sound r hr
          · obtain rfl := List.mem_singleton.mp hr
            refine ⟨?_, List.ne_nil_of_length_pos ?_⟩
            · show typeOk (((R.part ++ [b]).take 5).headD 0) = true
              rw [List.take_append_of_le_length (by omega)]
              cases hp : R.part with
              | nil =>
                rw [hp] at hlen
                exact absurd (Nat.zero_lt_succ 4) hlen
              | cons x part =>
                rw [hp] at htype
                exact htype
            · show 0 < ((R.part ++ [b]).drop 5).length
              rw [List.length_drop, List.length_append, List.length_singleton]
              omega
      · rename_i hend
        -- the record stays open with one byte more
        refine ⟨⟨R.records, R.part ++ [b], hstream, R.sound, .inr ⟨?_, ?_⟩⟩⟩
        · rw [headD_append (by omega)]
          exact htype
        · rw [bodyLen_append (by omega), List.length_append, List.length_singleton]
          omega

/-- What is read byte by byte is such a stream. -/
theorem exists_reading {stream part : List UInt8} (h : stream.foldlM next [] = some part) : ∃ R : Reading stream, R.part = part := by
  induction stream using List.reverseRecOn generalizing part with
  | nil =>
    obtain rfl := Option.some.inj h
    exact ⟨⟨[], [], rfl, fun r hr => absurd hr List.not_mem_nil, .inl (Nat.zero_le _)⟩, rfl⟩
  | append_singleton stream b ih =>
    rw [List.foldlM_append] at h
    obtain ⟨mid, hmid, hlast⟩ := Option.bind_eq_some_iff.mp h
    obtain ⟨R, rfl⟩ := ih hmid
    have hnext : next R.part b = some part := by
      rw [List.foldlM_cons] at hlast
      obtain ⟨last, hnext, hend⟩ := Option.bind_eq_some_iff.mp hlast
      rw [hnext, Option.some.inj hend]
    obtain ⟨R'⟩ := R.push hnext
    have hall := R'.foldlM_eq
    rw [List.foldlM_append, hmid] at hall
    exact ⟨R', Option.some.inj (hall.symm.trans hlast)⟩

/-! ## Every way to cut the answer into pieces

With the reading known, each piece is watched as the stream is up to its end. So neither the mark
nor the timer depends on how the answer was cut. -/

/-- What has been received is not more than is to be watched. -/
def InLimit (params : Params) (stream : List UInt8) : Prop :=
  params.to_bytes_lim = 0 ∨ stream.length ≤ params.to_bytes_lim

/-- What holds between two pieces. -/
structure Watch (params : Params) (stream : List UInt8) (val : Eval) : Prop where
  count : val.recv_count = stream.length
  on : val.mark = true → InLimit params stream ∧ ∃ part, stream.foldlM next [] = some part ∧ At val part ∧
    val.timer = decide (params.ptimeout ≠ 0 ∧ part ≠ [])
  off : val.mark = false → ¬ (InLimit params stream ∧ ∃ part, stream.foldlM next [] = some part)

theorem Watch.fresh (params : Params) : Watch params [] {} where
  count := rfl
  on _ := ⟨.inr (Nat.zero_le _), [], rfl, ⟨fun i hi hlen => absurd hlen (Nat.not_lt_zero i), fun hne => absurd rfl hne,
    fun hne => absurd rfl hne, fun hlen => absurd hlen (by decide), fun _ => ⟨rfl, .inl rfl⟩⟩, by simp⟩
  off h := absurd h (by decide)

/-- The timer is set again unless the record is complete. -/
theorem At.pos_ne_iff (h : At val part) : val.tls_rec_pos ≠ val.tls_rec_size ↔ part ≠ [] := by
  constructor
  · intro hne hnil
    exact hne (h.done hnil).1
  · intro hne
    have hlen := List.length_pos_iff.mpr hne
    have hpos := h.pos hne
    by_cases hshort : part.length ≤ 5
    · have hsize := h.early hne hshort
      omega
    · have hlate := h.late (by omega)
      omega

/-- Each piece is watched as the stream is. -/
theorem Watch.recv {params : Params} {stream : List UInt8} {val : Eval} (h : Watch params stream val) (buff : List UInt8) :
    Watch params (stream ++ buff) (recv params val buff) := by
  have hcount : val.recv_count + buff.length = (stream ++ buff).length := by
    rw [h.count, List.length_append]
  cases hmark : val.mark with
  | false =>
    have hsame : TlsTimer.recv params val buff = { val with recv_count := val.recv_count + buff.length } := by
      unfold TlsTimer.recv
      dsimp only
      rw [hmark, if_neg Bool.false_ne_true]
    rw [hsame]
    refine ⟨hcount, fun hon => absurd (hmark.symm.trans hon) (by decide), fun _ hall => h.off hmark ?_⟩
    -- what was wrong before stays wrong
    obtain ⟨hlimit, part, hpart⟩ := hall
    rw [List.foldlM_append] at hpart
    obtain ⟨mid, hmid, -⟩ := Option.bind_eq_some_iff.mp hpart
    rw [InLimit, List.length_append] at hlimit
    exact ⟨hlimit.imp_right fun hle => by omega, mid, hmid⟩
  | true =>
    obtain ⟨hlimit, part, hpart, hat, htimer⟩ := h.on hmark
    have hfold : (stream ++ buff).foldlM next [] = buff.foldlM next part := by
      rw [List.foldlM_append, hpart]
      rfl
    have hrecv : TlsTimer.recv params val buff =
        { (trySetTlsTimer params { val with recv_count := val.recv_count + buff.length } buff).2 with
          mark := (trySetTlsTimer params { val with recv_count := val.recv_count + buff.length } buff).1 } := by
      unfold TlsTimer.recv
      dsimp only
      rw [hmark, if_pos rfl]
    rw [hrecv]
    have hat' : At { val with recv_count := val.recv_count + buff.length } part :=
      ⟨hat.head, hat.pos, hat.early, hat.late, hat.done⟩
    unfold trySetTlsTimer
    by_cases hover : params.to_bytes_lim ≠ 0 ∧ params.to_bytes_lim < val.recv_count + buff.length
    · rw [if_pos hover]
      refine ⟨hcount, fun hon => absurd hon Bool.false_ne_true, fun _ hall => ?_⟩
      obtain hzero | hle := hall.1
      · exact hover.1 hzero
      · omega
    · rw [if_neg hover]
      have hin : InLimit params (stream ++ buff) := by
        unfold InLimit
        omega
      obtain ⟨hbad, hnone⟩ | ⟨val', part', hloop, hsome, hat'', hcount', hmark', htimer'⟩ := loop_eq hat' buff
      · rw [hbad]
        refine ⟨hcount, fun hon => absurd hon Bool.false_ne_true, fun _ hall => ?_⟩
        obtain ⟨-, last, hlast⟩ := hall
        rw [hfold, hnone] at hlast
        cases hlast
      · rw [hloop]
        dsimp only
        split
        · rename_i hptimeout
          refine ⟨hcount'.trans hcount, fun _ => ⟨hin, part', hfold.trans hsome, ?_, ?_⟩, fun hoff => absurd hoff.symm Bool.false_ne_true⟩
          · exact ⟨hat''.head, hat''.pos, hat''.early, hat''.late, hat''.done⟩
          · show decide (val'.tls_rec_pos ≠ val'.tls_rec_size) = _
            rw [decide_eq_decide, hat''.pos_ne_iff]
            exact ⟨fun hne => ⟨hptimeout, hne⟩, fun hall => hall.2⟩
        · rename_i hptimeout
          refine ⟨hcount'.trans hcount, fun _ => ⟨hin, part', hfold.trans hsome, ?_, ?_⟩, fun hoff => absurd hoff.symm Bool.false_ne_true⟩
          · exact ⟨hat''.head, hat''.pos, hat''.early, hat''.late, hat''.done⟩
          · show val'.timer = _
            rw [htimer', decide_eq_false fun hall : params.ptimeout ≠ 0 ∧ part' ≠ [] => hptimeout hall.1]
            show val.timer = false
            rw [htimer, decide_eq_false fun hall : params.ptimeout ≠ 0 ∧ part ≠ [] => hptimeout hall.1]

theorem Watch.run (params : Params) (pieces : List (List UInt8)) :
    Watch params pieces.flatten (pieces.foldl (TlsTimer.recv params) {}) := by
  induction pieces using List.reverseRecOn with
  | nil => exact Watch.fresh params
  | append_singleton pieces buff ih =>
    rw [List.flatten_append, List.flatten_cons, List.flatten_nil, List.append_nil, List.foldl_append]
    exact ih.recv buff

/-- **However the answer is cut into pieces**, it is watched as long as it is not too long and reads
as sound records, and then the timer runs while a record is not complete. -/
theorem watched (params : Params) (pieces : List (List UInt8)) :
    ((pieces.foldl (TlsTimer.recv params) {}).mark = true ↔
        InLimit params pieces.flatten ∧ Nonempty (Reading pieces.flatten)) ∧
      ((pieces.foldl (TlsTimer.recv params) {}).mark = true → ∀ R : Reading pieces.flatten,
        (pieces.foldl (TlsTimer.recv params) {}).timer = decide (params.ptimeout ≠ 0 ∧ R.part ≠ [])) := by
  have hrun := Watch.run params pieces
  refine ⟨⟨fun hon => ?_, fun hall => ?_⟩, fun hon R => ?_⟩
  · obtain ⟨hlimit, part, hpart, -⟩ := hrun.on hon
    obtain ⟨R, -⟩ := exists_reading hpart
    exact ⟨hlimit, ⟨R⟩⟩
  · obtain ⟨hlimit, ⟨R⟩⟩ := hall
    by_contra hoff
    exact hrun.off (by simpa using hoff) ⟨hlimit, R.part, R.foldlM_eq⟩
  · obtain ⟨-, part, hpart, -, htimer⟩ := hrun.on hon
    rw [R.foldlM_eq] at hpart
    rw [htimer, Option.some.inj hpart]

end VlessCard.TlsTimer
