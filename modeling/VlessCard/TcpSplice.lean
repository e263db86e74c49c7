/-
`hev-socks5-session-tcp.c` and `hev-ring-buffer.c` of the tunnel: a connection of an application, spliced
with a connection to the proxy.

What comes from the proxy is read into a ring. The stack is told where it stands there, and copies
nothing: it goes on looking at these places until it has an acknowledgement for them. What the
application sends waits in a queue until the proxy takes it, and opens the window of the stack again when
it has been taken. The stack calls back between any two steps. Nothing may be overwritten that the stack
still looks at, and neither way may lose, repeat or reorder anything.
-/
import VlessCard.RingMemory

set_option autoImplicit false

namespace VlessCard.TcpSplice

open RingMemory

/-! ## The ring

The ring has a write place, a read place and two counts. Segments are offsets and lengths, as
`iovec`s, and a write or a read may wrap once. -/

/-- `HevRingBuffer`: of `use_size` bytes before `wp` the last `rda_size`, from `rp` on, have not been read. -/
structure RingBuffer where
  max_size : ℕ
  rp : ℕ := 0
  wp : ℕ := 0
  rda_size : ℕ := 0
  use_size : ℕ := 0
  data : List UInt8
  deriving DecidableEq, Repr

/-- `hev_ring_buffer_reading`. -/
def RingBuffer.reading (b : RingBuffer) : List (ℕ × ℕ) :=
  if b.rda_size = 0 then []
  else if b.rda_size ≤ b.max_size - b.rp then [(b.rp, b.rda_size)]
  else [(b.rp, b.max_size - b.rp), (0, b.rda_size - (b.max_size - b.rp))]

/-- `hev_ring_buffer_read_finish`; a size that falls below zero has no result. -/
def RingBuffer.read_finish (b : RingBuffer) (size : ℕ) : Option RingBuffer :=
  if size ≤ b.rda_size then some { b with rp := (b.rp + size) % b.max_size, rda_size := b.rda_size - size } else none

/-- `hev_ring_buffer_read_release`. -/
def RingBuffer.read_release (b : RingBuffer) (size : ℕ) : Option RingBuffer :=
  if size ≤ b.use_size then
    if b.use_size - size = 0 then some { b with use_size := 0, rp := 0, wp := 0 }
    else some { b with use_size := b.use_size - size }
  else none

/-- `hev_ring_buffer_writing`. -/
def RingBuffer.writing (b : RingBuffer) : List (ℕ × ℕ) :=
  if b.use_size = b.max_size then []
  else if b.max_size - b.use_size ≤ b.max_size - b.wp then [(b.wp, b.max_size - b.use_size)]
  else [(b.wp, b.max_size - b.wp), (0, b.max_size - b.use_size - (b.max_size - b.wp))]

/-- `hev_ring_buffer_write_finish`. -/
def RingBuffer.write_finish (b : RingBuffer) (size : ℕ) : RingBuffer :=
  { b with wp := (b.wp + size) % b.max_size, use_size := b.use_size + size, rda_size := b.rda_size + size }

/-! ## What the ring holds

What the ring holds is a queue in two parts: what the stack was told of and may still look at,
and what it was not told of yet. Each operation moves the borders between the parts. -/

/-- The ring as a queue: from `tail` on stand the bytes that the stack may look at, then those that it has not
been told of. -/
structure Holds (b : RingBuffer) (tail : ℕ) (told untold : List UInt8) : Prop where
  pos : 0 < b.max_size
  length : b.data.length = b.max_size
  rda : b.rda_size = untold.length
  use : b.use_size = told.length + untold.length
  use_le : b.use_size ≤ b.max_size
  rp : b.rp = (tail + told.length) % b.max_size
  wp : b.wp = (tail + b.use_size) % b.max_size
  look : look b.data (places b.max_size tail b.use_size) = (told ++ untold).map some

section
variable {b : RingBuffer} {tail : ℕ} {told untold : List UInt8}

/-- The segments that are read are the bytes that were told of, in order. -/
theorem Holds.reading (h : Holds b tail told untold) : spots b.reading = places b.max_size (tail + told.length) untold.length := by
  have hrp : b.rp < b.max_size := h.rp ▸ Nat.mod_lt _ h.pos
  have huse := h.use
  have hle := h.use_le
  rw [← places_mod, ← h.rp, places_eq hrp (by omega), ← h.rda]
  unfold RingBuffer.reading spots
  split
  · rename_i hzero
    rw [hzero, if_pos (Nat.zero_le _)]
    rfl
  · split
    · simp only [List.flatMap_cons, List.flatMap_nil, List.append_nil]
    · simp only [List.flatMap_cons, List.flatMap_nil, List.append_nil]

/-- Those that can be written are the free ones. -/
theorem Holds.writing (h : Holds b tail told untold) :
    spots b.writing = places b.max_size (tail + b.use_size) (b.max_size - b.use_size) := by
  have hwp : b.wp < b.max_size := h.wp ▸ Nat.mod_lt _ h.pos
  rw [← places_mod, ← h.wp, places_eq hwp (Nat.sub_le _ _)]
  unfold RingBuffer.writing spots
  split
  · rename_i hfull
    rw [hfull, Nat.sub_self, if_pos (Nat.zero_le _)]
    rfl
  · split
    · simp only [List.flatMap_cons, List.flatMap_nil, List.append_nil]
    · simp only [List.flatMap_cons, List.flatMap_nil, List.append_nil]

/-- The stack is told of all there is. -/
theorem Holds.read_finish (h : Holds b tail told untold) :
    ∃ b', b.read_finish b.rda_size = some b' ∧ b'.data = b.data ∧ b'.max_size = b.max_size ∧ Holds b' tail (told ++ untold) [] := by
  have hrp := h.rp
  unfold RingBuffer.read_finish
  rw [if_pos (le_refl _)]
  refine ⟨_, rfl, rfl, rfl, h.pos, h.length, Nat.sub_self _, ?_, h.use_le, ?_, h.wp, ?_⟩
  · rw [List.length_append, List.length_nil, Nat.add_zero]
    exact h.use
  · dsimp only
    rw [hrp, Nat.mod_add_mod, h.rda, List.length_append, Nat.add_assoc]
  · rw [List.append_nil]
    exact h.look

/-- The stack is done with the first bytes. -/
theorem Holds.read_release (h : Holds b tail told untold) {size : ℕ} (hsize : size ≤ told.length) :
    ∃ b' tail', b.read_release size = some b' ∧ b'.data = b.data ∧ b'.max_size = b.max_size ∧
      Holds b' tail' (told.drop size) untold ∧
      places b.max_size tail' (told.length - size) = (places b.max_size tail told.length).drop size := by
  have huse := h.use
  have hdrop : (told.drop size).length = told.length - size := List.length_drop
  unfold RingBuffer.read_release
  rw [if_pos (by omega)]
  split
  · -- the ring is empty, and starts again at its first place
    have htold : told.drop size = [] := List.drop_eq_nil_iff.mpr (by omega)
    have huntold : untold = [] := List.length_eq_zero_iff.mp (by omega)
    subst huntold
    refine ⟨_, 0, rfl, rfl, rfl, ⟨h.pos, h.length, h.rda, ?_, Nat.zero_le _, ?_, rfl, ?_⟩, ?_⟩
    · rw [htold]
      rfl
    · dsimp only
      rw [htold, List.length_nil, Nat.add_zero, Nat.zero_mod]
    · rw [htold]
      rfl
    · rw [show told.length - size = 0 by omega, places_zero, List.drop_eq_nil_of_le]
      rw [length_places]
      omega
  -- some places stay held, and the ring goes on where it is
  · refine ⟨_, tail + size, rfl, rfl, rfl, ⟨h.pos, h.length, h.rda, ?_, ?_, ?_, ?_, ?_⟩, ?_⟩
    · dsimp only
      omega
    · dsimp only
      have hle := h.use_le
      omega
    · dsimp only
      rw [h.rp, hdrop, show tail + size + (told.length - size) = tail + told.length by omega]
    · dsimp only
      rw [h.wp, show tail + size + (b.use_size - size) = tail + b.use_size by omega]
    -- what is looked at from there on is what is left of it
    · have hlook := congrArg (List.drop size) h.look
      dsimp only
      rw [← drop_places (by omega)]
      unfold RingMemory.look at hlook ⊢
      rw [List.map_drop, hlook, ← List.map_drop, List.drop_append_of_le_length hsize]
    · rw [drop_places hsize]

/-- What is read from the proxy goes to places that nobody looks at. -/
theorem Holds.write (h : Holds b tail told untold) {bs : List UInt8} (hbs : bs.length ≤ b.max_size - b.use_size) :
    ∃ data', RingMemory.write ((spots b.writing).zip bs) b.data = some data' ∧
      Holds ({ b with data := data' }.write_finish bs.length) tail told (untold ++ bs) ∧
      ∀ p ∈ places b.max_size tail b.use_size, data'[p]? = b.data[p]? := by
  have hle := h.use_le
  have hsplit : b.max_size - b.use_size = bs.length + (b.max_size - b.use_size - bs.length) := by omega
  -- the two spots of the free part are the places after the held ones, in order
  have hzip : (spots b.writing).zip bs = (places b.max_size (tail + b.use_size) bs.length).zip bs := by
    rw [h.writing, hsplit, places_add]
    have hcut : (places b.max_size (tail + b.use_size) bs.length
        ++ places b.max_size (tail + b.use_size + bs.length) (b.max_size - b.use_size - bs.length)).zip (bs ++ [])
        = (places b.max_size (tail + b.use_size) bs.length).zip bs
          ++ (places b.max_size (tail + b.use_size + bs.length) (b.max_size - b.use_size - bs.length)).zip [] :=
      List.zip_append (length_places _ _ _)
    rw [List.append_nil, List.zip_nil_right, List.append_nil] at hcut
    exact hcut
  have hin : ∀ p ∈ places b.max_size (tail + b.use_size) bs.length, p < b.data.length := fun p hp =>
    h.length ▸ lt_of_mem_places h.pos hp
  obtain ⟨data', hwrite, hlength, hlook, hframe⟩ :=
    write_spec (nodup_places (by omega) (tail + b.use_size)) (length_places _ _ _) hin
  -- no place of the held part is written
  have hkept : ∀ p ∈ places b.max_size tail b.use_size, data'[p]? = b.data[p]? := fun p hp =>
    hframe p (not_mem_places (by omega) hp)
  rw [hzip]
  refine ⟨data', hwrite, ⟨h.pos, hlength.trans h.length, ?_, ?_, ?_, h.rp, ?_, ?_⟩, hkept⟩
  · unfold RingBuffer.write_finish
    dsimp only
    rw [h.rda, List.length_append]
  · unfold RingBuffer.write_finish
    dsimp only
    rw [h.use, List.length_append, Nat.add_assoc]
  · unfold RingBuffer.write_finish
    dsimp only
    omega
  · unfold RingBuffer.write_finish
    dsimp only
    rw [h.wp, Nat.mod_add_mod, Nat.add_assoc]
  · unfold RingBuffer.write_finish
    dsimp only
    rw [places_add, look_append, look_congr hkept, h.look, hlook, ← List.map_append, List.append_assoc]

end

/-! ## The session

The session is a task and the handlers of the stack, which take turns between any two of the
task's calls. A step has no result where memory is touched that the session does not own. -/

/-- `TCP_WND` and `TCP_SND_BUF` of the stack. -/
def TCP_WND : ℕ := 8 * 8191

def TCP_SND_BUF : ℕ := 8 * 8191

/-- `1`, `0` and `-1`. -/
inductive Res where
  | go
  | wait
  | stop
  deriving DecidableEq, Repr

/-- The task is between two calls, or in the middle of one, where it takes the lock: it has written `s`
bytes to the proxy, or has tried to read from it. -/
inductive Pc where
  | idle
  | forward (s : ℕ)
  | backward (res : Res)
  deriving DecidableEq, Repr

/-- `HevSocks5SessionTCP` and, behind it, what has passed: the bytes read from the proxy and those written
to it, the bytes that the application sent; the places that the stack looks at, how much it had acknowledged,
its window; whether it refused a write, and whether the two ways have been shut. -/
structure Session where
  buffer : RingBuffer
  pcb : Bool := true
  pcb_eof : Bool := false
  queue : List (List UInt8) := []
  res_f : Res := .go
  res_b : Res := .go
  pc : Pc := .idle
  read : List UInt8 := []
  wrote : List UInt8 := []
  got : List UInt8 := []
  held : List ℕ := []
  acked : ℕ := 0
  window : ℕ := TCP_WND
  failed : Bool := false
  fin : Bool := false
  shut : Bool := false

/-- `pbuf_free_header`. -/
def freeHeader : List (List UInt8) → ℕ → List (List UInt8)
  | [], _ => []
  | p :: q, size => if size = 0 then p :: q else if p.length ≤ size then freeHeader q (size - p.length) else p.drop size :: q

/-- What `writev` and `readv` return. -/
inductive Written where
  | took (s : ℕ)
  | again
  | failed
  deriving DecidableEq, Repr

inductive Readv where
  | took (bs : List UInt8)
  | again
  | ended
  deriving DecidableEq, Repr

/-- One step: a half of `tcp_splice_f` or of `tcp_splice_b`, up to the lock or from the lock on, or one of the
handlers of the stack. -/
inductive Event where
  | splice_f (r : Written)
  | freed
  | splice_b (r : Readv)
  | give (accepts : ℕ → Bool) (output : Bool)
  | recv (p : List (List UInt8))
  | eof
  | sent (len : ℕ)
  | err

/-- The segments that `tcp_write` accepts; it takes a length of sixteen bits. -/
def accepted (accepts : ℕ → Bool) (iov : List (ℕ × ℕ)) : List (ℕ × ℕ) :=
  (iov.zipIdx.filter fun seg => accepts seg.2).map fun seg => (seg.1.1, seg.1.2 % 2 ^ 16)

namespace Session

def splice_f (s : Session) (r : Written) : Session :=
  if s.queue = [] then
    if s.pcb_eof then { s with res_f := .stop, shut := true } else { s with res_f := .wait }
  else
    match r with
    | .took k => { s with pc := .forward k, wrote := s.wrote ++ (s.queue.take 64).flatten.take k }
    | .again => { s with res_f := .wait }
    | .failed => { s with res_f := .stop }

/-- The rest of `tcp_splice_f`: both functions of the stack take a size of sixteen bits. -/
def freed (s : Session) : Option Session :=
  match s.pc with
  | .forward k =>
    some { s with
      queue := freeHeader s.queue (k % 2 ^ 16)
      window := if s.pcb then min TCP_WND (s.window + k % 2 ^ 16) else s.window
      res_f := .go
      pc := .idle }
  | _ => none

def splice_b (s : Session) (r : Readv) : Option Session :=
  if s.buffer.writing = [] then some { s with pc := .backward .wait }
  else
    match r with
    | .took bs =>
      (write ((spots s.buffer.writing).zip bs) s.buffer.data).map fun data =>
        { s with
          buffer := { s.buffer with data := data }.write_finish bs.length
          read := s.read ++ bs
          pc := .backward .go }
    | .again => some { s with pc := .backward .wait }
    | .ended => some { s with pc := .backward .stop }

/-- The rest of `tcp_splice_b`. -/
def give (s : Session) (accepts : ℕ → Bool) (output : Bool) : Option Session :=
  match s.pc with
  | .backward res =>
    if s.pcb then
      if s.buffer.reading ≠ [] then
        (s.buffer.read_finish (s.buffer.reading.map Prod.snd).sum).map fun buffer =>
          { s with
            buffer := buffer
            held := s.held ++ spots (accepted accepts s.buffer.reading)
            failed := s.failed || decide ((accepted accepts s.buffer.reading).length < s.buffer.reading.length)
            res_b := if (accepted accepts s.buffer.reading).length = s.buffer.reading.length ∧ output then .go else .stop
            pc := .idle }
      else some { s with fin := s.fin || decide (res = .stop), res_b := res, pc := .idle }
    else some { s with res_b := .stop, pc := .idle }
  | _ => none

/-- `tcp_recv_handler`, `tcp_sent_handler` and `tcp_err_handler`, with what the stack does to its own state. -/
def recv (s : Session) (p : List (List UInt8)) : Session :=
  { s with queue := s.queue ++ p, got := s.got ++ p.flatten, window := s.window - p.flatten.length }

def sent (s : Session) (len : ℕ) : Option Session :=
  (s.buffer.read_release len).map fun buffer => { s with buffer := buffer, held := s.held.drop len, acked := s.acked + len }

def err (s : Session) : Session := { s with pcb := false, held := [] }

/-- A step; there is no result where memory is touched that is not the session's, or a size falls below zero. -/
def step (s : Session) : Event → Option Session
  | .splice_f r => some (s.splice_f r)
  | .freed => s.freed
  | .splice_b r => s.splice_b r
  | .give accepts output => s.give accepts output
  | .recv p => some (s.recv p)
  | .eof => some { s with pcb_eof := true }
  | .sent len => s.sent len
  | .err => some s.err

/-- What may come next. The task goes on with one of its ways until this way has come to its end; the kernel
takes some of what it is given and fills no more than there is room; the stack hands on what is in its window,
and has acknowledgements for what it looks at. -/
def Possible (s : Session) : Event → Prop
  | .splice_f r => s.pc = .idle ∧ s.res_f ≠ .stop ∧ ∀ k, r = .took k → 0 < k ∧ k ≤ (s.queue.take 64).flatten.length
  | .freed => ∃ k, s.pc = .forward k
  | .splice_b r =>
    s.pc = .idle ∧ s.res_b ≠ .stop ∧ ∀ bs, r = .took bs → bs ≠ [] ∧ bs.length ≤ (spots s.buffer.writing).length
  | .give _ _ => ∃ res, s.pc = .backward res
  | .recv p => s.pcb = true ∧ s.pcb_eof = false ∧ p.flatten.length ≤ s.window
  | .eof => s.pcb = true
  | .sent len => s.pcb = true ∧ len ≤ s.held.length
  | .err => s.pcb = true

/-- The states that a session comes to. -/
inductive Reached (start : Session) : Session → Prop
  | here : Reached start start
  | step {s s' : Session} {e : Event} (h : Reached start s) (hpossible : s.Possible e) (hstep : s.step e = some s') :
      Reached start s'

/-- The session where the splice begins: the application may have sent something already. -/
def start (data : List UInt8) (queue : List (List UInt8)) (pcb_eof : Bool) : Session where
  buffer := { max_size := data.length, data := data }
  pcb_eof := pcb_eof
  queue := queue
  got := queue.flatten
  window := TCP_WND - queue.flatten.length

/-! ## From the proxy to the application

This way the invariant is about the ring: what the stack looks at is never written over before it
was acknowledged. Each step keeps it, and no step is without a result. -/

/-- The ring holds what was read and is not acknowledged; the stack looks at what it was told of, as long
as it has refused nothing. -/
structure Back (s : Session) (tail : ℕ) (told untold : List UInt8) : Prop where
  holds : Holds s.buffer tail told untold
  small : s.buffer.max_size < 2 ^ 16
  read : s.read.drop s.acked = told ++ untold
  acked : s.acked ≤ s.read.length
  held_le : s.held.length ≤ told.length
  held : s.failed = false → s.pcb = true → s.held = places s.buffer.max_size tail told.length
  gone : s.pcb = false → s.held = []
  fin : s.fin = true → untold = [] ∧ s.res_b = .stop ∧ ∀ res, s.pc ≠ .backward res

variable {s s' : Session} {tail : ℕ} {told untold : List UInt8}

/-- Steps that leave this way alone. -/
theorem Back.congr (h : Back s tail told untold) (hbuffer : s'.buffer = s.buffer) (hread : s'.read = s.read)
    (hacked : s'.acked = s.acked) (hheld : s'.held = s.held) (hfailed : s'.failed = s.failed) (hpcb : s'.pcb = s.pcb)
    (hfin : s'.fin = true → untold = [] ∧ s'.res_b = .stop ∧ ∀ res, s'.pc ≠ .backward res) : Back s' tail told untold where
  holds := hbuffer ▸ h.holds
  small := hbuffer ▸ h.small
  read := by rw [hread, hacked, h.read]
  acked := by rw [hread, hacked]; exact h.acked
  held_le := by rw [hheld]; exact h.held_le
  held := by rw [hfailed, hpcb, hheld, hbuffer]; exact h.held
  gone := by rw [hpcb, hheld]; exact h.gone
  fin := hfin

/-- Where all segments are taken the list is as it was. -/
theorem accepted_all {accepts : ℕ → Bool} {iov : List (ℕ × ℕ)} (hall : (accepted accepts iov).length = iov.length)
    (hsmall : ∀ seg ∈ iov, seg.2 < 2 ^ 16) : accepted accepts iov = iov := by
  unfold accepted at hall ⊢
  rw [List.length_map] at hall
  have hfilter : iov.zipIdx.filter (fun seg => accepts seg.2) = iov.zipIdx :=
    List.filter_sublist.eq_of_length (hall.trans List.length_zipIdx.symm)
  rw [hfilter]
  have hfst : iov.zipIdx.map Prod.fst = iov := List.zipIdx_map_fst 0 iov
  conv_rhs => rw [← hfst]
  refine List.map_congr_left fun seg hseg => ?_
  have hmem : seg.1 ∈ iov := hfst ▸ List.mem_map_of_mem hseg
  rw [Nat.mod_eq_of_lt (hsmall _ hmem)]

theorem length_spots_accepted (accepts : ℕ → Bool) (iov : List (ℕ × ℕ)) :
    (spots (accepted accepts iov)).length ≤ (spots iov).length := by
  have hfst : iov.zipIdx.map Prod.fst = iov := List.zipIdx_map_fst 0 iov
  have hiov : (iov.map Prod.snd).sum = (iov.zipIdx.map fun seg => seg.1.2).sum := by
    conv_lhs => rw [← hfst]
    rw [List.map_map]
    rfl
  have hmod : ((iov.zipIdx.filter fun seg => accepts seg.2).map fun seg => seg.1.2 % 2 ^ 16).sum ≤
      ((iov.zipIdx.filter fun seg => accepts seg.2).map fun seg => seg.1.2).sum :=
    List.sum_le_sum fun seg _ => Nat.mod_le _ _
  have hsub : ((iov.zipIdx.filter fun seg => accepts seg.2).map fun seg => seg.1.2).sum ≤ (iov.zipIdx.map fun seg => seg.1.2).sum :=
    (List.filter_sublist.map _).sum_le_sum fun _ _ => Nat.zero_le _
  rw [length_spots, length_spots, hiov]
  unfold accepted
  rw [List.map_map]
  exact hmod.trans hsub

/-- The lengths of the segments add up to what is held. -/
theorem reading_sum (h : Holds s.buffer tail told untold) : (s.buffer.reading.map Prod.snd).sum = s.buffer.rda_size := by
  rw [← length_spots, h.reading, length_places, h.rda]

theorem reading_small (h : Holds s.buffer tail told untold) (hsmall : s.buffer.max_size < 2 ^ 16) :
    ∀ seg ∈ s.buffer.reading, seg.2 < 2 ^ 16 := by
  intro seg hseg
  have hle : seg.2 ≤ (s.buffer.reading.map Prod.snd).sum := List.single_le_sum (fun _ _ => Nat.zero_le _) _ (List.mem_map_of_mem hseg)
  have huse := h.use
  have huse_le := h.use_le
  have hrda := h.rda
  rw [reading_sum h] at hle
  omega

/-- The stack is told of all that is there to be told, unless nothing is. -/
theorem Back.give (h : Back s tail told untold) {res : Res} (hpc : s.pc = .backward res) (accepts : ℕ → Bool) (output : Bool) :
    ∃ s', s.give accepts output = some s' ∧ ∃ told' untold', Back s' tail told' untold' := by
  have hfin : s.fin = false := by
    rw [← Bool.not_eq_true]
    -- with the answer closed nothing is left to give, so the loop would not be here
    intro hfin
    exact (h.fin hfin).2.2 res hpc
  unfold Session.give
  rw [hpc]
  dsimp only
  split
  · rename_i hpcb
    split
    · rename_i hreading
      -- there is something to give: the place read so far moves on
      obtain ⟨buffer, hbuffer, hdata, hmax, hholds⟩ := h.holds.read_finish
      rw [reading_sum h.holds, hbuffer]
      refine ⟨_, rfl, told ++ untold, [], hholds, hmax ▸ h.small, ?_, h.acked, ?_, ?_, ?_, ?_⟩
      · rw [List.append_nil]
        exact h.read
      · have hle := length_spots_accepted accepts s.buffer.reading
        have hheld := h.held_le
        rw [h.holds.reading, length_places] at hle
        dsimp only
        rw [List.length_append, List.length_append]
        omega
      · intro hfailed _
        dsimp only at hfailed ⊢
        rw [Bool.or_eq_false_iff, decide_eq_false_iff_not, not_lt] at hfailed
        have hle : (accepted accepts s.buffer.reading).length ≤ s.buffer.reading.length := by
          unfold accepted
          rw [List.length_map]
          exact (List.length_filter_le _ _).trans List.length_zipIdx.le
        rw [accepted_all (le_antisymm hle hfailed.2) (reading_small h.holds h.small), h.held hfailed.1 hpcb, h.holds.reading, hmax,
          List.length_append, places_add]
      · intro hgone
        exact absurd (hpcb.symm.trans hgone) (by decide)
      · intro hfin'
        exact absurd (hfin.symm.trans hfin') (by decide)
    · rename_i hreading
      rw [not_not] at hreading
      -- nothing is left in the ring, and the answer may be closed
      have huntold : untold = [] := by
        have hlen := length_spots s.buffer.reading
        rw [h.holds.reading, length_places, hreading] at hlen
        exact List.length_eq_zero_iff.mp hlen
      refine ⟨_, rfl, told, untold, h.congr rfl rfl rfl rfl rfl rfl fun hfin' => ⟨huntold, ?_, fun _ => by simp⟩⟩
      dsimp only at hfin' ⊢
      rw [hfin, Bool.false_or, decide_eq_true_iff] at hfin'
      exact hfin'
  -- the connection is gone, and nothing is given any more
  · refine ⟨_, rfl, told, untold, h.congr rfl rfl rfl rfl rfl rfl fun hfin' => ?_⟩
    exact absurd (hfin.symm.trans hfin') (by decide)

/-- Reading from the proxy keeps the order of the bytes. -/
theorem Back.splice_b (h : Back s tail told untold) {r : Readv} (hres : s.res_b ≠ .stop)
    (hr : ∀ bs, r = .took bs → bs ≠ [] ∧ bs.length ≤ (spots s.buffer.writing).length) :
    ∃ s', s.splice_b r = some s' ∧ ∃ untold', Back s' tail told untold' := by
  have hfin : s.fin = false := by
    rw [← Bool.not_eq_true]
    intro hfin
    exact hres (h.fin hfin).2.1
  have hend : ∀ s' : Session, s'.fin = s.fin → ∀ {P : Prop}, s'.fin = true → P := fun s' hs' _ hfin' =>
    absurd ((hs'.trans hfin).symm.trans hfin') (by decide)
  unfold Session.splice_b
  split
  · exact ⟨_, rfl, untold, h.congr rfl rfl rfl rfl rfl rfl (hend _ rfl)⟩
  · split
    · rename_i bs
      obtain ⟨-, hbs⟩ := hr bs rfl
      rw [h.holds.writing, length_places] at hbs
      obtain ⟨data, hwrite, hholds, -⟩ := h.holds.write hbs
      rw [hwrite]
      refine ⟨_, rfl, untold ++ bs, hholds, h.small, ?_, ?_, h.held_le, h.held, h.gone, hend _ rfl⟩
      · dsimp only
        rw [List.drop_append_of_le_length h.acked, h.read, List.append_assoc]
      · dsimp only
        rw [List.length_append]
        exact h.acked.trans (Nat.le_add_right _ _)
    · exact ⟨_, rfl, untold, h.congr rfl rfl rfl rfl rfl rfl (hend _ rfl)⟩
    · exact ⟨_, rfl, untold, h.congr rfl rfl rfl rfl rfl rfl (hend _ rfl)⟩

theorem Back.sent (h : Back s tail told untold) {len : ℕ} (hlen : len ≤ s.held.length) :
    ∃ s', s.sent len = some s' ∧ ∃ tail' told', Back s' tail' told' untold := by
  have hle := h.held_le
  have hread := congrArg List.length h.read
  rw [List.length_drop, List.length_append] at hread
  obtain ⟨buffer, tail', hbuffer, hdata, hmax, hholds, hplaces⟩ := h.holds.read_release (hlen.trans hle)
  unfold Session.sent
  rw [hbuffer]
  refine ⟨_, rfl, tail', told.drop len, hholds, hmax ▸ h.small, ?_, ?_, ?_, ?_, ?_, h.fin⟩
  · dsimp only
    rw [← List.drop_drop, h.read, List.drop_append_of_le_length (hlen.trans hle)]
  · have hacked := h.acked
    dsimp only
    omega
  · dsimp only
    rw [List.length_drop, List.length_drop]
    omega
  · intro hfailed hpcb
    dsimp only
    rw [h.held hfailed hpcb, hmax, List.length_drop, hplaces]
  · intro hgone
    dsimp only
    rw [h.gone hgone, List.drop_nil]

/-- **Whatever comes next, the session goes on**: no place outside of the ring is touched, no size falls below
zero, and the ring holds what it should. -/
theorem Back.step (h : Back s tail told untold) {e : Event} (he : s.Possible e) :
    ∃ s', s.step e = some s' ∧ ∃ tail' told' untold', Back s' tail' told' untold' := by
  cases e with
  | splice_f r =>
    obtain ⟨hpc, -, -⟩ := he
    refine ⟨_, rfl, tail, told, untold, ?_⟩
    unfold Session.splice_f
    split
    · split
      · exact h.congr rfl rfl rfl rfl rfl rfl h.fin
      · exact h.congr rfl rfl rfl rfl rfl rfl h.fin
    · split
      · exact h.congr rfl rfl rfl rfl rfl rfl fun hfin => ⟨(h.fin hfin).1, (h.fin hfin).2.1, fun _ => by simp⟩
      · exact h.congr rfl rfl rfl rfl rfl rfl h.fin
      · exact h.congr rfl rfl rfl rfl rfl rfl h.fin
  | freed =>
    obtain ⟨k, hpc⟩ := he
    unfold Session.step Session.freed
    rw [hpc]
    exact ⟨_, rfl, tail, told, untold, h.congr rfl rfl rfl rfl rfl rfl fun hfin =>
      ⟨(h.fin hfin).1, (h.fin hfin).2.1, fun _ => by simp⟩⟩
  | splice_b r =>
    obtain ⟨s', hs', untold', hback⟩ := h.splice_b he.2.1 he.2.2
    exact ⟨s', hs', tail, told, untold', hback⟩
  | give accepts output =>
    obtain ⟨res, hpc⟩ := he
    obtain ⟨s', hs', told', untold', hback⟩ := h.give hpc accepts output
    exact ⟨s', hs', tail, told', untold', hback⟩
  | recv p => exact ⟨_, rfl, tail, told, untold, h.congr rfl rfl rfl rfl rfl rfl h.fin⟩
  | eof => exact ⟨_, rfl, tail, told, untold, h.congr rfl rfl rfl rfl rfl rfl h.fin⟩
  | sent len =>
    obtain ⟨s', hs', tail', told', hback⟩ := h.sent he.2
    exact ⟨s', hs', tail', told', untold, hback⟩
  | err =>
    refine ⟨_, rfl, tail, told, untold, h.holds, h.small, h.read, h.acked, Nat.zero_le _, ?_, fun _ => rfl, h.fin⟩
    intro _ hpcb
    exact absurd hpcb Bool.false_ne_true

theorem start_back (data : List UInt8) (hdata : 0 < data.length) (hsize : data.length ≤ TCP_SND_BUF) (queue : List (List UInt8))
    (pcb_eof : Bool) : Back (start data queue pcb_eof) 0 [] [] where
  holds := ⟨hdata, rfl, rfl, rfl, Nat.zero_le _, (Nat.zero_mod _).symm, (Nat.zero_mod _).symm, rfl⟩
  small := by
    have hsize' : data.length ≤ 8 * 8191 := hsize
    show data.length < 2 ^ 16
    omega
  read := rfl
  acked := le_refl _
  held_le := le_refl _
  held _ _ := rfl
  gone _ := rfl
  fin h := absurd h Bool.false_ne_true

/-- **So it is in every state that is reached.** -/
theorem Reached.back {data : List UInt8} (hdata : 0 < data.length) (hsize : data.length ≤ TCP_SND_BUF)
    {queue : List (List UInt8)} {pcb_eof : Bool} (h : Reached (start data queue pcb_eof) s) :
    ∃ tail told untold, Back s tail told untold := by
  induction h with
  | here => exact ⟨0, [], [], start_back data hdata hsize queue pcb_eof⟩
  | step _ hpossible hstep ih =>
    obtain ⟨tail, told, untold, hback⟩ := ih
    obtain ⟨s', hs', hnext⟩ := hback.step hpossible
    obtain rfl := Option.some.inj (hstep.symm.trans hs')
    exact hnext

/-- **What the stack looks at is what the proxy sent, at any time**: as long as it has refused no write, the places it was
told of hold the bytes that come after those it has acknowledged, whatever has been read into the ring since;
and when this way is shut, it has been told of all. No step of the task or of the stack touches anything
else. -/
theorem stack_sees {data : List UInt8} (hdata : 0 < data.length) (hsize : data.length ≤ TCP_SND_BUF)
    {queue : List (List UInt8)} {pcb_eof : Bool} (h : Reached (start data queue pcb_eof) s) :
    (∀ e, s.Possible e → s.step e ≠ none) ∧
      (s.failed = false →
        look s.buffer.data s.held = ((s.read.drop s.acked).take s.held.length).map some ∧
          (s.fin = true → s.pcb = true → s.acked + s.held.length = s.read.length)) := by
  obtain ⟨tail, told, untold, hback⟩ := h.back hdata hsize
  refine ⟨fun e he => ?_, fun hfailed => ?_⟩
  · obtain ⟨s', hs', -⟩ := hback.step he
    rw [hs']
    exact Option.some_ne_none s'
  · by_cases hpcb : s.pcb = true
    · have hheld := hback.held hfailed hpcb
      have hlook := hback.holds.look
      rw [hback.holds.use, places_add, look_append, List.map_append] at hlook
      have hlen : s.held.length = told.length := by rw [hheld, length_places]
      have hread := congrArg List.length hback.read
      have hacked := hback.acked
      rw [List.length_drop, List.length_append] at hread
      refine ⟨?_, fun hfin _ => ?_⟩
      · rw [hback.read, hlen, List.take_left, hheld]
        refine (List.append_inj hlook ?_).1
        unfold RingMemory.look
        rw [List.length_map, List.length_map, length_places]
      · have huntold := congrArg List.length (hback.fin hfin).1
        rw [List.length_nil] at huntold
        omega
    · rw [hback.gone (Bool.not_eq_true _ ▸ hpcb)]
      exact ⟨rfl, fun _ htrue => absurd htrue hpcb⟩

/-- Three bytes are read, two of them acknowledged, and three more read, that go on at the first place. -/
theorem stack_sees_wrapped : ∃ s, Reached (start [0, 0, 0, 0] [] false) s ∧ s.held = [2, 3, 0, 1] ∧
    look s.buffer.data s.held = ((s.read.drop s.acked).take s.held.length).map some := by
  have hread : ∀ {n m : ℕ} {bs cs : List UInt8}, bs.length = n + 1 → n + 1 ≤ m → Readv.took bs = Readv.took cs →
      cs ≠ [] ∧ cs.length ≤ m := by
    intro n m bs cs hlen hle heq
    obtain rfl := Readv.took.inj heq
    exact ⟨List.ne_nil_of_length_pos (by omega), by omega⟩
  have h : Reached (start [0, 0, 0, 0] [] false) (start [0, 0, 0, 0] [] false) := .here
  have h := h.step (e := .splice_b (.took [1, 2, 3])) ⟨rfl, by decide, fun _ => hread (n := 2) rfl (by decide)⟩ rfl
  have h := h.step (e := .give (fun _ => true) true) ⟨_, rfl⟩ rfl
  have h := h.step (e := .sent 2) ⟨rfl, by decide⟩ rfl
  have h := h.step (e := .splice_b (.took [4, 5, 6])) ⟨rfl, by decide, fun _ => hread (n := 2) rfl (by decide)⟩ rfl
  have h := h.step (e := .give (fun _ => true) true) ⟨_, rfl⟩ rfl
  exact ⟨_, h, rfl, ((stack_sees (by decide) (by decide) h).2 rfl).1⟩

/-- A write that is refused leaves a gap where the next one is not: of two segments the stack has the
second. -/
example : (give { start [2, 0, 0, 1] [] false with buffer := ⟨4, 3, 1, 2, 2, [2, 0, 0, 1]⟩, pc := .backward .go }
      (fun seg => seg = 1) true).map (fun s => (look s.buffer.data s.held, s.res_b)) = some ([some 2], .stop) := rfl

/-! ## From the application to the proxy

The other way it is about the queue and the window: what was written to the proxy is a beginning
of what came, and the window is closed by what is still in the queue. The two ways hardly touch
each other, so each has its own invariant. -/

/-- How much has been written that is still in the queue. -/
def pending : Pc → ℕ
  | .forward k => k
  | _ => 0

@[simp] theorem pending_idle : pending .idle = 0 := rfl

/-- What waits for the window is what was written. -/
@[simp] theorem pending_forward (k : ℕ) : pending (.forward k) = k := rfl

@[simp] theorem pending_backward (res : Res) : pending (.backward res) = 0 := rfl

/-- What the application sent has been written, or waits in the queue; the window is closed for what waits. -/
structure Forth (s : Session) (before : List UInt8) : Prop where
  wrote : s.wrote = before ++ s.queue.flatten.take (pending s.pc)
  got : s.got = before ++ s.queue.flatten
  pending_le : pending s.pc ≤ s.queue.flatten.length
  window : s.window + s.queue.flatten.length ≤ TCP_WND
  full : s.pcb = true → s.window + s.queue.flatten.length = TCP_WND
  shut : s.shut = true → s.queue = [] ∧ s.pcb_eof = true ∧ s.res_f = .stop ∧ ∀ k, s.pc ≠ .forward k

variable {before : List UInt8}

/-- Steps that leave this way alone. -/
theorem Forth.congr (h : Forth s before) (hwrote : s'.wrote = s.wrote) (hgot : s'.got = s.got) (hqueue : s'.queue = s.queue)
    (hpc : pending s'.pc = pending s.pc) (hwindow : s'.window = s.window) (hpcb : s'.pcb = true → s.pcb = true)
    (hshut : s'.shut = true → s'.queue = [] ∧ s'.pcb_eof = true ∧ s'.res_f = .stop ∧ ∀ k, s'.pc ≠ .forward k) :
    Forth s' before where
  wrote := by rw [hwrote, hqueue, hpc]; exact h.wrote
  got := by rw [hgot, hqueue]; exact h.got
  pending_le := by rw [hpc, hqueue]; exact h.pending_le
  window := by rw [hwindow, hqueue]; exact h.window
  full hpcb' := by rw [hwindow, hqueue]; exact h.full (hpcb hpcb')
  shut := hshut

/-- Freeing the front of the queue drops its bytes. -/
theorem flatten_freeHeader (queue : List (List UInt8)) (size : ℕ) : (freeHeader queue size).flatten = queue.flatten.drop size := by
  induction queue generalizing size with
  | nil => rw [freeHeader, List.flatten_nil, List.drop_nil]
  | cons p q ih =>
    unfold freeHeader
    split
    · rename_i hzero
      rw [hzero, List.drop_zero]
    · split
      · rename_i hle
        rw [ih, List.flatten_cons, List.drop_append, List.drop_eq_nil_of_le hle, List.nil_append]
      · rename_i hlt
        rw [List.flatten_cons, List.flatten_cons, List.drop_append_of_le_length (by omega)]

/-- The first of the queue are the first of its bytes. -/
theorem take_flatten_take {queue : List (List UInt8)} {k : ℕ} (hk : k ≤ (queue.take 64).flatten.length) :
    (queue.take 64).flatten.take k = queue.flatten.take k ∧ k ≤ queue.flatten.length := by
  have hsplit : queue.flatten = (queue.take 64).flatten ++ (queue.drop 64).flatten := by
    rw [← List.flatten_append, List.take_append_drop]
  rw [hsplit, List.take_append_of_le_length hk, List.length_append]
  exact ⟨rfl, by omega⟩

/-- Writing to the proxy keeps what it has a beginning of what came. -/
theorem Forth.splice_f (h : Forth s before) (hpc : s.pc = .idle) (hres : s.res_f ≠ .stop) {r : Written}
    (hr : ∀ k, r = .took k → 0 < k ∧ k ≤ (s.queue.take 64).flatten.length) : Forth (s.splice_f r) before := by
  have hshut : s.shut = false := by
    rw [← Bool.not_eq_true]
    intro hshut
    exact hres (h.shut hshut).2.2.1
  have hend : ∀ s' : Session, s'.shut = s.shut → ∀ {P : Prop}, s'.shut = true → P := fun s' hs' _ hshut' =>
    absurd ((hs'.trans hshut).symm.trans hshut') (by decide)
  unfold Session.splice_f
  split
  · rename_i hqueue
    split
    · rename_i heof
      exact h.congr rfl rfl rfl rfl rfl id fun _ => ⟨hqueue, heof, rfl, fun k hk => by rw [hpc] at hk; cases hk⟩
    · exact h.congr rfl rfl rfl rfl rfl id (hend _ rfl)
  · split
    · rename_i k
      obtain ⟨-, hk⟩ := hr k rfl
      obtain ⟨htake, hle⟩ := take_flatten_take hk
      have hwrote := h.wrote
      rw [hpc, pending_idle, List.take_zero, List.append_nil] at hwrote
      refine ⟨?_, h.got, hle, h.window, h.full, hend _ rfl⟩
      dsimp only [pending_forward]
      rw [htake, hwrote]
    · exact h.congr rfl rfl rfl rfl rfl id (hend _ rfl)
    · exact h.congr rfl rfl rfl rfl rfl id (hend _ rfl)

/-- What is freed is what was written: it is never so much that a size of sixteen bits would not do. -/
theorem Forth.freed (h : Forth s before) {k : ℕ} (hpc : s.pc = .forward k) {s' : Session} (hs' : s.freed = some s') :
    Forth s' (before ++ s.queue.flatten.take k) := by
  have hle := h.pending_le
  have hwindow := h.window
  have hwrote := h.wrote
  have hsmall : TCP_WND < 2 ^ 16 := by decide
  rw [hpc, pending_forward] at hle hwrote
  unfold Session.freed at hs'
  rw [hpc] at hs'
  dsimp only at hs'
  rw [Nat.mod_eq_of_lt (by omega)] at hs'
  obtain rfl := Option.some.inj hs'
  -- the header that is freed was given to the socket in full
  have hflat := flatten_freeHeader s.queue k
  refine ⟨?_, ?_, Nat.zero_le _, ?_, ?_, ?_⟩
  · dsimp only [pending_idle]
    rw [List.take_zero, List.append_nil]
    exact hwrote
  · dsimp only
    rw [hflat, List.append_assoc, List.take_append_drop]
    exact h.got
  · dsimp only
    rw [hflat, List.length_drop]
    split <;> omega
  · intro hpcb
    -- a full buffer before is the same buffer less what was freed
    have hfull := h.full hpcb
    dsimp only
    rw [hflat, List.length_drop, if_pos hpcb]
    omega
  · intro hshut
    exact absurd hpc ((h.shut hshut).2.2.2 k)

theorem Forth.recv (h : Forth s before) (heof : s.pcb_eof = false) {p : List (List UInt8)} (hp : p.flatten.length ≤ s.window) :
    Forth (s.recv p) before := by
  have hle := h.pending_le
  have hwindow := h.window
  unfold Session.recv
  refine ⟨?_, ?_, ?_, ?_, ?_, ?_⟩
  · dsimp only
    rw [List.flatten_append, List.take_append_of_le_length hle]
    exact h.wrote
  · dsimp only
    rw [List.flatten_append, h.got, List.append_assoc]
  · dsimp only
    rw [List.flatten_append, List.length_append]
    omega
  · dsimp only
    rw [List.flatten_append, List.length_append]
    omega
  · intro hpcb
    have hfull := h.full hpcb
    dsimp only
    rw [List.flatten_append, List.length_append]
    omega
  · intro hshut
    have heof' := (h.shut hshut).2.1
    rw [heof] at heof'
    cases heof'

theorem Forth.step (h : Forth s before) {e : Event} (he : s.Possible e) {s' : Session} (hs' : s.step e = some s') :
    ∃ before', Forth s' before' := by
  unfold Session.step at hs'
  cases e with
  | splice_f r =>
    obtain rfl := Option.some.inj hs'
    exact ⟨before, h.splice_f he.1 he.2.1 he.2.2⟩
  | freed =>
    obtain ⟨k, hpc⟩ := he
    exact ⟨_, h.freed hpc hs'⟩
  | splice_b r =>
    obtain ⟨hpc, -, -⟩ := he
    -- the task is past the forward half in both cases, so nothing is pending
    have hpending : ∀ res : Res, pending (.backward res) = pending s.pc := fun res => by rw [hpc, pending_backward, pending_idle]
    have hshut : ∀ s' : Session, s'.shut = s.shut → s'.queue = s.queue → s'.pcb_eof = s.pcb_eof → s'.res_f = s.res_f →
        (∃ res, s'.pc = .backward res) →
        s'.shut = true → s'.queue = [] ∧ s'.pcb_eof = true ∧ s'.res_f = .stop ∧ ∀ k, s'.pc ≠ .forward k := by
      rintro s' hs hqueue heof hres ⟨res, hpc'⟩ hshut
      obtain ⟨hempty, heof', hres', -⟩ := h.shut (hs ▸ hshut)
      exact ⟨hqueue.trans hempty, heof.trans heof', hres.trans hres', fun k => by rw [hpc']; simp⟩
    refine ⟨before, ?_⟩
    dsimp only at hs'
    unfold Session.splice_b at hs'
    split at hs'
    · obtain rfl := Option.some.inj hs'
      exact h.congr rfl rfl rfl (hpending _) rfl id (hshut _ rfl rfl rfl rfl ⟨_, rfl⟩)
    · split at hs'
      · obtain ⟨data, -, rfl⟩ := Option.map_eq_some_iff.mp hs'
        exact h.congr rfl rfl rfl (hpending _) rfl id (hshut _ rfl rfl rfl rfl ⟨_, rfl⟩)
      · obtain rfl := Option.some.inj hs'
        exact h.congr rfl rfl rfl (hpending _) rfl id (hshut _ rfl rfl rfl rfl ⟨_, rfl⟩)
      · obtain rfl := Option.some.inj hs'
        exact h.congr rfl rfl rfl (hpending _) rfl id (hshut _ rfl rfl rfl rfl ⟨_, rfl⟩)
  | give accepts output =>
    obtain ⟨res, hpc⟩ := he
    -- the task ends its turn, and nothing was pending before
    have hpending : pending .idle = pending s.pc := by rw [hpc, pending_backward, pending_idle]
    have hshut : ∀ s' : Session, s'.shut = s.shut → s'.queue = s.queue → s'.pcb_eof = s.pcb_eof → s'.res_f = s.res_f →
        s'.pc = .idle → s'.shut = true → s'.queue = [] ∧ s'.pcb_eof = true ∧ s'.res_f = .stop ∧ ∀ k, s'.pc ≠ .forward k := by
      intro s' hs hqueue heof hres hpc' hshut
      obtain ⟨hempty, heof', hres', -⟩ := h.shut (hs ▸ hshut)
      exact ⟨hqueue.trans hempty, heof.trans heof', hres.trans hres', fun k => by rw [hpc']; simp⟩
    refine ⟨before, ?_⟩
    dsimp only at hs'
    unfold Session.give at hs'
    rw [hpc] at hs'
    dsimp only at hs'
    split at hs'
    · split at hs'
      · obtain ⟨buffer, -, rfl⟩ := Option.map_eq_some_iff.mp hs'
        exact h.congr rfl rfl rfl hpending rfl id (hshut _ rfl rfl rfl rfl rfl)
      · obtain rfl := Option.some.inj hs'
        exact h.congr rfl rfl rfl hpending rfl id (hshut _ rfl rfl rfl rfl rfl)
    · obtain rfl := Option.some.inj hs'
      exact h.congr rfl rfl rfl hpending rfl id (hshut _ rfl rfl rfl rfl rfl)
  | recv p =>
    obtain rfl := Option.some.inj hs'
    exact ⟨before, h.recv he.2.1 he.2.2⟩
  | eof =>
    obtain rfl := Option.some.inj hs'
    exact ⟨before, h.congr rfl rfl rfl rfl rfl id fun hshut => ⟨(h.shut hshut).1, rfl, (h.shut hshut).2.2⟩⟩
  | sent len =>
    obtain ⟨buffer, -, rfl⟩ := Option.map_eq_some_iff.mp hs'
    exact ⟨before, h.congr rfl rfl rfl rfl rfl id h.shut⟩
  | err =>
    obtain rfl := Option.some.inj hs'
    exact ⟨before, h.congr rfl rfl rfl rfl rfl (fun hpcb => absurd hpcb Bool.false_ne_true) h.shut⟩

/-- **What the proxy gets is what the application sent**, in order and once, however the writes fall; the window of the stack is
closed for just what waits, so that it opens again in full; and this way is shut only when the application
has ended and nothing waits. -/
theorem proxy_gets {data : List UInt8} {queue : List (List UInt8)} (hqueue : queue.flatten.length ≤ TCP_WND)
    {pcb_eof : Bool} (h : Reached (start data queue pcb_eof) s) :
    s.wrote <+: s.got ∧
      (s.pcb = true → s.pc = .idle → s.window + (s.got.length - s.wrote.length) = TCP_WND) ∧
      (s.shut = true → s.wrote = s.got ∧ s.pcb_eof = true) := by
  have hforth : ∃ before, Forth s before := by
    induction h with
    | here =>
      refine ⟨[], rfl, rfl, Nat.zero_le _, ?_, fun _ => ?_, fun hshut => absurd hshut Bool.false_ne_true⟩
      · exact (Nat.sub_add_cancel hqueue).le
      · exact Nat.sub_add_cancel hqueue
    | step _ hpossible hstep ih =>
      obtain ⟨before, hforth⟩ := ih
      exact hforth.step hpossible hstep
  obtain ⟨before, hforth⟩ := hforth
  have hwrote := hforth.wrote
  have hgot := hforth.got
  refine ⟨?_, fun hpcb hpc => ?_, fun hshut => ?_⟩
  · rw [hwrote, hgot]
    exact (List.prefix_append_right_inj before).mpr (List.take_prefix _ _)
  · have hfull := hforth.full hpcb
    rw [hpc, pending_idle, List.take_zero, List.append_nil] at hwrote
    rw [hgot, hwrote, List.length_append, Nat.add_sub_cancel_left]
    exact hfull
  · obtain ⟨hempty, heof, -, -⟩ := hforth.shut hshut
    refine ⟨?_, heof⟩
    rw [hwrote, hgot, hempty, List.flatten_nil, List.take_nil]

/-- Two bytes that come, of which one has been written. -/
theorem proxy_gets_short : ∃ s, Reached (start [0] [[1, 2]] false) s ∧ s.wrote = [1] ∧ s.wrote <+: s.got := by
  have h : Reached (start [0] [[1, 2]] false) (start [0] [[1, 2]] false) := .here
  have h := h.step (e := .splice_f (.took 1)) ⟨rfl, by decide, fun k hk => by obtain rfl := Written.took.inj hk; decide⟩ rfl
  have h := h.step (e := .recv [[3]]) ⟨rfl, rfl, by decide⟩ rfl
  have h := h.step (e := .freed) ⟨_, rfl⟩ rfl
  exact ⟨_, h, rfl, (proxy_gets (by decide) h).1⟩

end Session

end VlessCard.TcpSplice
