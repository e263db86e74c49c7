/-
`desync` of the local engine: one packet of a client sent to the server in parts.

The parts end at given positions, and what is left is sent at the end. A part may be taken only in
part by the socket, or not at all, or it may be asked to leave before the next one is begun. Then the
function returns how far it came, and is called again with the same bytes, with what has been sent of
the round, and with the number of the part it was at; from these it has to find its place. What
reaches the server in order is compared with the bytes of the packet.
-/
import VlessCard.TlsRecords
import VlessCard.Cursor

set_option autoImplicit false

namespace VlessCard.Desync

open Wire TlsRecords Cursor

/-! ## The socket

What the socket answers is given for each part by its number, so a call with the same answers is
the same call. An answer says how many bytes were taken, or which error there was. -/

/-- What `send` returns: a number of bytes, or `-1` with `EAGAIN` or with another error. -/
inductive Resp where
  | took (k : ℕ)
  | again
  | failed
  deriving DecidableEq, Repr

/-- The answers to one call, for each part by its number; the last write has the number zero. `fake`
is whether `get_tcp_fake` has a packet. -/
structure Env where
  send : ℕ → Resp
  setttl : ℕ → Bool
  fake : ℕ → Bool
  notsent : ℕ → Bool
  rand : ℕ → ℕ
  tampRand : ℕ → ℕ

/-- A socket that takes anything takes a byte, and never more than it is given. -/
def taken (k len : ℕ) : ℕ := if len = 0 then 0 else max 1 (min k len)

/-- What a call did: a part, with the position it was to end at, or a part that was passed over since it
had its turn before, or the last write. A write comes with what was taken of it, if it was not refused, and
with whether the socket was still to be restored then. -/
inductive Event where
  | part (pos : ℤ) (start len : ℕ) (took : Option ℕ) (restore : Bool)
  | passed (start len : ℕ)
  | last (start len : ℕ) (took : Option ℕ) (restore : Bool)
  deriving DecidableEq, Repr

/-- How far the proxy counts itself to be after it, and how much of that was written. -/
def Event.move : Event → Move
  | .part _ start _ took _ => ⟨start, took.getD 0, took.getD 0⟩
  | .passed start len => ⟨start, 0, len⟩
  | .last start len took _ => ⟨start, took.getD 0, if took.isSome then len else 0⟩

/-! ## One call

One call walks over the parts, sends each in its own way and then the rest. It leaves early when
a part fell short or when what was sent has to be waited for, and the next call is told where to
go on. -/

/-- What a call is given: the bytes from `offset` on are to be sent, `skip` is `round_sent` and
`part_skip` is `part_sent`. -/
structure Call where
  buffer : List UInt8
  n : ℕ
  offset : ℕ
  skip : ℕ
  part_skip : ℕ
  wait_send : Bool

/-- What it returns and leaves; `ret` is `none` for `-1`. -/
structure Out where
  ret : Option ℕ
  wait : Bool := false
  part_sent : ℕ
  restore : Bool
  trace : List Event
  deriving DecidableEq, Repr

def Out.cons (e : Event) (o : Out) : Out := { o with trace := e :: o.trace }

/-- A part whose position is known. -/
structure Turn where
  m : Demode
  start : Bool
  even : Bool
  pos : ℤ
  deriving DecidableEq, Repr

/-- `send`. -/
def plain (env : Env) (curr len : ℕ) : Resp :=
  match env.send curr with
  | .took k => .took (taken k len)
  | r => r

/-- `send_oob`: one byte more is sent than is in order. Where there is no room for it nothing is sent,
and the error is the one of the call before. -/
def sendOob (env : Env) (curr room len : ℕ) : Resp :=
  match env.send curr with
  | .took k => if room ≤ len then .failed else .took (taken k (len + 1) - 1)
  | r => r

/-- What is done with a part of `len` bytes, by its mode. -/
def sendPart (env : Env) (curr : ℕ) (t : Turn) (room len : ℕ) : Resp :=
  match t.m with
  | .NONE | .SPLIT => plain env curr len
  | .OOB => sendOob env curr room len
  | .DISORDER => if t.even ∧ env.setttl curr = false then .failed else plain env curr len
  | .DISOOB => if t.even ∧ env.setttl curr = false then .failed else sendOob env curr room len
  | .FAKE => if env.fake curr = false then .failed else if len = 0 then .took 0 else plain env curr len

/-- Whether the socket has to be restored after it. -/
def Turn.spoils (t : Turn) (len : ℕ) : Bool :=
  match t.m with
  | .DISORDER | .DISOOB => true
  | .FAKE => len ≠ 0
  | _ => false

/-- What becomes of a turn of the loop. -/
inductive Act where
  | next
  | cancel
  | leave (o : Out)
  | sent (e : Event) (pos : ℕ)

/-- After a part that came to its end: the call leaves, or goes on. -/
def settle (c : Call) (env : Env) (curr pos : ℕ) (restore : Bool) (e : Event) : Act :=
  if env.notsent curr ∨ (c.wait_send ∧ c.part_skip < curr) then
    .leave { ret := some (pos - c.offset), wait := true, part_sent := curr, restore := restore, trace := [e] }
  else .sent e pos

/-- The body of the loop, with the number of the turn. -/
def act (c : Call) (env : Env) (t : Turn) (curr lp : ℕ) (restore : Bool) : Act :=
  if ((c.skip ≠ 0 ∧ t.pos < c.skip) ∨ curr < c.part_skip) ∧ t.start = false then .next
  else if c.offset ≠ 0 ∧ t.pos < c.offset then .next
  else if t.pos < 0 ∨ t.pos < lp then .cancel
  else
    let pos := min t.pos.toNat c.n
    if curr = c.part_skip then settle c env curr pos restore (.passed lp (pos - lp))
    else
      match sendPart env curr t (c.buffer.length - lp) (pos - lp) with
      | .failed => .leave { ret := none, part_sent := curr, restore := restore || t.spoils (pos - lp), trace := [] }
      | .again =>
        .leave { ret := some (lp - c.offset), part_sent := curr, restore := restore || t.spoils (pos - lp),
                 trace := [.part t.pos lp (pos - lp) none restore] }
      | .took s =>
        if s ≠ pos - lp then
          .leave { ret := some (lp + s - c.offset), part_sent := curr, restore := restore || t.spoils (pos - lp),
                   trace := [.part t.pos lp (pos - lp) (some s) restore] }
        else settle c env curr pos (restore || t.spoils (pos - lp)) (.part t.pos lp (pos - lp) (some s) restore)

/-- What is left is sent; only an error is looked at. -/
def finish (c : Call) (env : Env) (lp part_sent : ℕ) (restore : Bool) : Out :=
  if lp < c.n then
    match env.send 0 with
    | .took k =>
      { ret := some (c.n - c.offset), part_sent := part_sent, restore := restore,
        trace := [.last lp (c.n - lp) (some (taken k (c.n - lp))) restore] }
    | .again =>
      { ret := some (lp - c.offset), part_sent := part_sent, restore := restore, trace := [.last lp (c.n - lp) none restore] }
    | .failed => { ret := none, part_sent := part_sent, restore := restore, trace := [] }
  else { ret := some (c.n - c.offset), part_sent := part_sent, restore := restore, trace := [] }

/-- The loop over the parts, `curr` of which have had their turn. -/
def loop (c : Call) (env : Env) : List (Part × ℕ) → (curr lp part_sent : ℕ) → Bool → ProtoInfo → Option Out
  | [], _, lp, part_sent, restore, _ => some (finish c env lp part_sent restore)
  | (part, k) :: more, curr, lp, part_sent, restore, info =>
    (genOffset part.pos part.flag c.buffer c.n lp info (env.rand (curr + 1))).bind fun (offset, info) =>
      match act c env ⟨part.m, part.flag.START, k % 2 = 0, offset + (part.s * k : ℕ)⟩ (curr + 1) lp restore with
      | .next => loop c env more (curr + 1) lp part_sent restore info
      | .cancel => some (finish c env lp part_sent restore)
      | .leave o => some o
      | .sent e pos => (loop c env more (curr + 1) pos (curr + 1) false info).map (Out.cons e)

/-- The options of a group that change what is sent and how, and whether the engine writes down what it does. -/
structure Params where
  tamp : TampParams := {}
  parts : List Part := []
  wait_send : Bool := false
  LOG_ENABLED : Bool := false
  deriving DecidableEq, Repr

/-- A packet on its way: the bytes, how many there are, whether they are held for a later call, and what
the proxy keeps of the packet between two calls; `wire` is what the server has of it in order. -/
structure Conn where
  buffer : List UInt8
  n : ℕ
  held : Bool := false
  offset : ℕ := 0
  round_sent : ℕ := 0
  part_sent : ℕ := 0
  restore : Bool := false
  done : Bool := false
  closed : Bool := false
  trace : List Event := []
  wire : List UInt8 := []
  deriving DecidableEq, Repr

/-- The beginning of `desync`: at the start of a round the packet is changed. Where it is written down first
which host it is for, that is looked up in the packet as it was. -/
def tampered (dp : Params) (env : Env) (s : Conn) : Option State :=
  (if s.round_sent = 0 ∧ dp.LOG_ENABLED = true then initProtoInfo (s.buffer.take s.n) {} else some {}).bind fun info =>
    if s.round_sent = 0 then tamp env.tampRand dp.tamp s.buffer s.n info else some ⟨s.buffer, s.n, 0, info⟩

/-- `desync`, with the packet as it leaves it. -/
def desync (dp : Params) (env : Env) (s : Conn) : Option (State × Out) :=
  (tampered dp env s).bind fun st =>
    (loop ⟨st.buffer, st.n.toNat, s.offset, s.round_sent, s.part_sent, dp.wait_send⟩ env (turns dp.parts) 0 s.offset
      s.part_sent s.restore st.info).map fun o => (st, o)

/-- `on_tunnel` with `tcp_send_hook`, when the socket can be written to: the packet is done with unless
less was sent than was there, or a wait was asked for. What was there is counted before the call if the
packet was held. -/
def step (dp : Params) (s : Conn) (env : Env) : Option Conn :=
  if s.done ∨ s.closed then some s
  else
    (desync dp env s).map fun (st, o) =>
      match o.ret with
      | none =>
        { s with
          closed := true
          trace := s.trace ++ o.trace
          wire := s.wire ++ (o.trace.map Event.move).flatMap (Move.read st.buffer) }
      | some sn =>
        { s with
          buffer := st.buffer
          n := st.n.toNat
          held := true
          offset := s.offset + sn
          round_sent := s.round_sent + sn
          part_sent := o.part_sent
          restore := o.restore
          done := decide (¬ (sn < (if s.held then s.n else st.n.toNat) - s.offset ∨ o.wait = true))
          trace := s.trace ++ o.trace
          wire := s.wire ++ (o.trace.map Event.move).flatMap (Move.read st.buffer) }

def run (dp : Params) (s : Conn) : List Env → Option Conn
  | [] => some s
  | env :: envs => (step dp s env).bind fun s => run dp s envs

/-! ## The loop, its positions known

The position of a part may be drawn, and then it is known only in the call. Once it is, the loop
is a walk over a list of places, and most of what follows is about that list. -/

/-- The loop where each turn has its position. -/
def loopAt (c : Call) (env : Env) : List Turn → (curr lp part_sent : ℕ) → Bool → Out
  | [], _, lp, part_sent, restore => finish c env lp part_sent restore
  | t :: more, curr, lp, part_sent, restore =>
    match act c env t (curr + 1) lp restore with
    | .next => loopAt c env more (curr + 1) lp part_sent restore
    | .cancel => finish c env lp part_sent restore
    | .leave o => o
    | .sent e pos => (loopAt c env more (curr + 1) pos (curr + 1) false).cons e

/-- Whatever is drawn, the turns have some positions. -/
theorem exists_loopAt {c : Call} {env : Env} {turns : List (Part × ℕ)} {curr lp part_sent : ℕ} {restore : Bool}
    {info : ProtoInfo} {o : Out} (h : loop c env turns curr lp part_sent restore info = some o) :
    ∃ ts, loopAt c env ts curr lp part_sent restore = o := by
  induction turns generalizing curr lp part_sent restore info o with
  | nil => exact ⟨[], Option.some.inj h⟩
  | cons turn more ih =>
    obtain ⟨part, k⟩ := turn
    unfold loop at h
    obtain ⟨⟨offset, info'⟩, -, h⟩ := Option.bind_eq_some_iff.mp h
    dsimp only at h
    split at h
    · rename_i hact
      obtain ⟨ts, rfl⟩ := ih h
      exact ⟨⟨part.m, part.flag.START, k % 2 = 0, offset + (part.s * k : ℕ)⟩ :: ts, by rw [loopAt, hact]⟩
    · rename_i hact
      exact ⟨[⟨part.m, part.flag.START, k % 2 = 0, offset + (part.s * k : ℕ)⟩], by
        rw [loopAt, hact]
        exact Option.some.inj h⟩
    · rename_i o' hact
      exact ⟨[⟨part.m, part.flag.START, k % 2 = 0, offset + (part.s * k : ℕ)⟩], by
        rw [loopAt, hact]
        exact Option.some.inj h⟩
    · rename_i e pos hact
      obtain ⟨o', ho', rfl⟩ := Option.map_eq_some_iff.mp h
      obtain ⟨ts, rfl⟩ := ih ho'
      exact ⟨⟨part.m, part.flag.START, k % 2 = 0, offset + (part.s * k : ℕ)⟩ :: ts, by rw [loopAt, hact]⟩

/-! ## One turn

A turn is passed over, ends the walk, or does something. These cases are all that later proofs
see of the body of the loop. -/

section
variable {c : Call} {env : Env} {t : Turn} {curr lp : ℕ} {restore : Bool}

/-- The socket takes no more than it is given. -/
theorem taken_le (k len : ℕ) : taken k len ≤ len := by
  unfold taken
  split <;> omega

theorem plain_le {len s : ℕ} (h : plain env curr len = .took s) : s ≤ len := by
  unfold plain at h
  split at h
  · obtain rfl := Resp.took.inj h
    exact taken_le _ len
  · rename_i hsend
    exact absurd h (hsend s)

theorem sendOob_le {room len s : ℕ} (h : sendOob env curr room len = .took s) : s ≤ len := by
  unfold sendOob at h
  split at h
  · rename_i k _
    split at h
    · exact absurd h (by simp)
    · obtain rfl := Resp.took.inj h
      have hle := taken_le k (len + 1)
      omega
  · rename_i hsend
    exact absurd h (hsend s)

/-- Whatever the mode, no more of the part is taken in order than there is. -/
theorem sendPart_le {room len s : ℕ} (h : sendPart env curr t room len = .took s) : s ≤ len := by
  unfold sendPart at h
  split at h
  · exact plain_le h
  · exact plain_le h
  · exact sendOob_le h
  · split at h
    · exact absurd h (by simp)
    · exact plain_le h
  · split at h
    · exact absurd h (by simp)
    · exact sendOob_le h
  · split at h
    · exact absurd h (by simp)
    · split at h
      · obtain rfl := Resp.took.inj h
        exact Nat.zero_le len
      · exact plain_le h

/-- The parts before the one the last call was at are not looked at again. -/
theorem act_before (hcurr : curr < c.part_skip) (hstart : t.start = false) : act c env t curr lp restore = .next := by
  unfold act
  rw [if_pos ⟨.inr hcurr, hstart⟩]

/-- A part is passed over because the round has counted it, or the packet is beyond it. -/
theorem act_next (h : act c env t curr lp restore = .next) :
    ((c.skip ≠ 0 ∧ t.pos < c.skip) ∨ curr < c.part_skip) ∨ (c.offset ≠ 0 ∧ t.pos < c.offset) := by
  unfold act at h
  split at h
  · rename_i hskip
    exact .inl hskip.1
  · split at h
    · rename_i hoffset
      exact .inr hoffset
    · exfalso
      unfold settle at h
      dsimp only at h
      split at h
      · cases h
      · split at h
        · split at h <;> cases h
        · split at h
          · cases h
          · cases h
          · split at h
            · cases h
            · split at h <;> cases h

/-- The walk ends at a position that is behind the place it has come to, or none. -/
theorem act_cancel (h : act c env t curr lp restore = .cancel) : t.pos < 0 ∨ t.pos < lp := by
  by_contra hpos
  unfold act settle at h
  dsimp only at h
  rw [if_neg hpos] at h
  split at h
  · cases h
  · split at h
    · cases h
    · split at h
      · split at h <;> cases h
      · split at h
        · cases h
        · cases h
        · split at h
          · cases h
          · split at h <;> cases h

/-- A turn that does something: it goes on at its position, or the call is left at this part. -/
inductive Acted (c : Call) (t : Turn) (curr lp : ℕ) (restore : Bool) : Act → Prop
  | passed (hcurr : curr = c.part_skip) :
      Acted c t curr lp restore (.sent (.passed lp (min t.pos.toNat c.n - lp)) (min t.pos.toNat c.n))
  | part (hcurr : curr ≠ c.part_skip) :
      Acted c t curr lp restore
        (.sent (.part t.pos lp (min t.pos.toNat c.n - lp) (some (min t.pos.toNat c.n - lp)) restore) (min t.pos.toNat c.n))
  | error (o : Out) (hret : o.ret = none) : Acted c t curr lp restore (.leave o)
  | waitPassed (o : Out) (hcurr : curr = c.part_skip) (hret : o.ret = some (min t.pos.toNat c.n - c.offset))
      (hwait : o.wait = true) (hpart : o.part_sent = curr)
      (htrace : o.trace = [.passed lp (min t.pos.toNat c.n - lp)]) : Acted c t curr lp restore (.leave o)
  | leave (o : Out) (took : Option ℕ) (hcurr : curr ≠ c.part_skip) (htook : took.getD 0 ≤ min t.pos.toNat c.n - lp)
      (hret : o.ret = some (lp + took.getD 0 - c.offset)) (hpart : o.part_sent = curr)
      (htrace : o.trace = [.part t.pos lp (min t.pos.toNat c.n - lp) took restore])
      (hshort : o.wait = true ∨ took = none ∨ took.getD 0 < min t.pos.toNat c.n - lp) : Acted c t curr lp restore (.leave o)

/-- What a turn does that is neither passed by nor the end. -/
theorem act_acted {a : Act} (h : act c env t curr lp restore = a) (hlp : lp ≤ c.n) (hnext : a ≠ .next) (hcancel : a ≠ .cancel) :
    ¬ (((c.skip ≠ 0 ∧ t.pos < c.skip) ∨ curr < c.part_skip) ∧ t.start = false) ∧ ¬ (c.offset ≠ 0 ∧ t.pos < c.offset) ∧
      lp ≤ min t.pos.toNat c.n ∧ (lp : ℤ) ≤ t.pos ∧ Acted c t curr lp restore a := by
  unfold act at h
  -- the order of the checks is that of the loop in the source
  split at h
  · exact absurd h.symm hnext
  · rename_i hskip
    split at h
    · exact absurd h.symm hnext
    · rename_i hoffset
      split at h
      · exact absurd h.symm hcancel
      · rename_i hpos
        refine ⟨hskip, hoffset, by omega, by omega, ?_⟩
        dsimp only at h
        -- a part that was counted as sent is passed, any other one is written
        split at h
        · rename_i hcurr
          unfold settle at h
          split at h
          · exact h ▸ .waitPassed _ hcurr rfl rfl rfl rfl
          · exact h ▸ .passed hcurr
        · rename_i hcurr
          split at h
          · exact h ▸ .error _ rfl
          · exact h ▸ .leave _ none hcurr (Nat.zero_le _) rfl rfl rfl (.inr (.inl rfl))
          · rename_i s hs
            have hle := sendPart_le hs
            split at h
            · rename_i hne
              exact h ▸ .leave _ (some s) hcurr hle rfl rfl rfl (.inr (.inr (lt_of_le_of_ne hle hne)))
            · rename_i heq
              rw [not_not] at heq
              subst heq
              unfold settle at h
              split at h
              · refine h ▸ .leave _ (some (min t.pos.toNat c.n - lp)) hcurr (le_refl _) ?_ rfl rfl (.inl rfl)
                rw [Option.getD_some, Nat.add_sub_cancel' (by omega)]
              · exact h ▸ .part hcurr

end

/-! ## One call

Every property of a call is proved by one rule: what holds at the first turn, and is kept by each
turn that is passed by and by each that sends, holds where the call ends. The first use of it is
that the moves of a call lie end to end. -/

def Out.after (tr : List Event) (o : Out) : Out := { o with trace := tr ++ o.trace }

/-- An event at the front of what is to come is one more at the end of what was. -/
theorem Out.after_cons (tr : List Event) (e : Event) (o : Out) : (o.cons e).after tr = o.after (tr ++ [e]) := by
  unfold Out.after Out.cons
  simp only [List.append_assoc, List.cons_append, List.nil_append]

section
variable {c : Call} {env : Env} {ts : List Turn}

variable (c env ts) in
/-- What holds at the first turn, and is kept by each turn that is passed by and by each that sends, is
there when the call is left, at one of its parts or at its end. -/
theorem loopAt_rule (I : ℕ → ℕ → ℕ → Bool → List Event → Prop) (Q : Out → Prop)
    (next : ∀ curr lp ps r tr t, ts[curr]? = some t → I curr lp ps r tr → act c env t (curr + 1) lp r = .next →
      I (curr + 1) lp ps r tr)
    (sent : ∀ curr lp ps r tr t e pos, ts[curr]? = some t → I curr lp ps r tr → act c env t (curr + 1) lp r = .sent e pos →
      I (curr + 1) pos (curr + 1) false (tr ++ [e]))
    (leave : ∀ curr lp ps r tr t o, ts[curr]? = some t → I curr lp ps r tr → act c env t (curr + 1) lp r = .leave o →
      Q (o.after tr))
    (cancel : ∀ curr lp ps r tr t, ts[curr]? = some t → I curr lp ps r tr → act c env t (curr + 1) lp r = .cancel →
      Q ((finish c env lp ps r).after tr))
    (last : ∀ lp ps r tr, I ts.length lp ps r tr → Q ((finish c env lp ps r).after tr))
    {lp ps : ℕ} {r : Bool} (h : I 0 lp ps r []) : Q (loopAt c env ts 0 lp ps r) := by
  -- by induction over the places that are still to come, from any invariant of those before
  suffices hall : ∀ (todo before : List Turn) (lp ps : ℕ) (r : Bool) (tr : List Event), ts = before ++ todo →
      I before.length lp ps r tr → Q ((loopAt c env todo before.length lp ps r).after tr) by
    have hrun := hall ts [] lp ps r [] rfl h
    simp only [Out.after, List.nil_append] at hrun
    exact hrun
  intro todo
  induction todo with
  | nil =>
    intro before lp ps r tr hts hI
    rw [List.append_nil] at hts
    subst hts
    exact last lp ps r tr hI
  | cons t more ih =>
    intro before lp ps r tr hts hI
    have ht : ts[before.length]? = some t := by
      rw [hts, List.getElem?_append_right (le_refl _), Nat.sub_self, List.getElem?_cons_zero]
    have hmore : ts = (before ++ [t]) ++ more := by
      rw [hts, List.append_assoc, List.cons_append, List.nil_append]
    have hlen : (before ++ [t]).length = before.length + 1 := List.length_append
    unfold loopAt
    split
    · rename_i hact
      have hnext := ih (before ++ [t]) lp ps r tr hmore (by rw [hlen]; exact next _ _ _ _ _ t ht hI hact)
      rwa [hlen] at hnext
    · rename_i hact
      exact cancel _ _ _ _ _ t ht hI hact
    · rename_i o hact
      exact leave _ _ _ _ _ t o ht hI hact
    · rename_i e pos hact
      rw [Out.after_cons]
      have hsent := ih (before ++ [t]) pos (before.length + 1) false (tr ++ [e]) hmore
        (by rw [hlen]; exact sent _ _ _ _ _ t e pos ht hI hact)
      rwa [hlen] at hsent

/-- The end of the call: all is sent, or it is as it was. -/
theorem finish_cases (c : Call) (env : Env) (lp ps : ℕ) (r : Bool) (hlp : lp ≤ c.n) :
    (finish c env lp ps r).part_sent = ps ∧ (finish c env lp ps r).restore = r ∧
      ((finish c env lp ps r).ret = none ∨
        ((finish c env lp ps r).ret = some (c.n - c.offset) ∧ lp = c.n ∧ (finish c env lp ps r).trace = []) ∨
        (∃ k, k ≤ c.n - lp ∧ (finish c env lp ps r).ret = some (c.n - c.offset) ∧
          (finish c env lp ps r).trace = [.last lp (c.n - lp) (some k) r]) ∨
        ((finish c env lp ps r).ret = some (lp - c.offset) ∧
          (finish c env lp ps r).trace = [.last lp (c.n - lp) none r])) := by
  unfold finish
  split
  · split
    · exact ⟨rfl, rfl, .inr (.inr (.inl ⟨_, taken_le _ _, rfl, rfl⟩))⟩
    · exact ⟨rfl, rfl, .inr (.inr (.inr ⟨rfl, rfl⟩))⟩
    · exact ⟨rfl, rfl, .inl rfl⟩
  · exact ⟨rfl, rfl, .inr (.inl ⟨rfl, by omega, rfl⟩)⟩

/-- A move that starts where the last one ended leads on. -/
theorem leads_snoc {lp pos : ℕ} {tr : List Event} {e : Event} (h : Leads lp (tr.map Event.move) pos)
    (hstart : e.move.start = pos) (hle : e.move.took ≤ e.move.adv) :
    Leads lp ((tr ++ [e]).map Event.move) (pos + e.move.adv) := by
  rw [List.map_append]
  exact (leads_append _ _).mpr ⟨pos, h, hstart, hle, rfl⟩

/-- The moves of a call lead from where it begins to where it says that it came, whatever the positions are. -/
theorem loopAt_leads (hoffset : c.offset ≤ c.n) (ps : ℕ) (r : Bool) {sn : ℕ}
    (h : (loopAt c env ts 0 c.offset ps r).ret = some sn) :
    Leads c.offset ((loopAt c env ts 0 c.offset ps r).trace.map Event.move) (c.offset + sn) ∧ c.offset + sn ≤ c.n := by
  revert h
  -- the last write of the call, with what it left out
  have hfinish : ∀ lp ps r tr, Leads c.offset (tr.map Event.move) lp ∧ lp ≤ c.n →
      ((finish c env lp ps r).after tr).ret = some sn →
        Leads c.offset (((finish c env lp ps r).after tr).trace.map Event.move) (c.offset + sn) ∧ c.offset + sn ≤ c.n := by
    rintro lp ps r tr ⟨hleads, hlp⟩ hret
    have hfar := hleads.le
    unfold Out.after at hret ⊢
    dsimp only at hret ⊢
    -- nothing was left, all of it was taken, some of it, or none
    obtain ⟨-, -, hnone | ⟨hsome, rfl, htrace⟩ | ⟨k, hk, hsome, htrace⟩ | ⟨hsome, htrace⟩⟩ := finish_cases c env lp ps r hlp
    · rw [hnone] at hret
      cases hret
    · obtain rfl := Option.some.inj (hsome.symm.trans hret)
      rw [htrace, List.append_nil, Nat.add_sub_cancel' hoffset]
      exact ⟨hleads, le_refl _⟩
    · obtain rfl := Option.some.inj (hsome.symm.trans hret)
      rw [htrace, Nat.add_sub_cancel' hoffset]
      have hsnoc := leads_snoc (e := .last lp (c.n - lp) (some k) r) hleads rfl hk
      rw [show lp + (Event.last lp (c.n - lp) (some k) r).move.adv = c.n from Nat.add_sub_cancel' hlp] at hsnoc
      exact ⟨hsnoc, le_refl _⟩
    · obtain rfl := Option.some.inj (hsome.symm.trans hret)
      rw [htrace, Nat.add_sub_cancel' hfar]
      exact ⟨leads_snoc (e := .last lp (c.n - lp) none r) hleads rfl (Nat.zero_le _), hlp⟩
  -- every turn of the loop leads on from where it stands
  refine loopAt_rule c env ts (fun _ lp _ _ tr => Leads c.offset (tr.map Event.move) lp ∧ lp ≤ c.n)
    (fun o => o.ret = some sn → Leads c.offset (o.trace.map Event.move) (c.offset + sn) ∧ c.offset + sn ≤ c.n)
    (fun _ _ _ _ _ _ _ hI _ => hI) ?_ ?_ (fun _ lp ps r tr _ _ hI _ => hfinish lp ps r tr hI)
    (fun lp ps r tr hI => hfinish lp ps r tr hI) ⟨rfl, hoffset⟩
  · rintro curr lp ps r tr t e pos - ⟨hleads, hlp⟩ hact
    obtain ⟨-, -, hpos, -, hacted⟩ := act_acted hact hlp (by simp) (by simp)
    cases hacted with
    | passed _ =>
      have hsnoc := leads_snoc (e := .passed lp (min t.pos.toNat c.n - lp)) hleads rfl (Nat.zero_le _)
      rw [show lp + (Event.passed lp (min t.pos.toNat c.n - lp)).move.adv = min t.pos.toNat c.n from
        Nat.add_sub_cancel' hpos] at hsnoc
      exact ⟨hsnoc, min_le_right _ _⟩
    | part _ =>
      have hsnoc := leads_snoc (e := .part t.pos lp (min t.pos.toNat c.n - lp) (some (min t.pos.toNat c.n - lp)) r) hleads rfl
        (le_refl _)
      rw [show lp + (Event.part t.pos lp (min t.pos.toNat c.n - lp) (some (min t.pos.toNat c.n - lp)) r).move.adv =
        min t.pos.toNat c.n from Nat.add_sub_cancel' hpos] at hsnoc
      exact ⟨hsnoc, min_le_right _ _⟩
  · rintro curr lp ps r tr t o - ⟨hleads, hlp⟩ hact hret
    have hfar := hleads.le
    obtain ⟨-, -, hpos, -, hacted⟩ := act_acted hact hlp (by simp) (by simp)
    unfold Out.after at hret ⊢
    dsimp only at hret ⊢
    have hmin : min t.pos.toNat c.n ≤ c.n := min_le_right _ _
    cases hacted with
    | error _ hnone =>
      rw [hnone] at hret
      cases hret
    | waitPassed _ _ hsome _ _ htrace =>
      obtain rfl := Option.some.inj (hsome.symm.trans hret)
      have hsnoc := leads_snoc (e := .passed lp (min t.pos.toNat c.n - lp)) hleads rfl (Nat.zero_le _)
      rw [show lp + (Event.passed lp (min t.pos.toNat c.n - lp)).move.adv = min t.pos.toNat c.n from
        Nat.add_sub_cancel' hpos] at hsnoc
      rw [htrace, Nat.add_sub_cancel' (hfar.trans hpos)]
      exact ⟨hsnoc, hmin⟩
    | leave _ took _ htook hsome _ htrace =>
      -- the write that ends the call may have taken less than it stands for
      obtain rfl := Option.some.inj (hsome.symm.trans hret)
      rw [htrace, show c.offset + (lp + took.getD 0 - c.offset) = lp + took.getD 0 by omega]
      exact ⟨leads_snoc (e := .part t.pos lp (min t.pos.toNat c.n - lp) took r) hleads rfl (le_refl _), by omega⟩

end

/-! ## What reaches the server

Calls follow each other until the packet is done or the connection is closed. As long as the
packet is not changed a run keeps the account of its moves, and what the server has in order can
be read off it. -/

/-- A socket that takes everything. -/
def calm : Env where
  send _ := .took (2 ^ 31)
  setttl _ := true
  fake _ := true
  notsent _ := false
  rand _ := 0
  tampRand _ := 0

/-- Nothing is done to the bytes before they are sent. -/
def Kept (dp : Params) (s : Conn) : Prop := s.round_sent ≠ 0 ∨ dp.tamp = {}

/-- The packet has not been looked at yet, or it has been. -/
def Knows (buffer : List UInt8) (n : ℕ) (info : ProtoInfo) : Prop :=
  initProtoInfo (buffer.take n) info = initProtoInfo (buffer.take n) {}

/-- What is found in a packet is found once: looking again changes nothing. -/
theorem initProtoInfo_init {buffer : List UInt8} {info info' : ProtoInfo} (h : initProtoInfo buffer info = some info') :
    initProtoInfo buffer info' = some info' := by
  have hinit : info'.init = true := by
    unfold initProtoInfo at h
    split at h
    · rename_i hinit
      obtain rfl := Option.some.inj h
      exact hinit
    · obtain ⟨⟨len, hs⟩, -, h⟩ := Option.bind_eq_some_iff.mp h
      dsimp only at h
      split at h
      · obtain rfl := Option.some.inj h
        rfl
      · obtain ⟨⟨len', host⟩, -, h⟩ := Option.bind_eq_some_iff.mp h
        obtain rfl := Option.some.inj h
        rfl
  unfold initProtoInfo
  rw [if_pos hinit]

theorem knows_of_init {buffer : List UInt8} {n : ℕ} {info : ProtoInfo} (h : initProtoInfo (buffer.take n) {} = some info) :
    Knows buffer n info := by
  unfold Knows
  rw [initProtoInfo_init h, h]

/-- Of a packet that is kept, `desync` sends what it is given. -/
theorem desync_kept {dp : Params} {env : Env} {s : Conn} (hkept : Kept dp s) {st : State} {o : Out}
    (h : desync dp env s = some (st, o)) :
    st.buffer = s.buffer ∧ st.n = s.n ∧ ∃ info, Knows s.buffer s.n info ∧
      loop ⟨s.buffer, s.n, s.offset, s.round_sent, s.part_sent, dp.wait_send⟩ env (turns dp.parts) 0 s.offset s.part_sent
        s.restore info = some o := by
  -- the host that is written down is that of the packet that is sent
  obtain ⟨info, hinfo, hknows⟩ : ∃ info, (if s.round_sent = 0 ∧ dp.LOG_ENABLED = true then
      initProtoInfo (s.buffer.take s.n) {} else some {}) = some info ∧ Knows s.buffer s.n info := by
    split
    · obtain ⟨info, hinfo⟩ := exists_initProtoInfo (s.buffer.take s.n) {}
      exact ⟨info, hinfo, knows_of_init hinfo⟩
    · exact ⟨{}, rfl, rfl⟩
  have hst : tampered dp env s = some ⟨s.buffer, s.n, 0, info⟩ := by
    unfold tampered
    rw [hinfo, Option.bind_some]
    split
    · rename_i hzero
      rw [hkept.resolve_left (not_not.mpr hzero)]
      rfl
    · rfl
  unfold desync at h
  rw [hst, Option.bind_some] at h
  obtain ⟨o', ho', heq⟩ := Option.map_eq_some_iff.mp h
  obtain ⟨rfl, rfl⟩ := Prod.mk.inj heq
  exact ⟨rfl, rfl, info, hknows, ho'⟩

/-- A call that the connection survives. -/
structure Passed (dp : Params) (env : Env) (s s' : Conn) (o : Out) (sn : ℕ) : Prop where
  ret : o.ret = some sn
  call : ∃ info, Knows s.buffer s.n info ∧
    loop ⟨s.buffer, s.n, s.offset, s.round_sent, s.part_sent, dp.wait_send⟩ env (turns dp.parts) 0 s.offset s.part_sent
      s.restore info = some o
  buffer : s'.buffer = s.buffer
  n : s'.n = s.n
  offset : s'.offset = s.offset + sn
  round_sent : s'.round_sent = s.round_sent + sn
  part_sent : s'.part_sent = o.part_sent
  restore : s'.restore = o.restore
  done : s'.done = true ↔ s.n - s.offset ≤ sn ∧ o.wait = false
  trace : s'.trace = s.trace ++ o.trace
  wire : s'.wire = s.wire ++ (o.trace.map Event.move).flatMap (Move.read s.buffer)

/-- A step does nothing, or is a call that ends the connection, or one that it survives. -/
theorem step_cases {dp : Params} {env : Env} {s s' : Conn} (hkept : Kept dp s) (h : step dp s env = some s') :
    s' = s ∨ s'.closed = true ∨ (s.done = false ∧ s.closed = false ∧ ∃ o sn, Passed dp env s s' o sn) := by
  unfold step at h
  split at h
  · exact .inl (Option.some.inj h).symm
  · rename_i hopen
    simp only [not_or, Bool.not_eq_true] at hopen
    obtain ⟨⟨st, o⟩, hdesync, rfl⟩ := Option.map_eq_some_iff.mp h
    obtain ⟨hbuffer, hn, hcall⟩ := desync_kept hkept hdesync
    dsimp only
    split
    · exact .inr (.inl rfl)
    · rename_i sn hret
      refine .inr (.inr ⟨hopen.1, hopen.2, o, sn, hret, hcall, hbuffer, ?_, rfl, rfl, rfl, rfl, ?_, rfl, ?_⟩)
      · dsimp only
        rw [hn, Int.toNat_natCast]
      · dsimp only
        rw [hn, Int.toNat_natCast, ite_self, decide_eq_true_iff, not_or, Bool.not_eq_true, not_lt]
      · dsimp only
        rw [hbuffer]

/-- A closed connection takes no more calls. -/
theorem run_closed {s : Conn} (hclosed : s.closed = true) (dp : Params) (envs : List Env) : run dp s envs = some s := by
  induction envs with
  | nil => rfl
  | cons env envs ih =>
    unfold run step
    rw [if_pos (.inr hclosed), Option.bind_some, ih]

/-- What is kept by every call that the connection survives is there in every run that it survives. -/
theorem run_rule {dp : Params} (I : Conn → Prop)
    (hstep : ∀ s s' env o sn, s.done = false → I s → Passed dp env s s' o sn → I s') {s s' : Conn} (hkept : Kept dp s) (hI : I s)
    {envs : List Env} (h : run dp s envs = some s') (hopen : s'.closed = false) : I s' := by
  induction envs generalizing s with
  | nil =>
    obtain rfl := Option.some.inj h
    exact hI
  | cons env envs ih =>
    obtain ⟨mid, hmid, hrest⟩ := Option.bind_eq_some_iff.mp h
    obtain rfl | hclosed | ⟨hdone, -, o, sn, hpassed⟩ := step_cases hkept hmid
    · exact ih hkept hI hrest
    · obtain rfl := Option.some.inj ((run_closed hclosed dp envs).symm.trans hrest)
      rw [hopen] at hclosed
      cases hclosed
    · have hround := hpassed.round_sent
      exact ih (hkept.imp_left fun hsent => by omega) (hstep _ _ _ _ _ hdone hI hpassed) hrest

/-- The packet is where the proxy counts it to be, by moves that lie end to end. -/
structure Sound (buffer : List UInt8) (n : ℕ) (s : Conn) : Prop where
  buffer_eq : s.buffer = buffer
  n_eq : s.n = n
  leads : Leads 0 (s.trace.map Event.move) s.offset
  offset_le : s.offset ≤ n
  wire : s.wire = (s.trace.map Event.move).flatMap (Move.read buffer)
  done : s.done = true → s.offset = n

/-- A call that passes leads on from where the proxy counts it to be. -/
theorem Sound.step {buffer : List UInt8} {n : ℕ} {dp : Params} {s s' : Conn} {env : Env} {o : Out} {sn : ℕ}
    (hs : Sound buffer n s) (h : Passed dp env s s' o sn) : Sound buffer n s' := by
  have hbuffer := hs.buffer_eq
  have hn := hs.n_eq
  obtain ⟨info, -, hcall⟩ := h.call
  obtain ⟨ts, rfl⟩ := exists_loopAt hcall
  have hoffset : s.offset ≤ s.n := hn ▸ hs.offset_le
  obtain ⟨hleads, hle⟩ := loopAt_leads
    (c := ⟨s.buffer, s.n, s.offset, s.round_sent, s.part_sent, dp.wait_send⟩) hoffset _ _ h.ret
  have hdone := h.done
  refine ⟨h.buffer.trans hbuffer, h.n.trans hn, ?_, ?_, ?_, ?_⟩
  · rw [h.trace, h.offset, List.map_append]
    exact (leads_append _ _).mpr ⟨_, hs.leads, hleads⟩
  · rw [h.offset, ← hn]
    exact hle
  · rw [h.trace, h.wire, hs.wire, List.map_append, List.flatMap_append, hbuffer]
  · rw [hdone, h.offset]
    dsimp only at hle
    rintro ⟨hall, -⟩
    omega

/-- A packet that is about to be sent, with what the round has left behind it. -/
def packet (buffer : List UInt8) (n round_sent part_sent : ℕ) (restore : Bool) : Conn :=
  { buffer := buffer, n := n, round_sent := round_sent, part_sent := part_sent, restore := restore }

/-- At the start nothing is sent and nothing counted. -/
theorem packet_sound (buffer : List UInt8) (n round_sent part_sent : ℕ) (restore : Bool) :
    Sound buffer n (packet buffer n round_sent part_sent restore) where
  buffer_eq := rfl
  n_eq := rfl
  leads := rfl
  offset_le := Nat.zero_le n
  wire := rfl
  done h := absurd h Bool.false_ne_true

/-- Moves that are end to end leave nothing out just when each took all it stands for. -/
theorem Sound.wire_iff {buffer : List UInt8} {n : ℕ} (hn : n ≤ buffer.length) {s : Conn} (hs : Sound buffer n s) :
    s.wire = buffer.take s.offset ↔ ∀ e ∈ s.trace, e.move.Whole := by
  have hiff := hs.leads.read_eq_iff (hs.offset_le.trans hn)
  rw [← hs.wire, List.drop_zero, Nat.sub_zero, List.forall_mem_map] at hiff
  exact hiff

/-- The server has its bytes in their order, and none of them twice. -/
theorem Sound.wire_sublist {buffer : List UInt8} {n : ℕ} {s : Conn} (hs : Sound buffer n s) :
    List.Sublist s.wire (buffer.take s.offset) := by
  have hsub := hs.leads.read_sublist buffer
  rwa [← hs.wire, List.drop_zero, Nat.sub_zero] at hsub

/-- **Nothing is sent twice, and what is lost can be told from the moves**: in order the server has all that
the proxy counts as sent just when nothing was passed over and no write at the end fell short. This is so
for any positions, drawn or not, and any answers of the socket, as long as the packet is not changed: a
round that was refused at its first call would change it once more. -/
theorem run_wire (dp : Params) (buffer : List UInt8) {n : ℕ} (hn : n ≤ buffer.length) (round_sent part_sent : ℕ)
    (restore : Bool) (hkept : round_sent ≠ 0 ∨ dp.tamp = {}) (envs : List Env) {s : Conn}
    (h : run dp (packet buffer n round_sent part_sent restore) envs = some s) (hopen : s.closed = false) :
    (s.done = true → s.offset = n) ∧ List.Sublist s.wire (buffer.take s.offset) ∧
      (s.wire = buffer.take s.offset ↔ ∀ e ∈ s.trace, e.move.Whole) := by
  have hsound : Sound buffer n s := run_rule (s := packet buffer n round_sent part_sent restore) (Sound buffer n)
    (fun _ _ _ _ _ _ => Sound.step) hkept (packet_sound buffer n round_sent part_sent restore) h hopen
  exact ⟨hsound.done, hsound.wire_sublist, hsound.wire_iff hn⟩

/-- A packet that the socket refused once. -/
theorem run_wire_again : ∃ s, run { parts := [{ pos := 1 }] } (packet [7, 8, 9] 3 0 0 false)
      [{ calm with send := fun _ => .again }, calm] = some s ∧
    (s.wire = [7, 8, 9].take s.offset ↔ ∀ e ∈ s.trace, e.move.Whole) :=
  ⟨_, rfl, (run_wire { parts := [{ pos := 1 }] } [7, 8, 9] (n := 3) (by decide) 0 0 false (.inr rfl)
    [{ calm with send := fun _ => .again }, calm] rfl rfl).2.2⟩

/-! ## The positions of a packet

Without random positions the places of a packet are the same in every call. So a later call goes
over the same list, from the place that the last one came to. -/

/-- A position that is not drawn does not depend on how far the packet has been sent, nor on whether it has
been looked at. -/
theorem genOffset_knows {buffer : List UInt8} {n : ℕ} {info : ProtoInfo} (hinfo : Knows buffer n info) {flag : Flag}
    (hrand : flag.RAND = false) (pos lp : ℤ) (rand : ℕ) :
    ∃ info', Knows buffer n info' ∧ genOffset pos flag buffer n lp info rand =
      some (((genOffset pos flag buffer n 0 {} 0).map Prod.fst).getD (-1), info') := by
  unfold genOffset
  rw [hrand, Int.toNat_natCast]
  split
  · obtain ⟨info', hinfo'⟩ := exists_initProtoInfo (buffer.take n) info
    have hinit := initProtoInfo_init hinfo'
    have hknows : Knows buffer n info' := by
      unfold Knows
      rw [hinit, ← hinfo', hinfo]
    unfold Knows at hinfo
    refine ⟨info', hknows, ?_⟩
    rw [← hinfo, hinfo']
    simp only [Option.bind_some, Bool.false_eq_true, if_false]
    split_ifs <;> rfl
  · refine ⟨info, hinfo, ?_⟩
    simp only [Bool.false_eq_true, if_false]
    split_ifs <;> rfl

/-- A turn with its position, where none is drawn. -/
def place (buffer : List UInt8) (n : ℕ) (turn : Part × ℕ) : Turn :=
  ⟨turn.1.m, turn.1.flag.START, turn.2 % 2 = 0,
    ((genOffset turn.1.pos turn.1.flag buffer n 0 {} 0).map Prod.fst).getD (-1) + (turn.1.s * turn.2 : ℕ)⟩

/-- Without random positions the loop walks over places that are known beforehand. -/
theorem loop_eq (c : Call) (env : Env) {turns : List (Part × ℕ)} (hrand : ∀ turn ∈ turns, turn.1.flag.RAND = false)
    (curr lp part_sent : ℕ) (restore : Bool) {info : ProtoInfo} (hinfo : Knows c.buffer c.n info) :
    loop c env turns curr lp part_sent restore info =
      some (loopAt c env (turns.map (place c.buffer c.n)) curr lp part_sent restore) := by
  induction turns generalizing curr lp part_sent restore info with
  | nil => rfl
  | cons turn more ih =>
    obtain ⟨part, k⟩ := turn
    have hmore := ih fun turn hturn => hrand turn (List.mem_cons_of_mem _ hturn)
    obtain ⟨info', hinfo', hoffset⟩ := genOffset_knows hinfo (hrand (part, k) List.mem_cons_self) part.pos lp (env.rand (curr + 1))
    unfold loop
    rw [hoffset, Option.bind_some, List.map_cons, loopAt]
    dsimp only
    rw [show (⟨part.m, part.flag.START, k % 2 = 0,
        ((genOffset part.pos part.flag c.buffer c.n 0 {} 0).map Prod.fst).getD (-1) + (part.s * k : ℕ)⟩ : Turn) =
      place c.buffer c.n (part, k) from rfl]
    split
    · exact hmore _ _ _ _ hinfo'
    · rfl
    · rfl
    · rw [hmore _ _ _ _ hinfo']
      rfl

/-! ## Writes that cost nothing

A part that fell short costs nothing if the round has counted the bytes behind it already, for
then a later part sends them. The account keeps track of this, and of whether the next call would
pass over bytes that were never sent. -/

/-- A part that fell short is made good where its end lies before what the round counts as sent, since it is
then not passed over; at the end only a refusal is noticed. -/
def Event.Safe (round_sent : ℕ) : Event → Prop
  | .part pos start len took _ => took.getD 0 = len ∨ pos < round_sent + start + took.getD 0
  | .passed _ _ => True
  | .last _ len took _ => took = none ∨ took = some len

/-- The next call would pass over bytes that were not sent: the part it is told to go on after ends later. -/
def Skips (ts : List Turn) (n round_sent offset part_sent : ℕ) : Prop :=
  ∃ t, part_sent ≠ 0 ∧ ts[part_sent - 1]? = some t ∧ (round_sent : ℤ) ≤ t.pos ∧ offset < min t.pos.toNat n

/-- Whether the next place is passed over depends on that place alone. -/
theorem skips_succ {ts : List Turn} {curr : ℕ} {t : Turn} (ht : ts[curr]? = some t) (n round_sent offset : ℕ) :
    Skips ts n round_sent offset (curr + 1) ↔ (round_sent : ℤ) ≤ t.pos ∧ offset < min t.pos.toNat n := by
  unfold Skips
  rw [Nat.add_sub_cancel, ht]
  constructor
  · rintro ⟨t', -, heq, h⟩
    obtain rfl := Option.some.inj heq
    exact h
  · intro h
    exact ⟨t, Nat.succ_ne_zero curr, rfl, h⟩

/-- Of a packet that is sent up to `offset`: that no write cost anything, and `D`, says that nothing has been
lost and nothing will be passed over. -/
def Account (ts : List Turn) (n base : ℕ) (D : Prop) (tr : List Event) (offset part_sent : ℕ) : Prop :=
  (∀ e ∈ tr, e.Safe base) ∧ D ↔ (∀ e ∈ tr, e.move.Whole) ∧ ¬ Skips ts n (base + offset) offset part_sent

section
variable {ts : List Turn} {n base : ℕ} {D : Prop}

theorem Account.snoc {tr : List Event} {offset part_sent : ℕ} (h : Account ts n base D tr offset part_sent) {e : Event}
    {offset' part_sent' : ℕ}
    (he : ¬ Skips ts n (base + offset) offset part_sent ∧ e.Safe base ↔
      e.move.Whole ∧ ¬ Skips ts n (base + offset') offset' part_sent') :
    Account ts n base D (tr ++ [e]) offset' part_sent' := by
  unfold Account at h ⊢
  simp only [List.forall_mem_append, List.forall_mem_singleton]
  rw [and_right_comm, h, and_assoc, he, and_assoc]

variable {c : Call} {env : Env}

/-- Where the account stands in a call: at the parts before the one the last call was at, or behind them,
where nothing is passed over any more. -/
def Stands (c : Call) (ts : List Turn) (base : ℕ) (D : Prop) (T : List Event) (curr lp part_sent : ℕ) (tr : List Event) : Prop :=
  (curr < c.part_skip ∧ tr = [] ∧ lp = c.offset ∧ part_sent = c.part_skip ∧ Account ts c.n base D T c.offset c.part_skip) ∨
    (c.part_skip ≤ curr ∧ c.offset ≤ lp ∧ lp ≤ c.n ∧ ¬ Skips ts c.n (base + lp) lp part_sent ∧
      Account ts c.n base D (T ++ tr) lp part_sent)

/-- The walk stays between where the call began and the end of the packet. -/
theorem Stands.bounds {T tr : List Event} {curr lp part_sent : ℕ} (hoffset : c.offset ≤ c.n)
    (h : Stands c ts base D T curr lp part_sent tr) : c.offset ≤ lp ∧ lp ≤ c.n := by
  obtain ⟨-, -, rfl, -, -⟩ | ⟨-, hlow, hhigh, -, -⟩ := h
  · exact ⟨le_refl _, hoffset⟩
  · exact ⟨hlow, hhigh⟩

/-- A turn that does something is the one the last call was at, or comes after it; and if it is passed over, what was
to be passed over is what is. -/
theorem Stands.reached {T tr : List Event} {curr lp part_sent : ℕ} {t : Turn} {restore : Bool} {a : Act}
    (hskip : c.skip = base + c.offset) (hoffset : c.offset ≤ c.n) (hstart : t.start = false) (ht : ts[curr]? = some t)
    (h : Stands c ts base D T curr lp part_sent tr) (hact : act c env t (curr + 1) lp restore = a) (hnext : a ≠ .next)
    (hcancel : a ≠ .cancel) :
    (curr + 1 = c.part_skip ∧
        Account ts c.n base D (T ++ tr ++ [.passed lp (min t.pos.toNat c.n - lp)]) (min t.pos.toNat c.n) (curr + 1)) ∨
      (curr + 1 ≠ c.part_skip ∧ c.part_skip ≤ curr ∧ ¬ Skips ts c.n (base + lp) lp part_sent ∧
        Account ts c.n base D (T ++ tr) lp part_sent) := by
  obtain ⟨hnot, -, hpos, hreach, -⟩ := act_acted hact (h.bounds hoffset).2 hnext hcancel
  simp only [hstart, and_true, not_or, not_and, not_lt] at hnot
  obtain ⟨hcurr, rfl, rfl, rfl, haccount⟩ | ⟨hcurr, -, -, hskips, haccount⟩ := h
  · have heq : curr + 1 = c.part_skip := by omega
    left
    refine ⟨heq, ?_⟩
    rw [List.append_nil]
    refine haccount.snoc ?_
    rw [← hskip, ← heq, skips_succ ht, skips_succ ht]
    have hround : (c.skip : ℤ) ≤ t.pos := by
      by_cases hzero : c.skip = 0
      · omega
      · exact hnot.1 hzero
    have hnone : ¬ (((base + min t.pos.toNat c.n : ℕ) : ℤ) ≤ t.pos ∧ min t.pos.toNat c.n < min t.pos.toNat c.n) := by omega
    have hwhole : (Event.passed c.offset (min t.pos.toNat c.n - c.offset)).move.Whole ↔
        0 = min t.pos.toNat c.n - c.offset := Iff.rfl
    have hsafe : (Event.passed c.offset (min t.pos.toNat c.n - c.offset)).Safe base := trivial
    rw [hwhole]
    simp only [hsafe, hnone, and_true, not_false_iff]
    omega
  · exact .inr ⟨by omega, hcurr, hskips, haccount⟩

/-- At its end a call passes over nothing. -/
theorem account_finish {T tr : List Event} {lp part_sent : ℕ} (hlow : c.offset ≤ lp) (hhigh : lp ≤ c.n)
    (hskips : ¬ Skips ts c.n (base + lp) lp part_sent) (haccount : Account ts c.n base D (T ++ tr) lp part_sent) (restore : Bool)
    {sn : ℕ} (hret : (finish c env lp part_sent restore).ret = some sn) :
    Account ts c.n base D (T ++ (tr ++ (finish c env lp part_sent restore).trace)) (c.offset + sn)
      (finish c env lp part_sent restore).part_sent := by
  have hend : ¬ Skips ts c.n (base + c.n) c.n part_sent := by
    rintro ⟨t, -, -, -, hlt⟩
    omega
  obtain ⟨hpart, -, hnone | ⟨hsome, rfl, htrace⟩ | ⟨k, hk, hsome, htrace⟩ | ⟨hsome, htrace⟩⟩ :=
    finish_cases c env lp part_sent restore hhigh
  · rw [hnone] at hret
    cases hret
  · obtain rfl := Option.some.inj (hsome.symm.trans hret)
    rw [hpart, htrace, List.append_nil, Nat.add_sub_cancel' hlow]
    exact haccount
  · obtain rfl := Option.some.inj (hsome.symm.trans hret)
    rw [hpart, htrace, Nat.add_sub_cancel' (hlow.trans hhigh), ← List.append_assoc]
    refine haccount.snoc ?_
    have hsafe : (Event.last lp (c.n - lp) (some k) restore).Safe base ↔ k = c.n - lp := by
      simp only [Event.Safe, reduceCtorEq, false_or, Option.some.injEq]
    have hwhole : (Event.last lp (c.n - lp) (some k) restore).move.Whole ↔ k = c.n - lp := Iff.rfl
    rw [hsafe, hwhole]
    simp only [hskips, hend, not_false_iff, true_and, and_true]
  · obtain rfl := Option.some.inj (hsome.symm.trans hret)
    rw [hpart, htrace, Nat.add_sub_cancel' hlow, ← List.append_assoc]
    refine haccount.snoc ?_
    have hsafe : (Event.last lp (c.n - lp) none restore).Safe base := .inl rfl
    have hwhole : (Event.last lp (c.n - lp) none restore).move.Whole := rfl
    simp only [hskips, hsafe, hwhole, not_false_iff]

/-- A call keeps the account. -/
theorem loopAt_account (hstart : ∀ t ∈ ts, t.start = false) (hskip : c.skip = base + c.offset) (hoffset : c.offset ≤ c.n)
    {T : List Event} (h : Account ts c.n base D T c.offset c.part_skip) (restore : Bool) {sn : ℕ}
    (hret : (loopAt c env ts 0 c.offset c.part_skip restore).ret = some sn) :
    Account ts c.n base D (T ++ (loopAt c env ts 0 c.offset c.part_skip restore).trace) (c.offset + sn)
      (loopAt c env ts 0 c.offset c.part_skip restore).part_sent := by
  revert hret
  have hmem : ∀ {curr : ℕ} {t : Turn}, ts[curr]? = some t → t.start = false := fun ht => hstart _ (List.mem_of_getElem? ht)
  -- `Stands` says where the walk is: before the part of the last call, or behind it
  refine loopAt_rule c env ts (fun curr lp ps _ tr => Stands c ts base D T curr lp ps tr)
    (fun o => o.ret = some sn → Account ts c.n base D (T ++ o.trace) (c.offset + sn) o.part_sent) ?_ ?_ ?_ ?_ ?_ ?_
  · rintro curr lp ps r tr t ht hI hact
    obtain ⟨hcurr, rfl, rfl, rfl, haccount⟩ | ⟨hcurr, hbehind⟩ := hI
    · by_cases hlast : curr + 1 < c.part_skip
      · exact .inl ⟨hlast, rfl, rfl, rfl, haccount⟩
      · -- the part the last call was at lies behind what was sent: it will not be passed over
        have heq : curr + 1 = c.part_skip := by omega
        have hskips : ¬ Skips ts c.n (base + c.offset) c.offset c.part_skip := by
          rw [← hskip, ← heq, skips_succ ht]
          obtain (⟨-, hpos⟩ | hpos) | ⟨-, hpos⟩ := act_next hact <;> omega
        refine .inr ⟨by omega, le_refl _, hoffset, hskips, ?_⟩
        rw [List.append_nil]
        exact haccount
    · exact .inr ⟨by omega, hbehind⟩
  -- a part that is written is safe when it was taken whole
  · intro curr lp ps r tr t e pos ht hI hact
    obtain ⟨hlow, hhigh⟩ := hI.bounds hoffset
    obtain ⟨-, -, hpos, -, hacted⟩ := act_acted hact hhigh (by simp) (by simp)
    have hmin : min t.pos.toNat c.n ≤ c.n := min_le_right _ _
    have hskips' : ¬ Skips ts c.n (base + min t.pos.toNat c.n) (min t.pos.toNat c.n) (curr + 1) := by
      rw [skips_succ ht]
      omega
    obtain ⟨hcurr, haccount⟩ | ⟨hcurr, hbehind, hskips, haccount⟩ :=
      hI.reached hskip hoffset (hmem ht) ht hact (by simp) (by simp)
    · cases hacted with
      | part hne => exact absurd hcurr hne
      | passed _ =>
        rw [List.append_assoc] at haccount
        exact .inr ⟨by omega, by omega, hmin, hskips', haccount⟩
    · cases hacted with
      | passed heq => exact absurd heq hcurr
      | part _ =>
        refine .inr ⟨by omega, by omega, hmin, hskips', ?_⟩
        rw [← List.append_assoc]
        refine haccount.snoc ?_
        have hsafe : (Event.part t.pos lp (min t.pos.toNat c.n - lp) (some (min t.pos.toNat c.n - lp)) r).Safe base :=
          .inl rfl
        have hwhole : (Event.part t.pos lp (min t.pos.toNat c.n - lp) (some (min t.pos.toNat c.n - lp)) r).move.Whole := rfl
        simp only [hskips, hskips', hsafe, hwhole, not_false_iff]
  -- a part that ends the call is safe when the next call takes it up again
  · intro curr lp ps r tr t o ht hI hact hret
    obtain ⟨hlow, hhigh⟩ := hI.bounds hoffset
    obtain ⟨-, -, hpos, -, hacted⟩ := act_acted hact hhigh (by simp) (by simp)
    unfold Out.after at hret ⊢
    dsimp only at hret ⊢
    obtain ⟨hcurr, haccount⟩ | ⟨hcurr, hbehind, hskips, haccount⟩ :=
      hI.reached hskip hoffset (hmem ht) ht hact (by simp) (by simp)
    · cases hacted with
      | error _ hnone =>
        rw [hnone] at hret
        cases hret
      | leave _ _ hne => exact absurd hcurr hne
      | waitPassed _ _ hsome _ hpart htrace =>
        obtain rfl := Option.some.inj (hsome.symm.trans hret)
        rw [hpart, htrace, Nat.add_sub_cancel' (by omega), ← List.append_assoc]
        exact haccount
    · cases hacted with
      | error _ hnone =>
        rw [hnone] at hret
        cases hret
      | waitPassed _ heq => exact absurd heq hcurr
      | leave _ took _ htook hsome hpart htrace =>
        obtain rfl := Option.some.inj (hsome.symm.trans hret)
        rw [hpart, htrace, show c.offset + (lp + took.getD 0 - c.offset) = lp + took.getD 0 by omega, ← List.append_assoc]
        refine haccount.snoc ?_
        have hsafe : (Event.part t.pos lp (min t.pos.toNat c.n - lp) took r).Safe base ↔
            took.getD 0 = min t.pos.toNat c.n - lp ∨ t.pos < base + lp + took.getD 0 := Iff.rfl
        have hwhole : (Event.part t.pos lp (min t.pos.toNat c.n - lp) took r).move.Whole := rfl
        rw [skips_succ ht, hsafe]
        simp only [hskips, hwhole, not_false_iff, true_and]
        omega
  · intro curr lp ps r tr t ht hI hact hret
    obtain ⟨hcurr, rfl, rfl, rfl, haccount⟩ | ⟨-, hlow, hhigh, hskips, haccount⟩ := hI
    · -- the loop ends at the part the last call was at, or before it
      have heq : curr + 1 = c.part_skip := by
        by_contra hne
        rw [act_before (by omega) (hmem ht)] at hact
        cases hact
      have hskips : ¬ Skips ts c.n (base + c.offset) c.offset c.part_skip := by
        have hpos := act_cancel hact
        rw [← heq, skips_succ ht]
        omega
      exact account_finish (le_refl _) hoffset hskips (by rw [List.append_nil]; exact haccount) r hret
    · exact account_finish hlow hhigh hskips haccount r hret
  · intro lp ps r tr hI hret
    obtain ⟨hcurr, rfl, rfl, rfl, haccount⟩ | ⟨-, hlow, hhigh, hskips, haccount⟩ := hI
    · have hskips : ¬ Skips ts c.n (base + c.offset) c.offset c.part_skip := by
        rintro ⟨t, -, ht, -⟩
        rw [List.getElem?_eq_none (by omega)] at ht
        cases ht
      exact account_finish (le_refl _) hoffset hskips (by rw [List.append_nil]; exact haccount) r hret
    · exact account_finish hlow hhigh hskips haccount r hret
  -- at the start no part was begun, or the part of the last call is still to come
  · by_cases hzero : c.part_skip = 0
    · refine .inr ⟨by omega, le_refl _, hoffset, ?_, by rw [List.append_nil]; exact h⟩
      rintro ⟨t, hne, -⟩
      exact hne hzero
    · exact .inl ⟨Nat.pos_of_ne_zero hzero, rfl, rfl, rfl, h⟩

end

/-- Each turn belongs to one of the parts. -/
theorem mem_parts {parts : List Part} {turn : Part × ℕ} (h : turn ∈ turns parts) : turn.1 ∈ parts := by
  obtain ⟨part, hpart, hmem⟩ := List.mem_flatMap.mp h
  obtain ⟨k, -, rfl⟩ := List.mem_map.mp hmem
  exact hpart

/-- The positions of a packet where none is drawn. -/
def places (dp : Params) (buffer : List UInt8) (n : ℕ) : List Turn := (turns dp.parts).map (place buffer n)

theorem places_start {dp : Params} (hparts : ∀ part ∈ dp.parts, part.flag.RAND = false ∧ part.flag.START = false)
    (buffer : List UInt8) (n : ℕ) : ∀ t ∈ places dp buffer n, t.start = false := by
  intro t ht
  obtain ⟨turn, hturn, rfl⟩ := List.mem_map.mp ht
  exact (hparts _ (mem_parts hturn)).2

/-- A call goes over the positions of the packet. -/
theorem Passed.loopAt {dp : Params} {env : Env} {s s' : Conn} {o : Out} {sn : ℕ} (h : Passed dp env s s' o sn)
    (hparts : ∀ part ∈ dp.parts, part.flag.RAND = false ∧ part.flag.START = false) :
    loopAt ⟨s.buffer, s.n, s.offset, s.round_sent, s.part_sent, dp.wait_send⟩ env (places dp s.buffer s.n) 0 s.offset s.part_sent
      s.restore = o := by
  obtain ⟨info, hknows, hcall⟩ := h.call
  rw [loop_eq _ env (fun turn hturn => (hparts _ (mem_parts hturn)).1) _ _ _ _ hknows] at hcall
  exact Option.some.inj hcall

/-- **When a packet reaches the server whole**: just when no part of it fell short at a place that the round had not
counted as sent before, its last write did not fall short, and its round does not begin with it by passing
over a part. In a fresh round that is: when each part is taken whole or refused empty, and the last write
is taken whole or refused. -/
theorem run_delivered (dp : Params) (buffer : List UInt8) {n : ℕ} (hn : n ≤ buffer.length) (round_sent part_sent : ℕ)
    (restore : Bool) (hkept : round_sent ≠ 0 ∨ dp.tamp = {})
    (hparts : ∀ part ∈ dp.parts, part.flag.RAND = false ∧ part.flag.START = false) (envs : List Env) {s : Conn}
    (h : run dp (packet buffer n round_sent part_sent restore) envs = some s) (hopen : s.closed = false)
    (hdone : s.done = true) :
    s.wire = buffer.take n ↔
      (∀ e ∈ s.trace, e.Safe round_sent) ∧ ¬ Skips (places dp buffer n) n round_sent 0 part_sent := by
  have hinv : Sound buffer n s ∧ s.round_sent = round_sent + s.offset ∧
      Account (places dp buffer n) n round_sent (¬ Skips (places dp buffer n) n round_sent 0 part_sent) s.trace s.offset
        s.part_sent := by
    -- the account of the round says what the trace of it has lost
    refine run_rule (s := packet buffer n round_sent part_sent restore) (fun s => Sound buffer n s ∧
      s.round_sent = round_sent + s.offset ∧ Account (places dp buffer n) n round_sent
        (¬ Skips (places dp buffer n) n round_sent 0 part_sent) s.trace s.offset s.part_sent) ?_ hkept ?_ h hopen
    · rintro s s' env o sn - ⟨hsound, hround, haccount⟩ hpassed
      have hcall := hpassed.loopAt hparts
      have hret := hpassed.ret
      refine ⟨hsound.step hpassed, by rw [hpassed.round_sent, hpassed.offset, hround, Nat.add_assoc], ?_⟩
      rw [hsound.buffer_eq, hsound.n_eq] at hcall
      rw [hpassed.trace, hpassed.offset, hpassed.part_sent]
      rw [← hcall] at hret ⊢
      exact loopAt_account (c := ⟨buffer, n, s.offset, s.round_sent, s.part_sent, dp.wait_send⟩) (places_start hparts buffer n)
        hround hsound.offset_le haccount s.restore hret
    · refine ⟨packet_sound buffer n round_sent part_sent restore, rfl, ?_⟩
      simp only [Account, packet, List.not_mem_nil, false_imp_iff, implies_true, true_and, Nat.add_zero]
  obtain ⟨hsound, -, haccount⟩ := hinv
  have hoffset := hsound.done hdone
  -- at the end of the packet there is no place left that could be passed over
  have hskips : ¬ Skips (places dp buffer n) n (round_sent + s.offset) s.offset s.part_sent := by
    rintro ⟨t, -, -, -, hlt⟩
    omega
  have hwire := hsound.wire_iff hn
  unfold Account at haccount
  rw [hoffset] at hwire
  rw [haccount, hwire]
  exact (and_iff_left hskips).symm

/-- The first part is refused, and the second call passes it over. -/
theorem run_delivered_again : ∃ s, run { parts := [{ pos := 1 }] } (packet [7, 8, 9] 3 0 0 false)
      [{ calm with send := fun _ => .again }, calm] = some s ∧
    (s.wire = [7, 8, 9] ↔ (∀ e ∈ s.trace, e.Safe 0) ∧
      ¬ Skips (places { parts := [{ pos := 1 }] } [7, 8, 9] 3) 3 0 0 0) :=
  ⟨_, rfl, run_delivered { parts := [{ pos := 1 }] } [7, 8, 9] (n := 3) (by decide) 0 0 false (.inr rfl) (by decide)
    [{ calm with send := fun _ => .again }, calm] rfl rfl rfl⟩

/-! ## The socket between two writes

A part may be sent with a lowered hop count, which has to be put back before the next write. What
is still to be put back is remembered over calls, and the invariant says at which part the next
call will do it. -/

/-- A write is begun with the socket as it was before the packet. -/
def Event.Clean : Event → Prop
  | .part _ _ _ _ restore => restore = false
  | .passed _ _ => True
  | .last _ _ _ restore => restore = false

/-- What is to be restored will be, at the part the next call goes on after. -/
def Pending (ts : List Turn) (offset part_sent : ℕ) : Prop :=
  ∃ t, part_sent ≠ 0 ∧ ts[part_sent - 1]? = some t ∧ (offset : ℤ) ≤ t.pos

/-- A place is still to come as long as it is not behind the packet. -/
theorem pending_succ {ts : List Turn} {curr : ℕ} {t : Turn} (ht : ts[curr]? = some t) (offset : ℕ) :
    Pending ts offset (curr + 1) ↔ (offset : ℤ) ≤ t.pos := by
  unfold Pending
  rw [Nat.add_sub_cancel, ht]
  constructor
  · rintro ⟨t', -, heq, h⟩
    obtain rfl := Option.some.inj heq
    exact h
  · intro h
    exact ⟨t, Nat.succ_ne_zero curr, rfl, h⟩

/-- How a call leaves the socket. -/
structure Leaves (c : Call) (ts : List Turn) (o : Out) (sn : ℕ) : Prop where
  clean : ∀ e ∈ o.trace, e.Clean
  pending : o.restore = true → Pending ts (c.offset + sn) o.part_sent
  done : o.restore = true → c.n ≤ c.offset + sn → o.wait = false → ∃ pos, .part pos c.n 0 none false ∈ o.trace

section
variable {c : Call} {env : Env} {ts : List Turn}

/-- The last write of a call leaves nothing to be restored. -/
theorem finish_leaves {lp ps : ℕ} (hlp : lp ≤ c.n) {tr : List Event} (htr : ∀ e ∈ tr, e.Clean) (sn : ℕ) :
    Leaves c ts ((finish c env lp ps false).after tr) sn := by
  obtain ⟨-, hrestore, hcases⟩ := finish_cases c env lp ps false hlp
  have hclean : ∀ e ∈ (finish c env lp ps false).trace, e.Clean := by
    unfold finish
    intro e he
    split at he
    · split at he
      · obtain rfl := List.mem_singleton.mp he
        rfl
      · obtain rfl := List.mem_singleton.mp he
        rfl
      · exact absurd he List.not_mem_nil
    · exact absurd he List.not_mem_nil
  have hnot : ((finish c env lp ps false).after tr).restore = true → False := fun h => by
    rw [Out.after, hrestore] at h
    cases h
  exact ⟨fun e he => (List.mem_append.mp he).elim (htr e) (hclean e), fun h => (hnot h).elim, fun h => (hnot h).elim⟩

/-- A call restores the socket before it writes. -/
theorem loopAt_leaves (hstart : ∀ t ∈ ts, t.start = false) (hskip : c.skip = c.offset) (hoffset : c.offset ≤ c.n)
    {restore : Bool} (h : restore = true → Pending ts c.offset c.part_skip) {sn : ℕ}
    (hret : (loopAt c env ts 0 c.offset c.part_skip restore).ret = some sn) :
    Leaves c ts (loopAt c env ts 0 c.offset c.part_skip restore) sn := by
  revert hret
  -- the invariant is that a restore is pending only up to the part that asked for it
  refine loopAt_rule c env ts
    (fun curr lp ps r tr => c.offset ≤ lp ∧ lp ≤ c.n ∧ (∀ e ∈ tr, e.Clean) ∧
      (r = true → curr < c.part_skip ∧ lp = c.offset ∧ Pending ts c.offset c.part_skip))
    (fun o => o.ret = some sn → Leaves c ts o sn) ?_ ?_ ?_ ?_ ?_ ?_
  · rintro curr lp ps r tr t ht ⟨hlow, hhigh, htr, hr⟩ hact
    refine ⟨hlow, hhigh, htr, fun hrestore => ?_⟩
    obtain ⟨hcurr, rfl, hpending⟩ := hr hrestore
    refine ⟨?_, rfl, hpending⟩
    by_contra hlast
    have heq : curr + 1 = c.part_skip := by omega
    rw [← heq, pending_succ ht] at hpending
    obtain (⟨-, hpos⟩ | hpos) | ⟨-, hpos⟩ := act_next hact <;> omega
  · rintro curr lp ps r tr t e pos ht ⟨hlow, hhigh, htr, hr⟩ hact
    obtain ⟨hnot, -, hpos, -, hacted⟩ := act_acted hact hhigh (by simp) (by simp)
    simp only [hstart t (List.mem_of_getElem? ht), and_true, not_or, not_lt] at hnot
    have hmin : min t.pos.toNat c.n ≤ c.n := min_le_right _ _
    -- a lowered hop count was restored before this part
    have hclean : e.Clean ∧ pos = min t.pos.toNat c.n := by
      cases hacted with
      | passed _ => exact ⟨trivial, rfl⟩
      | part hne =>
        refine ⟨?_, rfl⟩
        rw [Event.Clean, ← Bool.not_eq_true]
        -- only the part of the last call finds the hop count lowered, and it is passed
        intro hrestore
        have hcurr := (hr hrestore).1
        omega
    obtain ⟨hclean, rfl⟩ := hclean
    refine ⟨hlow.trans hpos, hmin, ?_, fun hfalse => absurd hfalse (by decide)⟩
    intro e' he'
    obtain he' | he' := List.mem_append.mp he'
    · exact htr e' he'
    · rw [List.mem_singleton.mp he']
      exact hclean
  · rintro curr lp ps r tr t o ht ⟨hlow, hhigh, htr, hr⟩ hact hret
    obtain ⟨hnot, -, hpos, hreach, hacted⟩ := act_acted hact hhigh (by simp) (by simp)
    simp only [hstart t (List.mem_of_getElem? ht), and_true, not_or, not_lt] at hnot
    unfold Out.after at hret ⊢
    dsimp only at hret
    -- a call may end by waiting, or by a write that fell short
    cases hacted with
    | error _ hnone =>
      rw [hnone] at hret
      cases hret
    | waitPassed _ hcurr hsome hwait hpart htrace =>
      obtain rfl := Option.some.inj (hsome.symm.trans hret)
      refine ⟨?_, fun _ => ?_, fun _ _ hfalse => ?_⟩
      · rw [htrace]
        intro e he
        obtain he | he := List.mem_append.mp he
        · exact htr e he
        · rw [List.mem_singleton.mp he]
          trivial
      · dsimp only
        rw [hpart, pending_succ ht]
        omega
      · rw [hwait] at hfalse
        cases hfalse
    | leave _ took hcurr htook hsome hpart htrace hshort =>
      obtain rfl := Option.some.inj (hsome.symm.trans hret)
      have hr : r = false := by
        rw [← Bool.not_eq_true]
        intro hrestore
        have hbefore := (hr hrestore).1
        omega
      refine ⟨?_, fun _ => ?_, fun _ hall hwait => ?_⟩
      · rw [htrace]
        intro e he
        obtain he | he := List.mem_append.mp he
        · exact htr e he
        · rw [List.mem_singleton.mp he]
          exact hr
      · dsimp only
        rw [hpart, pending_succ ht]
        omega
      · -- a part that fell short leaves something to be sent, unless there was nothing of it
        dsimp only at hwait ⊢
        rw [hwait, Bool.false_eq_true, false_or] at hshort
        obtain rfl | hless := hshort
        · refine ⟨t.pos, ?_⟩
          rw [Option.getD_none] at hall
          rw [htrace, hr, show lp = c.n by omega, show min t.pos.toNat c.n - c.n = 0 by omega]
          exact List.mem_append_right tr (List.mem_singleton_self _)
        · omega
  · rintro curr lp ps r tr t ht ⟨hlow, hhigh, htr, hr⟩ hact hret
    -- the walk does not end before the part that asked for it
    have hr' : r = false := by
      rw [← Bool.not_eq_true]
      intro hrestore
      obtain ⟨hcurr, rfl, hpending⟩ := hr hrestore
      have hpos := act_cancel hact
      by_cases hlast : curr + 1 < c.part_skip
      · rw [act_before hlast (hstart t (List.mem_of_getElem? ht))] at hact
        cases hact
      · rw [show c.part_skip = curr + 1 by omega, pending_succ ht] at hpending
        omega
    subst hr'
    exact finish_leaves hhigh htr sn
  -- nor at the end of the packet
  · rintro lp ps r tr ⟨hlow, hhigh, htr, hr⟩ hret
    have hr' : r = false := by
      rw [← Bool.not_eq_true]
      intro hrestore
      obtain ⟨hcurr, -, t, -, ht, -⟩ := hr hrestore
      rw [List.getElem?_eq_none (by omega)] at ht
      cases ht
    subst hr'
    exact finish_leaves hhigh htr sn
  · refine ⟨le_refl _, hoffset, fun e he => absurd he List.not_mem_nil, fun hrestore => ?_⟩
    have hpending := h hrestore
    obtain ⟨t, hne, -⟩ := hpending
    exact ⟨Nat.pos_of_ne_zero hne, rfl, h hrestore⟩

end

/-- **No write of a fresh round is begun with the lowered hop count of a part before it**, however often the packet
is taken up again; and nothing is left to be restored when it is done, unless an empty part at its very end
was refused. -/
theorem run_restored (dp : Params) (buffer : List UInt8) (n : ℕ) (htamp : dp.tamp = {})
    (hparts : ∀ part ∈ dp.parts, part.flag.RAND = false ∧ part.flag.START = false) (envs : List Env) {s : Conn}
    (h : run dp (packet buffer n 0 0 false) envs = some s) (hopen : s.closed = false) :
    (∀ e ∈ s.trace, e.Clean) ∧
      (s.done = true → s.restore = true → ∃ pos, .part pos n 0 none false ∈ s.trace) := by
  have hinv : Sound buffer n s ∧ s.round_sent = s.offset ∧ (∀ e ∈ s.trace, e.Clean) ∧
      (s.restore = true → Pending (places dp buffer n) s.offset s.part_sent) ∧
      (s.done = true → s.restore = true → ∃ pos, .part pos n 0 none false ∈ s.trace) := by
    -- with no tamp options the places are the same in every call
    refine run_rule (s := packet buffer n 0 0 false) (fun s => Sound buffer n s ∧ s.round_sent = s.offset ∧
      (∀ e ∈ s.trace, e.Clean) ∧ (s.restore = true → Pending (places dp buffer n) s.offset s.part_sent) ∧
      (s.done = true → s.restore = true → ∃ pos, .part pos n 0 none false ∈ s.trace)) ?_ (.inr htamp) ?_ h hopen
    · rintro s s' env o sn - ⟨hsound, hround, hclean, hpending, -⟩ hpassed
      have hcall := hpassed.loopAt hparts
      have hret := hpassed.ret
      rw [hsound.buffer_eq, hsound.n_eq] at hcall
      rw [← hcall] at hret
      have hleaves := loopAt_leaves (c := ⟨buffer, n, s.offset, s.round_sent, s.part_sent, dp.wait_send⟩)
        (places_start hparts buffer n) hround hsound.offset_le hpending hret
      rw [hcall] at hleaves
      have hdone := hpassed.done
      refine ⟨hsound.step hpassed, by rw [hpassed.round_sent, hpassed.offset, hround], ?_, ?_, ?_⟩
      · rw [hpassed.trace]
        intro e he
        exact (List.mem_append.mp he).elim (hclean e) (hleaves.clean e)
      · rw [hpassed.restore, hpassed.offset, hpassed.part_sent]
        exact hleaves.pending
      · rw [hdone, hpassed.restore, hpassed.trace]
        rintro ⟨hall, hwait⟩ hrestore
        rw [hsound.n_eq] at hall
        have hle := hsound.offset_le
        obtain ⟨pos, hpos⟩ := hleaves.done hrestore (by dsimp only; omega) hwait
        exact ⟨pos, List.mem_append_right _ hpos⟩
    · exact ⟨packet_sound buffer n 0 0 false, rfl, fun e he => absurd he List.not_mem_nil,
        fun hfalse => absurd hfalse Bool.false_ne_true, fun hfalse => absurd hfalse Bool.false_ne_true⟩
  exact ⟨hinv.2.2.1, hinv.2.2.2.2⟩

/-- A part with a lowered hop count, and the rest after it. -/
theorem run_restored_disorder : ∃ s, run { parts := [{ m := .DISORDER, pos := 1 }] } (packet [7, 8, 9] 3 0 0 false)
      [{ calm with notsent := fun _ => true }, calm] = some s ∧ ∀ e ∈ s.trace, e.Clean :=
  ⟨_, rfl, (run_restored { parts := [{ m := .DISORDER, pos := 1 }] } [7, 8, 9] 3 rfl (by decide)
    [{ calm with notsent := fun _ => true }, calm] rfl rfl).1⟩

/-! ## A ClientHello on its way

A ClientHello is cut into records before its first byte is sent, and the proxy goes on with the
bytes as they are then. If the first call gets nothing out, the next one cuts them again, which
is why it has to send something. -/

/-- After a call that changed the packet and sent some of it, the packet is what the call made of it. -/
theorem step_tamped {dp : Params} {env : Env} {buffer : List UInt8} {n : ℕ} {st : State} {s : Conn}
    (htamp : tampered dp env (packet buffer n 0 0 false) = some st)
    (h : step dp (packet buffer n 0 0 false) env = some s) (hopen : s.closed = false) : Sound st.buffer st.n.toNat s := by
  have hlive : ¬ ((packet buffer n 0 0 false).done = true ∨ (packet buffer n 0 0 false).closed = true) := by
    rintro (hfalse | hfalse) <;> exact Bool.false_ne_true hfalse
  unfold step at h
  rw [if_neg hlive] at h
  obtain ⟨⟨st', o⟩, hdesync, rfl⟩ := Option.map_eq_some_iff.mp h
  have hcall : (loop ⟨st.buffer, st.n.toNat, 0, 0, 0, dp.wait_send⟩ env (turns dp.parts) 0 0 0 false st.info).map
      (fun o => (st, o)) = some (st', o) := by
    unfold desync at hdesync
    rwa [htamp, Option.bind_some] at hdesync
  obtain ⟨o', ho', heq⟩ := Option.map_eq_some_iff.mp hcall
  obtain ⟨rfl, rfl⟩ := Prod.mk.inj heq
  obtain ⟨ts, rfl⟩ := exists_loopAt ho'
  dsimp only at hopen ⊢
  split
  · rename_i hret
    simp only [hret, reduceCtorEq] at hopen
  · rename_i sn hret
    obtain ⟨hleads, hle⟩ := loopAt_leads (c := ⟨st.buffer, st.n.toNat, 0, 0, 0, dp.wait_send⟩) (Nat.zero_le _) _ _ hret
    refine ⟨rfl, rfl, hleads, hle, rfl, fun hdone => ?_⟩
    have hall : ¬ (sn < st.n.toNat - 0 ∨ _) := of_decide_eq_true hdone
    have hle' : 0 + sn ≤ st.n.toNat := hle
    show 0 + sn = st.n.toNat
    omega

/-- Whatever was written down of it first, a ClientHello comes to be cut. -/
theorem exists_cut_tampered {dp : Params} {env : Env} {minor : UInt8} {whole : List UInt8} {L : ℕ} {slack : List UInt8}
    {s : Conn} (hkind : whole.head? = some 1) (hwhole : whole.length ≤ L) (hL : L < 256 ^ 2) (hround : s.round_sent = 0)
    (hbuffer : s.buffer = [22, 3, minor] ++ (bigEndian 2 L ++ (whole ++ slack))) (hn : s.n = 5 + whole.length) {st : State}
    (h : tampered dp env s = some st) :
    Nonempty (Cut [22, 3, dp.tamp.tlsminor.getD minor] whole L (5 + whole.length + slack.length) st) := by
  obtain ⟨info, -, htamp⟩ := Option.bind_eq_some_iff.mp h
  rw [if_pos hround, hbuffer, hn] at htamp
  exact (tamp_cut env.tampRand dp.tamp info minor whole L slack hkind hwhole hL).2 st htamp

/-- **A ClientHello that was cut into records and sent in parts arrives as the bytes it was made into**, in what
is in order, just when its moves leave nothing out, and these bytes read as the one record it was. The first
call has to send something of it: else the next one cuts it again. -/
theorem run_hello (dp : Params) (minor : UInt8) (whole : List UInt8) (L : ℕ) (slack : List UInt8) (hkind : whole.head? = some 1)
    (hwhole : whole.length ≤ L) (hL : L < 256 ^ 2) (env : Env) (envs : List Env) {mid s : Conn}
    (hfirst : step dp (packet ([22, 3, minor] ++ (bigEndian 2 L ++ (whole ++ slack))) (5 + whole.length) 0 0 false) env = some mid)
    (hsent : mid.round_sent ≠ 0) (h : run dp mid envs = some s) (hopen : s.closed = false) (hdone : s.done = true) :
    ∃ st, tampered dp env (packet ([22, 3, minor] ++ (bigEndian 2 L ++ (whole ++ slack))) (5 + whole.length) 0 0 false) = some st ∧
      (s.wire = st.buffer.take st.n.toNat ↔ ∀ e ∈ s.trace, e.move.Whole) ∧
      ∀ rest, Frames.content TLS (st.buffer.take st.n.toNat ++ rest) =
        Frames.content TLS ([22, 3, dp.tamp.tlsminor.getD minor] ++ (bigEndian 2 L ++ (whole ++ rest))) := by
  obtain ⟨st, htamp⟩ : ∃ st, tampered dp env
      (packet ([22, 3, minor] ++ (bigEndian 2 L ++ (whole ++ slack))) (5 + whole.length) 0 0 false) = some st := by
    unfold step at hfirst
    split at hfirst
    · obtain rfl := Option.some.inj hfirst
      exact absurd rfl hsent
    · obtain ⟨out, hdesync, -⟩ := Option.map_eq_some_iff.mp hfirst
      obtain ⟨st, hst, -⟩ := Option.bind_eq_some_iff.mp hdesync
      exact ⟨st, hst⟩
  obtain ⟨c⟩ := exists_cut_tampered hkind hwhole hL rfl rfl rfl htamp
  have hlen := c.length_buffer rfl
  have hn := c.n_eq
  have hmid : mid.closed = false := by
    rw [← Bool.not_eq_true]
    intro hclosed
    have hstay := run_closed hclosed dp envs
    obtain rfl := Option.some.inj (hstay.symm.trans h)
    rw [hopen] at hclosed
    cases hclosed
  -- from the second call on the packet is not changed any more
  have hsound : Sound st.buffer st.n.toNat s := run_rule (s := mid) (Sound st.buffer st.n.toNat)
    (fun _ _ _ _ _ _ => Sound.step) (.inl hsent) (step_tamped htamp hfirst hmid) h hopen
  have hwire := hsound.wire_iff (by omega)
  rw [hsound.done hdone] at hwire
  exact ⟨st, htamp, hwire, c.content_eq rfl hwhole hL⟩

/-- Cut behind its second byte, and the first part is still in the queue when the first call ends. -/
theorem run_hello_short : ∃ (s : Conn) (st : State),
    tampered { tamp := { tlsrec := [{ pos := 2 }] }, parts := [{ pos := 1 }] } { calm with notsent := fun _ => true }
      (packet ([22, 3, 1] ++ (bigEndian 2 3 ++ ([1, 7, 8] ++ List.replicate 6 0))) 8 0 0 false) = some st ∧
    (s.wire = st.buffer.take st.n.toNat ↔ ∀ e ∈ s.trace, e.move.Whole) ∧
    ∀ rest, Frames.content TLS (st.buffer.take st.n.toNat ++ rest) =
      Frames.content TLS ([22, 3, 1] ++ (bigEndian 2 3 ++ ([1, 7, 8] ++ rest))) :=
  ⟨_, run_hello { tamp := { tlsrec := [{ pos := 2 }] }, parts := [{ pos := 1 }] } 1 [1, 7, 8] 3
    (List.replicate 6 0) rfl (by decide) (by decide) { calm with notsent := fun _ => true } [calm] rfl (by decide) rfl rfl rfl⟩

/-- Cut twice, since the first call was refused: a head is counted that was not put in, and what lies behind
the packet in the buffer goes out with it. -/
example : (run { tamp := { tlsrec := [{ pos := 0, flag := { MID := true } }] } }
      (packet ([22, 3, 1, 0, 8, 1, 0, 0, 4, 7, 8, 9, 10] ++ List.replicate 12 99) 13 0 0 false)
      [{ calm with send := fun _ => .again }, calm]).map Conn.wire =
    some ([22, 3, 1, 0, 1, 1, 22, 3, 1, 0, 7, 0, 0, 4, 7, 8, 9, 10] ++ [99, 99, 99, 99, 99]) := rfl

end VlessCard.Desync
