/-
`Actions.tuneAutoMask` and `AutoRoutePolicy`: other masks are tried on a server that works,
and one that is measured to be faster replaces the mask in use.

A trial downloads through the server with one mask. Its result is written by an update of the
store, which reads the state, computes the next one and starts over when somebody else wrote
in between; the mask in use is compared with the one expected inside that update. So a write is
judged by the state it really replaces, and what holds of one write holds of every write of a
run, whatever others do between the steps. A speed is known by the time it was measured at,
and the time zero stands for none.
-/
import VlessCard.MaskDice
import VlessCard.ProbeRace

set_option autoImplicit false

namespace VlessCard

namespace Masks

/-! ## The masks of the settings

The masks that may be tried are limited by the families and fingerprints that the settings allow.
The masks of the user and the default one are never left out. -/

section
variable (own cloud : List NamedMask)

/-- The kind of a mask the settings switch on and off. Masks bred by the program are not in the
order of the search. -/
def family (m : NamedMask) : String :=
  if m ∈ own then "my"
  else if m.signature then "brand"
  else if m.hasNoise || m.hop ≠ "" then "noise"
  else if Text.startsWith m.dpi "BYEDPI#VCARD" || Text.startsWith m.dpi "TPWS#VCARD" then "own"
  else if Text.startsWith m.dpi "TPWS#" then "zapret"
  else if m.dpi ≠ "" && m.dpi ≠ CURRENT_DPI then "byedpi"
  else if m.dpi = CURRENT_DPI then "viadpi"
  else if m.lengths ≠ "" then "ladder"
  else if m.packets ≠ "" then "frag"
  else "plain"

/-- `searchOrder`, limited to the families and fingerprints of the settings. -/
def searchOrderLimited (U : Jvm) (byeDpiAvailable : Bool) (server : Option Server) (families fps : List String) :
    List NamedMask :=
  (searchOrder U own cloud byeDpiAvailable server).filter fun m =>
    m.id = DEFAULT_ID || decide (m ∈ own) ||
      ((families.isEmpty || decide (family own m ∈ families)) &&
        (fps.isEmpty || decide (m.fingerprint ∈ fps) || m.hasNoise))

end

end Masks

namespace AutoRoutePolicy

/-! ## The policy

A mask replaces the one in use when its sample works and is faster by a fifth and by 256 kbit/s,
or when there is no speed to compare with. The comparison is made in `Long`s, so it does not
overflow for speeds that are `Int`s. -/

/-- The masks to try: none at all first, then a gentle cut. -/
def maskTrials (U : Jvm) (own cloud : List NamedMask) (server : Server) (current : String) (settings : Settings) :
    List String :=
  if server.protocol ∉ ["vless", "vmess", "trojan"] then []
  else
    let allowed := (Masks.searchOrderLimited own cloud U false (some server) settings.maskFamilies settings.maskFps).map
      fun m => m.id
    let nativeChrome := (if server.fp = "" then "chrome" else server.fp) = "chrome"
    (["", "chrome.n", "chrome.h6"].filter fun id =>
      id ≠ current && (id = "" || decide (id ∈ allowed)) &&
        !(nativeChrome && (id = "chrome.n" || id = "" && current = "chrome.n"))).take 2

/-- Whether a sample may replace the mask in use; the comparison is one of `Long`s. -/
def improved (current : ServerState) (net : String) (now : Int64) (sample : Probe) : Bool :=
  sample.works && sample.bigOk = some true && 0 < sample.kbps &&
    (let old := ServerChoice.measuredSpeed current net now
     decide (old ≤ 0) ||
       (decide (old.toInt64 * 120 / 100 ≤ sample.kbps.toInt64) &&
         decide (256 ≤ sample.kbps.toInt64 - old.toInt64)))

def apply (current : ServerState) (net mask : String) (now : Int64) (sample : Probe) : ServerState :=
  { current with
    maskId := mask
    netMasks := current.netMasks.put net mask
    realMs := sample.realMs
    bigOk := sample.bigOk
    kbps := sample.kbps
    speedNetwork := net
    speedMask := mask
    speedCheckedAt := now
    checkedAt := now }

end AutoRoutePolicy

namespace Store

/-- `Store.setState`: the list of servers stays the same object. -/
def setState (U : Jvm) (id : String) (change : ServerState → ServerState) : AppState → AppState :=
  update U false fun st => { st with states := st.states.put id (change ((st.states.get? id).getD {})) }

end Store

namespace MaskTuning

open AutoRoutePolicy
open Actions (sampleServer)

/-! ## The code

A call is a small machine: it probes one mask after the other and writes what it found by an
atomic update. Between any two of its steps others may write, and an update that lost its race is
tried again. -/

/-- What was measured with the mask of a trial, and when. -/
structure Trial where
  id : String
  sample : Probe
  stamp : Int64

/-- A call: the server and the network. -/
structure Call where
  server : Server
  net : String

inductive Phase where
  /-- At the head of the loop, in the middle of a trial, or behind the loop. -/
  | trying
  /-- With a sample, before the store is read. -/
  | measured (t : Trial)
  /-- Inside the update, which has read `prev`. -/
  | updating (t : Trial) (prev : AppState)
  | returned

/-- A write of a call: the mask it expected, and the store before and after. -/
structure Write where
  trial : Trial
  expected : String
  applied : Bool
  before : AppState
  after : AppState

structure State where
  st : AppState
  phase : Phase
  /-- The masks that are left to try, the one in trial first. -/
  left : List String
  expected : String
  /-- The writes so far, which the code does not keep. -/
  writes : List Write

inductive Event where
  /-- The call returns early or is cancelled. -/
  | leave
  /-- A trial brings no sample. -/
  | missed
  | sampled (p : Probe) (stamp : Int64)
  /-- The update reads the store. -/
  | read
  /-- Nobody wrote since, and the new state is put. -/
  | swap
  /-- Somebody did, and the update starts over. -/
  | lost
  /-- Anything anybody else writes. -/
  | other (st : AppState)

section
variable (U : Jvm) (c : Call)

/-- The function handed to `Store.setState`: whether it applies, and its value. -/
def change (expected : String) (t : Trial) (current : ServerState) : Bool × ServerState :=
  if current.maskFor c.net = expected && improved current c.net t.stamp t.sample then
    (true, apply current c.net t.id t.stamp t.sample)
  else (false, current)

/-- What one attempt of the update makes of the state it read. -/
def write (expected : String) (t : Trial) (prev : AppState) : Write :=
  { trial := t
    expected := expected
    applied := (change c expected t (prev.state U c.server)).1
    before := prev
    after := Store.setState U (c.server.id U) (fun current => (change c expected t current).2) prev }

/-- Where a call starts, `own` and `cloud` being the masks of the user and of the feed. -/
def start (own cloud : List NamedMask) (st : AppState) : State :=
  let original := (st.state U c.server).maskFor c.net
  let pinned := (st.servers.find? fun s => s.id U = c.server.id U).getD c.server
  { st := st
    phase := if st.settings.mode ≠ .AUTO then .returned else .trying
    left := maskTrials U own cloud pinned original st.settings
    expected := original
    writes := [] }

/-- One step of the call or of somebody else; `none` is a step that is not possible. -/
def step (s : State) (e : Event) : Option State :=
  match e, s.phase with
  | .other st, _ => some { s with st := st }
  | .leave, .trying => some { s with phase := .returned }
  | .leave, .measured _ => some { s with phase := .returned }
  | .missed, .trying =>
    match s.left with
    | [] => none
    | _ :: rest => some { s with left := rest }
  | .sampled p stamp, .trying =>
    match s.left with
    | [] => none
    | id :: rest => some { s with left := rest, phase := .measured ⟨id, p, stamp⟩ }
  | .read, .measured t => some { s with phase := .updating t s.st }
  | .lost, .updating t _ => some { s with phase := .measured t }
  | .swap, .updating t prev =>
    if s.st = prev then
      let w := write U c s.expected t prev
      some { s with
        st := w.after
        phase := .trying
        expected := if w.applied then t.id else s.expected
        writes := s.writes ++ [w] }
    else none
  | _, _ => none

def run (s : State) (es : List Event) : Option State := es.foldlM (step U c) s

end

/-! ## What a write is to be

What is said of a run is said of its writes: each puts a mask in the place of the one that was in
use, and is faster by the measure of the policy. -/

section
variable (U : Jvm) (c : Call)

/-- The mask in use after some writes when nobody else changes it. -/
def lastMask (original : String) (ws : List Write) : String :=
  ws.foldl (fun mask w => if w.applied then w.trial.id else mask) original

/-- A write that puts the mask of its trial in use. -/
structure Faster (w : Write) : Prop where
  mask : (w.after.state U c.server).maskFor c.net = w.trial.id
  /-- The next comparison sees the new speed; a time that is not positive stands for none. -/
  speed : ServerChoice.measuredSpeed (w.after.state U c.server) c.net w.trial.stamp =
    if 0 < w.trial.stamp then w.trial.sample.kbps else 0
  measured : 0 < w.trial.sample.kbps
  /-- A speed that was known is beaten by a fifth and by 256 kbit/s. -/
  gain : let old := (ServerChoice.measuredSpeed (w.before.state U c.server) c.net w.trial.stamp).toInt
    0 < old → old * 120 / 100 ≤ w.trial.sample.kbps.toInt ∧ old + 256 ≤ w.trial.sample.kbps.toInt

/-- A write with `mask` the one the tuning left in use. -/
structure Sound (mask : String) (w : Write) : Prop where
  faster : w.applied = true → (w.before.state U c.server).maskFor c.net = mask ∧ Faster U c w
  /-- A trial that is not applied changes nothing. -/
  kept : w.applied = false → w.after.state U c.server = w.before.state U c.server
  /-- A mask somebody else put in use stays. -/
  foreign : (w.before.state U c.server).maskFor c.net ≠ mask →
    w.applied = false ∧ w.after.state U c.server = w.before.state U c.server
  /-- No other result is touched, and nothing but results. -/
  others : ∀ id, id ≠ c.server.id U → w.after.states.get? id = w.before.states.get? id
  frame : { w.after with states := w.before.states } = w.before

end

/-! ## One write

One attempt of an update is a function of the state it read. It applies only over the mask that
it expects, so what others have done since is not undone. -/

section
variable {U : Jvm} {c : Call}

/-- A fifth more does not overflow: a speed is an `Int`. -/
theorem toInt_fifth {old : Int32} (h : 0 < old.toInt) :
    (old.toInt64 * 120 / 100).toInt = old.toInt * 120 / 100 := by
  have hlt : old.toInt < 2 ^ 31 := Int32.toInt_lt old
  have hprod : (old.toInt64 * 120).toInt = old.toInt * 120 := by
    rw [Int64.toInt_mul, Int32.toInt_toInt64]
    show (old.toInt * 120).bmod (2 ^ 64) = old.toInt * 120
    apply Int.bmod_eq_of_le
    · omega
    · omega
  rw [Int64.toInt_div_of_ne_right _ _ (by decide), hprod]
  show (old.toInt * 120).tdiv 100 = old.toInt * 120 / 100
  exact Int.tdiv_eq_ediv_of_nonneg (by omega)

/-- Nor does the difference of two speeds. -/
theorem toInt_gain (new old : Int32) :
    (new.toInt64 - old.toInt64).toInt = new.toInt - old.toInt := by
  have hnew := Int32.le_toInt new
  have hold := Int32.le_toInt old
  have hnew' := Int32.toInt_lt new
  have hold' := Int32.toInt_lt old
  rw [Int64.toInt_sub, Int32.toInt_toInt64, Int32.toInt_toInt64]
  apply Int.bmod_eq_of_le
  · omega
  · omega

/-- What a sample has that may replace the mask. -/
theorem improved_gain {s : ServerState} {net : String} {now : Int64} {p : Probe}
    (h : improved s net now p = true) :
    0 < p.kbps ∧
      (let old := (ServerChoice.measuredSpeed s net now).toInt
       0 < old → old * 120 / 100 ≤ p.kbps.toInt ∧ old + 256 ≤ p.kbps.toInt) := by
  unfold improved at h
  simp only [Bool.and_eq_true, Bool.or_eq_true, decide_eq_true_eq] at h
  obtain ⟨⟨-, hpos⟩, hgain⟩ := h
  refine ⟨hpos, fun hold => ?_⟩
  rcases hgain with hnone | ⟨hfifth, hmore⟩
  · exact absurd (Int32.le_iff_toInt_le.mp hnone) (by show ¬ _ ≤ (0 : ℤ); omega)
  · rw [Int64.le_iff_toInt_le, toInt_fifth hold, Int32.toInt_toInt64] at hfifth
    rw [Int64.le_iff_toInt_le, toInt_gain] at hmore
    have h256 : (256 : Int64).toInt = 256 := by decide
    omega

theorem maskFor_apply (s : ServerState) (net mask : String) (now : Int64) (p : Probe) :
    (AutoRoutePolicy.apply s net mask now p).maskFor net = mask := by
  unfold ServerState.maskFor AutoRoutePolicy.apply
  rw [OrderedMap.get?_put, if_pos rfl]
  rfl

/-- The new speed is known by its network, mask and time. -/
theorem measuredSpeed_apply (s : ServerState) (net mask : String) (now : Int64) {p : Probe} (hp : 0 < p.kbps) :
    ServerChoice.measuredSpeed (AutoRoutePolicy.apply s net mask now p) net now = if 0 < now then p.kbps else 0 := by
  have hage : now - now ≤ (30 * 60000 : Int64) := by
    rw [Int64.sub_self]
    decide
  unfold ServerChoice.measuredSpeed
  rw [maskFor_apply]
  exact if_congr ⟨fun h => h.2.2.2.1, fun h => ⟨hp, rfl, rfl, h, Int64.le_refl now, hage⟩⟩ rfl rfl

/-- A mask is applied only over the one that was expected, and only for a better sample. -/
theorem change_of_applied {expected : String} {t : Trial} {s : ServerState}
    (h : (change c expected t s).1 = true) :
    s.maskFor c.net = expected ∧ improved s c.net t.stamp t.sample = true ∧
      (change c expected t s).2 = AutoRoutePolicy.apply s c.net t.id t.stamp t.sample := by
  unfold change at h ⊢
  split at h
  · rename_i hguard
    rw [if_pos hguard]
    rw [Bool.and_eq_true, decide_eq_true_eq] at hguard
    exact ⟨hguard.1, hguard.2, rfl⟩
  · cases h

theorem change_of_not_applied {expected : String} {t : Trial} {s : ServerState}
    (h : (change c expected t s).1 = false) : (change c expected t s).2 = s := by
  unfold change at h ⊢
  split at h
  · cases h
  · rename_i hguard
    rw [if_neg hguard]

/-- A write changes the state of its own server. -/
theorem state_write (expected : String) (t : Trial) (prev : AppState) :
    (write U c expected t prev).after.state U c.server = (change c expected t (prev.state U c.server)).2 := by
  show ((prev.states.put (c.server.id U) _).get? (c.server.id U)).getD {} = _
  rw [OrderedMap.get?_put, if_pos rfl]
  rfl

/-- **One write is sound for the mask it expects.** -/
theorem sound_write (expected : String) (t : Trial) (prev : AppState) :
    Sound U c expected (write U c expected t prev) := by
  have hkept : (write U c expected t prev).applied = false →
      (write U c expected t prev).after.state U c.server = prev.state U c.server := by
    intro h
    rw [state_write]
    exact change_of_not_applied h
  -- the three things that are promised of a write
  constructor
  case faster =>
    intro h
    obtain ⟨hmask, himproved, hvalue⟩ := change_of_applied h
    obtain ⟨hpos, hgain⟩ := improved_gain himproved
    refine ⟨hmask, ?_, ?_, hpos, hgain⟩
    · rw [state_write, hvalue]
      exact maskFor_apply _ _ _ _ _
    · rw [state_write, hvalue]
      exact measuredSpeed_apply _ _ _ _ hpos
  case kept => exact hkept
  case foreign =>
    intro hforeign
    -- over a mask that somebody else has put nothing is written
    have hnot : (write U c expected t prev).applied = false := by
      apply Bool.eq_false_iff.mpr
      intro h
      exact hforeign (change_of_applied h).1
    exact ⟨hnot, hkept hnot⟩
  case others =>
    intro id hid
    show (prev.states.put (c.server.id U) _).get? id = _
    rw [OrderedMap.get?_put, if_neg (Ne.symm hid)]
    rfl
  case frame => rfl

/-! ## A run

The invariant carries the writes so far and the mask that the tuning has left in use. Whatever
others do between two steps, the next write is compared with what it finds. -/

/-- The writes so far are sound, each for the mask the ones before it left, and the next is
compared with the mask they all left. -/
structure Inv (U : Jvm) (c : Call) (original : String) (s : State) : Prop where
  sound : ∀ pre w post, s.writes = pre ++ w :: post → Sound U c (lastMask original pre) w
  expected : s.expected = lastMask original s.writes

/-- What a step does to the store and the writes. -/
inductive Effect (U : Jvm) (c : Call) (s : State) (s' : State) : Event → Prop where
  /-- A step of the call that writes nothing. -/
  | quiet (e : Event) (store : s'.st = s.st) (writes : s'.writes = s.writes)
      (expected : s'.expected = s.expected) : Effect U c s s' e
  | other (st : AppState) (store : s'.st = st) (writes : s'.writes = s.writes)
      (expected : s'.expected = s.expected) : Effect U c s s' (.other st)
  | swap (t : Trial) (store : s'.st = (write U c s.expected t s.st).after)
      (writes : s'.writes = s.writes ++ [write U c s.expected t s.st])
      (expected : s'.expected = if (write U c s.expected t s.st).applied then t.id else s.expected) :
      Effect U c s s' .swap

theorem effect_step {s s' : State} {e : Event} (h : step U c s e = some s') : Effect U c s s' e := by
  obtain ⟨st, phase, left, expected, writes⟩ := s
  unfold step at h
  split at h
  case h_1 => cases h; exact .other _ rfl rfl rfl
  case h_2 => cases h; exact .quiet _ rfl rfl rfl
  case h_3 => cases h; exact .quiet _ rfl rfl rfl
  case h_4 =>
    split at h
    · cases h
    · cases h; exact .quiet _ rfl rfl rfl
  case h_5 =>
    split at h
    · cases h
    · cases h; exact .quiet _ rfl rfl rfl
  case h_6 => cases h; exact .quiet _ rfl rfl rfl
  case h_7 => cases h; exact .quiet _ rfl rfl rfl
  case h_8 t prev _ =>
    split at h
    · rename_i hsame
      subst hsame
      cases h
      exact .swap t rfl rfl rfl
    · cases h
  case h_9 => cases h

/-- The last mask is the last that was applied. -/
theorem lastMask_append (original : String) (ws : List Write) (w : Write) :
    lastMask original (ws ++ [w]) = if w.applied then w.trial.id else lastMask original ws := by
  unfold lastMask
  rw [List.foldl_append]
  rfl

theorem inv_step {original : String} {s s' : State} {e : Event} (hs : Inv U c original s)
    (h : step U c s e = some s') : Inv U c original s' := by
  cases effect_step h with
  | quiet _ _ hwrites hexpected => exact ⟨hwrites ▸ hs.sound, hexpected.trans (hwrites ▸ hs.expected)⟩
  | other _ _ hwrites hexpected => exact ⟨hwrites ▸ hs.sound, hexpected.trans (hwrites ▸ hs.expected)⟩
  | swap t _ hwrites hexpected =>
    constructor
    case sound =>
      intro pre w post hsplit
      rw [hwrites] at hsplit
      -- the new write is the last one, and expects what the others left
      rcases List.append_eq_append_iff.mp hsplit with ⟨mid, hpre, hmid⟩ | ⟨mid, hpost, hmid⟩
      · rcases mid with _ | ⟨x, mid⟩
        · rw [List.append_nil] at hpre
          obtain ⟨rfl, -⟩ := List.cons.inj hmid
          rw [hpre, ← hs.expected]
          exact sound_write _ _ _
        · have hlen := congrArg List.length hmid
          simp at hlen
      · rcases mid with _ | ⟨x, mid⟩
        · rw [List.append_nil] at hpost
          obtain ⟨rfl, -⟩ := List.cons.inj hmid
          rw [← hpost, ← hs.expected]
          exact sound_write _ _ _
        · obtain ⟨rfl, -⟩ := List.cons.inj hmid
          exact hs.sound pre w mid hpost
    case expected =>
      rw [hwrites, lastMask_append, hexpected, hs.expected]
      rfl

theorem inv_run {original : String} (es : List Event) : ∀ {s s' : State}, Inv U c original s →
    run U c s es = some s' → Inv U c original s' := by
  induction es with
  | nil =>
    intro s s' hs h
    cases h
    exact hs
  | cons e es ih =>
    intro s s' hs h
    unfold run at h
    rw [List.foldlM_cons] at h
    obtain ⟨mid, hmid, hrest⟩ := Option.bind_eq_some_iff.mp h
    exact ih (inv_step hs hmid) hrest

/-- **The mask only moves to a faster one.** -/
theorem only_faster (own cloud : List NamedMask) (st : AppState) {es : List Event} {s : State}
    (h : run U c (start U c own cloud st) es = some s) :
    (∀ pre w post, s.writes = pre ++ w :: post →
      Sound U c (lastMask ((st.state U c.server).maskFor c.net) pre) w) ∧
    ∀ e s', step U c s e = some s' → Effect U c s s' e := by
  have hstart : Inv U c ((st.state U c.server).maskFor c.net) (start U c own cloud st) :=
    ⟨fun pre w post hnil => absurd hnil (List.append_ne_nil_of_right_ne_nil pre (List.cons_ne_nil w post)).symm, rfl⟩
  exact ⟨(inv_run es hstart h).sound, fun e s' => effect_step⟩

end

/-- A sample of 9000 kbit/s. -/
def sampleProbe : Probe := ⟨100, some true, none, "", none, 9000, 0⟩

/-- A server that uses a cut measured at 1000 kbit/s. -/
def tunedState : AppState :=
  { states := OrderedMap.empty.put (sampleServer.id Jvm.ascii)
      { maskId := "chrome.h4", kbps := 1000, speedNetwork := "wifi", speedMask := "chrome.h4", speedCheckedAt := 1000 } }

/-- Without a mask the server is nine times as fast. -/
theorem only_faster_native : ∃ s w,
    run Jvm.ascii ⟨sampleServer, "wifi"⟩ (start Jvm.ascii ⟨sampleServer, "wifi"⟩ [] [] tunedState)
      [.sampled sampleProbe 2000, .read, .swap] = some s ∧
    s.writes = [w] ∧ w.applied = true ∧ Sound Jvm.ascii ⟨sampleServer, "wifi"⟩ "chrome.h4" w := by
  have hwrites : ((run Jvm.ascii ⟨sampleServer, "wifi"⟩ (start Jvm.ascii ⟨sampleServer, "wifi"⟩ [] [] tunedState)
      [.sampled sampleProbe 2000, .read, .swap]).map fun s => s.writes.map fun w => w.applied) = some [true] := by
    decide +kernel
  obtain ⟨s, hs, hone⟩ := Option.map_eq_some_iff.mp hwrites
  obtain ⟨w, hw, happlied⟩ := List.map_eq_singleton_iff.mp hone
  have hmask : (tunedState.state Jvm.ascii sampleServer).maskFor "wifi" = "chrome.h4" := by decide +kernel
  have hsound := (only_faster [] [] tunedState hs).1 [] w [] hw
  exact ⟨s, w, hs, hw, happlied, hmask ▸ hsound⟩

/-- At the time zero a sample is applied and its speed is not known. -/
theorem sample_without_time : ¬ ∀ (U : Jvm) (c : Call) (own cloud : List NamedMask) (st : AppState)
    (es : List Event) (s : State), run U c (start U c own cloud st) es = some s →
    ∀ w ∈ s.writes, w.applied = true →
      ServerChoice.measuredSpeed (w.after.state U c.server) c.net w.trial.stamp = w.trial.sample.kbps := by
  intro h
  have hwrites : ((run Jvm.ascii ⟨sampleServer, "wifi"⟩ (start Jvm.ascii ⟨sampleServer, "wifi"⟩ [] [] tunedState)
      [.sampled sampleProbe 0, .read, .swap]).map fun s => s.writes.map fun w => (w.applied,
        ServerChoice.measuredSpeed (w.after.state Jvm.ascii sampleServer) "wifi" w.trial.stamp,
        w.trial.sample.kbps)) = some [(true, 0, 9000)] := by
    decide +kernel
  obtain ⟨s, hs, hone⟩ := Option.map_eq_some_iff.mp hwrites
  obtain ⟨w, hw, hvalues⟩ := List.map_eq_singleton_iff.mp hone
  simp only [Prod.mk.injEq] at hvalues
  obtain ⟨happlied, hspeed, hkbps⟩ := hvalues
  have hsame := h Jvm.ascii ⟨sampleServer, "wifi"⟩ [] [] tunedState _ s hs w (hw ▸ List.mem_singleton_self w) happlied
  rw [hkbps] at hsame
  exact absurd (hspeed.symm.trans hsame) (by decide)

end MaskTuning

end VlessCard
