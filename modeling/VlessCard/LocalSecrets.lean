/-
`LocalSecrets.kt`: the state moves from a plain file to an encrypted one.

The files of one phone are a store, the steps of `readOrMigrateState` change one file
each, and a crash or an exception may cut a call short after any of them
(`VlessCard.Crash`). Two conditions carry the proof. Either the encrypted file opens to
the text, and stays so whatever happens to the old files; or there is no encrypted file
and the old copy is what it was, and only a call that has written and read back the
encrypted file leaves this condition.

`AtomicFile` is modelled as it was before Android 11, which deletes a base file and then
renames its backup over it; the later one does both in one step.
-/
import VlessCard.Crash
import VlessCard.UrlCodec

set_option autoImplicit false

namespace VlessCard

open Crash Crash.Steps

abbrev Bytes := List UInt8

/-- The files that take part. -/
inductive FileName where
  | state
  | stateBak
  | legacy
  | legacyBak
  | legacyTmp
  deriving DecidableEq

/-- The files there are, with their contents. -/
abbrev Disk := FileName → Option Bytes

inductive Failure where
  | illegalArgument (message : String)
  | illegalState (message : String)
  | notFound
  | badTag
  | invalid (message : String)
  deriving DecidableEq

/-- `require`. -/
def require (p : Prop) [Decidable p] (message : String) : Except Failure Unit :=
  if p then .ok () else .error (.illegalArgument message)

/-! ## Atomic files

Android's `AtomicFile` keeps a backup while a new version is written, and a reader that finds one
puts it back first. The write itself is taken as one step, since the platform promises that it is
all or nothing. -/

structure AtomicFile where
  base : FileName
  backup : FileName

namespace AtomicFile

/-- What a reader finds: a backup counts before the file. -/
def current (f : AtomicFile) (d : Disk) : Option Bytes := (d f.backup).or (d f.base)

def restore (f : AtomicFile) : Steps Disk Failure Unit := do
  if ← look fun d => (d f.backup).isSome then
    act fun d => Function.update d f.base none
    act fun d => Function.update (Function.update d f.base (d f.backup)) f.backup none
  else return ()

def openRead (f : AtomicFile) : Steps Disk Failure Bytes := do
  f.restore
  let content ← look fun d => d f.base
  of (content.elim (.error .notFound) .ok)

/-- `startWrite`, `write` and `finishWrite`, which are all or nothing. -/
def write (f : AtomicFile) (data : Bytes) : Steps Disk Failure Unit :=
  act fun d => Function.update (Function.update d f.base (some data)) f.backup none

def delete (f : AtomicFile) : Steps Disk Failure Unit := do
  act fun d => Function.update d f.base none
  act fun d => Function.update d f.backup none

end AtomicFile

/-! ## Reading with a bound

Input is read piece by piece with a limit, so that a large file is refused before it fills the
memory. -/

/-- `BoundedInput.read`; `out` is what was read before. -/
def BoundedInput.read (input : Bytes) (max : ℕ) (out : Bytes) : Except Failure Bytes :=
  if _hne : input = [] then .ok out
  else if (input.take 8192).length ≤ max - out.length then
    read (input.drop 8192) max (out ++ input.take 8192)
  else .error (.illegalArgument "Данные превышают допустимый размер")
termination_by input.length
decreasing_by
  have := List.length_pos_of_ne_nil _hne
  rw [List.length_drop]
  omega

/-! ## The envelope

The cipher is a parameter: what was sealed under a key opens to the same text. Of the envelope
only the header and the place of its parts are written out. -/

/-- `AES/GCM/NoPadding` with a tag of 128 bits. -/
structure Gcm (Key : Type) where
  encrypt : Key → (iv aad text : Bytes) → Bytes
  decrypt : Key → (iv aad bytes : Bytes) → Option Bytes
  length_encrypt : ∀ key iv aad text, (encrypt key iv aad text).length = text.length + 16
  decrypt_encrypt : ∀ key iv aad text, decrypt key iv aad (encrypt key iv aad text) = some text

/-- `String.toByteArray(UTF_8)`. -/
def utf8 (s : String) : Bytes := Utf8.encode s.toList

variable (J : Jvm) {Key : Type} (C : Gcm Key) (key : Key)

/-- `String(bytes, UTF_8)`. -/
def textOf (bytes : Bytes) : String := .ofList (UrlCodec.textOf J bytes)

namespace SecretEnvelope

def header : Bytes := [86, 67, 83, 1]

def seal_ (iv : Bytes) (purpose text : String) : Except Failure Bytes := do
  require (iv.length = 12) "Failed requirement."
  return header ++ iv ++ C.encrypt key iv (header ++ utf8 purpose) (utf8 text)

def open_ (purpose : String) (bytes : Bytes) : Except Failure String := do
  require (32 ≤ bytes.length ∧ bytes.take 4 = header) "Неверный формат защищённых данных"
  ((C.decrypt key ((bytes.drop 4).take 12) (header ++ utf8 purpose) (bytes.drop 16)).map (textOf J)).elim
    (.error .badTag) .ok

end SecretEnvelope

/-! ## The state

A call reads the encrypted file if there is one, and else the old files, which it then encrypts.
It deletes an old file only after it has read back what it wrote. -/

namespace LocalSecrets

def LIMIT : ℕ := 32 * 1024 * 1024

def stateFile : AtomicFile := ⟨.state, .stateBak⟩

def legacyFile : AtomicFile := ⟨.legacy, .legacyBak⟩

def hasState (d : Disk) : Bool := (d .state).isSome || (d .stateBak).isSome

/-- What the bytes of the encrypted file open to. -/
def openState (content : Bytes) : Except Failure String := do
  let bytes ← BoundedInput.read content LIMIT []
  SecretEnvelope.open_ J C key "state" bytes

def readState : Steps Disk Failure (Option String) := do
  if ← look hasState then
    let content ← stateFile.openRead
    let text ← of (openState J C key content)
    return some text
  else return none

def writeState (iv : Bytes) (text : String) : Steps Disk Failure Unit := do
  of (require ((utf8 text).length ≤ LIMIT - 32) "Сохранение слишком большое")
  let data ← of (SecretEnvelope.seal_ C key iv "state" text)
  stateFile.write data

/-- What the bytes of an old file read as. -/
def legacyText (content : Bytes) : Except Failure String := do
  let bytes ← BoundedInput.read content LIMIT []
  return textOf J bytes

def readTmp : Steps Disk Failure (Option String) := do
  let content ← look fun d => d .legacyTmp
  of (content.elim (.ok none) fun content => (legacyText J content).map some)

def readLegacy : Steps Disk Failure (Option String) := do
  if ← look fun d => (d .legacy).isSome || (d .legacyBak).isSome then
    let content ← legacyFile.openRead
    of ((legacyText J content).map some)
  else readTmp J

/-- The encrypted replacement is written and read back. -/
def migrate (iv : Bytes) (text : String) : Steps Disk Failure Unit := do
  writeState C key iv text
  let back ← readState J C key
  of (if back = some text then .ok () else .error (.illegalState "Check failed."))

def deleteLegacy : Steps Disk Failure Unit := do
  legacyFile.delete
  act fun d => Function.update d .legacyTmp none

variable (validate : String → Except Failure Unit)

/-- What follows once there is a text; `encrypted` is what the encrypted file gave. -/
def adopt (iv : Bytes) (encrypted : Option String) (text : String) :
    Steps Disk Failure (Option String) := do
  of (validate text)
  if encrypted = none then migrate J C key iv text else pure ()
  deleteLegacy
  return some text

/-- `readOrMigrateState`; `iv` is what the cipher draws should it encrypt. -/
def readOrMigrateState (iv : Bytes) : Steps Disk Failure (Option String) := do
  let encrypted ← readState J C key
  let text ← encrypted.elim (readLegacy J) fun text => return some text
  text.elim (return none) (adopt J C key validate iv encrypted)

/-! ## The copies of a text

What matters of a disk is which copy of the text a call would return. The guard says when a step
may touch an old file: only if the encrypted one opens to the text by then. -/

/-- The encrypted file opens to the text. -/
def Opens (text : String) (d : Disk) : Prop :=
  ∃ content, stateFile.current d = some content ∧ openState J C key content = .ok text

/-- The copy among the old files that a call without an encrypted file reads. -/
def legacyCopy (d : Disk) : Option Bytes := (legacyFile.current d).or (d .legacyTmp)

/-- The copy that a call would return. -/
def copyOf (d : Disk) : Option String :=
  if hasState d then (stateFile.current d).bind fun content => (openState J C key content).toOption
  else (legacyCopy d).bind fun content => (legacyText J content).toOption

/-- There is no encrypted file, and the copy among the old files is `content`. -/
def Unmigrated (content : Bytes) (d : Disk) : Prop :=
  hasState d = false ∧ legacyCopy d = some content

/-- A backup takes the place of its base. -/
def Restores (f : AtomicFile) (d e : Disk) : Prop :=
  ∃ content, d f.backup = some content ∧
    (e = Function.update d f.base none ∨
      e = Function.update (Function.update d f.base (some content)) f.backup none)

def isLegacy (n : FileName) : Prop := n = .legacy ∨ n = .legacyBak ∨ n = .legacyTmp

/-- A step touches an old file only when the encrypted file opens to the text, or to put the
backup of the old file in its place. -/
def Guarded (text : String) (d e : Disk) : Prop :=
  (∀ n, isLegacy n → e n = d n) ∨ Opens J C key text d ∨ Restores legacyFile d e

/-! ## What the parts do

What each function returns when it is not cut short. These are the equations from which the
guarantees below are built. -/

/-- Reading goes on up to the limit, and fails beyond it. -/
theorem BoundedInput.read_eq (max : ℕ) (input out : Bytes) (h : out.length ≤ max) :
    BoundedInput.read input max out =
      if out.length + input.length ≤ max then .ok (out ++ input)
      else .error (.illegalArgument "Данные превышают допустимый размер") := by
  induction hn : input.length using Nat.strong_induction_on generalizing input out with
  | _ n ih =>
    rw [BoundedInput.read]
    by_cases hnil : input = []
    · rw [dif_pos hnil]
      rw [hnil] at hn ⊢
      rw [← hn, List.length_nil, Nat.add_zero, if_pos h, List.append_nil]
    · have hpos := List.length_pos_of_ne_nil hnil
      have hsplit : (input.take 8192).length + (input.drop 8192).length = input.length := by
        rw [← List.length_append, List.take_append_drop]
      have hdrop : (input.drop 8192).length = input.length - 8192 := List.length_drop
      rw [dif_neg hnil]
      by_cases hroom : (input.take 8192).length ≤ max - out.length
      · have hout : (out ++ input.take 8192).length ≤ max := by
          rw [List.length_append]
          omega
        rw [if_pos hroom, ih _ (by omega) _ _ hout rfl, List.length_append, List.append_assoc,
          List.take_append_drop, Nat.add_assoc, hsplit, hn]
      · rw [if_neg hroom, if_neg (by omega)]

/-- A file within the limit is read as a whole. -/
theorem read_eq (content : Bytes) : BoundedInput.read content LIMIT [] =
    if content.length ≤ LIMIT then .ok content
    else .error (.illegalArgument "Данные превышают допустимый размер") := by
  rw [BoundedInput.read_eq LIMIT content [] (Nat.zero_le _), List.length_nil, Nat.zero_add,
    List.nil_append]

variable {J} {C} {key} {validate}

theorem textOf_utf8 (text : String) : textOf J (utf8 text) = text := by
  rw [textOf, UrlCodec.textOf, utf8, Utf8.decode_encode, Option.getD_some, String.ofList_toList]

/-- The parts of an envelope are found where they were put. -/
theorem envelope_parts {iv : Bytes} (hiv : iv.length = 12) (body : Bytes) :
    (SecretEnvelope.header ++ iv ++ body).take 4 = SecretEnvelope.header ∧
      ((SecretEnvelope.header ++ iv ++ body).drop 4).take 12 = iv ∧
      (SecretEnvelope.header ++ iv ++ body).drop 16 = body ∧
      (SecretEnvelope.header ++ iv ++ body).length = body.length + 16 := by
  have hheader : SecretEnvelope.header.length = 4 := rfl
  have hfront : (SecretEnvelope.header ++ iv).length = 16 := by
    rw [List.length_append, hiv, hheader]
  refine ⟨?_, ?_, ?_, ?_⟩
  · rw [List.append_assoc, ← hheader, List.take_left]
  · rw [List.append_assoc, ← hheader, List.drop_left, ← hiv, List.take_left]
  · rw [← hfront, List.drop_left]
  · rw [List.length_append, hfront, Nat.add_comm]

/-- What is sealed opens to the same text. -/
theorem open_seal {iv : Bytes} (hiv : iv.length = 12) (purpose text : String) :
    ∃ data, SecretEnvelope.seal_ C key iv purpose text = .ok data ∧
      data.length = (utf8 text).length + 32 ∧
      SecretEnvelope.open_ J C key purpose data = .ok text := by
  have hbody := C.length_encrypt key iv (SecretEnvelope.header ++ utf8 purpose) (utf8 text)
  obtain ⟨hhead, hmiddle, hrest, hlength⟩ :=
    envelope_parts hiv (C.encrypt key iv (SecretEnvelope.header ++ utf8 purpose) (utf8 text))
  refine ⟨_, ?_, hlength.trans (by rw [hbody]), ?_⟩
  · rw [SecretEnvelope.seal_, require, if_pos hiv]
    rfl
  · rw [SecretEnvelope.open_, require, if_pos ⟨by rw [hlength, hbody]; omega, hhead⟩, hmiddle, hrest,
      C.decrypt_encrypt, Option.map_some, textOf_utf8]
    rfl

/-- There is a state when its file can be read. -/
theorem hasState_eq (d : Disk) : hasState d = (stateFile.current d).isSome := by
  rw [hasState, AtomicFile.current]
  show ((d .state).isSome || (d .stateBak).isSome) = ((d .stateBak).or (d .state)).isSome
  rw [Option.isSome_or, Bool.or_comm]

/-! ## A backup in the place of its base

Putting a backup in the place of its base happens in two steps, and between them the base is
missing. A reader finds the same text before, between and behind them. -/

/-- Restoring a backup changes nothing that can be read. -/
theorem Restores.current {f : AtomicFile} (hf : f.base ≠ f.backup) {d e : Disk} (h : Restores f d e) :
    f.current e = f.current d := by
  obtain ⟨content, hbackup, rfl | rfl⟩ := h
  · rw [AtomicFile.current, AtomicFile.current, Function.update_of_ne hf.symm, hbackup]
    rfl
  · rw [AtomicFile.current, AtomicFile.current, Function.update_self, Function.update_of_ne hf,
      Function.update_self, hbackup]
    rfl

theorem Restores.elsewhere {f : AtomicFile} {d e : Disk} (h : Restores f d e) {n : FileName}
    (hbase : n ≠ f.base) (hbackup : n ≠ f.backup) : e n = d n := by
  obtain ⟨content, -, rfl | rfl⟩ := h
  · exact Function.update_of_ne hbase _ _
  · rw [Function.update_of_ne hbackup, Function.update_of_ne hbase]

/-- A file is opened at what a reader finds there. All that happens on the way is that a
backup takes the place of its base, so what that keeps holds at the end. -/
theorem holds_openRead {f : AtomicFile} (hf : f.base ≠ f.backup) {G : Disk → Disk → Prop}
    {P : Disk → Prop} {content : Bytes} (hP : ∀ d e, P d → Restores f d e → P e ∧ G d e)
    (hcur : ∀ d, P d → f.current d = some content) :
    Holds G P f.openRead fun r d => r = .ok content ∧ P d := by
  -- once it is restored the base is what a reader finds
  have hrestore : Holds G P f.restore fun r d => ∃ u, r = .ok u ∧ P d ∧ d f.base = some content := by
    refine holds_look_bind fun b => ?_
    cases b with
    | true =>
      have hdelete (d : Disk) (h : (d f.backup).isSome = true) :
          Restores f d (Function.update d f.base none) := by
        obtain ⟨c, hc⟩ := Option.isSome_iff_exists.mp h
        exact ⟨c, hc, .inl rfl⟩
      have hrename (d : Disk) (h : (d f.backup).isSome = true) :
          Restores f d (Function.update (Function.update d f.base (d f.backup)) f.backup none) := by
        obtain ⟨c, hc⟩ := Option.isSome_iff_exists.mp h
        exact ⟨c, hc, .inr (by rw [hc])⟩
      refine holds_act_bind (R := fun d => (d f.backup).isSome = true ∧ P d) (fun d h => ?_) ?_
      · obtain ⟨hkept, hstep⟩ := hP _ _ h.2 (hdelete d h.1)
        refine ⟨⟨?_, hkept⟩, hstep⟩
        rw [Function.update_of_ne hf.symm]
        exact h.1
      · refine holds_act _ (fun d h => (hP _ _ h.2 (hrename d h.1)).2) fun d h => ?_
        have hkept := (hP _ _ h.2 (hrename d h.1)).1
        refine ⟨(), rfl, hkept, ?_⟩
        rw [← hcur _ hkept, AtomicFile.current, Function.update_self, Option.none_or]
    | false =>
      refine holds_pure () fun d h => ⟨(), rfl, h.2, ?_⟩
      have hnone : d f.backup = none := Option.not_isSome_iff_eq_none.mp (Bool.eq_false_iff.mp h.1)
      rw [← hcur d h.2, AtomicFile.current, hnone, Option.none_or]
  refine holds_bind_ok hrestore fun _ => holds_look_bind fun found => ?_
  refine holds_of _ fun d h => ⟨?_, h.2.1⟩
  rw [← h.1, h.2.2]
  rfl

/-! ## What each operation guarantees

The guarantees are Hoare triples in which every step has to keep the guard. They are put together
by the rule of composition, following the text of the functions. -/

/-- A step is guarded, and leads to a disk with `I`. -/
def Kept (J : Jvm) (C : Gcm Key) (key : Key) (I : Disk → Prop) (text : String) (d e : Disk) : Prop :=
  I e ∧ Guarded J C key text d e

variable {I : Disk → Prop} {text : String}

theorem Opens.hasState {d : Disk} (h : Opens J C key text d) : hasState d = true := by
  obtain ⟨content, hcurrent, -⟩ := h
  rw [hasState_eq, hcurrent]
  rfl

/-- The encrypted file is opened, whichever of its two files has it. -/
theorem holds_readState (hI : ∀ d, Opens J C key text d → I d) :
    Holds (Kept J C key I text) (Opens J C key text) (readState J C key)
      fun r d => ∃ t, r = .ok t ∧ t = some text ∧ Opens J C key text d := by
  refine holds_look_bind fun b => ?_
  cases b with
  | false => exact fun d h => absurd (h.1.symm.trans h.2.hasState) (by decide)
  | true =>
    refine Holds.pre (P := fun d => ∃ content, stateFile.current d = some content ∧
      openState J C key content = .ok text) (holds_exists fun content => ?_) fun d h => h.2
    refine holds_bind_ok (R := fun found d => found = content ∧ Opens J C key text d ∧
      openState J C key content = .ok text) ?_ fun found => ?_
    · refine (holds_openRead (P := fun d => stateFile.current d = some content ∧
        openState J C key content = .ok text) (by decide) (fun d e hd h => ?_) fun d h => h.1).post
        fun r d h => ⟨content, h.1, rfl, ⟨content, h.2⟩, h.2.2⟩
      have hkept : stateFile.current e = some content := (h.current (by decide)).trans hd.1
      refine ⟨⟨hkept, hd.2⟩, hI e ⟨content, hkept, hd.2⟩, .inl fun n hn => ?_⟩
      rcases hn with rfl | rfl | rfl <;> exact h.elsewhere (by decide) (by decide)
    · refine holds_bind_ok (R := fun t d => t = text ∧ Opens J C key text d) ?_ fun t => ?_
      · refine holds_of _ fun d h => ⟨text, ?_, rfl, h.2.1⟩
        rw [h.1, h.2.2]
      · exact holds_pure _ fun d h => ⟨_, rfl, by rw [h.1], h.2⟩

theorem holds_readState_none {G : Disk → Disk → Prop} {P : Disk → Prop} (hP : ∀ d, P d → hasState d = false) :
    Holds G P (readState J C key) fun r d => ∃ t, r = .ok t ∧ t = none ∧ P d := by
  refine holds_look_bind fun b => ?_
  cases b with
  | true => exact fun d h => absurd (h.1.symm.trans (hP d h.2)) (by decide)
  | false => exact holds_pure _ fun d h => ⟨_, rfl, rfl, h.2⟩

/-- The old state stays the old state when its backup is restored. -/
theorem Unmigrated.restore {content : Bytes} {d e : Disk} (hd : Unmigrated content d)
    (h : Restores legacyFile d e) : Unmigrated content e := by
  have hstate : stateFile.current e = stateFile.current d := by
    rw [AtomicFile.current, AtomicFile.current]
    congr 1
    · exact h.elsewhere (by decide) (by decide)
    · exact h.elsewhere (by decide) (by decide)
  refine ⟨?_, ?_⟩
  · rw [hasState_eq, hstate, ← hasState_eq]
    exact hd.1
  · rw [legacyCopy, h.current (by decide), h.elsewhere (by decide) (by decide)]
    exact hd.2

/-- The old copy is read, and nothing is done but to put a backup in its place. -/
theorem holds_readLegacy {content : Bytes} (hI : ∀ d, Unmigrated content d → I d)
    (hread : legacyText J content = .ok text) :
    Holds (Kept J C key I text) (Unmigrated content) (readLegacy J)
      fun r d => ∃ t, r = .ok t ∧ t = some text ∧ Unmigrated content d := by
  refine holds_look_bind fun b => ?_
  cases b with
  | true =>
    -- one of the two old files is there, so the state is read from it
    have hsome (d : Disk) (h : ((d .legacy).isSome || (d .legacyBak).isSome) = true) :
        (legacyFile.current d).isSome = true := by
      rw [AtomicFile.current, Option.isSome_or, Bool.or_comm]
      exact h
    refine holds_bind_ok (R := fun found d => found = content ∧ Unmigrated content d) ?_ fun found => ?_
    -- opening may restore the backup, which changes nothing that can be read
    · refine (holds_openRead (P := fun d => legacyFile.current d = some content ∧ Unmigrated content d)
        (by decide) (fun d e hd h => ?_) fun d h => h.1).pre (fun d h => ?_) |>.post
        fun r d h => ⟨content, h.1, rfl, h.2.2⟩
      · have hkept := hd.2.restore h
        exact ⟨⟨(h.current (by decide)).trans hd.1, hkept⟩, hI e hkept, .inr (.inr h)⟩
      · refine ⟨?_, h.2⟩
        obtain ⟨c, hc⟩ := Option.isSome_iff_exists.mp (hsome d h.1)
        have hcopy := h.2.2
        rw [legacyCopy, hc, Option.some_or] at hcopy
        rw [hc, hcopy]
    · refine holds_of _ fun d h => ⟨some text, ?_, rfl, h.2⟩
      rw [h.1, hread]
      rfl
  | false =>
    -- without either file there is nothing to be read
    refine holds_look_bind fun found => holds_of _ fun d h => ⟨some text, ?_, rfl, h.2.2⟩
    have hnone : legacyFile.current d = none := by
      rw [AtomicFile.current, ← Option.not_isSome_iff_eq_none, Option.isSome_or, Bool.or_comm, Bool.not_eq_true]
      exact h.2.1
    have hcopy := h.2.2.2
    rw [legacyCopy, hnone, Option.none_or] at hcopy
    rw [← h.1, hcopy, Option.elim_some, hread]
    rfl

theorem length_limit : LIMIT = 33554432 := rfl

/-- What is written opens to the text, in the place of nothing. -/
theorem holds_writeState {content : Bytes} {iv : Bytes} (hiv : iv.length = 12)
    (hI : ∀ d, Opens J C key text d → I d) (hfits : (utf8 text).length ≤ LIMIT - 32) :
    Holds (Kept J C key I text) (Unmigrated content) (writeState C key iv text)
      fun r d => ∃ u, r = .ok u ∧ Opens J C key text d := by
  obtain ⟨data, hseal, hlength, hopen⟩ : ∃ data, SecretEnvelope.seal_ C key iv "state" text = .ok data ∧
      data.length = (utf8 text).length + 32 ∧ SecretEnvelope.open_ J C key "state" data = .ok text :=
    open_seal hiv "state" text
  rw [writeState, require, if_pos hfits, of_ok_bind, hseal, of_ok_bind]
  have hopens (d : Disk) : Opens J C key text
      (Function.update (Function.update d stateFile.base (some data)) stateFile.backup none) := by
    refine ⟨data, ?_, ?_⟩
    · rw [AtomicFile.current, Function.update_self, Option.none_or, Function.update_of_ne (by decide),
        Function.update_self]
    · rw [openState, read_eq, if_pos (by rw [hlength]; rw [length_limit] at *; omega)]
      exact hopen
  refine holds_act _ (fun d h => ⟨hI _ (hopens d), .inl fun n hn => ?_⟩) fun d h => ⟨(), rfl, hopens d⟩
  rcases hn with rfl | rfl | rfl <;>
    rw [Function.update_of_ne (by decide), Function.update_of_ne (by decide)]

/-- Nothing is deleted but once the encrypted file opens to the text, and it stays so. -/
theorem holds_deleteLegacy (hI : ∀ d, Opens J C key text d → I d) :
    Holds (Kept J C key I text) (Opens J C key text) deleteLegacy
      fun r d => ∃ u, r = .ok u ∧ Opens J C key text d := by
  have hkept (n : FileName) (hn : isLegacy n) (d : Disk) (h : Opens J C key text d) :
      Opens J C key text (Function.update d n none) ∧
        Kept J C key I text d (Function.update d n none) := by
    have hopens : Opens J C key text (Function.update d n none) := by
      obtain ⟨content, hcurrent, hopen⟩ := h
      refine ⟨content, ?_, hopen⟩
      rw [← hcurrent, AtomicFile.current, AtomicFile.current]
      rcases hn with rfl | rfl | rfl <;>
        rw [Function.update_of_ne (by decide), Function.update_of_ne (by decide)]
    exact ⟨hopens, hI _ hopens, .inr (.inl h)⟩
  refine holds_bind_ok (R := fun _ => Opens J C key text) ?_ fun _ => ?_
  · refine holds_act_bind (hkept .legacy (.inl rfl)) ?_
    exact holds_act _ (fun d h => (hkept .legacyBak (.inr (.inl rfl)) d h).2)
      fun d h => ⟨(), rfl, (hkept .legacyBak (.inr (.inl rfl)) d h).1⟩
  · exact holds_act _ (fun d h => (hkept .legacyTmp (.inr (.inr rfl)) d h).2)
      fun d h => ⟨(), rfl, (hkept .legacyTmp (.inr (.inr rfl)) d h).1⟩

/-- A state that opens already is kept by the migration. -/
theorem holds_adopt_open (hI : ∀ d, Opens J C key text d → I d) (hvalid : validate text = .ok ()) (iv : Bytes) :
    Holds (Kept J C key I text) (Opens J C key text) (adopt J C key validate iv (some text) text)
      fun r d => r = .ok (some text) ∧ Opens J C key text d := by
  rw [adopt, hvalid, of_ok_bind, if_neg (Option.some_ne_none text)]
  refine holds_bind_ok (holds_deleteLegacy hI) fun _ => ?_
  exact holds_pure _ fun d h => ⟨rfl, h⟩

/-- The disk that a call has to deal with before it encrypts. -/
theorem holds_adopt_fits {content : Bytes} {iv : Bytes} (hiv : iv.length = 12)
    (hI : ∀ d, Opens J C key text d → I d) (hvalid : validate text = .ok ())
    (hfits : (utf8 text).length ≤ LIMIT - 32) :
    Holds (Kept J C key I text) (Unmigrated content) (adopt J C key validate iv none text)
      fun r d => r = .ok (some text) ∧ Opens J C key text d := by
  have hmigrate : Holds (Kept J C key I text) (Unmigrated content) (migrate J C key iv text)
      fun r d => ∃ u, r = .ok u ∧ Opens J C key text d := by
    refine holds_bind_ok (holds_writeState hiv hI hfits) fun _ => ?_
    refine holds_bind_ok (holds_readState hI) fun back => ?_
    refine holds_of _ fun d h => ⟨(), ?_, h.2⟩
    rw [if_pos h.1]
  rw [adopt, hvalid, of_ok_bind, if_pos rfl]
  refine holds_bind_ok hmigrate fun _ => ?_
  refine holds_bind_ok (holds_deleteLegacy hI) fun _ => ?_
  exact holds_pure _ fun d h => ⟨rfl, h⟩

/-- What the call says of a text that is too large. -/
def tooLarge : Failure := .illegalArgument "Сохранение слишком большое"

/-- One that is too large is refused, and the old one kept. -/
theorem holds_adopt_large {content : Bytes} (iv : Bytes) (hvalid : validate text = .ok ())
    (hlarge : ¬ (utf8 text).length ≤ LIMIT - 32) :
    Holds (Kept J C key I text) (Unmigrated content) (adopt J C key validate iv none text)
      fun r d => r = .error tooLarge ∧ Unmigrated content d := by
  rw [adopt, hvalid, of_ok_bind, if_pos rfl, migrate, writeState, require, if_neg hlarge, of_error_bind]
  exact holds_of _ fun d h => ⟨rfl, h⟩

/-- A call on an encrypted file that opens to a text. -/
theorem holds_call_open (hI : ∀ d, Opens J C key text d → I d) (hvalid : validate text = .ok ()) (iv : Bytes) :
    Holds (Kept J C key I text) (Opens J C key text) (readOrMigrateState J C key validate iv)
      fun r d => r = .ok (some text) ∧ Opens J C key text d := by
  refine holds_bind_ok (holds_readState hI) fun encrypted => ?_
  refine holds_bind_ok (R := fun t d => t = some text ∧ encrypted = some text ∧ Opens J C key text d)
    ?_ fun t => ?_
  · refine fun d h => ?_
    rw [h.1]
    exact ⟨List.isChain_singleton d, _, rfl, rfl, rfl, h.2⟩
  · refine fun d h => ?_
    rw [h.1, h.2.1]
    exact holds_adopt_open hI hvalid iv d h.2.2

/-- A call on an old copy goes on to `adopt`. -/
theorem holds_call_unmigrated {content : Bytes} {Q : Except Failure (Option String) → Disk → Prop}
    (iv : Bytes) (hI : ∀ d, Unmigrated content d → I d) (hread : legacyText J content = .ok text)
    (hadopt : Holds (Kept J C key I text) (Unmigrated content) (adopt J C key validate iv none text) Q) :
    Holds (Kept J C key I text) (Unmigrated content) (readOrMigrateState J C key validate iv) Q := by
  refine holds_bind_ok (holds_readState_none fun d h => h.1) fun encrypted => ?_
  refine holds_bind_ok (R := fun t d => t = some text ∧ encrypted = none ∧ Unmigrated content d)
    ?_ fun t => ?_
  · refine fun d h => ?_
    rw [h.1]
    obtain ⟨hchain, t, ht, heq, hd⟩ := holds_readLegacy hI hread d h.2
    exact ⟨hchain, t, ht, heq, rfl, hd⟩
  · refine fun d h => ?_
    rw [h.1, h.2.1]
    exact hadopt d h.2.2

/-! ## Runs

Calls follow each other, each cut short at any point, and every call meets the disk that the one
before has left. So the condition has to hold at every point and not only between calls. -/

/-- The initialisation vectors that the cipher draws. -/
abbrev Iv := { iv : Bytes // iv.length = 12 }

/-- One call for each vector. -/
def calls (J : Jvm) (C : Gcm Key) (key : Key) (validate : String → Except Failure Unit) (iv : Iv) :
    Steps Disk Failure (Option String) := readOrMigrateState J C key validate iv.1

/-- The condition that every call keeps at each of its points, with the answer it gives. -/
structure Lasting (J : Jvm) (C : Gcm Key) (key : Key) (validate : String → Except Failure Unit)
    (text : String) (P : Disk → Prop) (answer : Except Failure (Option String)) : Prop where
  call : ∀ iv, Holds (Kept J C key P text) P (calls J C key validate iv) fun r _ => r = answer

/-- What lasts is there after any cut call. -/
theorem Lasting.left {P : Disk → Prop} {answer : Except Failure (Option String)}
    (h : Lasting J C key validate text P answer) {d e : Disk} (hd : P d)
    (hleft : Left (calls J C key validate) d e) : P e :=
  hleft.keeps (fun iv s hs => invariant_of_chain (fun _ _ hg _ => hg.1) (h.call iv s hs).1 hs) hd

/-- And at every point within a call nothing is deleted that is still needed. -/
theorem Lasting.guarded {P : Disk → Prop} {answer : Except Failure (Option String)}
    (h : Lasting J C key validate text P answer) {d : Disk} (hd : P d) (iv : Iv) :
    List.IsChain (Guarded J C key text) (points (calls J C key validate iv) d) :=
  (h.call iv d hd).1.imp fun _ _ hg => hg.2

/-- The encrypted file opens to the text for good. -/
theorem lasting_open (hvalid : validate text = .ok ()) :
    Lasting J C key validate text (Opens J C key text) (.ok (some text)) :=
  ⟨fun iv => (holds_call_open (fun _ h => h) hvalid iv.1).post fun _ _ h => h.1⟩

/-- Until it does the old copy is there, and either of them gives the text. -/
theorem lasting_safe {content : Bytes} (hread : legacyText J content = .ok text)
    (hvalid : validate text = .ok ()) (hfits : (utf8 text).length ≤ LIMIT - 32) :
    Lasting J C key validate text (fun d => Opens J C key text d ∨ Unmigrated content d)
      (.ok (some text)) := by
  refine ⟨fun iv d hd => ?_⟩
  rcases hd with hd | hd
  · exact ((holds_call_open (fun _ h => .inl h) hvalid iv.1).post fun _ _ h => h.1) d hd
  · have hadopt : Holds (Kept J C key (fun d => Opens J C key text d ∨ Unmigrated content d) text)
        (Unmigrated content) (adopt J C key validate iv.1 none text)
        fun r d => r = .ok (some text) ∧ Opens J C key text d :=
      holds_adopt_fits iv.2 (fun _ h => .inl h) hvalid hfits
    exact holds_call_unmigrated iv.1 (fun _ h => .inr h) hread (hadopt.post fun _ _ h => h.1) d hd

/-- A text that is too large stays where it is, and is refused each time. -/
theorem lasting_large {content : Bytes} (hread : legacyText J content = .ok text)
    (hvalid : validate text = .ok ()) (hlarge : ¬ (utf8 text).length ≤ LIMIT - 32) :
    Lasting J C key validate text (Unmigrated content) (.error tooLarge) :=
  ⟨fun iv => holds_call_unmigrated iv.1 (fun _ h => h) hread
    ((holds_adopt_large iv.1 hvalid hlarge).post fun _ _ h => h.1)⟩

/-- The copy that a call would return is the encrypted one, or else the old one. -/
theorem copyOf_cases {d : Disk} (h : copyOf J C key d = some text) :
    hasState d = true ∧ Opens J C key text d ∨
      hasState d = false ∧ ∃ content, Unmigrated content d ∧ legacyText J content = .ok text := by
  rw [copyOf] at h
  by_cases hstate : hasState d = true
  · rw [if_pos hstate] at h
    obtain ⟨content, hcurrent, hopen⟩ := Option.bind_eq_some_iff.mp h
    refine .inl ⟨hstate, content, hcurrent, ?_⟩
    cases hres : openState J C key content with
    | ok t =>
      rw [hres] at hopen
      rw [Option.some.inj hopen]
    | error e =>
      rw [hres] at hopen
      cases hopen
  · rw [if_neg hstate] at h
    obtain ⟨content, hcopy, hread⟩ := Option.bind_eq_some_iff.mp h
    refine .inr ⟨Bool.eq_false_iff.mpr hstate, content, ⟨Bool.eq_false_iff.mpr hstate, hcopy⟩, ?_⟩
    cases hres : legacyText J content with
    | ok t =>
      rw [hres] at hread
      rw [Option.some.inj hread]
    | error e =>
      rw [hres] at hread
      cases hread

/-- **Migration never loses the state.** However many calls are cut short, the encrypted
file opens to the text or the old copy is what it was; a call that is not cut short returns
the text, unless it is not yet encrypted and too large to be; and no step touches an old
file before the encrypted file opens to the text, but to put a backup in the place of its
base. -/
theorem migration_keeps_state {d e : Disk} (hcopy : copyOf J C key d = some text)
    (hvalid : validate text = .ok ()) (h : Left (calls J C key validate) d e) :
    (Opens J C key text e ∨
      legacyCopy e = legacyCopy d ∧ (legacyCopy e).map (legacyText J) = some (.ok text)) ∧
    (∀ iv, (calls J C key validate iv e).result =
      if hasState d = true ∨ (utf8 text).length ≤ LIMIT - 32 then .ok (some text) else .error tooLarge) ∧
    ∀ iv, List.IsChain (Guarded J C key text) (points (calls J C key validate iv) e) := by
  -- the state was migrated before, or is still in the old place
  rcases copyOf_cases hcopy with ⟨hstate, hopen⟩ | ⟨hstate, content, hd, hread⟩
  · have hlast : Lasting J C key validate text (Opens J C key text) (.ok (some text)) := lasting_open hvalid
    have he := hlast.left hopen h
    refine ⟨.inl he, fun iv => ?_, hlast.guarded he⟩
    rw [if_pos (.inl hstate)]
    exact (hlast.call iv e he).2
  · have hcopied (hs : Unmigrated content e) : legacyCopy e = legacyCopy d ∧
        (legacyCopy e).map (legacyText J) = some (.ok text) := by
      rw [hs.2, hd.2, Option.map_some, hread]
      exact ⟨rfl, rfl⟩
    -- an old state that is too large is refused, and stays where it is
    by_cases hfits : (utf8 text).length ≤ LIMIT - 32
    · have hlast : Lasting J C key validate text (fun d => Opens J C key text d ∨ Unmigrated content d)
          (.ok (some text)) := lasting_safe hread hvalid hfits
      have he := hlast.left (.inr hd) h
      refine ⟨he.imp_right hcopied, fun iv => ?_, hlast.guarded he⟩
      rw [if_pos (.inr hfits)]
      exact (hlast.call iv e he).2
    · have hlast : Lasting J C key validate text (Unmigrated content) (.error tooLarge) :=
        lasting_large hread hvalid hfits
      have he := hlast.left hd h
      refine ⟨.inr (hcopied he), fun iv => ?_, hlast.guarded he⟩
      rw [if_neg (not_or.mpr ⟨by rw [hstate]; decide, hfits⟩)]
      exact (hlast.call iv e he).2

/-! ## An old file that is too large, and one with a backup

A text that is too large is never encrypted but never lost either, and stays readable. The last
run cuts a call in the middle of putting a backup back. -/

/-- A cipher that only adds a tag. -/
def tagged : Gcm Unit where
  encrypt _ _ _ text := text ++ List.replicate 16 0
  decrypt _ _ _ bytes :=
    if bytes.drop (bytes.length - 16) = List.replicate 16 0 then some (bytes.take (bytes.length - 16)) else none
  length_encrypt _ _ _ text := by rw [List.length_append, List.length_replicate]
  decrypt_encrypt _ _ _ text := by
    rw [List.length_append, List.length_replicate, Nat.add_sub_cancel, List.drop_left, if_pos rfl, List.take_left]

/-- `{}` and blanks after it. -/
def padded (n : ℕ) : String := .ofList ('\x7b' :: '\x7d' :: List.replicate n ' ')

/-- A text of this length, and two bytes more. -/
theorem length_padded (n : ℕ) : (utf8 (padded n)).length = n + 2 := by
  have hblanks : (List.replicate n ' ').flatMap String.utf8EncodeChar = List.replicate n 32 := by
    induction n with
    | zero => rfl
    | succ n ih =>
      rw [List.replicate_succ, List.flatMap_cons, ih]
      rfl
  show (Utf8.encode (String.ofList ('\x7b' :: '\x7d' :: List.replicate n ' ')).toList).length = n + 2
  rw [String.toList_ofList, Utf8.encode, List.flatMap_cons, List.flatMap_cons, hblanks]
  rw [List.length_append, List.length_append, List.length_replicate]
  show 1 + (1 + n) = n + 2
  omega

/-- An old file and its backup, and no encrypted file. -/
def onlyLegacy (base backup : Option Bytes) : Disk
  | .legacy => base
  | .legacyBak => backup
  | _ => none

/-- An old file with a backup of two characters. -/
def withBackup : Disk := onlyLegacy (some (utf8 "\x7b")) (some (utf8 (padded 0)))

/-- The same where the base is deleted, and the backup not yet in its place. -/
def halfRestored : Disk := Function.update withBackup .legacy none

/-- A call comes by there: no encrypted file is found, an old one is, and its backup is put in its place. -/
theorem halfRestored_mem_points (validate : String → Except Failure Unit) (iv : Bytes) :
    halfRestored ∈ points (readOrMigrateState Jvm.ascii tagged () validate iv) withBackup := by
  refine mem_points_bind_ok (a := none) rfl (mem_points_bind ?_)
  refine mem_points_bind_ok (a := true) rfl (mem_points_bind (mem_points_bind ?_))
  exact mem_points_bind_ok (a := true) rfl (mem_points_bind (List.mem_cons_of_mem _ (List.mem_singleton_self _)))

/-- A text of 33,554,402 bytes is read and never encrypted; and an old file with a backup is
deleted before there is an encrypted file. -/
theorem large_state_never_migrates :
    (copyOf Jvm.ascii tagged () (onlyLegacy (some (utf8 (padded 33554400))) none) = some (padded 33554400) ∧
      (readOrMigrateState Jvm.ascii tagged () (fun _ => .ok ()) (List.replicate 12 0)
        (onlyLegacy (some (utf8 (padded 33554400))) none)).result = .error tooLarge) ∧
    ∃ e ∈ points (readOrMigrateState Jvm.ascii tagged () (fun _ => .ok ()) (List.replicate 12 0))
        (onlyLegacy (some (utf8 "\x7b")) (some (utf8 (padded 0)))),
      e .legacy = none ∧ hasState e = false := by
  have hread : legacyText Jvm.ascii (utf8 (padded 33554400)) = .ok (padded 33554400) := by
    rw [legacyText, read_eq, length_padded, if_pos (by decide)]
    show Except.ok (textOf Jvm.ascii (utf8 (padded 33554400))) = _
    rw [textOf_utf8]
  have hunmigrated : Unmigrated (utf8 (padded 33554400)) (onlyLegacy (some (utf8 (padded 33554400))) none) :=
    ⟨rfl, rfl⟩
  refine ⟨⟨?_, ?_⟩, ?_⟩
  · rw [copyOf, if_neg (by rw [hunmigrated.1]; decide), hunmigrated.2, Option.bind_some, hread]
    rfl
  · have hlarge : ¬ (utf8 (padded 33554400)).length ≤ LIMIT - 32 := by
      rw [length_padded]
      decide
    have hlast : Lasting Jvm.ascii tagged () (fun _ => .ok ()) (padded 33554400)
        (Unmigrated (utf8 (padded 33554400))) (.error tooLarge) := lasting_large hread rfl hlarge
    exact (hlast.call ⟨List.replicate 12 0, rfl⟩ _ hunmigrated).2
  · exact ⟨halfRestored, halfRestored_mem_points _ _, rfl, rfl⟩

/-- A call is cut while a backup is put in the place of its base: the old copy is what it was, and the next
call returns the text. -/
theorem migration_keeps_state_small :
    (Opens Jvm.ascii tagged () (padded 0) halfRestored ∨
      legacyCopy halfRestored = legacyCopy withBackup ∧
      (legacyCopy halfRestored).map (legacyText Jvm.ascii) = some (.ok (padded 0))) ∧
    (∀ iv, (calls Jvm.ascii tagged () (fun _ => .ok ()) iv halfRestored).result =
      if hasState withBackup = true ∨ (utf8 (padded 0)).length ≤ LIMIT - 32
      then .ok (some (padded 0)) else .error tooLarge) ∧
    ∀ iv, List.IsChain (Guarded Jvm.ascii tagged () (padded 0))
      (points (calls Jvm.ascii tagged () (fun _ => .ok ()) iv) halfRestored) := by
  refine migration_keeps_state (d := withBackup) ?_ rfl
    (Relation.ReflTransGen.single ⟨⟨List.replicate 12 0, rfl⟩, halfRestored_mem_points _ _⟩)
  have hread : legacyText Jvm.ascii (utf8 (padded 0)) = .ok (padded 0) := by
    rw [legacyText, read_eq, length_padded, if_pos (by decide)]
    show Except.ok (textOf Jvm.ascii (utf8 (padded 0))) = _
    rw [textOf_utf8]
  show (Except.toOption (legacyText Jvm.ascii (utf8 (padded 0)))) = some (padded 0)
  rw [hread]
  rfl

end LocalSecrets

end VlessCard
