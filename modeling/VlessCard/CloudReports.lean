/-
`cloud_reports.py`: the shared cloud, merged from its previous state and the
reports of the phones.

A report is whatever JSON object a phone sent, so every field is read as the
script reads it, and a value of the wrong kind raises where Python raises. The
weights are doubles; what they fade by, `0.5 ** (elapsed / half_life)`, is taken
from the runtime, like the texts, hashes and times the script asks Python for.
-/
import VlessCard.Base64
import VlessCard.Binary64
import VlessCard.CloudHistory

set_option autoImplicit false

namespace VlessCard

/-! ## More of Python's values

What `json.loads` returns can be an arbitrary value, and the script sorts, slices, hashes and
compares such values. The operations are those of Python, with an exception where Python raises
one. -/

/-- What the keys of a dictionary are told apart by: numbers by their value. What `json.loads`
reads as no number is one object, and equal to itself as a key. -/
inductive PyKey where
  | none
  | str (s : String)
  | num (q : ℚ)
  | inf (negative : Bool)
  | nan
deriving DecidableEq

namespace PyVal

/-- Whether `v` counts as true. -/
def truthy : PyVal → Bool
  | .none => false
  | .bool b => b
  | .int n => n ≠ 0
  | .float (.finite q) => q ≠ 0
  | .float _ => true
  | .str s => s ≠ ""
  | .list xs => !xs.isEmpty
  | .dict o => !o.isEmpty

/-- `v[:n]`, as a loop sees it: a text is its characters, and a dictionary has no slices. -/
def slice (v : PyVal) (n : ℕ) : Py (List PyVal) :=
  match v with
  | .list xs => .ok (xs.take n)
  | .str s => .ok ((s.toList.take n).map fun c => .str (.ofList [c]))
  | .dict _ => .error .KeyError
  | _ => .error .TypeError

/-- `v or []`, sliced. -/
def sliceOr (v : Option PyVal) (n : ℕ) : Py (List PyVal) :=
  match v with
  | Option.none => .ok []
  | some v => if v.truthy then v.slice n else .ok []

/-- The number a value is, for a comparison with `==`. -/
def number : PyVal → Option ℚ
  | .bool b => some (if b then 1 else 0)
  | .int n => some n
  | .float (.finite q) => some q
  | _ => Option.none

/-- What a dictionary compares a key by; what has no hash has none. -/
def key : PyVal → Option PyKey
  | .none => some .none
  | .str s => some (.str s)
  | .float (.inf negative) => some (.inf negative)
  | .float .nan => some .nan
  | v => v.number.map .num

/-- `a == b` for the values a dictionary may have as keys. -/
def sameKey (a b : PyVal) : Bool := decide (a.key.isSome = true ∧ a.key = b.key)

/-- Keys that are the same as a third are the same. -/
theorem sameKey_of_common {a b k : PyVal} (ha : a.sameKey k = true) (hb : b.sameKey k = true) :
    a.sameKey b = true := by
  have ha := of_decide_eq_true ha
  have hb := of_decide_eq_true hb
  exact decide_eq_true ⟨ha.1, ha.2.trans hb.2.symm⟩

/-- Texts are the same key when they are the same. -/
theorem sameKey_str (s t : String) : (str s).sameKey (str t) = true ↔ s = t := by
  rw [sameKey, decide_eq_true_iff]
  show true = true ∧ some (PyKey.str s) = some (PyKey.str t) ↔ s = t
  rw [Option.some.injEq, PyKey.str.injEq, eq_self_iff_true, true_and]

/-- `isinstance(v, str)`. -/
def text? : PyVal → Option String
  | .str s => some s
  | _ => Option.none

end PyVal

/-- A dictionary with keys of any kind and numbers as values. -/
structure Tally where
  entries : List (PyVal × ℚ)
  distinct : entries.Pairwise fun a b => a.1.sameKey b.1 = false

namespace Tally

def empty : Tally := ⟨[], List.Pairwise.nil⟩

/-- `d.get(k)`. -/
def get? (d : Tally) (k : PyVal) : Option ℚ :=
  (d.entries.find? fun e => e.1.sameKey k).map Prod.snd

/-- The entries after `d[k] = v`. -/
def write : List (PyVal × ℚ) → PyVal → ℚ → List (PyVal × ℚ)
  | [], k, v => [(k, v)]
  | e :: rest, k, v => if e.1.sameKey k then (e.1, v) :: rest else e :: write rest k v

/-- The keys are those from before, and the new one where it equals none of them. -/
theorem mem_write {es : List (PyVal × ℚ)} {k : PyVal} {v : ℚ} {e : PyVal × ℚ}
    (h : e ∈ write es k v) : (∃ e' ∈ es, e'.1 = e.1) ∨ e.1 = k := by
  induction es with
  | nil =>
    rw [write, List.mem_singleton] at h
    exact .inr (by rw [h])
  | cons a es ih =>
    rw [write] at h
    split at h
    · rcases List.mem_cons.mp h with rfl | h
      · exact .inl ⟨a, List.mem_cons_self .., rfl⟩
      · exact .inl ⟨e, List.mem_cons_of_mem _ h, rfl⟩
    · rcases List.mem_cons.mp h with rfl | h
      · exact .inl ⟨e, List.mem_cons_self .., rfl⟩
      · rcases ih h with ⟨e', he', heq⟩ | heq
        · exact .inl ⟨e', List.mem_cons_of_mem _ he', heq⟩
        · exact .inr heq

theorem distinct_write {es : List (PyVal × ℚ)}
    (h : es.Pairwise fun a b => a.1.sameKey b.1 = false) (k : PyVal) (v : ℚ) :
    (write es k v).Pairwise fun a b => a.1.sameKey b.1 = false := by
  induction es with
  | nil => exact List.pairwise_singleton _ _
  | cons a es ih =>
    rw [List.pairwise_cons] at h
    rw [write]
    split
    · exact List.pairwise_cons.mpr ⟨h.1, h.2⟩
    · rename_i hne
      refine List.pairwise_cons.mpr ⟨?_, ih h.2⟩
      intro e he
      rcases mem_write he with ⟨e', he', heq⟩ | heq
      · rw [← heq]
        exact h.1 e' he'
      · rw [heq]
        exact Bool.eq_false_iff.mpr hne

/-- `d[k] = v`. -/
def put (d : Tally) (k : PyVal) (v : ℚ) : Tally :=
  ⟨write d.entries k v, distinct_write d.distinct k v⟩

/-- `d[k] = d.get(k, 0) + share`; a key without a hash raises. -/
def add (d : Tally) (k : PyVal) (share : ℚ) : Py Tally :=
  if k.hashable then .ok (d.put k (Binary64.fl ((d.get? k).getD 0 + share))) else .error .TypeError

/-- `[k for k, _ in sorted(d.items(), key=lambda kv: -kv[1])[:n]]`. -/
def top (d : Tally) (n : ℕ) : List PyVal :=
  ((d.entries.mergeSort fun a b => b.2 ≤ a.2).take n).map Prod.fst

/-- Every value changed or dropped, keys and their order kept. -/
def update (f : ℚ → Option ℚ) (d : Tally) : Tally :=
  ⟨d.entries.filterMap fun e => (f e.2).map fun v => (e.1, v), by
    refine List.Pairwise.filterMap _ ?_ d.distinct
    intro a a' haa b hb b' hb'
    obtain ⟨v, -, rfl⟩ := Option.map_eq_some_iff.mp hb
    obtain ⟨v', -, rfl⟩ := Option.map_eq_some_iff.mp hb'
    exact haa⟩

/-- Each key is looked up in what it was changed to. -/
theorem get?_update (f : ℚ → Option ℚ) (d : Tally) (k : PyVal) :
    (d.update f).get? k = (d.get? k).bind f := by
  obtain ⟨es, hes⟩ := d
  show ((es.filterMap fun e => (f e.2).map fun v => (e.1, v)).find?
    fun e => e.1.sameKey k).map Prod.snd = ((es.find? fun e => e.1.sameKey k).map Prod.snd).bind f
  induction es with
  | nil => rfl
  | cons e es ih =>
    rw [List.pairwise_cons] at hes
    have hrest := ih hes.2
    by_cases hk : e.1.sameKey k = true
    · cases hf : f e.2 with
      | none =>
        -- no later key equals this one
        have hnone : es.find? (fun e => e.1.sameKey k) = none := by
          rw [List.find?_eq_none]
          intro e' he' hk'
          have hsame := PyVal.sameKey_of_common hk hk'
          rw [hes.1 e' he'] at hsame
          cases hsame
        rw [hnone] at hrest
        simp only [List.filterMap_cons, List.find?_cons, hf, hk, Option.map_none, Option.map_some,
          Option.bind_some, hrest, Option.bind_none]
      | some v =>
        simp only [List.filterMap_cons, List.find?_cons, hf, hk, Option.map_some, Option.bind_some]
    · rw [Bool.not_eq_true] at hk
      cases hf : f e.2 with
      | none => simp only [List.filterMap_cons, List.find?_cons, hf, hk, Option.map_none, hrest]
      | some v => simp only [List.filterMap_cons, List.find?_cons, hf, hk, Option.map_some, hrest]

/-- After a write the key has what was written, and every other key what it had. -/
theorem get?_put (d : Tally) (k : PyVal) (v : ℚ) (k' : PyVal) :
    (d.put k v).get? k' = if k.sameKey k' = true then some v else d.get? k' := by
  obtain ⟨es, hes⟩ := d
  show ((write es k v).find? fun e => e.1.sameKey k').map Prod.snd
    = if k.sameKey k' = true then some v else (es.find? fun e => e.1.sameKey k').map Prod.snd
  clear hes
  -- by induction over the entries, of which the first that matches is written
  induction es with
  | nil =>
    rw [write, List.find?_singleton]
    by_cases h : k.sameKey k' = true
    · rw [if_pos h, if_pos h, Option.map_some]
    · rw [if_neg h, if_neg h]
      rfl
  | cons e es ih =>
    rw [write]
    by_cases he : e.1.sameKey k = true
    · -- the entry of the key is the entry of whatever equals the key
      have hsame : e.1.sameKey k' = k.sameKey k' := by
        rw [PyVal.sameKey, PyVal.sameKey, (of_decide_eq_true he).2]
      rw [if_pos he, List.find?_cons, List.find?_cons, hsame]
      cases k.sameKey k' with
      | true => rfl
      | false => rfl
    · rw [if_neg he, List.find?_cons, List.find?_cons]
      by_cases hk' : e.1.sameKey k' = true
      · have hne : ¬ k.sameKey k' = true := fun h => he (PyVal.sameKey_of_common hk' h)
        rw [hk', if_neg hne]
      · rw [Bool.not_eq_true] at hk'
        rw [hk']
        exact ih

/-- Some key of the tally is the same as `k`. -/
def Has (d : Tally) (k : PyVal) : Prop := ∃ e ∈ d.entries, e.1.sameKey k = true

/-- A key that is written is there, and one that was there stays. -/
theorem has_put {d : Tally} {k k' : PyVal} {v : ℚ} (hk : k.sameKey k = true) (h : d.Has k' ∨ k = k') :
    (d.put k v).Has k' := by
  obtain ⟨es, hes⟩ := d
  show ∃ e ∈ write es k v, e.1.sameKey k' = true
  have hes' : (∃ e ∈ es, e.1.sameKey k' = true) ∨ k = k' := h
  clear hes h
  induction es with
  | nil =>
    refine ⟨(k, v), List.mem_singleton_self _, ?_⟩
    rcases hes' with ⟨e, he, -⟩ | rfl
    · exact absurd he List.not_mem_nil
    · exact hk
  | cons a es ih =>
    rw [write]
    by_cases ha : a.1.sameKey k = true
    · rw [if_pos ha]
      rcases hes' with ⟨e, he, hsame⟩ | rfl
      · rcases List.mem_cons.mp he with rfl | he
        · exact ⟨_, List.mem_cons_self .., hsame⟩
        · exact ⟨e, List.mem_cons_of_mem _ he, hsame⟩
      · exact ⟨_, List.mem_cons_self .., ha⟩
    · rw [if_neg ha]
      by_cases hhead : a.1.sameKey k' = true
      · exact ⟨a, List.mem_cons_self .., hhead⟩
      · obtain ⟨e, he, hsame⟩ := ih (hes'.imp_left fun ⟨e, he, hsame⟩ =>
          ⟨e, (List.mem_cons.mp he).resolve_left fun heq => hhead (heq ▸ hsame), hsame⟩)
        exact ⟨e, List.mem_cons_of_mem _ he, hsame⟩

end Tally

namespace CloudReports

open Binary64

/-- What the script asks Python for. -/
structure Runtime where
  /-- `str(v)`. -/
  str : PyVal → String
  /-- `int(s)` of a text. -/
  int : String → Option ℤ
  /-- `0.5 ** (elapsed / half_life)`. -/
  halved : ℤ → ℤ → ℚ
  /-- The first ten digits of SHA-256 of a text. -/
  sha10 : String → String
  /-- `time.strftime("%Y-%m-%d %H:%M", time.gmtime(now))`, where the time has a date. -/
  stamp : ℤ → Option String
  /-- `base64.b64decode(s)`. -/
  b64decode : String → Option (List UInt8)
  /-- `json.loads(b)`. -/
  loads : List UInt8 → Option PyVal
  /-- `json.dumps(v, ensure_ascii=False, separators=(",", ":"))`. -/
  dumps : PyVal → String
  /-- `json.dumps(v, sort_keys=True, ensure_ascii=False)`. -/
  dumpsSorted : PyVal → String
  /-- `urllib.parse.quote(s)`. -/
  quote : String → String

/-! ## The state

The state is a JSON file that only this script writes. Its tables are dictionaries in the order
of insertion, which shows where entries are equal in the order they are sorted by. -/

/-- What is known of one server in one operator's network. -/
structure NetEntry where
  kb : ℤ
  ok : ℚ
  n : ℚ
  yt : ℚ
  t : ℤ

/-- The votes of one network: strategies, masks, and masks of the phones' own. -/
structure Votes where
  d : Tally := .empty
  m : Tally := .empty
  x : Tally := .empty

structure Use where
  t : ℤ
  s : List String

/-- A server a phone verified. -/
structure Verified where
  l : String
  n : ℤ
  t : ℤ

/-- Operator to server key to what is known of it. -/
abbrev Net : Type := OrderedMap String (OrderedMap String NetEntry)

/-- `cloud_state.json`. -/
structure Cloud where
  stamp : String
  at_ : ℤ
  phones : ℕ
  ids : OrderedMap String ℤ
  use : OrderedMap String Use
  load : List (String × ℕ)
  net : Net
  brain : OrderedMap String (List ℚ)
  profiles : OrderedMap String String
  votes : OrderedMap String Votes
  servers : List Verified

/-- A report: the members of its object. -/
abbrev Report : Type := List (String × PyVal)

variable (P : Runtime)

def WEEK : ℤ := 7 * 86400

def DAY : ℤ := 86400

/-! ## Links

A profile travels as a link, packed and in base64. Whatever goes wrong while it is unpacked is
caught, so a link either holds a value or nothing. -/

def vcnet (fam : String) (d m x : List PyVal) : String :=
  let o := P.dumps (.dict [("v", .int 1), ("n", .str fam), ("d", .list d), ("m", .list m),
    ("x", .list x)])
  let b := Text.trimEnd (Text.replaceChar (Text.replaceChar (Base64.encode o) '+' '-') '/' '_') '='
  "vcnet://" ++ b ++ "#" ++ P.quote fam

/-- `unvcnet`; whatever it raises is caught. -/
def unvcnet (link : PyVal) : Option PyVal := do
  let link ← link.text?
  let rest : String := .ofList (link.toList.drop 8)
  let b := Text.replaceChar (Text.replaceChar (Text.substringBefore rest '#') '-' '+') '_' '/'
  let pad := (4 - b.toList.length % 4) % 4
  P.loads (← P.b64decode (b ++ .ofList (List.replicate pad '=')))

/-! ## Fading

Before any report is read everything in the state loses weight by the time that has passed since
it was made, and what is below its threshold is dropped. Votes have a half-life of a week,
counters of a day. -/

/-- `round(x * fade, 3)`. -/
def fadedBy (fade x : ℚ) : ℚ := roundTo 3 (fl (x * fade))

/-- A weight after the fading, unless it is below 0.2. -/
def fadeWeight (fade w : ℚ) : Option ℚ :=
  if fadedBy fade w < fl (1 / 5) then none else some (fadedBy fade w)

/-- One kind of votes. -/
def fadeTally (fade : ℚ) (d : Tally) : Tally := d.update (fadeWeight fade)

def fadeVotes (fade : ℚ) (f : Votes) : Votes :=
  { d := fadeTally fade f.d, m := fadeTally fade f.m, x := fadeTally fade f.x }

/-- One operator's entry, unless it is three days old or worth less than 0.3 checks. -/
def fadeEntry (fade : ℚ) (now : ℤ) (e : NetEntry) : Option NetEntry :=
  if 3 * 86400 < now - e.t then none
  else
    let e := { e with ok := fadedBy fade e.ok, n := fadedBy fade e.n }
    if fl (3 / 10) ≤ e.n then some e else none

/-- The entries of one operator that are left. -/
def fadeServers (fade : ℚ) (now : ℤ) (d : OrderedMap String NetEntry) :
    OrderedMap String NetEntry :=
  .ofList (d.entries.filterMap fun e => (fadeEntry fade now e.2).map fun v => (e.1, v))

/-- The operators that have an entry left. -/
def fadeNet (fade : ℚ) (now : ℤ) (net : Net) : Net :=
  (net.mapValues (fadeServers fade now)).filter fun e => !e.2.entries.isEmpty

/-! ## Speeds

The first loop of the merge reads the measurements. Each row is checked by itself, and one that
is no measurement is passed over. -/

/-- `^[0-9a-f]{8}$`; the pattern lets one line end follow. -/
def isServerKey (s : String) : Bool :=
  decide ((s.toList.take 8).length = 8) &&
    (s.toList.take 8).all (fun c => decide (c ∈ "0123456789abcdef".toList)) &&
    decide (s.toList.drop 8 = [] ∨ s.toList.drop 8 = ['\n'])

/-- `int(v)`. -/
def intOf (v : PyVal) : Py ℤ :=
  match v with
  | .bool b => .ok (if b then 1 else 0)
  | .int n => .ok n
  | .float (.finite q) => .ok (CloudReal.truncate q)
  | .float (.inf _) => .error .OverflowError
  | .float .nan => .error .ValueError
  | .str s => match P.int s with
    | some n => .ok n
    | none => .error .ValueError
  | _ => .error .TypeError

/-- One measurement of a server. -/
def NetEntry.observe (e : NetEntry) (now kb ms : ℤ) (yt : Bool) : NetEntry :=
  { e with
    n := roundTo 3 (fl (e.n + 1))
    t := now
    ok := if 0 < ms then roundTo 3 (fl (e.ok + 1)) else e.ok
    kb := if 0 < ms ∧ kb ≠ 0 then
        if e.kb = 0 then kb
        else CloudReal.truncate (fl (fl (e.kb * fl (6 / 10)) + fl (kb * fl (4 / 10))))
      else e.kb
    yt := if yt then roundTo 3 (fl (e.yt + 1)) else e.yt }

/-- The entry of a server, written back. -/
def observeIn (net : Net) (fam key : String) (now kb ms : ℤ) (yt : Bool) : Net :=
  let d := (net.get? fam).getD .empty
  let e := (d.get? key).getD { kb := 0, ok := 0, n := 0, yt := 0, t := now }
  net.put fam (d.put key (e.observe now kb ms yt))

/-- `max(0, min(int(row[1]), 1_000_000)), int(row[2])`. -/
def speedOf (b c : PyVal) : Py (ℤ × ℤ) := do
  let kb ← intOf P b
  let ms ← intOf P c
  return (max 0 (min kb 1000000), ms)

/-- One row of `sp`: what is no measurement is passed over. -/
def addRow (now : ℤ) (fam : String) (net : Net) (row : PyVal) : Py Net :=
  match row with
  | .list (.str key :: b :: c :: rest) =>
    if isServerKey key then
      match speedOf P b c with
      | .ok (kb, ms) => .ok (observeIn net fam key now kb ms (rest.head?.any fun v => v.eqInt 1))
      | .error .TypeError => .ok net
      | .error .ValueError => .ok net
      | .error e => .error e
    else .ok net
  | _ => .ok net

/-- `str(r.get(k, ""))[:n]`. -/
def field (r : Report) (k : String) (n : ℕ) : String :=
  .ofList (((Assoc.get? r k).map P.str).getD "" |>.toList.take n)

/-- The speeds of one report. -/
def addSpeeds (now : ℤ) (net : Net) (r : Report) : Py Net := do
  let fam := field P r "net" 60
  if fam ≠ "" ∧ fam ≠ "Нет сети" then
    let rows ← PyVal.sliceOr (Assoc.get? r "sp") 60
    rows.foldlM (addRow P now fam) net
  else return net

/-! ## Everything else of a report

The second loop reads the rest: the servers in use, the model, the verified servers and the
profiles. Each kind of data is checked in its own way, in the order of the source. -/

/-- What the second loop changes. -/
structure Work where
  ids : OrderedMap String ℤ
  use : OrderedMap String Use
  acc : OrderedMap String (List ℚ × ℤ)
  votes : OrderedMap String Votes
  servers : OrderedMap String Verified

def N : ℕ := 14

/-- `math.isfinite(v)` and the range, of one number; an integer no double holds raises. -/
def validWeight (v : PyVal) : Py Bool :=
  match v with
  | .int n => if 2 ^ 1024 - 2 ^ 970 ≤ |n| then .error .OverflowError else .ok (-8 ≤ n && n ≤ 8)
  | .float (.finite q) => .ok (-8 ≤ q && q ≤ 8)
  | _ => .ok false

/-- `all(…)`: stops at the first that is not. -/
def validWeights : List PyVal → Py Bool
  | [] => return true
  | v :: rest => do if ← validWeight v then validWeights rest else return false

def validVector (a : Option PyVal) : Py Bool :=
  match a with
  | some (.list xs) => if xs.length = N then validWeights xs else return false
  | _ => return false

/-- The numbers of a valid vector. -/
def vectorOf (a : Option PyVal) : List ℚ :=
  match a with
  | some (.list xs) => xs.filterMap PyVal.number
  | _ => []

/-- One family of the phone's model. -/
def addModel (b : Report) (wt : ℤ) (acc : OrderedMap String (List ℚ × ℤ)) (k : String) :
    Py (OrderedMap String (List ℚ × ℤ)) := do
  let a := Assoc.get? b k
  if wt = 0 then return acc
  if ← validVector a then
    let (s, t) := (acc.get? k).getD (List.replicate N 0, 0)
    return acc.put k (List.zipWith (fun s v => fl (s + fl (max (-8) (min 8 v) * wt))) s (vectorOf a),
      t + wt)
  else return acc

/-- `min(max(int(b.get("seen", 0)), 0), 200)`, zero when that raises. -/
def weightOf (b : Report) : ℤ :=
  match intOf P ((Assoc.get? b "seen").getD (.int 0)) with
  | .ok n => min (max n 0) 200
  | .error _ => 0

/-- `p.get(k, [])`; only a dictionary has `get`. -/
def part (p : PyVal) (k : String) : Py PyVal :=
  match p with
  | .dict o => .ok ((Assoc.get? o k).getD (.list []))
  | _ => .error .AttributeError

/-- The loop over one list of a profile: earlier names get larger shares of one vote. -/
def addRanked (n : ℕ) (d : Tally) (names : List PyVal) : Py Tally :=
  names.zipIdx.foldlM (fun d e => d.add e.1 (fl (((n - e.2 : ℕ) : ℚ) / n))) d

/-- One mask of a phone's own. -/
def addOwn (x : Tally) (v : PyVal) : Py Tally :=
  let xs := P.dumpsSorted v
  if xs.toList.length < 2000 then x.add (.str xs) 1 else return x

/-- One profile of a report. -/
def addProfile (votes : OrderedMap String Votes) (e : String × PyVal) :
    Py (OrderedMap String Votes) :=
  match unvcnet P e.2 with
  | none => return votes
  | some p => do
    let fam : String := .ofList (e.1.toList.take 60)
    let f := (votes.get? fam).getD {}
    let d ← addRanked 5 f.d (← (← part p "d").slice 5)
    let m ← addRanked 12 f.m (← (← part p "m").slice 12)
    let x ← (← (← part p "x").slice 6).foldlM (addOwn P) f.x
    return votes.put fam { d := d, m := m, x := x }

/-- `(r.get("profiles") or {}).items()`. -/
def profilesOf (r : Report) : Py (List (String × PyVal)) :=
  match Assoc.get? r "profiles" with
  | none => return []
  | some v => if v.truthy then v.items else return []

/-- `^(vless|vmess|trojan|ss|hysteria2|hy2)://`. -/
def isLink (l : String) : Bool :=
  ["vless://", "vmess://", "trojan://", "ss://", "hysteria2://", "hy2://"].any (Text.startsWith l)

/-- One server a phone verified. -/
def addVerified (now : ℤ) (servers : OrderedMap String Verified) (v : PyVal) :
    OrderedMap String Verified :=
  match v with
  | .str l =>
    if l.toList.length < 3000 ∧ isLink l = true then
      servers.put l { l := l, n := ((servers.get? l).map Verified.n).getD 0 + 1, t := now }
    else servers
  | _ => servers

/-- One report in the second loop. -/
def addReport (now : ℤ) (w : Work) (r : Report) : Py Work := do
  let phone := P.sha10 (field P r "id" 16)
  let ids := w.ids.put phone now
  let u := (← PyVal.sliceOr (Assoc.get? r "use") 8).filterMap fun v =>
    v.text?.filter fun k => isServerKey k
  let use := if u = [] then w.use else w.use.put phone { t := now, s := u }
  let b : Report := match Assoc.get? r "brain" with
    | some (.dict b) => b
    | _ => []
  let acc ← ["m", "w"].foldlM (addModel b (weightOf P b)) w.acc
  let votes ← (← profilesOf r).foldlM (addProfile P) w.votes
  let servers := (← PyVal.sliceOr (Assoc.get? r "ok") 15).foldl (addVerified now) w.servers
  return { ids := ids, use := use, acc := acc, votes := votes, servers := servers }

/-! ## `merge`

What is kept is sorted, cut and rounded in the end. The loops raise where Python would, so the
merge returns a state or an exception. -/

/-- How long ago the previous state was made. -/
def elapsed (prev : Option Cloud) (now : ℤ) : ℤ := max 0 (now - (prev.map Cloud.at_).getD now)

/-- The previous model, worth at most fifty phones. -/
def prevModel (prev : Cloud) : OrderedMap String (List ℚ × ℤ) :=
  let pw : ℤ := min prev.phones 50
  .ofList (["m", "w"].filterMap fun k => do
    let a ← prev.brain.get? k
    if a.length = N ∧ (∀ v ∈ a, -8 ≤ v ∧ v ≤ 8) ∧ pw ≠ 0 then
      some (k, (a.map fun v => fl (fl (v * pw) * 100), pw * 100))
    else none)

/-- The state before the reports are read. -/
def start (prev : Option Cloud) (now : ℤ) : Net × Work :=
  match prev with
  | none => (.empty, { ids := .empty, use := .empty, acc := .empty, votes := .empty, servers := .empty })
  | some c =>
    (fadeNet (P.halved (elapsed prev now) DAY) now c.net,
      { ids := c.ids.filter fun e => decide (now - e.2 < 30 * 86400)
        use := c.use.filter fun e => decide (now - e.2.t < 3 * 3600)
        acc := prevModel c
        votes := c.votes.mapValues (fadeVotes (P.halved (elapsed prev now) WEEK))
        servers := .ofList ((c.servers.filter fun s => decide (now - s.t < 2 * 86400)).map
          fun s => (s.l, s)) })

/-- `json.loads(x)` of a key. -/
def loadMask (x : PyVal) : Py PyVal :=
  match x with
  | .str s => match P.loads (Utf8.encode s.toList) with
    | some v => .ok v
    | none => .error .ValueError
  | _ => .error .TypeError

/-- The profile of a network, when anyone voted. -/
def profileOf (fam : String) (f : Votes) : Py (Option String) := do
  if f.d.entries = [] ∧ f.m.entries = [] ∧ f.x.entries = [] then return none
  let own ← (f.x.top 6).mapM (loadMask P)
  return some (vcnet P fam (f.d.top 5) (f.m.top 12) own)

/-- The profiles of all networks. -/
def publish (votes : OrderedMap String Votes) : Py (OrderedMap String String) := do
  let links ← votes.entries.mapM fun e => (profileOf P e.1 e.2).map fun link => (e.1, link)
  return .ofList (links.filterMap fun e => e.2.map fun link => (e.1, link))

/-- How many phones sit on each server. -/
def loadOf (use : OrderedMap String Use) : OrderedMap String ℕ :=
  (use.entries.flatMap fun u => u.2.s).foldl (fun m k => m.put k ((m.get? k).getD 0 + 1)) .empty

/-- The servers of an operator, the most checked first, 600 at most. -/
def mostChecked (d : OrderedMap String NetEntry) : OrderedMap String NetEntry :=
  .ofList ((d.entries.mergeSort fun a b => b.2.n ≤ a.2.n).take 600)

/-- More phones first, then later ones. -/
def verifiedLe (a b : Verified) : Bool := b.n < a.n || (a.n = b.n && b.t ≤ a.t)

/-- The new state. -/
def finish (now : ℤ) (stamp : String) (net : Net) (w : Work) (profiles : OrderedMap String String) :
    Cloud :=
  { stamp := stamp
    at_ := now
    phones := w.ids.entries.length
    ids := w.ids
    use := w.use
    load := ((loadOf w.use).entries.mergeSort fun a b => b.2 ≤ a.2).take 300
    net := net.mapValues mostChecked
    brain := .ofList (w.acc.entries.filterMap fun e =>
      if e.2.2 = 0 then none else some (e.1, e.2.1.map fun v => roundTo 4 (fl (v / e.2.2))))
    profiles := profiles
    votes := w.votes
    servers := ((w.servers.entries.map Prod.snd).mergeSort verifiedLe).take 200 }

/-- `merge`. -/
def merge (prev : Option Cloud) (reports : List Report) (now : ℤ) : Py Cloud := do
  let net ← reports.foldlM (addSpeeds P now) (start P prev now).1
  let work ← reports.foldlM (addReport P now) (start P prev now).2
  let profiles ← publish P work.votes
  match P.stamp now with
  | some stamp => return finish now stamp net work profiles
  | none => throw .OverflowError

/-- The states the cloud makes, from none on. -/
inductive Made : Option Cloud → Prop where
  | none : Made none
  | merge {prev : Option Cloud} {reports : List Report} {now : ℤ} {c : Cloud} (h : Made prev)
      (hmerge : merge P prev reports now = .ok c) : Made (some c)

/-! ## Masks are read back

A mask of a phone's own is voted for by its text, and the text is read when a profile
is published. -/

/-- A part of what `json.loads` gave is read back from its text. -/
def Rereads : Prop :=
  ∀ b p x own, P.loads b = some p → part p "x" = .ok x → x.slice 6 = .ok own →
    ∀ v ∈ own, (P.loads (Utf8.encode (P.dumpsSorted v).toList)).isSome = true

/-- Every key is a text that can be read. -/
def Legible (x : Tally) : Prop := ∀ e ∈ x.entries, ∃ v, loadMask P e.1 = .ok v

def LegibleVotes (votes : OrderedMap String Votes) : Prop := ∀ e ∈ votes.entries, Legible P e.2.x

theorem legible_empty : Legible P .empty := fun _ he => absurd he List.not_mem_nil

variable {P}

theorem Legible.update {x : Tally} (h : Legible P x) (f : ℚ → Option ℚ) : Legible P (x.update f) := by
  intro e he
  obtain ⟨e', he', hf⟩ := List.mem_filterMap.mp he
  obtain ⟨w, -, rfl⟩ := Option.map_eq_some_iff.mp hf
  exact h e' he'

/-- A key that can be read may be counted. -/
theorem Legible.add {x x' : Tally} (h : Legible P x) {k : PyVal} {w : ℚ}
    (hk : ∃ v, loadMask P k = .ok v) (hadd : x.add k w = .ok x') : Legible P x' := by
  rw [Tally.add] at hadd
  split at hadd
  · rw [← Except.ok.inj hadd]
    intro e he
    rcases Tally.mem_write he with ⟨e', he', heq⟩ | heq
    · rw [← heq]
      exact h e' he'
    · rw [heq]
      exact hk
  · cases hadd

/-- So may a mask of one's own that is printed so that it can. -/
theorem Legible.addOwn {x x' : Tally} (h : Legible P x) {v : PyVal}
    (hv : (P.loads (Utf8.encode (P.dumpsSorted v).toList)).isSome = true)
    (hadd : addOwn P x v = .ok x') : Legible P x' := by
  rw [CloudReports.addOwn] at hadd
  split at hadd
  · obtain ⟨w, hw⟩ := Option.isSome_iff_exists.mp hv
    exact h.add ⟨w, by rw [loadMask, hw]⟩ hadd
  · rw [← Except.ok.inj hadd]
    exact h

theorem LegibleVotes.addProfile (hrt : Rereads P) {votes votes' : OrderedMap String Votes}
    (h : LegibleVotes P votes) {e : String × PyVal} (hadd : addProfile P votes e = .ok votes') :
    LegibleVotes P votes' := by
  rw [CloudReports.addProfile] at hadd
  split at hadd
  · rw [← Except.ok.inj hadd]
    exact h
  · rename_i p hp
    obtain ⟨b, hb⟩ : ∃ b, P.loads b = some p := by
      rw [unvcnet] at hp
      obtain ⟨link, -, hp⟩ := Option.bind_eq_some_iff.mp hp
      obtain ⟨b, -, hp⟩ := Option.bind_eq_some_iff.mp hp
      exact ⟨b, hp⟩
    -- the votes of this network so far
    have hbefore : Legible P ((votes.get? (.ofList (e.1.toList.take 60))).getD {}).x := by
      cases hget : votes.get? (.ofList (e.1.toList.take 60)) with
      | none => exact legible_empty P
      | some f => exact h _ (OrderedMap.mem_of_get? hget)
    obtain ⟨ds, -, hadd⟩ := Python.bind_ok hadd
    obtain ⟨ds, -, hadd⟩ := Python.bind_ok hadd
    obtain ⟨d, -, hadd⟩ := Python.bind_ok hadd
    obtain ⟨ms, -, hadd⟩ := Python.bind_ok hadd
    obtain ⟨ms, -, hadd⟩ := Python.bind_ok hadd
    obtain ⟨m, -, hadd⟩ := Python.bind_ok hadd
    obtain ⟨x, hx, hadd⟩ := Python.bind_ok hadd
    obtain ⟨own, hown, hadd⟩ := Python.bind_ok hadd
    obtain ⟨x', hx', hadd⟩ := Python.bind_ok hadd
    rw [← Except.ok.inj hadd]
    refine OrderedMap.forall_put h ?_
    refine Python.foldlM_inv (p := Legible P) ?_ hbefore hx'
    intro v hv s s' hs hadd
    exact hs.addOwn (hrt b p x own hb hx hown v hv) hadd

theorem LegibleVotes.addReport (hrt : Rereads P) {now : ℤ} {w w' : Work} (h : LegibleVotes P w.votes)
    {r : Report} (hadd : addReport P now w r = .ok w') : LegibleVotes P w'.votes := by
  rw [CloudReports.addReport] at hadd
  obtain ⟨use, -, hadd⟩ := Python.bind_ok hadd
  obtain ⟨acc, -, hadd⟩ := Python.bind_ok hadd
  obtain ⟨es, -, hadd⟩ := Python.bind_ok hadd
  obtain ⟨votes, hvotes, hadd⟩ := Python.bind_ok hadd
  obtain ⟨links, -, hadd⟩ := Python.bind_ok hadd
  rw [← Except.ok.inj hadd]
  exact Python.foldlM_inv (p := LegibleVotes P) (fun _ _ _ _ hs hadd => hs.addProfile hrt hadd) h hvotes

/-- What was votes for, faded, can still be read. -/
theorem legibleVotes_start {prev : Option Cloud} (h : ∀ c ∈ prev, LegibleVotes P c.votes) (now : ℤ) :
    LegibleVotes P (start P prev now).2.votes := by
  cases prev with
  | none => exact fun _ he => absurd he List.not_mem_nil
  | some c =>
    intro e he
    obtain ⟨e', he', rfl⟩ := List.mem_map.mp he
    exact (h c rfl e' he').update _

/-- All votes of a state the cloud made are for texts that can be read. -/
theorem Made.legible (hrt : Rereads P) {prev : Option Cloud} (h : Made P prev) :
    ∀ c ∈ prev, LegibleVotes P c.votes := by
  induction h with
  | none =>
    intro c hc
    cases hc
  | @merge prev reports now c' _ hmerge ih =>
    intro c hc
    rw [← Option.some.inj hc]
    rw [CloudReports.merge] at hmerge
    obtain ⟨net, -, hmerge⟩ := Python.bind_ok hmerge
    obtain ⟨work, hwork, hmerge⟩ := Python.bind_ok hmerge
    obtain ⟨profiles, -, hmerge⟩ := Python.bind_ok hmerge
    split at hmerge
    · rw [← Except.ok.inj hmerge]
      exact Python.foldlM_inv (p := fun w => LegibleVotes P w.votes)
        (fun _ _ _ _ hs hadd => hs.addReport hrt hadd) (legibleVotes_start ih now) hwork
    · cases hmerge

/-- Votes for what can be read can be published. -/
theorem LegibleVotes.publish {votes : OrderedMap String Votes} (h : LegibleVotes P votes) :
    ∃ profiles, publish P votes = .ok profiles := by
  have hprofile : ∀ e ∈ votes.entries, ∃ link,
      ((profileOf P e.1 e.2).map fun link => (e.1, link)) = .ok link := by
    intro e he
    rw [profileOf]
    split
    · exact ⟨(e.1, none), rfl⟩
    · have htop : ∀ k ∈ e.2.x.top 6, ∃ v, loadMask P k = .ok v := by
        intro k hk
        obtain ⟨m, hm, rfl⟩ := List.mem_map.mp hk
        exact h e he m ((List.mergeSort_perm _ _).subset (List.mem_of_mem_take hm))
      obtain ⟨own, hown⟩ := Python.mapM_returns htop
      rw [hown]
      exact ⟨_, rfl⟩
  obtain ⟨links, hlinks⟩ := Python.mapM_returns hprofile
  rw [CloudReports.publish, hlinks]
  exact ⟨_, rfl⟩

end CloudReports

end VlessCard
