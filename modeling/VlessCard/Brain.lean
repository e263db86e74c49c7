/-
`Brain.kt`: the small online model that orders the servers to be checked.

One vector of weights a family of networks, one a network that was learned by
name; doubles are exact numbers here, and `exp`, `sqrt` and the clock are
parameters. Four calls change the model. The law is an invariant of whole runs:
the weights stay between -8 and 8, the contexts stay few and well named, and so
the validation of `restore` accepts every `snapshot` the model can produce, while
a text it refuses leaves the model as it was.
-/
import VlessCard.JsonDoubles
import VlessCard.Restart
import VlessCard.UpdateCopy

set_option autoImplicit false

namespace VlessCard

namespace JsonObject

/-- `optDouble(k, d)`. -/
def optDouble (J : OrgJson) (o : JsonObject) (k : String) (d : ℚ) : ℚ :=
  ((o.get? k).bind (Json.asNumber J)).getD d

end JsonObject

namespace Revive

variable (U : Jvm)

/-- Whether `ipv4(s)` is an address. -/
def isIpv4 (s : String) : Bool :=
  let p := Text.split s '.'
  decide (p.length = 4) && p.all fun x => match Text.toInt? U x with
    | some n => decide (0 ≤ n ∧ n ≤ 255)
    | none => false

def isIp (s : String) : Bool := isIpv4 U s || Text.hasChar s ':'

/-- The name Cloudflare routes by. -/
def routeName (s : Server) : String :=
  Text.ifEmpty (Text.ifEmpty s.sni s.host) (if isIp U s.address then "" else s.address)

def cdnLike (s : Server) : Bool :=
  decide (s.protocol ∈ ["vless", "vmess", "trojan"]) &&
    decide (s.network ∈ ["ws", "xhttp", "httpupgrade", "grpc", "splithttp"]) &&
    s.security ≠ "reality" && routeName U s ≠ ""

end Revive

namespace Brain

/-- `N`: the number of features. -/
abbrev N : ℕ := 14

/-- `DoubleArray(N)`. -/
abbrev Weights : Type := Fin N → ℚ

def MAX_CONTEXTS : ℕ := 24

/-- `[0-9a-f]{16}`. -/
def isKey (s : String) : Bool :=
  decide (s.toList.length = 16) && s.toList.all fun c => decide (c ∈ "0123456789abcdef".toList)

/-- What the model takes from the platform. -/
structure Platform where
  jvm : Jvm
  exp : ℚ → ℚ
  sqrt : ℚ → ℚ
  sin : ℚ → ℚ
  cos : ℚ → ℚ
  pi : ℚ
  /-- `Double.toString`. -/
  doubleText : ℚ → String
  /-- SHA-256 of the bytes of a text. -/
  sha256 : String → List UInt8
  length_sha256 : ∀ s, (sha256 s).length = 32

/-- What a call reads from the clock. -/
structure Clock where
  hour : ℚ
  millis : ℤ

/-- The model of one network. -/
structure LocalModel where
  weights : Weights
  checks : ℚ

end Brain

/-- The object `Brain`. -/
structure Brain where
  w : OrderedMap String Brain.Weights := .empty
  trained : OrderedMap String ℚ := .empty
  cloudSig : String := ""
  contexts : OrderedMap String Brain.LocalModel := .empty
  seen : ℤ := 0
  dirty : Bool := false

namespace Brain

variable (P : Platform) (J : OrgJson)

/-! ## Features

A server is described by a few numbers, each between zero and one. The network it is seen in is
known by its family and, where there is more to know, by a fingerprint, which names the weights
of that network alone. -/

def features (c : Clock) (s : Server) (st : ServerState) : Weights :=
  let good : ℤ := max st.okCount.toInt 0
  let bad : ℤ := max st.failCount.toInt 0
  let tries := good + bad
  ![1,
    if 0 < st.tcpMs then (min st.tcpMs.toInt 2000 : ℤ) / 1000 else 2,
    if 0 < tries then (good : ℚ) / tries else 1 / 2,
    (min tries 20 : ℤ) / 20,
    if 0 < st.realMs then 1 else if st.realMs = 0 then -1 else 0,
    match st.bigOk with
      | some true => 1
      | some false => -1
      | none => 0,
    if s.security = "reality" then 1 else 0,
    if Revive.cdnLike P.jvm s then 1 else 0,
    if s.protocol = "wireguard" ∨ s.protocol = "hysteria2" then 1 else 0,
    if st.maskId ≠ "" then 1 else 0,
    if s.port = 443 then 1 else 0,
    min ((max (c.millis - max st.checkedAt.toInt 0) 0 : ℤ) / 86400000) 3 / 3,
    P.sin (c.hour * P.pi / 12),
    P.cos (c.hour * P.pi / 12)]

/-- A network known by more than its family. -/
def isScoped (net : String) : Bool := Text.contains net " · "

/-- `joinToString("") \x7b "%02x".format(it) \x7d`. -/
def hex (bytes : List UInt8) : String := .ofList (bytes.flatMap UpdatePolicy.hexByte)

/-- `Net.fingerprint`: the first eight bytes of the digest. -/
def fingerprint (salt : String) (fields : List String) : String :=
  hex ((P.sha256 (salt ++ "|" ++ Text.join "|" fields)).take 8)

def contextKey (net : String) : String := fingerprint P "brain-context-v1" [net]

/-- In a network of its own only what was seen there counts. -/
def localFeatures (c : Clock) (net : String) (s : Server) (st : ServerState) : Weights :=
  if !isScoped net then features P c s st
  else
    let e := st.evidenceFor net
    features P c s
      { st with
        okCount := e.successes
        failCount := if e.checks - e.successes < 0 then 0 else e.checks - e.successes
        realMs := if e.checks = 0 then -1
          else if 0 < e.latency then Int32.ofIntClamp ⌊e.latency⌋ else 0
        tcpMs := if e.checks = 0 then -1 else st.tcpMs
        bigOk := if 0 < e.checks then st.bigOk else none
        checkedAt := e.updated
        maskId := st.maskFor net }

def kind (net : String) : String := if Text.startsWith net "Моб." then "m" else "w"

def prior : Weights := ![0, -1 / 2, 1, 0, 3 / 2, 1 / 2, 0, 0, 0, 0, 0, 0, 0, 0]

def probability (k x : Weights) : ℚ :=
  let z := ∑ i, k i * x i
  1 / (1 + P.exp (-(max (-30) (min z 30))))

/-! ## Predicting and learning

One observation trains the weights of the family and, in a network known by its fingerprint,
those of the network too. A weight that the arithmetic leaves without a finite value becomes
`none` and is replaced by the clamp. -/

/-- `weights(net)`: made from the prior when they are missing. -/
def weights (b : Brain) (net : String) : Weights := (b.w.get? (kind net)).getD prior

/-- The weights `p` uses. -/
def used (b : Brain) (net : String) : Weights :=
  if isScoped net then ((b.contexts.get? (contextKey P net)).map LocalModel.weights).getD prior
  else b.weights net

/-- The value of `p`. -/
def p (b : Brain) (c : Clock) (net : String) (s : Server) (st : ServerState) : ℚ :=
  probability P (used P b net) (localFeatures P c net s st)

/-- What `p` leaves behind: the weights of the family, once made, are kept. -/
def asked (b : Brain) (net : String) : Brain :=
  if isScoped net then b else { b with w := b.w.put (kind net) (b.weights net) }

def learningRate (checks : ℚ) : ℚ := max (1 / 100) (1 / 5 / P.sqrt (1 + max checks 0 / 50))

/-- `coerceIn(-8.0, 8.0)`. -/
def clamp (q : ℚ) : ℚ := max (-8) (min q 8)

/-- One step of the gradient, with a little decay. -/
def update (works : Bool) (importance : ℚ) (k x : Weights) (checks : ℚ) : Weights :=
  let err := (if works then 1 else 0) - probability P k x
  let lr := learningRate P checks * importance
  fun i => clamp (k i + lr * err * x i - 5 / 10000 * importance * k i)

/-- `while (size > MAX_CONTEXTS) remove(keys.first())`. -/
def evict (m : OrderedMap String LocalModel) : OrderedMap String LocalModel :=
  ⟨m.entries.drop (m.entries.length - MAX_CONTEXTS),
    m.nodup.sublist ((List.drop_sublist _ _).map _)⟩

/-- The context of a network after one observation: the most recent one. -/
def learnContext (works : Bool) (importance : ℚ) (x : Weights) (key : String)
    (contexts : OrderedMap String LocalModel) : OrderedMap String LocalModel :=
  let model := (contexts.get? key).getD ⟨prior, 0⟩
  let rest := contexts.filterKeys fun k => k ≠ key
  evict (rest.put key
    { weights := update P works importance model.weights x model.checks
      checks := min (model.checks + importance) 10000000 })

/-- `learn`; a weight that is not finite is `none`. The features of the family and
those of the network each read the clock. -/
def learn (b : Brain) (c c' : Clock) (net : String) (s : Server) (st : ServerState) (works : Bool)
    (weight : Option ℚ) : Brain :=
  match weight with
  | none => b
  | some weight =>
    if weight ≤ 0 then b
    else
      let importance := min weight 1
      let checks := (b.trained.get? (kind net)).getD 0
      { b with
        w := b.w.put (kind net) (update P works importance (b.weights net) (features P c s st) checks)
        trained := b.trained.put (kind net) (min (checks + importance) 10000000)
        contexts := if isScoped net then
            learnContext P works importance (localFeatures P c' net s st) (contextKey P net) b.contexts
          else b.contexts
        seen := min (b.seen + 1) 10000000
        dirty := true }

/-! ## Snapshots

The snapshot is a text with a header, the weights of the families and the contexts. Everything in
it is checked before anything of the model is replaced, so a text that is refused at its end
leaves the model alone. -/

/-- One weight of a vector: a number, and in range. -/
def weightOf (v : Json) : Option ℚ :=
  match v with
  | .int n => if -8 ≤ (n : ℚ) ∧ (n : ℚ) ≤ 8 then some n else none
  | .real q => if -8 ≤ q ∧ q ≤ 8 then some q else none
  | _ => none

def vector (a : Option (List Json)) : Option Weights := do
  let a ← a
  if a.length ≠ N then none
  let out ← a.mapM weightOf
  return fun i => out.getD i 0

/-- `JSONArray(v.toList())`. -/
def weightsJson (k : Weights) : Json := .arr (List.ofFn fun i => .real (k i))

def contextJson (e : String × LocalModel) : Json :=
  .obj (JsonObject.empty |>.put "key" (.str e.1) |>.put "n" (.real e.2.checks)
    |>.put "w" (weightsJson e.2.weights))

/-- The object `snapshot` prints. -/
def toJson (b : Brain) : JsonObject :=
  Assoc.putAll
    (JsonObject.empty |>.put "seen" (.int b.seen) |>.put "trained" (.obj (b.trained.toJson .real))
      |>.put "cloudSig" (.str b.cloudSig)
      |>.put "contexts" (.arr (b.contexts.entries.map contextJson)))
    (b.w.entries.map fun e => (e.1, weightsJson e.2))

def snapshot (b : Brain) : String := J.text (.obj b.toJson)

/-- `if (o.has(k)) models[k] = vector(o.optJSONArray(k)) ?: return false`. -/
def readWeights (o : JsonObject) (k : String) (models : OrderedMap String Weights) :
    Option (OrderedMap String Weights) :=
  if o.has k then (vector (o.optJSONArray k)).map (models.put k) else some models

/-- The weights of one family, and how often they were trained. -/
def readFamily (o : JsonObject) (total : ℤ) (k : String)
    (m : OrderedMap String Weights × OrderedMap String ℚ) :
    Option (OrderedMap String Weights × OrderedMap String ℚ) := do
  let models ← readWeights o k m.1
  -- older files had one global counter
  let n : ℚ := ((o.optJSONObject "trained").map fun t => t.optDouble J k 0).getD (total : ℚ)
  if n < 0 ∨ 10000000 < n then none
  return (models, m.2.put k n)

def readContext (found : OrderedMap String LocalModel) (v : Json) :
    Option (OrderedMap String LocalModel) := do
  let item ← v.asObject
  let key := item.optString J "key" ""
  let n := item.optDouble J "n" (-1)
  if isKey key = false ∨ found.contains key = true ∨ ¬ (0 ≤ n ∧ n ≤ 10000000) then none
  let weights ← vector (item.optJSONArray "w")
  return found.put key ⟨weights, n⟩

def readContexts (list : Option (List Json)) : Option (OrderedMap String LocalModel) :=
  match list with
  | none => some .empty
  | some list =>
    if MAX_CONTEXTS < list.length then none else list.foldlM (readContext J) .empty

/-- The model a text holds, if all of it is valid. -/
def read (text : String) : Option Brain := do
  if 64000 < Text.length text then none
  let o ← J.parseObject text
  let total := max 0 (min (o.optLong J "seen" 0).toInt 10000000)
  let (models, counts) ← readFamily J o total "m" (.empty, .empty)
  let (models, counts) ← readFamily J o total "w" (models, counts)
  let found ← readContexts J (o.optJSONArray "contexts")
  return { w := models, trained := counts, contexts := found, seen := total
           cloudSig := Text.take 64 (o.optString J "cloudSig" ""), dirty := true }

/-- `restore`: nothing is replaced before everything is read. -/
def restore (b : Brain) (text : String) : Bool × Brain :=
  match read J text with
  | some b' => (true, b')
  | none => (false, b)

/-! ## Blending

A model from the cloud moves the local one a part of the way, the less the more the phone has
seen by itself. Its hash is remembered, so that one model is not blended in twice. -/

/-- How much a cloud model counts. -/
def alpha (b : Brain) (k : String) (phones : Int32) : ℚ :=
  1 / 5 * phones.toInt / (phones.toInt + 20) *
    if 50 ≤ (b.trained.get? k).getD 0 then 1 / 2 else 1

/-- What `blend` hashes of the models. -/
def signature (models : List (String × Weights)) : String :=
  hex (P.sha256 (Text.join "|" (models.map fun e =>
    e.1 ++ ":" ++ Text.join "," ((List.ofFn e.2).map P.doubleText))))

/-- One family, moved towards the cloud's. -/
def nudge (b : Brain) (phones : Int32) (w : OrderedMap String Weights) (e : String × Weights) :
    OrderedMap String Weights :=
  let mine := (b.w.get? e.1).getD prior
  let a := b.alpha e.1 phones
  w.put e.1 fun i => (1 - a) * mine i + a * e.2 i

def blend (b : Brain) (o : JsonObject) (phones : Int32) : Brain :=
  if phones < 1 then b
  else
    let models := ["m", "w"].filterMap fun k => (vector (o.optJSONArray k)).map fun v => (k, v)
    if models = [] then b
    else
      let sig := signature P models
      if sig = b.cloudSig then b
      else { b with w := models.foldl (b.nudge phones) b.w, cloudSig := sig, dirty := true }

def clear : Brain := {}

/-! ## Runs

The calls of the program in any order, each with its own clock and its own texts. A run is the
list of them, and everything below is said of the model after any run. -/

/-- The calls that change the model; `p` makes missing weights. -/
inductive Op where
  | ask (net : String)
  | learn (c c' : Clock) (net : String) (s : Server) (st : ServerState) (works : Bool)
      (weight : Option ℚ)
  | blend (o : JsonObject) (phones : Int32)
  | restore (text : String)
  | clear

def step (b : Brain) : Op → Brain
  | .ask net => b.asked net
  | .learn c c' net s st works weight => b.learn P c c' net s st works weight
  | .blend o phones => b.blend P o phones
  | .restore text => (b.restore J text).2
  | .clear => clear

/-- The model after a run. -/
def runFrom (b : Brain) (ops : List Op) : Brain := ops.foldl (step P J) b

/-- The model after a run that starts with nothing learned. -/
def run (ops : List Op) : Brain := runFrom P J {} ops

/-! ## The invariant

What has to hold of a model so that nothing later goes wrong with it: weights and counters in
range, few contexts, and names that the reader would accept. Each call that learns keeps it. -/

def Bounded (k : Weights) : Prop := ∀ i, -8 ≤ k i ∧ k i ≤ 8

/-- A counter of observations. -/
def Counts (n : ℚ) : Prop := 0 ≤ n ∧ n ≤ 10000000

/-- Every weight between -8 and 8, every counter in range, at most 24 contexts with
well-formed names; the names are distinct because `contexts` is a map. -/
structure Sound (b : Brain) : Prop where
  families : ∀ e ∈ b.w.entries, e.1 = "m" ∨ e.1 = "w"
  weights : ∀ e ∈ b.w.entries, Bounded e.2
  counted : ∀ e ∈ b.trained.entries, e.1 = "m" ∨ e.1 = "w"
  trained : ∀ e ∈ b.trained.entries, Counts e.2
  few : b.contexts.entries.length ≤ MAX_CONTEXTS
  keys : ∀ e ∈ b.contexts.entries, isKey e.1 = true
  models : ∀ e ∈ b.contexts.entries, Bounded e.2.weights ∧ Counts e.2.checks
  seen : 0 ≤ b.seen ∧ b.seen ≤ 10000000
  sig : Text.length b.cloudSig ≤ 64

/-- A brain that has learned nothing is sound. -/
theorem sound_empty : Sound {} := by
  constructor
  case few => exact Nat.zero_le _
  case seen => decide
  case sig => exact Nat.zero_le _
  all_goals
    intro e he
    cases he

/-- The weights it starts from are within bounds. -/
theorem bounded_prior : Bounded prior := by
  intro i
  fin_cases i <;> norm_num [prior]

/-- Whatever is computed, a weight stays between -8 and 8. -/
theorem bounded_clamp (q : ℚ) : -8 ≤ clamp q ∧ clamp q ≤ 8 :=
  ⟨le_max_left _ _, max_le (by norm_num) (min_le_right _ _)⟩

/-- A step of learning leaves weights in bounds, whatever the weights were before. -/
theorem bounded_update (works : Bool) (importance : ℚ) (k x : Weights) (checks : ℚ) :
    Bounded (update P works importance k x checks) := fun _ => bounded_clamp _

/-- A count grows by what was seen and stops at its limit. -/
theorem counts_add {n importance : ℚ} (h : Counts n) (hi : 0 < importance) :
    Counts (min (n + importance) 10000000) := by
  have h0 : 0 ≤ n + importance := by linarith [h.1]
  exact ⟨le_min h0 (by norm_num), min_le_right _ _⟩

theorem kind_family (net : String) : kind net = "m" ∨ kind net = "w" := by
  unfold kind
  split
  · exact .inl rfl
  · exact .inr rfl

/-- The weights of a sound model, missing ones included. -/
theorem Sound.bounded_get {b : Brain} (h : Sound b) (k : String) :
    Bounded ((b.w.get? k).getD prior) := by
  cases hk : b.w.get? k with
  | none => exact bounded_prior
  | some v => exact h.weights (k, v) (OrderedMap.mem_of_get? hk)

/-- The count of a family is one that can be there, also when nothing was seen. -/
theorem Sound.counts_get {b : Brain} (h : Sound b) (k : String) :
    Counts ((b.trained.get? k).getD 0) := by
  cases hk : b.trained.get? k with
  | none => exact ⟨le_refl 0, by norm_num⟩
  | some n => exact h.trained (k, n) (OrderedMap.mem_of_get? hk)

/-- Counting a question keeps the brain sound. -/
theorem sound_asked {b : Brain} (h : Sound b) (net : String) : Sound (b.asked net) := by
  unfold asked
  split
  · exact h
  · refine { h with families := ?_, weights := ?_ }
    · exact OrderedMap.forall_put h.families (kind_family net)
    · exact OrderedMap.forall_put h.weights (h.bounded_get (kind net))

/-- Learning keeps the contexts few, named as before, and in range. -/
theorem sound_learnContext {contexts : OrderedMap String LocalModel}
    (hkeys : ∀ e ∈ contexts.entries, isKey e.1 = true)
    (hmodels : ∀ e ∈ contexts.entries, Bounded e.2.weights ∧ Counts e.2.checks)
    (works : Bool) {importance : ℚ} (hi : 0 < importance) (x : Weights) {key : String}
    (hkey : isKey key = true) :
    (learnContext P works importance x key contexts).entries.length ≤ MAX_CONTEXTS ∧
      (∀ e ∈ (learnContext P works importance x key contexts).entries, isKey e.1 = true) ∧
      ∀ e ∈ (learnContext P works importance x key contexts).entries,
        Bounded e.2.weights ∧ Counts e.2.checks := by
  have hchecks : Counts ((contexts.get? key).getD ⟨prior, 0⟩).checks := by
    cases hget : contexts.get? key with
    | none => exact ⟨le_refl 0, by norm_num⟩
    | some m => exact (hmodels (key, m) (OrderedMap.mem_of_get? hget)).2
  have hrest : ∀ e ∈ (contexts.filterKeys fun k => k ≠ key).entries, e ∈ contexts.entries :=
    fun e he => List.mem_of_mem_filter he
  refine ⟨?_, ?_, ?_⟩
  · rw [learnContext, evict, List.length_drop]
    omega
  · intro e he
    exact OrderedMap.forall_put (fun e he => hkeys e (hrest e he)) hkey e (List.mem_of_mem_drop he)
  · intro e he
    -- the one put is the only one the old contexts say nothing about
    have hput : ∀ e ∈ ((contexts.filterKeys fun k => k ≠ key).put key
        { weights := update P works importance ((contexts.get? key).getD ⟨prior, 0⟩).weights x
            ((contexts.get? key).getD ⟨prior, 0⟩).checks
          checks := min (((contexts.get? key).getD ⟨prior, 0⟩).checks + importance) 10000000 }).entries,
        Bounded e.2.weights ∧ Counts e.2.checks := by
      apply OrderedMap.forall_put
      · exact fun e he => hmodels e (hrest e he)
      · exact ⟨bounded_update P works importance _ x _, counts_add hchecks hi⟩
    exact hput e (List.mem_of_mem_drop he)

/-- A byte is printed in lower case digits. -/
theorem digits_hexByte (b : UInt8) : ∀ c ∈ UpdatePolicy.hexByte b, c ∈ "0123456789abcdef".toList := by
  have hall : ∀ n < 16, Nat.digitChar n ∈ "0123456789abcdef".toList := by decide
  have hb := b.toNat_lt
  intro c hc
  obtain rfl | hc := List.mem_cons.mp hc
  · exact hall _ (by omega)
  · rw [List.mem_singleton.mp hc]
    exact hall _ (by omega)

/-- The text of several bytes is the texts of the bytes. -/
theorem toList_hex (bytes : List UInt8) : (hex bytes).toList = bytes.flatMap UpdatePolicy.hexByte := String.toList_ofList

/-- Two digits for every byte. -/
theorem length_toList_hex (bytes : List UInt8) : (hex bytes).toList.length = 2 * bytes.length := by
  have htwo : (bytes.map fun b => (UpdatePolicy.hexByte b).length) = bytes.map fun _ => 2 := List.map_congr_left fun _ _ => rfl
  rw [toList_hex, List.length_flatMap, htwo, List.map_const', List.sum_replicate, smul_eq_mul, Nat.mul_comm]

/-- A fingerprint has no other characters than these digits. -/
theorem digits_hex (bytes : List UInt8) : ∀ c ∈ (hex bytes).toList, c ∈ "0123456789abcdef".toList := by
  rw [toList_hex]
  intro c hc
  obtain ⟨b, -, hb⟩ := List.mem_flatMap.mp hc
  exact digits_hexByte b c hb

/-- A digest has sixty-four code units. -/
theorem length_hex {bytes : List UInt8} (h : bytes.length = 32) : Text.length (hex bytes) = 64 := by
  have hsmall : ("0123456789abcdef".toList.all fun c => c.toNat < 128) = true := by decide
  have hone : ((hex bytes).toList.map fun c => if c.toNat < 0x10000 then 1 else 2) = (hex bytes).toList.map fun _ => 1 := by
    refine List.map_congr_left fun c hc => if_pos ?_
    have hlt := of_decide_eq_true (List.all_eq_true.mp hsmall c (digits_hex bytes c hc))
    omega
  unfold Text.length
  rw [hone, List.map_const', List.sum_replicate, length_toList_hex, h]
  rfl

/-- What names a context passes the check that is made when contexts are read. -/
theorem isKey_fingerprint (salt : String) (fields : List String) : isKey (fingerprint P salt fields) = true := by
  have hlength : (fingerprint P salt fields).toList.length = 16 := by
    unfold fingerprint
    rw [length_toList_hex, List.length_take, P.length_sha256]
    rfl
  rw [isKey, Bool.and_eq_true, decide_eq_true_eq, List.all_eq_true]
  exact ⟨hlength, fun c hc => decide_eq_true (digits_hex _ c hc)⟩

/-- **Learning keeps the brain sound**, whatever was seen and however much it weighs. -/
theorem sound_learn {b : Brain} (h : Sound b) (c c' : Clock) (net : String) (s : Server)
    (st : ServerState) (works : Bool) (weight : Option ℚ) :
    Sound (b.learn P c c' net s st works weight) := by
  unfold learn
  cases weight with
  | none => exact h
  | some weight =>
    dsimp only
    by_cases hw : weight ≤ 0
    · rw [if_pos hw]
      exact h
    · rw [if_neg hw]
      have hi : 0 < min weight 1 := lt_min (not_le.mp hw) one_pos
      have hcontexts := sound_learnContext P h.keys h.models works hi (localFeatures P c' net s st)
        (isKey_fingerprint P "brain-context-v1" [net])
      -- the fields that learning changes, one by one
      constructor
      case families => exact OrderedMap.forall_put h.families (kind_family net)
      case weights =>
        exact OrderedMap.forall_put h.weights (bounded_update P works _ _ (features P c s st) _)
      case counted => exact OrderedMap.forall_put h.counted (kind_family net)
      case trained => exact OrderedMap.forall_put h.trained (counts_add (h.counts_get _) hi)
      case few =>
        dsimp only
        split
        · exact hcontexts.1
        · exact h.few
      case keys =>
        dsimp only
        split
        · exact hcontexts.2.1
        · exact h.keys
      case models =>
        dsimp only
        split
        · exact hcontexts.2.2
        · exact h.models
      case seen =>
        have hseen := h.seen
        dsimp only
        omega
      case sig => exact h.sig

/-! ### Reading keeps what it checked

The reader checks what the invariant says: it refuses a weight out of range, a counter below
zero, a name that is no key and a list that is too long. So an accepted text gives a sound model,
whoever wrote it. -/

/-- A weight that is read is within bounds, else the reader refuses it. -/
theorem weightOf_bounded {v : Json} {q : ℚ} (h : weightOf v = some q) : -8 ≤ q ∧ q ≤ 8 := by
  cases v with
  | int n =>
    rw [weightOf] at h
    split at h
    · exact Option.some.inj h ▸ ‹_›
    · cases h
  | real r =>
    rw [weightOf] at h
    split at h
    · exact Option.some.inj h ▸ ‹_›
    · cases h
  | _ => cases h

theorem vector_bounded {a : Option (List Json)} {k : Weights} (h : vector a = some k) :
    Bounded k := by
  cases a with
  | none => cases h
  | some a =>
    rw [vector, Option.bind_eq_bind, Option.bind_some] at h
    split at h
    · cases h
    · obtain ⟨out, hout, hk⟩ := Option.bind_eq_some_iff.mp h
      have hk := Option.some.inj hk
      have hall := mapM_forall₂ hout
      intro i
      rw [← hk]
      show -8 ≤ out.getD i 0 ∧ out.getD i 0 ≤ 8
      by_cases hi : (i : ℕ) < out.length
      · have hmem : out[(i : ℕ)] ∈ out := List.getElem_mem hi
        obtain ⟨v, -, hv⟩ := mem_of_forall₂ hall hmem
        rw [List.getD_eq_getElem _ _ hi]
        exact weightOf_bounded hv
      · rw [List.getD_eq_default _ _ (Nat.le_of_not_lt hi)]
        norm_num

/-- One family read: what was there before, and its own weights and counter. -/
theorem readFamily_sound {o : JsonObject} {total : ℤ} {k : String} (hk : k = "m" ∨ k = "w")
    {m r : OrderedMap String Weights × OrderedMap String ℚ}
    (hw : ∀ e ∈ m.1.entries, (e.1 = "m" ∨ e.1 = "w") ∧ Bounded e.2)
    (ht : ∀ e ∈ m.2.entries, (e.1 = "m" ∨ e.1 = "w") ∧ Counts e.2)
    (h : readFamily J o total k m = some r) :
    (∀ e ∈ r.1.entries, (e.1 = "m" ∨ e.1 = "w") ∧ Bounded e.2) ∧
      ∀ e ∈ r.2.entries, (e.1 = "m" ∨ e.1 = "w") ∧ Counts e.2 := by
  unfold readFamily at h
  obtain ⟨models, hmodels, h⟩ := Option.bind_eq_some_iff.mp h
  dsimp only at h
  split at h
  · cases h
  · rename_i hn
    rw [not_or, not_lt, not_lt] at hn
    obtain rfl := Option.some.inj h
    refine ⟨?_, OrderedMap.forall_put ht ⟨hk, hn⟩⟩
    unfold readWeights at hmodels
    split at hmodels
    · obtain ⟨v, hv, hput⟩ := Option.map_eq_some_iff.mp hmodels
      rw [← hput]
      exact OrderedMap.forall_put hw ⟨hk, vector_bounded hv⟩
    · rw [← Option.some.inj hmodels]
      exact hw

/-- A context that is read has a key that can be one, and a model within bounds. -/
theorem readContext_sound {found r : OrderedMap String LocalModel} {v : Json}
    (hkeys : ∀ e ∈ found.entries, isKey e.1 = true)
    (hmodels : ∀ e ∈ found.entries, Bounded e.2.weights ∧ Counts e.2.checks)
    (h : readContext J found v = some r) :
    (∀ e ∈ r.entries, isKey e.1 = true) ∧
      (∀ e ∈ r.entries, Bounded e.2.weights ∧ Counts e.2.checks) ∧
      r.entries.length = found.entries.length + 1 := by
  unfold readContext at h
  obtain ⟨item, -, h⟩ := Option.bind_eq_some_iff.mp h
  dsimp only at h
  split at h
  · cases h
  · rename_i hvalid
    simp only [not_or, not_not, Bool.not_eq_false, Bool.not_eq_true] at hvalid
    obtain ⟨hkey, hnew, hn⟩ := hvalid
    obtain ⟨weights, hweights, h⟩ := Option.bind_eq_some_iff.mp h
    obtain rfl := Option.some.inj h
    refine ⟨OrderedMap.forall_put hkeys hkey, ?_, OrderedMap.length_put hnew _⟩
    exact OrderedMap.forall_put (p := fun e : String × LocalModel =>
      Bounded e.2.weights ∧ Counts e.2.checks) hmodels
      ⟨vector_bounded hweights, hn⟩

/-- The contexts of a list, one after the other. -/
theorem readContexts_sound {list : List Json} : ∀ {found r : OrderedMap String LocalModel},
    (∀ e ∈ found.entries, isKey e.1 = true) →
    (∀ e ∈ found.entries, Bounded e.2.weights ∧ Counts e.2.checks) →
    list.foldlM (readContext J) found = some r →
    (∀ e ∈ r.entries, isKey e.1 = true) ∧
      (∀ e ∈ r.entries, Bounded e.2.weights ∧ Counts e.2.checks) ∧
      r.entries.length = found.entries.length + list.length := by
  induction list with
  | nil =>
    intro found r hkeys hmodels h
    obtain rfl := Option.some.inj h
    exact ⟨hkeys, hmodels, rfl⟩
  | cons v list ih =>
    intro found r hkeys hmodels h
    rw [List.foldlM_cons] at h
    obtain ⟨found', hstep, hrest⟩ := Option.bind_eq_some_iff.mp h
    obtain ⟨hkeys', hmodels', hlen⟩ := readContext_sound J hkeys hmodels hstep
    obtain ⟨hk, hm, hl⟩ := ih hkeys' hmodels' hrest
    refine ⟨hk, hm, ?_⟩
    rw [hl, hlen, List.length_cons]
    omega

/-- **What is read from a backup is sound, or nothing is read.** -/
theorem sound_read {text : String} {b : Brain} (h : read J text = some b) : Sound b := by
  unfold read at h
  split at h
  · cases h
  · obtain ⟨o, -, h⟩ := Option.bind_eq_some_iff.mp h
    obtain ⟨⟨w₁, t₁⟩, h₁, h⟩ := Option.bind_eq_some_iff.mp h
    obtain ⟨⟨w₂, t₂⟩, h₂, h⟩ := Option.bind_eq_some_iff.mp h
    obtain ⟨found, hfound, h⟩ := Option.bind_eq_some_iff.mp h
    -- the two families are read one after the other, and the second keeps what the first left
    have hm := readFamily_sound J (.inl rfl) (fun e he => by cases he) (fun e he => by cases he) h₁
    have hw := readFamily_sound J (.inr rfl) hm.1 hm.2 h₂
    -- a list of contexts is read only up to its limit
    have hcontexts : (∀ e ∈ found.entries, isKey e.1 = true) ∧
        (∀ e ∈ found.entries, Bounded e.2.weights ∧ Counts e.2.checks) ∧
        found.entries.length ≤ MAX_CONTEXTS := by
      unfold readContexts at hfound
      split at hfound
      · obtain rfl := Option.some.inj hfound
        exact ⟨fun e he => (by cases he), fun e he => (by cases he), Nat.zero_le _⟩
      · split at hfound
        · cases hfound
        · rename_i list hlen
          obtain ⟨hk, hmod, hl⟩ := readContexts_sound J (fun e he => by cases he)
            (fun e he => by cases he) hfound
          have h0 : (OrderedMap.empty : OrderedMap String LocalModel).entries.length = 0 := rfl
          exact ⟨hk, hmod, by omega⟩
    obtain rfl := Option.some.inj h
    refine ⟨fun e he => (hw.1 e he).1, fun e he => (hw.1 e he).2, fun e he => (hw.2 e he).1,
      fun e he => (hw.2 e he).2, hcontexts.2.2, hcontexts.1, hcontexts.2.1, ?_, ?_⟩
    · dsimp only
      omega
    · exact Text.length_take 64 _

/-! ### Blending stays between the two models

The mixture of two weights lies between them, whatever the share. That the share itself lies
between zero and one is what has to be shown of `alpha`, with the rounding of its quotient. -/

/-- How far the crowd may pull lies between nothing and all. -/
theorem alpha_range {b : Brain} (k : String) {phones : Int32} (hp : ¬ phones < 1) :
    0 ≤ b.alpha k phones ∧ b.alpha k phones ≤ 1 := by
  have hone : (1 : ℤ) ≤ phones.toInt := by
    have := Int32.le_iff_toInt_le.mp (Int32.not_lt.mp hp)
    exact this
  have hpos : (1 : ℚ) ≤ phones.toInt := by exact_mod_cast hone
  have hden : (0 : ℚ) < phones.toInt + 20 := by linarith
  have hshare : 0 ≤ 1 / 5 * (phones.toInt : ℚ) / (phones.toInt + 20) ∧
      1 / 5 * (phones.toInt : ℚ) / (phones.toInt + 20) ≤ 1 := by
    refine ⟨by positivity, ?_⟩
    rw [div_le_one hden]
    linarith
  unfold alpha
  split
  · constructor <;> linarith [hshare.1, hshare.2]
  · rw [mul_one]
    exact hshare

/-- A mixture of two bounded vectors is bounded. -/
theorem bounded_mix {k c : Weights} (hk : Bounded k) (hc : Bounded c) {a : ℚ} (h0 : 0 ≤ a)
    (h1 : a ≤ 1) : Bounded fun i => (1 - a) * k i + a * c i := by
  intro i
  have h1' : 0 ≤ 1 - a := by linarith
  constructor
  · nlinarith [mul_le_mul_of_nonneg_left (hk i).1 h1', mul_le_mul_of_nonneg_left (hc i).1 h0]
  · nlinarith [mul_le_mul_of_nonneg_left (hk i).2 h1', mul_le_mul_of_nonneg_left (hc i).2 h0]

/-- Between two weights within bounds every mixture is within bounds. -/
theorem sound_nudges {b : Brain} (h : Sound b) {phones : Int32} (hp : ¬ phones < 1)
    {models : List (String × Weights)} : ∀ {w : OrderedMap String Weights},
    (∀ e ∈ models, (e.1 = "m" ∨ e.1 = "w") ∧ Bounded e.2) →
    (∀ e ∈ w.entries, (e.1 = "m" ∨ e.1 = "w") ∧ Bounded e.2) →
    ∀ e ∈ (models.foldl (b.nudge phones) w).entries, (e.1 = "m" ∨ e.1 = "w") ∧ Bounded e.2 := by
  induction models with
  | nil =>
    intro w _ hw
    exact hw
  | cons e models ih =>
    intro w hmodels hw
    rw [List.foldl_cons]
    apply ih fun e' he' => hmodels e' (List.mem_cons_of_mem _ he')
    obtain ⟨hk, hc⟩ := hmodels e (List.mem_cons_self ..)
    have ha := alpha_range (b := b) e.1 hp
    exact OrderedMap.forall_put hw ⟨hk, bounded_mix (h.bounded_get e.1) hc ha.1 ha.2⟩

/-- Blending with what the crowd has learned keeps the brain sound. -/
theorem sound_blend {b : Brain} (h : Sound b) (o : JsonObject) (phones : Int32) :
    Sound (b.blend P o phones) := by
  unfold blend
  split
  · exact h
  · rename_i hp
    dsimp only
    split
    · exact h
    · split
      · exact h
      · have hmodels : ∀ e ∈ ["m", "w"].filterMap fun k =>
            (vector (o.optJSONArray k)).map fun v => (k, v),
            (e.1 = "m" ∨ e.1 = "w") ∧ Bounded e.2 := by
          intro e he
          obtain ⟨k, hk, hmap⟩ := List.mem_filterMap.mp he
          obtain ⟨v, hv, rfl⟩ := Option.map_eq_some_iff.mp hmap
          refine ⟨?_, vector_bounded hv⟩
          rw [List.mem_cons, List.mem_singleton] at hk
          exact hk
        have hall := sound_nudges h hp hmodels fun e he => ⟨h.families e he, h.weights e he⟩
        exact { h with
          families := fun e he => (hall e he).1
          weights := fun e he => (hall e he).2
          sig := (length_hex (P.length_sha256 _)).le }

/-! ### Steps and runs

Each call keeps the model sound, and so does a run of them, by induction on its length. -/

theorem sound_step {b : Brain} (h : Sound b) (op : Op) : Sound (step P J b op) := by
  cases op with
  | ask net => exact sound_asked h net
  | learn c c' net s st works weight => exact sound_learn P h c c' net s st works weight
  | blend o phones => exact sound_blend P h o phones
  | restore text =>
    rw [step, restore]
    split
    · exact sound_read J ‹_›
    · exact h
  | clear => exact sound_empty

theorem sound_runFrom {b : Brain} (h : Sound b) (ops : List Op) : Sound (runFrom P J b ops) := by
  induction ops generalizing b with
  | nil => exact h
  | cons op ops ih => exact ih (sound_step P J h op)

/-! ## A snapshot is read back

A sound model is printed and read back member by member. The reader is given exactly what the
printer wrote, so every one of its checks is met by the part of the invariant that says the same. -/

/-- A weight within bounds is read back as it was written. -/
theorem weightOf_printed {q : ℚ} (h : -8 ≤ q ∧ q ≤ 8) : weightOf (Json.printed (.real q)) = some q := by
  rw [Json.printed]
  by_cases hden : q.den = 1
  · have hnum : (q.num : ℚ) = q := Rat.den_eq_one_iff q |>.mp hden
    rw [if_pos hden, weightOf, hnum, if_pos h]
  · rw [if_neg hden, weightOf, if_pos h]

/-- A number that was printed is read as a number. -/
theorem asNumber_printed (q : ℚ) : Json.asNumber J (Json.printed (.real q)) = some q := by
  rw [Json.printed]
  by_cases hden : q.den = 1
  · have hnum : (q.num : ℚ) = q := Rat.den_eq_one_iff q |>.mp hden
    rw [if_pos hden, Json.asNumber, hnum]
  · rw [if_neg hden, Json.asNumber]

/-- A vector of weights within bounds is read back. -/
theorem vector_printed {k : Weights} (h : Bounded k) :
    vector (Json.asArray (Json.printed (weightsJson k))) = some k := by
  have hmap : ((List.ofFn fun i => Json.real (k i)).map Json.printed).mapM weightOf
      = some (List.ofFn k) := by
    rw [List.map_ofFn]
    apply mapM_ofFn
    intro i
    exact weightOf_printed (h i)
  rw [weightsJson, Json.printed, Json.printedList_eq, Json.asArray, vector, Option.bind_eq_bind,
    Option.bind_some, if_neg (by rw [List.length_map, List.length_ofFn]; exact not_not.mpr rfl), hmap]
  refine congrArg some (funext fun i => ?_)
  rw [List.getD_eq_getElem _ _ (by rw [List.length_ofFn]; exact i.isLt), List.getElem_ofFn]

/-- One context of a sound model is read back. -/
theorem readContext_printed {found : OrderedMap String LocalModel} {e : String × LocalModel}
    (hkey : isKey e.1 = true) (hnew : found.contains e.1 = false) (hw : Bounded e.2.weights)
    (hn : Counts e.2.checks) :
    readContext J found (Json.printed (contextJson e)) = some (found.put e.1 e.2) := by
  have hobj : Json.asObject (Json.printed (contextJson e)) = some (Json.printedObject
      (JsonObject.empty |>.put "key" (.str e.1) |>.put "n" (.real e.2.checks)
        |>.put "w" (weightsJson e.2.weights))) := by
    rw [contextJson, Json.printed, Json.asObject]
  have hget (k : String) : JsonObject.get? (Json.printedObject
      (JsonObject.empty |>.put "key" (.str e.1) |>.put "n" (.real e.2.checks)
        |>.put "w" (weightsJson e.2.weights))) k = (JsonObject.get? (JsonObject.empty
        |>.put "key" (.str e.1) |>.put "n" (.real e.2.checks)
        |>.put "w" (weightsJson e.2.weights)) k).map Json.printed := Json.get?_printedObject _ k
  have hstr : Json.printed (.str e.1) = .str e.1 := by rw [Json.printed] <;> simp
  simp only [readContext, hobj, Option.bind_eq_bind, Option.bind_some, JsonObject.optString,
    JsonObject.optDouble, JsonObject.optJSONArray, hget, JsonObject.get?_put, String.reduceEq,
    if_true, if_false, Option.map_some, hstr, Json.asString_str, Option.getD_some, asNumber_printed,
    vector_printed hw]
  rw [if_neg]
  · rfl
  · rintro (h | h | h)
    · rw [hkey] at h
      cases h
    · rw [hnew] at h
      cases h
    · exact h hn

/-- The contexts are read back in their order. -/
theorem readContexts_printed {es : List (String × LocalModel)} :
    ∀ found : OrderedMap String LocalModel, (found.keys ++ es.map Prod.fst).Nodup →
      (∀ e ∈ es, isKey e.1 = true) → (∀ e ∈ es, Bounded e.2.weights ∧ Counts e.2.checks) →
      ∃ m, (es.map fun e => Json.printed (contextJson e)).foldlM (readContext J) found = some m ∧
        m.entries = found.entries ++ es := by
  induction es with
  | nil =>
    intro found _ _ _
    exact ⟨found, rfl, (List.append_nil _).symm⟩
  | cons e es ih =>
    intro found hnodup hkeys hmodels
    have hnew : found.contains e.1 = false := by
      rw [Bool.eq_false_iff, ne_eq, found.contains_iff]
      intro hmem
      exact (List.nodup_append.mp hnodup).2.2 e.1 hmem e.1 (List.mem_cons_self ..) rfl
    have hput : (found.put e.1 e.2).entries = found.entries ++ [e] := OrderedMap.entries_put hnew e.2
    have hnodup' : ((found.put e.1 e.2).keys ++ es.map Prod.fst).Nodup := by
      rw [OrderedMap.keys, hput, List.map_append, List.append_assoc]
      exact hnodup
    obtain ⟨m, hm, hentries⟩ := ih _ hnodup' (fun e' he' => hkeys e' (List.mem_cons_of_mem _ he'))
      (fun e' he' => hmodels e' (List.mem_cons_of_mem _ he'))
    obtain ⟨hw, hn⟩ := hmodels e (List.mem_cons_self ..)
    refine ⟨m, ?_, ?_⟩
    · rw [List.map_cons, List.foldlM_cons, readContext_printed J (hkeys e (List.mem_cons_self ..))
        hnew hw hn]
      exact hm
    · rw [hentries, hput, List.append_assoc]
      rfl

/-- The members of a snapshot besides the weights of the families. -/
def header (b : Brain) : JsonObject :=
  JsonObject.empty |>.put "seen" (.int b.seen) |>.put "trained" (.obj (b.trained.toJson .real))
    |>.put "cloudSig" (.str b.cloudSig)
    |>.put "contexts" (.arr (b.contexts.entries.map contextJson))

/-- What a snapshot has under a key: the weights of a family, or a field of the header. -/
theorem get?_toJson (b : Brain) (k : String) :
    Assoc.get? b.toJson k = ((b.w.get? k).map weightsJson).or (Assoc.get? b.header k) := by
  have hnodup : (Assoc.keys (b.w.entries.map fun e => (e.1, weightsJson e.2))).Nodup := by
    rw [Assoc.keys, List.map_map]
    exact b.w.nodup
  have hput := Assoc.get?_putAll hnodup b.header k
  rw [Assoc.get?_map_value] at hput
  exact hput

/-- A table of the two families says nothing of another name. -/
theorem get?_other {α : Type} {m : OrderedMap String α} (h : ∀ e ∈ m.entries, e.1 = "m" ∨ e.1 = "w")
    {k : String} (hm : "m" ≠ k) (hw : "w" ≠ k) : m.get? k = none := by
  by_contra hsome
  obtain ⟨v, hv⟩ := Option.ne_none_iff_exists'.mp hsome
  rcases h (k, v) (OrderedMap.mem_of_get? hv) with hk | hk
  · exact hm hk.symm
  · exact hw hk.symm

/-- No family is called like a member of the header. -/
theorem Sound.get?_header {b : Brain} (h : Sound b) {k : String} (hm : "m" ≠ k) (hw : "w" ≠ k) :
    Assoc.get? b.toJson k = Assoc.get? b.header k := by
  rw [get?_toJson, get?_other h.families hm hw]
  rfl

/-- The weights of a family under its own name. -/
theorem get?_family (b : Brain) {k : String} (hk : k = "m" ∨ k = "w") :
    Assoc.get? b.toJson k = (b.w.get? k).map weightsJson := by
  have hnone : JsonObject.get? b.header k = none := by
    rcases hk with rfl | rfl
    · simp only [header, JsonObject.get?_put, String.reduceEq, if_false, JsonObject.get?_empty]
    · simp only [header, JsonObject.get?_put, String.reduceEq, if_false, JsonObject.get?_empty]
  have hnone' : Assoc.get? b.header k = none := hnone
  rw [get?_toJson, hnone', Option.or_none]

/-- What a printed snapshot holds, member by member. -/
structure Reads (b : Brain) (o : JsonObject) : Prop where
  family : ∀ k, k = "m" ∨ k = "w" →
    o.get? k = ((b.w.get? k).map weightsJson).map Json.printed
  seen : o.get? "seen" = some (.int b.seen)
  trained : o.get? "trained" = some (.obj (Json.printedObject (b.trained.toJson .real)))
  cloudSig : o.get? "cloudSig" = some (.str b.cloudSig)
  contexts : o.get? "contexts" =
    some (.arr (b.contexts.entries.map fun e => Json.printed (contextJson e)))

/-- A snapshot of a sound brain passes all checks of the reader. -/
theorem Sound.reads {b : Brain} (h : Sound b) {o : JsonObject}
    (ho : ∀ k, Assoc.get? o k = (Assoc.get? b.toJson k).map Json.printed) : Reads b o := by
  have hheader {k : String} {v : Json} (hm : "m" ≠ k) (hw : "w" ≠ k)
      (hv : JsonObject.get? b.header k = some v) : o.get? k = some (Json.printed v) := by
    have := ho k
    rw [h.get?_header hm hw] at this
    exact this.trans (congrArg (Option.map Json.printed) hv)
  -- the four fields of the header
  constructor
  case family =>
    intro k hk
    rw [← get?_family b hk]
    exact ho k
  case seen =>
    have hv : JsonObject.get? b.header "seen" = some (.int b.seen) := by
      simp only [header, JsonObject.get?_put, String.reduceEq, if_true, if_false]
    rw [hheader (by decide) (by decide) hv, Json.printed] <;> simp
  case trained =>
    have hv : JsonObject.get? b.header "trained" = some (.obj (b.trained.toJson .real)) := by
      simp only [header, JsonObject.get?_put, String.reduceEq, if_true, if_false]
    rw [hheader (by decide) (by decide) hv, Json.printed]
  case cloudSig =>
    have hv : JsonObject.get? b.header "cloudSig" = some (.str b.cloudSig) := by
      simp only [header, JsonObject.get?_put, String.reduceEq, if_true, if_false]
    rw [hheader (by decide) (by decide) hv, Json.printed] <;> simp
  case contexts =>
    have hv : JsonObject.get? b.header "contexts" =
        some (.arr (b.contexts.entries.map contextJson)) := by
      simp only [header, JsonObject.get?_put, if_true]
    rw [hheader (by decide) (by decide) hv, Json.printed, Json.printedList_eq, List.map_map]
    rfl

/-- The weights of a family, where there are any. -/
def putSome (m : OrderedMap String Weights) (k : String) (v : Option Weights) :
    OrderedMap String Weights :=
  match v with
  | some v => m.put k v
  | none => m

/-- A family whose weights are not there is not put. -/
theorem get?_putSome (m : OrderedMap String Weights) (k : String) (v : Option Weights) (k' : String) :
    (putSome m k v).get? k' = if k = k' then v.or (m.get? k') else m.get? k' := by
  cases v with
  | none => rw [putSome, Option.none_or, ite_self]
  | some v => rw [putSome, OrderedMap.get?_put, Option.some_or]

/-- The weights of a family are read back, and its counter, zero where it has none. -/
theorem readFamily_printed {b : Brain} (h : Sound b) {o : JsonObject} (ho : Reads b o) (total : ℤ)
    {k : String} (hk : k = "m" ∨ k = "w") (m : OrderedMap String Weights × OrderedMap String ℚ) :
    readFamily J o total k m = some
      (putSome m.1 k (b.w.get? k), m.2.put k ((b.trained.get? k).getD 0)) := by
  -- the weights are there or not, and so is the count
  have hweights : readWeights o k m.1 = some (putSome m.1 k (b.w.get? k)) := by
    rw [readWeights, JsonObject.has, JsonObject.optJSONArray, ho.family k hk]
    cases hget : b.w.get? k with
    | none => rfl
    | some v =>
      have hv : Bounded v := h.weights (k, v) (OrderedMap.mem_of_get? hget)
      simp only [Option.map_some, Option.isSome_some, if_true, Option.bind_some, vector_printed hv,
        putSome]
  have hcount : ((o.optJSONObject "trained").map fun t => t.optDouble J k 0).getD (total : ℚ)
      = (b.trained.get? k).getD 0 := by
    rw [JsonObject.optJSONObject, ho.trained, Option.bind_some, Json.asObject_obj, Option.map_some,
      Option.getD_some, JsonObject.optDouble, JsonObject.get?, Json.get?_printedObject,
      OrderedMap.toJson_eq, Assoc.get?_map_value]
    cases hget : b.trained.get? k with
    | none =>
      rw [OrderedMap.get?] at hget
      rw [hget]
      rfl
    | some n =>
      rw [OrderedMap.get?] at hget
      rw [hget, Option.map_some, Option.map_some, Option.bind_some, asNumber_printed]
  -- what is there is within the range that the reader asks for
  have hrange : ¬ ((b.trained.get? k).getD 0 < 0 ∨ 10000000 < (b.trained.get? k).getD 0) := by
    have hc := h.counts_get k
    rw [not_or, not_lt, not_lt]
    exact hc
  rw [readFamily, hweights, Option.bind_eq_bind, Option.bind_some, hcount]
  dsimp only
  rw [if_neg hrange]
  rfl

/-! ## A snapshot is short enough

A text longer than the limit is refused before it is parsed. The weights are printed with as many
digits as a double needs, so the length of a snapshot is bounded by counting them. -/

/-- Entries of the two families are two at most. -/
theorem length_families {α : Type} {m : OrderedMap String α}
    (h : ∀ e ∈ m.entries, e.1 = "m" ∨ e.1 = "w") : m.entries.length ≤ 2 := by
  have hsub : m.entries.map Prod.fst ⊆ ["m", "w"] := by
    intro k hk
    obtain ⟨e, he, rfl⟩ := List.mem_map.mp hk
    rw [List.mem_cons, List.mem_singleton]
    exact h e he
  have hlen := (m.nodup.subperm hsub).length_le
  rwa [List.length_map] at hlen

/-- The weights take a bounded number of characters, however they are printed. -/
theorem room_weightsJson (k : Weights) : Json.room (weightsJson k) ≤ 380 := by
  have hlist : Json.roomList (List.ofFn fun i => Json.real (k i)) ≤
      (List.ofFn fun i => Json.real (k i)).length * 27 := by
    apply Json.roomList_le
    intro v hv
    obtain ⟨i, rfl⟩ := List.mem_ofFn.mp hv
    rw [Json.room]
  have hlen : (List.ofFn fun i => Json.real (k i)).length = 14 := List.length_ofFn
  rw [hlen] at hlist
  rw [weightsJson, Json.room]
  omega

/-- The name of a family is one character. -/
theorem length_family {k : String} (h : k = "m" ∨ k = "w") : Text.length k = 1 := by
  rcases h with rfl | rfl
  · rfl
  · rfl

/-- A key of sixteen digits has at most 32 code units. -/
theorem length_isKey {k : String} (h : isKey k = true) : Text.length k ≤ 32 := by
  rw [isKey, Bool.and_eq_true, decide_eq_true_eq] at h
  have hsum : Text.length k ≤ (k.toList.map fun _ => 2).sum := by
    apply List.sum_le_sum
    intro c _
    split <;> omega
  rw [List.map_const', List.sum_replicate, h.1] at hsum
  exact hsum

/-- A context takes a bounded number of characters as well. -/
theorem room_contextJson {e : String × LocalModel} (h : isKey e.1 = true) :
    Json.room (contextJson e) ≤ 700 := by
  have hkey := length_isKey h
  have hw := room_weightsJson e.2.weights
  have h1 := Json.roomObject_put JsonObject.empty "key" (.str e.1)
  have h2 := Json.roomObject_put (JsonObject.empty.put "key" (.str e.1)) "n" (.real e.2.checks)
  have h3 := Json.roomObject_put ((JsonObject.empty.put "key" (.str e.1)).put "n"
    (.real e.2.checks)) "w" (weightsJson e.2.weights)
  have l1 : Text.length "key" = 3 := rfl
  have l2 : Text.length "n" = 1 := rfl
  have l3 : Text.length "w" = 1 := rfl
  have h0 : Json.roomObject JsonObject.empty = 0 := by rw [JsonObject.empty, Json.roomObject]
  rw [Json.room, l1, h0] at h1
  rw [Json.room, l2] at h2
  rw [l3] at h3
  rw [contextJson, Json.room]
  simp only [JsonObject.put] at h1 h2 h3 ⊢
  omega

/-- The snapshot of a sound model is far from the limit of `restore`. -/
theorem Sound.room_toJson {b : Brain} (h : Sound b) : Json.room (.obj b.toJson) ≤ 64000 := by
  have hw : Json.roomObject (b.w.entries.map fun e => (e.1, weightsJson e.2)) ≤ 2 * 390 := by
    have hle : Json.roomObject (b.w.entries.map fun e => (e.1, weightsJson e.2)) ≤
        (b.w.entries.map fun e => (e.1, weightsJson e.2)).length * 390 := by
      apply Json.roomObject_le
      intro e he
      obtain ⟨e', he', rfl⟩ := List.mem_map.mp he
      have := room_weightsJson e'.2
      dsimp only
      rw [length_family (h.families e' he')]
      omega
    rw [List.length_map] at hle
    exact hle.trans (Nat.mul_le_mul_right _ (length_families h.families))
  have ht : Json.roomObject (b.trained.toJson .real) ≤ 2 * 36 := by
    have hle : Json.roomObject (b.trained.toJson .real) ≤ (b.trained.toJson .real).length * 36 := by
      apply Json.roomObject_le
      intro e he
      rw [OrderedMap.toJson_eq] at he
      obtain ⟨e', he', rfl⟩ := List.mem_map.mp he
      dsimp only
      rw [length_family (h.counted e' he'), Json.room]
    rw [OrderedMap.toJson_eq, List.length_map] at hle
    rw [OrderedMap.toJson_eq]
    exact hle.trans (Nat.mul_le_mul_right _ (length_families h.counted))
  have hc : Json.roomList (b.contexts.entries.map contextJson) ≤ 24 * 701 := by
    have hle : Json.roomList (b.contexts.entries.map contextJson) ≤
        (b.contexts.entries.map contextJson).length * 701 := by
      apply Json.roomList_le
      intro v hv
      obtain ⟨e, he, rfl⟩ := List.mem_map.mp hv
      have := room_contextJson (h.keys e he)
      omega
    rw [List.length_map] at hle
    exact hle.trans (Nat.mul_le_mul_right _ h.few)
  have hsig := h.sig
  have hall := Json.roomObject_putAll (b.w.entries.map fun e => (e.1, weightsJson e.2)) b.header
  -- the header, member by member
  have h1 := Json.roomObject_put JsonObject.empty "seen" (.int b.seen)
  have h2 := Json.roomObject_put (JsonObject.empty.put "seen" (.int b.seen)) "trained"
    (.obj (b.trained.toJson .real))
  have h3 := Json.roomObject_put ((JsonObject.empty.put "seen" (.int b.seen)).put "trained"
    (.obj (b.trained.toJson .real))) "cloudSig" (.str b.cloudSig)
  have h4 := Json.roomObject_put (((JsonObject.empty.put "seen" (.int b.seen)).put "trained"
    (.obj (b.trained.toJson .real))).put "cloudSig" (.str b.cloudSig)) "contexts"
    (.arr (b.contexts.entries.map contextJson))
  have l1 : Text.length "seen" = 4 := rfl
  have l2 : Text.length "trained" = 7 := rfl
  have l3 : Text.length "cloudSig" = 8 := rfl
  have l4 : Text.length "contexts" = 8 := rfl
  have h0 : Json.roomObject JsonObject.empty = 0 := by rw [JsonObject.empty, Json.roomObject]
  rw [Json.room, l1, h0] at h1
  rw [Json.room, l2] at h2
  rw [Json.room, l3] at h3
  rw [Json.room, l4] at h4
  rw [toJson, Json.room]
  rw [header] at hall
  simp only [JsonObject.put] at h1 h2 h3 h4 hall ⊢
  omega

/-! ## Models that behave alike

A weight vector that was never asked for is missing, and one that was asked for and never trained
is there with the values of the prior. No call tells the two apart, so the round trip is stated
up to this difference. -/

/-- Two models no later call can tell apart: a family that was never trained counts as
trained zero times. -/
structure Alike (a b : Brain) : Prop where
  w : ∀ k, a.w.get? k = b.w.get? k
  trained : ∀ k, (a.trained.get? k).getD 0 = (b.trained.get? k).getD 0
  contexts : a.contexts = b.contexts
  seen : a.seen = b.seen
  cloudSig : a.cloudSig = b.cloudSig

/-- The rates at which the next observation in a network would be learned. -/
def rates (b : Brain) (net : String) : ℚ × ℚ :=
  (learningRate P ((b.trained.get? (kind net)).getD 0),
    learningRate P (((b.contexts.get? (contextKey P net)).map LocalModel.checks).getD 0))

/-- Brains that are alike judge every server alike. -/
theorem Alike.p_eq {a b : Brain} (h : Alike a b) (c : Clock) (net : String) (s : Server)
    (st : ServerState) : a.p P c net s st = b.p P c net s st := by
  rw [p, p, used, used, weights, weights, h.contexts, h.w]

theorem Alike.rates_eq {a b : Brain} (h : Alike a b) (net : String) :
    a.rates P net = b.rates P net := by
  rw [rates, rates, h.trained, h.contexts]

/-- Writing the same value under the same key keeps two maps alike. -/
theorem get?_put_congr {α : Type} {m n : OrderedMap String α} (h : ∀ k, m.get? k = n.get? k)
    (k' : String) {v v' : α} (hv : v = v') (k : String) : (m.put k' v).get? k = (n.put k' v').get? k := by
  rw [OrderedMap.get?_put, OrderedMap.get?_put, h, hv]

/-- A question that is counted in both leaves them alike. -/
theorem Alike.asked {a b : Brain} (h : Alike a b) (net : String) :
    Alike (a.asked net) (b.asked net) := by
  unfold Brain.asked
  split
  · exact h
  · refine { h with w := get?_put_congr h.w _ ?_ }
    rw [Brain.weights, Brain.weights, h.w]

theorem Alike.learn {a b : Brain} (h : Alike a b) (c c' : Clock) (net : String) (s : Server)
    (st : ServerState) (works : Bool) (weight : Option ℚ) :
    Alike (a.learn P c c' net s st works weight) (b.learn P c c' net s st works weight) := by
  unfold Brain.learn
  cases weight with
  | none => exact h
  | some weight =>
    dsimp only
    split
    · exact h
    · constructor
      case w =>
        apply get?_put_congr h.w
        rw [Brain.weights, Brain.weights, h.w, h.trained]
      case trained =>
        intro k
        dsimp only
        rw [OrderedMap.get?_put, OrderedMap.get?_put, h.trained]
        split
        · rfl
        · exact h.trained k
      case contexts =>
        dsimp only
        rw [h.contexts]
      case seen =>
        dsimp only
        rw [h.seen]
      case cloudSig => exact h.cloudSig

theorem nudges_alike {a b : Brain} (h : Alike a b) (phones : Int32)
    {models : List (String × Weights)} : ∀ {m n : OrderedMap String Weights},
    (∀ k, m.get? k = n.get? k) → ∀ k,
      (models.foldl (a.nudge phones) m).get? k = (models.foldl (b.nudge phones) n).get? k := by
  induction models with
  | nil =>
    intro m n hmn
    exact hmn
  | cons e models ih =>
    intro m n hmn
    rw [List.foldl_cons, List.foldl_cons]
    apply ih
    apply get?_put_congr hmn
    rw [alpha, alpha, h.trained, h.w]

theorem Alike.blend {a b : Brain} (h : Alike a b) (o : JsonObject) (phones : Int32) :
    Alike (a.blend P o phones) (b.blend P o phones) := by
  unfold Brain.blend
  split
  · exact h
  · dsimp only
    split
    · exact h
    · rw [h.cloudSig]
      split
      · exact h
      · exact { h with w := nudges_alike h phones h.w, cloudSig := rfl }

/-- Each operation keeps two brains alike. -/
theorem Alike.step {a b : Brain} (h : Alike a b) (op : Op) :
    Alike (step P J a op) (step P J b op) := by
  cases op with
  | ask net => exact h.asked net
  | learn c c' net s st works weight => exact h.learn P c c' net s st works weight
  | blend o phones => exact h.blend P o phones
  | restore text =>
    rw [Brain.step, Brain.step, restore, restore]
    cases read J text with
    | none => exact h
    | some b' => exact ⟨fun _ => rfl, fun _ => rfl, rfl, rfl, rfl⟩
  | clear => exact ⟨fun _ => rfl, fun _ => rfl, rfl, rfl, rfl⟩

theorem Alike.runFrom {a b : Brain} (h : Alike a b) (ops : List Op) :
    Alike (runFrom P J a ops) (runFrom P J b ops) := by
  induction ops generalizing a b with
  | nil => exact h
  | cons op ops ih => exact ih (h.step P J op)

/-- A snapshot of a sound model is accepted, and what it gives behaves like the model. -/
theorem read_snapshot {b : Brain} (h : Sound b) (hj : Json.Printed J b.toJson) :
    ∃ b', read J (b.snapshot J) = some b' ∧ Alike b' b := by
  obtain ⟨o, hparse, hget⟩ := hj.reads
  have ho := h.reads hget
  -- the snapshot is short enough to be read at all
  have hlen : ¬ 64000 < Text.length (b.snapshot J) := by
    have := hj.short.trans h.room_toJson
    exact not_lt.mpr this
  -- each field of the header passes its check
  have hseen : max 0 (min (o.optLong J "seen" 0).toInt 10000000) = b.seen := by
    have hs := h.seen
    rw [JsonObject.optLong, ho.seen, Option.bind_some, Json.asLong_int, Option.getD_some,
      Int64.toInt_ofInt_of_le (by omega) (by omega)]
    omega
  have hsig : Text.take 64 (o.optString J "cloudSig" "") = b.cloudSig := by
    rw [JsonObject.optString, ho.cloudSig, Option.map_some, Json.asString_str, Option.getD_some,
      Text.take_of_length_le h.sig]
  have hcontexts : readContexts J (o.optJSONArray "contexts") = some b.contexts := by
    obtain ⟨m, hm, hentries⟩ := readContexts_printed J .empty b.contexts.nodup h.keys h.models
    rw [JsonObject.optJSONArray, ho.contexts, Option.bind_some, Json.asArray_arr, readContexts,
      if_neg (by rw [List.length_map]; exact not_lt.mpr h.few), hm]
    exact congrArg some (OrderedMap.ext_entries hentries)
  let m₁ := putSome .empty "m" (b.w.get? "m")
  let t₁ := OrderedMap.empty.put "m" ((b.trained.get? "m").getD 0)
  refine ⟨{ w := putSome m₁ "w" (b.w.get? "w"), trained := t₁.put "w" ((b.trained.get? "w").getD 0)
            contexts := b.contexts, seen := b.seen, cloudSig := b.cloudSig, dirty := true }, ?_, ?_⟩
  -- then the two families, in the order of the reader
  · have hm := readFamily_printed J h ho b.seen (.inl rfl) (.empty, .empty)
    have hw := readFamily_printed J h ho b.seen (.inr rfl) (m₁, t₁)
    rw [read, if_neg hlen, snapshot, hparse, Option.bind_eq_bind, Option.bind_some]
    simp only [hseen, hm, hw, hcontexts, hsig, Option.bind_eq_bind, Option.bind_some, Option.pure_def,
      m₁, t₁]
  -- family by family, for the weights as for the counts
  · constructor
    case w =>
      intro k
      rw [get?_putSome, get?_putSome]
      by_cases hw : "w" = k
      · rw [if_pos hw, ← hw, if_neg (by decide)]
        exact Option.or_none
      · rw [if_neg hw]
        by_cases hm : "m" = k
        · rw [if_pos hm, ← hm]
          exact Option.or_none
        · rw [if_neg hm]
          exact (get?_other h.families hm hw).symm
    case trained =>
      intro k
      dsimp only
      rw [OrderedMap.get?_put, OrderedMap.get?_put]
      by_cases hw : "w" = k
      · rw [if_pos hw, ← hw]
        rfl
      · rw [if_neg hw]
        by_cases hm : "m" = k
        · rw [if_pos hm, ← hm]
          rfl
        · rw [if_neg hm, get?_other h.counted hm hw]
          rfl
    all_goals rfl

/-- **The model stays whole over every run.** However learning, blending, importing
and clearing follow each other, with whatever arguments: every weight lies between
-8 and 8, there are at most 24 contexts with distinct names of sixteen hexadecimal
digits, and every counter lies between 0 and 10000000. A snapshot, restored into
any model, is accepted and gives a model that predicts alike for every network, has
the same contexts in the same order and learns at the same rates, now and after
whatever is learned next. A text that is refused leaves the model as it was. -/
theorem brain_stays_whole (ops : List Op) :
    ((∀ e ∈ (run P J ops).w.entries, Bounded e.2) ∧
      ∀ e ∈ (run P J ops).contexts.entries, Bounded e.2.weights) ∧
    ((run P J ops).contexts.entries.length ≤ 24 ∧ (run P J ops).contexts.keys.Nodup ∧
      ∀ k ∈ (run P J ops).contexts.keys, isKey k = true) ∧
    ((∀ e ∈ (run P J ops).trained.entries, Counts e.2) ∧
      (∀ e ∈ (run P J ops).contexts.entries, Counts e.2.checks) ∧
      0 ≤ (run P J ops).seen ∧ (run P J ops).seen ≤ 10000000) ∧
    (Json.Printed J (run P J ops).toJson → ∀ b : Brain,
      ∃ b', b.restore J ((run P J ops).snapshot J) = (true, b') ∧
        (∀ later c net s st, (runFrom P J b' later).p P c net s st
          = (runFrom P J (run P J ops) later).p P c net s st) ∧
        b'.contexts.keys = (run P J ops).contexts.keys ∧
        ∀ later net, (runFrom P J b' later).rates P net
          = (runFrom P J (run P J ops) later).rates P net) ∧
    ∀ text b', (run P J ops).restore J text = (false, b') → b' = run P J ops := by
  have h : Sound (run P J ops) := sound_runFrom P J sound_empty ops
  refine ⟨⟨h.weights, fun e he => (h.models e he).1⟩, ⟨h.few, (run P J ops).contexts.nodup, ?_⟩,
    ⟨h.trained, fun e he => (h.models e he).2, h.seen⟩, ?_, ?_⟩
  -- the contexts that are kept have keys that can be read back
  · intro k hk
    obtain ⟨e, he, rfl⟩ := List.mem_map.mp hk
    exact h.keys e he
  -- what is restored differs from what was there in the order of the families alone
  · intro hj b
    obtain ⟨b', hread, halike⟩ := read_snapshot J h hj
    refine ⟨b', ?_, ?_, ?_, ?_⟩
    · rw [restore, hread]
    · intro later c net s st
      exact (halike.runFrom P J later).p_eq P c net s st
    · rw [halike.contexts]
    · intro later net
      exact (halike.runFrom P J later).rates_eq P net
  -- a text that is refused leaves the brain as it was
  · intro text b' hrestore
    unfold restore at hrestore
    split at hrestore
    · cases hrestore
    · exact (Prod.mk.inj hrestore).2.symm

/-- A text with one family and one context, restored, printed and restored again. -/
theorem brain_stays_whole_restored :
    let P : Platform :=
      { jvm := .ascii, exp := fun _ => 1, sqrt := fun _ => 1, sin := fun _ => 0, cos := fun _ => 1
        pi := 3, doubleText := fun _ => "0"
        sha256 := fun _ => [1, 35, 69, 103, 137, 171, 205, 239] ++ List.replicate 24 0
        length_sha256 := fun _ => rfl }
    let text := "\x7b\"seen\":3,\"m\":[0,-1,1,0,2,0,0,0,0,0,0,0,0,0],\"contexts\":[\x7b\"key\":\"" ++
      "0123456789abcdef\",\"n\":2,\"w\":[0,-1,1,0,2,1,0,0,0,0,0,0,0,0]\x7d]\x7d"
    let b := run P JsonText.doubles [.restore text]
    b.seen = 3 ∧ b.contexts.keys = ["0123456789abcdef"] ∧
      ∃ b', Brain.restore JsonText.doubles {} (b.snapshot JsonText.doubles) = (true, b') ∧
        b'.contexts.keys = ["0123456789abcdef"] := by
  intro P text b
  have hseen : b.seen = 3 := by decide +kernel
  have hkeys : b.contexts.keys = ["0123456789abcdef"] := by decide +kernel
  have hplain : Json.plain (Json.printed (.obj b.toJson)) = true := by decide +kernel
  have hshort : Text.length (JsonText.doubles.text (.obj b.toJson)) ≤ Json.room (.obj b.toJson) := by
    show Text.length (.ofList (JsonText.render (Json.printed (.obj b.toJson)))) ≤ _
    rw [Text.length, String.toList_ofList]
    decide +kernel
  obtain ⟨b', hrestore, -, hcontexts, -⟩ := (brain_stays_whole P JsonText.doubles [.restore text]).2.2.2.1
    ⟨hshort, JsonText.doubles_reads hplain⟩ {}
  exact ⟨hseen, hkeys, b', hrestore, hcontexts.trans hkeys⟩

end Brain

end VlessCard
