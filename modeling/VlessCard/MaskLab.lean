/-
`MaskLab.kt`: masks bred from masks that passed.

A child is drawn by editing the object a parent is written as: ranges are stretched,
steps of a ladder and packets of noise come and go, genes are taken from a second
parent. Then it goes through the checks of `MyMasks.fromJson`, and whatever they
refuse is no child. What holds of every child is therefore either what those checks
secure, or what the last edits leave in the object.
-/
import VlessCard.Draws
import VlessCard.MaskSharing

set_option autoImplicit false

namespace VlessCard

namespace MaskLab

open Masks MyMasks

/-! ## Ranges

A range is two numbers with a hyphen between, or one number. Its ends are stretched and moved at
random and then put back into bounds and order. -/

def PREFIX : String := "auto:"

/-- `WHITE_POOL` of `Masks`. -/
def WHITE_POOL : List String :=
  WHITE_SNI ++ ["mail.ru", "yandex.ru", "wildberries.ru", "avito.ru", "sberbank.ru", "2gis.ru", "rutube.ru",
    "kinopoisk.ru", "dzen.ru", "max.ru", "tbank.ru", "ok.ru", "vkvideo.ru", "x5.ru"]

/-- `MSS_VALUES` of `Masks`. -/
def MSS_VALUES : List ℤ := [536, 300, 120, 88]

/-- A range, its smaller end first. -/
def parse (U : Jvm) (r : String) : Option (ℤ × ℤ) :=
  let t := Text.trim r
  if isRange t then
    match (Text.split t '-').map (Text.toInt? U) with
    | [some a] => some (a.toInt, a.toInt)
    | [some a, some b] => some (min a.toInt b.toInt, max a.toInt b.toInt)
    | _ => none
  else none

/-- `toInt` of a double: towards zero. -/
def truncate (q : ℚ) : ℤ := q.num.tdiv q.den

/-- One end of a range, stretched by `f` and moved by `d`. -/
def stretch (f : ℚ) (d a lo hi : ℤ) : ℤ :=
  max lo (min hi (truncate (Binary64.fl (Binary64.fl (a * f) + d))))

/-- A range scaled by a random factor and kept inside bounds; another text is left alone. -/
def jitter (U : Jvm) (r : String) (lo hi : ℤ) : Draw String :=
  match parse U r with
  | none => pure r
  | some (a, b) => do
    let x ← Draw.nextDouble
    let f := Binary64.fl (1 / 2 + Binary64.fl (x * Binary64.fl (13 / 10)))
    let d ← Draw.nextInt (-1) 2
    let na := stretch f d a lo hi
    let d ← Draw.nextInt (-1) 3
    let nb := stretch f d b na hi
    return toString na ++ "-" ++ toString nb

def range (lo hi maxSpan : ℤ) : Draw String := do
  let a ← Draw.nextInt lo (hi + 1)
  let span ← Draw.nextInt 0 (maxSpan + 1)
  return toString a ++ "-" ++ toString (min (a + span) hi)

/-- A ladder of three to nine steps, as its lengths and its pauses. -/
def ladder : Draw (String × String) := do
  let n ← Draw.nextInt 3 10
  let ls ← (List.range n.toNat).mapM fun i => do
    let greeting ← (if i = 0 then Draw.nextBoolean else pure false)
    if greeting then range 20 120 40 else if i = n - 1 then range 20 400 200 else range 1 12 6
  let ds ← (List.range n.toNat).mapM fun _ => range 1 20 10
  return (Text.join "," ls, Text.join "," ds)

section
variable (P : Platform)

/-! ## Noise

The noise of a mask is a list of packets, each an object. A packet is changed in its size or its
pause, and one may come or go. -/

def randomNoise : Draw String := do
  let n ← Draw.nextInt 2 9
  let items ← (List.range n.toNat).mapM fun _ => do
    let long ← Draw.oneIn 5
    let rand ← (if long then range 300 1200 300 else range 8 120 60)
    let delay ← range 1 12 6
    return Json.obj (JsonObject.empty.put "rand" (.str rand) |>.put "delay" (.str delay))
  return P.json.text (.arr items)

/-- A packet of another size, after another pause. -/
def mutatePacket (o : JsonObject) : Draw JsonObject := do
  let same ← (if o.has "rand" then Draw.oneIn 3 else pure true)
  let o ← (if same then pure o else do
    let rand ← Draw.ofOption (o.getString P.json "rand")
    let rand ← jitter P.jvm rand 1 1400
    return o.put "rand" (.str rand))
  let keep ← Draw.oneIn 3
  if keep then return o
  let delay ← jitter P.jvm (o.optString P.json "delay" "1-3") 0 60
  return o.put "delay" (.str delay)

/-- A packet more or less. -/
def mutateCount (items : List JsonObject) : Draw (List JsonObject) := do
  let n : ℤ := items.length
  let way ← Draw.nextInt 0 4
  if way = 0 ∧ n < 14 then
    let i ← Draw.nextInt 0 (n + 1)
    let rand ← range 8 120 60
    let delay ← range 1 8 4
    return items.insertIdx i.toNat (JsonObject.empty.put "rand" (.str rand) |>.put "delay" (.str delay))
  else if way = 1 ∧ 1 < n then
    let i ← Draw.nextInt 0 n
    return items.eraseIdx i.toNat
  else if way = 2 ∧ n < 14 then
    let o ← Draw.element items
    let o ← Draw.ofOption (P.json.parseObject (P.json.text (.obj o)))
    return items ++ [o]
  else return items

def mutateNoise (json : String) : Draw String :=
  match P.json.parseArray json with
  | none => randomNoise P
  | some a => do
    let items ← (a.filterMap Json.asObject).mapM fun o => Draw.ofOption (P.json.parseObject (P.json.text (.obj o)))
    let items ← items.mapM (mutatePacket P)
    let items ← mutateCount P items
    return P.json.text (.arr ((items.take 16).map .obj))

/-! ## One parent

One parent is changed gene by gene, each with its own chance. The draws are made in the order of
the source, also where their result is not used. -/

/-- Is the mask for servers without TCP? -/
def udp (p : Mask) : Bool := p.hasNoise || p.hop ≠ ""

/-- The noise and the ports of a mask for datagrams. -/
def mutateUdp (p : OwnMask) (o : JsonObject) : Draw JsonObject := do
  let nj ← (if p.noiseJson ≠ "" then pure p.noiseJson else
    match noiseFor (noiseItems P.quic) p.toMask with
    | some nj => pure nj
    | none => randomNoise P)
  let nj ← mutateNoise P nj
  let o := o.remove "n" |>.put "nj" (.str nj)
  if p.noise ∈ WG_NOISE_IDS ∨ p.hop ≠ "" then
    let turn ← Draw.oneIn 4
    if turn then
      return if p.hop = "" then o.put "h" (.str HOP_LOCAL) else if p.hop = HOP_LOCAL then o.put "h" (.str HOP_WARP)
        else o.remove "h"
    else return if p.hop ≠ "" then o.put "h" (.str p.hop) else o
  else return o

/-- A new ladder in the place of any cuts. -/
def newLadder (o : JsonObject) : Draw JsonObject := do
  let (ls, ds) ← ladder
  return o.put "ls" (.str ls) |>.put "ds" (.str ds) |>.remove "l" |>.remove "d"

/-- One step of a ladder, stretched. A pause that is not there cannot be set. -/
def mutateStep (steps : List String × List String) (i : ℕ) : Draw (List String × List String) := do
  let (ls, ds) := steps
  let keep ← Draw.oneIn 3
  if keep then return steps
  let l ← jitter P.jvm (ls.getD i "") 1 1400
  let d ← jitter P.jvm (ds.getD i "1-2") 0 200
  if i < ds.length then return (ls.set i l, ds.set i d) else Draw.throw

/-- A step more or less, or two exchanged. -/
def mutateSteps (ls ds : List String) : Draw (List String × List String) := do
  let n : ℤ := ls.length
  let way ← Draw.nextInt 0 4
  if way = 0 ∧ n < 14 then
    let i ← Draw.nextInt 0 (n + 1)
    let l ← range 1 6 3
    let d ← range 1 8 4
    if i ≤ ds.length then return (ls.insertIdx i.toNat l, ds.insertIdx i.toNat d) else Draw.throw
  else if way = 1 ∧ 2 < n then
    let i ← Draw.nextInt 0 n
    if i < ds.length then return (ls.eraseIdx i.toNat, ds.eraseIdx i.toNat) else Draw.throw
  else if way = 2 then
    let i ← Draw.nextInt 0 n
    let j ← Draw.nextInt 0 n
    return ((ls.set i.toNat (ls.getD j.toNat "")).set j.toNat (ls.getD i.toNat ""), ds)
  else return (ls, ds)

/-- The cuts of a mask for TCP. -/
def mutateCuts (p : OwnMask) (o : JsonObject) : Draw JsonObject := do
  let anew ← (if p.packets = "" then pure true else Draw.oneIn 6)
  if anew then newLadder (o.put "p" (.str "tlshello"))
  else if p.lengths ≠ "" then
    let ls := Text.split p.lengths ','
    let (ls, ds) ← (List.range ls.length).foldlM (mutateStep P) (ls, Text.split p.delays ',')
    let (ls, ds) ← mutateSteps ls ds
    return o.put "ls" (.str (Text.join "," ls)) |>.put "ds" (.str (Text.join "," (ds.take ls.length)))
  else
    let toLadder ← Draw.oneIn 4
    let o ← (if toLadder then newLadder o else do
      let l ← jitter P.jvm p.length 1 1400
      let d ← jitter P.jvm p.delay 0 200
      return o.put "l" (.str l) |>.put "d" (.str d))
    if p.packets ≠ "tlshello" then
      let greeting ← Draw.oneIn 4
      return if greeting then o.put "p" (.str "tlshello") else o
    else return o

end

/-- A gene that changes once in `n` times. -/
def gene (n : ℤ) (change : JsonObject → Draw JsonObject) (o : JsonObject) : Draw JsonObject := do
  let now ← Draw.oneIn n
  if now then change o else return o

/-- Removed if the parent has it. -/
def toggle (had : Bool) (k : String) (v : Json) (o : JsonObject) : JsonObject := if had then o.remove k else o.put k v

/-- The signature of a mask for TCP; `whitelist` is the verdict on the network. -/
def mutateSignature (whitelist : Bool) (p : OwnMask) (o : JsonObject) : Draw JsonObject := do
  let o ← gene 5 (fun o => do return o.put "fp" (.str (← Draw.element FINGERPRINTS))) o
  let o ← gene 8 (fun o => pure (toggle (p.dpi = CURRENT_DPI) "dpi" (.str CURRENT_DPI) o)) o
  let o ← gene 4 (fun o => do
    let v ← Draw.element (MSS_VALUES ++ [0])
    return if v = 0 then o.remove "mss" else o.put "mss" (.int v)) o
  let o ← gene 7 (fun o => pure (toggle p.mux "mux" (.bool true) o)) o
  let o ← gene 8 (fun o => if p.alpn ≠ "" then pure (o.remove "alpn") else do
    return o.put "alpn" (.str (← Draw.element ALPNS))) o
  let o ← gene 8 (fun o => pure (toggle p.tfo "tfo" (.bool true) o)) o
  let o ← gene 10 (fun o => pure (toggle p.ipv6 "v6" (.bool true) o)) o
  gene (if whitelist then 3 else 9) (fun o => do
    let without ← (if p.sni ≠ "" then Draw.oneIn 3 else pure false)
    if without then return o.remove "sni" else return o.put "sni" (.str (← Draw.element WHITE_POOL))) o

/-- Through a local engine the layers of the socket mean nothing. -/
def dropLocal (o : JsonObject) : JsonObject :=
  if o.has "dpi" then o.remove "mss" |>.remove "tfo" |>.remove "v6" else o

/-! ## The child

A child is an object of edited fields that has to pass the checks of a mask of one's own. What
does not pass is no child, and the turn is lost. -/

/-- The generation a title names. -/
def generation (U : Jvm) (title : String) : Int32 :=
  let after := ((Chars.afterSub? "поколение ".toList title.toList).map String.ofList).getD ""
  (Text.toInt? U (Text.substringBefore after ')')).getD 0

section
variable (P : Platform)

/-- What a mask is, in a few words. -/
def kind (o : JsonObject) : Option String :=
  let J := P.json
  let shape :=
    if o.has "nj" then
      let n := (((o.getString J "nj").bind J.parseArray).map List.length).getD 0
      some ("шум " ++ toString n ++ " пак." ++ if o.has "h" then " + порты" else "")
    else if o.has "ls" then
      (o.getString J "ls").map fun ls => "лесенка " ++ toString (Text.split ls ',').length ++ " ступ."
    else if o.has "p" then some ("дробление " ++ o.optString J "l" "")
    else some "отпечаток"
  shape.map fun shape => shape ++
    (if o.has "mss" then " + MSS " ++ toString (o.optInt J "mss" 0).toInt else "") ++
    (if o.optBoolean J "mux" false then " + один поток" else "") ++
    (if o.has "alpn" then " + ALPN" else "") ++
    (if o.has "sni" then " + SNI " ++ o.optString J "sni" "" else "") ++
    (if o.optBoolean J "tfo" false then " + быстрый старт" else "") ++
    (if o.optBoolean J "v6" false then " + IPv6" else "")

/-- Checked as a mask of one's own, under an id of another kind. -/
def make (o : JsonObject) : Except String OwnMask := do
  let m ← fromJson P o
  return { m with id := PREFIX ++ idOf P m }

/-- The object under the title of its kind, made a mask. -/
def born (o : JsonObject) (suffix : String) : Draw OwnMask := do
  let shape ← Draw.ofOption (kind P o)
  Draw.ofOption (make P (o.put "t" (.str ("Авто: " ++ shape ++ " (поколение " ++ suffix ++ ")")))).toOption

def mutate (whitelist : Bool) (p : OwnMask) : Draw (Option OwnMask) := Draw.attempt do
  let o := toJson p
  let o ← (if udp p.toMask then mutateUdp P p o else do
    let o ← mutateCuts P p o
    let o ← mutateSignature whitelist p o
    return dropLocal o)
  born P o (toString (generation P.jvm p.title + 1).toInt)

def SIG_KEYS : List String := ["fp", "mss", "mux", "alpn", "tfo", "v6", "sni"]

/-- The gene of the second parent, or none if it has none. -/
def inherit (ob : JsonObject) (o : JsonObject) (k : String) : Draw JsonObject := do
  let taken ← Draw.nextBoolean
  return if taken then (match ob.get? k with | some v => o.put k v | none => o.remove k) else o

/-- The first steps of one ladder and the last of another. -/
def crossLadders (a b : OwnMask) (o : JsonObject) : Draw JsonObject := do
  let la := Text.split a.lengths ','
  let lb := Text.split b.lengths ','
  let da := Text.split a.delays ','
  let db := Text.split b.delays ','
  let ca ← Draw.nextInt 1 (la.length + 1)
  let cb ← Draw.nextInt 0 lb.length
  let ls := (la.take ca.toNat ++ lb.drop cb.toNat).take 14
  let ds := (da.take ca.toNat ++ db.drop cb.toNat).take ls.length
  return if 2 ≤ ls.length ∧ ds.length = ls.length then
    o.put "ls" (.str (Text.join "," ls)) |>.put "ds" (.str (Text.join "," ds)) else o

/-- The first packets of one noise and the last of another. -/
def crossNoise (na nb : List Json) (o : JsonObject) : Draw JsonObject := do
  let ca ← Draw.nextInt 1 (na.length + 1)
  let cb ← Draw.nextInt 0 nb.length
  let items := na.take ca.toNat ++ nb.drop cb.toNat
  return o.remove "n" |>.put "nj" (.str (P.json.text (.arr (items.take 16))))

/-- The packets of a mask, where they can be read. -/
def packetsOf (m : OwnMask) : Option (List Json) := (noiseFor (noiseItems P.quic) m.toMask).bind P.json.parseArray

/-- The genes of two masks for TCP. -/
def crossTcp (a b : OwnMask) (o : JsonObject) : Draw JsonObject := do
  let o ← SIG_KEYS.foldlM (inherit (toJson b)) o
  let both ← (if a.lengths ≠ "" ∧ b.lengths ≠ "" then Draw.nextBoolean else pure false)
  let o ← (if both then crossLadders a b o else pure o)
  return dropLocal o

/-- A child of two masks for one kind of server. -/
def cross (a b : OwnMask) : Draw (Option OwnMask) :=
  if udp a.toMask ≠ udp b.toMask ∨ a.id = b.id then pure none
  else do
    let c ← Draw.attempt do
      let o ← (if udp a.toMask then do
          let na ← Draw.ofOption (packetsOf P a)
          let nb ← Draw.ofOption (packetsOf P b)
          crossNoise P na nb (toJson a)
        else crossTcp a b (toJson a))
      let gen := max (generation P.jvm a.title) (generation P.jvm b.title)
      born P o (toString (gen + 1).toInt ++ ", скрещивание")
    return c.filter fun c => c.id ≠ a.id ∧ c.id ≠ b.id

def random (udp : Bool) : Draw (Option OwnMask) := Draw.attempt do
  let o := JsonObject.empty.put "fp" (.str "chrome")
  let o ← (if udp then do
      let nj ← randomNoise P
      return o.put "nj" (.str nj)
    else do
      let (ls, ds) ← ladder
      let fp ← Draw.element ["chrome", "firefox", "safari"]
      return o.put "fp" (.str fp) |>.put "p" (.str "tlshello") |>.put "ls" (.str ls) |>.put "ds" (.str ds))
  born P o "1"

def load (stored : List String) : List OwnMask :=
  distinctBy (fun m => m.id) (stored.filterMap fun s => (P.json.parseObject s).bind fun o => (make P o).toOption)

/-! ## A litter

A litter has as many children as asked for, or as many as the turns have given. Children with a
known id are left out. -/

/-- One turn of `breed`. -/
def candidate (whitelist : Bool) (parents : List OwnMask) : Draw (Option OwnMask) := do
  let newcomer ← (if parents = [] then pure true else Draw.oneIn 5)
  if newcomer then
    let udp ← Draw.oneIn 3
    random P udp
  else
    let two ← (if 1 < parents.length then Draw.oneIn 4 else pure false)
    if two then
      let a ← Draw.favoured parents
      let b ← Draw.element parents
      let c ← cross P a b
      match c with
      | some c => return some c
      | none => mutate P whitelist (← Draw.favoured parents)
    else mutate P whitelist (← Draw.favoured parents)

/-- `out.putIfAbsent`, of a child that is not known. -/
def enrol (known : List String) (out : List OwnMask) (c : Option OwnMask) : List OwnMask :=
  match c with
  | none => out
  | some c => if c.id ∈ known ∨ c.id ∈ out.map (·.id) then out else out ++ [c]

/-- The verdict on the network may change from turn to turn. -/
def breed (whitelist : ℕ → Bool) (parents : List OwnMask) (n : Int32) (known : List String) : Draw (List OwnMask) :=
  Draw.loop (fun out => decide ((out.length : ℤ) < n.toInt))
    (fun k out => do return enrol known out (← candidate P (whitelist k) parents)) (n * 8).toInt.toNat []

end

/-! ## What holds of every child

What is promised of a child is that it was checked, has the form it is kept in, and can be stored
and loaded. Most of it comes from the check, and the rest from what the edits leave alone. -/

/-- A pause for each step, sixteen steps at most, and ranges all of them. -/
structure Ladder (m : Mask) : Prop where
  paired : (Text.split m.lengths ',').length = (Text.split m.delays ',').length
  short : (Text.split m.lengths ',').length ≤ 16
  lengths : ∀ t ∈ Text.split m.lengths ',', isRange (Text.trim t) = true
  delays : ∀ t ∈ Text.split m.delays ',', isRange (Text.trim t) = true

section
variable (P : Platform)

/-- What is promised of a child. -/
structure Bred (c : OwnMask) : Prop where
  kept : ∃ c', load P [store P c] = [c'] ∧ Renamed c c'
  apart : ¬(c.forTcp ∧ c.forUdp)
  ladder : c.packets ≠ "" → c.lengths ≠ "" → Ladder c.toMask
  engine : ¬c.forUdp → c.viaByeDpi = true → c.mss = 0 ∧ c.tfo = false ∧ c.ipv6 = false

/-- What the edits leave in an object: noise, or nothing that is lost on a local engine. -/
def Edited (o : JsonObject) : Prop :=
  (∃ a, o.get? "nj" = some (.str (P.json.text (.arr a)))) ∨
    (o.has "dpi" = true → o.get? "mss" = none ∧ o.get? "tfo" = none ∧ o.get? "v6" = none)

end

section
variable {P : Platform} {o : JsonObject} {c : OwnMask}

theorem ladder_of_checkCuts {m : Mask} (h : checkCuts m.packets m.length m.delay m.lengths m.delays = .ok ())
    (hp : m.packets ≠ "") (hl : m.lengths ≠ "") : Ladder m := by
  rw [checkCuts, if_neg hp, if_neg hl] at h
  simp only [except_bind_iff, require_ok_iff, Unique.exists_iff, Bool.and_eq_true, decide_eq_true_eq] at h
  obtain ⟨⟨ha, hb⟩, hpaired, hshort⟩ := h
  exact ⟨hpaired, hshort, List.all_eq_true.mp ha, List.all_eq_true.mp hb⟩

/-- A mask is made exactly where it can be read. -/
theorem make_ok_iff : make P o = .ok c ↔ ∃ m, fromJson P o = .ok m ∧ c = { m with id := PREFIX ++ idOf P m } := by
  rw [make]
  simp only [except_bind_iff]
  constructor
  · rintro ⟨m, hm, hc⟩
    exact ⟨m, hm, (Except.ok.inj hc).symm⟩
  · rintro ⟨m, hm, rfl⟩
    exact ⟨m, hm, rfl⟩

/-- A child that is stored is loaded, under its id. -/
theorem load_store (hJ : Stable P.json) (h : make P o = .ok c) : ∃ c', load P [store P c] = [c'] ∧ Renamed c c' := by
  obtain ⟨m, hm, rfl⟩ := make_ok_iff.mp h
  obtain ⟨o', ho', hread⟩ := parseObject_store hm
  obtain ⟨m', hm', hsame⟩ := fromJson_written hJ hm hread
  refine ⟨{ m' with id := PREFIX ++ idOf P m' }, ?_, ?_⟩
  · have hmake : make P o' = .ok { m' with id := PREFIX ++ idOf P m' } := make_ok_iff.mpr ⟨m', hm', rfl⟩
    have hstore : P.json.parseObject (store P { m with id := PREFIX ++ idOf P m }) = some o' := ho'
    rw [load, List.filterMap_cons, List.filterMap_nil, hstore, Option.bind_some, hmake]
    rfl
  · rw [Renamed] at hsame
    generalize m'.title = t at hsame
    rw [hsame, Renamed, idOf_title]

/-- Noise that was put in is noise of the mask. -/
theorem noiseJson_ne_empty (hJ : Stable P.json) {n : OwnMask} (h : Passes P n (form P.json o)) {a : List Json}
    (ha : o.get? "nj" = some (.str (P.json.text (.arr a)))) : n.noiseJson ≠ "" := by
  have hread : (form P.json o).noiseJson = P.json.text (.arr a) := by
    show o.optString P.json "nj" "" = _
    rw [JsonObject.optString, ha]
    rfl
  rcases checkNoise_ok P h.noiseJson with ⟨hempty, -⟩ | ⟨-, a', -, -, htext⟩
  · rw [hread, hJ.trim_text] at hempty
    exact absurd hempty (hJ.text_ne_empty a)
  · rw [htext]
    exact hJ.text_ne_empty a'

/-- A mask through the local engine was asked to be. -/
theorem has_dpi {r : OwnMask} (hr : r = form P.json o) {nj : String} (h : (norm P r nj).viaByeDpi = true) :
    o.has "dpi" = true := by
  rw [JsonObject.has]
  cases hget : o.get? "dpi" with
  | some v => rfl
  | none =>
    have hread : r.dpi = "" := by
      rw [hr]
      show o.optString P.json "dpi" "" = ""
      rw [JsonObject.optString, hget]
      rfl
    have hnone : (norm P r nj).dpi = "" := by
      show (if r.dpi = CURRENT_DPI then CURRENT_DPI else "") = ""
      rw [hread]
      decide
    rw [Mask.viaByeDpi, decide_eq_true_eq] at h
    exact absurd hnone h

/-- A mask made from edited fields is bred. -/
theorem bred_of_make (hJ : Stable P.json) (h : make P o = .ok c) (ho : Edited P o) : Bred P c := by
  have hkept := load_store hJ h
  obtain ⟨m, hm, rfl⟩ := make_ok_iff.mp h
  have hapart := not_both hm
  obtain ⟨nj, hpass, rfl⟩ := (fromJson_ok_iff P o m).mp hm
  refine ⟨hkept, hapart, ladder_of_checkCuts (checkCuts_norm hpass.cuts), fun hudp hdpi => ?_⟩
  rcases ho with ⟨a, ha⟩ | hdrop
  · have hnoise := noiseJson_ne_empty hJ hpass ha
    exact absurd (.inr (.inl hnoise)) hudp
  · obtain ⟨hmss, htfo, hv6⟩ := hdrop (has_dpi rfl hdpi)
    have hmss' : (o.optInt P.json "mss" 0).toInt = 0 := by
      rw [JsonObject.optInt, hmss]
      rfl
    have htfo' : o.optBoolean P.json "tfo" false = false := by
      rw [JsonObject.optBoolean, htfo]
      rfl
    have hv6' : o.optBoolean P.json "v6" false = false := by
      rw [JsonObject.optBoolean, hv6]
      rfl
    exact ⟨hmss', htfo', hv6'⟩

/-! ## What the edits leave

Each edit writes a few keys. That noise stays noise and that nothing is added which a local
engine would drop is kept by every single one of them. -/

/-- Another key does not matter to what was left. -/
theorem Edited.congr {o' : JsonObject} (h : Edited P o)
    (hget : ∀ k ∈ ["nj", "dpi", "mss", "tfo", "v6"], o'.get? k = o.get? k) : Edited P o' := by
  simp only [List.forall_mem_cons] at hget
  obtain ⟨hnj, hdpi, hmss, htfo, hv6, -⟩ := hget
  rw [Edited, hnj, JsonObject.has, hdpi, hmss, htfo, hv6]
  exact h

theorem edited_put {k : String} (h : Edited P o) (hk : k ∉ ["nj", "dpi", "mss", "tfo", "v6"]) (v : Json) :
    Edited P (o.put k v) := by
  refine h.congr fun k' hk' => ?_
  rw [JsonObject.get?_put, if_neg]
  rintro rfl
  exact hk hk'

theorem edited_remove {k : String} (h : Edited P o) (hk : k ∉ ["nj", "dpi", "mss", "tfo", "v6"]) :
    Edited P (o.remove k) := by
  refine h.congr fun k' hk' => ?_
  rw [JsonObject.get?_remove, if_neg]
  rintro rfl
  exact hk hk'

theorem edited_noise (o : JsonObject) (a : List Json) : Edited P (o.put "nj" (.str (P.json.text (.arr a)))) := by
  refine .inl ⟨a, ?_⟩
  rw [JsonObject.get?_put, if_pos rfl]

theorem edited_dropLocal (o : JsonObject) : Edited P (dropLocal o) := by
  refine .inr fun h => ?_
  by_cases hdpi : o.has "dpi" = true
  · rw [dropLocal, if_pos hdpi]
    simp only [JsonObject.get?_remove, String.reduceEq, if_true, if_false, and_self]
  · rw [dropLocal, if_neg hdpi] at h
    exact absurd h hdpi

/-- Noise that is drawn is an array; each way of drawing has its lemma below. -/
theorem ensures_randomNoise : Draw.Ensures (randomNoise P) fun text => ∃ a, text = P.json.text (.arr a) := by
  rw [randomNoise]
  refine Draw.ensures_true.bind fun n _ => Draw.ensures_true.bind fun items _ => ?_
  exact Draw.ensures_pure ⟨items, rfl⟩

theorem ensures_mutateNoise (json : String) :
    Draw.Ensures (mutateNoise P json) fun text => ∃ a, text = P.json.text (.arr a) := by
  rw [mutateNoise]
  cases P.json.parseArray json with
  | none => exact ensures_randomNoise
  | some a =>
    refine Draw.ensures_true.bind fun items _ => Draw.ensures_true.bind fun items _ => ?_
    exact Draw.ensures_true.bind fun items _ => Draw.ensures_pure ⟨_, rfl⟩

/-- A mutation for UDP edits free fields only. -/
theorem ensures_mutateUdp (p : OwnMask) (o : JsonObject) : Draw.Ensures (mutateUdp P p o) (Edited P) := by
  rw [mutateUdp]
  refine Draw.ensures_true.bind fun nj _ => (ensures_mutateNoise nj).bind fun text htext => ?_
  obtain ⟨a, rfl⟩ := htext
  have hnoise : Edited P ((o.remove "n").put "nj" (.str (P.json.text (.arr a)))) := edited_noise _ a
  have hhop (v : String) := edited_put (k := "h") hnoise (by decide) (.str v)
  refine Draw.ensures_ite (fun _ => Draw.ensures_true.bind fun turn _ => ?_) fun _ => Draw.ensures_pure hnoise
  refine Draw.ensures_ite (fun _ => Draw.ensures_pure ?_) fun _ => Draw.ensures_pure ?_
  · split
    · exact hhop _
    · split
      · exact hhop _
      · exact edited_remove hnoise (by decide)
  · split
    · exact hhop _
    · exact hnoise

/-- **Every child keeps what is promised**, whatever was edited before. -/
theorem ensures_born (hJ : Stable P.json) (ho : Edited P o) (suffix : String) :
    Draw.Ensures (born P o suffix) (Bred P) := by
  rw [born]
  refine Draw.ensures_true.bind fun shape _ => Draw.ensures_ofOption fun c hc => ?_
  cases hmake : make P (o.put "t" (.str ("Авто: " ++ shape ++ " (поколение " ++ suffix ++ ")"))) with
  | error e =>
    rw [hmake] at hc
    cases hc
  | ok c' =>
    rw [hmake] at hc
    rw [← Option.some.inj hc]
    exact bred_of_make hJ hmake (edited_put ho (by decide) _)

theorem returns_mutate (hJ : Stable P.json) (whitelist : Bool) (p : OwnMask) :
    Draw.Returns (mutate P whitelist p) fun c => ∀ m, c = some m → Bred P m := by
  rw [mutate]
  apply Draw.returns_attempt
  have hedited : Draw.Ensures (if udp p.toMask then mutateUdp P p (toJson p) else do
      let o ← mutateCuts P p (toJson p)
      let o ← mutateSignature whitelist p o
      return dropLocal o) (Edited P) := by
    refine Draw.ensures_ite (fun _ => ensures_mutateUdp p _) fun _ => ?_
    refine Draw.ensures_true.bind fun o _ => Draw.ensures_true.bind fun o _ => ?_
    exact Draw.ensures_pure (edited_dropLocal o)
  exact hedited.bind fun o ho => ensures_born hJ ho _

/-- Crossing the noise of two masks edits it. -/
theorem ensures_crossNoise (na nb : List Json) (o : JsonObject) : Draw.Ensures (crossNoise P na nb o) (Edited P) := by
  rw [crossNoise]
  refine Draw.ensures_true.bind fun ca _ => Draw.ensures_true.bind fun cb _ => ?_
  exact Draw.ensures_pure (edited_noise _ _)

theorem ensures_crossTcp (a b : OwnMask) (o : JsonObject) : Draw.Ensures (crossTcp a b o) (Edited P) := by
  rw [crossTcp]
  refine Draw.ensures_true.bind fun o _ => Draw.ensures_true.bind fun both _ => Draw.ensures_true.bind fun o _ => ?_
  exact Draw.ensures_pure (edited_dropLocal o)

theorem returns_cross (hJ : Stable P.json) (a b : OwnMask) :
    Draw.Returns (cross P a b) fun c => ∀ m, c = some m → Bred P m := by
  rw [cross]
  refine Draw.returns_ite (fun _ => Draw.returns_pure fun _ h => nomatch h) fun _ => ?_
  have hedited : Draw.Ensures (if udp a.toMask then do
      let na ← Draw.ofOption (packetsOf P a)
      let nb ← Draw.ofOption (packetsOf P b)
      crossNoise P na nb (toJson a)
    else crossTcp a b (toJson a)) (Edited P) := by
    refine Draw.ensures_ite (fun _ => ?_) fun _ => ensures_crossTcp a b _
    exact Draw.ensures_true.bind fun na _ => Draw.ensures_true.bind fun nb _ => ensures_crossNoise na nb _
  refine (Draw.returns_attempt (hedited.bind fun o ho => ensures_born hJ ho _)).bind fun c hc => ?_
  refine Draw.returns_pure fun m hm => hc m ?_
  exact (Option.filter_eq_some_iff.mp hm).1

theorem returns_random (hJ : Stable P.json) (udp : Bool) :
    Draw.Returns (random P udp) fun c => ∀ m, c = some m → Bred P m := by
  rw [random]
  apply Draw.returns_attempt
  have hedited : Draw.Ensures (if udp then do
      let nj ← randomNoise P
      return (JsonObject.empty.put "fp" (.str "chrome")).put "nj" (.str nj)
    else do
      let (ls, ds) ← ladder
      let fp ← Draw.element ["chrome", "firefox", "safari"]
      return (JsonObject.empty.put "fp" (.str "chrome")).put "fp" (.str fp) |>.put "p" (.str "tlshello")
        |>.put "ls" (.str ls) |>.put "ds" (.str ds)) (Edited P) := by
    refine Draw.ensures_ite (fun _ => ensures_randomNoise.bind fun nj hnj => ?_) fun _ => ?_
    · obtain ⟨a, rfl⟩ := hnj
      exact Draw.ensures_pure (edited_noise _ a)
    · refine Draw.ensures_true.bind fun steps _ => Draw.ensures_true.bind fun fp _ => Draw.ensures_pure (.inr fun h => ?_)
      cases h
  exact hedited.bind fun o ho => ensures_born hJ ho _

/-! ## A litter keeps what is promised

The loop keeps a litter in which every child is bred and has an id of its own. It returns
whatever is drawn, since nothing in it throws. -/

theorem returns_oneIn {n : ℤ} (h : 0 < n) : Draw.Returns (Draw.oneIn n) fun _ => True :=
  (Draw.returns_nextInt h).bind fun _ _ => Draw.returns_pure trivial

/-- **Each candidate is bred**, whichever way it came about. -/
theorem returns_candidate (hJ : Stable P.json) (whitelist : Bool) (parents : List OwnMask) :
    Draw.Returns (candidate P whitelist parents) fun c => ∀ m, c = some m → Bred P m := by
  rw [candidate]
  have hnewcomer : Draw.Returns (if parents = [] then pure true else Draw.oneIn 5)
      fun newcomer => parents = [] → newcomer = true :=
    Draw.returns_ite (fun _ => Draw.returns_pure fun _ => rfl)
      fun hne => (returns_oneIn (by omega)).mono fun _ _ h => absurd h hne
  refine hnewcomer.bind fun newcomer hnew => Draw.returns_ite (fun _ => ?_) fun hold => ?_
  · exact (returns_oneIn (by omega)).bind fun udp _ => returns_random hJ udp
  · have hne : parents ≠ [] := fun h => hold (hnew h)
    have hmutate : Draw.Returns (Draw.favoured parents >>= mutate P whitelist) fun c => ∀ m, c = some m → Bred P m :=
      (Draw.returns_favoured hne).bind fun p _ => returns_mutate hJ whitelist p
    have htwo : Draw.Returns (if 1 < parents.length then Draw.oneIn 4 else pure false) fun _ => True :=
      Draw.returns_ite (fun _ => returns_oneIn (by omega)) fun _ => Draw.returns_pure trivial
    refine htwo.bind fun two _ => Draw.returns_ite (fun _ => ?_) fun _ => hmutate
    refine (Draw.returns_favoured hne).bind fun a _ => (Draw.returns_element hne).bind fun b _ => ?_
    refine (returns_cross hJ a b).bind fun c hc => ?_
    cases c with
    | some c => exact Draw.returns_pure hc
    | none => exact hmutate

variable (P) in
/-- Children with ids of their own, none of them known. -/
structure Litter (known : List String) (n : ℕ) (out : List OwnMask) : Prop where
  bred : ∀ c ∈ out, Bred P c
  few : out.length ≤ n
  distinct : (out.map (·.id)).Nodup
  new : ∀ c ∈ out, c.id ∉ known

/-- A bred candidate keeps the litter as it should be. -/
theorem Litter.enrol {known : List String} {n : ℕ} {out : List OwnMask} (h : Litter P known n out)
    (hroom : out.length < n) {c : Option OwnMask} (hc : ∀ m, c = some m → Bred P m) :
    Litter P known n (enrol known out c) := by
  cases c with
  | none => exact h
  | some c =>
    rw [MaskLab.enrol]
    split
    · exact h
    · rename_i hnew
      rw [not_or] at hnew
      refine ⟨?_, ?_, ?_, ?_⟩
      · exact List.forall_mem_append.mpr ⟨h.bred, List.forall_mem_singleton.mpr (hc c rfl)⟩
      · rw [List.length_append, List.length_singleton]
        exact hroom
      · rw [List.map_append, List.map_singleton, List.nodup_append]
        refine ⟨h.distinct, List.nodup_singleton _, fun a ha b hb => ?_⟩
        rw [List.mem_singleton.mp hb]
        rintro rfl
        exact hnew.2 ha
      · exact List.forall_mem_append.mpr ⟨h.new, List.forall_mem_singleton.mpr hnew.1⟩

theorem returns_breed (hJ : Stable P.json) (whitelist : ℕ → Bool) (parents : List OwnMask) (n : Int32)
    (known : List String) :
    Draw.Returns (breed P whitelist parents n known) (Litter P known n.toInt.toNat) := by
  rw [breed]
  refine Draw.returns_loop (fun k out hout hgo => ?_) _ _ ⟨nofun, Nat.zero_le _, List.nodup_nil, nofun⟩
  have hroom : out.length < n.toInt.toNat := by
    have hlt := of_decide_eq_true hgo
    omega
  exact (returns_candidate hJ _ parents).bind fun c hc => Draw.returns_pure (hout.enrol hroom hc)

end

/-- **Bred masks are stable and well formed**, whatever the parents are and whatever is drawn. -/
theorem bred_well_formed (P : Platform) (hJ : Stable P.json) :
    (∀ whitelist p, Draw.Returns (mutate P whitelist p) fun c => ∀ m, c = some m → Bred P m) ∧
    (∀ a b, Draw.Returns (cross P a b) fun c => ∀ m, c = some m → Bred P m) ∧
    (∀ udp, Draw.Returns (random P udp) fun c => ∀ m, c = some m → Bred P m) ∧
    ∀ whitelist parents n known, Draw.Returns (breed P whitelist parents n known) (Litter P known n.toInt.toNat) :=
  ⟨returns_mutate hJ, returns_cross hJ, returns_random hJ, returns_breed hJ⟩

/-- A parent with a name alone, and zeros drawn: a ladder through the local engine. -/
theorem zeros_well_formed : ∃ p c, fromJson samplePlatform [("sni", .str "vk.com")] = .ok p ∧
    (mutate samplePlatform false p fun _ => 0).1 = some (some c) ∧ c.lengths = "1-1,1-1,20-20" ∧
    c.viaByeDpi = true ∧ Bred samplePlatform c := by
  have hread : ((fromJson samplePlatform [("sni", .str "vk.com")]).toOption.bind fun p =>
      (mutate samplePlatform false p fun _ => 0).1.join.map fun c => (c.lengths, c.viaByeDpi)) =
        some ("1-1,1-1,20-20", true) := by
    decide +kernel
  obtain ⟨p, hp, hread⟩ := Option.bind_eq_some_iff.mp hread
  obtain ⟨c, hc, hread⟩ := Option.map_eq_some_iff.mp hread
  obtain ⟨hlengths, hdpi⟩ := Prod.mk.inj hread
  obtain ⟨c', hc', hbred⟩ := (bred_well_formed samplePlatform sample_stable).1 false p fun _ => 0
  have hsome := Option.join_eq_some_iff.mp hc
  have hown : c' = some c := Option.some.inj (hc'.symm.trans hsome)
  refine ⟨p, c, ?_, hsome, hlengths, hdpi, hbred c hown⟩
  cases hm : fromJson samplePlatform [("sni", .str "vk.com")] with
  | error e =>
    rw [hm] at hp
    cases hp
  | ok m =>
    rw [hm] at hp
    rw [Option.some.inj hp]

/-- A parent that does not cut may have any text for a ladder, and so may its child. -/
theorem unused_ladder_inherited : ∃ a b c, fromJson samplePlatform [("sni", .str "vk.com"), ("ls", .str "abc")] = .ok a ∧
    b.toNamedMask ∈ ALL ∧ (cross samplePlatform a b fun _ => 0).1 = some (some c) ∧ c.lengths ≠ "" ∧
    ¬Ladder c.toMask := by
  let b : OwnMask := { toMask := chrome, id := DEFAULT_ID, title := "Chrome" }
  have hread : ((fromJson samplePlatform [("sni", .str "vk.com"), ("ls", .str "abc")]).toOption.bind fun a =>
      (cross samplePlatform a b fun _ => 0).1.join.map fun c => c.lengths) = some "abc" := by
    decide +kernel
  obtain ⟨a, ha, hread⟩ := Option.bind_eq_some_iff.mp hread
  obtain ⟨c, hc, hlengths⟩ := Option.map_eq_some_iff.mp hread
  have hfirst : ALL[0]? = some b.toNamedMask := rfl
  refine ⟨a, b, c, ?_, List.mem_of_getElem? hfirst, Option.join_eq_some_iff.mp hc, ?_, fun h => ?_⟩
  · cases hm : fromJson samplePlatform [("sni", .str "vk.com"), ("ls", .str "abc")] with
    | error e =>
      rw [hm] at ha
      cases ha
    | ok m =>
      rw [hm] at ha
      rw [Option.some.inj ha]
  · rw [hlengths]
    decide
  · have hrange := h.lengths "abc" (by rw [hlengths]; decide)
    revert hrange
    decide

end MaskLab

end VlessCard
