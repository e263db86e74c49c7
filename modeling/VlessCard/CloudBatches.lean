/-
`cloud_real.check`: one Xray for a batch of links, one port for each link.

Xray refuses a configuration for one link it does not take, so a refused batch is bisected
until what is left is taken. A port belongs to a link by position, in the configuration and
in the results alike: what the bisection drops moves the ports of the links behind it, and no
other link is measured for it.
-/
import VlessCard.Bisection
import VlessCard.JsonDumps
import VlessCard.OrderedMap

set_option autoImplicit false

namespace VlessCard.CloudReal

open JsonDumps (Value)
open JsonText (renderInt)

/-! ## The configuration of a batch

Each link of a batch has an inbound on a port of its own, a rule that sends what comes in there
to its outbound, and an outbound under a tag of its own. So one process measures many links at
once. -/

/-- `BATCH`. -/
def BATCH : ℕ := 192

/-- `BASE`. -/
def BASE : ℕ := 21000

/-- A link and its outbound. -/
abbrev Item := String × OrderedMap String Value

structure Inbound where
  tag : String
  listen : String
  port : ℕ
  protocol : String
  auth : String

structure Rule where
  inboundTag : List String
  outboundTag : String

structure Config where
  loglevel : String
  inbounds : List Inbound
  outbounds : List (OrderedMap String Value)
  rules : List Rule

/-- `f"\x7bletter\x7d\x7bi\x7d"`. -/
def tag (letter : Char) (i : ℕ) : String := String.ofList (letter :: renderInt i)

def inbound (i : ℕ) : Inbound :=
  { tag := tag 'i' i, listen := "127.0.0.1", port := BASE + i, protocol := "socks", auth := "noauth" }

/-- `dict(ob, tag=f"o\x7bi\x7d")`. -/
def tagged (ob : OrderedMap String Value) (i : ℕ) : OrderedMap String Value := ob.put "tag" (.str (tag 'o' i))

def config (items : List Item) : Config :=
  { loglevel := "none"
    inbounds := items.zipIdx.map fun e => inbound e.2
    outbounds := items.zipIdx.map fun e => tagged e.1.2 e.2
    rules := items.zipIdx.map fun e => { inboundTag := [tag 'i' e.2], outboundTag := tag 'o' e.2 } }

def hasTag (name : String) (outbound : OrderedMap String Value) : Bool :=
  match outbound.get? "tag" with
  | some (.str t) => t = name
  | _ => false

/-- The outbound by which a connection to a port leaves: the inbound of the port, the first rule for its tag,
and the outbound of the tag that the rule names. -/
def served (c : Config) (port : ℕ) : Option (OrderedMap String Value) :=
  (c.inbounds.find? fun b => b.port = port).bind fun b =>
    (c.rules.find? fun r => b.tag ∈ r.inboundTag).bind fun r =>
      c.outbounds.find? (hasTag r.outboundTag)

/-- `valid`; `test` is `xray run -test` on the file. -/
def valid (test : Config → Bool) (items : List Item) : Bool := test (config items)

/-- `accepted`. -/
def accepted (valid : List Item → Bool) (items : List Item) : List Item :=
  if items.length = 0 then items
  else if valid items then items
  else if items.length = 1 then []
  else accepted valid (items.take (items.length / 2)) ++ accepted valid (items.drop (items.length / 2))
termination_by items.length
decreasing_by
  · exact (Bisection.length_half (by omega)).1
  · exact (Bisection.length_half (by omega)).2

/-- What is accepted is what is kept of the blocks. -/
theorem accepted_eq_kept (valid : List Item → Bool) (items : List Item) :
    accepted valid items = Bisection.kept valid (Bisection.blocks valid items) := by
  fun_induction accepted valid items with
  | case1 items hzero =>
    rw [Bisection.blocks, if_pos hzero, List.length_eq_zero_iff.mp hzero]
    rfl
  | case2 items hzero hvalid =>
    rw [Bisection.blocks, if_neg hzero, if_pos hvalid, Bisection.kept_cons, if_pos hvalid]
    exact (List.append_nil items).symm
  | case3 items hzero hvalid hone =>
    rw [Bisection.blocks, if_neg hzero, if_neg hvalid, if_pos hone, Bisection.kept_cons, if_neg hvalid]
    rfl
  | case4 items hzero hvalid hone ihtake ihdrop =>
    rw [Bisection.blocks, if_neg hzero, if_neg hvalid, if_neg hone, Bisection.kept_append, ihtake, ihdrop]

/-! ## The port of a link

The ports are numbered from the base, and so are the tags. A measurement through the `i`-th port
is one of the `i`-th link, also after the bisection has dropped some of the batch. -/

theorem tag_inj {letter : Char} {i j : ℕ} (h : tag letter i = tag letter j) : i = j := by
  have hlist := String.ofList_injective h
  exact Int.ofNat_inj.mp (JsonDumps.renderInt_inj (List.cons.inj hlist).2)

/-- Of things that are numbered one is found by its number. -/
theorem find?_numbered {β : Type} (items : List Item) (f : Item × ℕ → β) (p : β → Bool) {i : ℕ} {item : Item}
    (hi : items[i]? = some item) (hp : ∀ e, p (f e) = true ↔ e.2 = i) :
    (items.zipIdx.map f).find? p = some (f (item, i)) := by
  obtain ⟨hlt, hget⟩ := List.getElem?_eq_some_iff.mp hi
  rw [List.find?_eq_some_iff_getElem]
  refine ⟨(hp _).mpr rfl, i, by rw [List.length_map, List.length_zipIdx]; exact hlt, ?_, fun j hj => ?_⟩
  · rw [List.getElem_map, List.getElem_zipIdx, hget, Nat.zero_add]
  · rw [List.getElem_map, List.getElem_zipIdx, Bool.not_eq_true', ← Bool.not_eq_true, hp]
    dsimp only
    omega

theorem hasTag_tagged (name : String) (ob : OrderedMap String Value) (i : ℕ) :
    hasTag name (tagged ob i) = true ↔ tag 'o' i = name := by
  rw [hasTag, tagged, OrderedMap.get?_put, if_pos rfl]
  exact decide_eq_true_iff

/-- A connection to the `i`-th port leaves by the outbound of the `i`-th link. -/
theorem served_config {items : List Item} {i : ℕ} {item : Item} (hi : items[i]? = some item) :
    served (config items) (BASE + i) = some (tagged item.2 i) := by
  have hinbound : (config items).inbounds.find? (fun b => b.port = BASE + i) = some (inbound i) :=
    find?_numbered items (fun e => inbound e.2) (fun b => b.port = BASE + i) hi fun e => by
      simp only [inbound, decide_eq_true_eq, Nat.add_left_cancel_iff]
  have hrule : (config items).rules.find? (fun r => (inbound i).tag ∈ r.inboundTag) =
      some { inboundTag := [tag 'i' i], outboundTag := tag 'o' i } :=
    find?_numbered items (fun e => Rule.mk [tag 'i' e.2] (tag 'o' e.2))
      (fun r : Rule => (inbound i).tag ∈ r.inboundTag) hi fun e => by
        rw [decide_eq_true_eq, List.mem_singleton, inbound]
        exact ⟨fun h => (tag_inj h).symm, fun h => by rw [h]⟩
  have houtbound : (config items).outbounds.find? (hasTag (tag 'o' i)) = some (tagged item.2 i) :=
    find?_numbered items (fun e => tagged e.1.2 e.2) (hasTag (tag 'o' i)) hi fun e => by
      rw [hasTag_tagged]
      exact ⟨fun h => tag_inj h, fun h => by rw [h]⟩
  rw [served, hinbound, Option.bind_some, hrule, Option.bind_some, houtbound]

/-- Whatever the bisection drops from a batch, each port of what is left is a port, and leads to the link that
is measured through it. -/
theorem served_accepted (test : Config → Bool) {items : List Item} (hbatch : items.length ≤ BATCH) {i : ℕ} {item : Item}
    (hi : (accepted (valid test) items)[i]? = some item) :
    item ∈ items ∧ BASE + i < 65536 ∧ served (config (accepted (valid test) items)) (BASE + i) = some (tagged item.2 i) := by
  have hsub := Bisection.kept_sublist (valid test) (Bisection.blocks (valid test) items)
  rw [Bisection.flatten_blocks, ← accepted_eq_kept] at hsub
  obtain ⟨hlt, -⟩ := List.getElem?_eq_some_iff.mp hi
  have hlen := hsub.length_le
  refine ⟨hsub.subset (List.mem_of_getElem? hi), ?_, served_config hi⟩
  unfold BASE BATCH at *
  omega

/-! ## What is accepted

The test of the program decides each link by itself, if it decides a configuration by its
outbounds one by one. Then cutting the batch in halves finds exactly the links it accepts. -/

/-- **One refused link takes no other link with it.** A test that asks each item leaves exactly
the items it accepts, in their order; whatever the test, what is left is blocks of the list
that it accepted as a whole, and only single items are given up. -/
theorem accepted_spec (valid : List Item → Bool) (items : List Item) :
    ((∀ l, valid l = true ↔ ∀ x ∈ l, valid [x] = true) →
        accepted valid items = items.filter fun x => valid [x]) ∧
      List.Sublist (accepted valid items) items ∧
      ∃ blocks : List (List Item), blocks.flatten = items ∧
        accepted valid items = (blocks.filter valid).flatten ∧
        ∀ b ∈ blocks, b ≠ [] ∧ (valid b = false → b.length = 1) := by
  have hflat := Bisection.flatten_blocks valid items
  have hsettled := Bisection.settled_blocks valid items
  refine ⟨fun hitem => ?_, ?_, ?_⟩
  · rw [accepted_eq_kept, Bisection.kept_itemwise valid hitem hsettled, hflat]
  · have hsub := Bisection.kept_sublist valid (Bisection.blocks valid items)
    rwa [hflat, ← accepted_eq_kept] at hsub
  · exact ⟨Bisection.blocks valid items, hflat, accepted_eq_kept valid items, hsettled⟩

theorem accepted_spec_middle :
    accepted (fun l => l.all fun e => e.1 ≠ "b") [("a", .empty), ("b", .empty), ("c", .empty)] =
      [("a", .empty), ("c", .empty)] := by
  rw [(accepted_spec (fun l => l.all fun e => e.1 ≠ "b") _).1]
  · rfl
  · intro l
    simp

end VlessCard.CloudReal
