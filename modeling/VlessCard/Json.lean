/-
JSON values and the reading side of `org.json`.

A JSON object is the association list of its members in the order they were
written; `put` and the getters are the ones of `OrderedMap`. The library itself
(`org.json`, part of the Android platform) is not part of the program: what the
program uses of it beyond finite maps -- printing a value, reading a text, and
the coercions its getters apply to a value of another type -- is the structure
`OrgJson`, whose laws say that a printed object reads back as itself and that the
empty text is no object.
-/
import Mathlib
import VlessCard.OrderedMap

set_option autoImplicit false

namespace VlessCard

/-- A JSON value. `int` and `real` are the two kinds of number the readers tell
apart; an object is its members in order. -/
inductive Json where
  | null
  | bool (b : Bool)
  | int (n : Int)
  | real (q : ℚ)
  | str (s : String)
  | arr (xs : List Json)
  | obj (o : List (String × Json))

/-- `JSONObject`. -/
abbrev JsonObject : Type := List (String × Json)

namespace Json

/-! ## Values a text carries without loss

No floating-point number, every integer a `Long`, every object with distinct
keys. These are the values the printer and the reader agree on exactly. -/

mutual
/-- The value is printed and read back unchanged. -/
def plain : Json → Bool
  | .null => true
  | .bool _ => true
  | .int n => decide (-2 ^ 63 ≤ n ∧ n < 2 ^ 63)
  | .real _ => false
  | .str _ => true
  | .arr xs => plainList xs
  | .obj o => plainObject o && decide (Assoc.keys o).Nodup
/-- Every element is `plain`. -/
def plainList : List Json → Bool
  | [] => true
  | v :: rest => plain v && plainList rest
/-- Every member's value is `plain`. -/
def plainObject : List (String × Json) → Bool
  | [] => true
  | e :: rest => plain e.2 && plainObject rest
end

/-- A list of strings as an array: `JSONArray(list)`. -/
def strings (xs : List String) : Json := .arr (xs.map .str)

end Json

/-- The parts of `org.json` that are not finite maps: how a value prints, what a
text reads as, and what the getters make of a string where they expect a
boolean or a number. -/
structure OrgJson where
  /-- `String.valueOf` of a stored value; of an object, its `toString()`. -/
  text : Json → String
  /-- `JSON.toBoolean` of a string. -/
  boolOf : String → Option Bool
  /-- `Double.parseDouble` of a string. -/
  numberOf : String → Option ℚ
  /-- `JSONObject(text)`; `none` is a `JSONException`. -/
  parseObject : String → Option JsonObject
  /-- `JSONArray(text)`; `none` is a `JSONException`. -/
  parseArray : String → Option (List Json)
  /-- A printed object reads back with the same members. -/
  parse_text : ∀ o : JsonObject, Json.plain (.obj o) = true →
    ∃ o', parseObject (text (.obj o)) = some o' ∧ ∀ k, Assoc.get? o' k = Assoc.get? o k
  /-- The empty text is no object. -/
  parse_empty : parseObject "" = none

/-- The text of an object that is read again is not empty. -/
theorem OrgJson.text_ne_empty (J : OrgJson) {o o' : JsonObject} (h : J.parseObject (J.text (.obj o)) = some o') :
    J.text (.obj o) ≠ "" := by
  intro h0
  rw [h0, J.parse_empty] at h
  cases h

/-! ## The getters

The getters convert what they find as `org.json` does it: a number written as text is a number, a
flag may be a text, and an integer beyond the range of an `Int` wraps. The default comes in where
nothing can be converted. -/

namespace Json

variable (J : OrgJson)

/-- `JSON.toString`. -/
def asString : Json → String
  | .str s => s
  | v => J.text v

/-- `JSON.toBoolean`. -/
def asBool : Json → Option Bool
  | .bool b => some b
  | .str s => J.boolOf s
  | _ => none

/-- The number a value holds, for the `double` getters. -/
def asNumber : Json → Option ℚ
  | .int n => some n
  | .real q => some q
  | .str s => J.numberOf s
  | _ => none

/-- `JSON.toInteger`: a stored `Long` wraps, a `double` saturates. -/
def asInt : Json → Option Int32
  | .int n => some (Int32.ofInt n)
  | v => (asNumber J v).map fun q => Int32.ofIntClamp (q.num.tdiv q.den)

/-- `JSON.toLong`. -/
def asLong : Json → Option Int64
  | .int n => some (Int64.ofInt n)
  | v => (asNumber J v).map fun q => Int64.ofIntClamp (q.num.tdiv q.den)

/-- The elements, of an array only. -/
def asArray : Json → Option (List Json)
  | .arr xs => some xs
  | _ => none

/-- The members, of an object only. -/
def asObject : Json → Option JsonObject
  | .obj o => some o
  | _ => none

/-- A text is read as a text; the lemmas that follow say the same of the other kinds. -/
@[simp] theorem asString_str (s : String) : asString J (.str s) = s := rfl
@[simp] theorem asBool_bool (b : Bool) : asBool J (.bool b) = some b := rfl
/-- A number as an `Int`, cut to its size. -/
@[simp] theorem asInt_int (n : ℤ) : asInt J (.int n) = some (Int32.ofInt n) := rfl
@[simp] theorem asLong_int (n : ℤ) : asLong J (.int n) = some (Int64.ofInt n) := rfl
@[simp] theorem asArray_arr (xs : List Json) : asArray (.arr xs) = some xs := rfl
@[simp] theorem asObject_obj (o : JsonObject) : asObject (.obj o) = some o := rfl

/-- A list of strings written as an array reads back as itself. -/
@[simp] theorem asArray_strings (xs : List String) :
    (strings xs).asArray.map (fun a => a.map (asString J)) = some xs := by
  simp [strings, List.map_map, Function.comp_def]

end Json

namespace JsonObject

variable (J : OrgJson)

/-- `JSONObject()`. -/
def empty : JsonObject := []

/-- `put(k, v)`. -/
def put (o : JsonObject) (k : String) (v : Json) : JsonObject := Assoc.put o k v

/-- `opt(k)`. -/
def get? (o : JsonObject) (k : String) : Option Json := Assoc.get? o k

/-- `keys()`. -/
def keys (o : JsonObject) : List String := Assoc.keys o

/-- `remove(k)`. -/
def remove (o : JsonObject) (k : String) : JsonObject := Assoc.remove o k

/-- `has(k)`. -/
def has (o : JsonObject) (k : String) : Bool := (o.get? k).isSome

def optString (o : JsonObject) (k : String) (d : String) : String :=
  ((o.get? k).map (Json.asString J)).getD d

def optBoolean (o : JsonObject) (k : String) (d : Bool) : Bool :=
  ((o.get? k).bind (Json.asBool J)).getD d

def optInt (o : JsonObject) (k : String) (d : Int32) : Int32 :=
  ((o.get? k).bind (Json.asInt J)).getD d

def optLong (o : JsonObject) (k : String) (d : Int64) : Int64 :=
  ((o.get? k).bind (Json.asLong J)).getD d

def optJSONArray (o : JsonObject) (k : String) : Option (List Json) :=
  (o.get? k).bind Json.asArray

def optJSONObject (o : JsonObject) (k : String) : Option JsonObject :=
  (o.get? k).bind Json.asObject

/-- `getString(k)`: a missing key throws. -/
def getString (o : JsonObject) (k : String) : Option String := (o.get? k).map (Json.asString J)

def getInt (o : JsonObject) (k : String) : Option Int32 := (o.get? k).bind (Json.asInt J)

def getLong (o : JsonObject) (k : String) : Option Int64 := (o.get? k).bind (Json.asLong J)

def getDouble (o : JsonObject) (k : String) : Option ℚ := (o.get? k).bind (Json.asNumber J)

/-! ### Get after put

A read after a write gives what was written, and every other key gives what it gave before. These
are the lemmas with which an object that was built up is read back. -/

@[simp] theorem get?_empty (k : String) : get? empty k = none := rfl

/-- An object with a key put has the new value there. -/
@[simp] theorem get?_put (o : JsonObject) (k k' : String) (v : Json) :
    (o.put k v).get? k' = if k = k' then some v else o.get? k' := Assoc.get?_put o k k' v

theorem get?_remove (o : JsonObject) (k k' : String) :
    (o.remove k).get? k' = if k = k' then none else o.get? k' := Assoc.get?_remove o k k'

end JsonObject

/-! ## Maps and lists as JSON

A map is written with its keys as members and read back entry by entry. With distinct keys
nothing is overwritten on the way, so the order is kept as well. -/

namespace OrderedMap

/-- `JSONObject().apply { map.forEach { (k, v) -> put(k, f v) } }`. -/
def toJson {α : Type} (f : α → Json) (m : OrderedMap String α) : JsonObject :=
  Assoc.putAll [] (m.entries.map fun e => (e.1, f e.2))

/-- `m.keys().asSequence().associateWith { k -> f (m.get k) }`. -/
def ofJson {α : Type} (f : Json → α) (o : JsonObject) : OrderedMap String α :=
  ofList (o.map fun e => (e.1, f e.2))

/-- With distinct keys the puts of `toJson` are the entries themselves. -/
theorem toJson_eq {α : Type} (f : α → Json) (m : OrderedMap String α) :
    m.toJson f = m.entries.map fun e => (e.1, f e.2) := by
  refine Assoc.putAll_eq_append _ [] ?_
  simpa only [Assoc.keys, List.nil_append, List.map_map, Function.comp_def] using m.nodup

/-- A map written and read with inverse value codecs is the map itself. -/
theorem ofJson_toJson {α : Type} {f : α → Json} {g : Json → α} (h : ∀ v, g (f v) = v)
    (m : OrderedMap String α) : ofJson g (m.toJson f) = m := by
  rw [ofJson, toJson_eq, List.map_map]
  have hid : ((fun e : String × Json => (e.1, g e.2)) ∘ fun e : String × α => (e.1, f e.2)) = id := by
    funext e
    simp only [Function.comp_apply, h, id_eq]
  rw [hid, List.map_id, ofList_entries]

end OrderedMap

end VlessCard
