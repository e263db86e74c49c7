/-
JSON texts that hold doubles: what is read back of them and how long they are.

`org.json` prints a double with an integral value without a point, so it comes
back as an integer; every other one comes back as it was. That a given object is
printed in this way is the assumption `Json.Printed`, with a concrete printer for
the objects whose doubles are all integers.
-/
import VlessCard.JsonText
import VlessCard.Text

set_option autoImplicit false

namespace VlessCard

namespace Json

mutual
/-- What is read where the value was printed. -/
def printed : Json → Json
  | .real q => if q.den = 1 then .int q.num else .real q
  | .arr xs => .arr (printedList xs)
  | .obj o => .obj (printedObject o)
  | v => v
/-- Every element, as it is read back. -/
def printedList : List Json → List Json
  | [] => []
  | v :: rest => printed v :: printedList rest
/-- Every member, as it is read back. -/
def printedObject : List (String × Json) → List (String × Json)
  | [] => []
  | e :: rest => (e.1, printed e.2) :: printedObject rest
end

/-- What is printed of a list, element by element. -/
theorem printedList_eq (xs : List Json) : printedList xs = xs.map printed := by
  induction xs with
  | nil => rw [printedList, List.map_nil]
  | cons v xs ih => rw [printedList, ih, List.map_cons]

theorem printedObject_eq (o : List (String × Json)) :
    printedObject o = o.map fun e => (e.1, printed e.2) := by
  induction o with
  | nil => rw [printedObject, List.map_nil]
  | cons e o ih => rw [printedObject, ih, List.map_cons]

theorem get?_printedObject (o : JsonObject) (k : String) :
    Assoc.get? (printedObject o) k = (Assoc.get? o k).map printed := by
  rw [printedObject_eq]
  exact Assoc.get?_map_value printed o k

mutual
/-- **A value without doubles is read back as it was.** -/
theorem printed_of_plain : ∀ {v : Json}, plain v = true → printed v = v
  | .null, _ => by rw [printed] <;> simp
  | .bool _, _ => by rw [printed] <;> simp
  | .int _, _ => by rw [printed] <;> simp
  | .str _, _ => by rw [printed] <;> simp
  | .real _, h => by rw [plain] at h; cases h
  | .arr xs, h => by
      rw [plain] at h
      rw [printed, printedList_of_plain h]
  | .obj o, h => by
      rw [plain, Bool.and_eq_true] at h
      rw [printed, printedObject_of_plain h.1]
theorem printedList_of_plain : ∀ {xs : List Json}, plainList xs = true → printedList xs = xs
  | [], _ => by rw [printedList]
  | v :: rest, h => by
      rw [plainList, Bool.and_eq_true] at h
      rw [printedList, printed_of_plain h.1, printedList_of_plain h.2]
theorem printedObject_of_plain : ∀ {o : List (String × Json)}, plainObject o = true →
    printedObject o = o
  | [], _ => by rw [printedObject]
  | e :: rest, h => by
      rw [plainObject, Bool.and_eq_true] at h
      rw [printedObject, printed_of_plain h.1, printedObject_of_plain h.2]
end

mutual
/-- A bound for the characters of a printed value: a double takes at most 26, a
character of a string at most the six of an escape. -/
def room : Json → ℕ
  | .null => 4
  | .bool _ => 5
  | .int _ => 20
  | .real _ => 26
  | .str s => 2 + 6 * Text.length s
  | .arr xs => 2 + roomList xs
  | .obj o => 2 + roomObject o
/-- The elements, each with a comma. -/
def roomList : List Json → ℕ
  | [] => 0
  | v :: rest => room v + 1 + roomList rest
/-- The members, each with its key, a colon and a comma. -/
def roomObject : List (String × Json) → ℕ
  | [] => 0
  | e :: rest => 2 + 6 * Text.length e.1 + 1 + room e.2 + 1 + roomObject rest
end

/-- A list takes as much room as its elements may. -/
theorem roomList_le {xs : List Json} {n : ℕ} (h : ∀ v ∈ xs, room v + 1 ≤ n) :
    roomList xs ≤ xs.length * n := by
  induction xs with
  | nil => rw [roomList]; exact Nat.zero_le _
  | cons v xs ih =>
    have hv := h v (List.mem_cons_self ..)
    have hrest := ih fun w hw => h w (List.mem_cons_of_mem _ hw)
    rw [roomList, List.length_cons, Nat.succ_mul]
    omega

theorem roomObject_le {o : List (String × Json)} {n : ℕ}
    (h : ∀ e ∈ o, 2 + 6 * Text.length e.1 + 1 + room e.2 + 1 ≤ n) :
    roomObject o ≤ o.length * n := by
  induction o with
  | nil => rw [roomObject]; exact Nat.zero_le _
  | cons e o ih =>
    have he := h e (List.mem_cons_self ..)
    have hrest := ih fun e' he' => h e' (List.mem_cons_of_mem _ he')
    have hmul : (o.length + 1) * n = o.length * n + n := Nat.succ_mul _ _
    rw [roomObject, List.length_cons, hmul]
    omega

/-- A member that is written takes its own room at most. -/
theorem roomObject_put (o : List (String × Json)) (k : String) (v : Json) :
    roomObject (Assoc.put o k v) ≤ roomObject o + (2 + 6 * Text.length k + 1 + room v + 1) := by
  induction o with
  | nil =>
    rw [Assoc.put, roomObject, roomObject, roomObject]
    dsimp only
    omega
  | cons e o ih =>
    rw [Assoc.put]
    split
    · rename_i hk
      rw [roomObject, roomObject, hk]
      dsimp only
      omega
    · rw [roomObject, roomObject]
      dsimp only
      omega

/-- Putting adds no more than what is put. -/
theorem roomObject_putAll (es : List (String × Json)) : ∀ o : List (String × Json),
    roomObject (Assoc.putAll o es) ≤ roomObject o + roomObject es := by
  induction es with
  | nil => intro o; rw [Assoc.putAll, List.foldl_nil]; exact Nat.le_add_right _ _
  | cons e es ih =>
    intro o
    have hrest := ih (Assoc.put o e.1 e.2)
    have hput := roomObject_put o e.1 e.2
    rw [Assoc.putAll, List.foldl_cons]
    rw [Assoc.putAll] at hrest
    rw [roomObject]
    omega

/-- `org.json` prints the object within its room and reads it back. -/
structure Printed (J : OrgJson) (o : JsonObject) : Prop where
  short : Text.length (J.text (.obj o)) ≤ room (.obj o)
  reads : ∃ o', J.parseObject (J.text (.obj o)) = some o' ∧
    ∀ k, Assoc.get? o' k = (Assoc.get? o k).map printed

end Json

namespace JsonText

/-- A concrete `org.json` that also prints the doubles that are integers. -/
def doubles : OrgJson :=
  { library with
    text := fun v => library.text v.printed
    parse_text := by
      intro o h
      rw [Json.printed_of_plain h]
      exact library.parse_text o h }

/-- It reads back an object whose doubles are all integers. -/
theorem doubles_reads {o : JsonObject} (h : Json.plain (Json.printed (.obj o)) = true) :
    ∃ o', doubles.parseObject (doubles.text (.obj o)) = some o' ∧
      ∀ k, Assoc.get? o' k = (Assoc.get? o k).map Json.printed := by
  have hobj : Json.printed (.obj o) = .obj (Json.printedObject o) := by rw [Json.printed]
  rw [hobj] at h
  obtain ⟨o', ho', hget⟩ := library.parse_text (Json.printedObject o) h
  refine ⟨o', ?_, ?_⟩
  · show library.parseObject (library.text (Json.printed (.obj o))) = some o'
    rw [hobj]
    exact ho'
  · intro k
    rw [hget]
    exact Json.get?_printedObject o k

end JsonText

end VlessCard
