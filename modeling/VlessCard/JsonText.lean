/-
JSON as text: a printer, a reader, and that the reader inverts the printer.

The readers and writers of JSON the programs call are outside the repository, and
`Json.OrgJson` says what is assumed of them. This file is the check that such a
library exists: a compact printer and a recursive reader of RFC 8259 (numbers
with a fraction or an exponent left out), with `parse_render` as the law. The
reader runs on fuel; the text itself is always enough of it, because every value
is printed with at least as many characters as its size.
-/
import Mathlib
import VlessCard.Json

set_option autoImplicit false

namespace VlessCard.JsonText

/-! ## The printer

The printer writes no spaces and escapes what it has to. Arrays and objects have a function for
their first member and one for the others, which come with a comma. -/

/-- A hexadecimal digit. -/
def hexDigit (n : ℕ) : Char := if n < 10 then Char.ofNat (48 + n) else Char.ofNat (87 + n)

/-- One character inside a JSON string. -/
def escapeChar (c : Char) : List Char :=
  if c = '"' then ['\\', '"']
  else if c = '\\' then ['\\', '\\']
  else if c = '\n' then ['\\', 'n']
  else if c = '\r' then ['\\', 'r']
  else if c = '\t' then ['\\', 't']
  else if c.toNat < 32 then ['\\', 'u', '0', '0', hexDigit (c.toNat / 16), hexDigit (c.toNat % 16)]
  else [c]

/-- A quoted string. -/
def renderString (s : String) : List Char := '"' :: (s.toList.flatMap escapeChar ++ ['"'])

/-- A decimal integer. -/
def renderInt : ℤ → List Char
  | .ofNat n => Nat.toDigits 10 n
  | .negSucc n => '-' :: Nat.toDigits 10 (n + 1)

mutual
/-- A value, without a space. -/
def render : Json → List Char
  | .null => ['n', 'u', 'l', 'l']
  | .bool true => ['t', 'r', 'u', 'e']
  | .bool false => ['f', 'a', 'l', 's', 'e']
  | .int n => renderInt n
  | .real q => renderInt q.num ++ '.' :: Nat.toDigits 10 q.den
  | .str s => renderString s
  | .arr xs => '[' :: (renderList xs ++ [']'])
  | .obj o => '\x7b' :: (renderMembers o ++ ['\x7d'])
/-- The elements of an array with their commas. -/
def renderList : List Json → List Char
  | [] => []
  | v :: rest => render v ++ renderTail rest
/-- The elements after the first, each with its comma. -/
def renderTail : List Json → List Char
  | [] => []
  | v :: rest => ',' :: (render v ++ renderTail rest)
/-- The members of an object with their commas. -/
def renderMembers : List (String × Json) → List Char
  | [] => []
  | e :: rest => renderString e.1 ++ ':' :: (render e.2 ++ renderMembersTail rest)
/-- The members after the first, each with its comma. -/
def renderMembersTail : List (String × Json) → List Char
  | [] => []
  | e :: rest => ',' :: (renderString e.1 ++ ':' :: (render e.2 ++ renderMembersTail rest))
end

/-! ## The reader

The reader takes fuel, as it calls itself on what is left of the text. It accepts white space
between tokens, though the printer writes none. -/

/-- Whitespace between tokens. -/
def skip (l : List Char) : List Char :=
  l.dropWhile fun c => c == ' ' || c == '\n' || c == '\r' || c == '\t'

/-- The value of a hexadecimal digit. -/
def hexValue (c : Char) : Option ℕ :=
  if 48 ≤ c.toNat ∧ c.toNat ≤ 57 then some (c.toNat - 48)
  else if 97 ≤ c.toNat ∧ c.toNat ≤ 102 then some (c.toNat - 87)
  else if 65 ≤ c.toNat ∧ c.toNat ≤ 70 then some (c.toNat - 55) else none

/-- The rest of a string after its opening quote, up to the closing one. -/
def readString : List Char → Option (List Char × List Char)
  | [] => none
  | '"' :: rest => some ([], rest)
  | '\\' :: 'u' :: a :: b :: c :: d :: rest => do
      let n := (← hexValue a) * 4096 + (← hexValue b) * 256 + (← hexValue c) * 16 + (← hexValue d)
      let (s, r) ← readString rest
      return (Char.ofNat n :: s, r)
  | '\\' :: c :: rest => do
      let (s, r) ← readString rest
      let x ← match c with
        | '"' => some '"'
        | '\\' => some '\\'
        | '/' => some '/'
        | 'n' => some '\n'
        | 'r' => some '\r'
        | 't' => some '\t'
        | 'b' => some '\x08'
        | 'f' => some '\x0c'
        | _ => none
      return (x :: s, r)
  | c :: rest => do
      let (s, r) ← readString rest
      return (c :: s, r)

/-- A decimal integer. -/
def readInt (l : List Char) : Option (ℤ × List Char) :=
  match l with
  | '-' :: r =>
      let ds := r.takeWhile Char.isDigit
      if ds = [] then none
      else some (-(Nat.ofDigitChars 10 ds 0 : ℤ), r.dropWhile Char.isDigit)
  | r =>
      let ds := r.takeWhile Char.isDigit
      if ds = [] then none else some ((Nat.ofDigitChars 10 ds 0 : ℤ), r.dropWhile Char.isDigit)

mutual
/-- One value and what follows it. -/
def readValue : ℕ → List Char → Option (Json × List Char)
  | 0, _ => none
  | n + 1, l => match skip l with
      | '"' :: r => (readString r).map fun p => (.str (.ofList p.1), p.2)
      | '[' :: r => match skip r with
          | ']' :: r' => some (.arr [], r')
          | r' => (readElems n r').map fun p => (.arr p.1, p.2)
      | '\x7b' :: r => match skip r with
          | '\x7d' :: r' => some (.obj [], r')
          | r' => (readMembers n r').map fun p => (.obj (Assoc.putAll [] p.1), p.2)
      | 't' :: 'r' :: 'u' :: 'e' :: r => some (.bool true, r)
      | 'f' :: 'a' :: 'l' :: 's' :: 'e' :: r => some (.bool false, r)
      | 'n' :: 'u' :: 'l' :: 'l' :: r => some (.null, r)
      | r => (readInt r).map fun p => (.int p.1, p.2)
/-- One element or more, up to the closing bracket. -/
def readElems : ℕ → List Char → Option (List Json × List Char)
  | 0, _ => none
  | n + 1, l => do
      let (v, r) ← readValue n l
      match skip r with
      | ',' :: r' => do
          let (vs, r'') ← readElems n r'
          return (v :: vs, r'')
      | ']' :: r' => return ([v], r')
      | _ => none
/-- One member or more, up to the closing brace. -/
def readMembers : ℕ → List Char → Option (List (String × Json) × List Char)
  | 0, _ => none
  | n + 1, l => match skip l with
      | '"' :: r0 => do
          let (k, r1) ← readString r0
          match skip r1 with
          | ':' :: r2 => do
              let (v, r) ← readValue n r2
              match skip r with
              | ',' :: r' => do
                  let (es, r'') ← readMembers n r'
                  return ((.ofList k, v) :: es, r'')
              | '\x7d' :: r' => return ([(.ofList k, v)], r')
              | _ => none
          | _ => none
      | _ => none
end

/-- A whole text as one value. -/
def parse (s : String) : Option Json :=
  match readValue (s.toList.length + 1) s.toList with
  | some (v, r) => if skip r = [] then some v else none
  | none => none

/-! ## Strings

Character by character: what was escaped is read as the character it was made of, and the closing
quote is not mistaken for one inside. -/

/-- A digit is read as the number it was written for. -/
theorem hexValue_hexDigit : ∀ n < 16, hexValue (hexDigit n) = some n := by decide

/-- Reading an escaped character gives the character back. -/
theorem readString_escapeChar (c : Char) (rest : List Char) :
    readString (escapeChar c ++ rest) = (readString rest).map fun p => (c :: p.1, p.2) := by
  unfold escapeChar
  -- the characters with an escape of their own, in the order of the printer
  by_cases h1 : c = '"'
  · subst h1
    cases h : readString rest <;> simp [readString, h]
  by_cases h2 : c = '\\'
  · subst h2
    cases h : readString rest <;> simp [readString, h]
  by_cases h3 : c = '\n'
  · subst h3
    cases h : readString rest <;> simp [readString, h]
  by_cases h4 : c = '\r'
  · subst h4
    cases h : readString rest <;> simp [readString, h]
  by_cases h5 : c = '\t'
  · subst h5
    cases h : readString rest <;> simp [readString, h]
  -- a control character is written by its number
  by_cases h6 : c.toNat < 32
  · have ha : hexValue (hexDigit (c.toNat / 16)) = some (c.toNat / 16) :=
      hexValue_hexDigit _ (by omega)
    have hb : hexValue (hexDigit (c.toNat % 16)) = some (c.toNat % 16) :=
      hexValue_hexDigit _ (by omega)
    have h0 : hexValue '0' = some 0 := by decide
    have hn : c.toNat / 16 * 16 + c.toNat % 16 = c.toNat := by omega
    simp only [if_neg h1, if_neg h2, if_neg h3, if_neg h4, if_neg h5, if_pos h6, List.cons_append,
      List.nil_append, readString, ha, hb, h0, Option.bind_eq_bind, Option.bind_some, zero_mul,
      zero_add, hn, Char.ofNat_toNat]
    cases h : readString rest <;> simp
  · simp only [if_neg h1, if_neg h2, if_neg h3, if_neg h4, if_neg h5, if_neg h6, List.cons_append,
      List.nil_append]
    rw [readString.eq_def]
    cases h : readString rest with
    | none => split <;> simp_all
    | some p => split <;> simp_all

/-- Reading a printed string gives it back, with what follows the closing quote. -/
theorem readString_render (s r : List Char) :
    readString (s.flatMap escapeChar ++ '"' :: r) = some (s, r) := by
  induction s with
  | nil => simp [readString]
  | cons c s ih =>
      rw [List.flatMap_cons, List.append_assoc, readString_escapeChar, ih]
      rfl

/-! ## Integers

The digits of an integer are read up to the first character that is none, so something else has
to follow. In a printed value it always does. -/

/-- The next character, if any, is no digit. -/
def NoDigit (r : List Char) : Prop := ∀ c ∈ r.head?, c.isDigit = false

theorem noDigit_nil : NoDigit [] := by
  intro c hc
  cases hc

theorem noDigit_cons {c : Char} (h : c.isDigit = false) (r : List Char) : NoDigit (c :: r) := by
  intro x hx
  cases hx
  exact h

/-- Digits are read up to the first that is none. -/
theorem takeWhile_digits {ds r : List Char} (hd : ∀ c ∈ ds, c.isDigit = true) (hr : NoDigit r) :
    (ds ++ r).takeWhile Char.isDigit = ds ∧ (ds ++ r).dropWhile Char.isDigit = r := by
  rw [List.takeWhile_append_of_pos hd, List.dropWhile_append_of_pos hd]
  cases r with
  | nil => simp
  | cons c rest =>
      have hc : c.isDigit = false := hr c rfl
      simp [hc]

theorem toDigits_isDigit (n : ℕ) : ∀ c ∈ Nat.toDigits 10 n, c.isDigit = true :=
  fun _ hc => Nat.isDigit_of_mem_toDigits (by decide) (by decide) hc

theorem readInt_render (n : ℤ) {r : List Char} (hr : NoDigit r) :
    readInt (renderInt n ++ r) = some (n, r) := by
  cases n with
  | ofNat n =>
      obtain ⟨h1, h2⟩ := takeWhile_digits (toDigits_isDigit n) hr
      have hhead : ∀ c ∈ (Nat.toDigits 10 n).head?, c ≠ '-' := by
        intro c hc hm
        have := toDigits_isDigit n c (List.mem_of_mem_head? hc)
        rw [hm] at this
        exact absurd this (by decide)
      rw [renderInt, readInt.eq_def]
      split
      · rename_i rest heq
        cases hd : Nat.toDigits 10 n with
        | nil => exact absurd hd Nat.toDigits_ne_nil
        | cons d ds =>
            rw [hd, List.cons_append, List.cons.injEq] at heq
            exact absurd heq.1 (hhead d (by rw [hd]; rfl))
      · simp only [h1, h2, Nat.toDigits_ne_nil, if_false, Nat.ofDigitChars_ten_toDigits]
        rfl
  | negSucc n =>
      obtain ⟨h1, h2⟩ := takeWhile_digits (toDigits_isDigit (n + 1)) hr
      simp only [renderInt, List.cons_append, readInt, h1, h2, Nat.toDigits_ne_nil, if_false,
        Nat.ofDigitChars_ten_toDigits]
      rfl

/-! ## Values

The reader is run on a printed value, with enough fuel and any text behind it. The induction is
over the value, and each constructor has one branch of the reader that is taken. -/

mutual
/-- How much fuel a value needs. -/
def size : Json → ℕ
  | .arr xs => 1 + sizeList xs
  | .obj o => 1 + sizeMembers o
  | _ => 1
/-- How much fuel the elements of an array need. -/
def sizeList : List Json → ℕ
  | [] => 0
  | v :: rest => 1 + size v + sizeList rest
/-- How much fuel the members of an object need. -/
def sizeMembers : List (String × Json) → ℕ
  | [] => 0
  | e :: rest => 1 + size e.2 + sizeMembers rest
end

/-- A printed value starts with a character that is neither a space nor a closing
bracket. -/
theorem render_head (v : Json) : ∃ c l, render v = c :: l ∧ c ≠ ']' ∧ c ≠ '\x7d'
    ∧ (c == ' ' || c == '\n' || c == '\r' || c == '\t') = false := by
  have hint : ∀ (n : ℤ) (r : List Char), ∃ c l, renderInt n ++ r = c :: l ∧ c ≠ ']' ∧ c ≠ '\x7d'
      ∧ (c == ' ' || c == '\n' || c == '\r' || c == '\t') = false := by
    intro n r
    cases n with
    | ofNat n =>
        cases hd : Nat.toDigits 10 n with
        | nil => exact absurd hd Nat.toDigits_ne_nil
        | cons d ds =>
            have hdig : d.isDigit = true := toDigits_isDigit n d (by rw [hd]; exact List.mem_cons_self)
            refine ⟨d, ds ++ r, by rw [renderInt, hd, List.cons_append], ?_, ?_, ?_⟩
            · rintro rfl; exact absurd hdig (by decide)
            · rintro rfl; exact absurd hdig (by decide)
            · by_contra hc
              simp only [Bool.not_eq_false, Bool.or_eq_true, beq_iff_eq] at hc
              rcases hc with ((rfl | rfl) | rfl) | rfl <;> exact absurd hdig (by decide)
    | negSucc n => exact ⟨'-', _, rfl, by decide, by decide, by decide⟩
  cases v with
  | null => exact ⟨_, _, rfl, by decide, by decide, by decide⟩
  | bool b => cases b <;> exact ⟨_, _, rfl, by decide, by decide, by decide⟩
  | int n =>
      have h := hint n []
      rwa [List.append_nil] at h
  | real q => exact hint q.num _
  | str s => exact ⟨_, _, rfl, by decide, by decide, by decide⟩
  | arr xs => exact ⟨_, _, rfl, by decide, by decide, by decide⟩
  | obj o => exact ⟨_, _, rfl, by decide, by decide, by decide⟩

theorem skip_cons {c : Char} (h : (c == ' ' || c == '\n' || c == '\r' || c == '\t') = false)
    (l : List Char) : skip (c :: l) = c :: l := by
  rw [skip, List.dropWhile_cons_of_neg (by simp [h])]

theorem skip_render (v : Json) (r : List Char) : skip (render v ++ r) = render v ++ r := by
  obtain ⟨c, l, hv, -, -, hs⟩ := render_head v
  rw [hv, List.cons_append, skip_cons hs]

/-- The reader on an integer: no other branch of its dispatch starts with a digit
or a minus sign. -/
theorem readValue_int (n : ℕ) (k : ℤ) {r : List Char} (hr : NoDigit r) :
    readValue (n + 1) (renderInt k ++ r) = some (.int k, r) := by
  have hskip : skip (renderInt k ++ r) = renderInt k ++ r := skip_render (.int k) r
  have hread := readInt_render k hr
  obtain ⟨c, l, hc, hcd⟩ : ∃ c l, renderInt k ++ r = c :: l ∧ (c.isDigit = true ∨ c = '-') := by
    cases k with
    | ofNat k =>
        cases hd : Nat.toDigits 10 k with
        | nil => exact absurd hd Nat.toDigits_ne_nil
        | cons d ds => exact ⟨d, ds ++ r, by rw [renderInt, hd, List.cons_append],
            .inl (toDigits_isDigit k d (by rw [hd]; exact List.mem_cons_self))⟩
    | negSucc k => exact ⟨'-', _, rfl, .inr rfl⟩
  rw [readValue.eq_def]
  simp only [hskip]
  rw [hc] at hread ⊢
  split
  all_goals first
    | (simp only [hread, Option.map_some])
    | (rename_i heq
       rw [List.cons.injEq] at heq
       rcases hcd with h | h
       · rw [heq.1] at h; exact absurd h (by decide)
       · rw [heq.1] at h; exact absurd h (by decide))

/-- What `readValue` does after an opening bracket that no closing one follows. -/
theorem readValue_arr {n : ℕ} {c : Char} {l : List Char} (hc : c ≠ ']') (hs : skip (c :: l) = c :: l) :
    readValue (n + 1) ('[' :: c :: l) = (readElems n (c :: l)).map fun p => (.arr p.1, p.2) := by
  rw [readValue.eq_def]
  simp only [skip_cons (c := '[') (by decide), hs]
  split
  · rename_i heq
    rw [List.cons.injEq] at heq
    exact absurd heq.1 hc
  · rfl

/-- What `readValue` does after an opening brace that no closing one follows. -/
theorem readValue_obj {n : ℕ} {c : Char} {l : List Char} (hc : c ≠ '\x7d')
    (hs : skip (c :: l) = c :: l) :
    readValue (n + 1) ('\x7b' :: c :: l)
      = (readMembers n (c :: l)).map fun p => (.obj (Assoc.putAll [] p.1), p.2) := by
  rw [readValue.eq_def]
  simp only [skip_cons (c := '\x7b') (by decide), hs]
  split
  · rename_i heq
    rw [List.cons.injEq] at heq
    exact absurd heq.1 hc
  · rfl

/-- What `readElems` does once its first element is read. -/
theorem readElems_of_value {n : ℕ} {l r : List Char} {v : Json}
    (h : readValue n l = some (v, r)) :
    readElems (n + 1) l = match skip r with
      | ',' :: r' => (readElems n r').map fun p => (v :: p.1, p.2)
      | ']' :: r' => some ([v], r')
      | _ => none := by
  rw [readElems.eq_def]
  simp only [h, Option.bind_eq_bind, Option.bind_some]
  split
  · rename_i r' _
    cases readElems n r' <;> rfl
  · rfl
  · rfl

/-- What `readMembers` does once its first member is read. -/
theorem readMembers_of_value {n : ℕ} {k : String} {l r : List Char} {v : Json}
    (h : readValue n l = some (v, r)) :
    readMembers (n + 1) (renderString k ++ ':' :: l) = match skip r with
      | ',' :: r' => (readMembers n r').map fun p => ((k, v) :: p.1, p.2)
      | '\x7d' :: r' => some ([(k, v)], r')
      | _ => none := by
  have hk := readString_render k.toList (':' :: l)
  rw [readMembers.eq_def]
  simp only [renderString, List.cons_append, List.append_assoc, List.nil_append,
    skip_cons (c := '"') (by decide), hk, Option.bind_eq_bind, Option.bind_some,
    skip_cons (c := ':') (by decide), h, String.ofList_toList]
  split
  · rename_i r' _
    cases readMembers n r' <;> rfl
  · rfl
  · rfl

/-- The reader inverts the printer, for values, elements and members at once. The
induction is on the fuel; each of the three calls the others with one unit less. -/
theorem read_render (n : ℕ) :
    (∀ v r, Json.plain v = true → size v ≤ n → NoDigit r →
      readValue n (render v ++ r) = some (v, r))
    ∧ (∀ v rest r, Json.plain v = true → Json.plainList rest = true →
      1 + size v + sizeList rest ≤ n →
      readElems n (render v ++ (renderTail rest ++ ']' :: r)) = some (v :: rest, r))
    ∧ (∀ (e : String × Json) rest r, Json.plain e.2 = true → Json.plainObject rest = true →
      1 + size e.2 + sizeMembers rest ≤ n →
      readMembers n (renderString e.1 ++ ':' :: (render e.2
        ++ (renderMembersTail rest ++ '\x7d' :: r))) = some (e :: rest, r)) := by
  -- by induction on the fuel, for values, elements and members at once
  induction n with
  | zero =>
      refine ⟨?_, ?_, ?_⟩
      · intro v r _ hn _
        cases v <;> simp [size] at hn
      · intro v rest r _ _ hn
        omega
      · intro e rest r _ _ hn
        omega
  | succ n ih =>
      obtain ⟨ihv, ihe, ihm⟩ := ih
      refine ⟨?_, ?_, ?_⟩
      · intro v r hp hn hr
        cases v with
        | null => simp [render, readValue, skip_cons]
        | bool b => cases b <;> simp [render, readValue, skip_cons]
        | int k => exact readValue_int n k hr
        | real q => simp [Json.plain] at hp
        | str s =>
            have hs := readString_render s.toList r
            simp only [render, renderString, List.cons_append, List.append_assoc, List.nil_append,
              readValue, skip_cons (c := '"') (by decide), hs, Option.map_some,
              String.ofList_toList]
        | arr xs =>
            cases xs with
            | nil => simp [render, renderList, readValue, skip_cons]
            | cons v rest =>
                obtain ⟨c, l, hv, hc, -, hs⟩ := render_head v
                simp only [Json.plain, Json.plainList, Bool.and_eq_true] at hp
                simp only [size, sizeList] at hn
                have he := ihe v rest r hp.1 hp.2 (by omega)
                -- what is behind an element is a comma or the bracket
                have htext : render (.arr (v :: rest)) ++ r
                    = '[' :: c :: (l ++ (renderTail rest ++ ']' :: r)) := by
                  simp [render, renderList, hv]
                rw [hv] at he
                rw [htext, readValue_arr hc (skip_cons hs _)]
                rw [List.cons_append] at he
                rw [he]
                rfl
        | obj o =>
            cases o with
            | nil => simp [render, renderMembers, readValue, skip_cons]
            | cons e rest =>
                simp only [Json.plain, Json.plainObject, Bool.and_eq_true,
                  decide_eq_true_eq] at hp
                simp only [size, sizeMembers] at hn
                have he := ihm e rest r hp.1.1 hp.1.2 (by omega)
                have htext : render (.obj (e :: rest)) ++ r
                    = '\x7b' :: (renderString e.1 ++ ':' :: (render e.2
                      ++ (renderMembersTail rest ++ '\x7d' :: r))) := by
                  simp [render, renderMembers]
                -- the members are put one by one, and no key stands twice
                have hput : Assoc.putAll [] (e :: rest) = e :: rest :=
                  Assoc.putAll_eq_append (e :: rest) [] hp.2
                rw [renderString, List.cons_append] at he htext
                rw [htext, readValue_obj (by decide) (skip_cons (by decide) _), he, Option.map_some,
                  hput]
      · intro v rest r hp hps hn
        -- no digit follows a value that is an element
        have hv : readValue n (render v ++ (renderTail rest ++ ']' :: r))
            = some (v, renderTail rest ++ ']' :: r) := by
          refine ihv v _ hp (by omega) ?_
          cases rest with
          | nil => exact noDigit_cons (by decide) _
          | cons w ws => exact noDigit_cons (by decide) _
        rw [readElems_of_value hv]
        cases rest with
        | nil => simp [renderTail, skip_cons]
        | cons w ws =>
            simp only [Json.plainList, Bool.and_eq_true] at hps
            simp only [sizeList] at hn
            have he := ihe w ws r hps.1 hps.2 (by omega)
            simp only [renderTail, List.cons_append, List.append_assoc,
              skip_cons (c := ',') (by decide), he, Option.map_some]
      · intro e rest r hp hps hn
        -- nor one that is a member
        have hv : readValue n (render e.2 ++ (renderMembersTail rest ++ '\x7d' :: r))
            = some (e.2, renderMembersTail rest ++ '\x7d' :: r) := by
          refine ihv e.2 _ hp (by omega) ?_
          cases rest with
          | nil => exact noDigit_cons (by decide) _
          | cons w ws => exact noDigit_cons (by decide) _
        rw [readMembers_of_value hv]
        cases rest with
        | nil => simp [renderMembersTail, skip_cons]
        | cons w ws =>
            simp only [Json.plainObject, Bool.and_eq_true] at hps
            simp only [sizeMembers] at hn
            have he := ihm w ws r hps.1 hps.2 (by omega)
            simp only [renderMembersTail, List.cons_append, List.append_assoc,
              skip_cons (c := ',') (by decide), he, Option.map_some]

/-! ## The text is enough fuel

The fuel is the length of the text. A printed value is at least as long as the fuel it needs, by
induction over the value once more. -/

mutual
/-- Printed text is long enough for the fuel; so it is for lists and members. -/
theorem size_le_length : ∀ v : Json, size v ≤ (render v).length
  | .null => by simp [size, render]
  | .bool true => by simp [size, render]
  | .bool false => by simp [size, render]
  | .int n => by
      obtain ⟨c, l, h, -⟩ := render_head (.int n)
      simp [size, h]
  | .real q => by
      obtain ⟨c, l, h, -⟩ := render_head (.real q)
      simp [size, h]
  | .str s => by simp [size, render, renderString]
  | .arr [] => by simp [size, sizeList, render]
  | .arr (v :: rest) => by
      have h1 := size_le_length v
      have h2 := sizeList_le_length rest
      simp only [size, sizeList, render, renderList, List.length_cons, List.length_append]
      simp only [List.length_nil]
      omega
  | .obj [] => by simp [size, sizeMembers, render]
  | .obj (e :: rest) => by
      have h1 := size_le_length e.2
      have h2 := sizeMembers_le_length rest
      simp only [size, sizeMembers, render, renderMembers, List.length_cons, List.length_append]
      simp only [List.length_nil]
      omega
theorem sizeList_le_length : ∀ xs : List Json, sizeList xs ≤ (renderTail xs).length
  | [] => by simp [sizeList]
  | v :: rest => by
      have h1 := size_le_length v
      have h2 := sizeList_le_length rest
      simp only [sizeList, renderTail, List.length_cons, List.length_append]
      omega
theorem sizeMembers_le_length : ∀ o : List (String × Json),
    sizeMembers o ≤ (renderMembersTail o).length
  | [] => by simp [sizeMembers]
  | e :: rest => by
      have h1 := size_le_length e.2
      have h2 := sizeMembers_le_length rest
      simp only [sizeMembers, renderMembersTail, List.length_cons, List.length_append]
      omega
end

/-- **The law.** A printed plain value parses to itself. -/
theorem parse_render {v : Json} (h : Json.plain v = true) : parse (.ofList (render v)) = some v := by
  have hsize := size_le_length v
  have hread := (read_render ((render v).length + 1)).1 v [] h (by omega) noDigit_nil
  rw [List.append_nil] at hread
  simp only [parse, String.toList_ofList, hread]
  rfl

/-- A concrete `org.json`: this printer and this reader. -/
def library : OrgJson where
  text v := .ofList (render v)
  boolOf s := if s = "true" then some true else if s = "false" then some false else none
  numberOf s := (readInt s.toList).bind fun p => if p.2 = [] then some p.1 else none
  parseObject s := (parse s).bind Json.asObject
  parseArray s := (parse s).bind Json.asArray
  parse_text o h := ⟨o, by rw [parse_render h]; rfl, fun _ => rfl⟩
  parse_empty := rfl

end VlessCard.JsonText
