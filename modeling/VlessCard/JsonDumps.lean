/-
The text that `json.dumps` of Python writes with sorted keys, without spaces and in ASCII.

An object is the list of its members in the order of their keys, which is what a dictionary is
up to equality. A float is known by its `repr`. Two facts are what a text is used for as a key:
a value can be read off its text, and an object's text stands out at the end of a longer one --
behind a bar only one object begins that ends with the text. The second is proved with a
scanner of three modes: a bar outside a string stops it, and one character cannot be inside and
outside a string in turn and be so to the end.
-/
import VlessCard.JsonText

set_option autoImplicit false

namespace VlessCard.JsonDumps

/-! ## Values and their texts

Members are sorted by their keys, there is no space, and everything outside ASCII is escaped by
number. A float is its `repr`, of which only the signs it is written in matter. -/

/-- The characters a number is written with. -/
def numeric : List Char := "0123456789+-.eNaInfity".toList

/-- The characters it may start with. -/
def numericHead : List Char := "0123456789-NI".toList

/-- The `repr` of a float: its characters are those of a number, and one of them tells it from
an integer. -/
structure Numeral where
  head : Char
  tail : List Char
  head_mem : head ∈ numericHead
  tail_mem : ∀ c ∈ tail, c ∈ numeric
  no_int : ∃ c ∈ head :: tail, c ∉ "0123456789-".toList

namespace Numeral

def text (t : Numeral) : List Char := t.head :: t.tail

/-- Two numerals that print alike are one. -/
theorem ext {t u : Numeral} (h : t.text = u.text) : t = u := by
  obtain ⟨a, l, _, _, _⟩ := t
  obtain ⟨b, m, _, _, _⟩ := u
  obtain ⟨rfl, rfl⟩ := List.cons.inj h
  rfl

end Numeral

/-- A value that came out of `json.loads`. -/
inductive Value where
  | null
  | bool (b : Bool)
  | int (n : ℤ)
  | float (t : Numeral)
  | str (s : String)
  | arr (xs : List Value)
  | obj (o : List (String × Value))

open JsonText (hexDigit renderInt)

/-- A UTF-16 code unit, escaped. -/
def unit (n : ℕ) : List Char :=
  ['\\', 'u', hexDigit (n / 4096), hexDigit (n / 256 % 16), hexDigit (n / 16 % 16), hexDigit (n % 16)]

/-- The letter of a character with a short escape. -/
def short (c : Char) : Option Char :=
  if c = '"' then some '"' else if c = '\\' then some '\\' else if c = '\n' then some 'n'
  else if c = '\r' then some 'r' else if c = '\t' then some 't' else if c = '\x08' then some 'b'
  else if c = '\x0c' then some 'f' else none

/-- One character inside a string. -/
def escape (c : Char) : List Char :=
  match short c with
  | some e => ['\\', e]
  | none =>
    if 32 ≤ c.toNat ∧ c.toNat ≤ 126 then [c]
    else if c.toNat < 0x10000 then unit c.toNat
    else unit (0xd800 + (c.toNat - 0x10000) / 1024) ++ unit (0xdc00 + (c.toNat - 0x10000) % 1024)

/-- A string in quotes. -/
def quote (s : String) : List Char := '"' :: (s.toList.flatMap escape ++ ['"'])

mutual
/-- `json.dumps(v, sort_keys=True, separators=(",", ":"))`. -/
def dumps : Value → List Char
  | .null => ['n', 'u', 'l', 'l']
  | .bool true => ['t', 'r', 'u', 'e']
  | .bool false => ['f', 'a', 'l', 's', 'e']
  | .int n => renderInt n
  | .float t => t.text
  | .str s => quote s
  | .arr xs => '[' :: (elements xs ++ [']'])
  | .obj o => '\x7b' :: (members o ++ ['\x7d'])
/-- The elements of an array, with a comma before all but the first. -/
def elements : List Value → List Char
  | [] => []
  | v :: rest => dumps v ++ moreElements rest
def moreElements : List Value → List Char
  | [] => []
  | v :: rest => ',' :: (dumps v ++ moreElements rest)
/-- The members of an object. -/
def members : List (String × Value) → List Char
  | [] => []
  | e :: rest => quote e.1 ++ ':' :: (dumps e.2 ++ moreMembers rest)
def moreMembers : List (String × Value) → List Char
  | [] => []
  | e :: rest => ',' :: (quote e.1 ++ ':' :: (dumps e.2 ++ moreMembers rest))
end

/-! ## Strings are read off their text

Each character of a text is written in one of three ways, and from what is written its kind can
be told. So a text that begins with a quoted string determines that string and what follows it. -/

/-- The sixteen digits differ, so an escape tells the number it stands for. -/
theorem hexDigit_inj {m n : ℕ} (hm : m < 16) (hn : n < 16) (h : hexDigit m = hexDigit n) : m = n := by
  have hm' := JsonText.hexValue_hexDigit m hm
  rw [h, JsonText.hexValue_hexDigit n hn] at hm'
  exact (Option.some.inj hm').symm

/-- A `\u` escape can be read back from the front of a text, for it has always four digits. -/
theorem unit_append_inj {m n : ℕ} (hm : m < 65536) (hn : n < 65536) {r s : List Char}
    (h : unit m ++ r = unit n ++ s) : m = n ∧ r = s := by
  unfold unit at h
  simp only [List.cons_append, List.nil_append, List.cons.injEq, true_and] at h
  obtain ⟨h1, h2, h3, h4, hrest⟩ := h
  have e1 := hexDigit_inj (by omega) (by omega) h1
  have e2 := hexDigit_inj (by omega) (by omega) h2
  have e3 := hexDigit_inj (by omega) (by omega) h3
  have e4 := hexDigit_inj (by omega) (by omega) h4
  exact ⟨by omega, hrest⟩

/-- What a short escape is of. -/
theorem short_eq_some {c e : Char} (h : short c = some e) :
    (c, e) ∈ [('"', '"'), ('\\', '\\'), ('\n', 'n'), ('\r', 'r'), ('\t', 't'), ('\x08', 'b'), ('\x0c', 'f')] := by
  unfold short at h
  split_ifs at h with h1 h2 h3 h4 h5 h6 h7
  all_goals
    obtain rfl := Option.some.inj h
    subst_vars
    simp

theorem short_inj {c d e : Char} (hc : short c = some e) (hd : short d = some e) : c = d := by
  have hc' := short_eq_some hc
  have hd' := short_eq_some hd
  simp only [List.mem_cons, Prod.mk.injEq, List.not_mem_nil, or_false] at hc' hd'
  rcases hc' with ⟨rfl, rfl⟩ | ⟨rfl, rfl⟩ | ⟨rfl, rfl⟩ | ⟨rfl, rfl⟩ | ⟨rfl, rfl⟩ | ⟨rfl, rfl⟩ | ⟨rfl, rfl⟩ <;>
    exact Eq.symm (by simpa using hd')

/-- The quote is escaped, so it cannot end a text. -/
theorem short_quote : short '"' = some '"' := rfl

/-- The backslash is escaped, so it starts an escape and nothing else. -/
theorem short_backslash : short '\\' = some '\\' := rfl

/-- The three ways a character is written. -/
inductive Escaped (c : Char) : List Char → Prop where
  | short (e : Char) (h : short c = some e) : Escaped c ['\\', e]
  | plain (h : short c = none) : Escaped c [c]
  | unit (h : c.toNat < 0x10000) : Escaped c (unit c.toNat)
  | pair (h : 0x10000 ≤ c.toNat) :
    Escaped c (unit (0xd800 + (c.toNat - 0x10000) / 1024) ++ unit (0xdc00 + (c.toNat - 0x10000) % 1024))

/-- Each character is printed in one of the three ways that `Escaped` lists. -/
theorem escaped_escape (c : Char) : Escaped c (escape c) := by
  unfold escape
  split
  · rename_i e he
    exact .short e he
  · rename_i he
    split_ifs with h1 h2
    · exact .plain he
    · exact .unit h2
    · exact .pair (not_lt.mp h2)

/-- A character is not half of a pair. -/
theorem not_surrogate (c : Char) : ¬(0xd800 ≤ c.toNat ∧ c.toNat < 0xe000) := by
  have hvalid := c.valid
  intro h
  rcases hvalid with hlow | ⟨hhigh, -⟩
  · have hlow' : c.toNat < 0xd800 := hlow
    omega
  · have hhigh' : 0xdfff < c.toNat := hhigh
    omega

/-- A character is a code point, so two units are enough for it. -/
theorem toNat_lt (c : Char) : c.toNat < 0x110000 := by
  have hvalid := c.valid
  rcases hvalid with hlow | ⟨-, hhigh⟩
  · have hlow' : c.toNat < 0xd800 := hlow
    omega
  · exact hhigh

/-- A character that is not written with a backslash is no backslash. -/
theorem ne_backslash_of_short {c : Char} (h : short c = none) : c ≠ '\\' := by
  rintro rfl
  rw [short_backslash] at h
  cases h

/-- A short escape is never mistaken for one by number. -/
theorem ne_u_of_short {c e : Char} (h : short c = some e) : e ≠ 'u' := by
  have hmem := short_eq_some h
  rintro rfl
  simp at hmem

/-- **A character is read off its escape.** -/
theorem escape_append_inj {c d : Char} {r s : List Char} (h : escape c ++ r = escape d ++ s) : c = d ∧ r = s := by
  have hc := escaped_escape c
  have hd := escaped_escape d
  have hlt := toNat_lt c
  have hlt' := toNat_lt d
  have hno := not_surrogate c
  have hno' := not_surrogate d
  generalize escape c = ec at h hc
  generalize escape d = ed at h hd
  -- sixteen cases, by the way in which each of the two was written
  cases hc with
  | short e he =>
    cases hd with
    | short e' he' =>
      simp only [List.cons_append, List.nil_append, List.cons.injEq, true_and] at h
      obtain ⟨rfl, hrest⟩ := h
      exact ⟨short_inj he he', hrest⟩
    | plain he' => exact absurd (List.cons.inj h).1.symm (ne_backslash_of_short he')
    | unit _ => exact absurd (List.cons.inj (List.cons.inj h).2).1 (ne_u_of_short he)
    | pair _ => exact absurd (List.cons.inj (List.cons.inj h).2).1 (ne_u_of_short he)
  | plain he =>
    cases hd with
    | short _ _ => exact absurd (List.cons.inj h).1 (ne_backslash_of_short he)
    | plain _ => exact List.cons.inj h
    | unit _ => exact absurd (List.cons.inj h).1 (ne_backslash_of_short he)
    | pair _ => exact absurd (List.cons.inj h).1 (ne_backslash_of_short he)
  | unit hc =>
    cases hd with
    | short _ he' => exact absurd (List.cons.inj (List.cons.inj h).2).1.symm (ne_u_of_short he')
    | plain he' => exact absurd (List.cons.inj h).1.symm (ne_backslash_of_short he')
    | unit hd =>
      obtain ⟨heq, hrest⟩ := unit_append_inj (by omega) (by omega) h
      exact ⟨Char.toNat_inj.mp heq, hrest⟩
    | pair hd =>
      -- one unit is no half of a surrogate pair
      rw [List.append_assoc] at h
      have heq := (unit_append_inj (by omega) (by omega) h).1
      omega
  | pair hc =>
    cases hd with
    | short _ he' => exact absurd (List.cons.inj (List.cons.inj h).2).1.symm (ne_u_of_short he')
    | plain he' => exact absurd (List.cons.inj h).1.symm (ne_backslash_of_short he')
    | unit hd =>
      rw [List.append_assoc] at h
      have heq := (unit_append_inj (by omega) (by omega) h).1
      omega
    | pair hd =>
      rw [List.append_assoc, List.append_assoc] at h
      obtain ⟨hhigh, hrest⟩ := unit_append_inj (by omega) (by omega) h
      obtain ⟨hlow, hrest⟩ := unit_append_inj (by omega) (by omega) hrest
      exact ⟨Char.toNat_inj.mp (by omega), hrest⟩

/-- No character is written with a quote in front. -/
theorem escape_ne_quote (c : Char) (r s : List Char) : escape c ++ r ≠ '"' :: s := by
  have hc := escaped_escape c
  generalize escape c = ec at hc
  intro h
  cases hc with
  | short _ _ => exact absurd (List.cons.inj h).1 (by decide)
  | plain he =>
    rw [(List.cons.inj h).1, short_quote] at he
    cases he
  | unit _ => exact absurd (List.cons.inj h).1 (by decide)
  | pair _ => exact absurd (List.cons.inj h).1 (by decide)

/-- A quoted text ends at its first bare quote, and up to there it can be read back. -/
theorem flatMap_escape_inj {l m r s : List Char} (h : l.flatMap escape ++ '"' :: r = m.flatMap escape ++ '"' :: s) :
    l = m ∧ r = s := by
  induction l generalizing m with
  | nil =>
    cases m with
    | nil => exact ⟨rfl, (List.cons.inj h).2⟩
    | cons d m =>
      rw [List.flatMap_cons, List.append_assoc] at h
      exact absurd h.symm (escape_ne_quote d _ _)
  | cons c l ih =>
    rw [List.flatMap_cons, List.append_assoc] at h
    cases m with
    | nil => exact absurd h (escape_ne_quote c _ _)
    | cons d m =>
      rw [List.flatMap_cons, List.append_assoc] at h
      obtain ⟨rfl, hrest⟩ := escape_append_inj h
      obtain ⟨rfl, hrs⟩ := ih hrest
      exact ⟨rfl, hrs⟩

/-- A quoted text at the front of a longer one is read back, and what follows it with it. -/
theorem quote_append_inj {s t : String} {r r' : List Char} (h : quote s ++ r = quote t ++ r') : s = t ∧ r = r' := by
  unfold quote at h
  simp only [List.cons_append, List.append_assoc, List.nil_append, List.cons.injEq, true_and] at h
  obtain ⟨hchars, hrest⟩ := flatMap_escape_inj h
  exact ⟨String.toList_inj.mp hchars, hrest⟩

/-! ## Numbers are read off their text

A number ends where a character follows that no number has. Behind every number in a printed
value there is such a character, or the end. -/

/-- The text of a number ends here. -/
def Stop (r : List Char) : Prop := ∀ c ∈ r.head?, c ∉ numeric

/-- A character that no number has stops one. -/
theorem stop_cons {c : Char} (h : c ∉ numeric) (r : List Char) : Stop (c :: r) := by
  intro x hx
  cases hx
  exact h

/-- Two numbers at the front of one text are the same number, as soon as something stops them. -/
theorem numeric_append_inj {a b r s : List Char} (ha : ∀ c ∈ a, c ∈ numeric) (hb : ∀ c ∈ b, c ∈ numeric)
    (hr : Stop r) (hs : Stop s) (h : a ++ r = b ++ s) : a = b ∧ r = s := by
  have hspan : ∀ {l t : List Char}, (∀ c ∈ l, c ∈ numeric) → Stop t →
      (l ++ t).takeWhile (· ∈ numeric) = l := by
    intro l t hl ht
    rw [List.takeWhile_append_of_pos (by simpa using hl)]
    cases t with
    | nil => rw [List.takeWhile_nil, List.append_nil]
    | cons c t => rw [List.takeWhile_cons_of_neg (by simpa using ht c rfl), List.append_nil]
  have hab : a = b := by rw [← hspan ha hr, h, hspan hb hs]
  subst hab
  exact ⟨rfl, List.append_cancel_left h⟩

/-- The digits are those that a numeral is written in. -/
theorem isDigit_iff_mem {c : Char} (h : c.isDigit = true) : c ∈ "0123456789".toList := by
  have hrange : 48 ≤ c.toNat ∧ c.toNat ≤ 57 := Char.isDigit_iff_toNat.mp h
  rw [← Char.ofNat_toNat c]
  obtain ⟨hlow, hhigh⟩ := hrange
  generalize c.toNat = n at hlow hhigh
  interval_cases n <;> decide

/-- An integer is written with digits and a sign. -/
theorem mem_renderInt {n : ℤ} {c : Char} (h : c ∈ renderInt n) : c ∈ "0123456789-".toList := by
  have hsub : "0123456789".toList ⊆ "0123456789-".toList := by decide
  cases n with
  | ofNat n => exact hsub (isDigit_iff_mem (JsonText.toDigits_isDigit n c h))
  | negSucc n =>
    rcases List.mem_cons.mp h with rfl | hmem
    · decide
    · exact hsub (isDigit_iff_mem (JsonText.toDigits_isDigit (n + 1) c hmem))

/-- An integer is printed in characters of a number. -/
theorem numeric_renderInt (n : ℤ) : ∀ c ∈ renderInt n, c ∈ numeric := by
  have hsub : "0123456789-".toList ⊆ numeric := by decide
  exact fun c hc => hsub (mem_renderInt hc)

theorem numeric_text (t : Numeral) : ∀ c ∈ t.text, c ∈ numeric := by
  have hsub : numericHead ⊆ numeric := by decide
  intro c hc
  rcases List.mem_cons.mp hc with rfl | hmem
  · exact hsub t.head_mem
  · exact t.tail_mem c hmem

/-- An integer can be read back from its digits. -/
theorem renderInt_inj {m n : ℤ} (h : renderInt m = renderInt n) : m = n := by
  have hm := JsonText.readInt_render m JsonText.noDigit_nil
  rw [h, JsonText.readInt_render n JsonText.noDigit_nil] at hm
  exact (congrArg Prod.fst (Option.some.inj hm)).symm

/-- A float prints with a point or an exponent, so it is never taken for an integer. -/
theorem renderInt_ne_text (n : ℤ) (t : Numeral) : renderInt n ≠ t.text := by
  intro h
  obtain ⟨c, hc, hno⟩ := t.no_int
  exact hno (mem_renderInt (h ▸ hc : c ∈ renderInt n))

/-! ## Values are read off their text

The first character tells the kind of a value, and then its parts are read off one after the
other. The induction is over the value, with lists and objects in it. -/

/-- What a text tells by its first character. -/
inductive Kind where
  | null
  | bool (b : Bool)
  | number
  | str
  | arr
  | obj
  | none

def kindOf (c : Char) : Kind :=
  if c = 'n' then .null else if c = 't' then .bool true else if c = 'f' then .bool false
  else if c = '"' then .str else if c = '[' then .arr else if c = '\x7b' then .obj
  else if c ∈ numericHead then .number else .none

def Value.kind : Value → Kind
  | .null => .null
  | .bool b => .bool b
  | .int _ => .number
  | .float _ => .number
  | .str _ => .str
  | .arr _ => .arr
  | .obj _ => .obj

/-- The first character of a number tells that it is one. -/
theorem kindOf_numericHead {c : Char} (h : c ∈ numericHead) : kindOf c = .number := by
  have hheads : numericHead = ['0', '1', '2', '3', '4', '5', '6', '7', '8', '9', '-', 'N', 'I'] := by decide
  rw [hheads] at h
  simp only [List.mem_cons, List.not_mem_nil, or_false] at h
  rcases h with rfl | rfl | rfl | rfl | rfl | rfl | rfl | rfl | rfl | rfl | rfl | rfl | rfl <;> rfl

/-- The first character of what is printed tells the kind of the value. -/
theorem exists_dumps_cons (v : Value) : ∃ c l, dumps v = c :: l ∧ kindOf c = v.kind := by
  cases v with
  | null => exact ⟨'n', _, rfl, rfl⟩
  | bool b =>
    cases b with
    | true => exact ⟨'t', _, rfl, rfl⟩
    | false => exact ⟨'f', _, rfl, rfl⟩
  | int n =>
    have hsub : "0123456789-".toList ⊆ numericHead := by decide
    have hne : renderInt n ≠ [] := by
      intro hnil
      have hread := JsonText.readInt_render n JsonText.noDigit_nil
      rw [hnil] at hread
      cases hread
    obtain ⟨c, l, hcl⟩ := List.exists_cons_of_ne_nil hne
    exact ⟨c, l, hcl, kindOf_numericHead (hsub (mem_renderInt (hcl ▸ List.mem_cons_self : c ∈ renderInt n)))⟩
  | float t => exact ⟨t.head, t.tail, rfl, kindOf_numericHead t.head_mem⟩
  | str s => exact ⟨'"', _, rfl, rfl⟩
  | arr xs => exact ⟨'[', _, rfl, rfl⟩
  | obj o => exact ⟨'\x7b', _, rfl, rfl⟩

/-- Texts that begin alike are of values of one kind. -/
theorem kind_eq {v w : Value} {r s : List Char} (h : dumps v ++ r = dumps w ++ s) : v.kind = w.kind := by
  obtain ⟨c, l, hv, hkind⟩ := exists_dumps_cons v
  obtain ⟨d, m, hw, hkind'⟩ := exists_dumps_cons w
  rw [hv, hw] at h
  rw [← hkind, ← hkind', (List.cons.inj h).1]

/-- A number in a list ends at the comma behind it. -/
theorem stop_comma (r : List Char) : Stop (',' :: r) := stop_cons (by decide) r

/-- The last number of a list ends at the bracket. -/
theorem stop_bracket (r : List Char) : Stop (']' :: r) := stop_cons (by decide) r

/-- The last number of an object ends at the brace. -/
theorem stop_brace (r : List Char) : Stop ('\x7d' :: r) := stop_cons (by decide) r

/-- No value starts with the bracket that ends a list, so an empty list is told from one with elements. -/
theorem dumps_ne_bracket (v : Value) (r s : List Char) : dumps v ++ r ≠ ']' :: s := by
  obtain ⟨c, l, hv, hkind⟩ := exists_dumps_cons v
  intro h
  rw [hv] at h
  rw [(List.cons.inj h).1] at hkind
  have hnone : kindOf ']' = .none := rfl
  cases v <;> cases hnone.symm.trans hkind

/-- What follows an element in an array stops a number. -/
theorem stop_moreElements (xs : List Value) (r : List Char) : Stop (moreElements xs ++ ']' :: r) := by
  cases xs with
  | nil => exact stop_bracket r
  | cons v xs => exact stop_comma _

/-- Whatever members follow, a number before them has ended. -/
theorem stop_moreMembers (o : List (String × Value)) (r : List Char) : Stop (moreMembers o ++ '\x7d' :: r) := by
  cases o with
  | nil => exact stop_brace r
  | cons e o => exact stop_comma _

mutual
/-- **A value is read off its text**, by recursion on the value. -/
theorem dumps_append_inj (v w : Value) {r s : List Char} (hr : Stop r) (hs : Stop s)
    (h : dumps v ++ r = dumps w ++ s) : v = w ∧ r = s := by
  have hkind := kind_eq h
  -- the kinds agree, so only values of one kind are compared
  cases v with
  | null =>
    cases w <;> cases hkind
    exact ⟨rfl, List.append_cancel_left h⟩
  | bool b =>
    cases w <;> cases hkind
    exact ⟨rfl, List.append_cancel_left h⟩
  | int m =>
    cases w <;> cases hkind
    case int.int.refl n =>
      obtain ⟨htext, hrest⟩ := numeric_append_inj (numeric_renderInt m) (numeric_renderInt n) hr hs h
      exact ⟨congrArg Value.int (renderInt_inj htext), hrest⟩
    case int.float.refl t =>
      exact absurd (numeric_append_inj (numeric_renderInt m) (numeric_text t) hr hs h).1 (renderInt_ne_text m t)
  | float t =>
    cases w <;> cases hkind
    case float.int.refl n =>
      exact absurd (numeric_append_inj (numeric_text t) (numeric_renderInt n) hr hs h).1.symm (renderInt_ne_text n t)
    case float.float.refl u =>
      obtain ⟨htext, hrest⟩ := numeric_append_inj (numeric_text t) (numeric_text u) hr hs h
      exact ⟨congrArg Value.float (Numeral.ext htext), hrest⟩
  | str a =>
    cases w <;> cases hkind
    case str.str.refl b =>
      obtain ⟨htext, hrest⟩ := quote_append_inj h
      exact ⟨congrArg Value.str htext, hrest⟩
  | arr xs =>
    cases w <;> cases hkind
    case arr.arr.refl ys =>
      simp only [dumps, List.cons_append, List.append_assoc, List.nil_append, List.cons.injEq, true_and] at h
      obtain ⟨hxs, hrest⟩ := elements_append_inj xs ys h
      exact ⟨congrArg Value.arr hxs, hrest⟩
  | obj o =>
    cases w <;> cases hkind
    case obj.obj.refl p =>
      simp only [dumps, List.cons_append, List.append_assoc, List.nil_append, List.cons.injEq, true_and] at h
      obtain ⟨ho, hrest⟩ := members_append_inj o p h
      exact ⟨congrArg Value.obj ho, hrest⟩
termination_by sizeOf v
/-- The elements of a list are read back up to its bracket. -/
theorem elements_append_inj (xs ys : List Value) {r s : List Char}
    (h : elements xs ++ ']' :: r = elements ys ++ ']' :: s) : xs = ys ∧ r = s := by
  cases xs with
  | nil =>
    cases ys with
    | nil => exact ⟨rfl, (List.cons.inj h).2⟩
    | cons w ys =>
      rw [elements, elements, List.append_assoc] at h
      exact absurd h.symm (dumps_ne_bracket w _ _)
  | cons v xs =>
    cases ys with
    | nil =>
      rw [elements, elements, List.append_assoc] at h
      exact absurd h (dumps_ne_bracket v _ _)
    | cons w ys =>
      rw [elements, elements, List.append_assoc, List.append_assoc] at h
      obtain ⟨rfl, hmore⟩ := dumps_append_inj v w (stop_moreElements xs r) (stop_moreElements ys s) h
      obtain ⟨rfl, hrest⟩ := moreElements_append_inj xs ys hmore
      exact ⟨rfl, hrest⟩
termination_by sizeOf xs
/-- The same behind the first element, where each has a comma before it. -/
theorem moreElements_append_inj (xs ys : List Value) {r s : List Char}
    (h : moreElements xs ++ ']' :: r = moreElements ys ++ ']' :: s) : xs = ys ∧ r = s := by
  cases xs with
  | nil =>
    cases ys with
    | nil => exact ⟨rfl, (List.cons.inj h).2⟩
    | cons w ys => exact absurd (List.cons.inj h).1 (by decide)
  | cons v xs =>
    cases ys with
    | nil => exact absurd (List.cons.inj h).1 (by decide)
    | cons w ys =>
      rw [moreElements, moreElements, List.cons_append, List.cons_append, List.append_assoc, List.append_assoc] at h
      obtain ⟨rfl, hmore⟩ :=
        dumps_append_inj v w (stop_moreElements xs r) (stop_moreElements ys s) (List.cons.inj h).2
      obtain ⟨rfl, hrest⟩ := moreElements_append_inj xs ys hmore
      exact ⟨rfl, hrest⟩
termination_by sizeOf xs
/-- The members of an object are read back up to its brace, in their order. -/
theorem members_append_inj : ∀ (o p : List (String × Value)) {r s : List Char},
    members o ++ '\x7d' :: r = members p ++ '\x7d' :: s → o = p ∧ r = s
  | [], [], _, _, h => ⟨rfl, (List.cons.inj h).2⟩
  | [], _ :: _, _, _, h => absurd (List.cons.inj h).1 (by decide)
  | _ :: _, [], _, _, h => absurd (List.cons.inj h).1 (by decide)
  | (k, v) :: o, (k', w) :: p, r, s, h => by
    rw [members, members, List.append_assoc, List.append_assoc] at h
    obtain ⟨rfl, hvalue⟩ := quote_append_inj h
    rw [List.cons_append, List.cons_append, List.append_assoc, List.append_assoc] at hvalue
    obtain ⟨rfl, hmore⟩ :=
      dumps_append_inj v w (stop_moreMembers o r) (stop_moreMembers p s) (List.cons.inj hvalue).2
    obtain ⟨rfl, hrest⟩ := moreMembers_append_inj o p hmore
    exact ⟨rfl, hrest⟩
termination_by o => sizeOf o
theorem moreMembers_append_inj : ∀ (o p : List (String × Value)) {r s : List Char},
    moreMembers o ++ '\x7d' :: r = moreMembers p ++ '\x7d' :: s → o = p ∧ r = s
  | [], [], _, _, h => ⟨rfl, (List.cons.inj h).2⟩
  | [], _ :: _, _, _, h => absurd (List.cons.inj h).1 (by decide)
  | _ :: _, [], _, _, h => absurd (List.cons.inj h).1 (by decide)
  | (k, v) :: o, (k', w) :: p, r, s, h => by
    rw [moreMembers, moreMembers, List.cons_append, List.cons_append, List.append_assoc, List.append_assoc] at h
    obtain ⟨rfl, hvalue⟩ := quote_append_inj (List.cons.inj h).2
    rw [List.cons_append, List.cons_append, List.append_assoc, List.append_assoc] at hvalue
    obtain ⟨rfl, hmore⟩ :=
      dumps_append_inj v w (stop_moreMembers o r) (stop_moreMembers p s) (List.cons.inj hvalue).2
    obtain ⟨rfl, hrest⟩ := moreMembers_append_inj o p hmore
    exact ⟨rfl, hrest⟩
termination_by o => sizeOf o
end

/-- Two values that `json.dumps` prints alike are one value. -/
theorem dumps_inj {v w : Value} (h : dumps v = dumps w) : v = w := by
  have hstop : Stop [] := fun c hc => absurd hc (by simp)
  exact (dumps_append_inj v w hstop hstop (congrArg (· ++ []) h)).1

/-! ## A text at the end of a longer one

A text is scanned by a machine of three modes: outside of strings, inside one, and behind a
backslash. From two different modes one text never leads to the same, so where a string is open
is determined by its end. -/

/-- Where a scanner is: outside strings, inside one, or behind a backslash in one. -/
inductive Lex where
  | out
  | inside
  | escaped

/-- One character; `none` where no value has it. -/
def Lex.next : Lex → Char → Option Lex
  | .out, c => if c = '"' then some .inside else if c = '\\' ∨ c = '|' then none else some .out
  | .inside, c => if c = '"' then some .out else if c = '\\' then some .escaped else some .inside
  | .escaped, c => if c ∈ ['"', '\\', 'n', 'r', 't', 'b', 'f', 'u'] then some .inside else none

/-- Outside of texts only a quote, a backslash and a bar matter to the scan. -/
theorem next_out (c : Char) :
    Lex.out.next c = if c = '"' then some .inside else if c = '\\' ∨ c = '|' then none else some .out := rfl

/-- Within a text only a quote and a backslash matter to it. -/
theorem next_inside (c : Char) :
    Lex.inside.next c = if c = '"' then some .out else if c = '\\' then some .escaped else some .inside := rfl

def scan (m : Lex) (l : List Char) : Option Lex := l.foldlM Lex.next m

/-- The scan reads character by character. -/
theorem scan_cons (m : Lex) (c : Char) (l : List Char) : scan m (c :: l) = (m.next c).bind fun m' => scan m' l := by
  unfold scan
  rw [List.foldlM_cons]
  rfl

/-- The scan of a text that was put together is the scan of its pieces, one after the other. -/
theorem scan_append (m : Lex) (a b : List Char) : scan m (a ++ b) = (scan m a).bind fun m' => scan m' b := by
  unfold scan
  rw [List.foldlM_append]
  rfl

/-- A character outside a string and inside one. -/
theorem next_apart {c : Char} {m n : Lex} (hm : Lex.out.next c = some m) (hn : Lex.inside.next c = some n) :
    (m = .out ∧ n = .inside) ∨ (m = .inside ∧ n = .out) := by
  rw [next_out] at hm
  rw [next_inside] at hn
  by_cases hquote : c = '"'
  · rw [if_pos hquote] at hm hn
    cases hm
    cases hn
    exact .inr ⟨rfl, rfl⟩
  · rw [if_neg hquote] at hm hn
    by_cases hslash : c = '\\'
    · rw [if_pos (.inl hslash)] at hm
      cases hm
    · rw [if_neg hslash] at hn
      cases hn
      split at hm
      · cases hm
      · cases hm
        exact .inl ⟨rfl, rfl⟩

/-- **Inside and outside stay apart.** A text scanned from both is never scanned to the same
mode: what is behind a backslash inside a string has no place outside one. -/
theorem scan_apart {l : List Char} {a b : Lex} (ha : scan .out l = some a) (hb : scan .inside l = some b) :
    (a = .out ∧ b = .inside) ∨ (a = .inside ∧ b = .out) := by
  suffices hboth : ∀ {m n : Lex}, (m = .out ∧ n = .inside) ∨ (m = .inside ∧ n = .out) →
      scan m l = some a → scan n l = some b → (a = .out ∧ b = .inside) ∨ (a = .inside ∧ b = .out) from
    hboth (.inl ⟨rfl, rfl⟩) ha hb
  clear ha hb
  induction l with
  | nil =>
    intro m n hmn hm hn
    cases hm
    cases hn
    exact hmn
  | cons c l ih =>
    intro m n hmn hm hn
    rw [scan_cons] at hm hn
    obtain ⟨m', hm', hm⟩ := Option.bind_eq_some_iff.mp hm
    obtain ⟨n', hn', hn⟩ := Option.bind_eq_some_iff.mp hn
    refine ih ?_ hm hn
    rcases hmn with ⟨rfl, rfl⟩ | ⟨rfl, rfl⟩
    · exact next_apart hm' hn'
    · exact (next_apart hn' hm').elim (fun h => .inr ⟨h.2, h.1⟩) fun h => .inl ⟨h.2, h.1⟩

/-! ## The scanner accepts every value

A printed value takes the scanner from outside to outside. Inside its strings every quote is
escaped, so the mode changes at their ends only. -/

/-- The characters of a number leave the scan where it is. -/
theorem next_numeric {c : Char} (h : c ∈ numeric) : Lex.out.next c = some .out := by
  have hquote : c ≠ '"' := by
    rintro rfl
    exact absurd h (by decide)
  have hno : ¬(c = '\\' ∨ c = '|') := by
    rintro (rfl | rfl)
    · exact absurd h (by decide)
    · exact absurd h (by decide)
  rw [next_out, if_neg hquote, if_neg hno]

theorem scan_numeric {l : List Char} (h : ∀ c ∈ l, c ∈ numeric) (r : List Char) :
    scan .out (l ++ r) = scan .out r := by
  induction l with
  | nil => rfl
  | cons c l ih =>
    rw [List.forall_mem_cons] at h
    rw [List.cons_append, scan_cons, next_numeric h.1]
    exact ih h.2

/-- A character that is neither a quote nor a backslash stays inside. -/
theorem scan_inside {c : Char} (hquote : c ≠ '"') (hslash : c ≠ '\\') (r : List Char) :
    scan .inside (c :: r) = scan .inside r := by
  rw [scan_cons, next_inside, if_neg hquote, if_neg hslash]
  rfl

theorem hexDigit_plain {n : ℕ} (h : n < 16) : hexDigit n ≠ '"' ∧ hexDigit n ≠ '\\' := by
  interval_cases n <;> decide

/-- An escape by number is passed over within a text. -/
theorem scan_unit {n : ℕ} (h : n < 65536) (r : List Char) : scan .inside (unit n ++ r) = scan .inside r := by
  have hplain : ∀ {k : ℕ}, k < 16 → ∀ r, scan .inside (hexDigit k :: r) = scan .inside r :=
    fun hk r => scan_inside (hexDigit_plain hk).1 (hexDigit_plain hk).2 r
  unfold unit
  show scan .inside (hexDigit (n / 4096) :: hexDigit (n / 256 % 16) :: hexDigit (n / 16 % 16) :: hexDigit (n % 16) :: r) = _
  rw [hplain (by omega), hplain (by omega), hplain (by omega), hplain (by omega)]

theorem scan_escape (c : Char) (r : List Char) : scan .inside (escape c ++ r) = scan .inside r := by
  have hc := escaped_escape c
  have hlt := toNat_lt c
  generalize escape c = ec at hc
  cases hc with
  | short e he =>
    have hmem := short_eq_some he
    simp only [List.mem_cons, Prod.mk.injEq, List.not_mem_nil, or_false] at hmem
    rcases hmem with ⟨-, rfl⟩ | ⟨-, rfl⟩ | ⟨-, rfl⟩ | ⟨-, rfl⟩ | ⟨-, rfl⟩ | ⟨-, rfl⟩ | ⟨-, rfl⟩ <;> rfl
  | plain he =>
    have hquote : c ≠ '"' := by
      rintro rfl
      cases he
    exact scan_inside hquote (ne_backslash_of_short he) r
  | unit h => exact scan_unit h r
  | pair h =>
    rw [List.append_assoc, scan_unit (by omega), scan_unit (by omega)]

/-- A quoted text is passed over as a whole. -/
theorem scan_quote (s : String) (r : List Char) : scan .out (quote s ++ r) = scan .out r := by
  have hchars : ∀ l : List Char, scan .inside (l.flatMap escape ++ '"' :: r) = scan .out r := by
    intro l
    induction l with
    | nil => rfl
    | cons c l ih => rw [List.flatMap_cons, List.append_assoc, scan_escape, ih]
  unfold quote
  rw [List.cons_append, List.append_assoc]
  exact hchars s.toList

mutual
/-- A value leaves the scanner where it was. -/
theorem scan_dumps : ∀ (v : Value) (r : List Char), scan .out (dumps v ++ r) = scan .out r
  | .null, _ => rfl
  | .bool true, _ => rfl
  | .bool false, _ => rfl
  | .int n, r => scan_numeric (numeric_renderInt n) r
  | .float t, r => scan_numeric (numeric_text t) r
  | .str s, r => scan_quote s r
  | .arr xs, r => by
    rw [dumps, List.cons_append, List.append_assoc]
    exact scan_elements xs _
  | .obj o, r => by
    rw [dumps, List.cons_append, List.append_assoc]
    exact scan_members o _
/-- The scan comes out of a list as it went in, by induction with the three lemmas that follow. -/
theorem scan_elements : ∀ (xs : List Value) (r : List Char), scan .out (elements xs ++ r) = scan .out r
  | [], _ => rfl
  | v :: rest, r => by rw [elements, List.append_assoc, scan_dumps v, scan_moreElements rest]
theorem scan_moreElements : ∀ (xs : List Value) (r : List Char), scan .out (moreElements xs ++ r) = scan .out r
  | [], _ => rfl
  | v :: rest, r => by
    rw [moreElements, List.cons_append, List.append_assoc]
    exact (scan_dumps v _).trans (scan_moreElements rest r)
theorem scan_members : ∀ (o : List (String × Value)) (r : List Char), scan .out (members o ++ r) = scan .out r
  | [], _ => rfl
  | (k, v) :: rest, r => by
    rw [members, List.append_assoc, scan_quote, List.cons_append, List.append_assoc]
    exact (scan_dumps v _).trans (scan_moreMembers rest r)
theorem scan_moreMembers : ∀ (o : List (String × Value)) (r : List Char), scan .out (moreMembers o ++ r) = scan .out r
  | [], _ => rfl
  | (k, v) :: rest, r => by
    rw [moreMembers, List.cons_append, List.append_assoc]
    refine (scan_quote k _).trans ?_
    rw [List.cons_append, List.append_assoc]
    exact (scan_dumps v _).trans (scan_moreMembers rest r)
end

/-! ## Behind a bar

The identity of a server has a printed object behind a bar, and bars may stand in front of it.
The last part is found nevertheless, because the text of an object does not end in another object
behind a bar. -/

/-- The text of an object has no bar before another text of an object it ends with. -/
theorem no_inner_obj (o p : List (String × Value)) (x : List Char) :
    dumps (.obj o) ≠ x ++ '|' :: dumps (.obj p) := by
  intro h
  have hwhole : scan .out (dumps (.obj o)) = some .out := by
    rw [← List.append_nil (dumps _), scan_dumps]
    rfl
  have hinner : scan .out (dumps (.obj p)) = some .out := by
    rw [← List.append_nil (dumps _), scan_dumps]
    rfl
  rw [h, scan_append] at hwhole
  obtain ⟨m, -, hrest⟩ := Option.bind_eq_some_iff.mp hwhole
  -- the bar is inside a string, and so is all that follows
  cases m with
  | out => cases hrest
  | escaped => cases hrest
  | inside => cases scan_apart hinner hrest with
    | inl hmodes => cases hmodes.2
    | inr hmodes => cases hmodes.1

/-- **Two texts that end with an object behind a bar are cut at one place.** -/
theorem cut_unique {x y : List Char} {o p : List (String × Value)}
    (h : x ++ '|' :: dumps (.obj o) = y ++ '|' :: dumps (.obj p)) : x = y ∧ o = p := by
  have hempty : ∀ {a b : List (String × Value)} {m : List Char},
      '|' :: dumps (.obj a) = m ++ '|' :: dumps (.obj b) → m = [] := by
    intro a b m hm
    cases m with
    | nil => rfl
    | cons c m => exact absurd (List.cons.inj hm).2 (no_inner_obj a b m)
  rcases List.append_eq_append_iff.mp h with ⟨m, hy, hm⟩ | ⟨m, hx, hm⟩
  · obtain rfl := hempty hm
    exact ⟨(hy.trans (List.append_nil x)).symm, Value.obj.inj (dumps_inj (List.cons.inj hm).2)⟩
  · obtain rfl := hempty hm
    exact ⟨hx.trans (List.append_nil y), Value.obj.inj (dumps_inj (List.cons.inj hm).2.symm)⟩

end VlessCard.JsonDumps
