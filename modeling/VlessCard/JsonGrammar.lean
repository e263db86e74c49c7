/-
The grammar of JSON texts (RFC 8259), over UTF-16 code units.

The characters are numbers, as the grammar has them. White space belongs to the separators here:
in the grammar it stands before and behind each of the six structural characters, which gives the
same texts. Beyond ASCII a string takes any code unit, so both halves of a pair and a lone one.
-/
import Mathlib.Data.Nat.Notation
import Mathlib.Data.List.Basic

set_option autoImplicit false

namespace VlessCard.JsonGrammar

/-! ## Numbers

The rules of the standard for numbers, as predicates on lists of code units. Each is named like
the rule it stands for. -/

/-- `ws`. -/
def Ws (l : List ℕ) : Prop := ∀ c ∈ l, c = 0x20 ∨ c = 0x09 ∨ c = 0x0A ∨ c = 0x0D

def Digit (c : ℕ) : Prop := 0x30 ≤ c ∧ c ≤ 0x39

/-- `1*DIGIT`. -/
def Digits (l : List ℕ) : Prop := l ≠ [] ∧ ∀ c ∈ l, Digit c

/-- `int`: zero, or digits that do not begin with it. -/
def Integer (l : List ℕ) : Prop := l = [0x30] ∨ Digits l ∧ l.head? ≠ some 0x30

/-- `[ frac ]`. -/
def Fraction (l : List ℕ) : Prop := l = [] ∨ ∃ ds, Digits ds ∧ l = 0x2E :: ds

/-- `[ exp ]`. -/
def Exponent (l : List ℕ) : Prop :=
  l = [] ∨ ∃ e sign ds, (e = 0x65 ∨ e = 0x45) ∧ (sign = [] ∨ sign = [0x2D] ∨ sign = [0x2B]) ∧ Digits ds ∧
    l = e :: (sign ++ ds)

/-- `number`. -/
def Number (l : List ℕ) : Prop :=
  ∃ minus int frac exp, (minus = [] ∨ minus = [0x2D]) ∧ Integer int ∧ Fraction frac ∧ Exponent exp ∧
    l = minus ++ (int ++ (frac ++ exp))

/-! ## Strings

A string stands between quotation marks, with escapes for what may not stand in it by itself. -/

/-- `HEXDIG`. -/
def Hex (c : ℕ) : Prop := Digit c ∨ 0x41 ≤ c ∧ c ≤ 0x46 ∨ 0x61 ≤ c ∧ c ≤ 0x66

/-- `*char`. -/
inductive Chars : List ℕ → Prop where
  | nil : Chars []
  | unescaped {c : ℕ} {l : List ℕ} (h : 0x20 ≤ c ∧ c ≠ 0x22 ∧ c ≠ 0x5C) (hl : Chars l) : Chars (c :: l)
  | escaped {c : ℕ} {l : List ℕ} (h : c ∈ [0x22, 0x5C, 0x2F, 0x62, 0x66, 0x6E, 0x72, 0x74]) (hl : Chars l) :
      Chars (0x5C :: c :: l)
  | unicode {a b c d : ℕ} {l : List ℕ} (h : ∀ x ∈ [a, b, c, d], Hex x) (hl : Chars l) :
      Chars (0x5C :: 0x75 :: a :: b :: c :: d :: l)

/-- `string`. -/
def Str (l : List ℕ) : Prop := ∃ cs, Chars cs ∧ l = 0x22 :: (cs ++ [0x22])

/-! ## Values

Values contain each other, so there is one relation for all kinds of symbols, with one
constructor for each rule. -/

/-- `false`, `null` and `true`. -/
def literals : List (List ℕ) :=
  [[0x66, 0x61, 0x6C, 0x73, 0x65], [0x6E, 0x75, 0x6C, 0x6C], [0x74, 0x72, 0x75, 0x65]]

/-- What a text may be a text of. -/
inductive Symbol where
  | value
  | elements
  | members
  | object

/-- The texts of each symbol. -/
inductive Derives : Symbol → List ℕ → Prop where
  | literal {l : List ℕ} (h : l ∈ literals) : Derives .value l
  | number {l : List ℕ} (h : Number l) : Derives .value l
  | string {l : List ℕ} (h : Str l) : Derives .value l
  | objectValue {l : List ℕ} (h : Derives .object l) : Derives .value l
  | emptyArray {w : List ℕ} (hw : Ws w) : Derives .value (0x5B :: (w ++ [0x5D]))
  | array {v w l : List ℕ} (hv : Ws v) (hl : Derives .elements l) (hw : Ws w) :
      Derives .value (0x5B :: (v ++ (l ++ (w ++ [0x5D]))))
  | element {l : List ℕ} (h : Derives .value l) : Derives .elements l
  | moreElements {l v w m : List ℕ} (hl : Derives .value l) (hv : Ws v) (hw : Ws w) (hm : Derives .elements m) :
      Derives .elements (l ++ (v ++ (0x2C :: (w ++ m))))
  | emptyObject {w : List ℕ} (hw : Ws w) : Derives .object (0x7B :: (w ++ [0x7D]))
  | object {v w l : List ℕ} (hv : Ws v) (hl : Derives .members l) (hw : Ws w) :
      Derives .object (0x7B :: (v ++ (l ++ (w ++ [0x7D]))))
  | member {s v w l : List ℕ} (hs : Str s) (hv : Ws v) (hw : Ws w) (hl : Derives .value l) :
      Derives .members (s ++ (v ++ (0x3A :: (w ++ l))))
  | moreMembers {s v w l x y m : List ℕ} (hs : Str s) (hv : Ws v) (hw : Ws w) (hl : Derives .value l) (hx : Ws x)
      (hy : Ws y) (hm : Derives .members m) :
      Derives .members (s ++ (v ++ (0x3A :: (w ++ (l ++ (x ++ (0x2C :: (y ++ m))))))))

/-! ## Characters without a meaning of their own

A reader that only looks for quotation marks and braces passes over everything else. Numbers,
white space and the three literals have neither. -/

/-- Neither a quotation mark nor a brace. -/
def Plain (l : List ℕ) : Prop := ∀ c ∈ l, c ≠ 0x22 ∧ c ≠ 0x7B ∧ c ≠ 0x7D

theorem plain_nil : Plain [] := fun _ hc => absurd hc List.not_mem_nil

theorem plain_append {l m : List ℕ} (hl : Plain l) (hm : Plain m) : Plain (l ++ m) := by
  intro c hc
  rcases List.mem_append.mp hc with h | h
  · exact hl c h
  · exact hm c h

/-- One more sign that is neither a quote nor a brace. -/
theorem plain_cons {c : ℕ} {l : List ℕ} (hc : c ≠ 0x22 ∧ c ≠ 0x7B ∧ c ≠ 0x7D) (hl : Plain l) : Plain (c :: l) := by
  intro d hd
  rcases List.mem_cons.mp hd with rfl | h
  · exact hc
  · exact hl d h

/-- White space has no quotes and no braces. -/
theorem Ws.plain {l : List ℕ} (h : Ws l) : Plain l := by
  intro c hc
  have hws := h c hc
  omega

theorem Digits.plain {l : List ℕ} (h : Digits l) : Plain l := by
  intro c hc
  have hdigit := h.2 c hc
  unfold Digit at hdigit
  omega

/-- Nor has a number, with its sign, its point and its exponent. -/
theorem Number.plain {l : List ℕ} (h : Number l) : Plain l := by
  obtain ⟨minus, int, frac, exp, hminus, hint, hfrac, hexp, rfl⟩ := h
  have hzero : Plain [0x30] := plain_cons (by decide) plain_nil
  have hdash : Plain [0x2D] := plain_cons (by decide) plain_nil
  have hplus : Plain [0x2B] := plain_cons (by decide) plain_nil
  apply plain_append _ (plain_append _ (plain_append _ _))
  · rcases hminus with rfl | rfl
    · exact plain_nil
    · exact hdash
  · rcases hint with rfl | ⟨hds, -⟩
    · exact hzero
    · exact hds.plain
  · rcases hfrac with rfl | ⟨ds, hds, rfl⟩
    · exact plain_nil
    · exact plain_cons (by decide) hds.plain
  · rcases hexp with rfl | ⟨e, sign, ds, he, hsign, hds, rfl⟩
    · exact plain_nil
    · apply plain_cons (by omega) (plain_append _ hds.plain)
      rcases hsign with rfl | rfl | rfl
      · exact plain_nil
      · exact hdash
      · exact hplus

theorem plain_of_literal {l : List ℕ} (h : l ∈ literals) : Plain l := by
  have hall : ∀ l ∈ literals, ∀ c ∈ l, c ≠ 0x22 ∧ c ≠ 0x7B ∧ c ≠ 0x7D := by decide
  exact hall l h

end VlessCard.JsonGrammar
