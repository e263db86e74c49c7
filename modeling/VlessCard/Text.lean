/-
The string library the programs are written against.

A text is a Lean `String`, that is, a sequence of Unicode scalar values; an
unpaired surrogate, which a JVM string can hold, is no text here. Every
operation works on the list of characters and is stated for lists first, because
that is where the cutting and pasting lemmas are proved; the `String` versions
carry the names of the Kotlin functions.

Three things are decided by Unicode tables and not by the programs: lower-casing,
the value of a digit character and the comparison of characters up to case. They
are the structure `Jvm`, with what is documented of them as its laws: on ASCII
they are the familiar functions, and lower-casing twice is lower-casing once.
-/
import Mathlib
import VlessCard.OrderedMap

set_option autoImplicit false

namespace VlessCard

/-! ## Cutting a list of characters

The cuts are defined on lists of characters, where they are easy to reason about. The functions
on texts come further down and use them. -/

namespace Chars

/-- Everything before the first `c`; the whole list when there is none. -/
def before (c : Char) (l : List Char) : List Char := l.takeWhile (fun x => x ≠ c)

/-- Everything after the first `c`; the whole list when there is none. -/
def after (c : Char) (l : List Char) : List Char :=
  if c ∈ l then (l.dropWhile (fun x => x ≠ c)).tail else l

/-- Everything before the last `c`; the whole list when there is none. -/
def beforeLast (c : Char) (l : List Char) : List Char :=
  if c ∈ l then (after c l.reverse).reverse else l

/-- Everything after the last `c`; the whole list when there is none. -/
def afterLast (c : Char) (l : List Char) : List Char := (before c l.reverse).reverse

/-- Everything after the first occurrence of `d`, when there is one. -/
def afterSub? (d : List Char) : List Char → Option (List Char)
  | [] => if d = [] then some [] else none
  | c :: rest => if d <+: c :: rest then some ((c :: rest).drop d.length) else afterSub? d rest

/-- Everything before the first occurrence of `d` (not empty); the whole list when
there is none. -/
def beforeSub (d : List Char) : List Char → List Char
  | [] => []
  | c :: rest => if d <+: c :: rest then [] else c :: beforeSub d rest

/-- The UTF-16 code units of a character. -/
def units (c : Char) : ℕ := if c.toNat < 0x10000 then 1 else 2

/-- The characters whose code units are all among the first `n`. -/
def takeUnits : ℕ → List Char → List Char
  | _, [] => []
  | n, c :: rest => if units c ≤ n then c :: takeUnits (n - units c) rest else []

/-- `d` occurs in the list. -/
def hasSub (d : List Char) (l : List Char) : Bool := (afterSub? d l).isSome

/-- Replace the occurrences of `d` (not empty) by `r`, left to right and without
overlap; `skip` characters of the last occurrence are still to be passed over. -/
def replaceGo (d r : List Char) : ℕ → List Char → List Char
  | _, [] => []
  | 0, c :: rest =>
      if d <+: c :: rest then r ++ replaceGo d r (d.length - 1) rest
      else c :: replaceGo d r 0 rest
  | skip + 1, _ :: rest => replaceGo d r skip rest

/-- Whitespace of the Unicode standard, as the JVM counts it: separators, the
tabulation controls and the four information separators. -/
def isWhitespace (c : Char) : Bool :=
  (9 ≤ c.toNat && c.toNat ≤ 13) || (28 ≤ c.toNat && c.toNat ≤ 32) || c.toNat == 0xA0
    || c.toNat == 0x1680 || (0x2000 ≤ c.toNat && c.toNat ≤ 0x200A) || c.toNat == 0x2028
    || c.toNat == 0x2029 || c.toNat == 0x202F || c.toNat == 0x205F || c.toNat == 0x3000

/-- Whitespace removed at both ends. -/
def trim (l : List Char) : List Char := (l.dropWhile isWhitespace).rdropWhile isWhitespace

/-! ### What the cuts return

Most proofs about texts put one together of parts and cut it again. So the lemmas say what a cut
returns of a list in which the delimiter is where it was put. -/

/-- Without a delimiter everything is before it, as `substringBefore` gives the whole text. -/
theorem before_of_not_mem {c : Char} {l : List Char} (h : c ∉ l) : before c l = l := by
  rw [before, List.takeWhile_eq_self_iff]
  intro x hx
  simp only [ne_eq, decide_not, Bool.not_eq_true', decide_eq_false_iff_not]
  rintro rfl
  exact h hx

/-- The first delimiter decides: one that is not in `a` does not cut there. -/
theorem before_append {c : Char} {a : List Char} (h : c ∉ a) (b : List Char) :
    before c (a ++ c :: b) = a := by
  rw [before, List.takeWhile_append_of_pos]
  · simp
  · intro x hx
    simp only [ne_eq, decide_not, Bool.not_eq_true', decide_eq_false_iff_not]
    rintro rfl
    exact h hx

/-- The counterpart of `before_append`: what is behind the first delimiter. -/
theorem after_append {c : Char} {a : List Char} (h : c ∉ a) (b : List Char) :
    after c (a ++ c :: b) = b := by
  rw [after, if_pos (by simp), List.dropWhile_append_of_pos]
  · simp
  · intro x hx
    simp only [ne_eq, decide_not, Bool.not_eq_true', decide_eq_false_iff_not]
    rintro rfl
    exact h hx

/-- The last delimiter decides, as in `substringBeforeLast`. -/
theorem beforeLast_append {c : Char} {b : List Char} (h : c ∉ b) (a : List Char) :
    beforeLast c (a ++ c :: b) = a := by
  rw [beforeLast, if_pos (by simp)]
  have hr : (a ++ c :: b).reverse = b.reverse ++ c :: a.reverse := by simp
  rw [hr, after_append (by simpa using h), List.reverse_reverse]

/-- The counterpart of `beforeLast_append`. -/
theorem afterLast_append {c : Char} {b : List Char} (h : c ∉ b) (a : List Char) :
    afterLast c (a ++ c :: b) = b := by
  have hr : (a ++ c :: b).reverse = b.reverse ++ c :: a.reverse := by simp
  rw [afterLast, hr, before_append (by simpa using h), List.reverse_reverse]

/-- Without a delimiter `substringAfterLast` gives the whole text. -/
theorem afterLast_of_not_mem {c : Char} {l : List Char} (h : c ∉ l) : afterLast c l = l := by
  rw [afterLast, before_of_not_mem (by simpa using h), List.reverse_reverse]

/-- A list that holds `c` is cut at its first `c`. -/
theorem split_first {c : Char} {l : List Char} (h : c ∈ l) :
    l = before c l ++ c :: after c l ∧ c ∉ before c l := by
  induction l with
  | nil => cases h
  | cons x rest ih =>
      by_cases hx : x = c
      · subst hx
        simp [before, after]
      · have hr : c ∈ rest := by
          rcases List.mem_cons.mp h with rfl | hr
          · exact absurd rfl hx
          · exact hr
        obtain ⟨h1, h2⟩ := ih hr
        have hb : before c (x :: rest) = x :: before c rest := by
          simp [before, hx]
        have ha : after c (x :: rest) = after c rest := by
          simp [after, hx, hr]
        rw [hb, ha]
        refine ⟨by rw [List.cons_append, ← h1], ?_⟩
        simp only [List.mem_cons, not_or]
        exact ⟨fun hc => hx hc.symm, h2⟩

/-- A piece that was cut at a delimiter holds none any more, whatever text it was cut from. -/
theorem not_mem_before (c : Char) (l : List Char) : c ∉ before c l := by
  by_cases h : c ∈ l
  · exact (split_first h).2
  · rw [before_of_not_mem h]
    exact h

/-- The piece behind the last delimiter holds none either. -/
theorem not_mem_afterLast (c : Char) (l : List Char) : c ∉ afterLast c l := by
  rw [afterLast, List.mem_reverse]
  exact not_mem_before c _

/-- Cutting adds no character; so are the three lemmas that follow. -/
theorem mem_of_mem_before {c x : Char} {l : List Char} (h : x ∈ before c l) : x ∈ l :=
  (List.takeWhile_prefix _).subset h

theorem mem_of_mem_after {c x : Char} {l : List Char} (h : x ∈ after c l) : x ∈ l := by
  unfold after at h
  split at h
  · exact (List.dropWhile_suffix _).subset (List.tail_subset _ h)
  · exact h

theorem mem_of_mem_beforeLast {c x : Char} {l : List Char} (h : x ∈ beforeLast c l) : x ∈ l := by
  unfold beforeLast at h
  split at h
  · rw [List.mem_reverse] at h
    exact List.mem_reverse.mp (mem_of_mem_after h)
  · exact h

/-- What stands before the last `c` begins as the list does. -/
theorem head?_of_head?_beforeLast {c x : Char} {l : List Char}
    (h : (beforeLast c l).head? = some x) : l.head? = some x := by
  unfold beforeLast at h
  split at h
  · rename_i hmem
    obtain ⟨hsplit, _⟩ := split_first (List.mem_reverse.mpr hmem)
    have hl : l = (after c l.reverse).reverse ++ c :: (before c l.reverse).reverse := by
      have hrev := congrArg List.reverse hsplit
      simpa using hrev
    obtain ⟨rest, hrest⟩ := List.head?_eq_some_iff.mp h
    rw [hl, hrest]
    rfl
  · exact h

theorem mem_of_mem_afterLast {c x : Char} {l : List Char} (h : x ∈ afterLast c l) : x ∈ l := by
  rw [afterLast, List.mem_reverse] at h
  exact List.mem_reverse.mp (mem_of_mem_before h)

/-- The first occurrence of `d` in `a ++ d ++ b` is the one written there, when
`a` holds no character `d` begins with. -/
theorem afterSub?_append {c : Char} {d a : List Char} (h : c ∉ a) (b : List Char) :
    afterSub? (c :: d) (a ++ (c :: d) ++ b) = some b := by
  induction a with
  | nil =>
      have hp : c :: d <+: c :: (d ++ b) := by
        rw [← List.cons_append]
        exact List.prefix_append (c :: d) b
      simp only [List.nil_append, List.cons_append, afterSub?, if_pos hp]
      simp
  | cons x rest ih =>
      simp only [List.mem_cons, not_or] at h
      have hp : ¬ (c :: d <+: x :: (rest ++ (c :: d) ++ b)) := by
        intro hpre
        exact h.1 (List.cons_prefix_cons.mp hpre).1
      simp only [List.cons_append, afterSub?]
      rw [if_neg (by simpa using hp)]
      simpa using ih h.2

/-! ### Trimming

Trimming takes white space off both ends. A text is put together of what is left and what was
trimmed, and a text that is trimmed stays as it is. -/

/-- A visible ASCII character is no whitespace. -/
theorem not_whitespace_of_range {c : Char} (h1 : 33 ≤ c.toNat) (h2 : c.toNat ≤ 126) :
    isWhitespace c = false := by
  unfold isWhitespace
  simp only [Bool.or_eq_false_iff, Bool.and_eq_false_iff, decide_eq_false_iff_not,
    beq_eq_false_iff_ne]
  omega

/-- A list with no whitespace at either end is what its trimming leaves. -/
theorem trim_eq_self_iff (l : List Char) :
    trim l = l ↔ (∀ x ∈ l.head?, isWhitespace x = false)
      ∧ ∀ x ∈ l.getLast?, isWhitespace x = false := by
  constructor
  -- nothing is cut off, so neither end has a blank
  · intro h
    have hlen : (l.dropWhile isWhitespace).length = l.length := by
      have h1 := (List.dropWhile_suffix (l := l) isWhitespace).length_le
      have h2 := (List.rdropWhile_prefix isWhitespace (l := l.dropWhile isWhitespace)).length_le
      have h3 : (trim l).length = l.length := by rw [h]
      unfold trim at h3
      omega
    have hd : l.dropWhile isWhitespace = l := (List.dropWhile_suffix _).eq_of_length hlen
    constructor
    · intro x hx
      cases l with
      | nil => cases hx
      | cons y rest =>
          simp only [List.head?_cons, Option.mem_def, Option.some.injEq] at hx
          subst hx
          by_contra hw
          rw [Bool.not_eq_false] at hw
          rw [List.dropWhile_cons_of_pos hw] at hd
          have := (List.dropWhile_suffix (l := rest) isWhitespace).length_le
          rw [hd, List.length_cons] at this
          omega
    · intro x hx
      unfold trim at h
      rw [hd] at h
      by_contra hw
      rw [Bool.not_eq_false] at hw
      have hne : l ≠ [] := by
        rintro rfl
        cases hx
      rw [Option.mem_def, List.getLast?_eq_some_getLast hne, Option.some.injEq] at hx
      have := List.rdropWhile_last_not isWhitespace l (by rw [h]; exact hne)
      simp only [h, hx, hw, not_true_eq_false] at this
  -- with no blank at either end both cuts stop at once
  · rintro ⟨h1, h2⟩
    cases l with
    | nil => rfl
    | cons y rest =>
        have hy : isWhitespace y = false := h1 y rfl
        unfold trim
        rw [List.dropWhile_cons_of_neg (by simp [hy]), List.rdropWhile_eq_self_iff]
        intro hl
        have := h2 _ (List.getLast?_eq_some_getLast hl)
        simp [this]

/-- Trimming leaves nothing of a list of whitespace alone. -/
theorem trim_eq_nil_iff (l : List Char) : trim l = [] ↔ ∀ x ∈ l, isWhitespace x = true := by
  rw [trim, List.rdropWhile_eq_nil_iff]
  constructor
  · intro h
    by_cases hd : l.dropWhile isWhitespace = []
    · exact List.dropWhile_eq_nil_iff.mp hd
    · -- the first character left is no whitespace, but all that are left are
      have hpos : 0 < (l.dropWhile isWhitespace).length := List.length_pos_of_ne_nil hd
      exact absurd (h _ (List.getElem_mem hpos)) (List.dropWhile_get_zero_not isWhitespace l hpos)
  · intro h x hx
    exact h x ((List.dropWhile_suffix _).subset hx)

theorem trim_trim (l : List Char) : trim (trim l) = trim l := by
  unfold trim
  have h : ((l.dropWhile isWhitespace).rdropWhile isWhitespace).dropWhile isWhitespace
      = (l.dropWhile isWhitespace).rdropWhile isWhitespace := by
    rw [List.dropWhile_eq_self_iff]
    intro hl
    have hpre := List.rdropWhile_prefix isWhitespace (l := l.dropWhile isWhitespace)
    have hne : 0 < (l.dropWhile isWhitespace).length := lt_of_lt_of_le hl hpre.length_le
    have hget : ((l.dropWhile isWhitespace).rdropWhile isWhitespace)[0]
        = (l.dropWhile isWhitespace)[0] := by
      exact hpre.getElem hl
    rw [hget]
    exact List.dropWhile_get_zero_not isWhitespace l hne
  rw [h, List.rdropWhile_idempotent]

/-- A text is what its trimming leaves, with whitespace before and after. -/
theorem exists_trim (l : List Char) : ∃ a b, l = a ++ trim l ++ b ∧ (∀ x ∈ a, isWhitespace x = true) ∧
    ∀ x ∈ b, isWhitespace x = true := by
  refine ⟨l.takeWhile isWhitespace, (l.dropWhile isWhitespace).rtakeWhile isWhitespace, ?_, ?_, ?_⟩
  · rw [trim, List.append_assoc, List.rdropWhile_append_rtakeWhile, List.takeWhile_append_dropWhile]
  · exact fun x hx => List.mem_takeWhile_imp hx
  · exact fun x hx => List.mem_rtakeWhile_imp hx

/-- White space that is put around a text is trimmed off it again. -/
theorem trim_append {a b : List Char} (ha : ∀ x ∈ a, isWhitespace x = true) (hb : ∀ x ∈ b, isWhitespace x = true)
    (l : List Char) : trim (a ++ l ++ b) = trim l := by
  have hfront : (a ++ l ++ b).dropWhile isWhitespace = (l ++ b).dropWhile isWhitespace := by
    rw [List.append_assoc, List.dropWhile_append_of_pos ha]
  have hback (x : List Char) : (x ++ b).rdropWhile isWhitespace = x.rdropWhile isWhitespace := by
    rw [List.rdropWhile, List.reverse_append,
      List.dropWhile_append_of_pos (fun y hy => hb y (List.mem_reverse.mp hy)), ← List.rdropWhile]
  by_cases hl : l.dropWhile isWhitespace = []
  -- whitespace alone
  · have hall := List.dropWhile_eq_nil_iff.mp hl
    rw [(trim_eq_nil_iff l).mpr hall, trim_eq_nil_iff]
    intro x hx
    rcases List.mem_append.mp hx with hx | hx
    · exact (List.mem_append.mp hx).elim (ha x) (hall x)
    · exact hb x hx
  · rw [trim, hfront, List.dropWhile_append, if_neg (by rwa [List.isEmpty_iff]), hback, ← trim]

/-- Taking out characters that trimming would have taken. -/
theorem trim_filter {p : Char → Bool} {l : List Char} (h : ∀ x ∈ trim l, p x = true) :
    trim (l.filter p) = trim l := by
  obtain ⟨a, b, hl, ha, hb⟩ := exists_trim l
  have hkeep : (trim l).filter p = trim l := List.filter_eq_self.mpr h
  calc trim (l.filter p) = trim (a.filter p ++ trim l ++ b.filter p) := by
        conv_lhs => rw [hl]
        rw [List.filter_append, List.filter_append, hkeep]
    _ = trim (trim l) := trim_append (fun x hx => ha x (List.mem_filter.mp hx).1)
        (fun x hx => hb x (List.mem_filter.mp hx).1) _
    _ = trim l := trim_trim l

/-- What is dropped ends before a character that is kept. -/
theorem dropWhile_append_cons {p : Char → Bool} {x : Char} (hx : p x = false) (a t : List Char) :
    (a ++ x :: t).dropWhile p = a.dropWhile p ++ x :: t := by
  have hkeep : (x :: t).dropWhile p = x :: t := List.dropWhile_cons_of_neg (by rw [hx]; decide)
  rw [List.dropWhile_append, hkeep]
  split
  · rename_i h
    rw [List.isEmpty_iff.mp h, List.nil_append]
  · rfl

/-- Dropping from the back stops at a character that is to stay. -/
theorem rdropWhile_append_cons {p : Char → Bool} {y : Char} (hy : p y = false) (t b : List Char) :
    (t ++ y :: b).rdropWhile p = t ++ y :: b.rdropWhile p := by
  have hrev : (t ++ y :: b).reverse = b.reverse ++ y :: t.reverse := by simp
  rw [List.rdropWhile, hrev, dropWhile_append_cons hy, List.rdropWhile]
  simp

/-- Between two characters that stay nothing is trimmed. -/
theorem trim_middle {x y : Char} (hx : isWhitespace x = false) (hy : isWhitespace y = false) (a m b : List Char) :
    trim (a ++ x :: m ++ y :: b) = a.dropWhile isWhitespace ++ x :: m ++ y :: b.rdropWhile isWhitespace := by
  have hassoc : a ++ x :: m ++ y :: b = a ++ x :: (m ++ y :: b) := by rw [List.append_assoc, List.cons_append]
  rw [trim, hassoc, dropWhile_append_cons hx]
  have hback : a.dropWhile isWhitespace ++ x :: (m ++ y :: b) = (a.dropWhile isWhitespace ++ x :: m) ++ y :: b := by
    rw [List.append_assoc, List.cons_append]
  rw [hback, rdropWhile_append_cons hy]

/-! ### Replacing

Occurrences are replaced from left to right without overlapping. A character that is in neither
text separates, so a text can be replaced part by part. -/

section
variable {d r : List Char}

/-- The counter of `replaceGo` steps over the characters of a delimiter that was replaced. -/
theorem replaceGo_skip (k : ℕ) (l : List Char) : replaceGo d r k l = replaceGo d r 0 (l.drop k) := by
  induction l generalizing k with
  | nil => simp [replaceGo]
  | cons c l ih =>
    cases k with
    | zero => rfl
    | succ k => rw [replaceGo, List.drop_succ_cons, ih]

/-- At an occurrence the replacement is written and the occurrence passed over. -/
theorem replaceGo_at (hd : d ≠ []) {l : List Char} (h : d <+: l) :
    replaceGo d r 0 l = r ++ replaceGo d r 0 (l.drop d.length) := by
  cases l with
  | nil => exact absurd (List.prefix_nil.mp h) hd
  | cons c l =>
    rw [replaceGo, if_pos h, replaceGo_skip, ← List.drop_succ_cons (a := c)]
    rw [Nat.sub_add_cancel (List.length_pos_of_ne_nil hd)]

/-- A character the pattern does not begin with is copied. -/
theorem replaceGo_cons_of_ne {c : Char} (h : d.head? ≠ some c) (hd : d ≠ []) (l : List Char) :
    replaceGo d r 0 (c :: l) = c :: replaceGo d r 0 l := by
  rw [replaceGo, if_neg]
  rintro ⟨t, ht⟩
  obtain ⟨x, d', rfl⟩ := List.exists_cons_of_ne_nil hd
  rw [List.cons_append, List.cons.injEq] at ht
  exact h (by rw [List.head?_cons, ht.1])

/-- A separator outside the pattern separates the replacements. -/
theorem replaceGo_append {c : Char} (hd : d ≠ []) (hc : c ∉ d) (a b : List Char) :
    replaceGo d r 0 (a ++ c :: b) = replaceGo d r 0 a ++ c :: replaceGo d r 0 b := by
  have hhead : d.head? ≠ some c := fun h => hc (List.mem_of_head? h)
  induction hn : a.length using Nat.strong_induction_on generalizing a with
  | _ n ih =>
    subst hn
    by_cases hp : d <+: a ++ c :: b
    · -- the occurrence ends before the separator
      have hpa : d <+: a := by
        rcases List.prefix_or_prefix_of_prefix hp (List.prefix_append a (c :: b)) with h | h
        · exact h
        · obtain ⟨t, rfl⟩ := h
          cases t with
          | nil => simp
          | cons x t =>
            rw [List.prefix_append_right_inj, List.cons_prefix_cons] at hp
            exact absurd (hp.1 ▸ List.mem_append_right a (List.mem_cons_self ..)) hc
      have hlen : d.length ≤ a.length := hpa.length_le
      rw [replaceGo_at hd hp, replaceGo_at hd hpa, List.drop_append_of_le_length hlen,
        List.append_assoc]
      refine congrArg (r ++ ·) (ih _ ?_ (a.drop d.length) rfl)
      have := List.length_pos_of_ne_nil hd
      rw [List.length_drop]
      omega
    -- no occurrence starts here, so the first sign goes over as it is
    · cases a with
      | nil => exact replaceGo_cons_of_ne hhead hd b
      | cons x a =>
        have hpa : ¬ d <+: x :: a := fun h => hp (h.trans (List.prefix_append _ _))
        rw [List.cons_append] at hp ⊢
        rw [replaceGo, if_neg hp, replaceGo, if_neg hpa, ih a.length (by simp) a rfl]
        rfl

/-- Replacing a single character goes character by character. -/
theorem replaceGo_singleton (c : Char) (l : List Char) :
    replaceGo [c] r 0 l = l.flatMap (fun x => if x = c then r else [x]) := by
  induction l with
  | nil => rfl
  | cons x l ih =>
    rw [List.flatMap_cons, ← ih]
    by_cases hx : x = c
    · subst hx
      rw [replaceGo_at (by simp) (by simp), if_pos rfl]
      rfl
    · have hhead : [c].head? ≠ some x := fun h => hx (Option.some.inj h).symm
      rw [replaceGo_cons_of_ne hhead (by simp), if_neg hx, List.singleton_append]

/-- Taking a character out of a text. -/
theorem replaceGo_nil (c : Char) (l : List Char) : replaceGo [c] [] 0 l = l.filter (fun x => x ≠ c) := by
  rw [replaceGo_singleton]
  induction l with
  | nil => rfl
  | cons x l ih =>
    rw [List.flatMap_cons, ih]
    by_cases hx : x = c
    · rw [if_pos hx, List.filter_cons_of_neg (by simp [hx]), List.nil_append]
    · rw [if_neg hx, List.filter_cons_of_pos (by simp [hx]), List.singleton_append]

/-- Either nothing was replaced or the replacement occurs in the result. -/
theorem replaceGo_eq_or_mem (hd : d ≠ []) (l : List Char) :
    replaceGo d r 0 l = l ∨ ∀ x ∈ r, x ∈ replaceGo d r 0 l := by
  induction l with
  | nil => exact .inl rfl
  | cons c l ih =>
    by_cases hp : d <+: c :: l
    · right
      rw [replaceGo_at hd hp]
      exact fun x hx => List.mem_append_left _ hx
    · rw [replaceGo, if_neg hp]
      rcases ih with h | h
      · exact .inl (by rw [h])
      · exact .inr fun x hx => List.mem_cons_of_mem _ (h x hx)

/-- Replacing brings in no character but those of the replacement. -/
theorem mem_of_mem_replaceGo {x : Char} {k : ℕ} {l : List Char} (h : x ∈ replaceGo d r k l) :
    x ∈ r ∨ x ∈ l := by
  induction l generalizing k with
  | nil => simp [replaceGo] at h
  | cons c l ih =>
    cases k with
    | zero =>
      rw [replaceGo] at h
      split at h
      · rcases List.mem_append.mp h with h | h
        · exact .inl h
        · exact (ih h).imp_right (List.mem_cons_of_mem _)
      · rcases List.mem_cons.mp h with rfl | h
        · exact .inr (List.mem_cons_self ..)
        · exact (ih h).imp_right (List.mem_cons_of_mem _)
    | succ k =>
      rw [replaceGo] at h
      exact (ih h).imp_right (List.mem_cons_of_mem _)

/-- A character that neither text has is not made by replacing. -/
theorem not_mem_replaceGo {x : Char} (hr : x ∉ r) {l : List Char} (hl : x ∉ l) :
    x ∉ replaceGo d r 0 l := fun h => (mem_of_mem_replaceGo h).elim hr hl

/-- Without the first character of the pattern nothing is replaced. -/
theorem replaceGo_of_not_mem {c : Char} (hd : d.head? = some c) {l : List Char} (h : c ∉ l) :
    replaceGo d r 0 l = l := by
  have hne : d ≠ [] := by rintro rfl; cases hd
  induction l with
  | nil => rfl
  | cons x l ih =>
    rw [List.mem_cons, not_or] at h
    rw [replaceGo_cons_of_ne (by rw [hd]; exact fun hx => h.1 (Option.some.inj hx)) hne, ih h.2]

/-- The result begins with `c` just when the text does, if neither the pattern nor
the replacement does. -/
theorem head?_replaceGo {c : Char} (hd : d ≠ []) (hr : r ≠ []) (hdc : d.head? ≠ some c)
    (hrc : r.head? ≠ some c) (l : List Char) :
    (replaceGo d r 0 l).head? = some c ↔ l.head? = some c := by
  cases l with
  | nil => rfl
  | cons x l =>
    by_cases hp : d <+: x :: l
    · rw [replaceGo_at hd hp, List.head?_append_of_ne_nil _ hr]
      refine iff_of_false hrc fun hx => hdc ?_
      obtain ⟨y, d', rfl⟩ := List.exists_cons_of_ne_nil hd
      rw [List.cons_prefix_cons] at hp
      rw [List.head?_cons, hp.1, ← hx, List.head?_cons]
    · rw [replaceGo, if_neg hp, List.head?_cons, List.head?_cons]

end
/-- No part of a text holds the character the text is cut at. -/
theorem not_mem_of_mem_splitOn {c : Char} {p l : List Char} (h : p ∈ l.splitOn c) : c ∉ p := by
  induction l generalizing p with
  | nil =>
    rw [List.splitOn_nil, List.mem_singleton] at h
    rw [h]
    exact List.not_mem_nil
  | cons x l ih =>
    rw [List.splitOn, List.splitOnP_cons_eq_if_modifyHead] at h
    split at h
    · rcases List.mem_cons.mp h with rfl | h
      · exact List.not_mem_nil
      · exact ih h
    · rename_i hx
      have hne : x ≠ c := fun heq => hx (by rw [heq]; exact beq_self_eq_true c)
      cases hs : l.splitOnP (· == c) with
      | nil =>
        rw [hs] at h
        cases h
      | cons q qs =>
        -- the character goes in front of the first part
        have hq : c ∉ q := ih (by rw [List.splitOn, hs]; exact List.mem_cons_self)
        rw [hs, List.modifyHead_cons] at h
        rcases List.mem_cons.mp h with rfl | h
        · rw [List.mem_cons, not_or]
          exact ⟨hne.symm, hq⟩
        · exact ih (by rw [List.splitOn, hs]; exact List.mem_cons_of_mem _ h)

/-- Characters that are no separators can be taken out before the cut or after it. -/
theorem splitOn_filter {p : Char → Bool} {c : Char} (hc : p c = true) (l : List Char) :
    (l.filter p).splitOn c = (l.splitOn c).map (List.filter p) := by
  induction l with
  | nil => simp only [List.filter_nil, List.splitOn_nil, List.map_cons, List.map_nil]
  | cons x l ih =>
    by_cases hx : x = c
    · subst hx
      rw [List.filter_cons_of_pos hc, List.splitOn, List.splitOnP_cons_eq_if_modifyHead, if_pos (beq_self_eq_true x),
        List.splitOn, List.splitOnP_cons_eq_if_modifyHead, if_pos (beq_self_eq_true x), List.map_cons, List.filter_nil]
      exact congrArg _ ih
    · have hne : ¬(x == c) = true := fun h => hx (beq_iff_eq.mp h)
      rw [List.splitOn, List.splitOn, List.splitOnP_cons_eq_if_modifyHead x l, if_neg hne]
      rw [List.splitOn, List.splitOn] at ih
      by_cases hp : p x = true
      · rw [List.filter_cons_of_pos hp, List.splitOnP_cons_eq_if_modifyHead, if_neg hne, ih]
        cases l.splitOnP (· == c) with
        | nil => rfl
        | cons q qs => rw [List.map_cons, List.modifyHead_cons, List.modifyHead_cons, List.map_cons, List.filter_cons_of_pos hp]
      · rw [List.filter_cons_of_neg hp, ih]
        cases l.splitOnP (· == c) with
        | nil => rfl
        | cons q qs => rw [List.map_cons, List.modifyHead_cons, List.map_cons, List.filter_cons_of_neg hp]

end Chars

/-! ## The Kotlin string functions

The functions of Kotlin with their defaults: a cut without its delimiter gives the whole text, or
the other one that the caller names. -/

namespace Text

def substringBefore (s : String) (c : Char) : String := .ofList (Chars.before c s.toList)

def substringAfter (s : String) (c : Char) : String := .ofList (Chars.after c s.toList)

def substringBeforeLast (s : String) (c : Char) : String := .ofList (Chars.beforeLast c s.toList)

def substringAfterLast (s : String) (c : Char) : String := .ofList (Chars.afterLast c s.toList)

/-- `substringAfter` with a delimiter of several characters. -/
def substringAfterStr (s d : String) : String :=
  .ofList ((Chars.afterSub? d.toList s.toList).getD s.toList)

/-- `substringBefore` with a delimiter of several characters. -/
def substringBeforeStr (s d : String) : String := .ofList (Chars.beforeSub d.toList s.toList)

/-- `c in s`. -/
def hasChar (s : String) (c : Char) : Bool := decide (c ∈ s.toList)

/-- `s.contains(d)`. -/
def contains (s d : String) : Bool := Chars.hasSub d.toList s.toList

def startsWith (s p : String) : Bool := decide (p.toList <+: s.toList)

def removePrefix (s p : String) : String :=
  if p.toList <+: s.toList then .ofList (s.toList.drop p.toList.length) else s

/-- `s.replace(d, r)` for strings, `d` not empty. -/
def replace (s d r : String) : String := .ofList (Chars.replaceGo d.toList r.toList 0 s.toList)

/-- `s.replace(a, b)` for characters. -/
def replaceChar (s : String) (a b : Char) : String :=
  .ofList (s.toList.map fun c => if c = a then b else c)

def split (s : String) (c : Char) : List String := (s.toList.splitOn c).map String.ofList

def trim (s : String) : String := .ofList (Chars.trim s.toList)

/-- `s.trimEnd(c)`. -/
def trimEnd (s : String) (c : Char) : String := .ofList (s.toList.rdropWhile (fun x => x = c))

def isBlank (s : String) : Bool := s.toList.all Chars.isWhitespace

def ifEmpty (s d : String) : String := if s = "" then d else s

/-- `s.length`: the number of UTF-16 code units. -/
def length (s : String) : ℕ := (s.toList.map fun c => if c.toNat < 0x10000 then 1 else 2).sum

/-- `s.take(n)`: the first `n` UTF-16 code units. A character the cut would halve is left
out; the unpaired half the platform keeps is no character. -/
def take (n : ℕ) (s : String) : String := .ofList (Chars.takeUnits n s.toList)

/-- `joinToString(sep)`. -/
def join (sep : String) : List String → String
  | [] => ""
  | [s] => s
  | s :: rest => s ++ sep ++ join sep rest

/-! ### Texts made of parts

`d` is the text of a single character in what follows, as a separator is written. -/

section
variable {s d t : String} {c : Char}

/-- `take` counts UTF-16 units, and never gives more than it was asked for. -/
theorem length_take (n : ℕ) (s : String) : length (take n s) ≤ n := by
  have h : ∀ (l : List Char) (n : ℕ), ((Chars.takeUnits n l).map Chars.units).sum ≤ n := by
    intro l
    induction l with
    | nil => intro n; exact Nat.zero_le n
    | cons c l ih =>
      intro n
      rw [Chars.takeUnits]
      split
      · have := ih (n - Chars.units c)
        rw [List.map_cons, List.sum_cons]
        omega
      · exact Nat.zero_le n
  rw [length, take, String.toList_ofList]
  exact h s.toList n

theorem take_of_length_le {n : ℕ} {s : String} (hs : length s ≤ n) : take n s = s := by
  have h : ∀ (l : List Char) (n : ℕ), (l.map Chars.units).sum ≤ n → Chars.takeUnits n l = l := by
    intro l
    induction l with
    | nil => intro n _; rfl
    | cons c l ih =>
      intro n hn
      rw [List.map_cons, List.sum_cons] at hn
      rw [Chars.takeUnits, if_pos (by omega), ih (n - Chars.units c) (by omega)]
  rw [take, h s.toList n hs, String.ofList_toList]

theorem hasChar_iff : hasChar s c = true ↔ c ∈ s.toList := decide_eq_true_iff

theorem hasChar_eq_false_iff : hasChar s c = false ↔ c ∉ s.toList := decide_eq_false_iff_not

/-- A text with this sign is what stands before the first one and what stands after it. -/
theorem cut_first (hd : d.toList = [c]) (h : hasChar s c = true) :
    s = substringBefore s c ++ d ++ substringAfter s c := by
  have hl := (Chars.split_first (hasChar_iff.mp h)).1
  apply String.toList_injective
  rw [String.toList_append, String.toList_append, hd, substringBefore, substringAfter, String.toList_ofList,
    String.toList_ofList, List.append_assoc, List.singleton_append]
  exact hl

/-- What `substringBefore` gives can be cut at the same delimiter without change. -/
theorem not_mem_substringBefore (s : String) (c : Char) : c ∉ (substringBefore s c).toList := by
  rw [substringBefore, String.toList_ofList]
  exact Chars.not_mem_before c _

/-- Cutting a text brings in no character. -/
theorem mem_of_mem_substringBefore {x : Char} (h : x ∈ (substringBefore s c).toList) : x ∈ s.toList := by
  rw [substringBefore, String.toList_ofList] at h
  exact Chars.mem_of_mem_before h

theorem mem_of_mem_substringAfter {x : Char} (h : x ∈ (substringAfter s c).toList) : x ∈ s.toList := by
  rw [substringAfter, String.toList_ofList] at h
  exact Chars.mem_of_mem_after h

/-- What was joined by a delimiter is taken apart again, the front piece first. -/
theorem substringBefore_append (hd : d.toList = [c]) (h : c ∉ s.toList) :
    substringBefore (s ++ d ++ t) c = s := by
  have hl : (s ++ d ++ t).toList = s.toList ++ c :: t.toList := by simp [hd]
  rw [substringBefore, hl, Chars.before_append h, String.ofList_toList]

/-- Kotlin's default when the delimiter is missing: the whole text. -/
theorem substringBefore_of_not_mem (h : c ∉ s.toList) : substringBefore s c = s := by
  rw [substringBefore, Chars.before_of_not_mem h, String.ofList_toList]

/-- The piece behind the delimiter that joined two texts. -/
theorem substringAfter_append (hd : d.toList = [c]) (h : c ∉ s.toList) :
    substringAfter (s ++ d ++ t) c = t := by
  have hl : (s ++ d ++ t).toList = s.toList ++ c :: t.toList := by simp [hd]
  rw [substringAfter, hl, Chars.after_append h, String.ofList_toList]

/-- The front of a text joined by a delimiter which its back does not hold. -/
theorem substringBeforeLast_append (hd : d.toList = [c]) (h : c ∉ t.toList) :
    substringBeforeLast (s ++ d ++ t) c = s := by
  have hl : (s ++ d ++ t).toList = s.toList ++ c :: t.toList := by simp [hd]
  rw [substringBeforeLast, hl, Chars.beforeLast_append h, String.ofList_toList]

/-- The back of a text joined by a delimiter which it does not hold. -/
theorem substringAfterLast_append (hd : d.toList = [c]) (h : c ∉ t.toList) :
    substringAfterLast (s ++ d ++ t) c = t := by
  have hl : (s ++ d ++ t).toList = s.toList ++ c :: t.toList := by simp [hd]
  rw [substringAfterLast, hl, Chars.afterLast_append h, String.ofList_toList]

/-- The default again: the whole text where there is no delimiter. -/
theorem substringAfterLast_of_not_mem (h : c ∉ s.toList) : substringAfterLast s c = s := by
  rw [substringAfterLast, Chars.afterLast_of_not_mem h, String.ofList_toList]

/-- A delimiter of several characters, its first one not met before. -/
theorem substringAfterStr_append (hd : d.toList.head? = some c) (h : c ∉ s.toList) :
    substringAfterStr (s ++ d ++ t) d = t := by
  obtain ⟨ds, hds⟩ := List.head?_eq_some_iff.mp hd
  have hl : (s ++ d ++ t).toList = s.toList ++ (c :: ds) ++ t.toList := by simp [hds]
  rw [substringAfterStr, hl, hds, Chars.afterSub?_append h, Option.getD_some, String.ofList_toList]

theorem mem_append : c ∈ (s ++ t).toList ↔ c ∈ s.toList ∨ c ∈ t.toList := by
  rw [String.toList_append, List.mem_append]

/-- A delimiter that neither text holds is not in both together. -/
theorem not_mem_append (h1 : c ∉ s.toList) (h2 : c ∉ t.toList) : c ∉ (s ++ t).toList := by
  rw [mem_append, not_or]
  exact ⟨h1, h2⟩

/-- A text that was joined by a delimiter holds it. -/
theorem hasChar_append_self (hd : d.toList = [c]) : hasChar (s ++ d ++ t) c = true := by
  rw [hasChar_iff]
  simp [hd]

/-- Nothing is trimmed where the last character is another one. -/
theorem trimEnd_of_getLast? (h : s.toList.getLast? ≠ some c) : trimEnd s c = s := by
  have hl : s.toList.rdropWhile (fun x => x = c) = s.toList := by
    rw [List.rdropWhile_eq_self_iff]
    intro hne hlast
    rw [decide_eq_true_eq] at hlast
    exact h (by rw [List.getLast?_eq_some_getLast hne, hlast])
  rw [trimEnd, hl, String.ofList_toList]

/-- At most the second text is trimmed, when the first ends in another character. -/
theorem trimEnd_append {x : Char} (h : s.toList.getLast? = some x) (hx : x ≠ c) :
    trimEnd (s ++ t) c = s ++ trimEnd t c := by
  obtain ⟨front, hfront⟩ := List.getLast?_eq_some_iff.mp h
  have hkeep : (fun y => decide (y = c)) x = false := decide_eq_false hx
  apply String.toList_injective
  rw [String.toList_append, trimEnd, trimEnd, String.toList_ofList, String.toList_ofList, String.toList_append, hfront,
    List.append_assoc, List.singleton_append, Chars.rdropWhile_append_cons hkeep, List.append_assoc,
    List.singleton_append]

theorem trim_trim (s : String) : trim (trim s) = trim s := by
  rw [trim, trim, String.toList_ofList, Chars.trim_trim]

/-- A text with a character that is no whitespace is not trimmed away. -/
theorem trim_ne_empty (hmem : c ∈ s.toList) (hc : Chars.isWhitespace c = false) : trim s ≠ "" := by
  intro h
  rw [trim, String.ofList_eq_empty_iff, Chars.trim_eq_nil_iff] at h
  exact absurd (h c hmem) (by rw [hc]; decide)

/-- A text that begins and ends with no whitespace is its own trimming. -/
theorem trim_eq_self (h1 : ∀ x ∈ s.toList.head?, Chars.isWhitespace x = false)
    (h2 : ∀ x ∈ s.toList.getLast?, Chars.isWhitespace x = false) : trim s = s := by
  rw [trim, (Chars.trim_eq_self_iff s.toList).mpr ⟨h1, h2⟩, String.ofList_toList]

/-- `ifEmpty` leaves a text that is there. -/
theorem ifEmpty_of_ne (h : s ≠ "") : ifEmpty s t = s := if_neg h

@[simp] theorem ifEmpty_empty : ifEmpty "" t = t := if_pos rfl

/-- Joining texts is joining their lists of characters, for a delimiter of one character. -/
theorem toList_join (hd : d.toList = [c]) (ls : List String) :
    (join d ls).toList = [c].intercalate (ls.map String.toList) := by
  fun_induction join d ls with
  | case1 => rfl
  | case2 s => simp
  | case3 s rest hne ih =>
    obtain ⟨t, rest, rfl⟩ := List.exists_cons_of_ne_nil (l := rest) (fun h => hne h)
    rw [String.toList_append, String.toList_append, ih, hd]
    simp only [List.map_cons, List.intercalate_cons_cons]

/-- Texts without the separator are what their join is split into. -/
theorem split_join {ls : List String} (hd : d.toList = [c]) (h : ∀ s ∈ ls, c ∉ s.toList) (hne : ls ≠ []) :
    split (join d ls) c = ls := by
  rw [split, toList_join hd, List.splitOn_intercalate]
  · rw [List.map_map]
    exact (List.map_congr_left (fun s _ => String.ofList_toList)).trans (List.map_id ls)
  · intro l hl
    obtain ⟨s, hs, rfl⟩ := List.mem_map.mp hl
    exact h s hs
  · simpa using hne

/-- A joined text has the characters of its pieces and the delimiter, and no other. -/
theorem mem_join {x : Char} {ls : List String} (hd : d.toList = [c]) (h : x ∈ (join d ls).toList) :
    x = c ∨ ∃ s ∈ ls, x ∈ s.toList := by
  fun_induction join d ls with
  | case1 => cases h
  | case2 s => exact .inr ⟨s, List.mem_singleton.mpr rfl, h⟩
  | case3 s rest hne ih =>
    rcases mem_append.mp h with h | h
    · rcases mem_append.mp h with h | h
      · exact .inr ⟨s, List.mem_cons_self .., h⟩
      · rw [hd] at h
        exact .inl (List.mem_singleton.mp h)
    · refine (ih h).imp_right ?_
      rintro ⟨t, ht, hx⟩
      exact ⟨t, List.mem_cons_of_mem s ht, hx⟩

theorem not_mem_of_mem_split (h : t ∈ split s c) : c ∉ t.toList := by
  obtain ⟨l, hl, rfl⟩ := List.mem_map.mp h
  rw [String.toList_ofList]
  exact Chars.not_mem_of_mem_splitOn hl

theorem removePrefix_append (s t : String) : removePrefix (s ++ t) s = t := by
  have hpre : s.toList <+: (s ++ t).toList := by
    rw [String.toList_append]
    exact List.prefix_append _ _
  rw [removePrefix, if_pos hpre, String.toList_append, List.drop_left, String.ofList_toList]

/-- A text starts with what it was put behind. -/
theorem startsWith_append (s t : String) : startsWith (s ++ t) s = true := by
  rw [startsWith, String.toList_append]
  exact decide_eq_true (List.prefix_append _ _)

end

/-! ### Taking a character out

Taking out a character is the one replacement that is a filter. It can be done before or after
the cuts at other characters. -/

section
variable {s d : String} {c : Char}

/-- Replacing a character by nothing filters it out. -/
theorem toList_remove (hd : d.toList = [c]) (s : String) :
    (replace s d "").toList = s.toList.filter (fun x => x ≠ c) := by
  rw [replace, String.toList_ofList, hd]
  exact Chars.replaceGo_nil c _

/-- Once a character is removed there is none left to remove. -/
theorem remove_remove (hd : d.toList = [c]) (s : String) : replace (replace s d "") d "" = replace s d "" := by
  rw [← String.toList_inj, toList_remove hd, toList_remove hd, List.filter_filter]
  simp only [Bool.and_self]

/-- The parts of a text without a character are the parts without it. -/
theorem split_remove {sep : Char} (hd : d.toList = [c]) (hsep : sep ≠ c) (s : String) :
    split (replace s d "") sep = (split s sep).map fun t => replace t d "" := by
  rw [split, toList_remove hd, Chars.splitOn_filter (decide_eq_true hsep), split, List.map_map, List.map_map]
  refine List.map_congr_left fun l _ => ?_
  rw [Function.comp_apply, Function.comp_apply, ← String.toList_inj, toList_remove hd, String.toList_ofList,
    String.toList_ofList]

/-- A character that only stands in the white space around a text may be removed before it is trimmed. -/
theorem trim_remove (hd : d.toList = [c]) (h : c ∉ (trim s).toList) : trim (replace s d "") = trim s := by
  rw [trim, String.toList_ofList] at h
  rw [trim, toList_remove hd, Chars.trim_filter, trim]
  intro x hx
  exact decide_eq_true fun hxc => h (hxc ▸ hx)

end

end Text

/-! ## What Unicode decides

Case, digits and white space beyond ASCII come from tables of the platform. They are a parameter,
with the laws that hold on ASCII. -/

/-- The functions of the JVM that read Unicode tables. -/
structure Jvm where
  /-- `String.lowercase()`. -/
  lowercase : String → String
  /-- `Character.digit(c, radix)`. -/
  digit : ℕ → Char → Option ℕ
  /-- Equality of two characters with `ignoreCase = true`. -/
  sameLetter : Char → Char → Bool
  /-- What `String(bytes, UTF_8)` makes of bytes that are not UTF-8. -/
  malformed : List UInt8 → List Char
  /-- The first flag a regular expression over surrogate pairs finds in a text, as
  the offsets of its two letters from `A`. -/
  findFlag : String → Option (ℕ × ℕ)
  lowercase_idem : ∀ s, lowercase (lowercase s) = lowercase s
  lowercase_ascii : ∀ s, (∀ c ∈ s.toList, c.toNat < 128) →
    lowercase s = .ofList (s.toList.map Char.toLower)
  digit_ascii : ∀ c, c.toNat < 128 → digit 10 c = if c.isDigit then some (c.toNat - 48) else none
  hexDigit_ascii : ∀ c, c.toNat < 128 → digit 16 c =
    if c.isDigit then some (c.toNat - 48)
    else if 65 ≤ c.toNat ∧ c.toNat ≤ 70 then some (c.toNat - 55)
    else if 97 ≤ c.toNat ∧ c.toNat ≤ 102 then some (c.toNat - 87) else none
  sameLetter_ascii : ∀ a b, a.toNat < 128 → b.toNat < 128 →
    sameLetter a b = decide (a.toLower = b.toLower)

namespace Jvm

/-- The laws on ASCII, and nothing else a letter or a digit. -/
def ascii : Jvm where
  lowercase s := .ofList (s.toList.map Char.toLower)
  digit radix c :=
    if c.isDigit then some (c.toNat - 48)
    else if radix = 10 then none
    else if 65 ≤ c.toNat ∧ c.toNat ≤ 70 then some (c.toNat - 55)
    else if 97 ≤ c.toNat ∧ c.toNat ≤ 102 then some (c.toNat - 87) else none
  sameLetter a b := decide (a.toLower = b.toLower)
  malformed _ := ['\uFFFD']
  findFlag _ := none
  lowercase_idem s := by
    simp only [String.toList_ofList, List.map_map, String.ofList_inj]
    refine List.map_congr_left (fun c _ => ?_)
    exact Char.toLower_toLower_eq_toLower c
  lowercase_ascii _ _ := rfl
  digit_ascii c _ := by
    by_cases h : c.isDigit <;> simp [h]
  hexDigit_ascii c _ := by simp
  sameLetter_ascii _ _ _ _ := rfl

end Jvm

/-! ## Integers as text

`toInt` reads digits of any script, with a sign, and refuses what does not fit. -/

namespace Text

variable (J : Jvm)

/-- The value of a run of digits, one `Character.digit` at a time. -/
def digitsValue (radix : ℕ) : ℕ → List Char → Option ℕ
  | acc, [] => some acc
  | acc, c :: rest => (J.digit radix c).bind fun d => digitsValue radix (acc * radix + d) rest

/-- `Integer.parseInt(s, radix)` before its range check: an optional sign and at
least one digit. -/
def signedValue (radix : ℕ) : List Char → Option ℤ
  | [] => none
  | [c] => (digitsValue J radix 0 [c]).map Int.ofNat
  | c :: rest =>
      if c = '-' then (digitsValue J radix 0 rest).map fun n => -(n : ℤ)
      else if c = '+' then (digitsValue J radix 0 rest).map Int.ofNat
      else (digitsValue J radix 0 (c :: rest)).map Int.ofNat

/-- `s.toInt()` and `s.toIntOrNull()`. -/
def toInt? (s : String) : Option Int32 :=
  (signedValue J 10 s.toList).bind fun n =>
    if -2 ^ 31 ≤ n ∧ n < 2 ^ 31 then some (Int32.ofInt n) else none

/-! ### Numerals

The numerals that the programs print are made of ASCII digits, and they are read back as the
numbers they were. -/

/-- The digits of a number that is printed are those of `Nat.toDigits`. -/
theorem toList_toString_nat (n : ℕ) : (toString (n : ℤ)).toList = Nat.toDigits 10 n := by
  have h : toString (n : ℤ) = Nat.repr n := rfl
  rw [h, Nat.toList_repr]

/-- ASCII digits are read in base ten, whatever digits the platform knows besides. -/
theorem digitsValue_digits {l : List Char} (h : ∀ c ∈ l, c.isDigit = true) (acc : ℕ) :
    digitsValue J 10 acc l = some (Nat.ofDigitChars 10 l acc) := by
  induction l generalizing acc with
  | nil => rw [digitsValue, Nat.ofDigitChars_nil]
  | cons c l ih =>
    have hc : c.isDigit = true := h c (List.mem_cons_self ..)
    have hascii : c.toNat < 128 := by
      have hle : c.toNat ≤ 57 := (Char.isDigit_iff_toNat.mp hc).2
      omega
    have hval : acc * 10 + (c.toNat - 48) = 10 * acc + (c.toNat - '0'.toNat) := by
      rw [Nat.mul_comm]
      rfl
    rw [digitsValue, J.digit_ascii c hascii, if_pos hc, Option.bind_some,
      ih (fun x hx => h x (List.mem_cons_of_mem c hx)), Nat.ofDigitChars_cons, hval]

/-- Digits are read as their value: the first is no sign. -/
theorem signedValue_digits {l : List Char} (hne : l ≠ []) (h : ∀ c ∈ l, c.isDigit = true) :
    signedValue J 10 l = some (Nat.ofDigitChars 10 l 0 : ℤ) := by
  have hvalue := digitsValue_digits J h 0
  match l, hne, h, hvalue with
  | [c], _, _, hv => rw [signedValue, hv]; rfl
  | c :: d :: rest, _, hd, hv =>
    have hc : c.isDigit = true := hd c (List.mem_cons_self ..)
    have hminus : c ≠ '-' := by rintro rfl; exact absurd hc (by decide)
    have hplus : c ≠ '+' := by rintro rfl; exact absurd hc (by decide)
    rw [signedValue, if_neg hminus, if_neg hplus, hv]
    · rfl
    · simp

/-- A text of digits is read as its number as long as an `Int` can hold it. -/
theorem toInt?_digits {l : List Char} (hne : l ≠ []) (h : ∀ c ∈ l, c.isDigit = true)
    (hlt : Nat.ofDigitChars 10 l 0 < 2 ^ 31) :
    toInt? J (.ofList l) = some (Int32.ofInt (Nat.ofDigitChars 10 l 0 : ℤ)) := by
  rw [toInt?, String.toList_ofList, signedValue_digits J hne h, Option.bind_some, if_pos (by omega)]

/-- **A printed integer is read back**, as far as the program prints any: from zero on. -/
theorem toInt?_toString {n : Int32} (h : 0 ≤ n.toInt) : toInt? J (toString n.toInt) = some n := by
  obtain ⟨k, hk⟩ := Int.eq_ofNat_of_zero_le h
  have hlt : n.toInt < 2 ^ 31 := n.toInt_lt
  have hdig : ∀ c ∈ Nat.toDigits 10 k, c.isDigit = true :=
    fun c hc => Nat.isDigit_of_mem_toDigits (by omega) (by omega) hc
  rw [toInt?, hk, toList_toString_nat, signedValue_digits J Nat.toDigits_ne_nil hdig, Nat.ofDigitChars_ten_toDigits,
    Option.bind_some, if_pos (by omega), ← hk, Int32.ofInt_toInt]

end Text

end VlessCard
