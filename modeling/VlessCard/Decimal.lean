/-
Decimal numerals as texts, and when one is a prefix of another.

Names made of a stem and a running number are compared in two ways: for
equality, where the numeral determines the number, and by prefix, where it does
not. A positive numeral is a prefix of itself and of the numerals that go on
after it, the first of which is ten times its number; the numeral of zero is a
prefix of itself alone.
-/
import Mathlib.Data.List.Infix
import Mathlib.Tactic.IntervalCases

set_option autoImplicit false

namespace VlessCard.Decimal

/-- Reading further digits after `init` at least multiplies it by ten. -/
theorem ten_mul_le_ofDigitChars (c : Char) (l : List Char) (init : ℕ) :
    10 * init ≤ Nat.ofDigitChars 10 (c :: l) init := by
  rw [Nat.ofDigitChars_eq_ofDigitChars_zero, List.length_cons, Nat.pow_succ]
  have hpos : 1 ≤ 10 ^ l.length := Nat.one_le_pow _ _ (by omega)
  calc 10 * init ≤ 10 ^ l.length * (10 * init) := Nat.le_mul_of_pos_left _ hpos
    _ = 10 ^ l.length * 10 * init := (Nat.mul_assoc _ _ _).symm
    _ ≤ _ := Nat.le_add_right _ _

/-- No positive numeral starts with a zero. -/
theorem head_toDigits_ne_zero {n : ℕ} (hn : 0 < n) : (Nat.toDigits 10 n).head? ≠ some '0' := by
  induction n using Nat.base_induction 10 (by omega) with
  | single m hm =>
    rw [Nat.toDigits_of_lt_base hm, List.head?_cons]
    interval_cases m <;> decide
  | digit m k hk hm ih =>
    rw [← Nat.toDigits_append_toDigits (by omega) hm hk, List.head?_append_of_ne_nil _
      Nat.toDigits_ne_nil]
    exact ih hm

/-- **The prefix order of numerals.** A numeral that extends the numeral of `i` is
that numeral, or stands for at least ten times a positive `i`. -/
theorem eq_or_ten_mul_le {i j : ℕ} (h : Nat.toDigits 10 i <+: Nat.toDigits 10 j) :
    j = i ∨ (0 < i ∧ 10 * i ≤ j) := by
  obtain ⟨rest, hrest⟩ := h
  have hj : j = Nat.ofDigitChars 10 rest i := by
    rw [← Nat.ofDigitChars_ten_toDigits (n := j), ← hrest, Nat.ofDigitChars_append,
      Nat.ofDigitChars_ten_toDigits]
  cases rest with
  | nil => exact .inl (hj.trans Nat.ofDigitChars_nil)
  | cons c rest =>
    refine (Nat.eq_zero_or_pos i).imp (fun hi => ?_) (fun hi => ?_)
    · -- after a zero nothing can follow
      subst hi
      by_contra hne
      apply head_toDigits_ne_zero (Nat.pos_of_ne_zero hne)
      rw [← hrest, Nat.toDigits_zero]
      rfl
    · exact ⟨hi, hj ▸ ten_mul_le_ofDigitChars c rest i⟩

/-- A digit more extends the numeral. -/
theorem toDigits_prefix {i d : ℕ} (hi : 0 < i) (hd : d < 10) :
    Nat.toDigits 10 i <+: Nat.toDigits 10 (10 * i + d) :=
  ⟨Nat.toDigits 10 d, Nat.toDigits_append_toDigits (by omega) hi hd⟩

/-! ## Numbered names

A prefix selector is given a name like `proxy-1` and takes `proxy-10` as well. Which numbers it
takes in is decided by the numerals alone, since the stems are the same. -/

section
variable (stem : String)

theorem numbered_toList (i : ℕ) :
    (stem ++ toString i).toList = stem.toList ++ Nat.toDigits 10 i := by
  rw [String.toList_append, Nat.toString_eq_repr, Nat.toList_repr]

/-- The number of a numbered name is determined by the name. -/
theorem numbered_inj {i j : ℕ} : stem ++ toString i = stem ++ toString j ↔ i = j := by
  rw [← String.toList_inj, numbered_toList, numbered_toList, List.append_cancel_left_eq]
  refine ⟨fun h => ?_, fun h => h ▸ rfl⟩
  rw [← Nat.ofDigitChars_ten_toDigits (n := i), h, Nat.ofDigitChars_ten_toDigits]

/-- Numbered names of one stem extend each other as their numerals do. -/
theorem numbered_prefix {i j : ℕ} :
    (stem ++ toString i).toList <+: (stem ++ toString j).toList ↔
      Nat.toDigits 10 i <+: Nat.toDigits 10 j := by
  rw [numbered_toList, numbered_toList, List.prefix_append_right_inj]

end

end VlessCard.Decimal
