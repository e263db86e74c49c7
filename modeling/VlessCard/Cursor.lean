/-
A list that is written out piece by piece by a writer that keeps count of where it is.

The writer goes on from where it takes itself to be, and it may take itself to be further than it
wrote. The moves that it makes lie end to end; whether nothing was left out is read off them.
-/
import Mathlib

set_option autoImplicit false

namespace VlessCard.Cursor

variable {α : Type}

/-- Of the `adv` elements from `start` on that are behind it afterwards a writer has written `took`. -/
structure Move where
  start : ℕ
  took : ℕ
  adv : ℕ
  deriving DecidableEq, Repr

/-- The moves lead from `lp` to `pos`. -/
def Leads : ℕ → List Move → ℕ → Prop
  | lp, [], pos => pos = lp
  | lp, m :: ms, pos => m.start = lp ∧ m.took ≤ m.adv ∧ Leads (lp + m.adv) ms pos

/-- What a move writes. -/
def Move.read (xs : List α) (m : Move) : List α := (xs.drop m.start).take m.took

def Move.Whole (m : Move) : Prop := m.took = m.adv

instance (m : Move) : Decidable m.Whole := inferInstanceAs (Decidable (m.took = m.adv))

/-! ## Moves end to end

Moves lie end to end when each begins where the one before has left off. The writer's count is
then the sum of what the moves have left behind, whatever was written of it. -/

theorem Leads.le {lp pos : ℕ} {ms : List Move} (h : Leads lp ms pos) : lp ≤ pos := by
  induction ms generalizing lp with
  | nil => exact h.ge
  | cons m ms ih =>
    have hrest := ih h.2.2
    omega

theorem leads_append {lp pos : ℕ} (ms ms' : List Move) :
    Leads lp (ms ++ ms') pos ↔ ∃ mid, Leads lp ms mid ∧ Leads mid ms' pos := by
  induction ms generalizing lp with
  | nil =>
    simp only [List.nil_append, Leads]
    exact ⟨fun h => ⟨lp, rfl, h⟩, fun ⟨mid, hmid, h⟩ => hmid ▸ h⟩
  | cons m ms ih =>
    simp only [List.cons_append, Leads, ih]
    constructor
    · rintro ⟨hstart, hle, mid, hms, hms'⟩
      exact ⟨mid, ⟨hstart, hle, hms⟩, hms'⟩
    · rintro ⟨mid, ⟨hstart, hle, hms⟩, hms'⟩
      exact ⟨hstart, hle, mid, hms, hms'⟩

/-! ## What is written

What is written in all is the list of what each move wrote. It is a part of the list in its
order, and it is all of it just when no move left anything behind unwritten. -/

theorem Leads.length_read_le (xs : List α) {lp pos : ℕ} {ms : List Move} (h : Leads lp ms pos) :
    (ms.flatMap (Move.read xs)).length ≤ pos - lp := by
  induction ms generalizing lp with
  | nil => exact Nat.zero_le _
  | cons m ms ih =>
    obtain ⟨-, hle, hms⟩ := h
    have hrest := ih hms
    have hfar := hms.le
    have hm : (m.read xs).length ≤ m.took := List.length_take_le _ _
    rw [List.flatMap_cons, List.length_append]
    omega

/-- What lies behind `m` and up to `pos` is the part that `m` leaves behind, and the rest. -/
theorem Leads.take_cons (xs : List α) {lp pos : ℕ} {m : Move} {ms : List Move} (h : Leads lp (m :: ms) pos) :
    (xs.drop lp).take (pos - lp) = (xs.drop lp).take m.adv ++ (xs.drop (lp + m.adv)).take (pos - (lp + m.adv)) := by
  have hfar := h.2.2.le
  rw [show pos - lp = m.adv + (pos - (lp + m.adv)) by omega, List.take_add, List.drop_drop]

/-- Nothing is written twice, and nothing out of order. -/
theorem Leads.read_sublist (xs : List α) {lp pos : ℕ} {ms : List Move} (h : Leads lp ms pos) :
    List.Sublist (ms.flatMap (Move.read xs)) ((xs.drop lp).take (pos - lp)) := by
  induction ms generalizing lp with
  | nil => exact List.nil_sublist _
  | cons m ms ih =>
    rw [List.flatMap_cons, h.take_cons xs]
    obtain ⟨hstart, hle, hms⟩ := h
    have hm : List.Sublist (m.read xs) ((xs.drop lp).take m.adv) := by
      rw [Move.read, hstart]
      exact (List.take_prefix_take_left hle).sublist
    exact hm.append (ih hms)

/-- **All is written, and in order, just when every move wrote all that it left behind.** -/
theorem Leads.read_eq_iff {xs : List α} {lp pos : ℕ} {ms : List Move} (h : Leads lp ms pos) (hpos : pos ≤ xs.length) :
    ms.flatMap (Move.read xs) = (xs.drop lp).take (pos - lp) ↔ ∀ m ∈ ms, m.Whole := by
  induction ms generalizing lp with
  | nil =>
    obtain rfl : pos = lp := h
    simp
  | cons m ms ih =>
    have hsplit := h.take_cons xs
    obtain ⟨hstart, hle, hms⟩ := h
    have hfar := hms.le
    rw [List.flatMap_cons, List.forall_mem_cons, ← ih hms, hsplit]
    constructor
    · intro hall
      -- what is written behind `m` is too short to stand in for what `m` left out
      have hlen := congrArg List.length hall
      have hrest := hms.length_read_le xs
      have hm : (m.read xs).length ≤ m.took := List.length_take_le _ _
      simp only [List.length_append, List.length_take, List.length_drop] at hlen
      have hwhole : m.Whole := by
        unfold Move.Whole
        omega
      refine ⟨hwhole, ?_⟩
      rw [Move.read, hstart, hwhole] at hall
      exact List.append_cancel_left hall
    · rintro ⟨hwhole, hrest⟩
      rw [hrest, Move.read, hstart, hwhole]

end VlessCard.Cursor
