/-
A reader that is called with one piece of a stream after another.

Each call takes the state and a piece and may return something. Where a call with two
pieces joined does what the two calls do, the cuts make no difference: any two ways to
cut one stream leave the same state and return the same things in the same order. What
holds of a piece only up to a length is asked only up to that length.
-/
import Mathlib.Data.List.Basic

set_option autoImplicit false

namespace VlessCard.Chunking

variable {σ α ρ : Type}

/-- Feed the pieces in order; the state after them and what the calls returned, in order. -/
def feedAll (feed : σ → List α → σ × Option ρ) : σ → List (List α) → σ × List ρ
  | s, [] => (s, [])
  | s, c :: cs =>
    let r := feed s c
    let t := feedAll feed r.1 cs
    (t.1, r.2.toList ++ t.2)

variable (feed : σ → List α → σ × Option ρ)

@[simp] theorem feedAll_nil (s : σ) : feedAll feed s [] = (s, []) := rfl

theorem feedAll_cons (s : σ) (c : List α) (cs : List (List α)) :
    feedAll feed s (c :: cs)
      = ((feedAll feed (feed s c).1 cs).1, (feed s c).2.toList ++ (feedAll feed (feed s c).1 cs).2) := rfl

theorem feedAll_append (s : σ) (cs ds : List (List α)) :
    feedAll feed s (cs ++ ds)
      = ((feedAll feed (feedAll feed s cs).1 ds).1,
          (feedAll feed s cs).2 ++ (feedAll feed (feedAll feed s cs).1 ds).2) := by
  induction cs generalizing s with
  | nil => simp
  | cons c cs ih =>
    rw [List.cons_append, feedAll_cons, ih, feedAll_cons]
    simp only [List.append_assoc]

/-- What is preserved by every call holds after all of them, together with what was fed
and what was returned. -/
theorem feedAll_induction {I : List α → σ → List ρ → Prop} (k : ℕ)
    (step : ∀ fed s out c, I fed s out → c.length ≤ k →
      I (fed ++ c) (feed s c).1 (out ++ (feed s c).2.toList))
    {s : σ} {fed : List α} {out : List ρ} (h : I fed s out) {cs : List (List α)} (hcs : ∀ c ∈ cs, c.length ≤ k) :
    I (fed ++ cs.flatten) (feedAll feed s cs).1 (out ++ (feedAll feed s cs).2) := by
  induction cs generalizing s fed out with
  | nil => simpa using h
  | cons c cs ih =>
    have hnext := step fed s out c h (hcs c List.mem_cons_self)
    have hall := ih hnext fun d hd => hcs d (List.mem_cons_of_mem c hd)
    rw [feedAll_cons, List.flatten_cons]
    simpa only [List.append_assoc] using hall

/-- In the states of `I`, pieces of up to `k` elements may be cut anywhere. -/
structure Cuttable (I : σ → Prop) (k : ℕ) : Prop where
  keep : ∀ s c, I s → c.length ≤ k → I (feed s c).1
  nil : ∀ s, I s → feed s [] = (s, none)
  cut : ∀ s a b, I s → (a ++ b).length ≤ k → feedAll feed s [a ++ b] = feedAll feed s [a, b]

variable {feed} {I : σ → Prop} {k : ℕ}

/-- One piece is its elements one by one. -/
theorem Cuttable.singles (h : Cuttable feed I k) {s : σ} (hs : I s) {c : List α} (hc : c.length ≤ k) :
    feedAll feed s [c] = feedAll feed s (c.map fun x => [x]) := by
  induction c generalizing s with
  | nil => simp [feedAll_cons, h.nil s hs]
  | cons x c ih =>
    have hlen : c.length + 1 ≤ k := by simpa using hc
    have hx : I (feed s [x]).1 := h.keep s [x] hs (by simp only [List.length_singleton]; omega)
    calc feedAll feed s [x :: c]
        = feedAll feed s [[x], c] := h.cut s [x] c hs (by simpa using hc)
      _ = feedAll feed s ([x] :: c.map fun y => [y]) := by
          rw [feedAll_cons feed s [x], feedAll_cons feed s [x], ih hx (by omega)]

/-- **Any cut of a stream into pieces that are not too long reads like its elements one by one.** -/
theorem Cuttable.feedAll_eq (h : Cuttable feed I k) {s : σ} (hs : I s) {cs : List (List α)}
    (hcs : ∀ c ∈ cs, c.length ≤ k) :
    feedAll feed s cs = feedAll feed s (cs.flatten.map fun x => [x]) := by
  induction cs generalizing s with
  | nil => rfl
  | cons c cs ih =>
    have hc : c.length ≤ k := hcs c List.mem_cons_self
    have hrest := ih (h.keep s c hs hc) fun d hd => hcs d (List.mem_cons_of_mem c hd)
    have hone := h.singles hs hc
    rw [feedAll_cons] at hone
    have hstate : (feed s c).1 = (feedAll feed s (c.map fun x => [x])).1 := congrArg Prod.fst hone
    have hout : (feed s c).2.toList = (feedAll feed s (c.map fun x => [x])).2 := by
      simpa using congrArg Prod.snd hone
    rw [List.flatten_cons, List.map_append, feedAll_append, ← hstate, ← hout, ← hrest, feedAll_cons]

end VlessCard.Chunking
