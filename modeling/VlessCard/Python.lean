/-
The values and the errors of the Python scripts.

`PyVal` is what `json.loads` returns; a float is a rational, an infinity or not a
number. An operation on a value of the wrong kind raises, and which error it
raises is part of what the scripts rely on: they catch some and not others.
-/
import Mathlib.Data.Rat.Defs
import VlessCard.OrderedMap

set_option autoImplicit false

namespace VlessCard

/-- A Python float. -/
inductive PyFloat where
  | finite (q : ℚ)
  | inf (negative : Bool)
  | nan
deriving DecidableEq

/-- A value that came out of `json.loads`. -/
inductive PyVal where
  | none
  | bool (b : Bool)
  | int (n : ℤ)
  | float (x : PyFloat)
  | str (s : String)
  | list (xs : List PyVal)
  | dict (o : List (String × PyVal))

/-- The errors the scripts raise or catch. -/
inductive PyError where
  | ValueError
  | TypeError
  | KeyError
  | AttributeError
  | OverflowError
  | ZeroDivisionError
deriving DecidableEq

/-- A computation that may raise. -/
abbrev Py (α : Type) : Type := Except PyError α

namespace PyVal

/-- `v[k]` for a text `k`. -/
def item (v : PyVal) (k : String) : Py PyVal :=
  match v with
  | .dict o => match Assoc.get? o k with
    | some x => .ok x
    | Option.none => .error .KeyError
  | _ => .error .TypeError

/-- `v.items()`. -/
def items : PyVal → Py (List (String × PyVal))
  | .dict o => .ok o
  | _ => .error .AttributeError

/-- `v == n` for an integer `n`: numbers and booleans compare by value. -/
def eqInt (v : PyVal) (n : ℤ) : Bool :=
  match v with
  | .bool b => (if b then 1 else 0) = n
  | .int m => m = n
  | .float (.finite q) => q = n
  | _ => false

/-- A member of a set has a hash: lists and dictionaries have none. -/
def hashable : PyVal → Bool
  | .list _ => false
  | .dict _ => false
  | _ => true

/-- `operator.index(v)`: what may stand in a slice. -/
def index : PyVal → Py ℤ
  | .bool b => .ok (if b then 1 else 0)
  | .int n => .ok n
  | _ => .error .TypeError

theorem eqInt_int (m n : ℤ) : (PyVal.int m).eqInt n = true ↔ m = n := decide_eq_true_iff

/-- What may stand in a slice compares as the number it stands for. -/
theorem eqInt_of_index {v : PyVal} {m : ℤ} (h : v.index = .ok m) (n : ℤ) :
    v.eqInt n = (PyVal.int m).eqInt n := by
  cases v with
  | bool b => rw [← Except.ok.inj h, eqInt, eqInt]
  | int k => rw [← Except.ok.inj h]
  | _ => cases h

end PyVal

/-! ## Lists

Sorting computes every key first and is stable; a loop stops at the first pass that raises. The
lemmas say when a loop returns and what its passes keep. -/

namespace Python

variable {α κ : Type}

/-- `sorted(l, key=key)`: every key is computed first; the sort is stable. -/
def sortedBy (le : κ → κ → Bool) (key : α → Py κ) (l : List α) : Py (List α) := do
  let keyed ← l.mapM fun a => (key a).map fun k => (k, a)
  return (keyed.mergeSort fun x y => le x.1 y.1).map Prod.snd

@[simp] theorem ok_bind {α β : Type} (a : α) (f : α → Py β) : (Except.ok a >>= f) = f a := rfl

/-- A computation that returned went through its first part. -/
theorem bind_ok {α β : Type} {x : Py α} {f : α → Py β} {b : β} (h : x >>= f = .ok b) :
    ∃ a, x = .ok a ∧ f a = .ok b := by
  cases x with
  | error e => cases h
  | ok a => exact ⟨a, rfl, h⟩

/-- A map none of whose values raises returns their list. -/
theorem mapM_ok {α β : Type} {f : α → Py β} {g : β → α} {l : List α}
    (h : ∀ a ∈ l, ∃ b, f a = .ok b ∧ g b = a) : ∃ r, l.mapM f = .ok r ∧ r.map g = l := by
  induction l with
  | nil => exact ⟨[], rfl, rfl⟩
  | cons a l ih =>
    obtain ⟨b, hb, hg⟩ := h a (List.mem_cons_self ..)
    obtain ⟨r, hr, hmap⟩ := ih fun c hc => h c (List.mem_cons_of_mem a hc)
    refine ⟨b :: r, ?_, ?_⟩
    · rw [List.mapM_cons, hb, hr]
      rfl
    · rw [List.map_cons, hg, hmap]

/-- Sorting by keys none of which raises gives the same elements in some order. -/
theorem sortedBy_ok (le : κ → κ → Bool) {key : α → Py κ} {l : List α}
    (h : ∀ a ∈ l, ∃ k, key a = .ok k) : ∃ r, sortedBy le key l = .ok r ∧ r.Perm l := by
  have hkeyed : ∀ a ∈ l, ∃ b, ((key a).map fun k => (k, a)) = .ok b ∧ b.2 = a := by
    intro a ha
    obtain ⟨k, hk⟩ := h a ha
    exact ⟨(k, a), by rw [hk]; rfl, rfl⟩
  obtain ⟨keyed, hr, hmap⟩ := mapM_ok hkeyed
  refine ⟨(keyed.mergeSort fun x y => le x.1 y.1).map Prod.snd, ?_, ?_⟩
  · rw [sortedBy, hr]
    rfl
  · rw [← hmap]
    exact (List.mergeSort_perm keyed _).map Prod.snd

/-- A map that returned computed every value. -/
theorem forall_of_mapM {β : Type} {f : α → Py β} {l : List α} {r : List β} (h : l.mapM f = .ok r) :
    ∀ a ∈ l, ∃ b, f a = .ok b := by
  induction l generalizing r with
  | nil => exact fun a ha => absurd ha List.not_mem_nil
  | cons a l ih =>
    rw [List.mapM_cons] at h
    obtain ⟨b, hb, h⟩ := bind_ok h
    obtain ⟨rest, hrest, -⟩ := bind_ok h
    exact List.forall_mem_cons.mpr ⟨⟨b, hb⟩, ih hrest⟩

theorem mapM_eq_map {β : Type} {f : α → Py β} {g : α → β} {l : List α} (h : ∀ a ∈ l, f a = .ok (g a)) :
    l.mapM f = .ok (l.map g) := by
  induction l with
  | nil => rfl
  | cons a l ih =>
    rw [List.forall_mem_cons] at h
    rw [List.mapM_cons, h.1, ih h.2]
    rfl

/-- A sort that returned computed every key and sorted by them. -/
theorem sortedBy_spec [Nonempty κ] {le : κ → κ → Bool} {key : α → Py κ} {l r : List α}
    (h : sortedBy le key l = .ok r) :
    ∃ g : α → κ, (∀ a ∈ l, key a = .ok (g a)) ∧ r = l.mergeSort fun a b => le (g a) (g b) := by
  obtain ⟨keyed, hkeyed, hr⟩ := bind_ok h
  -- every element has a key, or the sort would have raised
  have hkeys : ∀ a ∈ l, ∃ k, key a = .ok k := by
    intro a ha
    obtain ⟨e, he⟩ := forall_of_mapM hkeyed a ha
    cases hk : key a with
    | error x =>
      rw [hk] at he
      cases he
    | ok k => exact ⟨k, rfl⟩
  choose! g hg using hkeys
  have hpairs : l.mapM (fun a => (key a).map fun k => (k, a)) = .ok (l.map fun a => (g a, a)) := by
    apply mapM_eq_map
    intro a ha
    rw [hg a ha]
    rfl
  rw [hpairs, Except.ok.injEq] at hkeyed
  refine ⟨g, hg, ?_⟩
  -- so the pairs are compared as the elements are by their keys
  have hsame : ∀ x ∈ keyed, ∀ y ∈ keyed, le x.1 y.1 = le (g x.2) (g y.2) := by
    rw [← hkeyed]
    intro x hx y hy
    obtain ⟨a, -, rfl⟩ := List.mem_map.mp hx
    obtain ⟨b, -, rfl⟩ := List.mem_map.mp hy
    rfl
  have hsnd : keyed.map Prod.snd = l := by
    rw [← hkeyed, List.map_map]
    exact List.map_id l
  rw [← Except.ok.inj hr, List.map_mergeSort (s := fun a b => le (g a) (g b)) hsame, hsnd]

/-- What is least, and among equals first, comes first in the sorted list. -/
theorem head?_mergeSort {le : α → α → Bool} (trans : ∀ a b c, le a b = true → le b c = true → le a c = true)
    (total : ∀ a b, (le a b || le b a) = true) {l : List α} (hn : l.Nodup) {b : α} (hb : b ∈ l)
    (hleast : ∀ c ∈ l, c ≠ b → le b c = true ∧ (le c b = true → [b, c].Sublist l)) :
    (l.mergeSort le).head? = some b := by
  have hperm := List.mergeSort_perm l le
  obtain ⟨c, rest, hsorted⟩ := List.exists_cons_of_ne_nil (List.ne_nil_of_mem (hperm.mem_iff.mpr hb))
  by_cases hcb : c = b
  · rw [hsorted, hcb, List.head?_cons]
  · -- nothing stands before `c`, but `b` does
    have hc : c ∈ l := hperm.mem_iff.mp (hsorted ▸ List.mem_cons_self)
    have hbrest : b ∈ rest := by
      have hmem : b ∈ c :: rest := hsorted ▸ hperm.mem_iff.mpr hb
      exact (List.mem_cons.mp hmem).resolve_left (Ne.symm hcb)
    have hpair := List.pairwise_mergeSort trans total l
    rw [hsorted] at hpair
    have hcle : le c b = true := (List.pairwise_cons.mp hpair).1 b hbrest
    obtain ⟨hble, hbefore⟩ := hleast c hc hcb
    have hsub := List.pair_sublist_mergeSort trans total hble (hbefore hcle)
    have hnodup : (c :: rest).Nodup := hsorted ▸ hperm.nodup_iff.mpr hn
    rw [hsorted, List.cons_sublist_cons'] at hsub
    rcases hsub with hsub | ⟨rfl, -⟩
    · have hin : c ∈ rest := hsub.subset (List.mem_cons_of_mem _ List.mem_cons_self)
      exact absurd hin (List.nodup_cons.mp hnodup).1
    · exact absurd rfl hcb

/-- A loop raises only what its body raises. -/
theorem foldlM_raises {σ : Type} {f : σ → α → Py σ} {err : PyError}
    (hf : ∀ s a x, f s a = .error x → x = err) {l : List α} :
    ∀ {s : σ} {x : PyError}, l.foldlM f s = .error x → x = err := by
  induction l with
  | nil =>
    intro s x h
    cases h
  | cons a l ih =>
    intro s x h
    rw [List.foldlM_cons] at h
    cases hstep : f s a with
    | error y =>
      rw [hstep] at h
      cases h
      exact hf s a x hstep
    | ok s' =>
      rw [hstep] at h
      exact ih h

/-- What every pass of a loop keeps holds after it. -/
theorem foldlM_inv {σ : Type} {f : σ → α → Py σ} {p : σ → Prop} {l : List α} :
    ∀ {s s' : σ}, (∀ a ∈ l, ∀ s s', p s → f s a = .ok s' → p s') → p s → l.foldlM f s = .ok s' →
      p s' := by
  induction l with
  | nil =>
    intro s s' _ hs h
    rw [← Except.ok.inj h]
    exact hs
  | cons a l ih =>
    intro s s' hf hs h
    rw [List.foldlM_cons] at h
    obtain ⟨t, ht, h⟩ := bind_ok h
    rw [List.forall_mem_cons] at hf
    exact ih hf.2 (hf.1 s t hs ht) h

/-- Where it does not depend on the state whether a pass raises, a loop runs through when
no pass raises. -/
theorem foldlM_returns_iff {σ : Type} {f : σ → α → Py σ} {q : α → Prop}
    (hf : ∀ s a, (∃ s', f s a = .ok s') ↔ q a) {l : List α} :
    ∀ {s : σ}, (∃ s', l.foldlM f s = .ok s') ↔ ∀ a ∈ l, q a := by
  induction l with
  | nil =>
    intro s
    exact ⟨fun _ _ ha => absurd ha List.not_mem_nil, fun _ => ⟨s, rfl⟩⟩
  | cons a l ih =>
    intro s
    rw [List.foldlM_cons, List.forall_mem_cons, ← hf s a]
    constructor
    · rintro ⟨r, h⟩
      obtain ⟨t, ht, h⟩ := bind_ok h
      exact ⟨⟨t, ht⟩, ih.mp ⟨r, h⟩⟩
    · rintro ⟨⟨t, ht⟩, h⟩
      rw [ht]
      exact ih.mpr h

/-- A map none of whose values raises returns. -/
theorem mapM_returns {β : Type} {f : α → Py β} {l : List α} (h : ∀ a ∈ l, ∃ b, f a = .ok b) :
    ∃ r, l.mapM f = .ok r := by
  induction l with
  | nil => exact ⟨[], rfl⟩
  | cons a l ih =>
    rw [List.forall_mem_cons] at h
    obtain ⟨⟨b, hb⟩, hrest⟩ := h
    obtain ⟨r, hr⟩ := ih hrest
    refine ⟨b :: r, ?_⟩
    rw [List.mapM_cons, hb, hr]
    rfl

end Python

end VlessCard
