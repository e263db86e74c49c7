/-
Computations over a store that may be cut short.

A computation goes through stores one step at a time, and a crash may leave any of
them behind. So besides what it returns a computation is judged by the chain of
stores it passes: a *guarantee* relates each store to the next, and an invariant
that the guarantee keeps holds wherever the computation is cut. The rules follow
the way computations are put together, and a sequence of calls, each of them cut
short or not, keeps what one call keeps.
-/
import Mathlib.Data.List.Chain
import Mathlib.Logic.Relation

set_option autoImplicit false

namespace VlessCard

namespace Crash

/-- The stores after each step of a computation, in order, and how it ends. -/
structure Outcome (S ε α : Type) where
  passed : List S
  result : Except ε α

/-- The store at the end. -/
def Outcome.final {S ε α : Type} (o : Outcome S ε α) (s : S) : S := o.passed.getLastD s

/-- A computation over a store. -/
def Steps (S ε α : Type) : Type := S → Outcome S ε α

namespace Steps

variable {S ε α β : Type}

/-- Nothing is done. -/
def ret (a : α) : Steps S ε α := fun _ => ⟨[], .ok a⟩

/-- One computation and then another; an exception ends both. -/
def andThen (m : Steps S ε α) (f : α → Steps S ε β) : Steps S ε β := fun s =>
  match (m s).result with
  | .ok a => ⟨(m s).passed ++ (f a ((m s).final s)).passed, (f a ((m s).final s)).result⟩
  | .error e => ⟨(m s).passed, .error e⟩

instance : Monad (Steps S ε) where
  pure := ret
  bind := andThen

/-- What a look at the store gives. -/
def look (f : S → α) : Steps S ε α := fun s => ⟨[], .ok (f s)⟩

/-- One step. -/
def act (f : S → S) : Steps S ε Unit := fun s => ⟨[f s], .ok ()⟩

/-- What was computed without the store. -/
def of (r : Except ε α) : Steps S ε α := fun _ => ⟨[], r⟩

/-- The stores a crash may leave behind. -/
def points (m : Steps S ε α) (s : S) : List S := s :: (m s).passed

end Steps

/-! ## What a computation guarantees

The rules are those of a Hoare logic in which every single step has to keep a guarantee, not only
the whole: a crash may come after any of them. Composition asks that the second computation may
rely on what the first one has left. -/

section

open Steps

variable {S ε α β : Type} {G : S → S → Prop} {P R : S → Prop}

/-- From a store with `P` every step of `m` is one of `G`, and at the end `Q` holds. -/
def Holds (G : S → S → Prop) (P : S → Prop) (m : Steps S ε α) (Q : Except ε α → S → Prop) : Prop :=
  ∀ s, P s → List.IsChain G (points m s) ∧ Q (m s).result ((m s).final s)

/-- The rules for `Holds` follow; here less is known before. -/
theorem Holds.pre {m : Steps S ε α} {Q : Except ε α → S → Prop} (h : Holds G P m Q)
    (hp : ∀ s, R s → P s) : Holds G R m Q := fun s hs => h s (hp s hs)

theorem Holds.post {m : Steps S ε α} {Q Q' : Except ε α → S → Prop} (h : Holds G P m Q)
    (hq : ∀ r s, Q r s → Q' r s) : Holds G P m Q' := fun s hs => ⟨(h s hs).1, hq _ _ (h s hs).2⟩

theorem holds_pure (a : α) {Q : Except ε α → S → Prop} (h : ∀ s, P s → Q (.ok a) s) :
    Holds G P (pure a : Steps S ε α) Q := fun s hs => ⟨List.isChain_singleton s, h s hs⟩

theorem holds_look (f : S → α) {Q : Except ε α → S → Prop} (h : ∀ s, P s → Q (.ok (f s)) s) :
    Holds G P (look f : Steps S ε α) Q := fun s hs => ⟨List.isChain_singleton s, h s hs⟩

theorem holds_of (r : Except ε α) {Q : Except ε α → S → Prop} (h : ∀ s, P s → Q r s) :
    Holds G P (of r : Steps S ε α) Q := fun s hs => ⟨List.isChain_singleton s, h s hs⟩

theorem holds_act (f : S → S) {Q : Except ε Unit → S → Prop} (hg : ∀ s, P s → G s (f s))
    (h : ∀ s, P s → Q (.ok ()) (f s)) : Holds G P (act f : Steps S ε Unit) Q :=
  fun s hs => ⟨List.isChain_pair.mpr (hg s hs), h s hs⟩

theorem holds_exists {ι : Type} {P : ι → S → Prop} {m : Steps S ε α} {Q : Except ε α → S → Prop}
    (h : ∀ i, Holds G (P i) m Q) : Holds G (fun s => ∃ i, P i s) m Q := fun s ⟨i, hs⟩ => h i s hs

/-- The chain of two computations, where the second starts from the end of the first. -/
theorem isChain_append_getLastD {l l' : List S} (s : S) (h : List.IsChain G (s :: l))
    (h' : List.IsChain G (l.getLastD s :: l')) : List.IsChain G (s :: (l ++ l')) := by
  induction l generalizing s with
  | nil => exact h'
  | cons t l ih =>
    rw [List.isChain_cons_cons] at h
    rw [List.cons_append, List.isChain_cons_cons]
    have hlast : (t :: l).getLastD s = l.getLastD t := by
      rw [List.getLastD_cons]
    rw [hlast] at h'
    exact ⟨h.1, ih t h.2 h'⟩

/-- The last state of two runs is that of the second, begun where the first ended. -/
theorem getLastD_append (l l' : List S) (s : S) :
    (l ++ l').getLastD s = l'.getLastD (l.getLastD s) := by
  induction l generalizing s with
  | nil => rfl
  | cons t l ih => rw [List.cons_append, List.getLastD_cons, List.getLastD_cons, ih]

/-- The rule of composition: the second computation starts from what the first leaves,
and an exception of the first is the exception of both. -/
theorem holds_bind {m : Steps S ε α} {f : α → Steps S ε β} {R : Except ε α → S → Prop}
    {Q : Except ε β → S → Prop} (hm : Holds G P m R) (hf : ∀ a, Holds G (R (.ok a)) (f a) Q)
    (he : ∀ e s, R (.error e) s → Q (.error e) s) : Holds G P (m >>= f) Q := by
  intro s hs
  obtain ⟨hchain, hr⟩ := hm s hs
  show List.IsChain G (s :: (andThen m f s).passed) ∧
    Q (andThen m f s).result ((andThen m f s).final s)
  rw [Outcome.final, andThen]
  cases hres : (m s).result with
  | error e =>
    rw [hres] at hr
    exact ⟨hchain, he e _ hr⟩
  | ok a =>
    rw [hres] at hr
    obtain ⟨hchain', hq⟩ := hf a _ hr
    refine ⟨isChain_append_getLastD s hchain hchain', ?_⟩
    rw [getLastD_append]
    exact hq

/-- The rule of composition after a computation that returns. -/
theorem holds_bind_ok {m : Steps S ε α} {f : α → Steps S ε β} {R : α → S → Prop}
    {Q : Except ε β → S → Prop} (hm : Holds G P m fun r s => ∃ a, r = .ok a ∧ R a s)
    (hf : ∀ a, Holds G (R a) (f a) Q) : Holds G P (m >>= f) Q := by
  refine holds_bind hm (fun a => (hf a).pre fun s hs => ?_) fun e s hs => ?_
  · obtain ⟨b, hb, hR⟩ := hs
    rw [Except.ok.inj hb]
    exact hR
  · obtain ⟨b, hb, -⟩ := hs
    cases hb

/-- After a look one may rely on what was seen. -/
theorem holds_look_bind {f : S → α} {k : α → Steps S ε β} {Q : Except ε β → S → Prop}
    (hk : ∀ a, Holds G (fun s => f s = a ∧ P s) (k a) Q) : Holds G P (look f >>= k) Q :=
  holds_bind_ok (holds_look f fun s hs => ⟨f s, rfl, rfl, hs⟩) hk

/-- After an act on what it brought about. -/
theorem holds_act_bind {f : S → S} {k : Unit → Steps S ε β} {Q : Except ε β → S → Prop}
    (hf : ∀ s, P s → R (f s) ∧ G s (f s)) (hk : Holds G R (k ()) Q) : Holds G P (act f >>= k) Q :=
  holds_bind_ok (holds_act f (fun s hs => (hf s hs).2) fun s hs => ⟨(), rfl, (hf s hs).1⟩) fun _ => hk

theorem of_ok_bind (a : α) (f : α → Steps S ε β) : (of (.ok a) >>= f) = f a := by
  funext s
  show andThen (of (.ok a)) f s = f a s
  rw [andThen, of]
  rfl

theorem of_error_bind (e : ε) (f : α → Steps S ε β) : (of (.error e) >>= f) = of (.error e) := rfl

/-- A crash in the first of two computations is one of both. -/
theorem mem_points_bind {m : Steps S ε α} {f : α → Steps S ε β} {s t : S} (h : t ∈ points m s) :
    t ∈ points (m >>= f) s := by
  show t ∈ s :: (andThen m f s).passed
  rw [andThen]
  rcases List.mem_cons.mp h with rfl | h
  · exact List.mem_cons_self
  · cases (m s).result with
    | ok a => exact List.mem_cons_of_mem _ (List.mem_append_left _ h)
    | error e => exact List.mem_cons_of_mem _ h

/-- A crash in the second, after a first that takes no step. -/
theorem mem_points_bind_ok {m : Steps S ε α} {f : α → Steps S ε β} {s t : S} {a : α}
    (hm : m s = ⟨[], .ok a⟩) (h : t ∈ points (f a) s) : t ∈ points (m >>= f) s := by
  show t ∈ s :: (andThen m f s).passed
  rw [andThen, hm]
  exact h

/-! ## Wherever it is cut

A crash leaves the store after some step, so what all steps keep holds at every such point. Calls
that are cut short one after the other are covered by the same argument. -/

/-- What every step keeps holds at every point. -/
theorem invariant_of_chain {I : S → Prop} (hg : ∀ s t, G s t → I s → I t) {s : S} {l : List S}
    (h : List.IsChain G (s :: l)) (hs : I s) : ∀ t ∈ s :: l, I t := by
  induction l generalizing s with
  | nil =>
    intro t ht
    rw [List.mem_singleton.mp ht]
    exact hs
  | cons u l ih =>
    rw [List.isChain_cons_cons] at h
    intro t ht
    rcases List.mem_cons.mp ht with rfl | ht
    · exact hs
    · exact ih h.2 (hg s u h.1 hs) t ht

/-- The stores that calls may leave behind, each of them cut short at some point. -/
def Left {ι : Type} (calls : ι → Steps S ε α) : S → S → Prop :=
  Relation.ReflTransGen fun s t => ∃ i, t ∈ points (calls i) s

/-- What each call keeps at each of its points is kept by every sequence of calls. -/
theorem Left.keeps {ι : Type} {calls : ι → Steps S ε α} {I : S → Prop}
    (hcall : ∀ i s, I s → ∀ t ∈ points (calls i) s, I t) {s t : S} (h : Left calls s t) (hs : I s) : I t := by
  induction h with
  | refl => exact hs
  | tail _ hstep ih =>
    obtain ⟨i, hi⟩ := hstep
    exact hcall i _ ih _ hi

end

end Crash

end VlessCard
