/-
`cloud_reports.py`: which reports the cloud can be merged with.

A report is an arbitrary JSON object, and the merge checks some of its fields and not
others. `Readable` says which reports do not stop it: the fields that are sliced without
a check are absent, empty, a list or a text, a measurement holds no infinite number, a
model no integer beyond the doubles, and a link that can be decoded holds an object.
`Clean` says of which reports the merge counts the well-formed parts only: the name of the
network and of the phone are texts, and a decoded profile has only lists of texts for names
and only objects for masks.
-/
import VlessCard.CloudReports

set_option autoImplicit false

namespace VlessCard

namespace PyVal

/-- A list or a text: what has slices. -/
def sequence : PyVal → Bool
  | .list _ => true
  | .str _ => true
  | _ => false

/-- `v or []` can be sliced. -/
def Sliceable (v : Option PyVal) : Prop := ∀ x ∈ v, x.truthy = true → x.sequence = true

/-- Only a sequence can be sliced; a number or a dict raises. -/
theorem slice_returns_iff (v : PyVal) (n : ℕ) : (∃ xs, v.slice n = .ok xs) ↔ v.sequence = true := by
  cases v with
  | list xs => exact ⟨fun _ => rfl, fun _ => ⟨_, rfl⟩⟩
  | str s => exact ⟨fun _ => rfl, fun _ => ⟨_, rfl⟩⟩
  | _ =>
    constructor
    · rintro ⟨_, h⟩
      cases h
    · intro h
      cases h

/-- A missing value, or one that is false, is taken as no elements. -/
theorem sliceOr_returns_iff (v : Option PyVal) (n : ℕ) :
    (∃ xs, sliceOr v n = .ok xs) ↔ Sliceable v := by
  cases v with
  | none =>
    refine ⟨?_, fun _ => ⟨[], rfl⟩⟩
    rintro - x hx
    cases hx
  | some v =>
    rw [sliceOr]
    by_cases h : v.truthy = true
    · rw [if_pos h, slice_returns_iff]
      constructor
      · intro hs x hx _
        rw [← Option.some.inj hx]
        exact hs
      · exact fun hs => hs v rfl h
    · rw [if_neg h]
      refine ⟨?_, fun _ => ⟨[], rfl⟩⟩
      rintro - x hx ht
      rw [← Option.some.inj hx] at ht
      exact absurd ht h

/-- The first `n` elements, as a loop over `v or []` sees them. -/
def elements (v : Option PyVal) (n : ℕ) : List PyVal := (sliceOr v n).toOption.getD []

/-- Where nothing is raised, these are the elements that are read. -/
theorem sliceOr_eq {v : Option PyVal} (h : Sliceable v) (n : ℕ) : sliceOr v n = .ok (elements v n) := by
  obtain ⟨xs, hxs⟩ := (sliceOr_returns_iff v n).mpr h
  rw [elements, hxs]
  rfl

theorem length_elements (v : Option PyVal) (n : ℕ) : (elements v n).length ≤ n := by
  rw [elements]
  cases h : sliceOr v n with
  | error e => exact Nat.zero_le n
  | ok xs =>
    show xs.length ≤ n
    cases v with
    | none =>
      rw [← Except.ok.inj h]
      exact Nat.zero_le n
    | some v =>
      rw [sliceOr] at h
      split at h
      · cases v with
        | list ys =>
          rw [← Except.ok.inj h]
          exact List.length_take_le n ys
        | str s =>
          rw [← Except.ok.inj h, List.length_map]
          exact List.length_take_le n _
        | _ => cases h
      · rw [← Except.ok.inj h]
        exact Nat.zero_le n

end PyVal

/-- A loop whose passes return is a loop that cannot raise. -/
theorem foldlM_eq_foldl {α σ : Type} {f : σ → α → Py σ} {g : σ → α → σ} {l : List α}
    (h : ∀ a ∈ l, ∀ s, f s a = .ok (g s a)) : ∀ s, l.foldlM f s = .ok (l.foldl g s) := by
  induction l with
  | nil => exact fun s => rfl
  | cons a l ih =>
    intro s
    rw [List.forall_mem_cons] at h
    rw [List.foldlM_cons, h.1 s, List.foldl_cons]
    exact ih h.2 (g s a)

/-- Passing over what a loop does nothing with. -/
theorem foldl_filter_eq {α σ : Type} {f : σ → α → σ} {p : α → Bool} {l : List α}
    (h : ∀ a ∈ l, p a = false → ∀ s, f s a = s) : ∀ s, (l.filter p).foldl f s = l.foldl f s := by
  induction l with
  | nil => exact fun s => rfl
  | cons a l ih =>
    intro s
    rw [List.forall_mem_cons] at h
    by_cases ha : p a = true
    · rw [List.filter_cons_of_pos ha, List.foldl_cons, List.foldl_cons]
      exact ih h.2 (f s a)
    · rw [List.filter_cons_of_neg ha, List.foldl_cons, h.1 (Bool.eq_false_iff.mpr ha) s]
      exact ih h.2 s

namespace CloudReports

open PyVal (Sliceable elements)

variable (P : Runtime)

/-! ## Speeds

The rows of a report are read one by one, and each conversion is inside a `try` that catches two
kinds of errors. An infinite number raises a third one, so it is the rows with such numbers that
stop the merge. -/

/-- An infinite float: `int(v)` raises what the loop does not catch. -/
def infinite : PyVal → Bool
  | .float (.inf _) => true
  | _ => false

/-- `int(v)` returns. -/
def converts (v : PyVal) : Bool := (intOf P v).toBool

theorem intOf_overflow {v : PyVal} (h : infinite v = true) : intOf P v = .error .OverflowError := by
  cases v with
  | float x =>
    cases x with
    | inf negative => rfl
    | _ => cases h
  | _ => cases h

/-- The two errors the loop over the rows passes over. -/
def Caught (e : PyError) : Prop := e = .TypeError ∨ e = .ValueError

/-- Whatever else `int(v)` raises is caught. -/
theorem intOf_caught {v : PyVal} (h : infinite v = false) :
    (∃ n, intOf P v = .ok n) ∨ ∃ e, intOf P v = .error e ∧ Caught e := by
  cases v with
  | bool b => exact .inl ⟨_, rfl⟩
  | int n => exact .inl ⟨n, rfl⟩
  | float x =>
    cases x with
    | finite q => exact .inl ⟨_, rfl⟩
    | inf negative => cases h
    | nan => exact .inr ⟨_, rfl, .inr rfl⟩
  | str s =>
    rw [intOf]
    cases P.int s with
    | none => exact .inr ⟨_, rfl, .inr rfl⟩
    | some n => exact .inl ⟨n, rfl⟩
  | _ => exact .inr ⟨_, rfl, .inl rfl⟩

/-- A row is no measurement, or one whose numbers are finite; the second is looked at only
after the first was converted. -/
def RowReadable (row : PyVal) : Prop :=
  ∀ key b c rest, row = .list (.str key :: b :: c :: rest) → isServerKey key = true →
    infinite b = false ∧ (converts P b = true → infinite c = false)

/-- A row that is counted. -/
def measures (row : PyVal) : Bool :=
  match row with
  | .list (.str key :: b :: c :: _) => isServerKey key && (speedOf P b c).toBool
  | _ => false

/-- A row with the numbers of a measurement raises only what is passed over. -/
theorem speedOf_caught_iff (b c : PyVal) :
    (∀ e, speedOf P b c = .error e → Caught e) ↔
      infinite b = false ∧ (converts P b = true → infinite c = false) := by
  have hover : ¬ Caught .OverflowError := by
    rintro (h | h)
    · cases h
    · cases h
  -- an infinite first number raises before the second is looked at
  cases hb : infinite b with
  | true =>
    have hraise : speedOf P b c = .error .OverflowError := by
      rw [speedOf, intOf_overflow P hb]
      rfl
    exact ⟨fun h => absurd (h _ hraise) hover, fun h => absurd h.1 Bool.true_eq_false.mp⟩
  | false =>
    rcases intOf_caught P hb with ⟨n, hn⟩ | ⟨e, hraise, he⟩
    · have hconv : converts P b = true := by rw [converts, hn, Except.toBool]
      cases hc : infinite c with
      | true =>
        have hraise : speedOf P b c = .error .OverflowError := by
          rw [speedOf, hn, intOf_overflow P hc]
          rfl
        exact ⟨fun h => absurd (h _ hraise) hover, fun h => absurd (h.2 hconv) Bool.true_eq_false.mp⟩
      | false =>
        refine ⟨fun _ => ⟨rfl, fun _ => rfl⟩, ?_⟩
        rintro - e he
        rcases intOf_caught P hc with ⟨m, hm⟩ | ⟨e', hm, he'⟩
        · rw [speedOf, hn, hm] at he
          cases he
        · rw [speedOf, hn, hm] at he
          exact Except.error.inj he ▸ he'
    · -- the first number is none: the second is not converted
      have hconv : converts P b = false := by rw [converts, hraise, Except.toBool]
      refine ⟨fun _ => ⟨rfl, fun h => absurd (hconv ▸ h) Bool.false_ne_true⟩, ?_⟩
      rintro - e' he'
      rw [speedOf, hraise] at he'
      exact Except.error.inj he' ▸ he

/-- A row that is not counted and raises nothing changes nothing. -/
theorem addRow_eq (now : ℤ) (fam : String) {row : PyVal} (h : RowReadable P row)
    (hm : measures P row = false) (net : Net) : addRow P now fam net row = .ok net := by
  rw [addRow.eq_def]
  split
  · rename_i key b c rest
    by_cases hkey : isServerKey key = true
    · rw [if_pos hkey]
      have hcaught := (speedOf_caught_iff P b c).mpr (h key b c rest rfl hkey)
      rw [measures, hkey, Bool.true_and] at hm
      cases hs : speedOf P b c with
      | ok s =>
        rw [hs] at hm
        cases hm
      | error e =>
        rcases hcaught e hs with rfl | rfl
        · rfl
        · rfl
    · rw [if_neg hkey]
  · rfl

/-- A row raises unless all its cells can be read. -/
theorem addRow_returns_iff (now : ℤ) (fam : String) (net : Net) (row : PyVal) :
    (∃ net', addRow P now fam net row = .ok net') ↔ RowReadable P row := by
  constructor
  · rintro ⟨net', hnet⟩ key b c rest rfl hkey
    rw [← speedOf_caught_iff P b c]
    intro e he
    rw [addRow, if_pos hkey, he] at hnet
    cases e with
    | TypeError => exact .inl rfl
    | ValueError => exact .inr rfl
    | _ => cases hnet
  · intro h
    cases hm : measures P row with
    | false => exact ⟨net, addRow_eq P now fam h hm net⟩
    | true =>
      rw [measures.eq_def] at hm
      split at hm
      · rename_i key b c rest
        rw [Bool.and_eq_true] at hm
        rw [addRow, if_pos hm.1]
        cases hs : speedOf P b c with
        | ok s => exact ⟨_, rfl⟩
        | error e =>
          rw [hs] at hm
          cases hm.2
      · cases hm

/-- Whether the speeds of a report are read at all. -/
def Located (r : Report) : Prop := field P r "net" 60 ≠ "" ∧ field P r "net" 60 ≠ "Нет сети"

/-- What is read as speeds is a list of readable rows, or nothing. -/
def SpeedsReadable (r : Report) : Prop :=
  Located P r → Sliceable (Assoc.get? r "sp") ∧ ∀ row ∈ elements (Assoc.get? r "sp") 60, RowReadable P row

/-- The speeds of a report raise unless every row can be read. -/
theorem addSpeeds_returns_iff (now : ℤ) (net : Net) (r : Report) :
    (∃ net', addSpeeds P now net r = .ok net') ↔ SpeedsReadable P r := by
  rw [addSpeeds]
  by_cases hl : Located P r
  · rw [if_pos (show _ ∧ _ from hl)]
    have hrows (net : Net) (row : PyVal) := addRow_returns_iff P now (field P r "net" 60) net row
    constructor
    · rintro ⟨net', h⟩ -
      obtain ⟨rows, hslice, h⟩ := Python.bind_ok h
      have hs := (PyVal.sliceOr_returns_iff _ _).mp ⟨rows, hslice⟩
      rw [PyVal.sliceOr_eq hs] at hslice
      rw [Except.ok.inj hslice]
      exact ⟨hs, (Python.foldlM_returns_iff hrows).mp ⟨net', h⟩⟩
    · intro h
      rw [PyVal.sliceOr_eq (h hl).1]
      exact (Python.foldlM_returns_iff hrows).mpr (h hl).2
  · rw [if_neg (show ¬ (_ ∧ _) from hl)]
    exact ⟨fun _ h => absurd h hl, fun _ => ⟨net, rfl⟩⟩

/-! ## The model

The weights are checked by a generator that stops at the first bad one. So an integer beyond the
doubles raises only where all numbers in front of it are in range, and what follows a bad weight
is never looked at. -/

/-- A number in the range of the weights. -/
def weighs : PyVal → Bool
  | .int n => -8 ≤ n && n ≤ 8
  | .float (.finite q) => -8 ≤ q && q ≤ 8
  | _ => false

/-- An integer no double holds: `math.isfinite(v)` raises. -/
def beyond : PyVal → Bool
  | .int n => 2 ^ 1024 - 2 ^ 970 ≤ |n|
  | _ => false

/-- No integer beyond the doubles where the check arrives: after numbers in range only. -/
def WeightsReadable (xs : List PyVal) : Prop :=
  ∀ pre v post, xs = pre ++ v :: post → (∀ u ∈ pre, weighs u = true) → beyond v = false

/-- A number that no float can hold raises before it is compared. -/
theorem validWeight_beyond {v : PyVal} (h : beyond v = true) : validWeight v = .error .OverflowError := by
  cases v with
  | int n => rw [validWeight, if_pos (of_decide_eq_true h)]
  | _ => cases h

/-- Any other value is judged, and a wrong one merely refused. -/
theorem validWeight_eq {v : PyVal} (h : beyond v = false) : validWeight v = .ok (weighs v) := by
  cases v with
  | int n =>
    rw [validWeight, if_neg (of_decide_eq_false h)]
    rfl
  | float x =>
    cases x with
    | finite q => rfl
    | _ => rfl
  | _ => rfl

/-- The first value is read whatever it is, the others only behind a weight. -/
theorem weightsReadable_cons (x : PyVal) (xs : List PyVal) :
    WeightsReadable (x :: xs) ↔ beyond x = false ∧ (weighs x = true → WeightsReadable xs) := by
  constructor
  · intro h
    refine ⟨h [] x xs rfl fun u hu => absurd hu List.not_mem_nil, fun hw pre v post heq hpre => ?_⟩
    refine h (x :: pre) v post (by rw [heq, List.cons_append]) ?_
    exact List.forall_mem_cons.mpr ⟨hw, hpre⟩
  · rintro ⟨hx, h⟩ pre v post heq hpre
    cases pre with
    | nil =>
      rw [List.nil_append, List.cons.injEq] at heq
      rw [← heq.1]
      exact hx
    | cons u pre =>
      rw [List.cons_append, List.cons.injEq] at heq
      have hu := hpre u (List.mem_cons_self ..)
      rw [← heq.1] at hu
      exact h hu pre v post heq.2 fun u' hu' => hpre u' (List.mem_cons_of_mem u hu')

/-- The weights are judged in turn, up to the first that is refused. -/
theorem validWeights_returns_iff (xs : List PyVal) :
    (∃ b, validWeights xs = .ok b) ↔ WeightsReadable xs := by
  induction xs with
  | nil =>
    refine ⟨?_, fun _ => ⟨true, rfl⟩⟩
    rintro - pre v post h
    cases pre with
    | nil => cases h
    | cons u pre => cases h
  | cons x xs ih =>
    rw [validWeights, weightsReadable_cons]
    cases hx : beyond x with
    | true =>
      rw [validWeight_beyond hx]
      refine iff_of_false ?_ (fun h => absurd h.1 (by decide))
      rintro ⟨b, h⟩
      cases h
    | false =>
      rw [validWeight_eq hx]
      cases hw : weighs x with
      | true =>
        show (∃ b, validWeights xs = .ok b) ↔ _
        rw [ih]
        exact ⟨fun h => ⟨rfl, fun _ => h⟩, fun h => h.2 rfl⟩
      -- the check stops here, whatever follows
      | false => exact iff_of_true ⟨false, rfl⟩ ⟨rfl, fun h => absurd h (by decide)⟩

def VectorReadable (a : Option PyVal) : Prop :=
  ∀ xs, a = some (.list xs) → xs.length = N → WeightsReadable xs

theorem validVector_returns_iff (a : Option PyVal) :
    (∃ b, validVector a = .ok b) ↔ VectorReadable a := by
  rw [validVector.eq_def]
  split
  · rename_i xs
    by_cases hN : xs.length = N
    · rw [if_pos hN, validWeights_returns_iff]
      constructor
      · intro h ys hys _
        obtain rfl : xs = ys := PyVal.list.inj (Option.some.inj hys)
        exact h
      · exact fun h => h xs rfl hN
    · rw [if_neg hN]
      refine ⟨?_, fun _ => ⟨false, rfl⟩⟩
      rintro - ys hys hlen
      obtain rfl : xs = ys := PyVal.list.inj (Option.some.inj hys)
      exact absurd hlen hN
  · rename_i hne
    refine ⟨?_, fun _ => ⟨false, rfl⟩⟩
    rintro - ys hys
    exact absurd hys (hne ys)

/-- A model is looked at only if the report weighs anything. -/
theorem addModel_returns_iff (b : Report) (wt : ℤ) (acc : OrderedMap String (List ℚ × ℤ)) (k : String) :
    (∃ acc', addModel b wt acc k = .ok acc') ↔ (wt ≠ 0 → VectorReadable (Assoc.get? b k)) := by
  rw [addModel]
  by_cases hwt : wt = 0
  · rw [if_pos hwt]
    exact ⟨fun _ h => absurd hwt h, fun _ => ⟨acc, rfl⟩⟩
  · rw [if_neg hwt]
    constructor
    · rintro ⟨acc', h⟩ -
      obtain ⟨valid, hv, -⟩ := Python.bind_ok h
      exact (validVector_returns_iff _).mp ⟨valid, hv⟩
    · intro h
      obtain ⟨valid, hv⟩ := (validVector_returns_iff _).mpr (h hwt)
      rw [hv]
      cases valid with
      | true => exact ⟨_, rfl⟩
      | false => exact ⟨_, rfl⟩

/-- The phone's model; what is no object is none. -/
def brainOf (r : Report) : Report :=
  match Assoc.get? r "brain" with
  | some (.dict b) => b
  | _ => []

/-- A model that counts has no integers beyond the doubles. -/
def ModelReadable (r : Report) : Prop :=
  ∀ k ∈ ["m", "w"], weightOf P (brainOf r) ≠ 0 → VectorReadable (Assoc.get? (brainOf r) k)

/-! ## Profiles

A profile is a link that has to be decoded first, and what is decoded is again any JSON. It has
three lists, read one after the other: the names of each have to be hashable, and a mask of a
phone's own is printed as text before it is counted. -/

/-- The names of a decoded profile: absent, or a sequence without lists and objects in front. -/
def NamesReadable (n : ℕ) (v : Option PyVal) : Prop :=
  ∀ x ∈ v, x.sequence = true ∧ ∀ y ∈ elements v n, y.hashable = true

/-- A decoded profile is an object with readable names, and masks that can be sliced. -/
def ProfileReadable (p : PyVal) : Prop :=
  ∃ o, p = .dict o ∧ NamesReadable 5 (Assoc.get? o "d") ∧ NamesReadable 12 (Assoc.get? o "m") ∧
    ∀ x ∈ Assoc.get? o "x", x.sequence = true

/-- A vote is counted for a key that can be hashed. -/
theorem add_returns_iff (d : Tally) (k : PyVal) (w : ℚ) :
    (∃ d', d.add k w = .ok d') ↔ k.hashable = true := by
  rw [Tally.add]
  by_cases h : k.hashable = true
  · rw [if_pos h]
    exact ⟨fun _ => h, fun _ => ⟨_, rfl⟩⟩
  · rw [if_neg h]
    constructor
    · rintro ⟨d', hd'⟩
      cases hd'
    · exact fun hk => absurd hk h

theorem addRanked_returns_iff (n : ℕ) (d : Tally) (names : List PyVal) :
    (∃ d', addRanked n d names = .ok d') ↔ ∀ k ∈ names, k.hashable = true := by
  rw [addRanked, Python.foldlM_returns_iff fun d e => add_returns_iff d e.1 _]
  constructor
  · intro h k hk
    rw [← List.zipIdx_map_fst 0 names] at hk
    obtain ⟨e, he, rfl⟩ := List.mem_map.mp hk
    exact h e he
  · intro h e he
    exact h e.1 (List.zipIdx_map_fst 0 names ▸ List.mem_map_of_mem he)

/-- A mask of one's own never raises: what is not a text or a dict is passed over. -/
theorem addOwn_returns (x : Tally) (v : PyVal) : ∃ x', addOwn P x v = .ok x' := by
  rw [addOwn]
  split
  · exact (add_returns_iff x _ 1).mpr rfl
  · exact ⟨x, rfl⟩

theorem part_returns_iff (p : PyVal) (k : String) : (∃ v, part p k = .ok v) ↔ ∃ o, p = .dict o := by
  cases p with
  | dict o => exact ⟨fun _ => ⟨o, rfl⟩, fun _ => ⟨_, rfl⟩⟩
  | _ =>
    constructor
    · rintro ⟨v, h⟩
      cases h
    · rintro ⟨o, h⟩
      cases h

/-- Slices of `p.get(k, [])` and of `p.get(k) or []` are the same where the first can be taken. -/
theorem slice_getD {v : Option PyVal} (h : ∀ x ∈ v, x.sequence = true) (n : ℕ) :
    (v.getD (.list [])).slice n = .ok (elements v n) := by
  cases v with
  | none => exact congrArg Except.ok (List.take_nil ..)
  | some x =>
    have hx := h x rfl
    have hs : Sliceable (some x) := fun y hy _ => Option.some.inj hy ▸ hx
    have heq := PyVal.sliceOr_eq hs n
    rw [PyVal.sliceOr] at heq
    split at heq
    · exact heq
    · -- an empty list or text has only empty slices
      rename_i hfalse
      rw [← Except.ok.inj heq]
      cases x with
      | list xs =>
        cases xs with
        | nil => exact congrArg Except.ok (List.take_nil ..)
        | cons a xs => exact absurd rfl hfalse
      | str s =>
        have hempty : s = "" := by
          by_contra hne
          exact hfalse (decide_eq_true hne)
        rw [hempty]
        exact congrArg Except.ok (congrArg (List.map _) (List.take_nil ..))
      | _ => cases hx

/-- A list that is missing is taken as empty. -/
theorem slice_getD_returns_iff (v : Option PyVal) (n : ℕ) :
    (∃ xs, (v.getD (.list [])).slice n = .ok xs) ↔ ∀ x ∈ v, x.sequence = true := by
  rw [PyVal.slice_returns_iff]
  cases v with
  | none => exact ⟨fun _ x hx => absurd hx (by rintro ⟨⟩), fun _ => rfl⟩
  | some x => exact ⟨fun h y hy => Option.some.inj hy ▸ h, fun h => h x rfl⟩

/-- The loop over one list of names of a profile. -/
theorem ranked_part_returns_iff (n : ℕ) (d : Tally) (v : Option PyVal) :
    (∃ d', ((v.getD (.list [])).slice n >>= addRanked n d) = .ok d') ↔ NamesReadable n v := by
  constructor
  · rintro ⟨d', h⟩
    obtain ⟨names, hslice, h⟩ := Python.bind_ok h
    have hseq := (slice_getD_returns_iff v n).mp ⟨names, hslice⟩
    rw [slice_getD hseq] at hslice
    have hnames := (addRanked_returns_iff n d names).mp ⟨d', h⟩
    rw [← Except.ok.inj hslice] at hnames
    exact fun x hx => ⟨hseq x hx, hnames⟩
  · intro h
    rw [slice_getD fun x hx => (h x hx).1]
    refine (addRanked_returns_iff n d _).mpr ?_
    cases v with
    | none => exact fun y hy => absurd hy List.not_mem_nil
    | some x => exact (h x rfl).2

variable {P} in
/-- The three lists of a link that holds an object. -/
theorem addProfile_dict {e : String × PyVal} {o : List (String × PyVal)} (hp : unvcnet P e.2 = some (.dict o))
    (votes : OrderedMap String Votes) : addProfile P votes e = (do
      let f := (votes.get? (.ofList (e.1.toList.take 60))).getD {}
      let d ← ((Assoc.get? o "d").getD (.list [])).slice 5 >>= addRanked 5 f.d
      let m ← ((Assoc.get? o "m").getD (.list [])).slice 12 >>= addRanked 12 f.m
      let x ← ((Assoc.get? o "x").getD (.list [])).slice 6 >>= fun names => names.foldlM (addOwn P) f.x
      return votes.put (.ofList (e.1.toList.take 60)) { d := d, m := m, x := x }) := by
  rw [addProfile, hp]
  simp only [part, Python.ok_bind, bind_assoc]

/-- **A profile raises unless it is readable**, whatever was counted before. -/
theorem addProfile_returns_iff (votes : OrderedMap String Votes) (e : String × PyVal) :
    (∃ votes', addProfile P votes e = .ok votes') ↔
      ∀ p, unvcnet P e.2 = some p → ProfileReadable p := by
  cases hp : unvcnet P e.2 with
  | none =>
    rw [addProfile, hp]
    refine ⟨?_, fun _ => ⟨votes, rfl⟩⟩
    rintro - p h
    cases h
  | some p =>
    simp only [Option.some.injEq, forall_eq']
    constructor
    · rintro ⟨votes', h⟩
      -- only an object has parts
      obtain ⟨o, rfl⟩ : ∃ o, p = .dict o := by
        rw [addProfile, hp] at h
        obtain ⟨v, hv, -⟩ := Python.bind_ok h
        exact (part_returns_iff p "d").mp ⟨v, hv⟩
      rw [addProfile_dict hp] at h
      obtain ⟨d, hd, h⟩ := Python.bind_ok h
      obtain ⟨m, hm, h⟩ := Python.bind_ok h
      obtain ⟨x, hx, -⟩ := Python.bind_ok h
      obtain ⟨own, hown, -⟩ := Python.bind_ok hx
      exact ⟨o, rfl, (ranked_part_returns_iff 5 _ _).mp ⟨d, hd⟩, (ranked_part_returns_iff 12 _ _).mp ⟨m, hm⟩,
        (slice_getD_returns_iff _ 6).mp ⟨own, hown⟩⟩
    -- and where none of them raises the profile is written
    · rintro ⟨o, rfl, hd, hm, hx⟩
      let f := (votes.get? (.ofList (e.1.toList.take 60))).getD {}
      obtain ⟨d, hd⟩ := (ranked_part_returns_iff 5 f.d _).mpr hd
      obtain ⟨m, hm⟩ := (ranked_part_returns_iff 12 f.m _).mpr hm
      obtain ⟨x, hx⟩ : ∃ x, (((Assoc.get? o "x").getD (.list [])).slice 6 >>= fun own =>
          own.foldlM (addOwn P) f.x) = .ok x := by
        rw [slice_getD hx]
        exact (Python.foldlM_returns_iff (q := fun _ => True) fun x v =>
          ⟨fun _ => trivial, fun _ => addOwn_returns P x v⟩).mpr fun _ _ => trivial
      refine ⟨votes.put (.ofList (e.1.toList.take 60)) { d := d, m := m, x := x }, ?_⟩
      rw [addProfile_dict hp]
      show (_ >>= fun d => _) = _
      rw [hd, Python.ok_bind, hm, Python.ok_bind, hx]
      rfl

/-! ## Reports

The parts of a report are read in a fixed order, and none of them depends on what was counted
before. So whether a report raises is a property of the report alone, and a list of reports
raises when one of them does. -/

/-- The profiles of a report: absent, empty, or an object whose links, where they can be
decoded, hold readable profiles. -/
def ProfilesReadable (r : Report) : Prop :=
  ∀ v ∈ Assoc.get? r "profiles", v.truthy = true → ∃ o, v = .dict o ∧
    ∀ e ∈ o, ∀ p, unvcnet P e.2 = some p → ProfileReadable p

theorem items_returns_iff (v : PyVal) : (∃ o, v.items = .ok o) ↔ ∃ o, v = .dict o := by
  cases v with
  | dict o => exact ⟨fun _ => ⟨o, rfl⟩, fun _ => ⟨o, rfl⟩⟩
  | _ =>
    constructor
    · rintro ⟨o, h⟩
      cases h
    · rintro ⟨o, h⟩
      cases h

/-- So do the profiles of a report, one after the other. -/
theorem profiles_returns_iff (r : Report) (votes : OrderedMap String Votes) :
    (∃ votes', (profilesOf r >>= fun es => es.foldlM (addProfile P) votes) = .ok votes') ↔
      ProfilesReadable P r := by
  rw [profilesOf]
  cases hget : Assoc.get? r "profiles" with
  | none =>
    refine ⟨?_, fun _ => ⟨votes, rfl⟩⟩
    rintro - v hv
    rw [hget] at hv
    cases hv
  | some v =>
    by_cases ht : v.truthy = true
    · simp only [ht, if_true]
      constructor
      -- a value that is true has to be a dict
      · rintro ⟨votes', h⟩ u hu -
        obtain ⟨o, ho, h⟩ := Python.bind_ok h
        obtain ⟨o', rfl⟩ := (items_returns_iff v).mp ⟨o, ho⟩
        obtain rfl := Except.ok.inj ho
        rw [hget] at hu
        refine ⟨o', (Option.some.inj hu).symm, ?_⟩
        exact (Python.foldlM_returns_iff (addProfile_returns_iff P)).mp ⟨votes', h⟩
      · intro h
        obtain ⟨o, rfl, ho⟩ := h v hget ht
        exact (Python.foldlM_returns_iff (addProfile_returns_iff P)).mpr ho
    -- one that is false stands for an empty dict
    · rw [Bool.not_eq_true] at ht
      simp only [ht, Bool.false_eq_true, if_false]
      refine ⟨?_, fun _ => ⟨votes, rfl⟩⟩
      rintro - u hu hu'
      rw [hget] at hu
      rw [← Option.some.inj hu, ht] at hu'
      cases hu'

/-- The reports that do not stop the merge. -/
structure Readable (r : Report) : Prop where
  speeds : SpeedsReadable P r
  use : Sliceable (Assoc.get? r "use")
  model : ModelReadable P r
  profiles : ProfilesReadable P r
  ok : Sliceable (Assoc.get? r "ok")

/-- The second loop raises at everything but the speeds. -/
theorem addReport_returns_iff (now : ℤ) (w : Work) (r : Report) :
    (∃ w', addReport P now w r = .ok w') ↔ Sliceable (Assoc.get? r "use") ∧ ModelReadable P r ∧
      ProfilesReadable P r ∧ Sliceable (Assoc.get? r "ok") := by
  have hmodel (acc : OrderedMap String (List ℚ × ℤ)) := Python.foldlM_returns_iff
    (l := ["m", "w"]) (s := acc) fun acc k =>
      addModel_returns_iff (brainOf r) (weightOf P (brainOf r)) acc k
  constructor
  -- what came before returned, so each part can be read
  · rintro ⟨w', h⟩
    rw [addReport] at h
    obtain ⟨us, hus, h⟩ := Python.bind_ok h
    obtain ⟨acc, hacc, h⟩ := Python.bind_ok h
    obtain ⟨es, hes, h⟩ := Python.bind_ok h
    obtain ⟨votes, hvotes, h⟩ := Python.bind_ok h
    obtain ⟨links, hlinks, -⟩ := Python.bind_ok h
    refine ⟨(PyVal.sliceOr_returns_iff _ _).mp ⟨us, hus⟩, (hmodel w.acc).mp ⟨acc, hacc⟩, ?_,
      (PyVal.sliceOr_returns_iff _ _).mp ⟨links, hlinks⟩⟩
    exact (profiles_returns_iff P r w.votes).mp ⟨votes, by rw [hes]; exact hvotes⟩
  -- and each part returns whatever was counted before it
  · rintro ⟨huse, hm, hp, hok⟩
    obtain ⟨acc, hacc⟩ := (hmodel w.acc).mpr hm
    obtain ⟨votes, hvotes⟩ := (profiles_returns_iff P r w.votes).mpr hp
    obtain ⟨es, hes, hvotes⟩ := Python.bind_ok hvotes
    rw [addReport, PyVal.sliceOr_eq huse, PyVal.sliceOr_eq hok]
    show ∃ w', (["m", "w"].foldlM (addModel (brainOf r) (weightOf P (brainOf r))) w.acc >>=
      fun acc => _) = .ok w'
    rw [hacc]
    show ∃ w', (profilesOf r >>= fun es => _) = .ok w'
    rw [hes]
    show ∃ w', (es.foldlM (addProfile P) w.votes >>= fun votes => _) = .ok w'
    rw [hvotes]
    exact ⟨_, rfl⟩

/-- A state the cloud made can be merged with exactly the lists of readable reports. -/
theorem merge_returns_iff (hrt : Rereads P) {prev : Option Cloud} (hmade : Made P prev)
    (reports : List Report) (now : ℤ) :
    (∃ c, merge P prev reports now = .ok c) ↔
      (P.stamp now).isSome = true ∧ ∀ r ∈ reports, Readable P r := by
  have hspeeds := Python.foldlM_returns_iff (l := reports) (s := (start P prev now).1)
    (addSpeeds_returns_iff P now)
  have hrest := Python.foldlM_returns_iff (l := reports) (s := (start P prev now).2)
    (addReport_returns_iff P now)
  rw [merge]
  constructor
  · rintro ⟨c, h⟩
    obtain ⟨net, hnet, h⟩ := Python.bind_ok h
    obtain ⟨work, hwork, h⟩ := Python.bind_ok h
    obtain ⟨profiles, -, h⟩ := Python.bind_ok h
    have h₁ := hspeeds.mp ⟨net, hnet⟩
    have h₂ := hrest.mp ⟨work, hwork⟩
    refine ⟨?_, fun r hr => ⟨h₁ r hr, (h₂ r hr).1, (h₂ r hr).2.1, (h₂ r hr).2.2.1, (h₂ r hr).2.2.2⟩⟩
    cases hs : P.stamp now with
    | some stamp => rfl
    | none =>
      rw [hs] at h
      cases h
  · rintro ⟨hstamp, h⟩
    obtain ⟨stamp, hs⟩ := Option.isSome_iff_exists.mp hstamp
    obtain ⟨net, hnet⟩ := hspeeds.mpr fun r hr => (h r hr).speeds
    obtain ⟨work, hwork⟩ := hrest.mpr fun r hr =>
      ⟨(h r hr).use, (h r hr).model, (h r hr).profiles, (h r hr).ok⟩
    -- the votes are for texts that can be read, so they can be published
    have hlegible : LegibleVotes P work.votes := Python.foldlM_inv (p := fun w => LegibleVotes P w.votes)
      (fun _ _ _ _ hs hadd => hs.addReport hrt hadd) (legibleVotes_start (hmade.legible hrt) now) hwork
    obtain ⟨profiles, hp⟩ := hlegible.publish
    rw [hnet]
    show ∃ c, (reports.foldlM (addReport P now) (start P prev now).2 >>= fun work => _) = .ok c
    rw [hwork]
    show ∃ c, (publish P work.votes >>= fun profiles => _) = .ok c
    rw [hp, hs]
    exact ⟨_, rfl⟩

/-- The server keys among what a phone uses. -/
def usersOf (us : List PyVal) : List String := us.filterMap fun v => v.text?.filter fun k => isServerKey k

/-! ## What is counted

What a report adds to a state by its well-formed parts, whatever else it holds. -/

/-- Whether a member is there and a text. -/
def isText (v : Option PyVal) : Bool := (v.bind PyVal.text?).isSome

/-- `field`, of a member that is a text. -/
def textField (r : Report) (k : String) (n : ℕ) : String :=
  if isText (Assoc.get? r k) = true then field P r k n else ""

/-- What a step makes of `s`; one that raises leaves it. -/
def stepped {σ : Type} (s : σ) (x : Py σ) : σ := x.toOption.getD s

/-- The measurements of a report that names its network. -/
def countSpeeds (now : ℤ) (net : Net) (r : Report) : Net :=
  let fam := textField P r "net" 60
  if fam ≠ "" ∧ fam ≠ "Нет сети" then
    ((elements (Assoc.get? r "sp") 60).filter (measures P)).foldl
      (fun net row => stepped net (addRow P now fam net row)) net
  else net

/-- The texts of a list of names, each with its place. -/
def namesOf (n : ℕ) (v : Option PyVal) : List (PyVal × ℕ) :=
  match v with
  | some (.list xs) => (xs.take n).zipIdx.filter fun e => e.1.text?.isSome
  | _ => []

/-- The objects of a list of masks. -/
def masksOf (v : Option PyVal) : List PyVal := (elements v 6).filter fun x => x.items.toBool

/-- A vote for each of the names, the earlier ones worth more. -/
def rank (n : ℕ) (d : Tally) (names : List (PyVal × ℕ)) : Tally :=
  names.foldl (fun d e => stepped d (d.add e.1 (Binary64.fl (((n - e.2 : ℕ) : ℚ) / n)))) d

/-- A vote for each of the masks. -/
def own (x : Tally) (masks : List PyVal) : Tally := masks.foldl (fun x v => stepped x (addOwn P x v)) x

/-- The names and the masks of a link that can be decoded. -/
def countProfile (votes : OrderedMap String Votes) (e : String × PyVal) : OrderedMap String Votes :=
  match unvcnet P e.2 with
  | some (.dict o) =>
    let fam : String := .ofList (e.1.toList.take 60)
    let f := (votes.get? fam).getD {}
    votes.put fam
      { d := rank 5 f.d (namesOf 5 (Assoc.get? o "d"))
        m := rank 12 f.m (namesOf 12 (Assoc.get? o "m"))
        x := own P f.x (masksOf (Assoc.get? o "x")) }
  | _ => votes

/-- The links of a report, under the networks they are for. -/
def linksOf (r : Report) : List (String × PyVal) :=
  match Assoc.get? r "profiles" with
  | some (.dict o) => o
  | _ => []

/-- Everything else of a report. -/
def countReport (now : ℤ) (w : Work) (r : Report) : Work :=
  let phone := P.sha10 (textField P r "id" 16)
  let us := usersOf (elements (Assoc.get? r "use") 8)
  { ids := w.ids.put phone now
    use := if us = [] then w.use else w.use.put phone { t := now, s := us }
    acc := ["m", "w"].foldl
      (fun acc k => stepped acc (addModel (brainOf r) (weightOf P (brainOf r)) acc k)) w.acc
    votes := (linksOf r).foldl (countProfile P) w.votes
    servers := (elements (Assoc.get? r "ok") 15).foldl (addVerified now) w.servers }

/-- The state after the well-formed parts of all reports. -/
def mergeCounted (prev : Option Cloud) (reports : List Report) (now : ℤ) : Py Cloud := do
  let net := reports.foldl (countSpeeds P now) (start P prev now).1
  let work := reports.foldl (countReport P now) (start P prev now).2
  let profiles ← publish P work.votes
  match P.stamp now with
  | some stamp => return finish now stamp net work profiles
  | none => throw .OverflowError

/-- The malformed parts of a report add nothing: whatever was counted before, the report
adds what its well-formed parts add. -/
structure OnlyWellFormed (now : ℤ) (r : Report) : Prop where
  speeds : ∀ net, addSpeeds P now net r = .ok (countSpeeds P now net r)
  profiles : ∀ e ∈ linksOf r, ∀ votes, addProfile P votes e = .ok (countProfile P votes e)
  rest : ∀ w, addReport P now w r = .ok (countReport P now w r)

/-! ## Which reports add nothing else

Not every malformed part is passed over: some are converted to text and counted as such. A report
is clean when it has none of these, so that all its malformed parts are of the kinds the merge
skips. -/

/-- Names are texts in a list; an empty text is no list, but holds no names either. -/
def NamesClean (n : ℕ) (v : Option PyVal) : Prop :=
  ∀ x ∈ v, x = .str "" ∨ ∃ xs, x = .list xs ∧ ∀ y ∈ xs.take n, y.text?.isSome = true

/-- Masks are objects; what is too long to be counted may be anything. -/
def MasksClean (v : Option PyVal) : Prop :=
  ∀ y ∈ elements v 6, y.items.toBool = true ∨ 2000 ≤ (P.dumpsSorted y).toList.length

/-- A report whose malformed parts are passed over: the network of its measurements and the
phone are texts, and the profiles hold names and masks. -/
structure Clean (r : Report) : Prop where
  net : Located P r → (∃ row ∈ elements (Assoc.get? r "sp") 60, measures P row = true) →
    isText (Assoc.get? r "net") = true
  id : ∀ v ∈ Assoc.get? r "id", v.text? = none → P.sha10 (field P r "id" 16) = P.sha10 ""
  profiles : ∀ e ∈ linksOf r, ∀ o, unvcnet P e.2 = some (.dict o) →
    NamesClean 5 (Assoc.get? o "d") ∧ NamesClean 12 (Assoc.get? o "m") ∧ MasksClean P (Assoc.get? o "x")

/-- A mask that is short enough to be counted, and whose text is `t`. -/
def isMask (t : String) (v : PyVal) : Bool :=
  decide ((P.dumpsSorted v).toList.length < 2000 ∧ P.dumpsSorted v = t)

variable {P}

/-- A step that returns is what `stepped` gives. -/
theorem stepped_ok {σ : Type} {s : σ} {x : Py σ} (h : ∃ s', x = .ok s') : x = .ok (stepped s x) := by
  obtain ⟨s', rfl⟩ := h
  rfl

/-! ### Speeds

Of the speeds it is the name of the network that may be of any kind: a number is turned into the
text of it, and a network of that name gets the measurements. With a text there, exactly the
measurements count. -/

/-- A measurement is counted somewhere. -/
theorem addRow_measures {now : ℤ} {fam : String} {net net' : Net} {row : PyVal}
    (h : addRow P now fam net row = .ok net') (hm : measures P row = true) : net'.contains fam = true := by
  rw [measures.eq_def] at hm
  split at hm
  · rename_i key b c rest
    rw [Bool.and_eq_true] at hm
    rw [addRow, if_pos hm.1] at h
    cases hs : speedOf P b c with
    | ok s =>
      rw [hs] at h
      rw [← Except.ok.inj h, OrderedMap.contains]
      show ((net.put fam _).get? fam).isSome = true
      rw [OrderedMap.get?_put, if_pos rfl]
      rfl
    | error e =>
      rw [hs] at hm
      cases hm.2
  · cases hm

/-- A network that is known stays known. -/
theorem addRow_contains {now : ℤ} {fam : String} {net net' : Net} {row : PyVal}
    (h : addRow P now fam net row = .ok net') (hnet : net.contains fam = true) :
    net'.contains fam = true := by
  by_cases hm : measures P row = true
  · exact addRow_measures h hm
  · rw [Bool.not_eq_true] at hm
    rw [addRow_eq P now fam ((addRow_returns_iff P now fam net row).mp ⟨net', h⟩) hm] at h
    rw [← Except.ok.inj h]
    exact hnet

/-- The rows of a report that can be read, counted. -/
theorem rows_eq {now : ℤ} {fam : String} {rows : List PyVal} (h : ∀ row ∈ rows, RowReadable P row)
    (net : Net) : rows.foldlM (addRow P now fam) net = .ok ((rows.filter (measures P)).foldl
      (fun net row => stepped net (addRow P now fam net row)) net) := by
  have hrow : ∀ row ∈ rows, ∀ net, addRow P now fam net row = .ok (stepped net (addRow P now fam net row)) :=
    fun row hr net => stepped_ok ((addRow_returns_iff P now fam net row).mpr (h row hr))
  rw [foldlM_eq_foldl hrow, foldl_filter_eq]
  intro row hr hm net
  rw [addRow_eq P now fam (h row hr) hm]
  rfl

/-- The speeds of a report are its measurements exactly when they can be read and are not for
a network without a name. -/
theorem addSpeeds_counted_iff (now : ℤ) (r : Report) :
    (∀ net, addSpeeds P now net r = .ok (countSpeeds P now net r)) ↔ SpeedsReadable P r ∧
      (Located P r → (∃ row ∈ elements (Assoc.get? r "sp") 60, measures P row = true) →
        isText (Assoc.get? r "net") = true) := by
  constructor
  · intro h
    have hread := (addSpeeds_returns_iff P now .empty r).mp ⟨_, h .empty⟩
    refine ⟨hread, fun hl hrow => ?_⟩
    obtain ⟨row, hrow, hm⟩ := hrow
    by_contra hnet
    -- from nothing the rows make something, and a network without a name makes nothing
    have hempty := h .empty
    rw [addSpeeds, if_pos (show _ ∧ _ from hl), PyVal.sliceOr_eq (hread hl).1] at hempty
    rw [countSpeeds, textField, if_neg hnet, if_neg fun hne => hne.1 rfl] at hempty
    obtain ⟨before, after, hsplit⟩ := List.append_of_mem hrow
    have hrun : (elements (Assoc.get? r "sp") 60).foldlM (addRow P now (field P r "net" 60)) .empty
        = .ok .empty := hempty
    rw [hsplit, List.foldlM_append] at hrun
    obtain ⟨net₁, -, hrun⟩ := Python.bind_ok hrun
    rw [List.foldlM_cons] at hrun
    obtain ⟨net₂, hnet₂, hrun⟩ := Python.bind_ok hrun
    have hin := Python.foldlM_inv (p := fun net : Net => net.contains (field P r "net" 60) = true)
      (fun _ _ _ _ hs hadd => addRow_contains hadd hs) (addRow_measures hnet₂ hm) hrun
    cases hin
  · rintro ⟨hread, hnet⟩ net
    rw [addSpeeds]
    by_cases hl : Located P r
    · obtain ⟨hs, hrows⟩ := hread hl
      rw [if_pos (show _ ∧ _ from hl), PyVal.sliceOr_eq hs]
      refine (rows_eq hrows net).trans (congrArg Except.ok ?_)
      rw [countSpeeds, textField]
      by_cases htext : isText (Assoc.get? r "net") = true
      · rw [if_pos htext, if_pos (show _ ∧ _ from hl)]
      · -- no row is a measurement
        rw [if_neg htext, if_neg fun hne => hne.1 rfl, List.filter_eq_nil_iff.mpr]
        · rfl
        · exact fun row hr hm => htext (hnet hl ⟨row, hr, hm⟩)
    · rw [if_neg (show ¬ (_ ∧ _) from hl), countSpeeds, textField]
      split
      · rw [if_neg (show ¬ (_ ∧ _) from hl)]
        rfl
      · rw [if_neg fun hne => hne.1 rfl]
        rfl

/-! ### Names

Each name of a list gets a vote when it can be hashed, whatever it is. That a name which is no
text does count is shown by looking its key up afterwards: a key is the same as a text only if it
is one. -/

/-- A key that can be hashed is found again. -/
theorem sameKey_self {k : PyVal} (h : k.hashable = true) : k.sameKey k = true := by
  refine decide_eq_true ⟨?_, rfl⟩
  cases k with
  | float x =>
    cases x with
    | _ => rfl
  | list xs => cases h
  | dict o => cases h
  | _ => rfl

/-- Only a text is the same key as a text. -/
theorem text_of_sameKey {a b : PyVal} (ha : a.text?.isSome = true) (h : a.sameKey b = true) :
    b.text?.isSome = true := by
  cases a with
  | str s =>
    have hkey := (of_decide_eq_true h).2
    cases b with
    | str t => rfl
    | float x =>
      cases x with
      | _ => cases hkey
    | _ => cases hkey
  | _ => cases ha

/-- Whatever is voted for gets a vote. -/
theorem has_addRanked {n : ℕ} {names : List PyVal} {k : PyVal} (hk : k ∈ names) {d d' : Tally}
    (h : addRanked n d names = .ok d') : d'.Has k := by
  have hadd : ∀ (d d' : Tally) (e : PyVal × ℕ) (w : ℚ) (k' : PyVal), d.add e.1 w = .ok d' →
      d.Has k' ∨ e.1 = k' → d'.Has k' := by
    intro d d' e w k' hd hor
    have hhash := (add_returns_iff d e.1 w).mp ⟨d', hd⟩
    rw [Tally.add, if_pos hhash] at hd
    rw [← Except.ok.inj hd]
    exact Tally.has_put (sameKey_self hhash) hor
  obtain ⟨i, hi⟩ : ∃ i, (k, i) ∈ names.zipIdx := by
    rw [← List.zipIdx_map_fst 0 names] at hk
    obtain ⟨e, he, rfl⟩ := List.mem_map.mp hk
    exact ⟨e.2, he⟩
  obtain ⟨before, after, hsplit⟩ := List.append_of_mem hi
  rw [addRanked, hsplit, List.foldlM_append] at h
  obtain ⟨d₁, -, h⟩ := Python.bind_ok h
  rw [List.foldlM_cons] at h
  obtain ⟨d₂, hd₂, h⟩ := Python.bind_ok h
  exact Python.foldlM_inv (p := fun d : Tally => d.Has k)
    (fun e _ d d' hs hd => hadd d d' e _ k hd (.inl hs)) (hadd d₁ d₂ _ _ k hd₂ (.inr rfl)) h

/-- Nothing is voted for that is not a name. -/
theorem keys_rank {n : ℕ} {names : List (PyVal × ℕ)} {e : PyVal × ℚ} : ∀ {d : Tally},
    e ∈ (rank n d names).entries → (∃ e' ∈ d.entries, e'.1 = e.1) ∨ ∃ a ∈ names, a.1 = e.1 := by
  induction names with
  | nil => exact fun h => .inl ⟨e, h, rfl⟩
  | cons a names ih =>
    intro d h
    rw [rank, List.foldl_cons] at h
    rcases ih h with ⟨e', he', heq⟩ | ⟨b, hb, heq⟩
    · rw [Tally.add] at he'
      by_cases ha : a.1.hashable = true
      · rw [if_pos ha] at he'
        rcases Tally.mem_write he' with ⟨e'', he'', heq'⟩ | heq'
        · exact .inl ⟨e'', he'', heq'.trans heq⟩
        · exact .inr ⟨a, List.mem_cons_self .., heq'.symm.trans heq⟩
      · rw [if_neg ha] at he'
        exact .inl ⟨e', he', heq⟩
    · exact .inr ⟨b, List.mem_cons_of_mem _ hb, heq⟩

/-- The names of a list of texts, each at its place. -/
theorem addRanked_texts (n : ℕ) {names : List PyVal} (h : ∀ y ∈ names, y.text?.isSome = true) (d : Tally) :
    addRanked n d names = .ok (rank n d (names.zipIdx.filter fun e => e.1.text?.isSome)) := by
  have htext : ∀ e ∈ names.zipIdx, e.1.text?.isSome = true := fun e he =>
    h e.1 (List.zipIdx_map_fst 0 names ▸ List.mem_map_of_mem he)
  rw [addRanked, rank, List.filter_eq_self.mpr htext]
  refine foldlM_eq_foldl (fun e he d => stepped_ok ((add_returns_iff d e.1 _).mpr ?_)) d
  cases hkey : e.1 with
  | str s => rfl
  | _ =>
    have htext := htext e he
    rw [hkey] at htext
    cases htext

/-- The votes of a list of names are those of its texts exactly when it has nothing else. -/
theorem names_counted_iff {n : ℕ} (hn : 0 < n) (v : Option PyVal) :
    (∀ d, ((v.getD (.list [])).slice n >>= addRanked n d) = .ok (rank n d (namesOf n v))) ↔
      NamesClean n v := by
  constructor
  · intro h x hx
    have hempty := h .empty
    have hseq := ((ranked_part_returns_iff n .empty v).mp ⟨_, hempty⟩ x hx).1
    obtain rfl : v = some x := hx
    obtain ⟨names, hslice, hrun⟩ := Python.bind_ok hempty
    -- what is voted for is among the texts
    have hvoted : ∀ y ∈ names, ∃ a ∈ namesOf n (some x), a.1.sameKey y = true := by
      intro y hy
      obtain ⟨e, he, hsame⟩ := has_addRanked hy hrun
      rcases keys_rank he with ⟨e', he', -⟩ | ⟨a, ha, heq⟩
      · exact absurd he' List.not_mem_nil
      · exact ⟨a, ha, heq ▸ hsame⟩
    cases x with
    | list xs =>
      refine .inr ⟨xs, rfl, fun y hy => ?_⟩
      rw [← Except.ok.inj hslice] at hvoted
      obtain ⟨a, ha, hsame⟩ := hvoted y hy
      exact text_of_sameKey (List.mem_filter.mp ha).2 hsame
    | str s =>
      left
      by_contra hs
      -- the first letter would be voted for
      rw [← Except.ok.inj hslice] at hvoted
      cases hl : s.toList with
      | nil => exact hs (congrArg PyVal.str (String.toList_eq_nil_iff.mp hl))
      | cons c cs =>
        obtain ⟨m, rfl⟩ : ∃ m, n = m + 1 := ⟨n - 1, by omega⟩
        obtain ⟨a, ha, -⟩ := hvoted (.str (.ofList [c])) (by rw [hl]; exact List.mem_cons_self ..)
        exact absurd ha List.not_mem_nil
    | _ => cases hseq
  · intro h d
    cases v with
    | none =>
      show addRanked n d (([] : List PyVal).take n) = _
      rw [List.take_nil]
      rfl
    | some x =>
      rcases h x rfl with rfl | ⟨xs, rfl, htexts⟩
      · show addRanked n d ((([] : List Char).take n).map fun c => PyVal.str (.ofList [c])) = _
        rw [List.take_nil]
        rfl
      · exact addRanked_texts n htexts d

/-! ### Masks

A mask counts by its printed text, if that is shorter than two thousand characters. Two lists of
masks that count alike therefore have each text equally often, and the ones that are no objects
have to be too long. -/

/-- A mask of one's own always gives the next count. -/
theorem addOwn_counted (x : Tally) (v : PyVal) : addOwn P x v = .ok (stepped x (addOwn P x v)) :=
  stepped_ok (addOwn_returns P x v)

/-- A vote more for the text of a mask that is not too long. -/
theorem get?_addOwn (P : Runtime) (x : Tally) (v : PyVal) (t : String) {c : ℕ} (hc : c < 2 ^ 53)
    (h : (x.get? (.str t)).getD 0 = c) :
    ((stepped x (addOwn P x v)).get? (.str t)).getD 0 = (c + if isMask P t v then 1 else 0 : ℕ) := by
  rw [addOwn]
  by_cases hlen : (P.dumpsSorted v).toList.length < 2000
  · rw [if_pos hlen, Tally.add, if_pos (show (PyVal.str (P.dumpsSorted v)).hashable = true from rfl)]
    show ((x.put (.str (P.dumpsSorted v)) _).get? (.str t)).getD 0 = _
    rw [Tally.get?_put, isMask]
    by_cases ht : P.dumpsSorted v = t
    · have hexact : Binary64.fl ((c : ℚ) + 1) = (c + 1 : ℕ) := by
        have hbound : |((c + 1 : ℕ) : ℤ)| ≤ 2 ^ 53 := by
          rw [abs_of_nonneg (Int.natCast_nonneg _)]
          omega
        have hfl := Binary64.fl_intCast hbound
        push_cast at hfl ⊢
        exact hfl
      rw [if_pos ((PyVal.sameKey_str _ _).mpr ht), if_pos (decide_eq_true ⟨hlen, ht⟩), Option.getD_some,
        ht, h, hexact]
    · rw [if_neg fun hsame => ht ((PyVal.sameKey_str _ _).mp hsame), h,
        if_neg fun hmask => ht (of_decide_eq_true hmask).2, Nat.add_zero]
  · rw [if_neg hlen, isMask, if_neg fun hmask => hlen (of_decide_eq_true hmask).1, Nat.add_zero]
    exact h

/-- As many votes as masks. -/
theorem get?_own (P : Runtime) (t : String) (masks : List PyVal) : ∀ {x : Tally} {c : ℕ}, c + masks.length ≤ 2 ^ 53 →
    (x.get? (.str t)).getD 0 = c →
      ((own P x masks).get? (.str t)).getD 0 = (c + masks.countP (isMask P t) : ℕ) := by
  induction masks with
  | nil => exact fun _ h => h
  | cons v masks ih =>
    intro x c hc h
    rw [List.length_cons] at hc
    have hstep := get?_addOwn P x v t (by omega) h
    rw [own, List.foldl_cons, List.countP_cons]
    refine (ih (c := c + if isMask P t v then 1 else 0) ?_ hstep).trans ?_
    · split
      · omega
      · omega
    · congr 1
      omega

/-- The votes of a list of masks are those of its objects exactly when everything else is too
long to be counted. -/
theorem masks_counted_iff (v : Option PyVal) :
    (∀ x, ((v.getD (.list [])).slice 6 >>= fun names => names.foldlM (addOwn P) x)
        = .ok (own P x (masksOf v))) ↔ (∀ x ∈ v, x.sequence = true) ∧ MasksClean P v := by
  have hloop (names : List PyVal) (x : Tally) : names.foldlM (addOwn P) x = .ok (own P x names) :=
    foldlM_eq_foldl (fun v _ x => addOwn_counted x v) x
  constructor
  · intro h
    have hempty := h .empty
    obtain ⟨names, hslice, -⟩ := Python.bind_ok hempty
    have hseq := (slice_getD_returns_iff v 6).mp ⟨names, hslice⟩
    refine ⟨hseq, fun y hy => ?_⟩
    by_contra hbad
    rw [not_or, not_le] at hbad
    -- the text of `y` has a vote too many
    rw [slice_getD hseq] at hempty
    have heq : own P .empty (elements v 6) = own P .empty (masksOf v) :=
      Except.ok.inj ((hloop _ _).symm.trans hempty)
    have hlen := PyVal.length_elements v 6
    have hall := get?_own P (P.dumpsSorted y) (elements v 6) (x := .empty) (c := 0) (by omega) rfl
    have hsome := get?_own P (P.dumpsSorted y) (masksOf v) (x := .empty) (c := 0)
      (by have hle := List.length_filter_le (fun x : PyVal => x.items.toBool) (elements v 6)
          rw [masksOf]
          omega) rfl
    rw [heq, hsome, Nat.cast_inj, Nat.zero_add, Nat.zero_add, masksOf,
      List.countP_eq_countP_filter_add (elements v 6) _ fun x => x.items.toBool] at hall
    have hzero : ((elements v 6).filter fun x => !x.items.toBool).countP (isMask P (P.dumpsSorted y))
        = 0 := by omega
    rw [List.countP_eq_zero] at hzero
    refine hzero y (List.mem_filter.mpr ⟨hy, ?_⟩) (decide_eq_true ⟨hbad.2, rfl⟩)
    rw [Bool.eq_false_iff.mpr hbad.1, Bool.not_false]
  · rintro ⟨hseq, hclean⟩ x
    rw [slice_getD hseq]
    refine (hloop _ _).trans (congrArg Except.ok ?_)
    rw [own, own, masksOf, foldl_filter_eq]
    intro y hy hno x
    have hlong := (hclean y hy).resolve_left fun hobj => by rw [hobj] at hno; cases hno
    rw [addOwn, if_neg (not_lt.mpr hlong)]
    rfl

/-! ### Profiles

The three lists of a profile are counted in three tallies of one network. To take a claim about
all of them apart, one starts from a state in which the tally in question is any given one and
the others are empty. -/

/-- A profile counts by its names and masks exactly when it can be read and has nothing
else that counts. -/
theorem addProfile_counted_iff (e : String × PyVal) :
    (∀ votes, addProfile P votes e = .ok (countProfile P votes e)) ↔
      (∀ p, unvcnet P e.2 = some p → ProfileReadable p) ∧ ∀ o, unvcnet P e.2 = some (.dict o) →
        NamesClean 5 (Assoc.get? o "d") ∧ NamesClean 12 (Assoc.get? o "m") ∧
          MasksClean P (Assoc.get? o "x") := by
  constructor
  · intro h
    have hread := (addProfile_returns_iff P .empty e).mp ⟨_, h .empty⟩
    refine ⟨hread, fun o ho => ?_⟩
    -- three tallies of one network, each with the votes it gets
    have hparts (f : Votes) :
        (((Assoc.get? o "d").getD (.list [])).slice 5 >>= addRanked 5 f.d)
          = .ok (rank 5 f.d (namesOf 5 (Assoc.get? o "d"))) ∧
        (((Assoc.get? o "m").getD (.list [])).slice 12 >>= addRanked 12 f.m)
          = .ok (rank 12 f.m (namesOf 12 (Assoc.get? o "m"))) ∧
        (((Assoc.get? o "x").getD (.list [])).slice 6 >>= fun names => names.foldlM (addOwn P) f.x)
          = .ok (own P f.x (masksOf (Assoc.get? o "x"))) := by
      have hvotes := h (OrderedMap.empty.put (.ofList (e.1.toList.take 60)) f)
      rw [addProfile_dict ho, countProfile, ho] at hvotes
      simp only [OrderedMap.get?_put, if_true, Option.getD_some] at hvotes
      obtain ⟨d, hd, hvotes⟩ := Python.bind_ok hvotes
      obtain ⟨m, hm, hvotes⟩ := Python.bind_ok hvotes
      obtain ⟨x, hx, hvotes⟩ := Python.bind_ok hvotes
      have hput := congrArg (fun votes => votes.get? (.ofList (e.1.toList.take 60))) (Except.ok.inj hvotes)
      simp only [OrderedMap.get?_put, if_true, Option.some.injEq, Votes.mk.injEq] at hput
      rw [hd, hm, hx, hput.1, hput.2.1, hput.2.2]
      exact ⟨rfl, rfl, rfl⟩
    refine ⟨?_, ?_, ?_⟩
    · exact (names_counted_iff (by decide) _).mp fun d => (hparts { d := d }).1
    · exact (names_counted_iff (by decide) _).mp fun m => (hparts { m := m }).2.1
    · exact ((masks_counted_iff _).mp fun x => (hparts { x := x }).2.2).2
  · rintro ⟨hread, hclean⟩ votes
    cases hp : unvcnet P e.2 with
    | none =>
      rw [addProfile, countProfile, hp]
      rfl
    | some p =>
      obtain ⟨o, rfl, -, -, hx⟩ := hread p hp
      obtain ⟨hcd, hcm, hcx⟩ := hclean o hp
      rw [addProfile_dict hp, countProfile, hp]
      show (_ >>= fun d => _) = _
      rw [(names_counted_iff (by decide) _).mpr hcd, Python.ok_bind,
        (names_counted_iff (by decide) _).mpr hcm, Python.ok_bind,
        (masks_counted_iff _).mpr ⟨hx, hcx⟩]
      rfl

/-! ### Reports

The name of the phone is hashed whatever it is, so one that is no text is counted as another
phone unless its hash is that of the empty name. Together with the parts above this decides what
the whole report adds. -/

/-- What one report adds, part by part. -/
theorem addReport_eq (P : Runtime) (now : ℤ) (w : Work) (r : Report) : addReport P now w r = (do
    let us ← PyVal.sliceOr (Assoc.get? r "use") 8
    let acc ← ["m", "w"].foldlM (addModel (brainOf r) (weightOf P (brainOf r))) w.acc
    let votes ← profilesOf r >>= fun es => es.foldlM (addProfile P) w.votes
    let links ← PyVal.sliceOr (Assoc.get? r "ok") 15
    return { ids := w.ids.put (P.sha10 (field P r "id" 16)) now
             use := if usersOf us = [] then w.use
               else w.use.put (P.sha10 (field P r "id" 16)) { t := now, s := usersOf us }
             acc := acc
             votes := votes
             servers := links.foldl (addVerified now) w.servers }) := by
  rw [addReport]
  refine bind_congr fun us => bind_congr fun acc => ?_
  rw [bind_assoc]
  rfl

/-- The profiles of a report that can be read are its links. -/
theorem profilesOf_eq {r : Report} (h : ProfilesReadable P r) : profilesOf r = .ok (linksOf r) := by
  rw [profilesOf, linksOf]
  cases hget : Assoc.get? r "profiles" with
  | none => rfl
  | some v =>
    show (if v.truthy then v.items else return []) = _
    by_cases ht : v.truthy = true
    · obtain ⟨o, rfl, -⟩ := h v hget ht
      rw [if_pos ht]
      rfl
    · -- what is empty has no links
      rw [if_neg ht]
      cases v with
      | dict o =>
        cases o with
        | nil => rfl
        | cons e o => exact absurd rfl ht
      | _ => rfl

/-- A report that can be read, whose profiles count by their well-formed parts, counts by its
own, unless its phone has another name. -/
theorem addReport_counted {now : ℤ} {r : Report} (h : Readable P r)
    (hp : ∀ e ∈ linksOf r, ∀ votes, addProfile P votes e = .ok (countProfile P votes e))
    (hid : P.sha10 (field P r "id" 16) = P.sha10 (textField P r "id" 16)) (w : Work) :
    addReport P now w r = .ok (countReport P now w r) := by
  have hmodel : ∀ k ∈ ["m", "w"], ∀ acc, addModel (brainOf r) (weightOf P (brainOf r)) acc k
      = .ok (stepped acc (addModel (brainOf r) (weightOf P (brainOf r)) acc k)) :=
    fun k hk acc => stepped_ok ((addModel_returns_iff _ _ acc k).mpr (h.model k hk))
  rw [addReport_eq, PyVal.sliceOr_eq h.use, Python.ok_bind, foldlM_eq_foldl hmodel, Python.ok_bind,
    profilesOf_eq h.profiles, Python.ok_bind, foldlM_eq_foldl hp, Python.ok_bind, PyVal.sliceOr_eq h.ok,
    Python.ok_bind, hid]
  rfl

/-- The name of a phone that is no text does not count exactly when the phone is the one
without a name. -/
theorem id_counted_iff (r : Report) : P.sha10 (field P r "id" 16) = P.sha10 (textField P r "id" 16) ↔
    ∀ v ∈ Assoc.get? r "id", v.text? = none → P.sha10 (field P r "id" 16) = P.sha10 "" := by
  rw [textField]
  cases hget : Assoc.get? r "id" with
  | none =>
    have hfield : field P r "id" 16 = "" := by
      rw [field, hget]
      rfl
    rw [hfield]
    refine ⟨fun _ v hv => ?_, fun _ => rfl⟩
    cases hv
  | some v =>
    cases ht : v.text? with
    | none =>
      rw [isText, Option.bind_some, ht, if_neg (by decide)]
      exact ⟨fun heq _ _ _ => heq, fun heq => heq v rfl ht⟩
    | some s =>
      rw [isText, Option.bind_some, ht, if_pos (show (some s).isSome = true from rfl)]
      refine ⟨fun _ u hu hnone => ?_, fun _ => rfl⟩
      rw [← Option.some.inj hu, ht] at hnone
      cases hnone

/-- **What a report adds.** It adds what its well-formed parts add, whatever was counted
before, exactly when it can be read and its malformed parts are passed over. -/
theorem onlyWellFormed_iff (now : ℤ) (r : Report) :
    OnlyWellFormed P now r ↔ Readable P r ∧ Clean P r := by
  constructor
  · intro h
    obtain ⟨hspeeds, hnet⟩ := (addSpeeds_counted_iff now r).mp h.speeds
    have hrest (w : Work) := (addReport_returns_iff P now w r).mp ⟨_, h.rest w⟩
    obtain ⟨huse, hmodel, hprofiles, hok⟩ :=
      hrest { ids := .empty, use := .empty, acc := .empty, votes := .empty, servers := .empty }
    have hread : Readable P r := ⟨hspeeds, huse, hmodel, hprofiles, hok⟩
    refine ⟨hread, hnet, ?_, fun e he o ho => ((addProfile_counted_iff e).mp (h.profiles e he)).2 o ho⟩
    -- the first phone there is
    rw [← id_counted_iff]
    have hids := h.rest { ids := .empty, use := .empty, acc := .empty, votes := .empty, servers := .empty }
    rw [addReport_eq] at hids
    obtain ⟨us, -, hids⟩ := Python.bind_ok hids
    obtain ⟨acc, -, hids⟩ := Python.bind_ok hids
    obtain ⟨votes, -, hids⟩ := Python.bind_ok hids
    obtain ⟨links, -, hids⟩ := Python.bind_ok hids
    have hkeys : [(P.sha10 (field P r "id" 16), now)] = [(P.sha10 (textField P r "id" 16), now)] :=
      congrArg (fun w : Work => w.ids.entries) (Except.ok.inj hids)
    exact (Prod.mk.inj (List.singleton_inj.mp hkeys)).1
  · rintro ⟨hread, hclean⟩
    have hlinks : ∀ e ∈ linksOf r, ∀ p, unvcnet P e.2 = some p → ProfileReadable p := by
      intro e he
      rw [linksOf.eq_def] at he
      split at he
      · rename_i o hget
        obtain ⟨o', heq, hall⟩ := hread.profiles _ hget (by
          cases o with
          | nil => exact absurd he List.not_mem_nil
          | cons _ _ => rfl)
        obtain rfl := PyVal.dict.inj heq
        exact hall e he
      · exact absurd he List.not_mem_nil
    have hprofiles : ∀ e ∈ linksOf r, ∀ votes, addProfile P votes e = .ok (countProfile P votes e) :=
      fun e he => (addProfile_counted_iff e).mpr ⟨hlinks e he, hclean.profiles e he⟩
    exact ⟨(addSpeeds_counted_iff now r).mpr ⟨hread.speeds, hclean.net⟩, hprofiles,
      addReport_counted hread hprofiles ((id_counted_iff r).mpr hclean.id)⟩

/-- Of reports that add their well-formed parts only, these are what is merged. -/
theorem merge_counted {prev : Option Cloud} {reports : List Report} {now : ℤ}
    (h : ∀ r ∈ reports, OnlyWellFormed P now r) :
    merge P prev reports now = mergeCounted P prev reports now := by
  rw [merge, foldlM_eq_foldl fun r hr net => (h r hr).speeds net, Python.ok_bind,
    foldlM_eq_foldl fun r hr w => (h r hr).rest w, Python.ok_bind]
  rfl

/-- A runtime for reports without links, merged with no state at the beginning of time. -/
def bareRuntime : Runtime where
  str v := v.text?.getD ""
  int _ := none
  halved _ _ := 1
  sha10 _ := "e3b0c44298"
  stamp t := if t = 0 then some "1970-01-01 00:00" else none
  b64decode _ := none
  loads _ := none
  dumps _ := "null"
  dumpsSorted _ := "null"
  quote s := s

/-- The sample runtime reads its own texts back. -/
theorem bare_rereads : Rereads bareRuntime := by
  intro b p x own hp
  cases hp

/-- A report of speeds none of which is a measurement is clean where its speeds can be read. -/
theorem clean_of_speeds {r : Report} (h : ∀ k ∈ ["use", "ok", "brain", "profiles", "id"], Assoc.get? r k = none)
    (hs : SpeedsReadable P r) (hm : ∀ row ∈ elements (Assoc.get? r "sp") 60, measures P row = false) :
    Readable P r ∧ Clean P r := by
  have hbrain : weightOf P (brainOf r) = 0 := by
    rw [brainOf, h "brain" (by decide)]
    rfl
  refine ⟨⟨hs, ?_, fun k _ hw => absurd hbrain hw, ?_, ?_⟩, ?_, ?_, ?_⟩
  · rw [h "use" (by decide)]
    exact fun x hx => by cases hx
  · intro v hv
    rw [h "profiles" (by decide)] at hv
    cases hv
  · rw [h "ok" (by decide)]
    exact fun x hx => by cases hx
  · rintro - ⟨row, hrow, hmeasures⟩
    rw [hm row hrow] at hmeasures
    cases hmeasures
  · intro v hv
    rw [h "id" (by decide)] at hv
    cases hv
  · intro e he
    rw [linksOf, h "profiles" (by decide)] at he
    cases he

end CloudReports

end VlessCard
