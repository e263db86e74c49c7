/-
Strict readers of binary formats.

A reader takes a value off the front of the bytes and leaves the rest. A field may
announce the length of what follows it, and then exactly that much is read, no more and
no less. `Reads r bytes a` says that `r` takes `bytes` off whatever stands behind them
and makes `a` of them; a writer and its reader are matched by one such fact a field,
put together in the order of the fields. `Accepts r bytes` says that a reader that answers yes or
no says yes, and is taken apart field by field in the same order.
-/
import Mathlib

set_option autoImplicit false

namespace VlessCard.Wire

/-- A reader of a value at the front of the bytes. -/
abbrev Reader (α : Type) : Type := StateT (List UInt8) Option α

variable {α β : Type}

/-! ## Readers

A reader takes a value off the front of the bytes or fails. Lengths are checked where they are
read, and a list is read with fuel for as many elements as there are bytes. -/

def ensure (p : Prop) [Decidable p] : Reader Unit := fun bytes => if p then some ((), bytes) else none

/-- `n` bytes as they are. -/
def take (n : ℕ) : Reader (List UInt8) := fun bytes =>
  if n ≤ bytes.length then some (bytes.take n, bytes.drop n) else none

/-- A number of `n` bytes, the highest first. -/
def uint : ℕ → Reader ℕ
  | 0 => pure 0
  | n + 1 => do
    let high ← uint n
    let low ← take 1
    return high * 256 + (low.headD 0).toNat

/-- All of the bytes, and nothing after them. -/
def exactly (r : Reader α) (bytes : List UInt8) : Option α :=
  match r.run bytes with
  | some (a, []) => some a
  | _ => none

/-- What `r` makes of the next `n` bytes, all of them. -/
def within (n : ℕ) (r : Reader α) : Reader α := do
  let body ← take n
  match exactly r body with
  | some a => return a
  | none => failure

/-- A length of `k` bytes between `least` and `most`, and what `r` makes of that many bytes. -/
def vector (k least most : ℕ) (r : Reader α) : Reader α := do
  let n ← uint k
  ensure (least ≤ n ∧ n ≤ most)
  within n r

/-- The bytes that are left. -/
def remaining : Reader (List UInt8) := fun bytes => some (bytes, [])

/-- As many as there are; each must take something. -/
def manyGo (r : Reader α) : ℕ → Reader (List α)
  | 0 => fun bytes => if bytes = [] then some ([], []) else none
  | fuel + 1 => fun bytes =>
    if bytes = [] then some ([], [])
    else match r.run bytes with
      | some (a, rest) => ((manyGo r fuel).run rest).map fun p => (a :: p.1, p.2)
      | none => none

def many (r : Reader α) : Reader (List α) := fun bytes => (manyGo r bytes.length).run bytes

/-! ## Writers

A number is written with its highest byte first, in as many bytes as the format has for it. -/

/-- `n` in `k` bytes, the highest first. -/
def bigEndian : ℕ → ℕ → List UInt8
  | 0, _ => []
  | k + 1, n => bigEndian k (n / 256) ++ [UInt8.ofNat (n % 256)]

/-- A field of `k` bytes has `k` bytes, whatever number is written into it. -/
@[simp] theorem length_bigEndian (k n : ℕ) : (bigEndian k n).length = k := by
  induction k generalizing n with
  | zero => rfl
  | succ k ih => rw [bigEndian, List.length_append, ih, List.length_singleton]

theorem ofNat_mod (n : ℕ) : UInt8.ofNat (n % 256) = UInt8.ofNat n := by
  apply UInt8.toNat_inj.mp
  rw [UInt8.toNat_ofNat', UInt8.toNat_ofNat', Nat.mod_mod]

/-- The highest byte first. -/
theorem bigEndian_succ (k n : ℕ) : bigEndian (k + 1) n = UInt8.ofNat (n / 256 ^ k) :: bigEndian k n := by
  induction k generalizing n with
  | zero => simp [bigEndian, ofNat_mod]
  | succ k ih =>
    rw [bigEndian, ih, List.cons_append, Nat.div_div_eq_div_mul, ← pow_succ']
    rfl

theorem bigEndian_one (n : ℕ) : bigEndian 1 n = [UInt8.ofNat n] := by
  rw [bigEndian_succ, pow_zero, Nat.div_one]
  rfl

/-- What does not fit in the bytes is not written. -/
theorem bigEndian_mod (k n : ℕ) : bigEndian k (n % 256 ^ k) = bigEndian k n := by
  induction k generalizing n with
  | zero => rfl
  | succ k ih =>
    have hhigh : n % 256 ^ (k + 1) / 256 = n / 256 % 256 ^ k := by
      rw [pow_succ, Nat.mul_comm, Nat.mod_mul_right_div_self]
    have hlow : n % 256 ^ (k + 1) % 256 = n % 256 := Nat.mod_mod_of_dvd n (Dvd.intro_left (256 ^ k) rfl)
    rw [bigEndian, hhigh, ih, hlow]
    rfl

/-- A mark in the highest byte leaves the others. -/
theorem bigEndian_mark (k m n : ℕ) :
    bigEndian (k + 1) (m * 256 ^ k + n) = UInt8.ofNat (m + n / 256 ^ k) :: bigEndian k n := by
  have hpos : 0 < 256 ^ k := Nat.pow_pos (by omega)
  have hhigh : (m * 256 ^ k + n) / 256 ^ k = m + n / 256 ^ k := by
    rw [Nat.add_comm, Nat.add_mul_div_right _ _ hpos, Nat.add_comm]
  have hlow : bigEndian k (m * 256 ^ k + n) = bigEndian k n := by
    rw [← bigEndian_mod, Nat.add_comm, Nat.add_mul_mod_self_right, bigEndian_mod]
  rw [bigEndian_succ, hhigh, hlow]

/-! ## What reads what

That a reader reads what a writer wrote is said whatever follows, so that fields can be put one
behind the other. The rules go through the structure of the reader. -/

/-- `r` takes `bytes` off whatever stands behind them. -/
def Reads (r : Reader α) (bytes : List UInt8) (a : α) : Prop := ∀ rest, r.run (bytes ++ rest) = some (a, rest)

/-- The rules for `Reads` follow the reader: nothing is read for a value that is there. -/
theorem Reads.pure (a : α) : Reads (pure a) [] a := fun _ => rfl

/-- One reader after another reads one text after another. -/
theorem Reads.bind {r : Reader α} {f : α → Reader β} {front back : List UInt8} {a : α} {b : β}
    (hr : Reads r front a) (hf : Reads (f a) back b) : Reads (r >>= f) (front ++ back) b := by
  intro rest
  have hfront : r.run (front ++ (back ++ rest)) = some (a, back ++ rest) := hr _
  have hback : (f a).run (back ++ rest) = some (b, rest) := hf _
  rw [List.append_assoc, StateT.run_bind, hfront]
  exact hback

/-- The last of the fields takes the last of the bytes. -/
theorem Reads.bind_last {r : Reader α} {f : α → Reader β} {bytes : List UInt8} {a : α} {b : β}
    (hr : Reads r bytes a) (hf : Reads (f a) [] b) : Reads (r >>= f) bytes b := by
  have h := hr.bind hf
  rwa [List.append_nil] at h

/-- What takes no bytes. -/
theorem Reads.then {r : Reader Unit} {f : Unit → Reader β} {bytes : List UInt8} {b : β}
    (hr : Reads r [] ()) (hf : Reads (f ()) bytes b) : Reads (r >>= f) bytes b := hr.bind hf

theorem reads_ensure {p : Prop} [Decidable p] (h : p) : Reads (ensure p) [] () := by
  intro rest
  exact if_pos h

/-- What is done with the value does not touch the bytes. -/
theorem Reads.map {r : Reader α} {bytes : List UInt8} {a : α} (h : Reads r bytes a) (f : α → β) :
    Reads (f <$> r) bytes (f a) := by
  intro rest
  rw [StateT.run_map, h rest]
  rfl

theorem reads_take {n : ℕ} {bytes : List UInt8} (h : bytes.length = n) : Reads (take n) bytes bytes := by
  intro rest
  subst h
  have hle : bytes.length ≤ (bytes ++ rest).length := by simp
  change (if bytes.length ≤ (bytes ++ rest).length then _ else _) = _
  rw [if_pos hle, List.take_left, List.drop_left]

/-- A number that fits is read back as it was written. -/
theorem reads_uint {k n : ℕ} (h : n < 256 ^ k) : Reads (uint k) (bigEndian k n) n := by
  induction k generalizing n with
  | zero =>
    obtain rfl : n = 0 := by simpa using h
    exact Reads.pure 0
  | succ k ih =>
    have hhigh : n / 256 < 256 ^ k := by
      rw [pow_succ] at h
      omega
    have hlow : (UInt8.ofNat (n % 256)).toNat = n % 256 := by
      rw [UInt8.toNat_ofNat']
      omega
    have hsum : n / 256 * 256 + ((([UInt8.ofNat (n % 256)] : List UInt8).headD 0).toNat) = n := by
      rw [List.headD_cons, hlow]
      omega
    refine (ih hhigh).bind ((reads_take (n := 1) rfl).bind_last ?_)
    intro rest
    rw [hsum]
    rfl

/-- `r` makes `a` of all the bytes. -/
def ReadsAll (r : Reader α) (bytes : List UInt8) (a : α) : Prop := r.run bytes = some (a, [])

instance [DecidableEq α] (r : Reader α) (bytes : List UInt8) (a : α) : Decidable (ReadsAll r bytes a) :=
  inferInstanceAs (Decidable (r.run bytes = some (a, [])))

/-- A text that is read whatever follows is read where nothing follows. -/
theorem Reads.all {r : Reader α} {bytes : List UInt8} {a : α} (h : Reads r bytes a) : ReadsAll r bytes a := by
  have hend := h []
  rwa [List.append_nil] at hend

theorem readsAll_remaining (bytes : List UInt8) : ReadsAll remaining bytes bytes := rfl

/-- The rules for `ReadsAll` are those of `Reads`, with nothing behind. -/
theorem ReadsAll.map {r : Reader α} {bytes : List UInt8} {a : α} (h : ReadsAll r bytes a) (f : α → β) :
    ReadsAll (f <$> r) bytes (f a) := by
  unfold ReadsAll at h ⊢
  rw [StateT.run_map, h]
  rfl

/-- A field that runs to the end, behind others. -/
theorem Reads.bind_all {r : Reader α} {f : α → Reader β} {front back : List UInt8} {a : α} {b : β}
    (hr : Reads r front a) (hf : ReadsAll (f a) back b) : ReadsAll (r >>= f) (front ++ back) b := by
  unfold ReadsAll at hf ⊢
  rw [StateT.run_bind, hr back]
  exact hf

/-- A check at the end reads nothing more. -/
theorem ReadsAll.bind_all {r : Reader α} {f : α → Reader β} {bytes : List UInt8} {a : α} {b : β}
    (hr : ReadsAll r bytes a) (hf : Reads (f a) [] b) : ReadsAll (r >>= f) bytes b := by
  have hend := hf []
  unfold ReadsAll at hr ⊢
  rw [StateT.run_bind, hr]
  exact hend

/-- `exactly` gives what was read to the end. -/
theorem ReadsAll.exactly_eq {r : Reader α} {bytes : List UInt8} {a : α} (h : ReadsAll r bytes a) :
    exactly r bytes = some a := by
  unfold ReadsAll at h
  rw [exactly, h]

/-- A field with its length before it is read by a reader that has to take all of it. -/
theorem reads_within {r : Reader α} {n : ℕ} {bytes : List UInt8} {a : α} (hn : bytes.length = n)
    (h : ReadsAll r bytes a) : Reads (within n r) bytes a := by
  refine (reads_take hn).bind_last ?_
  rw [h.exactly_eq]
  exact Reads.pure a

/-- **A field behind its length.** -/
theorem reads_vector {k least most : ℕ} {r : Reader α} {bytes : List UInt8} {a : α} (h : ReadsAll r bytes a)
    (hleast : least ≤ bytes.length) (hmost : bytes.length ≤ most) (hk : bytes.length < 256 ^ k) :
    Reads (vector k least most r) (bigEndian k bytes.length ++ bytes) a :=
  (reads_uint hk).bind ((reads_ensure ⟨hleast, hmost⟩).then (reads_within rfl h))

theorem manyGo_nil (r : Reader α) (fuel : ℕ) : (manyGo r fuel).run [] = some ([], []) := by
  cases fuel with
  | zero => rfl
  | succ fuel => rfl

/-- Fuel for the bytes there are suffices. -/
theorem manyGo_items {ι : Type} {r : Reader α} (write : ι → List UInt8) (value : ι → α) (items : List ι)
    (h : ∀ i ∈ items, Reads r (write i) (value i) ∧ write i ≠ []) (fuel : ℕ)
    (hfuel : (items.flatMap write).length ≤ fuel) :
    (manyGo r fuel).run (items.flatMap write) = some (items.map value, []) := by
  induction items generalizing fuel with
  | nil => exact manyGo_nil r fuel
  | cons i items ih =>
    obtain ⟨hread, hne⟩ := h i List.mem_cons_self
    have hpos : 0 < (write i).length := List.length_pos_iff.mpr hne
    rw [List.flatMap_cons, List.length_append] at hfuel
    obtain ⟨fuel, rfl⟩ : ∃ m, fuel = m + 1 := ⟨fuel - 1, by omega⟩
    have hrest := ih (fun j hj => h j (List.mem_cons_of_mem i hj)) fuel (by omega)
    have hcons : write i ++ items.flatMap write ≠ [] := List.append_ne_nil_of_left_ne_nil hne _
    rw [List.flatMap_cons]
    change (if write i ++ items.flatMap write = [] then _ else _) = _
    rw [if_neg hcons, hread]
    change ((manyGo r fuel).run (items.flatMap write)).map _ = _
    rw [hrest]
    rfl

/-- **A list of fields, one after another to the end.** -/
theorem readsAll_many {ι : Type} {r : Reader α} (write : ι → List UInt8) (value : ι → α) (items : List ι)
    (h : ∀ i ∈ items, Reads r (write i) (value i) ∧ write i ≠ []) :
    ReadsAll (many r) (items.flatMap write) (items.map value) :=
  manyGo_items write value items h _ le_rfl

/-- A list of one field. -/
theorem Reads.many_one {r : Reader α} {bytes : List UInt8} {a : α} (h : Reads r bytes a) (hne : bytes ≠ []) :
    ReadsAll (many r) bytes [a] := by
  have hone := readsAll_many (fun _ : Unit => bytes) (fun _ => a) [()] fun _ _ => ⟨h, hne⟩
  rwa [List.flatMap_singleton] at hone

/-! ## What a reader has read

Backwards: from what a reader has given it follows what the bytes were. With it a text that is
accepted is one that a writer would have written. -/

/-- Backwards: a run of two readers has a middle. -/
theorem run_bind_eq_some {r : Reader α} {f : α → Reader β} {bytes rest : List UInt8} {b : β} :
    (r >>= f).run bytes = some (b, rest) ↔ ∃ a mid, r.run bytes = some (a, mid) ∧ (f a).run mid = some (b, rest) := by
  rw [StateT.run_bind]
  constructor
  · intro h
    obtain ⟨⟨a, mid⟩, ha, hb⟩ := Option.bind_eq_some_iff.mp h
    exact ⟨a, mid, ha, hb⟩
  · rintro ⟨a, mid, ha, hb⟩
    rw [ha]
    exact hb

theorem eq_of_run_pure {a b : α} {bytes rest : List UInt8} (h : (pure a : Reader α).run bytes = some (b, rest)) :
    a = b ∧ bytes = rest := Prod.mk.inj (Option.some.inj h)

theorem eq_of_run_ensure {p : Prop} [Decidable p] {bytes rest : List UInt8}
    (h : (ensure p).run bytes = some ((), rest)) : p ∧ bytes = rest := by
  change (if p then some ((), bytes) else none) = _ at h
  split at h
  · exact ⟨‹_›, (Prod.mk.inj (Option.some.inj h)).2⟩
  · cases h

/-- The bytes that were taken stood in front, and were as many as asked for. -/
theorem eq_of_run_take {n : ℕ} {bytes front rest : List UInt8} (h : (take n).run bytes = some (front, rest)) :
    front.length = n ∧ bytes = front ++ rest := by
  change (if n ≤ bytes.length then some (bytes.take n, bytes.drop n) else none) = _ at h
  split at h
  · obtain ⟨rfl, rfl⟩ := Prod.mk.inj (Option.some.inj h)
    refine ⟨?_, (List.take_append_drop n bytes).symm⟩
    rw [List.length_take]
    omega
  · cases h

/-- The bytes of a number are the number in so many bytes. -/
theorem eq_of_run_uint {k n : ℕ} {bytes rest : List UInt8} (h : (uint k).run bytes = some (n, rest)) :
    n < 256 ^ k ∧ bytes = bigEndian k n ++ rest := by
  induction k generalizing n rest with
  | zero =>
    obtain ⟨rfl, rfl⟩ := eq_of_run_pure h
    exact ⟨Nat.one_pos, rfl⟩
  | succ k ih =>
    obtain ⟨high, mid, hhigh, hrest⟩ := run_bind_eq_some.mp h
    obtain ⟨low, mid', hlow, hend⟩ := run_bind_eq_some.mp hrest
    obtain ⟨rfl, rfl⟩ := eq_of_run_pure hend
    obtain ⟨hlt, rfl⟩ := ih hhigh
    obtain ⟨hone, rfl⟩ := eq_of_run_take hlow
    obtain ⟨b, rfl⟩ := List.length_eq_one_iff.mp hone
    have hb : b.toNat < 256 := b.toNat_lt
    rw [List.headD_cons]
    have hdiv : (high * 256 + b.toNat) / 256 = high := by omega
    have hmod : (high * 256 + b.toNat) % 256 = b.toNat := by omega
    refine ⟨?_, ?_⟩
    · rw [pow_succ]
      omega
    · rw [bigEndian, hdiv, hmod, UInt8.ofNat_toNat, List.append_assoc]

/-- Before the value was changed there was one. -/
theorem ReadsAll.of_map {r : Reader α} {f : α → β} {bytes : List UInt8} {b : β} (h : ReadsAll (f <$> r) bytes b) :
    ∃ a, ReadsAll r bytes a ∧ f a = b := by
  unfold ReadsAll at h ⊢
  rw [StateT.run_map] at h
  obtain ⟨⟨a, rest⟩, hrun, heq⟩ := Option.map_eq_some_iff.mp h
  obtain ⟨rfl, rfl⟩ := Prod.mk.inj heq
  exact ⟨a, hrun, rfl⟩

/-- What `exactly` gives was read to the end. -/
theorem readsAll_of_exactly {r : Reader α} {bytes : List UInt8} {a : α} (h : exactly r bytes = some a) :
    ReadsAll r bytes a := by
  unfold exactly at h
  split at h
  · rename_i hrun
    rw [← Option.some.inj h]
    exact hrun
  · cases h

/-- A field that was read has a body of the length before it, read as a whole. -/
theorem eq_of_run_within {r : Reader α} {n : ℕ} {bytes rest : List UInt8} {a : α}
    (h : (within n r).run bytes = some (a, rest)) :
    ∃ body, body.length = n ∧ bytes = body ++ rest ∧ ReadsAll r body a := by
  obtain ⟨body, mid, htake, hrest⟩ := run_bind_eq_some.mp h
  obtain ⟨hlen, rfl⟩ := eq_of_run_take htake
  split at hrest
  · rename_i hbody
    obtain ⟨rfl, rfl⟩ := eq_of_run_pure hrest
    exact ⟨body, hlen, rfl, readsAll_of_exactly hbody⟩
  · cases hrest

/-- **Behind its length a field is read to its end.** -/
theorem eq_of_run_vector {k least most : ℕ} {r : Reader α} {bytes rest : List UInt8} {a : α}
    (h : (vector k least most r).run bytes = some (a, rest)) :
    ∃ body, least ≤ body.length ∧ body.length ≤ most ∧ body.length < 256 ^ k ∧
      bytes = bigEndian k body.length ++ (body ++ rest) ∧ ReadsAll r body a := by
  obtain ⟨n, mid, hn, hrest⟩ := run_bind_eq_some.mp h
  obtain ⟨hlt, rfl⟩ := eq_of_run_uint hn
  obtain ⟨u, mid', hensure, hwithin⟩ := run_bind_eq_some.mp hrest
  obtain ⟨hbounds, rfl⟩ := eq_of_run_ensure hensure
  obtain ⟨body, rfl, rfl, hbody⟩ := eq_of_run_within hwithin
  exact ⟨body, hbounds.1, hbounds.2, hlt, rfl, hbody⟩

/-- Where every field is one that a writer writes, so is a list of them. -/
theorem eq_of_run_manyGo {ι : Type} {r : Reader α} (write : ι → List UInt8) (value : ι → α)
    (hr : ∀ {bytes rest a}, r.run bytes = some (a, rest) → ∃ i, bytes = write i ++ rest ∧ value i = a) (fuel : ℕ)
    {bytes rest : List UInt8} {as : List α} (h : (manyGo r fuel).run bytes = some (as, rest)) :
    ∃ items : List ι, bytes = items.flatMap write ++ rest ∧ items.map value = as ∧ rest = [] := by
  induction fuel generalizing bytes as with
  | zero =>
    change (if bytes = [] then some ([], []) else none) = _ at h
    split at h
    · obtain ⟨rfl, rfl⟩ := Prod.mk.inj (Option.some.inj h)
      exact ⟨[], ‹_›, rfl, rfl⟩
    · cases h
  | succ fuel ih =>
    change (if bytes = [] then some ([], []) else
      match r.run bytes with
      | some (a, rest) => ((manyGo r fuel).run rest).map fun p => (a :: p.1, p.2)
      | none => none) = _ at h
    split at h
    · obtain ⟨rfl, rfl⟩ := Prod.mk.inj (Option.some.inj h)
      exact ⟨[], ‹_›, rfl, rfl⟩
    · split at h
      · rename_i a mid hrun
        obtain ⟨⟨as', rest'⟩, hrest, heq⟩ := Option.map_eq_some_iff.mp h
        obtain ⟨rfl, rfl⟩ := Prod.mk.inj heq
        obtain ⟨i, rfl, rfl⟩ := hr hrun
        obtain ⟨items, rfl, rfl, rfl⟩ := ih hrest
        refine ⟨i :: items, ?_, rfl, rfl⟩
        rw [List.flatMap_cons, List.append_assoc]
      · cases h

/-- A list that was read was written element by element, once every element was. -/
theorem eq_of_readsAll_many {ι : Type} {r : Reader α} (write : ι → List UInt8) (value : ι → α)
    (hr : ∀ {bytes rest a}, r.run bytes = some (a, rest) → ∃ i, bytes = write i ++ rest ∧ value i = a)
    {bytes : List UInt8} {as : List α} (h : ReadsAll (many r) bytes as) :
    ∃ items : List ι, bytes = items.flatMap write ∧ items.map value = as := by
  obtain ⟨items, hbytes, hvalues, -⟩ := eq_of_run_manyGo write value hr _ h
  rw [List.append_nil] at hbytes
  exact ⟨items, hbytes, hvalues⟩

/-! ## Numbers, the lowest byte first

The same with the lowest byte first, for the formats that want it so. -/

/-- `n` in `k` bytes, the lowest first. -/
def littleEndian : ℕ → ℕ → List UInt8
  | 0, _ => []
  | k + 1, n => UInt8.ofNat (n % 256) :: littleEndian k (n / 256)

def ofLittle : List UInt8 → ℕ
  | [] => 0
  | b :: bytes => b.toNat + 256 * ofLittle bytes

/-- The little endian field, with the same lemmas. -/
@[simp] theorem length_littleEndian (k n : ℕ) : (littleEndian k n).length = k := by
  induction k generalizing n with
  | zero => rfl
  | succ k ih => rw [littleEndian, List.length_cons, ih]

/-- Bytes hold no more than their number allows. -/
theorem ofLittle_lt (bytes : List UInt8) : ofLittle bytes < 256 ^ bytes.length := by
  induction bytes with
  | nil => exact Nat.one_pos
  | cons b bytes ih =>
    have hb : b.toNat < 256 := b.toNat_lt
    rw [ofLittle, List.length_cons, pow_succ]
    omega

theorem ofLittle_lt_of_length {bytes : List UInt8} {k m : ℕ} (hk : bytes.length = k) (hm : 256 ^ k = m) :
    ofLittle bytes < m := by
  rw [← hm, ← hk]
  exact ofLittle_lt bytes

theorem ofLittle_littleEndian {k n : ℕ} (h : n < 256 ^ k) : ofLittle (littleEndian k n) = n := by
  induction k generalizing n with
  | zero =>
    rw [pow_zero] at h
    rw [littleEndian, ofLittle]
    omega
  | succ k ih =>
    rw [pow_succ] at h
    have hbyte : (UInt8.ofNat (n % 256)).toNat = n % 256 := by
      rw [UInt8.toNat_ofNat', Nat.mod_mod]
    rw [littleEndian, ofLittle, ih (by omega), hbyte]
    omega

theorem littleEndian_ofLittle (bytes : List UInt8) : littleEndian bytes.length (ofLittle bytes) = bytes := by
  induction bytes with
  | nil => rfl
  | cons b bytes ih =>
    have hb : b.toNat < 256 := b.toNat_lt
    have hlow : (b.toNat + 256 * ofLittle bytes) % 256 = b.toNat := by omega
    have hhigh : (b.toNat + 256 * ofLittle bytes) / 256 = ofLittle bytes := by omega
    rw [List.length_cons, ofLittle, littleEndian, hlow, hhigh, ih, UInt8.ofNat_toNat]

/-- A number is one row of bytes. -/
theorem ofLittle_eq_iff {k n : ℕ} {bytes : List UInt8} (hk : bytes.length = k) (hn : n < 256 ^ k) :
    ofLittle bytes = n ↔ bytes = littleEndian k n := by
  constructor
  · intro h
    rw [← h, ← hk, littleEndian_ofLittle]
  · intro h
    rw [h, ofLittle_littleEndian hn]

/-! ## What a reader accepts

Some readers only say yes or no. What they accept is a set of byte strings, and the rules
describe it field by field. -/

/-- How many bytes are left. -/
def left : Reader ℕ := fun bytes => some (bytes.length, bytes)

/-- The reader ends, and says yes. -/
def Accepts (r : Reader Bool) (bytes : List UInt8) : Prop := ∃ rest, r.run bytes = some (true, rest)

/-- A reader that only answers accepts by its answer. -/
theorem accepts_pure (b : Bool) (bytes : List UInt8) : Accepts (pure b) bytes ↔ b = true := by
  constructor
  · rintro ⟨rest, h⟩
    cases h
    rfl
  · rintro rfl
    exact ⟨bytes, rfl⟩

/-- Asking how much is left reads nothing. -/
theorem accepts_left (f : ℕ → Reader Bool) (bytes : List UInt8) :
    Accepts (left >>= f) bytes ↔ Accepts (f bytes.length) bytes := by
  rfl

/-- A field is a front of the bytes. -/
theorem accepts_take (n : ℕ) (f : List UInt8 → Reader Bool) (bytes : List UInt8) :
    Accepts (take n >>= f) bytes ↔
      ∃ front rest, front.length = n ∧ bytes = front ++ rest ∧ Accepts (f front) rest := by
  constructor
  · rintro ⟨rest, h⟩
    by_cases hn : n ≤ bytes.length
    · refine ⟨bytes.take n, bytes.drop n, ?_, (List.take_append_drop n bytes).symm, rest, ?_⟩
      · rw [List.length_take]
        omega
      · rw [StateT.run_bind] at h
        have htake : (take n).run bytes = some (bytes.take n, bytes.drop n) := if_pos hn
        rwa [htake] at h
    · rw [StateT.run_bind] at h
      have htake : (take n).run bytes = none := if_neg hn
      rw [htake] at h
      cases h
  · rintro ⟨front, rest, hlen, rfl, rest', h⟩
    refine ⟨rest', ?_⟩
    rw [StateT.run_bind, reads_take hlen rest]
    exact h

/-- An answer of no. -/
theorem accepts_unless (c : Prop) [Decidable c] (r : Reader Bool) (bytes : List UInt8) :
    Accepts (if c then pure false else r) bytes ↔ ¬c ∧ Accepts r bytes := by
  by_cases hc : c
  · rw [if_pos hc, accepts_pure]
    simp [hc]
  · rw [if_neg hc]
    simp [hc]

/-- Bytes for `n` fields of `k` bytes are such fields. -/
theorem exists_fields {k n : ℕ} {bytes : List UInt8} (h : bytes.length = n * k) :
    ∃ fields : List (List UInt8), fields.length = n ∧ (∀ f ∈ fields, f.length = k) ∧ bytes = fields.flatten := by
  induction n generalizing bytes with
  | zero => exact ⟨[], rfl, fun f hf => absurd hf List.not_mem_nil, List.length_eq_zero_iff.mp (by omega)⟩
  | succ n ih =>
    rw [Nat.add_mul, Nat.one_mul] at h
    have hrest : (bytes.drop k).length = n * k := by
      rw [List.length_drop]
      omega
    obtain ⟨fields, hlen, hall, hflat⟩ := ih hrest
    refine ⟨bytes.take k :: fields, by rw [List.length_cons, hlen], ?_, ?_⟩
    · intro f hf
      rcases List.mem_cons.mp hf with rfl | hf
      · rw [List.length_take]
        omega
      · exact hall f hf
    · rw [List.flatten_cons, ← hflat, List.take_append_drop]

/-- Fields of one length are a multiple of it together. -/
theorem length_flatten_fields {k : ℕ} {fields : List (List UInt8)} (h : ∀ f ∈ fields, f.length = k) :
    fields.flatten.length = fields.length * k := by
  induction fields with
  | nil => exact (Nat.zero_mul k).symm
  | cons f fields ih =>
    rw [List.flatten_cons, List.length_append, h f List.mem_cons_self,
      ih fun g hg => h g (List.mem_cons_of_mem f hg), List.length_cons, Nat.add_mul, Nat.one_mul, Nat.add_comm]

end VlessCard.Wire
