/-
`mpool.c` of byedpi: a pool of keys, each of which stands for all that it begins.

Two rows of bits are the same to a pool where one of them begins the other, and two names where one ends the
other behind a dot. An element that is added drives out the longer ones that are the same to it, and stays out
where a shorter one is there. What the comparisons go by is an order of lists, taken from the first bit of a
row and from the last character of a name; a pool is in that order whatever has been added and deleted.
-/
import VlessCard.Kavl
import VlessCard.PrefixOrder

set_option autoImplicit false

namespace VlessCard.Mpool

open PrefixOrder

/-- `CMP_BYTES`, `CMP_BITS` and `CMP_HOST`. -/
inductive CmpType where
  | bytes
  | bits
  | host
  deriving DecidableEq, Repr

/-- What the comparisons read of a `struct elem`; `data` is what the pointer leads to. -/
structure Key where
  cmp_type : CmpType
  len : ℕ
  data : List UInt8
  deriving DecidableEq, Repr

/-- An element, and what `elem_i` has beside it. -/
structure Elem (β : Type) extends Key where
  rest : β
  deriving DecidableEq, Repr

/-! ## The comparisons

The three comparisons of the source, byte by byte. They go as far as the shorter of two rows, and
take a `char` with or without a sign, as the compiler has it. -/

/-- A `char`, which some compilers take as signed. -/
def char (signed : Bool) (c : UInt8) : ℤ := if signed ∧ 128 ≤ c.toNat then c.toNat - 256 else c.toNat

def memcmp (p q : List UInt8) : ℕ → Ordering
  | 0 => .eq
  | n + 1 =>
    match p, q with
    | a :: p, b :: q => if a < b then .lt else if b < a then .gt else memcmp p q n
    | _, _ => .eq

/-- `(uint8_t)(c >> n)`. -/
def shifted (signed : Bool) (c : UInt8) (n : ℕ) : ℤ := char signed c / 2 ^ n % 256

/-- `bit_cmp`. -/
def bitCmp (signed : Bool) (p q : Key) : Ordering :=
  let len := if q.len < p.len then q.len else p.len
  let df := len % 8
  let bytes := len / 8
  let cmp := memcmp p.data q.data bytes
  if cmp ≠ .eq ∨ df = 0 then cmp
  else
    let c1 := shifted signed (p.data.getD bytes 0) (8 - df)
    let c2 := shifted signed (q.data.getD bytes 0) (8 - df)
    if c1 ≠ c2 then if c1 < c2 then .lt else .gt else .eq

/-- `byte_cmp`. -/
def byteCmp (p q : Key) : Ordering :=
  if p.len ≠ q.len then if p.len < q.len then .lt else .gt else memcmp p.data q.data p.len

/-- The loop of `host_cmp`, with what is left in front of the two pointers; none where it runs to its end. -/
def hostLoop (signed : Bool) (p q : List UInt8) (pd qd : ℕ) : ℕ → Option Ordering
  | 0 => none
  | len + 1 =>
    let a := p.getD (pd - 1) 0
    let b := q.getD (qd - 1) 0
    if a ≠ b then some (if char signed a < char signed b then .lt else .gt)
    else hostLoop signed p q (pd - 1) (qd - 1) len

/-- `host_cmp`. -/
def hostCmp (signed : Bool) (p q : Key) : Ordering :=
  let len := if q.len < p.len then q.len else p.len
  match hostLoop signed p.data q.data p.len q.len len with
  | some cmp => cmp
  | none =>
    if p.len = q.len ∨ (if p.len > q.len then p.data.getD (p.len - len - 1) 0 else q.data.getD (q.len - len - 1) 0) = 46
    then .eq
    else if p.len > q.len then .gt else .lt

def scmp (signed : Bool) (p q : Key) : Ordering :=
  match p.cmp_type with
  | .bits => bitCmp signed p q
  | .host => hostCmp signed p q
  | .bytes => byteCmp p q

/-! ## The pool

A pool is a balanced tree with a comparison of its own kind. Adding takes out everything that the
new key begins, in a loop, and puts the key in. -/

/-- `struct mphdr`. -/
structure Mphdr (β : Type) where
  cmp_type : CmpType
  count : ℕ := 0
  root : Kavl.Tree (Elem β) := .nil
  deriving DecidableEq, Repr

variable {β : Type}

/-- `mem_pool`. -/
def memPool (cmp_type : CmpType) : Mphdr β := { cmp_type }

/-- The elements in their order. -/
def Mphdr.elems (hdr : Mphdr β) : List (Elem β) := hdr.root.toList

/-- `mem_get`. -/
def memGet (signed : Bool) (hdr : Mphdr β) (str : List UInt8) (len : ℕ) : Option (Elem β) :=
  Kavl.find (fun v => scmp signed ⟨hdr.cmp_type, len, str⟩ v.toKey) hdr.root

/-- `mem_delete`. -/
def memDelete (signed : Bool) (hdr : Mphdr β) (str : List UInt8) (len : ℕ) : Mphdr β :=
  match Kavl.erase (fun v => scmp signed ⟨hdr.cmp_type, len, str⟩ v.toKey) hdr.root with
  | none => hdr
  | some (_, root) => { hdr with root, count := hdr.count - 1 }

/-- The loop of `mem_add`. Each turn is to take an element out; one more turn than there are elements would go on
for ever. -/
def memAddLoop (signed : Bool) (e : Elem β) : ℕ → Mphdr β → Option (Elem β × Mphdr β)
  | 0, _ => none
  | turns + 1, hdr =>
    match Kavl.insert (fun v => scmp signed e.toKey v.toKey) e hdr.root with
    | .inr root => some (e, { hdr with root, count := hdr.count + 1 })
    | .inl v =>
      if e.len < v.len then memAddLoop signed e turns (memDelete signed hdr v.data v.len) else some (v, hdr)

/-- `mem_add`: the element that stands for `str` afterwards, and the pool. -/
def memAdd (signed : Bool) (hdr : Mphdr β) (str : List UInt8) (len : ℕ) (rest : β) : Option (Elem β × Mphdr β) :=
  memAddLoop signed { cmp_type := hdr.cmp_type, len, data := str, rest } (hdr.elems.length + 1) hdr

/-! ## The list that a key is

A key is a list: of bits, or of the characters of a name from its end. In terms of these lists
the three comparisons become one. -/

/-- The bits of a number below `2 ^ w`, the highest first. -/
def bitsOf : ℕ → ℕ → List ℤ
  | 0, _ => []
  | w + 1, n => (n / 2 ^ w : ℕ) :: bitsOf w (n % 2 ^ w)

/-- The first bits of a row, or the characters of a name from its last one on. -/
def Key.list (signed : Bool) (k : Key) : List ℤ :=
  match k.cmp_type with
  | .host => ((k.data.take k.len).map (char signed)).reverse
  | _ => (k.data.flatMap fun c => bitsOf 8 c.toNat).take k.len

/-- Where a key may end. -/
def Stop (t : CmpType) (c : ℤ) : Prop := t = .host → c = 46

instance (t : CmpType) : DecidablePred (Stop t) := fun c => inferInstanceAs (Decidable (t = .host → c = 46))

/-- The bytes reach as far as the length says. -/
def Key.Fits (k : Key) : Prop := if k.cmp_type = .host then k.len ≤ k.data.length else k.len ≤ 8 * k.data.length

instance (k : Key) : Decidable k.Fits := by
  unfold Key.Fits
  infer_instance

theorem length_bitsOf (w n : ℕ) : (bitsOf w n).length = w := by
  induction w generalizing n with
  | zero => rfl
  | succ w ih => rw [bitsOf, List.length_cons, ih]

theorem length_rowBits (data : List UInt8) : (data.flatMap fun c => bitsOf 8 c.toNat).length = 8 * data.length := by
  induction data with
  | nil => rfl
  | cons c data ih =>
    rw [List.flatMap_cons, List.length_append, length_bitsOf, ih, List.length_cons]
    omega

/-- A key that fits is a list of as many elements as its length says. -/
theorem Key.Fits.length_list {k : Key} (h : k.Fits) (signed : Bool) : (k.list signed).length = k.len := by
  unfold Fits at h
  unfold list
  cases htype : k.cmp_type with
  | host =>
    rw [htype, if_pos rfl] at h
    simp only [List.length_reverse, List.length_map, List.length_take]
    omega
  | bits | bytes =>
    rw [htype, if_neg (by decide)] at h
    simp only [List.length_take, length_rowBits]
    omega

/-! ## Bits

A comparison of bytes is one of their bits, and one of the first bits is one of quotients. So a
row of bits can be compared in whole bytes and a rest. -/

section Bits

variable {stop : ℤ → Prop} [DecidablePred stop]

/-- Numbers of one width compare as their bits do. -/
theorem order_bitsOf (w : ℕ) {m n : ℕ} (hm : m < 2 ^ w) (hn : n < 2 ^ w) :
    order stop (bitsOf w m) (bitsOf w n) = compare m n := by
  induction w generalizing m n with
  | zero =>
    obtain rfl : m = 0 := by omega
    obtain rfl : n = 0 := by omega
    rfl
  | succ w ih =>
    have hpos : 0 < 2 ^ w := by positivity
    have hmdiv := Nat.div_add_mod m (2 ^ w)
    have hndiv := Nat.div_add_mod n (2 ^ w)
    have hmmod := Nat.mod_lt m hpos
    have hnmod := Nat.mod_lt n hpos
    simp only [bitsOf, order, Nat.cast_lt]
    obtain hlt | heq | hgt := lt_trichotomy (m / 2 ^ w) (n / 2 ^ w)
    · rw [if_pos hlt, eq_comm, compare_lt_iff_lt]
      exact lt_of_not_ge fun hge => absurd (Nat.div_le_div_right hge) hlt.not_ge
    · rw [heq, if_neg (lt_irrefl _), if_neg (lt_irrefl _), ih hmmod hnmod]
      rw [heq] at hmdiv
      obtain hlt | hsame | hgt := lt_trichotomy (m % 2 ^ w) (n % 2 ^ w)
      · rw [compare_lt_iff_lt.2 hlt, compare_lt_iff_lt.2 (by omega)]
      · rw [hsame, show m = n by omega, compare_eq_iff_eq.2 rfl, compare_eq_iff_eq.2 rfl]
      · rw [compare_gt_iff_gt.2 hgt, compare_gt_iff_gt.2 (show n < m by omega)]
    · rw [if_neg hgt.asymm, if_pos hgt, eq_comm, compare_gt_iff_gt]
      exact lt_of_not_ge fun hge => absurd (Nat.div_le_div_right hge) hgt.not_ge

/-- The first bits of a number are those of its quotient. -/
theorem take_bitsOf (w k n : ℕ) : (bitsOf (w + k) n).take w = bitsOf w (n / 2 ^ k) := by
  induction w generalizing n with
  | zero => rfl
  | succ w ih =>
    have hpow : 2 ^ (w + k) = 2 ^ k * 2 ^ w := by rw [← pow_add, Nat.add_comm]
    rw [show w + 1 + k = w + k + 1 by omega, bitsOf, List.take_succ_cons, ih, bitsOf, Nat.div_div_eq_div_mul, hpow,
      Nat.mod_mul_right_div_self]

/-- Rows of one length compare by their bits as `memcmp` has it. -/
theorem order_rowBits {p q : List UInt8} (hlen : p.length = q.length) :
    order stop (p.flatMap fun c => bitsOf 8 c.toNat) (q.flatMap fun c => bitsOf 8 c.toNat) = memcmp p q p.length := by
  induction p generalizing q with
  | nil =>
    obtain rfl := List.eq_nil_of_length_eq_zero hlen.symm
    rfl
  | cons a p ih =>
    cases q with
    | nil => cases hlen
    | cons b q =>
      rw [List.flatMap_cons, List.flatMap_cons, order_append (by rw [length_bitsOf, length_bitsOf]),
        order_bitsOf 8 a.toNat_lt b.toNat_lt, ih (Nat.succ_inj.1 hlen), List.length_cons, memcmp]
      simp only [UInt8.lt_iff_toNat_lt]
      obtain hlt | heq | hgt := lt_trichotomy a.toNat b.toNat
      · rw [if_pos hlt, compare_lt_iff_lt.2 hlt]
        rfl
      · rw [heq, if_neg (lt_irrefl _), if_neg (lt_irrefl _), compare_eq_iff_eq.2 rfl]
        rfl
      · rw [if_neg hgt.asymm, if_pos hgt, compare_gt_iff_gt.2 hgt]
        rfl

/-- `memcmp` looks no further than it is told. -/
theorem memcmp_take (p q : List UInt8) (n : ℕ) : memcmp (p.take n) (q.take n) n = memcmp p q n := by
  induction n generalizing p q with
  | zero => rw [memcmp, memcmp]
  | succ n ih =>
    cases p with
    | nil => rw [List.take_nil, memcmp, memcmp] <;> simp
    | cons a p =>
      cases q with
      | nil => rw [List.take_nil, memcmp, memcmp] <;> simp
      | cons b q => simp only [List.take_succ_cons, memcmp, ih]

/-- The shifted bytes compare by their first bits, whatever the sign of `char`. -/
theorem shifted_lt (signed : Bool) (a b : UInt8) {n : ℕ} (hpos : 0 < n) (hn : n < 8) :
    shifted signed a n < shifted signed b n ↔ a.toNat / 2 ^ n < b.toNat / 2 ^ n := by
  have ha := a.toNat_lt
  have hb := b.toNat_lt
  unfold shifted char
  cases signed
  · simp only [Bool.false_eq_true, false_and, if_false]
    interval_cases n <;> omega
  · simp only [true_and]
    interval_cases n <;> split_ifs <;> omega

/-- Whether a `char` has a sign or not, what the shift leaves of it is in the order of its highest bits. -/
theorem compare_shifted (signed : Bool) (a b : UInt8) {n : ℕ} (hpos : 0 < n) (hn : n < 8) :
    (if shifted signed a n ≠ shifted signed b n then
      if shifted signed a n < shifted signed b n then Ordering.lt else Ordering.gt else Ordering.eq)
      = compare (a.toNat / 2 ^ n) (b.toNat / 2 ^ n) := by
  have hlt := shifted_lt signed a b hpos hn
  have hgt := shifted_lt signed b a hpos hn
  obtain h | h | h := lt_trichotomy (a.toNat / 2 ^ n) (b.toNat / 2 ^ n)
  · rw [if_pos (hlt.2 h).ne, if_pos (hlt.2 h), compare_lt_iff_lt.2 h]
  · have hsame : shifted signed a n = shifted signed b n := by
      rw [h] at hlt hgt
      exact le_antisymm (not_lt.1 (hgt.not.2 (lt_irrefl _))) (not_lt.1 (hlt.not.2 (lt_irrefl _)))
    rw [if_neg (not_not.2 hsame), compare_eq_iff_eq.2 h]
  · rw [if_pos (hgt.2 h).ne', if_neg (hgt.2 h).asymm, compare_gt_iff_gt.2 h]

/-- The first bits of a row: whole bytes, and some bits of the next. -/
theorem take_rowBits (data : List UInt8) {bytes : ℕ} (df : ℕ) (h : bytes ≤ data.length) :
    (data.flatMap fun c => bitsOf 8 c.toNat).take (8 * bytes + df)
      = (data.take bytes).flatMap (fun c => bitsOf 8 c.toNat)
        ++ ((data.drop bytes).flatMap fun c => bitsOf 8 c.toNat).take df := by
  have hlen : ((data.take bytes).flatMap fun c => bitsOf 8 c.toNat).length = 8 * bytes := by
    rw [length_rowBits, List.length_take, Nat.min_eq_left h]
  conv_lhs => rw [← List.take_append_drop bytes data, List.flatMap_append, ← hlen, List.take_length_add_append]

theorem take_byteBits (data : List UInt8) {bytes df : ℕ} (h : bytes < data.length) (hdf : df < 8) :
    ((data.drop bytes).flatMap fun c => bitsOf 8 c.toNat).take df
      = bitsOf df ((data.getD bytes 0).toNat / 2 ^ (8 - df)) := by
  have htake := take_bitsOf df (8 - df) (data.getD bytes 0).toNat
  rw [show df + (8 - df) = 8 by omega] at htake
  rw [List.drop_eq_getElem_cons h, List.flatMap_cons, List.take_append_of_le_length (by rw [length_bitsOf]; omega),
    ← htake, List.getD_eq_getElem _ _ h]

/-- `bit_cmp` compares the rows of bits, up to the end of the shorter one. -/
theorem bitCmp_eq (hstop : ∀ c, stop c) (signed : Bool) {p q : Key} (hptype : p.cmp_type ≠ .host)
    (hqtype : q.cmp_type ≠ .host) (hp : min p.len q.len ≤ 8 * p.data.length)
    (hq : min p.len q.len ≤ 8 * q.data.length) :
    bitCmp signed p q = order stop (p.list signed) (q.list signed) := by
  -- both keys as rows of bits
  have hplist : p.list signed = (p.data.flatMap fun c => bitsOf 8 c.toNat).take p.len := by
    unfold Key.list
    split
    · contradiction
    · rfl
  have hqlist : q.list signed = (q.data.flatMap fun c => bitsOf 8 c.toNat).take q.len := by
    unfold Key.list
    split
    · contradiction
    · rfl
  have hmin : (if q.len < p.len then q.len else p.len) = min p.len q.len := by
    split <;> omega
  have hparts := Nat.div_add_mod (min p.len q.len) 8
  set bytes := min p.len q.len / 8
  set df := min p.len q.len % 8 with hdf
  -- first whole bytes are compared, then the bits that are left
  have hbytes : (p.data.take bytes).length = (q.data.take bytes).length := by
    rw [List.length_take, List.length_take, Nat.min_eq_left (by omega), Nat.min_eq_left (by omega)]
  have hwhole : order stop ((p.data.take bytes).flatMap fun c => bitsOf 8 c.toNat)
      ((q.data.take bytes).flatMap fun c => bitsOf 8 c.toNat) = memcmp p.data q.data bytes := by
    rw [order_rowBits hbytes, List.length_take, Nat.min_eq_left (by omega), memcmp_take]
  rw [hplist, hqlist, ← order_take hstop (n := min p.len q.len) _ _ (by simp only [List.length_take]; omega),
    List.take_take, List.take_take, show min (min p.len q.len) p.len = min p.len q.len by omega,
    show min (min p.len q.len) q.len = min p.len q.len by omega, ← hparts,
    take_rowBits p.data df (by omega), take_rowBits q.data df (by omega),
    order_append (by rw [length_rowBits, length_rowBits, hbytes]), hwhole]
  unfold bitCmp
  simp only [hmin]
  change (if memcmp p.data q.data bytes ≠ .eq ∨ df = 0 then _ else _) = _
  -- the bytes decide, unless they are equal
  cases hcmp : memcmp p.data q.data bytes with
  | lt => rfl
  | gt => rfl
  | eq =>
    by_cases hzero : df = 0
    · rw [if_pos (.inr hzero), hzero, List.take_zero, List.take_zero]
      rfl
    · have hpos : 0 < 8 - df := by omega
      have hcount : 8 - df < 8 := by omega
      rw [if_neg (by simp [hzero]), take_byteBits p.data (by omega) (by omega),
        take_byteBits q.data (by omega) (by omega), order_bitsOf df]
      · exact compare_shifted signed _ _ hpos hcount
      · rw [Nat.div_lt_iff_lt_mul (by positivity), ← pow_add, show df + (8 - df) = 8 by omega]
        exact UInt8.toNat_lt _
      · rw [Nat.div_lt_iff_lt_mul (by positivity), ← pow_add, show df + (8 - df) = 8 by omega]
        exact UInt8.toNat_lt _

end Bits

/-! ## Names

Names are compared backwards, and where one is used up the other has to go on with a dot to be
taken as longer. The loop is followed from the ends of both names. -/

/-- Reading a byte with a sign or without loses nothing. -/
theorem char_injective (signed : Bool) : Function.Injective (char signed) := by
  intro a b h
  have ha := a.toNat_lt
  have hb := b.toNat_lt
  refine UInt8.toNat_inj.1 ?_
  unfold char at h
  split_ifs at h <;> omega

/-- One more byte of a name comes first in the order. -/
theorem reverse_take_succ (signed : Bool) (data : List UInt8) {n : ℕ} (h : n < data.length) :
    ((data.take (n + 1)).map (char signed)).reverse
      = char signed (data.getD n 0) :: ((data.take n).map (char signed)).reverse := by
  rw [List.take_succ_eq_append_getElem h, List.map_append, List.reverse_append, List.getD_eq_getElem _ _ h]
  rfl

/-- The loop walks back from the two ends; where it runs to its end the shorter name is the end of the longer. -/
theorem hostLoop_spec (signed : Bool) (stop : ℤ → Prop) [DecidablePred stop] (p q : List UInt8) {pd qd n : ℕ}
    (hp : pd ≤ p.length) (hq : qd ≤ q.length) (hn : n = min pd qd) :
    match hostLoop signed p q pd qd n with
    | some cmp => order stop ((p.take pd).map (char signed)).reverse ((q.take qd).map (char signed)).reverse = cmp
    | none => order stop ((p.take pd).map (char signed)).reverse ((q.take qd).map (char signed)).reverse
        = order stop ((p.take (pd - n)).map (char signed)).reverse ((q.take (qd - n)).map (char signed)).reverse := by
  induction n generalizing pd qd with
  | zero => rfl
  | succ n ih =>
    obtain ⟨pd, rfl⟩ : ∃ pd', pd = pd' + 1 := ⟨pd - 1, by omega⟩
    obtain ⟨qd, rfl⟩ : ∃ qd', qd = qd' + 1 := ⟨qd - 1, by omega⟩
    rw [reverse_take_succ signed p (by omega), reverse_take_succ signed q (by omega)]
    simp only [hostLoop, Nat.add_sub_cancel, order]
    by_cases hne : p.getD pd 0 ≠ q.getD qd 0
    · rw [if_pos hne]
      have hchar : char signed (p.getD pd 0) ≠ char signed (q.getD qd 0) := fun h => hne (char_injective signed h)
      rcases lt_or_gt_of_ne hchar with hlt | hgt
      · rw [if_pos hlt, if_pos hlt]
      · rw [if_neg hgt.asymm, if_pos hgt, if_neg hgt.asymm]
    · have heq := not_not.1 hne
      rw [if_neg hne, heq, if_neg (lt_irrefl _), if_neg (lt_irrefl _), Nat.add_sub_add_right, Nat.add_sub_add_right]
      exact ih (by omega) (by omega) (by omega)

/-- `host_cmp` compares the names from their last characters on; a name ends before a dot. -/
theorem hostCmp_eq (signed : Bool) {p q : Key} (hptype : p.cmp_type = .host) (hqtype : q.cmp_type = .host)
    (hp : p.len ≤ p.data.length) (hq : q.len ≤ q.data.length) :
    hostCmp signed p q = order (Stop .host) (p.list signed) (q.list signed) := by
  -- both keys as names from their end
  have hplist : p.list signed = ((p.data.take p.len).map (char signed)).reverse := by rw [Key.list, hptype]
  have hqlist : q.list signed = ((q.data.take q.len).map (char signed)).reverse := by rw [Key.list, hqtype]
  have hmin : (if q.len < p.len then q.len else p.len) = min p.len q.len := by
    split <;> omega
  have hloop := hostLoop_spec signed (Stop .host) p.data q.data hp hq (n := min p.len q.len) rfl
  have hdot : ∀ c : UInt8, Stop .host (char signed c) ↔ c = 46 := by
    intro c
    rw [show Stop .host (char signed c) ↔ char signed c = char signed 46 by cases signed <;> simp [Stop, char]]
    exact (char_injective signed).eq_iff
  rw [hplist, hqlist]
  unfold hostCmp
  simp only [hmin]
  -- a sign decides, or one name ends
  cases hrun : hostLoop signed p.data q.data p.len q.len (min p.len q.len) with
  | some cmp =>
    rw [hrun] at hloop
    exact hloop.symm
  | none =>
    rw [hrun] at hloop
    refine Eq.trans ?_ hloop.symm
    obtain hlt | heq | hgt := lt_trichotomy p.len q.len
    -- the shorter name covers the longer one just where this goes on with a dot
    · rw [Nat.min_eq_left hlt.le, Nat.sub_self, List.take_zero]
      obtain ⟨n, hn⟩ : ∃ n, q.len - p.len = n + 1 := ⟨q.len - p.len - 1, by omega⟩
      rw [hn, reverse_take_succ signed q.data (by omega)]
      simp only [hlt.ne, hlt.not_gt, false_or, if_false, Nat.add_sub_cancel, List.map_nil, List.reverse_nil, order, hdot]
    · rw [heq, Nat.min_self, Nat.sub_self]
      simp [order]
    · rw [Nat.min_eq_right hgt.le, Nat.sub_self, List.take_zero]
      obtain ⟨n, hn⟩ : ∃ n, p.len - q.len = n + 1 := ⟨p.len - q.len - 1, by omega⟩
      rw [hn, reverse_take_succ signed p.data (by omega)]
      simp only [hgt.ne', gt_iff_lt, hgt, false_or, if_true, Nat.add_sub_cancel, List.map_nil, List.reverse_nil, order,
        hdot]

/-! ## What a pool keeps

A sound pool is ordered by the lists of its keys. What a search finds or misses in it follows
from the gap that it ends in, by the lemmas of the prefix order. -/

def Mphdr.keys (signed : Bool) (hdr : Mphdr β) : List (List ℤ) := hdr.elems.map fun v => v.toKey.list signed

/-- The elements are of the kind of the pool, and in the order of the lists that they are. -/
structure Sound (signed : Bool) (hdr : Mphdr β) : Prop where
  prefixes : hdr.cmp_type ≠ .bytes
  kind : ∀ v ∈ hdr.elems, v.cmp_type = hdr.cmp_type
  fits : ∀ v ∈ hdr.elems, v.toKey.Fits
  sorted : (hdr.keys signed).Pairwise (· < ·)
  count : hdr.count = hdr.elems.length

theorem memPool_sound (signed : Bool) {t : CmpType} (h : t ≠ .bytes) : Sound signed (memPool t : Mphdr β) :=
  ⟨h, fun _ hv => absurd hv List.not_mem_nil, fun _ hv => absurd hv List.not_mem_nil, List.Pairwise.nil, rfl⟩

/-- **The comparison is the prefix order** on bits or on signs. -/
theorem scmp_eq (signed : Bool) {p q : Key} (hne : p.cmp_type ≠ .bytes) (hsame : q.cmp_type = p.cmp_type) (hp : p.Fits)
    (hq : q.Fits) : scmp signed p q = order (Stop p.cmp_type) (p.list signed) (q.list signed) := by
  unfold Key.Fits at hp hq
  unfold scmp
  cases htype : p.cmp_type with
  | bytes => exact absurd htype hne
  | bits =>
    rw [htype, if_neg (by decide)] at hp
    rw [hsame, htype, if_neg (by decide)] at hq
    refine bitCmp_eq (fun c hc => absurd hc (by decide)) signed ?_ ?_ (by omega) (by omega)
    · rw [htype]; decide
    · rw [hsame, htype]; decide
  | host =>
    rw [htype, if_pos rfl] at hp
    rw [hsame, htype, if_pos rfl] at hq
    exact hostCmp_eq signed htype (hsame.trans htype) hp hq

section Search

variable {signed : Bool} {hdr : Mphdr β} {k : Key}

theorem Sound.scmp (h : Sound signed hdr) (hk : k.cmp_type = hdr.cmp_type) (hfits : k.Fits) {v : Elem β}
    (hv : v ∈ hdr.elems) :
    Mpool.scmp signed k v.toKey = order (Stop hdr.cmp_type) (k.list signed) (v.toKey.list signed) := by
  rw [scmp_eq signed (by rw [hk]; exact h.prefixes) ((h.kind v hv).trans hk.symm) hfits (h.fits v hv), hk]

/-- The gap that a search ends in, seen from the lists. -/
theorem Sound.gap (h : Sound signed hdr) (hk : k.cmp_type = hdr.cmp_type) (hfits : k.Fits) {lower upper : List (Elem β)}
    (hlist : hdr.elems = lower ++ upper) (hgap : Kavl.Gap (fun v => Mpool.scmp signed k v.toKey) lower upper) :
    (∀ q ∈ (lower.map fun v => v.toKey.list signed).getLast?, order (Stop hdr.cmp_type) (k.list signed) q = .gt)
      ∧ ∀ q ∈ (upper.map fun v => v.toKey.list signed).head?, order (Stop hdr.cmp_type) (k.list signed) q = .lt := by
  constructor
  · intro q hq
    rw [List.getLast?_map] at hq
    obtain ⟨v, hv, rfl⟩ := Option.mem_map.1 hq
    rw [← h.scmp hk hfits (by rw [hlist]; exact List.mem_append_left _ (List.mem_of_getLast? hv))]
    exact hgap.1 v hv
  · intro q hq
    rw [List.head?_map] at hq
    obtain ⟨v, hv, rfl⟩ := Option.mem_map.1 hq
    rw [← h.scmp hk hfits (by rw [hlist]; exact List.mem_append_right _ (List.mem_of_mem_head? hv))]
    exact hgap.2 v hv

/-- Where a search finds nothing, its key falls between two neighbours of the pool. -/
theorem Sound.gap_of_none (h : Sound signed hdr) (hk : k.cmp_type = hdr.cmp_type) (hfits : k.Fits)
    (hfind : Kavl.find (fun v => Mpool.scmp signed k v.toKey) hdr.root = none) :
    ∃ lower upper, hdr.keys signed = lower ++ upper ∧
      (∀ q ∈ lower.getLast?, order (Stop hdr.cmp_type) (k.list signed) q = .gt) ∧
      ∀ q ∈ upper.head?, order (Stop hdr.cmp_type) (k.list signed) q = .lt := by
  obtain ⟨w, _, _, hw, -⟩ | ⟨-, lower, upper, hlist, hgap⟩ := Kavl.find_spec (fun v => Mpool.scmp signed k v.toKey) hdr.root
  · rw [hw] at hfind
    cases hfind
  · refine ⟨lower.map fun v => v.toKey.list signed, upper.map fun v => v.toKey.list signed, ?_, h.gap hk hfits hlist hgap⟩
    rw [Mphdr.keys, Mphdr.elems, hlist, List.map_append]

/-- What is found is the same to the pool as what was looked for. -/
theorem Sound.found (h : Sound signed hdr) (hk : k.cmp_type = hdr.cmp_type) (hfits : k.Fits) {v : Elem β}
    (hfind : Kavl.find (fun v => Mpool.scmp signed k v.toKey) hdr.root = some v) :
    v ∈ hdr.elems ∧ order (Stop hdr.cmp_type) (k.list signed) (v.toKey.list signed) = .eq := by
  obtain ⟨hv, heq⟩ := Kavl.mem_of_find hfind
  exact ⟨hv, (h.scmp hk hfits hv).symm.trans heq⟩

/-- Nothing that covers it is missed, where no key goes on below a stop. -/
theorem Sound.not_covers (h : Sound signed hdr) (hk : k.cmp_type = hdr.cmp_type) (hfits : k.Fits)
    (hapart : Apart (Stop hdr.cmp_type) (hdr.keys signed)) (hclear : Clear (Stop hdr.cmp_type) (hdr.keys signed))
    (hfind : Kavl.find (fun v => Mpool.scmp signed k v.toKey) hdr.root = none) {v : Elem β} (hv : v ∈ hdr.elems) :
    ¬ Covers (Stop hdr.cmp_type) (v.toKey.list signed) (k.list signed) := by
  obtain ⟨lower, upper, hkeys, hlower, hupper⟩ := h.gap_of_none hk hfits hfind
  have hmem : v.toKey.list signed ∈ hdr.keys signed := List.mem_map_of_mem hv
  rw [hkeys] at hapart hclear hmem
  exact not_covers_gap (hkeys ▸ h.sorted) hlower hupper hapart hclear hmem

/-- Nothing that it covers is missed either. -/
theorem Sound.not_covered (h : Sound signed hdr) (hk : k.cmp_type = hdr.cmp_type) (hfits : k.Fits)
    (hclear : Clear (Stop hdr.cmp_type) (k.list signed :: hdr.keys signed))
    (hfind : Kavl.find (fun v => Mpool.scmp signed k v.toKey) hdr.root = none) {v : Elem β} (hv : v ∈ hdr.elems) :
    ¬ Covers (Stop hdr.cmp_type) (k.list signed) (v.toKey.list signed) := by
  obtain ⟨lower, upper, hkeys, hlower, hupper⟩ := h.gap_of_none hk hfits hfind
  have hmem : v.toKey.list signed ∈ hdr.keys signed := List.mem_map_of_mem hv
  rw [hkeys] at hclear hmem
  exact not_covered_gap (hkeys ▸ h.sorted) hlower hupper hclear hmem

/-- An element that the key covers, if it is found by the key, is found by its own key: what comes before it on the
way down has not covered the key either. -/
theorem Sound.find_own (h : Sound signed hdr) (hk : k.cmp_type = hdr.cmp_type) (hfits : k.Fits) {v : Elem β}
    (hfind : Kavl.find (fun v => Mpool.scmp signed k v.toKey) hdr.root = some v)
    (hcovers : Covers (Stop hdr.cmp_type) (k.list signed) (v.toKey.list signed)) :
    Kavl.find (fun w => Mpool.scmp signed v.toKey w.toKey) hdr.root = some v := by
  have hv := (h.found hk hfits hfind).1
  have hown : ∀ w ∈ hdr.elems, Mpool.scmp signed v.toKey w.toKey
      = order (Stop hdr.cmp_type) (v.toKey.list signed) (w.toKey.list signed) := fun w hw =>
    h.scmp (h.kind v hv) (h.fits v hv) hw
  refine Kavl.find_follow (List.pairwise_map.1 h.sorted) hfind ?_ ?_ ((hown v hv).trans (order_self _))
  · intro w hw hlt horder
    rw [h.scmp hk hfits hw] at horder
    rw [hown w hw]
    refine order_of_lt (fun heq => ?_) hlt
    -- if the element covered `w` then so would the key
    rcases (order_eq_iff _ _).1 heq with hc | hc
    · rw [(order_eq_iff _ _).2 (.inl (hcovers.trans hc))] at horder
      cases horder
    · exact absurd hc.le hlt.not_ge
  · intro w hw hgt horder
    rw [h.scmp hk hfits hw] at horder
    rw [hown w hw, order_swap, order_of_lt _ hgt]
    · rfl
    · intro heq
      rcases (order_eq_iff _ _).1 heq with hc | hc
      · rw [order_swap, order_eq_of_covers hc hcovers] at horder
        cases horder
      · exact absurd hc.le hgt.not_ge

end Search

section Add

variable {signed : Bool} {hdr : Mphdr β} {e : Elem β}

/-- What else the elements have does not matter. -/
theorem Sound.congr (h : Sound signed hdr) {hdr' : Mphdr β} (htype : hdr'.cmp_type = hdr.cmp_type)
    (hcount : hdr'.count = hdr.count)
    (hkeys : hdr'.elems.map (fun v => v.toKey) = hdr.elems.map fun v => v.toKey) : Sound signed hdr' := by
  have hsame : ∀ v ∈ hdr'.elems, ∃ u ∈ hdr.elems, u.toKey = v.toKey := by
    intro v hv
    have hmem : v.toKey ∈ hdr'.elems.map fun v => v.toKey := List.mem_map_of_mem hv
    rw [hkeys] at hmem
    exact List.mem_map.1 hmem
  have hlists : hdr'.keys signed = hdr.keys signed := by
    have hmap := congrArg (List.map (Key.list signed)) hkeys
    rwa [List.map_map, List.map_map] at hmap
  refine ⟨htype ▸ h.prefixes, ?_, ?_, hlists ▸ h.sorted, ?_⟩
  · intro v hv
    obtain ⟨u, hu, huv⟩ := hsame v hv
    rw [← huv, htype]
    exact h.kind u hu
  · intro v hv
    obtain ⟨u, hu, huv⟩ := hsame v hv
    rw [← huv]
    exact h.fits u hu
  · have hlen := congrArg List.length hkeys
    rw [List.length_map, List.length_map] at hlen
    rw [hcount, h.count, hlen]

theorem Sound.sublist (h : Sound signed hdr) {root : Kavl.Tree (Elem β)} (hsub : root.toList.Sublist hdr.elems) :
    Sound signed { hdr with root, count := root.toList.length } :=
  ⟨h.prefixes, fun v hv => h.kind v (hsub.subset hv), fun v hv => h.fits v (hsub.subset hv), h.sorted.sublist (hsub.map _),
    rfl⟩

/-- Whatever `mem_delete` is called with, it takes out what is found by it, and that is one element at most. -/
theorem Sound.memDelete_cases (h : Sound signed hdr) (str : List UInt8) (len : ℕ) :
    Sound signed (memDelete signed hdr str len) ∧ (memDelete signed hdr str len).cmp_type = hdr.cmp_type
      ∧ match memGet signed hdr str len with
        | none => memDelete signed hdr str len = hdr
        | some v => ∃ lower upper, hdr.elems = lower ++ v :: upper ∧ (memDelete signed hdr str len).elems = lower ++ upper := by
  unfold memDelete memGet
  obtain ⟨v, root, lower, upper, herase, hfind, hlist, hroot⟩ | ⟨herase, hfind⟩ :=
    Kavl.erase_spec (fun v => Mpool.scmp signed ⟨hdr.cmp_type, len, str⟩ v.toKey) hdr.root
  · rw [herase, hfind]
    have hsub : root.toList.Sublist hdr.elems := by
      rw [hroot, Mphdr.elems, hlist]
      exact List.Sublist.append_left (List.sublist_cons_self v upper) lower
    have hcount : hdr.count - 1 = root.toList.length := by
      rw [h.count, Mphdr.elems, hlist, hroot]
      simp
    refine ⟨?_, rfl, lower, upper, hlist, hroot⟩
    simp only [hcount]
    exact h.sublist hsub
  · rw [herase, hfind]
    exact ⟨h, rfl, rfl⟩

/-- Taking out an element that was found and that the key covers takes out this element and no other. -/
theorem Sound.memDelete_found (h : Sound signed hdr) (he : e.cmp_type = hdr.cmp_type) (hfits : e.toKey.Fits) {v : Elem β}
    (hfind : Kavl.find (fun v => Mpool.scmp signed e.toKey v.toKey) hdr.root = some v)
    (hcovers : Covers (Stop hdr.cmp_type) (e.toKey.list signed) (v.toKey.list signed)) :
    ∃ lower upper, hdr.elems = lower ++ v :: upper ∧ (memDelete signed hdr v.data v.len).elems = lower ++ upper := by
  have hv := (h.found he hfits hfind).1
  have hkey : (⟨hdr.cmp_type, v.len, v.data⟩ : Key) = v.toKey := by rw [← h.kind v hv]
  have hget : memGet signed hdr v.data v.len = some v := by
    rw [memGet, hkey]
    exact h.find_own he hfits hfind hcovers
  have hcases := (h.memDelete_cases v.data v.len).2.2
  rwa [hget] at hcases

/-- What there is afterwards, when `e` has been added and `v` stands for it. -/
structure Added (signed : Bool) (hdr : Mphdr β) (e v : Elem β) (hdr' : Mphdr β) : Prop where
  sound : Sound signed hdr'
  same : hdr'.cmp_type = hdr.cmp_type
  mem : v ∈ hdr'.elems
  covers : Covers (Stop hdr.cmp_type) (v.toKey.list signed) (e.toKey.list signed)
  new : ∀ u ∈ hdr'.elems, u = e ∨ u ∈ hdr.elems
  old : ∀ u ∈ hdr.elems, u ∈ hdr'.elems ∨ Covers (Stop hdr.cmp_type) (e.toKey.list signed) (u.toKey.list signed)
  apart : Apart (Stop hdr.cmp_type) (hdr.keys signed) →
    Clear (Stop hdr.cmp_type) (e.toKey.list signed :: hdr.keys signed) → Apart (Stop hdr.cmp_type) (hdr'.keys signed)

/-- `kavl_insert` where nothing is the same to the pool. -/
theorem Sound.insert_gap (h : Sound signed hdr) (he : e.cmp_type = hdr.cmp_type) (hfits : e.toKey.Fits)
    {root : Kavl.Tree (Elem β)} (hins : Kavl.insert (fun v => Mpool.scmp signed e.toKey v.toKey) e hdr.root = .inr root) :
    Added signed hdr e e { hdr with root, count := hdr.count + 1 } := by
  obtain ⟨v, hsome, -⟩ | ⟨root', lower, upper, hsome, hnone, hlist, hroot, hgap⟩ :=
    Kavl.insert_spec (fun v => Mpool.scmp signed e.toKey v.toKey) e hdr.root
  · rw [hsome] at hins
    cases hins
  · obtain rfl := Sum.inr.inj (hsome.symm.trans hins)
    obtain ⟨hlower, hupper⟩ := h.gap he hfits hlist hgap
    -- the pool has the new element, and what it had
    have hmem : ∀ u, u ∈ root'.toList ↔ u = e ∨ u ∈ hdr.elems := by
      intro u
      rw [hroot, Mphdr.elems, hlist]
      simp only [List.mem_append, List.mem_cons]
      tauto
    have hsorted := h.sorted
    rw [Mphdr.keys, Mphdr.elems, hlist, List.map_append] at hsorted
    refine ⟨⟨h.prefixes, ?_, ?_, ?_, ?_⟩, rfl, (hmem e).2 (.inl rfl), Covers.refl _, fun u => (hmem u).1,
      fun u hu => .inl ((hmem u).2 (.inr hu)), ?_⟩
    · rintro u hu
      rcases (hmem u).1 hu with rfl | hu
      · exact he
      · exact h.kind u hu
    · rintro u hu
      rcases (hmem u).1 hu with rfl | hu
      · exact hfits
      · exact h.fits u hu
    · rw [Mphdr.keys, Mphdr.elems, hroot, List.map_append, List.map_cons]
      exact pairwise_insert hsorted hlower hupper
    · rw [Mphdr.elems, hroot, h.count, Mphdr.elems, hlist]
      simp only [List.length_append, List.length_cons]
      omega
    · -- Between the new key and an old one neither covers the other, as the search has found nothing.
      intro hapart hclear p hp q hq horder
      have hold : ∀ w ∈ hdr.elems, ¬ Covers (Stop hdr.cmp_type) (w.toKey.list signed) (e.toKey.list signed) :=
        fun w hw => h.not_covers he hfits hapart (hclear.mono (List.subset_cons_self ..)) hnone hw
      have hnew : ∀ w ∈ hdr.elems, ¬ Covers (Stop hdr.cmp_type) (e.toKey.list signed) (w.toKey.list signed) :=
        fun w hw => h.not_covered he hfits hclear hnone hw
      obtain ⟨u, hu, rfl⟩ := List.mem_map.1 hp
      obtain ⟨w, hw, rfl⟩ := List.mem_map.1 hq
      rcases (hmem u).1 hu with rfl | hu <;> rcases (hmem w).1 hw with rfl | hw
      · rfl
      · rcases (order_eq_iff _ _).1 horder with hc | hc
        · exact absurd hc (hnew w hw)
        · exact absurd hc (hold w hw)
      · rcases (order_eq_iff _ _).1 horder with hc | hc
        · exact absurd hc (hold u hu)
        · exact absurd hc (hnew u hu)
      · exact hapart _ (List.mem_map_of_mem hu) _ (List.mem_map_of_mem hw) horder

/-- The loop ends, as each turn but the last takes an element out. -/
theorem memAddLoop_spec (he : e.cmp_type = hdr.cmp_type) (hfits : e.toKey.Fits) (turns : ℕ) (h : Sound signed hdr)
    (hturns : hdr.elems.length < turns) :
    ∃ v hdr', memAddLoop signed e turns hdr = some (v, hdr') ∧ Added signed hdr e v hdr' := by
  induction turns generalizing hdr with
  | zero => omega
  | succ turns ih =>
    rw [memAddLoop]
    cases hins : Kavl.insert (fun v => Mpool.scmp signed e.toKey v.toKey) e hdr.root with
    | inr root => exact ⟨_, _, rfl, h.insert_gap he hfits hins⟩
    | inl v =>
      have hfind : Kavl.find (fun v => Mpool.scmp signed e.toKey v.toKey) hdr.root = some v := by
        obtain ⟨w, hw, hfind⟩ | ⟨root, _, _, hroot, -⟩ :=
          Kavl.insert_spec (fun v => Mpool.scmp signed e.toKey v.toKey) e hdr.root
        · rw [hfind, Sum.inl.inj (hw.symm.trans hins)]
        · rw [hroot] at hins
          cases hins
      obtain ⟨hv, horder⟩ := h.found he hfits hfind
      have hvlen := (h.fits v hv).length_list signed
      have helen := hfits.length_list signed
      change ∃ v' hdr', (if e.len < v.len then _ else _) = some (v', hdr') ∧ _
      -- a longer one goes, and the search begins again; one that is not longer keeps the new one out
      by_cases hlen : e.len < v.len
      · have hcovers : Covers (Stop hdr.cmp_type) (e.toKey.list signed) (v.toKey.list signed) := by
          rcases (order_eq_iff _ _).1 horder with hc | hc
          · exact hc
          · exact absurd hc.length_le (by omega)
        obtain ⟨hsound, hsame, -⟩ := h.memDelete_cases v.data v.len
        obtain ⟨lower, upper, hlist, hrest⟩ := h.memDelete_found he hfits hfind hcovers
        have hsub : (memDelete signed hdr v.data v.len).elems ⊆ hdr.elems := by
          rw [hrest, hlist]
          exact (List.Sublist.append_left (List.sublist_cons_self v upper) lower).subset
        have hkeys : (memDelete signed hdr v.data v.len).keys signed ⊆ hdr.keys signed := List.map_subset _ hsub
        obtain ⟨v', hdr', hloop, hadded⟩ := ih (he.trans hsame.symm) hsound (by
          rw [hlist] at hturns
          rw [hrest]
          simp only [List.length_append, List.length_cons] at hturns ⊢
          omega)
        rw [if_pos hlen]
        refine ⟨v', hdr', hloop, hadded.sound, hadded.same.trans hsame, hadded.mem, ?_, ?_, ?_, ?_⟩
        · exact hsame ▸ hadded.covers
        · exact fun u hu => (hadded.new u hu).imp_right fun hu => hsub hu
        · intro u hu
          rw [hlist] at hu
          have hu' : u = v ∨ u ∈ lower ++ upper := by
            simp only [List.mem_append, List.mem_cons] at hu ⊢
            tauto
          rcases hu' with rfl | hu'
          · exact .inr hcovers
          · exact hsame ▸ hadded.old u (by rwa [hrest])
        · intro hapart hclear
          rw [← hsame] at hapart hclear ⊢
          refine hadded.apart (fun p hp q hq => hapart p (hkeys hp) q (hkeys hq)) (hclear.mono ?_)
          exact List.cons_subset_cons _ hkeys
      · rw [if_neg hlen]
        have hcovers : Covers (Stop hdr.cmp_type) (v.toKey.list signed) (e.toKey.list signed) := by
          rcases (order_eq_iff _ _).1 horder with hc | hc
          · rw [hc.eq_of_length_le (by omega)]
            exact Covers.refl _
          · exact hc
        exact ⟨v, hdr, rfl, h, rfl, hv, hcovers, fun u hu => .inr hu, fun u hu => .inl hu, fun hapart _ => hapart⟩

/-! ## Runs

Adding and deleting keep a pool sound, in any order and with any lengths that the bytes reach.
What a pool holds of the keys that were added is followed along a run. -/

/-- What adding and deleting come to, with any lengths that the bytes reach. -/
inductive Reached (signed : Bool) (t : CmpType) : Mphdr β → Prop
  | pool : Reached signed t (memPool t)
  | add {hdr hdr' : Mphdr β} {str : List UInt8} {len : ℕ} {rest : β} {v : Elem β} (h : Reached signed t hdr)
      (hfits : (⟨t, len, str⟩ : Key).Fits) (hadd : memAdd signed hdr str len rest = some (v, hdr')) : Reached signed t hdr'
  | delete {hdr : Mphdr β} (str : List UInt8) (len : ℕ) (h : Reached signed t hdr) :
      Reached signed t (memDelete signed hdr str len)

/-- An addition leaves the pool sound, and returns. -/
theorem Sound.memAdd (h : Sound signed hdr) (str : List UInt8) (len : ℕ) (rest : β)
    (hfits : (⟨hdr.cmp_type, len, str⟩ : Key).Fits) :
    ∃ v hdr', Mpool.memAdd signed hdr str len rest = some (v, hdr')
      ∧ Added signed hdr { cmp_type := hdr.cmp_type, len, data := str, rest } v hdr' :=
  memAddLoop_spec (e := { cmp_type := hdr.cmp_type, len, data := str, rest }) rfl hfits (hdr.elems.length + 1) h
    (Nat.lt_succ_self _)

theorem Reached.sound {t : CmpType} (ht : t ≠ .bytes) (h : Reached signed t hdr) : Sound signed hdr ∧ hdr.cmp_type = t := by
  induction h with
  | pool => exact ⟨memPool_sound signed ht, rfl⟩
  | @add hdr hdr' str len rest v _ hfits hadd ih =>
    obtain ⟨hsound, rfl⟩ := ih
    obtain ⟨w, hdr'', hadd', hadded⟩ := hsound.memAdd str len rest hfits
    obtain ⟨-, rfl⟩ := Prod.mk.inj (Option.some.inj (hadd'.symm.trans hadd))
    exact ⟨hadded.sound, hadded.same⟩
  | delete str len _ ih =>
    obtain ⟨hsound, rfl⟩ := ih
    obtain ⟨hsound', hsame, -⟩ := hsound.memDelete_cases str len
    exact ⟨hsound', hsame⟩

/-- Whatever a pool has come to, `mem_add` ends, and what it returns is in the pool and stands for the key. -/
theorem memAdd_returns {t : CmpType} (ht : t ≠ .bytes) (h : Reached signed t hdr) (str : List UInt8) (len : ℕ) (rest : β)
    (hfits : (⟨t, len, str⟩ : Key).Fits) :
    Sound signed hdr ∧ ∃ v hdr', memAdd signed hdr str len rest = some (v, hdr') ∧ v ∈ hdr'.elems
      ∧ Covers (Stop t) (v.toKey.list signed) (Key.list signed ⟨t, len, str⟩) := by
  obtain ⟨hsound, rfl⟩ := h.sound ht
  obtain ⟨v, hdr', hadd, hadded⟩ := hsound.memAdd str len rest hfits
  exact ⟨hsound, v, hdr', hadd, hadded.mem, hadded.covers⟩

end Add

/-- A row of sixteen bits, and then the eight bits that it begins with. -/
theorem memAdd_returns_shorter :
    ∃ hdr : Mphdr ℕ, Sound true hdr ∧ ∃ v hdr', memAdd true hdr [7] 8 1 = some (v, hdr') ∧ v ∈ hdr'.elems
      ∧ Covers (Stop .bits) (v.toKey.list true) (Key.list true ⟨.bits, 8, [7]⟩) := by
  have hadd : memAdd true (memPool .bits) [7, 5] 16 0
      = some ({ cmp_type := .bits, len := 16, data := [7, 5], rest := 0 },
        { cmp_type := .bits, count := 1, root := .node .nil { cmp_type := .bits, len := 16, data := [7, 5], rest := 0 } 0 .nil }) := by
    decide
  exact ⟨_, memAdd_returns (by decide) (Reached.add Reached.pool (by decide) hadd) [7] 8 1 (by decide)⟩

/-- What a pool holds of the keys that have been added to it. -/
structure Holds (signed : Bool) (all : List Key) (hdr : Mphdr β) : Prop where
  sound : Sound signed hdr
  new : ∀ u ∈ hdr.elems, u.toKey ∈ all
  old : ∀ k ∈ all, ∃ u ∈ hdr.elems, Covers (Stop hdr.cmp_type) (u.toKey.list signed) (k.list signed)
  apart : Clear (Stop hdr.cmp_type) (all.map (Key.list signed)) → Apart (Stop hdr.cmp_type) (hdr.keys signed)

theorem memPool_holds (signed : Bool) {t : CmpType} (h : t ≠ .bytes) : Holds signed [] (memPool t : Mphdr β) :=
  ⟨memPool_sound signed h, fun _ hu => absurd hu List.not_mem_nil, fun _ hk => absurd hk List.not_mem_nil,
    fun _ _ hp => absurd hp List.not_mem_nil⟩

section Run

variable {signed : Bool} {hdr : Mphdr β} {all : List Key}

theorem Holds.keys_subset (h : Holds signed all hdr) : hdr.keys signed ⊆ all.map (Key.list signed) := by
  intro p hp
  obtain ⟨u, hu, rfl⟩ := List.mem_map.1 hp
  exact List.mem_map_of_mem (h.new u hu)

theorem Holds.memAdd (h : Holds signed all hdr) (str : List UInt8) (len : ℕ) (rest : β)
    (hfits : (⟨hdr.cmp_type, len, str⟩ : Key).Fits) :
    ∃ v hdr', Mpool.memAdd signed hdr str len rest = some (v, hdr') ∧ hdr'.cmp_type = hdr.cmp_type
      ∧ Holds signed (all ++ [⟨hdr.cmp_type, len, str⟩]) hdr' := by
  obtain ⟨v, hdr', hadd, hadded⟩ := h.sound.memAdd str len rest hfits
  refine ⟨v, hdr', hadd, hadded.same, hadded.sound, ?_, ?_, ?_⟩
  · intro u hu
    rw [List.mem_append, List.mem_singleton]
    rcases hadded.new u hu with rfl | hu
    · exact .inr rfl
    · exact .inl (h.new u hu)
  · intro k hk
    rw [hadded.same]
    rcases List.mem_append.1 hk with hk | hk
    · obtain ⟨u, hu, hcovers⟩ := h.old k hk
      rcases hadded.old u hu with hu | hdriven
      · exact ⟨u, hu, hcovers⟩
      · exact ⟨v, hadded.mem, hadded.covers.trans (hdriven.trans hcovers)⟩
    · rw [List.mem_singleton.1 hk]
      exact ⟨v, hadded.mem, hadded.covers⟩
  · intro hclear
    rw [hadded.same, List.map_append] at hclear
    rw [hadded.same]
    refine hadded.apart (h.apart (hclear.mono (List.subset_append_left ..))) (hclear.mono ?_)
    refine List.cons_subset.2 ⟨by simp, fun p hp => List.mem_append_left _ (h.keys_subset hp)⟩

/-- What the pool finds and what it holds has been added; nothing that covers the key is missed. -/
theorem Holds.get_le_iff (h : Holds signed all hdr) (hclear : Clear (Stop hdr.cmp_type) (all.map (Key.list signed)))
    {str : List UInt8} {len : ℕ} (hfits : (⟨hdr.cmp_type, len, str⟩ : Key).Fits) :
    (∃ v, memGet signed hdr str len = some v ∧ v.len ≤ len) ↔
      ∃ q ∈ all, Covers (Stop hdr.cmp_type) (q.list signed) (Key.list signed ⟨hdr.cmp_type, len, str⟩) := by
  have hlen := hfits.length_list signed
  constructor
  · rintro ⟨v, hget, hle⟩
    obtain ⟨hv, horder⟩ := h.sound.found rfl hfits hget
    refine ⟨v.toKey, h.new v hv, ?_⟩
    rcases (order_eq_iff _ _).1 horder with hc | hc
    · have hvlen := (h.sound.fits v hv).length_list signed
      rw [hc.eq_of_length_le (hvlen.le.trans (hle.trans hlen.ge))]
      exact Covers.refl _
    · exact hc
  · rintro ⟨q, hq, hcovers⟩
    obtain ⟨u, hu, hucovers⟩ := h.old q hq
    have huk := hucovers.trans hcovers
    have hapart := h.apart hclear
    -- what is found need not be `u`, but no two elements of the pool cover one another
    cases hget : memGet signed hdr str len with
    | none => exact absurd huk (h.sound.not_covers rfl hfits hapart (hclear.mono h.keys_subset) hget hu)
    | some v =>
      obtain ⟨hv, horder⟩ := h.sound.found rfl hfits hget
      have hvlen := (h.sound.fits v hv).length_list signed
      refine ⟨v, rfl, ?_⟩
      rcases (order_eq_iff _ _).1 horder with hc | hc
      · have hsame := hapart _ (List.mem_map_of_mem hu) _ (List.mem_map_of_mem hv)
          ((order_eq_iff _ _).2 (.inl (huk.trans hc)))
        have hle := huk.length_le
        rw [hsame, hvlen, hlen] at hle
        exact hle
      · have hle := hc.length_le
        rwa [hvlen, hlen] at hle

/-- Rows of bits: something is found exactly where one that has been added begins the row, or the row begins it. -/
theorem Holds.get_iff (h : Holds signed all hdr) (hbits : hdr.cmp_type = .bits) {str : List UInt8} {len : ℕ}
    (hfits : (⟨hdr.cmp_type, len, str⟩ : Key).Fits) :
    (memGet signed hdr str len).isSome = true ↔
      ∃ q ∈ all, order (Stop hdr.cmp_type) (q.list signed) (Key.list signed ⟨hdr.cmp_type, len, str⟩) = .eq := by
  have hstop : ∀ c, Stop hdr.cmp_type c := fun c hc => absurd (hbits.symm.trans hc) (by decide)
  constructor
  · intro hsome
    obtain ⟨v, hget⟩ := Option.isSome_iff_exists.1 hsome
    obtain ⟨hv, horder⟩ := h.sound.found rfl hfits hget
    refine ⟨v.toKey, h.new v hv, ?_⟩
    rw [order_swap, horder]
    rfl
  · rintro ⟨q, hq, horder⟩
    obtain ⟨u, hu, hucovers⟩ := h.old q hq
    by_contra hnone
    have hget : memGet signed hdr str len = none := by simpa using hnone
    rcases (order_eq_iff _ _).1 horder with hc | hc
    · exact absurd (hucovers.trans hc)
        (h.sound.not_covers rfl hfits (h.apart (clear_of_stop hstop)) (clear_of_stop hstop) hget hu)
    · have heq : order (Stop hdr.cmp_type) (u.toKey.list signed) (Key.list signed ⟨hdr.cmp_type, len, str⟩) = .eq :=
        order_eq_of_covers hucovers hc
      rcases (order_eq_iff _ _).1 heq with hc | hc
      · exact absurd hc
          (h.sound.not_covers rfl hfits (h.apart (clear_of_stop hstop)) (clear_of_stop hstop) hget hu)
      · exact absurd hc (h.sound.not_covered rfl hfits (clear_of_stop hstop) hget hu)

end Run

end VlessCard.Mpool
