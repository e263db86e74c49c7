/-
The cache of byedpi: which group of options worked for a destination.

An entry is a row of bits that begins with the family and the port of the destination. When `cache_get` finds an
entry too old it deletes by the same key, but gives the length in bytes where `mem_delete` takes it in bits: of a
destination with four bytes these are eight bits of the family, which every other such entry shares.
-/
import VlessCard.Mpool

set_option autoImplicit false

namespace VlessCard.DestCache

open Mpool PrefixOrder

/-- What a `union sockaddr_u` says of a destination; the port as it stands in memory. -/
inductive Dst where
  | inet (port : UInt8 × UInt8) (a b c d : UInt8)
  | inet6 (port : UInt8 × UInt8) (addr : List.Vector UInt8 16)

/-- `serialize_addr`: the bytes of a `cache_key`, of which there are as many as it returns. The family stands with
its low byte first. -/
def serializeAddr : Dst → List UInt8
  | .inet port a b c d => [2, 0, port.1, port.2, a, b, c, d]
  | .inet6 port addr => [10, 0, port.1, port.2] ++ addr.toList

/-- What `cache_get` reads of an entry: its time, and the `cache_ttl` of the group that it leads to. -/
structure Cached where
  time : ℤ
  cache_ttl : ℤ
  deriving DecidableEq, Repr

def Cached.old (entry : Cached) (now : ℤ) : Prop := entry.cache_ttl ≠ 0 ∧ entry.time + entry.cache_ttl < now

instance (entry : Cached) (now : ℤ) : Decidable (entry.old now) := inferInstanceAs (Decidable (_ ∧ _))

/-- `cache_get`. -/
def cacheGet (signed : Bool) (mempool : Mphdr Cached) (dst : Dst) (now : ℤ) : Option (Elem Cached) × Mphdr Cached :=
  let key := serializeAddr dst
  let len := key.length
  match memGet signed mempool key (len * 8) with
  | none => (none, mempool)
  | some val => if val.rest.old now then (none, memDelete signed mempool key len) else (some val, mempool)

/-- The loop of `eq_bitlen` over `bi`. -/
def eqBi (signed : Bool) (a b : UInt8) : ℕ → ℕ → ℕ
  | 0, bi => bi
  | left + 1, bi => if char signed a / 2 ^ bi ≠ char signed b / 2 ^ bi then eqBi signed a b left (bi + 1) else bi

/-- `eq_bitlen`, of two rows of `n` bytes; eight bits too many where the rows are the same. -/
def eqBitlen (signed : Bool) : List UInt8 → List UInt8 → ℕ
  | a :: p, b :: q => if a = b then 8 + eqBitlen signed p q else 8 - eqBi signed a b 8 0
  | _, _ => 8

/-- `cmp_len` of `cache_add`. -/
def cmpLen (signed : Bool) (cache_pre : ℕ) (mempool : Mphdr Cached) (dst : Dst) : ℕ :=
  let key := serializeAddr dst
  match dst with
  | .inet .. =>
    if cache_pre = 0 then key.length * 8
    else
      match memGet signed mempool key (key.length * 8 - cache_pre) with
      | none => key.length * 8
      | some val => eqBitlen signed key (val.data.take key.length)
  | .inet6 .. => key.length * 8

/-- An entry is written to where it stands in the tree. -/
def write (mempool : Mphdr Cached) (val : Elem Cached) (entry : Cached) : Mphdr Cached :=
  { mempool with root := mempool.root.map fun u => if u = val then { u with rest := entry } else u }

/-- `cache_add` at the time `t`, after which its caller lets the entry lead to a group. -/
def cacheAdd (signed : Bool) (cache_pre : ℕ) (mempool : Mphdr Cached) (dst : Dst) (t cache_ttl : ℤ) :
    Option (Mphdr Cached) :=
  let data := serializeAddr dst
  (memAdd signed mempool data (cmpLen signed cache_pre mempool dst) { time := t, cache_ttl }).map fun (val, mempool) =>
    write mempool val { time := t, cache_ttl }

/-- What a connection does with the cache. -/
inductive Step where
  | add (dst : Dst) (t cache_ttl : ℤ)
  | get (dst : Dst) (now : ℤ)

def run (signed : Bool) (cache_pre : ℕ) : Mphdr Cached → List Step → Option (Mphdr Cached)
  | mempool, [] => some mempool
  | mempool, .add dst t cache_ttl :: steps =>
    (cacheAdd signed cache_pre mempool dst t cache_ttl).bind fun mempool => run signed cache_pre mempool steps
  | mempool, .get dst now :: steps => run signed cache_pre (cacheGet signed mempool dst now).2 steps

/-- An entry of a destination with four bytes, or of a range of them. -/
def Inet (entry : Elem Cached) : Prop := 8 ≤ entry.len ∧ ∃ rest, entry.data = 2 :: rest

variable {signed : Bool} {mempool : Mphdr Cached}

/-- What `cache_get` returns is in the cache and not old. -/
theorem cacheGet_some {dst : Dst} {now : ℤ} {val : Elem Cached} {mempool' : Mphdr Cached}
    (h : cacheGet signed mempool dst now = (some val, mempool')) :
    val ∈ mempool.elems ∧ ¬ val.rest.old now
      ∧ memGet signed mempool (serializeAddr dst) ((serializeAddr dst).length * 8) = some val := by
  simp only [cacheGet] at h
  cases hget : memGet signed mempool (serializeAddr dst) ((serializeAddr dst).length * 8) with
  | none =>
    rw [hget] at h
    cases h
  | some v =>
    rw [hget] at h
    by_cases hold : v.rest.old now
    · simp only [if_pos hold] at h
      cases h
    · simp only [if_neg hold] at h
      cases h
      exact ⟨(Kavl.mem_of_find hget).1, hold, rfl⟩

/-! ## The length of an entry

The loop over bits counts how many first bits two addresses have in common, with a `char` that
may have a sign. Equal addresses are one byte too many for it, and a key may become longer than
it is. -/

/-- The first bits of a byte are the same with a sign and without. -/
theorem char_div {a b : UInt8} {j : ℕ} (hj : j < 8) (h : a.toNat / 2 ^ j = b.toNat / 2 ^ j) :
    char signed a / 2 ^ j = char signed b / 2 ^ j := by
  have ha := a.toNat_lt
  have hb := b.toNat_lt
  unfold char
  cases signed
  · simp only [Bool.false_eq_true, false_and, if_false]
    interval_cases j <;> omega
  · simp only [true_and]
    interval_cases j <;> split_ifs <;> omega

/-- The loop over bits stops within the byte where the bytes differ. -/
theorem eqBi_le {a b : UInt8} {j : ℕ} (h : char signed a / 2 ^ j = char signed b / 2 ^ j) (left : ℕ) {bi : ℕ}
    (hbi : bi ≤ j) : eqBi signed a b left bi ≤ j := by
  induction left generalizing bi with
  | zero => exact hbi
  | succ left ih =>
    rw [eqBi]
    split
    · rename_i hne
      have hlt : bi ≠ j := by
        rintro rfl
        exact hne h
      exact ih (by omega)
    · exact hbi

/-- Numbers of one width are told apart by their bits. -/
theorem bitsOf_injective {w m n : ℕ} (hm : m < 2 ^ w) (hn : n < 2 ^ w) (h : bitsOf w m = bitsOf w n) : m = n := by
  have horder : order (fun _ : ℤ => True) (bitsOf w m) (bitsOf w n) = compare m n := order_bitsOf w hm hn
  rw [h, order_self] at horder
  exact compare_eq_iff_eq.1 horder.symm

/-- The first bits of bytes. -/
def firstBits (data : List UInt8) (n : ℕ) : List ℤ := (data.flatMap fun c => bitsOf 8 c.toNat).take n

theorem take_firstBits (data : List UInt8) {m n : ℕ} (h : m ≤ n) : (firstBits data n).take m = firstBits data m := by
  rw [firstBits, List.take_take, Nat.min_eq_left h, firstBits]

/-- Within one byte they are the bits of a quotient. -/
theorem firstBits_cons (a : UInt8) (p : List UInt8) {k : ℕ} (hk : k ≤ 8) :
    firstBits (a :: p) k = bitsOf k (a.toNat / 2 ^ (8 - k)) := by
  have htake := take_bitsOf k (8 - k) a.toNat
  rw [show k + (8 - k) = 8 by omega] at htake
  rw [firstBits, List.flatMap_cons, List.take_append_of_le_length (by rw [length_bitsOf]; omega), htake]

/-- A byte is its eight bits. -/
theorem head_eq_of_firstBits {a b : UInt8} {p q : List UInt8} (h : firstBits (a :: p) 8 = firstBits (b :: q) 8) : a = b := by
  rw [firstBits_cons a p (le_refl 8), firstBits_cons b q (le_refl 8), Nat.sub_self, pow_zero, Nat.div_one, Nat.div_one] at h
  exact UInt8.toNat_inj.1 (bitsOf_injective a.toNat_lt b.toNat_lt h)

/-- Of two equal addresses the loop counts a byte too many. -/
theorem eqBitlen_self (p : List UInt8) : eqBitlen signed p p = 8 * p.length + 8 := by
  induction p with
  | nil => rfl
  | cons a p ih =>
    rw [eqBitlen, if_pos rfl, ih, List.length_cons]
    omega

theorem eqBitlen_le {p q : List UInt8} (hlen : p.length = q.length) (hne : p ≠ q) :
    eqBitlen signed p q ≤ 8 * p.length := by
  induction p generalizing q with
  | nil => exact absurd (List.eq_nil_of_length_eq_zero hlen.symm).symm hne
  | cons a p ih =>
    cases q with
    | nil => cases hlen
    | cons b q =>
      rw [eqBitlen, List.length_cons]
      split
      · rename_i hab
        have := ih (Nat.succ_inj.1 hlen) fun h => hne (by rw [hab, h])
        omega
      · omega

/-- The rows have no more first bits in common than it returns. -/
theorem le_eqBitlen {p q : List UInt8} (hlen : p.length = q.length) {k : ℕ} (hk : k ≤ 8 * p.length)
    (h : firstBits p k = firstBits q k) : k ≤ eqBitlen signed p q := by
  induction p generalizing q k with
  | nil =>
    rw [List.length_nil] at hk
    omega
  | cons a p ih =>
    cases q with
    | nil => cases hlen
    | cons b q =>
      rw [eqBitlen]
      split
      · rename_i hab
        -- the first byte is the same, and the rest of the bits are left to the rest of the bytes
        by_cases hfirst : k ≤ 8
        · omega
        · obtain ⟨n, rfl⟩ : ∃ n, k = 8 + n := ⟨k - 8, by omega⟩
          have htake : ∀ (c : UInt8) (l : List ℤ), (bitsOf 8 c.toNat ++ l).take (8 + n) = bitsOf 8 c.toNat ++ l.take n := by
            intro c l
            rw [show 8 + n = (bitsOf 8 c.toNat).length + n by rw [length_bitsOf], List.take_length_add_append]
          rw [firstBits, firstBits, List.flatMap_cons, List.flatMap_cons, htake, htake, hab, List.append_cancel_left_eq] at h
          have := ih (Nat.succ_inj.1 hlen) (by rw [List.length_cons] at hk; omega) h
          omega
      · rename_i hab
        have hsmall : k < 8 := by
          by_contra hge
          have h8 := congrArg (List.take 8) h
          rw [take_firstBits _ (by omega), take_firstBits _ (by omega)] at h8
          exact hab (head_eq_of_firstBits h8)
        have hpow : ∀ c : UInt8, c.toNat / 2 ^ (8 - k) < 2 ^ k := by
          intro c
          rw [Nat.div_lt_iff_lt_mul (by positivity), ← pow_add, show k + (8 - k) = 8 by omega]
          exact c.toNat_lt
        rw [firstBits_cons a p hsmall.le, firstBits_cons b q hsmall.le] at h
        have hdiv := bitsOf_injective (hpow a) (hpow b) h
        by_cases hzero : k = 0
        · omega
        · have hle : eqBi signed a b 8 0 ≤ 8 - k := eqBi_le (char_div (by omega) hdiv) 8 (Nat.zero_le _)
          omega

/-! ## Runs

Connections look destinations up and add them, in any order and at any time. The cache stays
ordered, and an entry that is found begins the address that was looked up or is begun by it, up
to the bits that the options leave out. -/

/-- The bits of an entry are those of a destination, but for the last `cache_pre` at most. -/
structure Entry (cache_pre : ℕ) (k : Key) : Prop where
  kind : k.cmp_type = .bits
  of_dst : ∃ dst, k.data = serializeAddr dst
  len_le : k.len ≤ k.data.length * 8
  le_len : k.data.length * 8 - cache_pre ≤ k.len

/-- What the cache keeps: it is in order, and no entry begins another one. -/
structure Cache (signed : Bool) (cache_pre : ℕ) (mempool : Mphdr Cached) : Prop where
  sound : Sound signed mempool
  bits : mempool.cmp_type = .bits
  entries : ∀ u ∈ mempool.elems, Entry cache_pre u.toKey
  apart : Apart (Stop mempool.cmp_type) (mempool.keys signed)

theorem memPool_cache (cache_pre : ℕ) : Cache signed cache_pre (memPool .bits) :=
  ⟨memPool_sound signed (by decide), rfl, fun _ hu => absurd hu List.not_mem_nil, fun _ hp => absurd hp List.not_mem_nil⟩

/-- An address has eight bytes at least: port, family and the shorter kind of address. -/
theorem eight_le_length (dst : Dst) : 8 ≤ (serializeAddr dst).length := by
  cases dst with
  | inet port a b c d => exact le_refl 8
  | inet6 port addr => simp [serializeAddr]

/-- The family says how long a key is. -/
theorem length_eq_of_firstBits {dst dst' : Dst} (h : firstBits (serializeAddr dst) 8 = firstBits (serializeAddr dst') 8) :
    (serializeAddr dst).length = (serializeAddr dst').length := by
  cases dst with
  | inet port a b c d =>
    cases dst' with
    | inet port' a' b' c' d' => rfl
    | inet6 port' addr' => exact absurd (head_eq_of_firstBits h) (by decide)
  | inet6 port addr =>
    cases dst' with
    | inet port' a' b' c' d' => exact absurd (head_eq_of_firstBits h) (by decide)
    | inet6 port' addr' => simp [serializeAddr]

section Run

variable {cache_pre : ℕ} (hpre : cache_pre ≤ 32)

include hpre in
/-- What is found is of the same family, and agrees in all bits that both have. -/
theorem Cache.found (h : Cache signed cache_pre mempool) (dst : Dst) {n : ℕ} (hn : 8 ≤ n)
    (hlen : n ≤ (serializeAddr dst).length * 8) {val : Elem Cached}
    (hget : memGet signed mempool (serializeAddr dst) n = some val) :
    val ∈ mempool.elems ∧ val.data.length = (serializeAddr dst).length
      ∧ ∀ m, m ≤ n → m ≤ val.len → firstBits val.data m = firstBits (serializeAddr dst) m := by
  have hfits : (⟨mempool.cmp_type, n, serializeAddr dst⟩ : Key).Fits := by
    simp only [Key.Fits, h.bits, reduceCtorEq, if_false]
    omega
  obtain ⟨hval, horder⟩ := h.sound.found rfl hfits hget
  have hentry := h.entries val hval
  have hlist : Key.list signed ⟨mempool.cmp_type, n, serializeAddr dst⟩ = firstBits (serializeAddr dst) n := by
    rw [Key.list, h.bits, firstBits]
  have hvlist : val.toKey.list signed = firstBits val.data val.len := by
    rw [Key.list, hentry.kind, firstBits]
  have hagree : ∀ m, m ≤ n → m ≤ val.len → firstBits val.data m = firstBits (serializeAddr dst) m := by
    intro m hmn hmv
    have htake := take_eq_of_order_eq horder (n := m) (by rwa [hfits.length_list])
      (by rwa [(h.sound.fits val hval).length_list])
    rw [hlist, hvlist, take_firstBits _ hmn, take_firstBits _ hmv] at htake
    exact htake.symm
  obtain ⟨dst', hdst'⟩ := hentry.of_dst
  have hlow := hentry.le_len
  have hlong := eight_le_length dst'
  refine ⟨hval, ?_, hagree⟩
  rw [hdst'] at hlow
  have hfirst := hagree 8 hn (by omega)
  rw [hdst'] at hfirst ⊢
  exact length_eq_of_firstBits hfirst

include hpre in
/-- The length of a new entry is at most that of its key, unless its key is that of an entry that there is. -/
theorem Cache.cmpLen_spec (h : Cache signed cache_pre mempool) (dst : Dst) :
    (serializeAddr dst).length * 8 - cache_pre ≤ cmpLen signed cache_pre mempool dst
      ∧ (cmpLen signed cache_pre mempool dst ≤ (serializeAddr dst).length * 8
        ∨ cmpLen signed cache_pre mempool dst = 72 ∧ (serializeAddr dst).length = 8
          ∧ ∃ val ∈ mempool.elems, val.data = serializeAddr dst) := by
  cases dst with
  | inet6 port addr => exact ⟨Nat.sub_le .., .inl (le_refl _)⟩
  | inet port a b c d =>
    have hkey : (serializeAddr (.inet port a b c d)).length = 8 := rfl
    simp only [cmpLen]
    by_cases hzero : cache_pre = 0
    · rw [if_pos hzero]
      exact ⟨Nat.sub_le .., .inl (le_refl _)⟩
    · rw [if_neg hzero]
      cases hget : memGet signed mempool (serializeAddr (.inet port a b c d))
          ((serializeAddr (.inet port a b c d)).length * 8 - cache_pre) with
      | none => exact ⟨Nat.sub_le .., .inl (le_refl _)⟩
      | some val =>
        obtain ⟨hval, hlen, hagree⟩ := h.found hpre (.inet port a b c d) (by omega) (Nat.sub_le ..) hget
        have hlow := (h.entries val hval).le_len
        rw [hlen] at hlow
        simp only [List.take_of_length_le hlen.le]
        -- `eq_bitlen` counts a byte too many only where all bytes are the same
        by_cases hsame : val.data = serializeAddr (.inet port a b c d)
        · rw [hsame, eqBitlen_self, hkey]
          exact ⟨by omega, .inr ⟨rfl, rfl, val, hval, hsame⟩⟩
        · have hle : eqBitlen signed (serializeAddr (.inet port a b c d)) val.data ≤ _ :=
            eqBitlen_le hlen.symm fun heq => hsame heq.symm
          have hge : 64 - cache_pre ≤ eqBitlen signed (serializeAddr (.inet port a b c d)) val.data :=
            le_eqBitlen hlen.symm (by omega) (hagree _ (by omega) (by omega)).symm
          rw [hkey] at hle ⊢
          exact ⟨by omega, .inl (by omega)⟩

theorem stop_bits (h : mempool.cmp_type = .bits) (c : ℤ) : Stop mempool.cmp_type c :=
  fun hhost => absurd (h.symm.trans hhost) (by decide)

theorem Cache.mono (h : Cache signed cache_pre mempool) {mempool' : Mphdr Cached} (hsound : Sound signed mempool')
    (hbits : mempool'.cmp_type = mempool.cmp_type) (hsub : mempool'.elems ⊆ mempool.elems) :
    Cache signed cache_pre mempool' := by
  refine ⟨hsound, hbits.trans h.bits, fun u hu => h.entries u (hsub hu), ?_⟩
  rw [hbits]
  have hkeys : mempool'.keys signed ⊆ mempool.keys signed := List.map_subset _ hsub
  exact fun p hp q hq => h.apart p (hkeys hp) q (hkeys hq)

/-- A look-up leaves a cache, also where it takes an entry out. -/
theorem Cache.get (h : Cache signed cache_pre mempool) (dst : Dst) (now : ℤ) :
    Cache signed cache_pre (cacheGet signed mempool dst now).2 := by
  simp only [cacheGet]
  split
  · exact h
  · split
    · obtain ⟨hsound, hbits, hcases⟩ := h.sound.memDelete_cases (serializeAddr dst) (serializeAddr dst).length
      refine h.mono hsound hbits ?_
      cases hget : memGet signed mempool (serializeAddr dst) (serializeAddr dst).length with
      | none =>
        rw [hget] at hcases
        rw [hcases]
        exact List.Subset.refl _
      | some v =>
        rw [hget] at hcases
        obtain ⟨lower, upper, hlist, hrest⟩ := hcases
        rw [hrest, hlist]
        exact (List.Sublist.append_left (List.sublist_cons_self v upper) lower).subset
    · exact h

theorem Cache.write (h : Cache signed cache_pre mempool) (val : Elem Cached) (entry : Cached) :
    Cache signed cache_pre (write mempool val entry) := by
  have hkeys : (DestCache.write mempool val entry).elems.map (fun v => v.toKey) = mempool.elems.map fun v => v.toKey := by
    simp only [DestCache.write, Mphdr.elems, Kavl.toList_map, List.map_map]
    refine List.map_congr_left fun u _ => ?_
    simp only [Function.comp_apply]
    split <;> rfl
  have hlists : (DestCache.write mempool val entry).keys signed = mempool.keys signed := by
    have hmap := congrArg (List.map (Key.list signed)) hkeys
    rwa [List.map_map, List.map_map] at hmap
  refine ⟨h.sound.congr rfl rfl hkeys, h.bits, ?_, hlists ▸ h.apart⟩
  intro u hu
  have hmem : u.toKey ∈ (DestCache.write mempool val entry).elems.map fun v => v.toKey := List.mem_map_of_mem hu
  rw [hkeys] at hmem
  obtain ⟨w, hw, hwu⟩ := List.mem_map.1 hmem
  rw [← hwu]
  exact h.entries w hw

include hpre in
/-- An element whose length is eight bits too many compares as the key itself does: its ninth byte is not read. -/
theorem Cache.scmp_long (h : Cache signed cache_pre mempool) {dst : Dst} (hlen : (serializeAddr dst).length = 8)
    {u : Elem Cached} (hu : u ∈ mempool.elems) :
    scmp signed ⟨.bits, 72, serializeAddr dst⟩ u.toKey = scmp signed ⟨.bits, 64, serializeAddr dst⟩ u.toKey := by
  have hentry := h.entries u hu
  have hle := hentry.len_le
  have hge := hentry.le_len
  obtain ⟨dst', hdst'⟩ := hentry.of_dst
  unfold scmp bitCmp
  simp only
  by_cases hshort : u.len ≤ 64
  · rw [show (if u.len < 72 then u.len else 72) = u.len from if_pos (by omega),
      show (if u.len < 64 then u.len else 64) = u.len by split <;> omega]
  · -- an entry as long as this is of the other family, which the first byte says
    cases dst with
    | inet6 port addr => simp [serializeAddr] at hlen
    | inet port a b c d =>
      cases dst' with
      | inet port' a' b' c' d' =>
        rw [hdst'] at hle
        exact absurd hle (by simp only [serializeAddr, List.length_cons, List.length_nil]; omega)
      | inet6 port' addr' =>
        rw [hdst'] at hge
        have hlong : 72 ≤ u.len := by
          simp only [serializeAddr, List.length_append, List.length_cons, List.length_nil, List.Vector.toList_length] at hge
          omega
        rw [show (if u.len < 72 then u.len else 72) = 72 from if_neg (by omega),
          show (if u.len < 64 then u.len else 64) = 64 from if_neg (by omega), hdst']
        rfl

include hpre in
/-- Adding a destination keeps the cache as it is, but for what stands for the destination. -/
theorem Cache.memAdd (h : Cache signed cache_pre mempool) (dst : Dst) (rest : Cached) :
    ∃ v mempool', memAdd signed mempool (serializeAddr dst) (cmpLen signed cache_pre mempool dst) rest = some (v, mempool')
      ∧ Cache signed cache_pre mempool' := by
  obtain ⟨hlow, hhigh | ⟨hlong, hlen, val, hval, hsame⟩⟩ := h.cmpLen_spec hpre dst
  · have hfits : (⟨mempool.cmp_type, cmpLen signed cache_pre mempool dst, serializeAddr dst⟩ : Key).Fits := by
      simp only [Key.Fits, h.bits, reduceCtorEq, if_false]
      omega
    obtain ⟨v, mempool', hadd, hadded⟩ := h.sound.memAdd (serializeAddr dst) (cmpLen signed cache_pre mempool dst) rest hfits
    refine ⟨v, mempool', hadd, hadded.sound, hadded.same.trans h.bits, ?_, ?_⟩
    · intro u hu
      rcases hadded.new u hu with rfl | hu
      · exact ⟨h.bits, ⟨dst, rfl⟩, hhigh, hlow⟩
      · exact h.entries u hu
    · rw [hadded.same]
      exact hadded.apart h.apart (clear_of_stop (stop_bits h.bits))
  · -- the key is that of an entry; its own length would fit, and compares alike
    rw [hlong]
    have hfits : (⟨mempool.cmp_type, 64, serializeAddr dst⟩ : Key).Fits := by
      simp only [Key.Fits, h.bits, reduceCtorEq, if_false]
      omega
    have hlong : ∀ u ∈ mempool.elems, scmp signed ⟨mempool.cmp_type, 72, serializeAddr dst⟩ u.toKey
        = scmp signed ⟨mempool.cmp_type, 64, serializeAddr dst⟩ u.toKey := by
      rw [h.bits]
      exact fun u hu => h.scmp_long hpre hlen hu
    have hcovers : Covers (Stop mempool.cmp_type) (val.toKey.list signed)
        (Key.list signed ⟨mempool.cmp_type, 64, serializeAddr dst⟩) := by
      have hentry := h.entries val hval
      have hle := hentry.len_le
      rw [hsame, hlen] at hle
      rw [covers_iff_begins (stop_bits h.bits), Key.list, Key.list, hentry.kind, h.bits]
      simp only [hsame]
      exact List.take_prefix_take_left (by omega)
    have hfind := Kavl.find_congr hlong
    obtain ⟨v, hins, hfound⟩ | ⟨root, lower, upper, -, hnone, -⟩ := Kavl.insert_spec
      (fun v => scmp signed ⟨mempool.cmp_type, 72, serializeAddr dst⟩ v.toKey)
      { cmp_type := mempool.cmp_type, len := 72, data := serializeAddr dst, rest } mempool.root
    · rw [hfind] at hfound
      have hget : memGet signed mempool (serializeAddr dst) 64 = some v := hfound
      obtain ⟨hv, hvlen, -⟩ := h.found hpre dst (by omega) (by omega) hget
      have hle := (h.entries v hv).len_le
      rw [hvlen, hlen] at hle
      -- what is found is no longer than the new element, and keeps it out
      refine ⟨v, mempool, ?_, h⟩
      simp only [Mpool.memAdd, memAddLoop]
      rw [hins]
      exact if_neg (by omega)
    · rw [hfind] at hnone
      exact absurd hcovers (h.sound.not_covers rfl hfits h.apart (clear_of_stop (stop_bits h.bits)) hnone hval)

include hpre in
theorem Cache.add (h : Cache signed cache_pre mempool) (dst : Dst) (t cache_ttl : ℤ) :
    ∃ mempool', cacheAdd signed cache_pre mempool dst t cache_ttl = some mempool' ∧ Cache signed cache_pre mempool' := by
  obtain ⟨v, mempool', hadd, hcache⟩ := h.memAdd hpre dst { time := t, cache_ttl }
  exact ⟨_, by rw [cacheAdd, hadd, Option.map_some], hcache.write v { time := t, cache_ttl }⟩

include hpre in
theorem Cache.run (h : Cache signed cache_pre mempool) (steps : List Step) :
    ∃ mempool', run signed cache_pre mempool steps = some mempool' ∧ Cache signed cache_pre mempool' := by
  induction steps generalizing mempool with
  | nil => exact ⟨mempool, rfl, h⟩
  | cons step steps ih =>
    cases step with
    | add dst t cache_ttl =>
      obtain ⟨mempool', hadd, hcache⟩ := h.add hpre dst t cache_ttl
      rw [DestCache.run, hadd, Option.bind_some]
      exact ih hcache
    | get dst now => exact ih (h.get dst now)

end Run

/-- Whatever connections have done with it, the cache is in order, and answers a destination only with an entry that
is not old and agrees with the destination in all bits but the last `cache_pre`. -/
theorem run_answers (signed : Bool) {cache_pre : ℕ} (hpre : cache_pre ≤ 32) (steps : List Step) :
    ∃ mempool, run signed cache_pre (memPool .bits) steps = some mempool ∧ Sound signed mempool ∧
      ∀ dst now val mempool', cacheGet signed mempool dst now = (some val, mempool') →
        ¬ val.rest.old now ∧ firstBits val.data ((serializeAddr dst).length * 8 - cache_pre)
          = firstBits (serializeAddr dst) ((serializeAddr dst).length * 8 - cache_pre) := by
  have hempty : Cache signed cache_pre (memPool .bits) := memPool_cache cache_pre
  obtain ⟨mempool, hrun, hcache⟩ := hempty.run hpre steps
  refine ⟨mempool, hrun, hcache.sound, ?_⟩
  intro dst now val mempool' hget
  have hlong := eight_le_length dst
  obtain ⟨hval, hold, hfound⟩ := cacheGet_some hget
  obtain ⟨-, hlen, hagree⟩ := hcache.found hpre dst (by omega) (le_refl _) hfound
  have hlow := (hcache.entries val hval).le_len
  rw [hlen] at hlow
  exact ⟨hold, hagree _ (Nat.sub_le ..) hlow⟩

theorem run_answers_subnet :
    ∃ mempool, run true 8 (memPool .bits)
        [.add (.inet (1, 187) 9 9 9 1) 10 0, .add (.inet (1, 187) 9 9 9 2) 20 0] = some mempool ∧ Sound true mempool ∧
      ∀ dst now val mempool', cacheGet true mempool dst now = (some val, mempool') →
        ¬ val.rest.old now ∧ firstBits val.data ((serializeAddr dst).length * 8 - 8)
          = firstBits (serializeAddr dst) ((serializeAddr dst).length * 8 - 8) :=
  run_answers true (by decide) _

/-! ## What is deleted

An old entry is taken out under a key whose length is in bytes where the tree expects bits. So
the deletion compares the first bits alone, and where the root agrees in them it is the root that
goes. -/

/-- An entry without bits compares equal to every address. -/
theorem scmp_inet {entry : Elem Cached} (hentry : Inet entry) (port : UInt8 × UInt8) (a b c d : UInt8) :
    scmp signed ⟨.bits, 8, serializeAddr (.inet port a b c d)⟩ entry.toKey = .eq := by
  obtain ⟨hlen, rest, hdata⟩ := hentry
  unfold scmp bitCmp
  simp only [serializeAddr, hdata]
  rw [show (if entry.len < 8 then entry.len else 8) = 8 from if_neg (by omega)]
  rfl

/-- If the root is such an entry, it is what an old entry of a destination with four bytes leads to the deletion of;
the old one stays, unless it is the root itself. -/
theorem cacheGet_root (h : Sound signed mempool) (hbits : mempool.cmp_type = .bits) {l r : Kavl.Tree (Elem Cached)}
    {root : Elem Cached} {balance : ℤ} (htree : mempool.root = .node l root balance r) (hinet : Inet root)
    (port : UInt8 × UInt8) (a b c d : UInt8) {now : ℤ} {val : Elem Cached}
    (hget : memGet signed mempool (serializeAddr (.inet port a b c d)) 64 = some val) (hold : val.rest.old now) :
    ∃ mempool', cacheGet signed mempool (.inet port a b c d) now = (none, mempool')
      ∧ mempool'.elems = l.toList ++ r.toList ∧ (val ∈ mempool'.elems ↔ val ≠ root) := by
  have helems : mempool.elems = l.toList ++ root :: r.toList := by rw [Mphdr.elems, htree]; rfl
  -- an address of no bits agrees with every other
  have hroot : scmp signed ⟨mempool.cmp_type, 8, serializeAddr (.inet port a b c d)⟩ root.toKey = .eq := by
    rw [hbits]
    exact scmp_inet hinet port a b c d
  obtain ⟨tree, herase, hlist⟩ := Kavl.erase_root
    (fun v => scmp signed ⟨mempool.cmp_type, 8, serializeAddr (.inet port a b c d)⟩ v.toKey) l balance r hroot
  refine ⟨{ mempool with root := tree, count := mempool.count - 1 }, ?_, hlist, ?_⟩
  · unfold cacheGet
    simp only
    rw [show (serializeAddr (.inet port a b c d)).length * 8 = 64 from rfl, hget]
    simp only [if_pos hold]
    unfold memDelete
    rw [htree, show (serializeAddr (.inet port a b c d)).length = 8 from rfl, herase]
  -- what is found is the root itself or another entry, and the root is what is erased
  · have hval : val = root ∨ val ∈ l.toList ++ r.toList := by
      have hmem : val ∈ mempool.elems := (Kavl.mem_of_find hget).1
      rw [helems] at hmem
      simp only [List.mem_append, List.mem_cons] at hmem ⊢
      tauto
    have hnotMem : root ∉ l.toList ++ r.toList := by
      have hnodup : (l.toList ++ root :: r.toList).Nodup := by
        rw [← helems]
        exact List.Nodup.of_map _ (h.sorted.imp fun hlt => hlt.ne)
      exact (List.nodup_middle.1 hnodup).notMem
    change val ∈ tree.toList ↔ _
    rw [hlist]
    constructor
    · rintro hin rfl
      exact hnotMem hin
    · exact fun hne => hval.resolve_left hne

/-- An entry of the port 443 that lives for a hundred seconds. -/
def entryAt (a b c d : UInt8) (time : ℤ) : Elem Cached :=
  { cmp_type := .bits, len := 64, data := serializeAddr (.inet (1, 187) a b c d), rest := { time, cache_ttl := 100 } }

def twoEntries : Mphdr Cached :=
  { cmp_type := .bits, count := 2, root := .node .nil (entryAt 1 1 1 1 950) 1 (.node .nil (entryAt 9 9 9 9 0) 0 .nil) }

/-- So the look-up of an address that is old takes the entry of another out with its own. -/
theorem cacheGet_root_young :
    ∃ mempool', cacheGet true twoEntries (.inet (1, 187) 9 9 9 9) 1000 = (none, mempool')
      ∧ mempool'.elems = [entryAt 9 9 9 9 0]
      ∧ (entryAt 9 9 9 9 0 ∈ mempool'.elems ↔ entryAt 9 9 9 9 0 ≠ entryAt 1 1 1 1 950) := by
  have hsound : Sound true twoEntries := ⟨by decide, by decide, by decide, by decide, rfl⟩
  have hinet : Inet (entryAt 1 1 1 1 950) := ⟨by decide, _, rfl⟩
  have hget : memGet true twoEntries (serializeAddr (.inet (1, 187) 9 9 9 9)) 64 = some (entryAt 9 9 9 9 0) := by decide
  exact cacheGet_root hsound rfl rfl hinet (1, 187) 9 9 9 9 hget (by decide)

end VlessCard.DestCache
