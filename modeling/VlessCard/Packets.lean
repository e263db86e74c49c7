/-
`packets.c` of the local engine: where the name of the server stands in a ClientHello.

The functions walk through bytes that came from another program, so that nothing is known of
them. A read behind the end is undefined in the source, and here it has no result: the
functions are of type `Option`, and that they return is a theorem about every row of bytes.
What they return is then compared with the strict reader of the same message.
-/
import VlessCard.QuicGrammar

set_option autoImplicit false

namespace VlessCard.Packets

open Wire

/-! ## The functions

The source reads bytes behind a pointer, so the model gives no result where the read would be
behind the end of the packet. That it always gives one is the first thing that is proved. -/

/-- `ANTOHS`: two bytes as a number, the high one first. -/
def ANTOHS (data : List UInt8) (i : ℕ) : Option ℕ :=
  match data[i]?, data[i + 1]? with
  | some high, some low => some (high.toNat * 256 + low.toNat)
  | _, _ => none

/-- The loop over the extensions. -/
def extLoop (type : ℕ) (data : List UInt8) (size skip : ℕ) : Option ℕ :=
  if skip + 4 < size then
    (ANTOHS data skip).bind fun epyt =>
      if type = epyt then some skip
      else (ANTOHS data (skip + 2)).bind fun len => extLoop type data size (skip + (len + 4))
  else some 0
  termination_by size - skip

/-- `find_tls_ext_offset`: the offset of an extension behind the list's length at `skip`, zero
when there is none. -/
def findTlsExtOffset (type : ℕ) (data : List UInt8) (size skip : ℕ) : Option ℕ :=
  if size ≤ skip + 2 then some 0
  else
    (ANTOHS data skip).bind fun extLen =>
      if extLen < size - (skip + 2) then extLoop type data (extLen + (skip + 2)) (skip + 2)
      else extLoop type data size (skip + 2)

/-- `find_ext_block`: the offset of the length of the extensions. -/
def findExtBlock (data : List UInt8) (size : ℕ) : Option ℕ :=
  if size < 44 then some 0
  else
    data[43]?.bind fun sidLen =>
      if size < 44 + sidLen.toNat + 2 then some 0
      else
        (ANTOHS data (44 + sidLen.toNat)).bind fun cipLen =>
          let skip := 44 + sidLen.toNat + 2 + cipLen + 2
          some (if size < skip then 0 else skip)

/-- `is_tls_chello`. -/
def isTlsChello (buffer : List UInt8) (bsize : ℕ) : Option Bool :=
  if 5 < bsize then
    (ANTOHS buffer 0).bind fun head => buffer[5]?.bind fun kind => some (head = 0x1603 ∧ kind = 0x01)
  else some false

/-- `parse_tls`: the length of the name, and where it begins. -/
def parseTls (buffer : List UInt8) (bsize : ℕ) : Option (ℕ × ℕ) :=
  (isTlsChello buffer bsize).bind fun hello =>
    if hello = false then some (0, 0)
    else
      (findExtBlock buffer bsize).bind fun skip =>
        if skip = 0 then some (0, 0)
        else
          (findTlsExtOffset 0x00 buffer bsize skip).bind fun sniOffs =>
            if sniOffs = 0 ∨ bsize ≤ sniOffs + 12 then some (0, 0)
            else
              (ANTOHS buffer (sniOffs + 7)).bind fun len =>
                if bsize < sniOffs + 9 + len then some (0, 0) else some (len, sniOffs + 9)

/-! ## No read behind the end

Each check on a length comes before the read that it guards. So every step has a result, and what
is found lies within the packet. -/

/-- Two bytes within the packet can be read; the lemmas that follow say so of each function that reads. -/
theorem exists_ANTOHS (data : List UInt8) (i : ℕ) (h : i + 1 < data.length) : ∃ n, ANTOHS data i = some n := by
  unfold ANTOHS
  rw [List.getElem?_eq_getElem (show i < data.length by omega), List.getElem?_eq_getElem h]
  exact ⟨_, rfl⟩

/-- The loop ends, at an extension that lies within the bytes or at none. -/
theorem exists_extLoop (type : ℕ) (data : List UInt8) (size skip : ℕ) (h : size ≤ data.length) :
    ∃ r, extLoop type data size skip = some r ∧ (r ≠ 0 → skip ≤ r ∧ r + 4 < size) := by
  induction hm : size - skip using Nat.strong_induction_on generalizing skip with
  | _ m ih =>
    rw [extLoop]
    by_cases hskip : skip + 4 < size
    · obtain ⟨epyt, hepyt⟩ := exists_ANTOHS data skip (by omega)
      obtain ⟨len, hlen⟩ := exists_ANTOHS data (skip + 2) (by omega)
      rw [if_pos hskip, hepyt, Option.bind_some]
      split
      · exact ⟨skip, rfl, fun _ => ⟨le_refl skip, hskip⟩⟩
      · -- the next extension begins four bytes behind this one at least
        obtain ⟨r, hr, hin⟩ := ih (size - (skip + (len + 4))) (by omega) (skip + (len + 4)) rfl
        rw [hlen, Option.bind_some]
        exact ⟨r, hr, fun hne => ⟨by have := (hin hne).1; omega, (hin hne).2⟩⟩
    · rw [if_neg hskip]
      exact ⟨0, rfl, fun hne => absurd rfl hne⟩

/-- The search stays within the packet, and what it finds has its four bytes there. -/
theorem exists_findTlsExtOffset (type : ℕ) (data : List UInt8) (skip : ℕ) :
    ∃ r, findTlsExtOffset type data data.length skip = some r ∧ (r ≠ 0 → skip + 2 ≤ r ∧ r + 4 < data.length) := by
  unfold findTlsExtOffset
  by_cases hsize : data.length ≤ skip + 2
  · rw [if_pos hsize]
    exact ⟨0, rfl, fun hne => absurd rfl hne⟩
  · obtain ⟨extLen, hlen⟩ := exists_ANTOHS data skip (by omega)
    rw [if_neg hsize, hlen, Option.bind_some]
    split
    · rename_i hshort
      obtain ⟨r, hr, hin⟩ := exists_extLoop type data (extLen + (skip + 2)) (skip + 2) (by omega)
      exact ⟨r, hr, fun hne => ⟨(hin hne).1, by have := (hin hne).2; omega⟩⟩
    · exact exists_extLoop type data data.length (skip + 2) (le_refl _)

theorem exists_findExtBlock (data : List UInt8) :
    ∃ skip, findExtBlock data data.length = some skip ∧ skip ≤ data.length := by
  unfold findExtBlock
  by_cases hsize : data.length < 44
  · rw [if_pos hsize]
    exact ⟨0, rfl, Nat.zero_le _⟩
  · have hid : 43 < data.length := by omega
    rw [if_neg hsize, List.getElem?_eq_getElem hid, Option.bind_some]
    split
    · exact ⟨0, rfl, Nat.zero_le _⟩
    · obtain ⟨cipLen, hcip⟩ := exists_ANTOHS data (44 + data[43].toNat) (by omega)
      rw [hcip, Option.bind_some]
      dsimp only
      split
      · exact ⟨0, rfl, Nat.zero_le _⟩
      · exact ⟨_, rfl, by omega⟩

theorem exists_isTlsChello (data : List UInt8) : ∃ b, isTlsChello data data.length = some b := by
  unfold isTlsChello
  by_cases hsize : 5 < data.length
  · obtain ⟨head, hhead⟩ := exists_ANTOHS data 0 (by omega)
    rw [if_pos hsize, hhead, Option.bind_some, List.getElem?_eq_getElem hsize]
    exact ⟨_, rfl⟩
  · rw [if_neg hsize]
    exact ⟨false, rfl⟩

/-- Each of the steps has a result, and the name ends where the bytes do or before. -/
theorem exists_parseTls (data : List UInt8) :
    ∃ len hs, parseTls data data.length = some (len, hs) ∧ hs + len ≤ data.length := by
  unfold parseTls
  obtain ⟨hello, hhello⟩ := exists_isTlsChello data
  rw [hhello, Option.bind_some]
  split
  · exact ⟨0, 0, rfl, Nat.zero_le _⟩
  · obtain ⟨skip, hskip, -⟩ := exists_findExtBlock data
    rw [hskip, Option.bind_some]
    split
    · exact ⟨0, 0, rfl, Nat.zero_le _⟩
    · obtain ⟨sniOffs, hsni, -⟩ := exists_findTlsExtOffset 0x00 data skip
      rw [hsni, Option.bind_some]
      split
      · exact ⟨0, 0, rfl, Nat.zero_le _⟩
      · rename_i hfound
        rw [not_or] at hfound
        obtain ⟨len, hlen⟩ := exists_ANTOHS data (sniOffs + 7) (by omega)
        rw [hlen, Option.bind_some]
        split
        · exact ⟨0, 0, rfl, Nat.zero_le _⟩
        · exact ⟨len, sniOffs + 9, rfl, by omega⟩

/-- **No row of bytes is read behind its end**, and what is found is a part of it. -/
theorem parseTls_within (data : List UInt8) :
    ∃ len hs, parseTls data data.length = some (len, hs) ∧ hs + len ≤ data.length :=
  exists_parseTls data

/-! ## What the strict reader takes for a ClientHello

A hello that the grammar reads is laid out part by part. The layout says at which offset each
part stands, and it is these offsets that the source computes. -/

/-- A record with one ClientHello. -/
def helloRecord : Reader Tls.ClientHello := do
  let kind ← uint 1
  ensure (kind = 22)
  let version ← uint 2
  ensure (version / 256 = 3)
  vector 2 1 65535 Tls.clientHello

/-- An extension as it stands in the list. -/
structure Extension where
  type : ℕ
  body : List UInt8
  value : Tls.Extension
  type_lt : type < 256 ^ 2
  body_lt : body.length < 256 ^ 2
  reads : ReadsAll (Tls.content type) body value

namespace Extension

def write (e : Extension) : List UInt8 := bigEndian 2 e.type ++ (bigEndian 2 e.body.length ++ e.body)

def read (e : Extension) : ℕ × Tls.Extension := (e.type, e.value)

/-- An extension is its body with four bytes before it. -/
theorem length_write (e : Extension) : e.write.length = e.body.length + 4 := by
  unfold write
  simp only [List.length_append, length_bigEndian]
  omega

/-- An extension that the grammar reads was written so. -/
theorem exists_of_run {bytes rest : List UInt8} {a : ℕ × Tls.Extension} (h : Tls.extension.run bytes = some (a, rest)) :
    ∃ e : Extension, bytes = e.write ++ rest ∧ e.read = a := by
  obtain ⟨type, mid, htype, hrest⟩ := run_bind_eq_some.mp h
  obtain ⟨hlt, rfl⟩ := eq_of_run_uint htype
  obtain ⟨value, mid', hvalue, hend⟩ := run_bind_eq_some.mp hrest
  obtain ⟨body, -, -, hbody, rfl, hreads⟩ := eq_of_run_vector hvalue
  obtain ⟨rfl, rfl⟩ := eq_of_run_pure hend
  refine ⟨⟨type, body, value, hlt, hbody, hreads⟩, ?_, rfl⟩
  simp only [write, List.append_assoc]

end Extension

/-- The bytes of a ClientHello in a record: 43 before the session identifier, and the lengths that
lead to the extensions. -/
structure Layout (hello : Tls.ClientHello) where
  front : List UInt8
  session : List UInt8
  suites : List UInt8
  extensions : List Extension
  length_front : front.length = 43
  front_head : ∃ minor rest, front = 22 :: 3 :: minor :: rest
  front_kind : front[5]? = some 1
  session_lt : session.length < 256
  suites_lt : suites.length < 256 ^ 2
  extensions_lt : (extensions.flatMap Extension.write).length < 256 ^ 2
  read_eq : extensions.map Extension.read = hello.extensions
  types_nodup : (extensions.map Extension.type).Nodup

namespace Layout

variable {hello : Tls.ClientHello} (L : Layout hello)

/-- The extensions as they stand in the list. -/
def block : List UInt8 := L.extensions.flatMap Extension.write

/-- What stands before the length of the extensions. -/
def head : List UInt8 :=
  L.front ++ (bigEndian 1 L.session.length ++ (L.session ++ (bigEndian 2 L.suites.length ++ (L.suites ++ [1, 0]))))

def data : List UInt8 := L.head ++ (bigEndian 2 L.block.length ++ L.block)

end Layout

/-- **A hello that the grammar reads has a layout**, part by part. -/
theorem exists_layout {data : List UInt8} {hello : Tls.ClientHello} (h : ReadsAll helloRecord data hello) :
    ∃ L : Layout hello, data = L.data := by
  -- the record
  obtain ⟨kind, b1, hkind, h1⟩ := run_bind_eq_some.mp h
  obtain ⟨-, rfl⟩ := eq_of_run_uint hkind
  obtain ⟨u1, b2, hensure, h2⟩ := run_bind_eq_some.mp h1
  obtain ⟨rfl, rfl⟩ := eq_of_run_ensure hensure
  obtain ⟨version, b3, hversion, h3⟩ := run_bind_eq_some.mp h2
  obtain ⟨hversion_lt, rfl⟩ := eq_of_run_uint hversion
  obtain ⟨u2, b4, hensure, h4⟩ := run_bind_eq_some.mp h3
  obtain ⟨hmajor, rfl⟩ := eq_of_run_ensure hensure
  obtain ⟨message, -, -, -, rfl, hmessage⟩ := eq_of_run_vector h4
  obtain ⟨high, low, hsize⟩ : ∃ high low, bigEndian 2 message.length = [high, low] :=
    ⟨_, _, by rw [bigEndian_succ, bigEndian_one]⟩
  rw [hsize]
  -- the handshake message
  obtain ⟨type, b5, htype, h5⟩ := run_bind_eq_some.mp hmessage
  obtain ⟨-, rfl⟩ := eq_of_run_uint htype
  obtain ⟨u3, b6, hensure, h6⟩ := run_bind_eq_some.mp h5
  obtain ⟨rfl, rfl⟩ := eq_of_run_ensure hensure
  obtain ⟨body, -, -, -, rfl, hbody⟩ := eq_of_run_vector h6
  generalize hlength : bigEndian 3 body.length = length
  have hlength_len : length.length = 3 := by rw [← hlength, length_bigEndian]
  -- its fields
  obtain ⟨legacy, b7, hlegacy, h7⟩ := run_bind_eq_some.mp hbody
  obtain ⟨-, rfl⟩ := eq_of_run_uint hlegacy
  obtain ⟨u4, b8, hensure, h8⟩ := run_bind_eq_some.mp h7
  obtain ⟨rfl, rfl⟩ := eq_of_run_ensure hensure
  obtain ⟨random, b9, hrandom, h9⟩ := run_bind_eq_some.mp h8
  obtain ⟨hrandom_len, rfl⟩ := eq_of_run_take hrandom
  obtain ⟨sid, b10, hsid, h10⟩ := run_bind_eq_some.mp h9
  obtain ⟨session, -, -, hsession_lt, rfl, -⟩ := eq_of_run_vector hsid
  obtain ⟨cipherSuites, b11, hsuites, h11⟩ := run_bind_eq_some.mp h10
  obtain ⟨suites, -, -, hsuites_lt, rfl, -⟩ := eq_of_run_vector hsuites
  obtain ⟨compression, b12, hcompression, h12⟩ := run_bind_eq_some.mp h11
  obtain ⟨methods, -, -, -, rfl, hmethods⟩ := eq_of_run_vector hcompression
  obtain ⟨u5, b13, hensure, h13⟩ := run_bind_eq_some.mp h12
  obtain ⟨hzero, rfl⟩ := eq_of_run_ensure hensure
  obtain ⟨fields, b14, hfields, h14⟩ := run_bind_eq_some.mp h13
  obtain ⟨block, -, -, hblock_lt, rfl, hblock⟩ := eq_of_run_vector hfields
  obtain ⟨u6, b15, hensure, h15⟩ := run_bind_eq_some.mp h14
  obtain ⟨hnodup, rfl⟩ := eq_of_run_ensure hensure
  obtain ⟨rfl, rfl⟩ := eq_of_run_pure h15
  obtain ⟨extensions, rfl, rfl⟩ := eq_of_readsAll_many Extension.write Extension.read Extension.exists_of_run hblock
  obtain rfl : methods = [0] := (Prod.mk.inj (Option.some.inj hmethods)).1.trans hzero
  have hmajor' : bigEndian 2 version = [3, UInt8.ofNat version] := by
    rw [bigEndian_succ, bigEndian_one, pow_one, hmajor]
    rfl
  have hone : bigEndian 1 1 = [1] := rfl
  have hkind : bigEndian 1 22 = [22] := rfl
  refine ⟨⟨bigEndian 1 22 ++ (bigEndian 2 version ++ ([high, low] ++ (bigEndian 1 1 ++
    (length ++ (bigEndian 2 0x0303 ++ random))))), session, suites, extensions, ?_, ?_, ?_,
    by simpa using hsession_lt, hsuites_lt, hblock_lt, rfl, ?_⟩, ?_⟩
  · simp only [List.length_append, length_bigEndian, hrandom_len, hlength_len, List.length_cons, List.length_nil]
  · rw [hkind, hmajor']
    exact ⟨UInt8.ofNat version, _, rfl⟩
  · rw [hkind, hmajor', hone]
    rfl
  · rw [List.map_map] at hnodup
    exact hnodup
  · unfold Layout.data Layout.head Layout.block
    simp only [List.append_assoc, List.append_nil]
    rfl

/-! ## The two readers agree

The loop over the extensions passes those of other types and stops at the first of its own. On
the layout this is a search in a list. -/

theorem ANTOHS_append {pre rest : List UInt8} {n i : ℕ} (hi : pre.length = i) (hn : n < 256 ^ 2) :
    ANTOHS (pre ++ (bigEndian 2 n ++ rest)) i = some n := by
  subst hi
  have hbytes : bigEndian 2 n = [UInt8.ofNat (n / 256), UInt8.ofNat n] := by
    rw [bigEndian_succ, bigEndian_one, pow_one]
  have hhigh : (pre ++ (bigEndian 2 n ++ rest))[pre.length]? = some (UInt8.ofNat (n / 256)) := by
    rw [hbytes, List.getElem?_append_right (le_refl _), Nat.sub_self]
    rfl
  have hlow : (pre ++ (bigEndian 2 n ++ rest))[pre.length + 1]? = some (UInt8.ofNat n) := by
    rw [hbytes, List.getElem?_append_right (Nat.le_add_right _ 1), Nat.add_sub_cancel_left]
    rfl
  unfold ANTOHS
  rw [hhigh, hlow]
  simp only [UInt8.toNat_ofNat', Option.some.injEq]
  omega

section
variable {t : ℕ} {data pre rest : List UInt8}

/-- An extension of another type is passed. -/
theorem extLoop_pass {e : Extension} {size : ℕ} (hdata : data = pre ++ (e.write ++ rest)) (hne : t ≠ e.type)
    (hsize : pre.length + 4 < size) :
    extLoop t data size pre.length = extLoop t data size (pre.length + e.write.length) := by
  have htype : ANTOHS data pre.length = some e.type := by
    rw [hdata, Extension.write, List.append_assoc]
    exact ANTOHS_append rfl e.type_lt
  have hlen : ANTOHS data (pre.length + 2) = some e.body.length := by
    rw [hdata, Extension.write, List.append_assoc, List.append_assoc, ← List.append_assoc pre]
    exact ANTOHS_append (by rw [List.length_append, length_bigEndian]) e.body_lt
  rw [extLoop, if_pos hsize, htype, Option.bind_some, if_neg hne, hlen, Option.bind_some, e.length_write]

/-- The loop stops at an extension of its type. -/
theorem extLoop_hit {e : Extension} {size : ℕ} (hdata : data = pre ++ (e.write ++ rest)) (heq : t = e.type)
    (hsize : pre.length + 4 < size) : extLoop t data size pre.length = some pre.length := by
  have htype : ANTOHS data pre.length = some e.type := by
    rw [hdata, Extension.write, List.append_assoc]
    exact ANTOHS_append rfl e.type_lt
  rw [extLoop, if_pos hsize, htype, Option.bind_some, if_pos heq]

/-- The loop stops at the first extension of the type. -/
theorem extLoop_found {before after : List Extension} {e : Extension} {size : ℕ}
    (hdata : data = pre ++ (before ++ e :: after).flatMap Extension.write) (hsize : size = data.length)
    (hbefore : ∀ b ∈ before, t ≠ b.type) (heq : t = e.type) (hbody : e.body ≠ []) :
    extLoop t data size pre.length = some (pre.length + (before.flatMap Extension.write).length) := by
  have hpos : 0 < e.body.length := List.length_pos_iff.mpr hbody
  induction before generalizing pre with
  | nil =>
    rw [List.nil_append, List.flatMap_cons] at hdata
    refine extLoop_hit hdata heq ?_
    rw [hsize, hdata]
    simp only [List.length_append, Extension.length_write]
    omega
  | cons b before ih =>
    rw [List.cons_append, List.flatMap_cons] at hdata
    rw [extLoop_pass hdata (hbefore b List.mem_cons_self)]
    · rw [← List.append_assoc] at hdata
      have hrest := ih hdata fun x hx => hbefore x (List.mem_cons_of_mem b hx)
      rw [List.length_append] at hrest
      rw [hrest, List.flatMap_cons, List.length_append, Nat.add_assoc]
    · rw [hsize, hdata]
      simp only [List.flatMap_append, List.flatMap_cons, List.length_append, Extension.length_write]
      omega

theorem extLoop_none {extensions : List Extension} {size : ℕ}
    (hdata : data = pre ++ extensions.flatMap Extension.write) (hsize : size = data.length)
    (hall : ∀ e ∈ extensions, t ≠ e.type) : extLoop t data size pre.length = some 0 := by
  induction extensions generalizing pre with
  | nil =>
    rw [List.flatMap_nil, List.append_nil] at hdata
    rw [extLoop, if_neg (by rw [hsize, hdata]; omega)]
  | cons e extensions ih =>
    rw [List.flatMap_cons] at hdata
    by_cases hend : pre.length + 4 < size
    · rw [extLoop_pass hdata (hall e List.mem_cons_self) hend]
      rw [← List.append_assoc] at hdata
      have hrest := ih hdata fun x hx => hall x (List.mem_cons_of_mem e hx)
      rwa [List.length_append] at hrest
    · -- an extension without data at the very end is not looked at
      rw [extLoop, if_neg hend]

end

/-! ## The name

The name stands in the extension of type zero, behind its kind and its length. The reader of the
source and the one of the grammar find the same bytes there. -/

namespace Layout

variable {hello : Tls.ClientHello} (L : Layout hello)

/-- How much stands before the extensions. -/
theorem length_head : L.head.length = 44 + L.session.length + 2 + L.suites.length + 2 := by
  unfold head
  simp only [List.length_append, length_bigEndian, L.length_front, List.length_cons, List.length_nil]
  omega

theorem length_data : L.data.length = L.head.length + 2 + L.block.length := by
  unfold data
  simp only [List.length_append, length_bigEndian]
  omega

/-- The record from its front to its extensions. -/
theorem data_eq : L.data = L.front ++ (bigEndian 1 L.session.length ++ (L.session ++
    (bigEndian 2 L.suites.length ++ (L.suites ++ ([1, 0] ++ (bigEndian 2 L.block.length ++ L.block)))))) := by
  unfold data head
  simp only [List.append_assoc]

/-- The first bytes tell it to be a hello. -/
theorem isTlsChello_eq : isTlsChello L.data L.data.length = some true := by
  have hlen := L.length_data
  have hhead := L.length_head
  obtain ⟨minor, rest, hfront⟩ := L.front_head
  have hfirst : ANTOHS L.data 0 = some 0x1603 := by
    rw [L.data_eq, hfront]
    rfl
  have hkind : L.data[5]? = some 1 := by
    rw [L.data_eq, List.getElem?_append_left (by rw [L.length_front]; omega)]
    exact L.front_kind
  unfold isTlsChello
  rw [if_pos (by omega), hfirst, Option.bind_some, hkind]
  rfl

/-- The walk over session, suites and compressions ends at the extensions. -/
theorem findExtBlock_eq : findExtBlock L.data L.data.length = some L.head.length := by
  have hlen := L.length_data
  have hhead := L.length_head
  have hsid : L.data[43]? = some (UInt8.ofNat L.session.length) := by
    rw [L.data_eq, List.getElem?_append_right (by rw [L.length_front]), L.length_front, bigEndian_one]
    rfl
  have hsidLen : (UInt8.ofNat L.session.length).toNat = L.session.length := by
    rw [UInt8.toNat_ofNat']
    exact Nat.mod_eq_of_lt L.session_lt
  have hsuites : ANTOHS L.data (44 + L.session.length) = some L.suites.length := by
    rw [L.data_eq, ← List.append_assoc, ← List.append_assoc]
    refine ANTOHS_append ?_ L.suites_lt
    simp only [List.length_append, length_bigEndian, L.length_front]
  unfold findExtBlock
  rw [if_neg (by omega), hsid, Option.bind_some, hsidLen, if_neg (by omega), hsuites, Option.bind_some]
  dsimp only
  rw [if_neg (by omega), hhead]

/-- The list of extensions is as long as its length says, and the loop runs over all of it. -/
theorem findTlsExtOffset_eq (t : ℕ) : findTlsExtOffset t L.data L.data.length L.head.length =
    if L.block.length = 0 then some 0 else extLoop t L.data L.data.length (L.head.length + 2) := by
  have hlen := L.length_data
  have hblock : ANTOHS L.data L.head.length = some L.block.length := ANTOHS_append rfl L.extensions_lt
  unfold findTlsExtOffset
  by_cases hnone : L.block.length = 0
  · rw [if_pos (by omega), if_pos hnone]
  · rw [if_neg (by omega), if_neg hnone, hblock, Option.bind_some, if_neg (by omega)]

/-- The extensions, behind everything that precedes them. -/
theorem exists_pre : ∃ pre : List UInt8, pre.length = L.head.length + 2 ∧
    L.data = pre ++ L.extensions.flatMap Extension.write := by
  refine ⟨L.head ++ bigEndian 2 L.block.length, ?_, ?_⟩
  · rw [List.length_append, length_bigEndian]
  · rw [List.append_assoc]
    rfl

/-- An extension that is not there is not found. -/
theorem findTlsExtOffset_none {t : ℕ} (hall : ∀ e ∈ L.extensions, t ≠ e.type) :
    findTlsExtOffset t L.data L.data.length L.head.length = some 0 := by
  obtain ⟨pre, hpre, hdata⟩ := L.exists_pre
  rw [L.findTlsExtOffset_eq]
  split
  · rfl
  · rw [← hpre]
    exact extLoop_none hdata rfl hall

/-- An extension that is there, and not empty, is found. -/
theorem findTlsExtOffset_some {t : ℕ} {e : Extension} (he : e ∈ L.extensions) (heq : t = e.type) (hbody : e.body ≠ []) :
    ∃ pre rest : List UInt8, findTlsExtOffset t L.data L.data.length L.head.length = some pre.length ∧ pre ≠ [] ∧
      L.data = pre ++ (e.write ++ rest) := by
  obtain ⟨pre, hpre, hdata⟩ := L.exists_pre
  obtain ⟨before, after, hsplit⟩ := List.append_of_mem he
  have hnodup := L.types_nodup
  rw [hsplit] at hdata hnodup
  rw [List.map_append, List.map_cons, List.nodup_append] at hnodup
  -- of one type there is one extension
  have hbefore : ∀ b ∈ before, t ≠ b.type := by
    intro b hb hbt
    exact hnodup.2.2 b.type (List.mem_map_of_mem hb) e.type List.mem_cons_self (hbt.symm.trans heq)
  refine ⟨pre ++ before.flatMap Extension.write, after.flatMap Extension.write, ?_, ?_, ?_⟩
  · have hnonempty : L.block.length ≠ 0 := by
      unfold block
      rw [hsplit, List.flatMap_append, List.flatMap_cons, List.length_append, List.length_append, e.length_write]
      omega
    rw [L.findTlsExtOffset_eq, if_neg hnonempty, ← hpre, extLoop_found hdata rfl hbefore heq hbody, List.length_append]
  · apply List.append_ne_nil_of_left_ne_nil
    apply List.ne_nil_of_length_pos
    omega
  · rw [hdata, List.flatMap_append, List.flatMap_cons, List.append_assoc]

end Layout

/-- A host name behind its kind and its length. -/
def writeName (name : { n : List UInt8 // n.length < 256 ^ 2 }) : List UInt8 :=
  bigEndian 1 0 ++ (bigEndian 2 name.1.length ++ name.1)

/-- A name that the grammar reads was written so. -/
theorem exists_name_of_run {bytes rest a : List UInt8} (h : Tls.hostName.run bytes = some (a, rest)) :
    ∃ name : { n : List UInt8 // n.length < 256 ^ 2 }, bytes = writeName name ++ rest ∧ name.1 = a := by
  obtain ⟨kind, b1, hkind, h1⟩ := run_bind_eq_some.mp h
  obtain ⟨-, rfl⟩ := eq_of_run_uint hkind
  obtain ⟨u, b2, hensure, h2⟩ := run_bind_eq_some.mp h1
  obtain ⟨rfl, rfl⟩ := eq_of_run_ensure hensure
  obtain ⟨name, -, -, hlt, rfl, hname⟩ := eq_of_run_vector h2
  obtain ⟨rfl, -⟩ := Prod.mk.inj (Option.some.inj hname)
  refine ⟨⟨name, hlt⟩, ?_, rfl⟩
  unfold writeName
  simp only [List.append_assoc]

/-- The extension of type 0 is a list of names. -/
theorem serverName_of_content {body : List UInt8} {value : Tls.Extension} (h : ReadsAll (Tls.content 0) body value) :
    ∃ names, value = .serverName names ∧ ReadsAll (vector 2 1 65535 (many Tls.hostName)) body names := by
  obtain ⟨names, hnames, rfl⟩ := ReadsAll.of_map h
  exact ⟨names, rfl, hnames⟩

/-- The data of a list of names: what precedes the first name, the name, and what follows. -/
theorem names_body {body : List UInt8} {name : List UInt8} {more : List (List UInt8)}
    (h : ReadsAll (Tls.content 0) body (.serverName (name :: more))) :
    name.length < 256 ^ 2 ∧ ∃ size rest : List UInt8, size.length = 3 ∧
      body = size ++ (bigEndian 2 name.length ++ (name ++ rest)) := by
  obtain ⟨names, heq, hnames⟩ := serverName_of_content h
  obtain rfl := Tls.Extension.serverName.inj heq
  obtain ⟨list, -, -, -, rfl, hlist⟩ := eq_of_run_vector hnames
  obtain ⟨items, hitems, hvalues⟩ := eq_of_readsAll_many writeName Subtype.val exists_name_of_run hlist
  obtain ⟨first, others, rfl, rfl, -⟩ := List.map_eq_cons_iff.mp hvalues
  refine ⟨first.2, bigEndian 2 list.length ++ bigEndian 1 0, others.flatMap writeName, ?_, ?_⟩
  · rw [List.length_append, length_bigEndian, length_bigEndian]
  · rw [hitems, List.flatMap_cons, writeName]
    simp only [List.append_assoc, List.append_nil]

/-- **The name that the strict reader finds is the name that is found**, where it is of four bytes or
more; and where there is none, none is found. -/
theorem parseTls_hello {data : List UInt8} {hello : Tls.ClientHello} (h : ReadsAll helloRecord data hello) :
    ((∀ names, (0, Tls.Extension.serverName names) ∉ hello.extensions) → parseTls data data.length = some (0, 0)) ∧
      ∀ name more, (0, Tls.Extension.serverName (name :: more)) ∈ hello.extensions → 4 ≤ name.length →
        ∃ hs, parseTls data data.length = some (name.length, hs) ∧ (data.drop hs).take name.length = name := by
  obtain ⟨L, rfl⟩ := exists_layout h
  have hhead := L.length_head
  have hparse : parseTls L.data L.data.length =
      (findTlsExtOffset 0x00 L.data L.data.length L.head.length).bind fun sniOffs =>
        if sniOffs = 0 ∨ L.data.length ≤ sniOffs + 12 then some (0, 0)
        else
          (ANTOHS L.data (sniOffs + 7)).bind fun len =>
            if L.data.length < sniOffs + 9 + len then some (0, 0) else some (len, sniOffs + 9) := by
    unfold parseTls
    rw [L.isTlsChello_eq, Option.bind_some, if_neg (by decide), L.findExtBlock_eq, Option.bind_some, if_neg (by omega)]
  constructor
  · intro hnone
    have hall : ∀ e ∈ L.extensions, 0x00 ≠ e.type := by
      intro e he htype
      have hreads := e.reads
      rw [← htype] at hreads
      obtain ⟨names, hvalue, -⟩ := serverName_of_content hreads
      apply hnone names
      rw [← L.read_eq]
      refine List.mem_map.mpr ⟨e, he, ?_⟩
      rw [Extension.read, ← htype, hvalue]
    rw [hparse, L.findTlsExtOffset_none hall, Option.bind_some, if_pos (.inl rfl)]
  · intro name more hmem hname
    rw [← L.read_eq] at hmem
    obtain ⟨e, he, hread⟩ := List.mem_map.mp hmem
    obtain ⟨htype, hvalue⟩ := Prod.mk.inj hread
    have hreads := e.reads
    rw [htype, hvalue] at hreads
    obtain ⟨hlt, size, rest, hsize, hbody⟩ := names_body hreads
    have hne : e.body ≠ [] := by
      rw [hbody]
      apply List.append_ne_nil_of_left_ne_nil
      apply List.ne_nil_of_length_pos
      omega
    obtain ⟨pre, after, hfound, hpre, hdata⟩ := L.findTlsExtOffset_some he htype.symm hne
    have hpos : 0 < pre.length := List.length_pos_iff.mpr hpre
    -- the name behind the heads of its extension and of the list
    have hsplit : L.data = (pre ++ (bigEndian 2 e.type ++ (bigEndian 2 e.body.length ++ size))) ++
        (bigEndian 2 name.length ++ (name ++ (rest ++ after))) := by
      rw [hdata, Extension.write, hbody]
      simp only [List.append_assoc]
    have hfront : (pre ++ (bigEndian 2 e.type ++ (bigEndian 2 e.body.length ++ size))).length = pre.length + 7 := by
      simp only [List.length_append, length_bigEndian, hsize]
    have hlen : ANTOHS L.data (pre.length + 7) = some name.length := by
      rw [hsplit]
      exact ANTOHS_append hfront hlt
    have htotal : L.data.length = pre.length + 7 + 2 + name.length + rest.length + after.length := by
      rw [hsplit, List.length_append, hfront]
      simp only [List.length_append, length_bigEndian]
      omega
    refine ⟨pre.length + 9, ?_, ?_⟩
    · rw [hparse, hfound, Option.bind_some, if_neg (by omega), hlen, Option.bind_some, if_neg (by omega)]
    · have hbefore : (pre ++ (bigEndian 2 e.type ++ (bigEndian 2 e.body.length ++ size)) ++ bigEndian 2 name.length).length =
          pre.length + 9 := by
        rw [List.length_append, hfront, length_bigEndian]
      rw [hsplit, ← List.append_assoc, List.drop_left' hbefore, List.take_left]

/-- A ClientHello with one cipher suite that names a server. -/
def sampleHello : List UInt8 :=
  [22, 3, 1, 0, 60, 1, 0, 0, 56, 3, 3] ++ List.replicate 32 7 ++
    [0, 0, 2, 0x13, 0x01, 1, 0, 0, 13, 0, 0, 0, 9, 0, 7, 0, 0, 4, 97, 46, 114, 117]

/-- A short hello for `ya.ru`, as the grammar reads it. -/
theorem reads_sampleHello : ReadsAll helloRecord sampleHello
    ⟨List.replicate 32 7, [], [0x1301], [(0, .serverName [[97, 46, 114, 117]])]⟩ := by
  decide +kernel

theorem parseTls_hello_short :
    ∃ hs, parseTls sampleHello sampleHello.length = some (4, hs) ∧ (sampleHello.drop hs).take 4 = [97, 46, 114, 117] :=
  (parseTls_hello reads_sampleHello).2 [97, 46, 114, 117] [] List.mem_cons_self (by decide)

end VlessCard.Packets
