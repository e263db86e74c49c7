/-
`packets.c` of the local engine: the host of an HTTP request, and the request changed around it.

The pointers of the source walk backwards from the end of a line as well as forwards, and nothing
in them says where to stop. As in the reader of a ClientHello, a read or a write outside of the
bytes has no result; here one can happen, and the theorem says on which requests.
-/
import Mathlib

set_option autoImplicit false

namespace VlessCard.HttpHost

/-! ## Bytes

The character classes and the two changes of case are those of the C locale, written out over the
numbers of the bytes. -/

def isspace (c : UInt8) : Bool := c = 32 || (9 ≤ c && c ≤ 13)

def isdigit (c : UInt8) : Bool := 48 ≤ c && c ≤ 57

def toupper (c : UInt8) : UInt8 := if 97 ≤ c && c ≤ 122 then c - 32 else c

def tolower (c : UInt8) : UInt8 := if 65 ≤ c && c ≤ 90 then c + 32 else c

/-- `strncasecmp(a, b, n) == 0` for rows of one length. -/
def strncaseeq (a b : List UInt8) : Bool := a.map tolower == b.map tolower

def ascii (s : String) : List UInt8 := s.toList.map fun c => UInt8.ofNat c.toNat

/-! ## The functions

The functions read and write through pointers, so their models return nothing where the source
reads or writes outside of the buffer. That they do return something is a result and not an
assumption. -/

def methods : List (List UInt8) :=
  [ascii "HEAD", ascii "GET", ascii "POST", ascii "PUT", ascii "DELETE", ascii "OPTIONS", ascii "CONNECT",
    ascii "TRACE", ascii "PATCH"]

/-- `is_http`; the first byte is compared with `T` and with `C` before the methods are. -/
def isHttp (buffer : List UInt8) : Bool :=
  if buffer.length < 16 then false
  else
    match buffer with
    | [] => false
    | first :: _ => if 84 < first ∨ first < 67 then false else methods.any fun m => m.isPrefixOf buffer

/-- `strncasestr`; `memchr` for the first byte, and a comparison where it stands. -/
def strncasestr (b : List UInt8) : List UInt8 → Option ℕ
  | [] => none
  | c :: a =>
    if c = b.headD 0 then
      if (c :: a).length < b.length then none
      else if strncaseeq ((c :: a).take b.length) b then some 0
      else (strncasestr b a).map (· + 1)
    else (strncasestr b a).map (· + 1)

def memchr (data : List UInt8) (c : UInt8) (i : ℕ) : Option ℕ := ((data.drop i).findIdx? (· = c)).map (i + ·)

/-- The first byte from `i` on that is not a space, or the end. -/
def skipSpaces (data : List UInt8) (i : ℕ) : ℕ := i + ((data.drop i).takeWhile (· = 32)).length

/-- `for (; p(*(i - 1)); i--);` -/
def backWhile (p : UInt8 → Bool) (data : List UInt8) : ℕ → Option ℕ
  | 0 => none
  | i + 1 => data[i]?.bind fun c => if p c then backWhile p data i else some (i + 1)

/-- `*(i - 1)`. -/
def before (data : List UInt8) : ℕ → Option UInt8
  | 0 => none
  | i + 1 => data[i]?

/-- The digits read as a number. -/
def number (digits : List UInt8) : ℕ := digits.foldl (fun n c => 10 * n + (c.toNat - 48)) 0

/-- `strtol(p, &end, 10)`: the number, and how many bytes it takes. White space and a sign come first,
and the byte that is no digit any more is read as well; without digits nothing is taken. -/
def strtol (p : List UInt8) : Option (ℤ × ℕ) :=
  let blanks := (p.takeWhile isspace).length
  p[blanks]?.bind fun sign =>
    let first := if sign = 43 ∨ sign = 45 then blanks + 1 else blanks
    let digits := (p.drop first).takeWhile isdigit
    p[first + digits.length]?.map fun _ =>
      if digits = [] then (0, 0)
      else if sign = 45 then (max (-2 ^ 63) (-(number digits : ℤ)), first + digits.length)
      else (min (2 ^ 63 - 1) (number digits : ℤ), first + digits.length)

/-- `parse_http` from the brackets around an address on: the length of the host, and where it begins. -/
def hostBetween (buffer : List UInt8) (host h_end : ℕ) : Option (ℤ × Option ℕ) :=
  buffer[host]?.bind fun first =>
    if first = 91 then
      (before buffer h_end).bind fun last =>
        if last ≠ 93 then some (0, none)
        else some (((h_end - 1 : ℕ) : ℤ) - ((host + 1 : ℕ) : ℤ), some (host + 1))
    else some ((h_end : ℤ) - host, some host)

/-- `parse_http`: the length of the host and where it begins, and the port where there is one to fill in. -/
def parseHttpPort (buffer : List UInt8) (port : Option ℕ) : Option ((ℤ × Option ℕ) × Option ℕ) :=
  if isHttp buffer = false then some ((0, none), port)
  else
    match strncasestr (ascii "\nHost:") buffer with
    | none => some ((0, none), port)
    | some p =>
      match memchr buffer 10 (skipSpaces buffer (p + 6)) with
      | none => some ((0, none), port)
      | some newline =>
        let host := skipSpaces buffer (p + 6)
        (backWhile isspace buffer newline).bind fun l_end =>
          -- the byte before `l_end` is passed without a look at it
          (backWhile isdigit buffer (l_end - 1)).bind fun next =>
            (before buffer next).bind fun c =>
              if c ≠ 58 then (hostBetween buffer host l_end).map fun found => (found, port.map fun _ => 80)
              else
                match port with
                | none => (hostBetween buffer host (next - 1)).map fun found => (found, none)
                | some _ =>
                  (strtol (buffer.drop next)).bind fun (i, taken) =>
                    if i ≤ 0 ∨ next + taken ≠ l_end ∨ 65535 < i then some ((0, none), port)
                    else (hostBetween buffer host (next - 1)).map fun found => (found, some i.toNat)

/-- `parse_http(buffer, bsize, hs, 0)`, as it is called from everywhere but from the proxy itself. -/
def parseHttp (buffer : List UInt8) : Option (ℤ × Option ℕ) := (parseHttpPort buffer none).map Prod.fst

/-- The bits of the option `mod-http`. -/
structure ModHttp where
  HMIX : Bool := false
  SPACE : Bool := false
  DMIX : Bool := false
  deriving DecidableEq, Repr

/-- `for (i = 0; i < n; i += 2) host[i] = toupper(host[i]);` -/
def upEverySecond : List UInt8 → List UInt8
  | [] => []
  | [c] => [toupper c]
  | c :: d :: rest => toupper c :: d :: upEverySecond rest

/-- What `f` makes of the `len` bytes at `i`. -/
def change (data : List UInt8) (i len : ℕ) (f : List UInt8 → List UInt8) : List UInt8 :=
  data.take i ++ f ((data.drop i).take len) ++ data.drop (i + len)

/-- `for (; !isspace(*i); i++) {}` from a position that may lie before the bytes. -/
def nextSpace (data : List UInt8) (i : ℤ) : Option ℕ :=
  if i < 0 then none else ((data.drop i.toNat).findIdx? isspace).map (i.toNat + ·)

/-- `mod_http`; a negative length is a size that no memory has. -/
def modHttp (buffer : List UInt8) (m : ModHttp) : Option (ℤ × List UInt8) :=
  (parseHttp buffer).bind fun (hlen, hs) =>
    if hlen = 0 then some (-1, buffer)
    else
      hs.bind fun host =>
        (backWhile (fun c => c ≠ 58) buffer host).bind fun name =>
          -- `name` is what the source calls `par + 5`
          if name < 5 then none
          else
            let buffer := if m.HMIX then
                (buffer.modify (name - 5) tolower).modify (name - 4) toupper |>.modify (name - 2) toupper
              else buffer
            let buffer := if m.DMIX then change buffer host hlen.toNat upEverySecond else buffer
            if m.SPACE then
              (nextSpace buffer (host + hlen)).bind fun stop =>
                if stop < host then none
                else some (0, change buffer name (stop - name) fun bytes =>
                  bytes.drop (host - name) ++ List.replicate (host - name) 9)
            else some (0, buffer)

/-! ## Walking

Each loop over bytes ends at the first byte of a kind. What the walk has passed is known then,
and a row of bytes is cut at the last byte that is not of a kind in one way only. -/

/-- What the search finds is the name in some case, with all that is before and behind it. -/
theorem strncasestr_eq_some {b a : List UInt8} {p : ℕ} (h : strncasestr b a = some p) :
    ∃ pre hit rest, a = pre ++ (hit ++ rest) ∧ pre.length = p ∧ hit.length = b.length ∧
      hit.map tolower = b.map tolower := by
  induction a generalizing p with
  | nil => simp [strncasestr] at h
  | cons c a ih =>
    -- further on, the byte passed is one more in front
    have hnext : (strncasestr b a).map (· + 1) = some p → ∃ pre hit rest, c :: a = pre ++ (hit ++ rest) ∧
        pre.length = p ∧ hit.length = b.length ∧ hit.map tolower = b.map tolower := by
      intro hmap
      obtain ⟨q, hq, rfl⟩ := Option.map_eq_some_iff.mp hmap
      obtain ⟨pre, hit, rest, rfl, rfl, hlen, heq⟩ := ih hq
      exact ⟨c :: pre, hit, rest, rfl, rfl, hlen, heq⟩
    unfold strncasestr at h
    split at h
    · split at h
      · simp at h
      · rename_i hshort
        split at h
        · rename_i heq
          obtain rfl := Option.some.inj h
          refine ⟨[], (c :: a).take b.length, (c :: a).drop b.length, ?_, rfl, ?_, ?_⟩
          · rw [List.nil_append, List.take_append_drop]
          · rw [List.length_take]
            omega
          · exact eq_of_beq heq
        · exact hnext h
    · exact hnext h

/-- `memchr` finds the first such byte: none is on the way there. -/
theorem memchr_eq_some {data : List UInt8} {c : UInt8} {i j : ℕ} (h : memchr data c i = some j) :
    ∃ mid rest, data.drop i = mid ++ c :: rest ∧ c ∉ mid ∧ j = i + mid.length := by
  unfold memchr at h
  obtain ⟨k, hk, rfl⟩ := Option.map_eq_some_iff.mp h
  rw [List.findIdx?_eq_some_iff_getElem] at hk
  obtain ⟨hlt, hat, hbefore⟩ := hk
  have hc : (data.drop i)[k] = c := by simpa using hat
  have hlen : ((data.drop i).take k).length = k := by
    rw [List.length_take]
    omega
  refine ⟨(data.drop i).take k, (data.drop i).drop (k + 1), ?_, ?_, by rw [hlen]⟩
  · rw [← hc, List.getElem_cons_drop, List.take_append_drop]
  · intro hmem
    obtain ⟨l, hl, hget⟩ := List.mem_iff_getElem.mp hmem
    rw [hlen] at hl
    rw [List.getElem_take] at hget
    simpa [hget] using hbefore l hl

/-- The spaces that are passed. -/
theorem skipSpaces_eq (data : List UInt8) (i : ℕ) :
    ∃ blanks rest, data.drop i = List.replicate blanks 32 ++ rest ∧ rest.head? ≠ some 32 ∧
      skipSpaces data i = i + blanks := by
  refine ⟨((data.drop i).takeWhile (· = 32)).length, (data.drop i).dropWhile (· = 32), ?_, ?_, rfl⟩
  · have hall : (data.drop i).takeWhile (· = 32) = List.replicate ((data.drop i).takeWhile (· = 32)).length 32 :=
      List.eq_replicate_of_mem fun c hc => by simpa using List.mem_takeWhile_imp hc
    rw [← hall, List.takeWhile_append_dropWhile]
  · intro hhead
    have hnot := List.head?_dropWhile_not (fun c : UInt8 => decide (c = 32)) (data.drop i)
    rw [hhead] at hnot
    simp at hnot

/-- Walking back ends at the first byte that does not count. -/
theorem backWhile_eq {p : UInt8 → Bool} {c : UInt8} (hc : p c = false) (pre : List UInt8) {s : List UInt8}
    (hs : ∀ x ∈ s, p x = true) (rest : List UInt8) {i : ℕ} (hi : i = pre.length + 1 + s.length) :
    backWhile p (pre ++ c :: (s ++ rest)) i = some (pre.length + 1) := by
  subst hi
  induction s using List.reverseRecOn generalizing rest with
  | nil =>
    rw [List.length_nil, Nat.add_zero, backWhile, List.getElem?_append_right (le_refl _), Nat.sub_self,
      List.getElem?_cons_zero, Option.bind_some, if_neg (by simp [hc])]
  | append_singleton s x ih =>
    have hx : (pre ++ c :: (s ++ [x] ++ rest))[pre.length + 1 + s.length]? = some x := by
      rw [List.getElem?_append_right (by omega), show pre.length + 1 + s.length - pre.length = s.length + 1 by omega,
        List.getElem?_cons_succ, List.append_assoc, List.getElem?_append_right (le_refl _), Nat.sub_self]
      rfl
    rw [List.length_append, List.length_singleton, ← Nat.add_assoc, backWhile, hx, Option.bind_some,
      if_pos (hs x (by simp)), List.append_assoc]
    exact ih (fun y hy => hs y (by simp [hy])) ([x] ++ rest)

/-- The byte before a place, in a list that is cut there. -/
theorem before_append (pre : List UInt8) (c : UInt8) (rest : List UInt8) :
    before (pre ++ c :: rest) (pre.length + 1) = some c := by
  show (pre ++ c :: rest)[pre.length]? = some c
  rw [List.getElem?_append_right (le_refl _), Nat.sub_self, List.getElem?_cons_zero]

/-- A row ends in bytes that count, as many as there are. -/
theorem exists_suffix (p : UInt8 → Bool) (l : List UInt8) :
    (∀ x ∈ l, p x = true) ∨ ∃ front c s, l = front ++ c :: s ∧ p c = false ∧ ∀ x ∈ s, p x = true := by
  induction l using List.reverseRecOn with
  | nil => exact .inl fun x hx => absurd hx List.not_mem_nil
  | append_singleton l x ih =>
    by_cases hx : p x = true
    · obtain hall | ⟨front, c, s, rfl, hc, hs⟩ := ih
      · refine .inl fun y hy => ?_
        obtain hy | hy := List.mem_append.mp hy
        · exact hall y hy
        · rw [List.mem_singleton.mp hy]
          exact hx
      · refine .inr ⟨front, c, s ++ [x], by simp, hc, fun y hy => ?_⟩
        obtain hy | hy := List.mem_append.mp hy
        · exact hs y hy
        · rw [List.mem_singleton.mp hy]
          exact hx
    · exact .inr ⟨l, x, [], rfl, by simpa using hx, fun y hy => absurd hy List.not_mem_nil⟩

/-- Where the last byte that is not of a kind stands is told by the list. -/
theorem suffix_inj {p : UInt8 → Bool} {front front' s s' : List UInt8} {c c' : UInt8}
    (h : front ++ c :: s = front' ++ c' :: s') (hc : p c = false) (hs : ∀ x ∈ s, p x = true) (hc' : p c' = false)
    (hs' : ∀ x ∈ s', p x = true) : front = front' := by
  obtain ⟨mid, hmid, hrest⟩ | ⟨mid, hmid, hrest⟩ := List.append_eq_append_iff.mp h
  · cases mid with
    | nil => simpa using hmid.symm
    | cons x mid =>
      have hmem : c' ∈ s := by
        rw [(List.cons.inj hrest).2]
        simp
      exact absurd (hs c' hmem) (by simp [hc'])
  · cases mid with
    | nil => simpa using hmid
    | cons x mid =>
      have hmem : c ∈ s' := by
        rw [(List.cons.inj hrest).2]
        simp
      exact absurd (hs' c hmem) (by simp [hc])

/-! ## The line of the host

A buffer with a `Host` line is put together of what is before the line, the name, the blanks, the
value and the rest. The structure names these parts, and the functions are evaluated on the
buffer that they make up. -/

/-- The line that `parse_http` looks at: the first that begins with `Host:` in any case. -/
structure HostLine (buffer : List UInt8) where
  pre : List UInt8
  name : List UInt8
  blanks : ℕ
  line : List UInt8
  after : List UInt8
  isHttp_eq : isHttp buffer = true
  first : strncasestr (ascii "\nHost:") buffer = some pre.length
  buffer_eq : buffer = pre ++ 10 :: (name ++ 58 :: (List.replicate blanks 32 ++ (line ++ 10 :: after)))
  name_eq : name.map tolower = ascii "host"
  head_ne : line.head? ≠ some 32
  newline_notMem : 10 ∉ line

/-- Only a letter comes out of `tolower` as one. -/
theorem eq_of_tolower {c d : UInt8} (h : tolower c = d) (hd : d < 97 ∨ 122 < d) : c = d := by
  unfold tolower at h
  split at h
  · rename_i hupper
    subst h
    simp only [Bool.and_eq_true, decide_eq_true_eq, UInt8.le_iff_toNat_le] at hupper
    simp only [UInt8.lt_iff_toNat_lt, UInt8.toNat_add, UInt8.reduceToNat] at hd hupper
    omega
  · exact h

namespace HostLine

variable {buffer : List UInt8} (L : HostLine buffer)

/-- A name that reads `host` has four bytes. -/
theorem length_name : L.name.length = 4 := by
  rw [← List.length_map (f := tolower), L.name_eq]
  rfl

/-- Where the field begins, where it is not blank any more, and where the line ends. -/
def field : ℕ := L.pre.length + 6

def host : ℕ := L.field + L.blanks

def newline : ℕ := L.host + L.line.length

/-- There is nothing but blanks. -/
def Blank : Prop := ∀ c ∈ L.line, isspace c = true

/-- The buffer behind the name. -/
theorem drop_field : buffer.drop L.field = List.replicate L.blanks 32 ++ (L.line ++ 10 :: L.after) := by
  have hsplit : buffer = (L.pre ++ 10 :: (L.name ++ [58])) ++ (List.replicate L.blanks 32 ++ (L.line ++ 10 :: L.after)) := by
    refine L.buffer_eq.trans ?_
    simp only [List.append_assoc, List.cons_append, List.nil_append]
  refine (congrArg (List.drop L.field) hsplit).trans ?_
  rw [List.drop_left']
  simp only [List.length_append, List.length_cons, List.length_nil, L.length_name, field]

/-- What is behind the blanks: the line, its newline and the rest. -/
theorem drop_host : buffer.drop L.host = L.line ++ 10 :: L.after := by
  rw [host, ← List.drop_drop, L.drop_field, List.drop_left' List.length_replicate]

/-- The walk over the blanks ends at the value. -/
theorem skipSpaces_field : skipSpaces buffer L.field = L.host := by
  have hhead : (L.line ++ 10 :: L.after).head? ≠ some 32 := by
    have hline := L.head_ne
    cases hl : L.line with
    | nil => simp
    | cons c rest =>
      rw [hl] at hline
      exact hline
  have hstop : (L.line ++ 10 :: L.after).takeWhile (fun c => decide (c = 32)) = [] := by
    cases hl : L.line ++ 10 :: L.after with
    | nil => rfl
    | cons c rest =>
      rw [hl] at hhead
      exact List.takeWhile_cons_of_neg (by simpa using hhead)
  unfold skipSpaces
  rw [L.drop_field, List.takeWhile_append_of_pos (by simp), hstop, List.append_nil, List.length_replicate, host]

/-- And the line ends at the newline that the line has. -/
theorem memchr_host : memchr buffer 10 L.host = some L.newline := by
  unfold memchr
  rw [L.drop_host, Option.map_eq_some_iff]
  refine ⟨L.line.length, ?_, rfl⟩
  rw [List.findIdx?_eq_some_iff_getElem]
  refine ⟨by simp, by simp, fun j hj => ?_⟩
  rw [List.getElem_append_left hj]
  have hmem : L.line[j] ∈ L.line := List.getElem_mem hj
  simpa using fun heq : L.line[j] = 10 => L.newline_notMem (heq ▸ hmem)

/-- There is one such line. -/
theorem unique (L L' : HostLine buffer) : L.blanks = L'.blanks ∧ L.line = L'.line := by
  have hpre : L.pre.length = L'.pre.length := Option.some.inj (L.first.symm.trans L'.first)
  have hfield : L.field = L'.field := by
    unfold field
    rw [hpre]
  have hhost : L.host = L'.host := by
    rw [← L.skipSpaces_field, hfield, L'.skipSpaces_field]
  have hnewline : L.newline = L'.newline := by
    have hmem := L.memchr_host
    rw [hhost, L'.memchr_host] at hmem
    exact (Option.some.inj hmem).symm
  have hline : L.line ++ 10 :: L.after = L'.line ++ 10 :: L'.after := by
    rw [← L.drop_host, hhost, L'.drop_host]
  refine ⟨?_, (List.append_inj hline ?_).1⟩
  · unfold host at hhost
    omega
  · unfold newline at hnewline
    omega

end HostLine

/-- Where a line is found, it is such a line. -/
theorem exists_hostLine {buffer : List UInt8} {p newline : ℕ} (hhttp : isHttp buffer = true)
    (hp : strncasestr (ascii "\nHost:") buffer = some p)
    (hnewline : memchr buffer 10 (skipSpaces buffer (p + 6)) = some newline) :
    ∃ L : HostLine buffer, L.field = p + 6 := by
  obtain ⟨pre, hit, rest, hbuffer, rfl, hlen, heq⟩ := strncasestr_eq_some hp
  -- the bytes that were compared: a newline, four letters and a colon
  match hit, hlen with
  | [n, h, o, s, t, colon], _ =>
    have hletters : ascii "\nHost:" = [10, 72, 111, 115, 116, 58] := by decide
    have hlower : ([10, 72, 111, 115, 116, 58] : List UInt8).map tolower = [10, 104, 111, 115, 116, 58] := by decide
    rw [hletters, hlower] at heq
    simp only [List.map_cons, List.map_nil, List.cons.injEq, and_true] at heq
    obtain ⟨hn, hh, ho, hs, ht, hcolon⟩ := heq
    obtain rfl := eq_of_tolower hn (by decide)
    obtain rfl := eq_of_tolower hcolon (by decide)
    have hdrop : buffer.drop (pre.length + 6) = rest := by
      rw [hbuffer, ← List.append_assoc, List.drop_left' (by simp)]
    obtain ⟨blanks, value, hvalue, hhead, hskip⟩ := skipSpaces_eq buffer (pre.length + 6)
    obtain ⟨line, after, hline, hmem, -⟩ := memchr_eq_some hnewline
    rw [hskip, ← List.drop_drop, hvalue, List.drop_left' List.length_replicate] at hline
    refine ⟨⟨pre, [h, o, s, t], blanks, line, after, hhttp, hp, ?_, ?_, ?_, hmem⟩, rfl⟩
    · rw [hbuffer, ← hdrop, hvalue, hline]
      rfl
    · rw [List.map_cons, List.map_cons, List.map_cons, List.map_cons, List.map_nil, hh, ho, hs, ht]
      decide
    · rw [hline] at hhead
      cases hl : line with
      | nil => simp
      | cons c more =>
        rw [hl] at hhead
        exact hhead

/-! ## What is found

The end of the host is found by walking back from the newline: over white space, then over
digits, with one byte passed unseen between the two. So where the walk ends depends on what
stands before the value as well. -/

namespace HostLine

variable {buffer : List UInt8} (L : HostLine buffer)

/-- What is left of the function where there is a line. -/
theorem parseHttpPort_eq (port : Option ℕ) : parseHttpPort buffer port =
    (backWhile isspace buffer L.newline).bind fun l_end =>
      (backWhile isdigit buffer (l_end - 1)).bind fun next =>
        (before buffer next).bind fun c =>
          if c ≠ 58 then (hostBetween buffer L.host l_end).map fun found => (found, port.map fun _ => 80)
          else
            match port with
            | none => (hostBetween buffer L.host (next - 1)).map fun found => (found, none)
            | some _ =>
              (strtol (buffer.drop next)).bind fun (i, taken) =>
                if i ≤ 0 ∨ next + taken ≠ l_end ∨ 65535 < i then some ((0, none), port)
                else (hostBetween buffer L.host (next - 1)).map fun found => (found, some i.toNat) := by
  have hskip : skipSpaces buffer (L.pre.length + 6) = L.host := L.skipSpaces_field
  have hhttp : ¬ isHttp buffer = false := by
    rw [L.isHttp_eq]
    decide
  unfold parseHttpPort
  rw [if_neg hhttp, L.first]
  simp only [hskip, L.memchr_host]

/-- Without a port, the digits behind the colon are not read. -/
theorem parseHttpPort_none_eq : parseHttpPort buffer none =
    ((backWhile isspace buffer L.newline).bind fun l_end =>
      (backWhile isdigit buffer (l_end - 1)).bind fun next =>
        (before buffer next).bind fun c =>
          hostBetween buffer L.host (if c ≠ 58 then l_end else next - 1)).map fun found => (found, none) := by
  rw [L.parseHttpPort_eq, Option.map_bind]
  congr 1
  funext l_end
  rw [Function.comp_apply, Option.map_bind]
  congr 1
  funext next
  rw [Function.comp_apply, Option.map_bind]
  congr 1
  funext c
  rw [Function.comp_apply]
  by_cases hc : c ≠ 58
  · rw [if_pos hc, if_pos hc]
    rfl
  · rw [if_neg hc, if_neg hc]

/-- In a buffer with a `Host` line, `parse_http` is its two walks back and what stands between them. -/
theorem parseHttp_eq : parseHttp buffer =
    (backWhile isspace buffer L.newline).bind fun l_end =>
      (backWhile isdigit buffer (l_end - 1)).bind fun next =>
        (before buffer next).bind fun c => hostBetween buffer L.host (if c ≠ 58 then l_end else next - 1) := by
  unfold parseHttp
  rw [L.parseHttpPort_none_eq, Option.map_map]
  exact Option.map_id_fun' ▸ rfl

/-- The byte at the value's start is the first of the line, or the newline of an empty one. -/
theorem getElem?_host : buffer[L.host]? = (L.line ++ 10 :: L.after).head? := by
  rw [← L.drop_host, List.head?_drop]

/-- The bytes up to the colon and the last letter of the name before it. -/
theorem exists_letter : ∃ pre t, t ≠ 58 ∧ t ≠ 93 ∧ isdigit t = false ∧ pre.length + 2 = L.field ∧
    buffer = pre ++ t :: 58 :: (List.replicate L.blanks 32 ++ (L.line ++ 10 :: L.after)) := by
  have hbuffer := L.buffer_eq
  have hname := L.name_eq
  have hlen := L.length_name
  have hfield : L.field = L.pre.length + 6 := rfl
  match hn : L.name, hlen with
  | [h, o, s, t], _ =>
    rw [hn] at hbuffer hname
    have hhost : ascii "host" = [104, 111, 115, 116] := by decide
    rw [hhost] at hname
    simp only [List.map_cons, List.map_nil, List.cons.injEq, and_true] at hname
    -- the last letter of the name in one of two cases, neither of which stops the walk
    have ht : t = 116 ∨ t = 84 := by
      have hlower := hname.2.2.2
      unfold tolower at hlower
      split at hlower
      · right
        have hnat := congrArg UInt8.toNat hlower
        apply UInt8.toNat_inj.mp
        rename_i hupper
        simp only [Bool.and_eq_true, decide_eq_true_eq, UInt8.le_iff_toNat_le, UInt8.reduceToNat] at hupper
        simp only [UInt8.toNat_add, UInt8.reduceToNat] at hnat ⊢
        omega
      · exact .inl hlower
    refine ⟨L.pre ++ [10, h, o, s], t, ?_, ?_, ?_, ?_, ?_⟩
    · obtain rfl | rfl := ht <;> decide
    · obtain rfl | rfl := ht <;> decide
    · obtain rfl | rfl := ht <;> decide
    · rw [List.length_append, hfield]
      simp
    · refine hbuffer.trans ?_
      simp only [List.append_assoc, List.cons_append, List.nil_append]

/-- A colon stops the walk over white space. -/
theorem isspace_colon : isspace 58 = false := by decide

theorem isspace_blank {c : UInt8} (h : isspace c = true) : c ≠ 91 := by
  rintro rfl
  exact absurd h (by decide)

/-- A blank field is passed on the way back, and the name of the field comes next. -/
theorem exists_next_blank (h : L.Blank) :
    ∃ next t, t ≠ 58 ∧ backWhile isspace buffer L.newline = some L.field ∧
      backWhile isdigit buffer (L.field - 1) = some next ∧ before buffer next = some t := by
  obtain ⟨pre, t, hcolon, -, hdigit, hpre, hbuffer⟩ := L.exists_letter
  have hhost : L.host = L.field + L.blanks := rfl
  have hnewline : L.newline = L.host + L.line.length := rfl
  have hback : backWhile isspace buffer L.newline = some L.field := by
    have hall : ∀ c ∈ List.replicate L.blanks 32 ++ L.line, isspace c = true := by
      intro c hc
      obtain hc | hc := List.mem_append.mp hc
      · rw [List.eq_of_mem_replicate hc]
        decide
      · exact h c hc
    have hsplit : buffer = (pre ++ [t]) ++ 58 :: ((List.replicate L.blanks 32 ++ L.line) ++ 10 :: L.after) := by
      refine hbuffer.trans ?_
      simp only [List.append_assoc, List.cons_append, List.nil_append]
    have hstop := backWhile_eq isspace_colon (pre ++ [t]) hall (10 :: L.after) (i := L.newline)
      (by simp only [List.length_append, List.length_replicate, List.length_singleton]; omega)
    rw [← hsplit] at hstop
    rw [hstop, List.length_append, List.length_singleton, hpre]
  have hnext : backWhile isdigit buffer (L.field - 1) = some (pre.length + 1) := by
    have hstop := backWhile_eq hdigit pre (s := []) (fun x hx => absurd hx List.not_mem_nil)
      (58 :: (List.replicate L.blanks 32 ++ (L.line ++ 10 :: L.after))) (i := L.field - 1)
      (by rw [List.length_nil]; omega)
    rw [List.nil_append, ← hbuffer] at hstop
    exact hstop
  refine ⟨pre.length + 1, t, hcolon, hback, hnext, ?_⟩
  rw [hbuffer, before_append]

/-- A blank field: all of it is passed on the way back, and the length is no length. -/
theorem parseHttp_blank (h : L.Blank) : parseHttp buffer = some (-(L.blanks : ℤ), some L.host) := by
  obtain ⟨next, t, hcolon, hback, hnext, hbefore⟩ := L.exists_next_blank h
  have hhost : L.host = L.field + L.blanks := rfl
  obtain ⟨first, hfirst, hspace⟩ : ∃ first, buffer[L.host]? = some first ∧ isspace first = true := by
    rw [L.getElem?_host]
    cases hl : L.line with
    | nil => exact ⟨10, rfl, by decide⟩
    | cons c rest => exact ⟨c, rfl, h c (by rw [hl]; exact List.mem_cons_self)⟩
  rw [L.parseHttp_eq, hback, Option.bind_some, hnext, Option.bind_some, hbefore, Option.bind_some, hostBetween, hfirst,
    Option.bind_some, if_neg (isspace_blank hspace), if_pos hcolon, hhost]
  congr 2
  omega

/-- Bytes of the line, with everything that stands before them. -/
theorem exists_front (front rest : List UInt8) (h : L.line = front ++ rest) :
    ∃ pre, pre.length = L.host + front.length ∧ buffer = pre ++ (rest ++ 10 :: L.after) := by
  obtain ⟨pre, t, -, -, -, hpre, hbuffer⟩ := L.exists_letter
  have hhost : L.host = L.field + L.blanks := rfl
  refine ⟨pre ++ t :: 58 :: (List.replicate L.blanks 32 ++ front), ?_, ?_⟩
  · simp only [List.length_append, List.length_cons, List.length_replicate]
    omega
  · refine hbuffer.trans ?_
    rw [h]
    simp only [List.append_assoc, List.cons_append]

/-- The digits up to a byte of the line, and the colon that stands before them: that of the name, or one in the value. -/
def Colon (front digits : List UInt8) : Prop :=
  (∀ x ∈ digits, isdigit x = true) ∧ (L.blanks = 0 ∧ front = digits ∨ ∃ name, front = name ++ 58 :: digits)

/-- Where the digits before the last byte of the value end: behind a colon, or behind another byte. -/
theorem exists_next {front s : List UInt8} {c : UInt8} (hline : L.line = front ++ c :: s)
    (hc : isspace c = false) (hs : ∀ x ∈ s, isspace x = true) :
    ∃ next d, backWhile isspace buffer L.newline = some (L.host + front.length + 1) ∧
      backWhile isdigit buffer (L.host + front.length) = some next ∧ before buffer next = some d ∧
      ((d = 58 ∧ ∃ digits, L.Colon front digits ∧ next + digits.length = L.host + front.length) ∨
        (d ≠ 58 ∧ ∀ digits, ¬ L.Colon front digits)) := by
  have hhost : L.host = L.field + L.blanks := rfl
  have hnewline : L.newline = L.host + L.line.length := rfl
  obtain ⟨pre, hpre, hbuffer⟩ := L.exists_front front _ hline
  rw [List.cons_append] at hbuffer
  -- the walk over white space ends behind the last byte of the value
  have hback : backWhile isspace buffer L.newline = some (L.host + front.length + 1) := by
    have hstop := backWhile_eq hc pre hs (10 :: L.after) (i := L.newline)
      (by rw [hnewline, hline, List.length_append, List.length_cons, hpre]; omega)
    rwa [← hbuffer, hpre] at hstop
  obtain hall | ⟨name, d, digits, rfl, hd, hdigits⟩ := exists_suffix isdigit front
  · -- digits up to the blanks, or up to the colon of the name
    obtain ⟨pre', t, hcolon, -, hdigit, hpre', hbuffer'⟩ := L.exists_letter
    -- without a blank the digits go on to the colon of the name
    by_cases hblanks : L.blanks = 0
    · have hsplit : buffer = (pre' ++ [t]) ++ 58 :: (front ++ c :: (s ++ 10 :: L.after)) := by
        refine hbuffer'.trans ?_
        rw [hblanks, hline]
        simp only [List.append_assoc, List.cons_append, List.nil_append, List.replicate_zero]
      have hnext : backWhile isdigit buffer (L.host + front.length) = some ((pre' ++ [t]).length + 1) := by
        have hstop := backWhile_eq (p := isdigit) (c := 58) (by decide) (pre' ++ [t]) hall (c :: (s ++ 10 :: L.after))
          (i := L.host + front.length) (by rw [List.length_append, List.length_singleton]; omega)
        rwa [← hsplit] at hstop
      have hbefore : before buffer ((pre' ++ [t]).length + 1) = some 58 := by
        rw [hsplit, before_append]
      refine ⟨_, _, hback, hnext, hbefore, .inl ⟨rfl, front, ⟨hall, .inl ⟨hblanks, rfl⟩⟩, ?_⟩⟩
      rw [List.length_append, List.length_singleton]
      omega
    -- with one they end at it, and no colon is before them
    · obtain ⟨k, hk⟩ : ∃ k, L.blanks = k + 1 := ⟨L.blanks - 1, by omega⟩
      have hsplit : buffer = (pre' ++ t :: 58 :: List.replicate k 32) ++ 32 :: (front ++ c :: (s ++ 10 :: L.after)) := by
        refine hbuffer'.trans ?_
        rw [hk, hline, List.replicate_succ']
        simp only [List.append_assoc, List.cons_append, List.nil_append]
      have hlen : (pre' ++ t :: 58 :: List.replicate k 32).length = pre'.length + 2 + k := by
        simp only [List.length_append, List.length_cons, List.length_replicate]
        omega
      have hnext : backWhile isdigit buffer (L.host + front.length) =
          some ((pre' ++ t :: 58 :: List.replicate k 32).length + 1) := by
        have hstop := backWhile_eq (p := isdigit) (c := 32) (by decide) (pre' ++ t :: 58 :: List.replicate k 32) hall
          (c :: (s ++ 10 :: L.after)) (i := L.host + front.length) (by omega)
        rwa [← hsplit] at hstop
      have hbefore : before buffer ((pre' ++ t :: 58 :: List.replicate k 32).length + 1) = some 32 := by
        rw [hsplit, before_append]
      refine ⟨_, _, hback, hnext, hbefore, .inr ⟨by decide, ?_⟩⟩
      rintro digits ⟨-, ⟨hnone, -⟩ | ⟨name, rfl⟩⟩
      · exact hblanks hnone
      · exact absurd (hall 58 (by simp)) (by decide)
  · obtain ⟨pre', hpre', hbuffer'⟩ := L.exists_front name (d :: (digits ++ c :: s)) (by rw [hline]; simp)
    have hlen : L.host + (name ++ d :: digits).length = pre'.length + 1 + digits.length := by
      rw [hpre', List.length_append, List.length_cons]
      omega
    have hsplit : buffer = pre' ++ d :: (digits ++ c :: (s ++ 10 :: L.after)) := by
      refine hbuffer'.trans ?_
      simp only [List.append_assoc, List.cons_append]
    have hnext : backWhile isdigit buffer (L.host + (name ++ d :: digits).length) = some (pre'.length + 1) := by
      have hstop := backWhile_eq hd pre' hdigits (c :: (s ++ 10 :: L.after))
        (i := L.host + (name ++ d :: digits).length) hlen
      rwa [← hsplit] at hstop
    have hbefore : before buffer (pre'.length + 1) = some d := by
      rw [hsplit, before_append]
    refine ⟨_, _, hback, hnext, hbefore, ?_⟩
    -- a byte that is no digit ends the walk, be it a colon or not
    by_cases hcolon : d = 58
    · subst hcolon
      exact .inl ⟨rfl, digits, ⟨hdigits, .inr ⟨name, rfl⟩⟩, by omega⟩
    · refine .inr ⟨hcolon, ?_⟩
      rintro digits' ⟨hall, ⟨-, rfl⟩ | ⟨name', hsame⟩⟩
      · rw [hall d (by simp)] at hd
        exact absurd hd (by decide)
      · -- both are the last byte that is no digit
        obtain rfl := suffix_inj hsame hd hdigits (by decide) hall
        exact hcolon (List.cons.inj (List.append_cancel_left hsame)).1

/-- Where the host ends: at the colon before the digits, or where the value does. -/
theorem exists_hostEnd {front s : List UInt8} {c : UInt8} (hline : L.line = front ++ c :: s)
    (hc : isspace c = false) (hs : ∀ x ∈ s, isspace x = true) :
    ∃ h_end, L.field ≤ h_end + 1 ∧ h_end ≤ L.host + front.length + 1 ∧
      (h_end = L.host + front.length + 1 ∧ ¬ (L.blanks = 0 ∧ ∀ x ∈ front, isdigit x = true) ∨
        h_end < L.host ∧ L.blanks = 0 ∧ (∀ x ∈ front, isdigit x = true) ∨
        ∃ name digits, front = name ++ 58 :: digits ∧ h_end = L.host + name.length) ∧
      parseHttp buffer = hostBetween buffer L.host h_end := by
  have hhost : L.host = L.field + L.blanks := rfl
  have hfield : L.field = L.pre.length + 6 := rfl
  obtain ⟨next, d, hback, hnext, hbefore, hd⟩ := L.exists_next hline hc hs
  have hparse := L.parseHttp_eq
  rw [hback, Option.bind_some, Nat.add_sub_cancel, hnext, Option.bind_some, hbefore, Option.bind_some] at hparse
  obtain ⟨rfl, digits, ⟨hdigits, hcolon⟩, hlen⟩ | ⟨hne, hnone⟩ := hd
  · rw [if_neg (by decide)] at hparse
    obtain ⟨hblanks, rfl⟩ | ⟨name, rfl⟩ := hcolon
    · exact ⟨next - 1, by omega, by omega, .inr (.inl ⟨by omega, hblanks, hdigits⟩), hparse⟩
    · rw [List.length_append, List.length_cons] at hlen ⊢
      exact ⟨next - 1, by omega, by omega, .inr (.inr ⟨name, digits, rfl, by omega⟩), hparse⟩
  · rw [if_pos hne] at hparse
    exact ⟨_, by omega, le_refl _, .inl ⟨rfl, fun hall => hnone front ⟨hall.2, .inl ⟨hall.1, rfl⟩⟩⟩, hparse⟩

/-- In brackets, the byte before the end of the host closes them only where the value has at least the two. -/
theorem before_hostEnd {front s : List UInt8} {c : UInt8} (hline : L.line = front ++ c :: s)
    (hhead : L.line.head? = some 91) {h_end : ℕ} (hlow : L.field ≤ h_end + 1)
    (hwhere : h_end = L.host + front.length + 1 ∧ ¬ (L.blanks = 0 ∧ ∀ x ∈ front, isdigit x = true) ∨
      h_end < L.host ∧ L.blanks = 0 ∧ (∀ x ∈ front, isdigit x = true) ∨
      ∃ name digits, front = name ++ 58 :: digits ∧ h_end = L.host + name.length) :
    ∃ b, before buffer h_end = some b ∧ (b = 93 → L.host + 2 ≤ h_end) := by
  have hhost : L.host = L.field + L.blanks := rfl
  rw [hline] at hhead
  obtain ⟨hend, -⟩ | ⟨hend, hblanks, -⟩ | ⟨name, digits, hfront, hend⟩ := hwhere
  · -- the last byte of the value: the bracket itself, or one behind it
    obtain ⟨pre, hpre, hbuffer⟩ := L.exists_front front _ hline
    have hbefore : before buffer h_end = some c := by
      rw [hbuffer, show h_end = pre.length + 1 by rw [hpre]; exact hend, List.cons_append, before_append]
    refine ⟨c, hbefore, fun hclose => ?_⟩
    cases front with
    | nil =>
      rw [hclose] at hhead
      exact absurd (Option.some.inj hhead) (by decide)
    | cons a more =>
      rw [hend, List.length_cons]
      omega
  · -- the last letter of the name of the field
    obtain ⟨pre, t, -, hclose, -, hpre, hbuffer⟩ := L.exists_letter
    have hbefore : before buffer h_end = some t := by
      rw [hbuffer, show h_end = pre.length + 1 by omega, before_append]
    exact ⟨t, hbefore, fun hsame => absurd hsame hclose⟩
  · -- the byte before the colon
    rw [hfront] at hhead
    cases hn : name using List.reverseRecOn with
    | nil =>
      rw [hn] at hhead
      simp at hhead
    | append_singleton less b _ =>
      obtain ⟨pre, hpre, hbuffer⟩ := L.exists_front less (b :: 58 :: (digits ++ c :: s)) (by rw [hline, hfront, hn]; simp)
      have hbefore : before buffer h_end = some b := by
        rw [hbuffer, show h_end = pre.length + 1 by
          rw [hend, hn, hpre, List.length_append, List.length_singleton, Nat.add_assoc], List.cons_append,
          before_append]
      refine ⟨b, hbefore, fun hclose => ?_⟩
      rw [hn] at hhead
      cases less with
      | nil =>
        rw [hclose] at hhead
        exact absurd (Option.some.inj hhead) (by decide)
      | cons a less =>
        rw [hend, hn, List.length_append, List.length_cons, List.length_singleton]
        omega

/-- What `parse_http` makes of a line whose value is not blank: the host ends where `h_end` says, and
in brackets it is what stands between them. -/
theorem parseHttp_value {front s : List UInt8} {c : UInt8} (hline : L.line = front ++ c :: s)
    (hc : isspace c = false) (hs : ∀ x ∈ s, isspace x = true) :
    ∃ h_end, h_end ≤ L.host + front.length + 1 ∧
      (h_end = L.host + front.length + 1 ∧ ¬ (L.blanks = 0 ∧ ∀ x ∈ front, isdigit x = true) ∨
        h_end + 1 = L.host ∧ L.blanks = 0 ∧ (∀ x ∈ front, isdigit x = true) ∨
        ∃ name digits, front = name ++ 58 :: digits ∧ h_end = L.host + name.length) ∧
      (L.line.head? ≠ some 91 ∧ parseHttp buffer = some ((h_end : ℤ) - L.host, some L.host) ∨
        L.line.head? = some 91 ∧ (parseHttp buffer = some (0, none) ∨ L.host + 2 ≤ h_end ∧
          parseHttp buffer = some (((h_end - 1 : ℕ) : ℤ) - ((L.host + 1 : ℕ) : ℤ), some (L.host + 1)))) := by
  obtain ⟨h_end, hlow, hhigh, hwhere, hparse⟩ := L.exists_hostEnd hline hc hs
  have hhost : L.host = L.field + L.blanks := rfl
  obtain ⟨first, hfirst, hhead⟩ : ∃ first, buffer[L.host]? = some first ∧ L.line.head? = some first := by
    rw [L.getElem?_host, hline]
    cases front with
    | nil => exact ⟨c, rfl, rfl⟩
    | cons a front => exact ⟨a, rfl, rfl⟩
  rw [hostBetween, hfirst, Option.bind_some] at hparse
  refine ⟨h_end, hhigh, ?_, ?_⟩
  · obtain hend | ⟨hend, hblanks, hall⟩ | hend := hwhere
    · exact .inl hend
    · exact .inr (.inl ⟨by omega, hblanks, hall⟩)
    · exact .inr (.inr hend)
  · by_cases hbracket : first = 91
    · subst hbracket
      refine .inr ⟨hhead, ?_⟩
      obtain ⟨b, hbefore, htwo⟩ := L.before_hostEnd hline hhead hlow hwhere
      rw [if_pos rfl, hbefore, Option.bind_some] at hparse
      -- no bracket closes it, or both are there
      split at hparse
      · exact .inl hparse
      · rename_i hclose
        exact .inr ⟨htwo (not_not.mp hclose), hparse⟩
    · rw [if_neg hbracket] at hparse
      refine .inl ⟨?_, hparse⟩
      rw [hhead]
      exact fun heq => hbracket (Option.some.inj heq)

end HostLine

/-- Without a `Host` line nothing is found, and the port stays as it is. -/
theorem parseHttpPort_none_or (buffer : List UInt8) (port : Option ℕ) :
    parseHttpPort buffer port = some ((0, none), port) ∨ Nonempty (HostLine buffer) := by
  by_cases hhttp : isHttp buffer = false
  · left
    unfold parseHttpPort
    rw [if_pos hhttp]
  · cases hp : strncasestr (ascii "\nHost:") buffer with
    | none =>
      left
      unfold parseHttpPort
      rw [if_neg hhttp, hp]
    | some p =>
      cases hnewline : memchr buffer 10 (skipSpaces buffer (p + 6)) with
      | none =>
        left
        unfold parseHttpPort
        rw [if_neg hhttp, hp]
        simp only [hnewline]
      | some newline =>
        obtain ⟨L, -⟩ := exists_hostLine (by simpa using hhttp) hp hnewline
        exact .inr ⟨L⟩

/-- **Either nothing is found, or there is a first `Host` line** to speak of. -/
theorem parseHttp_none_or (buffer : List UInt8) : parseHttp buffer = some (0, none) ∨ Nonempty (HostLine buffer) := by
  obtain hnone | hline := parseHttpPort_none_or buffer none
  · left
    rw [parseHttp, hnone]
    rfl
  · exact .inr hline

/-- Without a pointer for the port none is filled in. -/
theorem parseHttpPort_none (buffer : List UInt8) :
    parseHttpPort buffer none = (parseHttp buffer).map fun found => (found, none) := by
  obtain hnone | ⟨⟨L⟩⟩ := parseHttpPort_none_or buffer none
  · rw [parseHttp, hnone]
    rfl
  · rw [L.parseHttpPort_none_eq, L.parseHttp_eq]

/-- Without a port, the host that is found ends where its line does or before. -/
theorem parseHttp_returns (buffer : List UInt8) :
    ∃ len hs, parseHttp buffer = some (len, hs) ∧ (hs = none → len = 0) ∧
      ∀ start, hs = some start → ∃ L : HostLine buffer, L.host ≤ start ∧ start ≤ L.newline ∧ start + len ≤ L.newline ∧
        (len < 0 ↔ 0 < L.blanks ∧ L.Blank ∨ L.blanks = 0 ∧ L.line.head? ≠ some 91 ∧
          ∃ front c s, L.line = front ++ c :: s ∧ isspace c = false ∧ (∀ x ∈ s, isspace x = true) ∧
            ∀ x ∈ front, isdigit x = true) := by
  obtain hnone | ⟨⟨L⟩⟩ := parseHttp_none_or buffer
  · exact ⟨0, none, hnone, fun _ => rfl, fun start hstart => absurd hstart (by simp)⟩
  · have hnewline : L.newline = L.host + L.line.length := rfl
    -- a line that is blank, or has a last byte that is not
    obtain hblank | ⟨front, c, s, hline, hc, hs⟩ := exists_suffix isspace L.line
    · refine ⟨_, _, L.parseHttp_blank hblank, by simp, fun start hstart => ⟨L, ?_⟩⟩
      obtain rfl := Option.some.inj hstart
      refine ⟨le_refl _, by omega, by omega, fun hneg => .inl ⟨by omega, hblank⟩, ?_⟩
      rintro (⟨hpos, -⟩ | ⟨-, -, front, c, s, hline, hc, -⟩)
      · omega
      · rw [hblank c (by rw [hline]; simp)] at hc
        exact absurd hc (by decide)
    · obtain ⟨h_end, hhigh, hwhere, hfound⟩ := L.parseHttp_value hline hc hs
      have hlen : L.line.length = front.length + (s.length + 1) := by
        rw [hline, List.length_append, List.length_cons]
      -- with such a byte the line is not blank
      have hnot : ¬ L.Blank := by
        intro hblank
        rw [hblank c (by rw [hline]; simp)] at hc
        exact absurd hc (by decide)
      obtain ⟨hhead, hparse⟩ | ⟨hhead, hparse | ⟨hlow, hparse⟩⟩ := hfound
      · refine ⟨_, _, hparse, by simp, fun start hstart => ⟨L, ?_⟩⟩
        obtain rfl := Option.some.inj hstart
        refine ⟨le_refl _, by omega, by omega, fun hneg => .inr ?_, ?_⟩
        -- only a colon of the name, with digits up to the last byte, lets the host end before it starts
        · obtain hend | ⟨hend, hblanks, hall⟩ | ⟨name, digits, -, hend⟩ := hwhere
          · omega
          · exact ⟨hblanks, hhead, front, c, s, hline, hc, hs, hall⟩
          · omega
        · rintro (⟨-, hblank⟩ | ⟨hblanks, -, front', c', s', hline', hc', hs', hall⟩)
          · exact absurd hblank hnot
          · obtain rfl := suffix_inj (hline.symm.trans hline') hc hs hc' hs'
            obtain ⟨-, hmore⟩ | ⟨hend, -⟩ | ⟨name, digits, hfront, -⟩ := hwhere
            · exact absurd ⟨hblanks, hall⟩ hmore
            · omega
            · have hcolon := hall 58 (by rw [hfront]; simp)
              exact absurd hcolon (by decide)
      · exact ⟨0, none, hparse, fun _ => rfl, fun start hstart => absurd hstart (by simp)⟩
      -- in brackets the host ends before the closing one
      · refine ⟨_, _, hparse, by simp, fun start hstart => ⟨L, ?_⟩⟩
        obtain rfl := Option.some.inj hstart
        refine ⟨by omega, by omega, by omega, fun hneg => by omega, ?_⟩
        rintro (⟨-, hblank⟩ | ⟨-, hne, -⟩)
        · exact absurd hblank hnot
        · exact absurd hhead hne

/-! ## The port

With a port to fill in, the digits behind the colon are read by `strtol`, which has to come to
the end of the value. What it reads there is the number of the digits, or nothing at all when the
byte passed unseen is no digit. -/

/-- A number that a port can be. -/
def IsPort (text : List UInt8) : Prop := (∀ x ∈ text, isdigit x = true) ∧ 0 < number text ∧ number text ≤ 65535

/-- The six bytes of C's `isspace` as numbers. -/
theorem isspace_iff (c : UInt8) : isspace c = true ↔ c.toNat = 32 ∨ 9 ≤ c.toNat ∧ c.toNat ≤ 13 := by
  unfold isspace
  simp only [Bool.or_eq_true, Bool.and_eq_true, decide_eq_true_eq, UInt8.le_iff_toNat_le, ← UInt8.toNat_inj,
    UInt8.reduceToNat]

theorem isdigit_iff (c : UInt8) : isdigit c = true ↔ 48 ≤ c.toNat ∧ c.toNat ≤ 57 := by
  unfold isdigit
  simp only [Bool.and_eq_true, decide_eq_true_eq, UInt8.le_iff_toNat_le, UInt8.reduceToNat]

/-- No digit is white space, so the two walks do not pass over one byte twice. -/
theorem not_isspace_of_isdigit {c : UInt8} (h : isdigit c = true) : isspace c = false := by
  rw [isdigit_iff] at h
  rw [Bool.eq_false_iff, Ne, isspace_iff]
  omega

theorem not_isdigit_of_isspace {c : UInt8} (h : isspace c = true) : isdigit c = false := by
  cases hd : isdigit c with
  | false => rfl
  | true =>
    rw [not_isspace_of_isdigit hd] at h
    exact absurd h (by decide)

/-- Digits up to a byte that is none are read as their number. -/
theorem strtol_digits {digits : List UInt8} (rest : List UInt8) {x : UInt8} (hne : digits ≠ [])
    (hdigits : ∀ d ∈ digits, isdigit d = true) (hx : isdigit x = false) :
    strtol (digits ++ x :: rest) = some (min (2 ^ 63 - 1) (number digits : ℤ), digits.length) := by
  obtain ⟨d, more, rfl⟩ := List.exists_cons_of_ne_nil hne
  have hd := hdigits d List.mem_cons_self
  have hnot := not_isspace_of_isdigit hd
  have hsign : ¬ (d = 43 ∨ d = 45) := by
    rintro (rfl | rfl)
    · exact absurd hd (by decide)
    · exact absurd hd (by decide)
  have hblanks : (d :: more ++ x :: rest).takeWhile isspace = [] := by
    rw [List.cons_append, List.takeWhile_cons_of_neg (by simp [hnot])]
  have htake : (d :: more ++ x :: rest).takeWhile isdigit = d :: more := by
    rw [List.takeWhile_append_of_pos hdigits, List.takeWhile_cons_of_neg (by simp [hx]), List.append_nil]
  have hstop : (d :: more ++ x :: rest)[(d :: more).length]? = some x := by
    rw [List.getElem?_append_right (le_refl _), Nat.sub_self, List.getElem?_cons_zero]
  unfold strtol
  simp only [hblanks, List.length_nil]
  rw [List.cons_append, List.getElem?_cons_zero, Option.bind_some, if_neg hsign, List.drop_zero, ← List.cons_append,
    htake, Nat.zero_add, hstop, Option.map_some, if_neg (by simp), if_neg fun h => hsign (.inr h)]

/-- Where no digit comes first, nothing is read, whatever sign stands there. -/
theorem strtol_none {c x : UInt8} {rest : List UInt8} (hc : isspace c = false) (hdigit : isdigit c = false)
    (hx : isdigit x = false) : strtol (c :: x :: rest) = some (0, 0) := by
  have hblanks : (c :: x :: rest).takeWhile isspace = [] := List.takeWhile_cons_of_neg (by simp [hc])
  unfold strtol
  simp only [hblanks, List.length_nil]
  rw [List.getElem?_cons_zero, Option.bind_some]
  by_cases hsign : c = 43 ∨ c = 45
  · have hnone : ((c :: x :: rest).drop (0 + 1)).takeWhile isdigit = [] := by
      rw [List.drop_succ_cons, List.drop_zero, List.takeWhile_cons_of_neg (by simp [hx])]
    rw [if_pos hsign, hnone, List.length_nil, List.getElem?_cons_succ, List.getElem?_cons_zero, Option.map_some,
      if_pos rfl]
  · have hnone : ((c :: x :: rest).drop 0).takeWhile isdigit = [] := by
      rw [List.drop_zero, List.takeWhile_cons_of_neg (by simp [hdigit])]
    rw [if_neg hsign, hnone, List.length_nil, List.getElem?_cons_zero, Option.map_some, if_pos rfl]

/-- The text before white space passes the three checks exactly where it is a port, and gives it. -/
theorem strtol_text {digits : List UInt8} (rest : List UInt8) {c x : UInt8} (hdigits : ∀ d ∈ digits, isdigit d = true)
    (hc : isspace c = false) (hx : isspace x = true) :
    ∃ i taken, strtol (digits ++ c :: x :: rest) = some (i, taken) ∧
      ((i ≤ 0 ∨ taken ≠ digits.length + 1 ∨ 65535 < i) ↔ ¬ IsPort (digits ++ [c])) ∧
      (IsPort (digits ++ [c]) → i.toNat = number (digits ++ [c])) := by
  have hstop := not_isdigit_of_isspace hx
  by_cases hdigit : isdigit c = true
  · -- all of the text is read
    have hall : ∀ d ∈ digits ++ [c], isdigit d = true := by
      intro d hd
      obtain hd | hd := List.mem_append.mp hd
      · exact hdigits d hd
      · rw [List.mem_singleton.mp hd]
        exact hdigit
    have hread := strtol_digits rest (by simp) hall hstop
    rw [List.append_assoc, List.singleton_append] at hread
    refine ⟨_, _, hread, ?_, ?_⟩
    · unfold IsPort
      rw [List.length_append, List.length_singleton]
      constructor
      · rintro hbad ⟨-, hpos, hle⟩
        omega
      · intro hnot
        by_contra hgood
        exact hnot ⟨hall, by omega, by omega⟩
    · rintro ⟨-, -, hle⟩
      omega
  · have hnot : ¬ IsPort (digits ++ [c]) := fun h => hdigit (h.1 c (by simp))
    cases digits with
    | nil => exact ⟨0, 0, strtol_none hc (by simpa using hdigit) hstop, iff_of_true (.inl (le_refl _)) hnot,
        fun h => absurd h hnot⟩
    | cons d more =>
      -- the byte itself is left over
      refine ⟨_, _, strtol_digits _ (by simp) hdigits (by simpa using hdigit), ?_, fun h => absurd h hnot⟩
      exact iff_of_true (.inr (.inl (by omega))) hnot

namespace HostLine

variable {buffer : List UInt8} (L : HostLine buffer)

/-- What stands behind the colon, up to the end of the value: digits, and the last byte whatever it is. -/
def PortText (text : List UInt8) : Prop :=
  ∃ front digits c s, L.line = front ++ c :: s ∧ isspace c = false ∧ (∀ x ∈ s, isspace x = true) ∧
    L.Colon front digits ∧ text = digits ++ [c]

/-- There is a colon, and no port behind it. -/
def BadPort : Prop := ∃ text, L.PortText text ∧ ¬ IsPort text

/-- The port of the line: the number behind the colon, and 80 where there is no colon. -/
def Port (q : ℕ) : Prop := (∃ text, L.PortText text ∧ q = number text) ∨ (∀ text, ¬ L.PortText text) ∧ q = 80

/-- A line has one colon with nothing but digits behind it, up to its last byte. -/
theorem colon_inj {front digits digits' : List UInt8} (h : L.Colon front digits) (h' : L.Colon front digits') :
    digits = digits' := by
  obtain ⟨hall, ⟨-, rfl⟩ | ⟨name, rfl⟩⟩ := h
  · obtain ⟨-, ⟨-, hsame⟩ | ⟨name, hname⟩⟩ := h'
    · exact hsame
    · exact absurd (hall 58 (by rw [hname]; simp)) (by decide)
  · obtain ⟨hall', ⟨-, hname⟩ | ⟨name', hname⟩⟩ := h'
    · exact absurd (hall' 58 (by rw [← hname]; simp)) (by decide)
    · obtain rfl := suffix_inj hname (by decide) hall (by decide) hall'
      exact (List.cons.inj (List.append_cancel_left hname)).2

theorem portText_inj {text text' : List UInt8} (h : L.PortText text) (h' : L.PortText text') : text = text' := by
  obtain ⟨front, digits, c, s, hline, hc, hs, hcolon, rfl⟩ := h
  obtain ⟨front', digits', c', s', hline', hc', hs', hcolon', rfl⟩ := h'
  have hsame := hline.symm.trans hline'
  obtain rfl := suffix_inj hsame hc hs hc' hs'
  rw [L.colon_inj hcolon hcolon', (List.cons.inj (List.append_cancel_left hsame)).1]

theorem not_portText_of_blank (h : L.Blank) (text : List UInt8) : ¬ L.PortText text := by
  rintro ⟨front, digits, c, s, hline, hc, -⟩
  rw [h c (by rw [hline]; simp)] at hc
  exact absurd hc (by decide)

/-- The line is the only one, and so is the text of its port. -/
theorem portText_iff (L L' : HostLine buffer) (text : List UInt8) : L.PortText text ↔ L'.PortText text := by
  obtain ⟨hblanks, hline⟩ := L.unique L'
  unfold PortText Colon
  rw [hblanks, hline]

/-- Whether the port is bad does not depend on how the line is described. -/
theorem badPort_of_badPort (L L' : HostLine buffer) (h : L.BadPort) : L'.BadPort := by
  obtain ⟨text, htext, hnot⟩ := h
  exact ⟨text, (L.portText_iff L' text).mp htext, hnot⟩

theorem port_of_port (L L' : HostLine buffer) {q : ℕ} (h : L.Port q) : L'.Port q := by
  obtain ⟨text, htext, rfl⟩ | ⟨hnone, rfl⟩ := h
  · exact .inl ⟨text, (L.portText_iff L' text).mp htext, rfl⟩
  · exact .inr ⟨fun text htext => hnone text ((L.portText_iff L' text).mpr htext), rfl⟩

/-- The bytes from the colon on. -/
theorem drop_colon {front digits : List UInt8} {c : UInt8} {s : List UInt8} {next : ℕ} (hline : L.line = front ++ c :: s)
    (hcolon : L.Colon front digits) (hnext : next + digits.length = L.host + front.length) :
    buffer.drop next = digits ++ c :: (s ++ 10 :: L.after) := by
  obtain ⟨-, ⟨-, rfl⟩ | ⟨name, rfl⟩⟩ := hcolon
  · rw [show next = L.host by omega, L.drop_host, hline]
    simp only [List.append_assoc, List.cons_append]
  · rw [List.length_append, List.length_cons] at hnext
    have hsplit : L.line ++ 10 :: L.after = (name ++ [58]) ++ (digits ++ c :: (s ++ 10 :: L.after)) := by
      rw [hline]
      simp only [List.append_assoc, List.cons_append, List.nil_append]
    rw [show next = L.host + (name ++ [58]).length by rw [List.length_append, List.length_singleton]; omega,
      ← List.drop_drop, L.drop_host, hsplit, List.drop_left]

/-- With a port to fill in, the line is refused where a bad one stands in it; else the host is the
same as without, and the port is that of the line. -/
theorem parseHttpPort_some (p : ℕ) :
    (L.BadPort ∧ parseHttpPort buffer (some p) = some ((0, none), some p)) ∨
      (¬ L.BadPort ∧ ∃ q, L.Port q ∧
        parseHttpPort buffer (some p) = (parseHttp buffer).map fun found => (found, some q)) := by
  have hport := L.parseHttpPort_eq (some p)
  have hplain := L.parseHttp_eq
  -- a blank line has no port to speak of
  obtain hblank | ⟨front, c, s, hline, hc, hs⟩ := exists_suffix isspace L.line
  · obtain ⟨next, t, hcolon, hback, hnext, hbefore⟩ := L.exists_next_blank hblank
    have hnone := L.not_portText_of_blank hblank
    rw [hback, Option.bind_some, hnext, Option.bind_some, hbefore, Option.bind_some, if_pos hcolon] at hport hplain
    refine .inr ⟨?_, 80, .inr ⟨hnone, rfl⟩, by rw [hport, hplain]; rfl⟩
    rintro ⟨text, htext, -⟩
    exact hnone text htext
  · obtain ⟨next, d, hback, hnext, hbefore, hd⟩ := L.exists_next hline hc hs
    rw [hback, Option.bind_some, Nat.add_sub_cancel, hnext, Option.bind_some, hbefore, Option.bind_some] at hport hplain
    obtain ⟨rfl, digits, hcolon, hlen⟩ | ⟨hne, hnone⟩ := hd
    · have htext : L.PortText (digits ++ [c]) := ⟨front, digits, c, s, hline, hc, hs, hcolon, rfl⟩
      -- behind the last byte there is a blank or the newline, where `strtol` stops
      obtain ⟨x, rest, hx, hrest⟩ : ∃ x rest, isspace x = true ∧ s ++ 10 :: L.after = x :: rest := by
        cases s with
        | nil => exact ⟨10, L.after, by decide, rfl⟩
        | cons x s => exact ⟨x, _, hs x List.mem_cons_self, rfl⟩
      obtain ⟨i, taken, hread, hbad, hnumber⟩ := strtol_text rest hcolon.1 hc hx
      rw [if_neg (by decide), L.drop_colon hline hcolon hlen, hrest] at hport
      rw [if_neg (by decide)] at hplain
      simp only [hread, Option.bind_some] at hport
      have hchecks : (i ≤ 0 ∨ next + taken ≠ L.host + front.length + 1 ∨ 65535 < i) ↔ ¬ IsPort (digits ++ [c]) := by
        rw [← hbad]
        omega
      by_cases hgood : IsPort (digits ++ [c])
      · rw [if_neg fun h => hchecks.mp h hgood, hnumber hgood, ← hplain] at hport
        refine .inr ⟨?_, _, .inl ⟨_, htext, rfl⟩, hport⟩
        rintro ⟨text, hother, hnot⟩
        rw [L.portText_inj hother htext] at hnot
        exact hnot hgood
      · rw [if_pos (hchecks.mpr hgood)] at hport
        exact .inl ⟨⟨_, htext, hgood⟩, hport⟩
    -- without a colon no text is tried
    · have hno : ∀ text, ¬ L.PortText text := by
        rintro text ⟨front', digits, c', s', hline', hc', hs', hcolon, -⟩
        obtain rfl := suffix_inj (hline.symm.trans hline') hc hs hc' hs'
        exact hnone digits hcolon
      rw [if_pos hne] at hport hplain
      refine .inr ⟨?_, 80, .inr ⟨hno, rfl⟩, by rw [hport, hplain]; rfl⟩
      rintro ⟨text, htext, -⟩
      exact hno text htext

end HostLine

/-- **The walks back stop within the request**, and the host that is found ends where its line does
or before. Its length is none in one of two cases only: there is nothing but blanks, or the name of
the field is followed at once by digits and one byte more. With a port to fill in, a line with a bad
one is refused and leaves it as it is; else the host is found as without, and the port filled in is
that of the line. -/
theorem parseHttp_within (buffer : List UInt8) (port : Option ℕ) :
    ∃ len hs out, parseHttpPort buffer port = some ((len, hs), out) ∧ (hs = none → len = 0) ∧
      (∀ start, hs = some start → ∃ L : HostLine buffer, L.host ≤ start ∧ start ≤ L.newline ∧ start + len ≤ L.newline ∧
        (len < 0 ↔ 0 < L.blanks ∧ L.Blank ∨ L.blanks = 0 ∧ L.line.head? ≠ some 91 ∧
          ∃ front c s, L.line = front ++ c :: s ∧ isspace c = false ∧ (∀ x ∈ s, isspace x = true) ∧
            ∀ x ∈ front, isdigit x = true)) ∧
      (port = none → parseHttp buffer = some (len, hs) ∧ out = none) ∧
      (IsEmpty (HostLine buffer) → parseHttp buffer = some (len, hs) ∧ out = port) ∧
      ∀ p, port = some p → ∀ L : HostLine buffer, (L.BadPort → len = 0 ∧ hs = none ∧ out = some p) ∧
        (¬ L.BadPort → parseHttp buffer = some (len, hs) ∧ ∃ q, out = some q ∧ L.Port q) := by
  obtain ⟨len, hs, hparse, hzero, hwithin⟩ := parseHttp_returns buffer
  cases port with
  | none =>
    refine ⟨len, hs, none, ?_, hzero, hwithin, fun _ => ⟨hparse, rfl⟩, fun _ => ⟨hparse, rfl⟩, by simp⟩
    rw [parseHttpPort_none, hparse]
    rfl
  | some p =>
    -- a buffer without a line leaves the port as it is
    by_cases hline : Nonempty (HostLine buffer)
    · obtain ⟨L⟩ := hline
      obtain ⟨hbad, hport⟩ | ⟨hgood, q, hq, hport⟩ := L.parseHttpPort_some p
      · refine ⟨0, none, some p, hport, fun _ => rfl, fun start hstart => absurd hstart (by simp), by simp,
          fun hempty => hempty.elim L, ?_⟩
        intro p' hp' L'
        obtain rfl := Option.some.inj hp'
        exact ⟨fun _ => ⟨rfl, rfl, rfl⟩, fun hgood => absurd (L.badPort_of_badPort L' hbad) hgood⟩
      · rw [hparse] at hport
        refine ⟨len, hs, some q, hport, hzero, hwithin, by simp, fun hempty => hempty.elim L, ?_⟩
        intro p' hp' L'
        exact ⟨fun hbad => absurd (L'.badPort_of_badPort L hbad) hgood, fun _ => ⟨hparse, q, rfl, L.port_of_port L' hq⟩⟩
    · have hempty := not_nonempty_iff.mp hline
      have hfound : parseHttp buffer = some (0, none) := (parseHttp_none_or buffer).resolve_right hline
      exact ⟨0, none, some p, (parseHttpPort_none_or buffer (some p)).resolve_right hline, fun _ => rfl,
        fun start hstart => absurd hstart (by simp), by simp, fun _ => ⟨hfound, rfl⟩, fun _ _ L => hempty.elim L⟩

example : parseHttpPort (ascii "GET / HTTP/1.1\r\nHost:8x\r\n\r\n") (some 0) = some ((0, none), some 0) ∧
    parseHttp (ascii "GET / HTTP/1.1\r\nHost:8x\r\n\r\n") = some (-1, some 21) := by decide

/-! ## Letters and blanks

Two lines have the same words if they differ in letters' case and in blanks only. Moving bytes
over blanks keeps the words, and so does writing tabs in their place. -/

/-- Raising a letter is undone by lowering it. -/
theorem tolower_toupper (c : UInt8) : tolower (toupper c) = tolower c := by
  unfold tolower toupper
  simp only [Bool.and_eq_true, decide_eq_true_eq, UInt8.le_iff_toNat_le, ← UInt8.toNat_inj]
  split_ifs <;> simp_all [UInt8.toNat_add, UInt8.toNat_sub]
  all_goals omega

theorem tolower_tolower (c : UInt8) : tolower (tolower c) = tolower c := by
  unfold tolower
  simp only [Bool.and_eq_true, decide_eq_true_eq, UInt8.le_iff_toNat_le, ← UInt8.toNat_inj]
  split_ifs <;> simp_all [UInt8.toNat_add]
  omega

theorem isspace_tolower (c : UInt8) : isspace (tolower c) = isspace c := by
  unfold tolower
  split
  · rename_i hupper
    simp only [Bool.and_eq_true, decide_eq_true_eq, UInt8.le_iff_toNat_le, UInt8.reduceToNat] at hupper
    rw [Bool.eq_iff_iff, isspace_iff, isspace_iff, UInt8.toNat_add, show (32 : UInt8).toNat = 32 from rfl]
    omega
  · rfl

/-- Mixing the case of a domain keeps its letters. -/
theorem map_tolower_upEverySecond (l : List UInt8) : (upEverySecond l).map tolower = l.map tolower := by
  fun_induction upEverySecond l with
  | case1 => rfl
  | case2 c => rw [List.map_singleton, List.map_singleton, tolower_toupper]
  | case3 c d rest ih => simp only [List.map_cons, tolower_toupper, ih]

/-- What stands between white space. -/
def words (l : List UInt8) : List (List UInt8) := (l.splitOnP isspace).filter (· ≠ [])

theorem words_append_space (l rest : List UInt8) {c : UInt8} (hc : isspace c = true) :
    words (l ++ c :: rest) = words l ++ words rest := by
  unfold words
  rw [List.splitOnP_append_cons _ _ hc, List.filter_append]

theorem words_blanks {pad : List UInt8} (h : ∀ c ∈ pad, isspace c = true) (rest : List UInt8) :
    words (pad ++ rest) = words rest := by
  induction pad with
  | nil => rfl
  | cons c pad ih =>
    have hnone : words [] = [] := by decide
    have hcons := words_append_space [] (pad ++ rest) (h c List.mem_cons_self)
    rw [List.nil_append, hnone, List.nil_append] at hcons
    rw [List.cons_append, hcons, ih fun x hx => h x (List.mem_cons_of_mem c hx)]

/-- Blanks before white space, or before the end, change no word. -/
theorem words_pad (w : List UInt8) {pad rest : List UInt8} (hpad : ∀ c ∈ pad, isspace c = true)
    (hrest : rest = [] ∨ ∃ c more, rest = c :: more ∧ isspace c = true) : words (w ++ (pad ++ rest)) = words (w ++ rest) := by
  have hsplit : words (w ++ rest) = words w ++ words rest := by
    obtain rfl | ⟨c, more, rfl, hc⟩ := hrest
    · have hnone : words [] = [] := by decide
      rw [hnone, List.append_nil, List.append_nil]
    · have hlone := words_append_space [] more hc
      have hnone : words [] = [] := by decide
      rw [hnone, List.nil_append, List.nil_append] at hlone
      rw [words_append_space w more hc, hlone]
  cases pad with
  | nil => rfl
  | cons c pad =>
    rw [List.cons_append, words_append_space w _ (hpad c List.mem_cons_self),
      words_blanks (fun x hx => hpad x (List.mem_cons_of_mem c hx)), hsplit]

/-! ## What is changed

The changes are made in the order of the source, and each is a change of one part of the line.
The request is rewritten with another name and another value, and only there. -/

/-- A change in the middle leaves both ends as they are. -/
theorem change_append (A M B : List UInt8) (f : List UInt8 → List UInt8) (i len : ℕ) (hi : A.length = i)
    (hlen : M.length = len) : change (A ++ (M ++ B)) i len f = A ++ (f M ++ B) := by
  subst hi hlen
  unfold change
  rw [List.take_left, List.drop_left, List.take_left, ← List.append_assoc A M B,
    List.drop_left' (by rw [List.length_append]), List.append_assoc]

theorem modify_append (A : List UInt8) (x : UInt8) (B : List UInt8) (f : UInt8 → UInt8) {i : ℕ} (hi : A.length = i) :
    (A ++ x :: B).modify i f = A ++ f x :: B := by
  subst hi
  induction A with
  | nil => rfl
  | cons a A ih => rw [List.cons_append, List.length_cons, List.modify_succ_cons, ih, List.cons_append]

/-- The first white space from a byte of the line on, which ends with some. -/
theorem nextSpace_eq (P line after : List UInt8) {q : ℕ} (hlow : P.length ≤ q) (hhigh : q ≤ P.length + line.length) :
    ∃ w rest, line = w ++ rest ∧ (rest = [] ∨ ∃ c more, rest = c :: more ∧ isspace c = true) ∧ q ≤ P.length + w.length ∧
      nextSpace (P ++ (line ++ 10 :: after)) q = some (P.length + w.length) := by
  obtain ⟨front, tail, rfl, hfront⟩ : ∃ front tail, line = front ++ tail ∧ P.length + front.length = q :=
    ⟨line.take (q - P.length), line.drop (q - P.length), (List.take_append_drop _ _).symm, by
      rw [List.length_take]
      omega⟩
  have hdrop : (P ++ (front ++ tail ++ 10 :: after)).drop q = tail ++ 10 :: after := by
    rw [List.append_assoc front, ← List.append_assoc P, List.drop_left' (by rw [List.length_append, hfront])]
  -- a word has no blank in it
  have hword : ∀ c ∈ tail.takeWhile (fun c => !isspace c), isspace c = false := by
    intro c hc
    simpa using List.mem_takeWhile_imp hc
  have hfind : ∀ (word : List UInt8) (c : UInt8) (more : List UInt8), (∀ x ∈ word, isspace x = false) →
      isspace c = true → (word ++ c :: more).findIdx? isspace = some word.length := by
    intro word c more hword hc
    rw [List.findIdx?_eq_some_iff_getElem]
    refine ⟨by simp, by simpa using hc, fun j hj => ?_⟩
    rw [List.getElem_append_left hj, hword _ (List.getElem_mem hj)]
    decide
  refine ⟨front ++ tail.takeWhile fun c => !isspace c, tail.dropWhile fun c => !isspace c, ?_, ?_, ?_, ?_⟩
  · rw [List.append_assoc, List.takeWhile_append_dropWhile]
  · cases hrest : tail.dropWhile fun c => !isspace c with
    | nil => exact .inl rfl
    | cons c more =>
      have hnot := List.head?_dropWhile_not (fun c => !isspace c) tail
      rw [hrest] at hnot
      exact .inr ⟨c, more, rfl, by simpa using hnot⟩
  · rw [List.length_append]
    omega
  · unfold nextSpace
    rw [if_neg (by omega), Int.toNat_natCast, hdrop, Option.map_eq_some_iff]
    refine ⟨(tail.takeWhile fun c => !isspace c).length, ?_, by rw [List.length_append]; omega⟩
    rw [← List.takeWhile_append_dropWhile (p := fun c => !isspace c) (l := tail), List.append_assoc]
    rw [List.takeWhile_append_dropWhile]
    -- the walk stops at the blank behind the word, or at the newline
    cases hrest : tail.dropWhile fun c => !isspace c with
    | nil => exact hfind _ 10 after hword (by decide)
    | cons c more =>
      have hnot := List.head?_dropWhile_not (fun c => !isspace c) tail
      rw [hrest] at hnot
      exact hfind _ c (more ++ 10 :: after) hword (by simpa using hnot)

namespace HostLine

variable {buffer : List UInt8} (L : HostLine buffer)

/-- The buffer with another name of the field and another line. -/
def rewrite (name field : List UInt8) : List UInt8 := L.pre ++ 10 :: (name ++ 58 :: (field ++ 10 :: L.after))

/-- The request is its own rewriting, with nothing changed. -/
theorem buffer_eq' : buffer = L.rewrite L.name (List.replicate L.blanks 32 ++ L.line) := by
  refine L.buffer_eq.trans ?_
  unfold rewrite
  rw [List.append_assoc]

/-- From the host back to the colon. -/
theorem backWhile_host {s rest : List UInt8} (hline : L.line = s ++ rest) (hs : ∀ x ∈ s, x ≠ 58) :
    backWhile (fun c => c ≠ 58) buffer (L.host + s.length) = some L.field := by
  obtain ⟨pre, t, -, -, -, hpre, hbuffer⟩ := L.exists_letter
  have hhost : L.host = L.field + L.blanks := rfl
  have hsplit : buffer = (pre ++ [t]) ++ 58 :: ((List.replicate L.blanks 32 ++ s) ++ (rest ++ 10 :: L.after)) := by
    refine hbuffer.trans ?_
    rw [hline]
    simp only [List.append_assoc, List.cons_append, List.nil_append]
  have hall : ∀ x ∈ List.replicate L.blanks 32 ++ s, decide (x ≠ 58) = true := by
    intro x hx
    obtain hx | hx := List.mem_append.mp hx
    · rw [List.eq_of_mem_replicate hx]
      decide
    · exact decide_eq_true (hs x hx)
  have hstop := backWhile_eq (p := fun c => decide (c ≠ 58)) (c := 58) (by decide) (pre ++ [t]) hall
    (rest ++ 10 :: L.after) (i := L.host + s.length)
    (by simp only [List.length_append, List.length_replicate, List.length_singleton]; omega)
  rw [← hsplit] at hstop
  rw [hstop, List.length_append, List.length_singleton, hpre]

/-- The name of the field in mixed case. -/
theorem exists_hmix (b : Bool) : ∃ name, name.length = 4 ∧ name.map tolower = ascii "host" ∧ ∀ field,
    (if b then ((L.rewrite L.name field).modify (L.field - 5) tolower).modify (L.field - 4) toupper
        |>.modify (L.field - 2) toupper else L.rewrite L.name field) = L.rewrite name field := by
  cases b with
  | false => exact ⟨L.name, L.length_name, L.name_eq, fun field => rfl⟩
  | true =>
    have hname := L.name_eq
    have hfield : L.field = L.pre.length + 6 := rfl
    match hn : L.name, L.length_name with
    | [h, o, s, t], _ =>
      rw [hn] at hname
      refine ⟨[tolower h, toupper o, s, toupper t], rfl, ?_, fun field => ?_⟩
      · rw [← hname]
        simp only [List.map_cons, List.map_nil, tolower_tolower, tolower_toupper]
      · have hfirst := modify_append (L.pre ++ [10]) h (o :: s :: t :: 58 :: (field ++ 10 :: L.after)) tolower
          (i := L.field - 5) (by rw [List.length_append, List.length_singleton]; omega)
        have hsecond := modify_append (L.pre ++ [10, tolower h]) o (s :: t :: 58 :: (field ++ 10 :: L.after)) toupper
          (i := L.field - 4) (by simp only [List.length_append, List.length_cons, List.length_nil]; omega)
        have hlast := modify_append (L.pre ++ [10, tolower h, toupper o, s]) t (58 :: (field ++ 10 :: L.after)) toupper
          (i := L.field - 2) (by simp only [List.length_append, List.length_cons, List.length_nil]; omega)
        simp only [List.append_assoc, List.cons_append, List.nil_append] at hfirst hsecond hlast
        rw [if_pos rfl]
        unfold rewrite
        simp only [List.cons_append, List.nil_append, hfirst, hsecond, hlast]

/-- Every second letter of bytes of the line in upper case. -/
theorem exists_dmix (b : Bool) {name : List UInt8} (hname : name.length = 4) (start len : ℕ) (hlow : L.host ≤ start)
    (hhigh : start + len ≤ L.newline) : ∃ line : List UInt8, line.map tolower = L.line.map tolower ∧
      (if b then change (L.rewrite name (List.replicate L.blanks 32 ++ L.line)) start len upEverySecond
        else L.rewrite name (List.replicate L.blanks 32 ++ L.line)) = L.rewrite name (List.replicate L.blanks 32 ++ line) := by
  cases b with
  | false => exact ⟨L.line, rfl, rfl⟩
  | true =>
    have hnewline : L.newline = L.host + L.line.length := rfl
    have hhost : L.host = L.pre.length + 6 + L.blanks := rfl
    obtain ⟨a, m, rest, hline, ha, hm⟩ : ∃ a m rest, L.line = a ++ (m ++ rest) ∧ L.host + a.length = start ∧ m.length = len :=
      ⟨L.line.take (start - L.host), (L.line.drop (start - L.host)).take len, (L.line.drop (start - L.host)).drop len, by
        rw [List.take_append_drop, List.take_append_drop], by rw [List.length_take]; omega, by
        rw [List.length_take, List.length_drop]; omega⟩
    refine ⟨a ++ (upEverySecond m ++ rest), ?_, ?_⟩
    · rw [hline]
      simp only [List.map_append, map_tolower_upEverySecond]
    · have hchange := change_append (L.pre ++ 10 :: (name ++ 58 :: (List.replicate L.blanks 32 ++ a))) m
        (rest ++ 10 :: L.after) upEverySecond start _
        (by simp only [List.length_append, List.length_cons, List.length_replicate]; omega) hm
      rw [if_pos rfl]
      unfold rewrite
      rw [hline]
      simp only [List.append_assoc, List.cons_append] at hchange ⊢
      exact hchange

/-- From a place in the value the walk goes to its next blank or to its end. -/
theorem nextSpace_rewrite {name : List UInt8} (line : List UInt8) (hname : name.length = 4) {q : ℤ}
    (hlow : (L.host : ℤ) ≤ q ∨ q + 1 = L.host ∧ L.blanks = 0) (hhigh : q ≤ ((L.host + line.length : ℕ) : ℤ)) :
    ∃ w rest, line = w ++ rest ∧ (rest = [] ∨ ∃ c more, rest = c :: more ∧ isspace c = true) ∧
      q ≤ ((L.host + w.length : ℕ) : ℤ) ∧
      nextSpace (L.rewrite name (List.replicate L.blanks 32 ++ line)) q = some (L.host + w.length) := by
  have hhost : L.host = L.pre.length + 6 + L.blanks := rfl
  obtain hq | ⟨hq, hblanks⟩ := hlow
  · have hP : (L.pre ++ 10 :: (name ++ 58 :: List.replicate L.blanks 32)).length = L.host := by
      simp only [List.length_append, List.length_cons, List.length_replicate]
      omega
    obtain ⟨w, rest, hline, hrest, hw, hnext⟩ := nextSpace_eq (L.pre ++ 10 :: (name ++ 58 :: List.replicate L.blanks 32))
      line L.after (q := q.toNat) (by omega) (by omega)
    refine ⟨w, rest, hline, hrest, by omega, ?_⟩
    rw [Int.toNat_of_nonneg (by omega), hP] at hnext
    rw [← hnext, rewrite]
    simp only [List.append_assoc, List.cons_append]
  · -- from the colon, which is no white space
    have hP : (L.pre ++ 10 :: name).length + 1 = L.host := by
      simp only [List.length_append, List.length_cons]
      omega
    obtain ⟨w, rest, hline, hrest, -, hnext⟩ := nextSpace_eq (L.pre ++ 10 :: name) (58 :: line) L.after (q := q.toNat)
      (by omega) (by omega)
    cases w with
    | nil =>
      obtain rfl | ⟨c, more, rfl, hc⟩ := hrest
      · simp at hline
      · rw [← (List.cons.inj hline).1] at hc
        exact absurd hc (by decide)
    | cons colon w =>
      refine ⟨w, rest, (List.cons.inj hline).2, hrest, by omega, ?_⟩
      rw [Int.toNat_of_nonneg (by omega), List.length_cons] at hnext
      rw [show L.host + w.length = (L.pre ++ 10 :: name).length + (w.length + 1) by omega, ← hnext, rewrite, hblanks]
      simp only [List.append_assoc, List.cons_append, List.replicate_zero, List.nil_append]

/-- The value moved up to the colon, with tabs behind it in place of what stood before it. -/
theorem change_field {name w rest : List UInt8} (hname : name.length = 4) (k : ℕ) :
    change (L.rewrite name (List.replicate L.blanks 32 ++ (w ++ rest))) L.field (L.host + w.length - L.field)
        (fun bytes => bytes.drop (L.host + k - L.field) ++ List.replicate (L.host + k - L.field) 9) =
      L.rewrite name (w.drop k ++ (List.replicate (L.blanks + k) 9 ++ rest)) := by
  have hhost : L.host = L.field + L.blanks := rfl
  have hfield : L.field = L.pre.length + 6 := rfl
  have hchange := change_append (L.pre ++ 10 :: (name ++ [58])) (List.replicate L.blanks 32 ++ w) (rest ++ 10 :: L.after)
    (fun bytes => bytes.drop (L.host + k - L.field) ++ List.replicate (L.host + k - L.field) 9) L.field
    (L.host + w.length - L.field)
    (by simp only [List.length_append, List.length_cons, List.length_nil]; omega)
    (by simp only [List.length_append, List.length_replicate]; omega)
  have hdrop : (List.replicate L.blanks 32 ++ w).drop (L.host + k - L.field) = w.drop k := by
    rw [show L.host + k - L.field = L.blanks + k by omega, ← List.drop_drop, List.drop_left' List.length_replicate]
  rw [hdrop, show L.host + k - L.field = L.blanks + k by omega] at hchange
  rw [show L.host + k - L.field = L.blanks + k by omega]
  unfold rewrite
  simp only [List.append_assoc, List.cons_append, List.nil_append] at hchange ⊢
  exact hchange

end HostLine

/-- Blanks in place of blanks: the words stay, but for the bytes that go with the blanks. -/
theorem words_moved {line w rest : List UInt8} {k blanks : ℕ} {value : List UInt8}
    (hvalue : value = w.drop k ++ (List.replicate (blanks + k) 9 ++ rest)) (hline : line = w ++ rest)
    (hrest : rest = [] ∨ ∃ c more, rest = c :: more ∧ isspace c = true) (hk : k ≤ w.length) :
    words (value.map tolower) = words ((line.drop k).map tolower) := by
  subst hvalue hline
  have hblank : (List.replicate (blanks + k) (9 : UInt8)).map tolower = List.replicate (blanks + k) 9 := by
    rw [List.map_replicate]
    rfl
  rw [List.drop_append_of_le_length hk, List.map_append, List.map_append, hblank, List.map_append]
  refine words_pad _ (fun c hc => ?_) ?_
  · rw [List.eq_of_mem_replicate hc]
    decide
  · obtain rfl | ⟨c, more, rfl, hc⟩ := hrest
    · exact .inl rfl
    · exact .inr ⟨tolower c, more.map tolower, rfl, by rw [isspace_tolower]; exact hc⟩

/-- What comes after the host has been found: the letters, and then the blanks. -/
theorem modHttp_found {buffer : List UInt8} (L : HostLine buffer) (m : ModHttp) {hlen : ℤ} {start : ℕ}
    (hparse : parseHttp buffer = some (hlen, some start)) (hne : hlen ≠ 0)
    (hstart : start = L.host ∨ start = L.host + 1 ∧ L.line.head? = some 91 ∧ 0 ≤ hlen)
    (hhigh : start + hlen.toNat ≤ L.newline) :
    ∃ name line : List UInt8, name.length = 4 ∧ name.map tolower = ascii "host" ∧ line.map tolower = L.line.map tolower ∧
      modHttp buffer m = if m.SPACE then
          (nextSpace (L.rewrite name (List.replicate L.blanks 32 ++ line)) (start + hlen)).bind fun stop =>
            if stop < start then none
            else some (0, change (L.rewrite name (List.replicate L.blanks 32 ++ line)) L.field (stop - L.field) fun bytes =>
              bytes.drop (start - L.field) ++ List.replicate (start - L.field) 9)
        else some (0, L.rewrite name (List.replicate L.blanks 32 ++ line)) := by
  obtain ⟨name, hlength, hname, hmix⟩ := L.exists_hmix m.HMIX
  obtain ⟨line, hline, hdmix⟩ := L.exists_dmix m.DMIX hlength start hlen.toNat
    (by obtain rfl | ⟨rfl, -⟩ := hstart <;> omega) hhigh
  -- the walk back from the host goes over the blanks, and over a bracket
  have hback : backWhile (fun c => c ≠ 58) buffer start = some L.field := by
    obtain rfl | ⟨rfl, hbracket, -⟩ := hstart
    · exact L.backWhile_host (s := []) (List.nil_append _).symm (fun x hx => absurd hx List.not_mem_nil)
    · cases hl : L.line with
      | nil =>
        rw [hl] at hbracket
        exact absurd hbracket (by decide)
      | cons c more =>
        rw [hl] at hbracket
        obtain rfl := Option.some.inj hbracket
        refine L.backWhile_host (s := [91]) hl fun x hx => ?_
        rw [List.mem_singleton.mp hx]
        decide
  -- and four letters more stand before the colon
  have hfive : ¬ L.field < 5 := by
    have hfield : L.field = L.pre.length + 6 := rfl
    omega
  refine ⟨name, line, hlength, hname, hline, ?_⟩
  have hall := hmix (List.replicate L.blanks 32 ++ L.line)
  rw [← L.buffer_eq'] at hall
  unfold modHttp
  rw [hparse, Option.bind_some]
  dsimp only
  rw [if_neg hne, Option.bind_some, hback, Option.bind_some, if_neg hfive, hall, hdmix]

/-- From before a value that is blank it stops at once. -/
theorem nextSpace_blank {buffer : List UInt8} (L : HostLine buffer) {name line : List UInt8} (hname : name.length = 4)
    (hblanks : 0 < L.blanks) :
    nextSpace (L.rewrite name (List.replicate L.blanks 32 ++ line)) (L.host + -(L.blanks : ℤ)) = some L.field := by
  have hhost : L.host = L.field + L.blanks := rfl
  have hfield : L.field = L.pre.length + 6 := rfl
  obtain ⟨k, hk⟩ : ∃ k, L.blanks = k + 1 := ⟨L.blanks - 1, by omega⟩
  have hsplit : L.rewrite name (List.replicate L.blanks 32 ++ line) =
      (L.pre ++ 10 :: (name ++ [58])) ++ 32 :: (List.replicate k 32 ++ (line ++ 10 :: L.after)) := by
    unfold HostLine.rewrite
    rw [hk, List.replicate_succ]
    simp only [List.append_assoc, List.cons_append, List.nil_append]
  have hpos : (L.host : ℤ) + -(L.blanks : ℤ) = (L.field : ℤ) := by omega
  have hspace : isspace 32 = true := by decide
  unfold nextSpace
  rw [hpos, if_neg (by omega), Int.toNat_natCast, hsplit,
    List.drop_left' (by simp only [List.length_append, List.length_cons, List.length_nil]; omega),
    List.findIdx?_cons, if_pos hspace]
  rfl

/-- The field is blank after a space, and blanks are to be moved. -/
def Torn (buffer : List UInt8) (m : ModHttp) : Prop := m.SPACE = true ∧ ∃ L : HostLine buffer, 0 < L.blanks ∧ L.Blank

/-- The request but for its first `Host` line, and there the same words in another case; where an
address in brackets is moved, the words without its first bracket. -/
def Rewritten (buffer : List UInt8) (m : ModHttp) (out : List UInt8) : Prop :=
  ∃ (L : HostLine buffer) (name field : List UInt8), out = L.rewrite name field ∧ name.map tolower = ascii "host" ∧
    field.length = L.blanks + L.line.length ∧
    words (field.map tolower) =
      words ((if m.SPACE = true ∧ L.line.head? = some 91 then L.line.tail else L.line).map tolower)

/-- What the function comes back with where it comes back. -/
def Answered (buffer : List UInt8) (m : ModHttp) : Prop :=
  ∃ ret out, modHttp buffer m = some (ret, out) ∧ (ret = -1 ∧ out = buffer ∨ ret = 0 ∧ Rewritten buffer m out)

/-- Nothing is found, or nothing that has a length. -/
theorem answered_of_zero {buffer : List UInt8} (m : ModHttp) {hs : Option ℕ} (h : parseHttp buffer = some (0, hs)) :
    Answered buffer m := by
  refine ⟨-1, buffer, ?_, .inl ⟨rfl, rfl⟩⟩
  unfold modHttp
  rw [h, Option.bind_some]
  rfl

/-- Letters are changed, and no blanks are moved. -/
theorem answered_of_letters {buffer : List UInt8} (L : HostLine buffer) {m : ModHttp} (hspace : ¬ m.SPACE = true)
    {name line : List UInt8} (hname : name.map tolower = ascii "host") (hlower : line.map tolower = L.line.map tolower)
    (h : modHttp buffer m = some (0, L.rewrite name (List.replicate L.blanks 32 ++ line))) : Answered buffer m := by
  refine ⟨0, _, h, .inr ⟨rfl, L, name, _, rfl, hname, ?_, ?_⟩⟩
  · rw [List.length_append, List.length_replicate, ← List.length_map (f := tolower), hlower, List.length_map]
  · have hwords : words ((List.replicate L.blanks 32 ++ line).map tolower) = words (L.line.map tolower) := by
      rw [List.map_append, List.map_replicate, hlower]
      refine words_blanks (fun x hx => ?_) _
      rw [List.eq_of_mem_replicate hx]
      decide
    rw [if_neg fun h => hspace h.1]
    exact hwords

/-- A blank field. -/
theorem modHttp_blank {buffer : List UInt8} (L : HostLine buffer) (m : ModHttp) (hblank : L.Blank) :
    (modHttp buffer m = none ∧ m.SPACE = true ∧ 0 < L.blanks) ∨ (Answered buffer m ∧ ¬ (m.SPACE = true ∧ 0 < L.blanks)) := by
  have hparse := L.parseHttp_blank hblank
  by_cases hblanks : L.blanks = 0
  · rw [hblanks] at hparse
    exact .inr ⟨answered_of_zero m hparse, fun h => absurd h.2 (by omega)⟩
  · have hnewline : L.newline = L.host + L.line.length := rfl
    have hhost : L.host = L.field + L.blanks := rfl
    obtain ⟨name, line, hlength, hname, hlower, hmod⟩ := modHttp_found L m hparse (by omega) (.inl rfl) (by omega)
    by_cases hspace : m.SPACE = true
    · refine .inl ⟨?_, hspace, by omega⟩
      rw [hmod, if_pos hspace, nextSpace_blank L hlength (by omega), Option.bind_some, if_pos (by omega)]
    · rw [if_neg hspace] at hmod
      exact .inr ⟨answered_of_letters L hspace hname hlower hmod, fun h => hspace h.1⟩

/-- A host is found, `k` bytes behind the blanks: these, and the `k` bytes with them, give place. -/
theorem answered_of_host {buffer : List UInt8} (L : HostLine buffer) (m : ModHttp) {k : ℕ} {hlen : ℤ}
    (hparse : parseHttp buffer = some (hlen, some (L.host + k))) (hne : hlen ≠ 0)
    (hk : k = 0 ∧ L.line.head? ≠ some 91 ∨ k = 1 ∧ L.line.head? = some 91 ∧ 0 ≤ hlen)
    (hroom : L.host + k + hlen.toNat ≤ L.newline)
    (hstart : (L.host : ℤ) ≤ L.host + k + hlen ∨ (L.host : ℤ) + k + hlen + 1 = L.host ∧ L.blanks = 0) :
    Answered buffer m := by
  have hnewline : L.newline = L.host + L.line.length := rfl
  obtain ⟨name, line, hlength, hname, hlower, hmod⟩ := modHttp_found L m hparse hne
    (hk.imp (fun h => by rw [h.1, Nat.add_zero]) fun h => ⟨by rw [h.1], h.2⟩) hroom
  by_cases hspace : m.SPACE = true
  · have hsame : line.length = L.line.length := by
      rw [← List.length_map (f := tolower), hlower, List.length_map]
    obtain ⟨w, rest, rfl, hrest, hw, hnext⟩ := L.nextSpace_rewrite line hlength (q := ((L.host + k : ℕ) : ℤ) + hlen)
      (by rw [Nat.cast_add]; exact hstart) (by omega)
    have hkle : k ≤ w.length := by
      obtain ⟨rfl, -⟩ | ⟨rfl, -, hnonneg⟩ := hk
      · exact Nat.zero_le _
      · omega
    refine ⟨0, _, ?_, .inr ⟨rfl, L, name, w.drop k ++ (List.replicate (L.blanks + k) 9 ++ rest), rfl, hname, ?_, ?_⟩⟩
    · rw [hmod, if_pos hspace, hnext, Option.bind_some, if_neg (by omega), L.change_field hlength k]
    · simp only [List.length_append, List.length_drop, List.length_replicate] at hsame ⊢
      omega
    · rw [words_moved rfl rfl hrest hkle, List.map_drop, hlower, ← List.map_drop]
      obtain ⟨rfl, hbracket⟩ | ⟨rfl, hbracket, -⟩ := hk
      · rw [if_neg fun h => hbracket h.2, List.drop_zero]
      · rw [if_pos ⟨hspace, hbracket⟩, List.drop_one]
  · rw [if_neg hspace] at hmod
    exact answered_of_letters L hspace hname hlower hmod

/-- A field that is not blank. -/
theorem answered_of_value {buffer : List UInt8} (L : HostLine buffer) (m : ModHttp) {front s : List UInt8} {c : UInt8}
    (hline : L.line = front ++ c :: s) (hc : isspace c = false) (hs : ∀ x ∈ s, isspace x = true) : Answered buffer m := by
  have hnewline : L.newline = L.host + L.line.length := rfl
  have hlen : L.line.length = front.length + (s.length + 1) := by
    rw [hline, List.length_append, List.length_cons]
  obtain ⟨h_end, hhigh, hwhere, ⟨hhead, hparse⟩ | ⟨hhead, hparse | ⟨hlow, hparse⟩⟩⟩ := L.parseHttp_value hline hc hs
  · by_cases hzero : (h_end : ℤ) - L.host = 0
    · rw [hzero] at hparse
      exact answered_of_zero m hparse
    · refine answered_of_host L m (k := 0) hparse hzero (.inl ⟨rfl, hhead⟩) (by omega) ?_
      obtain ⟨hend, -⟩ | ⟨hend, hblanks, -⟩ | ⟨name, digits, -, hend⟩ := hwhere
      · left; omega
      · right; exact ⟨by omega, hblanks⟩
      · left; omega
  · exact answered_of_zero m hparse
  · by_cases hzero : ((h_end - 1 : ℕ) : ℤ) - ((L.host + 1 : ℕ) : ℤ) = 0
    · rw [hzero] at hparse
      exact answered_of_zero m hparse
    · exact answered_of_host L m (k := 1) hparse hzero (.inr ⟨rfl, hhead, by omega⟩) (by omega) (.inl (by omega))

/-- **The request is changed in its first `Host` line only, and there in letters' case and in blanks
only**, but for an address in brackets, whose first bracket goes with the blanks when these are moved.
And it is moved out of the memory where the field is blank after a space. -/
theorem modHttp_cases (buffer : List UInt8) (m : ModHttp) :
    (modHttp buffer m = none ∧ Torn buffer m) ∨ (Answered buffer m ∧ ¬ Torn buffer m) := by
  obtain hnone | ⟨⟨L⟩⟩ := parseHttp_none_or buffer
  · refine .inr ⟨answered_of_zero m hnone, ?_⟩
    rintro ⟨-, L, -, hblank⟩
    rw [L.parseHttp_blank hblank] at hnone
    simp at hnone
  · obtain hblank | ⟨front, c, s, hline, hc, hs⟩ := exists_suffix isspace L.line
    · obtain ⟨hnone, hspace, hblanks⟩ | ⟨hanswer, hnot⟩ := modHttp_blank L m hblank
      · exact .inl ⟨hnone, hspace, L, hblanks, hblank⟩
      · refine .inr ⟨hanswer, ?_⟩
        rintro ⟨hspace, L', hblanks, -⟩
        rw [← (L.unique L').1] at hblanks
        exact hnot ⟨hspace, hblanks⟩
    · refine .inr ⟨answered_of_value L m hline hc hs, ?_⟩
      rintro ⟨-, L', -, hblank⟩
      have hmem : c ∈ L'.line := by
        rw [← (L.unique L').2, hline]
        simp
      rw [hblank c hmem] at hc
      exact absurd hc (by decide)

example : modHttp (ascii "GET / HTTP/1.1\r\nHost: \r\n\r\n") { SPACE := true } = none := by decide

end VlessCard.HttpHost
