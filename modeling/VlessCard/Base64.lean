/-
`Base64.kt`: the program's own Base64, standard and URL-safe, padding optional.

The decoder takes six bits a character into a 32-bit accumulator and writes a
byte whenever eight have come together; the encoder takes three bytes at a time.
In between stand the sextets, the numbers both of them agree on: a text is the
symbols of its sextets and some padding, and the accumulator turns the sextets
of a byte string back into its bytes.
-/
import VlessCard.Text
import VlessCard.Utf8

set_option autoImplicit false

namespace VlessCard.Base64

def STD : List Char :=
  "ABCDEFGHIJKLMNOPQRSTUVWXYZabcdefghijklmnopqrstuvwxyz0123456789+/".toList

/-- The loop of `decode`. The accumulator is a 32-bit integer whose upper bits are
never read: at most thirteen bits are waiting when a byte is written. -/
def decodeLoop : (buf bits : ℕ) → List Char → List UInt8
  | _, _, [] => []
  | buf, bits, c :: rest =>
      let buf := (buf <<< 6 ||| STD.idxOf c) % 2 ^ 32
      if 8 ≤ bits + 6 then
        UInt8.ofNat ((buf >>> (bits + 6 - 8)) &&& 0xFF) :: decodeLoop buf (bits + 6 - 8) rest
      else decodeLoop buf (bits + 6) rest

/-- `Base64.decode`. -/
def decode (input : String) : Option (List UInt8) :=
  let s := Text.trimEnd (Text.replaceChar (Text.replaceChar (Text.trim input) '-' '+') '_' '/') '='
  if s = "" || s.toList.any (fun c => c ∉ STD) then none
  else if Text.length s % 4 = 1 then none
  else some (decodeLoop 0 0 s.toList)

/-- `Base64.decodeToString`: bytes that are not UTF-8 are refused. -/
def decodeToString (input : String) : Option String :=
  (decode input).bind fun b => (Utf8.decode b).map String.ofList

/-- One turn of the loop of `encode`: `n` bytes of three, the others zero. -/
def quad (n : ℕ) (a b c : UInt8) : List Char :=
  let v := (a.toNat <<< 8 ||| b.toNat) <<< 8 ||| c.toNat
  (List.range 4).map fun k =>
    if k ≤ n then STD.getD ((v >>> (18 - 6 * k)) &&& 63) '=' else '='

/-- `Base64.encode` of bytes. -/
def encodeBytes : List UInt8 → List Char
  | [] => []
  | [a] => quad 1 a 0 0
  | [a, b] => quad 2 a b 0
  | a :: b :: c :: rest => quad 3 a b c ++ encodeBytes rest

/-- `Base64.encode` of a text. -/
def encode (text : String) : String := .ofList (encodeBytes (Utf8.encode text.toList))

/-! ## Sextets

A byte string is read as a string of six-bit numbers, the last of them filled up with zero bits.
The encoder and the decoder are both compared with this one, so that neither has to be compared
with the other. -/

/-- The six-bit numbers of a byte string, most significant first. -/
def sextets : List UInt8 → List ℕ
  | [] => []
  | [a] => [a.toNat / 4, a.toNat % 4 * 16]
  | [a, b] => [a.toNat / 4, a.toNat % 4 * 16 + b.toNat / 16, b.toNat % 16 * 4]
  | a :: b :: c :: rest =>
      [a.toNat / 4, a.toNat % 4 * 16 + b.toNat / 16, b.toNat % 16 * 4 + c.toNat / 64, c.toNat % 64]
        ++ sextets rest

/-- The symbol of a sextet. -/
def symbol (i : ℕ) : Char := STD.getD i '='

/-- The sixty-four signs differ, so each tells its number. -/
theorem idxOf_symbol : ∀ i < 64, STD.idxOf (symbol i) = i := by decide

/-- Each number below sixty-four has a sign of the alphabet. -/
theorem symbol_mem : ∀ i < 64, symbol i ∈ STD := by decide

/-- Six bits at a time, so each is below sixty-four. -/
theorem sextets_lt (bytes : List UInt8) : ∀ i ∈ sextets bytes, i < 64 := by
  fun_induction sextets bytes with
  | case1 => intro i hi; cases hi
  | case2 a =>
    have ha := a.toNat_lt
    intro i hi
    simp only [List.mem_cons, List.not_mem_nil, or_false] at hi
    omega
  | case3 a b =>
    have ha := a.toNat_lt
    have hb := b.toNat_lt
    intro i hi
    simp only [List.mem_cons, List.not_mem_nil, or_false] at hi
    omega
  | case4 a b c rest ih =>
    have ha := a.toNat_lt
    have hb := b.toNat_lt
    have hc := c.toNat_lt
    intro i hi
    rw [List.mem_append] at hi
    rcases hi with hi | hi
    · simp only [List.mem_cons, List.not_mem_nil, or_false] at hi
      omega
    · exact ih i hi

/-- No byte string leaves a single sextet in the last group. -/
theorem length_sextets (bytes : List UInt8) : (sextets bytes).length % 4 ≠ 1 := by
  fun_induction sextets bytes with
  | case1 => decide
  | case2 a => simp
  | case3 a b => simp
  | case4 a b c rest ih =>
    rw [List.length_append]
    simp only [List.length_cons, List.length_nil]
    omega

/-! ## The encoder writes sextets

Each turn of the loop writes four signs for three bytes. Where one or two bytes are missing it
writes padding for the sextets that are not there, which is all that tells the turns apart. -/

/-- The three bytes of a group as one number. -/
theorem group_eq (a b c : UInt8) :
    (a.toNat <<< 8 ||| b.toNat) <<< 8 ||| c.toNat
      = a.toNat * 65536 + b.toNat * 256 + c.toNat := by
  have hb := b.toNat_lt
  have hc := c.toNat_lt
  rw [← Nat.shiftLeft_add_eq_or_of_lt (by omega), ← Nat.shiftLeft_add_eq_or_of_lt (by omega),
    Nat.shiftLeft_eq, Nat.shiftLeft_eq]
  omega

/-- Three bytes are written as four signs, with padding where bytes are missing. -/
theorem quad_eq (n : ℕ) (a b c : UInt8) :
    quad n a b c = [if 0 ≤ n then symbol (a.toNat / 4) else '=',
      if 1 ≤ n then symbol (a.toNat % 4 * 16 + b.toNat / 16) else '=',
      if 2 ≤ n then symbol (b.toNat % 16 * 4 + c.toNat / 64) else '=',
      if 3 ≤ n then symbol (c.toNat % 64) else '='] := by
  have ha := a.toNat_lt
  have hb := b.toNat_lt
  have hc := c.toNat_lt
  have hand : ∀ x, x &&& 63 = x % 64 := fun x => Nat.and_two_pow_sub_one_eq_mod x 6
  unfold quad
  simp only [group_eq, hand, Nat.shiftRight_eq_div_pow, symbol, List.range, List.range.loop,
    List.map_cons, List.map_nil]
  have h0 : (a.toNat * 65536 + b.toNat * 256 + c.toNat) / 2 ^ (18 - 6 * 0) % 64 = a.toNat / 4 := by
    omega
  have h1 : (a.toNat * 65536 + b.toNat * 256 + c.toNat) / 2 ^ (18 - 6 * 1) % 64
      = a.toNat % 4 * 16 + b.toNat / 16 := by omega
  have h2 : (a.toNat * 65536 + b.toNat * 256 + c.toNat) / 2 ^ (18 - 6 * 2) % 64
      = b.toNat % 16 * 4 + c.toNat / 64 := by omega
  have h3 : (a.toNat * 65536 + b.toNat * 256 + c.toNat) / 2 ^ (18 - 6 * 3) % 64
      = c.toNat % 64 := by omega
  rw [h0, h1, h2, h3]

/-- The text of a byte string: the symbols of its sextets, then padding. -/
theorem encodeBytes_eq (bytes : List UInt8) :
    ∃ pad, encodeBytes bytes = (sextets bytes).map symbol ++ List.replicate pad '=' := by
  fun_induction encodeBytes bytes with
  | case1 => exact ⟨0, rfl⟩
  | case2 a => exact ⟨2, by simp [quad_eq, sextets, List.replicate]⟩
  | case3 a b => exact ⟨1, by simp [quad_eq, sextets, List.replicate]⟩
  | case4 a b c rest ih =>
    obtain ⟨pad, hpad⟩ := ih
    exact ⟨pad, by simp [quad_eq, sextets, hpad]⟩

/-! ## The accumulator reads them back

The decoder collects bits and gives out a byte whenever eight are there. Its accumulator is never
cleared, so the statement holds for whatever an earlier group has left in it. -/

/-- One character of the loop in arithmetic. -/
theorem decodeLoop_symbol {i : ℕ} (hi : i < 64) (buf bits : ℕ) (rest : List Char) :
    decodeLoop buf bits (symbol i :: rest) =
      if 8 ≤ bits + 6 then
        UInt8.ofNat ((buf * 64 + i) % 2 ^ 32 / 2 ^ (bits + 6 - 8) % 256)
          :: decodeLoop ((buf * 64 + i) % 2 ^ 32) (bits + 6 - 8) rest
      else decodeLoop ((buf * 64 + i) % 2 ^ 32) (bits + 6) rest := by
  have hbuf : buf <<< 6 ||| i = buf * 64 + i := by
    rw [← Nat.shiftLeft_add_eq_or_of_lt (by omega), Nat.shiftLeft_eq]
  have hand : ∀ x, x &&& 0xFF = x % 256 := fun x => Nat.and_two_pow_sub_one_eq_mod x 8
  rw [decodeLoop]
  simp only [idxOf_symbol i hi, hbuf, hand, Nat.shiftRight_eq_div_pow]

/-- A byte is written back from the two numbers that carry its bits. -/
theorem ofNat_eq {n : ℕ} {a : UInt8} (h : n = a.toNat) : UInt8.ofNat n = a := by
  rw [h, UInt8.ofNat_toNat]

/-- The loop on the sextets of a byte string writes the byte string, whatever an
earlier group left in the accumulator. -/
theorem decodeLoop_sextets (bytes : List UInt8) (buf : ℕ) :
    decodeLoop buf 0 ((sextets bytes).map symbol) = bytes := by
  fun_induction sextets bytes generalizing buf with
  | case1 => rfl
  | case2 a =>
    have ha := a.toNat_lt
    simp only [List.map_cons, List.map_nil]
    rw [decodeLoop_symbol (by omega), if_neg (by omega), decodeLoop_symbol (by omega),
      if_pos (by omega), decodeLoop, ofNat_eq (a := a) (by omega)]
  | case3 a b =>
    have ha := a.toNat_lt
    have hb := b.toNat_lt
    simp only [List.map_cons, List.map_nil]
    rw [decodeLoop_symbol (by omega), if_neg (by omega), decodeLoop_symbol (by omega),
      if_pos (by omega), decodeLoop_symbol (by omega), if_pos (by omega), decodeLoop,
      ofNat_eq (a := a) (by omega), ofNat_eq (a := b) (by omega)]
  | case4 a b c rest ih =>
    have ha := a.toNat_lt
    have hb := b.toNat_lt
    have hc := c.toNat_lt
    simp only [List.map_cons, List.cons_append, List.nil_append]
    rw [decodeLoop_symbol (by omega), if_neg (by omega), decodeLoop_symbol (by omega),
      if_pos (by omega), decodeLoop_symbol (by omega), if_pos (by omega),
      decodeLoop_symbol (by omega), if_pos (by omega), ih,
      ofNat_eq (a := a) (by omega), ofNat_eq (a := b) (by omega), ofNat_eq (a := c) (by omega)]

/-! ## The text in between

Before the loop the decoder trims white space, drops the padding and maps the URL-safe signs to
the plain ones. Here it is shown that none of this touches the signs the encoder has written. -/

/-- The symbols lie between `+` and `z`, and no minus, underscore or padding is one. -/
theorem std_range {c : Char} (h : c ∈ STD) : 43 ≤ c.toNat ∧ c.toNat ≤ 122 ∧ c.toNat ≠ 45
    ∧ c.toNat ≠ 95 ∧ c.toNat ≠ 61 := by
  have hall : STD.all (fun c => 43 ≤ c.toNat && c.toNat ≤ 122 && c.toNat != 45 && c.toNat != 95
      && c.toNat != 61) = true := by decide
  simpa [and_assoc] using List.all_eq_true.mp hall c h

/-- No symbol is whitespace, a URL-safe symbol or padding. -/
theorem std_plain {c : Char} (h : c ∈ STD) :
    Chars.isWhitespace c = false ∧ c ≠ '-' ∧ c ≠ '_' ∧ c ≠ '=' := by
  obtain ⟨h1, h2, h3, h4, h5⟩ := std_range h
  refine ⟨Chars.not_whitespace_of_range (by omega) (by omega), ?_, ?_, ?_⟩
  · rintro rfl
    exact h3 rfl
  · rintro rfl
    exact h4 rfl
  · rintro rfl
    exact h5 rfl

/-- What is encoded has the signs of the alphabet and the padding, and no others. -/
theorem mem_encodeBytes {bytes : List UInt8} {c : Char} (h : c ∈ encodeBytes bytes) :
    c ∈ STD ∨ c = '=' := by
  obtain ⟨pad, hpad⟩ := encodeBytes_eq bytes
  rw [hpad, List.mem_append] at h
  rcases h with h | h
  · obtain ⟨i, hi, rfl⟩ := List.mem_map.mp h
    exact .inl (symbol_mem i (sextets_lt bytes i hi))
  · exact .inr (List.eq_of_mem_replicate h)

/-- The characters of an encoded text. -/
theorem mem_encode {text : String} {c : Char} (h : c ∈ (encode text).toList) :
    c ∈ STD ∨ c = '=' := by
  rw [encode, String.toList_ofList] at h
  exact mem_encodeBytes h

theorem sextets_ne_nil {bytes : List UInt8} (h : bytes ≠ []) : sextets bytes ≠ [] := by
  fun_cases sextets bytes
  · exact absurd rfl h
  all_goals simp

/-- Trimming the padding leaves a list that does not end in one. -/
theorem rdropWhile_padding {l : List Char} (h : '=' ∉ l) (pad : ℕ) :
    (l ++ List.replicate pad '=').rdropWhile (fun x => x = '=') = l := by
  induction pad with
  | zero =>
    rw [List.replicate_zero, List.append_nil, List.rdropWhile_eq_self_iff]
    intro hl hlast
    rw [decide_eq_true_eq] at hlast
    exact h (hlast ▸ List.getLast_mem hl)
  | succ pad ih =>
    rw [List.replicate_succ', ← List.append_assoc, List.rdropWhile_concat_pos _ _ _ (by simp), ih]

/-- A map that changes no element is the identity. -/
theorem map_eq_self {f : Char → Char} {l : List Char} (h : ∀ c ∈ l, f c = c) : l.map f = l :=
  (List.map_congr_left h).trans (List.map_id l)

/-- What is left of an encoded byte string when `decode` has trimmed it: the symbols
of its sextets. -/
theorem trimmed_encodeBytes (bytes : List UInt8) :
    Text.trimEnd (Text.replaceChar (Text.replaceChar (Text.trim (.ofList (encodeBytes bytes)))
      '-' '+') '_' '/') '=' = .ofList ((sextets bytes).map symbol) := by
  have hplain : ∀ c ∈ encodeBytes bytes, Chars.isWhitespace c = false ∧ c ≠ '-' ∧ c ≠ '_' := by
    intro c hc
    rcases mem_encodeBytes hc with hc | rfl
    · exact ⟨(std_plain hc).1, (std_plain hc).2.1, (std_plain hc).2.2.1⟩
    · decide
  have htrim : Chars.trim (encodeBytes bytes) = encodeBytes bytes := by
    rw [Chars.trim_eq_self_iff]
    exact ⟨fun x hx => (hplain x (List.mem_of_head? hx)).1,
      fun x hx => (hplain x (List.mem_of_getLast? hx)).1⟩
  have hminus : (encodeBytes bytes).map (fun c => if c = '-' then '+' else c)
      = encodeBytes bytes := map_eq_self (fun c hc => if_neg (hplain c hc).2.1)
  have hlow : (encodeBytes bytes).map (fun c => if c = '_' then '/' else c)
      = encodeBytes bytes := map_eq_self (fun c hc => if_neg (hplain c hc).2.2)
  simp only [Text.trimEnd, Text.replaceChar, Text.trim, String.toList_ofList, htrim, hminus, hlow]
  obtain ⟨pad, hpad⟩ := encodeBytes_eq bytes
  rw [hpad, rdropWhile_padding]
  intro hmem
  obtain ⟨i, hi, heq⟩ := List.mem_map.mp hmem
  exact (std_plain (symbol_mem i (sextets_lt bytes i hi))).2.2.2 heq

/-- **Round trip on bytes.** -/
theorem decode_encodeBytes {bytes : List UInt8} (h : bytes ≠ []) :
    decode (.ofList (encodeBytes bytes)) = some bytes := by
  have hsym : ∀ c ∈ (sextets bytes).map symbol, c ∈ STD := by
    intro c hc
    obtain ⟨i, hi, rfl⟩ := List.mem_map.mp hc
    exact symbol_mem i (sextets_lt bytes i hi)
  have hne : String.ofList ((sextets bytes).map symbol) ≠ "" := by
    intro h0
    rw [String.ofList_eq_empty_iff, List.map_eq_nil_iff] at h0
    exact sextets_ne_nil h h0
  -- every symbol is one UTF-16 unit
  have hlen : Text.length (.ofList ((sextets bytes).map symbol)) = (sextets bytes).length := by
    have hone : ((sextets bytes).map symbol).map (fun c => if c.toNat < 0x10000 then 1 else 2)
        = ((sextets bytes).map symbol).map (fun _ => 1) :=
      List.map_congr_left (fun c hc => if_pos (by have := std_range (hsym c hc); omega))
    rw [Text.length, String.toList_ofList, hone, List.map_const', List.sum_replicate,
      List.length_map, smul_eq_mul, Nat.mul_one]
  unfold decode
  simp only [trimmed_encodeBytes, hlen, String.toList_ofList]
  have hany : ((sextets bytes).map symbol).any (fun c => decide (c ∉ STD)) = false := by
    rw [List.any_eq_false]
    intro c hc
    simp [hsym c hc]
  rw [hany, if_neg (by simp [hne]), if_neg (length_sextets bytes), decodeLoop_sextets]

/-- **Round trip.** Every text but the empty one is decoded from its encoding. -/
theorem decodeToString_encode {text : String} (h : text ≠ "") :
    decodeToString (encode text) = some text := by
  have hne : text.toList ≠ [] := fun h0 => h (String.toList_eq_nil_iff.mp h0)
  rw [decodeToString, encode, decode_encodeBytes (Utf8.encode_ne_nil hne), Option.bind_some,
    Utf8.decode_encode, Option.map_some, String.ofList_toList]

/-- So a text that is not empty is not encoded as one. -/
theorem encode_ne_empty {text : String} (h : text ≠ "") : encode text ≠ "" := by
  intro h0
  have hd := decodeToString_encode h
  rw [h0] at hd
  exact absurd hd (by simp [decodeToString, decode, Text.trimEnd, Text.replaceChar, Text.trim,
    Chars.trim])

/-! ### The URL-safe symbols

Links carry the URL-safe form without padding, since the plain signs `+` and `/` and the padding
would be taken for something else there. The decoder reads both alphabets alike. -/

/-- What is read of an input, whatever symbols it is written in. -/
def symbols (input : String) : String :=
  Text.trimEnd (Text.replaceChar (Text.replaceChar (Text.trim input) '-' '+') '_' '/') '='

/-- The decoder looks at the signs alone: white space and padding make no difference. -/
theorem decode_congr {a b : String} (h : symbols a = symbols b) : decode a = decode b := by
  unfold decode
  rw [← symbols, ← symbols, h]

/-- URL-safe symbols, without padding. -/
def urlSafe (s : String) : String := Text.trimEnd (Text.replaceChar (Text.replaceChar s '+' '-') '/' '_') '='

/-- The URL-safe symbol of a symbol. -/
def urlSymbol (c : Char) : Char := if (if c = '+' then '-' else c) = '/' then '_' else if c = '+' then '-' else c

/-- The two signs of the URL alphabet are no white space, no padding and no fragment, and are read as theirs. -/
theorem urlSymbol_spec {c : Char} (h : c ∈ STD) : Chars.isWhitespace (urlSymbol c) = false ∧ urlSymbol c ≠ '=' ∧
    urlSymbol c ≠ '#' ∧
    (if (if urlSymbol c = '-' then '+' else urlSymbol c) = '_' then '/'
      else if urlSymbol c = '-' then '+' else urlSymbol c) = c := by
  have hall : STD.all (fun c => !Chars.isWhitespace (urlSymbol c) && urlSymbol c != '=' && urlSymbol c != '#' &&
      (if (if urlSymbol c = '-' then '+' else urlSymbol c) = '_' then '/'
        else if urlSymbol c = '-' then '+' else urlSymbol c) == c) = true := by decide
  simpa [and_assoc] using List.all_eq_true.mp hall c h

/-- The URL form is the plain one sign by sign, without its padding. -/
theorem toList_urlSafe (text : String) : (urlSafe (encode text)).toList =
    ((sextets (Utf8.encode text.toList)).map symbol).map urlSymbol := by
  obtain ⟨pad, hpad⟩ := encodeBytes_eq (Utf8.encode text.toList)
  have hsym : ∀ c ∈ (sextets (Utf8.encode text.toList)).map symbol, c ∈ STD := by
    intro c hc
    obtain ⟨i, hi, rfl⟩ := List.mem_map.mp hc
    exact symbol_mem i (sextets_lt _ i hi)
  have hmap : ((encodeBytes (Utf8.encode text.toList)).map fun c => if c = '+' then '-' else c).map
      (fun c => if c = '/' then '_' else c) =
        ((sextets (Utf8.encode text.toList)).map symbol).map urlSymbol ++ List.replicate pad '=' := by
    rw [List.map_map, hpad, List.map_append, List.map_replicate]
    rfl
  simp only [urlSafe, Text.trimEnd, Text.replaceChar, encode, String.toList_ofList, hmap]
  apply rdropWhile_padding
  intro hmem
  obtain ⟨c, hc, heq⟩ := List.mem_map.mp hmem
  exact (urlSymbol_spec (hsym c hc)).2.1 heq

/-- No URL-safe symbol is whitespace or begins a fragment. -/
theorem mem_urlSafe {text : String} {c : Char} (h : c ∈ (urlSafe (encode text)).toList) :
    Chars.isWhitespace c = false ∧ c ≠ '#' := by
  rw [toList_urlSafe] at h
  obtain ⟨x, hx, rfl⟩ := List.mem_map.mp h
  obtain ⟨i, hi, rfl⟩ := List.mem_map.mp hx
  have hspec := urlSymbol_spec (symbol_mem i (sextets_lt _ i hi))
  exact ⟨hspec.1, hspec.2.2.1⟩

/-! ### What is refused

An input is refused for a character of neither alphabet, for having no sign at all, or for a
single sign left over at its end. Nothing else is looked at: neither the number of padding signs
nor the bits that are left over. -/

/-- What the decoder makes of a symbol of either alphabet. -/
def standard (c : Char) : Char := if (if c = '-' then '+' else c) = '_' then '/' else if c = '-' then '+' else c

theorem standard_mem (c : Char) : standard c ∈ STD ↔ c ∈ STD ∨ c = '-' ∨ c = '_' := by
  unfold standard
  by_cases hminus : c = '-'
  · subst hminus
    decide
  · by_cases hlow : c = '_'
    · subst hlow
      decide
    · simp [hminus, hlow]

theorem standard_eq_padding (c : Char) : standard c = '=' ↔ c = '=' := by
  unfold standard
  by_cases hminus : c = '-'
  · subst hminus
    decide
  · by_cases hlow : c = '_'
    · subst hlow
      decide
    · simp [hminus, hlow]

/-- It may be dropped before or after the signs are made standard. -/
theorem rdropWhile_standard (l : List Char) :
    (l.map standard).rdropWhile (fun x => x = '=') = (l.rdropWhile fun x => x = '=').map standard := by
  unfold List.rdropWhile
  rw [← List.map_reverse, List.dropWhile_map, List.map_reverse]
  congr 3
  funext x
  simp [standard_eq_padding]

/-- The input, trimmed and without the padding at its end. -/
def content (input : String) : String := Text.trimEnd (Text.trim input) '='

/-- What the decoder looks at: the content in the standard alphabet. -/
theorem symbols_eq (input : String) : symbols input = .ofList ((content input).toList.map standard) := by
  unfold symbols content
  simp only [Text.trimEnd, Text.replaceChar, String.toList_ofList, List.map_map]
  rw [← rdropWhile_standard]
  rfl

theorem length_symbols (input : String) : Text.length (symbols input) = Text.length (content input) := by
  have hunit : ∀ c : Char, (if (standard c).toNat < 0x10000 then 1 else 2) = if c.toNat < 0x10000 then 1 else 2 := by
    intro c
    unfold standard
    by_cases hminus : c = '-'
    · subst hminus
      rfl
    · by_cases hlow : c = '_'
      · subst hlow
        rfl
      · simp [hminus, hlow]
  have hmap : (symbols input).toList.map (fun c => if c.toNat < 0x10000 then 1 else 2) =
      (content input).toList.map fun c => if c.toNat < 0x10000 then 1 else 2 := by
    rw [symbols_eq, String.toList_ofList, List.map_map]
    exact List.map_congr_left fun c _ => hunit c
  unfold Text.length
  rw [hmap]

/-- **What is not decoded**: an input of padding and whitespace alone, one with a character of neither
alphabet, and one with a single symbol in its last group. -/
theorem decode_eq_none_iff (input : String) :
    decode input = none ↔ content input = "" ∨ (∃ c ∈ (content input).toList, c ∉ STD ∧ c ≠ '-' ∧ c ≠ '_') ∨
      Text.length (content input) % 4 = 1 := by
  have hempty : symbols input = "" ↔ content input = "" := by
    rw [symbols_eq, String.ofList_eq_empty_iff, List.map_eq_nil_iff, String.toList_eq_nil_iff]
  have hforeign : (symbols input).toList.any (fun c => decide (c ∉ STD)) = true ↔
      ∃ c ∈ (content input).toList, c ∉ STD ∧ c ≠ '-' ∧ c ≠ '_' := by
    rw [symbols_eq, String.toList_ofList, List.any_map, List.any_eq_true]
    simp [standard_mem]
  have hchecks : (decide (symbols input = "") || (symbols input).toList.any fun c => decide (c ∉ STD)) = true ↔
      content input = "" ∨ ∃ c ∈ (content input).toList, c ∉ STD ∧ c ≠ '-' ∧ c ≠ '_' := by
    rw [Bool.or_eq_true, decide_eq_true_eq, hempty, hforeign]
  unfold decode
  rw [← symbols, ← or_assoc, ← hchecks, ← length_symbols]
  by_cases hbad : (decide (symbols input = "") || (symbols input).toList.any fun c => decide (c ∉ STD)) = true
  · rw [if_pos hbad]
    exact iff_of_true rfl (.inl hbad)
  · rw [if_neg hbad]
    by_cases hlast : Text.length (symbols input) % 4 = 1
    · rw [if_pos hlast]
      exact iff_of_true rfl (.inr hlast)
    · rw [if_neg hlast]
      exact iff_of_false (Option.some_ne_none _) (not_or.mpr ⟨hbad, hlast⟩)

/-! ### Every form of the encoding

One byte string has several encodings that are all accepted: in two alphabets, with padding,
without it or with too much of it, and with white space around. They are all decoded to it. -/

/-- Symbols of either alphabet, with padding behind them and whitespace around. -/
theorem symbols_of_form {l before after : List Char} (hl : ∀ c ∈ l, standard c ∈ STD) (pad : ℕ)
    (hbefore : ∀ c ∈ before, Chars.isWhitespace c = true) (hafter : ∀ c ∈ after, Chars.isWhitespace c = true) :
    symbols (.ofList (before ++ (l ++ List.replicate pad '=') ++ after)) = .ofList (l.map standard) := by
  have hplain : ∀ c ∈ l ++ List.replicate pad '=', Chars.isWhitespace c = false := by
    intro c hc
    rcases List.mem_append.mp hc with hc | hc
    · rcases (standard_mem c).mp (hl c hc) with h | rfl | rfl
      · exact (std_plain h).1
      · decide
      · decide
    · rw [List.eq_of_mem_replicate hc]
      decide
  have htrim : Chars.trim (l ++ List.replicate pad '=') = l ++ List.replicate pad '=' := by
    rw [Chars.trim_eq_self_iff]
    exact ⟨fun x hx => hplain x (List.mem_of_head? hx), fun x hx => hplain x (List.mem_of_getLast? hx)⟩
  have hpadding : '=' ∉ l := fun h => absurd (hl '=' h) (by decide)
  rw [symbols_eq]
  unfold content
  simp only [Text.trimEnd, Text.trim, String.toList_ofList]
  rw [Chars.trim_append hbefore hafter, htrim, rdropWhile_padding hpadding]

/-- The encoding in all its forms: in either alphabet, with its padding and without. -/
def forms (bytes : List UInt8) : List String :=
  let std : String := .ofList (encodeBytes bytes)
  let url := Text.replaceChar (Text.replaceChar std '+' '-') '/' '_'
  [std, Text.trimEnd std '=', url, Text.trimEnd url '=']

/-- A sign of the URL alphabet is read as the one it stands for. -/
theorem standard_urlSymbol {c : Char} (h : c ∈ STD) : standard (urlSymbol c) = c := (urlSymbol_spec h).2.2.2

/-- One of the standard alphabet is read as itself. -/
theorem standard_symbol {c : Char} (h : c ∈ STD) : standard c = c := by
  obtain ⟨-, hminus, hlow, -⟩ := std_plain h
  simp [standard, hminus, hlow]

/-- A form is the symbols of the sextets in one alphabet, and some padding. -/
theorem exists_form {bytes : List UInt8} {form : String} (h : form ∈ forms bytes) :
    ∃ l pad, form = .ofList (l ++ List.replicate pad '=') ∧ l.map standard = (sextets bytes).map symbol := by
  obtain ⟨pad, hpad⟩ := encodeBytes_eq bytes
  -- both alphabets come down to the same signs, with or without the padding
  have hsym : ∀ c ∈ (sextets bytes).map symbol, c ∈ STD := by
    intro c hc
    obtain ⟨i, hi, rfl⟩ := List.mem_map.mp hc
    exact symbol_mem i (sextets_lt bytes i hi)
  have hstd : ((sextets bytes).map symbol).map standard = (sextets bytes).map symbol :=
    map_eq_self fun c hc => standard_symbol (hsym c hc)
  have hurl : (((sextets bytes).map symbol).map urlSymbol).map standard = (sextets bytes).map symbol := by
    rw [List.map_map]
    exact map_eq_self fun c hc => standard_urlSymbol (hsym c hc)
  have hmap : ((encodeBytes bytes).map fun c => if c = '+' then '-' else c).map (fun c => if c = '/' then '_' else c) =
      ((sextets bytes).map symbol).map urlSymbol ++ List.replicate pad '=' := by
    rw [List.map_map, hpad, List.map_append, List.map_replicate]
    rfl
  have hnopad : '=' ∉ (sextets bytes).map symbol := fun hmem => (std_plain (hsym _ hmem)).2.2.2 rfl
  have hnopadUrl : '=' ∉ ((sextets bytes).map symbol).map urlSymbol := by
    intro hmem
    obtain ⟨c, hc, heq⟩ := List.mem_map.mp hmem
    exact (urlSymbol_spec (hsym c hc)).2.1 heq
  simp only [forms, List.mem_cons, List.not_mem_nil, or_false] at h
  -- the four forms in the order of the source
  rcases h with rfl | rfl | rfl | rfl
  · exact ⟨_, pad, by rw [hpad], hstd⟩
  · refine ⟨_, 0, ?_, hstd⟩
    rw [Text.trimEnd, String.toList_ofList, hpad, rdropWhile_padding hnopad, List.replicate_zero, List.append_nil]
  · refine ⟨_, pad, ?_, hurl⟩
    simp only [Text.replaceChar, String.toList_ofList, hmap]
  · refine ⟨_, 0, ?_, hurl⟩
    simp only [Text.trimEnd, Text.replaceChar, String.toList_ofList, hmap]
    rw [rdropWhile_padding hnopadUrl, List.replicate_zero, List.append_nil]

/-- **Round trip through every form**, with whitespace around it. -/
theorem decode_form {bytes : List UInt8} (hne : bytes ≠ []) {form : String} (h : form ∈ forms bytes)
    {before after : List Char} (hbefore : ∀ c ∈ before, Chars.isWhitespace c = true)
    (hafter : ∀ c ∈ after, Chars.isWhitespace c = true) :
    decode (.ofList (before ++ form.toList ++ after)) = some bytes := by
  obtain ⟨l, pad, rfl, hl⟩ := exists_form h
  have hsym : ∀ c ∈ l, standard c ∈ STD := by
    intro c hc
    have hmem : standard c ∈ (sextets bytes).map symbol := hl ▸ List.mem_map_of_mem hc
    obtain ⟨i, hi, heq⟩ := List.mem_map.mp hmem
    exact heq ▸ symbol_mem i (sextets_lt bytes i hi)
  rw [String.toList_ofList, decode_congr (b := .ofList (encodeBytes bytes)), decode_encodeBytes hne]
  rw [symbols_of_form hsym pad hbefore hafter, hl, symbols, trimmed_encodeBytes]

/-- **Round trip** through the URL-safe symbols. -/
theorem decodeToString_urlSafe {text : String} (h : text ≠ "") :
    decodeToString (urlSafe (encode text)) = some text := by
  have hne : text.toList ≠ [] := fun h0 => h (String.toList_eq_nil_iff.mp h0)
  have hform : urlSafe (encode text) ∈ forms (Utf8.encode text.toList) := by
    simp only [forms, List.mem_cons]
    exact .inr (.inr (.inr (.inl rfl)))
  have hnone : ∀ c ∈ ([] : List Char), Chars.isWhitespace c = true := fun c hc => absurd hc List.not_mem_nil
  have hdecode := decode_form (Utf8.encode_ne_nil hne) hform hnone hnone
  rw [List.nil_append, List.append_nil, String.ofList_toList] at hdecode
  rw [decodeToString, hdecode, Option.bind_some, Utf8.decode_encode, Option.map_some, String.ofList_toList]

/-! ### The accumulator overflows and nothing is lost

The source shifts a 32-bit word without ever masking it, so bits leave it at the top. Only bits
that were written out already do, which is shown by comparing the word with an accumulator that
has room for everything. -/

/-- The loop with an accumulator that has room for everything. -/
def exactLoop : (buf bits : ℕ) → List Char → List UInt8
  | _, _, [] => []
  | buf, bits, c :: rest =>
      let buf := buf <<< 6 ||| STD.idxOf c
      if 8 ≤ bits + 6 then
        UInt8.ofNat ((buf >>> (bits + 6 - 8)) &&& 0xFF) :: exactLoop buf (bits + 6 - 8) rest
      else exactLoop buf (bits + 6) rest

/-- The loop on an `Int`: the bits shifted out are lost, and `shr` copies the sign. -/
def wordLoop (buf : BitVec 32) (bits : ℕ) : List Char → List UInt8
  | [] => []
  | c :: rest =>
      let buf := buf <<< 6 ||| BitVec.ofNat 32 (STD.idxOf c)
      if 8 ≤ bits + 6 then
        UInt8.ofNat ((buf.sshiftRight (bits + 6 - 8)) &&& 0xFF#32).toNat :: wordLoop buf (bits + 6 - 8) rest
      else wordLoop buf (bits + 6) rest

/-- The lowest eight of thirteen bits are not among those that are lost. -/
theorem low_byte (n : ℕ) {k : ℕ} (hk : k ≤ 5) : (n % 2 ^ 32) >>> k &&& 0xFF = n >>> k &&& 0xFF := by
  have hand : ∀ x, x &&& 0xFF = x % 256 := fun x => Nat.and_two_pow_sub_one_eq_mod x 8
  rw [hand, hand, Nat.shiftRight_eq_div_pow, Nat.shiftRight_eq_div_pow]
  interval_cases k <;> omega

/-- The word of 32 bits loses only bits that were written out already. -/
theorem decodeLoop_eq_exactLoop (cs : List Char) {bits : ℕ} (hbits : bits ≤ 7) (buf : ℕ) :
    decodeLoop (buf % 2 ^ 32) bits cs = exactLoop buf bits cs := by
  induction cs generalizing buf bits with
  | nil => rfl
  | cons c rest ih =>
    have hshift : (buf % 2 ^ 32) <<< 6 % 2 ^ 32 = buf <<< 6 % 2 ^ 32 := by
      rw [Nat.shiftLeft_eq, Nat.shiftLeft_eq]
      omega
    have hbuf : ((buf % 2 ^ 32) <<< 6 ||| STD.idxOf c) % 2 ^ 32 = (buf <<< 6 ||| STD.idxOf c) % 2 ^ 32 := by
      rw [Nat.or_mod_two_pow, Nat.or_mod_two_pow, hshift]
    rw [decodeLoop, exactLoop]
    simp only [hbuf]
    by_cases h : 8 ≤ bits + 6
    · rw [if_pos h, if_pos h, low_byte _ (by omega), ih (by omega)]
    · rw [if_neg h, if_neg h, ih (by omega)]

/-- The sign is not among the bits that are written. -/
theorem sshiftRight_low_byte (x : BitVec 32) {k : ℕ} (hk : k ≤ 5) :
    ((x.sshiftRight k) &&& 0xFF#32).toNat = x.toNat >>> k &&& 0xFF := by
  apply Nat.eq_of_testBit_eq
  intro i
  have hmask : Nat.testBit 0xFF i = decide (i < 8) := Nat.testBit_two_pow_sub_one 8 i
  have hword : (0xFF#32).toNat = 0xFF := rfl
  rw [BitVec.toNat_and, Nat.testBit_and, Nat.testBit_and, BitVec.testBit_toNat, BitVec.getLsbD_sshiftRight,
    Nat.testBit_shiftRight, hword, hmask]
  by_cases hi : i < 8
  · have hle : ¬ 32 ≤ i := by omega
    have hlt : k + i < 32 := by omega
    have hbit : (if k + i < 32 then x.getLsbD (k + i) else x.msb) = x.toNat.testBit (k + i) := by
      rw [if_pos hlt, BitVec.testBit_toNat]
    rw [hbit, decide_eq_false hle, Bool.not_false, Bool.true_and]
  · rw [decide_eq_false hi, Bool.and_false, Bool.and_false]

/-- Shifting the word is computing modulo its size. -/
theorem wordLoop_eq_decodeLoop (cs : List Char) {bits : ℕ} (hbits : bits ≤ 7) (buf : BitVec 32) :
    wordLoop buf bits cs = decodeLoop buf.toNat bits cs := by
  induction cs generalizing buf bits with
  | nil => rfl
  | cons c rest ih =>
    have hbuf : (buf <<< 6 ||| BitVec.ofNat 32 (STD.idxOf c)).toNat = (buf.toNat <<< 6 ||| STD.idxOf c) % 2 ^ 32 := by
      rw [BitVec.toNat_or, BitVec.toNat_shiftLeft, BitVec.toNat_ofNat, Nat.or_mod_two_pow]
    rw [wordLoop, decodeLoop]
    simp only [← hbuf]
    by_cases h : 8 ≤ bits + 6
    · rw [if_pos h, if_pos h, sshiftRight_low_byte _ (by omega), ih (by omega)]
    · rw [if_neg h, if_neg h, ih (by omega)]

/-- **The codec.** Every byte string but the empty one is decoded from its encoding, in either
alphabet, with its padding and without, and with whitespace around it. Nothing is decoded exactly
from an input without symbols, with a character of neither alphabet, or with one symbol in its last
group. And on every input the loop over an `Int` writes the bytes it would write without overflow. -/
theorem decode_spec :
    (∀ bytes : List UInt8, bytes ≠ [] → ∀ form ∈ forms bytes, ∀ before after : List Char,
        (∀ c ∈ before, Chars.isWhitespace c = true) → (∀ c ∈ after, Chars.isWhitespace c = true) →
          decode (.ofList (before ++ form.toList ++ after)) = some bytes) ∧
      (∀ input, decode input = none ↔
        content input = "" ∨ (∃ c ∈ (content input).toList, c ∉ STD ∧ c ≠ '-' ∧ c ≠ '_') ∨
          Text.length (content input) % 4 = 1) ∧
      ∀ cs, wordLoop 0 0 cs = exactLoop 0 0 cs ∧ decodeLoop 0 0 cs = exactLoop 0 0 cs := by
  refine ⟨?_, decode_eq_none_iff, fun cs => ?_⟩
  · intro bytes hne form hform before after hbefore hafter
    exact decode_form hne hform hbefore hafter
  · have hexact : decodeLoop 0 0 cs = exactLoop 0 0 cs := decodeLoop_eq_exactLoop cs (by omega) 0
    exact ⟨(wordLoop_eq_decodeLoop cs (by omega) 0).trans hexact, hexact⟩

/-- Two bytes, with a blank before them, a newline behind and no padding. -/
theorem decode_spec_spaced :
    decode (.ofList ([' '] ++ (Text.trimEnd (.ofList (encodeBytes [104, 105])) '=').toList ++ ['\n'])) =
      some [104, 105] := by
  apply decode_spec.1 [104, 105] (by decide) (Text.trimEnd (.ofList (encodeBytes [104, 105])) '=')
  · simp [forms]
  · intro c hc
    rw [List.mem_singleton.mp hc]
    decide
  · intro c hc
    rw [List.mem_singleton.mp hc]
    decide

end VlessCard.Base64
