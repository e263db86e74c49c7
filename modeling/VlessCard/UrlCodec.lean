/-
`java.net.URLEncoder` and `java.net.URLDecoder` with UTF-8, and the pair of
functions the link parser makes of them.

The encoder keeps letters, digits and four signs, writes a space as a plus and
everything else as the escaped bytes of its UTF-8 form. The decoder collects a
run of escapes before it decodes the bytes, so that a character may be spread
over several of them; an escape that is cut off or holds no hexadecimal number
is an exception. Links keep a plus as it is, so `enc` writes a space as `%20` and
`dec` protects a plus before it decodes, and a text that cannot be decoded
stands for itself.
-/
import VlessCard.Text
import VlessCard.Utf8

set_option autoImplicit false

namespace VlessCard.UrlCodec

/-! ## Encoding

The encoder works on UTF-8 bytes, leaves letters, digits and a few signs as they are, and writes
a blank as a plus, which the program then replaces. -/

/-- The characters `URLEncoder` leaves alone, the space apart. -/
def dontNeedEncoding (c : Char) : Bool :=
  c.isAlphanum || c = '-' || c = '_' || c = '.' || c = '*'

/-- `Character.forDigit(n, 16)` in upper case. -/
def forDigit (n : ℕ) : Char := "0123456789ABCDEF".toList.getD n '0'

/-- One escaped byte. -/
def escape (b : UInt8) : List Char := ['%', forDigit (b.toNat / 16), forDigit (b.toNat % 16)]

/-- What `URLEncoder` writes for one character. -/
def encodeChar (c : Char) : List Char :=
  if c = ' ' then ['+']
  else if dontNeedEncoding c then [c]
  else (String.utf8EncodeChar c).flatMap escape

/-- `URLEncoder.encode(s, "UTF-8")`. -/
def encode (s : String) : String := .ofList (s.toList.flatMap encodeChar)

/-! ## Decoding

The decoder collects a run of escapes and decodes its bytes together. What it cannot decode
stands for itself, which is the program's own choice. -/

section
variable (J : Jvm)

/-- `String(bytes, UTF_8)`. -/
def textOf (bytes : List UInt8) : List Char := (Utf8.decode bytes).getD (J.malformed bytes)

/-- The loop of `URLDecoder.decode`; `pending` are the bytes of the run of escapes
just read. -/
def decodeGo (pending : List UInt8) : List Char → Option (List Char)
  | [] => some (if pending = [] then [] else textOf J pending)
  | c :: rest =>
      if c ≠ '%' then
        (decodeGo [] rest).map fun out =>
          (if pending = [] then [] else textOf J pending) ++ (if c = '+' then ' ' else c) :: out
      else match rest with
        | a :: b :: rest =>
            -- `Integer.parseInt` takes a sign, so a negative escape has to be refused
            (Text.signedValue J 16 [a, b]).bind fun v =>
              if v < 0 then none else decodeGo (pending ++ [UInt8.ofNat v.toNat]) rest
        | _ => none

/-- `URLDecoder.decode(s, "UTF-8")`; `none` is an exception. -/
def decode (s : String) : Option String := (decodeGo J [] s.toList).map String.ofList

end

end VlessCard.UrlCodec

namespace VlessCard.LinkParser

/-- The local `enc` of `toLink`. -/
def enc (v : String) : String := Text.replace (UrlCodec.encode v) "+" "%20"

/-- `dec`: what cannot be decoded stands for itself. -/
def dec (J : Jvm) (s : String) : String := (UrlCodec.decode J (Text.replace s "+" "%2B")).getD s

end VlessCard.LinkParser

namespace VlessCard.UrlCodec

/-! ## Encoded characters

An encoded character is itself or a run of escapes. So an encoded text has none of the signs that
a link is cut at. -/

theorem forDigit_range : ∀ n < 16, dontNeedEncoding (forDigit n) = true ∧ forDigit n ≠ '-'
    ∧ forDigit n ≠ '+' ∧ (forDigit n).toNat < 128 := by decide

/-- A character that is kept is ASCII and stands for itself in the decoder. -/
theorem kept_range {c : Char} (h : dontNeedEncoding c = true) :
    42 ≤ c.toNat ∧ c.toNat ≤ 122 ∧ c ≠ '%' ∧ c ≠ '+' ∧ c ≠ ' ' := by
  have hrange : 42 ≤ c.toNat ∧ c.toNat ≤ 122 := by
    unfold dontNeedEncoding at h
    simp only [Char.isAlphanum, Char.isAlpha, Char.isUpper, Char.isLower, Char.isDigit,
      Bool.or_eq_true, Bool.and_eq_true, decide_eq_true_eq, UInt32.le_iff_toNat_le] at h
    rcases h with (((h | rfl) | rfl) | rfl) | rfl
    · change ((65 ≤ c.toNat ∧ c.toNat ≤ 90) ∨ (97 ≤ c.toNat ∧ c.toNat ≤ 122))
        ∨ (48 ≤ c.toNat ∧ c.toNat ≤ 57) at h
      omega
    all_goals decide
  refine ⟨hrange.1, hrange.2, ?_, ?_, ?_⟩
  · rintro rfl
    exact absurd h (by decide)
  · rintro rfl
    exact absurd h (by decide)
  · rintro rfl
    exact absurd h (by decide)

/-- What `enc` writes for one character. -/
def component (c : Char) : List Char :=
  if dontNeedEncoding c then [c] else (String.utf8EncodeChar c).flatMap escape

/-- An escape has a percent sign and digits. -/
theorem mem_escape {b : UInt8} {x : Char} (h : x ∈ escape b) :
    dontNeedEncoding x = true ∨ x = '%' := by
  have hb := b.toNat_lt
  unfold escape at h
  simp only [List.mem_cons, List.not_mem_nil, or_false] at h
  rcases h with rfl | rfl | rfl
  · exact .inr rfl
  · exact .inl (forDigit_range _ (by omega)).1
  · exact .inl (forDigit_range _ (by omega)).1

/-- An encoded component has no other sign that is special. -/
theorem mem_component {c x : Char} (h : x ∈ component c) :
    dontNeedEncoding x = true ∨ x = '%' := by
  unfold component at h
  split at h
  · rename_i hc
    rw [List.mem_singleton] at h
    exact .inl (h ▸ hc)
  · obtain ⟨b, _, hx⟩ := List.mem_flatMap.mp h
    exact mem_escape hx

/-- The characters of an encoded text. -/
theorem mem_encode {s : String} {x : Char} (h : x ∈ (encode s).toList) :
    dontNeedEncoding x = true ∨ x = '+' ∨ x = '%' := by
  rw [encode, String.toList_ofList] at h
  obtain ⟨c, -, hx⟩ := List.mem_flatMap.mp h
  rw [encodeChar] at hx
  split at hx
  · exact .inr (.inl (List.mem_singleton.mp hx))
  · exact (mem_component hx).imp_right .inr

theorem flatMap_eq_self {r : List Char} {l : List Char} (h : '+' ∉ l) :
    l.flatMap (fun x => if x = '+' then r else [x]) = l := by
  induction l with
  | nil => rfl
  | cons x l ih =>
    rw [List.mem_cons, not_or] at h
    rw [List.flatMap_cons, if_neg (Ne.symm h.1), ih h.2, List.singleton_append]

/-- `URLEncoder` writes a blank as a plus, which is then replaced. -/
theorem encodeChar_replaced (c : Char) :
    (encodeChar c).flatMap (fun x => if x = '+' then "%20".toList else [x]) = component c := by
  by_cases hsp : c = ' '
  · subst hsp
    decide
  · have heq : encodeChar c = component c := by
      unfold encodeChar component
      rw [if_neg hsp]
    rw [heq]
    apply flatMap_eq_self
    intro hmem
    rcases mem_component hmem with h | h
    · exact absurd h (by decide)
    · exact absurd h (by decide)

theorem toList_enc (v : String) : (LinkParser.enc v).toList = v.toList.flatMap component := by
  have hplus : "+".toList = ['+'] := rfl
  have hencode : (encode v).toList = v.toList.flatMap encodeChar := String.toList_ofList
  rw [LinkParser.enc, Text.replace, String.toList_ofList, hplus, hencode,
    Chars.replaceGo_singleton, List.flatMap_assoc]
  exact congrArg (fun f => v.toList.flatMap f) (funext encodeChar_replaced)

/-- The characters of an encoded text. -/
theorem mem_enc {v : String} {x : Char} (h : x ∈ (LinkParser.enc v).toList) :
    dontNeedEncoding x = true ∨ x = '%' := by
  rw [toList_enc] at h
  obtain ⟨c, _, hx⟩ := List.mem_flatMap.mp h
  exact mem_component hx

/-- An encoded text holds no character that is not kept, the escape sign apart. -/
theorem not_mem_enc {v : String} {x : Char} (h1 : dontNeedEncoding x = false) (h2 : x ≠ '%') :
    x ∉ (LinkParser.enc v).toList := by
  intro h
  rcases mem_enc h with h | h
  · rw [h1] at h
    cases h
  · exact h2 h

/-! ## Decoding what was encoded

Each character is decoded from what was written of it, also in the middle of a run. The bytes of
a run are the UTF-8 of several characters. -/

section
variable (J : Jvm)

theorem digit_forDigit {n : ℕ} (hn : n < 16) : J.digit 16 (forDigit n) = some n := by
  have hval : ∀ n < 16, (if (forDigit n).isDigit then some ((forDigit n).toNat - 48)
      else if 65 ≤ (forDigit n).toNat ∧ (forDigit n).toNat ≤ 70 then
        some ((forDigit n).toNat - 55)
      else if 97 ≤ (forDigit n).toNat ∧ (forDigit n).toNat ≤ 102 then
        some ((forDigit n).toNat - 87) else none) = some n := by decide
  rw [J.hexDigit_ascii _ (forDigit_range n hn).2.2.2, hval n hn]

theorem signedValue_escape (b : UInt8) :
    Text.signedValue J 16 [forDigit (b.toNat / 16), forDigit (b.toNat % 16)]
      = some (b.toNat : ℤ) := by
  have hb := b.toNat_lt
  have hhi : b.toNat / 16 < 16 := by omega
  have hlo : b.toNat % 16 < 16 := by omega
  have hsum : (0 * 16 + b.toNat / 16) * 16 + b.toNat % 16 = b.toNat := by omega
  rw [Text.signedValue, if_neg (forDigit_range _ hhi).2.1, if_neg (forDigit_range _ hhi).2.2.1]
  · simp only [Text.digitsValue, digit_forDigit J hhi, digit_forDigit J hlo, Option.bind_some, hsum,
      Option.map_some, Int.ofNat_eq_natCast]
  · simp

/-- A run of escapes is collected. -/
theorem decodeGo_escapes (bytes pending : List UInt8) (rest : List Char) :
    decodeGo J pending (bytes.flatMap escape ++ rest) = decodeGo J (pending ++ bytes) rest := by
  induction bytes generalizing pending with
  | nil => simp
  | cons b bytes ih =>
    have hcons : (b :: bytes).flatMap escape ++ rest = '%' :: forDigit (b.toNat / 16)
        :: forDigit (b.toNat % 16) :: (bytes.flatMap escape ++ rest) := by
      simp [escape]
    rw [hcons, decodeGo, if_neg (by simp), signedValue_escape, Option.bind_some,
      if_neg (by omega), Int.toNat_natCast, UInt8.ofNat_toNat, ih, List.append_assoc,
      List.singleton_append]

/-- Bytes that were made from a text give that text. -/
theorem textOf_encode (l : List Char) :
    (if Utf8.encode l = [] then [] else textOf J (Utf8.encode l)) = l := by
  split
  · rename_i h
    by_contra hne
    exact Utf8.encode_ne_nil (Ne.symm hne) h
  · rw [textOf, Utf8.decode_encode, Option.getD_some]

/-- A character that is no escape ends the run. -/
theorem decodeGo_cons {c : Char} (h : c ≠ '%') (pending : List UInt8) (rest : List Char) :
    decodeGo J pending (c :: rest) = (decodeGo J [] rest).map fun out =>
      (if pending = [] then [] else textOf J pending) ++ (if c = '+' then ' ' else c) :: out := by
  rw [decodeGo.eq_def]
  simp only [if_pos h]

/-- A text is decoded in which every character is written as itself or escaped;
`begun` is the text of the run of escapes the decoder is in. -/
theorem decodeGo_flatMap {f : Char → List Char} {l : List Char}
    (h : ∀ c ∈ l, (f c = [c] ∧ c ≠ '%' ∧ c ≠ '+') ∨ f c = (String.utf8EncodeChar c).flatMap escape)
    (begun : List Char) :
    decodeGo J (Utf8.encode begun) (l.flatMap f) = some (begun ++ l) := by
  induction l generalizing begun with
  | nil => rw [List.flatMap_nil, decodeGo, textOf_encode, List.append_nil]
  | cons c l ih =>
    have hl := fun x hx => h x (List.mem_cons_of_mem c hx)
    rw [List.flatMap_cons]
    rcases h c (List.mem_cons_self ..) with ⟨hf, hpct, hplus⟩ | hf
    · -- the character stands for itself and the next run is a new one
      have hrest : decodeGo J [] (l.flatMap f) = some l := ih hl []
      rw [hf, List.singleton_append, decodeGo_cons J hpct, textOf_encode, if_neg hplus, hrest,
        Option.map_some]
    · -- the character prolongs the run
      have hone : Utf8.encode [c] = String.utf8EncodeChar c := by simp [Utf8.encode]
      rw [hf, decodeGo_escapes, ← hone, ← Utf8.encode_append, ih hl, List.append_assoc,
        List.singleton_append]

/-- **Round trip.** Every text is decoded from its encoding. -/
theorem dec_enc (v : String) : LinkParser.dec J (LinkParser.enc v) = v := by
  have hrep : Text.replace (LinkParser.enc v) "+" "%2B" = LinkParser.enc v := by
    rw [Text.replace, Chars.replaceGo_of_not_mem (c := '+') rfl
      (not_mem_enc (by decide) (by decide)), String.ofList_toList]
  have hgo : decodeGo J [] (v.toList.flatMap component) = some v.toList := by
    refine decodeGo_flatMap J (fun c _ => ?_) []
    by_cases hc : dontNeedEncoding c = true
    · exact .inl ⟨if_pos hc, (kept_range hc).2.2.1, (kept_range hc).2.2.2.1⟩
    · exact .inr (if_neg hc)
  rw [LinkParser.dec, hrep, decode, toList_enc, hgo, Option.map_some, Option.getD_some,
    String.ofList_toList]

/-- A text without escapes stands for itself, a plus included. -/
theorem dec_of_no_escape {s : String} (h : '%' ∉ s.toList) : LinkParser.dec J s = s := by
  have hplus : "+".toList = ['+'] := rfl
  have hgo : decodeGo J [] (s.toList.flatMap fun x => if x = '+' then "%2B".toList else [x])
      = some s.toList := by
    refine decodeGo_flatMap J (fun c hc => ?_) []
    by_cases hp : c = '+'
    · subst hp
      exact .inr (by decide)
    · exact .inl ⟨if_neg hp, fun hpct => h (hpct ▸ hc), hp⟩
  rw [LinkParser.dec, Text.replace, hplus, Chars.replaceGo_singleton, decode, String.toList_ofList,
    hgo, Option.map_some, Option.getD_some, String.ofList_toList]

/-- A character that is no digit of an escape is no escape. -/
theorem signedValue_at {a b : Char} (h : a = '@' ∨ b = '@') : Text.signedValue J 16 [a, b] = none := by
  have hnone : J.digit 16 '@' = none := J.hexDigit_ascii '@' (by decide)
  have hright (acc : ℕ) : Text.digitsValue J 16 acc ['@'] = none := by
    rw [Text.digitsValue, hnone, Option.bind_none]
  rcases h with rfl | rfl
  · rw [Text.signedValue, if_neg (by decide), if_neg (by decide), Text.digitsValue, hnone]
    · rfl
    · simp
  · rw [Text.signedValue, hright]
    · split
      · rfl
      · split
        · rfl
        · rw [Text.digitsValue]
          cases J.digit 16 a with
          | none => rfl
          | some d => rw [Option.bind_some, hright, Option.map_none]
    · simp

/-- The sign before a host is not taken for part of an escape. -/
theorem at_mem_decodeGo {pending : List UInt8} {l out : List Char} (hmem : '@' ∈ l)
    (h : decodeGo J pending l = some out) : '@' ∈ out := by
  fun_induction decodeGo J pending l generalizing out with
  | case1 => cases hmem
  | case2 pending c rest hc ih =>
    obtain ⟨out', hout, rfl⟩ := Option.map_eq_some_iff.mp h
    refine List.mem_append_right _ ?_
    rcases List.mem_cons.mp hmem with rfl | hrest
    · exact List.mem_cons_self
    · exact List.mem_cons_of_mem _ (ih hrest hout)
  | case3 pending c hc a b rest ih =>
    obtain ⟨v, hv, h⟩ := Option.bind_eq_some_iff.mp h
    split at h
    · cases h
    · have hpct : c = '%' := not_not.mp hc
      simp only [List.mem_cons] at hmem
      rcases hmem with heq | ha | hb | hrest
      · rw [hpct] at heq
        exact absurd heq (by decide)
      · rw [signedValue_at J (.inl ha.symm)] at hv
        cases hv
      · rw [signedValue_at J (.inr hb.symm)] at hv
        cases hv
      · exact ih v hrest h
  | case4 => cases h

/-- An at sign that stands there is decoded as one. -/
theorem at_mem_dec {s : String} (h : '@' ∈ s.toList) : '@' ∈ (LinkParser.dec J s).toList := by
  have hplus : "+".toList = ['+'] := rfl
  have hkeep : '@' ∈ (Text.replace s "+" "%2B").toList := by
    rw [Text.replace, hplus, Chars.replaceGo_singleton, String.toList_ofList, List.mem_flatMap]
    exact ⟨'@', h, by rw [if_neg (by decide)]; exact List.mem_singleton_self _⟩
  rw [LinkParser.dec, decode]
  cases hgo : decodeGo J [] (Text.replace s "+" "%2B").toList with
  | none => exact h
  | some out =>
    rw [Option.map_some, Option.getD_some, String.toList_ofList]
    exact at_mem_decodeGo J hkeep hgo

end

end VlessCard.UrlCodec
