/-
`MyMasks.store`, `load`, `encode` and `decode`: a mask of one's own on disk and in a
link.

Either way the mask is a JSON object in a text, and what comes back goes through the
checks again. So the form a mask is kept in has to pass them as the form it was typed
in did, and to be left as it is: no space is left to take out, no letter to make small.
The id is a digest of that form without its title.
-/
import VlessCard.Base64
import VlessCard.MaskLayers
import VlessCard.UrlCodec

set_option autoImplicit false

namespace VlessCard

attribute [ext] OwnMask

namespace Mask

/-- A layer of TCP is asked for. -/
def forTcp (m : Mask) : Prop := m.packets ≠ "" ∨ m.sni ≠ "" ∨ 0 < m.mss ∨ m.mux = true ∨ m.tfo = true

/-- A layer for datagrams is asked for. -/
def forUdp (m : Mask) : Prop := m.noise ≠ "" ∨ m.noiseJson ≠ "" ∨ m.hop ≠ ""

end Mask

namespace MyMasks

open Masks XrayConfigBuilder

variable (P : Platform)

def SCHEME : String := "vcmask://"

/-- The text of a mask, on disk. -/
def store (m : OwnMask) : String := P.json.text (.obj (toJson m))

/-- The masks of the texts; what will not do is dropped, and of one id the first is kept. -/
def load (stored : List String) : List OwnMask :=
  distinctBy (fun m => m.id) (stored.filterMap fun s => (P.json.parseObject s).bind fun o => (fromJson P o).toOption)

def encode (m : OwnMask) : String :=
  SCHEME ++ Text.trimEnd (Text.replaceChar (Text.replaceChar (Base64.encode (P.json.text (.obj (toJson m)))) '+' '-')
    '/' '_') '=' ++ "#" ++ UrlCodec.encode m.title

/-- `x ?: throw IllegalArgumentException(message)`. -/
def orThrow {α : Type} (message : String) : Option α → Except String α
  | some a => .ok a
  | none => .error message

def decode (link : String) : Except String OwnMask := do
  let body := Text.substringBefore (Text.removePrefix (Text.trim link) SCHEME) '#'
  let json ← orThrow "Ссылка повреждена" (Base64.decodeToString body)
  let o ← orThrow "Ссылка повреждена" (P.json.parseObject json)
  fromJson P o

/-- The two are one mask, by its id and all its parameters. -/
def Renamed (m m' : OwnMask) : Prop := m' = { m with title := m'.title }

/-- An array is printed between brackets, and what was printed of one that was read is read
again: as many elements, objects with the same keys where objects were, which print the
same. -/
structure Stable (J : OrgJson) : Prop where
  reread : ∀ text a, J.parseArray text = some a → ∃ a', J.parseArray (J.text (.arr a)) = some a' ∧
    J.text (.arr a') = J.text (.arr a) ∧
    List.Forall₂ (fun v v' => v.asObject.map JsonObject.keys = v'.asObject.map JsonObject.keys) a a'
  bracketed : ∀ a, ∃ inner, J.text (.arr a) = "[" ++ inner ++ "]"

/-- A printed array has no white space around it. -/
theorem Stable.trim_text {J : OrgJson} (hJ : Stable J) (a : List Json) : Text.trim (J.text (.arr a)) = J.text (.arr a) := by
  obtain ⟨inner, hinner⟩ := hJ.bracketed a
  rw [hinner]
  apply Text.trim_eq_self
  · intro x hx
    rw [String.append_assoc, String.toList_append] at hx
    cases hx
    decide
  · intro x hx
    have hend : "]".toList = [']'] := rfl
    rw [String.toList_append, hend, List.getLast?_concat, Option.mem_some_iff] at hx
    rw [← hx]
    decide

theorem Stable.text_ne_empty {J : OrgJson} (hJ : Stable J) (a : List Json) : J.text (.arr a) ≠ "" := by
  obtain ⟨inner, hinner⟩ := hJ.bracketed a
  intro h0
  have hchars := congrArg String.toList (hinner.symm.trans h0)
  rw [String.append_assoc, String.toList_append] at hchars
  cases hchars

/-! ## Texts of one form, again

A mask is normalised when it is read: spaces go from ranges and names are lowered. A normalised
field passes the same check again and is left as it is. -/

/-- A range is digits and a hyphen. -/
theorem digit_of_isRange {s : String} (h : isRange s = true) {c : Char} (hc : c ∈ s.toList) :
    c = '-' ∨ c.isDigit = true := by
  rw [isRange, Bool.and_eq_true] at h
  have hjoin : List.intercalate ['-'] (s.toList.splitOn '-') = s.toList := List.intercalate_splitOn '-'
  rw [← hjoin] at hc
  rcases ByeDpiArgs.mem_intercalate hc with hc | ⟨part, hpart, hc⟩
  · exact .inl hc
  · have hnumber := List.all_eq_true.mp h.2 (.ofList part) (List.mem_map_of_mem hpart)
    rw [isNumber, Bool.and_eq_true, String.toList_ofList] at hnumber
    exact .inr (List.all_eq_true.mp hnumber.2 c hc)

/-- Spaces around a range may be taken out, before the commas are looked for or after. -/
theorem ranges_remove {s : String} (h : ((Text.split s ',').all fun t => isRange (Text.trim t)) = true) :
    ((Text.split (Text.replace s " " "") ',').all fun t => isRange (Text.trim t)) = true := by
  rw [Text.split_remove rfl (by decide), List.all_map, List.all_eq_true]
  intro t ht
  have hrange := List.all_eq_true.mp h t ht
  rw [Function.comp_apply, Text.trim_remove rfl (fun hmem => absurd (digit_of_isRange hrange hmem) (by decide))]
  exact hrange

/-- Steps remain. -/
theorem remove_ne_empty {s : String} (h : ((Text.split s ',').all fun t => isRange (Text.trim t)) = true) :
    Text.replace s " " "" ≠ "" := by
  intro h0
  have hall := ranges_remove h
  rw [h0] at hall
  revert hall
  decide

/-- **The cuts pass in the form they are kept in.** -/
theorem checkCuts_norm {packets length delay lengths delays : String}
    (h : checkCuts packets length delay lengths delays = .ok ()) :
    checkCuts packets (if lengths = "" then length else "") (if lengths = "" then delay else "")
      (Text.replace lengths " " "") (Text.replace delays " " "") = .ok () := by
  rw [checkCuts] at h ⊢
  by_cases hp : packets = ""
  · rw [if_pos hp]
  rw [if_neg hp] at h ⊢
  by_cases hl : lengths = ""
  · rw [if_pos hl] at h
    rw [if_pos hl, if_pos hl, hl, if_pos (by decide)]
    exact h
  · rw [if_neg hl] at h
    simp only [except_bind_iff, require_ok_iff, Unique.exists_iff, Bool.and_eq_true, decide_eq_true_eq] at h
    obtain ⟨⟨ha, hb⟩, hsame, hshort⟩ := h
    rw [if_neg (remove_ne_empty ha)]
    simp only [except_bind_iff, require_ok_iff, Unique.exists_iff, Bool.and_eq_true, decide_eq_true_eq]
    refine ⟨⟨ranges_remove ha, ranges_remove hb⟩, ?_, ?_⟩
    · rw [Text.split_remove rfl (by decide), Text.split_remove rfl (by decide), List.length_map, List.length_map]
      exact hsame
    · rw [Text.split_remove rfl (by decide), List.length_map]
      exact hshort

/-- Letters, digits, hyphens and dots. -/
theorem not_whitespace_of_isSni {s : String} (h : isSni s = true) {c : Char} (hc : c ∈ s.toList) :
    Chars.isWhitespace c = false := by
  rw [isSni, Bool.and_eq_true] at h
  have hjoin : List.intercalate ['.'] (s.toList.splitOn '.') = s.toList := List.intercalate_splitOn '.'
  rw [← hjoin] at hc
  rcases ByeDpiArgs.mem_intercalate hc with rfl | ⟨label, hlabel, hc⟩
  · decide
  · have hl := List.all_eq_true.mp h.2 label hlabel
    simp only [isLabel, Bool.and_eq_true] at hl
    have hchar := List.all_eq_true.mp hl.1.1.2 c hc
    rw [Bool.or_eq_true, decide_eq_true_eq] at hchar
    rcases hchar with hchar | rfl
    · have hkept : UrlCodec.dontNeedEncoding c = true := by
        rw [isNameChar, Bool.or_eq_true] at hchar
        rcases hchar with hchar | hchar
        · simp [UrlCodec.dontNeedEncoding, Char.isAlphanum, Char.isAlpha, hchar]
        · simp [UrlCodec.dontNeedEncoding, Char.isAlphanum, hchar]
      have hrange := UrlCodec.kept_range hkept
      exact Chars.not_whitespace_of_range (by omega) (by omega)
    · decide

/-- A name in small letters, without whitespace at its ends, is left as it is. -/
theorem sni_norm (U : Jvm) {s : String} (h : U.lowercase (Text.trim s) = "" ∨
    isSni (U.lowercase (Text.trim s)) = true) :
    U.lowercase (Text.trim (U.lowercase (Text.trim s))) = U.lowercase (Text.trim s) := by
  have htrim : Text.trim (U.lowercase (Text.trim s)) = U.lowercase (Text.trim s) := by
    rcases h with h | h
    · rw [h]
      decide
    · exact Text.trim_eq_self (fun x hx => not_whitespace_of_isSni h (List.mem_of_head? hx))
        (fun x hx => not_whitespace_of_isSni h (List.mem_of_getLast? hx))
  rw [htrim, U.lowercase_idem]

/-! ## Noise, again

The noise is an array in a text. It is checked key by key and kept as the text that was printed
of it, which reads as the same array. -/

section
variable {P}

/-- Of a packet the keys alone are looked at. -/
theorem checkPacket_congr {v v' : Json} (h : v.asObject.map JsonObject.keys = v'.asObject.map JsonObject.keys) :
    checkPacket v = checkPacket v' := by
  have hhas (o : JsonObject) (k : String) : o.has k = decide (k ∈ o.keys) := by
    rw [Bool.eq_iff_iff, decide_eq_true_eq]
    exact Assoc.get?_isSome_iff o k
  rw [checkPacket, checkPacket]
  cases hv : v.asObject with
  | none =>
    rw [hv, Option.map_none] at h
    rw [Option.map_eq_none_iff.mp h.symm]
  | some o =>
    rw [hv, Option.map_some] at h
    obtain ⟨o', ho', hkeys⟩ := Option.map_eq_some_iff.mp h.symm
    rw [ho']
    simp only [hhas, hkeys]

/-- The check of the packets looks at keys alone. -/
theorem forM_checkPacket {a a' : List Json}
    (h : List.Forall₂ (fun v v' => v.asObject.map JsonObject.keys = v'.asObject.map JsonObject.keys) a a') :
    a.forM checkPacket = a'.forM checkPacket := by
  induction h with
  | nil => rfl
  | cons hv _ ih => rw [List.forM, List.forM, checkPacket_congr hv, ih]

/-- **The noise passes in the form it is kept in**, which is kept. -/
theorem checkNoise_norm (hJ : Stable P.json) {nj text : String} (h : checkNoise P nj = .ok text) :
    checkNoise P (Text.trim text) = .ok text := by
  rcases checkNoise_ok P h with ⟨-, rfl⟩ | ⟨-, a, ha, ⟨hlength, hpackets⟩, rfl⟩
  · rfl
  obtain ⟨a', ha', htext, hsame⟩ := hJ.reread nj a ha
  rw [hJ.trim_text, checkNoise]
  split
  · rename_i hempty
    rw [hempty]
  · rw [ha']
    simp only [except_bind_iff, require_ok_iff, Unique.exists_iff]
    refine ⟨?_, ?_, ?_⟩
    · rw [← hsame.length_eq]
      exact hlength
    · rw [← forM_checkPacket hsame]
      exact hpackets
    · exact congrArg Except.ok htext

end

/-! ## The form a mask is kept in

The whole mask in the form it is kept in is read from the object that was written of it, field by
field. So its checks pass again. -/

theorem form_congr (J : OrgJson) {o o' : JsonObject} (h : ∀ k, o.get? k = o'.get? k) : form J o = form J o' := by
  simp only [form, JsonObject.optString, JsonObject.optInt, JsonObject.optBoolean, h]

/-- What the getters read of a mask that was written. -/
def written (m : OwnMask) : OwnMask :=
  { m with id := "", maxSplit := if m.maxSplit = "0" then "" else m.maxSplit
           dpi := if m.dpi = CURRENT_DPI then m.dpi else "", mss := if 0 < m.mss then m.mss else 0 }

/-- What a conditional put leaves under each key. -/
theorem get?_putIf_eq (c : Bool) (o : JsonObject) (k k' : String) (v : Json) :
    (putIf c o k v).get? k' = if k = k' then (if c then some v else o.get? k') else o.get? k' := by
  by_cases hk : k = k'
  · rw [if_pos hk, hk, get?_putIf_self]
  · rw [if_neg hk, get?_putIf hk]

/-- A mask that was written is read as it was. -/
theorem form_toJson (J : OrgJson) {m : OwnMask} (h : m.mss < 2 ^ 31) : form J (toJson m) = written m := by
  -- a text that is empty is left out and read back as empty
  have htext (v : String) : ((if v ≠ "" then some (Json.str v) else none).map (Json.asString J)).getD "" = v := by
    by_cases hv : v = ""
    · rw [if_neg (not_not.mpr hv), hv]
      rfl
    · rw [if_pos hv]
      rfl
  -- so is a split of zero
  have hsplit : ((if m.maxSplit ≠ "" ∧ m.maxSplit ≠ "0" then some (Json.str m.maxSplit) else none).map
      (Json.asString J)).getD "" = if m.maxSplit = "0" then "" else m.maxSplit := by
    by_cases h0 : m.maxSplit = "0"
    · rw [if_neg (fun h => h.2 h0), if_pos h0]
      rfl
    · have hboth : (m.maxSplit ≠ "" ∧ m.maxSplit ≠ "0") ↔ m.maxSplit ≠ "" := and_iff_left h0
      simp only [if_neg h0, hboth, htext]
  -- and a strategy that is not the current one
  have hdpi : ((if m.dpi = CURRENT_DPI then some (Json.str m.dpi) else none).map (Json.asString J)).getD "" =
      if m.dpi = CURRENT_DPI then m.dpi else "" := by
    split
    · rfl
    · rfl
  have hflag (b : Bool) : ((if b then some (Json.bool true) else none).bind (Json.asBool J)).getD false = b := by
    cases b
    · rfl
    · rfl
  -- and a segment size of zero
  have hmss : (((if 0 < m.mss then some (Json.int m.mss) else none).bind (Json.asInt J)).getD 0).toInt =
      if 0 < m.mss then m.mss else 0 := by
    split
    · rw [Option.bind_some, Json.asInt_int, Option.getD_some]
      exact Int32.toInt_ofInt_of_le (by omega) (by omega)
    · rfl
  simp only [form, toJson, JsonObject.optString, JsonObject.optInt, JsonObject.optBoolean, get?_putIf_eq,
    JsonObject.get?_put, JsonObject.get?_empty, String.reduceEq, if_true, if_false, decide_eq_true_eq,
    Option.map_some, Option.getD_some, Json.asString_str, htext, hsplit, hdpi, hflag, hmss, written]

section
variable {P} {r : OwnMask} {nj : String}

/-- **What is kept is what is kept of it.** -/
theorem norm_written (h : Passes P (norm P r nj) r) : norm P (written (norm P r nj)) nj =
    { norm P r nj with title := (norm P (written (norm P r nj)) nj).title } := by
  have hfp : Text.ifEmpty (Text.ifEmpty r.fingerprint "chrome") "chrome" = Text.ifEmpty r.fingerprint "chrome" :=
    Text.ifEmpty_of_ne fun h0 => absurd (h0 ▸ h.fingerprint : "" ∈ FINGERPRINTS) (by decide)
  -- normalising what is normal changes nothing, field by field
  have hcut (x : String) : (if Text.replace r.lengths " " "" = "" then (if r.lengths = "" then x else "") else "") =
      if r.lengths = "" then x else "" := by
    by_cases hl : r.lengths = ""
    · rw [hl, if_pos (by decide)]
    · rw [if_neg hl, ite_self]
  have hsplit : Text.ifEmpty (if Text.ifEmpty r.maxSplit "0" = "0" then "" else Text.ifEmpty r.maxSplit "0") "0" =
      Text.ifEmpty r.maxSplit "0" := by
    by_cases h0 : Text.ifEmpty r.maxSplit "0" = "0"
    · rw [if_pos h0, h0]
      rfl
    · rw [if_neg h0]
      refine Text.ifEmpty_of_ne fun hempty => ?_
      rw [Text.ifEmpty] at hempty
      split at hempty
      · exact absurd hempty (by decide)
      · contradiction
  have hdpi : (if (if (if r.dpi = CURRENT_DPI then CURRENT_DPI else "") = CURRENT_DPI
      then (if r.dpi = CURRENT_DPI then CURRENT_DPI else "") else "") = CURRENT_DPI then CURRENT_DPI else "") =
      if r.dpi = CURRENT_DPI then CURRENT_DPI else "" := by
    by_cases hd : r.dpi = CURRENT_DPI
    · rw [if_pos hd, if_pos rfl, if_pos rfl]
    · rw [if_neg hd]
      decide
  have hmss : (if 0 < r.mss then r.mss else 0) = r.mss := by
    have := h.mss
    split
    · rfl
    · omega
  have hspace (t : String) : Text.replace (Text.replace t " " "") " " "" = Text.replace t " " "" :=
    Text.remove_remove (c := ' ') rfl t
  generalize ht : (norm P (written (norm P r nj)) nj).title = t
  exact OwnMask.ext hfp rfl (hcut r.length) (hcut r.delay) hsplit hdpi (hspace r.lengths) (hspace r.delays) rfl rfl rfl
    (sni_norm P.jvm h.sni) (hspace r.alpn) hmss rfl rfl rfl rfl ht

/-- Normalising does not look at the title. -/
theorem norm_title (r : OwnMask) (title : String) : norm P { r with title := title } nj =
    { norm P r nj with title := (norm P { r with title := title } nj).title } := by
  generalize ht : (norm P { r with title := title } nj).title = t
  exact OwnMask.ext rfl rfl rfl rfl rfl rfl rfl rfl rfl rfl rfl rfl rfl rfl rfl rfl rfl rfl ht

/-- **A mask that passed the checks passes them again when it is read back.** -/
theorem passes_written (hJ : Stable P.json) (h : Passes P (norm P r nj) r) :
    Passes P (norm P (written (norm P r nj)) nj) (written (norm P r nj)) := by
  have hquiet (hr : Quiet r) : Quiet (written (norm P r nj)) := by
    refine ⟨⟨hr.1.1, ?_⟩, hr.2⟩
    show Text.trim nj = ""
    rw [show nj = "" from h.quiet P hr]
    decide
  have hmss : (written (norm P r nj)).mss = r.mss := by
    show (if 0 < r.mss then r.mss else 0) = r.mss
    have hrange := h.mss
    split
    · rfl
    · omega
  rw [norm_written h]
  refine ⟨h.fingerprint, h.packets, checkCuts_norm h.cuts, ?_, h.noise, checkNoise_norm hJ h.noiseJson, h.hop,
    h.fragment.imp_right hquiet, h.sni, h.alpn, ?_, ?_⟩
  · show (if Text.ifEmpty r.maxSplit "0" = "0" then "" else Text.ifEmpty r.maxSplit "0") = "" ∨ ∃ k,
      Text.toInt? P.jvm (if Text.ifEmpty r.maxSplit "0" = "0" then "" else Text.ifEmpty r.maxSplit "0") = some k ∧
        0 ≤ k.toInt ∧ k.toInt ≤ 64
    by_cases h0 : Text.ifEmpty r.maxSplit "0" = "0"
    · rw [if_pos h0]
      exact .inl rfl
    · have hne : r.maxSplit ≠ "" := fun hempty => h0 (if_pos hempty)
      rw [if_neg h0, Text.ifEmpty_of_ne hne]
      exact h.maxSplit
  · rw [hmss]
    exact h.mss
  · rw [hmss]
    exact h.stream.imp_right hquiet

end

/-! ## There and back

On disk a mask is an object, in a link it is that object in Base64 without its title, and the
title stands behind. Both ways lead back to the mask under the same id, since the id does not
depend on the title. -/

/-- The title is no part of the id. -/
theorem idOf_title (m : OwnMask) (title : String) : idOf P { m with title := title } = idOf P m := by
  rw [idOf, idOf]

/-- The last step does not look at the name. -/
theorem renamed_settled {n n' : OwnMask} (h : Renamed n n') : Renamed (settled P n) (settled P n') := by
  rw [Renamed] at h
  generalize n'.title = t at h
  rw [h, Renamed, settled, settled, idOf_title]

theorem written_settled (n : OwnMask) : written (settled P n) = written n := rfl

/-- Writing a member keeps an object printable. -/
theorem plain_put {o : JsonObject} {v : Json} (ho : Json.plain (.obj o) = true) (hv : Json.plain v = true) (k : String) :
    Json.plain (.obj (o.put k v)) = true := by
  have hput (o : JsonObject) (ho : Json.plainObject o = true) : Json.plainObject (o.put k v) = true := by
    induction o with
    | nil => rw [JsonObject.put, Assoc.put, Json.plainObject, hv, Json.plainObject, Bool.and_self]
    | cons e o ih =>
      rw [Json.plainObject, Bool.and_eq_true] at ho
      rw [JsonObject.put, Assoc.put]
      split
      · rw [Json.plainObject, hv, ho.2, Bool.and_self]
      · rw [Json.plainObject, ho.1, Bool.true_and]
        exact ih ho.2
  rw [Json.plain, Bool.and_eq_true, decide_eq_true_eq] at ho ⊢
  exact ⟨hput o ho.1, Assoc.keys_put_nodup ho.2 k v⟩

/-- A conditional put keeps a value plain. -/
theorem plain_putIf {o : JsonObject} {v : Json} (ho : Json.plain (.obj o) = true) (c : Bool) (k : String)
    (hv : Json.plain v = true) : Json.plain (.obj (putIf c o k v)) = true := by
  rw [putIf]
  split
  · exact plain_put ho hv k
  · exact ho

theorem plain_toJson {m : OwnMask} (h0 : 0 ≤ m.mss) (h1 : m.mss < 2 ^ 31) :
    Json.plain (.obj (toJson m)) = true := by
  have hmss : Json.plain (.int m.mss) = true := by
    rw [Json.plain, decide_eq_true_eq]
    omega
  rw [toJson]
  refine plain_putIf (plain_putIf (plain_putIf (plain_putIf ?_ _ _ hmss) _ _ rfl) _ _ rfl) _ _ rfl
  iterate 12 refine plain_putIf ?_ _ _ (by rw [Json.plain])
  exact plain_put (plain_put rfl rfl _) rfl _

section
variable {P} {o : JsonObject} {m : OwnMask}

/-- A segment size that passed fits an `Int`. -/
theorem Passes.mss_range {n r : OwnMask} (h : Passes P n r) : 0 ≤ r.mss ∧ r.mss < 2 ^ 31 := by
  have hrange := h.mss
  omega

/-- **An object with the members a mask was written with is that mask again.** -/
theorem fromJson_written (hJ : Stable P.json) (h : fromJson P o = .ok m) {o' : JsonObject}
    (hread : ∀ k, o'.get? k = (toJson m).get? k) : ∃ m', fromJson P o' = .ok m' ∧ Renamed m m' := by
  obtain ⟨nj, hpass, rfl⟩ := (fromJson_ok_iff P o m).mp h
  have hform : form P.json o' = written (norm P (form P.json o) nj) := by
    have hmss : (settled P (norm P (form P.json o) nj)).mss < 2 ^ 31 := hpass.mss_range.2
    rw [form_congr P.json hread, form_toJson P.json hmss, written_settled]
  refine ⟨_, (fromJson_ok_iff P o' _).mpr ⟨nj, hform ▸ passes_written hJ hpass, rfl⟩, ?_⟩
  rw [hform]
  exact renamed_settled P (norm_written hpass)

/-- **Another title makes another title, and nothing else.** -/
theorem fromJson_renamed (h : fromJson P o = .ok m) {o' : JsonObject} (hsame : ∀ k, k ≠ "t" → o'.get? k = o.get? k) :
    ∃ m', fromJson P o' = .ok m' ∧ Renamed m m' := by
  obtain ⟨nj, hpass, rfl⟩ := (fromJson_ok_iff P o m).mp h
  have hform : form P.json o' = { form P.json o with title := o'.optString P.json "t" "" } := by
    simp (disch := decide) only [form, JsonObject.optString, JsonObject.optInt, JsonObject.optBoolean, hsame]
  refine ⟨_, (fromJson_ok_iff P o' _).mpr ⟨nj, ?_, rfl⟩, ?_⟩
  · rw [hform]
    exact ⟨hpass.fingerprint, hpass.packets, hpass.cuts, hpass.maxSplit, hpass.noise, hpass.noiseJson, hpass.hop,
      hpass.fragment, hpass.sni, hpass.alpn, hpass.mss, hpass.stream⟩
  · rw [hform]
    exact renamed_settled P (norm_title _ _)

/-- The text of a mask is read as an object with its members. -/
theorem parseObject_store (h : fromJson P o = .ok m) : ∃ o', P.json.parseObject (store P m) = some o' ∧
    ∀ k, o'.get? k = (toJson m).get? k := by
  obtain ⟨nj, hpass, rfl⟩ := (fromJson_ok_iff P o m).mp h
  exact P.json.parse_text _ (plain_toJson hpass.mss_range.1 hpass.mss_range.2)

/-- **A stored mask is loaded as it was**, but for its name. -/
theorem load_store (hJ : Stable P.json) (h : fromJson P o = .ok m) :
    ∃ m', load P [store P m] = [m'] ∧ Renamed m m' := by
  obtain ⟨o', ho', hread⟩ := parseObject_store h
  obtain ⟨m', hm', hsame⟩ := fromJson_written hJ h hread
  refine ⟨m', ?_, hsame⟩
  rw [load, List.filterMap_cons, List.filterMap_nil, ho', Option.bind_some, hm']
  rfl

/-- A link has no whitespace, and one sign before the title. -/
theorem body_encode (h : store P m ≠ "") :
    Base64.decodeToString (Text.substringBefore (Text.removePrefix (Text.trim (encode P m)) SCHEME) '#') =
      some (store P m) := by
  have hlink : encode P m = SCHEME ++ (Base64.urlSafe (Base64.encode (store P m)) ++ "#" ++ UrlCodec.encode m.title) := by
    rw [encode, ← Base64.urlSafe, ← store, String.append_assoc, String.append_assoc, String.append_assoc]
  have hplain : ∀ c ∈ (encode P m).toList, Chars.isWhitespace c = false := by
    intro c hc
    rw [hlink] at hc
    rcases Text.mem_append.mp hc with hc | hc
    · have hall : SCHEME.toList.all (fun c => !Chars.isWhitespace c) = true := by decide
      simpa using List.all_eq_true.mp hall c hc
    rcases Text.mem_append.mp hc with hc | hc
    · rcases Text.mem_append.mp hc with hc | hc
      · exact (Base64.mem_urlSafe hc).1
      · rw [List.mem_singleton.mp hc]
        decide
    · rcases UrlCodec.mem_encode hc with hc | rfl | rfl
      · have hrange := UrlCodec.kept_range hc
        exact Chars.not_whitespace_of_range (by omega) (by omega)
      · decide
      · decide
  rw [Text.trim_eq_self (fun x hx => hplain x (List.mem_of_head? hx)) (fun x hx => hplain x (List.mem_of_getLast? hx)),
    hlink, Text.removePrefix_append, Text.substringBefore_append rfl (fun hmem => (Base64.mem_urlSafe hmem).2 rfl),
    Base64.decodeToString_urlSafe h]

/-- **And a shared one is decoded so.** -/
theorem decode_encode (hJ : Stable P.json) (h : fromJson P o = .ok m) :
    ∃ m', decode P (encode P m) = .ok m' ∧ Renamed m m' := by
  obtain ⟨o', ho', hread⟩ := parseObject_store h
  obtain ⟨m', hm', hsame⟩ := fromJson_written hJ h hread
  refine ⟨m', ?_, hsame⟩
  rw [decode, body_encode (P.json.text_ne_empty ho')]
  simp only [except_bind_iff]
  exact ⟨store P m, rfl, o', congrArg (orThrow _) ho', hm'⟩

/-- **One kind of server or the other.** -/
theorem not_both (h : fromJson P o = .ok m) : ¬(m.forTcp ∧ m.forUdp) := by
  obtain ⟨nj, hpass, rfl⟩ := (fromJson_ok_iff P o m).mp h
  rintro ⟨htcp, hudp⟩
  have hloud : ¬Quiet (form P.json o) := by
    intro hq
    rcases hudp with hn | hn | hn
    · exact hn hq.1.1
    · exact hn (hpass.quiet P hq)
    · exact hn hq.2
  obtain ⟨⟨⟨hmss, hmux⟩, htfo⟩, hsni⟩ := hpass.stream.resolve_right hloud
  rcases htcp with hp | hs | hm | hm | hm
  · exact hp (hpass.fragment.resolve_right hloud)
  · exact hs hsni
  · exact hmss hm
  · exact absurd (hmux.symm.trans hm) (by decide)
  · exact absurd (htfo.symm.trans hm) (by decide)

end

/-- **A mask of one's own survives storing and sharing**, under one id whatever its title,
and is for one kind of server. -/
theorem own_mask_survives (hJ : Stable P.json) {o : JsonObject} {m : OwnMask} (h : fromJson P o = .ok m) :
    (∃ m', fromJson P (toJson m) = .ok m' ∧ Renamed m m') ∧
    (∃ m', decode P (encode P m) = .ok m' ∧ Renamed m m') ∧
    (∃ m', load P [store P m] = [m'] ∧ Renamed m m') ∧
    ((∀ o', (∀ k, k ≠ "t" → o'.get? k = o.get? k) → ∃ m', fromJson P o' = .ok m' ∧ Renamed m m') ∧
      ∀ title, idOf P { m with title := title } = idOf P m) ∧
    ¬(m.forTcp ∧ m.forUdp) :=
  ⟨fromJson_written hJ h fun _ => rfl, decode_encode hJ h, load_store hJ h,
    ⟨fun _ hsame => fromJson_renamed h hsame, idOf_title P m⟩, not_both h⟩

/-- The sample library prints and reads arrays as is asked of it. -/
theorem sample_stable : Stable samplePlatform.json := by
  constructor
  · intro text a h
    obtain ⟨-, hplain⟩ := Option.filter_eq_some_iff.mp h
    have hread : JsonText.parse (.ofList (JsonText.render (.arr a))) = some (.arr a) :=
      JsonText.parse_render (v := .arr a) hplain
    refine ⟨a, ?_, rfl, List.forall₂_refl a⟩
    show ((JsonText.parse (.ofList (JsonText.render (.arr a)))).bind Json.asArray).filter Json.plainList = some a
    rw [hread, Option.bind_some, Json.asArray_arr, Option.filter_some, if_pos hplain]
  · intro a
    refine ⟨.ofList (JsonText.renderList a), ?_⟩
    show String.ofList (JsonText.render (.arr a)) = _
    have htext : (String.ofList (JsonText.renderList a)).toList = JsonText.renderList a := String.toList_ofList
    rw [JsonText.render, ← String.toList_inj, String.toList_append, String.toList_append, htext, String.toList_ofList]
    rfl

/-- A ladder with spaces, for a name in capitals. -/
theorem ladder_survives : ∃ m, fromJson samplePlatform [("p", .str "1-3"), ("ls", .str "1-1, 2-4"),
      ("ds", .str "5-10 ,20"), ("sni", .str " VK.com")] = .ok m ∧ m.lengths = "1-1,2-4" ∧ m.sni = "vk.com" ∧
    (∃ m', decode samplePlatform (encode samplePlatform m) = .ok m' ∧ Renamed m m') ∧
    (∃ m', load samplePlatform [store samplePlatform m] = [m'] ∧ Renamed m m') := by
  have hread : ((fromJson samplePlatform [("p", .str "1-3"), ("ls", .str "1-1, 2-4"), ("ds", .str "5-10 ,20"),
      ("sni", .str " VK.com")]).toOption.map fun m => (m.lengths, m.sni)) = some ("1-1,2-4", "vk.com") := by
    decide +kernel
  cases hm : fromJson samplePlatform [("p", .str "1-3"), ("ls", .str "1-1, 2-4"), ("ds", .str "5-10 ,20"),
      ("sni", .str " VK.com")] with
  | error e =>
    rw [hm] at hread
    cases hread
  | ok m =>
    rw [hm] at hread
    obtain ⟨hlengths, hsni⟩ := Prod.mk.inj (Option.some.inj hread)
    obtain ⟨-, hdecode, hload, -⟩ := own_mask_survives samplePlatform sample_stable hm
    exact ⟨m, rfl, hlengths, hsni, hdecode, hload⟩

end MyMasks

end VlessCard
