/-
The parts of a share link, read from the text that was written for them.

Three facts carry the round trips of `LinkParser`. A host and a port that were
read hold none of the signs a link is cut at, and written as an endpoint they are
read again, unless an opening bracket stands first and no colon asks for the
brackets. A query written from a list of parameters is read as that list. And a
link put together from encoded credentials, an endpoint, a query and an encoded
name is cut into just these parts.
-/
import VlessCard.LinkParser

set_option autoImplicit false

namespace VlessCard.LinkParser

variable (J : Jvm)

/-! ## Endpoints

The port stands behind the last colon, and an address with colons stands in brackets. What is
read of an endpoint that was written is therefore the address, unless it begins with a bracket
itself. -/

/-- The numeral of a number that is not negative is made of digits. -/
theorem isDigit_of_mem_numeral {n : Int32} (h : 0 ≤ n.toInt) {c : Char}
    (hc : c ∈ (toString n.toInt).toList) : c.isDigit = true := by
  obtain ⟨k, hk⟩ := Int.eq_ofNat_of_zero_le h
  rw [hk, Text.toList_toString_nat] at hc
  exact Nat.isDigit_of_mem_toDigits (by omega) (by omega) hc

theorem not_mem_numeral {n : Int32} (h : 0 ≤ n.toInt) {c : Char} (hc : c.isDigit = false) :
    c ∉ (toString n.toInt).toList := by
  intro hmem
  rw [isDigit_of_mem_numeral h hmem] at hc
  cases hc

theorem getLast?_numeral {n : Int32} (h : 0 ≤ n.toInt) :
    ∃ d, (toString n.toInt).toList.getLast? = some d ∧ d.isDigit = true := by
  have hne : (toString n.toInt).toList ≠ [] := by
    obtain ⟨k, hk⟩ := Int.eq_ofNat_of_zero_le h
    rw [hk, Text.toList_toString_nat]
    exact Nat.toDigits_ne_nil
  exact ⟨_, List.getLast?_eq_some_getLast hne, isDigit_of_mem_numeral h (List.getLast_mem hne)⟩

/-- Whether a text starts with a bracket is told by its first sign. -/
theorem startsWith_bracket_iff {s : String} :
    Text.startsWith s "[" = true ↔ s.toList.head? = some '[' := by
  rw [Text.startsWith, decide_eq_true_eq]
  show ['['] <+: s.toList ↔ _
  rw [List.singleton_prefix_iff_head?_eq_some]

/-- What is read as a host: text of the endpoint without a slash, and if it begins
with a bracket it was read between brackets. -/
theorem hostPort_spec {hp host : String} {port : Int32} (h : hostPort J hp = some (host, port)) :
    (∀ c ∈ host.toList, c ∈ hp.toList) ∧ '/' ∉ host.toList
      ∧ (host.toList.head? = some '[' → ']' ∉ host.toList) := by
  have hclean : ∀ c ∈ (Text.substringBefore hp '/').toList, c ∈ hp.toList ∧ c ≠ '/' := by
    intro c hc
    rw [Text.substringBefore, String.toList_ofList] at hc
    refine ⟨Chars.mem_of_mem_before hc, ?_⟩
    rintro rfl
    exact Chars.not_mem_before '/' _ hc
  unfold hostPort at h
  dsimp only at h
  split at h
  · -- between brackets
    split at h
    · obtain ⟨port', _, heq⟩ := Option.map_eq_some_iff.mp h
      rw [Prod.mk.injEq] at heq
      obtain ⟨rfl, -⟩ := heq
      simp only [String.toList_ofList]
      have hmem : ∀ c ∈ (Chars.before ']' (Text.substringBefore hp '/').toList).drop 1,
          c ∈ Chars.before ']' (Text.substringBefore hp '/').toList := fun c hc => List.mem_of_mem_drop hc
      refine ⟨fun c hc => (hclean c (Chars.mem_of_mem_before (hmem c hc))).1, ?_, ?_⟩
      · intro hc
        exact (hclean _ (Chars.mem_of_mem_before (hmem _ hc))).2 rfl
      · intro _ hc
        exact Chars.not_mem_before ']' _ (hmem _ hc)
    · cases h
  · rename_i hb
    obtain ⟨port', _, heq⟩ := Option.map_eq_some_iff.mp h
    rw [Prod.mk.injEq] at heq
    obtain ⟨rfl, -⟩ := heq
    rw [startsWith_bracket_iff] at hb
    have hmem : ∀ c ∈ (Text.substringBeforeLast (Text.substringBefore hp '/') ':').toList,
        c ∈ (Text.substringBefore hp '/').toList := by
      intro c hc
      rw [Text.substringBeforeLast, String.toList_ofList] at hc
      exact Chars.mem_of_mem_beforeLast hc
    refine ⟨fun c hc => (hclean c (hmem c hc)).1, fun hc => (hclean _ (hmem _ hc)).2 rfl, ?_⟩
    -- a host cut off before the last colon begins as the endpoint does
    intro hhead
    refine absurd ?_ hb
    rw [Text.substringBeforeLast, String.toList_ofList] at hhead
    exact Chars.head?_of_head?_beforeLast hhead

section
variable {address : String} {port : Int32}

/-- An address that does not begin with a bracket is read as it stands. -/
theorem hostPort_bare (hslash : '/' ∉ address.toList) (hb : address.toList.head? ≠ some '[')
    (hport : 0 ≤ port.toInt) :
    hostPort J (address ++ ":" ++ toString port.toInt) = some (address, port) := by
  have hclean : Text.substringBefore (address ++ ":" ++ toString port.toInt) '/'
      = address ++ ":" ++ toString port.toInt :=
    Text.substringBefore_of_not_mem (Text.not_mem_append (Text.not_mem_append hslash (by decide))
      (not_mem_numeral hport (by decide)))
  have hstart : Text.startsWith (address ++ ":" ++ toString port.toInt) "[" = false := by
    rw [Bool.eq_false_iff, ne_eq, startsWith_bracket_iff, String.toList_append,
      String.toList_append]
    intro hhead
    cases ha : address.toList with
    | nil =>
      rw [ha] at hhead
      cases hhead
    | cons x rest =>
      rw [ha] at hhead hb
      exact hb hhead
  have hcolon : ':' ∉ (toString port.toInt).toList := not_mem_numeral hport (by decide)
  unfold hostPort
  simp only [hclean, hstart, Bool.false_eq_true, if_false]
  rw [Text.substringAfterLast_append rfl hcolon, Text.substringBeforeLast_append rfl hcolon,
    Text.toInt?_toString J hport, Option.map_some]

/-- A bracket that is opened and never closed is refused. -/
theorem hostPort_open (hslash : '/' ∉ address.toList) (hb : address.toList.head? = some '[')
    (hclose : ']' ∉ address.toList) (hport : 0 ≤ port.toInt) :
    hostPort J (address ++ ":" ++ toString port.toInt) = none := by
  have hclean : Text.substringBefore (address ++ ":" ++ toString port.toInt) '/'
      = address ++ ":" ++ toString port.toInt :=
    Text.substringBefore_of_not_mem (Text.not_mem_append (Text.not_mem_append hslash (by decide))
      (not_mem_numeral hport (by decide)))
  have hstart : Text.startsWith (address ++ ":" ++ toString port.toInt) "[" = true := by
    rw [startsWith_bracket_iff, String.append_assoc, String.toList_append]
    obtain ⟨rest, hrest⟩ := List.head?_eq_some_iff.mp hb
    rw [hrest]
    rfl
  have hno : Text.hasChar (address ++ ":" ++ toString port.toInt) ']' = false :=
    Text.hasChar_eq_false_iff.mpr (Text.not_mem_append (Text.not_mem_append hclose (by decide))
      (not_mem_numeral hport (by decide)))
  unfold hostPort
  simp only [hclean, hstart, hno, Bool.false_eq_true, if_true, if_false]

/-- An address in brackets is read up to the closing one. -/
theorem hostPort_bracketed (hslash : '/' ∉ address.toList) (hclose : ']' ∉ address.toList)
    (hport : 0 ≤ port.toInt) :
    hostPort J ("[" ++ address ++ "]" ++ ":" ++ toString port.toInt) = some (address, port) := by
  have hassoc : "[" ++ address ++ "]" ++ ":" ++ toString port.toInt
      = "[" ++ address ++ "]:" ++ toString port.toInt := by
    have hsep : "]:" = "]" ++ ":" := rfl
    rw [hsep, ← String.append_assoc]
  -- the first closing bracket is the one behind the address
  have hopen : ']' ∉ ("[" ++ address).toList := Text.not_mem_append (by decide) hclose
  have hclean : Text.substringBefore ("[" ++ address ++ "]:" ++ toString port.toInt) '/'
      = "[" ++ address ++ "]:" ++ toString port.toInt :=
    Text.substringBefore_of_not_mem (Text.not_mem_append (Text.not_mem_append
      (Text.not_mem_append (by decide) hslash) (by decide)) (not_mem_numeral hport (by decide)))
  have hstart : Text.startsWith ("[" ++ address ++ "]:" ++ toString port.toInt) "[" = true := by
    rw [startsWith_bracket_iff, String.append_assoc, String.append_assoc, String.toList_append]
    rfl
  have hlist : ("[" ++ address ++ "]:" ++ toString port.toInt).toList
      = ("[" ++ address).toList ++ ']' :: (":" ++ toString port.toInt).toList := by
    simp
  have hhas : Text.hasChar ("[" ++ address ++ "]:" ++ toString port.toInt) ']' = true := by
    rw [Text.hasChar_iff, hlist]
    simp
  -- what stands between the brackets is the address
  have hhost : (Chars.before ']' ("[" ++ address ++ "]:" ++ toString port.toInt).toList).drop 1
      = address.toList := by
    rw [hlist, Chars.before_append hopen, String.toList_append]
    rfl
  rw [hassoc]
  unfold hostPort
  simp only [hclean, hstart, hhas, if_true, hhost]
  rw [Text.substringAfterStr_append (c := ']') rfl hopen, Text.toInt?_toString J hport,
    Option.map_some, String.ofList_toList]

end

/-! ## Queries

A query is read into a map of lower-case keys, with the values decoded. A written parameter holds
none of the signs at which a query is cut, so each is found again under its key. -/

/-- A parameter name holds no sign a query or a link is cut at. -/
def plainKey (k : String) : Bool :=
  !Text.hasChar k '&' && !Text.hasChar k '=' && !Text.hasChar k '#'

section
variable {q : List (String × String)}

/-- An encoded parameter keeps the delimiters out. -/
theorem not_mem_param {c : Char} {k v : String} (hk : c ∉ k.toList) (hc : c ≠ '=')
    (hkeep : UrlCodec.dontNeedEncoding c = false) (hpct : c ≠ '%') :
    c ∉ (k ++ "=" ++ enc v).toList := by
  refine Text.not_mem_append (Text.not_mem_append hk ?_) (UrlCodec.not_mem_enc hkeep hpct)
  intro h
  exact hc (List.mem_singleton.mp h)

/-- **A query is read as it was written**, its keys in lower case. -/
theorem query_renderQuery (h : ∀ e ∈ q, plainKey e.1 = true) :
    query J (renderQuery q) = .ofList (q.map fun e => (J.lowercase e.1, e.2)) := by
  have hkey : ∀ e ∈ q, '&' ∉ e.1.toList ∧ '=' ∉ e.1.toList := by
    intro e he
    have hp := h e he
    simp only [plainKey, Bool.and_eq_true, Bool.not_eq_true', Text.hasChar_eq_false_iff] at hp
    exact hp.1
  unfold query renderQuery
  by_cases hq : q = []
  · -- nothing written is one empty piece, which holds no parameter
    subst hq
    rfl
  · rw [Text.split_join rfl]
    · congr 1
      rw [List.filter_eq_self.mpr, List.map_map]
      · refine List.map_congr_left (fun e he => ?_)
        simp only [Function.comp_apply]
        rw [Text.substringBefore_append rfl (hkey e he).2,
          Text.substringAfter_append rfl (hkey e he).2, UrlCodec.dec_enc]
      · intro s hs
        obtain ⟨e, _, rfl⟩ := List.mem_map.mp hs
        exact Text.hasChar_append_self rfl
    · intro s hs
      obtain ⟨e, he, rfl⟩ := List.mem_map.mp hs
      exact not_mem_param (hkey e he).1 (by decide) (by decide) (by decide)
    · simpa using hq

section
variable {J} {specs : List (String × Option String)} (h : ∀ e ∈ q, plainKey e.1 = true)
  (hspecs : q.map (fun e => (J.lowercase e.1, e.2)) = Assoc.present specs)
  (hn : (Assoc.keys specs).Nodup)

include h hspecs hn

/-- A query written from optional parameters holds those that are present. -/
theorem entries_renderQuery : (query J (renderQuery q)).entries = Assoc.present specs := by
  rw [query_renderQuery J h, hspecs]
  exact OrderedMap.entries_ofList (hn.sublist (Assoc.keys_present_sublist _))

/-- **A parameter that is rendered is read back.** -/
theorem get?_renderQuery {k : String} {v : Option String} (hmem : (k, v) ∈ specs) :
    (query J (renderQuery q)).get? k = v := by
  rw [OrderedMap.get?, entries_renderQuery h hspecs hn]
  exact Assoc.get?_present hn hmem

theorem get?_renderQuery_other {k : String} (hk : k ∉ Assoc.keys specs) :
    (query J (renderQuery q)).get? k = none := by
  rw [OrderedMap.get?, entries_renderQuery h hspecs hn]
  exact Assoc.get?_present_of_not_mem hk

end

theorem hash_not_mem_renderQuery (h : ∀ e ∈ q, plainKey e.1 = true) :
    '#' ∉ (renderQuery q).toList := by
  intro hmem
  rcases Text.mem_join rfl hmem with heq | ⟨s, hs, hc⟩
  · exact absurd heq (by decide)
  · obtain ⟨e, he, rfl⟩ := List.mem_map.mp hs
    have hp := h e he
    simp only [plainKey, Bool.and_eq_true, Bool.not_eq_true', Text.hasChar_eq_false_iff] at hp
    exact not_mem_param hp.2 (by decide) (by decide) (by decide) hc

end

/-! ## Links

The name is cut off first, then the scheme, the query and the credentials. Each cut is at the
first or at the last of its signs, and what is written keeps them out of the other parts. -/

/-- A link with a name is cut at the first `#`. -/
theorem split_named {scheme main name : String} (hscheme : ':' ∉ scheme.toList)
    (hmain : '#' ∉ main.toList) :
    split J (scheme ++ "://" ++ (main ++ "#" ++ enc name)) =
      (hostPort J (Text.substringAfterLast
        (Text.trimEnd (Text.substringBefore main '?') '/') '@')).map fun hp =>
        { user := if Text.hasChar (Text.trimEnd (Text.substringBefore main '?') '/') '@' then
            dec J (Text.substringBeforeLast
              (Text.trimEnd (Text.substringBefore main '?') '/') '@') else ""
          host := hp.1, port := hp.2
          q := if Text.hasChar main '?' then query J (Text.substringAfter main '?') else .empty
          name := Text.trim name } := by
  unfold split
  simp only [Text.substringAfterStr_append (d := "://") (c := ':') rfl hscheme,
    Text.hasChar_append_self (d := "#") (c := '#') rfl, if_true,
    Text.substringBefore_append (d := "#") (c := '#') rfl hmain,
    Text.substringAfter_append (d := "#") (c := '#') rfl hmain, UrlCodec.dec_enc]

/-- **A link of credentials, endpoint, query and name is cut into these parts.** -/
theorem split_link {scheme user endpoint q name : String} {d : Char}
    (hscheme : ':' ∉ scheme.toList) (hhash : '#' ∉ endpoint.toList)
    (hquest : '?' ∉ endpoint.toList) (hat : '@' ∉ endpoint.toList)
    (hlast : endpoint.toList.getLast? = some d) (hd : d ≠ '/') (hq : '#' ∉ q.toList) :
    split J (scheme ++ "://" ++ enc user ++ "@" ++ endpoint ++ "?" ++ q ++ "#" ++ enc name) =
      (hostPort J endpoint).map fun hp =>
        { user, host := hp.1, port := hp.2, q := query J q, name := Text.trim name } := by
  have hassoc : scheme ++ "://" ++ enc user ++ "@" ++ endpoint ++ "?" ++ q ++ "#" ++ enc name
      = scheme ++ "://" ++ (enc user ++ "@" ++ endpoint ++ "?" ++ q ++ "#" ++ enc name) := by
    simp only [String.append_assoc]
  -- encoding leaves no delimiter in the user
  have huser : ∀ c, UrlCodec.dontNeedEncoding c = false → c ≠ '%' → c ∉ (enc user).toList :=
    fun c h1 h2 => UrlCodec.not_mem_enc h1 h2
  have hcore : ∀ c, UrlCodec.dontNeedEncoding c = false → c ≠ '%' → c ≠ '@' →
      c ∉ endpoint.toList → c ∉ (enc user ++ "@" ++ endpoint).toList := by
    intro c h1 h2 h3 h4
    refine Text.not_mem_append (Text.not_mem_append (huser c h1 h2) ?_) h4
    intro hmem
    exact h3 (List.mem_singleton.mp hmem)
  -- so each delimiter of the link is found where it was put
  have hmain : '#' ∉ (enc user ++ "@" ++ endpoint ++ "?" ++ q).toList :=
    Text.not_mem_append (Text.not_mem_append (hcore _ (by decide) (by decide) (by decide) hhash)
      (by decide)) hq
  have hbefore : '?' ∉ (enc user ++ "@" ++ endpoint).toList :=
    hcore _ (by decide) (by decide) (by decide) hquest
  have htrim : Text.trimEnd (enc user ++ "@" ++ endpoint) '/' = enc user ++ "@" ++ endpoint := by
    apply Text.trimEnd_of_getLast?
    rw [String.toList_append, List.getLast?_append, hlast]
    simpa using hd
  rw [hassoc, split_named J hscheme hmain]
  simp only [Text.substringBefore_append (d := "?") (c := '?') rfl hbefore, htrim,
    Text.hasChar_append_self (d := "?") (c := '?') rfl,
    Text.hasChar_append_self (d := "@") (c := '@') rfl, if_true,
    Text.substringAfter_append (d := "?") (c := '?') rfl hbefore,
    Text.substringAfterLast_append (d := "@") (c := '@') rfl hat,
    Text.substringBeforeLast_append (d := "@") (c := '@') rfl hat, UrlCodec.dec_enc]

/-! ## Hosts and names once they were read

What a reader took from a link can be written again without harm: its host has none of the signs
that end one, and its name is what decoding has left, trimmed. -/

/-- A host that was cut out of a link. -/
structure CleanHost (host : String) : Prop where
  slash : '/' ∉ host.toList
  atSign : '@' ∉ host.toList
  bracket : host.toList.head? = some '[' → ']' ∉ host.toList

theorem cleanHost_of_hostPort {rest host : String} {port : Int32}
    (h : hostPort J (Text.substringAfterLast rest '@') = some (host, port)) :
    CleanHost host ∧ ∀ c ∈ host.toList, c ∈ rest.toList := by
  obtain ⟨hmem, hslash, hbracket⟩ := hostPort_spec J h
  have hafter : ∀ c ∈ host.toList, c ∈ Chars.afterLast '@' rest.toList := by
    intro c hc
    have := hmem c hc
    rwa [Text.substringAfterLast, String.toList_ofList] at this
  exact ⟨⟨hslash, fun hc => Chars.not_mem_afterLast '@' _ (hafter _ hc), hbracket⟩,
    fun c hc => Chars.mem_of_mem_afterLast (hafter c hc)⟩

theorem mem_of_mem_trimEnd {s : String} {c x : Char} (h : x ∈ (Text.trimEnd s c).toList) :
    x ∈ s.toList := by
  rw [Text.trimEnd, String.toList_ofList] at h
  exact (List.rdropWhile_prefix _ _).subset h

/-- What `split` cuts out: a clean host without the signs of a query or a name, and
a name with its whitespace trimmed. -/
theorem split_spec {link : String} {p : Parts} (h : split J link = some p) :
    CleanHost p.host ∧ '#' ∉ p.host.toList ∧ '?' ∉ p.host.toList
      ∧ Text.trim p.name = p.name := by
  unfold split at h
  dsimp only at h
  obtain ⟨⟨host, port⟩, hhp, rfl⟩ := Option.map_eq_some_iff.mp h
  obtain ⟨hclean, hmem⟩ := cleanHost_of_hostPort J hhp
  have hquery : ∀ c ∈ host.toList, c ∈ Chars.before '?'
      (Chars.before '#' (Text.substringAfterStr link "://").toList) := by
    intro c hc
    have := mem_of_mem_trimEnd (hmem c hc)
    rwa [Text.substringBefore, Text.substringBefore, String.toList_ofList,
      String.toList_ofList] at this
  refine ⟨hclean, ?_, ?_, ?_⟩
  · intro hc
    exact Chars.not_mem_before '#' _ (Chars.mem_of_mem_before (hquery _ hc))
  · intro hc
    exact Chars.not_mem_before '?' _ (hquery _ hc)
  · dsimp only
    split
    · exact Text.trim_trim _
    · rfl

/-- A name that was read, or put in its place, does not vanish when it is trimmed. -/
theorem trim_ifEmpty_ne {name fallback : String} {c : Char} (hname : Text.trim name = name)
    (hmem : c ∈ fallback.toList) (hc : Chars.isWhitespace c = false) :
    Text.trim (Text.ifEmpty name fallback) ≠ "" := by
  by_cases h : name = ""
  · rw [h, Text.ifEmpty_empty]
    exact Text.trim_ne_empty hmem hc
  · rw [Text.ifEmpty_of_ne h, hname]
    exact h

/-! ## Schemes

The readers compare schemes without regard to case. Two constants that differ in a letter differ
in every case, so a written link is taken by the reader of its own scheme. -/

/-- Two ASCII texts differ in some letter before either of them ends. -/
def differ : (p l : List Char) → Bool
  | a :: p, b :: l =>
      (decide (a.toNat < 128) && decide (b.toNat < 128) && b.toLower != a.toLower) || differ p l
  | _, _ => false

/-- Two constants that differ in a place do so in every case. -/
theorem startsIgnoreCase_of_differ {p l : List Char} (h : differ p l = true) (rest : List Char) :
    Text.startsIgnoreCase J p (l ++ rest) = false := by
  fun_induction differ p l with
  | case1 a p b l ih =>
    rw [List.cons_append, Text.startsIgnoreCase]
    rw [Bool.or_eq_true] at h
    rcases h with h | h
    · simp only [Bool.and_eq_true, decide_eq_true_eq, bne_iff_ne] at h
      rw [J.sameLetter_ascii b a h.1.2 h.1.1, decide_eq_false h.2, Bool.false_and]
    · rw [ih h, Bool.and_false]
  | case2 => cases h

/-- A text starts with its ASCII prefix in any case. -/
theorem startsIgnoreCase_append {p : List Char} (h : ∀ c ∈ p, c.toNat < 128) (rest : List Char) :
    Text.startsIgnoreCase J p (p ++ rest) = true := by
  induction p with
  | nil => rfl
  | cons a p ih =>
    have ha := h a (List.mem_cons_self ..)
    rw [List.cons_append, Text.startsIgnoreCase, J.sameLetter_ascii a a ha ha, decide_eq_true rfl,
      Bool.true_and, ih (fun c hc => h c (List.mem_cons_of_mem a hc))]

section
variable {scheme link rest : String}

/-- So a link is not taken for one of another scheme. -/
theorem starts_other (hl : link = scheme ++ rest) {p : String}
    (h : differ p.toList scheme.toList = true) : Text.startsWithIgnoreCase J link p = false := by
  rw [Text.startsWithIgnoreCase, hl, String.toList_append]
  exact startsIgnoreCase_of_differ J h _

theorem starts_own (hl : link = scheme ++ rest) {p : String} (hp : scheme = p)
    (h : p.toList.all (fun c => c.toNat < 128) = true) :
    Text.startsWithIgnoreCase J link p = true := by
  rw [Text.startsWithIgnoreCase, hl, String.toList_append, hp]
  exact startsIgnoreCase_append J (fun c hc => by simpa using List.all_eq_true.mp h c hc) _

end

end VlessCard.LinkParser
