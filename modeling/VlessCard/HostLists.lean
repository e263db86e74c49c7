/-
The lists of names and of addresses that a group of options of byedpi is for.

A file of names is read word by word, in small letters, and what is no name is left out. A request is for the
group if the name that it bears is in the list, or ends in one that is, behind a dot. The search goes by an order
in which a hyphen comes before the dot, and can miss where one name of the list ends in a hyphen and another one.
-/
import VlessCard.HttpHost
import VlessCard.Mpool
import VlessCard.Packets

set_option autoImplicit false

namespace VlessCard.HostLists

open Mpool PrefixOrder

/-! ## Reading a list

The loop goes over the bytes of a file once, and ends a word at a blank. A byte that cannot stand
in a host name makes the word count as nothing. -/

/-- `lower_char`: none where the source returns -1. -/
def lowerChar (signed : Bool) (cl : UInt8) : Option UInt8 :=
  if char signed cl < 65 then if char signed cl > 57 ∨ char signed cl < 45 then none else some cl
  else if char signed cl < 97 then if char signed cl > 90 then none else some (cl + 32)
  else if char signed cl > 122 then none
  else some cl

def isBlank (c : UInt8) : Bool := c = 32 || c = 10 || c = 13

/-- The loop of `parse_hosts`: what stands between `s` and `e`, and the rest of the buffer. The hosts of a list
carry nothing. -/
def hostsLoop (signed : Bool) (hdr : Mphdr Unit) (word : List UInt8) (drop : Bool) : List UInt8 → Option (Mphdr Unit)
  | [] =>
    if word = [] then some hdr
    else if drop then some hdr
    else (memAdd signed hdr word word.length ()).map Prod.snd
  | c :: rest =>
    if isBlank c = false then
      match lowerChar signed c with
      | none => hostsLoop signed hdr (word ++ [c]) true rest
      | some c' => hostsLoop signed hdr (word ++ [c']) drop rest
    else if word = [] then hostsLoop signed hdr [] drop rest
    else if drop then hostsLoop signed hdr [] false rest
    else (memAdd signed hdr word word.length ()).bind fun (_, hdr) => hostsLoop signed hdr [] false rest

/-- `parse_hosts`. -/
def parseHosts (signed : Bool) (hdr : Mphdr Unit) (buffer : List UInt8) : Option (Mphdr Unit) :=
  hostsLoop signed hdr [] false buffer

/-- Each file given for a group is read into the one list of the group. -/
def parseFiles (signed : Bool) : Mphdr Unit → List (List UInt8) → Option (Mphdr Unit)
  | hdr, [] => some hdr
  | hdr, data :: files => (parseHosts signed hdr data).bind fun hdr => parseFiles signed hdr files

/-! ## Looking a request up

The name of a request is that of a TLS hello or else that of an HTTP request. Its length is
passed on as it was found, and one that is negative stops the program. -/

/-- The name in a request, by `parse_tls` or else by `parse_http`: its length, and where it begins. -/
def requestHost (buffer : List UInt8) : Option (ℤ × Option ℕ) :=
  (Packets.parseTls buffer buffer.length).bind fun (len, host) =>
    if len = 0 then HttpHost.parseHttp buffer else some (len, some host)

/-- `check_host`; none where its assertion fails. -/
def checkHost (signed : Bool) (hosts : Mphdr Unit) (buffer : List UInt8) : Option Bool :=
  (requestHost buffer).bind fun (len, host) =>
    if len = 0 then some false
    else
      host.map fun host =>
        if len ≤ 0 then false
        else
          match memGet signed hosts (buffer.drop host) len.toNat with
          | none => false
          | some v => decide (v.len ≤ len.toNat)

/-- Where the name of a request ends, it ends within the request. -/
theorem requestHost_within (buffer : List UInt8) :
    ∃ len host, requestHost buffer = some (len, host) ∧ (host = none → len = 0) ∧
      ∀ start, host = some start → start + len ≤ buffer.length := by
  unfold requestHost
  obtain ⟨len, hs, htls, hle⟩ := Packets.exists_parseTls buffer
  rw [htls, Option.bind_some]
  by_cases hlen : len = 0
  · obtain ⟨hlen', hs', hhttp, hnone, hwithin⟩ := HttpHost.parseHttp_returns buffer
    refine ⟨hlen', hs', by simp only [hlen, if_true, hhttp], hnone, fun start hstart => ?_⟩
    obtain ⟨L, -, -, hend, -⟩ := hwithin start hstart
    have hlength := congrArg List.length L.buffer_eq
    have hname := L.length_name
    have hnewline : L.newline = L.pre.length + 6 + L.blanks + L.line.length := rfl
    simp only [List.length_append, List.length_cons, List.length_replicate] at hlength
    omega
  · refine ⟨len, some hs, by simp only [if_neg hlen], fun h => (by cases h), fun start hstart => ?_⟩
    obtain rfl := Option.some.inj hstart
    omega

/-! ## The names of a list

Names are compared from their ends, as bits of their bytes reversed, and a comparison stops where
one of them is used up and the other goes on with a dot. A hyphen is below the dot, which is
where the order of the tree fails. -/

/-- What the words of a file are read as, but for those that are nothing. -/
def entries {γ : Type} (read : List UInt8 → Option γ) (buffer : List UInt8) : List γ :=
  ((buffer.splitOnP isBlank).filter (· ≠ [])).filterMap read

/-- The names in a file, in small letters. -/
def names (signed : Bool) (buffer : List UInt8) : List (List UInt8) :=
  entries (fun word => word.mapM (lowerChar signed)) buffer

/-- A name is listed where it or what it ends in behind a dot is. -/
def Listed (all : List (List UInt8)) (name : List UInt8) : Prop :=
  ∃ p ∈ all, p = name ∨ ∃ r, name = r ++ 46 :: p

/-- The key of a name. -/
def key (name : List UInt8) : Key := ⟨.host, name.length, name⟩

/-- The key of a name has all the bits that it says. -/
theorem key_fits (name : List UInt8) : (key name).Fits := by
  simp [Key.Fits, key]

theorem list_key (signed : Bool) (name : List UInt8) : (key name).list signed = (name.map (char signed)).reverse := by
  simp [Key.list, key]

/-- The dot is a dot, whether `char` has a sign or not. -/
theorem char_dot (signed : Bool) (c : UInt8) : char signed c = 46 ↔ c = 46 := by
  rw [show (46 : ℤ) = char signed 46 by cases signed <;> rfl]
  exact (char_injective signed).eq_iff

/-- What the comparison of names takes as the same, read from the front. -/
theorem covers_key_iff (signed : Bool) (p name : List UInt8) :
    Covers (Stop .host) ((key p).list signed) ((key name).list signed) ↔ p = name ∨ ∃ r, name = r ++ 46 :: p := by
  rw [list_key, list_key]
  refine or_congr ?_ ?_
  · rw [List.reverse_inj, (List.map_injective_iff.2 (char_injective signed)).eq_iff]
  · constructor
    · rintro ⟨c, r, hc, h⟩
      have hrev : name.map (char signed) = r.reverse ++ c :: p.map (char signed) := by
        rw [← List.reverse_inj, h]
        simp
      obtain ⟨front, tail, rfl, -, htail⟩ := List.map_eq_append_iff.1 hrev
      obtain ⟨d, q, rfl, hd, hq⟩ := List.map_eq_cons_iff.1 htail
      refine ⟨front, ?_⟩
      rw [(char_dot signed d).1 (hd.trans (hc rfl)), List.map_injective_iff.2 (char_injective signed) hq]
    · rintro ⟨r, rfl⟩
      refine ⟨46, (r.map (char signed)).reverse, fun _ => rfl, ?_⟩
      simp [(char_dot signed 46).2 rfl]

/-- A sign of a host name is a hyphen or above. -/
theorem lowerChar_ge {signed : Bool} {cl c : UInt8} (h : lowerChar signed cl = some c) : 45 ≤ char signed c := by
  unfold lowerChar at h
  split_ifs at h with h1 h2 h3 h4 h5
  · obtain rfl := Option.some.inj h
    omega
  · obtain rfl := Option.some.inj h
    -- only the bytes from `A` to `Z` come here, and they grow
    have hle : cl.toNat ≤ 90 := by
      have hcl := cl.toNat_lt
      unfold char at h1 h3 h4
      split_ifs at h1 h3 h4 <;> omega
    have hge : 65 ≤ cl.toNat := by
      unfold char at h1
      split_ifs at h1 <;> omega
    have hadd : (cl + 32).toNat = cl.toNat + 32 := by
      rw [UInt8.toNat_add, show (32 : UInt8).toNat = 32 from rfl]
      omega
    unfold char
    rw [hadd]
    split_ifs <;> omega
  · obtain rfl := Option.some.inj h
    omega

theorem names_char_ge {signed : Bool} {buffer name : List UInt8} (h : name ∈ names signed buffer) :
    ∀ c ∈ name, 45 ≤ char signed c := by
  obtain ⟨word, -, hword⟩ := List.mem_filterMap.1 h
  clear h
  induction word generalizing name with
  | nil =>
    cases hword
    exact fun c hc => absurd hc List.not_mem_nil
  | cons cl word ih =>
    rw [List.mapM_cons] at hword
    cases hcl : lowerChar signed cl with
    | none =>
      rw [hcl] at hword
      cases hword
    | some c =>
      cases hrest : word.mapM (lowerChar signed) with
      | none =>
        rw [hcl, hrest] at hword
        cases hword
      | some rest =>
        rw [hcl, hrest] at hword
        obtain rfl := Option.some.inj hword
        exact List.forall_mem_cons.2 ⟨lowerChar_ge hcl, ih hrest⟩

/-- Only the hyphen is below the dot. -/
theorem clear_names {signed : Bool} {all : List (List UInt8)} (hchars : ∀ p ∈ all, ∀ c ∈ p, 45 ≤ char signed c)
    (hhyphen : ∀ p ∈ all, ∀ r, r ++ 45 :: p ∉ all) : Clear (Stop .host) ((all.map key).map (Key.list signed)) := by
  intro k hk c r d hkr hd hc
  rw [List.map_map] at hk hkr
  obtain ⟨p, hp, rfl⟩ := List.mem_map.1 hk
  obtain ⟨q, hq, hqeq⟩ := List.mem_map.1 hkr
  simp only [Function.comp_apply, list_key] at hqeq
  obtain rfl : d = 46 := hd rfl
  by_contra hle
  have hrev : q.map (char signed) = r.reverse ++ c :: p.map (char signed) := by
    rw [← List.reverse_inj, hqeq]
    simp
  obtain ⟨front, tail, rfl, -, htail⟩ := List.map_eq_append_iff.1 hrev
  obtain ⟨b, q, rfl, hb, hq'⟩ := List.map_eq_cons_iff.1 htail
  obtain rfl := List.map_injective_iff.2 (char_injective signed) hq'
  -- a character of a name that is below the dot can only be the hyphen
  have hge := hchars _ hq b (by simp)
  have hne : c ≠ 46 := fun h => hc fun _ => h
  have hb45 : char signed b = char signed 45 := by
    rw [hb, show char signed 45 = 45 by cases signed <;> rfl]
    omega
  obtain rfl := char_injective signed hb45
  exact hhyphen q hp front hq

/-! ## What a list holds

Reading a file adds its names one after the other to what the list of the group holds already.
What is said of the loop is said with the word that is being read, so that it can be proved along
the bytes. -/

section Entries

variable {γ : Type} (read : List UInt8 → Option γ)

/-- An empty file has no entries; the lemmas that follow read a file word by word. -/
theorem entries_nil : entries read [] = [] := rfl

/-- A last word without a blank behind it is an entry too. -/
theorem entries_word {raw : List UInt8} (hraw : ∀ c ∈ raw, isBlank c = false) (hne : raw ≠ []) :
    entries read raw = (read raw).toList := by
  unfold entries
  rw [List.splitOnP_eq_singleton hraw]
  cases hword : read raw <;> simp [hne, hword]

/-- A blank ends a word, and what is behind it is read by itself. -/
theorem entries_append (raw : List UInt8) {c : UInt8} (hc : isBlank c = true) (rest : List UInt8) :
    entries read (raw ++ c :: rest) = entries read raw ++ entries read rest := by
  unfold entries
  rw [List.splitOnP_append_cons raw rest hc, List.filter_append, List.filterMap_append]

theorem not_blank_snoc {raw : List UInt8} (hraw : ∀ c ∈ raw, isBlank c = false) {c : UInt8} (hc : isBlank c = false) :
    ∀ x ∈ raw ++ [c], isBlank x = false := by
  intro x hx
  rcases List.mem_append.1 hx with hx | hx
  · exact hraw x hx
  · rwa [List.mem_singleton.1 hx]

end Entries

/-- The list of a group holds the names `all`. -/
def HoldsNames (signed : Bool) (all : List (List UInt8)) (hdr : Mphdr Unit) : Prop :=
  hdr.cmp_type = .host ∧ Holds signed (all.map key) hdr

variable {signed : Bool} {all : List (List UInt8)} {hdr : Mphdr Unit}

/-- A name that is added is held, and none is lost that it does not cover. -/
theorem HoldsNames.memAdd (h : HoldsNames signed all hdr) (word : List UInt8) :
    ∃ v hdr', Mpool.memAdd signed hdr word word.length () = some (v, hdr') ∧ HoldsNames signed (all ++ [word]) hdr' := by
  obtain ⟨htype, hholds⟩ := h
  have hkey : (⟨hdr.cmp_type, word.length, word⟩ : Key) = key word := by rw [htype, key]
  obtain ⟨v, hdr', hadd, hsame, hholds'⟩ := hholds.memAdd word word.length () (by rw [hkey]; exact key_fits word)
  refine ⟨v, hdr', hadd, hsame.trans htype, ?_⟩
  rw [hkey] at hholds'
  rwa [List.map_append]

/-- The loop reads names, `raw` being what stands between `s` and `e` in the file. -/
theorem hostsLoop_names (buffer raw word : List UInt8) (drop : Bool) (h : HoldsNames signed all hdr)
    (hraw : ∀ c ∈ raw, isBlank c = false) (hlen : word.length = raw.length)
    (hword : raw.mapM (lowerChar signed) = if drop then none else some word) :
    ∃ hdr', hostsLoop signed hdr word drop buffer = some hdr'
      ∧ HoldsNames signed (all ++ names signed (raw ++ buffer)) hdr' := by
  -- the word is empty exactly where nothing of it was read
  have hempty : word = [] ↔ raw = [] := by rw [← List.length_eq_zero_iff, hlen, List.length_eq_zero_iff]
  induction buffer generalizing raw word drop all hdr with
  | nil =>
    rw [List.append_nil, hostsLoop]
    by_cases hnil : word = []
    · rw [if_pos hnil, hempty.1 hnil, names, entries_nil, List.append_nil]
      exact ⟨hdr, rfl, h⟩
    -- the last word has no blank behind it
    · rw [if_neg hnil, names, entries_word _ hraw (mt hempty.2 hnil), hword]
      cases drop with
      | true => exact ⟨hdr, rfl, by simpa using h⟩
      | false =>
        obtain ⟨v, hdr', hadd, hholds⟩ := h.memAdd word
        exact ⟨hdr', by simp [hadd], by simpa using hholds⟩
  | cons c rest ih =>
    rw [hostsLoop]
    by_cases hblank : isBlank c = false
    · -- the word goes on, if only to be dropped at its end
      rw [if_pos hblank, show raw ++ c :: rest = raw ++ [c] ++ rest by simp]
      have hraw' := not_blank_snoc hraw hblank
      cases hc : lowerChar signed c with
      | none =>
        refine ih _ _ _ h hraw' (by simp [hlen]) ?_ (by simp)
        cases drop <;> simp [List.mapM_append, hword, hc]
      | some c' =>
        refine ih _ _ _ h hraw' (by simp [hlen]) ?_ (by simp)
        cases drop <;> simp [List.mapM_append, hword, hc]
    · -- the word ends here; an empty one is passed over
      rw [if_neg hblank, names, entries_append _ raw (by simpa using hblank)]
      by_cases hnil : word = []
      · obtain rfl := hempty.1 hnil
        have hdrop : drop = false := by
          cases drop
          · rfl
          · cases hword
        rw [if_pos hnil, hdrop, entries_nil, List.nil_append]
        exact ih _ _ _ h hraw rfl rfl Iff.rfl
      -- a word with a sign that no name has is dropped as a whole
      · rw [if_neg hnil, entries_word _ hraw (mt hempty.2 hnil), hword]
        cases drop with
        | true => exact ih [] [] false h (by simp) rfl rfl Iff.rfl
        | false =>
          obtain ⟨v, hdr', hadd, hholds⟩ := h.memAdd word
          obtain ⟨hdr'', hloop, hholds'⟩ := ih [] [] false hholds (by simp) rfl rfl Iff.rfl
          refine ⟨hdr'', ?_, by simpa [names] using hholds'⟩
          simp [hadd, hloop]

/-- So are the names of all files, by induction over them. -/
theorem parseFiles_names (files : List (List UInt8)) (h : HoldsNames signed all hdr) :
    ∃ hdr', parseFiles signed hdr files = some hdr' ∧ HoldsNames signed (all ++ files.flatMap (names signed)) hdr' := by
  induction files generalizing all hdr with
  | nil => exact ⟨hdr, rfl, by simpa using h⟩
  | cons data files ih =>
    obtain ⟨hdr', hparse, hholds⟩ := hostsLoop_names data [] [] false h (by simp) rfl rfl
    obtain ⟨hdr'', hfiles, hholds'⟩ := ih hholds
    refine ⟨hdr'', ?_, by simpa using hholds'⟩
    rw [parseFiles, parseHosts, hparse, Option.bind_some, hfiles]

/-! ## The lists at work

A request is for the group when its name or an ending of it at a dot is listed. The search of the
tree finds it, as long as no name of the lists has a hyphen where the order would mislead it. -/

/-- The pool that is started with holds none. -/
theorem memPool_names (signed : Bool) : HoldsNames signed [] (memPool .host) := ⟨rfl, memPool_holds signed (by decide)⟩

/-- A host is listed exactly when a name of the lists is a suffix of it at a dot, or all of it. -/
theorem HoldsNames.listed_iff (h : HoldsNames signed all hdr) (hchars : ∀ p ∈ all, ∀ c ∈ p, 45 ≤ char signed c)
    (hhyphen : ∀ p ∈ all, ∀ r, r ++ 45 :: p ∉ all) {str : List UInt8} {len : ℕ} (hlen : len ≤ str.length) :
    (∃ v, memGet signed hdr str len = some v ∧ v.len ≤ len) ↔ Listed all (str.take len) := by
  obtain ⟨htype, hholds⟩ := h
  have hclear := clear_names hchars hhyphen
  rw [← htype] at hclear
  rw [hholds.get_le_iff hclear (by rw [Key.Fits, htype]; exact hlen), htype]
  have hlist : Key.list signed ⟨.host, len, str⟩ = (key (str.take len)).list signed := by
    rw [list_key]
    rfl
  rw [hlist]
  simp only [List.mem_map, exists_exists_and_eq_and, covers_key_iff, Listed]

/-- A request is for the group exactly where the name that it bears is listed, if no name of the list ends in a
hyphen and another one. -/
theorem checkHost_iff (signed : Bool) (files : List (List UInt8))
    (hhyphen : ∀ p ∈ files.flatMap (names signed), ∀ r, r ++ 45 :: p ∉ files.flatMap (names signed)) :
    ∃ hosts, parseFiles signed (memPool .host) files = some hosts ∧
      ∀ buffer, ∃ hit, checkHost signed hosts buffer = some hit ∧
        (hit = true ↔ ∃ len host, requestHost buffer = some (len, some host) ∧ 0 < len ∧
          Listed (files.flatMap (names signed)) ((buffer.drop host).take len.toNat)) := by
  obtain ⟨hosts, hparse, hnames⟩ := parseFiles_names files (memPool_names signed)
  rw [List.nil_append] at hnames
  have hchars : ∀ p ∈ files.flatMap (names signed), ∀ c ∈ p, 45 ≤ char signed c := by
    intro p hp
    obtain ⟨data, -, hp⟩ := List.mem_flatMap.1 hp
    exact names_char_ge hp
  refine ⟨hosts, hparse, fun buffer => ?_⟩
  obtain ⟨len, host, hrequest, hnone, hwithin⟩ := requestHost_within buffer
  unfold checkHost
  rw [hrequest, Option.bind_some]
  -- no host is found where its length is zero
  by_cases hzero : len = 0
  · refine ⟨false, if_pos hzero, iff_of_false (by decide) ?_⟩
    rintro ⟨len', host', hsome, hpos, -⟩
    cases hsome
    omega
  · cases host with
    | none => exact absurd (hnone rfl) hzero
    | some host =>
      simp only [if_neg hzero, Option.map_some, Option.some.injEq, Prod.mk.injEq]
      -- or negative, as `parse_http` gives it in two cases
      by_cases hneg : len ≤ 0
      · refine ⟨false, by rw [if_pos hneg], iff_of_false (by decide) ?_⟩
        rintro ⟨len', host', ⟨rfl, -⟩, hpos, -⟩
        omega
      · rw [if_neg hneg]
        -- the host is within the packet, so the comparison reads nothing behind it
        have hlen : len.toNat ≤ (buffer.drop host).length := by
          have := hwithin host rfl
          rw [List.length_drop]
          omega
        have hlisted := hnames.listed_iff hchars hhyphen hlen
        refine ⟨_, rfl, ?_⟩
        have hgoal : (∃ len' host', (len = len' ∧ host = host') ∧ 0 < len' ∧
            Listed (files.flatMap (names signed)) ((buffer.drop host').take len'.toNat)) ↔
            Listed (files.flatMap (names signed)) ((buffer.drop host).take len.toNat) := by
          constructor
          · rintro ⟨_, _, ⟨rfl, rfl⟩, -, h⟩
            exact h
          · exact fun h => ⟨len, host, ⟨rfl, rfl⟩, by omega, h⟩
        rw [hgoal, ← hlisted]
        cases hget : memGet signed hosts (buffer.drop host) len.toNat <;> simp

/-- Two names, one in mixed case and one with a hyphen. -/
theorem checkHost_iff_plain :
    ∃ hosts, parseFiles true (memPool .host) [HttpHost.ascii "Ya.ru\nmail-1.org"] = some hosts ∧
      ∀ buffer, ∃ hit, checkHost true hosts buffer = some hit ∧
        (hit = true ↔ ∃ len host, requestHost buffer = some (len, some host) ∧ 0 < len ∧
          Listed [HttpHost.ascii "ya.ru", HttpHost.ascii "mail-1.org"] ((buffer.drop host).take len.toNat)) := by
  have hnames : [HttpHost.ascii "Ya.ru\nmail-1.org"].flatMap (names true)
      = [HttpHost.ascii "ya.ru", HttpHost.ascii "mail-1.org"] := by decide
  have h := checkHost_iff true [HttpHost.ascii "Ya.ru\nmail-1.org"] (by
    rw [hnames]
    intro p hp r hr
    -- what stands behind the one hyphen is no name
    have hbehind : ∀ p ∈ [HttpHost.ascii "ya.ru", HttpHost.ascii "mail-1.org"],
        ∀ q ∈ [HttpHost.ascii "ya.ru", HttpHost.ascii "mail-1.org"], ¬ 45 :: p <:+ q := by decide
    exact hbehind p hp _ hr ⟨r, rfl⟩)
  rwa [hnames] at h

/-- The hyphen of the one name stands where the search looks for the dot of the other. -/
example :
    (parseFiles true (memPool .host) [HttpHost.ascii "my-site.com site.com"]).map (fun hosts =>
      (memGet true hosts (HttpHost.ascii "site.com") 8).isSome && (memGet true hosts (HttpHost.ascii "www.site.com") 12).isNone)
      = some true := by
  decide

/-! ## Addresses

A word is an address with a number of bits behind a slash, or without one. Ranges are rows of
bits, and here no row goes on below another, so the search is right for all of them. -/

/-- `inet_pton`, for either family, and `strtol` of the C library. -/
structure CLib where
  inet4 : List UInt8 → Option (List UInt8)
  inet6 : List UInt8 → Option (List UInt8)
  strtol : List UInt8 → ℤ

section Addresses

variable (c : CLib) (signed : Bool)

/-- `bits` as `parse_ip` first has it: what stands behind a slash. -/
def bitsBehind (str : List UInt8) : ℤ :=
  match str.findIdx? (· = 47) with
  | none => 0
  | some sep => c.strtol (str.drop (sep + 1))

/-- `bits` as `parse_ip` returns it. -/
def bitsOfIp (bits : ℤ) (ip : List UInt8) : ℕ :=
  if bits = 0 ∨ bits > (ip.length * 8 : ℕ) then ip.length * 8 else bits.toNat

/-- `parse_ip`: the bytes of an address and how many bits of them count. -/
def parseIp (str : List UInt8) : Option (List UInt8 × ℕ) :=
  let sep := str.findIdx? (· = 47)
  if sep.isSome = true ∧ bitsBehind c str ≤ 0 then none
  else
    let addr := str.take (sep.getD str.length)
    ((c.inet4 addr).or (c.inet6 addr)).map fun ip => (ip, bitsOfIp (bitsBehind c str) ip)

/-- What `parse_ipset` does with a word. -/
def ipsetWord (hdr : Mphdr Unit) (word : List UInt8) : Option (Mphdr Unit) :=
  match parseIp c word with
  | none => some hdr
  | some (ip, bits) =>
    let len := bits / 8 + if bits % 8 ≠ 0 then 1 else 0
    (memAdd signed hdr (ip.take len) bits ()).map Prod.snd

/-- The loop of `parse_ipset`. -/
def ipsetLoop (hdr : Mphdr Unit) (word : List UInt8) : List UInt8 → Option (Mphdr Unit)
  | [] => if word = [] then some hdr else ipsetWord c signed hdr word
  | b :: rest =>
    if isBlank b = false then ipsetLoop hdr (word ++ [b]) rest
    else if word = [] then ipsetLoop hdr [] rest
    else (ipsetWord c signed hdr word).bind fun hdr => ipsetLoop hdr [] rest

/-- `parse_ipset`, for each file that is given for a group. -/
def parseIpsets : Mphdr Unit → List (List UInt8) → Option (Mphdr Unit)
  | hdr, [] => some hdr
  | hdr, data :: files => (ipsetLoop c signed hdr [] data).bind fun hdr => parseIpsets hdr files

/-- `check_ip`, with `data` the bytes of the address. -/
def checkIp (ipset : Mphdr Unit) (data : List UInt8) : Bool := (memGet signed ipset data (data.length * 8)).isSome

/-- The bits of bytes. -/
def rowBits (data : List UInt8) : List ℤ := data.flatMap fun b => bitsOf 8 b.toNat

/-- The key of a range. -/
def rangeKey (range : List UInt8 × ℕ) : Key :=
  ⟨.bits, range.2, range.1.take (range.2 / 8 + if range.2 % 8 ≠ 0 then 1 else 0)⟩

variable {c signed}

/-- A range has no more bits than its address. -/
theorem parseIp_bits {str ip : List UInt8} {bits : ℕ} (h : parseIp c str = some (ip, bits)) : bits ≤ 8 * ip.length := by
  unfold parseIp at h
  simp only at h
  split at h
  · cases h
  · obtain ⟨ip', -, hip⟩ := Option.map_eq_some_iff.1 h
    obtain ⟨rfl, rfl⟩ := Prod.mk.inj hip
    unfold bitsOfIp
    split <;> omega

/-- A range has no more bits than its address. -/
theorem rangeKey_fits {ip : List UInt8} {bits : ℕ} (h : bits ≤ 8 * ip.length) : (rangeKey (ip, bits)).Fits := by
  simp only [Key.Fits, rangeKey, reduceCtorEq, if_false, List.length_take]
  split_ifs <;> omega

/-- Ranges are compared by the bits that count. -/
theorem list_rangeKey {ip : List UInt8} {bits : ℕ} (h : bits ≤ 8 * ip.length) :
    (rangeKey (ip, bits)).list signed = (rowBits ip).take bits := by
  have hwhole : rowBits ip = rowBits (ip.take (bits / 8 + if bits % 8 ≠ 0 then 1 else 0))
      ++ rowBits (ip.drop (bits / 8 + if bits % 8 ≠ 0 then 1 else 0)) := by
    rw [rowBits, rowBits, rowBits, ← List.flatMap_append, List.take_append_drop]
  have hlen := length_rowBits (ip.take (bits / 8 + if bits % 8 ≠ 0 then 1 else 0))
  rw [List.length_take] at hlen
  rw [hwhole, List.take_append_of_le_length]
  · rfl
  · rw [rowBits, hlen]
    split_ifs <;> omega

/-- The list of a group holds the ranges `all`. -/
def HoldsRanges (signed : Bool) (all : List (List UInt8 × ℕ)) (hdr : Mphdr Unit) : Prop :=
  hdr.cmp_type = .bits ∧ Holds signed (all.map rangeKey) hdr

theorem memPool_ranges (signed : Bool) : HoldsRanges signed [] (memPool .bits) := ⟨rfl, memPool_holds signed (by decide)⟩

/-- A word that is an address is held as a range, and any other leaves the pool as it is. -/
theorem HoldsRanges.word {all : List (List UInt8 × ℕ)} {hdr : Mphdr Unit} (h : HoldsRanges signed all hdr)
    (word : List UInt8) :
    ∃ hdr', ipsetWord c signed hdr word = some hdr' ∧ HoldsRanges signed (all ++ (parseIp c word).toList) hdr' := by
  obtain ⟨htype, hholds⟩ := h
  unfold ipsetWord
  cases hparse : parseIp c word with
  | none => exact ⟨hdr, rfl, htype, by simpa using hholds⟩
  | some range =>
    obtain ⟨ip, bits⟩ := range
    have hkey : (⟨hdr.cmp_type, bits, ip.take (bits / 8 + if bits % 8 ≠ 0 then 1 else 0)⟩ : Key) = rangeKey (ip, bits) := by
      rw [htype, rangeKey]
    obtain ⟨v, hdr', hadd, hsame, hholds'⟩ := hholds.memAdd (ip.take (bits / 8 + if bits % 8 ≠ 0 then 1 else 0)) bits ()
      (by rw [hkey]; exact rangeKey_fits (parseIp_bits hparse))
    refine ⟨hdr', by simp only [hadd, Option.map_some], hsame.trans htype, ?_⟩
    rw [hkey] at hholds'
    rwa [Option.toList_some, List.map_append]

theorem ipsetLoop_ranges (buffer word : List UInt8) {all : List (List UInt8 × ℕ)} {hdr : Mphdr Unit}
    (h : HoldsRanges signed all hdr) (hword : ∀ b ∈ word, isBlank b = false) :
    ∃ hdr', ipsetLoop c signed hdr word buffer = some hdr'
      ∧ HoldsRanges signed (all ++ entries (parseIp c) (word ++ buffer)) hdr' := by
  induction buffer generalizing word all hdr with
  | nil =>
    rw [List.append_nil, ipsetLoop]
    by_cases hnil : word = []
    · rw [if_pos hnil, hnil, entries_nil, List.append_nil]
      exact ⟨hdr, rfl, h⟩
    · rw [if_neg hnil, entries_word _ hword hnil]
      exact h.word word
  | cons b rest ih =>
    rw [ipsetLoop]
    by_cases hblank : isBlank b = false
    · rw [if_pos hblank, show word ++ b :: rest = word ++ [b] ++ rest by simp]
      exact ih _ h (not_blank_snoc hword hblank)
    · rw [if_neg hblank, entries_append _ word (by simpa using hblank)]
      by_cases hnil : word = []
      · rw [if_pos hnil, hnil, entries_nil, List.nil_append]
        exact ih [] h (by simp)
      · obtain ⟨hdr', hwd, hholds⟩ := h.word (c := c) word
        obtain ⟨hdr'', hloop, hholds'⟩ := ih [] hholds (by simp)
        rw [if_neg hnil, hwd, Option.bind_some, entries_word _ hword hnil]
        exact ⟨hdr'', hloop, by simpa using hholds'⟩

theorem parseIpsets_ranges (files : List (List UInt8)) {all : List (List UInt8 × ℕ)} {hdr : Mphdr Unit}
    (h : HoldsRanges signed all hdr) :
    ∃ hdr', parseIpsets c signed hdr files = some hdr'
      ∧ HoldsRanges signed (all ++ files.flatMap (entries (parseIp c))) hdr' := by
  induction files generalizing all hdr with
  | nil => exact ⟨hdr, rfl, by simpa using h⟩
  | cons data files ih =>
    obtain ⟨hdr', hparse, hholds⟩ := ipsetLoop_ranges (c := c) data [] h (by simp)
    obtain ⟨hdr'', hfiles, hholds'⟩ := ih hholds
    refine ⟨hdr'', ?_, by simpa using hholds'⟩
    rw [parseIpsets, hparse, Option.bind_some, hfiles]

variable (c signed)

/-- An address is for the group exactly where a range begins it, or it begins a range; of which family the two are
is not looked at. -/
theorem checkIp_iff (files : List (List UInt8)) :
    ∃ ipset, parseIpsets c signed (memPool .bits) files = some ipset ∧
      ∀ data, checkIp signed ipset data = true ↔
        ∃ range ∈ files.flatMap (entries (parseIp c)),
          (rowBits range.1).take range.2 <+: rowBits data ∨ rowBits data <+: (rowBits range.1).take range.2 := by
  obtain ⟨ipset, hparse, htype, hholds⟩ := parseIpsets_ranges (c := c) files (memPool_ranges signed)
  refine ⟨ipset, hparse, fun data => ?_⟩
  have hfits : (⟨ipset.cmp_type, data.length * 8, data⟩ : Key).Fits := by
    simp only [Key.Fits, htype, reduceCtorEq, if_false]
    exact (Nat.mul_comm ..).le
  have hlist : Key.list signed ⟨ipset.cmp_type, data.length * 8, data⟩ = rowBits data := by
    rw [htype]
    exact List.take_of_length_le (by rw [length_rowBits, Nat.mul_comm])
  have hstop : ∀ b, Stop CmpType.bits b := fun b hb => absurd hb (by decide)
  rw [checkIp, hholds.get_iff htype hfits, hlist, htype, List.nil_append]
  simp only [List.mem_map, order_eq_iff, covers_iff_begins hstop]
  constructor
  · rintro ⟨_, ⟨⟨ip, bits⟩, hrange, rfl⟩, h⟩
    obtain ⟨data', -, hentry⟩ := List.mem_flatMap.1 hrange
    obtain ⟨word, -, hword⟩ := List.mem_filterMap.1 hentry
    rw [list_rangeKey (parseIp_bits hword)] at h
    exact ⟨(ip, bits), hrange, h⟩
  · rintro ⟨⟨ip, bits⟩, hrange, h⟩
    obtain ⟨data', -, hentry⟩ := List.mem_flatMap.1 hrange
    obtain ⟨word, -, hword⟩ := List.mem_filterMap.1 hentry
    refine ⟨rangeKey (ip, bits), ⟨(ip, bits), hrange, rfl⟩, ?_⟩
    rw [list_rangeKey (parseIp_bits hword)]
    exact h

/-- 32.1.13.184 is for the group that `2001:db8::/32` is given for. -/
example :
    (memAdd true (memPool .bits) [0x20, 0x01, 0x0d, 0xb8] 32 ()).map (fun (_, ipset) => checkIp true ipset [32, 1, 13, 184])
      = some true := by
  decide

end Addresses

end VlessCard.HostLists
