/-
`ByeDpiArgs.kt`, `Dpi.kt`: strategies of the local DPI engines and the command
line they become.

Only desync options may reach the native program; where it listens, which files
it opens and whether it daemonizes stay with the app. A strategy comes from the
built-in table, from a line the user typed (which `ByeDpiArgs.parse` checks), or
from an id that carries its arguments (`EVO#`, which nothing checks). `accepts` is
the grammar of permitted command lines and `rawAccepts` the same for the stored
arguments, before the mask domain is filled in; the two agree for every mask, so
what a strategy passes on is decided by what it stores.
-/
import VlessCard.Settings

set_option autoImplicit false

namespace VlessCard

/-! ## `ByeDpiArgs`

The parser of the user's line, word by word, as the source has it. It takes the options of a
table only, checks each value and writes every option in its long form. -/

namespace ByeDpiArgs

def DEFAULT_MASK : String := "ya.ru"

def SNI_PLACEHOLDER : String := "\x7bsni\x7d"

def MAX_LENGTH : ℕ := 1024

/-- `[a-z0-9?#*]`. -/
def isMaskChar (c : Char) : Bool := c.isLower || c.isDigit || c = '?' || c = '#' || c = '*'

/-- One label of `maskRegex`. -/
def isMaskLabel (l : List Char) : Bool :=
  decide (1 ≤ l.length ∧ l.length ≤ 63) && l.all (fun c => isMaskChar c || c = '-')
    && (l.head?.any isMaskChar) && (l.getLast?.any isMaskChar)

/-- `maskRegex.matches`: at least two labels. -/
def maskRegex (v : String) : Bool :=
  let labels := v.toList.splitOn '.'
  decide (2 ≤ labels.length) && labels.all isMaskLabel

section
variable (U : Jvm)

/-- The fake SNI: a domain name pattern, or the default one. -/
def maskDomain (value : String) : String :=
  let v := U.lowercase (Text.trim value)
  if (3 ≤ Text.length v ∧ Text.length v ≤ 253) ∧ maskRegex v then v else DEFAULT_MASK

/-- The desync options: long name, short letter, whether a value follows. -/
def allowedTable : List (String × Char × Bool) :=
  [("split", 's', true), ("disorder", 'd', true), ("oob", 'o', true), ("disoob", 'q', true),
    ("fake", 'f', true), ("md5sig", 'S', false), ("fake-sni", 'n', true), ("ttl", 't', true),
    ("fake-offset", 'O', true), ("fake-tls-mod", 'Q', true), ("fake-data", 'l', true),
    ("oob-data", 'e', true), ("mod-http", 'M', true), ("tlsrec", 'r', true),
    ("tlsminor", 'm', true), ("udp-fake", 'a', true), ("def-ttl", 'g', true),
    ("drop-sack", 'Y', false), ("auto", 'A', true), ("auto-mode", 'L', true),
    ("cache-ttl", 'u', true), ("timeout", 'T', true), ("proto", 'K', true),
    ("hosts", 'H', true), ("ipset", 'j', true), ("pf", 'V', true), ("round", 'R', true),
    ("tfo", 'F', false), ("no-udp", 'U', false), ("no-domain", 'N', false),
    ("buf-size", 'b', true), ("wait-send", 'Z', false)]

/-- `allowed[name]`: whether the option takes a value. -/
def allowed (name : String) : Option Bool :=
  (allowedTable.find? fun e => e.1 = name).map fun e => e.2.2

def byShort (c : Char) : Option String := (allowedTable.find? fun e => e.2.1 = c).map Prod.fst

/-- Options that may load a file: only the inline form is accepted. -/
def inlineOnly : List String := ["hosts", "ipset", "fake-data"]

/-- The state of `tokenize`: the current word, whether a quote opened it, the open
quote. -/
def tokenizeGo : List Char → Bool → Option Char → List Char → Option (List String)
  | cur, seen, none, [] => some (if seen ∨ cur ≠ [] then [.ofList cur] else [])
  | _, _, some _, [] => none
  | cur, seen, some q, ch :: rest =>
      if ch = q then tokenizeGo cur seen none rest else tokenizeGo (cur ++ [ch]) seen (some q) rest
  | cur, seen, none, ch :: rest =>
      if ch = '"' ∨ ch = '\'' then tokenizeGo cur true (some ch) rest
      else if Chars.isWhitespace ch then
        (tokenizeGo [] false none rest).map fun out =>
          if seen ∨ cur ≠ [] then .ofList cur :: out else out
      else tokenizeGo (cur ++ [ch]) seen none rest

/-- `tokenize`; `none` is an unclosed quote. -/
def tokenize (line : String) : Option (List String) := tokenizeGo [] false none line.toList

/-- `isISOControl`. -/
def isISOControl (c : Char) : Bool := c.toNat ≤ 0x1F || (0x7F ≤ c.toNat && c.toNat ≤ 0x9F)

/-- A value may be passed to the option. -/
def okValue (name v : String) : Bool := name ∉ inlineOnly || Text.startsWith v ":"

/-- The local `value`: the mask domain filled in, then the checks. -/
def value (domain name raw : String) : Option String :=
  let v := Text.replace raw SNI_PLACEHOLDER domain
  if v ≠ "" ∧ Text.length v ≤ 256 ∧ !v.toList.any isISOControl ∧ okValue name v then some v
  else none

/-- The local `add` up to the value of the next word: what is written, and the
option that still waits for its value. -/
def add (domain name : String) (inline : Option String) : Option (List String × Option String) :=
  match allowed name, inline with
  | none, _ => none
  | some false, some _ => none
  | some false, none => some (["--" ++ name], none)
  | some true, some raw => (value domain name raw).map fun v => (["--" ++ name, v], none)
  | some true, none => some (["--" ++ name], some name)

/-- The letters of one short word; an option with a value takes the rest of it. -/
def shortGo (domain : String) : List Char → Option (List String × Option String)
  | [] => some ([], none)
  | c :: rest => do
      let name ← byShort c
      if allowed name = some true then
        add domain name (if rest = [] then none else some (.ofList rest))
      else
        let (out, _) ← add domain name none
        let (more, pending) ← shortGo domain rest
        return (out ++ more, pending)

/-- One word that is not the value of an option. -/
def word (domain t : String) : Option (List String × Option String) :=
  if Text.startsWith t "--" then
    let body := Text.removePrefix t "--"
    add domain (Text.substringBefore body '=')
      (if Text.hasChar body '=' then some (Text.substringAfter body '=') else none)
  else if Text.startsWith t "-" ∧ 2 ≤ t.toList.length then shortGo domain t.toList.tail
  else none

/-- The loop over the words; `pending` is the option whose value comes next. -/
def parseGo (domain : String) : Option String → List String → Option (List String)
  | none, [] => some []
  | some _, [] => none
  | some name, raw :: rest => do
      let v ← value domain name raw
      let out ← parseGo domain none rest
      return v :: out
  | none, t :: rest => do
      let (out, pending) ← word domain t
      let more ← parseGo domain pending rest
      return out ++ more

/-- At least one of these makes a strategy. -/
def tricks : List String :=
  ["--split", "--disorder", "--oob", "--disoob", "--fake", "--tlsrec", "--mod-http", "--tlsminor",
    "--udp-fake"]

/-- `ByeDpiArgs.parse`: the user's line as long options; `none` is a refusal. -/
def parse (line mask : String) : Option (List String) := do
  guard (Text.length line ≤ MAX_LENGTH)
  let domain := maskDomain U mask
  let tokens ← tokenize (Text.trim (Text.removePrefix (Text.removePrefix (Text.trim line) "ciadpi")
    "byedpi"))
  guard (tokens ≠ [])
  let out ← parseGo domain none tokens
  guard (out.any fun t => t ∈ tricks)
  return out

end

/-- The options the app adds itself; `none` for a port out of range. -/
def loopbackPrefix (port : ℤ) : Option (List String) :=
  if 1024 ≤ port ∧ port ≤ 65535 then
    some ["--ip", "127.0.0.1", "--port", toString port, "--max-conn", "128", "--timeout", "4"]
  else none

/-! ### The grammar of permitted command lines

What may stand on the command line is said a second time, without the parser: options of the
table, each followed by its value where it takes one. This is what the native program will read,
so it is what the results below speak of. -/

/-- What follows the dashes of an option word: `none` when it is not permitted, else
the option that waits for its value in the next word, if any. -/
def optionBody (body : String) : Option (Option String) :=
  (allowed (Text.substringBefore body '=')).bind fun takes =>
    if Text.hasChar body '=' then
      if okValue (Text.substringBefore body '=') (Text.substringAfter body '=') then some none
      else none
    else some (if takes then some (Text.substringBefore body '=') else none)

/-- One option word. -/
def option (t : String) : Option (Option String) :=
  if Text.startsWith t "--" then optionBody (Text.removePrefix t "--") else none

/-- The words decompose into permitted options, each followed by its value when it
takes one; `pending` is the option whose value comes next. -/
def accepts : Option String → List String → Bool
  | none, [] => true
  | some _, [] => false
  | some name, v :: rest => okValue name v && accepts none rest
  | none, t :: rest =>
      match option t with
      | some pending => accepts pending rest
      | none => false

end ByeDpiArgs

/-! ## Strategies

Strategies come built in, from the user's line, or as the arguments an imported id carries. The
last kind is decoded without a look at what the arguments are. -/

inductive DpiEngine where
  | BYEDPI | TPWS | XRAY
deriving DecidableEq

/-- One desync strategy. -/
structure DpiStrategy where
  id : String
  engine : DpiEngine
  args : List String
deriving DecidableEq

namespace DpiStrategies

def CUSTOM_ID : String := "custom"

/-- Stands for several fake names, the user's first. -/
def MASK_POOL : String := "\x7bmask_pool\x7d"

def POOL : List String :=
  ["ya.ru", "vk.com", "yandex.ru", "vkvideo.ru", "gosuslugi.ru", "ozon.ru", "mail.ru"]

def maskPool (U : Jvm) (userMask : String) : List String :=
  (ByeDpiArgs.maskDomain U userMask :: POOL).eraseDups

def bye (id : String) (a : List String) : DpiStrategy := ⟨"BYEDPI#" ++ id, .BYEDPI, a⟩

def tpws (id : String) (a : List String) : DpiStrategy := ⟨"TPWS#" ++ id, .TPWS, a⟩

def xr (id : String) (a : List String) : DpiStrategy := ⟨"XRAY#" ++ id, .XRAY, a⟩

def XRAY_LADDER : DpiStrategy :=
  xr "LADDER" ["packets=tlshello", "lengths=1-1,2-4,5-10,20-60", "delays=1-2,2-4,3-6,5-10"]

def CASCADE : DpiStrategy := bye "VCARD_CASCADE"
  ["--disorder", "1", "--tlsrec", "1+s",
    "--auto=torst,ssl_err", "--oob", "1", "--disorder", "1+s", "--tlsrec", "1+s",
    "--auto=torst,ssl_err", "--split", "1+s", "--disorder", "3+s", "--fake", "-1", "--ttl", "5",
    MASK_POOL, "--fake-tls-mod", "rand,orig", "--timeout", "3"]

def SHRED : DpiStrategy := bye "VCARD_SHRED" ["--disorder", "1", "--split", "2:4:3+s", "--tlsrec", "1+s"]

def STEALTH : DpiStrategy := bye "VCARD_STEALTH"
  ["--split", "1+s", "--disorder", "3+s", "--tlsrec", "1+s", "--auto=torst",
    "--fake", "-1", "--ttl", "6", "--fake-sni", ByeDpiArgs.SNI_PLACEHOLDER, "--fake-tls-mod",
    "rand,orig"]

def RECVER : DpiStrategy := bye "VCARD_RECVER" ["--tlsminor", "4", "--tlsrec", "1+s", "--disorder", "1"]

def HOST_SHRED : DpiStrategy := tpws "VCARD_SHRED"
  ["--tlsrec=sniext+1", "--split-pos=1,host,midsld,endhost-1", "--disorder"]

def BUILT_IN : List DpiStrategy :=
  [ bye "OOB_THEN_DISORDER" ["--oob", "1", "--auto=torst", "--disorder", "1"],
    CASCADE,
    bye "DISORDER" ["--disorder", "1"],
    tpws "SPLIT_DISORDER" ["--split-pos=1,midsld", "--disorder"],
    SHRED,
    bye "MULTI_DISORDER" ["--disorder", "1", "--split", "1+s", "--disorder", "3+s", "--split", "6+s",
      "--disorder", "9+s", "--split", "12+s"],
    STEALTH,
    HOST_SHRED,
    tpws "TLSREC" ["--tlsrec=sniext", "--split-pos=1,midsld"],
    RECVER,
    bye "SPLIT_DISORDER" ["--split", "1+s", "--disorder", "3+s"],
    bye "MASK_AUTO_FAKE" ["--disorder", "1", "--auto=torst", "--fake", "-1", "--ttl", "8",
      "--fake-sni", ByeDpiArgs.SNI_PLACEHOLDER, "--fake-tls-mod", "rand,orig"],
    bye "VK_ADAPTIVE" ["--disorder", "1", "--tlsrec", "1+s", "--auto=torst,ssl_err", "--fake", "-1",
      "--ttl", "8", "--fake-sni", "vk.com", "--fake-tls-mod", "rand,orig"],
    bye "YANDEX_ADAPTIVE" ["--split", "1+s", "--auto=torst,ssl_err", "--fake", "-1", "--ttl", "8",
      "--fake-sni", "yandex.ru", "--fake-tls-mod", "rand,orig"],
    tpws "OOB" ["--oob", "--split-pos=1"],
    bye "DISOOB" ["--disoob", "1"],
    tpws "HOST_DISORDER" ["--split-pos=1,host,midsld,endhost", "--disorder"],
    bye "COMBINED" ["--split", "1+s", "--tlsrec", "1+s"],
    tpws "TLSREC_OOB" ["--tlsrec=sniext+1", "--split-pos=1,sniext+1", "--oob=tls"],
    bye "SNI_EDGES" ["--split", "1+s", "--split", "-1+se", "--tlsrec", "1+s", "--tlsrec", "-1+se"],
    bye "MASK_FAKE" ["--disorder", "1", "--fake", "-1", "--ttl", "8", "--fake-sni",
      ByeDpiArgs.SNI_PLACEHOLDER, "--fake-tls-mod", "orig"],
    bye "MASK_FAKE_RAND" ["--fake", "-1", "--ttl", "8", "--fake-sni", ByeDpiArgs.SNI_PLACEHOLDER,
      "--fake-tls-mod", "rand,orig"],
    tpws "MSS" ["--mss=88", "--split-pos=1"],
    XRAY_LADDER,
    xr "DUST" ["packets=tlshello", "length=1-5", "delay=0-1"],
    xr "SLOW" ["packets=tlshello", "length=10-30", "delay=10-20"],
    xr "BIG" ["packets=tlshello", "length=100-200", "delay=10-20"],
    xr "FIRST" ["packets=1-1", "lengths=1-1,500-1000", "delays=60-120,1-2"] ]

def custom (U : Jvm) (line mask : String) : Option DpiStrategy :=
  (ByeDpiArgs.parse U line mask).map fun args => ⟨CUSTOM_ID, .BYEDPI, args⟩

def tpwsPrefix (port : ℤ) : Option (List String) :=
  if 1024 ≤ port ∧ port ≤ 65535 then
    some ["--socks", "--bind-addr=127.0.0.1", "--port=" ++ toString port, "--maxconn=256"]
  else none

end DpiStrategies

namespace DpiEvo

def PREFIX : String := "EVO#"

def SEP : Char := Char.ofNat 0x1F

/-- The arguments an id carries. -/
def idArgs (id : String) : List String :=
  (Text.split (Text.removePrefix id PREFIX) SEP).filter fun a => a ≠ ""

/-- A bred strategy lives entirely in its id. -/
def decode (id : String) : Option DpiStrategy :=
  if idArgs id = [] ∨ 64 < (idArgs id).length then none else some ⟨id, .BYEDPI, idArgs id⟩

end DpiEvo

namespace DpiStrategies

def byId (U : Jvm) (id : Option String) (s : Settings) : Option DpiStrategy :=
  match id with
  | none => none
  | some id =>
      if id = "" ∨ id = Settings.DPI_AUTO then none
      else if id = CUSTOM_ID then custom U s.byeDpiArgs s.byeDpiSni
      else if Text.startsWith id DpiEvo.PREFIX then DpiEvo.decode id
      else BUILT_IN.find? fun st => st.id = id

end DpiStrategies

namespace DpiStrategy

open DpiStrategies in
/-- One stored argument on the command line. -/
def expand (U : Jvm) (domain a : String) : List String :=
  if a = MASK_POOL then (maskPool U domain).flatMap fun d => ["--fake-sni", d]
  else [Text.replace a ByeDpiArgs.SNI_PLACEHOLDER domain]

/-- The command line of a strategy; `none` for a port out of range. -/
def argv (U : Jvm) (st : DpiStrategy) (port : ℤ) (mask : String) : Option (List String) :=
  let body := st.args.flatMap (expand U (ByeDpiArgs.maskDomain U mask))
  match st.engine with
  | .BYEDPI => (ByeDpiArgs.loopbackPrefix port).map fun p => p ++ body
  | .TPWS => (DpiStrategies.tpwsPrefix port).map fun p => p ++ body
  | .XRAY => some (("port=" ++ toString port) :: body)

end DpiStrategy

/-! ## The mask domain

The mask domain is put in the place of a marker, so what a mask can look like decides whether an
option is still one behind it. It never begins like an option and has no equals sign. -/

namespace ByeDpiArgs

/-- What matters of a mask domain: it is not empty, has a dot, no equals sign, and
does not begin like an option or an inline value. -/
structure IsMask (d : List Char) : Prop where
  dot : '.' ∈ d
  noEquals : '=' ∉ d
  noDash : d.head? ≠ some '-'
  noColon : d.head? ≠ some ':'

theorem IsMask.ne_nil {d : List Char} (h : IsMask d) : d ≠ [] := List.ne_nil_of_mem h.dot

/-- A joined text has no signs but those of its parts and the separator. -/
theorem mem_intercalate {c x : Char} {ls : List (List Char)} (h : c ∈ [x].intercalate ls) :
    c = x ∨ ∃ l ∈ ls, c ∈ l := by
  induction ls with
  | nil => simp at h
  | cons l ls ih =>
    cases ls with
    | nil => exact .inr ⟨l, List.mem_cons_self .., by simpa using h⟩
    | cons l' ls =>
      rw [List.intercalate_cons_cons, List.mem_append, List.mem_append, List.mem_singleton] at h
      rcases h with (h | h) | h
      · exact .inr ⟨l, List.mem_cons_self .., h⟩
      · exact .inl h
      · rcases ih h with h | ⟨m, hm, hc⟩
        · exact .inl h
        · exact .inr ⟨m, List.mem_cons_of_mem _ hm, hc⟩

/-- What the regular expression lets pass is a mask. -/
theorem isMask_of_maskRegex {v : String} (h : maskRegex v = true) : IsMask v.toList := by
  simp only [maskRegex, Bool.and_eq_true, decide_eq_true_eq, List.all_eq_true] at h
  obtain ⟨hlen, hall⟩ := h
  have hv : ['.'].intercalate (v.toList.splitOn '.') = v.toList := List.intercalate_splitOn '.'
  -- the first label is not empty and begins with a mask character
  obtain ⟨l, l', ls, hls⟩ : ∃ l l' ls, v.toList.splitOn '.' = l :: l' :: ls := by
    match hm : v.toList.splitOn '.', hlen with
    | l :: l' :: ls, _ => exact ⟨l, l', ls, rfl⟩
  have hl := hall l (hls ▸ List.mem_cons_self ..)
  simp only [isMaskLabel, Bool.and_eq_true] at hl
  obtain ⟨c, hc, hmask⟩ := (Option.any_eq_true _ _).mp hl.1.2
  have hhead : v.toList.head? = some c := by
    rw [← hv, hls, List.intercalate_cons_cons, List.append_assoc, List.head?_append, hc]
    rfl
  constructor
  · rw [← hv, hls, List.intercalate_cons_cons]
    simp
  · intro heq
    rw [← hv] at heq
    rcases mem_intercalate heq with h | ⟨m, hm, hmem⟩
    · exact absurd h (by decide)
    · have hml := hall m hm
      simp only [isMaskLabel, Bool.and_eq_true, List.all_eq_true] at hml
      exact absurd (hml.1.1.2 _ hmem) (by decide)
  · rw [hhead]
    rintro h
    rw [Option.some.inj h] at hmask
    exact absurd hmask (by decide)
  · rw [hhead]
    rintro h
    rw [Option.some.inj h] at hmask
    exact absurd hmask (by decide)

/-- Whatever is entered, what is made of it is one. -/
theorem isMask_maskDomain (U : Jvm) (value : String) : IsMask (maskDomain U value).toList := by
  simp only [maskDomain]
  split
  · rename_i h
    exact isMask_of_maskRegex h.2
  · exact ⟨by decide, by decide, by decide, by decide⟩

/-! ## Filling in the mask keeps the grammar

Filling in happens after the check of the stored line. It is shown to commute with everything the
grammar looks at: the dashes, the name, the cut at the equals sign and the check of the value. -/

section
variable {domain : String} (hd : IsMask domain.toList)

/-- The argument with the mask domain filled in. -/
def filled (domain a : String) : String := Text.replace a SNI_PLACEHOLDER domain

theorem placeholder_ne_nil : SNI_PLACEHOLDER.toList ≠ [] := by decide

/-- Filling in replaces the placeholder, from left to right. -/
theorem filled_toList (a : String) : (filled domain a).toList =
    Chars.replaceGo SNI_PLACEHOLDER.toList domain.toList 0 a.toList := String.toList_ofList

/-- The permitted names hold neither a dot nor a brace nor an equals sign. -/
theorem allowed_chars {n : String} (h : (allowed n).isSome = true) :
    '.' ∉ n.toList ∧ '\x7b' ∉ n.toList ∧ '=' ∉ n.toList := by
  have hchars : ∀ e ∈ allowedTable,
      '.' ∉ e.1.toList ∧ '\x7b' ∉ e.1.toList ∧ '=' ∉ e.1.toList := by decide
  rw [allowed, Option.isSome_map] at h
  obtain ⟨e, he⟩ := Option.isSome_iff_exists.mp h
  have hn : e.1 = n := by simpa using List.find?_some he
  exact hn ▸ hchars e (List.mem_of_find?_eq_some he)

theorem allowed_none_of_brace {n : String} (h : '\x7b' ∈ n.toList) : allowed n = none := by
  by_contra hne
  exact (allowed_chars (Option.isSome_iff_ne_none.mpr hne)).2.1 h

/-- The long form of a permitted name is an option word that waits as the table says. -/
theorem option_long {name : String} {takes : Bool} (h : allowed name = some takes) :
    option ("--" ++ name) = some (if takes then some name else none) := by
  obtain ⟨-, -, heq⟩ := allowed_chars (Option.isSome_of_mem h)
  have hl : ("--" ++ name).toList = '-' :: '-' :: name.toList := by
    rw [String.toList_append]
    rfl
  have hpre : "--".toList <+: ("--" ++ name).toList := ⟨name.toList, hl.symm⟩
  have hrem : Text.removePrefix ("--" ++ name) "--" = name := by
    rw [Text.removePrefix, if_pos hpre, hl]
    exact String.ofList_toList
  have hhas : Text.hasChar name '=' = false := decide_eq_false heq
  have hbefore : Text.substringBefore name '=' = name := by
    rw [Text.substringBefore, Chars.before_of_not_mem heq, String.ofList_toList]
  rw [option, Text.startsWith, if_pos (decide_eq_true hpre), hrem, optionBody, hbefore, h, hhas]
  rfl

/-- Without a brace there is nothing to fill in. -/
theorem filled_of_no_brace {n : String} (h : '\x7b' ∉ n.toList) : filled domain n = n := by
  rw [← String.toList_inj, filled_toList]
  exact Chars.replaceGo_of_not_mem (c := '\x7b') (by decide) h

include hd

/-- A filled-in text begins with a colon just when the stored one does. -/
theorem startsWith_colon_filled (a : String) :
    Text.startsWith (filled domain a) ":" = Text.startsWith a ":" := by
  have hhead := Chars.head?_replaceGo placeholder_ne_nil hd.ne_nil
    (by decide : SNI_PLACEHOLDER.toList.head? ≠ some ':') hd.noColon a.toList
  rw [← filled_toList] at hhead
  simp only [Text.startsWith, decide_eq_decide]
  have key (l : List Char) : ":".toList <+: l ↔ l.head? = some ':' := by
    cases l with
    | nil => simp
    | cons c l => simp [List.cons_prefix_cons, eq_comm]
  rw [key, key, hhead]

/-- A value is checked alike before and after. -/
theorem okValue_filled (name a : String) : okValue name (filled domain a) = okValue name a := by
  rw [okValue, okValue, startsWith_colon_filled hd]

/-- An option word stays one and its body is filled in; any other word stays another. -/
theorem dashes_filled (a : String) :
    (∃ b : String, a.toList = '-' :: '-' :: b.toList ∧
        (filled domain a).toList = '-' :: '-' :: (filled domain b).toList) ∨
      (Text.startsWith a "--" = false ∧ Text.startsWith (filled domain a) "--" = false) := by
  -- the placeholder does not start with a dash, so a dash is copied
  have hcons (l : List Char) : Chars.replaceGo SNI_PLACEHOLDER.toList domain.toList 0 ('-' :: l) =
      '-' :: Chars.replaceGo SNI_PLACEHOLDER.toList domain.toList 0 l :=
    Chars.replaceGo_cons_of_ne (by decide) placeholder_ne_nil l
  have hhead (l : List Char) := Chars.head?_replaceGo (c := '-') placeholder_ne_nil hd.ne_nil
    (by decide : SNI_PLACEHOLDER.toList.head? ≠ some '-') hd.noDash l
  have hnot (l : List Char) (h : l.head? ≠ some '-') : ¬ "--".toList <+: l := by
    rintro ⟨t, rfl⟩
    exact h rfl
  -- two dashes, one dash, or none
  by_cases h₁ : a.toList.head? = some '-'
  · obtain ⟨l, hl⟩ : ∃ l, a.toList = '-' :: l := by
      cases hal : a.toList with
      | nil => rw [hal] at h₁; cases h₁
      | cons c l =>
        rw [hal, List.head?_cons, Option.some.injEq] at h₁
        exact ⟨l, by rw [h₁]⟩
    by_cases h₂ : l.head? = some '-'
    · obtain ⟨b, rfl⟩ : ∃ b, l = '-' :: b := by
        cases l with
        | nil => cases h₂
        | cons c l =>
          rw [List.head?_cons, Option.some.injEq] at h₂
          exact ⟨l, by rw [h₂]⟩
      left
      refine ⟨.ofList b, by rw [hl, String.toList_ofList], ?_⟩
      rw [filled_toList, filled_toList, hl, hcons, hcons, String.toList_ofList]
    · right
      -- a single dash is no beginning of an option, before or after
      have hshort (m : List Char) (hm : m.head? ≠ some '-') : ¬ "--".toList <+: '-' :: m := by
        rintro ⟨t, ht⟩
        rw [← (List.cons.inj ht).2] at hm
        exact hm rfl
      simp only [Text.startsWith, decide_eq_false_iff_not]
      rw [filled_toList, hl, hcons]
      exact ⟨hshort l h₂, hshort _ fun h => h₂ ((hhead l).mp h)⟩
  · right
    simp only [Text.startsWith, decide_eq_false_iff_not]
    rw [filled_toList]
    exact ⟨hnot _ h₁, hnot _ fun h => h₁ ((hhead _).mp h)⟩

/-- A name is permitted just when it is so before the mask is filled in. -/
theorem allowed_filled (name : String) : allowed (filled domain name) = allowed name := by
  rcases Chars.replaceGo_eq_or_mem placeholder_ne_nil (r := domain.toList) name.toList with h | h
  · rw [← filled_toList, String.toList_inj] at h
    rw [h]
  · rw [← filled_toList] at h
    by_cases hn : '\x7b' ∈ name.toList
    · have hdot : allowed (filled domain name) = none := by
        by_contra hne
        exact (allowed_chars (Option.isSome_iff_ne_none.mpr hne)).1 (h _ hd.dot)
      rw [hdot, allowed_none_of_brace hn]
    · rw [filled_of_no_brace hn]

/-- Cutting at the equals sign commutes with filling in the mask. -/
theorem cut_filled (b : String) :
    Text.hasChar (filled domain b) '=' = Text.hasChar b '=' ∧
      Text.substringBefore (filled domain b) '=' = filled domain (Text.substringBefore b '=') ∧
      (Text.hasChar b '=' = true →
        Text.substringAfter (filled domain b) '=' = filled domain (Text.substringAfter b '=')) := by
  have hp : '=' ∉ SNI_PLACEHOLDER.toList := by decide
  have hnot {l : List Char} (hl : '=' ∉ l) :
      '=' ∉ Chars.replaceGo SNI_PLACEHOLDER.toList domain.toList 0 l :=
    Chars.not_mem_replaceGo hd.noEquals hl
  simp only [Text.hasChar, Text.substringBefore, Text.substringAfter, decide_eq_true_eq,
    decide_eq_decide, ← String.toList_inj, filled_toList, String.toList_ofList]
  by_cases h : '=' ∈ b.toList
  · obtain ⟨x, y, hx, hb⟩ : ∃ x y, '=' ∉ x ∧ b.toList = x ++ '=' :: y :=
      ⟨_, _, Chars.not_mem_before '=' _, (Chars.split_first h).1⟩
    rw [hb, Chars.replaceGo_append placeholder_ne_nil hp, Chars.before_append hx,
      Chars.after_append hx, Chars.before_append (hnot hx), Chars.after_append (hnot hx)]
    exact ⟨iff_of_true (by simp) (by simp), rfl, fun _ => rfl⟩
  · rw [Chars.before_of_not_mem h, Chars.before_of_not_mem (hnot h)]
    exact ⟨iff_of_false (hnot h) h, rfl, fun h' => absurd h' h⟩

theorem optionBody_filled (b : String) : optionBody (filled domain b) = optionBody b := by
  obtain ⟨hhas, hbefore, hafter⟩ := cut_filled hd b
  rw [optionBody, optionBody, hhas, hbefore, allowed_filled hd]
  by_cases hn : '\x7b' ∈ (Text.substringBefore b '=').toList
  · rw [allowed_none_of_brace hn, Option.bind_none, Option.bind_none]
  · -- a name without a placeholder is the name itself
    rw [filled_of_no_brace hn]
    by_cases hb : Text.hasChar b '=' = true
    · rw [hafter hb, okValue_filled hd]
    · simp only [if_neg hb]

/-- An option word is permitted as stored just when it is with the mask filled in. -/
theorem option_filled (a : String) : option (filled domain a) = option a := by
  rcases dashes_filled hd a with ⟨b, ha, hfa⟩ | ⟨ha, hfa⟩
  · have hopt {t c : String} (h : t.toList = '-' :: '-' :: c.toList) :
        option t = optionBody c := by
      have hpre : "--".toList <+: t.toList := ⟨c.toList, h.symm⟩
      have hrem : Text.removePrefix t "--" = c := by
        rw [Text.removePrefix, if_pos hpre, h]
        exact String.ofList_toList
      rw [option, Text.startsWith, if_pos (decide_eq_true hpre), hrem]
    rw [hopt ha, hopt hfa, optionBody_filled hd]
  · rw [option, option, ha, hfa, if_neg (by decide), if_neg (by decide)]

end

end ByeDpiArgs

/-! ## From the stored arguments to the command line

The marker for a pool of masks becomes several words, so it may only stand where an option
begins. With that one condition the grammar of what is stored and the grammar of what is passed
on are the same. -/

namespace DpiStrategies

open ByeDpiArgs

/-- The grammar of stored arguments: permitted options with their values, and the
mask pool only where an option may stand. -/
def rawAccepts : Option String → List String → Bool
  | none, [] => true
  | some _, [] => false
  | some name, v :: rest => v ≠ MASK_POOL && okValue name v && rawAccepts none rest
  | none, t :: rest =>
      if t = MASK_POOL then rawAccepts none rest
      else
        match option t with
        | some pending => rawAccepts pending rest
        | none => false

/-- A run of fake names is permitted. -/
theorem accepts_fakeSni (pool : List String) (rest : List String) :
    accepts none (pool.flatMap (fun d => ["--fake-sni", d]) ++ rest) = accepts none rest := by
  have hopt : option "--fake-sni" = some (some "fake-sni") := by decide
  have hok (d : String) : okValue "fake-sni" d = true := by
    rw [okValue, Bool.or_eq_true]
    exact .inl (by decide)
  induction pool with
  | nil => rfl
  | cons d pool ih =>
    rw [List.flatMap_cons, List.append_assoc, List.cons_append, List.cons_append,
      List.nil_append]
    simp only [accepts, hopt, hok, Bool.true_and]
    exact ih

/-- A mask domain is no option. -/
theorem option_isMask {d : String} (h : IsMask d.toList) : option d = none := by
  have hpre : ¬ "--".toList <+: d.toList := by
    rintro ⟨t, ht⟩
    exact h.noDash (by rw [← ht]; rfl)
  rw [option, Text.startsWith, decide_eq_false hpre]
  rfl

/-- **What a strategy passes on is decided by what it stores.** For every mask the
command line is permitted just when the stored arguments are. -/
theorem accepts_expand (U : Jvm) {domain : String} (hd : IsMask domain.toList)
    (pending : Option String) (args : List String) :
    accepts pending (args.flatMap (DpiStrategy.expand U domain)) = rawAccepts pending args := by
  induction args generalizing pending with
  | nil => cases pending <;> rfl
  | cons a args ih =>
    rw [List.flatMap_cons]
    by_cases ha : a = MASK_POOL
    · subst ha
      rw [DpiStrategy.expand, if_pos rfl]
      cases pending with
      | none =>
        rw [accepts_fakeSni, ih, rawAccepts, if_pos rfl]
      | some name =>
        -- the option eats the first `--fake-sni` and the name after it is stray
        have hhead : ∃ more, maskPool U domain = maskDomain U domain :: more := by
          rw [maskPool, List.eraseDups_cons]
          exact ⟨_, rfl⟩
        obtain ⟨more, hmore⟩ := hhead
        rw [hmore, List.flatMap_cons]
        simp only [List.cons_append, List.nil_append, accepts,
          option_isMask (isMask_maskDomain U domain), Bool.and_false, rawAccepts]
        simp
    · rw [DpiStrategy.expand, if_neg ha, List.singleton_append]
      have hfill : Text.replace a SNI_PLACEHOLDER domain = filled domain a := rfl
      rw [hfill]
      cases pending with
      | none =>
        rw [accepts, rawAccepts, if_neg ha, option_filled hd]
        cases option a with
        | none => rfl
        | some p => exact ih p
      | some name =>
        rw [accepts, rawAccepts, okValue_filled hd, ih]
        simp [ha]

/-! ### The user's line

The parser writes what the grammar accepts. Its loop carries the option that waits for a value,
and so does the grammar, so the two are compared state by state. -/

theorem long_ne_pool (name : String) : "--" ++ name ≠ MASK_POOL := by
  intro h
  have hl := congrArg String.toList h
  rw [String.toList_append] at hl
  have hhead : some '-' = MASK_POOL.toList.head? := congrArg List.head? hl
  exact absurd hhead (by decide)

/-- An option of the list is accepted, with a value to come where it takes one. -/
theorem rawAccepts_long {name : String} {takes : Bool} (h : allowed name = some takes)
    (rest : List String) : rawAccepts none (("--" ++ name) :: rest) =
      rawAccepts (if takes then some name else none) rest := by
  rw [rawAccepts, if_neg (long_ne_pool name), option_long h]

/-- Words written with their values checked: what follows decides, unless a value is
the mask pool. -/
def Writes (out : List String) (pending : Option String) : Prop :=
  ∀ rest, rawAccepts none (out ++ rest) = (decide (MASK_POOL ∉ out) && rawAccepts pending rest)

/-- A value that is taken passes its check. -/
theorem value_ok {domain name raw v : String} (h : value domain name raw = some v) :
    okValue name v = true := by
  simp only [value] at h
  split at h
  · rename_i hc
    rw [← Option.some.inj h]
    exact hc.2.2.2
  · cases h

/-- What one option writes is an option and its value, or an option that waits for one. -/
theorem add_writes {domain name : String} {inline : Option String} {out : List String}
    {pending : Option String} (h : add domain name inline = some (out, pending)) :
    Writes out pending := by
  unfold add at h
  split at h
  · cases h
  · cases h
  · rename_i hal
    obtain ⟨rfl, rfl⟩ := Prod.mk.inj (Option.some.inj h)
    intro rest
    rw [List.singleton_append, rawAccepts_long hal]
    simp [(long_ne_pool name).symm]
  · rename_i raw hal
    obtain ⟨v, hv, heq⟩ := Option.map_eq_some_iff.mp h
    obtain ⟨rfl, rfl⟩ := Prod.mk.inj heq
    intro rest
    rw [List.cons_append, List.singleton_append, rawAccepts_long hal, if_pos rfl, rawAccepts,
      value_ok hv]
    simp [(long_ne_pool name).symm, eq_comm]
  · rename_i hal
    obtain ⟨rfl, rfl⟩ := Prod.mk.inj (Option.some.inj h)
    intro rest
    rw [List.singleton_append, rawAccepts_long hal]
    simp [(long_ne_pool name).symm]

/-- What is written in two steps is written. -/
theorem Writes.append {a b : List String} {pending : Option String} (ha : Writes a none)
    (hb : Writes b pending) : Writes (a ++ b) pending := by
  intro rest
  rw [List.append_assoc, ha, hb, ← Bool.and_assoc]
  simp [not_or]

/-- An option without a value waits for none. -/
theorem add_none_pending {domain name : String} {out : List String} {pending : Option String}
    (hal : allowed name ≠ some true) (h : add domain name none = some (out, pending)) :
    pending = none := by
  cases hn : allowed name with
  | none => simp [add, hn] at h
  | some takes =>
    cases takes with
    | true => exact absurd hn hal
    | false =>
      simp only [add, hn, Option.some.injEq, Prod.mk.injEq] at h
      exact h.2.symm

/-- Several short options in one word write one after the other. -/
theorem shortGo_writes {domain : String} {cs : List Char} {out : List String}
    {pending : Option String} (h : shortGo domain cs = some (out, pending)) :
    Writes out pending := by
  induction cs generalizing out pending with
  | nil =>
    obtain ⟨rfl, rfl⟩ := Prod.mk.inj (Option.some.inj h)
    intro rest
    simp
  | cons c cs ih =>
    simp only [shortGo, Option.bind_eq_bind, Option.bind_eq_some_iff] at h
    obtain ⟨name, -, h⟩ := h
    split at h
    · exact add_writes h
    · rename_i hal
      simp only [Option.bind_eq_some_iff, Option.pure_def, Option.some.injEq] at h
      obtain ⟨⟨o, p⟩, hadd, ⟨more, p'⟩, hmore, heq⟩ := h
      obtain ⟨rfl, rfl⟩ := Prod.mk.inj heq
      have ho := add_writes hadd
      rw [add_none_pending hal hadd] at ho
      exact ho.append (ih hmore)

theorem word_writes {domain t : String} {out : List String} {pending : Option String}
    (h : word domain t = some (out, pending)) : Writes out pending := by
  simp only [word] at h
  split at h
  · exact add_writes h
  · split at h
    · exact shortGo_writes h
    · cases h

/-- The parsed line is permitted unless one of its values is the mask pool. -/
theorem parseGo_rawAccepts {domain : String} {pending : Option String} {tokens out : List String}
    (h : parseGo domain pending tokens = some out) :
    rawAccepts pending out = decide (MASK_POOL ∉ out) := by
  induction tokens generalizing pending out with
  | nil =>
    cases pending with
    | none =>
      rw [← Option.some.inj h]
      rfl
    | some name => cases h
  | cons t tokens ih =>
    cases pending with
    | none =>
      simp only [parseGo, Option.bind_eq_bind, Option.bind_eq_some_iff, Option.pure_def,
        Option.some.injEq] at h
      obtain ⟨⟨o, p⟩, hw, more, hmore, rfl⟩ := h
      rw [word_writes hw, ih hmore]
      simp [not_or]
    | some name =>
      simp only [parseGo, Option.bind_eq_bind, Option.bind_eq_some_iff, Option.pure_def,
        Option.some.injEq] at h
      obtain ⟨v, hv, more, hmore, rfl⟩ := h
      rw [rawAccepts, value_ok hv, ih hmore]
      simp [not_or, eq_comm]

/-- **What is parsed is accepted**, but for the marker of the pool. -/
theorem parse_rawAccepts {U : Jvm} {line mask : String} {out : List String}
    (h : parse U line mask = some out) : rawAccepts none out = decide (MASK_POOL ∉ out) := by
  simp only [parse, Option.bind_eq_bind, Option.bind_eq_some_iff, Option.pure_def,
    Option.some.injEq] at h
  obtain ⟨-, -, tokens, -, -, -, out', hgo, -, -, rfl⟩ := h
  exact parseGo_rawAccepts hgo

/-! ### Every strategy

Built-in strategies and the user's own are within the grammar by the sections above. For a
strategy that lives in its id this has to be assumed, since nothing on its way checks it. -/

/-- The built-in strategies are accepted too. -/
theorem builtIn_rawAccepts : ∀ st ∈ BUILT_IN, st.engine = .BYEDPI → rawAccepts none st.args = true := by
  decide +kernel

/-- **What reaches the native program.** For every strategy an id resolves to, every
port and every mask: after the options the app adds itself, the command line
decomposes into permitted options if and only if, for the user's line, none of its
values is the mask pool and, for an `EVO#` id, the arguments it carries are
permitted. Built-in strategies need nothing. -/
theorem argv_permitted_iff (U : Jvm) (id : String) (s : Settings) (st : DpiStrategy) (port : ℤ)
    (mask : String) (argv : List String) (h : byId U (some id) s = some st)
    (he : st.engine = .BYEDPI) (ha : st.argv U port mask = some argv) :
    (loopbackPrefix port = some (argv.take 8) ∧ accepts none (argv.drop 8) = true) ↔
      (id = CUSTOM_ID → ∀ args, parse U s.byeDpiArgs s.byeDpiSni = some args → MASK_POOL ∉ args) ∧
      (id ≠ CUSTOM_ID → Text.startsWith id DpiEvo.PREFIX = true →
        rawAccepts none (DpiEvo.idArgs id) = true) := by
  -- the command line is the app's eight words and the stored arguments
  simp only [DpiStrategy.argv, he] at ha
  obtain ⟨pre, hpre, rfl⟩ := Option.map_eq_some_iff.mp ha
  have hlen : pre.length = 8 := by
    rw [loopbackPrefix] at hpre
    split at hpre
    · rw [← Option.some.inj hpre]
      rfl
    · cases hpre
  rw [← hlen, List.take_left, List.drop_left, accepts_expand U (isMask_maskDomain U mask),
    and_iff_right hpre]
  simp only [byId] at h
  split at h
  · cases h
  · split at h
    · rename_i hid
      obtain ⟨args, hargs, rfl⟩ := Option.map_eq_some_iff.mp h
      rw [parse_rawAccepts hargs, decide_eq_true_iff]
      refine ⟨fun hp => ⟨fun _ a ha' => ?_, fun hne => absurd hid hne⟩,
        fun hc => hc.1 hid args hargs⟩
      rw [hargs] at ha'
      exact Option.some.inj ha' ▸ hp
    · rename_i hid
      split at h
      · rename_i hevo
        rw [DpiEvo.decode] at h
        split at h
        · cases h
        · rw [← Option.some.inj h]
          exact ⟨fun hp => ⟨fun hc => absurd hc hid, fun _ _ => hp⟩, fun hc => hc.2 hid hevo⟩
      · rename_i hevo
        have hb := builtIn_rawAccepts st (List.mem_of_find?_eq_some h) he
        exact iff_of_true hb ⟨fun hc => absurd hc hid, fun _ hevo' => absurd hevo' hevo⟩

/-- The user's default line, on the default mask. -/
theorem argv_permitted_default_line :
    ∃ st argv, byId Jvm.ascii (some "custom") {} = some st ∧
      st.argv Jvm.ascii 1080 "ya.ru" = some argv ∧
      ((loopbackPrefix 1080 = some (argv.take 8) ∧ accepts none (argv.drop 8) = true) ↔
        ("custom" = CUSTOM_ID → ∀ args, parse Jvm.ascii ({} : Settings).byeDpiArgs
            ({} : Settings).byeDpiSni = some args → MASK_POOL ∉ args) ∧
        ("custom" ≠ CUSTOM_ID → Text.startsWith "custom" DpiEvo.PREFIX = true →
          rawAccepts none (DpiEvo.idArgs "custom") = true)) := by
  obtain ⟨st, hst⟩ := Option.isSome_iff_exists.mp
    (by decide +kernel : (byId Jvm.ascii (some "custom") {}).isSome)
  have he : st.engine = .BYEDPI := by
    have hc : custom Jvm.ascii ({} : Settings).byeDpiArgs ({} : Settings).byeDpiSni = some st := hst
    unfold custom at hc
    obtain ⟨args, -, rfl⟩ := Option.map_eq_some_iff.mp hc
    rfl
  obtain ⟨argv, hargv⟩ : ∃ argv, st.argv Jvm.ascii 1080 "ya.ru" = some argv := by
    simp only [DpiStrategy.argv, he]
    exact ⟨_, rfl⟩
  exact ⟨st, argv, hst, hargv,
    argv_permitted_iff Jvm.ascii "custom" {} st 1080 "ya.ru" argv hst he hargv⟩

/-- An imported id makes the native program a daemon with a file of its own. -/
theorem evo_passes_daemon :
    ∃ st, byId Jvm.ascii (some "EVO#--daemon\x1f--pidfile\x1f/data/x") {} = some st ∧
      st.engine = .BYEDPI ∧
      st.argv Jvm.ascii 1080 "ya.ru" = some (["--ip", "127.0.0.1", "--port", "1080", "--max-conn",
        "128", "--timeout", "4"] ++ ["--daemon", "--pidfile", "/data/x"]) ∧
      accepts none ["--daemon", "--pidfile", "/data/x"] = false := by
  refine ⟨⟨"EVO#--daemon\x1f--pidfile\x1f/data/x", .BYEDPI, ["--daemon", "--pidfile", "/data/x"]⟩,
    by decide +kernel, rfl, by decide +kernel, by decide +kernel⟩

end DpiStrategies

end VlessCard
