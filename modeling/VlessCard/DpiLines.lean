/-
What a checked line of DPI options consists of.

`parse` writes each option as its long name, followed by one word when the option
takes a value. An `Entry` is one such piece. The names decide where the entries
end, so a line can be read as entries in one way only, and all that was checked
while the line was written holds of that reading. The mask domain is filled in
before the checks, so nothing in a value escapes them; what is left to do is to
follow the writing through words, clusters of letters and values.
-/
import VlessCard.ByeDpi

set_option autoImplicit false

namespace VlessCard

namespace ByeDpiArgs

/-- One option on the command line. -/
structure Entry where
  name : String
  value : Option String
deriving DecidableEq

namespace Entry

def render (e : Entry) : List String := ("--" ++ e.name) :: e.value.toList

/-- The option is allowed and has a value exactly when it takes one. -/
def Shaped (e : Entry) : Prop := allowed e.name = some e.value.isSome

/-- What is required of a value. -/
structure OkValue (name v : String) : Prop where
  nonempty : v ≠ ""
  short : Text.length v ≤ 256
  printable : ∀ c ∈ v.toList, isISOControl c = false
  inline : name ∈ inlineOnly → Text.startsWith v ":" = true

structure Ok (e : Entry) : Prop where
  shaped : e.Shaped
  value : ∀ v, e.value = some v → OkValue e.name v

end Entry

/-! ## The native program

The native program has a table of long options, and the app may pass on some of them. That both
tables agree on which options take a value is checked entry by entry. -/

/-- `options` of `main.c`: the long options of the native program and whether a value
follows. -/
def nativeOptions : List (String × Bool) :=
  [("daemon", false), ("pidfile", true), ("no-domain", false), ("no-ipv6", false), ("no-udp", false),
    ("help", false), ("version", false), ("ip", true), ("port", true), ("transparent", false),
    ("conn-ip", true), ("buf-size", true), ("max-conn", true), ("debug", true), ("tfo", false),
    ("auto", true), ("auto-mode", true), ("cache-ttl", true), ("timeout", true), ("copy", true),
    ("cache-file", true), ("proto", true), ("hosts", true), ("pf", true), ("round", true),
    ("split", true), ("disorder", true), ("oob", true), ("disoob", true), ("fake", true),
    ("md5sig", false), ("fake-sni", true), ("ttl", true), ("fake-data", true), ("fake-offset", true),
    ("fake-tls-mod", true), ("oob-data", true), ("mod-http", true), ("tlsrec", true),
    ("tlsminor", true), ("udp-fake", true), ("def-ttl", true), ("wait-send", false),
    ("await-int", true), ("drop-sack", false), ("protect-path", true), ("ipset", true),
    ("connect-to", true), ("comment", true), ("cache-merge", true)]

/-- Those that stay with the app: where to listen and connect, files, the daemon. -/
def appControlled : List String :=
  ["daemon", "pidfile", "ip", "port", "transparent", "conn-ip", "max-conn", "debug", "cache-file",
    "protect-path", "connect-to", "cache-merge"]

/-- The app and the native program agree on which options take a value. -/
theorem allowed_native : ∀ e ∈ allowedTable, (e.1, e.2.2) ∈ nativeOptions := by decide

/-- What the app controls are options of the program, and none of them may be entered. -/
theorem appControlled_native : ∀ name ∈ appControlled, name ∈ nativeOptions.map Prod.fst ∧ allowed name = none := by
  decide +kernel

theorem not_appControlled {name : String} {takes : Bool} (h : allowed name = some takes) : name ∉ appControlled := by
  intro hmem
  rw [(appControlled_native name hmem).2] at h
  cases h

/-! ## One reading

The words of a line are read from left to right, and an option says whether the next word is its
value. So there is one reading only, which is what lets one speak of the options of a line. -/

/-- The two dashes do not make two options one. -/
theorem long_inj {a b : String} (h : "--" ++ a = "--" ++ b) : a = b := by
  have hl := congrArg String.toList h
  rw [String.toList_append, String.toList_append, List.append_cancel_left_eq] at hl
  exact String.toList_inj.mp hl

/-- The first entry is determined by the words. -/
theorem Entry.head_unique {e f : Entry} (he : e.Shaped) (hf : f.Shaped) {l m : List String}
    (h : e.render ++ l = f.render ++ m) : e = f ∧ l = m := by
  obtain ⟨en, ev⟩ := e
  obtain ⟨fn, fv⟩ := f
  rw [render, render, List.cons_append, List.cons_append, List.cons.injEq] at h
  have hname : en = fn := long_inj h.1
  have htakes : ev.isSome = fv.isSome := by
    -- the table decides by the name whether a value follows
    have : some ev.isSome = some fv.isSome := he.symm.trans (hname ▸ hf)
    exact Option.some.inj this
  cases ev with
  | none =>
    cases fv with
    | none => exact ⟨by rw [hname], h.2⟩
    | some v => cases htakes
  | some v =>
    cases fv with
    | none => cases htakes
    | some w =>
      obtain ⟨hvw, hrest⟩ := List.cons.inj h.2
      exact ⟨by rw [hname, hvw], hrest⟩

/-- Words are read as entries in one way. -/
theorem entries_unique {es fs : List Entry} (he : ∀ e ∈ es, e.Shaped) (hf : ∀ f ∈ fs, f.Shaped)
    (h : es.flatMap Entry.render = fs.flatMap Entry.render) : es = fs := by
  induction es generalizing fs with
  | nil =>
    cases fs with
    | nil => rfl
    | cons f fs =>
      rw [List.flatMap_nil, List.flatMap_cons, Entry.render] at h
      cases h
  | cons e es ih =>
    cases fs with
    | nil =>
      rw [List.flatMap_nil, List.flatMap_cons, Entry.render] at h
      cases h
    | cons f fs =>
      rw [List.flatMap_cons, List.flatMap_cons] at h
      -- the first entries agree, and the induction speaks of what is left
      obtain ⟨rfl, hrest⟩ := Entry.head_unique (he e List.mem_cons_self) (hf f List.mem_cons_self) h
      rw [ih (fun x hx => he x (List.mem_cons_of_mem _ hx)) (fun x hx => hf x (List.mem_cons_of_mem _ hx)) hrest]

/-! ## What is written

The parser goes over the words of the user and writes entries. What it has written after each
word is a list of entries, and perhaps an option that still waits for its value. -/

/-- A value that was taken passes its check. -/
theorem okValue_of_value {domain name raw v : String} (h : value domain name raw = some v) :
    Entry.OkValue name v := by
  simp only [value] at h
  split at h
  · rename_i hc
    rw [← Option.some.inj h]
    obtain ⟨hne, hlen, hiso, hok⟩ := hc
    rw [Bool.not_eq_true', List.any_eq_false] at hiso
    refine { nonempty := hne, short := hlen, printable := fun c hc => eq_false_of_ne_true (hiso c hc), inline := ?_ }
    intro hin
    rw [okValue, Bool.or_eq_true, decide_eq_true_eq] at hok
    exact hok.resolve_left (not_not_intro hin)
  · cases h

/-- Entries, and after them the name of an option that waits for its value. -/
def WritesEntries (out : List String) (pending : Option String) : Prop :=
  ∃ es : List Entry, (∀ e ∈ es, e.Ok) ∧
    out = es.flatMap Entry.render ++ (pending.map fun name => "--" ++ name).toList ∧
    ∀ name, pending = some name → allowed name = some true

theorem WritesEntries.one {e : Entry} (h : e.Ok) : WritesEntries e.render none := by
  refine ⟨[e], ?_, ?_, ?_⟩
  · intro x hx
    rw [List.mem_singleton.mp hx]
    exact h
  · simp
  · intro name hn
    cases hn

theorem WritesEntries.append {a b : List String} {pending : Option String} (ha : WritesEntries a none)
    (hb : WritesEntries b pending) : WritesEntries (a ++ b) pending := by
  obtain ⟨es, hes, rfl, -⟩ := ha
  obtain ⟨fs, hfs, rfl, hp⟩ := hb
  refine ⟨es ++ fs, ?_, ?_, hp⟩
  · intro e he
    rcases List.mem_append.mp he with he | he
    · exact hes e he
    · exact hfs e he
  · simp

/-- A value completes the entry that waited for it. -/
theorem WritesEntries.value {out : List String} {name v : String} (h : WritesEntries out (some name))
    (hv : Entry.OkValue name v) : WritesEntries (out ++ [v]) none := by
  obtain ⟨es, hes, rfl, hp⟩ := h
  have hok : Entry.Ok ⟨name, some v⟩ := by
    refine { shaped := hp name rfl, value := ?_ }
    intro w hw
    exact Option.some.inj hw ▸ hv
  have hwhole : WritesEntries (es.flatMap Entry.render ++ Entry.render ⟨name, some v⟩) none := by
    apply WritesEntries.append
    · exact ⟨es, hes, by simp, by simp⟩
    · exact WritesEntries.one hok
  simpa [Entry.render] using hwhole

/-- An option writes an entry, or waits for its value. -/
theorem add_entries {domain name : String} {inline : Option String} {out : List String} {pending : Option String}
    (h : add domain name inline = some (out, pending)) : WritesEntries out pending := by
  unfold add at h
  split at h
  · cases h
  · cases h
  · rename_i hal
    obtain ⟨rfl, rfl⟩ := Prod.mk.inj (Option.some.inj h)
    exact WritesEntries.one (e := ⟨name, none⟩) { shaped := hal, value := by simp }
  · rename_i raw hal
    obtain ⟨v, hv, heq⟩ := Option.map_eq_some_iff.mp h
    obtain ⟨rfl, rfl⟩ := Prod.mk.inj heq
    refine WritesEntries.one (e := ⟨name, some v⟩) { shaped := hal, value := ?_ }
    intro w hw
    exact Option.some.inj hw ▸ okValue_of_value hv
  · rename_i hal
    obtain ⟨rfl, rfl⟩ := Prod.mk.inj (Option.some.inj h)
    refine ⟨[], by simp, by simp, ?_⟩
    intro n hn
    exact Option.some.inj hn ▸ hal

/-- The letters of a cluster, one after another. -/
theorem shortGo_entries {domain : String} {cs : List Char} {out : List String} {pending : Option String}
    (h : shortGo domain cs = some (out, pending)) : WritesEntries out pending := by
  induction cs generalizing out pending with
  | nil =>
    obtain ⟨rfl, rfl⟩ := Prod.mk.inj (Option.some.inj h)
    exact ⟨[], by simp, by simp, by simp⟩
  | cons c cs ih =>
    simp only [shortGo, Option.bind_eq_bind, Option.bind_eq_some_iff] at h
    obtain ⟨name, -, h⟩ := h
    split at h
    · exact add_entries h
    · rename_i hal
      simp only [Option.bind_eq_some_iff, Option.pure_def, Option.some.injEq] at h
      obtain ⟨⟨o, p⟩, hadd, ⟨more, p'⟩, hmore, heq⟩ := h
      obtain ⟨rfl, rfl⟩ := Prod.mk.inj heq
      -- a letter without a value leaves nothing waiting, so the cluster goes on
      have ho := add_entries hadd
      rw [DpiStrategies.add_none_pending hal hadd] at ho
      exact ho.append (ih hmore)

theorem word_entries {domain t : String} {out : List String} {pending : Option String}
    (h : word domain t = some (out, pending)) : WritesEntries out pending := by
  simp only [word] at h
  split at h
  · exact add_entries h
  · split at h
    · exact shortGo_entries h
    · cases h

/-- The loop over the words: what was written so far and what is still written make
entries. -/
theorem parseGo_entries {domain : String} {pending : Option String} {tokens out : List String}
    (h : parseGo domain pending tokens = some out) {before : List String} (hb : WritesEntries before pending) :
    WritesEntries (before ++ out) none := by
  induction tokens generalizing pending out before with
  | nil =>
    cases pending with
    | none =>
      rw [← Option.some.inj h, List.append_nil]
      exact hb
    | some name => cases h
  | cons t tokens ih =>
    cases pending with
    | none =>
      simp only [parseGo, Option.bind_eq_bind, Option.bind_eq_some_iff, Option.pure_def, Option.some.injEq] at h
      obtain ⟨⟨o, p⟩, hw, more, hmore, rfl⟩ := h
      rw [← List.append_assoc]
      exact ih hmore (hb.append (word_entries hw))
    | some name =>
      simp only [parseGo, Option.bind_eq_bind, Option.bind_eq_some_iff, Option.pure_def, Option.some.injEq] at h
      obtain ⟨v, hv, more, hmore, rfl⟩ := h
      -- the word is the value that was waited for
      rw [List.append_cons]
      exact ih hmore (hb.value (okValue_of_value hv))

/-- What a line is made into are entries that passed their checks. -/
theorem exists_entries_of_parse {U : Jvm} {line mask : String} {out : List String} (h : parse U line mask = some out) :
    ∃ es : List Entry, es.flatMap Entry.render = out ∧ ∀ e ∈ es, e.Ok := by
  simp only [parse, Option.bind_eq_bind, Option.bind_eq_some_iff, Option.pure_def, Option.some.injEq] at h
  obtain ⟨-, -, tokens, -, -, -, out', hgo, -, -, rfl⟩ := h
  -- before the loop nothing is written
  have hstart : WritesEntries [] none := ⟨[], by simp, by simp, by simp⟩
  obtain ⟨es, hes, hout, -⟩ := parseGo_entries hgo hstart
  rw [List.nil_append, Option.map_none, Option.toList_none, List.append_nil] at hout
  exact ⟨es, hout.symm, hes⟩

/-- **A checked line holds allowed options only.** It is read as entries in one way;
each has a permitted name and a value when the name takes one, every value was
checked, and none of the names is one of the app's own. -/
theorem parse_allowed_only (U : Jvm) (line mask : String) (out : List String) (h : parse U line mask = some out) :
    ∃ es : List Entry, es.flatMap Entry.render = out ∧
      (∀ fs : List Entry, (∀ f ∈ fs, f.Shaped) → fs.flatMap Entry.render = out → fs = es) ∧
      ∀ e ∈ es, e.Ok ∧ e.name ∉ appControlled := by
  obtain ⟨es, hout, hes⟩ := exists_entries_of_parse h
  refine ⟨es, hout, ?_, fun e he => ⟨hes e he, not_appControlled (hes e he).shaped⟩⟩
  -- two readings write the same text, and names and values are told apart in it
  intro fs hfs hrender
  exact entries_unique hfs (fun e he => (hes e he).shaped) (hrender.trans hout.symm)

/-- A clustered option, a quoted value and a filled mask. -/
theorem parse_allowed_only_cluster :
    parse Jvm.ascii "ciadpi -Sd1 -n '\x7bsni\x7d' --hosts=:ya.ru" "vk.com"
        = some ["--md5sig", "--disorder", "1", "--fake-sni", "vk.com", "--hosts", ":ya.ru"] ∧
      ∃ es : List Entry, es.flatMap Entry.render
          = ["--md5sig", "--disorder", "1", "--fake-sni", "vk.com", "--hosts", ":ya.ru"] ∧
        (∀ fs : List Entry, (∀ f ∈ fs, f.Shaped) → fs.flatMap Entry.render
          = ["--md5sig", "--disorder", "1", "--fake-sni", "vk.com", "--hosts", ":ya.ru"] → fs = es) ∧
        ∀ e ∈ es, e.Ok ∧ e.name ∉ appControlled :=
  have hparse : parse Jvm.ascii "ciadpi -Sd1 -n '\x7bsni\x7d' --hosts=:ya.ru" "vk.com"
      = some ["--md5sig", "--disorder", "1", "--fake-sni", "vk.com", "--hosts", ":ya.ru"] := by decide +kernel
  ⟨hparse, parse_allowed_only _ _ _ _ hparse⟩

end ByeDpiArgs

end VlessCard
