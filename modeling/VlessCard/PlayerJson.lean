/-
`YouTubeMediaProbe.playerJson`: the player's answer is cut out of the page by counting braces.

The scanner has a depth and two flags, and knows nothing of JSON beyond strings and their
escapes. Everything a JSON text may contain leaves the depth as it was and both flags down: so the
count comes back to zero at the brace that closes the object, and not before. A page that is still
being loaded ends before it, and nothing is returned.
-/
import VlessCard.JsonGrammar
import VlessCard.Server

set_option autoImplicit false

namespace VlessCard.YouTubeMediaProbe

/-! ## `playerJson`

A text is its UTF-16 code units. -/

/-- `s.indexOf(p)`. -/
def indexOf (p : List ℕ) : List ℕ → Option ℕ
  | [] => if p.isEmpty then some 0 else none
  | c :: rest => if p.isPrefixOf (c :: rest) then some 0 else (indexOf p rest).map (· + 1)

/-- `depth`, `quoted` and `escaped`. -/
structure Scan where
  depth : ℤ
  quoted : Bool := false
  escaped : Bool := false

/-- One character; `none` at the brace that closes the object. -/
def Scan.next (s : Scan) (c : ℕ) : Option Scan :=
  if s.quoted then
    if s.escaped then some { s with escaped := false }
    else if c = 0x5C then some { s with escaped := true }
    else if c = 0x22 then some { s with quoted := false }
    else some s
  else if c = 0x22 then some { s with quoted := true }
  else if c = 0x7B then some { s with depth := s.depth + 1 }
  else if c = 0x7D then
    if s.depth - 1 = 0 then none else some { s with depth := s.depth - 1 }
  else some s

/-- How many characters there are up to the brace that closes the object, that brace included. -/
def scan (s : Scan) : List ℕ → Option ℕ
  | [] => none
  | c :: rest =>
    match s.next c with
    | none => some 1
    | some s' => (scan s' rest).map (· + 1)

def MARKER : List ℕ := utf16 "ytInitialPlayerResponse"

def playerJson (html : List ℕ) : Option (List ℕ) :=
  if 1048576 < html.length then none
  else
    match indexOf MARKER html with
    | none => none
    | some marker =>
      match (html.drop marker).findIdx? fun c => decide (c = 0x7B) with
      | none => none
      | some gap =>
        -- `gap` is `begin - marker`
        if 100 < gap then none
        else (scan { depth := 0 } (html.drop (marker + gap))).map fun n => (html.drop (marker + gap)).take n

/-! ## The scanner on a stretch of text

The scanner is run over a stretch of text that does not close the object. Stretches follow each
other, so a run is taken apart where the text is. -/

/-- What the scanner is after a stretch that does not close the object. -/
def run (s : Scan) (l : List ℕ) : Option Scan := l.foldlM Scan.next s

theorem run_nil (s : Scan) : run s [] = some s := rfl

theorem run_cons (s : Scan) (c : ℕ) (l : List ℕ) : run s (c :: l) = (s.next c).bind fun s' => run s' l := by
  unfold run
  rw [List.foldlM_cons]
  rfl

theorem run_append (s : Scan) (l m : List ℕ) : run s (l ++ m) = (run s l).bind fun s' => run s' m := by
  unfold run
  rw [List.foldlM_append]
  rfl

/-- The scan goes on behind a stretch that does not close the object. -/
theorem scan_append {s s' : Scan} {l : List ℕ} (h : run s l = some s') (m : List ℕ) :
    scan s (l ++ m) = (scan s' m).map (· + l.length) := by
  induction l generalizing s with
  | nil =>
    rw [run_nil] at h
    cases h
    rw [List.nil_append]
    cases scan s' m with
    | none => rfl
    | some n => rfl
  | cons c l ih =>
    rw [run_cons] at h
    rw [List.cons_append, scan]
    cases hnext : s.next c with
    | none =>
      rw [hnext] at h
      cases h
    | some t =>
      rw [hnext] at h
      dsimp only
      rw [ih h, Option.map_map]
      apply Option.map_congr
      intro n _
      exact Nat.add_assoc n l.length 1

/-- A scan that ends does not look further. -/
theorem scan_prefix {s : Scan} {l : List ℕ} {n : ℕ} (h : scan s l = some n) (m : List ℕ) :
    n ≤ l.length ∧ scan s (l ++ m) = some n := by
  induction l generalizing s n with
  | nil => cases h
  | cons c l ih =>
    rw [scan] at h
    rw [List.cons_append, scan]
    cases hnext : s.next c with
    | none =>
      rw [hnext] at h
      cases h
      exact ⟨Nat.le_add_left 1 l.length, rfl⟩
    | some t =>
      rw [hnext] at h
      obtain ⟨k, hk, rfl⟩ := Option.map_eq_some_iff.mp h
      obtain ⟨hle, hscan⟩ := ih hk
      dsimp only
      rw [hscan]
      exact ⟨Nat.add_le_add_right hle 1, rfl⟩

/-! ## JSON texts inside the object

Each text of the grammar leaves the scanner as it found it: a string closes its quotes, an object
closes its braces. The induction is over the derivation, and only strings and objects need an
argument. -/

open JsonGrammar

/-- Inside the object the stretch leaves the scanner as it found it. -/
def Quiet (l : List ℕ) : Prop := ∀ d : ℤ, 1 ≤ d → run { depth := d } l = some { depth := d }

/-- What is quiet in pieces is quiet as a whole. -/
theorem quiet_append {l m : List ℕ} (hl : Quiet l) (hm : Quiet m) : Quiet (l ++ m) := by
  intro d hd
  rw [run_append, hl d hd]
  exact hm d hd

theorem quiet_plain {l : List ℕ} (h : Plain l) : Quiet l := by
  intro d hd
  induction l with
  | nil => rfl
  | cons c l ih =>
    obtain ⟨hquote, hopen, hclose⟩ := h c List.mem_cons_self
    have hnext : Scan.next { depth := d } c = some { depth := d } := by
      simp [Scan.next, hquote, hopen, hclose]
    rw [run_cons, hnext]
    exact ih fun e he => h e (List.mem_cons_of_mem c he)

theorem quiet_cons {c : ℕ} {l : List ℕ} (hc : c ≠ 0x22 ∧ c ≠ 0x7B ∧ c ≠ 0x7D) (hl : Quiet l) : Quiet (c :: l) :=
  quiet_append (quiet_plain (plain_cons hc plain_nil)) hl

theorem quiet_ws {l : List ℕ} (h : Ws l) : Quiet l := quiet_plain h.plain

/-- The characters of a string end with the flags as at its beginning. -/
theorem run_chars {l : List ℕ} (h : Chars l) (d : ℤ) :
    run { depth := d, quoted := true } l = some { depth := d, quoted := true } := by
  -- what follows an escape sequence is as good as at its beginning
  have hplain : ∀ {c : ℕ} (l : List ℕ), c ≠ 0x22 ∧ c ≠ 0x5C →
      run { depth := d, quoted := true } (c :: l) = run { depth := d, quoted := true } l := by
    intro c l hc
    rw [run_cons]
    simp [Scan.next, hc.1, hc.2]
  have hescaped : ∀ (c : ℕ) (l : List ℕ),
      run { depth := d, quoted := true } (0x5C :: c :: l) = run { depth := d, quoted := true } l := by
    intro c l
    rw [run_cons]
    change run { depth := d, quoted := true, escaped := true } (c :: l) = _
    rw [run_cons]
    rfl
  induction h with
  | nil => rfl
  | unescaped hc _ ih => rw [hplain _ hc.2, ih]
  | escaped _ _ ih => rw [hescaped, ih]
  | unicode hhex _ ih =>
    have hdigit : ∀ {x : ℕ}, Hex x → x ≠ 0x22 ∧ x ≠ 0x5C := by
      intro x hx
      unfold Hex Digit at hx
      omega
    simp only [List.mem_cons, List.not_mem_nil, or_false, forall_eq_or_imp, forall_eq] at hhex
    obtain ⟨ha, hb, hc, hd⟩ := hhex
    rw [hescaped, hplain _ (hdigit ha), hplain _ (hdigit hb), hplain _ (hdigit hc), hplain _ (hdigit hd), ih]

/-- **So is a whole text**, braces and escapes in it notwithstanding. -/
theorem quiet_str {l : List ℕ} (h : Str l) : Quiet l := by
  obtain ⟨cs, hcs, rfl⟩ := h
  intro d _
  rw [run_cons]
  change run { depth := d, quoted := true } (cs ++ [0x22]) = _
  rw [run_append, run_chars hcs d]
  rfl

/-- A text between braces. -/
theorem quiet_braces {l : List ℕ} (h : Quiet l) : Quiet (0x7B :: (l ++ [0x7D])) := by
  intro d hd
  have hclose : Scan.next { depth := d + 1 } 0x7D = some { depth := d } := by
    have hne : d ≠ 0 := by omega
    simp [Scan.next, hne]
  rw [run_cons]
  change run { depth := d + 1 } (l ++ [0x7D]) = _
  rw [run_append, h (d + 1) (by omega)]
  change run { depth := d + 1 } [0x7D] = _
  rw [run_cons, hclose]
  rfl

/-- **A JSON text is quiet**, of whatever symbol it is. By induction on the grammar: braces are
balanced by the rule of objects, and a brace in a string is a character of the string. -/
theorem quiet_derives {symbol : JsonGrammar.Symbol} {l : List ℕ} (h : Derives symbol l) : Quiet l := by
  induction h with
  | literal h => exact quiet_plain (plain_of_literal h)
  | number h => exact quiet_plain h.plain
  | string h => exact quiet_str h
  | objectValue _ ih => exact ih
  | emptyArray hw =>
    apply quiet_cons (by decide)
    exact quiet_append (quiet_ws hw) (quiet_plain (plain_cons (by decide) plain_nil))
  | array hv _ hw ih =>
    apply quiet_cons (by decide)
    apply quiet_append (quiet_ws hv) (quiet_append ih _)
    exact quiet_append (quiet_ws hw) (quiet_plain (plain_cons (by decide) plain_nil))
  | element _ ih => exact ih
  | moreElements _ hv hw _ ihl ihm =>
    apply quiet_append ihl (quiet_append (quiet_ws hv) (quiet_cons (by decide) _))
    exact quiet_append (quiet_ws hw) ihm
  | emptyObject hw => exact quiet_braces (quiet_ws hw)
  | @object v w l hv _ hw ih =>
    have hinner : Quiet (v ++ (l ++ w)) := quiet_append (quiet_ws hv) (quiet_append ih (quiet_ws hw))
    have hall := quiet_braces hinner
    rwa [List.append_assoc, List.append_assoc] at hall
  | member hs hv hw _ ih =>
    apply quiet_append (quiet_str hs) (quiet_append (quiet_ws hv) (quiet_cons (by decide) _))
    exact quiet_append (quiet_ws hw) ih
  | moreMembers hs hv hw _ hx hy _ ihl ihm =>
    apply quiet_append (quiet_str hs) (quiet_append (quiet_ws hv) (quiet_cons (by decide) _))
    apply quiet_append (quiet_ws hw) (quiet_append ihl (quiet_append (quiet_ws hx) (quiet_cons (by decide) _)))
    exact quiet_append (quiet_ws hy) ihm

/-- An object is quiet between its braces. -/
theorem exists_braces {l : List ℕ} (h : Derives .object l) : ∃ m, Quiet m ∧ l = 0x7B :: (m ++ [0x7D]) := by
  cases h with
  | emptyObject hw => exact ⟨_, quiet_ws hw, rfl⟩
  | @object v w l hv hl hw =>
    refine ⟨v ++ (l ++ w), quiet_append (quiet_ws hv) (quiet_append (quiet_derives hl) (quiet_ws hw)), ?_⟩
    rw [List.append_assoc, List.append_assoc]

/-- **The scan ends where the object ends.** -/
theorem scan_object {l : List ℕ} (h : Derives .object l) (rest : List ℕ) :
    scan { depth := 0 } (l ++ rest) = some l.length := by
  obtain ⟨m, hm, rfl⟩ := exists_braces h
  have hopen : run { depth := 0 } (0x7B :: m) = some { depth := 1 } := by
    rw [run_cons]
    exact hm 1 (le_refl 1)
  have hsplit : (0x7B :: (m ++ [0x7D])) ++ rest = (0x7B :: m) ++ (0x7D :: rest) := by
    rw [List.cons_append, List.append_assoc]
    rfl
  have hclose : scan { depth := 1 } (0x7D :: rest) = some 1 := rfl
  rw [hsplit, scan_append hopen, hclose]
  simp only [Option.map_some, List.length_cons, List.length_append, List.length_nil]
  congr 1
  omega

/-- A part of an object is not taken for an object. -/
theorem scan_cut {l part : List ℕ} (h : Derives .object l) (hpart : part <+: l) (hne : part ≠ l) :
    scan { depth := 0 } part = none := by
  obtain ⟨rest, rfl⟩ := hpart
  cases hscan : scan { depth := 0 } part with
  | none => rfl
  | some n =>
    obtain ⟨hle, hmore⟩ := scan_prefix hscan rest
    have hall := scan_object h []
    rw [List.append_nil, hmore, Option.some_inj, List.length_append] at hall
    have hnil : rest = [] := List.length_eq_zero_iff.mp (by omega)
    rw [hnil, List.append_nil] at hne
    exact absurd rfl hne

/-! ## The page

On a page the marker is looked for first and then the brace behind it. With both known, what is
cut out is what the scanner takes. -/

/-- The first occurrence is the one that was put there. -/
theorem indexOf_append {p a b : List ℕ} (hfirst : ∀ i < a.length, ¬ p <+: (a ++ b).drop i) (hp : p <+: b)
    (hne : p ≠ []) : indexOf p (a ++ b) = some a.length := by
  induction a with
  | nil =>
    cases b with
    | nil => exact absurd (List.prefix_nil.mp hp) hne
    | cons c b =>
      rw [List.nil_append, indexOf, if_pos (List.isPrefixOf_iff_prefix.mpr hp)]
      rfl
  | cons c a ih =>
    have hhere : ¬ p.isPrefixOf (c :: (a ++ b)) = true := by
      intro h
      exact hfirst 0 (Nat.zero_lt_succ _) (List.isPrefixOf_iff_prefix.mp h)
    have hrest : ∀ i < a.length, ¬ p <+: (a ++ b).drop i := fun i hi => hfirst (i + 1) (Nat.succ_lt_succ hi)
    rw [List.cons_append, indexOf, if_neg hhere, ih hrest]
    rfl

/-- The first brace is in the second piece where the first has none. -/
theorem findIdx?_append {a b : List ℕ} (ha : 0x7B ∉ a) :
    (a ++ b).findIdx? (fun c => decide (c = 0x7B)) = (b.findIdx? fun c => decide (c = 0x7B)).map (· + a.length) := by
  induction a with
  | nil =>
    rw [List.nil_append, List.length_nil]
    cases b.findIdx? fun c => decide (c = 0x7B) with
    | none => rfl
    | some n => rfl
  | cons c a ih =>
    have hc : ¬ decide (c = 0x7B) = true := fun h => ha (of_decide_eq_true h ▸ List.mem_cons_self)
    rw [List.cons_append, List.findIdx?_cons, if_neg hc, ih fun h => ha (List.mem_cons_of_mem c h), Option.map_map]
    apply Option.map_congr
    intro n _
    exact Nat.add_assoc n a.length 1

/-- What is done with a page whose marker and gap are known. -/
theorem playerJson_eq {before gap rest : List ℕ}
    (hfirst : ∀ i < before.length, ¬ MARKER <+: (before ++ (MARKER ++ (gap ++ rest))).drop i) (hgap : 0x7B ∉ gap)
    (hnear : (MARKER ++ gap).length ≤ 100) (hsize : (before ++ (MARKER ++ (gap ++ rest))).length ≤ 1048576)
    (hrest : rest = [] ∨ rest.head? = some 0x7B) :
    playerJson (before ++ (MARKER ++ (gap ++ rest))) = (scan { depth := 0 } rest).map fun n => rest.take n := by
  have hmarker : 0x7B ∉ MARKER ++ gap := by
    intro h
    rcases List.mem_append.mp h with h | h
    · exact absurd h (by decide)
    · exact hgap h
  have hindex : indexOf MARKER (before ++ (MARKER ++ (gap ++ rest))) = some before.length :=
    indexOf_append hfirst (List.prefix_append MARKER _) (by decide)
  have hdrop : (before ++ (MARKER ++ (gap ++ rest))).drop before.length = (MARKER ++ gap) ++ rest := by
    rw [List.drop_left, List.append_assoc]
  unfold playerJson
  rw [if_neg (by omega), hindex]
  dsimp only
  rw [hdrop, findIdx?_append hmarker]
  rcases hrest with rfl | hbrace
  · rfl
  · obtain ⟨tail, rfl⟩ := List.head?_eq_some_iff.mp hbrace
    have hbegin : (before ++ (MARKER ++ (gap ++ 0x7B :: tail))).drop (before.length + (MARKER ++ gap).length) =
        0x7B :: tail := by
      rw [← List.drop_drop, hdrop, List.drop_left]
    have hzero : (0x7B :: tail).findIdx? (fun c => decide (c = 0x7B)) = some 0 := rfl
    rw [hzero]
    simp only [Option.map_some, Nat.zero_add]
    rw [if_neg (by omega), hbegin]

/-- **The scanner cuts out the whole object.** On a page of at most 1048576 characters, with the
object near the first marker and no brace between them, exactly the object is returned, whatever
it holds and whatever follows it; and where the page ends before the object does, nothing is. -/
theorem playerJson_spec (before gap object after : List ℕ) (hobject : Derives .object object)
    (hsize : (before ++ (MARKER ++ (gap ++ (object ++ after)))).length ≤ 1048576)
    (hfirst : ∀ i < before.length, ¬ MARKER <+: (before ++ (MARKER ++ (gap ++ (object ++ after)))).drop i)
    (hgap : 0x7B ∉ gap) (hnear : (MARKER ++ gap).length ≤ 100) :
    playerJson (before ++ (MARKER ++ (gap ++ (object ++ after)))) = some object ∧
      ∀ part, part <+: object → part ≠ object → playerJson (before ++ (MARKER ++ (gap ++ part))) = none := by
  obtain ⟨m, -, hbraces⟩ := exists_braces hobject
  constructor
  · have hhead : (object ++ after).head? = some 0x7B := by
      rw [hbraces]
      rfl
    rw [playerJson_eq hfirst hgap hnear hsize (.inr hhead), scan_object hobject after, Option.map_some, List.take_left]
  · intro part hpart hne
    -- a cut page is the beginning of the page
    have hpage : before ++ (MARKER ++ (gap ++ part)) <+: before ++ (MARKER ++ (gap ++ (object ++ after))) := by
      rw [List.prefix_append_right_inj, List.prefix_append_right_inj, List.prefix_append_right_inj]
      exact hpart.trans (List.prefix_append object after)
    have hfirstPart : ∀ i < before.length, ¬ MARKER <+: (before ++ (MARKER ++ (gap ++ part))).drop i := fun i hi h =>
      hfirst i hi (h.trans (hpage.drop i))
    have hhead : part = [] ∨ part.head? = some 0x7B := by
      cases part with
      | nil => exact .inl rfl
      | cons c tail =>
        rw [hbraces] at hpart
        exact .inr (congrArg some (List.cons_prefix_cons.mp hpart).1)
    rw [playerJson_eq hfirstPart hgap hnear (hpage.length_le.trans hsize) hhead, scan_cut hobject hpart hne]
    rfl

/-- An object with one member, whose string is a brace. -/
theorem derives_brace : Derives .object [0x7B, 0x22, 0x61, 0x22, 0x3A, 0x22, 0x7D, 0x22, 0x7D] := by
  have hws : Ws [] := fun c hc => absurd hc List.not_mem_nil
  have hname : Str [0x22, 0x61, 0x22] := ⟨[0x61], .unescaped (by decide) .nil, rfl⟩
  have hvalue : Str [0x22, 0x7D, 0x22] := ⟨[0x7D], .unescaped (by decide) .nil, rfl⟩
  exact .object hws (.member hname hws hws (.string hvalue)) hws

theorem playerJson_spec_brace :
    playerJson (utf16 "var " ++ (MARKER ++ (utf16 " = " ++
      ([0x7B, 0x22, 0x61, 0x22, 0x3A, 0x22, 0x7D, 0x22, 0x7D] ++ utf16 ";")))) =
      some [0x7B, 0x22, 0x61, 0x22, 0x3A, 0x22, 0x7D, 0x22, 0x7D] :=
  (playerJson_spec (utf16 "var ") (utf16 " = ") [0x7B, 0x22, 0x61, 0x22, 0x3A, 0x22, 0x7D, 0x22, 0x7D] (utf16 ";")
    derives_brace (by decide) (by decide) (by decide) (by decide)).1

end VlessCard.YouTubeMediaProbe
