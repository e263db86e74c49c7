/-
`DpiEvo`: strategies against inspection, bred from those that work.

A strategy is a list of options with their values. It is changed in three ways: its
numbers are moved, whole options are added or dropped, and two strategies are crossed.
What comes out is stored in its id and nowhere else: the arguments with a control
character between them. So the arguments must not be empty nor hold that character,
which nothing does that is built in, written by the parser or read from an id; and
what the changes write is made of such arguments and of numbers.
-/
import VlessCard.DpiLines
import VlessCard.Draws
import VlessCard.KeyedList

set_option autoImplicit false

namespace VlessCard

namespace DpiEvo

/-! ## The code

The options that have a position, the techniques and the genes that can be borrowed, as the
source lists them. -/

def POS_FLAGS : List String := ["--split", "--disorder", "--tlsrec", "--oob", "--disoob", "--fake"]

def TECH : List String :=
  ["--split", "--disorder", "--oob", "--disoob", "--fake", "--tlsrec", "--mod-http", "--tlsminor", "--udp-fake"]

def GENES : List (List String) :=
  [["--split", "1+s"], ["--split", "-1+s"], ["--disorder", "1"], ["--disorder", "3+s"],
    ["--oob", "1"], ["--disoob", "1"], ["--fake", "-1", "--ttl", "8"], ["--fake", "1+s", "--ttl", "5"],
    ["--tlsrec", "1+s"], ["--tlsrec", "3+s"], ["--tlsminor", "4"], ["--md5sig"]]

def encode (args : List String) : String := PREFIX ++ Text.join (.singleton SEP) args

/-! ### Numbers in a value

The regular expression `-?\d+` cuts a value into numbers and what stands between them. A text is
cut from its end to its front here, which gives the same pieces. -/

/-- A text cut at the matches of `NUM`: each is a longest run of digits, with the hyphen
before it if there is one. -/
inductive Piece where
  | letter (c : Char)
  | number (negative : Bool) (digits : List Char)

/-- One character more in front. -/
def cutBefore (c : Char) (ps : List Piece) : List Piece :=
  if c.isDigit then
    match ps with
    | .number false ds :: rest => .number false (c :: ds) :: rest
    | _ => .number false [c] :: ps
  else if c = '-' then
    match ps with
    | .number false ds :: rest => .number true ds :: rest
    | _ => .letter c :: ps
  else .letter c :: ps

def pieces : List Char → List Piece
  | [] => []
  | c :: cs => cutBefore c (pieces cs)

/-- The number a match stands for. -/
def numberValue (negative : Bool) (digits : List Char) : ℤ :=
  if negative then -(Nat.ofDigitChars 10 digits 0 : ℤ) else Nat.ofDigitChars 10 digits 0

/-- `m.value.toInt()`; what does not fit throws. -/
def toInt (negative : Bool) (digits : List Char) : Option Int32 :=
  if -2 ^ 31 ≤ numberValue negative digits ∧ numberValue negative digits < 2 ^ 31 then
    some (Int32.ofInt (numberValue negative digits))
  else none

/-- A number moved by one to three; its sign stays. -/
def moved (n : Int32) : Draw String :=
  Draw.nextInt 1 4 >>= fun k => Draw.nextBoolean >>= fun up =>
    let sum := (n + Int32.ofInt (if up then k else -k)).toInt
    pure (toString (if n < 0 then max (-8) (min sum (-1)) else max 1 (min sum 16)))

def shiftPieces : List Piece → Draw (List Char)
  | [] => pure []
  | .letter c :: ps => shiftPieces ps >>= fun rest => pure (c :: rest)
  | .number negative digits :: ps =>
    Draw.ofOption (toInt negative digits) >>= fun n => moved n >>= fun t =>
      shiftPieces ps >>= fun rest => pure (t.toList ++ rest)

/-- Every number of a value, moved. -/
def shift (v : String) : Draw String := shiftPieces (pieces v.toList) >>= fun cs => pure (.ofList cs)

/-! ### `mutate`

A mutation moves numbers first, then may add a record split, and falls back to the first number
where nothing was changed. The draws come in the order of the source, since the stream is shared. -/

/-- What the loop does with the value after an option, and whether it did. -/
def jitter (a v : String) : Draw (String × Bool) :=
  if a ∈ POS_FLAGS then
    Draw.nextInt 0 3 >>= fun d => if d = 0 then shift v >>= fun v' => pure (v', true) else pure (v, false)
  else if a = "--ttl" then
    Draw.nextInt 0 2 >>= fun d =>
      if d = 0 then Draw.nextInt 3 13 >>= fun t => pure (toString t, true) else pure (v, false)
  else pure (v, false)

/-- The loop, from an argument on. -/
def jitterFrom (a : String) : List String → Draw (List String × Bool)
  | [] => pure ([a], false)
  | v :: rest => jitter a v >>= fun x => jitterFrom x.1 rest >>= fun y => pure (a :: y.1, x.2 || y.2)

def jitterAll : List String → Draw (List String × Bool)
  | [] => pure ([], false)
  | a :: rest => jitterFrom a rest

/-- A record split, where there is none. -/
def addRecord (a : List String) : Draw Bool :=
  if "--tlsrec" ∈ a then pure false else Draw.nextInt 0 3 >>= fun d => pure (decide (d = 0))

/-- The value after the first option with a position, moved; `none` without one. -/
def shiftFirst : List String → Draw (Option (List String))
  | a :: v :: rest =>
    if a ∈ POS_FLAGS then shift v >>= fun v' => pure (some (a :: v' :: rest))
    else shiftFirst (v :: rest) >>= fun o => pure (o.map fun l => a :: l)
  | _ => pure none

def mutate (base : DpiStrategy) : Draw (Option DpiStrategy) :=
  if base.engine ≠ .BYEDPI then pure none
  else jitterAll base.args >>= fun x => addRecord x.1 >>= fun add =>
    (if x.2 || add then pure (some (if add then x.1 ++ ["--tlsrec", "1+s"] else x.1)) else shiftFirst x.1) >>=
      fun o => pure (o.bind fun a => if a = base.args then none else decode (encode a))

/-! ### `reshape` and `cross`

A line is cut into genes, which are options with their values, and genes of one or of two parents
are put together again. A line that learns has no genes, since what it does is not in its
options. -/

/-- The groups of options and their values, `cur` being written. -/
def groupsFrom (cur : List String) : List String → List (List String)
  | [] => [cur]
  | a :: rest => if Text.startsWith a "--" then cur :: groupsFrom [a] rest else groupsFrom (cur ++ [a]) rest

/-- `--ttl` goes with the `--fake` before it. -/
def mergeFrom (cur : List String) : List (List String) → List (List String)
  | [] => [cur]
  | g :: rest =>
    if g.head? = some "--ttl" ∧ cur.head? = some "--fake" then mergeFrom (cur ++ g) rest
    else cur :: mergeFrom g rest

def merge : List (List String) → List (List String)
  | [] => []
  | g :: rest => mergeFrom g rest

/-- The genes of a line; a line that learns has none, and no more has one that does not
begin with an option. -/
def genes : List String → Option (List (List String))
  | [] => none
  | a :: rest =>
    if (a :: rest).any (fun b => Text.startsWith b "--auto") ∨ Text.startsWith a "--" = false then none
    else some (merge (groupsFrom [a] rest))

def valid (a : List String) : Bool := a ≠ [] && a.length ≤ 40 && a.any fun t => t ∈ TECH

/-- What is made of new arguments. -/
def offspring (a : List String) (parents : List (List String)) : Option DpiStrategy :=
  if valid a = true ∧ a ∉ parents then decode (encode a) else none

/-- The genes with one dropped or one added. -/
def regene (g : List (List String)) : Draw (Option (List (List String))) :=
  (if 1 < g.length then Draw.nextInt 0 3 >>= fun d => pure (decide (d = 0)) else pure false) >>= fun drop =>
    if drop then Draw.nextInt 0 g.length >>= fun i => pure (some (g.eraseIdx i.toNat))
    else
      let add := GENES.filter fun x => x.head? ∉ g.map List.head?
      if add = [] then pure none
      else Draw.nextInt 0 (g.length + 1) >>= fun i => Draw.element add >>= fun x =>
        pure (some (g.insertIdx i.toNat x))

def reshape (base : DpiStrategy) : Draw (Option DpiStrategy) :=
  if base.engine ≠ .BYEDPI then pure none
  else
    match genes base.args with
    | none => pure none
    | some g => regene g >>= fun o => pure (o.bind fun g' => offspring g'.flatten [base.args])

/-- The first genes of one and the last of the other, one of each option. -/
def recombine (ga gb : List (List String)) : Draw (List String) :=
  (if 1 < ga.length then Draw.nextInt 1 ga.length else pure 1) >>= fun cut =>
    Draw.nextInt 0 gb.length >>= fun from_ =>
      pure (distinctBy List.head? (ga.take cut.toNat ++ gb.drop from_.toNat)).flatten

def cross (a b : DpiStrategy) : Draw (Option DpiStrategy) :=
  if a.engine ≠ .BYEDPI ∨ b.engine ≠ .BYEDPI then pure none
  else
    match genes a.args, genes b.args with
    | some ga, some gb => recombine ga gb >>= fun child => pure (offspring child [a.args, b.args])
    | _, _ => pure none

/-! ## The id and what it stores

The id is the prefix and the arguments with separators between them. It gives the arguments back
as long as none of them holds a separator or is empty. -/

/-- What an id can store. -/
def Storable (args : List String) : Prop := ∀ a ∈ args, a ≠ "" ∧ SEP ∉ a.toList

/-- **An id gives back what was stored in it.** -/
theorem idArgs_encode {args : List String} (h : Storable args) : idArgs (encode args) = args := by
  unfold idArgs encode
  rw [Text.removePrefix_append]
  by_cases hnil : args = []
  · subst hnil
    decide
  · rw [Text.split_join rfl (fun a ha => (h a ha).2) hnil, List.filter_eq_self]
    intro a ha
    exact decide_eq_true (h a ha).1

/-- What a bred strategy is: that of its id, with a few arguments, none of them empty. -/
structure Stored (U : Jvm) (c : DpiStrategy) : Prop where
  found : ∀ s, DpiStrategies.byId U (some c.id) s = some c
  some_ : 1 ≤ c.args.length
  few : c.args.length ≤ 64
  nonempty : ∀ a ∈ c.args, a ≠ ""

/-- An id that is decoded is stored as it was. -/
theorem stored_of_decode {U : Jvm} {args : List String} {c : DpiStrategy} (h : decode (encode args) = some c) :
    Stored U c := by
  have hid : c.id = encode args := by
    unfold decode at h
    split at h
    · cases h
    · rw [← Option.some.inj h]
  have hpre : Text.startsWith c.id PREFIX = true := hid ▸ Text.startsWith_append _ _
  -- an id with the prefix is none of the other kinds
  have hne (t : String) (ht : Text.startsWith t PREFIX = false) : c.id ≠ t := by
    rintro rfl
    rw [hpre] at ht
    cases ht
  have hfound (s : Settings) : DpiStrategies.byId U (some c.id) s = some c := by
    unfold DpiStrategies.byId
    dsimp only
    rw [if_neg, if_neg, if_pos hpre, hid]
    · exact h
    · exact hne _ (by decide)
    · rintro (heq | heq)
      · exact hne _ (by decide) heq
      · exact hne _ (by decide) heq
  unfold decode at h
  split at h
  · cases h
  · rename_i hbounds
    rw [not_or, not_lt] at hbounds
    rw [← Option.some.inj h] at hfound ⊢
    refine ⟨hfound, List.length_pos_of_ne_nil hbounds.1, hbounds.2, fun a ha => ?_⟩
    exact of_decide_eq_true (List.mem_filter.mp ha).2

/-! ## Genes

Cutting a line into genes loses nothing and puts nothing in, and each gene begins with an option.
So what is made of genes can be cut into genes again. -/

/-- A gene begins with an option. -/
def Gene (g : List String) : Prop := ∃ a rest, g = a :: rest ∧ Text.startsWith a "--" = true

theorem Gene.append {g : List String} (h : Gene g) (l : List String) : Gene (g ++ l) := by
  obtain ⟨a, rest, rfl, ha⟩ := h
  exact ⟨a, rest ++ l, rfl, ha⟩

/-- The groups put together are the arguments, and each is a gene. -/
theorem groupsFrom_spec {cur : List String} (hcur : Gene cur) (l : List String) :
    (groupsFrom cur l).flatten = cur ++ l ∧ ∀ g ∈ groupsFrom cur l, Gene g := by
  induction l generalizing cur with
  | nil =>
    rw [groupsFrom, List.flatten_singleton, List.append_nil]
    exact ⟨rfl, fun g hg => List.mem_singleton.mp hg ▸ hcur⟩
  | cons a rest ih =>
    unfold groupsFrom
    by_cases ha : Text.startsWith a "--" = true
    · obtain ⟨hflat, hgenes⟩ := ih ⟨a, [], rfl, ha⟩
      rw [if_pos ha, List.flatten_cons, hflat]
      refine ⟨rfl, fun g hg => ?_⟩
      rcases List.mem_cons.mp hg with rfl | hg
      · exact hcur
      · exact hgenes g hg
    · obtain ⟨hflat, hgenes⟩ := ih (hcur.append [a])
      rw [if_neg ha, hflat, List.append_assoc]
      exact ⟨rfl, hgenes⟩

/-- Groups that belong together are merged, and nothing is lost. -/
theorem mergeFrom_spec {cur : List String} (hcur : Gene cur) {gs : List (List String)} (hgs : ∀ g ∈ gs, Gene g) :
    (mergeFrom cur gs).flatten = cur ++ gs.flatten ∧ ∀ g ∈ mergeFrom cur gs, Gene g := by
  induction gs generalizing cur with
  | nil =>
    rw [mergeFrom, List.flatten_singleton, List.flatten_nil, List.append_nil]
    exact ⟨rfl, fun g hg => List.mem_singleton.mp hg ▸ hcur⟩
  | cons g gs ih =>
    rw [List.forall_mem_cons] at hgs
    unfold mergeFrom
    split
    · obtain ⟨hflat, hgenes⟩ := ih (hcur.append g) hgs.2
      rw [hflat, List.flatten_cons, List.append_assoc]
      exact ⟨rfl, hgenes⟩
    · obtain ⟨hflat, hgenes⟩ := ih hgs.1 hgs.2
      rw [List.flatten_cons, hflat, List.flatten_cons]
      refine ⟨rfl, fun x hx => ?_⟩
      rcases List.mem_cons.mp hx with rfl | hx
      · exact hcur
      · exact hgenes x hx

theorem merge_spec {gs : List (List String)} (hgs : ∀ g ∈ gs, Gene g) :
    (merge gs).flatten = gs.flatten ∧ ∀ g ∈ merge gs, Gene g := by
  cases gs with
  | nil => exact ⟨rfl, hgs⟩
  | cons g gs =>
    rw [List.forall_mem_cons] at hgs
    exact mergeFrom_spec hgs.1 hgs.2

/-- No argument makes the line learn. -/
def Plain (args : List String) : Prop := ∀ a ∈ args, Text.startsWith a "--auto" = false

/-- **The genes of a line are the line.** -/
theorem genes_spec {args : List String} {g : List (List String)} (h : genes args = some g) :
    g.flatten = args ∧ (∀ x ∈ g, Gene x) ∧ Plain args := by
  cases args with
  | nil => cases h
  | cons a rest =>
    rw [genes] at h
    split at h
    · cases h
    · rename_i hok
      rw [not_or, Bool.not_eq_true, List.any_eq_false, Bool.not_eq_false] at hok
      obtain ⟨hflat, hgenes⟩ := groupsFrom_spec ⟨a, [], rfl, hok.2⟩ rest
      obtain ⟨hmerged, hall⟩ := merge_spec hgenes
      rw [← Option.some.inj h]
      exact ⟨hmerged.trans hflat, hall, fun b hb => eq_false_of_ne_true (hok.1 b hb)⟩

/-- What begins with an option and does not learn has genes. -/
theorem exists_genes {args : List String} (hgene : Gene args) (hplain : Plain args) :
    ∃ g, genes args = some g ∧ g.flatten = args := by
  obtain ⟨a, rest, rfl, ha⟩ := hgene
  have hauto : (a :: rest).any (fun b => Text.startsWith b "--auto") = false := by
    rw [List.any_eq_false]
    intro b hb
    rw [hplain b hb]
    exact Bool.false_ne_true
  have hg : genes (a :: rest) = some (merge (groupsFrom [a] rest)) := by
    rw [genes, if_neg]
    rw [hauto, ha]
    decide
  exact ⟨_, hg, (genes_spec hg).1⟩

/-! ## What is stored in an id

The parents come from three sources, and none of them has a separator in its arguments: the
built-in ones by looking, those of the parser since it refuses control characters, and those of
an id since it was cut there. -/

/-- Arguments from an id have no separator in them. -/
theorem storable_idArgs (id : String) : Storable (idArgs id) := by
  intro a ha
  obtain ⟨hmem, hne⟩ := List.mem_filter.mp ha
  exact ⟨of_decide_eq_true hne, Text.not_mem_of_mem_split hmem⟩

theorem storable_builtIn : ∀ st ∈ DpiStrategies.BUILT_IN, Storable st.args := by
  unfold Storable
  decide

/-- What the parser writes: names of the table, and values without control characters. -/
theorem storable_of_parse {U : Jvm} {line mask : String} {args : List String}
    (h : ByeDpiArgs.parse U line mask = some args) : Storable args := by
  obtain ⟨es, rfl, hes⟩ := ByeDpiArgs.exists_entries_of_parse h
  have hnames : ∀ e ∈ ByeDpiArgs.allowedTable, SEP ∉ e.1.toList := by decide
  have hcontrol : ByeDpiArgs.isISOControl SEP = true := by decide
  intro a ha
  obtain ⟨e, he, hmem⟩ := List.mem_flatMap.mp ha
  have hok := hes e he
  rcases List.mem_cons.mp hmem with rfl | hvalue
  · constructor
    · intro hempty
      have hl := congrArg String.toList hempty
      rw [String.toList_append] at hl
      cases hl
    · -- the name is in the table
      have hshaped := hok.shaped
      unfold ByeDpiArgs.Entry.Shaped ByeDpiArgs.allowed at hshaped
      obtain ⟨row, hrow, -⟩ := Option.map_eq_some_iff.mp hshaped
      have hfound := List.find?_some hrow
      have hname : row.1 = e.name := of_decide_eq_true hfound
      apply Text.not_mem_append (by decide)
      rw [← hname]
      exact hnames row (List.mem_of_find?_eq_some hrow)
  · have hv := hok.value a (Option.mem_toList.mp hvalue)
    refine ⟨hv.nonempty, fun hsep => ?_⟩
    rw [hv.printable SEP hsep] at hcontrol
    cases hcontrol

/-- A parent of the search: built in, made of a line of the user's, or read from an id. -/
structure Parent (U : Jvm) (p : DpiStrategy) : Prop where
  engine : p.engine = .BYEDPI
  origin : p ∈ DpiStrategies.BUILT_IN ∨ (∃ line mask, ByeDpiArgs.parse U line mask = some p.args) ∨
    ∃ id, decode id = some p

theorem Parent.storable {U : Jvm} {p : DpiStrategy} (h : Parent U p) : Storable p.args := by
  rcases h.origin with hbuilt | ⟨line, mask, hparse⟩ | ⟨id, hid⟩
  · exact storable_builtIn p hbuilt
  · exact storable_of_parse hparse
  · unfold decode at hid
    split at hid
    · cases hid
    · rw [← Option.some.inj hid]
      exact storable_idArgs id

/-! ## What the changes write

Each operator makes its line of pieces of its parents and of the borrowed genes, so a child can
be stored as its parents could. Whatever is drawn, its id says exactly what it is. -/

/-- Genes that can be put together. -/
def Genome (gs : List (List String)) : Prop := ∀ g ∈ gs, Gene g ∧ Storable g ∧ Plain g

theorem genome_GENES : Genome GENES := by
  intro g hg
  refine ⟨?_, ?_, ?_⟩
  · have hhead : ∀ g ∈ GENES, g.head?.any (fun a => Text.startsWith a "--") = true := by decide
    have hg' := hhead g hg
    cases g with
    | nil => cases hg'
    | cons a rest => exact ⟨a, rest, rfl, hg'⟩
  · revert g
    unfold Storable
    decide
  · revert g
    unfold Plain
    decide

theorem Genome.subset {gs hs : List (List String)} (h : Genome gs) (hsub : hs ⊆ gs) : Genome hs :=
  fun g hg => h g (hsub hg)

theorem genome_of_genes {args : List String} {g : List (List String)} (hargs : Storable args)
    (h : genes args = some g) : Genome g := by
  obtain ⟨hflat, hgene, hplain⟩ := genes_spec h
  intro x hx
  have hsub : x ⊆ args := by
    intro a ha
    rw [← hflat]
    exact List.mem_flatten_of_mem hx ha
  exact ⟨hgene x hx, fun a ha => hargs a (hsub ha), fun a ha => hplain a (hsub ha)⟩

/-- Genes put together are a line with these genes or others. -/
theorem Genome.flatten {gs : List (List String)} (h : Genome gs) (hne : gs.flatten ≠ []) :
    Storable gs.flatten ∧ ∃ g, genes gs.flatten = some g ∧ g.flatten = gs.flatten := by
  have hstore : Storable gs.flatten := by
    intro a ha
    obtain ⟨g, hg, hmem⟩ := List.mem_flatten.mp ha
    exact (h g hg).2.1 a hmem
  have hplain : Plain gs.flatten := by
    intro a ha
    obtain ⟨g, hg, hmem⟩ := List.mem_flatten.mp ha
    exact (h g hg).2.2 a hmem
  refine ⟨hstore, exists_genes ?_ hplain⟩
  cases gs with
  | nil => exact absurd rfl hne
  | cons g gs =>
    rw [List.flatten_cons]
    exact (h g List.mem_cons_self).1.append _

/-- A bred line: short, with a trick, and its genes are the line. -/
structure Bred (c : DpiStrategy) : Prop where
  short : c.args.length ≤ 40
  trick : ∃ t ∈ c.args, t ∈ TECH
  genes : ∃ g, genes c.args = some g ∧ g.flatten = c.args

/-- **What is made of a genome is bred, and stored as it is.** -/
theorem offspring_spec {U : Jvm} {gs : List (List String)} (h : Genome gs) {parents : List (List String)}
    {c : DpiStrategy} (hc : offspring gs.flatten parents = some c) : Stored U c ∧ Bred c := by
  unfold offspring at hc
  split at hc
  · rename_i hvalid
    have hv := hvalid.1
    simp only [valid, Bool.and_eq_true, decide_eq_true_eq, List.any_eq_true] at hv
    obtain ⟨⟨hne, hshort⟩, htrick⟩ := hv
    obtain ⟨hstore, hgenes⟩ := h.flatten hne
    have hargs : c.args = gs.flatten := by
      rw [← idArgs_encode hstore]
      unfold decode at hc
      split at hc
      · cases hc
      · rw [← Option.some.inj hc]
    refine ⟨stored_of_decode hc, ⟨?_, ?_, ?_⟩⟩
    · rw [hargs]
      exact hshort
    · rw [hargs]
      exact htrick
    · rw [hargs]
      exact hgenes
  · cases hc

/-- One gene less, or one of the borrowed ones more. -/
theorem ensures_regene {g : List (List String)} (h : Genome g) :
    Draw.Ensures (regene g) fun o => ∀ g', o = some g' → Genome g' := by
  unfold regene
  refine Draw.ensures_true.bind fun drop _ => Draw.ensures_ite (fun _ => ?_) fun _ => ?_
  · refine Draw.ensures_true.bind fun i _ => Draw.ensures_pure fun g' hg' => ?_
    rw [← Option.some.inj hg']
    exact h.subset (List.eraseIdx_sublist g i.toNat).subset
  · refine Draw.ensures_ite (fun _ => Draw.ensures_pure fun g' hg' => by cases hg') fun _ => ?_
    refine Draw.ensures_true.bind fun i _ => (Draw.ensures_element _).bind fun x hx =>
      Draw.ensures_pure fun g' hg' => ?_
    rw [← Option.some.inj hg']
    intro y hy
    rcases List.eq_or_mem_of_mem_insertIdx hy with rfl | hy
    · exact genome_GENES y (List.mem_filter.mp hx).1
    · exact h y hy

/-- A recombination draws from two genomes. -/
theorem ensures_recombine {ga gb : List (List String)} (ha : Genome ga) (hb : Genome gb) :
    Draw.Ensures (recombine ga gb) fun child => ∃ gs, Genome gs ∧ child = gs.flatten := by
  unfold recombine
  refine Draw.ensures_true.bind fun cut _ => Draw.ensures_true.bind fun start _ => Draw.ensures_pure ⟨_, ?_, rfl⟩
  intro x hx
  rcases List.mem_append.mp (distinctBy_subset List.head? _ hx) with hx | hx
  · exact ha x (List.mem_of_mem_take hx)
  · exact hb x (List.mem_of_mem_drop hx)

/-- A mutation is stored; that its id is new is asked later. -/
theorem ensures_mutate (U : Jvm) (p : DpiStrategy) : Draw.Ensures (mutate p) fun o => ∀ c, o = some c → Stored U c := by
  unfold mutate
  refine Draw.ensures_ite (fun _ => Draw.ensures_pure fun c hc => by cases hc) fun _ => ?_
  refine Draw.ensures_true.bind fun x _ => Draw.ensures_true.bind fun add _ =>
    Draw.ensures_true.bind fun o _ => Draw.ensures_pure fun c hc => ?_
  -- whatever the arguments are, the child was read from their id
  obtain ⟨a, -, hc⟩ := Option.bind_eq_some_iff.mp hc
  split at hc
  · cases hc
  · exact stored_of_decode hc

theorem ensures_reshape {U : Jvm} {p : DpiStrategy} (h : Storable p.args) :
    Draw.Ensures (reshape p) fun o => ∀ c, o = some c → Stored U c ∧ Bred c := by
  unfold reshape
  refine Draw.ensures_ite (fun _ => Draw.ensures_pure fun c hc => by cases hc) fun _ => ?_
  cases hg : genes p.args with
  | none => exact Draw.ensures_pure fun c hc => by cases hc
  | some g =>
    refine (ensures_regene (genome_of_genes h hg)).bind fun o ho => Draw.ensures_pure fun c hc => ?_
    obtain ⟨g', hg', hc⟩ := Option.bind_eq_some_iff.mp hc
    exact offspring_spec (ho g' hg') hc

theorem ensures_cross {U : Jvm} {p q : DpiStrategy} (hp : Storable p.args) (hq : Storable q.args) :
    Draw.Ensures (cross p q) fun o => ∀ c, o = some c → Stored U c ∧ Bred c := by
  unfold cross
  refine Draw.ensures_ite (fun _ => Draw.ensures_pure fun c hc => by cases hc) fun _ => ?_
  cases hga : genes p.args with
  | none => exact Draw.ensures_pure fun c hc => by cases hc
  | some ga =>
    cases hgb : genes q.args with
    | none => exact Draw.ensures_pure fun c hc => by cases hc
    | some gb =>
      refine (ensures_recombine (genome_of_genes hp hga) (genome_of_genes hq hgb)).bind fun child hchild =>
        Draw.ensures_pure fun c hc => ?_
      obtain ⟨gs, hgs, rfl⟩ := hchild
      exact offspring_spec hgs hc

/-- **A bred strategy is exactly what its id says.** Whatever is drawn, a child of a
parent, or of two, is the strategy of its id under any settings and has from one to
sixty-four arguments, none empty; a child of `reshape` or `cross` has forty at most and
a trick among them, and its genes are its arguments. -/
theorem child_is_its_id (U : Jvm) (p q : DpiStrategy) (hp : Parent U p) (hq : Parent U q) :
    (Draw.Ensures (mutate p) fun o => ∀ c, o = some c → Stored U c) ∧
      (Draw.Ensures (reshape p) fun o => ∀ c, o = some c → Stored U c ∧ Bred c) ∧
      Draw.Ensures (cross p q) fun o => ∀ c, o = some c → Stored U c ∧ Bred c :=
  ⟨ensures_mutate U p, ensures_reshape hp.storable, ensures_cross hp.storable hq.storable⟩

/-- A built-in strategy and a line of the user's. -/
theorem child_is_its_id_line :
    let p := DpiStrategies.bye "DISORDER" ["--disorder", "1"]
    let q : DpiStrategy := ⟨DpiStrategies.CUSTOM_ID, .BYEDPI, ["--split", "1+s", "--fake", "-1", "--ttl", "8"]⟩
    Draw.Ensures (cross p q) fun o => ∀ c, o = some c → Stored Jvm.ascii c ∧ Bred c :=
  have hparse : ByeDpiArgs.parse Jvm.ascii "--split 1+s -f-1 -t8" "vk.com"
      = some ["--split", "1+s", "--fake", "-1", "--ttl", "8"] := by decide +kernel
  (child_is_its_id Jvm.ascii _ _ ⟨rfl, .inl (by decide)⟩ ⟨rfl, .inr (.inl ⟨_, _, hparse⟩)⟩).2.2

end DpiEvo

end VlessCard
