/-
`DpiEvo.breed` and `DpiStrategies.plan`: the children of the strategies a search found.

A child is drawn turn by turn, from a parent of which the first come up more often,
until there are enough or the turns are used up. All that can go wrong on the way is a
number: where a position is moved, it is read as a number of type `Int`, and the
parser and the ids let through any number of digits. So a search is aborted just when
a parent has such a value after an option with a position.
-/
import VlessCard.DpiGenes
import VlessCard.DpiRotation

set_option autoImplicit false

namespace VlessCard

namespace DpiStrategies

/-- The strategies to try on a network; `hints` come with the feed. -/
def plan (U : Jvm) (hints : List String) (s : Settings) (network : String) (tpwsAvailable : Bool) :
    List DpiStrategy :=
  let here := byId U (s.dpiRemembered.get? network) s
  let ranking := ((s.dpiRanking.get? network).or (s.dpiRanking.get? (Net.family network))).getD []
  let all := (custom U s.byeDpiArgs s.byeDpiSni).toList ++
    (here.or (byId U (s.dpiRemembered.get? (Net.family network)) s)).toList ++
    (ranking.filterMap fun id => byId U (some id) s) ++
    (hints.filterMap fun id => BUILT_IN.find? fun st => st.id = id) ++
    ((s.dpiEvoPool.take 6).filterMap DpiEvo.decode) ++ BUILT_IN
  distinctBy DpiStrategy.id (all.filter fun st => tpwsAvailable || st.engine ≠ .TPWS)

end DpiStrategies

namespace DpiEvo

/-! ## The code

The loop draws a parent, changes it and enrols the child, until there are enough or the turns are
used up. The changes may throw, and the loop does not catch it. -/

/-- One turn: a child of `p`, where there is one. -/
def child (bye : List DpiStrategy) (p : DpiStrategy) : Draw (Option DpiStrategy) :=
  Draw.nextInt 0 4 >>= fun kind =>
    (if kind = 0 then reshape p
    else if kind = 1 then
      if 1 < bye.length then Draw.element bye >>= fun q => cross p q else reshape p
    else mutate p) >>= fun m =>
      match m with
      | some c => pure (some c)
      | none => mutate p

/-- `out.putIfAbsent`, of a child unlike its parents. -/
def enrol (parents out : List DpiStrategy) (m : Option DpiStrategy) : List DpiStrategy :=
  match m with
  | none => out
  | some c => if (parents.any fun p => p.args == c.args) ∨ c.id ∈ out.map (·.id) then out else out ++ [c]

/-- The loop, some turns before its end. -/
def turns (parents bye : List DpiStrategy) (n : Int32) : ℕ → List DpiStrategy → Draw (List DpiStrategy)
  | 0, out => pure out
  | k + 1, out =>
    if (out.length : ℤ) < n.toInt then
      Draw.favoured bye >>= fun p => child bye p >>= fun m => turns parents bye n k (enrol parents out m)
    else pure out

def breed (parents : List DpiStrategy) (n : Int32) : Draw (List DpiStrategy) :=
  let bye := parents.filter fun p => p.engine = .BYEDPI
  if bye = [] then pure [] else turns parents bye n (n * 10).toInt.toNat []

/-! ## Numbers that fit

A value is cut at the numbers in it, and each number is moved by a small amount. What does not
fit an `Int` throws, and nothing else in a value does. -/

def Piece.Fits : Piece → Prop
  | .letter _ => True
  | .number negative digits => -2 ^ 31 ≤ numberValue negative digits ∧ numberValue negative digits < 2 ^ 31

/-- Every number of a value is an `Int`. -/
def Fits (v : String) : Prop := ∀ p ∈ pieces v.toList, p.Fits

/-- Every value that follows an option with a position can be moved. -/
def Movable : List String → Prop
  | a :: v :: rest => (a ∈ POS_FLAGS → Fits v) ∧ Movable (v :: rest)
  | _ => True

instance (p : Piece) : Decidable p.Fits :=
  match p with
  | .letter _ => .isTrue trivial
  | .number negative digits =>
    inferInstanceAs (Decidable (-2 ^ 31 ≤ numberValue negative digits ∧ numberValue negative digits < 2 ^ 31))

instance (v : String) : Decidable (Fits v) := inferInstanceAs (Decidable (∀ p ∈ pieces v.toList, p.Fits))

instance decidableMovable : (args : List String) → Decidable (Movable args)
  | [] => .isTrue trivial
  | [_] => .isTrue trivial
  | a :: v :: rest =>
    have := decidableMovable (v :: rest)
    inferInstanceAs (Decidable ((a ∈ POS_FLAGS → Fits v) ∧ Movable (v :: rest)))

/-- The letters of a piece. -/
def Piece.text : Piece → List Char
  | .letter c => [c]
  | .number negative digits => (if negative then ['-'] else []) ++ digits

/-- The pieces of an argument put together are the argument. -/
theorem text_pieces (cs : List Char) : (pieces cs).flatMap Piece.text = cs := by
  induction cs with
  | nil => rfl
  | cons c cs ih =>
    rw [pieces]
    unfold cutBefore
    split
    · split
      · rename_i ds rest heq
        rw [heq] at ih
        rw [← ih]
        rfl
      · rw [List.flatMap_cons, ih]
        rfl
    · split
      · rename_i hc
        split
        · rename_i ds rest heq
          rw [heq] at ih
          rw [← ih, hc]
          rfl
        · rw [List.flatMap_cons, ih]
          rfl
      · rw [List.flatMap_cons, ih]
        rfl

theorem exists_digit_toString (z : ℤ) : ∃ c ∈ (toString z).toList, c.isDigit = true := by
  have hdigits (n : ℕ) : ∃ c ∈ Nat.toDigits 10 n, c.isDigit = true := by
    obtain ⟨c, hc⟩ := List.exists_mem_of_ne_nil _ (Nat.toDigits_ne_nil (n := n) (b := 10))
    exact ⟨c, hc, Nat.isDigit_of_mem_toDigits (by omega) (by omega) hc⟩
  cases z with
  | ofNat n =>
    have htext : (toString (Int.ofNat n)).toList = Nat.toDigits 10 n := Text.toList_toString_nat n
    rw [htext]
    exact hdigits n
  | negSucc n =>
    have htext : toString (Int.negSucc n) = "-" ++ Nat.repr (n + 1) := rfl
    obtain ⟨c, hc, hdigit⟩ := hdigits (n + 1)
    rw [htext, String.toList_append, Nat.toList_repr]
    exact ⟨c, List.mem_append_right _ hc, hdigit⟩

/-- `toInt` throws exactly for a number that does not fit. -/
theorem toInt_isSome {negative : Bool} {digits : List Char} :
    (toInt negative digits).isSome = true ↔ (Piece.number negative digits).Fits := by
  rw [toInt, Piece.Fits]
  split
  · rename_i h
    exact ⟨fun _ => h, fun _ => rfl⟩
  · rename_i h
    constructor
    · intro hs
      cases hs
    · intro hf
      exact absurd hf h

theorem returns_moved (n : Int32) : Draw.Returns (moved n) fun t => ∃ c ∈ t.toList, c.isDigit = true := by
  unfold moved
  refine (Draw.returns_nextInt (by decide)).bind fun k _ => Draw.returns_nextBoolean.bind fun up _ => ?_
  exact Draw.returns_pure (exists_digit_toString _)

/-- What fits is moved; without a number nothing changes, and with one a digit is left. -/
theorem returns_shiftPieces {ps : List Piece} (h : ∀ p ∈ ps, p.Fits) : Draw.Returns (shiftPieces ps) fun cs =>
    cs = ps.flatMap Piece.text ∨ ∃ c ∈ cs, c.isDigit = true := by
  induction ps with
  | nil => exact Draw.returns_pure (.inl rfl)
  | cons p ps ih =>
    rw [List.forall_mem_cons] at h
    cases p with
    | letter c =>
      refine (ih h.2).bind fun rest hrest => Draw.returns_pure ?_
      rcases hrest with rfl | ⟨d, hd, hdigit⟩
      · exact .inl rfl
      · exact .inr ⟨d, List.mem_cons_of_mem _ hd, hdigit⟩
    | number negative digits =>
      obtain ⟨n, hn⟩ := Option.isSome_iff_exists.mp (toInt_isSome.mpr h.1)
      unfold shiftPieces
      rw [hn]
      refine (Draw.returns_pure (Q := fun _ => True) trivial).bind fun m _ =>
        (returns_moved m).bind fun t ht => (ih h.2).bind fun rest _ => Draw.returns_pure ?_
      obtain ⟨c, hc, hdigit⟩ := ht
      exact .inr ⟨c, List.mem_append_left _ hc, hdigit⟩

/-- One number that does not fit is enough for the shift to throw. -/
theorem shiftPieces_throws {ps : List Piece} (h : ¬ ∀ p ∈ ps, p.Fits) : Draw.Throws (shiftPieces ps) := by
  induction ps with
  | nil => exact absurd (fun p hp => by cases hp) h
  | cons p ps ih =>
    rw [List.forall_mem_cons, not_and_or] at h
    cases p with
    | letter c =>
      exact (ih (h.resolve_left (not_not_intro trivial))).bind
    | number negative digits =>
      unfold shiftPieces
      cases hn : toInt negative digits with
      | none => exact Draw.throws_throw.bind
      | some n =>
        have hfits : (Piece.number negative digits).Fits := toInt_isSome.mp (hn ▸ rfl)
        -- this number is moved somehow, and a later one throws
        have hreach : ∃ t, Draw.Reaches (moved n) t :=
          ⟨_, (Draw.reaches_nextInt (le_refl 1) (by decide)).bind
            ((Draw.reaches_nextBoolean true).bind (Draw.reaches_pure _))⟩
        obtain ⟨t, ht⟩ := hreach
        exact (Draw.reaches_pure n).throws (ht.throws (ih (h.resolve_left (not_not_intro hfits))).bind)

/-- No option with a position has a digit. -/
theorem posFlags_no_digit {a : String} (h : a ∈ POS_FLAGS) : ∀ c ∈ a.toList, c.isDigit = false := by
  have hall : ∀ a ∈ POS_FLAGS, a.toList.any Char.isDigit = false := by decide
  intro c hc
  exact eq_false_of_ne_true (List.any_eq_false.mp (hall a h) c hc)

/-- A moved value is the same, or no option with a position. -/
theorem returns_shift {v : String} (h : Fits v) :
    Draw.Returns (shift v) fun v' => v' ∈ POS_FLAGS → v' = v := by
  unfold shift
  refine (returns_shiftPieces h).bind fun cs hcs => Draw.returns_pure fun hflag => ?_
  rcases hcs with rfl | ⟨c, hc, hdigit⟩
  · rw [text_pieces, String.ofList_toList]
  · have hno := posFlags_no_digit hflag c (by rwa [String.toList_ofList])
    rw [hdigit] at hno
    cases hno

theorem shift_throws {v : String} (h : ¬ Fits v) : Draw.Throws (shift v) := (shiftPieces_throws h).bind

/-! ## `mutate`

A mutation goes over the values of the options with a position, and throws where one of them has
a number that does not fit. Where all numbers fit it returns, whatever is drawn. -/

/-- The value after an option: changed or not, it is the old one or no option with a
position. -/
theorem returns_jitter {a v : String} (h : a ∈ POS_FLAGS → Fits v) : Draw.Returns (jitter a v) fun x =>
    (x.1 ∈ POS_FLAGS → x.1 = v) ∧ (x.2 = false → x.1 = v) := by
  unfold jitter
  refine Draw.returns_ite (fun ha => ?_) fun _ => Draw.returns_ite (fun _ => ?_) fun _ => ?_
  · refine (Draw.returns_nextInt (by decide)).bind fun d _ => Draw.returns_ite (fun _ => ?_) fun _ => ?_
    · refine (returns_shift (h ha)).bind fun v' hv' => Draw.returns_pure ⟨hv', fun hc => ?_⟩
      cases hc
    · exact Draw.returns_pure ⟨fun _ => rfl, fun _ => rfl⟩
  · refine (Draw.returns_nextInt (by decide)).bind fun d _ => Draw.returns_ite (fun _ => ?_) fun _ => ?_
    · refine (Draw.returns_nextInt (by decide)).bind fun t _ =>
        Draw.returns_pure ⟨fun hflag => ?_, fun hc => by cases hc⟩
      obtain ⟨c, hc, hdigit⟩ := exists_digit_toString t
      have hno := posFlags_no_digit hflag c hc
      rw [hdigit] at hno
      cases hno
    · exact Draw.returns_pure ⟨fun _ => rfl, fun _ => rfl⟩
  · exact Draw.returns_pure ⟨fun _ => rfl, fun _ => rfl⟩

/-- The loop over arguments that can be moved. The argument before was changed or not:
if it is an option with a position it is the old one. -/
theorem returns_jitterFrom {a b : String} (hb : b ∈ POS_FLAGS → b = a) {rest : List String}
    (h : Movable (a :: rest)) : Draw.Returns (jitterFrom b rest) fun x => x.2 = false → x.1 = b :: rest := by
  induction rest generalizing a b with
  | nil => exact Draw.returns_pure fun _ => rfl
  | cons v rest ih =>
    rw [Movable] at h
    unfold jitterFrom
    refine (returns_jitter fun hflag => h.1 (hb hflag ▸ hflag)).bind fun x hx =>
      (ih hx.1 h.2).bind fun y hy => Draw.returns_pure fun hc => ?_
    rw [Bool.or_eq_false_iff] at hc
    rw [hy hc.2, hx.2 hc.1]

/-- Where all numbers fit nothing is thrown, and without a hit nothing is changed. -/
theorem returns_jitterAll {args : List String} (h : Movable args) :
    Draw.Returns (jitterAll args) fun x => x.2 = false → x.1 = args := by
  cases args with
  | nil => exact Draw.returns_pure fun _ => rfl
  | cons a rest => exact returns_jitterFrom (fun _ => rfl) h

/-- The first number is moved where the draw hit none. -/
theorem returns_shiftFirst {args : List String} (h : Movable args) :
    Draw.Returns (shiftFirst args) fun _ => True := by
  induction args with
  | nil => exact Draw.returns_pure trivial
  | cons a rest ih =>
    cases rest with
    | nil => exact Draw.returns_pure trivial
    | cons v rest =>
      rw [Movable] at h
      unfold shiftFirst
      refine Draw.returns_ite (fun ha => ?_) fun _ => ?_
      · exact (returns_shift (h.1 ha)).bind fun v' _ => Draw.returns_pure trivial
      · exact (ih h.2).bind fun o _ => Draw.returns_pure trivial

theorem returns_mutate {p : DpiStrategy} (h : Movable p.args) : Draw.Returns (mutate p) fun _ => True := by
  unfold mutate
  refine Draw.returns_ite (fun _ => Draw.returns_pure trivial) fun _ => ?_
  refine (returns_jitterAll h).bind fun x hx => ?_
  have hrecord : Draw.Returns (addRecord x.1) fun _ => True := by
    unfold addRecord
    refine Draw.returns_ite (fun _ => Draw.returns_pure trivial) fun _ => ?_
    exact (Draw.returns_nextInt (by decide)).bind fun d _ => Draw.returns_pure trivial
  refine hrecord.bind fun add _ => ?_
  have hbody : Draw.Returns (if x.2 || add then
      pure (some (if add then x.1 ++ ["--tlsrec", "1+s"] else x.1)) else shiftFirst x.1) fun _ => True := by
    refine Draw.returns_ite (fun _ => Draw.returns_pure trivial) fun hno => ?_
    -- nothing was changed, so these are the old arguments
    rw [Bool.or_eq_true, not_or, Bool.not_eq_true] at hno
    rw [hx hno.1]
    exact returns_shiftFirst h
  exact hbody.bind fun o _ => Draw.returns_pure trivial

/-- A draw can leave an argument as it is. -/
theorem reaches_jitter (a v : String) : Draw.Reaches (jitter a v) (v, false) := by
  unfold jitter
  split
  · exact (Draw.reaches_nextInt (x := 1) (by decide) (by decide)).bind (Draw.reaches_pure _)
  · split
    · exact (Draw.reaches_nextInt (x := 1) (by decide) (by decide)).bind (Draw.reaches_pure _)
    · exact Draw.reaches_pure _

/-- Nothing is changed before the value that cannot be moved, and that one is. -/
theorem jitterFrom_throws {a : String} {rest : List String} (h : ¬ Movable (a :: rest)) :
    Draw.Throws (jitterFrom a rest) := by
  induction rest generalizing a with
  | nil => exact absurd trivial h
  | cons v rest ih =>
    rw [Movable, not_and_or] at h
    unfold jitterFrom
    by_cases hrest : Movable (v :: rest)
    · have hbad := h.resolve_right (not_not_intro hrest)
      rw [Classical.not_imp] at hbad
      unfold jitter
      rw [if_pos hbad.1]
      refine Draw.Throws.bind ?_
      exact (Draw.reaches_nextInt (x := 0) (by decide) (by decide)).throws (shift_throws hbad.2).bind
    · exact (reaches_jitter a v).throws (ih hrest).bind

/-- And arguments that are not movable throw in the end, on some stream. -/
theorem mutate_throws {p : DpiStrategy} (hengine : p.engine = .BYEDPI) (h : ¬ Movable p.args) :
    Draw.Throws (mutate p) := by
  unfold mutate
  rw [if_neg (not_not_intro hengine)]
  cases hargs : p.args with
  | nil =>
    rw [hargs] at h
    exact absurd trivial h
  | cons a rest =>
    rw [hargs] at h
    exact (jitterFrom_throws h).bind

/-! ## `reshape` and `cross`

The other two operators put genes together and never look into a value. So they do not throw on
any draw. -/

/-- Genes are changed without an exception. -/
theorem returns_regene {g : List (List String)} : Draw.Returns (regene g) fun _ => True := by
  unfold regene
  have hdrop : Draw.Returns (if 1 < g.length then Draw.nextInt 0 3 >>= fun d => pure (decide (d = 0))
      else pure false) fun drop => drop = true → 1 < g.length := by
    refine Draw.returns_ite (fun hmany => ?_) fun _ => Draw.returns_pure fun h => by cases h
    exact (Draw.returns_nextInt (by decide)).bind fun d _ => Draw.returns_pure fun _ => hmany
  refine hdrop.bind fun drop hmany => Draw.returns_ite (fun h => ?_) fun _ => ?_
  · have hlen := hmany h
    exact (Draw.returns_nextInt (by omega)).bind fun i _ => Draw.returns_pure trivial
  · refine Draw.returns_ite (fun _ => Draw.returns_pure trivial) fun hadd => ?_
    exact (Draw.returns_nextInt (by omega)).bind fun i _ =>
      (Draw.returns_element hadd).bind fun x _ => Draw.returns_pure trivial

theorem returns_reshape (p : DpiStrategy) : Draw.Returns (reshape p) fun _ => True := by
  unfold reshape
  refine Draw.returns_ite (fun _ => Draw.returns_pure trivial) fun _ => ?_
  cases genes p.args with
  | none => exact Draw.returns_pure trivial
  | some g => exact returns_regene.bind fun o _ => Draw.returns_pure trivial

theorem genes_ne_nil {args : List String} {g : List (List String)} (h : genes args = some g) : g ≠ [] := by
  rintro rfl
  have hflat := (genes_spec h).1
  rw [List.flatten_nil] at hflat
  rw [← hflat] at h
  cases h

/-- Two lists of genes are recombined, as long as the second has one to give. -/
theorem returns_recombine {ga gb : List (List String)} (hb : gb ≠ []) :
    Draw.Returns (recombine ga gb) fun _ => True := by
  unfold recombine
  have hcut : Draw.Returns (if 1 < ga.length then Draw.nextInt 1 ga.length else pure 1) fun _ => True := by
    refine Draw.returns_ite (fun hmany => ?_) fun _ => Draw.returns_pure trivial
    exact (Draw.returns_nextInt (by omega)).mono fun _ _ => trivial
  have hlen : 0 < gb.length := List.length_pos_of_ne_nil hb
  exact hcut.bind fun cut _ => (Draw.returns_nextInt (by omega)).bind fun start _ => Draw.returns_pure trivial

/-- Two strategies are crossed without an exception. -/
theorem returns_cross (p q : DpiStrategy) : Draw.Returns (cross p q) fun _ => True := by
  unfold cross
  refine Draw.returns_ite (fun _ => Draw.returns_pure trivial) fun _ => ?_
  cases genes p.args with
  | none => exact Draw.returns_pure trivial
  | some ga =>
    cases hgb : genes q.args with
    | none => exact Draw.returns_pure trivial
    | some gb => exact (returns_recombine (genes_ne_nil hgb)).bind fun c _ => Draw.returns_pure trivial

/-! ## `breed`

The litter is kept by every turn, so the search returns it if no turn throws. One parent that
cannot be moved is enough for a stream on which it throws, since the first draw may take that
parent. -/

theorem returns_child {bye : List DpiStrategy} {p : DpiStrategy} (h : Movable p.args) :
    Draw.Returns (child bye p) fun _ => True := by
  unfold child
  refine (Draw.returns_nextInt (by decide)).bind fun kind _ => ?_
  have hfirst : Draw.Returns (if kind = 0 then reshape p else if kind = 1 then
      if 1 < bye.length then Draw.element bye >>= fun q => cross p q else reshape p
      else mutate p) fun _ => True := by
    refine Draw.returns_ite (fun _ => returns_reshape p) fun _ => Draw.returns_ite (fun _ => ?_) fun _ => ?_
    · refine Draw.returns_ite (fun hmany => ?_) fun _ => returns_reshape p
      have hne : bye ≠ [] := by
        rintro rfl
        exact absurd hmany (by decide)
      exact (Draw.returns_element hne).bind fun q _ => returns_cross p q
    · exact returns_mutate h
  refine hfirst.bind fun m _ => ?_
  cases m with
  | none => exact returns_mutate h
  | some c => exact Draw.returns_pure trivial

theorem child_throws {bye : List DpiStrategy} {p : DpiStrategy} (hengine : p.engine = .BYEDPI)
    (h : ¬ Movable p.args) : Draw.Throws (child bye p) := by
  unfold child
  exact (Draw.reaches_nextInt (x := 2) (by decide) (by decide)).throws (mutate_throws hengine h).bind

/-- What a search is given: few strategies, none twice, none with the arguments of a
parent. -/
structure Litter (parents : List DpiStrategy) (n : Int32) (out : List DpiStrategy) : Prop where
  few : out.length ≤ n.toInt.toNat
  distinct : (out.map (·.id)).Nodup
  fresh : ∀ c ∈ out, ∀ p ∈ parents, c.args ≠ p.args

theorem litter_nil (parents : List DpiStrategy) (n : Int32) : Litter parents n [] :=
  ⟨Nat.zero_le _, List.nodup_nil, fun c hc => by cases hc⟩

/-- One more fits while there is room. -/
theorem Litter.enrol {parents out : List DpiStrategy} {n : Int32} (h : Litter parents n out)
    (hroom : (out.length : ℤ) < n.toInt) (m : Option DpiStrategy) : Litter parents n (enrol parents out m) := by
  unfold DpiEvo.enrol
  cases m with
  | none => exact h
  | some c =>
    dsimp only
    split
    · exact h
    · rename_i hnew
      rw [not_or] at hnew
      refine ⟨?_, ?_, ?_⟩
      · rw [List.length_append, List.length_singleton]
        omega
      · rw [List.map_append, List.map_singleton, List.nodup_append]
        refine ⟨h.distinct, List.nodup_singleton _, fun a ha b hb => ?_⟩
        rw [List.mem_singleton.mp hb]
        rintro rfl
        exact hnew.2 ha
      · intro d hd p hp
        rcases List.mem_append.mp hd with hd | hd
        · exact h.fresh d hd p hp
        · rw [List.mem_singleton.mp hd]
          exact fun heq => hnew.1 (List.any_eq_true.mpr ⟨p, hp, beq_iff_eq.mpr heq.symm⟩)

/-- The turns end with a litter, by induction on how many are left. -/
theorem returns_turns {parents bye : List DpiStrategy} {n : Int32} (hne : bye ≠ [])
    (h : ∀ p ∈ bye, Movable p.args) (k : ℕ) {out : List DpiStrategy} (hout : Litter parents n out) :
    Draw.Returns (turns parents bye n k out) (Litter parents n) := by
  induction k generalizing out with
  | zero => exact Draw.returns_pure hout
  | succ k ih =>
    unfold turns
    refine Draw.returns_ite (fun hroom => ?_) fun _ => Draw.returns_pure hout
    exact (Draw.returns_favoured hne).bind fun p hp => (returns_child (h p hp)).bind fun m _ =>
      ih (hout.enrol hroom m)

/-- One immovable parent is enough: the first draw may take it. -/
theorem turns_throws {parents bye : List DpiStrategy} {n : Int32} {p : DpiStrategy} (hlen : bye.length ≤ 2 ^ 31)
    (hp : p ∈ bye) (hengine : p.engine = .BYEDPI) (h : ¬ Movable p.args) {k : ℕ} (hk : 0 < k) (hn : 0 < n.toInt) :
    Draw.Throws (turns parents bye n k []) := by
  obtain ⟨k, rfl⟩ := Nat.exists_eq_succ_of_ne_zero (by omega : k ≠ 0)
  unfold turns
  rw [if_pos (by exact hn)]
  exact (Draw.reaches_favoured hlen hp).throws (child_throws hengine h).bind

/-- The custom line is planned. -/
theorem custom_mem_plan {U : Jvm} {hints : List String} {s : Settings} {network : String} {tpwsAvailable : Bool}
    {c : DpiStrategy} (h : DpiStrategies.custom U s.byeDpiArgs s.byeDpiSni = some c) :
    c ∈ DpiStrategies.plan U hints s network tpwsAvailable := by
  have hengine : c.engine = .BYEDPI := by
    obtain ⟨args, -, rfl⟩ := Option.map_eq_some_iff.mp h
    rfl
  unfold DpiStrategies.plan
  dsimp only
  rw [h, Option.toList_some, List.singleton_append, List.cons_append, List.cons_append, List.cons_append,
    List.cons_append, List.filter_cons, if_pos (by rw [hengine]; simp), distinctBy]
  exact List.mem_cons_self

end DpiEvo

end VlessCard
