/-
`kavl.h` of byedpi: the balanced trees that hold its lists of hosts, of addresses and of what worked before.

A node carries the difference of the heights of its two children in a `signed char`. Going down to a place
writes the nodes passed into an array of sixty-four; going back up mends the differences, and rotates where
one of them reaches two. A path is a tree with a hole here, the frame nearest to the hole first, as the
arrays `path` and `dir` are read backwards. The field `size` of a node only counts for callers that ask for
a rank, which none does.
-/
import Mathlib

set_option autoImplicit false

namespace VlessCard.Kavl

variable {α : Type}

/-- `KAVL_HEAD`: the children `p[0]` and `p[1]` and the balance of an element. -/
inductive Tree (α : Type) where
  | nil
  | node (left : Tree α) (x : α) (balance : ℤ) (right : Tree α)
  deriving DecidableEq, Repr

def KAVL_MAX_DEPTH : ℕ := 64

/-- The balance that is read of a child. -/
def Tree.balance : Tree α → ℤ
  | .nil => 0
  | .node _ _ b _ => b

/-- The node of which `near` is `p[dir]` and `far` is `p[1 - dir]`. -/
def link (dir : Bool) (near : Tree α) (x : α) (balance : ℤ) (far : Tree α) : Tree α :=
  if dir then .node far x balance near else .node near x balance far

/-- `b1` of a direction: `which == 0? +1 : -1`. -/
def b1 (which : Bool) : ℤ := if which then -1 else 1

/-- An entry of `path` and `dir`: a node that was left towards `p[dir]`. -/
structure Frame (α : Type) where
  dir : Bool
  x : α
  balance : ℤ
  other : Tree α
  deriving DecidableEq, Repr

/-- The node of a frame, with `t` where the search went on and `balance` as its balance. -/
def Frame.set (f : Frame α) (t : Tree α) (balance : ℤ) : Tree α := link f.dir t f.x balance f.other

/-- The whole tree of which `t` stands at the end of a path. -/
def fill : Tree α → List (Frame α) → Tree α
  | t, [] => t
  | t, f :: path => fill (f.set t f.balance) path

/-! ## Looking for a place

The source goes down from the root and keeps the way in two arrays. Here the way is a list of
frames, and what stands at its end is the tree that the search came to. -/

/-- Where a search ends: at a node, or at a child that is not there. -/
inductive Spot (α : Type) where
  | found (left : Tree α) (x : α) (balance : ℤ) (right : Tree α) (path : List (Frame α))
  | gap (path : List (Frame α))

/-- The loops that look for `x`; `cmp p` is `__cmp(x, p)`. -/
def descend (cmp : α → Ordering) : Tree α → List (Frame α) → Spot α
  | .nil, path => .gap path
  | .node l p b r, path =>
    match cmp p with
    | .eq => .found l p b r path
    | .lt => descend cmp l (⟨false, p, b, r⟩ :: path)
    | .gt => descend cmp r (⟨true, p, b, l⟩ :: path)

def Spot.path : Spot α → List (Frame α)
  | .found _ _ _ _ path => path
  | .gap path => path

/-- `kavl_find`. -/
def find (cmp : α → Ordering) : Tree α → Option α
  | .nil => none
  | .node l p _ r =>
    match cmp p with
    | .lt => find cmp l
    | .gt => find cmp r
    | .eq => some p

/-! ## Rotations

The rotations are written once, with a direction. The source computes with the direction as well,
so that one text serves both sides. -/

/-- `kavl_rotate1`, `(a,(b,c)q)p => ((a,b)p,c)q`, and the balances that its caller leaves in `p` and `q`. -/
def rotate1 (dir : Bool) (bp bq : ℤ) : Tree α → Tree α
  | .nil => .nil
  | .node l p b r =>
    match if dir then l else r with
    | .nil => .node l p b r
    | .node ql q _ qr =>
      link dir (link dir (if dir then r else l) p bp (if dir then qr else ql)) q bq (if dir then ql else qr)

/-- `kavl_rotate2`, `(a,((b,c)r,d)q)p => ((a,b)p,(c,d)q)r`. -/
def rotate2 (dir : Bool) : Tree α → Tree α
  | .nil => .nil
  | .node l p b r =>
    match if dir then l else r with
    | .nil => .node l p b r
    | .node ql q _ qr =>
      match if dir then qr else ql with
      | .nil => .node l p b r
      | .node rl x br rr =>
        let (bp', bq') := if br = b1 dir then (-b1 dir, 0) else if br = 0 then (0, 0) else (0, b1 dir)
        link dir (link dir (if dir then r else l) p bp' (if dir then rr else rl)) x 0
          (link dir (if dir then rl else rr) q bq' (if dir then ql else qr))

/-! ## Inserting

After an insertion the source follows the way from the last node that leaned and corrects the
balances below it. The model goes up from the new element, which does the same to the same nodes. -/

/-- What is done at `bp`, the last node on the way down whose balance was not zero. -/
def rebalance : Tree α → Tree α
  | .nil => .nil
  | .node l p b r =>
    if -2 < b ∧ b < 2 then .node l p b r
    else
      let which := decide (b < 0)
      let q := if which then l else r
      if q.balance = b1 which then rotate1 which 0 0 (.node l p b r) else rotate2 which (.node l p b r)

/-- The update of the balances after `t` has grown: the nodes below `bp` have a balance of zero, and nothing
above `bp` changes. -/
def rise : Tree α → List (Frame α) → Tree α
  | t, [] => t
  | t, f :: path =>
    let p := f.set t (f.balance - b1 f.dir)
    if f.balance = 0 then rise p path else fill (rebalance p) path

/-- `kavl_insert`: the element that is there, or the tree with `x` in it. -/
def insert (cmp : α → Ordering) (x : α) (root : Tree α) : α ⊕ Tree α :=
  match descend cmp root [] with
  | .found _ p _ _ _ => .inl p
  | .gap path => .inr (rise (.node .nil x 0 .nil) path)

/-! ## Erasing

An element with two children changes its place with the next one in order, which has one child at
most. Then a level is missing where that one was, and the way up mends the balances. -/

/-- The first element of a tree given by its root, the way to it from there, and what stands right of it. -/
def leftmost : Tree α → α → ℤ → Tree α → List (Frame α) → List (Frame α) × α × Tree α
  | .nil, x, _, r, path => (path, x, r)
  | .node ll y by' lr, x, b, r, path => leftmost ll y by' lr (⟨false, x, b, r⟩ :: path)

/-- The loop `while (--d > 0)` after `t` has lost a level. -/
def fall : Tree α → List (Frame α) → Tree α
  | t, [] => t
  | t, f :: path =>
    let b := f.balance + b1 f.dir
    let q := f.set t b
    if b = b1 f.dir then fill q path
    else if b = 2 * b1 f.dir then
      if f.other.balance = -b1 f.dir then fall (rotate2 f.dir q) path
      else if f.other.balance = 0 then fill (rotate1 f.dir (b1 f.dir) (-b1 f.dir) q) path
      else fall (rotate1 f.dir 0 0 q) path
    else fall q path

/-- What is put in the place of a node, and the path to where a level is missing. An element with a right
child is replaced by the first element that stands there. -/
def splice (l : Tree α) (b : ℤ) (r : Tree α) (path : List (Frame α)) : Tree α × List (Frame α) :=
  match r with
  | .nil => (l, path)
  | .node rl x bx rr =>
    let (way, x', r') := leftmost rl x bx rr []
    (r', way ++ ⟨true, x', b, l⟩ :: path)

/-- `kavl_erase`: the element that is taken out, and the tree without it. -/
def erase (cmp : α → Ordering) (root : Tree α) : Option (α × Tree α) :=
  match descend cmp root [] with
  | .gap _ => none
  | .found l p b r path => some (p, fall (splice l b r path).1 (splice l b r path).2)

/-! ## What a tree holds

The elements in order and the height are what a tree is judged by. Both are said of a node seen
from one side, so that each lemma serves both directions. -/

namespace Tree

/-- In the order of `kavl_itr_next`. -/
def toList : Tree α → List α
  | .nil => []
  | .node l x _ r => l.toList ++ x :: r.toList

def height : Tree α → ℕ
  | .nil => 0
  | .node l _ _ r => max l.height r.height + 1

/-- Every balance says how much higher the right child is than the left one, and none is beyond one. -/
def Balanced : Tree α → Prop
  | .nil => True
  | .node l _ b r => l.Balanced ∧ r.Balanced ∧ b = r.height - l.height ∧ -1 ≤ b ∧ b ≤ 1

end Tree

/-- The elements left of the end of a path, and those right of it. -/
def before : List (Frame α) → List α
  | [] => []
  | f :: path => before path ++ if f.dir then f.other.toList ++ [f.x] else []

def after : List (Frame α) → List α
  | [] => []
  | f :: path => (if f.dir then [] else f.x :: f.other.toList) ++ after path

/-- In order the far side comes first where the direction is to the right. -/
theorem toList_link (dir : Bool) (near far : Tree α) (x : α) (b : ℤ) :
    (link dir near x b far).toList
      = if dir then far.toList ++ x :: near.toList else near.toList ++ x :: far.toList := by
  cases dir <;> rfl

/-- The height does not know left from right. -/
@[simp] theorem height_link (dir : Bool) (near far : Tree α) (x : α) (b : ℤ) :
    (link dir near x b far).height = max near.height far.height + 1 := by
  cases dir
  · rfl
  · simp only [link, if_true, Tree.height, Nat.max_comm]

/-- Nor does the balance that is written into the node. -/
@[simp] theorem balance_link (dir : Bool) (near far : Tree α) (x : α) (b : ℤ) : (link dir near x b far).balance = b := by
  cases dir <;> rfl

/-- A node is balanced in a direction as it is in the other, with the sign turned. -/
theorem balanced_link (dir : Bool) (near far : Tree α) (x : α) (b : ℤ) :
    (link dir near x b far).Balanced ↔ near.Balanced ∧ far.Balanced
      ∧ b = b1 dir * (far.height - near.height) ∧ -1 ≤ b ∧ b ≤ 1 := by
  cases dir
  · simp only [link, Bool.false_eq_true, if_false, Tree.Balanced, b1, one_mul]
  · simp only [link, if_true, Tree.Balanced, b1]
    constructor
    · rintro ⟨hfar, hnear, hb, hlow, hhigh⟩
      exact ⟨hnear, hfar, by omega, hlow, hhigh⟩
    · rintro ⟨hnear, hfar, hb, hlow, hhigh⟩
      exact ⟨hfar, hnear, by omega, hlow, hhigh⟩

/-- A tree that is not empty is a node seen from either side. -/
theorem exists_link (dir : Bool) {t : Tree α} (h : 0 < t.height) :
    ∃ near x b far, t = link dir near x b far := by
  cases t with
  | nil => exact absurd h (by simp [Tree.height])
  | node l x b r =>
    cases dir
    · exact ⟨l, x, b, r, rfl⟩
    · exact ⟨r, x, b, l, rfl⟩

theorem b1_sq (dir : Bool) : b1 dir = 1 ∨ b1 dir = -1 := by
  cases dir
  · exact Or.inl rfl
  · exact Or.inr rfl

/-- Turning the direction exchanges the sides. -/
theorem link_not (dir : Bool) (near far : Tree α) (x : α) (b : ℤ) : link dir near x b far = link (!dir) far x b near := by
  cases dir <;> rfl

@[simp] theorem b1_not (dir : Bool) : b1 (!dir) = -b1 dir := by
  cases dir <;> rfl

/-! ## Rotations keep the order and mend the balance

A rotation keeps the order of the elements whatever the balances are, and mends the balance where
one side has become too high. The two facts are kept apart, as the order does not need the
balance. -/

/-- A single rotation, read off in the direction it is done in. -/
theorem rotate1_link (dir : Bool) (a b c : Tree α) (p q : α) (xp xq bp bq : ℤ) :
    rotate1 dir bp bq (link dir a p xp (link dir b q xq c)) = link dir (link dir a p bp b) q bq c := by
  cases dir <;> rfl

/-- A double rotation in its direction, with the three balances that it writes. -/
theorem rotate2_link (dir : Bool) (a b c d : Tree α) (p q r : α) (xp xq xr : ℤ) :
    rotate2 dir (link dir a p xp (link dir (link dir b r xr c) q xq d))
      = link dir (link dir a p (if xr = b1 dir then -b1 dir else 0) b) r 0
          (link dir c q (if xr = b1 dir ∨ xr = 0 then 0 else b1 dir) d) := by
  cases dir <;> simp only [rotate2, link, b1, Bool.false_eq_true, if_false, if_true] <;> split_ifs <;>
    first
    | rfl
    | omega

/-- A single rotation keeps the order of the elements. -/
theorem toList_rotate1 (dir : Bool) (bp bq : ℤ) (t : Tree α) : (rotate1 dir bp bq t).toList = t.toList := by
  match dir, t with
  | false, .nil | true, .nil | false, .node _ _ _ .nil | true, .node .nil _ _ _ => rfl
  | false, .node l p b (.node ql q bq qr) =>
    simp [rotate1, link, Tree.toList]
  | true, .node (.node ql q bq qr) p b r =>
    simp [rotate1, link, Tree.toList]

theorem toList_rotate2 (dir : Bool) (t : Tree α) : (rotate2 dir t).toList = t.toList := by
  match dir, t with
  | false, .nil | true, .nil | false, .node _ _ _ .nil | true, .node .nil _ _ _ => rfl
  | false, .node _ _ _ (.node .nil _ _ _) | true, .node (.node _ _ _ .nil) _ _ _ => rfl
  | false, .node l p b (.node (.node rl x br rr) q bq qr) =>
    simp [rotate2, link, Tree.toList]
  | true, .node (.node ql q bq (.node rl x br rr)) p b r =>
    simp [rotate2, link, Tree.toList]

/-- What `kavl_insert` and `kavl_erase` do with a node once its balance is known. -/
theorem rebalance_node (l r : Tree α) (p : α) (b : ℤ) :
    rebalance (.node l p b r) = if -2 < b ∧ b < 2 then .node l p b r
      else if (if decide (b < 0) then l else r).balance = b1 (decide (b < 0))
      then rotate1 (decide (b < 0)) 0 0 (.node l p b r) else rotate2 (decide (b < 0)) (.node l p b r) := rfl

/-- Rebalancing keeps the order of the elements, whatever the balances say. -/
theorem toList_rebalance (t : Tree α) : (rebalance t).toList = t.toList := by
  cases t with
  | nil => rfl
  | node l p b r =>
    rw [rebalance_node]
    by_cases hb : -2 < b ∧ b < 2
    · rw [if_pos hb]
    · rw [if_neg hb, apply_ite Tree.toList, toList_rotate1, toList_rotate2, ite_self]

/-- A rotation where the outer grandchild is the high one. -/
theorem balanced_rotate1 {dir : Bool} {a b c : Tree α} (p : α) {q : α} (xp : ℤ) {xq : ℤ} (ha : a.Balanced)
    (hq : (link dir b q xq c).Balanced) (hh : (link dir b q xq c).height = a.height + 2) (hx : xq = b1 dir) :
    (rotate1 dir 0 0 (link dir a p xp (link dir b q xq c))).Balanced
      ∧ (rotate1 dir 0 0 (link dir a p xp (link dir b q xq c))).height = a.height + 2 := by
  obtain ⟨hb, hc, hxq, -, -⟩ := (balanced_link ..).1 hq
  rw [height_link] at hh
  have hhigh : c.height = b.height + 1 := by
    rcases b1_sq dir with hd | hd <;> rw [hd] at hx hxq <;> omega
  simp only [rotate1_link, balanced_link, height_link]
  refine ⟨⟨⟨ha, hb, ?_, by omega, by omega⟩, hc, ?_, by omega, by omega⟩, by omega⟩
  · rw [show a.height = b.height by omega, sub_self, mul_zero]
  · rw [show c.height = b.height + 1 by omega, show max a.height b.height + 1 = b.height + 1 by omega,
      sub_self, mul_zero]

/-- A rotation where both grandchildren are as high: the tree does not lose a level. -/
theorem balanced_rotate1_even {dir : Bool} {a b c : Tree α} (p : α) {q : α} (xp : ℤ) {xq : ℤ} (ha : a.Balanced)
    (hq : (link dir b q xq c).Balanced) (hh : (link dir b q xq c).height = a.height + 2) (hx : xq = 0) :
    (rotate1 dir (b1 dir) (-b1 dir) (link dir a p xp (link dir b q xq c))).Balanced
      ∧ (rotate1 dir (b1 dir) (-b1 dir) (link dir a p xp (link dir b q xq c))).height = a.height + 3 := by
  obtain ⟨hb, hc, hxq, -, -⟩ := (balanced_link ..).1 hq
  rw [height_link] at hh
  have heven : c.height = b.height := by
    rcases b1_sq dir with hd | hd <;> rw [hd] at hxq <;> omega
  simp only [rotate1_link, balanced_link, height_link]
  have hmax : max a.height b.height + 1 = b.height + 1 := by omega
  refine ⟨⟨⟨ha, hb, ?_, ?_, ?_⟩, hc, ?_, ?_, ?_⟩, by omega⟩ <;> rcases b1_sq dir with hd | hd <;> rw [hd] <;> omega

/-- Two rotations where the inner grandchild is the high one. -/
theorem balanced_rotate2 {dir : Bool} {a q : Tree α} (p : α) (xp : ℤ) (ha : a.Balanced)
    (hq : q.Balanced) (hh : q.height = a.height + 2) (hx : q.balance = -b1 dir) :
    (rotate2 dir (link dir a p xp q)).Balanced ∧ (rotate2 dir (link dir a p xp q)).height = a.height + 2 := by
  obtain ⟨r, y, xq, d, rfl⟩ := exists_link dir (t := q) (by omega)
  rw [balance_link] at hx
  obtain ⟨hr, hd, hxq, -, -⟩ := (balanced_link ..).1 hq
  rw [height_link] at hh
  have hhigh : r.height = d.height + 1 := by
    rcases b1_sq dir with hd | hd <;> rw [hd] at hx hxq <;> omega
  obtain ⟨b, z, xr, c, rfl⟩ := exists_link dir (t := r) (by omega)
  obtain ⟨hb, hc, hxr, hlow, hup⟩ := (balanced_link ..).1 hr
  rw [height_link] at hh hhigh
  simp only [rotate2_link, balanced_link, height_link]
  refine ⟨⟨⟨ha, hb, ?_, ?_, ?_⟩, ⟨hc, hd, ?_, ?_, ?_⟩, ?_, by omega, by omega⟩, by omega⟩ <;>
    rcases b1_sq dir with hd | hd <;> rw [hd] at hxr ⊢ <;> (try split_ifs) <;> omega

/-! ## The balance after an insertion and after an erasure

Going up a path the height changes by one level or not at all. The statement says which, since
the node above is mended by it; the induction is over the path. -/

/-- What stands in a hole of a balanced tree is balanced. -/
theorem balanced_of_fill {t : Tree α} {path : List (Frame α)} (h : (fill t path).Balanced) : t.Balanced := by
  induction path generalizing t with
  | nil => exact h
  | cons f path ih => exact ((balanced_link ..).1 (ih h)).1

/-- Only the height of what stands at the end of a path matters above it. -/
theorem balanced_fill_congr {t t' : Tree α} {path : List (Frame α)} (h : (fill t path).Balanced)
    (ht' : t'.Balanced) (hh : t'.height = t.height) : (fill t' path).Balanced := by
  induction path generalizing t t' with
  | nil => exact ht'
  | cons f path ih =>
    have hset := balanced_of_fill (t := f.set t f.balance) h
    refine ih h ?_ ?_
    · unfold Frame.set at hset ⊢
      rw [balanced_link] at hset ⊢
      exact ⟨ht', hset.2.1, by rw [hh]; exact hset.2.2.1, hset.2.2.2⟩
    · unfold Frame.set
      rw [height_link, height_link, hh]

/-- A node whose sides differ by one at most is left alone. -/
theorem rebalance_even {dir : Bool} {near far : Tree α} {x : α} {b : ℤ} (hlow : -2 < b) (hup : b < 2) :
    rebalance (link dir near x b far) = link dir near x b far := by
  cases dir
  · exact (rebalance_node _ _ _ _).trans (if_pos ⟨hlow, hup⟩)
  · exact (rebalance_node _ _ _ _).trans (if_pos ⟨hlow, hup⟩)

/-- One that leans by two is rotated once, or twice where the near side leans the other way. -/
theorem rebalance_heavy (dir : Bool) (near far : Tree α) (x : α) :
    rebalance (link dir near x (-2 * b1 dir) far)
      = if near.balance = b1 (!dir) then rotate1 (!dir) 0 0 (link (!dir) far x (-2 * b1 dir) near)
        else rotate2 (!dir) (link (!dir) far x (-2 * b1 dir) near) := by
  rw [← link_not]
  cases dir
  · simp [link, b1, rebalance_node]
  · simp [link, b1, rebalance_node]

/-- A node that has become too high at one child is mended, and is as high as it was before. -/
theorem balanced_rebalance (dir : Bool) {near far : Tree α} (x : α) (hnear : near.Balanced) (hfar : far.Balanced)
    (hh : near.height = far.height + 2) (hb : near.balance ≠ 0) :
    (rebalance (link dir near x (-2 * b1 dir) far)).Balanced
      ∧ (rebalance (link dir near x (-2 * b1 dir) far)).height = far.height + 2 := by
  obtain ⟨b, y, xq, c, rfl⟩ := exists_link (!dir) (t := near) (by omega)
  have hxq := ((balanced_link ..).1 hnear).2.2
  rw [rebalance_heavy]
  rw [balance_link] at hb ⊢
  by_cases hx : xq = b1 (!dir)
  · rw [if_pos hx]
    exact balanced_rotate1 _ _ hfar hnear hh hx
  · rw [if_neg hx]
    refine balanced_rotate2 _ _ hfar hnear hh ?_
    rw [balance_link]
    rcases b1_sq (!dir) with hd | hd <;> rw [hd] at hx ⊢ <;> omega

/-- What stands at the end of the path has grown by a level. The induction goes up the path: as long as the
balances were zero the nodes grow too, and at the first other one they stop. -/
theorem balanced_rise {t t' : Tree α} {path : List (Frame α)} (h : (fill t path).Balanced) (ht' : t'.Balanced)
    (hh : t'.height = t.height + 1) (hb : t'.balance = 0 → t.height = 0) : (rise t' path).Balanced := by
  induction path generalizing t t' with
  | nil => exact ht'
  | cons f path ih =>
    obtain ⟨-, hother, hbal, hlow, hup⟩ := (balanced_link ..).1 (balanced_of_fill (t := f.set t f.balance) h)
    simp only [rise]
    by_cases hzero : f.balance = 0
    -- the other side was as high, so this node grows and the way goes on
    · have heven : f.other.height = t.height := by
        rcases b1_sq f.dir with hd | hd <;> rw [hd] at hbal <;> omega
      rw [if_pos hzero]
      refine ih (t := f.set t f.balance) h ?_ ?_ ?_
      · unfold Frame.set
        rw [balanced_link]
        refine ⟨ht', hother, ?_, ?_, ?_⟩ <;> rcases b1_sq f.dir with hd | hd <;> rw [hd] <;> omega
      · unfold Frame.set
        rw [height_link, height_link]
        omega
      · unfold Frame.set
        rw [balance_link]
        intro hz
        rcases b1_sq f.dir with hd | hd <;> omega
    · rw [if_neg hzero]
      by_cases hlight : f.balance = b1 f.dir
      -- the other side was higher, so the node is even now and as high as before
      · have hhigh : f.other.height = t.height + 1 := by
          rcases b1_sq f.dir with hd | hd <;> rw [hd] at hbal hlight <;> omega
        rw [hlight, sub_self, Frame.set, rebalance_even (by omega) (by omega)]
        refine balanced_fill_congr (t := f.set t f.balance) h ?_ ?_
        · rw [balanced_link, hh, hhigh, Nat.cast_add, sub_self, mul_zero]
          exact ⟨ht', hother, rfl, by omega, by omega⟩
        · unfold Frame.set
          rw [height_link, height_link]
          omega
      -- this side was the higher one already, so the node is mended and as high as before
      · have hhigh : t.height = f.other.height + 1 ∧ f.balance = -b1 f.dir := by
          rcases b1_sq f.dir with hd | hd <;> rw [hd] at hbal hlight ⊢ <;> omega
        rw [hhigh.2, show -b1 f.dir - b1 f.dir = -2 * b1 f.dir by ring, Frame.set]
        have hmend := balanced_rebalance f.dir f.x ht' hother (by omega)
          (fun hz => absurd (hb hz) (by omega))
        refine balanced_fill_congr (t := f.set t f.balance) h hmend.1 ?_
        rw [hmend.2, Frame.set, height_link]
        omega

/-- What stands at the end of the path has lost a level. Going up, a node that leaned the other way stands even
and has lost a level too; one that stood even keeps its height, and so does one whose other child stands even. -/
theorem balanced_fall {t t' : Tree α} {path : List (Frame α)} (h : (fill t path).Balanced) (ht' : t'.Balanced)
    (hh : t.height = t'.height + 1) : (fall t' path).Balanced := by
  induction path generalizing t t' with
  | nil => exact ht'
  | cons f path ih =>
    obtain ⟨-, hother, hbal, hlow, hup⟩ := (balanced_link ..).1 (balanced_of_fill (t := f.set t f.balance) h)
    have hset : (f.set t f.balance).height = max t.height f.other.height + 1 := height_link ..
    simp only [fall]
    by_cases heven : f.balance = 0
    -- the node was even: it leans now, and is as high as before
    · have hsame : f.other.height = t.height := by
        rcases b1_sq f.dir with hd | hd <;> rw [hd] at hbal <;> omega
      rw [if_pos (by omega)]
      refine balanced_fill_congr (t := f.set t f.balance) h ?_ ?_
      · unfold Frame.set
        rw [balanced_link]
        refine ⟨ht', hother, ?_, ?_, ?_⟩ <;> rcases b1_sq f.dir with hd | hd <;> rw [hd] <;> omega
      · rw [hset, Frame.set, height_link]
        omega
    · rw [if_neg (by omega)]
      by_cases hheavy : f.balance = b1 f.dir
      -- the other side was the higher one: what is done depends on how it leans
      · have hhigh : f.other.height = t'.height + 2 := by
          rcases b1_sq f.dir with hd | hd <;> rw [hd] at hbal hheavy <;> omega
        rw [if_pos (by omega)]
        obtain ⟨b, y, xq, c, hq⟩ := exists_link f.dir (t := f.other) (by omega)
        have hxq := ((balanced_link ..).1 (hq ▸ hother)).2.2
        rw [hq] at hother hhigh
        rw [Frame.set, hq, balance_link]
        -- it leans inwards, so a double rotation makes the node lower by one
        by_cases hin : xq = -b1 f.dir
        · have hmend := balanced_rotate2 f.x (f.balance + b1 f.dir) ht' hother hhigh
            ((balance_link ..).trans hin)
          rw [if_pos hin]
          refine ih (t := f.set t f.balance) h hmend.1 ?_
          rw [hmend.2, hset, hq, hhigh]
          omega
        · rw [if_neg hin]
          by_cases hflat : xq = 0
          -- it is even, so a single rotation leaves the height
          · have hmend := balanced_rotate1_even f.x (f.balance + b1 f.dir) ht' hother hhigh hflat
            rw [if_pos hflat]
            refine balanced_fill_congr (t := f.set t f.balance) h hmend.1 ?_
            rw [hmend.2, hset, hq, hhigh]
            omega
          · have hout : xq = b1 f.dir := by
              rcases b1_sq f.dir with hd | hd <;> rw [hd] at hin ⊢ <;> omega
            -- it leans outwards, so a single rotation makes the node lower by one
            have hmend := balanced_rotate1 f.x (f.balance + b1 f.dir) ht' hother hhigh hout
            rw [if_neg hflat]
            refine ih (t := f.set t f.balance) h hmend.1 ?_
            rw [hmend.2, hset, hq, hhigh]
            omega
      · have hlight : f.balance = -b1 f.dir := by
          rcases b1_sq f.dir with hd | hd <;> rw [hd] at hheavy ⊢ <;> omega
        -- this side was the higher one: the node is even now, and lower by one
        have hlow' : t.height = f.other.height + 1 := by
          rcases b1_sq f.dir with hd | hd <;> rw [hd] at hbal hlight <;> omega
        rw [if_neg (by rcases b1_sq f.dir with hd | hd <;> omega)]
        refine ih (t := f.set t f.balance) h ?_ ?_
        · rw [hlight, neg_add_cancel, Frame.set, balanced_link, show t'.height = f.other.height by omega, sub_self,
            mul_zero]
          exact ⟨ht', hother, rfl, by omega, by omega⟩
        · rw [hset, Frame.set, height_link]
          omega

/-! ## What is above and below a path

The elements of the whole tree are those before the path, those at its end and those behind it.
What is changed at the end of a path changes the middle part only. -/

/-- The elements before a longer path, from the outside in. -/
theorem before_append (way path : List (Frame α)) : before (way ++ path) = before path ++ before way := by
  induction way with
  | nil => exact (List.append_nil _).symm
  | cons f way ih => rw [List.cons_append, before, ih, before, List.append_assoc]

theorem after_append (way path : List (Frame α)) : after (way ++ path) = after way ++ after path := by
  induction way with
  | nil => rfl
  | cons f way ih => rw [List.cons_append, after, ih, after, List.append_assoc]

/-- Filling one frame moves the hole one node up. -/
theorem toList_set (f : Frame α) (t : Tree α) (b : ℤ) (path : List (Frame α)) :
    before path ++ (f.set t b).toList ++ after path = before (f :: path) ++ t.toList ++ after (f :: path) := by
  rw [Frame.set, toList_link, before, after]
  cases f.dir <;> simp

/-- A tree with its hole filled has the elements before the hole, those put in, and those behind. -/
theorem toList_fill (t : Tree α) (path : List (Frame α)) :
    (fill t path).toList = before path ++ t.toList ++ after path := by
  induction path generalizing t with
  | nil => simp [fill, before, after]
  | cons f path ih => rw [fill, ih, toList_set]

/-- The way up after an insertion keeps the elements where they are. -/
theorem toList_rise (t : Tree α) (path : List (Frame α)) :
    (rise t path).toList = before path ++ t.toList ++ after path := by
  induction path generalizing t with
  | nil => simp [rise, before, after]
  | cons f path ih =>
    simp only [rise]
    split
    · rw [ih, toList_set]
    · rw [toList_fill, toList_rebalance, toList_set]

theorem toList_fall (t : Tree α) (path : List (Frame α)) :
    (fall t path).toList = before path ++ t.toList ++ after path := by
  induction path generalizing t with
  | nil => simp [fall, before, after]
  | cons f path ih =>
    simp only [fall]
    split_ifs
    · rw [toList_fill, toList_set]
    · rw [ih, toList_rotate2, toList_set]
    · rw [toList_fill, toList_rotate1, toList_set]
    · rw [ih, toList_rotate1, toList_set]
    · rw [ih, toList_set]

/-! ## What a search has passed

Each frame of the path remembers to which side a comparison has sent the search. So what lies to
the left of the end was passed as smaller, and what lies to the right as larger. -/

/-- What stands where a search ended. -/
def Spot.tree : Spot α → Tree α
  | .found l x b r _ => .node l x b r
  | .gap _ => .nil

/-- The search has left every node of the path to the side where its comparison sent it. -/
def Passed (cmp : α → Ordering) (path : List (Frame α)) : Prop :=
  ∀ f ∈ path, cmp f.x = if f.dir then .gt else .lt

/-- A descent changes nothing: filled again its hole gives the tree. -/
theorem fill_descend (cmp : α → Ordering) (t : Tree α) (path : List (Frame α)) :
    fill (descend cmp t path).tree (descend cmp t path).path = fill t path := by
  induction t generalizing path with
  | nil => rfl
  | node l p b r ihl ihr =>
    simp only [descend]
    cases cmp p with
    | lt => exact ihl _
    | eq => rfl
    | gt => exact ihr _

/-- What was compared on the way down is what the path remembers. -/
theorem passed_descend {cmp : α → Ordering} {t : Tree α} {path : List (Frame α)} (h : Passed cmp path) :
    Passed cmp (descend cmp t path).path := by
  induction t generalizing path with
  | nil => exact h
  | node l p b r ihl ihr =>
    simp only [descend]
    cases hp : cmp p with
    | lt => exact ihl (List.forall_mem_cons.2 ⟨hp, h⟩)
    | eq => exact h
    | gt => exact ihr (List.forall_mem_cons.2 ⟨hp, h⟩)

/-- A descent ends on an element only where that element compares equal. -/
theorem descend_found {cmp : α → Ordering} {t : Tree α} {path path' : List (Frame α)} {l r : Tree α} {x : α} {b : ℤ}
    (h : descend cmp t path = .found l x b r path') : cmp x = .eq := by
  induction t generalizing path with
  | nil => cases h
  | node tl p tb tr ihl ihr =>
    simp only [descend] at h
    cases hp : cmp p with
    | lt => exact ihl (by rwa [hp] at h)
    | eq =>
      rw [hp] at h
      injection h with _ hx
      rwa [← hx]
    | gt => exact ihr (by rwa [hp] at h)

/-- A search is a descent whose path is thrown away. -/
theorem find_eq (cmp : α → Ordering) (t : Tree α) (path : List (Frame α)) :
    find cmp t = match descend cmp t path with
      | .found _ x _ _ _ => some x
      | .gap _ => none := by
  induction t generalizing path with
  | nil => rfl
  | node l p b r ihl ihr =>
    simp only [descend, find]
    cases cmp p with
    | lt => exact ihl _
    | eq => rfl
    | gt => exact ihr _

/-- A descent goes down at every step, so its path is no longer than the tree is high. -/
theorem length_descend (cmp : α → Ordering) (t : Tree α) (path : List (Frame α)) :
    (descend cmp t path).path.length + (descend cmp t path).tree.height ≤ t.height + path.length := by
  induction t generalizing path with
  | nil => exact (Nat.add_comm _ _).le
  | node l p b r ihl ihr =>
    simp only [descend]
    cases cmp p with
    | lt =>
      have hlow := ihl (⟨false, p, b, r⟩ :: path)
      simp only [List.length_cons, Tree.height] at hlow ⊢
      omega
    | eq => simp only [Spot.path, Spot.tree, Tree.height]; omega
    | gt =>
      have hhigh := ihr (⟨true, p, b, l⟩ :: path)
      simp only [List.length_cons, Tree.height] at hhigh ⊢
      omega

/-- The element left of the end of a path is one that was passed, and so is the one right of it. -/
def Gap (cmp : α → Ordering) (lower upper : List α) : Prop :=
  (∀ v ∈ lower.getLast?, cmp v = .gt) ∧ ∀ v ∈ upper.head?, cmp v = .lt

/-- Where every comparison on the way was answered, the hole lies between smaller and larger ones. -/
theorem Passed.gap {cmp : α → Ordering} {path : List (Frame α)} (h : Passed cmp path) :
    Gap cmp (before path) (after path) := by
  induction path with
  | nil => exact ⟨by simp [before], by simp [after]⟩
  | cons f path ih =>
    obtain ⟨hf, hpath⟩ := List.forall_mem_cons.1 h
    obtain ⟨hbefore, hafter⟩ := ih hpath
    cases hdir : f.dir with
    | false =>
      rw [hdir] at hf
      simp only [before, after, hdir]
      exact ⟨by simpa using hbefore, by simpa using hf⟩
    | true =>
      rw [hdir] at hf
      simp only [before, after, hdir]
      exact ⟨by simpa using hf, by simpa using hafter⟩

/-! ## Taking the first element

The next element in order is the leftmost of the right side. Taking it out leaves a path that is
no longer than the tree was high. -/

/-- The node that the first element stood in, seen through the whole way to it. -/
theorem fill_leftmost (l : Tree α) (x : α) (b : ℤ) (r : Tree α) (path : List (Frame α)) :
    ∃ b', fill (.node .nil (leftmost l x b r path).2.1 b' (leftmost l x b r path).2.2) (leftmost l x b r path).1
      = fill (.node l x b r) path := by
  induction l generalizing x b r path with
  | nil => exact ⟨b, rfl⟩
  | node ll y by' lr ihl _ => exact ihl y by' lr (⟨false, x, b, r⟩ :: path)

/-- The way to the leftmost element passes nothing that stands before it. -/
theorem before_leftmost (l : Tree α) (x : α) (b : ℤ) (r : Tree α) (path : List (Frame α)) :
    before (leftmost l x b r path).1 = before path := by
  induction l generalizing x b r path with
  | nil => rfl
  | node ll y by' lr ihl _ =>
    rw [leftmost, ihl]
    exact List.append_nil _

/-- That way is bounded by the height as well. -/
theorem length_leftmost (l : Tree α) (x : α) (b : ℤ) (r : Tree α) (path : List (Frame α)) :
    (leftmost l x b r path).1.length ≤ l.height + path.length := by
  induction l generalizing x b r path with
  | nil => simp [leftmost]
  | node ll y by' lr ihl _ =>
    have hlow := ihl y by' lr (⟨false, x, b, r⟩ :: path)
    simp only [leftmost, List.length_cons, Tree.height] at hlow ⊢
    omega

/-- Taking the found node out leaves all other elements in their order. -/
theorem toList_splice (l : Tree α) (b : ℤ) (r : Tree α) (path : List (Frame α)) :
    before (splice l b r path).2 ++ (splice l b r path).1.toList ++ after (splice l b r path).2
      = before path ++ (l.toList ++ r.toList) ++ after path := by
  cases r with
  | nil => simp [splice, Tree.toList]
  | node rl x bx rr =>
    obtain ⟨b', hfill⟩ := fill_leftmost rl x bx rr []
    have hlist := congrArg Tree.toList hfill
    rw [toList_fill, before_leftmost] at hlist
    simp only [before, fill, List.nil_append, Tree.toList] at hlist
    simp only [splice, before_append, after_append, before_leftmost, before, after, if_true, List.nil_append,
      List.append_nil, Tree.toList]
    simpa using congrArg (fun xs => before path ++ l.toList ++ xs ++ after path) hlist

/-- The element that takes the place of another one has left a level missing where it stood. -/
theorem balanced_splice {l r : Tree α} {p : α} {b : ℤ} {path : List (Frame α)}
    (h : (fill (.node l p b r) path).Balanced) : (fall (splice l b r path).1 (splice l b r path).2).Balanced := by
  obtain ⟨hl, hr, hb, hlow, hup⟩ := balanced_of_fill h
  cases r with
  | nil =>
    refine balanced_fall h hl ?_
    exact congrArg (· + 1) (Nat.max_zero l.height)
  | node rl x bx rr =>
    obtain ⟨b', hfill⟩ := fill_leftmost rl x bx rr []
    have happend : ∀ (way path : List (Frame α)) (t : Tree α), fill t (way ++ path) = fill (fill t way) path := by
      intro way path
      induction way with
      | nil => exact fun _ => rfl
      | cons f way ih => exact fun t => ih _
    have hnode : (fill (.node .nil (leftmost rl x bx rr []).2.1 b' (leftmost rl x bx rr []).2.2)
        (leftmost rl x bx rr []).1).Balanced := hfill ▸ hr
    have hfirst := balanced_of_fill hnode
    refine balanced_fall (t := .node .nil (leftmost rl x bx rr []).2.1 b' (leftmost rl x bx rr []).2.2) ?_
      hfirst.2.1 ?_
    · change (fill _ ((leftmost rl x bx rr []).1 ++ _)).Balanced
      rw [happend, hfill]
      have hswap : (Tree.node l (leftmost rl x bx rr []).2.1 b (.node rl x bx rr)).Balanced := ⟨hl, hr, hb, hlow, hup⟩
      have hwhole := balanced_fill_congr h hswap rfl
      exact hwhole
    · change max 0 _ + 1 = _
      rw [Nat.zero_max]
      rfl

/-- The path that is then walked up is shorter than the height that was searched. -/
theorem length_splice (l : Tree α) (p : α) (b : ℤ) (r : Tree α) (path : List (Frame α)) :
    (splice l b r path).2.length < path.length + (Tree.node l p b r).height := by
  cases r with
  | nil => simp [splice, Tree.height]
  | node rl x bx rr =>
    have hway := length_leftmost rl x bx rr []
    simp only [splice, List.length_append, List.length_cons, List.length_nil, Tree.height] at hway ⊢
    omega

/-! ## The operations

What the three operations do to the elements in order, said with the gap in which a search ends.
Of the comparison nothing is assumed but what it answered on the way. -/

/-- A search gives an element that compares equal, or shows where one would stand. -/
theorem find_spec (cmp : α → Ordering) (t : Tree α) :
    (∃ v lower upper, find cmp t = some v ∧ cmp v = .eq ∧ t.toList = lower ++ v :: upper)
      ∨ find cmp t = none ∧ ∃ lower upper, t.toList = lower ++ upper ∧ Gap cmp lower upper := by
  have hpassed : Passed cmp (descend cmp t []).path := passed_descend (by simp [Passed])
  have hfill := congrArg Tree.toList (fill_descend cmp t [])
  rw [toList_fill] at hfill
  rw [find_eq cmp t []]
  cases hspot : descend cmp t [] with
  | found l x b r path =>
    rw [hspot] at hfill
    refine Or.inl ⟨x, before path ++ l.toList, r.toList ++ after path, rfl, descend_found hspot, ?_⟩
    exact hfill.symm.trans (by simp [Spot.path, Spot.tree, Tree.toList])
  | gap path =>
    rw [hspot] at hfill hpassed
    refine Or.inr ⟨rfl, before path, after path, ?_, hpassed.gap⟩
    exact hfill.symm.trans (by simp [Spot.path, Spot.tree, Tree.toList])

/-- An element goes between the two elements that the search came to last; one that compares equal to it keeps
it out. -/
theorem insert_spec (cmp : α → Ordering) (x : α) (t : Tree α) :
    (∃ v, insert cmp x t = .inl v ∧ find cmp t = some v)
      ∨ ∃ t' lower upper, insert cmp x t = .inr t' ∧ find cmp t = none ∧ t.toList = lower ++ upper
        ∧ t'.toList = lower ++ x :: upper ∧ Gap cmp lower upper := by
  have hpassed : Passed cmp (descend cmp t []).path := passed_descend (by simp [Passed])
  have hfill := congrArg Tree.toList (fill_descend cmp t [])
  rw [toList_fill] at hfill
  unfold insert
  rw [find_eq cmp t []]
  cases hspot : descend cmp t [] with
  | found l v b r path => exact Or.inl ⟨v, rfl, rfl⟩
  | gap path =>
    rw [hspot] at hfill hpassed
    refine Or.inr ⟨_, before path, after path, rfl, rfl, ?_, ?_, hpassed.gap⟩
    · exact hfill.symm.trans (by simp [Spot.path, Spot.tree, Tree.toList])
    · rw [toList_rise]
      simp [Tree.toList]

/-- What is taken out is what would have been found, and the others stay in their order. -/
theorem erase_spec (cmp : α → Ordering) (t : Tree α) :
    (∃ v t' lower upper, erase cmp t = some (v, t') ∧ find cmp t = some v ∧ t.toList = lower ++ v :: upper
        ∧ t'.toList = lower ++ upper)
      ∨ erase cmp t = none ∧ find cmp t = none := by
  have hfill := congrArg Tree.toList (fill_descend cmp t [])
  rw [toList_fill] at hfill
  unfold erase
  rw [find_eq cmp t []]
  cases hspot : descend cmp t [] with
  | gap path => exact Or.inr ⟨rfl, rfl⟩
  | found l v b r path =>
    rw [hspot] at hfill
    refine Or.inl ⟨v, _, before path ++ l.toList, r.toList ++ after path, rfl, rfl, ?_, ?_⟩
    · exact hfill.symm.trans (by simp [Spot.path, Spot.tree, Tree.toList])
    · rw [toList_fall, toList_splice]
      simp

theorem mem_of_find {cmp : α → Ordering} {t : Tree α} {v : α} (h : find cmp t = some v) :
    v ∈ t.toList ∧ cmp v = .eq := by
  obtain ⟨w, lower, upper, hw, heq, hlist⟩ | ⟨hnone, -⟩ := find_spec cmp t
  · obtain rfl := Option.some.inj (hw.symm.trans h)
    exact ⟨by rw [hlist]; simp, heq⟩
  · rw [hnone] at h
    cases h

/-- What compares as equal to the root takes the root out. -/
theorem erase_root (cmp : α → Ordering) {x : α} (l : Tree α) (b : ℤ) (r : Tree α) (h : cmp x = .eq) :
    ∃ t, erase cmp (.node l x b r) = some (x, t) ∧ t.toList = l.toList ++ r.toList := by
  have hspot : descend cmp (.node l x b r) [] = .found l x b r [] := by rw [descend, h]
  unfold erase
  rw [hspot]
  refine ⟨_, rfl, ?_⟩
  rw [toList_fall, toList_splice]
  simp [before, after]

/-- The search asks nothing but the elements of the tree. -/
theorem find_congr {cmp cmp' : α → Ordering} {t : Tree α} (h : ∀ p ∈ t.toList, cmp p = cmp' p) :
    find cmp t = find cmp' t := by
  induction t with
  | nil => rfl
  | node l p b r ihl ihr =>
    have hl := ihl fun q hq => h q (by simp [Tree.toList, hq])
    have hr := ihr fun q hq => h q (by simp [Tree.toList, hq])
    simp only [find, h p (by simp [Tree.toList]), hl, hr]

/-- What a caller writes into the elements of a tree. -/
def Tree.map (f : α → α) : Tree α → Tree α
  | .nil => .nil
  | .node l x b r => .node (l.map f) (f x) b (r.map f)

/-- Changing elements in place keeps their order. -/
theorem toList_map (f : α → α) (t : Tree α) : (t.map f).toList = t.toList.map f := by
  induction t with
  | nil => rfl
  | node l x b r ihl ihr => simp [Tree.map, Tree.toList, ihl, ihr]

/-- A second search comes to the same element, if it goes the same way wherever the order of the tree and the first
search agree. -/
theorem find_follow {cmp cmp' : α → Ordering} {R : α → α → Prop} {t : Tree α} {v : α}
    (hsorted : t.toList.Pairwise R) (h : find cmp t = some v)
    (hlt : ∀ p ∈ t.toList, R v p → cmp p = .lt → cmp' p = .lt)
    (hgt : ∀ p ∈ t.toList, R p v → cmp p = .gt → cmp' p = .gt) (hv : cmp' v = .eq) : find cmp' t = some v := by
  induction t with
  | nil => cases h
  | node l p b r ihl ihr =>
    obtain ⟨hl, hr, hlr⟩ := List.pairwise_append.1 hsorted
    obtain ⟨hpr, hr⟩ := List.pairwise_cons.1 hr
    simp only [find] at h ⊢
    cases hp : cmp p with
    | lt =>
      rw [hp] at h
      have hmem := (mem_of_find h).1
      rw [hlt p (by simp [Tree.toList]) (hlr v hmem p (by simp)) hp]
      exact ihl hl h (fun q hq => hlt q (by simp [Tree.toList, hq])) fun q hq => hgt q (by simp [Tree.toList, hq])
    | eq =>
      rw [hp] at h
      obtain rfl := Option.some.inj h
      rw [hv]
    | gt =>
      rw [hp] at h
      have hmem := (mem_of_find h).1
      rw [hgt p (by simp [Tree.toList]) (hpr v hmem) hp]
      exact ihr hr h (fun q hq => hlt q (by simp [Tree.toList, hq])) fun q hq => hgt q (by simp [Tree.toList, hq])

/-- **An insertion keeps the tree balanced**, its balance factors true. -/
theorem balanced_insert {cmp : α → Ordering} {x : α} {t t' : Tree α} (ht : t.Balanced)
    (h : insert cmp x t = .inr t') : t'.Balanced := by
  have hfill := fill_descend cmp t []
  unfold insert at h
  cases hspot : descend cmp t [] with
  | found l v b r path =>
    rw [hspot] at h
    cases h
  | gap path =>
    rw [hspot] at h hfill
    obtain rfl := Sum.inr.inj h
    refine balanced_rise (t := .nil) (hfill ▸ ht) ?_ rfl fun _ => rfl
    exact ⟨trivial, trivial, rfl, by omega, by omega⟩

/-- **So does an erasure.** -/
theorem balanced_erase {cmp : α → Ordering} {v : α} {t t' : Tree α} (ht : t.Balanced)
    (h : erase cmp t = some (v, t')) : t'.Balanced := by
  have hfill := fill_descend cmp t []
  unfold erase at h
  cases hspot : descend cmp t [] with
  | gap path =>
    rw [hspot] at h
    cases h
  | found l p b r path =>
    rw [hspot] at h hfill
    obtain ⟨-, rfl⟩ := Prod.mk.inj (Option.some.inj h)
    exact balanced_splice (p := p) (hfill ▸ ht)

/-! ## Runs

Trees are reached by insertions and erasures only, and so they are balanced. A balanced tree of a
given height has at least a Fibonacci number of elements, so sixty-four entries are enough for a
tree of fewer than 2³² of them. -/

/-- The trees that insertions and erasures lead to, whatever their comparisons are. -/
inductive Reached : Tree α → Prop
  | nil : Reached .nil
  | insert {t t' : Tree α} (cmp : α → Ordering) (x : α) : Reached t → insert cmp x t = .inr t' → Reached t'
  | erase {t t' : Tree α} (cmp : α → Ordering) (v : α) : Reached t → erase cmp t = some (v, t') → Reached t'

theorem Reached.balanced {t : Tree α} (h : Reached t) : t.Balanced := by
  induction h with
  | nil => trivial
  | insert cmp x _ hstep ih => exact balanced_insert ih hstep
  | erase cmp v _ hstep ih => exact balanced_erase ih hstep

/-- A balanced tree of a height has at least as many elements as the leanest one. -/
theorem Tree.Balanced.fib_le {t : Tree α} (h : t.Balanced) : Nat.fib (t.height + 2) ≤ t.toList.length + 1 := by
  induction t with
  | nil => exact le_refl 1
  | node l x b r ihl ihr =>
    obtain ⟨hl, hr, hb, hlow, hup⟩ := h
    have hsum : Nat.fib (max l.height r.height + 3)
        = Nat.fib (max l.height r.height + 1) + Nat.fib (max l.height r.height + 2) := Nat.fib_add_two
    simp only [Tree.height, Tree.toList, List.length_append, List.length_cons]
    have hlower : Nat.fib (max l.height r.height + 1) ≤ min (Nat.fib (l.height + 2)) (Nat.fib (r.height + 2)) :=
      le_min (Nat.fib_mono (by omega)) (Nat.fib_mono (by omega))
    have hupper : Nat.fib (max l.height r.height + 2) = max (Nat.fib (l.height + 2)) (Nat.fib (r.height + 2)) :=
      (Nat.fib_mono.map_max (a := l.height + 2) (b := r.height + 2) ▸ by rw [Nat.add_max_add_right])
    have hleft := ihl hl
    have hright := ihr hr
    rw [show max l.height r.height + 1 + 2 = max l.height r.height + 3 from rfl, hsum]
    omega

/-- As many entries as the arrays `path` and `stack` of an insertion take. -/
def entriesOfInsert (cmp : α → Ordering) (root : Tree α) : ℕ := (descend cmp root []).path.length

/-- As many entries as the arrays `path` and `dir` of an erasure take, the one for `fake` with them. -/
def entriesOfErase (cmp : α → Ordering) (root : Tree α) : ℕ :=
  match descend cmp root [] with
  | .gap path => path.length + 1
  | .found l _ b r path => (splice l b r path).2.length + 1

/-- **The arrays of sixty-four entries are never too small**: whatever is inserted and erased, and however the
elements compare, every tree stays balanced, and as long as its elements can be counted in the thirty-two bits of
`size` no insertion and no erasure writes more than `KAVL_MAX_DEPTH` entries. -/
theorem reached_fits {t : Tree α} (h : Reached t) :
    t.Balanced ∧ (t.toList.length < 2 ^ 32 → ∀ cmp : α → Ordering,
      entriesOfInsert cmp t ≤ KAVL_MAX_DEPTH ∧ entriesOfErase cmp t ≤ KAVL_MAX_DEPTH) := by
  refine ⟨h.balanced, fun hsize cmp => ?_⟩
  -- the leanest tree of that height has a Fibonacci number of elements
  have hheight : t.height < 46 := by
    by_contra hhigh
    have hfib := Nat.fib_mono (show 48 ≤ t.height + 2 by omega)
    have hle := h.balanced.fib_le
    have hval : Nat.fib 48 = 4807526976 := by norm_num
    omega
  have hlen := length_descend cmp t []
  unfold entriesOfInsert entriesOfErase KAVL_MAX_DEPTH
  rw [List.length_nil, Nat.add_zero] at hlen
  refine ⟨by omega, ?_⟩
  cases hspot : descend cmp t [] with
  | gap path =>
    rw [hspot] at hlen
    simp only [Spot.path] at hlen ⊢
    omega
  | found l x b r path =>
    rw [hspot] at hlen
    have hsplice := length_splice l x b r path
    simp only [Spot.path, Spot.tree] at hlen ⊢
    omega

/-- A rotation at the third element, and the root taken out again. -/
theorem reached_fits_rotated :
    entriesOfInsert (compare 2) (.node (.node .nil 1 0 .nil) 3 (-1) .nil) ≤ KAVL_MAX_DEPTH
      ∧ entriesOfErase (compare 3) (.node (.node .nil 1 0 .nil) 3 (-1) .nil) ≤ KAVL_MAX_DEPTH := by
  have hfits : ∀ cmp : ℕ → Ordering, entriesOfInsert cmp (.node (.node .nil 1 0 .nil) 3 (-1) .nil) ≤ KAVL_MAX_DEPTH
      ∧ entriesOfErase cmp (.node (.node .nil 1 0 .nil) 3 (-1) .nil) ≤ KAVL_MAX_DEPTH :=
    (reached_fits (.erase (compare 2) 2 (.insert (compare 3) 3 (.insert (compare 2) 2 (.insert (compare 1) 1 .nil rfl) rfl)
      rfl) rfl)).2 (by decide)
  exact ⟨(hfits (compare 2)).1, (hfits (compare 3)).2⟩

end VlessCard.Kavl
