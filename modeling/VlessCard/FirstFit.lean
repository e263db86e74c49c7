/-
First fit: every item goes into the first bin that takes it, or into a new one.

A bin takes up to `cap` items, and of the items that have a key no two of one key. An item is
placed once, so the bins hold the items, each bin in their order. Without keys a bin is
passed over only when it is full, and then no other sharing out does with fewer bins.
-/
import Mathlib.Algebra.BigOperators.Group.List.Basic
import Mathlib.Data.List.Basic
import Mathlib.Data.List.Induction
import Mathlib.Data.List.Nodup
import Mathlib.Tactic.Ring

set_option autoImplicit false

namespace VlessCard.FirstFit

variable {ι κ : Type}

structure Bin (ι κ : Type) where
  items : List ι
  keys : List κ

/-! ## Placing an item

A bin holds items, keeps the keys of those that have one, and takes an item if it has room and no
item of the same key. -/

section

variable [DecidableEq κ]

namespace Bin

def empty : Bin ι κ := ⟨[], []⟩

/-- Whether one more item fits, of key `k` if it has one. -/
def takes (cap : ℕ) (k : Option κ) (b : Bin ι κ) : Bool :=
  b.items.length < cap && k.all fun k => k ∉ b.keys

def add (i : ι) (k : Option κ) (b : Bin ι κ) : Bin ι κ := ⟨b.items ++ [i], b.keys ++ k.toList⟩

end Bin

def place (cap : ℕ) (i : ι) (k : Option κ) : List (Bin ι κ) → List (Bin ι κ)
  | [] => [Bin.empty.add i k]
  | b :: rest => if b.takes cap k then b.add i k :: rest else b :: place cap i k rest

def pack (cap : ℕ) (key : ι → Option κ) (l : List ι) : List (Bin ι κ) :=
  l.foldl (fun bins i => place cap i (key i) bins) []

end

/-! ## What the bins hold

The contents of all bins are looked at together where nothing may be lost, and bin by bin where a
bound has to hold. -/

/-- What is in the bins, bin by bin. -/
def contents (bins : List (Bin ι κ)) : List ι := bins.flatMap Bin.items

theorem contents_cons (b : Bin ι κ) (bins : List (Bin ι κ)) : contents (b :: bins) = b.items ++ contents bins := by
  exact List.flatMap_cons

/-- A bin after the items `l` have been shared out. -/
structure Fits (cap : ℕ) (key : ι → Option κ) (l : List ι) (b : Bin ι κ) : Prop where
  nonempty : b.items ≠ []
  length_le : b.items.length ≤ cap
  keys_eq : b.keys = b.items.filterMap key
  nodup : b.keys.Nodup
  sublist : List.Sublist b.items l

/-- All bins but the last are full. -/
def Full (cap : ℕ) : List (Bin ι κ) → Prop
  | [] => True
  | [_] => True
  | b :: rest => b.items.length = cap ∧ Full cap rest

variable [DecidableEq κ] {cap : ℕ} {key : ι → Option κ} {l : List ι} {bins : List (Bin ι κ)}

/-! ## One step

Placing an item changes one bin or adds one. So each of the properties is kept by a step that
touches one bin. -/

/-- The first bin that takes the item is changed, or one is added. -/
theorem place_eq (i : ι) (k : Option κ) (bins : List (Bin ι κ)) :
    place cap i k bins =
      match bins.findIdx? fun b => b.takes cap k with
      | some n => bins.modify n fun b => b.add i k
      | none => bins ++ [Bin.empty.add i k] := by
  induction bins with
  | nil => rfl
  | cons b rest ih =>
    rw [place, List.findIdx?_cons]
    by_cases h : b.takes cap k = true
    · rw [if_pos h, if_pos h]
      rfl
    · rw [if_neg h, if_neg h, ih]
      cases rest.findIdx? fun b => b.takes cap k with
      | none => rfl
      | some n => rfl

theorem place_perm (i : ι) (k : Option κ) (bins : List (Bin ι κ)) :
    List.Perm (contents (place cap i k bins)) (contents bins ++ [i]) := by
  induction bins with
  | nil => exact List.Perm.refl [i]
  | cons b rest ih =>
    unfold place
    by_cases h : b.takes cap k = true
    · rw [if_pos h, contents_cons, contents_cons]
      have hswap : List.Perm ([i] ++ contents rest) (contents rest ++ [i]) := List.perm_append_comm
      calc List.Perm ((b.items ++ [i]) ++ contents rest) (b.items ++ ([i] ++ contents rest)) := by
            rw [List.append_assoc]
        _ |>.Perm (b.items ++ (contents rest ++ [i])) := hswap.append_left b.items
        _ |>.Perm ((b.items ++ contents rest) ++ [i]) := by rw [List.append_assoc]
    · rw [if_neg h, contents_cons, contents_cons, List.append_assoc]
      exact ih.append_left b.items

omit [DecidableEq κ] in
/-- A bin that fits goes on fitting when more items come. -/
theorem fits_mono {b : Bin ι κ} (h : Fits cap key l b) (i : ι) : Fits cap key (l ++ [i]) b :=
  { h with sublist := h.sublist.trans (List.sublist_append_left l [i]) }

/-- A bin that takes an item fits with it. -/
theorem fits_add {b : Bin ι κ} {i : ι} (h : Fits cap key l b) (htakes : b.takes cap (key i) = true) :
    Fits cap key (l ++ [i]) (b.add i (key i)) := by
  obtain ⟨hlt, hkey⟩ := Bool.and_eq_true_iff.mp htakes
  have hroom : b.items.length < cap := of_decide_eq_true hlt
  have hnew : ∀ k ∈ (key i).toList, k ∉ b.keys := by
    intro k hk
    rw [Option.mem_toList] at hk
    rw [Option.mem_def.mp hk] at hkey
    exact of_decide_eq_true hkey
  refine ⟨List.append_ne_nil_of_right_ne_nil _ (List.cons_ne_nil i []), ?_, ?_, ?_, ?_⟩
  · change (b.items ++ [i]).length ≤ cap
    rw [List.length_append, List.length_singleton]
    omega
  · change b.keys ++ (key i).toList = (b.items ++ [i]).filterMap key
    rw [List.filterMap_append, h.keys_eq]
    rfl
  · refine List.nodup_append.mpr ⟨h.nodup, ?_, ?_⟩
    · cases key i with
      | none => exact List.nodup_nil
      | some k => exact List.nodup_singleton k
    · intro a ha c hc hac
      exact hnew c hc (hac ▸ ha)
  · exact h.sublist.append (List.Sublist.refl [i])

omit [DecidableEq κ] in
theorem fits_new (hcap : 1 ≤ cap) (i : ι) (l : List ι) : Fits cap key (l ++ [i]) (Bin.empty.add i (key i)) := by
  refine ⟨List.cons_ne_nil i [], hcap, ?_, ?_, List.sublist_append_right l [i]⟩
  · rfl
  · change ((key i).toList).Nodup
    cases key i with
    | none => exact List.nodup_nil
    | some k => exact List.nodup_singleton k

theorem fits_place (hcap : 1 ≤ cap) (h : ∀ b ∈ bins, Fits cap key l b) (i : ι) :
    ∀ b ∈ place cap i (key i) bins, Fits cap key (l ++ [i]) b := by
  induction bins with
  | nil =>
    intro b hb
    rw [List.mem_singleton.mp hb]
    exact fits_new hcap i l
  | cons c rest ih =>
    have hrest : ∀ b ∈ rest, Fits cap key l b := fun b hb => h b (List.mem_cons_of_mem c hb)
    have hc := h c List.mem_cons_self
    unfold place
    by_cases htakes : c.takes cap (key i) = true
    · rw [if_pos htakes]
      intro b hb
      rcases List.mem_cons.mp hb with rfl | hb
      · exact fits_add hc htakes
      · exact fits_mono (hrest b hb) i
    · rw [if_neg htakes]
      intro b hb
      rcases List.mem_cons.mp hb with rfl | hb
      · exact fits_mono hc i
      · exact ih hrest b hb

theorem place_ne_nil (i : ι) (k : Option κ) (bins : List (Bin ι κ)) : place cap i k bins ≠ [] := by
  cases bins with
  | nil => exact List.cons_ne_nil _ _
  | cons b rest =>
    unfold place
    split <;> exact List.cons_ne_nil _ _

/-- An item without a key passes over full bins only. -/
theorem full_place (hfull : Full cap bins) (hle : ∀ b ∈ bins, b.items.length ≤ cap) (i : ι) :
    Full cap (place cap i (none : Option κ) bins) := by
  induction bins with
  | nil => trivial
  | cons b rest ih =>
    have hb : b.items.length ≤ cap := hle b List.mem_cons_self
    unfold place
    by_cases htakes : b.takes cap none = true
    · rw [if_pos htakes]
      -- a bin with room left is the last one
      cases rest with
      | nil => trivial
      | cons c rest =>
        have hroom : b.items.length < cap := of_decide_eq_true (Bool.and_eq_true_iff.mp htakes).1
        have hcap : b.items.length = cap := hfull.1
        omega
    · rw [if_neg htakes]
      have hcap : b.items.length = cap := by
        have hno : ¬ b.items.length < cap := by
          intro hlt
          exact htakes (Bool.and_eq_true_iff.mpr ⟨decide_eq_true hlt, rfl⟩)
        omega
      have hrest : Full cap rest := by
        cases rest with
        | nil => trivial
        | cons c rest => exact hfull.2
      have hplaced := ih hrest fun c hc => hle c (List.mem_cons_of_mem b hc)
      cases hp : place cap i (none : Option κ) rest with
      | nil => exact absurd hp (place_ne_nil i none rest)
      | cons c rest' =>
        rw [hp] at hplaced
        exact ⟨hcap, hplaced⟩

omit [DecidableEq κ] in
/-- Two items of one key are one, where no key stands twice. -/
theorem eq_of_key_eq (hkeys : (l.filterMap key).Nodup) {i j : ι} {k : κ} (hi : i ∈ l) (hj : j ∈ l)
    (hik : key i = some k) (hjk : key j = some k) : i = j := by
  -- the key of a first item occurs no second time behind it
  have hfirst : ∀ {a b : ι} {m : List ι}, ((a :: m).filterMap key).Nodup → b ∈ m → key a = some k →
      key b ≠ some k := by
    intro a b m hnodup hb hak hbk
    rw [List.filterMap_cons_some hak, List.nodup_cons] at hnodup
    exact hnodup.1 (List.mem_filterMap.mpr ⟨b, hb, hbk⟩)
  induction l with
  | nil => exact absurd hi List.not_mem_nil
  | cons a m ih =>
    rcases List.mem_cons.mp hi with rfl | him <;> rcases List.mem_cons.mp hj with rfl | hjm
    · rfl
    · exact absurd hjk (hfirst hkeys hjm hik)
    · exact absurd hik (hfirst hkeys him hjk)
    · exact ih (hkeys.sublist ((List.sublist_cons_self a m).filterMap key)) him hjm

/-! ## A whole list

By induction from the end of the list, since it is there that the last item is placed. Without
keys an item goes past full bins only, so the number of bins is the least there can be. -/

/-- One more item is placed into what is packed. -/
theorem pack_append_singleton (l : List ι) (i : ι) :
    pack cap key (l ++ [i]) = place cap i (key i) (pack cap key l) := by
  unfold pack
  rw [List.foldl_append]
  rfl

/-- **Nothing is lost and nothing is placed twice.** -/
theorem pack_perm (l : List ι) : List.Perm (contents (pack cap key l)) l := by
  induction l using List.reverseRecOn with
  | nil => exact List.Perm.refl []
  | append_singleton l i ih =>
    rw [pack_append_singleton]
    exact (place_perm i (key i) _).trans (ih.append_right [i])

/-- **Every bin keeps its bounds.** -/
theorem fits_pack (hcap : 1 ≤ cap) (l : List ι) : ∀ b ∈ pack cap key l, Fits cap key l b := by
  induction l using List.reverseRecOn with
  | nil => exact fun b hb => absurd hb List.not_mem_nil
  | append_singleton l i ih =>
    rw [pack_append_singleton]
    exact fits_place hcap ih i

/-- Without keys all bins but the last are full. -/
theorem full_pack (hcap : 1 ≤ cap) {l : List ι} (hkey : ∀ i ∈ l, key i = none) : Full cap (pack cap key l) := by
  induction l using List.reverseRecOn with
  | nil => trivial
  | append_singleton l i ih =>
    have hl : ∀ j ∈ l, key j = none := fun j hj => hkey j (List.mem_append_left [i] hj)
    rw [pack_append_singleton, hkey i (List.mem_append_right l List.mem_cons_self)]
    exact full_place (ih hl) (fun b hb => (fits_pack hcap l b hb).length_le) i

omit [DecidableEq κ] in
/-- Full bins and a last one that holds something are more than full bins alone. -/
theorem full_lt_length (hfull : Full cap bins) (hne : ∀ b ∈ bins, b.items ≠ []) (hbins : bins ≠ []) :
    (bins.length - 1) * cap < (contents bins).length := by
  induction bins with
  | nil => exact absurd rfl hbins
  | cons b rest ih =>
    have hb : 0 < b.items.length := List.length_pos_iff.mpr (hne b List.mem_cons_self)
    cases rest with
    | nil =>
      rw [contents_cons, List.length_append]
      simp only [List.length_singleton, Nat.sub_self, Nat.zero_mul]
      omega
    | cons c rest =>
      have hrest := ih hfull.2 (fun d hd => hne d (List.mem_cons_of_mem b hd)) (List.cons_ne_nil c rest)
      have hcap : b.items.length = cap := hfull.1
      rw [contents_cons, List.length_append, hcap]
      simp only [List.length_cons, Nat.add_sub_cancel] at hrest ⊢
      rw [Nat.add_mul, Nat.one_mul]
      omega

theorem length_flatten_le {cap : ℕ} {bs : List (List ι)} (h : ∀ b ∈ bs, b.length ≤ cap) :
    bs.flatten.length ≤ bs.length * cap := by
  induction bs with
  | nil => exact Nat.zero_le _
  | cons b bs ih =>
    have hb := h b List.mem_cons_self
    have hbs := ih fun c hc => h c (List.mem_cons_of_mem b hc)
    rw [List.flatten_cons, List.length_append, List.length_cons, Nat.add_mul, Nat.one_mul]
    omega

/-- **Without keys no other sharing out has fewer parts.** -/
theorem length_pack_le (hcap : 1 ≤ cap) {l : List ι} (hkey : ∀ i ∈ l, key i = none) {bs : List (List ι)}
    (hperm : List.Perm bs.flatten l) (hle : ∀ b ∈ bs, b.length ≤ cap) : (pack cap key l).length ≤ bs.length := by
  by_cases hnil : pack cap key l = []
  · rw [hnil]
    exact Nat.zero_le _
  · have hlt := full_lt_length (full_pack hcap hkey) (fun b hb => (fits_pack hcap l b hb).nonempty) hnil
    rw [(pack_perm l).length_eq, ← hperm.length_eq] at hlt
    have hmul : ((pack cap key l).length - 1) * cap < bs.length * cap :=
      lt_of_lt_of_le hlt (length_flatten_le hle)
    have hlen := Nat.lt_of_mul_lt_mul_right hmul
    omega

end VlessCard.FirstFit
