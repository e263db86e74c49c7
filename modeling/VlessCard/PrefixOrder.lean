/-
Lists compared until one of them ends.

Where one list goes on behind the end of the other, it counts as equal to it if it goes on with a stop: a
name ends before a dot, and a row of bits anywhere. Equality is then no equivalence, and the strict order is
transitive only where no list goes on, behind another one, with something below a stop. The order of the
lists themselves is kept to throughout, and it is what a search can go by.
-/
import Mathlib

set_option autoImplicit false

namespace VlessCard.PrefixOrder

section Covers

variable {α : Type} (stop : α → Prop)

/-- The list `q` is `p`, or goes on behind `p` with a stop. -/
def Covers (p q : List α) : Prop := p = q ∨ ∃ c r, stop c ∧ q = p ++ c :: r

variable {stop}

theorem Covers.refl (p : List α) : Covers stop p p := .inl rfl

/-- What is covered by a covered list is covered. -/
theorem Covers.trans {p q r : List α} (hpq : Covers stop p q) (hqr : Covers stop q r) : Covers stop p r := by
  obtain rfl | ⟨c, s, hc, rfl⟩ := hpq
  · exact hqr
  · obtain rfl | ⟨d, t, -, rfl⟩ := hqr
    · exact .inr ⟨c, s, hc, rfl⟩
    · exact .inr ⟨c, s ++ d :: t, hc, by simp⟩

theorem Covers.length_le {p q : List α} (h : Covers stop p q) : p.length ≤ q.length := by
  obtain rfl | ⟨c, r, -, rfl⟩ := h
  · exact le_refl _
  · rw [List.length_append]
    exact Nat.le_add_right _ _

theorem Covers.eq_of_length_le {p q : List α} (h : Covers stop p q) (hlen : q.length ≤ p.length) : p = q := by
  obtain rfl | ⟨c, r, -, rfl⟩ := h
  · rfl
  · rw [List.length_append, List.length_cons] at hlen
    omega

theorem covers_cons (a : α) (p q : List α) : Covers stop (a :: p) (a :: q) ↔ Covers stop p q := by
  simp only [Covers, List.cons_append, List.cons.injEq, true_and]

/-- An empty list covers what begins with a stop. -/
theorem covers_nil_cons (c : α) (q : List α) : Covers stop [] (c :: q) ↔ stop c := by
  constructor
  · rintro (h | ⟨d, r, hd, h⟩)
    · cases h
    · obtain ⟨rfl, -⟩ := List.cons.inj h
      exact hd
  · exact fun hc => .inr ⟨c, q, hc, rfl⟩

theorem not_covers_cons_nil (c : α) (p : List α) : ¬ Covers stop (c :: p) [] := by
  rintro (h | ⟨d, r, -, h⟩)
  · cases h
  · cases h

theorem Covers.head_eq {a b : α} {p q : List α} (h : Covers stop (a :: p) (b :: q)) : a = b := by
  rcases h with h | ⟨c, r, -, h⟩
  · exact (List.cons.inj h).1
  · exact (List.cons.inj h).1.symm

/-- Where every element is a stop, a list covers what it begins. -/
theorem covers_iff_begins (h : ∀ c, stop c) (p q : List α) : Covers stop p q ↔ p <+: q := by
  constructor
  · rintro (rfl | ⟨c, r, -, rfl⟩)
    · exact List.prefix_refl _
    · exact List.prefix_append ..
  · rintro ⟨r, rfl⟩
    cases r with
    | nil => exact .inl (List.append_nil p).symm
    | cons c r => exact .inr ⟨c, r, h c, rfl⟩

end Covers

section Order

variable {α : Type} [LinearOrder α] (stop : α → Prop)

/-- No list goes on, behind another one, with an element that is no stop and not above the stops. -/
def Clear (l : List (List α)) : Prop :=
  ∀ p ∈ l, ∀ c r d, p ++ c :: r ∈ l → stop d → ¬ stop c → d < c

variable {stop}

/-- Where every element is a stop there is nothing to be above. -/
theorem clear_of_stop {l : List (List α)} (h : ∀ c, stop c) : Clear stop l :=
  fun _ _ c _ _ _ _ hc => absurd (h c) hc

theorem Clear.mono {l l' : List (List α)} (h : Clear stop l) (hsub : l' ⊆ l) : Clear stop l' :=
  fun p hp c r d hq => h p (hsub hp) c r d (hsub hq)

theorem lt_append_cons (p r : List α) (c : α) : p < p ++ c :: r := by
  induction p with
  | nil => exact List.nil_lt_cons c r
  | cons a p ih => exact List.cons_lt_cons_iff.2 (.inr ⟨rfl, ih⟩)

theorem Covers.le {p q : List α} (h : Covers stop p q) : p ≤ q := by
  obtain rfl | ⟨c, r, -, rfl⟩ := h
  · exact le_refl _
  · exact (lt_append_cons p r c).le

/-- What lies between a list and one that goes on behind it goes on behind it as well, and no higher. -/
theorem between {p r w : List α} {d : α} (hpw : p < w) (hwq : w < p ++ d :: r) :
    ∃ c s, w = p ++ c :: s ∧ c ≤ d := by
  induction p generalizing w with
  | nil =>
    cases w with
    | nil => exact absurd hpw (lt_irrefl _)
    | cons c s =>
      refine ⟨c, s, rfl, ?_⟩
      rcases List.cons_lt_cons_iff.1 hwq with hlt | ⟨rfl, -⟩
      · exact hlt.le
      · exact le_refl _
  | cons a p ih =>
    cases w with
    | nil => exact absurd hpw (List.nil_lt_cons a p).asymm
    | cons b w =>
      rcases List.cons_lt_cons_iff.1 hpw with hab | ⟨rfl, hpw⟩
      · rcases List.cons_lt_cons_iff.1 hwq with hba | ⟨rfl, -⟩
        · exact absurd hab hba.asymm
        · exact absurd hab (lt_irrefl _)
      · rcases List.cons_lt_cons_iff.1 hwq with haa | ⟨-, hwq⟩
        · exact absurd haa (lt_irrefl _)
        · obtain ⟨c, s, rfl, hc⟩ := ih (List.cons_lt_cons_self.1 hpw) hwq
          exact ⟨c, s, rfl, hc⟩

end Order

variable {α : Type} [LinearOrder α] (stop : α → Prop) [DecidablePred stop]

/-- How two lists compare. -/
def order : List α → List α → Ordering
  | [], [] => .eq
  | [], c :: _ => if stop c then .eq else .lt
  | c :: _, [] => if stop c then .eq else .gt
  | a :: p, b :: q => if a < b then .lt else if b < a then .gt else order p q

/-- No two different lists compare as equal. -/
def Apart (l : List (List α)) : Prop := ∀ p ∈ l, ∀ q ∈ l, order stop p q = .eq → p = q

variable {stop}

/-! ## The comparison

Two lists that cover each other compare as equal, although they are different. So the comparison
is an order only on lists in which no two do. -/

theorem order_self (p : List α) : order stop p p = .eq := by
  induction p with
  | nil => rfl
  | cons a p ih => rw [order, if_neg (lt_irrefl a), if_neg (lt_irrefl a), ih]

theorem order_swap (p q : List α) : order stop q p = (order stop p q).swap := by
  induction p generalizing q with
  | nil =>
    cases q with
    | nil => rfl
    | cons b q => simp only [order]; split <;> rfl
  | cons a p ih =>
    cases q with
    | nil => simp only [order]; split <;> rfl
    | cons b q =>
      simp only [order]
      obtain hlt | rfl | hgt := lt_trichotomy a b
      · rw [if_pos hlt, if_neg hlt.asymm, if_pos hlt]
        rfl
      · rw [if_neg (lt_irrefl a), if_neg (lt_irrefl a), if_neg (lt_irrefl a), if_neg (lt_irrefl a), ih]
      · rw [if_pos hgt, if_neg hgt.asymm, if_pos hgt]
        rfl

/-- Two lists compare as equal exactly where one of them covers the other. -/
theorem order_eq_iff (p q : List α) : order stop p q = .eq ↔ Covers stop p q ∨ Covers stop q p := by
  induction p generalizing q with
  | nil =>
    cases q with
    | nil => exact iff_of_true rfl (.inl (.inl rfl))
    | cons b q =>
      rw [order, covers_nil_cons, or_iff_left (not_covers_cons_nil b q)]
      split <;> simp_all
  | cons a p ih =>
    cases q with
    | nil =>
      rw [order, covers_nil_cons, or_iff_right (not_covers_cons_nil a p)]
      split <;> simp_all
    | cons b q =>
      rw [order]
      obtain hlt | rfl | hgt := lt_trichotomy a b
      · rw [if_pos hlt]
        refine iff_of_false (by decide) ?_
        rintro (h | h)
        · exact hlt.ne h.head_eq
        · exact hlt.ne' h.head_eq
      · rw [if_neg (lt_irrefl a), if_neg (lt_irrefl a), ih, covers_cons, covers_cons]
      · rw [if_neg hgt.asymm, if_pos hgt]
        refine iff_of_false (by decide) ?_
        rintro (h | h)
        · exact hgt.ne' h.head_eq
        · exact hgt.ne h.head_eq

/-- Lists that compare as equal are the same as far as both of them go. -/
theorem take_eq_of_order_eq {p q : List α} (h : order stop p q = .eq) {n : ℕ} (hp : n ≤ p.length) (hq : n ≤ q.length) :
    p.take n = q.take n := by
  rcases (order_eq_iff p q).1 h with (rfl | ⟨c, r, -, rfl⟩) | (rfl | ⟨c, r, -, rfl⟩)
  · rfl
  · rw [List.take_append_of_le_length hp]
  · rfl
  · rw [List.take_append_of_le_length hq]

/-- What lists begin with decides first, where it is of one length. -/
theorem order_append {p q : List α} (hlen : p.length = q.length) (r s : List α) :
    order stop (p ++ r) (q ++ s) = (order stop p q).then (order stop r s) := by
  induction p generalizing q with
  | nil =>
    obtain rfl := List.eq_nil_of_length_eq_zero hlen.symm
    rfl
  | cons a p ih =>
    cases q with
    | nil => cases hlen
    | cons b q =>
      simp only [List.cons_append, order]
      split_ifs
      · rfl
      · rfl
      · exact ih (Nat.succ_inj.1 hlen)

/-- Where every element is a stop, lists compare by what both of them have. -/
theorem order_take (h : ∀ c, stop c) (p q : List α) {n : ℕ} (hn : min p.length q.length ≤ n) :
    order stop (p.take n) (q.take n) = order stop p q := by
  induction p generalizing q n with
  | nil =>
    cases q with
    | nil => rw [List.take_nil]
    | cons b q =>
      cases n with
      | zero => exact (if_pos (h b)).symm
      | succ n => rw [List.take_nil, List.take_succ_cons]; exact (if_pos (h b)).trans (if_pos (h b)).symm
  | cons a p ih =>
    cases q with
    | nil =>
      cases n with
      | zero => exact (if_pos (h a)).symm
      | succ n => rw [List.take_nil, List.take_succ_cons]; exact (if_pos (h a)).trans (if_pos (h a)).symm
    | cons b q =>
      cases n with
      | zero => simp at hn
      | succ n =>
        simp only [List.take_succ_cons, order]
        rw [ih q (by simp only [List.length_cons] at hn; omega)]

/-- What compares as less is less. -/
theorem lt_of_order_lt {p q : List α} (h : order stop p q = .lt) : p < q := by
  induction p generalizing q with
  | nil =>
    cases q with
    | nil => cases h
    | cons b q => exact List.nil_lt_cons b q
  | cons a p ih =>
    cases q with
    | nil =>
      rw [order] at h
      split at h <;> cases h
    | cons b q =>
      rw [order] at h
      rw [List.cons_lt_cons_iff]
      obtain hlt | rfl | hgt := lt_trichotomy a b
      · exact .inl hlt
      · rw [if_neg (lt_irrefl a), if_neg (lt_irrefl a)] at h
        exact .inr ⟨rfl, ih h⟩
      · rw [if_neg hgt.asymm, if_pos hgt] at h
        cases h

/-- Larger in the order is larger among lists. -/
theorem lt_of_order_gt {p q : List α} (h : order stop p q = .gt) : q < p := by
  have hlt : order stop q p = .lt := by
    rw [order_swap, h]
    rfl
  exact lt_of_order_lt hlt

/-- What is smaller, and does not cover, is smaller in the order. -/
theorem order_of_lt {p q : List α} (hne : order stop p q ≠ .eq) (h : p < q) : order stop p q = .lt := by
  cases horder : order stop p q with
  | lt => rfl
  | eq => exact absurd horder hne
  | gt => exact absurd (lt_of_order_gt horder) h.asymm

/-- Two lists that cover a third one compare as equal. -/
theorem order_eq_of_covers {p q r : List α} (hp : Covers stop p r) (hq : Covers stop q r) : order stop p q = .eq := by
  rw [order_eq_iff]
  induction r generalizing p q with
  | nil =>
    cases p with
    | nil =>
      cases q with
      | nil => exact .inl (.inl rfl)
      | cons b q => exact absurd hq (not_covers_cons_nil b q)
    | cons a p => exact absurd hp (not_covers_cons_nil a p)
  | cons c r ih =>
    cases p with
    | nil =>
      cases q with
      | nil => exact .inl (.inl rfl)
      | cons b q => exact .inl (by rw [hq.head_eq]; exact (covers_nil_cons ..).2 ((covers_nil_cons ..).1 hp))
    | cons a p =>
      obtain rfl := hp.head_eq
      cases q with
      | nil => exact .inr ((covers_nil_cons ..).2 ((covers_nil_cons ..).1 hq))
      | cons b q =>
        obtain rfl := hq.head_eq
        rw [covers_cons] at hp hq ⊢
        rw [covers_cons]
        exact ih hp hq

/-- Where no list goes on below a stop, nothing lies between a list and one that it covers that does not compare
as equal to it. -/
theorem order_eq_of_between {l : List (List α)} {v w k : List α} (hclear : Clear stop l) (hv : v ∈ l) (hw : w ∈ l)
    (hcovers : Covers stop v k) (hvw : v < w) (hwk : w < k) : order stop v w = .eq := by
  obtain rfl | ⟨d, r, hd, rfl⟩ := hcovers
  · exact absurd hvw hwk.asymm
  · obtain ⟨c, s, rfl, hle⟩ := between hvw hwk
    by_contra hne
    have hc : ¬ stop c := fun hc => hne ((order_eq_iff _ _).2 (.inl (.inr ⟨c, s, hc, rfl⟩)))
    exact absurd (hclear v hv c s d hw hd hc) hle.not_gt

/-! ## A gap in a list in order

A search ends between two neighbours. From how these compare to the key it follows how all lists
do, as long as no list goes on below a stop. -/

/-- In an ascending list nothing is above the last. -/
theorem le_getLast {l : List (List α)} (h : l.Pairwise (· < ·)) {v : List α} (hv : v ∈ l) :
    ∃ w, w ∈ l.getLast? ∧ w ∈ l ∧ v ≤ w := by
  obtain rfl | ⟨init, w, rfl⟩ := l.eq_nil_or_concat'
  · cases hv
  · refine ⟨w, by simp, by simp, ?_⟩
    rcases List.mem_append.1 hv with hinit | hlast
    · exact ((List.pairwise_append.1 h).2.2 v hinit w (by simp)).le
    · exact (List.mem_singleton.1 hlast).le

theorem head_le {l : List (List α)} (h : l.Pairwise (· < ·)) {v : List α} (hv : v ∈ l) :
    ∃ w, w ∈ l.head? ∧ w ∈ l ∧ w ≤ v := by
  cases l with
  | nil => cases hv
  | cons w l =>
    refine ⟨w, rfl, by simp, ?_⟩
    rcases List.mem_cons.1 hv with rfl | hl
    · exact le_refl _
    · exact ((List.pairwise_cons.1 h).1 v hl).le

section Gap

variable {lower upper : List (List α)} {k : List α} (hsorted : (lower ++ upper).Pairwise (· < ·))
  (hlower : ∀ v ∈ lower.getLast?, order stop k v = .gt) (hupper : ∀ v ∈ upper.head?, order stop k v = .lt)

include hsorted hlower in
theorem lower_lt {v : List α} (hv : v ∈ lower) : v < k := by
  obtain ⟨w, hlast, -, hle⟩ := le_getLast (List.pairwise_append.1 hsorted).1 hv
  exact hle.trans_lt (lt_of_order_gt (hlower w hlast))

include hsorted hupper in
theorem lt_upper {v : List α} (hv : v ∈ upper) : k < v := by
  obtain ⟨w, hhead, -, hle⟩ := head_le (List.pairwise_append.1 hsorted).2.1 hv
  exact (lt_of_order_lt (hupper w hhead)).trans_le hle

include hsorted hlower hupper in
/-- What is put into the gap keeps the list in order. -/
theorem pairwise_insert : (lower ++ k :: upper).Pairwise (· < ·) := by
  obtain ⟨hl, hu, hlu⟩ := List.pairwise_append.1 hsorted
  refine List.pairwise_append.2 ⟨hl, List.pairwise_cons.2 ⟨fun v hv => lt_upper hsorted hupper hv, hu⟩, ?_⟩
  intro v hv w hw
  rcases List.mem_cons.1 hw with rfl | hw
  · exact lower_lt hsorted hlower hv
  · exact hlu v hv w hw

include hsorted hlower hupper in
/-- Nothing in the list covers what there is a gap for. -/
theorem not_covers_gap (hapart : Apart stop (lower ++ upper)) (hclear : Clear stop (lower ++ upper)) {v : List α}
    (hv : v ∈ lower ++ upper) : ¬ Covers stop v k := by
  intro hcovers
  rcases List.mem_append.1 hv with hvl | hvu
  · obtain ⟨w, hlast, hwl, hle⟩ := le_getLast (List.pairwise_append.1 hsorted).1 hvl
    have hgt := hlower w hlast
    have hw := List.mem_append_left upper hwl
    obtain rfl | hlt := hle.eq_or_lt
    · rw [(order_eq_iff k v).2 (.inr hcovers)] at hgt
      cases hgt
    · have heq := order_eq_of_between hclear hv hw hcovers hlt (lt_of_order_gt hgt)
      exact hlt.ne (hapart v hv w hw heq)
  · exact absurd hcovers.le (lt_upper hsorted hupper hvu).not_ge

include hsorted hlower hupper in
/-- Nothing in the list is covered by what there is a gap for. -/
theorem not_covered_gap (hclear : Clear stop (k :: (lower ++ upper))) {v : List α} (hv : v ∈ lower ++ upper) :
    ¬ Covers stop k v := by
  intro hcovers
  rcases List.mem_append.1 hv with hvl | hvu
  · exact absurd hcovers.le (lower_lt hsorted hlower hvl).not_ge
  · obtain ⟨w, hhead, hwu, hle⟩ := head_le (List.pairwise_append.1 hsorted).2.1 hvu
    have hlt := hupper w hhead
    obtain rfl | hwv := hle.eq_or_lt
    · rw [(order_eq_iff k w).2 (.inl hcovers)] at hlt
      cases hlt
    · have hw := List.mem_cons_of_mem k (List.mem_append_right lower hwu)
      have heq := order_eq_of_between hclear (List.mem_cons_self ..) hw hcovers (lt_of_order_lt hlt) hwv
      rw [hlt] at heq
      cases heq

end Gap

end VlessCard.PrefixOrder
