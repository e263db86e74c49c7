/-
Every `k`-th element of a list, from a start: `l[i::k]`.

The strides of one step share a list out: an element at position `n` is in the
stride that starts at `n % k`, and when the list names nothing twice it is in no
other.
-/
import Mathlib.Data.List.Nodup
import Mathlib.Data.List.Basic

set_option autoImplicit false

namespace VlessCard

namespace Strides

variable {α : Type}

/-- `l[::k]`. -/
def every (k : ℕ) (l : List α) : List α := (l.zipIdx.filter fun p => p.2 % k = 0).map Prod.fst

/-- `l[i::k]`. -/
def stride (i k : ℕ) (l : List α) : List α := every k (l.drop i)

theorem mem_every {k : ℕ} {l : List α} {a : α} :
    a ∈ every k l ↔ ∃ n, l[n]? = some a ∧ n % k = 0 := by
  unfold every
  rw [List.mem_map]
  constructor
  · rintro ⟨⟨b, n⟩, hb, rfl⟩
    rw [List.mem_filter, List.mem_zipIdx_iff_getElem?] at hb
    exact ⟨n, hb.1, of_decide_eq_true hb.2⟩
  · rintro ⟨n, hn, hk⟩
    refine ⟨(a, n), ?_, rfl⟩
    rw [List.mem_filter, List.mem_zipIdx_iff_getElem?]
    exact ⟨hn, decide_eq_true hk⟩

theorem mem_stride {i k : ℕ} {l : List α} {a : α} :
    a ∈ stride i k l ↔ ∃ n, l[i + n]? = some a ∧ n % k = 0 := by
  rw [stride, mem_every]
  simp only [List.getElem?_drop]

theorem stride_sublist (i k : ℕ) (l : List α) : List.Sublist (stride i k l) l := by
  have h : List.Sublist (every k (l.drop i)) (l.drop i) := by
    have hsub := (List.filter_sublist (p := fun p => p.2 % k = 0) (l := (l.drop i).zipIdx)).map Prod.fst
    rwa [List.zipIdx_map_fst] at hsub
  exact h.trans (List.drop_sublist i l)

/-- Every element is in the stride of its position. -/
theorem exists_stride {k : ℕ} {l : List α} {a : α} (hk : 0 < k) (h : a ∈ l) :
    ∃ i < k, a ∈ stride i k l := by
  obtain ⟨n, hn⟩ := List.mem_iff_getElem?.mp h
  refine ⟨n % k, Nat.mod_lt n hk, mem_stride.mpr ⟨n - n % k, ?_, ?_⟩⟩
  · rw [Nat.add_sub_cancel' (Nat.mod_le n k)]
    exact hn
  · exact Nat.mod_eq_zero_of_dvd (Nat.dvd_sub_mod n)

/-- Without repetitions no element is in two strides. -/
theorem stride_unique {i j k : ℕ} {l : List α} {a : α} (hl : l.Nodup) (hi : i < k) (hj : j < k)
    (hai : a ∈ stride i k l) (haj : a ∈ stride j k l) : i = j := by
  obtain ⟨m, hm, hmk⟩ := mem_stride.mp hai
  obtain ⟨n, hn, hnk⟩ := mem_stride.mp haj
  have hlt : i + m < l.length := by
    by_contra hge
    rw [List.getElem?_eq_none (Nat.le_of_not_lt hge)] at hm
    cases hm
  have hpos : i + m = j + n := (List.getElem?_inj hlt hl).mp (hm.trans hn.symm)
  -- both starts are the remainder of one position
  have hmod := congrArg (fun x => x % k) hpos
  simpa only [Nat.add_mod, hmk, hnk, Nat.add_zero, Nat.zero_mod, Nat.mod_mod, Nat.mod_eq_of_lt hi,
    Nat.mod_eq_of_lt hj] using hmod

end Strides

end VlessCard
