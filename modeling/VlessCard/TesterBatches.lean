/-
`Tester.chunks`: the variants of a test run, in batches of which each runs in one core.

Two tunnels with one WireGuard key at a time would take the session from each other, and a
healthy variant would look dead. So a batch has each private key once, and beyond that it is
first fit: no variant is lost or tested twice, and where no variant is WireGuard there are as
few batches as can be.
-/
import VlessCard.FirstFit
import VlessCard.Masks
import VlessCard.Server

set_option autoImplicit false

namespace VlessCard.Tester

open FirstFit (Bin)

/-- A server under a mask. -/
abbrev Variant := Server × Option NamedMask

/-! ## `chunks`

The batches are built with two lists side by side, the indices and the keys of the tunnels. A
variant goes into the first batch that has room and does not hold its key. -/

/-- The private key a variant's tunnel runs with. -/
def wgKey (v : Variant) : Option String := if v.1.protocol = "wireguard" then some v.1.secret else none

/-- One variant; a bin is an entry of `out` with the entry of `wgIn` beside it. -/
def chunksStep (batch : ℤ) (out : List (Bin ℕ String)) (e : Variant × ℕ) : List (Bin ℕ String) :=
  let wg := e.1.1.protocol = "wireguard"
  let key := e.1.1.secret
  match out.findIdx? fun b => (b.items.length : ℤ) < batch && (!wg || key ∉ b.keys) with
  | some k => out.modify k fun b => ⟨b.items ++ [e.2], if wg then b.keys ++ [key] else b.keys⟩
  | none => out ++ [⟨[e.2], if wg then [key] else []⟩]

def chunks (variants : List Variant) (batch : ℤ) : List (List ℕ) :=
  (variants.zipIdx.foldl (chunksStep batch) []).map Bin.items

/-! ## The batches are first fit

The two lists are one list of bins, and the loop is first fit over them. What it promises is in
the library. -/

/-- The condition of `indexOfFirst`. -/
theorem takes_eq (batch : ℤ) (v : Variant) (b : Bin ℕ String) :
    ((b.items.length : ℤ) < batch && (!decide (v.1.protocol = "wireguard") || decide (v.1.secret ∉ b.keys))) =
      b.takes batch.toNat (wgKey v) := by
  unfold Bin.takes wgKey
  by_cases hwg : v.1.protocol = "wireguard"
  · simp [hwg, Int.lt_toNat]
  · simp [hwg, Int.lt_toNat]

theorem add_eq (v : Variant) (i : ℕ) (b : Bin ℕ String) :
    Bin.mk (b.items ++ [i]) (if v.1.protocol = "wireguard" then b.keys ++ [v.1.secret] else b.keys) =
      b.add i (wgKey v) := by
  unfold Bin.add wgKey
  split
  · rfl
  · rw [Option.toList_none, List.append_nil]

theorem chunksStep_eq (batch : ℤ) (out : List (Bin ℕ String)) (e : Variant × ℕ) :
    chunksStep batch out e = FirstFit.place batch.toNat e.2 (wgKey e.1) out := by
  rw [FirstFit.place_eq]
  unfold chunksStep
  simp only [takes_eq, add_eq]
  cases out.findIdx? fun b => b.takes batch.toNat (wgKey e.1) with
  | none =>
    show out ++ [_] = out ++ [_]
    rw [← add_eq]
    rfl
  | some k => rfl

/-- The key of the variant at an index. -/
def keyAt (variants : List Variant) (i : ℕ) : Option String := variants[i]?.bind wgKey

theorem chunks_eq (variants : List Variant) (batch : ℤ) :
    chunks variants batch =
      (FirstFit.pack batch.toNat (keyAt variants) (List.range variants.length)).map Bin.items := by
  have hindex : variants.zipIdx.map Prod.snd = List.range variants.length := by
    rw [List.zipIdx_map_snd, List.range_eq_range']
  unfold chunks FirstFit.pack
  rw [← hindex, List.foldl_map]
  congr 1
  apply List.foldl_ext
  intro out e he
  have hat : keyAt variants e.2 = wgKey e.1 := by
    rw [keyAt, List.mem_zipIdx_iff_getElem?.mp he]
    rfl
  rw [chunksStep_eq, hat]

/-- **The batches are a safe partition.** Together they are the indices, each once; a batch is in
the order of the variants, holds one at least and `batch` at most, and of the WireGuard variants
none with the key of another. Without WireGuard no partition into parts of `batch` has fewer. -/
theorem chunks_spec (variants : List Variant) (batch : ℤ) (hbatch : 1 ≤ batch) :
    List.Perm (chunks variants batch).flatten (List.range variants.length) ∧
      (∀ c ∈ chunks variants batch,
        c ≠ [] ∧ c.Pairwise (· < ·) ∧ (c.length : ℤ) ≤ batch ∧
          ∀ i ∈ c, ∀ j ∈ c, ∀ v w : Variant, variants[i]? = some v → variants[j]? = some w →
            v.1.protocol = "wireguard" → w.1.protocol = "wireguard" → v.1.secret = w.1.secret → i = j) ∧
      ((∀ v ∈ variants, v.1.protocol ≠ "wireguard") →
        ∀ parts : List (List ℕ), List.Perm parts.flatten (List.range variants.length) →
          (∀ p ∈ parts, (p.length : ℤ) ≤ batch) → (chunks variants batch).length ≤ parts.length) := by
  have hcap : 1 ≤ batch.toNat := by omega
  rw [chunks_eq variants batch]
  refine ⟨?_, ?_, ?_⟩
  · rw [← List.flatMap_def]
    exact FirstFit.pack_perm (List.range variants.length)
  · intro c hc
    obtain ⟨b, hb, rfl⟩ := List.mem_map.mp hc
    have hfits := FirstFit.fits_pack hcap (List.range variants.length) b hb
    refine ⟨hfits.nonempty, List.pairwise_lt_range.sublist hfits.sublist, ?_, ?_⟩
    · have hle := hfits.length_le
      omega
    -- two members of one chunk with one secret would repeat a key
    · intro i hi j hj v w hv hw hvwg hwwg hsecret
      have hkeys : (b.items.filterMap (keyAt variants)).Nodup := hfits.keys_eq ▸ hfits.nodup
      have hik : keyAt variants i = some v.1.secret := by
        rw [keyAt, hv, Option.bind_some, wgKey, if_pos hvwg]
      have hjk : keyAt variants j = some v.1.secret := by
        rw [keyAt, hw, Option.bind_some, wgKey, if_pos hwwg, hsecret]
      exact FirstFit.eq_of_key_eq hkeys hi hj hik hjk
  -- without keys the number is the least any split can have
  · intro hnone parts hperm hparts
    rw [List.length_map]
    apply FirstFit.length_pack_le hcap _ hperm
    · intro p hp
      have hle := hparts p hp
      omega
    · intro i hi
      rw [keyAt, List.getElem?_eq_getElem (List.mem_range.mp hi), Option.bind_some, wgKey,
        if_neg (hnone _ (List.getElem_mem (List.mem_range.mp hi)))]

/-- An endpoint of a WARP account. -/
def warp (address : String) : Server :=
  { name := "WARP", protocol := "wireguard", address := address, port := 2408, secret := "k" }

theorem chunks_spec_one_account :
    List.Perm (chunks [(warp "a", none), (warp "b", none), ({ warp "c" with protocol := "vless" }, none)] 2).flatten
        (List.range 3) ∧
      chunks [(warp "a", none), (warp "b", none), ({ warp "c" with protocol := "vless" }, none)] 2 = [[0, 2], [1]] :=
  ⟨(chunks_spec [(warp "a", none), (warp "b", none), ({ warp "c" with protocol := "vless" }, none)] 2 (by decide)).1,
    by decide⟩

end VlessCard.Tester
