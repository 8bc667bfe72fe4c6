/-
  How large a file can get: the records bound the buckets of a plan, and with the
  specification the blocks of the file.
-/
import Vaxpunk.Rms.Proof.Place

namespace Rms

open List

variable {s : Spec} {N : ℕ} {k : KeySpec}

/-- The largest bucket size of the areas. -/
def Spec.largest (s : Spec) : ℕ := (s.areas.map fun a => a.bktsz.toNat).foldr max 0

/-- A file of `N` records is small enough whatever the records are: the prologue, what is
    asked for the areas, 256 buckets for each record and key, and a cluster are fewer than
    `2 ^ 32` blocks; and the shortest record with a key in it has its length in a word. -/
structure Spec.Roomy (s : Spec) (N : ℕ) : Prop where
  blocks : firstVbn s + (s.areas.map fun a => a.alloc.toNat).sum + s.largest * (s.keys.length * (256 * N)) +
    s.cluster.toNat < 2 ^ 32
  records : s.mrs = 0 → ∀ k ∈ s.keys, k.minRecord < 2 ^ 16

section blocks
variable {bs : List Bucket}

theorem bucketBlocks_le (s : Spec) (b : Bucket) : bucketBlocks s b ≤ s.largest := by
  unfold bucketBlocks
  cases ha : s.areas[b.area]? with
  | none => exact Nat.zero_le _
  | some a => exact List.le_max_of_le (mem_map_of_mem (mem_of_getElem? ha)) le_rfl

theorem sum_usedBlocks_le (s : Spec) (bs : List Bucket) :
    ∑ a ∈ Finset.range s.areas.length, usedBlocks s bs a ≤ s.largest * bs.length := by
  induction bs with
  | nil => simp [usedBlocks]
  | cons b bs ih =>
    simp only [usedBlocks_cons, Finset.sum_add_distrib, Finset.sum_ite_eq, length_cons, Nat.mul_succ]
    have hb := bucketBlocks_le s b
    split_ifs <;> omega

theorem sum_max_le (areas : List AreaSpec) (f : ℕ → ℕ) (i : ℕ) :
    ((areas.zipIdx i).map fun a => max (f a.2) a.1.alloc.toNat).sum ≤
      (areas.map fun a => a.alloc.toNat).sum + ∑ a ∈ Finset.range areas.length, f (i + a) := by
  induction areas generalizing i with
  | nil => simp
  | cons a areas ih =>
    have h := ih (i + 1)
    simp only [zipIdx_cons, map_cons, sum_cons, length_cons, Finset.sum_range_succ', Nat.add_zero,
      Nat.add_assoc, Nat.add_comm 1] at h ⊢
    omega

theorem totalBlocks_le_of_buckets (hs : s.Valid) (bs : List Bucket) : totalBlocks s bs + 1 ≤
    firstVbn s + (s.areas.map fun a => a.alloc.toNat).sum + s.largest * bs.length := by
  have hsum := sum_max_le s.areas (usedBlocks s bs) 0
  simp only [Nat.zero_add] at hsum
  have hused := sum_usedBlocks_le s bs
  have hfirst := firstVbn_lt hs
  rw [totalBlocks_eq hs, extentSizes]
  omega

theorem roundUp_lt {k : ℕ} (n : ℕ) (hk : 0 < k) : roundUp n k < n + k := by
  have := Nat.div_mul_le_self (n + k - 1) k
  unfold roundUp
  omega

/-- **Room for every plan** there is for so many records. -/
theorem Spec.Roomy.room (h : s.Roomy N) (hs : s.Valid) (hbs : bs.length ≤ s.keys.length * (256 * N)) : Room s bs := by
  have hblocks := h.blocks
  have htotal := totalBlocks_le_of_buckets hs bs
  have hmul : s.largest * bs.length ≤ s.largest * (s.keys.length * (256 * N)) := Nat.mul_le_mul_left _ hbs
  have hround := roundUp_lt (totalBlocks s bs) (k := max s.cluster.toNat 1) (by omega)
  exact ⟨by omega, by omega⟩

theorem Spec.Roomy.minRecord_lt (h : s.Roomy N) (hs : s.Valid) (hk : k ∈ s.keys) : k.minRecord < 2 ^ 16 := by
  by_cases hm : s.mrs = 0
  · exact h.records hm k hk
  · obtain ⟨n, hn⟩ := mem_iff_getElem?.1 hk
    have hpos : 0 < s.mrs := UInt16.pos_iff_ne_zero.2 hm
    exact ((hs.key n k hn).record hpos).trans_lt s.mrs.toNat_lt

end blocks

end Rms
