/-
  What a volume's fixed data and a header's map say: the clusters of runs, and the
  runs that a header's pointers map.
-/
import Vaxpunk.Ods.Proof.Pointer
import Vaxpunk.Ods.Index

namespace Ods

theorem HomeBlock.facts {hb : HomeBlock} (h : hb.invalid = none) : 5 ≤ hb.resfiles ∧ hb.resfiles < hb.maxfiles ∧
    hb.maxfiles < 2 ^ 24 ∧ hb.maxfiles ≤ hb.ibmapsize * BITS ∧ 0 < hb.ibmapvbn ∧ 0 < hb.cluster := by
  simp only [HomeBlock.invalid] at h
  split_ifs at h with h1 h2 h3 h4 h5 h6 h7
  simp only [BITS, BLOCK] at *
  omega

/-! ## Clusters -/

def Run.cells (k : ℕ) (r : Run) : List ℕ := List.range' (r.lbn / k) (r.count / k)

/-- The clusters of a map, in VBN order. -/
def cellsOf (k : ℕ) (rs : List Run) : List ℕ := rs.flatMap (Run.cells k)

/-- The run is whole clusters. -/
structure Run.Whole (k : ℕ) (r : Run) : Prop where
  lbn : k ∣ r.lbn
  count : k ∣ r.count
  pos : 0 < r.count

/-- The fixed data of a mounted volume. -/
structure Geom where
  home : HomeBlock
  level : Level
  volBlocks : ℕ
  count : ℕ

def Volume.geom (v : Volume) : Geom := ⟨v.home, v.level, v.volBlocks, v.dev.count⟩

namespace Geom

variable (G : Geom)

/-- Blocks per cluster. -/
def k : ℕ := G.home.cluster

def clusters : ℕ := (G.volBlocks + G.k - 1) / G.k

def bitmapBlocks : ℕ := (G.clusters + BITS - 1) / BITS

theorem write_same (d : Disk) (l : ℕ) (b : Block) : d.write (l, b) l = b := by simp [Disk.write]

theorem write_other {d : Disk} {l l' : ℕ} {b : Block} (h : l' ≠ l) : d.write (l, b) l' = d l' := by
  simp [Disk.write, h]

end Geom

/-! ## Maps of headers -/

theorem mapVbnFrom_eq_none {first vbn : ℕ} (h : vbn < first) : ∀ rs : List Run, mapVbnFrom first rs vbn = none
  | [] => rfl
  | r :: rs => by
    unfold mapVbnFrom
    rw [if_pos (by omega), if_pos h]

/-- The run a pointer maps. -/
def Pointer.run? : Pointer → Option Run
  | .extent _ count lbn => some ⟨lbn, count⟩
  | .placement _ => none

def ptrRuns (ps : List Pointer) : List Run := ps.filterMap Pointer.run?

namespace Header

/-- The pointers of a header, none if its map does not decode. -/
def ptrs (h : Header) : List Pointer :=
  match decodeMap h.mapArea with
  | .ok ps => ps
  | .error _ => []

def runs (h : Header) : List Run := ptrRuns h.ptrs

theorem ptrs_eq {h : Header} {ps : List Pointer} (hd : decodeMap h.mapArea = .ok ps) : h.ptrs = ps := by
  simp only [ptrs, hd]

end Header

end Ods
