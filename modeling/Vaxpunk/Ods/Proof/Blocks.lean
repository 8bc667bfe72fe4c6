/-
  File maps as sequences of blocks, however the runs are cut.
-/
import Vaxpunk.Ods.Proof.Map

namespace Ods

open List Run

variable {k l vbn : ℕ} {rs rs' : List Run}

def Run.blocks (r : Run) : List ℕ := List.range' r.lbn r.count

/-- The blocks of a map, in VBN order. -/
def mapBlocks (rs : List Run) : List ℕ := rs.flatMap blocks

@[simp] theorem mapBlocks_nil : mapBlocks [] = [] := rfl

@[simp] theorem mapBlocks_cons (r : Run) (rs : List Run) : mapBlocks (r :: rs) = r.blocks ++ mapBlocks rs := rfl

@[simp] theorem mapBlocks_append (rs rs' : List Run) : mapBlocks (rs ++ rs') = mapBlocks rs ++ mapBlocks rs' :=
  flatMap_append

@[simp] theorem Run.length_blocks (r : Run) : r.blocks.length = r.count := length_range'

theorem Run.mem_blocks {r : Run} : l ∈ r.blocks ↔ r.lbn ≤ l ∧ l < r.lbn + r.count := by
  rw [blocks, mem_range'_1]

theorem length_mapBlocks (rs : List Run) : (mapBlocks rs).length = mapSize rs := by
  simp [mapBlocks, mapSize, length_flatMap]

@[simp] theorem mapSize_append (rs rs' : List Run) : mapSize (rs ++ rs') = mapSize rs + mapSize rs' := by
  simp [mapSize]

theorem mem_mapBlocks : l ∈ mapBlocks rs ↔ ∃ r ∈ rs, r.lbn ≤ l ∧ l < r.lbn + r.count := by
  simp only [mapBlocks, mem_flatMap, mem_blocks]

/-! ## Looking VBNs up -/

theorem mapVbnFrom_blocks : ∀ {rs : List Run} {first vbn : ℕ}, first ≤ vbn →
    (mapVbnFrom first rs vbn).map Prod.fst = (mapBlocks rs)[vbn - first]?
  | [], _, _, _ => by simp [mapVbnFrom]
  | r :: rs, first, vbn, hle => by
    unfold mapVbnFrom
    rw [mapBlocks_cons]
    split_ifs with h1 h2
    · omega
    · have hlt : vbn - first < r.count := by omega
      rw [getElem?_append_left (by simpa using hlt), blocks, getElem?_range' hlt]
      simp
    · rw [mapVbnFrom_blocks (by omega), getElem?_append_right (by simp only [length_blocks]; omega),
        length_blocks, Nat.sub_sub]

/-- **Looking a VBN up** in any map. -/
theorem mapLbn_blocks (rs : List Run) (vbn : ℕ) :
    mapLbn rs vbn = if vbn = 0 then none else (mapBlocks rs)[vbn - 1]? := by
  split_ifs with h
  · simp [mapLbn, mapVbn, h, mapVbnFrom_eq_none]
  · rw [mapLbn, mapVbn, mapVbnFrom_blocks (by omega)]

theorem mapLbn_eq_some : mapLbn rs vbn = some l ↔ vbn ≠ 0 ∧ (mapBlocks rs)[vbn - 1]? = some l := by
  rw [mapLbn_blocks]
  split_ifs with h <;> simp [h]

theorem mem_of_mapLbn (h : mapLbn rs vbn = some l) : l ∈ mapBlocks rs :=
  mem_of_getElem? (mapLbn_eq_some.1 h).2

theorem mapLbn_inj {x y : ℕ} (hn : (mapBlocks rs).Nodup) (hx : mapLbn rs x = some l)
    (hy : mapLbn rs y = some l) : x = y := by
  obtain ⟨hx0, hx⟩ := mapLbn_eq_some.1 hx
  obtain ⟨hy0, hy⟩ := mapLbn_eq_some.1 hy
  have := (List.getElem?_inj (List.getElem?_eq_some_iff.1 hx).1 hn).1 (hx.trans hy.symm)
  omega

theorem mapLbn_of_prefix (hp : mapBlocks rs <+: mapBlocks rs') (h : mapLbn rs vbn = some l) :
    mapLbn rs' vbn = some l := by
  obtain ⟨h0, h⟩ := mapLbn_eq_some.1 h
  obtain ⟨t, ht⟩ := hp
  refine mapLbn_eq_some.2 ⟨h0, ?_⟩
  rw [← ht, List.getElem?_append_left (List.getElem?_eq_some_iff.1 h).1]
  exact h

/-! ## Joining and cutting runs -/

theorem Run.blocks_append {r s : Run} (h : r.lbn + r.count = s.lbn) :
    r.blocks ++ s.blocks = blocks ⟨r.lbn, r.count + s.count⟩ := by
  simp only [blocks, ← h]
  exact range'_append_1

theorem Run.take_blocks {lbn count n : ℕ} (h : n ≤ count) :
    (blocks ⟨lbn, count⟩).take n = blocks ⟨lbn, n⟩ := by
  have hcut : blocks ⟨lbn, n⟩ ++ blocks ⟨lbn + n, count - n⟩ = blocks ⟨lbn, n + (count - n)⟩ :=
    blocks_append rfl
  rw [Nat.add_sub_cancel' h] at hcut
  rw [← hcut]
  exact take_left' (length_blocks _)

theorem Run.drop_blocks {lbn count n : ℕ} : (blocks ⟨lbn, count⟩).drop n = blocks ⟨lbn + n, count - n⟩ := by
  simp [blocks, drop_range']

theorem mapBlocks_mergeRuns : ∀ rs : List Run, mapBlocks (mergeRuns rs) = mapBlocks rs
  | [] => rfl
  | r :: rs => by
    have ih := mapBlocks_mergeRuns rs
    simp only [mergeRuns]
    split
    · rename_i heq
      rw [heq] at ih
      rw [mapBlocks_cons, mapBlocks_cons, ← ih]
    · rename_i s ss heq
      rw [heq] at ih
      split_ifs with hj
      · rw [mapBlocks_cons, ← blocks_append hj, mapBlocks_cons, ← ih, mapBlocks_cons, append_assoc]
      · rw [mapBlocks_cons, mapBlocks_cons r, ih]

/-! ## Whole clusters -/

/-- The blocks are whole clusters, one after the other. -/
def Clustered (k : ℕ) (bs : List ℕ) : Prop := ∃ cs : List ℕ, bs = cs.flatMap fun c => List.range' (c * k) k

theorem clustered_blocks {r : Run} (hl : k ∣ r.lbn) (hc : k ∣ r.count) : Clustered k r.blocks := by
  obtain ⟨lbn, count⟩ := r
  obtain ⟨a, rfl⟩ := hl
  obtain ⟨n, rfl⟩ := hc
  refine ⟨range' a n, ?_⟩
  induction n generalizing a with
  | zero => rfl
  | succ n ih =>
    have hcut : blocks ⟨k * a, k⟩ ++ blocks ⟨k * (a + 1), k * n⟩ = blocks ⟨k * a, k + k * n⟩ :=
      blocks_append rfl
    rw [range'_succ, flatMap_cons, ← ih, Nat.mul_succ, Nat.add_comm (k * n), ← hcut, Nat.mul_comm a]
    rfl

theorem Clustered.drop {bs : List ℕ} {n : ℕ} (h : Clustered k bs) (hn : k ∣ n) : Clustered k (bs.drop n) := by
  obtain ⟨cs, rfl⟩ := h
  obtain ⟨m, rfl⟩ := hn
  refine ⟨cs.drop m, ?_⟩
  induction m generalizing cs with
  | zero => simp
  | succ m ih =>
    cases cs with
    | nil => simp
    | cons c cs =>
      rw [flatMap_cons, drop_succ_cons, ← ih cs, Nat.mul_succ, Nat.add_comm, ← drop_drop,
        drop_left' length_range']

theorem Clustered.mem {bs : List ℕ} {l' : ℕ} (hk : 0 < k) (h : Clustered k bs) (hl : l ∈ bs)
    (hc : l' / k = l / k) : l' ∈ bs := by
  obtain ⟨cs, rfl⟩ := h
  obtain ⟨c, hcs, hl⟩ := mem_flatMap.1 hl
  rw [mem_range'_1] at hl
  have hdiv : l / k = c := by
    refine Nat.div_eq_of_lt_le hl.1 ?_
    rw [Nat.succ_mul]
    exact hl.2
  refine mem_flatMap.2 ⟨c, hcs, ?_⟩
  have h1 := Nat.div_add_mod l' k
  have h2 := Nat.mod_lt l' hk
  rw [hc, hdiv, Nat.mul_comm] at h1
  rw [mem_range'_1]
  omega

end Ods
