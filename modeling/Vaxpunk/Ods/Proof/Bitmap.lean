/-
  The storage bitmap: free runs, choosing clusters, and the ranges that are taken
  out of it and given back.
-/
import Vaxpunk.Ods.Proof.Op

namespace Ods

open List BitVec Option

variable {j c k : ℕ} {on : Bool} {r : ℕ × ℕ}

/-! ## Bits -/

theorem BITS_pos : 0 < BITS := by norm_num [BITS, BLOCK]

theorem Block.getLsbD_setBit {b : Block} {i : ℕ} (hi : i < BITS) :
    (b.setBit i on).getLsbD j = if j = i then on else b.getLsbD j := by
  have hi' : i < 4096 := hi
  have hone : (BitVec.ofNat 4096 1 <<< i).getLsbD j = decide (j = i) := by
    simp only [getLsbD_shiftLeft, getLsbD_ofNat]
    by_cases hji : j = i
    · subst hji; simp [hi']
    · have : j < i ∨ (1 : ℕ).testBit (j - i) = false := by
        rcases Nat.lt_or_ge j i with h | h
        · exact .inl h
        · refine .inr (Bool.eq_false_iff.2 fun ht => ?_)
          rw [Nat.testBit_one_eq_true_iff_self_eq_zero] at ht
          omega
      rcases this with h | h <;> simp [h, hji]
  unfold Block.setBit
  split_ifs with h1 h2 h2
  · rw [getLsbD_or, hone, h2, h1]; simp
  · rw [getLsbD_or, hone]; simp [h2]
  · rw [getLsbD_and, getLsbD_not, hone, h2]; simp [h1]
  · simp only [getLsbD_and, getLsbD_not, hone, h2, decide_false, Bool.not_false,
      Bool.and_true]
    by_cases hj : j < 4096
    · simp [hj]
    · simp [hj, getLsbD_of_ge b j (by omega)]

theorem length_setBit (bits : List Block) (i : ℕ) (on : Bool) : (setBit bits i on).length = bits.length := by
  simp [setBit]

theorem bit_setBit {bits : List Block} {i : ℕ} (hi : i / BITS < bits.length) :
    bit (setBit bits i on) j = if j = i then on else bit bits j := by
  simp only [bit, setBit, List.getElem?_modify]
  by_cases hb : i / BITS = j / BITS
  · have hj : j / BITS < bits.length := hb ▸ hi
    simp only [hb, if_true, List.getElem?_eq_getElem hj, Option.map_eq_map, Option.map_some]
    rw [Block.getLsbD_setBit (Nat.mod_lt _ BITS_pos)]
    have : j % BITS = i % BITS ↔ j = i := by
      constructor
      · intro hm
        rw [← Nat.div_add_mod j BITS, ← Nat.div_add_mod i BITS, hb, hm]
      · rintro rfl; rfl
    simp only [this]
  · have : j ≠ i := fun h => hb (by rw [h])
    simp only [hb, if_false, this]
    cases bits[j / BITS]? <;> rfl

theorem length_foldl_setBit (on : Bool) : ∀ (cs : List ℕ) (bits : List Block),
    (cs.foldl (fun bits c => setBit bits c on) bits).length = bits.length
  | [], _ => rfl
  | c :: cs, bits => by rw [foldl_cons, length_foldl_setBit on cs, length_setBit]

theorem bit_foldl_setBit : ∀ {cs : List ℕ} {bits : List Block},
    (∀ c ∈ cs, c / BITS < bits.length) →
    bit (cs.foldl (fun bits c => setBit bits c on) bits) j = if j ∈ cs then on else bit bits j
  | [], _, _ => by simp
  | c :: cs, bits, h => by
    obtain ⟨hc, hcs⟩ := forall_mem_cons.1 h
    rw [foldl_cons, bit_foldl_setBit (by rw [length_setBit]; exact hcs), bit_setBit hc]
    by_cases h1 : j ∈ cs <;> by_cases h2 : j = c <;> simp [h1, h2]

def rangeCells (r : ℕ × ℕ) : List ℕ := List.range' r.1 r.2

theorem mem_rangeCells : c ∈ rangeCells r ↔ r.1 ≤ c ∧ c < r.1 + r.2 := by
  simp [rangeCells]

theorem foldl_setRange (on : Bool) (rs : List (ℕ × ℕ)) (bits : List Block) :
    rs.foldl (fun bits r => setRange bits r on) bits =
      (rs.flatMap rangeCells).foldl (fun bits c => setBit bits c on) bits := by
  rw [foldl_flatMap]; rfl

/-! ## Free runs -/

/-- Two ranges share no cluster. -/
def Apart (r s : ℕ × ℕ) : Prop := r.1 + r.2 ≤ s.1 ∨ s.1 + s.2 ≤ r.1

theorem Apart.symm {s : ℕ × ℕ} (h : Apart r s) : Apart s r := h.elim .inr .inl

instance : Std.Symm Apart := ⟨fun _ _ => Apart.symm⟩

/-- Ranges of free clusters, apart from each other. -/
structure FreeRuns (bits : List Block) (n : ℕ) (rs : List (ℕ × ℕ)) : Prop where
  pos : ∀ r ∈ rs, 0 < r.2
  le : ∀ r ∈ rs, r.1 + r.2 ≤ n
  free : ∀ r ∈ rs, ∀ i ∈ rangeCells r, bit bits i = true
  apart : rs.Pairwise Apart

theorem cells_freeRuns_from (bits : List Block) : ∀ (n c : ℕ) (start : Option ℕ),
    (∀ s, start = some s → s ≤ c) →
    (freeRuns bits n c start).flatMap rangeCells =
      (start.elim [] fun s => List.range' s (c - s)) ++ (List.range' c n).filter (bit bits)
  | 0, c, none, _ => by simp [freeRuns]
  | 0, c, some s, _ => by simp [freeRuns, rangeCells]
  | n + 1, c, none, _ => by
    unfold freeRuns
    rw [range'_succ, filter_cons]
    split_ifs with hb
    · rw [cells_freeRuns_from bits n (c + 1) (some c) (by simp)]
      simp
    · rw [cells_freeRuns_from bits n (c + 1) none (by simp)]
      rfl
  | n + 1, c, some s, h => by
    have hs := h s rfl
    unfold freeRuns
    rw [range'_succ, filter_cons]
    split_ifs with hb
    · rw [cells_freeRuns_from bits n (c + 1) (some s) (by simp; omega)]
      have : range' s (c + 1 - s) = range' s (c - s) ++ [c] := by
        rw [show c + 1 - s = c - s + 1 by omega, range'_concat]
        simp only [one_mul, append_cancel_left_eq, cons.injEq, and_true]
        omega
      simp [this]
    · rw [flatMap_cons, cells_freeRuns_from bits n (c + 1) none (by simp)]
      rfl

theorem cells_freeRuns (bits : List Block) (n : ℕ) :
    (freeRuns bits n 0 none).flatMap rangeCells = (List.range n).filter (bit bits) := by
  rw [cells_freeRuns_from bits n 0 none (by simp), range_eq_range']
  rfl

theorem freeRuns_from (bits : List Block) : ∀ (n c : ℕ) (start : Option ℕ), (∀ s, start = some s → s < c) →
    (∀ r ∈ freeRuns bits n c start, 0 < r.2 ∧ start.getD c ≤ r.1) ∧ (freeRuns bits n c start).Pairwise Apart
  | 0, c, none, _ => by simp [freeRuns]
  | 0, c, some s, h => by simpa [freeRuns] using h s rfl
  | n + 1, c, none, _ => by
    unfold freeRuns
    split_ifs
    · simpa using freeRuns_from bits n (c + 1) (some c) (by simp)
    · obtain ⟨h1, h2⟩ := freeRuns_from bits n (c + 1) none (by simp)
      exact ⟨fun r hr => ⟨(h1 r hr).1, Nat.le_of_succ_le (h1 r hr).2⟩, h2⟩
  | n + 1, c, some s, h => by
    have hs := h s rfl
    unfold freeRuns
    split_ifs
    · exact freeRuns_from bits n (c + 1) (some s) (by simp; omega)
    · obtain ⟨h1, h2⟩ := freeRuns_from bits n (c + 1) none (by simp)
      have hle : ∀ r ∈ freeRuns bits n (c + 1) none, s + (c - s) ≤ r.1 := fun r hr => by
        have := (h1 r hr).2
        rw [getD_none] at this
        omega
      exact ⟨forall_mem_cons.2 ⟨⟨Nat.sub_pos_of_lt hs, le_rfl⟩,
        fun r hr => ⟨(h1 r hr).1, (Nat.le_add_right _ _).trans (hle r hr)⟩⟩,
        pairwise_cons.2 ⟨fun r hr => .inl (hle r hr), h2⟩⟩

theorem freeRuns_spec (bits : List Block) (n : ℕ) : FreeRuns bits n (freeRuns bits n 0 none) := by
  obtain ⟨h1, h2⟩ := freeRuns_from bits n 0 none (by simp)
  have hcell : ∀ r ∈ freeRuns bits n 0 none, ∀ i ∈ rangeCells r, i < n ∧ bit bits i = true := by
    intro r hr i hi
    have := mem_flatMap.2 ⟨r, hr, hi⟩
    rwa [cells_freeRuns, mem_filter, mem_range] at this
  refine ⟨fun r hr => (h1 r hr).1, fun r hr => ?_, fun r hr i hi => (hcell r hr i hi).2, h2⟩
  have hpos := (h1 r hr).1
  have := (hcell r hr (r.1 + r.2 - 1) (mem_rangeCells.2 (by omega))).1
  omega

/-! ## Choosing clusters -/

section choose
variable {bits : List Block} {n : ℕ} {rs ts : List (ℕ × ℕ)}

theorem FreeRuns.perm (h : FreeRuns bits n rs) (hp : rs.Perm ts) : FreeRuns bits n ts :=
  ⟨fun r hr => h.pos r (hp.mem_iff.2 hr), fun r hr => h.le r (hp.mem_iff.2 hr),
    fun r hr => h.free r (hp.mem_iff.2 hr), (hp.pairwise_iff Apart.symm).1 h.apart⟩

theorem FreeRuns.cons {len : ℕ} (h : FreeRuns bits n ts) (hr : FreeRuns bits n [r]) (hpos : 0 < len)
    (hlen : len ≤ r.2) (hap : ∀ t ∈ ts, Apart r t) : FreeRuns bits n ((r.1, len) :: ts) := by
  have h2 := hr.le r (by simp)
  refine ⟨forall_mem_cons.2 ⟨hpos, h.pos⟩, forall_mem_cons.2 ⟨by simp only; omega, h.le⟩,
    forall_mem_cons.2 ⟨fun i hi => hr.free r (by simp) i ?_, h.free⟩,
    pairwise_cons.2 ⟨fun t ht => ?_, h.apart⟩⟩
  · rw [mem_rangeCells] at hi ⊢; simp only at hi; omega
  · have := hap t ht
    simp only [Apart] at this ⊢; omega

theorem FreeRuns.sublist (h : FreeRuns bits n rs) (hs : ts.Sublist rs) : FreeRuns bits n ts :=
  ⟨fun r hr => h.pos r (hs.subset hr), fun r hr => h.le r (hs.subset hr),
    fun r hr => h.free r (hs.subset hr), h.apart.sublist hs⟩

theorem FreeRuns.single (h : FreeRuns bits n rs) (hr : r ∈ rs) : FreeRuns bits n [r] :=
  h.sublist (singleton_sublist.2 hr)

theorem takeRuns_spec : ∀ {rs ts : List (ℕ × ℕ)} {left : ℕ}, FreeRuns bits n rs →
    takeRuns left rs = some ts → FreeRuns bits n ts ∧ (ts.map Prod.snd).sum = left ∧
      ∀ t ∈ ts, ∃ r ∈ rs, t.1 = r.1 ∧ t.2 ≤ r.2
  | rs, ts, 0, _, ht => by
    have : takeRuns 0 rs = some [] := by cases rs <;> rfl
    rw [this] at ht
    cases ht
    exact ⟨⟨by simp, by simp, by simp, .nil⟩, rfl, by simp⟩
  | [], _, left + 1, _, ht => by cases ht
  | (s, len) :: rs, _, left + 1, h, ht => by
    simp only [takeRuns, map_eq_some_iff] at ht
    obtain ⟨ts, ht, rfl⟩ := ht
    obtain ⟨h1, h2, h3⟩ := takeRuns_spec (h.sublist (sublist_cons_self _ _)) ht
    have hpos : 0 < len := h.pos (s, len) (by simp)
    have hhead : FreeRuns bits n [(s, len)] := h.single (by simp)
    refine ⟨h1.cons hhead (by omega) (Nat.min_le_left _ _) fun t ht => ?_, ?_,
      forall_mem_cons.2 ⟨⟨(s, len), by simp, rfl, Nat.min_le_left _ _⟩, fun t ht => ?_⟩⟩
    · obtain ⟨r, hr, hr1, hr2⟩ := h3 t ht
      have := (pairwise_cons.1 h.apart).1 r hr
      simp only [Apart] at this ⊢; omega
    · simp only [map_cons, sum_cons, h2]; omega
    · obtain ⟨r, hr, hrt⟩ := h3 t ht
      exact ⟨r, mem_cons_of_mem _ hr, hrt⟩

theorem FreeRuns.nodup_runs (h : FreeRuns bits n rs) : rs.Nodup := by
  refine h.apart.imp_of_mem fun {r s} hr _ hrs => ?_
  rintro rfl
  have := h.pos r hr
  simp only [Apart] at hrs
  omega

section
variable {want : ℕ} {how : Alloc} {next : Option ℕ}

theorem mem_of_adjacent (hr : (next.bind fun n => rs.find? fun r => r.1 == n) = some r) : r ∈ rs := by
  obtain ⟨x, -, hr⟩ := bind_eq_some_iff.1 hr
  exact mem_of_find?_eq_some hr

variable (want next) in
theorem chooseRuns_order (h : FreeRuns bits n rs) (hhow : how ≠ .contiguous) :
    ∃ order, rs.Perm order ∧ chooseRuns rs want how next = takeRuns want order := by
  have hfirst : ∀ {order r}, rs.Perm order → (next.bind fun n => rs.find? fun r => r.1 == n) = some r →
      rs.Perm (r :: order.filter (· ≠ r)) := by
    intro order r hp hr
    have herase : order.filter (· ≠ r) = order.erase r := by
      rw [(hp.nodup h.nodup_runs).erase_eq_filter r]
      exact filter_congr fun x _ => (Bool.eq_iff_iff.2 (by simp)).symm
    exact hp.trans (herase ▸ perm_cons_erase (hp.subset (mem_of_adjacent hr)))
  have hsort : rs.Perm (rs.insertionSort fun r s => s.2 ≤ r.2) := (perm_insertionSort _ rs).symm
  unfold chooseRuns
  generalize hadj : (next.bind fun n => rs.find? fun r => r.1 == n) = adj at hfirst
  cases how with
  | contiguous => exact absurd rfl hhow
  | any =>
    cases adj with
    | none => exact ⟨_, .refl rs, rfl⟩
    | some r => exact ⟨_, hfirst (.refl rs) rfl, rfl⟩
  | bestTry =>
    cases adj with
    | none => exact ⟨_, hsort, rfl⟩
    | some r => exact ⟨_, hfirst hsort rfl, rfl⟩

theorem chooseRuns_spec (h : FreeRuns bits n rs) (hw : 0 < want) (hc : chooseRuns rs want how next = some ts) :
    FreeRuns bits n ts ∧ (ts.map Prod.snd).sum = want ∧ (how = .contiguous → ts.length = 1) := by
  by_cases hhow : how = .contiguous
  · subst hhow
    -- one piece of a run
    have hone : ∀ {r : ℕ × ℕ}, r ∈ rs → want ≤ r.2 → FreeRuns bits n [(r.1, want)] := fun hr hle =>
      FreeRuns.cons ⟨by simp, by simp, by simp, .nil⟩ (h.single hr) hw hle (by simp)
    simp only [chooseRuns] at hc
    split at hc
    · next r hr =>
      split_ifs at hc with hle
      cases hc
      exact ⟨hone (mem_of_adjacent hr) hle, by simp, fun _ => rfl⟩
    · cases hc
    · obtain ⟨r, hfind, rfl⟩ := map_eq_some_iff.1 hc
      have := find?_some hfind
      exact ⟨hone (mem_of_find?_eq_some hfind) (by simpa using this), by simp, fun _ => rfl⟩
  · obtain ⟨order, hp, ho⟩ := chooseRuns_order want next h hhow
    obtain ⟨h1, h2, -⟩ := takeRuns_spec (h.perm hp) (ho.symm.trans hc)
    exact ⟨h1, h2, fun h => absurd h hhow⟩

end

end choose

theorem FreeRuns.nodup {bits : List Block} {n : ℕ} {rs : List (ℕ × ℕ)} (h : FreeRuns bits n rs) :
    (rs.flatMap rangeCells).Nodup := by
  rw [nodup_flatMap]
  refine ⟨fun r _ => nodup_range' , h.apart.imp fun {r s} hrs c hr hs => ?_⟩
  rw [mem_rangeCells] at hr hs
  simp only [Apart] at hrs; omega

def rangeRun (k : ℕ) (r : ℕ × ℕ) : Run := ⟨r.1 * k, r.2 * k⟩

theorem cells_rangeRun (hk : 0 < k) (r : ℕ × ℕ) : (rangeRun k r).cells k = rangeCells r := by
  simp [rangeRun, Run.cells, rangeCells, Nat.mul_div_cancel _ hk]

theorem cellsOf_rangeRuns (hk : 0 < k) (rs : List (ℕ × ℕ)) :
    cellsOf k (rs.map (rangeRun k)) = rs.flatMap rangeCells := by
  simp only [cellsOf, flatMap_map, cells_rangeRun hk]

/-! ## The storage bitmap -/

theorem Geom.div_lt_bitmapBlocks {G : Geom} (hc : c < G.clusters) : c / BITS < G.bitmapBlocks := by
  simp only [Geom.bitmapBlocks, BITS, BLOCK]; omega

namespace Op

theorem looks_readMapped {e : Error} (he : ¬e.OfWrite) (map : List Run) (vbn : ℕ) :
    Looks (do
      let lbn ← Prog.orFail e (mapLbn map vbn)
      let b ← readBlock lbn
      pure (lbn, b)) :=
  .bind (looks_orFail he _) fun _ =>
    .bind (looks_readBlock _) fun _ => .pure _

theorem looks_readStorageBitmap : Looks readStorageBitmap :=
  .bind (looks_fileMap _) fun _ => .bind .state_ fun _ =>
    .bind (.collect (looks_readMapped (by simp) _) _) fun _ => .pure _

theorem mem_touchedBlocks {ranges : List (ℕ × ℕ)} (hr : r ∈ ranges) (hc : c ∈ rangeCells r) :
    c / BITS ∈ touchedBlocks ranges := by
  rw [mem_rangeCells] at hc
  have h1 : r.1 / BITS ≤ c / BITS := Nat.div_le_div_right hc.1
  have h2 : c / BITS ≤ (r.1 + r.2 - 1) / BITS := Nat.div_le_div_right (by omega)
  simp only [touchedBlocks, mem_insertionSort, mem_dedup, mem_flatMap]
  refine ⟨r, hr, ?_⟩
  simp only [rangeBlocks, mem_range'_1]
  omega

theorem length_rangeCells (rs : List (ℕ × ℕ)) :
    (rs.flatMap rangeCells).length = (rs.map Prod.snd).sum := by
  simp [length_flatMap, rangeCells]

theorem freeClusters_ok : ∀ {cs : List ℕ} {bits : List Block}, cs.Nodup →
    (∀ c ∈ cs, c / BITS < bits.length ∧ bit bits c = false) →
    freeClusters k bits cs = .ok (cs.foldl (fun bits c => setBit bits c true) bits)
  | [], _, _, _ => rfl
  | c :: cs, bits, hn, h => by
    obtain ⟨⟨hlen, hc⟩, hcs⟩ := forall_mem_cons.1 h
    obtain ⟨hnc, hn⟩ := nodup_cons.1 hn
    simp only [freeClusters, hc, foldl_cons]
    refine freeClusters_ok hn fun x hx => ⟨by rw [length_setBit]; exact (hcs x hx).1, ?_⟩
    have hne : x ≠ c := by rintro rfl; exact hnc hx
    rw [bit_setBit hlen, if_neg hne]
    exact (hcs x hx).2

theorem runClusters_whole {n : ℕ} (hk : 0 < k) {r : Run} (hr : r.Whole k ∧ r.lbn + r.count ≤ n * k) :
    rangeCells (runClusters k r) = r.cells k ∧ clipped n (runClusters k r) = r.cells k := by
  obtain ⟨⟨⟨a, ha⟩, ⟨b, hb⟩, hpos⟩, hle⟩ := hr
  have hb0 : 0 < b := by
    rcases Nat.eq_zero_or_pos b with h | h
    · rw [h] at hb; omega
    · exact h
  have hlast : (r.lbn + r.count - 1) / k = a + b - 1 := by
    rw [ha, hb, ← Nat.mul_add]
    refine Nat.div_eq_of_lt_le ?_ ?_
    · have : k * (a + b) = (a + b - 1) * k + k := by
        rw [Nat.mul_comm, ← Nat.succ_mul]; congr 1; omega
      omega
    · rw [show (a + b - 1 + 1) * k = k * (a + b) by rw [Nat.mul_comm]; congr 1; omega]
      have := Nat.mul_pos hk (show 0 < a + b by omega)
      omega
  rw [ha, hb, ← Nat.mul_add, Nat.mul_comm n] at hle
  have hcl := Nat.le_of_mul_le_mul_left hle hk
  have hrc : runClusters k r = (a, b) := by
    simp only [runClusters, hlast]
    rw [ha, Nat.mul_div_cancel_left _ hk]
    refine Prod.ext rfl ?_
    simp only; omega
  have hcells : r.cells k = range' a b := by
    rw [Run.cells, ha, hb, Nat.mul_div_cancel_left _ hk, Nat.mul_div_cancel_left _ hk]
  rw [hrc, hcells]
  refine ⟨rfl, ?_⟩
  simp only [clipped]
  congr 1; omega

end Op

end Ods
