/-
  What allocating and releasing do to the storage bitmap, from any volume whose
  bitmap can be read.
-/
import Vaxpunk.Ods.Proof.Bitmap
import Vaxpunk.Ods.Proof.Chain

namespace Ods

open List Op

variable {c : ℕ} {ts : List (ℕ × ℕ)} {bits' : List Block}

theorem exists_of_mem_right {α β : Type} {R : α → β → Prop} {as : List α} {bs : List β}
    (h : List.Forall₂ R as bs) : ∀ {b}, b ∈ bs → ∃ a ∈ as, R a b := by
  induction h with
  | nil => simp
  | cons hab _ ih =>
    intro x hx
    rcases mem_cons.1 hx with rfl | hx
    · exact ⟨_, by simp, hab⟩
    · obtain ⟨a, ha, hax⟩ := ih hx
      exact ⟨a, by simp [ha], hax⟩

/-! ## Every free cluster is in a free run -/

/-- The free clusters of the volume, by a bitmap. -/
def freeCount (bits : List Block) (n : ℕ) : ℕ := (List.range n).countP (bit bits)

theorem sum_freeRuns (bits : List Block) (n : ℕ) :
    ((freeRuns bits n 0 none).map Prod.snd).sum = freeCount bits n := by
  rw [← length_rangeCells, cells_freeRuns, freeCount, countP_eq_length_filter]

section choose
variable {bits : List Block} {n : ℕ} {rs : List (ℕ × ℕ)}

theorem sum_lt_of_takeRuns : ∀ {left : ℕ} {rs : List (ℕ × ℕ)}, takeRuns left rs = none →
    (rs.map Prod.snd).sum < left
  | 0, rs, h => by cases rs <;> cases h
  | left + 1, [], _ => by simp
  | left + 1, (s, len) :: rs, h => by
    simp only [takeRuns, Option.map_eq_none_iff] at h
    have := sum_lt_of_takeRuns h
    simp only [map_cons, sum_cons]
    omega

theorem sum_lt_of_chooseRuns {want : ℕ} {how : Alloc} {next : Option ℕ} (h : FreeRuns bits n rs)
    (hhow : how ≠ .contiguous) (hc : chooseRuns rs want how next = none) :
    (rs.map Prod.snd).sum < want := by
  obtain ⟨order, hp, ho⟩ := chooseRuns_order want next h hhow
  rw [(hp.map Prod.snd).sum_eq]
  exact sum_lt_of_takeRuns (ho.symm.trans hc)

theorem chooseRuns_contiguous {want : ℕ} (hc : chooseRuns rs want .contiguous (some c) = some ts) :
    ts = [(c, want)] := by
  simp only [chooseRuns, Option.bind_some] at hc
  cases hf : rs.find? fun r => r.1 == c with
  | none => rw [hf] at hc; cases hc
  | some r =>
    rw [hf] at hc
    simp only at hc
    split_ifs at hc
    have hr : r.1 = c := by simpa using find?_some hf
    rw [← hr]
    exact (Option.some.inj hc).symm

end choose

/-! ## The bitmap on the volume -/

/-- The storage bitmap of a volume: the LBNs of its blocks, no block twice and
    none of them a header of BITMAP.SYS, and what the blocks hold. -/
structure Volume.Bitmap (v : Volume) (bmap : List ℕ) (bits : List Block) : Prop where
  read : (readStorageBitmap v).result = .ok (bmap, bits)
  nodup : bmap.Nodup
  apart : ∀ hs, (headers BITMAP v).result = .ok hs → ∀ x ∈ hs, x.1 ∉ bmap

namespace Op

variable {v v' : Volume} {bmap : List ℕ} {bits : List Block}

abbrev bitmapBlocks (v : Volume) : ℕ := (v.clusters + BITS - 1) / BITS

/-- **Reading the storage bitmap**: what is read and when it succeeds. -/
theorem readStorageBitmap_iff : (readStorageBitmap v).result = .ok (bmap, bits) ↔
    ∃ hs map, (headers BITMAP v).result = .ok hs ∧ (runsOf hs v).result = .ok map ∧
      List.Forall₂ (fun vbn l => mapLbn map vbn = some l ∧ l < v.dev.count)
        (List.range' 2 (bitmapBlocks v)) bmap ∧ bits = bmap.map v.dev.blocks := by
  have hone : ∀ (map : List Run) (vbn : ℕ) (x : ℕ × Block), ((do
      let lbn ← Prog.orFail (.corrupt "storage bitmap shorter than the volume" 0) (mapLbn map vbn)
      let b ← readBlock lbn
      pure (lbn, b) : Op (ℕ × Block)) v).result = .ok x ↔
      (mapLbn map vbn = some x.1 ∧ x.1 < v.dev.count) ∧ x.2 = v.dev.blocks x.1 := by
    intro map vbn x
    simp only [orFail_bind_ok, (looks_readBlock _).bind_ok, readBlock_ok]
    constructor
    · rintro ⟨l, hl, b, ⟨hlt, rfl⟩, h⟩
      cases h
      exact ⟨⟨hl, hlt⟩, rfl⟩
    · obtain ⟨l, b⟩ := x
      rintro ⟨⟨hl, hlt⟩, hb⟩
      exact ⟨l, hl, b, ⟨hlt, hb⟩, rfl⟩
  have hlook := looks_readMapped (e := .corrupt "storage bitmap shorter than the volume" 0) (by simp)
  unfold readStorageBitmap fileMap
  simp only [(Prog.Looks.bind (looks_headers BITMAP) looks_runsOf).bind_ok, (looks_headers _).bind_ok,
    Prog.Looks.state_bind, (Prog.Looks.collect (hlook _) _).bind_ok, Prog.Looks.collect_ok (hlook _), hone]
  constructor
  · rintro ⟨map, ⟨hs, hhs, hmap⟩, bs, hbs, h⟩
    cases h
    refine ⟨hs, map, hhs, hmap, ?_, ?_⟩
    · rw [forall₂_map_right_iff]
      exact hbs.imp fun _ _ h => h.1
    · rw [map_map]
      refine map_congr_left fun x hx => ?_
      obtain ⟨_, _, h⟩ := exists_of_mem_right hbs hx
      exact h.2
  · rintro ⟨hs, map, hhs, hmap, hall, rfl⟩
    refine ⟨map, ⟨hs, hhs, hmap⟩, bmap.map fun l => (l, v.dev.blocks l), ?_, ?_⟩
    · rw [forall₂_map_right_iff]
      exact hall.imp fun _ _ h => ⟨h, rfl⟩
    · change Except.ok _ = Except.ok _
      simp [Function.comp_def]

end Op

namespace Volume.Bitmap

variable {v v' : Volume} {bmap : List ℕ} {bits : List Block}

section
variable (h : v.Bitmap bmap bits)
include h

theorem length : bmap.length = bitmapBlocks v := by
  obtain ⟨_, _, _, _, hall, _⟩ := readStorageBitmap_iff.1 h.read
  rw [← hall.length_eq, length_range']

theorem bits_eq : bits = bmap.map v.dev.blocks := by
  obtain ⟨_, _, _, _, _, hb⟩ := readStorageBitmap_iff.1 h.read
  exact hb

theorem within : ∀ l ∈ bmap, l < v.dev.count := by
  obtain ⟨_, _, _, _, hall, _⟩ := readStorageBitmap_iff.1 h.read
  intro l hl
  obtain ⟨_, _, h⟩ := exists_of_mem_right hall hl
  exact h.2

theorem frame (hv : v.Same v')
    (hb : ∀ l ∉ bmap, v'.dev.blocks l = v.dev.blocks l) : v'.Bitmap bmap (bmap.map v'.dev.blocks) := by
  obtain ⟨hs, map, hhs, hmap, hall, -⟩ := readStorageBitmap_iff.1 h.read
  have hhs' : (headers BITMAP v').result = .ok hs := by
    obtain ⟨p, xs, rfl, hr⟩ := headers_iff.1 hhs
    exact headers_iff.2 ⟨p, xs, rfl, hr.congr hv.later fun x hx => hb _ (h.apart _ hhs x hx)⟩
  refine ⟨readStorageBitmap_iff.2 ⟨hs, map, hhs', hv.kin.runsOf hmap, ?_, rfl⟩, h.nodup, fun hs' hhs'' => ?_⟩
  · rw [bitmapBlocks, hv.clusters, hv.count]
    exact hall
  · rw [hhs'] at hhs''
    cases hhs''
    exact h.apart _ hhs

end

end Volume.Bitmap

/-! ## Writing the bitmap back -/

theorem getElem?_eq_of_bit {bits : List Block} {j : ℕ} (hl : bits'.length = bits.length)
    (h : ∀ c, c / BITS = j → bit bits' c = bit bits c) : bits'[j]? = bits[j]? := by
  rcases Nat.lt_or_ge j bits.length with hj | hj
  · have hj' : j < bits'.length := hl ▸ hj
    rw [getElem?_eq_getElem hj, getElem?_eq_getElem hj', Option.some.injEq]
    refine BitVec.eq_of_getLsbD_eq fun i hi => ?_
    have hi : i < BITS := hi
    have hdiv : (j * BITS + i) / BITS = j := by
      rw [Nat.mul_comm, Nat.mul_add_div BITS_pos, Nat.div_eq_of_lt hi, Nat.add_zero]
    have hmod : (j * BITS + i) % BITS = i := by
      rw [Nat.mul_comm, Nat.mul_add_mod, Nat.mod_eq_of_lt hi]
    have := h (j * BITS + i) hdiv
    simpa only [bit, hdiv, hmod, getElem?_eq_getElem hj, getElem?_eq_getElem hj'] using this
  · rw [getElem?_eq_none hj, getElem?_eq_none (hl ▸ hj)]

theorem bits_ext {bits : List Block} (hl : bits'.length = bits.length)
    (h : ∀ c, bit bits' c = bit bits c) : bits' = bits :=
  ext_getElem? fun _ => getElem?_eq_of_bit hl fun c _ => h c

namespace Op

variable {v : Volume} {l : ℕ} {b : Block} {bmap : List ℕ} {bits : List Block}

theorem writeBlock_ends {Q : Unit → Volume → Prop} {E : Error → Volume → Prop} (hlt : l < v.dev.count)
    (hQ : v.writable = true → ∀ v', v.Same v' → v'.dev.blocks = v.dev.blocks.write (l, b) → Q () v')
    (hE : ∀ v', v.Same v' → v'.dev.blocks = v.dev.blocks → E .device v')
    (hR : v.writable = false → E .readOnly v) : Prog.Ends world (writeBlock l b) v Q E := by
  cases hw : v.writable with
  | true =>
    refine writeBlock_runs hw (fun _ => id) (fun _ v' hv hd _ => hQ hw v' hv hd) fun e v' hv hd he => ?_
    have hdev : e = .device := by_contra fun h => absurd (he h) (by omega)
    rw [hdev]
    exact hE v' hv hd
  | false =>
    unfold writeBlock
    refine .state_bind ?_
    rw [if_pos (by simp [hw])]
    exact .fail (by simp [world]) (hR hw)

theorem writeBitmapBlocks_ends (hb : v.Bitmap bmap bits) (bits' : List Block) (ranges : List (ℕ × ℕ))
    (hlen : bits'.length = bits.length)
    (hsame : ∀ {c}, c / BITS ∉ touchedBlocks ranges → bit bits' c = bit bits c) :
    Prog.Ends world (writeBitmapBlocks bmap bits' ranges) v
      (fun _ v' => v.Same v' ∧ v'.Bitmap bmap bits' ∧ (∀ l ∉ bmap, v'.dev.blocks l = v.dev.blocks l) ∧
        (v.writable = false → bits' = bits))
      (fun e _ => e = .device ∨ e = .readOnly ∧ v.writable = false) := by
  have hlen' : bits'.length = bmap.length := by rw [hlen, hb.bits_eq, length_map]
  refine .post_mono (.each (T := fun js s => v.Same s ∧
    (v.writable = false → s.dev.blocks = v.dev.blocks) ∧
    (∀ l ∉ bmap, s.dev.blocks l = v.dev.blocks l) ∧
    ∀ j l, bmap[j]? = some l → j ∉ js → bits'[j]? = some (s.dev.blocks l)) ?_ ?_) ?_ fun _ _ h => h
  · refine ⟨.refl v, fun _ => rfl, fun _ _ => rfl, fun j l hl hj => ?_⟩
    rw [getElem?_eq_of_bit hlen fun c hc => hsame (hc ▸ hj), hb.bits_eq, getElem?_map, hl]
    rfl
  · rintro j js s ⟨hv, hro, hout, hin⟩
    split
    · rename_i l b hl hbj
      have hmem : l ∈ bmap := mem_of_getElem? hl
      refine writeBlock_ends (by rw [hv.count]; exact hb.within l hmem) (fun hw v' hv' hd => ?_)
        (fun _ _ _ => .inl rfl) fun hw => .inr ⟨rfl, hv.writable ▸ hw⟩
      rw [hd]
      refine ⟨hv.trans hv', fun hw' => ?_, fun l' hl' => ?_, fun i l' hi hijs => ?_⟩
      · rw [hv.writable, hw'] at hw
        cases hw
      · rw [Geom.write_other (by rintro rfl; exact hl' hmem)]
        exact hout l' hl'
      · by_cases hij : i = j
        · subst hij
          rw [hl] at hi
          cases hi
          simpa [Disk.write] using hbj
        · have hne : l' ≠ l := by
            rintro rfl
            exact hij ((List.getElem?_inj (List.getElem?_eq_some_iff.1 hi).1 hb.nodup).1 (hi.trans hl.symm))
          rw [Geom.write_other hne]
          exact hin i l' hi (by simp [hij, hijs])
    · rename_i hnone
      refine .pure ⟨hv, hro, hout, fun i l hi hijs => ?_⟩
      by_cases hij : i = j
      · subst hij
        have h1 := (List.getElem?_eq_some_iff.1 hi).1
        exact absurd (getElem?_eq_getElem (hlen' ▸ h1)) (hnone l _ hi)
      · exact hin i l hi (by simp [hij, hijs])
  · rintro _ v' ⟨hv, hro, hout, hin⟩
    have hbits : bits' = bmap.map v'.dev.blocks := by
      refine ext_getElem? fun j => ?_
      rw [getElem?_map]
      rcases hj : bmap[j]? with _ | l
      · rw [List.getElem?_eq_none_iff] at hj
        simpa using hlen' ▸ hj
      · rw [hin j l hj (by simp)]
        rfl
    exact ⟨hv, hbits ▸ hb.frame hv hout, hout, fun hw => by rw [hbits, hro hw, ← hb.bits_eq]⟩

/-! ## Allocating -/

section allocate
variable {blocks : ℕ} {how : Alloc} {after : Option ℕ} {ts : List (ℕ × ℕ)}

/-- Clusters a request comes to. -/
abbrev wanted (v : Volume) (blocks : ℕ) : ℕ := (blocks + v.cluster - 1) / v.cluster

/-- The cluster a request would continue at. -/
abbrev nextTo (v : Volume) (after : Option ℕ) : Option ℕ :=
  (after.filter fun a => a % v.cluster = 0).map (· / v.cluster)

theorem wanted_pos (hk : 0 < v.cluster) (hpos : 0 < blocks) : 0 < wanted v blocks :=
  Nat.div_pos (by omega) hk

theorem allocate_eq (hb : v.Bitmap bmap bits) (hk : 0 < v.cluster) (hpos : 0 < blocks) :
    allocate blocks how after v = (do
      let take ← Prog.orFail .deviceFull
        (chooseRuns (freeRuns bits v.clusters 0 none) (wanted v blocks) how (nextTo v after))
      writeBitmapBlocks bmap (take.foldl (fun bits r => setRange bits r false) bits) take
      pure (take.map (rangeRun v.cluster)) : Op (List Run)) v := by
  have hw : wanted v blocks ≠ 0 := (wanted_pos hk hpos).ne'
  have hstate : allocate blocks how after v = (if wanted v blocks = 0 then pure [] else _ : Op (List Run)) v := rfl
  rw [hstate, if_neg hw]
  exact looks_readStorageBitmap.run hb.read

theorem allocate_none (hb : v.Bitmap bmap bits) (hk : 0 < v.cluster) (hpos : 0 < blocks)
    (hc : chooseRuns (freeRuns bits v.clusters 0 none) (wanted v blocks) how (nextTo v after) = none) :
    allocate blocks how after v = ⟨.error .deviceFull, v, []⟩ := by
  rw [allocate_eq hb hk hpos, hc]
  rfl

theorem cells_lt_clusters (h : FreeRuns bits v.clusters ts) : ∀ c ∈ ts.flatMap rangeCells, c < v.clusters := by
  intro c hc
  obtain ⟨r, hr, hc⟩ := mem_flatMap.1 hc
  have := h.le r hr
  rw [mem_rangeCells] at hc
  omega

theorem div_lt_length (hb : v.Bitmap bmap bits) (hc : c < v.clusters) : c / BITS < bits.length := by
  rw [hb.bits_eq, length_map, hb.length]
  exact Geom.div_lt_bitmapBlocks (G := v.geom) hc

theorem allocate_some (hb : v.Bitmap bmap bits) (hk : 0 < v.cluster) (hpos : 0 < blocks)
    (hc : chooseRuns (freeRuns bits v.clusters 0 none) (wanted v blocks) how (nextTo v after) = some ts)
    (hts : FreeRuns bits v.clusters ts) (hne : ts ≠ []) :
    Prog.Ends world (allocate blocks how after) v
      (fun runs v' => runs = ts.map (rangeRun v.cluster) ∧ v.Same v' ∧ v.writable = true ∧
        (∀ l ∉ bmap, v'.dev.blocks l = v.dev.blocks l) ∧ ∃ bits', v'.Bitmap bmap bits' ∧
          ∀ c, bit bits' c = (bit bits c && decide (c ∉ cellsOf v.cluster runs)))
      (fun e _ => e = .device ∨ e = .readOnly ∧ v.writable = false) := by
  have hin : ∀ c ∈ ts.flatMap rangeCells, c / BITS < bits.length :=
    fun c hc => div_lt_length hb (cells_lt_clusters hts c hc)
  have hbit : ∀ c, bit (ts.foldl (fun bits r => setRange bits r false) bits) c =
      (bit bits c && decide (c ∉ cellsOf v.cluster (ts.map (rangeRun v.cluster)))) := by
    intro c
    rw [foldl_setRange, bit_foldl_setBit hin, cellsOf_rangeRuns hk]
    by_cases h : c ∈ ts.flatMap rangeCells
    · rw [if_pos h]; simp [h]
    · rw [if_neg h]; simp [h]
  have hwrite := writeBitmapBlocks_ends hb (ts.foldl (fun bits r => setRange bits r false) bits) ts
    (by rw [foldl_setRange, length_foldl_setBit]) fun {c} hct => by
      rw [hbit, cellsOf_rangeRuns hk]
      have hc : c ∉ ts.flatMap rangeCells := fun h => by
        obtain ⟨r, hr, hcr⟩ := mem_flatMap.1 h
        exact hct (mem_touchedBlocks hr hcr)
      simp [hc]
  unfold Prog.Ends Prog.Runs
  rw [allocate_eq hb hk hpos, hc, (looks_orFail (e := .deviceFull) (by simp) (some ts)).run rfl]
  refine Prog.Runs.bind (hwrite.imp (fun _ _ h => h)) ?_
  rintro _ v' ⟨hv, hb', hout, hro⟩
  refine Prog.Runs.pure ⟨rfl, hv, ?_, hout, _, hb', hbit⟩
  -- a chosen cluster was free and is not any more, so something was written
  obtain ⟨r, hr⟩ : ∃ r, r ∈ ts := exists_mem_of_ne_nil ts hne
  have hmem : r.1 ∈ ts.flatMap rangeCells :=
    mem_flatMap.2 ⟨r, hr, mem_rangeCells.2 ⟨le_rfl, by have := hts.pos r hr; omega⟩⟩
  cases hw : v.writable with
  | true => rfl
  | false =>
    have h1 := hts.free r hr r.1 (mem_rangeCells.2 ⟨le_rfl, by have := hts.pos r hr; omega⟩)
    have h2 := hbit r.1
    rw [hro hw, h1, cellsOf_rangeRuns hk] at h2
    simp [hmem] at h2

end allocate

/-! ## Releasing -/

/-- The clusters that releasing runs makes free. -/
def releasedCells (v : Volume) (runs : List Run) : List ℕ :=
  ((runs.filter (·.count > 0)).map (runClusters v.cluster)).flatMap (clipped v.clusters)

theorem freeClusters_cases (k : ℕ) : ∀ (cs : List ℕ) (bits : List Block),
    freeClusters k bits cs = .ok (cs.foldl (fun bits c => setBit bits c true) bits) ∨
      ∃ l, freeClusters k bits cs = .error (.corrupt "freeing a cluster that is already free" l)
  | [], _ => .inl rfl
  | c :: cs, bits => by
    unfold freeClusters
    split_ifs
    · exact .inr ⟨_, rfl⟩
    · exact freeClusters_cases k cs _

theorem mem_rangeCells_of_clipped {n : ℕ} {r : ℕ × ℕ} (hr : 0 < r.2) (hc : c ∈ clipped n r) :
    c ∈ rangeCells r := by
  rw [clipped, mem_range'_1] at hc
  rw [mem_rangeCells]
  omega

theorem release_ends (hb : v.Bitmap bmap bits) (runs : List Run)
    (hlt : ∀ c ∈ releasedCells v runs, c < v.clusters) :
    Prog.Ends world (release runs) v
      (fun _ v' => v.Same v' ∧ (∀ l ∉ bmap, v'.dev.blocks l = v.dev.blocks l) ∧
        ∃ bits', v'.Bitmap bmap bits' ∧ bits'.length = bits.length ∧
          ∀ c, bit bits' c = (bit bits c || decide (c ∈ releasedCells v runs)))
      (fun e _ => e = .device ∨ e = .readOnly ∧ v.writable = false ∨
        ∃ l, e = .corrupt "freeing a cluster that is already free" l ∧
          freeClusters v.cluster bits (releasedCells v runs) = .error e) := by
  unfold release
  split_ifs with h0
  · subst h0
    exact .pure ⟨.refl v, fun _ _ => rfl, bits, hb, rfl, by simp [releasedCells]⟩
  refine .state_bind ?_
  refine .look looks_readStorageBitmap.loud (fun a ha => ?_) fun e he => by rw [hb.read] at he; cases he
  rw [hb.read] at ha
  cases ha
  dsimp only
  have hin : ∀ c ∈ releasedCells v runs, c / BITS < bits.length := fun c hc => div_lt_length hb (hlt c hc)
  rcases freeClusters_cases v.cluster (releasedCells v runs) bits with hok | ⟨l, herr⟩
  · have hbit : ∀ c, bit ((releasedCells v runs).foldl (fun bits c => setBit bits c true) bits) c =
        if c ∈ releasedCells v runs then true else bit bits c := fun c => bit_foldl_setBit hin
    rw [show freeClusters v.cluster bits (((runs.filter (·.count > 0)).map (runClusters v.cluster)).flatMap
      (clipped v.clusters)) = _ from hok]
    have hwrite := writeBitmapBlocks_ends hb ((releasedCells v runs).foldl (fun bits c => setBit bits c true) bits)
      ((runs.filter (·.count > 0)).map (runClusters v.cluster)) (length_foldl_setBit _ _ _) fun {c} hct => by
        rw [hbit, if_neg fun h => ?_]
        obtain ⟨x, hx, hcx⟩ := mem_flatMap.1 h
        refine hct (mem_touchedBlocks hx (mem_rangeCells_of_clipped ?_ hcx))
        obtain ⟨r, hr, rfl⟩ := mem_map.1 hx
        have hpos : 0 < r.count := by simpa using (mem_filter.1 hr).2
        have := Nat.div_le_div_right (c := v.cluster) (show r.lbn ≤ r.lbn + r.count - 1 by omega)
        simp only [runClusters]
        omega
    refine hwrite.post_mono ?_ fun e _ he => he.imp id .inl
    rintro _ v' ⟨hv, hb', hout, -⟩
    refine ⟨hv, hout, _, hb', length_foldl_setBit _ _ _, fun c => ?_⟩
    rw [hbit]
    by_cases h : c ∈ releasedCells v runs <;> simp [h]
  · rw [show freeClusters v.cluster bits (((runs.filter (·.count > 0)).map (runClusters v.cluster)).flatMap
      (clipped v.clusters)) = _ from herr]
    exact .fail (by simp [world]) (.inr (.inr ⟨l, rfl, herr⟩))

theorem release_unread {e : Error} {runs : List Run} (he : (readStorageBitmap v).result = .error e) (hne : runs ≠ []) :
    Prog.Ends world (release runs) v (fun _ _ => False) (fun e' _ => e' = e) := by
  unfold release
  rw [if_neg hne]
  refine .state_bind (.look looks_readStorageBitmap.loud (fun a ha => ?_) fun e' he' => ?_)
  · rw [he] at ha
    cases ha
  · rw [he] at he'
    cases he'
    rfl

theorem releasedCells_rangeRuns (hk : 0 < v.cluster) (hpos : ∀ r ∈ ts, 0 < r.2)
    (hle : ∀ r ∈ ts, r.1 + r.2 ≤ v.clusters) :
    releasedCells v (ts.map (rangeRun v.cluster)) = ts.flatMap rangeCells := by
  have hwhole : ∀ r ∈ ts, (rangeRun v.cluster r).Whole v.cluster ∧
      (rangeRun v.cluster r).lbn + (rangeRun v.cluster r).count ≤ v.clusters * v.cluster := fun r hr =>
    ⟨⟨Dvd.intro_left _ rfl, Dvd.intro_left _ rfl, Nat.mul_pos (hpos r hr) hk⟩, by
      simp only [rangeRun, ← Nat.add_mul]
      exact Nat.mul_le_mul_right _ (hle r hr)⟩
  have hfil : (ts.map (rangeRun v.cluster)).filter (fun r => decide (r.count > 0)) =
      ts.map (rangeRun v.cluster) :=
    filter_eq_self.2 fun r hr => by
      obtain ⟨x, hx, rfl⟩ := mem_map.1 hr
      simpa using (hwhole x hx).1.pos
  rw [releasedCells, hfil]
  simp only [flatMap_map, map_map]
  refine flatMap_congr fun r hr => ?_
  exact (runClusters_whole hk (hwhole r hr)).2.trans (cells_rangeRun hk r)

theorem release_taken (hb : v.Bitmap bmap bits) (bits' : List Block) (hk : 0 < v.cluster)
    (hpos : ∀ r ∈ ts, 0 < r.2) (hle : ∀ r ∈ ts, r.1 + r.2 ≤ v.clusters)
    (hn : (ts.flatMap rangeCells).Nodup) (htaken : ∀ c ∈ ts.flatMap rangeCells, bit bits c = false)
    (hbits' : bits'.length = bits.length)
    (hbit' : ∀ c, bit bits' c = (bit bits c || decide (c ∈ ts.flatMap rangeCells))) :
    Prog.Ends world (release (ts.map (rangeRun v.cluster))) v (fun _ v' => v'.Bitmap bmap bits')
      (fun e _ => e = .device ∨ e = .readOnly ∧ v.writable = false) := by
  have hcells := releasedCells_rangeRuns hk hpos hle
  have hlt : ∀ c ∈ ts.flatMap rangeCells, c < v.clusters := by
    intro c hc
    obtain ⟨r, hr, hcr⟩ := mem_flatMap.1 hc
    have := hle r hr
    rw [mem_rangeCells] at hcr
    omega
  refine (release_ends hb _ (by rw [hcells]; exact hlt)).post_mono ?_ ?_
  · rintro _ v' ⟨-, -, bits'', hb', hlen, hbit⟩
    rw [hcells] at hbit
    obtain rfl : bits'' = bits' := bits_ext (hlen.trans hbits'.symm) fun c => (hbit c).trans (hbit' c).symm
    exact hb'
  · rintro e _ (he | he | ⟨l, -, herr⟩)
    · exact .inl he
    · exact .inr he
    · rw [hcells, freeClusters_ok hn fun c hc => ⟨div_lt_length hb (hlt c hc), htaken c hc⟩] at herr
      cases herr

end Op

/-! ## The whole of it -/

/-- What a successful `allocate` has done. -/
structure Allocated (v : Volume) (bmap : List ℕ) (bits : List Block) (blocks : ℕ) (how : Alloc)
    (after : Option ℕ) (runs : List Run) (v' : Volume) : Prop where
  disjoint : runs.Pairwise fun r s => r.lbn + r.count ≤ s.lbn ∨ s.lbn + s.count ≤ r.lbn
  aligned : ∀ r ∈ runs, r.Whole v.cluster
  free : ∀ c ∈ cellsOf v.cluster runs, c < v.clusters ∧ bit bits c = true
  total : mapSize runs = Volume.nextMultipleOf blocks v.cluster
  /-- Exactly the bits of the runs are cleared. -/
  bitmap : ∃ bits', v'.Bitmap bmap bits' ∧
    ∀ c, bit bits' c = (bit bits c && decide (c ∉ cellsOf v.cluster runs))
  contiguous : how = .contiguous → ∃ r, runs = [r] ∧ ∀ a, after = some a → v.cluster ∣ a → r.lbn = a
  /-- Giving the runs back restores the bitmap; only the device can fail. -/
  released : ((release runs v').result = .ok () → (release runs v').state.Bitmap bmap bits) ∧
    ∀ e, (release runs v').result = .error e → e = .device ∧ v'.dev.fault ≠ none

section whole
variable {v : Volume} {bmap : List ℕ} {bits : List Block} {blocks : ℕ} {how : Alloc} {after : Option ℕ}

theorem disjoint_rangeRuns {k n : ℕ} (h : FreeRuns bits n ts) :
    (ts.map (rangeRun k)).Pairwise fun r s => r.lbn + r.count ≤ s.lbn ∨ s.lbn + s.count ≤ r.lbn := by
  rw [pairwise_map]
  refine h.apart.imp fun {r s} hrs => ?_
  simp only [rangeRun, ← Nat.add_mul]
  exact hrs.imp (Nat.mul_le_mul_right k) (Nat.mul_le_mul_right k)

theorem mapSize_rangeRuns (k : ℕ) (ts : List (ℕ × ℕ)) :
    mapSize (ts.map (rangeRun k)) = (ts.map Prod.snd).sum * k := by
  simp only [mapSize, map_map, Function.comp_def, rangeRun, sum_map_mul_right]

theorem bits_released {cells : List ℕ} (hf : ∀ c ∈ cells, bit bits c = true)
    (h : ∀ c, bit bits' c = (bit bits c && decide (c ∉ cells))) (c : ℕ) :
    bit bits c = (bit bits' c || decide (c ∈ cells)) := by
  rw [h]
  by_cases hc : c ∈ cells
  · simp [hc, hf c hc]
  · simp [hc]

/-- **Allocating**: clusters that were free, as many as asked for, and exactly
    their bits cleared; it fails for want of free clusters, with nothing
    written, or because the mount or the device refuses a write. -/
theorem allocate_spec (hb : v.Bitmap bmap bits) (hk : 0 < v.cluster) (hpos : 0 < blocks) :
    (∀ runs, (allocate blocks how after v).result = .ok runs →
      Allocated v bmap bits blocks how after runs (allocate blocks how after v).state) ∧
    ∀ e, (allocate blocks how after v).result = .error e →
      (e = .deviceFull ∧ (allocate blocks how after v).writes = [] ∧
        (allocate blocks how after v).state = v ∧
        (how ≠ .contiguous → freeCount bits v.clusters < wanted v blocks)) ∨
      (e = .readOnly ∧ v.writable = false) ∨ (e = .device ∧ v.dev.fault ≠ none) := by
  have hfr := freeRuns_spec bits v.clusters
  rcases hc : chooseRuns (freeRuns bits v.clusters 0 none) (wanted v blocks) how (nextTo v after)
    with _ | ts
  case none =>
    rw [allocate_none hb hk hpos hc]
    refine ⟨fun runs h => (by cases h), fun e h => .inl ?_⟩
    cases h
    exact ⟨rfl, rfl, rfl, fun hhow => sum_freeRuns bits _ ▸ sum_lt_of_chooseRuns hfr hhow hc⟩
  case some =>
    obtain ⟨hts, hsum, hone⟩ := chooseRuns_spec hfr (wanted_pos hk hpos) hc
    have hne : ts ≠ [] := by
      rintro rfl
      exact absurd hsum (wanted_pos hk hpos).ne
    have hrun := allocate_some hb hk hpos hc hts hne
    refine ⟨fun runs h => ?_, fun e h => .inr ?_⟩
    · obtain ⟨rfl, hv, hw, -, bits', hb', hbit'⟩ := hrun.of_ok h
      generalize (allocate blocks how after v).state = v' at hv hb'
      rw [cellsOf_rangeRuns hk] at hbit'
      have hfree : ∀ c ∈ ts.flatMap rangeCells, bit bits c = true := by
        intro c hc
        obtain ⟨r, hr, hcr⟩ := mem_flatMap.1 hc
        exact hts.free r hr c hcr
      have hrel := release_taken hb' bits (by rw [hv.cluster]; exact hk) hts.pos
        (by rw [hv.clusters]; exact hts.le) hts.nodup (fun c hc => by rw [hbit', hfree c hc]; simp [hc])
        (by rw [hb'.bits_eq, hb.bits_eq, length_map, length_map])
        (bits_released hfree hbit')
      rw [hv.cluster] at hrel
      refine ⟨disjoint_rangeRuns hts, fun r hr => ?_, fun c hc => ?_, ?_, ⟨bits', hb', ?_⟩,
        fun hhow => ?_, hrel.of_ok, fun e he => ?_⟩
      · obtain ⟨x, hx, rfl⟩ := mem_map.1 hr
        exact ⟨Dvd.intro_left _ rfl, Dvd.intro_left _ rfl, Nat.mul_pos (hts.pos x hx) hk⟩
      · rw [cellsOf_rangeRuns hk] at hc
        exact ⟨cells_lt_clusters hts c hc, hfree c hc⟩
      · rw [mapSize_rangeRuns, hsum]
        rfl
      · rw [cellsOf_rangeRuns hk]
        exact hbit'
      · obtain ⟨t, rfl⟩ := length_eq_one_iff.1 (hone hhow)
        refine ⟨rangeRun v.cluster t, rfl, fun a ha hdvd => ?_⟩
        subst hhow ha
        have hnext : nextTo v (some a) = some (a / v.cluster) := by
          simp [nextTo, Option.filter, Nat.mod_eq_zero_of_dvd hdvd]
        rw [hnext] at hc
        have ht := chooseRuns_contiguous hc
        simp only [cons.injEq, and_true] at ht
        rw [ht]
        exact Nat.div_mul_cancel hdvd
      · refine ⟨(hrel.of_error he).resolve_right fun h => ?_, fun hcalm => ?_⟩
        · rw [hv.writable, hw] at h
          cases h.2
        · exact (hrel.calm Prog.stays_true hcalm).2 e he
            ((hrel.of_error he).resolve_right fun h => by rw [hv.writable, hw] at h; cases h.2)
    · rcases hrun.of_error h with rfl | hro
      · exact .inr ⟨rfl, fun hcalm => (hrun.calm Prog.stays_true hcalm).2 _ h rfl⟩
      · exact .inl hro

end whole

/-! ## A volume of 40 blocks -/

/-- BITMAP.SYS in blocks 20 and 21. -/
def smallBitmapHeader : Header :=
  let h := (((Header.default.setIdoffset 40).setMpoffset 100).setAcoffset 255).setRsoffset 255
  let h := (h.setStruclev 0x0201).setFid (Fid.new 2 2)
  ((h.setMap (encodeMap (pointers [⟨20, 2⟩]))).getD h).updateChecksum

/-- The index file is in blocks 1 to 12; block 22 is taken, the others are
    free. -/
def smallVolume : Volume where
  dev := {
    blockSize := 512
    count := 40
    blocks := fun l => if l = 3 then smallBitmapHeader.raw else if l = 21 then 2 ^ 40 - 1 - 2 ^ 22 else 0
    fault := none }
  home := (((HomeBlock.default.setCluster 1).setIbmapvbn 1).setIbmapsize 1).setMaxfiles 16
  level := .ods2
  writable := true
  indexMap := [⟨1, 12⟩]
  volBlocks := 40
  clock := 0

theorem smallVolume_bitmap : smallVolume.Bitmap [21] [smallVolume.dev.blocks 21] := by
  refine ⟨by decide +kernel, by decide, fun hs hhs => ?_⟩
  have : (headers BITMAP smallVolume).result = .ok [(3, smallBitmapHeader)] := by decide +kernel
  rw [this] at hhs
  cases hhs
  simp

/-- Three blocks right after block 22. -/
theorem allocate_spec_small :
    (allocate 3 .contiguous (some 23) smallVolume).result = .ok [⟨23, 3⟩] ∧
    Allocated smallVolume [21] [smallVolume.dev.blocks 21] 3 .contiguous (some 23) [⟨23, 3⟩]
      (allocate 3 .contiguous (some 23) smallVolume).state := by
  have h : (allocate 3 .contiguous (some 23) smallVolume).result = .ok [⟨23, 3⟩] := by decide +kernel
  exact ⟨h, (allocate_spec smallVolume_bitmap (by decide +kernel) (by decide)).1 _ h⟩

end Ods
