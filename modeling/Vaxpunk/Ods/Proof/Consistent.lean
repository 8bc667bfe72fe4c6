/-
  Consistent volumes: files whose maps are whole clusters in use, apart from
  each other, and whose headers the index file knows.
-/
import Vaxpunk.Ods.Proof.Allocate

namespace Ods

open List

namespace Volume

variable (v : Volume)

/-- The VBN of a file number's header slot in the index file. -/
def slotVbn (n : ℕ) : ℕ := v.home.headerVbn0 + n - 1

/-- The end of file block of INDEXF.SYS. -/
def indexEof : ℕ := (Header.mk (v.dev.blocks ((v.headerLbn 1).getD 0))).recordAttrs.efblk

/-- The block of the index file bitmap that has the bit of a file number. -/
def bitLbn (n : ℕ) : Option ℕ := mapLbn v.indexMap (v.home.ibmapvbn + (n - 1) / BITS)

/-- The file number is in use in the index file bitmap. -/
def Marked (n : ℕ) : Prop := ∃ l, v.bitLbn n = some l ∧ (v.dev.blocks l).getLsbD ((n - 1) % BITS) = true

/-- The block is in a cluster that is free in the storage bitmap. -/
def Free (l : ℕ) : Prop :=
  ∃ bmap bits, (Op.readStorageBitmap v).result = .ok (bmap, bits) ∧ bit bits (l / v.cluster) = true

/-- A file of the volume, below the end of file of INDEXF.SYS: its headers, with
    their LBNs, and its map. -/
structure File (f : Fid) (hs : List (ℕ × Header)) (map : List Run) : Prop where
  headers : (Op.headers f v).result = .ok hs
  map : (Op.runsOf hs v).result = .ok map
  below : v.slotVbn f.num < v.indexEof

structure Consistent : Prop where
  home : v.home.invalid = none
  size : v.volBlocks < 2 ^ 32
  /-- The map of the index file in memory is its map on disk. -/
  index : ∃ hs map, v.File INDEXF hs map ∧ mapBlocks map = mapBlocks v.indexMap
  /-- The backup copy of the index file's header is before the index file bitmap. -/
  alt : ∃ x < v.home.ibmapvbn, mapLbn v.indexMap x = some v.home.altidxlbn
  bitmap : ∃ hs map bmap bits, v.File BITMAP hs map ∧ (Op.readStorageBitmap v).result = .ok (bmap, bits)
  /-- A file is whole clusters, each of them once and none of them free. -/
  clustered : ∀ {f hs map}, v.File f hs map → Clustered v.cluster (mapBlocks map)
  nodup : ∀ {f hs map}, v.File f hs map → (mapBlocks map).Nodup
  used : ∀ {f hs map}, v.File f hs map → ∀ l ∈ mapBlocks map, ¬v.Free l
  /-- Its allocated size is what its headers map. -/
  hiblk : ∀ {f p xs map}, v.File f (p :: xs) map → p.2.recordAttrs.hiblk = mapSize map
  /-- Its headers are below the end of file of INDEXF.SYS and in use. -/
  known : ∀ {f hs map}, v.File f hs map → ∀ x ∈ hs, v.Marked x.2.fid.num ∧ v.slotVbn x.2.fid.num < v.indexEof
  /-- Two files have no block and no header in common. -/
  apart : ∀ {f hs map f' hs' map'}, v.File f hs map → v.File f' hs' map' → f.num ≠ f'.num →
    (∀ l ∈ mapBlocks map, l ∉ mapBlocks map') ∧ ∀ x ∈ hs, ∀ y ∈ hs', x.1 ≠ y.1

end Volume

variable {v v' : Volume} {f : Fid} {h : Header} {l : ℕ} {p : ℕ × Header} {xs hs : List (ℕ × Header)}
  {map : List Run}

/-! ## The headers of a file -/

theorem Volume.Holds.slot_fid (hat : v.Holds f l h) : v.headerLbn h.fid.num = some l := by
  rw [hat.names.1]; exact hat.slot

theorem Volume.Chain.holds : ∀ {h : Header} {xs : List (ℕ × Header)}, v.Chain h xs → ∀ x ∈ xs, ∃ f, v.Holds f x.1 x.2
  | _, [], _ => by simp
  | _, x :: xs, ⟨_, hat, _, hch⟩ => forall_mem_cons.2 ⟨⟨_, hat⟩, hch.holds⟩

theorem Volume.Reads.holds (hr : v.Reads f p xs) : ∀ x ∈ p :: xs, ∃ f, v.Holds f x.1 x.2 :=
  forall_mem_cons.2 ⟨⟨f, hr.first⟩, hr.chain.holds⟩

theorem Volume.Chain.segNum : ∀ {h : Header} {xs : List (ℕ × Header)} {i : ℕ} {x : ℕ × Header}, v.Chain h xs →
    xs[i]? = some x → x.2.segNum = h.segNum + 1 + i
  | _, [], i, x, _, hx => by simp at hx
  | _, y :: xs, 0, x, ⟨_, _, hseg, _⟩, hx => by cases hx; exact hseg
  | _, y :: xs, i + 1, x, ⟨_, _, hseg, hch⟩, hx => by
    rw [hch.segNum (i := i) (by simpa using hx), hseg]
    omega

theorem Volume.Reads.segNum (hr : v.Reads f p xs) {i : ℕ} {x : ℕ × Header} (hx : (p :: xs)[i]? = some x) :
    x.2.segNum = i := by
  cases i with
  | zero => cases hx; exact hr.primary
  | succ i =>
    rw [hr.chain.segNum (i := i) (by simpa using hx), hr.primary]
    omega

theorem Volume.Reads.nodup (hr : v.Reads f p xs) : ((p :: xs).map Prod.fst).Nodup := by
  rw [nodup_iff_pairwise_ne, pairwise_map, pairwise_iff_getElem]
  intro i j hi hj hij he
  obtain ⟨_, hx⟩ := hr.holds _ (getElem_mem hi)
  obtain ⟨_, hy⟩ := hr.holds _ (getElem_mem hj)
  have hsame : (p :: xs)[i].2 = (p :: xs)[j].2 := by rw [hx.block, hy.block, he]
  have h1 := hr.segNum (getElem?_eq_getElem hi)
  have h2 := hr.segNum (getElem?_eq_getElem hj)
  rw [hsame] at h1
  omega

theorem Volume.Chain.unique : ∀ {h : Header} {xs ys : List (ℕ × Header)}, v.Chain h xs → v.Chain h ys → xs = ys
  | _, [], [], _, _ => rfl
  | _, [], _ :: _, h0, hy => absurd h0 hy.1
  | _, _ :: _, [], hx, h0 => absurd h0 hx.1
  | _, x :: xs, y :: ys, ⟨_, hx, _, hxs⟩, ⟨_, hy, _, hys⟩ => by
    have h1 : x.1 = y.1 := Option.some.inj (hx.slot.symm.trans hy.slot)
    obtain rfl : x = y := Prod.ext h1 (by rw [hx.block, hy.block, h1])
    rw [hxs.unique hys]

theorem Volume.Reads.unique {g : Fid} {q : ℕ × Header} {ys : List (ℕ × Header)} (hf : v.Reads f p xs)
    (hg : v.Reads g q ys) (hfg : f.num = g.num) : p = q ∧ xs = ys := by
  have h1 : p.1 = q.1 := by
    have := hf.first.slot
    rw [hfg, hg.first.slot] at this
    exact (Option.some.inj this).symm
  obtain rfl : p = q := Prod.ext h1 (by rw [hf.first.block, hg.first.block, h1])
  exact ⟨rfl, hf.chain.unique hg.chain⟩

theorem Volume.File.reads (hf : v.File f hs map) : ∃ p xs, hs = p :: xs ∧ v.Reads f p xs :=
  Op.headers_iff.1 hf.headers

theorem headerLbn_eq_some {n : ℕ} : v.headerLbn n = some l ↔
    0 < n ∧ n ≤ v.home.maxfiles ∧ mapLbn v.indexMap (v.slotVbn n) = some l := by
  unfold Volume.headerLbn Volume.slotVbn
  split_ifs with h
  · simp only [false_iff]
    omega
  · simp only [show 0 < n by omega, show n ≤ v.home.maxfiles by omega, true_and]

theorem mem_of_headerLbn {n : ℕ} (hl : v.headerLbn n = some l) : l ∈ mapBlocks v.indexMap :=
  mem_of_mapLbn (headerLbn_eq_some.1 hl).2.2

theorem Volume.File.header_mem (hf : v.File f hs map) : ∀ x ∈ hs, x.1 ∈ mapBlocks v.indexMap := by
  obtain ⟨p, xs, rfl, hr⟩ := hf.reads
  intro x hx
  obtain ⟨g, hat⟩ := hr.holds x hx
  exact mem_of_headerLbn hat.slot

/-! ## The storage bitmap -/

theorem Volume.Bitmap.free_iff {bmap : List ℕ} {bits : List Block} (hb : v.Bitmap bmap bits) (l : ℕ) :
    v.Free l ↔ bit bits (l / v.cluster) = true := by
  constructor
  · rintro ⟨bmap', bits', hread, hbit⟩
    rw [hb.read] at hread
    cases hread
    exact hbit
  · exact fun h => ⟨bmap, bits, hb.read, h⟩

namespace Volume.Consistent

variable (hc : v.Consistent)
include hc

theorem cluster_pos : 0 < v.cluster := (HomeBlock.facts hc.home).2.2.2.2.2

theorem nodup_index : (mapBlocks v.indexMap).Nodup := by
  obtain ⟨hs, map, hf, he⟩ := hc.index
  rw [← he]
  exact hc.nodup hf

theorem apart_index (hf : v.File f hs map) (h1 : f.num ≠ 1) : ∀ l ∈ mapBlocks map, l ∉ mapBlocks v.indexMap := by
  obtain ⟨hs', map', hf', he⟩ := hc.index
  rw [← he]
  exact (hc.apart hf hf' h1).1

theorem exists_bitmap : ∃ bmap bits, v.Bitmap bmap bits ∧ ∀ l ∈ bmap, l ∉ mapBlocks v.indexMap := by
  obtain ⟨hs, map, bmap, bits, hf, hread⟩ := hc.bitmap
  obtain ⟨hs', map', hhs, hmap, hall, -⟩ := Op.readStorageBitmap_iff.1 hread
  rw [hf.headers] at hhs
  cases hhs
  rw [hf.map] at hmap
  cases hmap
  have hout : ∀ l ∈ bmap, l ∉ mapBlocks v.indexMap := by
    intro l hl
    obtain ⟨vbn, -, hvbn, -⟩ := exists_of_mem_right hall hl
    exact hc.apart_index hf (by decide) l (mem_of_mapLbn hvbn)
  refine ⟨bmap, bits, ⟨hread, ?_, fun hs' hhs' x hx hmem => ?_⟩, hout⟩
  · rw [nodup_iff_pairwise_ne, pairwise_iff_getElem]
    intro i j hi hj hij he
    have hlen := hall.length_eq
    have h1 := (hall.get (by omega) hi).1
    have h2 := (hall.get (by omega) hj).1
    simp only [get_eq_getElem, getElem_range'] at h1 h2
    rw [he] at h1
    have := mapLbn_inj (hc.nodup hf) h1 h2
    omega
  · rw [hf.headers] at hhs'
    cases hhs'
    exact hout _ hmem (hf.header_mem x hx)

end Volume.Consistent

/-! ## Volumes with three files -/

theorem exists_of_any {ε α : Type} {x : Except ε α} {P : α → Prop} [DecidablePred P]
    (h : x.toOption.any (fun a => decide (P a)) = true) : ∃ a, x = .ok a ∧ P a := by
  cases x with
  | error e => cases h
  | ok a => exact ⟨a, rfl, of_decide_eq_true h⟩

/-- A header of a file with a map of one header. -/
def sampleHeader (f : Fid) (runs : List Run) : Header :=
  let h := (((Header.default.setIdoffset 40).setMpoffset 100).setAcoffset 255).setRsoffset 255
  let h := (h.setStruclev 0x0201).setFid f
  let h := h.setRecordAttrs { RecordAttrs.default with hiblk := mapSize runs, efblk := 12 }
  ((h.setMap (encodeMap (pointers runs))).getD h).updateChecksum

/-- A home block for 16 files, the index file bitmap in block 5 of the index
    file. -/
def sampleHome (k : ℕ) : HomeBlock :=
  let h := (((HomeBlock.default.setHomelbn 1).setAlhomelbn 2).setAltidxlbn 3).setStruclev 0x0201
  let h := ((h.setCluster k).setHomevbn 2).setIbmapvbn 5
  let h := (((h.setIbmaplbn 4).setMaxfiles 16).setIbmapsize 1).setResfiles 5
  h.updateChecksums

/-- The file of the volumes below that is not a reserved one. -/
def sampleFid : Fid := Fid.new 6 1

/-- A volume with INDEXF.SYS in its first `n` blocks, BITMAP.SYS in the `n`
    blocks after them, and a file with the map `runs`. -/
def sampleVolume (k size n : ℕ) (bits : Block) (runs : List Run) : Volume where
  dev := {
    blockSize := 512
    count := size
    blocks := fun l =>
      if l = 4 then 0b100011
      else if l = 5 then (sampleHeader INDEXF [⟨0, n⟩]).raw
      else if l = 6 then (sampleHeader BITMAP [⟨n, n⟩]).raw
      else if l = 10 then (sampleHeader sampleFid runs).raw
      else if l = n + 1 then bits
      else 0
    fault := none }
  home := sampleHome k
  level := .ods2
  writable := true
  indexMap := [⟨0, n⟩]
  volBlocks := size
  clock := 0

/-- The header says what it was made for. -/
def Sampled (f : Fid) (runs : List Run) : Prop :=
  (sampleHeader f runs).invalid = none ∧ (sampleHeader f runs).fid = f ∧ (sampleHeader f runs).segNum = 0 ∧
    (sampleHeader f runs).extFid.num = 0 ∧ decodeMap (sampleHeader f runs).mapArea = .ok (pointers runs) ∧
    ptrRuns (pointers runs) = runs ∧ (sampleHeader f runs).recordAttrs.hiblk = mapSize runs ∧
    (sampleHeader f runs).recordAttrs.efblk = 12

instance (f : Fid) (runs : List Run) : Decidable (Sampled f runs) := inferInstanceAs (Decidable (_ ∧ _))

theorem Sampled.runs_eq {runs : List Run} (h : Sampled f runs) : (sampleHeader f runs).runs = runs := by
  obtain ⟨-, -, -, -, hd, hr, -, -⟩ := h
  rw [Header.runs, Header.ptrs_eq hd, hr]

theorem Volume.File.single (hf : v.File f hs map) (hl : v.headerLbn f.num = some l)
    (he : (Header.mk (v.dev.blocks l)).extFid.num = 0) :
    hs = [(l, ⟨v.dev.blocks l⟩)] ∧ map = (Header.mk (v.dev.blocks l)).runs := by
  obtain ⟨p, xs, rfl, hr⟩ := hf.reads
  have hl' : p.1 = l := Option.some.inj (hr.first.slot.symm.trans hl)
  have hp : p = (l, ⟨v.dev.blocks l⟩) := Prod.ext hl' (by rw [hr.first.block, hl'])
  subst hp
  have hxs : xs = [] := hr.chain.unique he
  subst hxs
  exact ⟨rfl, by simpa using (Op.runsOf_eq.1 hf.map).2⟩

/-- The home block says what it was made for. -/
def SampledHome (k : ℕ) : Prop :=
  (sampleHome k).invalid = none ∧ (sampleHome k).cluster = k ∧ (sampleHome k).maxfiles = 16 ∧
    (sampleHome k).ibmapvbn = 5 ∧ (sampleHome k).ibmapsize = 1 ∧ (sampleHome k).altidxlbn = 3

instance (k : ℕ) : Decidable (SampledHome k) := inferInstanceAs (Decidable (_ ∧ _))

/-- The LBNs of the headers, the files and their maps. -/
def sampleFiles (n : ℕ) (runs : List Run) : List (ℕ × Fid × List Run) :=
  [(5, INDEXF, [⟨0, n⟩]), (6, BITMAP, [⟨n, n⟩]), (10, sampleFid, runs)]

variable {x : ℕ × Fid × List Run}

theorem sampleFiles_cases {n : ℕ} {runs : List Run} (hx : x ∈ sampleFiles n runs) :
    x = (5, INDEXF, [⟨0, n⟩]) ∨ x = (6, BITMAP, [⟨n, n⟩]) ∨ x = (10, sampleFid, runs) := by
  simpa [sampleFiles] using hx

/-- The values make a consistent volume. -/
structure SampleOk (k size n : ℕ) (bits : Block) (runs : List Run) : Prop where
  home : SampledHome k
  headers : ∀ x ∈ sampleFiles n runs, Sampled x.2.1 x.2.2
  low : 21 ≤ n
  fits : 2 * n ≤ size ∧ size < 2 ^ 32
  dvd : k ∣ n
  bitmap : (size + k - 1) / k ≤ BITS * (n - 1)
  clustered : Clustered k (mapBlocks runs)
  nodup : (mapBlocks runs).Nodup
  within : ∀ r ∈ runs, 2 * n ≤ r.lbn ∧ r.lbn ≠ 2 ^ 32 - 1 ∧ r.lbn + r.count ≤ size
  used : ∀ c, bits.getLsbD c = true → 2 * n ≤ c * k ∧ ∀ l ∈ mapBlocks runs, l / k ≠ c

namespace SampleOk

variable {k size n : ℕ} {bits : Block} {runs : List Run}

theorem mapLbn_one {a x : ℕ} (h0 : 0 < x) (hx : x ≤ n) : mapLbn [⟨a, n⟩] x = some (a + (x - 1)) := by
  refine mapLbn_eq_some.2 ⟨by omega, ?_⟩
  rw [mapBlocks_cons, mapBlocks_nil, append_nil, Run.blocks, getElem?_range' (show x - 1 < n by omega)]
  simp

variable (hok : SampleOk k size n bits runs)
include hok

theorem headerLbn {m : ℕ} (h0 : 0 < m) (hm : m ≤ 16) :
    (sampleVolume k size n bits runs).headerLbn m = some (4 + m) := by
  obtain ⟨-, -, h1, h2, h3, -⟩ := hok.home
  have hlow := hok.low
  refine headerLbn_eq_some.2 ⟨h0, h1 ▸ hm, ?_⟩
  have hv : (sampleVolume k size n bits runs).slotVbn m = 5 + m := by
    simp only [Volume.slotVbn, HomeBlock.headerVbn0, sampleVolume, h2, h3]
    omega
  rw [hv]
  exact (mapLbn_one (by omega) (by omega)).trans (by congr 1; omega)

theorem file_cases (hf : (sampleVolume k size n bits runs).File f hs map) : ∃ x ∈ sampleFiles n runs,
    f.num = x.2.1.num ∧ hs = [(x.1, sampleHeader x.2.1 x.2.2)] ∧ map = x.2.2 := by
  obtain ⟨p, xs, -, hr⟩ := hf.reads
  obtain ⟨h0, hm, -⟩ := headerLbn_eq_some.1 hr.first.slot
  have hm : f.num ≤ 16 := hok.home.2.2.1 ▸ hm
  have hlow := hok.low
  have hslot := hok.headerLbn h0 hm
  have hvalid := hr.first.valid
  rw [hr.first.block, Option.some.inj (hr.first.slot.symm.trans hslot)] at hvalid
  have key : ∀ x ∈ sampleFiles n runs, 4 + f.num = x.1 → x.1 = 4 + x.2.1.num →
      (sampleVolume k size n bits runs).dev.blocks x.1 = (sampleHeader x.2.1 x.2.2).raw →
      f.num = x.2.1.num ∧ hs = [(x.1, sampleHeader x.2.1 x.2.2)] ∧ map = x.2.2 := by
    intro x hx h1 h2 h3
    have hsx := hok.headers x hx
    rw [h1] at hslot
    obtain ⟨hhs, hmap⟩ := hf.single hslot (by rw [h3]; exact hsx.2.2.2.1)
    rw [h3] at hhs hmap
    exact ⟨by omega, hhs, hmap.trans hsx.runs_eq⟩
  by_cases h1 : f.num = 1
  · exact ⟨_, mem_cons_self, key _ mem_cons_self (by omega) rfl rfl⟩
  by_cases h2 : f.num = 2
  · exact ⟨(6, BITMAP, [⟨n, n⟩]), by simp [sampleFiles], key _ (by simp [sampleFiles]) (by omega) rfl rfl⟩
  by_cases h6 : f.num = 6
  · exact ⟨(10, sampleFid, runs), by simp [sampleFiles], key _ (by simp [sampleFiles]) (by omega) rfl rfl⟩
  -- no other slot holds a header
  have hzero : (sampleVolume k size n bits runs).dev.blocks (4 + f.num) = 0 := by
    simp only [sampleVolume]
    rw [if_neg (by omega), if_neg (by omega), if_neg (by omega), if_neg (by omega), if_neg (by omega)]
  rw [hzero] at hvalid
  exact absurd hvalid (by decide +kernel)

theorem cluster_eq : (sampleVolume k size n bits runs).cluster = k := hok.home.2.1

theorem file_of_mem (hx : x ∈ sampleFiles n runs) :
    (sampleVolume k size n bits runs).File x.2.1 [(x.1, sampleHeader x.2.1 x.2.2)] x.2.2 := by
  have hsx := hok.headers x hx
  obtain ⟨hvalid, hfid, hseg, hext, hdec, hptr, -, -⟩ := hsx
  have hlow := hok.low
  have hsize := hok.fits
  have hplace : x.1 = 4 + x.2.1.num ∧ 0 < x.2.1.num ∧ x.2.1.num ≤ 6 ∧ x.2.1.rvn = 0 ∧
      (sampleVolume k size n bits runs).dev.blocks x.1 = (sampleHeader x.2.1 x.2.2).raw ∧
      ∀ r ∈ x.2.2, r.lbn ≠ 2 ^ 32 - 1 ∧ r.lbn + r.count ≤ size := by
    rcases sampleFiles_cases hx with rfl | rfl | rfl
    · exact ⟨rfl, show 0 < INDEXF.num by decide, show INDEXF.num ≤ 6 by decide, rfl, rfl, by simp; omega⟩
    · exact ⟨rfl, show 0 < BITMAP.num by decide, show BITMAP.num ≤ 6 by decide, rfl, rfl, by simp; omega⟩
    · exact ⟨rfl, show 0 < sampleFid.num by decide, show sampleFid.num ≤ 6 by decide, rfl, rfl,
        fun r hr => (hok.within r hr).2⟩
  obtain ⟨h1, h2, h3, h4, h5, h6⟩ := hplace
  have hslot := hok.headerLbn h2 (by omega)
  have hle : size ≤ Volume.nextMultipleOf size k := by
    have hk := (HomeBlock.facts hok.home.1).2.2.2.2.2
    rw [hok.home.2.1] at hk
    simp only [Volume.nextMultipleOf]
    have := Nat.div_add_mod (size + k - 1) k
    have := Nat.mod_lt (size + k - 1) hk
    rw [Nat.mul_comm]
    omega
  refine ⟨Op.headers_iff.2 ⟨_, [], rfl, by omega, ⟨h1 ▸ hslot, ?_, ?_, hvalid, ?_⟩, hseg, hext⟩, ?_, ?_⟩
  · change x.1 < size
    omega
  · rw [h5]
  · exact ⟨by rw [hfid], .inr (by rw [hfid])⟩
  · rw [Op.runsOf_eq]
    have hruns : (sampleHeader x.2.1 x.2.2).runs = x.2.2 := (hok.headers x hx).runs_eq
    refine ⟨fun y hy => ?_, by simp [hruns]⟩
    obtain rfl : y = _ := mem_singleton.1 hy
    refine ⟨⟨_, hdec⟩, fun r hr => ?_⟩
    rw [hruns] at hr
    have := h6 r hr
    refine ⟨this.1, this.2.trans ?_⟩
    rw [hok.cluster_eq]
    exact hle
  · have heof : (sampleVolume k size n bits runs).indexEof = 12 := by
      rw [Volume.indexEof, hok.headerLbn (by omega) (by omega)]
      exact (hok.headers _ mem_cons_self).2.2.2.2.2.2.2
    rw [heof]
    simp only [Volume.slotVbn, HomeBlock.headerVbn0, sampleVolume, hok.home.2.2.2.1, hok.home.2.2.2.2.1]
    omega

theorem read : (Op.readStorageBitmap (sampleVolume k size n bits runs)).result =
    .ok (List.range' (n + 1) (Op.bitmapBlocks (sampleVolume k size n bits runs)),
      (List.range' (n + 1) (Op.bitmapBlocks (sampleVolume k size n bits runs))).map
        (sampleVolume k size n bits runs).dev.blocks) := by
  have hf := hok.file_of_mem (x := (6, BITMAP, [⟨n, n⟩])) (by simp [sampleFiles])
  have hlow := hok.low
  have hfit := hok.fits
  have hblocks : Op.bitmapBlocks (sampleVolume k size n bits runs) ≤ n - 1 := by
    have hbm := hok.bitmap
    have hcl : (sampleVolume k size n bits runs).clusters = (size + k - 1) / k := by
      rw [Volume.clusters, hok.cluster_eq]
      rfl
    rw [Op.bitmapBlocks, hcl]
    exact Nat.lt_succ_iff.1 ((Nat.div_lt_iff_lt_mul BITS_pos).2 (by
      rw [Nat.succ_mul, Nat.mul_comm]
      have := BITS_pos
      omega))
  rw [Op.readStorageBitmap_iff]
  refine ⟨_, _, hf.headers, hf.map, ?_, rfl⟩
  have hshift : range' (n + 1) (Op.bitmapBlocks (sampleVolume k size n bits runs)) =
      (range' 2 (Op.bitmapBlocks (sampleVolume k size n bits runs))).map fun x => (n - 1) + x := by
    rw [map_add_range']
    congr 1
    omega
  rw [hshift, forall₂_map_right_iff, forall₂_same]
  intro x hx
  rw [mem_range'_1] at hx
  refine ⟨(mapLbn_one (by omega) (by omega)).trans (by congr 1; omega), ?_⟩
  change n - 1 + x < size
  omega

theorem free (hl : (sampleVolume k size n bits runs).Free l) : bits.getLsbD (l / k) = true := by
  obtain ⟨bmap, bs, hread, hbit⟩ := hl
  rw [hok.read] at hread
  cases hread
  rw [hok.cluster_eq] at hbit
  have hlow := hok.low
  generalize Op.bitmapBlocks (sampleVolume k size n bits runs) = m at hbit
  rw [bit, getElem?_map] at hbit
  rcases Nat.lt_or_ge (l / k / BITS) m with hlt | hge
  · rw [getElem?_range' hlt, Option.map_some] at hbit
    rcases Nat.eq_zero_or_pos (l / k / BITS) with h0 | hpos
    · have hmod : l / k % BITS = l / k := Nat.mod_eq_of_lt (by
        rw [Nat.div_eq_zero_iff] at h0
        exact h0.resolve_left BITS_pos.ne')
      have hb : (sampleVolume k size n bits runs).dev.blocks (n + 1) = bits := by
        simp only [sampleVolume]
        rw [if_neg (by omega), if_neg (by omega), if_neg (by omega), if_neg (by omega), if_pos trivial]
      rw [h0, hmod] at hbit
      simpa only [Nat.mul_zero, Nat.add_zero, hb] using hbit
    · have hb : ∀ j > 0, (sampleVolume k size n bits runs).dev.blocks (n + 1 + 1 * j) = 0 := by
        intro j hj
        simp only [sampleVolume]
        rw [if_neg (by omega), if_neg (by omega), if_neg (by omega), if_neg (by omega), if_neg (by omega)]
      rw [hb _ hpos] at hbit
      simp at hbit
  · rw [getElem?_eq_none (by simpa using hge)] at hbit
    cases hbit

theorem marked (hx : x ∈ sampleFiles n runs) : (sampleVolume k size n bits runs).Marked x.2.1.num := by
  have hlow := hok.low
  have hbit : ∀ m ≤ 16, (sampleVolume k size n bits runs).bitLbn m = some 4 := by
    intro m hm
    have h0 : (m - 1) / BITS = 0 := Nat.div_eq_of_lt (by simp only [BITS, BLOCK]; omega)
    have hvbn : (sampleVolume k size n bits runs).home.ibmapvbn = 5 := hok.home.2.2.2.1
    rw [Volume.bitLbn, h0, hvbn]
    exact mapLbn_one (by omega) (by omega)
  rcases sampleFiles_cases hx with rfl | rfl | rfl
  · exact ⟨4, hbit 1 (by omega), show BitVec.getLsbD (0b100011 : Block) 0 = true by decide +kernel⟩
  · exact ⟨4, hbit 2 (by omega), show BitVec.getLsbD (0b100011 : Block) 1 = true by decide +kernel⟩
  · exact ⟨4, hbit 6 (by omega), show BitVec.getLsbD (0b100011 : Block) 5 = true by decide +kernel⟩

theorem parts (hx : x ∈ sampleFiles n runs) {l : ℕ} (hl : l ∈ mapBlocks x.2.2) :
    x.1 = 5 ∧ l < n ∨ x.1 = 6 ∧ n ≤ l ∧ l < 2 * n ∨ x.1 = 10 ∧ 2 * n ≤ l ∧ l ∈ mapBlocks runs := by
  rcases sampleFiles_cases hx with rfl | rfl | rfl
  · simp [Run.mem_blocks] at hl; omega
  · simp [Run.mem_blocks] at hl; omega
  · obtain ⟨r, hr, h1, -⟩ := mem_mapBlocks.1 hl
    have := (hok.within r hr).1
    exact .inr (.inr ⟨rfl, by omega, hl⟩)

theorem consistent : (sampleVolume k size n bits runs).Consistent := by
  have hlow := hok.low
  have hmem5 : (5, INDEXF, [⟨0, n⟩]) ∈ sampleFiles n runs := mem_cons_self
  have hmem6 : (6, BITMAP, [⟨n, n⟩]) ∈ sampleFiles n runs := by simp [sampleFiles]
  refine ⟨hok.home.1, hok.fits.2, ⟨_, _, hok.file_of_mem hmem5, rfl⟩, ⟨4, ?_, ?_⟩,
    ⟨_, _, _, _, hok.file_of_mem hmem6, hok.read⟩, fun hf => ?_, fun hf => ?_, fun hf l hl hfree => ?_, fun hf => ?_,
    fun hf x hx => ?_, fun hf hf' hne => ?_⟩
  · change 4 < (sampleHome k).ibmapvbn
    rw [hok.home.2.2.2.1]
    omega
  · change mapLbn [⟨0, n⟩] 4 = some (sampleHome k).altidxlbn
    rw [hok.home.2.2.2.2.2]
    exact mapLbn_one (by omega) (by omega)
  · obtain ⟨x, hx, -, -, rfl⟩ := hok.file_cases hf
    rw [hok.cluster_eq]
    rcases sampleFiles_cases hx with rfl | rfl | rfl
    · simpa using clustered_blocks (r := ⟨0, n⟩) (dvd_zero k) hok.dvd
    · simpa using clustered_blocks (r := ⟨n, n⟩) hok.dvd hok.dvd
    · exact hok.clustered
  · obtain ⟨x, hx, -, -, rfl⟩ := hok.file_cases hf
    rcases sampleFiles_cases hx with rfl | rfl | rfl
    · simpa [Run.blocks] using nodup_range'
    · simpa [Run.blocks] using nodup_range'
    · exact hok.nodup
  · obtain ⟨x, hx, -, -, rfl⟩ := hok.file_cases hf
    obtain ⟨h1, h2⟩ := hok.used _ (hok.free hfree)
    have hle := Nat.div_mul_le_self l k
    rcases hok.parts hx hl with h | h | ⟨-, -, hl⟩
    · omega
    · omega
    · exact h2 l hl rfl
  · obtain ⟨x, hx, -, hhs, rfl⟩ := hok.file_cases hf
    cases hhs
    exact (hok.headers x hx).2.2.2.2.2.2.1
  · obtain ⟨y, hy, -, rfl, rfl⟩ := hok.file_cases hf
    obtain rfl := mem_singleton.1 hx
    rw [(hok.headers y hy).2.1]
    exact ⟨hok.marked hy, (hok.file_of_mem hy).below⟩
  · obtain ⟨x, hx, hfx, rfl, rfl⟩ := hok.file_cases hf
    obtain ⟨y, hy, hfy, rfl, rfl⟩ := hok.file_cases hf'
    have hnum : ∀ z ∈ sampleFiles n runs, z.1 = 4 + z.2.1.num := fun z hz => by
      rcases sampleFiles_cases hz with rfl | rfl | rfl <;> rfl
    have hxy : x.1 ≠ y.1 := by
      rw [hnum x hx, hnum y hy]
      omega
    refine ⟨fun l hl hl' => ?_, fun a ha b hb => ?_⟩
    · have := hok.parts hx hl
      have := hok.parts hy hl'
      omega
    · obtain rfl := mem_singleton.1 ha
      obtain rfl := mem_singleton.1 hb
      exact hxy

end SampleOk

end Ods
