/-
  Taking a file number.  `alloc_header` leaves every header in use alone, as long
  as none of them is between the end of file of INDEXF.SYS and the slot it takes,
  also when the index file has to grow first, for which it calls itself.

  `Holding` is what every state of a run keeps: the headers of other files are as
  they were, and the headers that INDEXF.SYS leads to are not among them.
-/
import Vaxpunk.Ods.Mount
import Vaxpunk.Ods.Proof.Truncate

namespace Ods

open List Header Op Volume HomeBlock Option

variable {α : Type} {v s : Volume} {hs xs : List (ℕ × Header)} {h : Header} {p : ℕ × Header}
    {f : Fid} {alloc : Op (Fid × ℕ)}

/-- The slot at LBN `l` holds a valid header of a file other than INDEXF.SYS,
    whose headers are `hs`. -/
def Volume.Others (v : Volume) (hs : List (ℕ × Header)) (l : ℕ) : Prop :=
  (∃ n, v.headerLbn n = some l) ∧ (Header.mk (v.dev.blocks l)).invalid = none ∧ l ∉ hs.map Prod.fst

/-- `alloc_header` finds the file number `n` first: it is past the reserved ones, clear
    in the index file bitmap, and its slot isn't mapped or holds no valid header. -/
def Volume.FreeNumber (v : Volume) (bits : List Block) (n : ℕ) : Prop :=
  v.home.resfiles < n ∧ n ≤ v.home.maxfiles ∧ n &&& 0xffff ≠ 0 ∧ bit bits (n - 1) = false ∧
    ∀ l, v.headerLbn n = some l → (Header.mk (v.dev.blocks l)).invalid ≠ none

/-- No slot from the end of file of INDEXF.SYS up to that of number `N` holds a header
    of another file. -/
def Volume.Clear (v : Volume) (hs : List (ℕ × Header)) (N : ℕ) : Prop :=
  ∀ n < N, ∀ l, v.headerLbn n = some l → v.indexEof ≤ v.slotVbn n → ¬v.Others hs l

/-- The system files are where they should be, `hs` being the headers of INDEXF.SYS
    and `bmap` the blocks of the storage bitmap. -/
structure Volume.Guarded (v : Volume) (hs : List (ℕ × Header)) (bmap : List ℕ) : Prop where
  sited : v.Sited
  index : (headers INDEXF v).result = .ok hs
  bitmap : v.Bitmap bmap (bmap.map v.dev.blocks)
  headers : ∀ hs', (headers BITMAP v).result = .ok hs' → ∀ x ∈ hs', x.1 ∉ hs.map Prod.fst
  apart : ∀ l ∈ bmap, l ∉ mapBlocks v.indexMap
  taken : ∀ l, l ∈ mapBlocks v.indexMap ∨ l ∈ bmap → bit (bmap.map v.dev.blocks) (l / v.cluster) = false
  below : v.slotVbn 1 < v.indexEof

/-- A state on the way from `v`.  The blocks `R` have been taken for the index
    file, which does not map them yet, and `K` are the slots its headers lead to. -/
structure Holding (v : Volume) (hs : List (ℕ × Header)) (bmap R : List ℕ) (K : Set ℕ) (s : Volume) : Prop where
  later : v.Later s
  nodup : (mapBlocks s.indexMap ++ R).Nodup
  keep : ∀ l, v.Others hs l → s.dev.blocks l = v.dev.blocks l
  eof : v.indexEof ≤ s.indexEof
  apart : ∀ l ∈ bmap, l ∉ mapBlocks s.indexMap ++ R
  taken : ∀ l, l ∈ mapBlocks s.indexMap ++ R ∨ l ∈ bmap → bit (bmap.map s.dev.blocks) (l / v.cluster) = false
  first : ∀ l, s.headerLbn 1 = some l → l ∈ K
  slots : ∀ l ∈ K, (∃ n, s.headerLbn n = some l) ∧ ¬v.Others hs l
  closed : ∀ l ∈ K, (Header.mk (s.dev.blocks l)).extFid.num = 0 ∨
    ∃ l' ∈ K, s.headerLbn (Header.mk (s.dev.blocks l)).extFid.num = some l'

/-- The headers of other files are as they were. -/
def Kept (v : Volume) (hs : List (ℕ × Header)) (d : Disk) : Prop := ∀ l, v.Others hs l → d l = v.dev.blocks l

/-- A run during which the headers of other files are as they were. -/
abbrev Op.Keeps {α : Type} (v : Volume) (hs : List (ℕ × Header)) (m : Op α) (s : Volume)
    (Q : α → Volume → Prop) : Prop :=
  Prog.Runs world (fun _ => True) (Kept v hs) m s Q fun _ _ => True

variable {β : Type}

theorem Op.Looks.keeps {m : Op α} {g : α → Op β} {Q : β → Volume → Prop}
    (hm : Op.Looks m) (h : ∀ a, (m s).result = .ok a → Op.Keeps v hs (g a) s Q) :
    Op.Keeps v hs (m >>= g) s Q := .look hm.loud h fun _ _ => trivial

theorem Op.keeps_orFail {e : Error} {o : Option α} {g : α → Op β} {Q : β → Volume → Prop}
    (he : e ≠ .device) (h : ∀ a, o = some a → Op.Keeps v hs (g a) s Q) :
    Op.Keeps v hs (Prog.orFail e o >>= g) s Q :=
  .look (.orFail (show ¬world.loud e from he) o) (fun a ha => h a (Prog.result_orFail.1 ha)) fun _ _ => trivial

theorem Op.writeBlock_keeps {l : ℕ} {b : Block} (h : Kept v hs (s.dev.blocks.write (l, b))) :
    Op.Keeps v hs (writeBlock l b) s
      fun _ s' => s.Same s' ∧ s'.dev.blocks = s.dev.blocks.write (l, b) := by
  cases hw : s.writable with
  | true => exact writeBlock_runs hw (fun _ _ => h) (fun _ _ hv hd _ => ⟨hv, hd⟩) fun _ _ _ _ _ => trivial
  | false =>
    refine .state_bind ?_
    simp only [hw, Bool.false_eq_true, not_false_eq_true, if_true]
    exact .fail (by simp [world]) trivial

section run
variable {v : Volume} {hs : List (ℕ × Header)} {bmap R : List ℕ} {K : Set ℕ} {s s' : Volume} {l n : ℕ} {b : Block}

theorem Volume.indexEof_eq (h : s.headerLbn 1 = some l) :
    s.indexEof = (Header.mk (s.dev.blocks l)).recordAttrs.efblk := by rw [indexEof, h, getD_some]

theorem Volume.Guarded.slot_one (hg : v.Guarded hs bmap) : ∃ l, v.headerLbn 1 = some l := by
  obtain ⟨p, xs, -, hr⟩ := headers_iff.1 hg.index
  exact ⟨p.1, hr.first.slot⟩

variable {K' : Set ℕ}

namespace Holding
variable (hg : v.Guarded hs bmap) (hJ : Holding v hs bmap R K s)
include hg hJ

theorem sited : s.Sited where
  home := by rw [hJ.later.home]; exact hg.sited.home
  nodup := (nodup_append.1 hJ.nodup).1
  alt := by
    obtain ⟨x, hx, hl⟩ := hg.sited.alt
    rw [hJ.later.home]
    exact ⟨x, hx, hJ.later.mapLbn hl⟩

omit hg in
theorem slot_of_others (h : v.Others hs l) : ∃ n, s.headerLbn n = some l := by
  obtain ⟨⟨n, hn⟩, -⟩ := h
  exact ⟨n, hJ.later.headerLbn hn⟩

omit hg in
theorem kept : Kept v hs s.dev.blocks := hJ.keep

omit hg in
theorem slot_notMem (hn : s.headerLbn n = some l) : l ∉ bmap := fun hl =>
  hJ.apart l hl (mem_append_left _ (mem_of_headerLbn hn))

omit hg in
theorem kept_write (hl : ¬v.Others hs l) : Kept v hs (s.dev.blocks.write (l, b)) := by
  intro l' hl'
  have hne : l' ≠ l := by
    rintro rfl
    exact hl hl'
  rw [Geom.write_other hne]
  exact hJ.keep l' hl'

omit hg in
theorem write (hv : s.Same s') (hd : s'.dev.blocks = s.dev.blocks.write (l, b)) (hl : ¬v.Others hs l)
    (hb : l ∉ bmap) (heof : v.indexEof ≤ s'.indexEof) (hK : ∀ x ∈ K, x ∈ K')
    (hslots : ∀ x ∈ K', (∃ n, s.headerLbn n = some x) ∧ ¬v.Others hs x)
    (hclosed : ∀ x ∈ K', (Header.mk (s'.dev.blocks x)).extFid.num = 0 ∨
      ∃ x' ∈ K', s.headerLbn (Header.mk (s'.dev.blocks x)).extFid.num = some x') : Holding v hs bmap R K' s' := by
  have hbits : bmap.map s'.dev.blocks = bmap.map s.dev.blocks := by
    refine map_congr_left fun x hx => ?_
    have hne : x ≠ l := by
      rintro rfl
      exact hb hx
    rw [hd, Geom.write_other hne]
  refine ⟨hJ.later.trans hv.later, hv.indexMap ▸ hJ.nodup, fun x hx => ?_, heof, ?_, ?_, fun x hx => ?_, ?_, ?_⟩
  · rw [hd]
    exact hJ.kept_write hl x hx
  · rw [hv.indexMap]
    exact hJ.apart
  · rw [hv.indexMap, hbits]
    exact hJ.taken
  · rw [hv.headerLbn] at hx
    exact hK x (hJ.first x hx)
  · simpa only [hv.headerLbn] using hslots
  · simpa only [hv.headerLbn] using hclosed

theorem slot_one : ∃ l, s.headerLbn 1 = some l := by
  obtain ⟨l, hl⟩ := hg.slot_one
  exact ⟨l, hJ.later.headerLbn hl⟩

theorem write_other (hv : s.Same s') (hd : s'.dev.blocks = s.dev.blocks.write (l, b))
    (hno : ∀ n, s.headerLbn n ≠ some l) (hb : l ∉ bmap) : Holding v hs bmap R K s' := by
  have hsame : ∀ {n x}, s.headerLbn n = some x → s'.dev.blocks x = s.dev.blocks x := by
    intro n x hx
    rw [hd, Geom.write_other]
    rintro rfl
    exact hno n hx
  refine hJ.write hv hd (fun h => ?_) hb ?_ (fun _ h => h) hJ.slots fun x hx => ?_
  · obtain ⟨n, hn⟩ := hJ.slot_of_others h
    exact hno n hn
  · obtain ⟨x, hx⟩ := hJ.slot_one hg
    rw [indexEof_eq ((hv.headerLbn 1).trans hx), hsame hx, ← indexEof_eq hx]
    exact hJ.eof
  · obtain ⟨⟨n, hn⟩, -⟩ := hJ.slots x hx
    rw [hsame hn]
    exact hJ.closed x hx

theorem write_slot (hv : s.Same s') (hd : s'.dev.blocks = s.dev.blocks.write (l, h.raw))
    (hn : s.headerLbn n = some l) (hl : ¬v.Others hs l) (heof : n = 1 → v.indexEof ≤ h.recordAttrs.efblk)
    (hext : h.extFid.num = 0 ∨ ∃ l' ∈ K, s.headerLbn h.extFid.num = some l') :
    Holding v hs bmap R (insert l K) s' := by
  refine hJ.write hv hd hl (hJ.slot_notMem hn) ?_ (fun _ h => .inr h) ?_ ?_
  · obtain ⟨x, hx⟩ := hJ.slot_one hg
    rw [indexEof_eq ((hv.headerLbn 1).trans hx), hd]
    by_cases hxl : x = l
    · subst hxl
      rw [Geom.write_same]
      exact heof ((hJ.sited hg).slot_inj hn hx)
    · rw [Geom.write_other hxl, ← indexEof_eq hx]
      exact hJ.eof
  · rintro x (rfl | hx)
    · exact ⟨⟨n, hn⟩, hl⟩
    · exact hJ.slots x hx
  · rintro x hx
    by_cases hxl : x = l
    · rw [hxl, hd, Geom.write_same]
      exact hext.imp_right fun ⟨l', hl', hs'⟩ => ⟨l', .inr hl', hs'⟩
    · rw [hd, Geom.write_other hxl]
      exact (hJ.closed x (hx.resolve_left hxl)).imp_right fun ⟨l', hl', hs'⟩ => ⟨l', .inr hl', hs'⟩

omit hg in
theorem chain_mem : ∀ {h : Header} {xs : List (ℕ × Header)}, s.Chain h xs →
    (h.extFid.num = 0 ∨ ∃ l ∈ K, s.headerLbn h.extFid.num = some l) → ∀ x ∈ xs, x.1 ∈ K := by
  intro h xs
  induction xs generalizing h with
  | nil => simp
  | cons x xs ih =>
    rintro ⟨h0, hat, -, hch⟩ hext
    obtain ⟨l, hl, hslot⟩ := hext.resolve_left h0
    have hx : x.1 ∈ K := by
      rw [hat.slot] at hslot
      cases hslot
      exact hl
    refine forall_mem_cons.2 ⟨hx, ih hch ?_⟩
    rw [hat.block]
    exact hJ.closed x.1 hx

omit hg in
theorem reads_mem (hr : s.Reads INDEXF p xs) : ∀ x ∈ p :: xs, x.1 ∈ K := by
  have hp : p.1 ∈ K := hJ.first p.1 hr.first.slot
  refine forall_mem_cons.2 ⟨hp, hJ.chain_mem hr.chain ?_⟩
  rw [hr.first.block]
  exact hJ.closed p.1 hp

theorem writeHeader (hn : s.headerLbn n = some l) (hl : ¬v.Others hs l)
    (heof : n = 1 → v.indexEof ≤ h.recordAttrs.efblk)
    (hext : h.extFid.num = 0 ∨ ∃ l' ∈ K, s.headerLbn h.extFid.num = some l') :
    Op.Keeps v hs (Op.writeHeader l h) s fun _ s' => s.Same s' ∧ Holding v hs bmap R (insert l K) s' := by
  have hlike := like_updateChecksum h
  refine .bind (writeBlock_keeps (hJ.kept_write hl)) ?_
  rintro _ s₁ ⟨hv, hd⟩
  have hJ₁ := hJ.write_slot hg hv hd hn hl (by rw [recordAttrs_updateChecksum]; exact heof)
    (by rw [hlike.extFid]; exact hext)
  refine .state_bind (.when (fun _ => ?_) fun _ => ⟨hv, hJ₁⟩)
  -- the copy is before the header slots
  have hs₁ := hJ₁.sited hg
  have hno : ∀ m, s₁.headerLbn m ≠ some s₁.home.altidxlbn := fun m hm => hs₁.slot_ne_alt hm rfl
  have halt : s₁.home.altidxlbn ∉ bmap := fun hb => hJ₁.apart _ hb (mem_append_left _ hs₁.alt_mem)
  refine (writeBlock_keeps (hJ₁.kept_write fun h => ?_)).imp ?_
  · obtain ⟨m, hm⟩ := hJ₁.slot_of_others h
    exact hno m hm
  · rintro _ s₂ ⟨hv₂, hd₂⟩
    exact ⟨hv.trans hv₂, hJ₁.write_other hg hv₂ hd₂ hno halt⟩

theorem setIndexBit (hn0 : 0 < n) (hn : n ≤ s.home.maxfiles) (on : Bool) :
    Op.Keeps v hs (Op.setIndexBit n on) s fun _ s' => s.Same s' ∧ Holding v hs bmap R K s' := by
  refine .state_bind (keeps_orFail (by simp) fun l hbit => ?_)
  refine Op.Looks.keeps (looks_readBlock l) fun b hb => ?_
  have hno : ∀ m, s.headerLbn m ≠ some l := fun m hm => (hJ.sited hg).slot_ne_bit hm hn0 hn hbit
  refine (writeBlock_keeps (hJ.kept_write fun h => ?_)).imp ?_
  · obtain ⟨m, hm⟩ := hJ.slot_of_others h
    exact hno m hm
  · rintro _ s₂ ⟨hv₂, hd₂⟩
    refine ⟨hv₂, hJ.write_other hg hv₂ hd₂ hno fun hb => ?_⟩
    exact hJ.apart l hb (mem_append_left _ (mem_of_mapLbn hbit))

end Holding

/-! ## Clusters for the index file -/

theorem Op.writeBitmapBlocks_keeps (hk : Kept v hs s.dev.blocks) (hb : ∀ l ∈ bmap, ¬v.Others hs l)
    (bits : List Block) (ranges : List (ℕ × ℕ)) :
    Op.Keeps v hs (writeBitmapBlocks bmap bits ranges) s fun _ s' => Kept v hs s'.dev.blocks := by
  refine .each (T := fun _ (s' : Volume) => Kept v hs s'.dev.blocks) hk fun i is s₁ hk₁ => ?_
  cases hi : bmap[i]? with
  | none => exact .pure hk₁
  | some l =>
    cases bits[i]? with
    | none => exact .pure hk₁
    | some b =>
      have hk₂ : Kept v hs (s₁.dev.blocks.write (l, b)) := by
        intro l' hl'
        have hne : l' ≠ l := by
          rintro rfl
          exact hb l' (mem_of_getElem? hi) hl'
        rw [Geom.write_other hne]
        exact hk₁ l' hl'
      refine (writeBlock_keeps hk₂).imp ?_
      rintro _ s₂ ⟨-, hd⟩
      rw [hd]
      exact hk₂

variable {ts : List (ℕ × ℕ)}

theorem nodup_rangeRuns {k n : ℕ} {bits : List Block} (h : FreeRuns bits n ts) :
    (mapBlocks (ts.map (rangeRun k))).Nodup := by
  refine nodup_flatMap.2 ⟨fun r _ => nodup_range', (disjoint_rangeRuns h).imp fun {r t} hrt l hr ht => ?_⟩
  rw [Run.mem_blocks] at hr ht
  omega

theorem mem_cells_of_rangeRuns {k : ℕ} (hk : 0 < k) (hl : l ∈ mapBlocks (ts.map (rangeRun k))) :
    l / k ∈ ts.flatMap rangeCells := by
  obtain ⟨r, hr, hle, hlt⟩ := mem_mapBlocks.1 hl
  obtain ⟨t, ht, rfl⟩ := mem_map.1 hr
  refine mem_flatMap.2 ⟨t, ht, mem_rangeCells.2 ⟨(Nat.le_div_iff_mul_le hk).2 hle, (Nat.div_lt_iff_lt_mul hk).2 ?_⟩⟩
  rw [Nat.add_mul]
  exact hlt

variable {runs : List Run}

namespace Holding
variable (hg : v.Guarded hs bmap) (hJ : Holding v hs bmap R K s)
include hg hJ

theorem bitmap : s.Bitmap bmap (bmap.map s.dev.blocks) := by
  obtain ⟨hs', map, hhs, hmap, hlbns, -⟩ := readStorageBitmap_iff.1 hg.bitmap.read
  obtain ⟨p, xs, rfl, hr⟩ := headers_iff.1 hhs
  have hr' : s.Reads BITMAP p xs := by
    refine hr.congr hJ.later fun x hx => hJ.keep x.1 ⟨?_, ?_, hg.headers _ hhs x hx⟩
    · obtain ⟨f, hat⟩ := hr.holds x hx
      exact ⟨f.num, hat.slot⟩
    · obtain ⟨f, hat⟩ := hr.holds x hx
      rw [← hat.block]
      exact hat.valid
  have hh := headers_iff.2 ⟨p, xs, rfl, hr'⟩
  refine ⟨readStorageBitmap_iff.2 ⟨_, map, hh, hJ.later.toKin.runsOf hmap, ?_, rfl⟩, hg.bitmap.nodup, ?_⟩
  · rw [show bitmapBlocks s = bitmapBlocks v by rw [bitmapBlocks, hJ.later.clusters], hJ.later.count]
    exact hlbns
  · intro hs' hhs'
    rw [hh] at hhs'
    cases hhs'
    exact hg.bitmap.apart _ hhs

theorem taken_runs (hv : s.Same s') (hout : ∀ l ∉ bmap, s'.dev.blocks l = s.dev.blocks l)
    (hn : (mapBlocks runs).Nodup)
    (hfree : ∀ l ∈ mapBlocks runs, l / v.cluster ∈ cellsOf v.cluster runs ∧
      bit (bmap.map s.dev.blocks) (l / v.cluster) = true)
    (hbit : ∀ c, bit (bmap.map s'.dev.blocks) c =
      (bit (bmap.map s.dev.blocks) c && decide (c ∉ cellsOf v.cluster runs))) :
    Holding v hs bmap (mapBlocks runs ++ R) K s' := by
  -- no block that was taken is taken again
  have hnew : ∀ l ∈ mapBlocks runs, l ∉ mapBlocks s.indexMap ++ R ∧ l ∉ bmap := by
    intro l hl
    have htrue := (hfree l hl).2
    exact ⟨fun h => by simp [hJ.taken l (.inl h)] at htrue, fun h => by simp [hJ.taken l (.inr h)] at htrue⟩
  have hslot : ∀ {n x}, s.headerLbn n = some x → s'.dev.blocks x = s.dev.blocks x :=
    fun hx => hout _ (hJ.slot_notMem hx)
  have hmem : ∀ {l}, l ∈ mapBlocks s'.indexMap ++ (mapBlocks runs ++ R) ↔
      l ∈ mapBlocks s.indexMap ++ R ∨ l ∈ mapBlocks runs := by
    intro l
    rw [hv.indexMap]
    simp only [mem_append]
    tauto
  refine ⟨hJ.later.trans hv.later, ?_, fun x hx => ?_, ?_, fun l hl h => ?_, fun l hl => ?_, fun x hx => ?_,
    fun x hx => ?_, fun x hx => ?_⟩
  · rw [hv.indexMap]
    refine (perm_append_comm_assoc _ _ _).nodup_iff.2 (nodup_append'.2 ⟨hn, hJ.nodup, fun l hl h => ?_⟩)
    exact (hnew l hl).1 h
  · obtain ⟨n, hn⟩ := hJ.slot_of_others hx
    rw [hslot hn]
    exact hJ.keep x hx
  · obtain ⟨x, hx⟩ := hJ.slot_one hg
    rw [indexEof_eq ((hv.headerLbn 1).trans hx), hslot hx, ← indexEof_eq hx]
    exact hJ.eof
  · exact (hmem.1 h).elim (hJ.apart l hl) fun h => (hnew l h).2 hl
  · rw [hbit]
    rcases hl with hl | hl
    · rcases hmem.1 hl with hl | hl
      · rw [hJ.taken l (.inl hl)]
        rfl
      · simp [(hfree l hl).1]
    · rw [hJ.taken l (.inr hl)]
      rfl
  · rw [hv.headerLbn] at hx
    exact hJ.first x hx
  · simpa only [hv.headerLbn] using hJ.slots x hx
  · obtain ⟨⟨n, hn⟩, -⟩ := hJ.slots x hx
    rw [hslot hn]
    simpa only [hv.headerLbn] using hJ.closed x hx

theorem allocate {blocks : ℕ} (hpos : 0 < blocks) (how : Alloc) (after : Option ℕ) :
    Op.Keeps v hs (Op.allocate blocks how after) s
      fun runs s' => s.Same s' ∧ Holding v hs bmap (mapBlocks runs ++ R) K s' := by
  have hb := hJ.bitmap hg
  have hk : 0 < s.cluster := (facts (hJ.sited hg).home).2.2.2.2.2
  have hfr := freeRuns_spec (bmap.map s.dev.blocks) s.clusters
  cases hc : chooseRuns (freeRuns (bmap.map s.dev.blocks) s.clusters 0 none) (wanted s blocks) how
      (nextTo s after) with
  | none =>
    unfold Op.Keeps Prog.Runs
    rw [allocate_none hb hk hpos hc]
    exact Prog.Runs.fail (by simp [world]) trivial
  | some ts =>
    obtain ⟨hts, hsum, -⟩ := chooseRuns_spec hfr (wanted_pos hk hpos) hc
    have hne : ts ≠ [] := by
      rintro rfl
      exact absurd hsum (wanted_pos hk hpos).ne
    have hrun := allocate_some hb hk hpos hc hts hne
    have hkeeps : Op.Keeps v hs (Op.allocate blocks how after) s fun _ _ => True := by
      unfold Op.Keeps Prog.Runs
      rw [allocate_eq hb hk hpos, hc, (looks_orFail (e := .deviceFull) (by simp) (some ts)).run rfl]
      refine Prog.Runs.bind (writeBitmapBlocks_keeps hJ.kept (fun l hl ho => ?_) _ _) fun _ _ _ =>
        Prog.Runs.pure trivial
      obtain ⟨n, hn⟩ := hJ.slot_of_others ho
      exact hJ.slot_notMem hn hl
    refine (hkeeps.and_post hrun).imp ?_
    rintro runs s' ⟨-, rfl, hv, -, hout, bits', hb', hbit⟩
    refine ⟨hv, hJ.taken_runs hg hv hout (nodup_rangeRuns hts) (fun l hl => ?_) fun c => ?_⟩
    · have hc := mem_cells_of_rangeRuns hk hl
      obtain ⟨r, hr, hcr⟩ := mem_flatMap.1 hc
      rw [← hJ.later.cluster, cellsOf_rangeRuns hk]
      exact ⟨hc, hts.free r hr _ hcr⟩
    · rw [← hb'.bits_eq, ← hJ.later.cluster]
      exact hbit c

end Holding

/-! ## Appending to the index file -/

theorem Volume.Chain.last_extFid : ∀ {h : Header} {xs : List (ℕ × Header)} {y : ℕ × Header}, s.Chain h xs →
    xs.getLast? = some y → y.2.extFid.num = 0 := by
  intro h xs y
  induction xs generalizing h with
  | nil => simp
  | cons x xs ih =>
    rintro ⟨-, -, -, hch⟩ hy
    cases xs with
    | nil =>
      cases hy
      exact hch
    | cons z zs => exact ih hch (by simpa using hy)

variable {y : ℕ × Header}

theorem Volume.Reads.last_extFid (hr : s.Reads f p xs)
    (hy : (p :: xs).getLast? = some y) : y.2.extFid.num = 0 := by
  cases xs with
  | nil =>
    cases hy
    exact hr.chain
  | cons x xs => exact hr.chain.last_extFid (by simpa using hy)

/-- A slot that may be written: it is not of another file. -/
structure Volume.Ours (v : Volume) (hs : List (ℕ × Header)) (s : Volume) (f : Fid) (l : ℕ) : Prop where
  slot : s.headerLbn f.num = some l
  ours : ¬v.Others hs l
  ok : f.Ok
  past : 1 < f.num

theorem Volume.Ours.later (h : v.Ours hs s f l) (hv : s.Later s') : v.Ours hs s' f l :=
  ⟨hv.headerLbn h.slot, h.ours, h.ok, h.past⟩

/-- What taking a file number does. -/
def Op.Allocs (v : Volume) (hs : List (ℕ × Header)) (bmap : List ℕ) (alloc : Op (Fid × ℕ)) : Prop :=
  ∀ {R K s}, Holding v hs bmap R K s → Op.Keeps v hs alloc s
    fun r s' => s.Later s' ∧ v.Ours hs s' r.1 r.2 ∧ ∃ K', Holding v hs bmap R K' s'

theorem Op.Allocs.collect (ha : Op.Allocs v hs bmap alloc) (hJ : Holding v hs bmap R K s)
    (as : List α) : Op.Keeps v hs (Prog.collect (fun _ => alloc) as) s
      fun ids s' => s.Later s' ∧ (∀ r ∈ ids, v.Ours hs s' r.1 r.2) ∧ ∃ K', Holding v hs bmap R K' s' := by
  refine .collect (T := fun _ (ids : List (Fid × ℕ)) s' => s.Later s' ∧ (∀ r ∈ ids, v.Ours hs s' r.1 r.2) ∧
    ∃ K', Holding v hs bmap R K' s') ⟨.refl s, by simp, K, hJ⟩ fun _ _ ids s₁ => ?_
  rintro ⟨hv, hids, K₁, hJ₁⟩
  refine (ha hJ₁).imp ?_
  rintro r s₂ ⟨hv₂, hr, hJ₂⟩
  refine ⟨hv.trans hv₂, fun x hx => ?_, hJ₂⟩
  rcases mem_append.1 hx with hx | hx
  · exact (hids x hx).later hv₂
  · rw [mem_singleton.1 hx]
    exact hr

/-- `f` leads nowhere or to a slot of the chain. -/
def Leads (K : Set ℕ) (s : Volume) (f : Fid) : Prop := f.num = 0 ∨ ∃ l ∈ K, s.headerLbn f.num = some l

theorem Leads.same (h : Leads K s f) (hv : s.Same s') : Leads K s' f := by
  rw [Leads, hv.headerLbn]
  exact h

theorem Leads.mono (h : Leads K s f) (hK : K ⊆ K') : Leads K' s f := by
  rcases h with h | ⟨x, hx, hn⟩
  · exact .inl h
  · exact .inr ⟨x, hK hx, hn⟩

namespace Holding
variable (hg : v.Guarded hs bmap)
include hg

theorem writeExts {fid link : Fid} {p : Header} {seg : ℕ} (hlink : link.num = 0) (hok : link.Ok) :
    ∀ {items : List (List Pointer × Fid × ℕ)} {i : ℕ} {s : Volume} {K : Set ℕ}, Holding v hs bmap R K s →
      (∀ x ∈ items, v.Ours hs s x.2.1 x.2.2) → Op.Keeps v hs (writeExts fid p link seg i items) s
        fun f s' => s.Same s' ∧ f.Ok ∧ ∃ K', Holding v hs bmap R K' s' ∧ Leads K' s' f := by
  intro items
  induction items with
  | nil => exact fun hJ _ => .pure ⟨.refl _, hok, _, hJ, .inl hlink⟩
  | cons x items ih =>
    intro i s K hJ hours
    obtain ⟨hx, hours⟩ := forall_mem_cons.1 hours
    refine .bind (ih hJ hours) ?_
    rintro next s₁ ⟨hv, hnext, K₁, hJ₁, hleads⟩
    by_cases hseg : seg + i % 2 ^ 16 ≥ 2 ^ 16
    · rw [if_pos hseg]
      exact .fail (by simp [world]) trivial
    rw [if_neg hseg]
    refine .state_bind (keeps_orFail (by simp) fun e he => ?_)
    obtain ⟨hsound, -, -, hext, -⟩ := s₁.extHeader_spec (p := p) (f := fid) hx.ok (by have := hx.past; omega)
      (Nat.lt_of_not_le hseg) hnext
    have hx₁ := hx.later hv.later
    refine .bind (hJ₁.writeHeader hg hx₁.slot hx.ours (fun h => absurd hx.past (by omega)) ?_) ?_
    · rw [extFid_setMap hsound he, hext]
      exact hleads
    · rintro _ s₂ ⟨hv₂, hJ₂⟩
      refine .pure ⟨hv.trans hv₂, hx.ok, _, hJ₂, .inr ⟨x.2.2, .inl rfl, ?_⟩⟩
      exact (hx₁.later hv₂.later).slot

omit hg in
theorem reads_ours (hJ : Holding v hs bmap R K s) (hr : s.Reads INDEXF p xs) (hy : y ∈ p :: xs) :
    ∃ n, s.headerLbn n = some y.1 ∧ ¬v.Others hs y.1 ∧ y.2.Sound ∧ (n = 1 → v.indexEof ≤ y.2.recordAttrs.efblk) := by
  obtain ⟨f, hat⟩ := hr.holds y hy
  refine ⟨f.num, hat.slot, (hJ.slots _ (hJ.reads_mem hr y hy)).2, sound_of_valid hat.valid, fun h1 => ?_⟩
  rw [hat.block, ← indexEof_eq (by rw [← h1]; exact hat.slot)]
  exact hJ.eof

theorem writeSize (hJ : Holding v hs bmap R K s) (hn : s.headerLbn n = some l) (hl : ¬v.Others hs l)
    (hs' : h.Sound) (heof : n = 1 → v.indexEof ≤ h.recordAttrs.efblk) (hext : Leads K s h.extFid) (added : ℕ) :
    Op.Keeps v hs (Op.writeHeader l (addHiblk h added)) s
      fun _ s' => s.Later s' ∧ ∃ K', Holding v hs bmap R K' s' := by
  have hsame := same_addHiblk hs' added
  have hefblk : (addHiblk h added).recordAttrs.efblk = h.recordAttrs.efblk := by
    rw [addHiblk, efblk_setRecordAttrs]
    exact Nat.mod_eq_of_lt h.efblk_lt
  refine (hJ.writeHeader hg hn hl (by rw [hefblk]; exact heof) ?_).imp ?_
  · rw [hsame.like.extFid]
    exact hext
  · rintro _ s₁ ⟨hv, hJ₁⟩
    exact ⟨hv.later, _, hJ₁⟩

theorem append (ha : Op.Allocs v hs bmap alloc) (hJ : Holding v hs bmap R K s) (runs : List Run) :
    Op.Keeps v hs (appendRunsWith alloc INDEXF runs) s
      fun _ s' => s.Later s' ∧ ∃ K', Holding v hs bmap R K' s' := by
  unfold appendRunsWith
  dsimp only
  split_ifs with hnil
  · exact .pure ⟨.refl s, K, hJ⟩
  refine Op.Looks.keeps (looks_headers INDEXF) fun xs hxs => ?_
  obtain ⟨p, xs, rfl, hr⟩ := headers_iff.1 hxs
  obtain ⟨y, hy⟩ : ∃ y, (p :: xs).getLast? = some y := ⟨_, getLast?_eq_some_getLast (by simp)⟩
  rw [hy]
  obtain ⟨l, last⟩ := y
  dsimp only [getD_some]
  cases hd : decodeMap last.mapArea with
  | error what => exact .fail (by simp [world]) trivial
  | ok old =>
    dsimp only
    generalize mergeLast old last.mapCapacity (mergeRuns runs) = m
    obtain ⟨ptrs, rest⟩ := m
    dsimp only
    have hmem : (l, last) ∈ p :: xs := mem_of_getLast? hy
    obtain ⟨n, hn, hl, hsound, heof⟩ := hJ.reads_ours hr hmem
    -- numbers for the extension headers, then the headers
    refine .bind (ha.collect hJ _) ?_
    rintro ids s₁ ⟨hv₁, hids, K₁, hJ₁⟩
    refine .bind (hJ₁.writeExts hg (hr.last_extFid hy) (Fid.get_ok _ _) fun x hx => hids _ (of_mem_zip hx).2) ?_
    rintro link s₂ ⟨hv₂, hlink, K₂, hJ₂, hleads⟩
    have hv : s.Later s₂ := hv₁.trans hv₂.later
    refine keeps_orFail (by simp) fun m hm => ?_
    have hmsound := (hsound.of_setMap hm).setExtFid link
    have hmext : Leads K₂ s₂ (m.setExtFid link).extFid := by
      rw [extFid_setExtFid hlink]
      exact hleads
    have hmeof : n = 1 → v.indexEof ≤ (m.setExtFid link).recordAttrs.efblk := by
      rw [recordAttrs_setExtFid, recordAttrs_setMap hsound hm]
      exact heof
    split_ifs with hone
    · refine (hJ₂.writeSize hg (hv.headerLbn hn) hl hmsound hmeof hmext _).imp ?_
      rintro _ s₃ ⟨hv₃, hJ₃⟩
      exact ⟨hv.trans hv₃, hJ₃⟩
    · refine .bind (hJ₂.writeHeader hg (hv.headerLbn hn) hl hmeof hmext) ?_
      rintro _ s₃ ⟨hv₃, hJ₃⟩
      refine Op.Looks.keeps (looks_headers INDEXF) fun ys hys => ?_
      obtain ⟨q, ys, rfl, hr₃⟩ := headers_iff.1 hys
      obtain ⟨n', hn', hl', hsound', heof'⟩ := hJ₃.reads_ours hr₃ mem_cons_self
      refine (hJ₃.writeSize hg hn' hl' hsound' heof' ?_ _).imp ?_
      · rw [hr₃.first.block]
        exact hJ₃.closed _ (hJ₃.reads_mem hr₃ q mem_cons_self)
      · rintro _ s₄ ⟨hv₄, hJ₄⟩
        exact ⟨(hv.trans hv₃.later).trans hv₄, hJ₄⟩

theorem mapped (hJ : Holding v hs bmap (mapBlocks runs ++ R) K s) :
    s.Later { s with indexMap := mergeRuns (s.indexMap ++ runs) } ∧
      Holding v hs bmap R K { s with indexMap := mergeRuns (s.indexMap ++ runs) } := by
  have hblocks : mapBlocks (mergeRuns (s.indexMap ++ runs)) ++ R = mapBlocks s.indexMap ++ (mapBlocks runs ++ R) := by
    rw [mapBlocks_mergeRuns, mapBlocks_append, append_assoc]
  have hv : s.Later { s with indexMap := mergeRuns (s.indexMap ++ runs) } :=
    ⟨⟨rfl, rfl, rfl, rfl⟩, by simp [mapBlocks_mergeRuns]⟩
  obtain ⟨l, hone⟩ := hJ.slot_one hg
  refine ⟨hv, hJ.later.trans hv, hblocks ▸ hJ.nodup, hJ.keep, ?_, hblocks ▸ hJ.apart, hblocks ▸ hJ.taken, ?_, ?_, ?_⟩
  · rw [indexEof_eq (hv.headerLbn hone), ← indexEof_eq hone]
    exact hJ.eof
  · intro x hx
    rw [hv.headerLbn hone] at hx
    cases hx
    exact hJ.first l hone
  · rintro x hx
    obtain ⟨⟨n, hn⟩, ho⟩ := hJ.slots x hx
    exact ⟨⟨n, hv.headerLbn hn⟩, ho⟩
  · rintro x hx
    exact (hJ.closed x hx).imp_right fun ⟨x', hx', hn⟩ => ⟨x', hx', hv.headerLbn hn⟩

theorem extend (ha : Op.Allocs v hs bmap alloc) (hJ : Holding v hs bmap R K s) (vbn : ℕ) :
    Op.Keeps v hs (extendIndexWith alloc vbn) s fun _ s' => s.Later s' ∧ ∃ K', Holding v hs bmap R K' s' := by
  refine .state_bind (.bind (hJ.allocate hg (by omega) _ _) ?_)
  rintro runs s₁ ⟨hv₁, hJ₁⟩
  refine .bind (append hg ha hJ₁ runs) ?_
  rintro _ s₂ ⟨hv₂, K₂, hJ₂⟩
  obtain ⟨hv₃, hJ₃⟩ := hJ₂.mapped hg
  exact .modify rfl (fun h => h) ⟨(hv₁.later.trans hv₂).trans hv₃, K₂, hJ₃⟩

end Holding

/-! ## The slot -/

theorem Volume.emptyHeader_extFid (v : Volume) : v.emptyHeader.extFid.num = 0 := by
  obtain ⟨hid, -⟩ := v.newHeader_offsets Fid.zero (some 2) (by simp)
  have hext : v.emptyHeader.extFid = (v.newHeader Fid.zero (some 2)).extFid := by
    simp only [emptyHeader, setIdent, hid]
    exact Fid.get_congr fun _ _ _ _ => Field.get_put_apart (by omega)
  rw [hext, extFid_newHeader]
  rfl

theorem looks_readIndexBitmap : Op.Looks readIndexBitmap := by
  refine .bind .state_ fun s => .bind (.collect (fun vbn => ?_) _) fun _ =>
    .pure _
  exact .bind (looks_orFail (by simp) _) fun l => .bind (looks_readBlock l) fun _ => .pure _

theorem looks_indexHeader : Op.Looks indexHeader :=
  .bind .state_ fun _ => .bind (looks_readHeaderAt _ _) fun _ => .pure _

theorem indexHeader_ok {x : ℕ × Header} (h : (indexHeader s).result = .ok x) (hl : s.headerLbn 1 = some l) :
    x.1 = l ∧ x.2 = ⟨s.dev.blocks l⟩ ∧ x.2.invalid = none := by
  unfold indexHeader at h
  rw [Prog.Looks.state_bind, hl, getD_some, (looks_readHeaderAt _ _).bind_ok] at h
  obtain ⟨ih, hih, hx⟩ := h
  cases hx
  obtain ⟨-, hb, hok, -⟩ := readHeaderAt_ok.1 hih
  exact ⟨rfl, hb, hok⟩

theorem pastSlot_spec {ih : Header} {vbn : ℕ} (hs : ih.Sound) (hlt : vbn + 1 < 2 ^ 32) :
    ih.Like (Op.pastSlot ih vbn) ∧ (Op.pastSlot ih vbn).recordAttrs.efblk = vbn + 1 := by
  have hlike := like_setRecordAttrs hs { ih.recordAttrs with efblk := (vbn + 1) % 2 ^ 32, ffbyte := 0 }
  have hefblk : (ih.setRecordAttrs { ih.recordAttrs with efblk := (vbn + 1) % 2 ^ 32, ffbyte := 0 }).recordAttrs.efblk =
      vbn + 1 := by
    rw [efblk_setRecordAttrs, Nat.mod_mod, Nat.mod_eq_of_lt hlt]
  unfold Op.pastSlot
  dsimp only
  split_ifs with hlow
  · refine ⟨hlike.trans (like_setHighwater (hs.of_like hlike) (highwaterMark_any hlow)), ?_⟩
    rw [setHighwater, recordAttrs_put (by omega), hefblk]
  · exact ⟨hlike, hefblk⟩

theorem nextSeq_lt (past : Bool) (old : Header) : nextSeq past old < 2 ^ 16 := by
  have hlt : (old.fid.seq + 1) % 2 ^ 16 < 2 ^ 16 := Nat.mod_lt _ (by norm_num)
  unfold nextSeq
  split_ifs
  · norm_num
  · split <;> omega

namespace Holding
variable (hg : v.Guarded hs bmap)
include hg

theorem past_ours (hJ : Holding v hs bmap R K s) {x num : ℕ} (hclear : v.Clear hs num) (hours : ¬v.Others hs n)
    (hx : v.indexEof ≤ x) (hnum : s.headerLbn num = some n) (hle : x ≤ s.slotVbn num) :
    ∃ m l', 1 < m ∧ mapLbn s.indexMap x = some l' ∧ s.headerLbn m = some l' ∧
      ¬v.Others hs l' := by
  obtain ⟨-, hmax, hmap⟩ := headerLbn_eq_some.1 hnum
  have hown : ∀ {l'}, s.headerLbn num = some l' → ¬v.Others hs l' :=
    fun h => some.inj (hnum.symm.trans h) ▸ hours
  have hvbn : ∀ m, s.slotVbn m = v.slotVbn m := fun m => by rw [slotVbn, slotVbn, hJ.later.home]
  have hbelow := hg.below
  simp only [hvbn] at hle
  simp only [slotVbn] at hbelow hle
  have hlt : x - 1 < (mapBlocks s.indexMap).length := by
    have hn := (List.getElem?_eq_some_iff.1 (mapLbn_eq_some.1 hmap).2).1
    rw [hvbn, slotVbn] at hn
    omega
  -- the slot of number `m` is at VBN `x`
  have hm : v.slotVbn (x + 1 - v.home.headerVbn0) = x := by
    rw [slotVbn]
    omega
  have hl' : mapLbn s.indexMap x = some (mapBlocks s.indexMap)[x - 1] :=
    mapLbn_eq_some.2 ⟨by omega, getElem?_eq_getElem hlt⟩
  have hslot : s.headerLbn (x + 1 - v.home.headerVbn0) = some (mapBlocks s.indexMap)[x - 1] := by
    refine headerLbn_eq_some.2 ⟨by omega, by omega, ?_⟩
    rw [hvbn, hm]
    exact hl'
  refine ⟨_, _, by omega, hl', hslot, fun ho => ?_⟩
  obtain ⟨m, hm'⟩ := ho.1
  obtain rfl := (hJ.sited hg).slot_inj (hJ.later.headerLbn hm') hslot
  obtain hlt | heq := lt_or_eq_of_le (show x + 1 - v.home.headerVbn0 ≤ num by omega)
  · exact hclear _ hlt _ hm' (by rw [hm]; exact hx) ho
  · exact hown (heq ▸ hslot) ho

theorem fillSlot (hJ : Holding v hs bmap R K s) {x l' m : ℕ} (hm : 1 < m) (hx : mapLbn s.indexMap x = some l')
    (hn : s.headerLbn m = some l') (hl : ¬v.Others hs l') :
    Op.Keeps v hs (Op.fillSlot l x) s fun _ s' => s.Same s' ∧ ∃ K', K ⊆ K' ∧ Holding v hs bmap R K' s' := by
  refine .state_bind ?_
  rw [hx, getD_some]
  refine Op.Looks.keeps (looks_readBlock l') fun b _ => .when (fun _ => ?_) fun _ => ⟨.refl s, K, subset_rfl, hJ⟩
  refine (hJ.writeHeader hg hn hl (fun h => absurd hm (by omega)) (.inl s.emptyHeader_extFid)).imp ?_
  rintro _ s' ⟨hv, hJ'⟩
  exact ⟨hv, _, Set.subset_insert _ _, hJ'⟩

theorem fill (hJ : Holding v hs bmap R K s) {num : ℕ} (hclear : v.Clear hs num) (hours : ¬v.Others hs l)
    (hnum : s.headerLbn num = some l) {ihs : ℕ × Header}
    (hih : (indexHeader s).result = .ok ihs) (hge : ihs.2.recordAttrs.efblk ≤ s.slotVbn num) :
    Op.Keeps v hs (do
        Prog.each (Op.fillSlot l) (List.range' ihs.2.recordAttrs.efblk (s.slotVbn num + 1 - ihs.2.recordAttrs.efblk))
        Op.writeHeader ihs.1 (Op.pastSlot ihs.2 (s.slotVbn num))) s
      fun _ s' => s.Same s' ∧ ∃ K', Holding v hs bmap R K' s' := by
  obtain ⟨a, hone⟩ := hJ.slot_one hg
  obtain ⟨hihs, hblock, hvalid⟩ := indexHeader_ok hih hone
  have heof : v.indexEof ≤ ihs.2.recordAttrs.efblk := by
    rw [hblock, ← indexEof_eq hone]
    exact hJ.eof
  refine .bind (.each
    (T := fun rest s' => s.Same s' ∧ (∀ x ∈ rest, v.indexEof ≤ x ∧ x ≤ s.slotVbn num) ∧
      ∃ K', K ⊆ K' ∧ Holding v hs bmap R K' s') ⟨.refl s, fun x hx => ?_, K, subset_rfl, hJ⟩ ?_) ?_
  · rw [mem_range'_1] at hx
    omega
  · rintro x rest s₁ ⟨hv, hrest, K₁, hK, hJ₁⟩
    obtain ⟨⟨hx, hle⟩, hrest⟩ := forall_mem_cons.1 hrest
    obtain ⟨m, l', hm, hl', hslot, ho⟩ := hJ₁.past_ours hg hclear hours hx ((hv.headerLbn num).trans hnum)
      (by rw [slotVbn, hv.home]; exact hle)
    refine (hJ₁.fillSlot hg hm hl' hslot ho).imp ?_
    rintro _ s₂ ⟨hv₂, K₂, hK₂, hJ₂⟩
    exact ⟨hv.trans hv₂, hrest, K₂, hK.trans hK₂, hJ₂⟩
  · rintro _ s₁ ⟨hv, -, K₁, hK, hJ₁⟩
    have hmax := (facts hg.sited.home).2.2.1
    have hlt : s.slotVbn num + 1 < 2 ^ 32 := by
      have h1 := Field.get_lt s.home.raw 22 2
      have h2 := Field.get_lt s.home.raw 32 2
      have h3 := (headerLbn_eq_some.1 hnum).2.1
      rw [hJ.later.home] at h3
      simp only [slotVbn, headerVbn0, ibmapvbn, ibmapsize]
      omega
    obtain ⟨hlike, hefblk⟩ := pastSlot_spec (sound_of_valid hvalid) hlt
    have hleads : Leads K s ihs.2.extFid := by
      rw [hblock]
      exact hJ.closed a (hJ.first a hone)
    rw [hihs]
    refine (hJ₁.writeHeader hg ((hv.headerLbn 1).trans hone) (hJ₁.slots a (hJ₁.first a ((hv.headerLbn 1).trans hone))).2
      (fun _ => by rw [hefblk]; omega) ?_).imp ?_
    · rw [hlike.extFid]
      exact (hleads.same hv).mono hK
    · rintro _ s₂ ⟨hv₂, hJ₂⟩
      exact ⟨hv.trans hv₂, _, hJ₂⟩

end Holding

/-- What the search for a file number relies on the growth of the index file for. -/
def Op.Extends (v : Volume) (hs : List (ℕ × Header)) (bmap : List ℕ) (ext : ℕ → Op Unit) : Prop :=
  ∀ {R K s} vbn, Holding v hs bmap R K s → Op.Keeps v hs (ext vbn) s
    fun _ s' => s.Later s' ∧ ∃ K', Holding v hs bmap R K' s'

theorem Holding.take (hg : v.Guarded hs bmap) (hJ : Holding v hs bmap R K s) {num : ℕ} {ihs : ℕ × Header}
    (hclear : v.Clear hs num) (hours : ¬v.Others hs l) (hnum : s.headerLbn num = some l)
    (hih : (indexHeader s).result = .ok ihs) {β : Type} {g : Op β} {Q : β → Volume → Prop}
    (hg' : ∀ s', s.Same s' → (∃ K', Holding v hs bmap R K' s') → Op.Keeps v hs g s' Q) :
    Op.Keeps v hs (do
        Prog.when (s.slotVbn num ≥ ihs.2.recordAttrs.efblk) do
          Prog.each (Op.fillSlot l) (List.range' ihs.2.recordAttrs.efblk (s.slotVbn num + 1 - ihs.2.recordAttrs.efblk))
          Op.writeHeader ihs.1 (Op.pastSlot ihs.2 (s.slotVbn num))
        Op.setIndexBit num true
        g) s Q := by
  obtain ⟨h0, hmax, -⟩ := headerLbn_eq_some.1 hnum
  refine .bind (Q := fun _ s₂ => s.Same s₂ ∧ ∃ K₂, Holding v hs bmap R K₂ s₂)
    (.when (fun hge => hJ.fill hg hclear hours hnum hih hge) fun _ => ⟨.refl s, K, hJ⟩) ?_
  rintro _ s₂ ⟨hv₂, K₂, hJ₂⟩
  refine .bind (hJ₂.setIndexBit hg h0 (by rw [hv₂.home]; exact hmax) true) ?_
  rintro _ s₃ ⟨hv₃, hJ₃⟩
  exact hg' s₃ (hv₂.trans hv₃) ⟨K₂, hJ₃⟩

theorem Volume.headerLbn_of_le {num N : ℕ} (hN : v.headerLbn N = some l) (h1 : 1 < num) (hle : num ≤ N) :
    ∃ l', v.headerLbn num = some l' ∧ (mapVbn v.indexMap (v.slotVbn num)).isSome := by
  obtain ⟨-, hmax, hmap⟩ := headerLbn_eq_some.1 hN
  have hlen := (List.getElem?_eq_some_iff.1 (mapLbn_eq_some.1 hmap).2).1
  have hlt : v.slotVbn num - 1 < (mapBlocks v.indexMap).length := by
    simp only [slotVbn] at hlen ⊢
    omega
  have hsome : mapLbn v.indexMap (v.slotVbn num) = some (mapBlocks v.indexMap)[v.slotVbn num - 1] :=
    mapLbn_eq_some.2 ⟨by simp only [slotVbn]; omega, getElem?_eq_getElem hlt⟩
  refine ⟨_, headerLbn_eq_some.2 ⟨by omega, by omega, hsome⟩, ?_⟩
  obtain ⟨x, hx, -⟩ := map_eq_some_iff.1 hsome
  exact isSome_iff_exists.2 ⟨x, hx⟩

theorem Volume.Chain.leads {K : Set ℕ} : ∀ {h : Header} {xs : List (ℕ × Header)}, s.Chain h xs →
    (∀ x ∈ xs, x.1 ∈ K) → Leads K s h.extFid ∧ ∀ x ∈ xs, Leads K s (Header.mk (s.dev.blocks x.1)).extFid := by
  intro h xs
  induction xs generalizing h with
  | nil => exact fun hch _ => ⟨.inl hch, by simp⟩
  | cons x xs ih =>
    rintro ⟨-, hat, -, hch⟩ hK
    obtain ⟨hx, hxs⟩ := forall_mem_cons.1 hK
    obtain ⟨hnext, hrest⟩ := ih hch hxs
    rw [hat.block] at hnext
    exact ⟨.inr ⟨x.1, hx, hat.slot⟩, forall_mem_cons.2 ⟨hnext, hrest⟩⟩

theorem Volume.Guarded.holding (hg : v.Guarded hs bmap) : Holding v hs bmap [] {l | l ∈ hs.map Prod.fst} v := by
  obtain ⟨p, xs, rfl, hr⟩ := headers_iff.1 hg.index
  have hmem : ∀ x ∈ p :: xs, x.1 ∈ {l | l ∈ (p :: xs).map Prod.fst} := fun x hx => mem_map_of_mem hx
  obtain ⟨hfirst, hrest⟩ := hr.chain.leads (forall_mem_cons.1 hmem).2
  refine ⟨.refl v, by rw [append_nil]; exact hg.sited.nodup, fun _ _ => rfl, le_rfl,
    by rw [append_nil]; exact hg.apart, by rw [append_nil]; exact hg.taken, fun l hl => ?_, fun l hl => ?_,
    fun l hl => ?_⟩
  · rw [show v.headerLbn 1 = some p.1 from hr.first.slot] at hl
    cases hl
    exact hmem p mem_cons_self
  · obtain ⟨x, hx, rfl⟩ := mem_map.1 hl
    obtain ⟨f, hat⟩ := hr.holds x hx
    exact ⟨⟨f.num, hat.slot⟩, fun ho => ho.2.2 hl⟩
  · obtain ⟨x, hx, rfl⟩ := mem_map.1 hl
    rcases mem_cons.1 hx with rfl | hx
    · rw [← hr.first.block]
      exact hfirst
    · exact hrest x hx

/-- The search stays in the index file as it is: the first number free, `N`, has its slot
    mapped, or there is none. -/
theorem Op.keeps_allocFrom (hg : v.Guarded hs bmap) {ext : ℕ → Op Unit} {bits : List Block} {N : ℕ}
    (hfirst : ∀ k < N, ¬v.FreeNumber bits k)
    (hN : N ≤ v.home.maxfiles → v.FreeNumber bits N ∧ (∃ l, v.headerLbn N = some l) ∧ v.Clear hs N) :
    ∀ {left num : ℕ}, v.home.resfiles < num → num ≤ N → num + left ≤ v.home.maxfiles + 1 →
      Op.Keeps v hs (allocHeaderFrom ext bits left num) v fun _ _ => True := by
  intro left
  induction left with
  | zero => exact fun _ _ _ => .fail (by simp [world]) trivial
  | succ left ih =>
    intro num hres hle hmax
    have hnext : num ≠ N → Op.Keeps v hs (allocHeaderFrom ext bits left (num + 1)) v fun _ _ => True :=
      fun hne => ih (by omega) (by omega) (by omega)
    unfold allocHeaderFrom
    split_ifs with hskip
    · refine hnext fun heq => ?_
      obtain ⟨-, -, hff, hbit, -⟩ := (hN (by omega)).1
      rw [heq] at hskip
      simp [hff, hbit] at hskip
    rw [not_or, Bool.not_eq_true] at hskip
    have hres5 := (facts hg.sited.home).1
    -- a number below `N` that isn't skipped is in use
    have hmapped : ∃ l, v.headerLbn num = some l ∧ (mapVbn v.indexMap (v.slotVbn num)).isSome := by
      by_cases hn : N ≤ v.home.maxfiles
      · obtain ⟨-, ⟨l, hl⟩, -⟩ := hN hn
        exact headerLbn_of_le hl (by omega) hle
      · by_contra hno
        refine hfirst num (by omega) ⟨hres, by omega, hskip.1, hskip.2, fun l hl => absurd ⟨l, hl, ?_⟩ hno⟩
        exact (headerLbn_of_le hl (by omega) le_rfl).choose_spec.2
    obtain ⟨l, hl, hsome⟩ := hmapped
    refine .state_bind (.bind (Q := fun _ s => s = v) (.when (fun hnone => ?_) fun _ => rfl) ?_)
    · rw [show v.home.headerVbn0 + num - 1 = v.slotVbn num from rfl, isNone_iff_eq_none] at hnone
      simp [hnone] at hsome
    rintro _ s rfl
    refine .state_bind (keeps_orFail (by simp) fun l' hl' => ?_)
    obtain rfl := some.inj (hl.symm.trans hl')
    refine Op.Looks.keeps looks_indexHeader fun ihs hih => Op.Looks.keeps (looks_readBlock l) fun b hb => ?_
    obtain ⟨-, rfl⟩ := readBlock_ok.1 hb
    dsimp only
    split_ifs with hold
    · refine hnext fun heq => ?_
      exact (hN (by omega)).1.2.2.2.2 l (heq ▸ hl) hold
    · obtain rfl : num = N := by
        by_contra hne
        exact hfirst num (by omega)
          ⟨hres, by omega, hskip.1, hskip.2, fun l' hl' => some.inj (hl.symm.trans hl') ▸ hold⟩
      exact hg.holding.take hg (hN (by omega)).2.2 (fun ho => hold ho.2.1) hl hih fun _ _ _ => .pure trivial

theorem Op.Extends.allocFrom (hg : v.Guarded hs bmap) (hclear : ∀ N, v.Clear hs N) {ext : ℕ → Op Unit}
    (hext : Op.Extends v hs bmap ext)
    (bits : List Block) : ∀ {left num : ℕ} {s : Volume} {K : Set ℕ}, Holding v hs bmap R K s →
      v.home.resfiles < num → num + left ≤ v.home.maxfiles + 1 →
      Op.Keeps v hs (allocHeaderFrom ext bits left num) s
        fun r s' => s.Later s' ∧ v.Ours hs s' r.1 r.2 ∧ ∃ K', Holding v hs bmap R K' s' := by
  intro left
  induction left with
  | zero => exact fun _ _ _ => .fail (by simp [world]) trivial
  | succ left ih =>
    intro num s K hJ hres hmax
    unfold allocHeaderFrom
    split_ifs with hskip
    · exact ih hJ (by omega) (by omega)
    refine .state_bind ?_
    -- the index file maps the slot, or is made to
    refine .bind (Q := fun _ s₁ => s.Later s₁ ∧ ∃ K₁, Holding v hs bmap R K₁ s₁)
      (.when (fun _ => hext _ hJ) fun _ => ⟨.refl s, K, hJ⟩) ?_
    rintro _ s₁ ⟨hv₁, K₁, hJ₁⟩
    refine .state_bind (keeps_orFail (by simp) fun l hl => ?_)
    refine Op.Looks.keeps looks_indexHeader fun ihs hih => ?_
    refine Op.Looks.keeps (looks_readBlock l) fun b hb => ?_
    obtain ⟨-, rfl⟩ := readBlock_ok.1 hb
    dsimp only
    split_ifs with hold
    · refine (ih hJ₁ (by omega) (by omega)).imp ?_
      rintro r s₂ ⟨hv₂, hr⟩
      exact ⟨hv₁.trans hv₂, hr⟩
    have hours : ¬v.Others hs l := fun ho => hold (by rw [hJ₁.keep l ho]; exact ho.2.1)
    have hvbn : s.home.headerVbn0 + num - 1 = s₁.slotVbn num := by rw [slotVbn, hv₁.home]
    rw [hvbn]
    have hfacts := facts hg.sited.home
    refine hJ₁.take hg (hclear num) hours hl hih fun s₃ hv hJ₃ => ?_
    refine .pure ⟨hv₁.trans hv.later, ⟨(hv.headerLbn num).trans hl, hours, ?_, ?_⟩, hJ₃⟩
    · exact ⟨by simp only [Fid.new]; omega, nextSeq_lt _ _, by simp [Fid.new]⟩
    · simp only [Fid.new]
      omega

theorem Op.allocs_allocHeaderN (hg : v.Guarded hs bmap) (hclear : ∀ N, v.Clear hs N) :
    ∀ depth, Op.Allocs v hs bmap (allocHeaderN depth) := by
  intro depth
  induction depth with
  | zero => exact fun _ => .fail (by simp [world]) trivial
  | succ depth ih =>
    intro R K s hJ
    refine .state_bind (Op.Looks.keeps looks_readIndexBitmap fun x _ => ?_)
    have hext : Op.Extends v hs bmap (extendIndexWith (allocHeaderN depth)) :=
      fun vbn hJ => Holding.extend hg ih hJ vbn
    refine hext.allocFrom hg hclear x.2 hJ ?_ ?_ <;> rw [hJ.later.home]
    · omega
    · have := (facts hg.sited.home).2.1
      omega

end run

theorem smallFiles_headerLbn {n l : ℕ} (h : smallFiles.headerLbn n = some l) : 0 < n ∧ n ≤ 16 ∧ l = 4 + n := by
  obtain ⟨h0, hmax, -⟩ := headerLbn_eq_some.1 h
  have h16 : n ≤ 16 := by
    rwa [show smallFiles.home.maxfiles = 16 from smallFiles_ok.home.2.2.1] at hmax
  rw [show smallFiles.headerLbn n = some (4 + n) from smallFiles_ok.headerLbn h0 h16] at h
  exact ⟨h0, h16, (some.inj h).symm⟩

theorem smallFiles_guarded : smallFiles.Guarded [(5, sampleHeader INDEXF [⟨0, 22⟩])] [23] := by
  have hok := smallFiles_ok
  have hbitmap : (headers BITMAP smallFiles).result = .ok [(6, sampleHeader BITMAP [⟨22, 22⟩])] :=
    (hok.file_of_mem (x := (6, BITMAP, [⟨22, 22⟩])) (by simp [sampleFiles])).headers
  refine ⟨hok.consistent.sited, (hok.file_of_mem (x := (5, INDEXF, [⟨0, 22⟩])) (by simp [sampleFiles])).headers,
    ⟨by decide +kernel, by decide, fun hs hhs => ?_⟩, fun hs hhs => ?_, by decide, fun l hl => ?_, by decide +kernel⟩
  · rw [hbitmap] at hhs
    cases hhs
    decide
  · rw [hbitmap] at hhs
    cases hhs
    simp
  · have hlt : l < 24 := by
      rcases hl with hl | hl
      · obtain ⟨r, hr, -, hlr⟩ := mem_mapBlocks.1 hl
        cases mem_singleton.1 hr
        dsimp only at hlr
        omega
      · rw [mem_singleton.1 hl]
        norm_num
    have hfree : ∀ l < 24, bit ([23].map smallFiles.dev.blocks) (l / smallFiles.cluster) = false := by decide +kernel
    exact hfree l hlt

theorem smallFiles_clear (hs : List (ℕ × Header)) (N : ℕ) : smallFiles.Clear hs N := by
  intro n _ l hn hpast ho
  obtain ⟨-, h16, rfl⟩ := smallFiles_headerLbn hn
  have hempty : ∀ n ≤ 16, smallFiles.indexEof ≤ smallFiles.slotVbn n →
      (Header.mk (smallFiles.dev.blocks (4 + n))).invalid ≠ none := by decide +kernel
  exact hempty n h16 hpast ho.2.1

/-- The devices of volumes like `smallFiles`, with their home block and storage
    control block, and the end of file of INDEXF.SYS at VBN `eof`. -/
def endedAt (eof : ℕ) : Device where
  blockSize := 512
  count := 64
  blocks := fun l =>
    if l = 1 then (sampleHome 2).raw
    else if l = 5 then
      ((sampleHeader INDEXF [⟨0, 22⟩]).setRecordAttrs
        { RecordAttrs.default with hiblk := 22, efblk := eof }).updateChecksum.raw
    else if l = 22 then (((Scb.default.setCluster 2).setVolsize 64)).updateChecksum.raw
    else smallFiles.dev.blocks l
  fault := none

end Ods
