/-
  Reading and writing virtual blocks.  A transfer is split where the map's runs
  end: one device transfer for the part of each run it meets.  What is written is
  read back, and nothing else of the file changes.
-/
import Vaxpunk.Ods.File
import Vaxpunk.Ods.Proof.Truncate

namespace Ods

open List Nat Op

variable {map rs : List Run} {vbn first stop len : ℕ}

/-! ## One device transfer per run -/

/-- The part of each run that the blocks `vbn` to `stop - 1` of the file meet, in
    order; `first` is the first block of the first run. -/
def stretches (vbn stop : ℕ) : ℕ → List Run → List Piece
  | _, [] => []
  | first, r :: rs =>
    if max vbn first < min stop (first + r.count) then
      ⟨r.lbn + (max vbn first - first), (max vbn first - vbn) * BLOCK,
        (min stop (first + r.count) - vbn) * BLOCK⟩ :: stretches vbn stop (first + r.count) rs
    else stretches vbn stop (first + r.count) rs

theorem stretches_eq_nil (vbn : ℕ) : ∀ {rs : List Run} {first : ℕ}, stop ≤ max vbn first →
    stretches vbn stop first rs = []
  | [], _, _ => rfl
  | r :: rs, first, h => by
    rw [stretches, if_neg (by omega)]
    exact stretches_eq_nil vbn (by omega)

theorem mapVbnFrom_skip : ∀ {pre : List Run} {first x : ℕ}, first + mapSize pre ≤ x →
    mapVbnFrom first (pre ++ rs) x = mapVbnFrom (first + mapSize pre) rs x
  | [], first, x, _ => by simp [mapSize]
  | r :: pre, first, x, h => by
    have hs : mapSize (r :: pre) = r.count + mapSize pre := by simp [mapSize]
    rw [hs] at h ⊢
    rw [cons_append, mapVbnFrom, if_neg (by omega), mapVbnFrom_skip (by omega), add_assoc]

theorem mapSize_cons (r : Run) (rs : List Run) : mapSize (r :: rs) = r.count + mapSize rs := by simp [mapSize]

theorem piecesFrom_step {pre : List Run} {r : Run} {fuel x : ℕ} (hmap : map = pre ++ r :: rs)
    (hlen : len = (stop - vbn) * BLOCK) (hx : 1 + mapSize pre ≤ x) (hr : x < 1 + mapSize pre + r.count)
    (hvx : vbn ≤ x) (hxs : x < stop) :
    piecesFrom map vbn len (fuel + 1) ((x - vbn) * BLOCK) =
      (piecesFrom map vbn len fuel ((min stop (1 + mapSize pre + r.count) - vbn) * BLOCK)).map
        (⟨r.lbn + (x - (1 + mapSize pre)), (x - vbn) * BLOCK,
          (min stop (1 + mapSize pre + r.count) - vbn) * BLOCK⟩ :: ·) := by
  have hB : BLOCK = 512 := rfl
  have hat : vbn + (x - vbn) * BLOCK / BLOCK = x := by rw [hB]; omega
  have hfind : mapVbn map x =
      some (r.lbn + (x - (1 + mapSize pre)), r.count - (x - (1 + mapSize pre))) := by
    rw [mapVbn, hmap, mapVbnFrom_skip hx, mapVbnFrom, if_pos hr, if_neg (by omega)]
  rw [piecesFrom, if_pos (by rw [hlen, hB]; omega), hat, hfind]
  have hend : (x - vbn) * BLOCK + min ((r.count - (x - (1 + mapSize pre))) * BLOCK) (len - (x - vbn) * BLOCK) =
      (min stop (1 + mapSize pre + r.count) - vbn) * BLOCK := by
    rw [hlen, hB]
    omega
  simp only [hend]

theorem piecesFrom_eq (hlen : len = (stop - vbn) * BLOCK) (hvs : vbn ≤ stop) :
    ∀ {rs pre : List Run} (fuel : ℕ), map = pre ++ rs → stop - max vbn (1 + mapSize pre) < fuel →
      piecesFrom map vbn len fuel ((min stop (max vbn (1 + mapSize pre)) - vbn) * BLOCK) =
        if stop ≤ max vbn (1 + mapSize map) then .ok (stretches vbn stop (1 + mapSize pre) rs)
        else .error .beyondEof := by
  have hB : BLOCK = 512 := rfl
  intro rs
  induction rs with
  | nil =>
    intro pre fuel hmap hfuel
    obtain ⟨fuel, rfl⟩ := exists_eq_succ_of_ne_zero (ne_of_gt (zero_lt_of_lt hfuel))
    rw [append_nil] at hmap
    subst hmap
    by_cases hend : stop ≤ max vbn (1 + mapSize map)
    · rw [if_pos hend, piecesFrom, if_neg (by rw [hlen, hB]; omega)]
      rfl
    · have hat : vbn + (min stop (max vbn (1 + mapSize map)) - vbn) * BLOCK / BLOCK =
          max vbn (1 + mapSize map) := by
        rw [hB]
        omega
      have hnone : mapVbn map (max vbn (1 + mapSize map)) = none := by
        rw [mapVbn, ← append_nil map, mapVbnFrom_skip (by rw [append_nil]; omega), mapVbnFrom]
      rw [if_neg hend, piecesFrom, if_pos (by rw [hlen, hB]; omega), hat, hnone]
  | cons r rs ih =>
    intro pre fuel hmap hfuel
    have hpre : map = (pre ++ [r]) ++ rs := by rw [hmap]; simp
    have hsize : mapSize (pre ++ [r]) = mapSize pre + r.count := by simp [mapSize]
    have hall : mapSize map = mapSize pre + r.count + mapSize rs := by simp [hmap, mapSize_cons, add_assoc]
    have hnext := fun fuel => ih fuel hpre
    simp only [hsize, ← add_assoc] at hnext
    by_cases hend : stop ≤ max vbn (1 + mapSize pre)
    · obtain ⟨fuel, rfl⟩ := exists_eq_succ_of_ne_zero (ne_of_gt (zero_lt_of_lt hfuel))
      rw [if_pos (by omega), stretches_eq_nil vbn hend, piecesFrom, if_neg (by rw [hlen, hB]; omega)]
    by_cases hr : max vbn (1 + mapSize pre) < 1 + mapSize pre + r.count
    · obtain ⟨fuel, rfl⟩ := exists_eq_succ_of_ne_zero (ne_of_gt (zero_lt_of_lt hfuel))
      have hmax : max vbn (1 + mapSize pre + r.count) = 1 + mapSize pre + r.count := by omega
      have hstart : min stop (max vbn (1 + mapSize pre)) = max vbn (1 + mapSize pre) := by omega
      rw [hstart, piecesFrom_step hmap hlen (by omega) hr (by omega) (by omega)]
      simp only [hmax] at hnext
      have hpart : max vbn (1 + mapSize pre) < min stop (1 + mapSize pre + r.count) := by omega
      rw [stretches, if_pos hpart, hnext fuel (by omega)]
      split_ifs <;> rfl
    · -- the run lies before the first block of the transfer
      have hmax : max vbn (1 + mapSize pre + r.count) = max vbn (1 + mapSize pre) := by omega
      simp only [hmax] at hnext
      have hpart : ¬max vbn (1 + mapSize pre) < min stop (1 + mapSize pre + r.count) := by omega
      rw [stretches, if_neg hpart, hnext fuel (by omega)]

/-- **A transfer is split into one device transfer per run it meets.** -/
theorem devicePieces_eq (map : List Run) {vbn : ℕ} (h0 : 0 < vbn) (n : ℕ) : devicePieces map vbn (n * BLOCK) =
    if vbn + n ≤ max vbn (1 + mapSize map) then .ok (stretches vbn (vbn + n) 1 map) else .error .beyondEof := by
  have hB : BLOCK = 512 := rfl
  have hn : n * BLOCK / BLOCK = n := by rw [hB]; omega
  rw [devicePieces, if_neg (by rw [hB]; omega), hn]
  have hloop := @piecesFrom_eq map vbn (vbn + n) (n * BLOCK) (by rw [Nat.add_sub_cancel_left])
    (Nat.le_add_right vbn n) map [] (n + 1) rfl (by omega)
  have hstart : (min (vbn + n) (max vbn (1 + mapSize [])) - vbn) * BLOCK = 0 := by
    rw [hB]
    simp only [mapSize, map_nil, sum_nil]
    omega
  rw [hstart] at hloop
  exact hloop

theorem Run.blocks_part (r : Run) (vbn stop first : ℕ) :
    (r.blocks.drop (vbn - first)).take (stop - max vbn first) =
      List.range' (r.lbn + (max vbn first - first)) (min stop (first + r.count) - max vbn first) := by
  have hstart : max vbn first - first = vbn - first := by omega
  obtain ⟨lbn, count⟩ := r
  rw [Run.drop_blocks, take_eq_take_min, Run.length_blocks, Run.take_blocks (min_le_right _ _), Run.blocks, hstart]
  congr 1
  dsimp only
  omega

theorem mapBlocks_part (r : Run) (rs : List Run) (vbn stop first : ℕ) :
    ((mapBlocks (r :: rs)).drop (vbn - first)).take (stop - max vbn first) =
      List.range' (r.lbn + (max vbn first - first)) (min stop (first + r.count) - max vbn first) ++
        ((mapBlocks rs).drop (vbn - (first + r.count))).take (stop - max vbn (first + r.count)) := by
  rw [mapBlocks_cons, drop_append, take_append, length_drop, Run.length_blocks, Run.blocks_part]
  congr 2
  · omega
  · congr 1
    omega

theorem lbns_stretches (vbn stop : ℕ) : ∀ (rs : List Run) (first : ℕ),
    (stretches vbn stop first rs).flatMap Piece.lbns =
      ((mapBlocks rs).drop (vbn - first)).take (stop - max vbn first)
  | [], first => by simp [stretches]
  | r :: rs, first => by
    have hB : BLOCK = 512 := rfl
    rw [mapBlocks_part, ← lbns_stretches vbn stop rs (first + r.count), stretches]
    split_ifs with hpart
    · rw [flatMap_cons, Piece.lbns]
      congr 2
      dsimp only
      rw [hB]
      omega
    · rw [show min stop (first + r.count) - max vbn first = 0 by omega]
      rfl

variable {lbns : List ℕ}

theorem pieces_ok : pieces map vbn len = .ok lbns ↔ len % BLOCK = 0 ∧ 0 < vbn ∧
    vbn + len / BLOCK ≤ max vbn (1 + mapSize map) ∧ lbns = ((mapBlocks map).drop (vbn - 1)).take (len / BLOCK) := by
  have hB : BLOCK = 512 := rfl
  by_cases hbad : len % BLOCK ≠ 0 ∨ vbn = 0
  · rw [pieces, devicePieces, if_pos hbad]
    refine ⟨fun h => (by cases h), fun h => ?_⟩
    exact (hbad.elim (fun hlen => hlen h.1) fun h0 => ne_of_gt h.2.1 h0).elim
  · obtain ⟨n, rfl⟩ : ∃ n, len = n * BLOCK := ⟨len / BLOCK, by rw [hB] at hbad ⊢; omega⟩
    have h0 : 0 < vbn := by omega
    have hblocks := lbns_stretches vbn (vbn + n) map 1
    rw [show vbn + n - max vbn 1 = n by omega] at hblocks
    rw [pieces, devicePieces_eq map h0, show n * BLOCK / BLOCK = n by rw [hB]; omega]
    split_ifs with hin
    · rw [Except.map, hblocks, Except.ok.injEq]
      exact ⟨fun h => ⟨mul_mod_left _ _, h0, hin, h.symm⟩, fun h => h.2.2.2.symm⟩
    · exact ⟨fun h => (by cases h), fun h => absurd h.2.2.1 hin⟩

/-! ## The blocks of a buffer -/

section buffer
variable {buf : List UInt8}

@[simp] theorem length_blocksOf (buf : List UInt8) : (blocksOf buf).length = buf.length / BLOCK := by simp [blocksOf]

theorem bytes_blocksOf (h : buf.length % BLOCK = 0) : (blocksOf buf).flatMap (Field.bytes · 0 BLOCK) = buf := by
  have hB : BLOCK = 512 := rfl
  have hcut : ∀ n, n * BLOCK ≤ buf.length →
      (((range n).map fun i => BitVec.ofNat 4096 (Field.ofBytes ((buf.drop (i * BLOCK)).take BLOCK))).flatMap
        (Field.bytes · 0 BLOCK)) = buf.take (n * BLOCK) := by
    intro n
    induction n with
    | zero => simp
    | succ n ih =>
      intro hn
      have hpart : ((buf.drop (n * BLOCK)).take BLOCK).length = BLOCK := by
        rw [hB] at hn ⊢
        rw [length_take, length_drop]
        omega
      have hle : n * BLOCK ≤ buf.length := (mul_le_mul_right _ (le_succ n)).trans hn
      have hbytes := @Field.bytes_ofBytes BLOCK ((buf.drop (n * BLOCK)).take BLOCK) hpart.le
      rw [hpart, Nat.sub_self, replicate_zero, append_nil] at hbytes
      rw [range_succ, map_append, flatMap_append, ih hle, succ_mul,
        take_add, map_singleton, flatMap_singleton]
      exact congrArg _ hbytes
  rw [blocksOf, hcut _ (Nat.div_mul_le_self _ _), Nat.div_mul_cancel (Nat.dvd_of_mod_eq_zero h), take_length]

theorem blocksOf_slice {a k : ℕ} (h : (a + k) * BLOCK ≤ buf.length) :
    blocksOf ((buf.drop (a * BLOCK)).take (k * BLOCK)) = ((blocksOf buf).drop a).take k := by
  have hB : BLOCK = 512 := rfl
  have hlen : ((buf.drop (a * BLOCK)).take (k * BLOCK)).length / BLOCK = k := by
    rw [hB] at h ⊢
    rw [length_take, length_drop]
    omega
  refine ext_getElem? fun i => ?_
  rcases lt_or_ge i k with hi | hi
  · have hai : a + i < buf.length / BLOCK := by rw [hB] at h ⊢; omega
    have hmin : min BLOCK (k * BLOCK - i * BLOCK) = BLOCK := by rw [hB]; omega
    rw [getElem?_take_of_lt hi, getElem?_drop, blocksOf, blocksOf, getElem?_map, getElem?_map,
      hlen, getElem?_range hi, getElem?_range hai, Option.map_some, Option.map_some, drop_take,
      drop_drop, take_take, hmin, add_mul]
  · rw [getElem?_eq_none (by rw [length_blocksOf, hlen]; exact hi),
      getElem?_eq_none (by rw [length_take]; omega)]

/-- The block writes of a device transfer. -/
def Piece.writes (buf : List UInt8) (p : Piece) : List Write :=
  p.lbns.zip (blocksOf ((buf.drop p.start).take (p.stop - p.start)))

theorem writes_stretches (hlen : buf.length = (stop - vbn) * BLOCK) (hvs : vbn ≤ stop) :
    ∀ (rs : List Run) (first : ℕ), (stretches vbn stop first rs).flatMap (Piece.writes buf) =
      (((mapBlocks rs).drop (vbn - first)).take (stop - max vbn first)).zip
        ((blocksOf buf).drop (max vbn first - vbn))
  | [], first => by simp [stretches]
  | r :: rs, first => by
    have hB : BLOCK = 512 := rfl
    have hblocks : (blocksOf buf).length = stop - vbn := by rw [length_blocksOf, hlen, hB]; omega
    -- what is left of the buffer after this run
    have hrest : (((mapBlocks rs).drop (vbn - (first + r.count))).take (stop - max vbn (first + r.count))).zip
          ((blocksOf buf).drop (max vbn first - vbn + (min stop (first + r.count) - max vbn first))) =
        (stretches vbn stop (first + r.count) rs).flatMap (Piece.writes buf) := by
      rw [writes_stretches hlen hvs rs (first + r.count)]
      rcases lt_or_ge (max vbn (first + r.count)) stop with hlt | hge
      · congr 2
        omega
      · simp [Nat.sub_eq_zero_of_le hge]
    rw [mapBlocks_part, stretches, ← take_append_drop (min stop (first + r.count) - max vbn first)
      ((blocksOf buf).drop (max vbn first - vbn)), drop_drop, zip_append, hrest]
    · split_ifs with hpart
      · rw [flatMap_cons, Piece.writes, ← blocksOf_slice (by rw [hlen, hB]; omega), Piece.lbns]
        dsimp only
        have hn : (min stop (first + r.count) - vbn) * BLOCK - (max vbn first - vbn) * BLOCK =
            (min stop (first + r.count) - max vbn first) * BLOCK := by
          rw [hB]
          omega
        rw [hn, show (min stop (first + r.count) - max vbn first) * BLOCK / BLOCK =
          min stop (first + r.count) - max vbn first by rw [hB]; omega]
      · rw [show min stop (first + r.count) - max vbn first = 0 by omega]
        rfl
    · rw [length_range', length_take, length_drop, hblocks]
      omega

end buffer

/-! ## Reading and writing -/

theorem Disk.apply_zip {ls : List ℕ} (hn : ls.Nodup) : ∀ (d : Disk) {bs : List Block}, ls.length = bs.length →
    (∀ (i : ℕ) l b, ls[i]? = some l → bs[i]? = some b → d.apply (ls.zip bs) l = b) ∧
      ∀ l ∉ ls, d.apply (ls.zip bs) l = d l := by
  induction ls with
  | nil => exact fun d bs _ => ⟨by simp, fun _ _ => rfl⟩
  | cons l ls ih =>
    intro d bs hlen
    obtain ⟨b, bs, rfl⟩ := exists_cons_of_length_eq_add_one hlen.symm
    obtain ⟨hl, hn⟩ := nodup_cons.1 hn
    obtain ⟨hin, hout⟩ := @ih hn (d.write (l, b)) bs (succ.inj hlen)
    have hstep : d.apply ((l :: ls).zip (b :: bs)) = (d.write (l, b)).apply (ls.zip bs) := rfl
    rw [hstep]
    constructor
    · intro i l' b' hl' hb'
      cases i with
      | zero =>
        obtain rfl : l = l' := Option.some.inj hl'
        obtain rfl : b = b' := Option.some.inj hb'
        rw [hout l hl, Geom.write_same]
      | succ i => exact hin i l' b' hl' hb'
    · intro l' hl'
      rw [hout l' fun h => hl' (mem_cons_of_mem _ h),
        Geom.write_other (l := l) fun h : l' = l => hl' (h ▸ mem_cons_self)]

/-- The volume with other contents. -/
def Volume.put (v : Volume) (d : Disk) : Volume := { v with dev := { v.dev with blocks := d } }

theorem Volume.same_put (v : Volume) (d : Disk) : v.Same (v.put d) := ⟨rfl, rfl, rfl, rfl, rfl⟩

namespace Op
variable {v : Volume}

theorem devWrite_run (hf : v.dev.fault = none) (l : ℕ) (b : Block) :
    devWrite l b v = ⟨.ok (), v.put (v.dev.blocks.write (l, b)), [(l, b)]⟩ := by
  simp only [devWrite, hf, Volume.put]

theorem each_devWrite (ws : List Write) : ∀ {v : Volume}, v.dev.fault = none →
    Prog.each (fun w : ℕ × Block => devWrite w.1 w.2) ws v = ⟨.ok (), v.put (v.dev.blocks.apply ws), ws⟩ := by
  induction ws with
  | nil => exact fun _ => rfl
  | cons w ws ih =>
    intro v hf
    refine (Prog.bind_run (devWrite_run hf w.1 w.2)).trans ?_
    rw [@ih (v.put (v.dev.blocks.write (w.1, w.2))) hf]
    rfl

theorem writeHeader_run {l : ℕ} {h : Header} (hw : v.writable = true) (hf : v.dev.fault = none) (hl : l < v.dev.count)
    (hi : h.updateChecksum.fid ≠ INDEXF) : writeHeader l h v =
      ⟨.ok (), v.put (v.dev.blocks.write (l, h.updateChecksum.raw)), [(l, h.updateChecksum.raw)]⟩ := by
  have hone : writeBlock l h.updateChecksum.raw v =
      ⟨.ok (), v.put (v.dev.blocks.write (l, h.updateChecksum.raw)), [(l, h.updateChecksum.raw)]⟩ := by
    rw [← devWrite_run hf, writeBlock, Prog.state_run, if_neg (not_not.2 hw), if_neg (not_le.2 hl)]
  have hno : ¬(h.updateChecksum.fid = INDEXF ∧ h.updateChecksum.segNum = 0) := fun h => hi h.1
  refine (Prog.bind_run hone).trans ?_
  rw [Prog.state_run, Prog.when, if_neg hno]
  rfl

theorem result_fileMap {f : Fid} {hs : List (ℕ × Header)} {map : List Run} (hh : (headers f v).result = .ok hs)
    (hm : (runsOf hs v).result = .ok map) : (fileMap f v).result = .ok map :=
  (looks_headers f).bind_ok.2 ⟨hs, hh, hm⟩

theorem looks_devRead (l : ℕ) : Looks (devRead l) := Prog.Looks.gets _

theorem collect_devRead (v : Volume) (ls : List ℕ) :
    (Prog.collect devRead ls v).result = .ok (ls.map v.dev.blocks) := by
  refine (Prog.Looks.collect_ok looks_devRead).2 ?_
  rw [forall₂_map_right_iff]
  exact forall₂_same.2 fun _ _ => rfl

theorem result_readBlocks {f : Fid} {map : List Run} (hm : (fileMap f v).result = .ok map) (vbn len : ℕ) :
    (readBlocks f vbn len v).result = (pieces map vbn len).map (List.map v.dev.blocks) := by
  rw [readBlocks, (looks_fileMap f).run hm]
  cases hp : pieces map vbn len with
  | error e => rfl
  | ok ls => exact collect_devRead v ls

theorem raised {f : Fid} {p : ℕ × Header} {xs : List (ℕ × Header)} (hr : v.Reads f p xs) (hw : v.writable = true)
    (hf : v.dev.fault = none) (hi : p.2.fid ≠ INDEXF) (mark : ℕ) :
    ∃ p' d ws, (Prog.when (p.2.highwaterMark.any (· < mark)) (writeHeader p.1 (p.2.setHighwater mark))) v =
        ⟨.ok (), v.put d, ws⟩ ∧ p.2.Like p' ∧ p'.invalid = none ∧ d p.1 = p'.raw ∧
      (∀ l, l ≠ p.1 → d l = v.dev.blocks l) ∧ ws.length ≤ 1 ∧ ∀ w ∈ ws, w.1 = p.1 := by
  have hsound := Header.sound_of_valid hr.first.valid
  by_cases hlow : p.2.highwaterMark.any (· < mark) = true
  · have hlike := Header.like_setHighwater hsound (v := mark) (Header.highwaterMark_any hlow)
    have hnew := hlike.trans (Header.like_updateChecksum _)
    refine ⟨_, _, [(p.1, (p.2.setHighwater mark).updateChecksum.raw)], ?_, hnew,
      Header.invalid_updateChecksum (hsound.of_like hlike), Geom.write_same _ _ _,
      fun l hl => Geom.write_other hl, le_rfl, by simp⟩
    rw [Prog.when, if_pos hlow]
    exact writeHeader_run hw hf hr.first.within (by rw [hnew.fid]; exact hi)
  · refine ⟨p.2, v.dev.blocks, [], ?_, .refl _, hr.first.valid, ?_, fun _ _ => rfl, by simp, by simp⟩
    · rw [Prog.when, if_neg hlow]
      rfl
    · rw [hr.first.block]

end Op

/-- A file other than INDEXF.SYS, none of whose headers is in a block of its own. -/
structure Volume.Apart (v : Volume) (f : Fid) (hs : List (ℕ × Header)) (map : List Run) : Prop where
  headers : (headers f v).result = .ok hs
  runs : (runsOf hs v).result = .ok map
  nodup : (mapBlocks map).Nodup
  outside : ∀ x ∈ hs, x.1 ∉ mapBlocks map
  notIndex : ∀ x ∈ hs, x.2.fid ≠ INDEXF

section transfer
variable {v : Volume} {f : Fid} {hs : List (ℕ × Header)} {buf : List UInt8}

theorem Volume.Apart.mapSize_le (ha : v.Apart f hs map) : mapSize map ≤ 2 ^ 33 := by
  obtain ⟨hok, hmap⟩ := runsOf_eq.1 ha.runs
  have hlt : mapBlocks map ⊆ range (2 ^ 33) := by
    intro l hl
    obtain ⟨r, hr, -, hlr⟩ := mem_mapBlocks.1 hl
    rw [hmap] at hr
    obtain ⟨x, hx, hr⟩ := mem_flatMap.1 hr
    obtain ⟨ps, hps⟩ := (hok x hx).decodes
    rw [Header.runs, Header.ptrs_eq hps] at hr
    obtain ⟨q, hq, hqr⟩ := mem_filterMap.1 hr
    cases q with
    | placement w => cases hqr
    | extent format count lbn =>
      obtain ⟨-, hc, hl'⟩ := (fits_decodeMap hps _ hq).bounds
      cases hqr
      rw [mem_range]
      dsimp only at hlr
      omega
  rw [← length_mapBlocks]
  exact (ha.nodup.subperm hlt).length_le.trans_eq length_range

theorem length_pieces (hp : pieces map vbn buf.length = .ok lbns)
    (hin : vbn + buf.length / BLOCK ≤ 1 + mapSize map) : lbns.length = (blocksOf buf).length := by
  obtain ⟨-, h0, -, hlbns⟩ := pieces_ok.1 hp
  have hsize := length_mapBlocks map
  rw [hlbns, length_take, length_drop, length_blocksOf]
  omega

theorem Volume.Apart.write (ha : v.Apart f hs map) (hw : v.writable = true) (hf : v.dev.fault = none)
    (hp : pieces map vbn buf.length = .ok lbns) (hin : vbn + buf.length / BLOCK ≤ 1 + mapSize map) :
    ∃ v' ws, writeBlocks f vbn buf v = ⟨.ok (), v', lbns.zip (blocksOf buf) ++ ws⟩ ∧
      (fileMap f v').result = .ok map ∧
      (∀ l ∈ mapBlocks map, v'.dev.blocks l = v.dev.blocks.apply (lbns.zip (blocksOf buf)) l) ∧
      ws.length ≤ 1 ∧ ∀ w ∈ ws, ∀ p ∈ hs.head?, w.1 = p.1 := by
  obtain ⟨p, xs, rfl, hr⟩ := headers_iff.1 ha.headers
  obtain ⟨hok, hmap⟩ := runsOf_eq.1 ha.runs
  obtain ⟨-, h0, -, hlbns⟩ := pieces_ok.1 hp
  have hsub : ∀ l ∈ lbns, l ∈ mapBlocks map := fun l hl =>
    mem_of_mem_drop (mem_of_mem_take (hlbns ▸ hl))
  have hnodup : lbns.Nodup := hlbns ▸ (ha.nodup.sublist (drop_sublist _ _)).sublist (take_sublist _ _)
  have hcount := length_pieces hp hin
  obtain ⟨-, hout⟩ := Disk.apply_zip hnodup v.dev.blocks hcount
  -- the blocks of the transfer are written, the headers are as they were
  let v₁ := v.put (v.dev.blocks.apply (lbns.zip (blocksOf buf)))
  have hr₁ : v₁.Reads f p xs := hr.congr (v.same_put _).later fun x hx => hout _ fun hl => ha.outside x hx (hsub _ hl)
  obtain ⟨p', d, ws, hrun, hlike, hvalid, hd, hkeep, hws⟩ :=
    raised hr₁ hw hf (ha.notIndex p (by simp)) (vbn + buf.length / BLOCK + 1)
  have hslot : v.headerLbn f.num = some p.1 := hr.first.slot
  have hbound : ¬vbn + buf.length / BLOCK + 1 ≥ 2 ^ 64 := by
    have := ha.mapSize_le
    omega
  refine ⟨v₁.put d, ws, ?_, ?_, ?_, hws.1, ?_⟩
  · rw [writeBlocks, Prog.state_run, if_neg (not_not.2 hw),
      (looks_fileMap f).run (result_fileMap ha.headers ha.runs), hp]
    refine (Prog.bind_run (rfl : ofExcept (.ok lbns) v = ⟨.ok lbns, v, []⟩)).trans ?_
    rw [Prog.bind_run (each_devWrite _ hf),
      (looks_readHeader f).run (readHeader_iff.2 ⟨hr.rvn, ⟨_, hr₁.first⟩, hr.primary⟩),
      if_neg hbound, hslot, Option.getD_some, hrun]
    rfl
  · have hv : v₁.Later (v₁.put d) := (v₁.same_put d).later
    have hxs : ∀ x ∈ xs, x.1 ≠ p.1 := fun x hx heq =>
      (nodup_cons.1 hr.nodup).1 (heq ▸ mem_map_of_mem hx)
    have hfirst : (v₁.put d).Holds f p.1 p' := hr₁.first.replace hv hd hvalid hlike.fid
    have hchain : (v₁.put d).Chain p' xs :=
      (hr₁.chain.congr hv fun x hx => hkeep x.1 (hxs x hx)).of_head hlike.extFid hlike.segNum
    refine result_fileMap
      (headers_iff.2 ⟨(p.1, p'), xs, rfl, hr.rvn, hfirst, hlike.segNum.trans hr.primary, hchain⟩) ?_
    refine Volume.Kin.runsOf (v.same_put d).kin (runsOf_eq.2 ⟨?_, ?_⟩)
    · obtain ⟨hokp, hokxs⟩ := forall_mem_cons.1 hok
      exact forall_mem_cons.2 ⟨hokp.of_like hlike, hokxs⟩
    · rw [hmap, flatMap_cons, flatMap_cons, hlike.runs]
  · intro l hl
    exact hkeep l fun h => ha.outside p (by simp) (h ▸ hl)
  · intro w hw' q hq
    cases hq
    exact hws.2 w hw'

/-- Blocks read from `x` on, with the blocks written at `vbn` in their places. -/
def overlay (vbn : ℕ) (new : List Block) (x : ℕ) (old : List Block) : List Block :=
  old.mapIdx fun i b => if vbn ≤ x + i then new[x + i - vbn]?.getD b else b

theorem apply_transfer {d : Disk} (hn : (mapBlocks map).Nodup) {new : List Block}
    (h0 : 0 < vbn) (hlbns : lbns = ((mapBlocks map).drop (vbn - 1)).take new.length)
    (hlen : lbns.length = new.length) {x l : ℕ} (hx : 0 < x) (hl : (mapBlocks map)[x - 1]? = some l) :
    d.apply (lbns.zip new) l = if vbn ≤ x then new[x - vbn]?.getD (d l) else d l := by
  have hnodup : lbns.Nodup := hlbns ▸ (hn.sublist (drop_sublist _ _)).sublist (take_sublist _ _)
  obtain ⟨hin, hout⟩ := Disk.apply_zip hnodup d hlen
  by_cases hmem : vbn ≤ x ∧ x - vbn < new.length
  · have hat : lbns[x - vbn]? = some l := by
      rw [hlbns, getElem?_take_of_lt hmem.2, getElem?_drop, ← hl]
      congr 1
      omega
    rw [if_pos hmem.1, getElem?_eq_getElem hmem.2, Option.getD_some]
    exact hin _ l _ hat (getElem?_eq_getElem hmem.2)
  · have hnot : l ∉ lbns := by
      intro hl'
      obtain ⟨i, hi⟩ := mem_iff_getElem?.1 hl'
      have hlt : i < new.length := hlen ▸ (List.getElem?_eq_some_iff.1 hi).1
      rw [hlbns, getElem?_take_of_lt hlt, getElem?_drop] at hi
      have hvbn : mapLbn map (vbn + i) = some l :=
        mapLbn_eq_some.2 ⟨by omega, by rwa [show vbn + i - 1 = vbn - 1 + i by omega]⟩
      have := mapLbn_inj hn hvbn (mapLbn_eq_some.2 ⟨ne_of_gt hx, hl⟩)
      omega
    rw [hout l hnot]
    split_ifs with hle
    · rw [getElem?_eq_none (by omega), Option.getD_none]
    · rfl

/-- **What is written is read back**, and the rest of the file is as it was: on a
    device without a fault, and with one device transfer per run. -/
theorem writeBlocks_readBlocks (ha : v.Apart f hs map) (hw : v.writable = true) (hf : v.dev.fault = none) {vbn : ℕ}
    (h0 : 0 < vbn) (buf : List UInt8) (hlen : buf.length % BLOCK = 0)
    (hin : vbn + buf.length / BLOCK ≤ 1 + mapSize map) :
    (writeBlocks f vbn buf v).result = .ok () ∧
    (∀ x n, (readBlocks f x n (writeBlocks f vbn buf v).state).result =
      (readBlocks f x n v).result.map (overlay vbn (blocksOf buf) x)) ∧
    (blocksOf buf).flatMap (Field.bytes · 0 BLOCK) = buf ∧
    (∀ x n, 0 < x → x + n ≤ 1 + mapSize map →
      devicePieces map x (n * BLOCK) = .ok (stretches x (x + n) 1 map)) ∧
    ∃ ws, (writeBlocks f vbn buf v).writes =
        (stretches vbn (vbn + buf.length / BLOCK) 1 map).flatMap (Piece.writes buf) ++ ws ∧
      ws.length ≤ 1 ∧ ∀ w ∈ ws, ∀ p ∈ hs.head?, w.1 = p.1 := by
  have hmap := result_fileMap ha.headers ha.runs
  obtain ⟨lbns, hp⟩ : ∃ lbns, pieces map vbn buf.length = .ok lbns :=
    ⟨_, pieces_ok.2 ⟨hlen, h0, by omega, rfl⟩⟩
  obtain ⟨v', ws, hrun, hmap', hblocks, hws⟩ := ha.write hw hf hp hin
  obtain ⟨-, -, -, hlbns⟩ := pieces_ok.1 hp
  have hcount := length_pieces hp hin
  rw [hrun]
  refine ⟨rfl, fun x n => ?_, bytes_blocksOf hlen, fun x n hx hn => ?_, ws, ?_, hws⟩
  · rw [result_readBlocks hmap, result_readBlocks hmap']
    cases hq : pieces map x n with
    | error e => rfl
    | ok ls =>
      obtain ⟨-, hx, -, hls⟩ := pieces_ok.1 hq
      refine congrArg Except.ok (ext_getElem? fun i => ?_)
      rw [overlay, getElem?_mapIdx, getElem?_map, getElem?_map]
      cases hi : ls[i]? with
      | none => rfl
      | some l =>
        have hl : (mapBlocks map)[x + i - 1]? = some l := by
          rw [hls] at hi
          rw [List.getElem?_take_of_lt ((List.getElem?_eq_some_iff.1 hi).1.trans_le (length_take_le _ _)),
            getElem?_drop] at hi
          rwa [show x + i - 1 = x - 1 + i by omega]
        simp only [Option.map_some]
        rw [hblocks l (mem_of_getElem? hl), apply_transfer ha.nodup h0 (by rw [length_blocksOf]; exact hlbns) hcount
          (by omega) hl]
  · rw [devicePieces_eq map hx, if_pos (by omega)]
  · have hwhole : buf.length = (vbn + buf.length / BLOCK - vbn) * BLOCK := by
      rw [Nat.add_sub_cancel_left, Nat.div_mul_cancel (Nat.dvd_of_mod_eq_zero hlen)]
    rw [writes_stretches hwhole (Nat.le_add_right _ _), max_eq_left (Nat.succ_le_of_lt h0), Nat.sub_self,
      drop_zero, Nat.add_sub_cancel_left, hlbns]

theorem smallFiles_apart : smallFiles.Apart sampleFid [(10, sampleHeader sampleFid [⟨44, 4⟩])] [⟨44, 4⟩] where
  headers := smallFiles_file.headers
  runs := smallFiles_file.map
  nodup := by decide
  outside := by decide
  notIndex := by decide +kernel

/-- The second of four blocks. -/
theorem writeBlocks_readBlocks_small :
    (writeBlocks sampleFid 2 (List.replicate 512 7) smallFiles).result = .ok () ∧
    (readBlocks sampleFid 1 2048 (writeBlocks sampleFid 2 (List.replicate 512 7) smallFiles).state).result =
      (readBlocks sampleFid 1 2048 smallFiles).result.map (overlay 2 (blocksOf (List.replicate 512 7)) 1) :=
  have h := writeBlocks_readBlocks smallFiles_apart rfl rfl zero_lt_two (replicate 512 7)
    (by rw [length_replicate]; rfl) (by rw [length_replicate]; decide)
  ⟨h.1, h.2.1 1 2048⟩

/-- INDEXF.SYS holds its own header, in which the highwater mark is raised: a
    block that was not written changes. -/
theorem writeBlocks_index : (fileMap INDEXF smallFiles).result = .ok [⟨0, 22⟩] ∧
    (writeBlocks INDEXF 22 (List.replicate 512 0) smallFiles).result = .ok () ∧
    (readBlocks INDEXF 6 512 (writeBlocks INDEXF 22 (List.replicate 512 0) smallFiles).state).result ≠
      (readBlocks INDEXF 6 512 smallFiles).result.map (overlay 22 (blocksOf (List.replicate 512 0)) 6) := by
  refine ⟨?_, ?_, ?_⟩ <;> decide +kernel

end transfer

end Ods
