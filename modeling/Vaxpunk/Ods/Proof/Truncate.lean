/-
  Cutting a file short: the pointers kept and the runs freed, the headers
  rewritten and deleted, and the clusters given back.
-/
import Vaxpunk.Ods.Proof.NewHeader
import Vaxpunk.Ods.Proof.Sites
import Vaxpunk.Ods.File

namespace Ods

open List Header Op Pointer

/-! ## Cutting pointers -/

theorem Pointer.size_extent?_le {format count lbn left : ℕ} {p : Pointer}
    (hf : (extent format count lbn).Fits) (hl : left ≤ count)
    (hp : extent? left lbn = some p) : p.size ≤ (extent format count lbn).size := by
  simp only [extent?] at hp
  rcases hf.cases with ⟨-, ⟨rfl, hc, hb⟩ | ⟨rfl, hc, -⟩ | ⟨rfl, -, -⟩⟩
  · rw [if_pos ⟨by by_contra h; simp [show left = 0 by omega] at hp, by omega, by omega⟩] at hp
    cases hp
    exact le_rfl
  · split_ifs at hp
    · cases hp; simp [size]
    · cases hp; simp [size]
    · omega
  · split_ifs at hp <;> cases hp <;> simp [size]

/-- What pointers cut after `left` blocks come to. -/
structure CutSpec (left : ℕ) (ps kept : List Pointer) (freed : List Run) : Prop where
  fits : ∀ p ∈ kept, p.Fits
  size : encoded kept ≤ encoded ps
  keeps : mapBlocks (ptrRuns kept) = (mapBlocks (ptrRuns ps)).take left
  frees : mapBlocks freed = (mapBlocks (ptrRuns ps)).drop left
  starts : ∀ r ∈ ptrRuns kept, ∃ s ∈ ptrRuns ps, r.lbn = s.lbn ∧ r.count ≤ s.count

theorem ptrRuns_extent (format count lbn : ℕ) (ps : List Pointer) :
    ptrRuns (.extent format count lbn :: ps) = ⟨lbn, count⟩ :: ptrRuns ps := rfl

theorem cutPointers_spec : ∀ (left : ℕ) {ps : List Pointer}, (∀ p ∈ ps, p.Fits) →
    CutSpec left ps (cutPointers left ps).1 (cutPointers left ps).2
  | left, [], _ => ⟨by simp [cutPointers], le_rfl, by simp [cutPointers, ptrRuns],
      by simp [cutPointers, ptrRuns], by simp [cutPointers, ptrRuns]⟩
  | left, .placement w :: ps, h => by
    obtain ⟨hw, hps⟩ := forall_mem_cons.1 h
    obtain ⟨h1, h2, h3, h4, h5⟩ := cutPointers_spec left hps
    refine ⟨forall_mem_cons.2 ⟨hw, h1⟩, ?_, h3, h4, h5⟩
    simpa [cutPointers, encoded] using h2
  | left, .extent format count lbn :: ps, h => by
    obtain ⟨hf, hps⟩ := forall_mem_cons.1 h
    obtain ⟨-, hmax, hlbn⟩ := hf.bounds
    simp only [cutPointers]
    split_ifs with hlt h0
    · -- the cut is in this pointer: its first blocks stay
      obtain ⟨h1, h2, h3, h4, h5⟩ := cutPointers_spec 0 hps
      obtain ⟨p, hp⟩ : ∃ p, extent? left lbn = some p := extent?_isSome (by omega) (by omega)
      obtain ⟨hpf, format', rfl⟩ := fits_extent? hp hlbn
      have hsize := size_extent?_le hf hlt.le hp
      rw [Nat.mod_eq_of_lt (by omega), hp, Option.getD_some]
      refine ⟨forall_mem_cons.2 ⟨hpf, h1⟩, ?_, ?_, ?_, ?_⟩
      · simp only [encoded, map_cons, sum_cons] at h2 hsize ⊢
        omega
      · rw [ptrRuns_extent, ptrRuns_extent, mapBlocks_cons, mapBlocks_cons, h3, take_zero, append_nil,
          take_append_of_le_length (by simpa using hlt.le)]
        exact (Run.take_blocks hlt.le).symm
      · rw [ptrRuns_extent, mapBlocks_cons, mapBlocks_cons, h4, drop_zero,
          drop_append_of_le_length (by simpa using hlt.le)]
        rw [Run.drop_blocks]
      · rw [ptrRuns_extent]
        refine forall_mem_cons.2 ⟨⟨_, mem_cons_self, rfl, hlt.le⟩, fun r hr => ?_⟩
        obtain ⟨s, hs, hrs⟩ := h5 r hr
        exact ⟨s, mem_cons_of_mem _ hs, hrs⟩
    · -- the cut is before it
      obtain ⟨h1, h2, h3, h4, h5⟩ := cutPointers_spec 0 hps
      obtain rfl : left = 0 := by omega
      refine ⟨h1, ?_, ?_, ?_, fun r hr => ?_⟩
      · simp only [encoded, map_cons, sum_cons] at h2 ⊢
        omega
      · simpa using h3
      · rw [mapBlocks_cons, h4]
        simp [ptrRuns_extent]
      · obtain ⟨s, hs, hrs⟩ := h5 r hr
        exact ⟨s, mem_cons_of_mem _ hs, hrs⟩
    · -- the cut is after it
      obtain ⟨h1, h2, h3, h4, h5⟩ := cutPointers_spec (left - count) hps
      refine ⟨forall_mem_cons.2 ⟨hf, h1⟩, ?_, ?_, ?_, ?_⟩
      · simp only [encoded, map_cons, sum_cons] at h2 ⊢
        omega
      · rw [ptrRuns_extent, ptrRuns_extent, mapBlocks_cons, mapBlocks_cons, h3, take_append,
          take_of_length_le (l := Run.blocks _) (by simpa using hlt), Run.length_blocks]
      · rw [ptrRuns_extent, mapBlocks_cons, h4, drop_append,
          drop_of_length_le (l := Run.blocks _) (by simpa using hlt), Run.length_blocks, nil_append]
      · rw [ptrRuns_extent]
        refine forall_mem_cons.2 ⟨⟨_, mem_cons_self, rfl, le_rfl⟩, fun r hr => ?_⟩
        obtain ⟨s, hs, hrs⟩ := h5 r hr
        exact ⟨s, mem_cons_of_mem _ hs, hrs⟩

theorem sum_extentBlocks : ∀ ps : List Pointer, (ps.map extentBlocks).sum = mapSize (ptrRuns ps)
  | [] => rfl
  | .placement w :: ps => by
    rw [map_cons, sum_cons, sum_extentBlocks ps]
    simp [extentBlocks, ptrRuns, filterMap_cons, run?]
  | .extent format count lbn :: ps => by
    rw [map_cons, sum_cons, sum_extentBlocks ps, ptrRuns_extent]
    rfl

abbrev headersMap (hs : List (ℕ × Header)) : List Run := hs.flatMap fun x => x.2.runs

theorem findCut_spec (keep : ℕ) : ∀ {hs : List (ℕ × Header)} (before : List (ℕ × Header)) (vbn : ℕ),
    (∀ x ∈ hs, ∃ ps, decodeMap x.2.mapArea = .ok ps) → vbn ≤ keep →
    findCut keep vbn before hs = .ok none ∧ vbn + mapSize (headersMap hs) ≤ keep ∨
    ∃ hs₁ x hs₂, hs = hs₁ ++ x :: hs₂ ∧ vbn + mapSize (headersMap hs₁) ≤ keep ∧
      keep < vbn + mapSize (headersMap hs₁) + mapSize x.2.runs ∧
      findCut keep vbn before hs =
        .ok (some ⟨before ++ hs₁, x, x.2.ptrs, keep - (vbn + mapSize (headersMap hs₁)), hs₂⟩)
  | [], _, vbn, _, hle => .inl ⟨rfl, by simpa [mapSize] using hle⟩
  | (lbn, h) :: hs, before, vbn, hd, hle => by
    obtain ⟨⟨ps, hps⟩, hd⟩ := forall_mem_cons.1 hd
    have hptrs : h.ptrs = ps := ptrs_eq hps
    have hsize : (ps.map extentBlocks).sum = mapSize h.runs := by
      rw [sum_extentBlocks, Header.runs, hptrs]
    simp only [findCut, hps, hsize]
    split_ifs with hgt
    · exact .inr ⟨[], (lbn, h), hs, rfl, by simpa [mapSize] using hle, by simpa [mapSize] using hgt,
        by simp [mapSize, hptrs]⟩
    · rcases findCut_spec keep (before ++ [(lbn, h)]) (vbn + mapSize h.runs) hd (by omega) with
        ⟨hnone, hall⟩ | ⟨hs₁, x, hs₂, rfl, h1, h2, h3⟩
      · refine .inl ⟨hnone, ?_⟩
        simp only [headersMap, flatMap_cons, mapSize_append] at hall ⊢
        omega
      · have hsum : mapSize (headersMap ((lbn, h) :: hs₁)) = mapSize h.runs + mapSize (headersMap hs₁) := by
          simp only [headersMap, flatMap_cons, mapSize_append]
        refine .inr ⟨(lbn, h) :: hs₁, x, hs₂, rfl, by omega, by omega, ?_⟩
        rw [h3, hsum, ← Nat.add_assoc, append_assoc]
        rfl

/-! ## The headers written -/

/-- The end of file of a header is past the first `keep` blocks. -/
def Header.PastEnd (h : Header) (keep : ℕ) : Prop :=
  h.recordAttrs.efblk > keep + 1 ∨ h.recordAttrs.efblk = keep + 1 ∧ h.recordAttrs.ffbyte ≠ 0

instance (h : Header) (keep : ℕ) : Decidable (h.PastEnd keep) := inferInstanceAs (Decidable (_ ∨ _))

/-- `h'` is `h` with its sizes lowered to `keep` blocks. -/
structure Header.Lowered (h : Header) (keep : ℕ) (h' : Header) : Prop where
  hiblk : h'.recordAttrs.hiblk = keep
  efblk : h'.recordAttrs.efblk = if h.PastEnd keep then keep + 1 else h.recordAttrs.efblk
  ffbyte : h'.recordAttrs.ffbyte = if h.PastEnd keep then 0 else h.recordAttrs.ffbyte
  highwater : h'.highwaterMark = h.highwaterMark.map (min (keep + 1))

namespace Header

variable {h : Header} {keep : ℕ}

/-- The record attributes `shrinkAttrs` stores. -/
def shrunk (h : Header) (keep : ℕ) : RecordAttrs :=
  if h.PastEnd keep then { h.recordAttrs with hiblk := keep, efblk := keep + 1, ffbyte := 0 }
  else { h.recordAttrs with hiblk := keep }

theorem shrinkAttrs_eq (h : Header) (keep : ℕ) : shrinkAttrs h keep =
    if (h.setRecordAttrs (h.shrunk keep)).highwaterMark.any (· > keep + 1) then
      (h.setRecordAttrs (h.shrunk keep)).setHighwater (keep + 1)
    else h.setRecordAttrs (h.shrunk keep) := rfl

theorem like_shrinkAttrs (hs : h.Sound) (keep : ℕ) : Like h (shrinkAttrs h keep) := by
  have hr := like_setRecordAttrs hs (h.shrunk keep)
  rw [shrinkAttrs_eq]
  split_ifs with hmark
  · exact hr.trans (like_setHighwater (hs.of_like hr) (highwaterMark_any hmark))
  · exact hr

theorem recordAttrs_shrinkAttrs :
    (shrinkAttrs h keep).recordAttrs = (h.setRecordAttrs (h.shrunk keep)).recordAttrs := by
  rw [shrinkAttrs_eq]
  split_ifs
  · exact recordAttrs_put (by omega)
  · rfl

theorem highwaterMark_shrinkAttrs (hk : keep + 1 < 2 ^ 32) :
    (shrinkAttrs h keep).highwaterMark = h.highwaterMark.map (min (keep + 1)) := by
  rw [shrinkAttrs_eq, highwaterMark_setRecordAttrs]
  cases hm : h.highwaterMark with
  | none => simp [highwaterMark_setRecordAttrs, hm]
  | some x =>
    simp only [Option.any_some, decide_eq_true_eq]
    split_ifs with hx
    · rw [highwaterMark_setHighwater, highwaterMark_setRecordAttrs, hm]
      simp only [Option.map_some, Option.some.injEq]
      omega
    · rw [highwaterMark_setRecordAttrs, hm]
      simp only [Option.map_some, Option.some.injEq]
      omega

theorem lowered_shrinkAttrs (hk : keep + 1 < 2 ^ 32) : h.Lowered keep (shrinkAttrs h keep).updateChecksum := by
  have h1 := h.efblk_lt
  have h2 := h.ffbyte_lt
  refine ⟨?_, ?_, ?_, by rw [highwaterMark_updateChecksum, highwaterMark_shrinkAttrs hk]⟩ <;>
    rw [recordAttrs_updateChecksum, recordAttrs_shrinkAttrs]
  · rw [hiblk_setRecordAttrs, shrunk]
    split_ifs <;> exact Nat.mod_eq_of_lt (show keep < 2 ^ 32 by omega)
  · rw [efblk_setRecordAttrs, shrunk]
    split_ifs <;> exact Nat.mod_eq_of_lt (by omega)
  · rw [ffbyte_setRecordAttrs, shrunk]
    split_ifs
    · rfl
    · exact Nat.mod_eq_of_lt h2

end Header

namespace Op

variable {v : Volume} {keep : ℕ} {l : ℕ} {h : Header}

def cutHeaders (keep : ℕ) (before : List (ℕ × Header)) (klbn : ℕ) (kh : Header) : List (ℕ × Header) :=
  match before with
  | [] => [(klbn, (shrinkAttrs kh keep).updateChecksum)]
  | (plbn, p) :: ms => (plbn, (shrinkAttrs p keep).updateChecksum) :: ms ++ [(klbn, kh.updateChecksum)]

theorem cutHeaders_slots (keep : ℕ) (before : List (ℕ × Header)) (klbn : ℕ) (kh : Header) :
    (cutHeaders keep before klbn kh).map Prod.fst = before.map Prod.fst ++ [klbn] := by
  cases before <;> simp [cutHeaders]

theorem exists_of_mem_cutHeaders {before : List (ℕ × Header)} {x y : ℕ × Header} {kh : Header}
    (hy : y ∈ cutHeaders keep before x.1 kh) : ∃ z ∈ before ++ [x], z.1 = y.1 := by
  have hy1 : y.1 ∈ (before ++ [x]).map Prod.fst := by
    rw [map_append, map_singleton, ← cutHeaders_slots keep before x.1 kh]
    exact mem_map_of_mem hy
  exact mem_map.1 hy1

theorem writeCut_puts {before : List (ℕ × Header)} (klbn : ℕ) (kh : Header) (keep : ℕ)
    (hn : (before.map Prod.fst ++ [klbn]).Nodup) (hb : ∀ x ∈ before, v.dev.blocks x.1 = x.2.raw)
    (halt : ∀ x ∈ before, x.1 ≠ v.home.altidxlbn) (halt' : klbn ≠ v.home.altidxlbn) :
    Prog.Ends world (writeCut before klbn kh keep) v
      (fun _ v' => v.Same v' ∧ (∀ x ∈ cutHeaders keep before klbn kh, v'.dev.blocks x.1 = x.2.raw) ∧
        ∀ x, x ∉ before.map Prod.fst → x ≠ klbn → x ≠ v.home.altidxlbn → v'.dev.blocks x = v.dev.blocks x)
      (fun e _ => e ≠ mapOverflow) := by
  cases before with
  | nil =>
    refine (writeHeader_puts v klbn _).imp ?_
    rintro _ v' ⟨hv, hnew, hold⟩
    exact ⟨hv, by simpa [cutHeaders] using hnew, fun x _ hx hx' => hold x hx hx'⟩
  | cons p ms =>
    simp only [map_cons, cons_append, nodup_cons, mem_append, mem_singleton, not_or] at hn
    obtain ⟨⟨hpms, hpk⟩, hn⟩ := hn
    refine .bind (writeHeader_puts v klbn kh) ?_
    rintro _ v₁ ⟨hv₁, hnew₁, hold₁⟩
    refine (writeHeader_puts v₁ p.1 (shrinkAttrs p.2 keep)).imp ?_
    rintro _ v₂ ⟨hv₂, hnew₂, hold₂⟩
    rw [hv₁.home] at hold₂
    refine ⟨hv₁.trans hv₂, ?_, fun x hx hx' hx'' => ?_⟩
    · refine forall_mem_cons.2 ⟨hnew₂, fun x hx => ?_⟩
      rcases mem_append.1 hx with hx | hx
      · have hmem : x.1 ∈ ms.map Prod.fst := mem_map_of_mem hx
        have hxk : x.1 ≠ klbn := fun he => (nodup_append.1 hn).2.2 _ hmem _ (by simp) he
        have hxp : x.1 ≠ p.1 := fun he => hpms (he ▸ hmem)
        have hxa := halt x (mem_cons_of_mem _ hx)
        rw [hold₂ _ hxp hxa, hold₁ _ hxk hxa, hb x (mem_cons_of_mem _ hx)]
      · obtain rfl : x = (klbn, kh.updateChecksum) := by simpa using hx
        rw [hold₂ klbn (Ne.symm hpk) halt', hnew₁]
    · simp only [map_cons, mem_cons, not_or] at hx
      rw [hold₂ x hx.1 hx'', hold₁ x hx' hx'']

theorem deleteHeader_puts (hs : v.Sited) (hl : v.headerLbn h.fid.num = some l) :
    Prog.Ends world (deleteHeader l h) v
      (fun _ v' => v.Same v' ∧ v'.dev.blocks l = h.deleted.raw ∧
        (∀ x, x ≠ l → v.bitLbn h.fid.num ≠ some x → v'.dev.blocks x = v.dev.blocks x) ∧
        ∀ m, 0 < m → m ≤ v.home.maxfiles → (v'.Marked m ↔ v.Marked m ∧ m ≠ h.fid.num))
      (fun e _ => e ≠ mapOverflow) := by
  obtain ⟨hn0, hn, -⟩ := headerLbn_eq_some.1 hl
  unfold deleteHeader
  refine .bind (writeBlock_puts v l h.deleted.raw) ?_
  rintro _ v₁ ⟨hv₁, hd₁⟩
  refine (setIndexBit_puts (hs.congr hv₁) hn0 false).imp ?_
  rintro _ v₂ ⟨hv₂, hold₂, hmark₂⟩
  simp only [hv₁.bitLbn] at hold₂
  refine ⟨hv₁.trans hv₂, ?_, fun x hx hx' => ?_, fun m hm0 hm => ?_⟩
  · rw [hold₂ l (hs.slot_ne_bit hl hn0 hn), hd₁, Geom.write_same]
  · rw [hold₂ x hx', hd₁, Geom.write_other hx]
  · have hsame : v₁.Marked m ↔ v.Marked m := hv₁.marked fun x hx => by
      rw [hd₁, Geom.write_other]
      rintro rfl
      exact hs.slot_ne_bit hl hm0 hm hx
    rw [hmark₂ m hm0, hsame]
    split_ifs with h <;> simp [h]

theorem deleteHeaders_puts : ∀ {ds : List (ℕ × Header)} {v : Volume}, v.Sited →
    (∀ d ∈ ds, v.headerLbn d.2.fid.num = some d.1) → (ds.map Prod.fst).Nodup →
    Prog.Ends world (Prog.each (fun d : ℕ × Header => deleteHeader d.1 d.2) ds) v
      (fun _ v' => v.Same v' ∧ (∀ d ∈ ds, v'.dev.blocks d.1 = d.2.deleted.raw) ∧
        (∀ x, x ∉ ds.map Prod.fst → (∀ d ∈ ds, v.bitLbn d.2.fid.num ≠ some x) → v'.dev.blocks x = v.dev.blocks x) ∧
        ∀ m, 0 < m → m ≤ v.home.maxfiles → (v'.Marked m ↔ v.Marked m ∧ ∀ d ∈ ds, m ≠ d.2.fid.num))
      (fun e _ => e ≠ mapOverflow)
  | [], v, _, _, _ => .pure ⟨.refl v, by simp, fun _ _ _ => rfl, by simp⟩
  | d :: ds, v, hs, hl, hn => by
    obtain ⟨hd, hl⟩ := forall_mem_cons.1 hl
    obtain ⟨hdn, hn⟩ := nodup_cons.1 hn
    refine .bind (deleteHeader_puts hs hd) ?_
    rintro _ v₁ ⟨hv₁, hnew₁, hold₁, hmark₁⟩
    refine (deleteHeaders_puts (hs.congr hv₁) (fun x hx => by rw [hv₁.headerLbn]; exact hl x hx) hn).imp ?_
    rintro _ v₂ ⟨hv₂, hnew₂, hold₂, hmark₂⟩
    simp only [hv₁.bitLbn, hv₁.home] at hold₂ hmark₂
    refine ⟨hv₁.trans hv₂, forall_mem_cons.2 ⟨?_, hnew₂⟩, fun x hx hx' => ?_, fun m hm0 hm => ?_⟩
    · rw [hold₂ _ hdn fun x hx => ?_, hnew₁]
      obtain ⟨hx0, hxm, -⟩ := headerLbn_eq_some.1 (hl x hx)
      exact hs.slot_ne_bit hd hx0 hxm
    · simp only [map_cons, mem_cons, not_or] at hx
      obtain ⟨hxd, hxds⟩ := forall_mem_cons.1 hx'
      rw [hold₂ x hx.2 hxds, hold₁ x hx.1 hxd]
    · rw [hmark₂ m hm0 hm, hmark₁ m hm0 hm, forall_mem_cons, and_assoc]

end Op

/-! ## The file that is left -/

theorem Header.Like.runs {h h' : Header} (hl : h.Like h') : h'.runs = h.runs := by
  simp only [Header.runs, Header.ptrs, hl.mapArea]

theorem Volume.MapOk.of_like {v : Volume} {h h' : Header} (hm : v.MapOk h) (hl : h.Like h') : v.MapOk h' :=
  ⟨by rw [hl.mapArea]; exact hm.decodes, by rw [hl.runs]; exact hm.within⟩

section cut
variable {v v' : Volume} {f : Fid} {p x : ℕ × Header} {xs before dropped : List (ℕ × Header)} {keep : ℕ} {kh : Header}

theorem Volume.Reads.cut (hv : v.Later v') (hr : v.Reads f p xs) (hps : p :: xs = before ++ x :: dropped)
    (hb : ∀ y ∈ cutHeaders keep before x.1 kh, v'.dev.blocks y.1 = y.2.raw)
    (hkeep : ∀ y ∈ before.tail, v'.dev.blocks y.1 = v.dev.blocks y.1) (hs : kh.Sound)
    (hfid : kh.fid = x.2.fid) (hseg : kh.segNum = x.2.segNum) (hext : kh.extFid.num = 0) :
    ∃ p' xs', cutHeaders keep before x.1 kh = p' :: xs' ∧ v'.Reads f p' xs' := by
  cases before with
  | nil =>
    obtain ⟨rfl, rfl⟩ : p = x ∧ xs = dropped := by simpa using hps
    have hl := (like_shrinkAttrs hs keep).trans (like_updateChecksum _)
    refine ⟨_, [], rfl, hr.rvn, ?_, ?_, ?_⟩
    · exact hr.first.replace hv (hb _ (by simp [cutHeaders]))
        (invalid_updateChecksum (hs.of_like (like_shrinkAttrs hs keep))) (hl.fid.trans hfid)
    · exact (hl.segNum.trans hseg).trans hr.primary
    · rw [Volume.Chain, hl.extFid]
      exact hext
  | cons q ms =>
    obtain ⟨rfl, rfl⟩ : p = q ∧ xs = ms ++ x :: dropped := by simpa using hps
    have hps := sound_of_valid hr.first.valid
    have hl := (like_shrinkAttrs hps keep).trans (like_updateChecksum _)
    have hlk := like_updateChecksum kh
    refine ⟨_, _, rfl, hr.rvn, ?_, hl.segNum.trans hr.primary, ?_⟩
    · exact hr.first.replace hv (hb _ (by simp [cutHeaders]))
        (invalid_updateChecksum (hps.of_like (like_shrinkAttrs hps keep))) hl.fid
    · have hend : v'.Chain kh.updateChecksum [] := by
        rw [Volume.Chain, hlk.extFid]
        exact hext
      have hblk : v'.dev.blocks x.1 = kh.updateChecksum.raw :=
        hb (x.1, kh.updateChecksum) (by simp [cutHeaders])
      have hfid' : kh.updateChecksum.fid = x.2.fid := hlk.fid.trans hfid
      have hseg' : kh.updateChecksum.segNum = x.2.segNum := hlk.segNum.trans hseg
      have hch : v'.Chain p.2 (ms ++ [(x.1, kh.updateChecksum)]) :=
        Volume.Chain.splice hv hblk (invalid_updateChecksum hs) hfid' hseg' hend hr.chain hkeep
      exact hch.of_head hl.extFid hl.segNum

theorem headersMap_cut (hs : kh.Sound) (hbs : ∀ y ∈ before, y.2.Sound) (hm : v.MapOk kh)
    (hbm : ∀ y ∈ before, v.MapOk y.2) : (∀ y ∈ cutHeaders keep before x.1 kh, v.MapOk y.2) ∧
      headersMap (cutHeaders keep before x.1 kh) = headersMap before ++ kh.runs := by
  cases before with
  | nil =>
    have hl := (like_shrinkAttrs hs keep).trans (like_updateChecksum _)
    exact ⟨by simpa [cutHeaders] using hm.of_like hl, by simp [cutHeaders, headersMap, hl.runs]⟩
  | cons q ms =>
    obtain ⟨hqs, -⟩ := forall_mem_cons.1 hbs
    obtain ⟨hqm, hmm⟩ := forall_mem_cons.1 hbm
    have hl := (like_shrinkAttrs hqs keep).trans (like_updateChecksum _)
    have hlk := like_updateChecksum kh
    refine ⟨forall_mem_cons.2 ⟨hqm.of_like hl, fun y hy => ?_⟩, ?_⟩
    · rcases mem_append.1 hy with hy | hy
      · exact hmm y hy
      · obtain rfl : y = (x.1, kh.updateChecksum) := by simpa using hy
        exact hm.of_like hlk
    · simp [cutHeaders, headersMap, hl.runs, hlk.runs]

end cut

section free
variable {v v' : Volume} {bmap bmap' : List ℕ} {bits bits' : List Block} {hs hs' : List (ℕ × Header)}
  {map map' : List Run}

theorem Volume.Bitmap.reread (hb : v.Bitmap bmap bits) (hv : v.Same v')
    (hblk : ∀ l ∈ bmap, v'.dev.blocks l = v.dev.blocks l) (hf : v.File BITMAP hs map)
    (hhs : (headers BITMAP v').result = .ok hs') (hmap : (runsOf hs' v').result = .ok map')
    (hp : mapBlocks map' <+: mapBlocks map) (hslots : ∀ x ∈ hs', x.1 ∈ mapBlocks v.indexMap)
    (hout : ∀ l ∈ bmap, l ∉ mapBlocks v.indexMap) (hread : (readStorageBitmap v').result = .ok (bmap', bits')) :
    bmap' = bmap ∧ bits' = bits ∧ v'.Bitmap bmap bits := by
  obtain ⟨_, _, hhs₁, hmap₁, hall₁, -⟩ := readStorageBitmap_iff.1 hb.read
  obtain ⟨_, _, hhs₂, hmap₂, hall₂, hbits₂⟩ := readStorageBitmap_iff.1 hread
  rw [hf.headers] at hhs₁
  cases hhs₁
  rw [hf.map] at hmap₁
  cases hmap₁
  rw [hhs] at hhs₂
  cases hhs₂
  rw [hmap] at hmap₂
  cases hmap₂
  obtain rfl : bmap' = bmap := by
    rw [bitmapBlocks, hv.clusters] at hall₂
    refine right_unique_forall₂' (R := fun vbn l => mapLbn map vbn = some l) ?_
      (hall₂.imp fun _ _ h => mapLbn_of_prefix hp h.1) (hall₁.imp fun _ _ h => h.1)
    intro _ l l' h h'
    exact Option.some.inj (h.symm.trans h')
  obtain rfl : bits' = bits := by
    rw [hbits₂, hb.bits_eq]
    exact map_congr_left hblk
  refine ⟨rfl, rfl, hread, hb.nodup, fun hs'' hhs'' x hx hmem => ?_⟩
  rw [hhs] at hhs''
  cases hhs''
  exact hout _ hmem (hslots x hx)

theorem mem_releasedCells (hk : 0 < v.cluster) {runs : List Run}
    (hlt : ∀ l ∈ mapBlocks runs, l < v.clusters * v.cluster) {c : ℕ} :
    c ∈ releasedCells v runs ↔ ∃ l ∈ mapBlocks runs, l / v.cluster = c := by
  simp only [releasedCells, mem_flatMap, mem_map, mem_filter, decide_eq_true_eq, mem_mapBlocks]
  have hrange : ∀ r ∈ runs, 0 < r.count → (c ∈ clipped v.clusters (runClusters v.cluster r) ↔
      r.lbn / v.cluster ≤ c ∧ c ≤ (r.lbn + r.count - 1) / v.cluster) := by
    intro r hr hpos
    have h1 := Nat.div_le_div_right (c := v.cluster) (show r.lbn ≤ r.lbn + r.count - 1 by omega)
    have h2 : (r.lbn + r.count - 1) / v.cluster < v.clusters :=
      (Nat.div_lt_iff_lt_mul hk).2 (hlt _ (mem_mapBlocks.2 ⟨r, hr, by omega, by omega⟩))
    simp only [clipped, runClusters, mem_range'_1]
    generalize r.lbn / v.cluster = i at h1 ⊢
    generalize (r.lbn + r.count - 1) / v.cluster = j at h1 h2 ⊢
    omega
  constructor
  · rintro ⟨_, ⟨r, ⟨hr, hpos⟩, rfl⟩, hc⟩
    rw [hrange r hr hpos] at hc
    -- the block of the run that is in the cluster
    refine ⟨max r.lbn (c * v.cluster), ⟨r, hr, le_max_left _ _, ?_⟩, ?_⟩
    · have := (Nat.le_div_iff_mul_le hk).1 hc.2
      omega
    · refine le_antisymm ?_ ((Nat.le_div_iff_mul_le hk).2 (le_max_right _ _))
      rcases le_total r.lbn (c * v.cluster) with h | h
      · rw [max_eq_right h, Nat.mul_div_cancel _ hk]
      · rw [max_eq_left h]
        exact hc.1
  · rintro ⟨l, ⟨r, hr, h1, h2⟩, rfl⟩
    refine ⟨_, ⟨r, ⟨hr, by omega⟩, rfl⟩, (hrange r hr (by omega)).2 ⟨Nat.div_le_div_right h1, ?_⟩⟩
    exact Nat.div_le_div_right (by omega)

end free

/-! ## Truncating -/

/-- What truncating a file to its first `k` blocks leaves: the first `n` of its
    headers, rewritten as `hs'`, and the map `map'`. -/
structure Truncated (v : Volume) (f : Fid) (hs : List (ℕ × Header)) (map : List Run) (k : ℕ) (v' : Volume)
    (n : ℕ) (hs' : List (ℕ × Header)) (map' : List Run) : Prop where
  headers : (headers f v').result = .ok hs'
  runs : (runsOf hs' v').result = .ok map'
  first : mapBlocks map' = (mapBlocks map).take k
  /-- Exactly the blocks after the first `k` become free. -/
  free : ∀ l, v'.Free l ↔ v.Free l ∨ l ∈ (mapBlocks map).drop k
  /-- The last header that stays is the one that mapped block `k + 1`. -/
  cut : mapSize map ≤ k ∧ n = hs.length ∨
    0 < n ∧ mapSize (headersMap (hs.take (n - 1))) ≤ k ∧ k < mapSize (headersMap (hs.take n))
  slots : hs'.map Prod.fst = (hs.map Prod.fst).take n
  /-- Exactly the headers after it are deleted, and their numbers cleared. -/
  deleted : ∀ x ∈ hs.drop n, (mk (v'.dev.blocks x.1)).isDeleted = true
  others : ∀ m l, v.headerLbn m = some l → l ∉ hs.map Prod.fst → v'.dev.blocks l = v.dev.blocks l
  numbers : ∀ m, 0 < m → m ≤ v.home.maxfiles →
    (v'.Marked m ↔ v.Marked m ∧ ∀ x ∈ hs.drop n, m ≠ x.2.fid.num)
  /-- The end of file and the highwater mark are lowered when past the cut. -/
  lowered : k < mapSize map → ∀ p ∈ hs.head?, ∀ p' ∈ hs'.head?, p.2.Lowered k p'.2
  /-- Nothing changes when there is nothing to cut. -/
  whole : mapSize map ≤ k → v' = v

theorem take_append_mid {α : Type} (as bs cs : List α) {n : ℕ} (h1 : as.length ≤ n) (h2 : n ≤ as.length + bs.length) :
    (as ++ (bs ++ cs)).take n = as ++ bs.take (n - as.length) ∧
      (as ++ (bs ++ cs)).drop n = bs.drop (n - as.length) ++ cs := by
  rw [take_append, take_of_length_le h1, take_append_of_le_length (by omega), drop_append,
    drop_of_length_le h1, nil_append, drop_append_of_le_length (by omega)]
  exact ⟨rfl, rfl⟩

section main
variable {v : Volume} {f : Fid} {hs : List (ℕ × Header)} {map : List Run}

/-- The header that keeps the first blocks of its map and ends the chain. -/
structure KeptHeader (v : Volume) (x : Header) (kept : List Pointer) (kh : Header) : Prop where
  sound : kh.Sound
  fid : kh.fid = x.fid
  segNum : kh.segNum = x.segNum
  extFid : kh.extFid.num = 0
  runs : kh.runs = ptrRuns kept
  mapOk : v.MapOk kh
  recordAttrs : kh.recordAttrs = x.recordAttrs
  highwater : kh.highwaterMark = x.highwaterMark

theorem exists_keptHeader {x : Header} (hx : x.invalid = none) (hm : v.MapOk x) (left : ℕ) :
    ∃ h, x.setMap (encodeMap (cutPointers left x.ptrs).1) = some h ∧
      KeptHeader v x (cutPointers left x.ptrs).1 (h.setExtFid Fid.zero) := by
  obtain ⟨ps, hps⟩ := hm.decodes
  have hs := sound_of_valid hx
  rw [ptrs_eq hps]
  have hcut := cutPointers_spec left (fits_decodeMap hps)
  have hroom : encoded (cutPointers left ps).1 ≤ x.mapCapacity :=
    hcut.size.trans ((size_decodeMap hps).trans x.length_mapArea_le)
  obtain ⟨h, hset, hmap⟩ := exists_mapped hs hcut.fits hroom
  have hdec : decodeMap (h.setExtFid Fid.zero).mapArea = .ok (cutPointers left ps).1 := by
    rw [mapArea_setExtFid hmap.sound]
    exact hmap.map
  have hruns : (h.setExtFid Fid.zero).runs = ptrRuns (cutPointers left ps).1 := by
    rw [Header.runs, ptrs_eq hdec]
  refine ⟨h, hset, hmap.sound.setExtFid _, (fid_setExtFid _).trans hmap.fid,
    (segNum_setExtFid _).trans hmap.segNum, ?_, hruns, ⟨⟨_, hdec⟩, fun r hr => ?_⟩,
    (recordAttrs_setExtFid _).trans hmap.recordAttrs,
    (highwaterMark_setExtFid _).trans (highwaterMark_setMap hs hset)⟩
  · rw [extFid_setExtFid ⟨by norm_num [Fid.zero], by norm_num [Fid.zero], by norm_num [Fid.zero]⟩]
    rfl
  · rw [hruns] at hr
    obtain ⟨s, hsr, hlbn, hcount⟩ := hcut.starts r hr
    have := hm.within s (by rw [Header.runs, ptrs_eq hps]; exact hsr)
    exact ⟨by omega, by omega⟩

/-- What the header writes of a truncation leave. -/
structure HeadersCut (v : Volume) (keep : ℕ) (before : List (ℕ × Header)) (x : ℕ × Header) (kh : Header)
    (dropped : List (ℕ × Header)) (v' : Volume) : Prop where
  same : v.Same v'
  kept : ∀ y ∈ cutHeaders keep before x.1 kh, v'.dev.blocks y.1 = y.2.raw
  deleted : ∀ d ∈ dropped, v'.dev.blocks d.1 = d.2.deleted.raw
  others : ∀ m l, v.headerLbn m = some l → l ∉ (before ++ x :: dropped).map Prod.fst →
    v'.dev.blocks l = v.dev.blocks l
  outside : ∀ l, l ∉ mapBlocks v.indexMap → v'.dev.blocks l = v.dev.blocks l
  numbers : ∀ m, 0 < m → m ≤ v.home.maxfiles → (v'.Marked m ↔ v.Marked m ∧ ∀ d ∈ dropped, m ≠ d.2.fid.num)

theorem Op.cutHeaders_ends {before dropped : List (ℕ × Header)} {x : ℕ × Header} (kh : Header) (keep : ℕ)
    {m : Op Unit} {Q : Unit → Volume → Prop} (hs : v.Sited) (hn : ((before ++ x :: dropped).map Prod.fst).Nodup)
    (hslot : ∀ y ∈ before ++ x :: dropped, v.headerLbn y.2.fid.num = some y.1 ∧ v.dev.blocks y.1 = y.2.raw)
    (hm : ∀ v', HeadersCut v keep before x kh dropped v' → Prog.Ends world m v' Q (fun e _ => e ≠ mapOverflow)) :
    Prog.Ends world (do
        writeCut before x.1 kh keep
        Prog.each (fun d : ℕ × Header => deleteHeader d.1 d.2) dropped
        m : Op Unit) v Q (fun e _ => e ≠ mapOverflow) := by
  have hsplit : (before ++ x :: dropped).map Prod.fst =
      (before.map Prod.fst ++ [x.1]) ++ dropped.map Prod.fst := by simp
  rw [hsplit, nodup_append] at hn
  obtain ⟨hn₁, hn₂, hdis⟩ := hn
  have hbefore : ∀ y ∈ before, y ∈ before ++ x :: dropped := fun y hy => mem_append_left _ hy
  have hkept : ∀ y ∈ before ++ [x], y ∈ before ++ x :: dropped := fun y hy => by
    simp only [mem_append, mem_cons, not_mem_nil, or_false] at hy ⊢
    tauto
  have hdropped : ∀ y ∈ dropped, y ∈ before ++ x :: dropped := fun y hy => by simp [hy]
  refine .bind (writeCut_puts x.1 kh keep hn₁ (fun y hy => (hslot y (hbefore y hy)).2)
    (fun y hy => hs.slot_ne_alt (hslot y (hbefore y hy)).1) (hs.slot_ne_alt (hslot x (by simp)).1)) ?_
  rintro _ v₁ ⟨hv₁, hnew₁, hold₁⟩
  refine .bind (deleteHeaders_puts (hs.congr hv₁) (fun d hd => by
    rw [hv₁.headerLbn]; exact (hslot d (hdropped d hd)).1) hn₂) ?_
  rintro _ v₂ ⟨hv₂, hnew₂, hold₂, hmark₂⟩
  simp only [hv₁.bitLbn, hv₁.home] at hold₂ hmark₂
  have hnum : ∀ d ∈ dropped, 0 < d.2.fid.num ∧ d.2.fid.num ≤ v.home.maxfiles := fun d hd => by
    obtain ⟨h0, hm, -⟩ := headerLbn_eq_some.1 (hslot d (hdropped d hd)).1
    exact ⟨h0, hm⟩
  -- deleting leaves the other slots alone
  have hslots₂ : ∀ m l, v.headerLbn m = some l → l ∉ dropped.map Prod.fst → v₂.dev.blocks l = v₁.dev.blocks l :=
    fun m l hl hmem => hold₂ l hmem fun d hd => hs.slot_ne_bit hl (hnum d hd).1 (hnum d hd).2
  refine hm v₂ ⟨hv₁.trans hv₂, fun y hy => ?_, hnew₂, fun m l hl hmem => ?_, fun l hl => ?_, fun m hm0 hm => ?_⟩
  · obtain ⟨z, hz, hzy⟩ := exists_of_mem_cutHeaders hy
    have hz1 : z.1 ∈ before.map Prod.fst ++ [x.1] := by
      rw [← map_singleton, ← map_append]
      exact mem_map_of_mem hz
    rw [← hzy, hslots₂ _ z.1 (hslot z (hkept z hz)).1 fun hmem => hdis _ hz1 _ hmem rfl, hzy, hnew₁ y hy]
  · rw [hsplit, mem_append, mem_append, not_or, not_or, mem_singleton] at hmem
    rw [hslots₂ m l hl hmem.2, hold₁ l hmem.1.1 hmem.1.2 (hs.slot_ne_alt hl)]
  · have hne : ∀ y ∈ before ++ x :: dropped, l ≠ y.1 := fun y hy he => hl (he ▸ mem_of_headerLbn (hslot y hy).1)
    rw [hold₂ l ?_ ?_, hold₁ l ?_ (hne x (by simp)) fun he => hl (he ▸ hs.alt_mem)]
    · intro hmem
      obtain ⟨y, hy, he⟩ := mem_map.1 hmem
      exact hne y (hbefore y hy) he.symm
    · intro hmem
      obtain ⟨y, hy, he⟩ := mem_map.1 hmem
      exact hne y (hdropped y hy) he.symm
    · exact fun d _ hb => hl (mem_of_mapLbn hb)
  · rw [hmark₂ m hm0 hm]
    refine and_congr_left fun _ => hv₁.marked fun l hl => hold₁ l ?_ ?_ (hs.bit_ne_alt hl)
    · intro hmem
      obtain ⟨y, hy, he⟩ := mem_map.1 hmem
      exact hs.slot_ne_bit (hslot y (hbefore y hy)).1 hm0 hm (he ▸ hl)
    · rintro rfl
      exact hs.slot_ne_bit (hslot x (by simp)).1 hm0 hm hl

section parts
variable {before dropped : List (ℕ × Header)} {x : ℕ × Header} {kh : Header} {kept : List Pointer} {keep : ℕ}
  {v' : Volume}

theorem KeptHeader.lowered (hk : KeptHeader v x.2 kept kh) (hlt : keep + 1 < 2 ^ 32) :
    ∀ p ∈ (before ++ x :: dropped).head?, ∀ p' ∈ (cutHeaders keep before x.1 kh).head?, p.2.Lowered keep p'.2 := by
  intro p hp p' hp'
  cases before with
  | nil =>
    obtain rfl : x = p := by simpa using hp
    obtain rfl : (x.1, (shrinkAttrs kh keep).updateChecksum) = p' := by simpa [cutHeaders] using hp'
    obtain ⟨h1, h2, h3, h4⟩ := lowered_shrinkAttrs (h := kh) hlt
    simp only [Header.PastEnd, hk.recordAttrs, hk.highwater] at h1 h2 h3 h4
    exact ⟨h1, h2, h3, h4⟩
  | cons q ms =>
    obtain rfl : q = p := by simpa using hp
    obtain rfl : (q.1, (shrinkAttrs q.2 keep).updateChecksum) = p' := by simpa [cutHeaders] using hp'
    exact lowered_shrinkAttrs hlt

theorem Volume.File.cut_mem (hf : v.File f (before ++ x :: dropped) map) :
    ∀ y ∈ cutHeaders keep before x.1 kh, y.1 ∈ mapBlocks v.indexMap := by
  intro y hy
  obtain ⟨z, hz, he⟩ := exists_of_mem_cutHeaders hy
  refine he ▸ hf.header_mem z ?_
  simp only [mem_append, mem_cons, not_mem_nil, or_false] at hz ⊢
  tauto

theorem HeadersCut.file (hcut : HeadersCut v keep before x kh dropped v') {g : Fid}
    (hg : (headers g v).result = .ok (before ++ x :: dropped))
    (hm : ∀ y ∈ before ++ x :: dropped, v.MapOk y.2) (hk : KeptHeader v x.2 kept kh) :
    (headers g v').result = .ok (cutHeaders keep before x.1 kh) ∧
      (runsOf (cutHeaders keep before x.1 kh) v').result = .ok (headersMap before ++ ptrRuns kept) := by
  obtain ⟨p, xs, hps, hr⟩ := headers_iff.1 hg
  have hholds := hr.holds
  rw [← hps] at hholds
  have hbefore : ∀ y ∈ before, y ∈ before ++ x :: dropped := fun y hy => mem_append_left _ hy
  have hkeep : ∀ y ∈ before.tail, v'.dev.blocks y.1 = v.dev.blocks y.1 := by
    intro y hy
    obtain ⟨_, hat⟩ := hholds y (hbefore y (mem_of_mem_tail hy))
    rw [hcut.kept y ?_, hat.block]
    cases before with
    | nil => cases hy
    | cons q ms =>
      have hms : y ∈ ms := hy
      simp [cutHeaders, hms]
  obtain ⟨p', xs', hps', hr'⟩ := hr.cut hcut.same.later hps.symm hcut.kept hkeep hk.sound hk.fid hk.segNum hk.extFid
  have hmap : (∀ y ∈ cutHeaders keep before x.1 kh, v.MapOk y.2) ∧
      headersMap (cutHeaders keep before x.1 kh) = headersMap before ++ kh.runs :=
    headersMap_cut hk.sound (fun y hy => by
      obtain ⟨_, hat⟩ := hholds y (hbefore y hy)
      exact sound_of_valid hat.valid) hk.mapOk fun y hy => hm y (hbefore y hy)
  refine ⟨by rw [hps']; exact headers_iff.2 ⟨p', xs', rfl, hr'⟩, hcut.same.kin.runsOf ?_⟩
  rw [runsOf_eq, ← hk.runs]
  exact ⟨hmap.1, hmap.2.symm⟩

theorem HeadersCut.release (hc : v.Consistent) (hf : v.File f (before ++ x :: dropped) map)
    (hcut : HeadersCut v keep before x kh dropped v') (hk : KeptHeader v x.2 kept kh)
    (hpre : mapBlocks (headersMap before ++ ptrRuns kept) <+: mapBlocks map) (hd : v.cluster ∣ keep) {runs : List Run}
    (hruns : mapBlocks runs = (mapBlocks map).drop keep) (hne : runs ≠ []) :
    Prog.Ends world (release runs) v'
      (fun _ v'' => v'.Same v'' ∧ (∀ l ∈ mapBlocks v.indexMap, v''.dev.blocks l = v'.dev.blocks l) ∧
        ∀ l, v''.Free l ↔ v.Free l ∨ l ∈ (mapBlocks map).drop keep)
      (fun e _ => e ≠ mapOverflow) := by
  have hv := hcut.same
  obtain ⟨hmok, hmap⟩ := runsOf_eq.1 hf.map
  obtain ⟨bmap, bits, hb, hout⟩ := hc.exists_bitmap
  obtain ⟨hsB, mapB, -, -, hfB, -⟩ := hc.bitmap
  have hbmap : ∀ l ∈ bmap, v'.dev.blocks l = v.dev.blocks l := fun l hl => hcut.outside l (hout l hl)
  -- the headers of BITMAP.SYS are as before, or it is the file that is cut
  obtain ⟨hs', map', hhs', hmap', hp', hslots'⟩ : ∃ hs' map', (headers BITMAP v').result = .ok hs' ∧
      (runsOf hs' v').result = .ok map' ∧ mapBlocks map' <+: mapBlocks mapB ∧
      ∀ y ∈ hs', y.1 ∈ mapBlocks v.indexMap := by
    obtain ⟨q, ys, rfl, hrB⟩ := hfB.reads
    obtain ⟨p, xs, hps, hr⟩ := hf.reads
    by_cases h2 : f.num = BITMAP.num
    · obtain ⟨rfl, rfl⟩ := hr.unique hrB h2
      have hmapB : mapB = map := by
        have h1 := (runsOf_eq.1 hfB.map).2
        rw [← hps] at h1
        exact h1.trans hmap.symm
      obtain ⟨h1, h2⟩ := hcut.file (g := BITMAP) (by rw [hps]; exact hfB.headers) hmok hk
      exact ⟨_, _, h1, h2, hmapB ▸ hpre, hf.cut_mem⟩
    · refine ⟨q :: ys, mapB, headers_iff.2 ⟨q, ys, rfl, hrB.congr hv.later fun y hy => ?_⟩,
        hv.kin.runsOf hfB.map, prefix_refl _, hfB.header_mem⟩
      obtain ⟨_, hat⟩ := hrB.holds y hy
      refine hcut.others _ y.1 hat.slot fun hmem => ?_
      obtain ⟨z, hz, he⟩ := mem_map.1 hmem
      exact (hc.apart hf hfB h2).2 z hz y hy he
  cases hread : (readStorageBitmap v').result with
  | error e =>
    refine (release_unread hread hne).post_mono (fun _ _ h => h.elim) fun e' _ he' => ?_
    rw [he']
    exact ne_mapOverflow (looks_readStorageBitmap.error hread)
  | ok a =>
    obtain ⟨bmap', bits'⟩ := a
    obtain ⟨rfl, rfl, hb'⟩ := hb.reread hv hbmap hfB hhs' hmap' hp' hslots' hout hread
    have hkpos : 0 < v'.cluster := by rw [hv.cluster]; exact hc.cluster_pos
    have hlt : ∀ l ∈ mapBlocks runs, l < v'.clusters * v'.cluster := by
      intro l hl
      rw [hruns] at hl
      obtain ⟨r, hr, -, hlr⟩ := mem_mapBlocks.1 (mem_of_mem_drop hl)
      rw [hmap] at hr
      obtain ⟨y, hy, hry⟩ := mem_flatMap.1 hr
      have := ((hmok y hy).within r hry).2
      rw [hv.clusters, hv.cluster]
      exact hlr.trans_le this
    refine (release_ends hb' runs fun c hcell => ?_).post_mono ?_ ?_
    · obtain ⟨l, hl, rfl⟩ := (mem_releasedCells hkpos hlt).1 hcell
      exact (Nat.div_lt_iff_lt_mul hkpos).2 (hlt l hl)
    · rintro _ v'' ⟨hv'', hold, bits'', hb'', -, hbit⟩
      refine ⟨hv'', fun l hl => hold l fun hmem => hout l hmem hl, fun l => ?_⟩
      rw [hb''.free_iff, hb.free_iff, hbit, hv''.cluster, hv.cluster, Bool.or_eq_true, decide_eq_true_eq,
        mem_releasedCells hkpos hlt, hruns, hv.cluster]
      refine or_congr_right ⟨?_, fun hl => ⟨l, hl, rfl⟩⟩
      rintro ⟨l', hl', he⟩
      exact ((hc.clustered hf).drop hd).mem hc.cluster_pos hl' he.symm
    · rintro e _ (rfl | ⟨rfl, -⟩ | ⟨l, rfl, -⟩) <;> simp [mapOverflow]

theorem Op.cutFile_ends (hc : v.Consistent) (hf : v.File f (before ++ x :: dropped) map) (hd : v.cluster ∣ keep)
    (h1 : mapSize (headersMap before) ≤ keep) (h2 : keep < mapSize (headersMap before) + mapSize x.2.runs) :
    Prog.Ends world (do
        let kh ← setMapOr x.2 (cutPointers (keep - mapSize (headersMap before)) x.2.ptrs).1
        let rest ← runsOf dropped
        writeCut before x.1 (kh.setExtFid Fid.zero) keep
        Prog.each (fun d : ℕ × Header => deleteHeader d.1 d.2) dropped
        release ((cutPointers (keep - mapSize (headersMap before)) x.2.ptrs).2 ++ rest) : Op Unit) v
      (fun _ v' => ∃ hs' map', Truncated v f (before ++ x :: dropped) map keep v' (before.length + 1) hs' map')
      (fun e _ => e ≠ mapOverflow) := by
  obtain ⟨hmok, hmap⟩ := runsOf_eq.1 hf.map
  obtain ⟨p, xs, hps, hr⟩ := hf.reads
  have hholds : ∀ y ∈ before ++ x :: dropped, ∃ f, v.Holds f y.1 y.2 := by rw [hps]; exact hr.holds
  have hslot : ∀ y ∈ before ++ x :: dropped, v.headerLbn y.2.fid.num = some y.1 ∧ v.dev.blocks y.1 = y.2.raw := by
    intro y hy
    obtain ⟨_, hat⟩ := hholds y hy
    exact ⟨hat.slot_fid, by rw [hat.block]⟩
  have hn : ((before ++ x :: dropped).map Prod.fst).Nodup := by rw [hps]; exact hr.nodup
  have hx : x ∈ before ++ x :: dropped := by simp
  -- the pointers
  generalize hleft : keep - mapSize (headersMap before) = left
  obtain ⟨ps, hdec⟩ := (hmok x hx).decodes
  have hcs : CutSpec left x.2.ptrs (cutPointers left x.2.ptrs).1 (cutPointers left x.2.ptrs).2 := by
    rw [ptrs_eq hdec]
    exact cutPointers_spec left (fits_decodeMap hdec)
  obtain ⟨_, hxat⟩ := hholds x hx
  obtain ⟨kh₁, hset, hk⟩ := exists_keptHeader hxat.valid (hmok x hx) left
  generalize cutPointers left x.2.ptrs = cut at hcs hset hk ⊢
  obtain ⟨kept, freed⟩ := cut
  dsimp only at hcs hset hk ⊢
  -- the blocks
  have hblocks : mapBlocks map =
      mapBlocks (headersMap before) ++ (mapBlocks x.2.runs ++ mapBlocks (headersMap dropped)) := by
    rw [hmap, flatMap_append, flatMap_cons, mapBlocks_append, mapBlocks_append]
  have hmid := take_append_mid (mapBlocks (headersMap before)) (mapBlocks x.2.runs)
    (mapBlocks (headersMap dropped)) (n := keep) (by rw [length_mapBlocks]; exact h1)
    (by rw [length_mapBlocks, length_mapBlocks]; exact h2.le)
  rw [← hblocks, length_mapBlocks, hleft] at hmid
  have hfirst : mapBlocks (headersMap before ++ ptrRuns kept) = (mapBlocks map).take keep := by
    rw [mapBlocks_append, hcs.keeps, hmid.1]
    rfl
  have hrest : mapBlocks (freed ++ headersMap dropped) = (mapBlocks map).drop keep := by
    rw [mapBlocks_append, hcs.frees, hmid.2]
    rfl
  have hsize : mapSize map = mapSize (headersMap before) + (mapSize x.2.runs + mapSize (headersMap dropped)) := by
    rw [← length_mapBlocks map, hblocks]
    simp only [length_append, length_mapBlocks]
  have hne : freed ++ headersMap dropped ≠ [] := by
    intro h0
    have := congrArg length hrest
    rw [h0, mapBlocks_nil, length_nil, length_drop, length_mapBlocks] at this
    omega
  refine .bind (Q := fun a s => a = kh₁ ∧ s = v) ?_ ?_
  · unfold setMapOr
    exact .orFail (by simp [world]) (fun a ha => ⟨Option.some.inj (ha.symm.trans hset), rfl⟩)
      fun h0 => by rw [hset] at h0; cases h0
  rintro a s ⟨ha, hs⟩
  rw [ha, hs]
  refine .look (looks_runsOf dropped).loud (fun rest hok => ?_)
    fun e he => ne_mapOverflow ((looks_runsOf dropped).error he)
  obtain rfl : rest = headersMap dropped := (runsOf_eq.1 hok).2
  refine cutHeaders_ends _ keep hc.sited hn hslot fun v' hcut => ?_
  refine (hcut.release hc hf hk (hfirst ▸ take_prefix _ _) hd hrest hne).imp ?_
  rintro _ v'' ⟨hv'', hold, hfree⟩
  obtain ⟨hhs', hruns'⟩ := hcut.file hf.headers hmok hk
  have htake : (before ++ x :: dropped).take (before.length + 1) = before ++ [x] := by simp [take_append]
  have hdrop : (before ++ x :: dropped).drop (before.length + 1) = dropped := by simp [drop_append]
  refine ⟨_, _, ?_, hv''.kin.runsOf hruns', hfirst, hfree, .inr ⟨by omega, ?_, ?_⟩, ?_, ?_, fun m l hl hmem => ?_,
    fun m hm0 hm => ?_, fun _ => ?_, fun h => absurd h (by omega)⟩
  · obtain ⟨p', xs', hps', hr'⟩ := headers_iff.1 hhs'
    rw [hps']
    refine headers_iff.2 ⟨p', xs', rfl, hr'.congr hv''.later fun y hy => hold _ ?_⟩
    rw [← hps'] at hy
    exact hf.cut_mem y hy
  · simpa using h1
  · rw [htake]
    simpa [headersMap] using h2
  · rw [cutHeaders_slots, ← map_take, htake, map_append, map_singleton]
  · rw [hdrop]
    intro d hdm
    have hmem : d ∈ before ++ x :: dropped := by simp [hdm]
    rw [hold _ (hf.header_mem d hmem), hcut.deleted d hdm]
    exact isDeleted_deleted d.2
  · rw [hold l (mem_of_headerLbn hl), hcut.others m l hl hmem]
  · rw [hdrop, ← hcut.numbers m hm0 hm]
    refine hv''.marked fun l hl => hold l ?_
    rw [hcut.same.bitLbn] at hl
    exact mem_of_mapLbn hl
  · have hhi : p.2.recordAttrs.hiblk = mapSize map := hc.hiblk (hps ▸ hf)
    have hlt := p.2.hiblk_lt
    exact hk.lowered (by omega)

end parts

theorem Op.truncate_ends (hc : v.Consistent) (hf : v.File f hs map) (blocks : ℕ) :
    Prog.Ends world (truncate f blocks) v
      (fun _ v' => ∃ n hs' map', Truncated v f hs map
        (min (mapSize map) (Volume.nextMultipleOf blocks v.cluster)) v' n hs' map')
      (fun e _ => e ≠ mapOverflow) := by
  unfold truncate
  refine .state_bind ?_
  by_cases hw : v.writable = true
  swap
  · rw [if_pos hw]
    exact .fail (by simp [world]) (by simp [mapOverflow])
  rw [if_neg (not_not_intro hw)]
  dsimp only
  generalize hkeep : Volume.nextMultipleOf blocks v.cluster = keep
  have hd : v.cluster ∣ keep := hkeep ▸ Dvd.intro_left _ rfl
  by_cases hbig : keep ≥ 2 ^ 64
  · rw [if_pos hbig]
    exact .fail (by simp [world]) (by simp [mapOverflow])
  rw [if_neg hbig]
  refine .look (looks_headers f).loud (fun hs₀ hhs => ?_)
    fun e he => ne_mapOverflow ((looks_headers f).error he)
  rw [hf.headers] at hhs
  cases hhs
  obtain ⟨hmok, hmap⟩ := runsOf_eq.1 hf.map
  have hlook : Looks (ofExcept (findCut keep 0 [] hs)) := looks_ofExcept fun e he => by
    rcases findCut_spec keep [] 0 (fun x hx => (hmok x hx).decodes) (Nat.zero_le _) with
      ⟨h, -⟩ | ⟨_, _, _, -, -, -, h⟩ <;> rw [h] at he <;> cases he
  refine .look hlook.loud (fun cut hcut => ?_) fun e he => ne_mapOverflow (hlook.error he)
  rw [result_ofExcept] at hcut
  rcases findCut_spec keep [] 0 (fun x hx => (hmok x hx).decodes) (Nat.zero_le _) with
    ⟨hnone, hle⟩ | ⟨before, x, dropped, rfl, h1, h2, hsome⟩
  · -- the file has no more blocks than stay
    rw [hnone] at hcut
    cases hcut
    have hle : mapSize map ≤ keep := by rw [hmap]; simpa using hle
    rw [min_eq_left hle]
    refine .pure ⟨hs.length, hs, map, hf.headers, hf.map, ?_, fun l => ?_, .inl ⟨le_rfl, rfl⟩, ?_, ?_,
      fun _ _ _ _ => rfl, fun m _ _ => ?_, fun h => absurd h (lt_irrefl _), fun _ => rfl⟩
    · rw [← length_mapBlocks, take_length]
    · rw [← length_mapBlocks, drop_length]
      simp
    · rw [← length_map (f := Prod.fst), take_length]
    · simp
    · simp
  · rw [hsome] at hcut
    cases hcut
    rw [Nat.zero_add] at h1 h2
    have hlt : keep < mapSize map := by
      rw [hmap, flatMap_append, flatMap_cons, mapSize_append, mapSize_append]
      simp only [headersMap] at h1 h2
      omega
    obtain ⟨klbn, xh⟩ := x
    rw [min_eq_right hlt.le, nil_append, Nat.zero_add]
    exact (cutFile_ends hc hf hd h1 h2).imp (fun _ _ h => ⟨_, h⟩)

/-- **Truncating** a file of a consistent volume leaves the first blocks of its
    map, frees the others and deletes the headers after the cut; its map always
    fits. -/
theorem truncate_spec (hc : v.Consistent) (hf : v.File f hs map) (blocks : ℕ) :
    ((truncate f blocks v).result = .ok () → ∃ n hs' map',
      Truncated v f hs map (min (mapSize map) (Volume.nextMultipleOf blocks v.cluster))
        (truncate f blocks v).state n hs' map') ∧
    (truncate f blocks v).result ≠ .error mapOverflow :=
  ⟨fun hok => (truncate_ends hc hf blocks).of_ok hok, fun he => (truncate_ends hc hf blocks).of_error he rfl⟩

/-- Clusters of two blocks, the last eight of them free, and a file of two. -/
def smallFiles : Volume := sampleVolume 2 64 22 (BitVec.ofNat 4096 (0xff <<< 24)) [⟨44, 4⟩]

theorem smallFiles_ok : SampleOk 2 64 22 (BitVec.ofNat 4096 (0xff <<< 24)) [⟨44, 4⟩] := by
  refine ⟨by decide +kernel, by decide +kernel, by decide, by decide, by decide, by decide +kernel,
    ⟨[22, 23], by decide⟩, by decide, by decide, fun c hc => ?_⟩
  have h24 : 24 ≤ c := by
    rw [BitVec.getLsbD_ofNat, Nat.testBit_shiftLeft] at hc
    simp only [Bool.and_eq_true, decide_eq_true_eq] at hc
    exact hc.2.1
  refine ⟨by omega, fun l hl => ?_⟩
  simp only [mapBlocks_cons, mapBlocks_nil, append_nil, Run.mem_blocks] at hl
  omega

theorem smallFiles_file : smallFiles.File sampleFid [(10, sampleHeader sampleFid [⟨44, 4⟩])] [⟨44, 4⟩] :=
  smallFiles_ok.file_of_mem (x := (10, sampleFid, [⟨44, 4⟩])) (by simp [sampleFiles])

/-- One block is one cluster. -/
theorem truncate_spec_small : (truncate sampleFid 1 smallFiles).result = .ok () ∧
    ∃ n hs' map', Truncated smallFiles sampleFid [(10, sampleHeader sampleFid [⟨44, 4⟩])] [⟨44, 4⟩] 2
      (truncate sampleFid 1 smallFiles).state n hs' map' := by
  have hok : (truncate sampleFid 1 smallFiles).result = .ok () := by decide +kernel
  have hk : min (mapSize [⟨44, 4⟩]) (Volume.nextMultipleOf 1 smallFiles.cluster) = 2 := by decide +kernel
  exact ⟨hok, hk ▸ (truncate_spec smallFiles_ok.consistent smallFiles_file 1).1 hok⟩

end main

end Ods
