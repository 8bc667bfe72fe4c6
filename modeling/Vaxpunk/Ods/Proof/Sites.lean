/-
  Writes to the index file.  Header slots, the index file bitmap and the backup
  copy of the index header are different blocks, so that each write changes what
  it is meant to change and nothing else.
-/
import Vaxpunk.Ods.Proof.Consistent

namespace Ods

variable {v v' : Volume} {l m n : ℕ} {h : Header} {b : Block}

/-- What writes to the index file rely on. -/
structure Volume.Sited (v : Volume) : Prop where
  home : v.home.invalid = none
  nodup : (mapBlocks v.indexMap).Nodup
  alt : ∃ x < v.home.ibmapvbn, mapLbn v.indexMap x = some v.home.altidxlbn

theorem Volume.Consistent.sited (hc : v.Consistent) : v.Sited := ⟨hc.home, hc.nodup_index, hc.alt⟩

/-! ## Three kinds of blocks -/

namespace Volume.Sited

section
variable (hs : v.Sited)
include hs

theorem congr (hv : v.Same v') : v'.Sited := by
  refine ⟨hv.home ▸ hs.home, hv.indexMap ▸ hs.nodup, ?_⟩
  rw [hv.home, hv.indexMap]
  exact hs.alt

theorem slot_inj (hm : v.headerLbn m = some l) (hn : v.headerLbn n = some l) : m = n := by
  obtain ⟨hm0, -, hm⟩ := headerLbn_eq_some.1 hm
  obtain ⟨hn0, -, hn⟩ := headerLbn_eq_some.1 hn
  have := mapLbn_inj hs.nodup hm hn
  simp only [Volume.slotVbn] at this
  omega

theorem bit_lt (hm : m ≤ v.home.maxfiles) (hm0 : 0 < m) : (m - 1) / BITS < v.home.ibmapsize := by
  have := (HomeBlock.facts hs.home).2.2.2.1
  exact (Nat.div_lt_iff_lt_mul BITS_pos).2 (by omega)

theorem slot_ne_bit (hn : v.headerLbn n = some l) (hm0 : 0 < m) (hm : m ≤ v.home.maxfiles) :
    v.bitLbn m ≠ some l := by
  intro hb
  obtain ⟨hn0, -, hn⟩ := headerLbn_eq_some.1 hn
  have h1 := mapLbn_inj hs.nodup hn hb
  have h2 := hs.bit_lt hm hm0
  generalize (m - 1) / BITS = j at h1 h2
  simp only [Volume.slotVbn, HomeBlock.headerVbn0] at h1
  omega

theorem slot_ne_alt (hn : v.headerLbn n = some l) : l ≠ v.home.altidxlbn := by
  rintro rfl
  obtain ⟨hn0, -, hn⟩ := headerLbn_eq_some.1 hn
  obtain ⟨x, hlt, hx⟩ := hs.alt
  have := mapLbn_inj hs.nodup hn hx
  simp only [Volume.slotVbn, HomeBlock.headerVbn0] at this
  omega

theorem bit_ne_alt (hb : v.bitLbn m = some l) : l ≠ v.home.altidxlbn := by
  rintro rfl
  obtain ⟨x, hlt, hx⟩ := hs.alt
  have := mapLbn_inj hs.nodup hb hx
  generalize (m - 1) / BITS = j at this
  omega

theorem alt_mem : v.home.altidxlbn ∈ mapBlocks v.indexMap := by
  obtain ⟨x, -, hx⟩ := hs.alt
  exact mem_of_mapLbn hx

theorem bit_inj (hm : v.bitLbn m = some l) (hn : v.bitLbn n = some l) : (m - 1) / BITS = (n - 1) / BITS := by
  have := mapLbn_inj hs.nodup hm hn
  omega

end

end Volume.Sited

theorem Volume.Later.bitLbn (hv : v.Later v') (hb : v.bitLbn n = some l) : v'.bitLbn n = some l := by
  unfold Volume.bitLbn at hb ⊢
  rw [hv.home]
  exact hv.mapLbn hb

theorem Volume.Same.bitLbn (hv : v.Same v') (n : ℕ) : v'.bitLbn n = v.bitLbn n := by
  simp only [Volume.bitLbn, hv.home, hv.indexMap]

theorem Volume.Marked.congr (hm : v.Marked n) (hv : v.Later v')
    (hb : ∀ l, v.bitLbn n = some l → v'.dev.blocks l = v.dev.blocks l) : v'.Marked n := by
  obtain ⟨l, hl, hbit⟩ := hm
  exact ⟨l, hv.bitLbn hl, by rw [hb l hl]; exact hbit⟩

theorem Volume.Same.marked (hv : v.Same v') (hb : ∀ l, v.bitLbn n = some l → v'.dev.blocks l = v.dev.blocks l) :
    v'.Marked n ↔ v.Marked n := by
  refine ⟨?_, fun hm => hm.congr hv.later hb⟩
  rintro ⟨l, hl, hbit⟩
  rw [hv.bitLbn] at hl
  exact ⟨l, hl, by rw [← hb l hl]; exact hbit⟩

/-! ## Writes -/

/-- The error of a map that does not fit its header. -/
def mapOverflow : Error := .invalid "map pointers overflow the header"

theorem ne_mapOverflow {e : Error} (h : ¬e.OfWrite) : e ≠ mapOverflow := by
  rintro rfl
  exact h rfl

namespace Op

theorem writeBlock_puts (v : Volume) (l : ℕ) (b : Block) : Prog.Ends world (writeBlock l b) v
    (fun _ v' => v.Same v' ∧ v'.dev.blocks = v.dev.blocks.write (l, b)) (fun e _ => e ≠ mapOverflow) := by
  unfold writeBlock
  refine .state_bind ?_
  split_ifs
  · exact .fail (by simp [world]) (by simp [mapOverflow])
  · exact devWrite_runs (fun _ => trivial) (fun v' hv hd _ => ⟨hv, hd⟩) fun _ _ _ => by simp [mapOverflow]
  · exact .fail (by simp [world]) (by simp [mapOverflow])

theorem writeHeader_puts (v : Volume) (l : ℕ) (h : Header) : Prog.Ends world (writeHeader l h) v
    (fun _ v' => v.Same v' ∧ v'.dev.blocks l = h.updateChecksum.raw ∧
      ∀ x, x ≠ l → x ≠ v.home.altidxlbn → v'.dev.blocks x = v.dev.blocks x)
    (fun e _ => e ≠ mapOverflow) := by
  unfold writeHeader
  refine .bind (writeBlock_puts v l _) ?_
  rintro _ v₁ ⟨hv₁, hd₁⟩
  refine .state_bind (.when (fun _ => ?_) fun _ => ?_)
  · refine (writeBlock_puts v₁ _ _).imp ?_
    rintro _ v₂ ⟨hv₂, hd₂⟩
    refine ⟨hv₁.trans hv₂, ?_, fun x hx hx' => ?_⟩
    · rw [hd₂, hd₁]
      simp [Disk.write]
    · rw [hd₂, hd₁, hv₁.home, Geom.write_other hx', Geom.write_other hx]
  · exact ⟨hv₁, by rw [hd₁, Geom.write_same], fun x hx _ => by rw [hd₁, Geom.write_other hx]⟩

theorem setIndexBit_puts (hs : v.Sited) (hn0 : 0 < n) (on : Bool) : Prog.Ends world (setIndexBit n on) v
    (fun _ v' => v.Same v' ∧ (∀ l, v.bitLbn n ≠ some l → v'.dev.blocks l = v.dev.blocks l) ∧
      ∀ m, 0 < m → (v'.Marked m ↔ if m = n then on = true else v.Marked m))
    (fun e _ => e ≠ mapOverflow) := by
  unfold setIndexBit
  refine .state_bind (.look (looks_orFail (by simp) _).loud (fun l hl => ?_)
    fun e he => ne_mapOverflow ((looks_orFail (by simp) _).error he))
  have hl : v.bitLbn n = some l := by
    cases ho : mapLbn v.indexMap (v.home.ibmapvbn + (n - 1) / BITS) with
    | none => rw [ho] at hl; cases hl
    | some l' => rw [ho] at hl; cases hl; exact ho
  refine .look (looks_readBlock l).loud (fun b hb => ?_)
    fun e he => ne_mapOverflow ((looks_readBlock l).error he)
  obtain ⟨-, rfl⟩ := readBlock_ok.1 hb
  refine (writeBlock_puts v l _).imp ?_
  rintro _ v' ⟨hv, hd⟩
  refine ⟨hv, fun x hx => ?_, fun m hm0 => ?_⟩
  · rw [hd, Geom.write_other (by rintro rfl; exact hx hl)]
  by_cases hblk : v.bitLbn m = some l
  · -- in the same block the bit of `m` is the one written exactly if `m = n`
    have hiff : (m - 1) % BITS = (n - 1) % BITS ↔ m = n := by
      refine ⟨fun h => ?_, fun h => by rw [h]⟩
      have h1 := Nat.div_add_mod (m - 1) BITS
      have h2 := Nat.div_add_mod (n - 1) BITS
      rw [hs.bit_inj hblk hl, h] at h1
      omega
    have hnew : v'.Marked m ↔
        ((v.dev.blocks l).setBit ((n - 1) % BITS) on).getLsbD ((m - 1) % BITS) = true := by
      simp only [Volume.Marked, hv.bitLbn, hblk, Option.some.injEq, exists_eq_left', hd, Geom.write_same]
    rw [hnew, Block.getLsbD_setBit (Nat.mod_lt _ BITS_pos)]
    simp only [hiff]
    split_ifs with h
    · exact Iff.rfl
    · simp only [Volume.Marked, hblk, Option.some.injEq, exists_eq_left']
  · have hne : m ≠ n := by
      rintro rfl
      exact hblk hl
    rw [if_neg hne]
    refine hv.marked fun x hx => ?_
    rw [hd, Geom.write_other (by rintro rfl; exact hblk hx)]

end Op

end Ods
