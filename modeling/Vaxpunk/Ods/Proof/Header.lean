/-
  File headers: which headers agree on the file structure (`Like`), when a
  header with a fresh checksum is valid, and reading back a map just stored.
-/
import Vaxpunk.Ods.Layout.Header

namespace Ods

open Field RecordAttrs

theorem Fid.get_congr {n : ℕ} {b b' : BitVec n}
    (h : ∀ i w, off ≤ i → i + w ≤ off + 6 → Field.get b' i w = Field.get b i w) : get b' off = get b off := by
  simp only [get]
  rw [h off 2 (by omega) (by omega), h (off + 2) 2 (by omega) (by omega), h (off + 4) 1 (by omega) (by omega),
    h (off + 5) 1 (by omega) (by omega)]

namespace Header

variable {h h' h'' : Header}
variable {off w v : ℕ}

/-! ## Headers alike -/

/-- `h'` agrees with `h` on the area offsets, structure level, file ID, segment
    number, extension link and map; attributes, names and links to other files
    may differ. -/
def Like (h h' : Header) : Prop :=
  ∀ i < 510, i < 20 ∨ i = 58 ∨ 2 * h.mpoffset ≤ i → Field.get h'.raw i 1 = Field.get h.raw i 1

theorem Like.refl (h : Header) : Like h h := fun _ _ _ => rfl

theorem area_fst_le (a b : ℕ) : (area a b).1 ≤ 2 * a ∧ (area a b).1 + (area a b).2 ≤ 510 := by
  simp only [area, BLOCK]; omega

section like
variable (hl : Like h h')
include hl

theorem Like.get_eq (hw : off + w ≤ 20 ∨ off = 58 ∧ w = 1) : Field.get h'.raw off w = Field.get h.raw off w:=
  get_congr fun i _ => hl (off + i) (by omega) (by omega)

theorem Like.mpoffset : h'.mpoffset = h.mpoffset := hl.get_eq (by omega)
theorem Like.acoffset : h'.acoffset = h.acoffset := hl.get_eq (by omega)
theorem Like.segNum : h'.segNum = h.segNum := hl.get_eq (by omega)
theorem Like.mapInuse : h'.mapInuse = h.mapInuse := hl.get_eq (by omega)

theorem Like.fid : h'.fid = h.fid := Fid.get_congr fun _ _ _ _ => hl.get_eq (by omega)

theorem Like.extFid : h'.extFid = h.extFid := Fid.get_congr fun _ _ _ _ => hl.get_eq (by omega)

theorem Like.mapCapacity : h'.mapCapacity = h.mapCapacity := by
  simp only [Header.mapCapacity, hl.mpoffset, hl.acoffset]

theorem Like.mapArea : h'.mapArea = h.mapArea := by
  simp only [Header.mapArea, hl.mpoffset, hl.acoffset, hl.mapInuse]
  refine bytes_congr fun i hi => ?_
  have := area_fst_le h.mpoffset (min (min (h.mpoffset + h.mapInuse) 255) h.acoffset)
  simp only [area, BLOCK] at hi ⊢
  exact hl _ (by omega) (by omega)

end like

theorem Like.trans (h1 : Like h h') (h2 : Like h' h'') : Like h h'' := fun i hi hc =>
  (h2 i hi (by rw [h1.mpoffset]; exact hc)).trans (h1 i hi hc)

theorem like_put (hw : 20 ≤ off ∧ (off + w ≤ 58 ∨ 59 ≤ off) ∧ off + w ≤ 2 * h.mpoffset ∨ 510 ≤ off) :
    Like h ⟨Field.put h.raw off w v⟩ := fun i hi hc => get_put_apart (by omega)

/-! ## Validity -/

/-- Everything `invalid` asks for but the checksum. -/
structure Sound (h : Header) : Prop where
  level : (h.struclev >>> 8 = 2 ∨ h.struclev >>> 8 = 5) ∧ h.struclev &&& 0xff ≠ 0
  id : 38 ≤ h.idoffset
  mp : h.idoffset ≤ h.mpoffset
  ac : h.mpoffset ≤ h.acoffset
  rs : h.acoffset ≤ h.rsoffset
  inuse : h.mapInuse ≤ h.acoffset - h.mpoffset
  num : h.fid.num ≠ 0

theorem invalid_eq_none_iff :
    h.invalid = none ↔ h.checksum = Ods.checksum h.raw 255 ∧ Sound h := by
  constructor
  · intro hv
    simp only [invalid] at hv
    split_ifs at hv with h1 h2 h3 h4 h5
    exact ⟨not_not.1 h1, ⟨by omega, by omega, by omega, by omega, by omega, by omega, h5⟩⟩
  · rintro ⟨hc, hs⟩
    obtain ⟨h1, h2, h3, h4, h5, h6, h7⟩ := hs
    simp only [invalid, hc, h7, ne_eq, not_true_eq_false, if_false]
    rw [if_neg (by omega), if_neg (by omega), if_neg (by omega)]

theorem sound_of_valid (hv : h.invalid = none) : Sound h := (invalid_eq_none_iff.1 hv).2

theorem Sound.of_get (hs : Sound h) (hg : ∀ {off w}, off + w ≤ 4 ∨ 6 ≤ off ∧ off + w ≤ 14 →
    Field.get h'.raw off w = Field.get h.raw off w) (hin : h'.mapInuse ≤ h.acoffset - h.mpoffset) : Sound h' := by
  have hid : h'.idoffset = h.idoffset := hg (by omega)
  have hmp : h'.mpoffset = h.mpoffset := hg (by omega)
  have hac : h'.acoffset = h.acoffset := hg (by omega)
  have hrs : h'.rsoffset = h.rsoffset := hg (by omega)
  have hlevel : h'.struclev = h.struclev := hg (by omega)
  have hfid : h'.fid = h.fid := Fid.get_congr fun _ _ _ _ => hg (by omega)
  obtain ⟨h1, h2, h3, h4, h5, -, h7⟩ := hs
  rw [← hid] at h2 h3
  rw [← hmp] at h3 h4
  rw [← hac] at h4 h5
  rw [← hrs] at h5
  refine ⟨by rw [hlevel]; exact h1, h2, h3, h4, h5, ?_, by rw [hfid]; exact h7⟩
  rw [hac, hmp]
  exact hin

theorem Sound.of_like (hs : Sound h) (hl : Like h h') : Sound h' :=
  hs.of_get (fun _ => hl.get_eq (by omega)) (hl.mapInuse.trans_le hs.inuse)

theorem Sound.mp_ge (hs : Sound h) : 38 ≤ h.mpoffset := hs.id.trans hs.mp

theorem checksum_put_last (b : Block) (v : ℕ) :
    ∀ n ≤ 255, Ods.checksum (Field.put b 510 2 v) n = Ods.checksum b n
  | 0, _ => rfl
  | n + 1, hn => by
    simp only [Ods.checksum]
    rw [checksum_put_last b v n (by omega), get_put_apart (by omega)]

theorem checksum_lt (b : Block) : ∀ n, Ods.checksum b n < 2 ^ 16
  | 0 => by simp [Ods.checksum]
  | n + 1 => Nat.mod_lt _ (by norm_num)

theorem like_updateChecksum (h : Header) : Like h h.updateChecksum := like_put (by omega)

section
variable (hs : Sound h)
include hs

theorem invalid_updateChecksum : h.updateChecksum.invalid = none := by
  refine invalid_eq_none_iff.2 ⟨?_, hs.of_like (like_updateChecksum h)⟩
  simp only [updateChecksum, setChecksum, checksum]
  rw [get_put_same (by norm_num), checksum_put_last _ _ 255 (by omega),
    Nat.mod_eq_of_lt (checksum_lt _ _)]

/-! ## Attributes -/

theorem like_setFilechar (v : ℕ) : Like h (h.setFilechar v) :=
  like_put (by have := hs.mp_ge; omega)

theorem like_setRecattr (v : BitVec 256) : Like h (h.setRecattr v) :=
  like_put (by have := hs.mp_ge; omega)

theorem like_setRecordAttrs (r : RecordAttrs) : Like h (h.setRecordAttrs r) :=
  like_setRecattr hs _

theorem like_setFileowner (v : ℕ) : Like h (h.setFileowner v) :=
  like_put (by have := hs.mp_ge; omega)

theorem like_setFileprot (v : ℕ) : Like h (h.setFileprot v) :=
  like_put (by have := hs.mp_ge; omega)

theorem like_setBacklink (f : Fid) : Like h (h.setBacklink f) := by
  have := hs.mp_ge
  intro i hi hc
  simp (disch := omega) only [setBacklink, Fid.put, get_put_apart]

theorem like_setHighwater (hid : 40 ≤ h.idoffset) : Like h (h.setHighwater v) :=
  like_put (by have := hs.mp; omega)

end

theorem highwaterMark_isSome : h.highwaterMark.isSome ↔ 40 ≤ h.idoffset := by
  unfold highwaterMark; split_ifs with hid <;> simp [hid]

theorem highwaterMark_any {p : ℕ → Bool} (hp : h.highwaterMark.any p = true) : 40 ≤ h.idoffset := by
  refine highwaterMark_isSome.1 ?_
  cases hm : h.highwaterMark <;> simp_all

/-! ### What the setters do to other attributes -/

/-- Whether the header is a directory's. -/
def isDir (h : Header) : Bool := fch.has h.filechar fch.DIRECTORY

theorem filechar_put (hw : off + w ≤ 52 ∨ 56 ≤ off) :
    (Header.mk (Field.put h.raw off w v)).filechar = h.filechar := get_put_apart (by omega)

theorem recattr_put (hw : off + w ≤ 20 ∨ 52 ≤ off) : (Header.mk (Field.put h.raw off w v)).recattr = h.recattr:= by
  simp only [recattr]; rw [get_put_apart (by omega)]

theorem recordAttrs_put (hw : off + w ≤ 20 ∨ 52 ≤ off) :
    (Header.mk (Field.put h.raw off w v)).recordAttrs = h.recordAttrs := by
  simp only [recordAttrs]; rw [recattr_put hw]

theorem recattr_setRecattr (v : BitVec 256) : (h.setRecattr v).recattr = v := by
  simp only [recattr, setRecattr]
  rw [get_put_same (by norm_num), Nat.mod_eq_of_lt v.isLt, BitVec.ofNat_toNat, BitVec.setWidth_eq]

theorem efblk_toBytes (r : RecordAttrs) :
    (fromBytes r.toBytes).efblk = r.efblk % 2 ^ 32 := by
  simp (disch := omega) only [fromBytes, swapped, toBytes,
    get_put_apart, get_put_same, Nat.shiftRight_eq_div_pow, Nat.shiftLeft_eq]
  omega

theorem hiblk_toBytes (r : RecordAttrs) :
    (fromBytes r.toBytes).hiblk = r.hiblk % 2 ^ 32 := by
  simp (disch := omega) only [fromBytes, swapped, toBytes,
    get_put_apart, get_put_same, Nat.shiftRight_eq_div_pow, Nat.shiftLeft_eq]
  omega

theorem ffbyte_toBytes (r : RecordAttrs) :
    (fromBytes r.toBytes).ffbyte = r.ffbyte % 2 ^ 16 := by
  simp (disch := omega) only [fromBytes, toBytes, get_put_apart,
    get_put_same]

/-! ## Storing a map -/

section setMap
variable {m : List UInt8}

theorem setMap_eq_some (hm : h.setMap m = some h') : m.length ≤ h.mapCapacity ∧
    h' = setMapInuse ⟨Field.putBytes (Field.put h.raw (h.mpoffset * 2) h.mapCapacity 0)
      (h.mpoffset * 2) m⟩ (m.length / 2) := by
  simp only [setMap] at hm
  split_ifs at hm with hlen
  exact ⟨by omega, (Option.some.inj hm).symm⟩

theorem mapCapacity_le (h : Header) : h.mapCapacity ≤ 2 * (h.acoffset - h.mpoffset) ∧
    (0 < h.mapCapacity → 2 * h.mpoffset + h.mapCapacity ≤ 510) := by
  simp only [mapCapacity, area, BLOCK]; omega

theorem length_mapArea_le (h : Header) : h.mapArea.length ≤ h.mapCapacity := by
  simp only [mapArea, length_bytes, mapCapacity, area, BLOCK]
  omega

theorem setMap_isSome (hs : Sound h) (hm : m.length ≤ h.mapCapacity) : ∃ h', h.setMap m = some h' := by
  have h1 := mapCapacity_le h; have h2 := hs.id; have h3 := hs.mp
  simp only [setMap]
  rw [if_neg (by omega)]
  exact ⟨_, rfl⟩

theorem get_setMap (hm : h.setMap m = some h') (hw : off + w ≤ 58 ∨ 59 ≤ off) (hmp : off + w ≤ 2 * h.mpoffset) :
    Field.get h'.raw off w = Field.get h.raw off w := by
  obtain ⟨-, rfl⟩ := setMap_eq_some hm
  simp only [setMapInuse, Field.putBytes]
  rw [get_put_apart (by omega), get_put_apart (by omega), get_put_apart (by omega)]

theorem mapInuse_setMap (hm : h.setMap m = some h') : h'.mapInuse = m.length / 2 % 2 ^ 8 := by
  obtain ⟨-, rfl⟩ := setMap_eq_some hm
  exact get_put_same (by norm_num)

variable (hs : Sound h) (hm : h.setMap m = some h')
include hs hm

theorem Sound.get_setMap
    (hw : off + w ≤ 58 ∨ 59 ≤ off ∧ off + w ≤ 76) : Field.get h'.raw off w = Field.get h.raw off w :=
  Header.get_setMap hm (by omega) (by have := hs.mp_ge; omega)

theorem mpoffset_setMap : h'.mpoffset = h.mpoffset :=
  hs.get_setMap hm (by omega)

theorem acoffset_setMap : h'.acoffset = h.acoffset :=
  hs.get_setMap hm (by omega)

/-- **The map stored is the map read back.** -/
theorem mapArea_setMap (heven : m.length % 2 = 0) :
    h'.mapArea = m := by
  have hlen := (setMap_eq_some hm).1
  have h1 := mapCapacity_le h; have h2 := hs.id; have h3 := hs.mp; have h4 := hs.ac
  simp only [Header.mapArea, mpoffset_setMap hs hm, acoffset_setMap hs hm, mapInuse_setMap hm]
  have hin : m.length / 2 % 2 ^ 8 = m.length / 2 := Nat.mod_eq_of_lt (by omega)
  rw [hin]
  rcases Nat.eq_zero_or_pos m.length with h0 | hpos
  · have hm0 : m = [] := List.length_eq_zero_iff.1 h0
    have : (area h.mpoffset (min (min (h.mpoffset + m.length / 2) 255) h.acoffset)).2 = 0 := by
      simp only [area, BLOCK]; omega
    rw [this, hm0]; rfl
  · have harea : area h.mpoffset (min (min (h.mpoffset + m.length / 2) 255) h.acoffset) =
        (h.mpoffset * 2, m.length) := by
      simp only [area, BLOCK]
      refine Prod.ext ?_ ?_ <;> simp only <;> omega
    rw [harea]
    obtain ⟨-, rfl⟩ := setMap_eq_some hm
    simp only [setMapInuse]
    rw [bytes_put_apart (by omega), bytes_putBytes (by omega)]

theorem Sound.of_setMap : Sound h' := by
  have hlen := (setMap_eq_some hm).1
  have hcap := mapCapacity_le h
  refine hs.of_get (fun _ => hs.get_setMap hm (by omega)) ?_
  rw [mapInuse_setMap hm]
  exact (Nat.mod_le _ _).trans (by omega)

end setMap

end Header

end Ods
