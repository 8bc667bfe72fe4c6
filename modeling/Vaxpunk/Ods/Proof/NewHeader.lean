/-
  The headers operations write: links and file IDs stored in a header, and what
  fresh, extended, renamed and deleted headers say.
-/
import Vaxpunk.Ods.Proof.Header
import Vaxpunk.Ods.Proof.Map
import Vaxpunk.Ods.File

namespace Ods

open Field Header Fid

/-! ## File IDs -/

namespace Fid

/-- The file ID fits its fields. -/
structure Ok (f : Fid) : Prop where
  num : f.num < 2 ^ 24
  seq : f.seq < 2 ^ 16
  rvn : f.rvn < 2 ^ 8

variable {n off : ℕ} {b : BitVec n} {f : Fid}

theorem get_ok (b : BitVec n) (off : ℕ) : (get b off).Ok := by
  have h1 := get_lt b off 2
  have h2 := get_lt b (off + 5) 1
  refine ⟨?_, get_lt b (off + 2) 2, get_lt b (off + 4) 1⟩
  simp only [get, Nat.shiftLeft_eq]
  omega

theorem field_put_apart {off' w : ℕ} (h : off' + w ≤ off ∨ off + 6 ≤ off') :
    Field.get (put b off f) off' w = Field.get b off' w := by
  simp (disch := omega) only [put, Field.get_put_apart]

theorem get_put_apart {off' : ℕ} (h : off' + 6 ≤ off ∨ off + 6 ≤ off') : get (put b off f) off' = get b off' :=
  get_congr fun _ _ _ _ => field_put_apart (by omega)

theorem get_put_same (hn : 8 * (off + 6) ≤ n) (hf : f.Ok) : get (put b off f) off = f := by
  obtain ⟨hnum, hseq, hrvn⟩ := hf
  obtain ⟨num, seq, rvn⟩ := f
  simp (disch := omega) only [get, put, Field.get_put_apart, Field.get_put_same, Nat.shiftLeft_eq,
    Nat.shiftRight_eq_div_pow, mk.injEq] at hnum hseq hrvn ⊢
  omega

end Fid

namespace Header

variable {h h' : Header} {k : ℕ}

/-! ## What a header says -/

/-- `h'` differs from `h` in attributes that neither place the file nor say
    where it ends. -/
structure Same (h h' : Header) : Prop where
  like : Like h h'
  filechar : h'.isDir = h.isDir
  recattr : h'.recordAttrs.efblk = h.recordAttrs.efblk ∧ h'.recordAttrs.ffbyte = h.recordAttrs.ffbyte

theorem recordAttrs_updateChecksum (h : Header) : h.updateChecksum.recordAttrs = h.recordAttrs :=
  recordAttrs_put (by omega)

theorem efblk_setRecordAttrs (r : RecordAttrs) :
    (h.setRecordAttrs r).recordAttrs.efblk = r.efblk % 2 ^ 32 := by
  simp only [recordAttrs, setRecordAttrs, recattr_setRecattr, efblk_toBytes]

theorem hiblk_setRecordAttrs (r : RecordAttrs) :
    (h.setRecordAttrs r).recordAttrs.hiblk = r.hiblk % 2 ^ 32 := by
  simp only [recordAttrs, setRecordAttrs, recattr_setRecattr, hiblk_toBytes]

theorem ffbyte_setRecordAttrs (r : RecordAttrs) :
    (h.setRecordAttrs r).recordAttrs.ffbyte = r.ffbyte % 2 ^ 16 := by
  simp only [recordAttrs, setRecordAttrs, recattr_setRecattr, ffbyte_toBytes]

theorem efblk_lt (h : Header) : h.recordAttrs.efblk < 2 ^ 32 := by
  have h1 := get_lt h.recattr 8 2
  have h2 := get_lt h.recattr (8 + 2) 2
  simp only [recordAttrs, RecordAttrs.fromBytes, RecordAttrs.swapped, Nat.shiftLeft_eq]
  omega

theorem hiblk_lt (h : Header) : h.recordAttrs.hiblk < 2 ^ 32 := by
  have h1 := get_lt h.recattr 4 2
  have h2 := get_lt h.recattr (4 + 2) 2
  simp only [recordAttrs, RecordAttrs.fromBytes, RecordAttrs.swapped, Nat.shiftLeft_eq]
  omega

theorem ffbyte_lt (h : Header) : h.recordAttrs.ffbyte < 2 ^ 16 := get_lt h.recattr 12 2

theorem isDir_setRecordAttrs (r : RecordAttrs) : (h.setRecordAttrs r).isDir = h.isDir := by
  simp only [isDir, setRecordAttrs, setRecattr]; rw [filechar_put (by omega)]

theorem same_addHiblk (hs : Sound h) (n : ℕ) : Same h (addHiblk h n) := by
  refine ⟨like_setRecordAttrs hs _, isDir_setRecordAttrs _, ?_, ?_⟩
  · rw [addHiblk, efblk_setRecordAttrs]; exact Nat.mod_eq_of_lt (efblk_lt h)
  · rw [addHiblk, ffbyte_setRecordAttrs]; exact Nat.mod_eq_of_lt (ffbyte_lt h)

/-! ## Links and maps -/

theorem get_setExtFid {f : Fid} {off w : ℕ} (hw : off + w ≤ 14 ∨ 20 ≤ off) :
    Field.get (h.setExtFid f).raw off w = Field.get h.raw off w :=
  field_put_apart (by omega)

theorem extFid_setExtFid {f : Fid} (hf : f.Ok) : (h.setExtFid f).extFid = f :=
  get_put_same (by norm_num) hf

theorem fid_setExtFid (f : Fid) : (h.setExtFid f).fid = h.fid := get_put_apart (by omega)

theorem segNum_setExtFid (f : Fid) : (h.setExtFid f).segNum = h.segNum := get_setExtFid (by omega)

theorem mpoffset_setExtFid (f : Fid) : (h.setExtFid f).mpoffset = h.mpoffset := get_setExtFid (by omega)

theorem recordAttrs_setExtFid (f : Fid) : (h.setExtFid f).recordAttrs = h.recordAttrs := by
  simp only [recordAttrs, recattr]; rw [get_setExtFid (by omega)]

theorem Sound.setExtFid (hs : Sound h) (f : Fid) : Sound (h.setExtFid f) :=
  hs.of_get (fun _ => get_setExtFid (by omega)) ((get_setExtFid (by omega)).trans_le hs.inuse)

theorem mapArea_setExtFid (hs : Sound h) (f : Fid) : (h.setExtFid f).mapArea = h.mapArea := by
  have hac : (h.setExtFid f).acoffset = h.acoffset := get_setExtFid (by omega)
  have hin : (h.setExtFid f).mapInuse = h.mapInuse := get_setExtFid (by omega)
  simp only [mapArea, mpoffset_setExtFid, hac, hin]
  refine bytes_congr fun i hi => get_setExtFid ?_
  have := hs.mp_ge
  simp only [area, BLOCK] at hi ⊢
  omega

section setMap
variable {m : List UInt8} (hs : Sound h) (hm : h.setMap m = some h')
include hs hm

theorem fid_setMap : h'.fid = h.fid :=
  get_congr fun _ _ _ _ => hs.get_setMap hm (by omega)

theorem extFid_setMap : h'.extFid = h.extFid :=
  get_congr fun _ _ _ _ => hs.get_setMap hm (by omega)

theorem segNum_setMap : h'.segNum = h.segNum :=
  hs.get_setMap hm (by omega)

theorem idoffset_setMap : h'.idoffset = h.idoffset :=
  hs.get_setMap hm (by omega)

theorem filechar_setMap : h'.filechar = h.filechar :=
  hs.get_setMap hm (by omega)

theorem isDir_setMap : h'.isDir = h.isDir := by
  simp only [isDir, filechar_setMap hs hm]

theorem recordAttrs_setMap : h'.recordAttrs = h.recordAttrs := by
  simp only [recordAttrs, recattr]
  rw [hs.get_setMap hm (by omega)]

theorem linkcount_setMap : h'.linkcount = h.linkcount :=
  hs.get_setMap hm (by omega)

end setMap

theorem encoded_even : ∀ ps : List Pointer, encoded ps % 2 = 0
  | [] => rfl
  | p :: ps => by
    have ih := encoded_even ps
    simp only [encoded, List.map_cons, List.sum_cons] at ih ⊢
    cases p <;> simp only [Pointer.size] <;> omega

theorem decodeMap_setMap {ps : List Pointer} (hs : Sound h) (hf : ∀ p ∈ ps, p.Fits)
    (hm : h.setMap (encodeMap ps) = some h') : decodeMap h'.mapArea = .ok ps := by
  rw [mapArea_setMap hs hm (by rw [length_encodeMap hf]; exact encoded_even ps), decodeMap_encodeMap hf]

/-! ## The highwater mark -/

theorem highwaterMark_congr (hid : h'.idoffset = h.idoffset)
    (hw : 40 ≤ h.idoffset → Field.get h'.raw 76 4 = Field.get h.raw 76 4) :
    h'.highwaterMark = h.highwaterMark := by
  simp only [highwaterMark, hid, highwater]
  split_ifs with h40
  · rw [hw h40]
  · rfl

theorem highwaterMark_put {off w v : ℕ} (hw : 1 ≤ off ∧ (off + w ≤ 76 ∨ 80 ≤ off)) :
    (mk (Field.put h.raw off w v)).highwaterMark = h.highwaterMark :=
  highwaterMark_congr (Field.get_put_apart (by omega)) fun _ => Field.get_put_apart (by omega)

theorem highwaterMark_updateChecksum (h : Header) : h.updateChecksum.highwaterMark = h.highwaterMark :=
  highwaterMark_put (by omega)

theorem highwaterMark_setRecordAttrs (r : RecordAttrs) :
    (h.setRecordAttrs r).highwaterMark = h.highwaterMark := highwaterMark_put (by omega)

theorem highwaterMark_setExtFid (f : Fid) : (h.setExtFid f).highwaterMark = h.highwaterMark :=
  highwaterMark_congr (get_setExtFid (by omega)) fun _ => get_setExtFid (by omega)

theorem highwaterMark_setMap {m : List UInt8} (hs : Sound h) (hm : h.setMap m = some h') :
    h'.highwaterMark = h.highwaterMark :=
  highwaterMark_congr (idoffset_setMap hs hm) fun h40 =>
    get_setMap hm (by omega) (by have := hs.mp; omega)

theorem highwaterMark_setHighwater (v : ℕ) :
    (h.setHighwater v).highwaterMark = h.highwaterMark.map fun _ => v % 2 ^ 32 := by
  have hid : (h.setHighwater v).idoffset = h.idoffset := Field.get_put_apart (by omega)
  simp only [highwaterMark, hid]
  split_ifs
  · simp only [Option.map_some, highwater, setHighwater, Field.get_put_same (show 8 * (76 + 4) ≤ 4096 by omega)]
  · rfl

/-- `h'` is `h` with the map `ps`. -/
structure Mapped (h : Header) (ps : List Pointer) (h' : Header) : Prop where
  sound : h'.Sound
  fid : h'.fid = h.fid
  extFid : h'.extFid = h.extFid
  segNum : h'.segNum = h.segNum
  idoffset : h'.idoffset = h.idoffset
  isDir : h'.isDir = h.isDir
  recordAttrs : h'.recordAttrs = h.recordAttrs
  linkcount : h'.linkcount = h.linkcount
  map : decodeMap h'.mapArea = .ok ps

theorem exists_mapped {ps : List Pointer} (hs : Sound h) (hf : ∀ p ∈ ps, p.Fits)
    (he : encoded ps ≤ h.mapCapacity) : ∃ h', h.setMap (encodeMap ps) = some h' ∧ Mapped h ps h' := by
  obtain ⟨h', hm⟩ := setMap_isSome (m := encodeMap ps) hs (by rw [length_encodeMap hf]; exact he)
  exact ⟨h', hm, hs.of_setMap hm, fid_setMap hs hm, extFid_setMap hs hm, segNum_setMap hs hm,
    idoffset_setMap hs hm, isDir_setMap hs hm, recordAttrs_setMap hs hm, linkcount_setMap hs hm,
    decodeMap_setMap hs hf hm⟩

end Header

/-! ## Fresh headers -/

section fresh
variable {v : Volume} {f : Fid} {nameLen : Option ℕ}

/-- The word a fresh header's map starts at. -/
def Volume.newMp (v : Volume) (nameLen : Option ℕ) : ℕ :=
  match nameLen with
  | some n => 40 + identWords v.level.number n
  | none => 40

theorem Volume.newMp_le (h : ∀ n ∈ nameLen, n ≤ 300) : 40 ≤ v.newMp nameLen ∧ v.newMp nameLen ≤ 228 := by
  unfold Volume.newMp
  cases nameLen with
  | none => simp
  | some n =>
    have := h n rfl
    simp only [identWords, FI5_NAME, FI5_MIN, FI2_LENGTH]
    split_ifs <;> omega

theorem Volume.newHeader_get {off w : ℕ} (hw : off + w ≤ 80) :
    Field.get (v.newHeader f nameLen).raw off w =
      Field.get (((((((default.setIdoffset 40).setMpoffset (v.newMp nameLen)).setAcoffset
        0xff).setRsoffset 0xff).setStruclev (v.level.number <<< 8 + 1)).setFid f).raw) off w := by
  unfold Volume.newHeader
  simp only
  split_ifs with h5
  · rw [Field.get_put_apart (by omega)]; rfl
  · rfl

theorem Volume.fid_newHeader (hf : f.Ok) : (v.newHeader f nameLen).fid = f :=
  (get_congr fun _ _ _ _ => newHeader_get (by omega)).trans (get_put_same (by norm_num) hf)

theorem Volume.newHeader_zero {off w : ℕ} (hw : off + w ≤ 80)
    (hz : 4 ≤ off ∧ off + w ≤ 6 ∨ 14 ≤ off) : Field.get (v.newHeader f nameLen).raw off w = 0 := by
  have hdef : Field.get default.raw off w = 0 := by
    have h0 : default.raw.toNat = 0 := BitVec.toNat_zero
    rw [Field.get, h0, Nat.zero_shiftRight, Nat.zero_mod]
  rw [newHeader_get hw]
  simp (disch := omega) only [setFid, setStruclev, setRsoffset, setAcoffset,
    setMpoffset, setIdoffset, field_put_apart, Field.get_put_apart, hdef]

theorem Volume.newHeader_offsets (v : Volume) (f : Fid) (nameLen : Option ℕ) (hn : ∀ n ∈ nameLen, n ≤ 300) :
    (v.newHeader f nameLen).idoffset = 40 ∧ (v.newHeader f nameLen).mpoffset = v.newMp nameLen ∧
      (v.newHeader f nameLen).acoffset = 255 ∧ (v.newHeader f nameLen).rsoffset = 255 ∧
      (v.newHeader f nameLen).struclev = v.level.number <<< 8 + 1 := by
  have hmp := (v.newMp_le hn).2
  have hlev : v.level.number <<< 8 + 1 < 2 ^ 16 := by cases v.level <;> decide
  simp (disch := omega) only [idoffset, mpoffset, acoffset, rsoffset, struclev,
    newHeader_get, setFid, setStruclev, setRsoffset, setAcoffset,
    setMpoffset, setIdoffset, field_put_apart, Field.get_put_apart, Field.get_put_same]
  omega

theorem Volume.extFid_newHeader : (v.newHeader f nameLen).extFid = zero := by
  simp (disch := omega) only [extFid, Fid.get, newHeader_zero]
  rfl

theorem Volume.sound_newHeader (v : Volume) (hf : f.Ok) (h0 : f.num ≠ 0) (nameLen : Option ℕ)
    (hn : ∀ n ∈ nameLen, n ≤ 300) : (v.newHeader f nameLen).Sound := by
  obtain ⟨h1, h2, h3, h4, h5⟩ := v.newHeader_offsets f nameLen hn
  have hmp := v.newMp_le hn
  have hin : (v.newHeader f nameLen).mapInuse = 0 := newHeader_zero (by omega) (by omega)
  refine ⟨?_, by omega, by omega, by omega, by omega, by omega, by rw [fid_newHeader hf]; exact h0⟩
  rw [h5]
  cases v.level <;> decide

section ext
variable {p : Header} {efid link : Fid} {seg : ℕ}

theorem Volume.segmented (hf : efid.Ok) (h0 : efid.num ≠ 0) (hseg : seg < 2 ^ 16) :
    ((v.newHeader efid none).setSegNum seg).Sound ∧
      ((v.newHeader efid none).setSegNum seg).fid = efid ∧
      ((v.newHeader efid none).setSegNum seg).segNum = seg ∧
      ((v.newHeader efid none).setSegNum seg).mapArea = [] ∧
      ((v.newHeader efid none).setSegNum seg).mapCapacity = 430 := by
  generalize hh : (v.newHeader efid none).setSegNum seg = h
  have hget : ∀ {off w}, off + w ≤ 4 ∨ 6 ≤ off → Field.get h.raw off w =
      Field.get (v.newHeader efid none).raw off w := fun hw => hh ▸ Field.get_put_apart (by omega)
  obtain ⟨-, hmp, hac, -, -⟩ := v.newHeader_offsets efid none (by simp)
  have hin : h.mapInuse = 0 := (hget (by omega)).trans (newHeader_zero (by omega) (by omega))
  have hlen : h.mapArea.length = 0 := by
    simp only [mapArea, hin, length_bytes, area, BLOCK]; omega
  refine ⟨?_, ?_, ?_, List.length_eq_zero_iff.1 hlen, ?_⟩
  · exact (v.sound_newHeader hf h0 none (by simp)).of_get (fun _ => hget (by omega)) (hin ▸ Nat.zero_le _)
  · exact (get_congr fun _ _ _ _ => hget (by omega)).trans (fid_newHeader hf)
  · exact hh ▸ (Field.get_put_same (by norm_num)).trans (Nat.mod_eq_of_lt hseg)
  · have h1 : h.mpoffset = 40 := (hget (by omega)).trans hmp
    have h2 : h.acoffset = 255 := (hget (by omega)).trans hac
    simp only [mapCapacity, h1, h2]
    rfl

theorem Volume.extHeader_spec (hf : efid.Ok) (h0 : efid.num ≠ 0) (hseg : seg < 2 ^ 16) (hl : link.Ok) :
    (v.extHeader p f efid link seg).Sound ∧ (v.extHeader p f efid link seg).fid = efid ∧
      (v.extHeader p f efid link seg).segNum = seg ∧ (v.extHeader p f efid link seg).extFid = link ∧
      (v.extHeader p f efid link seg).mapCapacity = 430 := by
  obtain ⟨hs, hfid, hsn, -, hcap⟩ := v.segmented hf h0 hseg
  unfold Volume.extHeader
  simp only
  have l1 := like_setRecattr hs p.recattr
  have l2 := l1.trans (like_setFilechar (hs.of_like l1) p.filechar)
  have l3 := l2.trans (like_setFileowner (hs.of_like l2) p.fileowner)
  have l4 := l3.trans (like_setFileprot (hs.of_like l3) p.fileprot)
  have l5 := l4.trans (like_setBacklink (hs.of_like l4) f)
  refine ⟨(hs.of_like l5).setExtFid link, ?_, ?_, extFid_setExtFid hl, ?_⟩
  · rw [fid_setExtFid, l5.fid, hfid]
  · rw [segNum_setExtFid, l5.segNum, hsn]
  · have hac : ∀ {h : Header} {g : Fid}, (h.setExtFid g).mapCapacity = h.mapCapacity := by
      intro h g
      simp only [mapCapacity, mpoffset_setExtFid, acoffset]
      rw [get_setExtFid (by omega)]
    rw [hac, l5.mapCapacity, hcap]

end ext

end fresh

namespace Header

def deleted (h : Header) : Header :=
  let h := h.setFilechar (h.filechar ||| fch.MARKDEL)
  (h.setFid ⟨0, h.fid.seq, 0⟩).setChecksum 0

theorem num_deleted (h : Header) : h.deleted.fid.num = 0 := by
  have hfid : ∀ g : Header, (g.setChecksum 0).fid = g.fid :=
    fun g => get_congr fun _ _ _ _ => Field.get_put_apart (by omega)
  have hnum : ∀ g : Header, ((g.setFid ⟨0, g.fid.seq, 0⟩).setChecksum 0).fid.num = 0 := by
    intro g
    have hok : Fid.Ok ⟨0, g.fid.seq, 0⟩ := ⟨by norm_num, (get_ok g.raw 8).seq, by norm_num⟩
    rw [hfid]
    exact congrArg num (get_put_same (by norm_num) hok)
  exact hnum _

theorem isDeleted_deleted (h : Header) : h.deleted.isDeleted = true := by
  have hch : h.deleted.filechar = (h.filechar ||| fch.MARKDEL) % 2 ^ 32 := by
    unfold deleted
    rw [setChecksum, filechar_put (by omega)]
    exact (field_put_apart (by omega)).trans (Field.get_put_same (by omega))
  have hsum : h.deleted.checksum = 0 := (Field.get_put_same (by omega)).trans (by simp)
  simp only [isDeleted, hsum, num_deleted, beq_self_eq_true, Bool.and_true, hch, fch.has, fch.MARKDEL]
  rw [bne_iff_ne]
  intro h0
  have hbit := congrArg (Nat.testBit · 15) h0
  have h15 : Nat.testBit (1 <<< 15) 15 = true := by decide
  simp only [Nat.testBit_and, Nat.testBit_mod_two_pow, Nat.testBit_or, h15, Nat.zero_testBit] at hbit
  simp at hbit

end Header

end Ods
