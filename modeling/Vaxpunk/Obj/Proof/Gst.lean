/-
  A shareable image's symbol vector is read back from its GST (`Obj.gst`).  The
  entries are written unpadded and read padded to a quadword; both are the same
  bytes, so that the records read back are the padded ones.
-/
import Vaxpunk.Obj.Gst
import Vaxpunk.Obj.Proof.File

namespace Obj

open Codec List Record Entry

variable {α β : Type}
variable {entries : List Entry}

/-! ## Groups -/

theorem flatten_chunks {n : ℕ} (hn : 0 < n) (l : List α) : (chunks n l).flatten = l := by
  have hprefix : ∀ k, ((List.range k).map fun i => (l.drop (n * i)).take n).flatten = l.take (n * k) := by
    intro k
    induction k with
    | zero => simp
    | succ k ih => simp [range_succ, ih, Nat.mul_succ, take_add]
  have hlen : l.length ≤ n * ((l.length + n - 1) / n) := by
    have := Nat.lt_mul_div_succ (l.length + n - 1) hn
    rw [Nat.mul_add] at this
    omega
  rw [chunks, hprefix, take_of_length_le hlen]

theorem chunks_map (n : ℕ) (f : α → β) (l : List α) :
    chunks n (l.map f) = (chunks n l).map (List.map f) := by
  simp [chunks, Function.comp_def]

/-! ## Entries -/

/-- A subrecord as it is read: what is kept as bytes includes the padding. -/
def Gsd.padded : Gsd → Gsd
  | other gsdtyp data => other gsdtyp (data ++ (other gsdtyp data).padding)
  | g => g

theorem Gsd.dvd_padded (g : Gsd) : 8 ∣ 4 + (g.body ++ g.padding).length := by
  simp only [padding, length_append, length_replicate]
  omega

theorem Gsd.bytes_padded (g : Gsd) : g.padded.bytes = g.bytes := by
  cases g with
  | other t data =>
    have hdvd := dvd_padded (other t data)
    have hp : (other t (data ++ (other t data).padding)).padding = [] := by
      simp only [body] at hdvd
      rw [padding, body, show ∀ n, 8 ∣ n → (n + 7) / 8 * 8 - n = 0 by omega]
      · rfl
      · exact hdvd
    rw [padded, bytes, hp, append_nil]
    rfl
  | psc p => rfl
  | sdef d => rfl
  | sref r => rfl

theorem Egst.reads {e : Egst} (hn : nameOk e.name = true) : Reads Egst.read e.bytes e :=
  (reads_u8 _).bind <| (reads_u8 _).bind <| (reads_u16 _).bind <| (reads_u64 _).bind <|
    (reads_u64 _).bind <| (reads_u64 _).bind <| (reads_u32 _).bind <|
      (reads_name hn).bind_pure (Reads.pure e)

namespace Entry

/-- The subrecords of the entries from index `k` on. -/
def symgs (entries : List Entry) (k : ℕ) : List Gsd := (entries.zipIdx k).map fun p => p.1.symg p.2

def size (e : Entry) : ℕ := (44 + e.1.length) / 8 * 8

theorem length_symg (e : Entry) (i : ℕ) : (e.symg i).bytes.length = e.size := by
  simp only [symg, Gsd.bytes, length_framed, Gsd.body, Gsd.padding, Egst.bytes, putName, size,
    length_append, length_put, length_replicate]
  omega

theorem lengths_symgs (entries : List Entry) (k : ℕ) :
    (symgs entries k).map (·.bytes.length) = entries.map size := by
  have hfst := congrArg (List.map size) (zipIdx_map_fst k entries)
  rw [← hfst, symgs, map_map, map_map]
  exact map_congr_left fun p _ => length_symg p.1 p.2

theorem addSymg_padded {e : Entry} (h : nameOk e.1 = true) (entries : List Entry) :
    addSymg entries (e.symg entries.length).padded = .ok (entries ++ [e]) := by
  have hflag : (!has (sym.DEF ||| sym.UNI ||| sym.REL ||| if e.2.2 then 0 else sym.NORM) sym.NORM) = e.2.2 := by
    cases e.2.2 <;> rfl
  refine ok_bind ((Egst.reads h).value _) ?_
  rw [if_neg (by simp), hflag]
  rfl

theorem foldlM_symgs : ∀ {before : List Entry},
    (∀ e ∈ entries, nameOk e.1 = true) →
    ((symgs entries before.length).map Gsd.padded).foldlM addSymg before = .ok (before ++ entries) := by
  induction entries with
  | nil => exact fun _ => by simp [symgs]; rfl
  | cons e entries ih =>
    intro before h
    obtain ⟨he, hrest⟩ := forall_mem_cons.mp h
    have hnext := @ih (before ++ [e]) hrest
    rw [length_append, length_singleton, append_assoc] at hnext
    exact ok_bind (addSymg_padded he before) hnext

end Entry

/-! ## Records -/

section
variable {name ident : Name} {entries : List Gsd}

theorem gstRecords_bytes :
    (gstRecords name ident (entries.map Gsd.padded)).map bytes =
      (gstRecords name ident entries).map bytes := by
  have hgroup : ∀ c : List Gsd, (gsd (c.map Gsd.padded)).bytes = (gsd c).bytes := fun c => by
    simp only [bytes, body, flatMap_map, Gsd.bytes_padded]
    rfl
  simp [gstRecords, chunks_map, hgroup]

theorem subrecords_gstRecords :
    (gstRecords name ident entries).flatMap subrecords = abs :: entries := by
  have hflat := flatten_chunks (n := 100) (by decide) entries
  simp only [gstRecords, flatMap_append, flatMap_map, subrecords]
  simp [subrecords, flatMap_id', hflat]

/-- The sizes of a GST's records. -/
def Fits (sizes : List ℕ) : Prop := ∀ c ∈ chunks 100 sizes, 8 + c.sum ≤ MAX_RECORD

theorem length_group (c : List Gsd) :
    (gsd c).bytes.length = 8 + (c.map (·.bytes.length)).sum := by
  rw [bytes, length_framed, body, length_append, length_put, length_flatMap]
  omega

theorem fits_iff {sizes : List ℕ} (h : entries.map (·.bytes.length) = sizes) :
    Fits sizes ↔ ∀ c ∈ chunks 100 entries, (gsd c).bytes.length ≤ MAX_RECORD := by
  simp [Fits, ← h, chunks_map, length_group]

theorem parseGsd_others {rel : List Bool} : ∀ {subs : List Gsd},
    (∀ g ∈ subs, ∃ t data, g = .other t data) → parseGsd rel subs = some rel
  | [], _ => rfl
  | g :: subs, h => by
    obtain ⟨⟨t, data, rfl⟩, hrest⟩ := forall_mem_cons.mp h
    simpa only [parseGsd] using parseGsd_others hrest

theorem parses_groups {rel : List Bool} {r : Record} (hr : parses rel [r] = true) : ∀ {cs : List (List Gsd)},
    (∀ c ∈ cs, ∀ g ∈ c, ∃ t data, g = .other t data) → parses rel (cs.map .gsd ++ [r]) = true
  | [], _ => hr
  | c :: cs, h => by
    obtain ⟨hc, hrest⟩ := forall_mem_cons.mp h
    exact parses_cons.mpr ⟨rel, parseGsd_others hc, parses_groups hr hrest⟩

theorem mem_of_mem_chunks {c : List α} {l : List α} {a : α} (hc : c ∈ chunks 100 l) (ha : a ∈ c) : a ∈ l := by
  rw [← flatten_chunks (n := 100) (by decide) l]
  exact mem_flatten.mpr ⟨c, hc, ha⟩

theorem gstRecords_bounds (hname : nameOk name = true) (hident : nameOk ident = true)
    (hsize : ∀ c ∈ chunks 100 entries, (gsd c).bytes.length ≤ MAX_RECORD)
    (hother : ∀ g ∈ entries, ∃ t data, g = .other t data) :
    ∀ r ∈ gstRecords name ident entries,
      (∀ s ∈ r.names, nameOk s = true) ∧ r.bytes.length ≤ MAX_RECORD := by
  intro r hr
  simp only [gstRecords, mem_append, mem_cons, mem_map, not_mem_nil, or_false] at hr
  rcases hr with ((rfl | rfl) | ⟨c, hc, rfl⟩) | rfl
  · refine ⟨by simp [names, hname, hident], ?_⟩
    simp only [nameOk, Bool.and_eq_true, decide_eq_true_eq] at hname hident
    simp only [bytes, length_framed, body, Mhd.bytes, putName, MAX_RECORD,
      length_append, length_put, length_replicate]
    omega
  · decide
  · refine ⟨fun s hs => ?_, hsize c hc⟩
    obtain ⟨g, hg, hs⟩ := mem_flatMap.mp hs
    obtain ⟨t, data, rfl⟩ := hother g (mem_of_mem_chunks hc hg)
    cases hs
  · decide

theorem gstRecords_wellFormed (hother : ∀ g ∈ entries, ∃ data, g = .other SYMG data ∧ 8 ∣ 4 + data.length)
    {r : Record} (hr : r ∈ gstRecords name ident entries)
    (hbounds : (∀ s ∈ r.names, nameOk s = true) ∧ r.bytes.length ≤ MAX_RECORD) :
    r.WellFormed ∧ r.Native := by
  simp only [gstRecords, mem_append, mem_cons, mem_map, not_mem_nil, or_false] at hr
  rcases hr with ((rfl | rfl) | ⟨c, hc, rfl⟩) | rfl
  · exact ⟨⟨hbounds.1, hbounds.2, by simp, by simp⟩, rfl⟩
  · exact ⟨⟨hbounds.1, hbounds.2, by simp [abs, Gsd.WellFormed], by simp⟩, trivial⟩
  · refine ⟨⟨hbounds.1, hbounds.2, ?_, by simp⟩, trivial⟩
    rintro subs ⟨⟩ g hg
    obtain ⟨data, rfl, hdvd⟩ := hother g (mem_of_mem_chunks hc hg)
    exact ⟨by decide, by decide, hdvd⟩
  · exact ⟨⟨hbounds.1, hbounds.2, by simp, by simp⟩, trivial⟩

theorem reads_gstSize : ∀ {rs : List Record}, (∀ r ∈ rs, r.WellFormed) →
    Reads (gstSize rs.length) (rs.map bytes).flatten (rs.map bytes).flatten.length
  | [], _ => Reads.pure 0
  | r :: rs, h => by
    obtain ⟨hr, hrest⟩ := forall_mem_cons.mp h
    have hframe := reads_framed "GST record size" r.rectyp (length_body_lt hr.size)
    rw [map_cons, flatten_cons, length_append, bytes, length_framed]
    exact hframe.bind ((reads_gstSize hrest).bind_pure (Reads.pure _))

end

/-! ## The table -/

theorem other_symgs {k : ℕ} :
    ∀ g ∈ symgs entries k, ∃ t data, g = .other t data := by
  intro g hg
  obtain ⟨p, -, rfl⟩ := mem_map.mp hg
  exact ⟨_, _, rfl⟩

theorem padded_symgs {k : ℕ} :
    ∀ g ∈ (symgs entries k).map Gsd.padded, ∃ data, g = .other SYMG data ∧ 8 ∣ 4 + data.length := by
  intro g hg
  simp only [symgs, mem_map] at hg
  obtain ⟨g', ⟨p, -, rfl⟩, rfl⟩ := hg
  exact ⟨_, rfl, Gsd.dvd_padded (p.1.symg p.2)⟩

theorem parseGst_gstRecords {name ident : Name} {count : BitVec 32}
    (h : ∀ e ∈ entries, nameOk e.1 = true) (hname : nameOk name = true)
    (hident : nameOk ident = true) (hfits : Fits (entries.map size)) {records : List Record}
    (hr : records = gstRecords name ident (symgs entries 0))
    (hcount : count.toNat = records.length) (rest : List Byte) :
    parseGst (records.flatMap bytes ++ rest) count = .ok entries := by
  subst hr
  set padded := (symgs entries 0).map Gsd.padded with hp
  have hbytes : padded.map (·.bytes.length) = entries.map size := by
    rw [← lengths_symgs entries 0, hp, map_map]
    exact map_congr_left fun g _ => congrArg List.length (Gsd.bytes_padded g)
  have hother : ∀ g ∈ padded, ∃ t data, g = .other t data := fun g hg => by
    obtain ⟨data, rfl, -⟩ := padded_symgs g hg
    exact ⟨_, data, rfl⟩
  have hbounds := gstRecords_bounds hname hident ((fits_iff hbytes).mp hfits) hother
  have hwell : ∀ r ∈ gstRecords name ident padded, r.WellFormed ∧ r.Native := fun r hr =>
    gstRecords_wellFormed padded_symgs hr (hbounds r hr)
  have hparses : parses [] (gstRecords name ident padded) = true :=
    @parses_groups [false] _ rfl _ fun c hc g hg => hother g (mem_of_mem_chunks hc hg)
  have hsize := (reads_gstSize fun r hr => (hwell r hr).1).value rest
  have hparse := (steps_records hwell hparses).all
  have hlen : (gstRecords name ident padded).length = count.toNat := by
    rw [hcount, ← length_map bytes, gstRecords_bytes, length_map]
  rw [gstRecords_bytes, ← flatMap_def] at hsize hparse
  rw [hlen] at hsize
  refine ok_bind hsize ?_
  rw [take_left]
  refine ok_bind hparse ?_
  rw [subrecords_gstRecords]
  exact @foldlM_symgs entries [] h

theorem fits_of_write {name ident : Name} {file : List Byte}
    (h : File.write (gstRecords name ident (symgs entries 0)) = some file) :
    nameOk name = true ∧ nameOk ident = true ∧ Fits (entries.map size) := by
  have hasserts := Option.isSome_iff_exists.mpr ⟨file, h⟩
  simp only [File.write, Option.isSome_ite, all_eq_true] at hasserts
  have hheader := hasserts _ (mem_cons_self ..)
  simp only [asserts, names, all_cons, Bool.and_eq_true] at hheader
  refine ⟨hheader.1.1.1, hheader.1.1.2.1, (fits_iff (lengths_symgs entries 0)).mpr fun c hc => ?_⟩
  have hgroup := hasserts (.gsd c) (by simp [gstRecords, hc])
  simp only [asserts, Bool.and_eq_true, decide_eq_true_eq] at hgroup
  exact hgroup.2

/-- **A symbol vector is read back from its GST** exactly if each of its records
    fits in the size of a record, which depends on the lengths of the names in each
    group of a hundred. -/
theorem gst_reads_back (name ident : Name) (entries : List Entry) (h : ∀ e ∈ entries, nameOk e.1 = true) :
    ∃ records, gst name ident entries = some records ∧
      (((∀ r ∈ records, r.bytes.length ≤ MAX_RECORD) ∧
        ∃ file, File.write records = some file ∧ ∀ (count : BitVec 32) (rest : List Byte),
          count.toNat = records.length → parseGst (file ++ rest) count = .ok entries) ↔
      nameOk name = true ∧ nameOk ident = true ∧ Fits (entries.map size)) := by
  refine ⟨gstRecords name ident (symgs entries 0), if_pos (all_eq_true.mpr h), ?_, ?_⟩
  · exact fun ⟨_, file, hfile, _⟩ => fits_of_write hfile
  · rintro ⟨hname, hident, hfits⟩
    have hbounds := gstRecords_bounds hname hident
      ((fits_iff (lengths_symgs entries 0)).mp hfits) other_symgs
    refine ⟨fun r hr => (hbounds r hr).2, _, if_pos (all_eq_true.mpr fun r hr => ?_), ?_⟩
    · simp only [asserts, Bool.and_eq_true, all_eq_true, decide_eq_true_eq]
      exact ⟨⟨(hbounds r hr).1, parts_lt (hbounds r hr).2⟩, (hbounds r hr).2⟩
    · exact fun count rest hcount => parseGst_gstRecords h hname hident hfits rfl hcount rest

def twoEntries : List Entry := [([0x41], 0x10000, false), ([0x42, 0x43], 0x20000, true)]

theorem gst_reads_back_two : ∃ records file, gst [0x53] [] twoEntries = some records ∧
    File.write records = some file ∧ parseGst file 4 = .ok twoEntries := by
  obtain ⟨records, hgst, hiff⟩ := gst_reads_back [0x53] [] twoEntries (by decide)
  obtain ⟨-, file, hfile, hparse⟩ := hiff.mpr ⟨by decide, by decide, by unfold Fits; decide⟩
  have hlen : records.length = 4 := by
    cases hgst
    rfl
  refine ⟨records, file, hgst, hfile, ?_⟩
  simpa using hparse 4 [] (by rw [hlen]; rfl)

/-- Names as long as the format allows. -/
def longNames : List Entry := List.replicate 28 (List.replicate 255 0x41, 0, false)

/-- Twenty-eight of the longest names are too much for a record. -/
theorem gst_too_long : (∀ e ∈ longNames, nameOk e.1 = true) ∧
    ∃ records, gst [0x53] [] longNames = some records ∧ File.write records = none := by
  have hnames : ∀ e ∈ longNames, nameOk e.1 = true := by
    intro e he
    rw [eq_of_mem_replicate he, nameOk, isAscii, length_replicate, all_replicate]
    rfl
  have hsizes : longNames.map size = List.replicate 28 296 := by
    rw [longNames, map_replicate, size, length_replicate]
  refine ⟨hnames, _, if_pos (all_eq_true.mpr hnames), ?_⟩
  refine Option.eq_none_iff_forall_ne_some.mpr fun file hfile => ?_
  have hfits := (fits_of_write hfile).2.2
  rw [hsizes, Fits] at hfits
  revert hfits
  decide

end Obj
