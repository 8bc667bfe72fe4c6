/-
  The data blocks of a module: its header and records, written as one stream cut
  into a chain of blocks, are read back, up to the first record that looks like the
  end marker.
-/
import Vaxpunk.Obj.Proof.Index

namespace Olb

open Codec Obj List Words

/-- Bytes of the stream in a data block. -/
abbrev CHUNK : ℕ := BLOCK - DATA_DATA

theorem chunk_eq : CHUNK = 506 := rfl

def dataBlocks (stream : List Byte) : ℕ := (stream.length + CHUNK - 1) / CHUNK

/-- Block `i` of a stream: a count, which nothing reads, and the next block's
    number, then its part of the stream. -/
def dataBlock (stream : List Byte) (recs : ℕ → ℕ) (vbn i : ℕ) : List Byte :=
  padTo BLOCK ([BitVec.ofNat 8 (recs i), 0] ++
    (put (BitVec.ofNat 32 (if i + 1 < dataBlocks stream then vbn + i + 1 else 0)) ++
      (stream.drop (i * CHUNK)).take CHUNK))

/-- The stream of a module: its header, the records and the end marker. -/
def dataStream (mhd : Mhd) (mhdSize : ℕ) (records : List (List Byte)) : List Byte :=
  ((mhd.bytes.take mhdSize :: records ++ [EOT]).map recordBytes).flatten

theorem writeData_eq (mhd : Mhd) (mhdSize : ℕ) (records : List (List Byte)) : ∃ recs, ∀ vbn,
    writeData mhd mhdSize records vbn =
      (List.range (dataBlocks (dataStream mhd mhdSize records))).flatMap
        (dataBlock (dataStream mhd mhdSize records) recs vbn) :=
  ⟨fun i => ((startsFrom 0 ((mhd.bytes.take mhdSize :: records ++ [EOT]).map recordBytes)).filter
    fun s => i * CHUNK ≤ s ∧ s < (i + 1) * CHUNK).length, fun _ => rfl⟩

section block
variable {stream : List Byte} {recs : ℕ → ℕ} {vbn i : ℕ}

theorem lt_dataBlocks : i < dataBlocks stream ↔ i * CHUNK < stream.length := by
  simp only [dataBlocks, chunk_eq]
  omega

theorem length_dataBlock : (dataBlock stream recs vbn i).length = BLOCK := by
  rw [dataBlock, length_padTo (by simp [BLOCK])]
  simp only [length_append, length_cons, length_nil, length_put, length_take,
    length_drop, BLOCK, chunk_eq]
  omega

theorem link_dataBlock : ofLe (slice (dataBlock stream recs vbn i) 2 4) =
    (if i + 1 < dataBlocks stream then vbn + i + 1 else 0) % 2 ^ 32 := by
  rw [slice, dataBlock, padTo]
  simp only [cons_append, nil_append, drop_succ_cons, drop_zero, append_assoc]
  rw [take_left' (by simp), put, ofLe_le, BitVec.toNat_ofNat]
  simp

theorem slice_dataBlock {p k : ℕ} (hp : i * CHUNK ≤ p) (hk : p + k ≤ (i + 1) * CHUNK)
    (hlen : p + k ≤ stream.length) :
    slice (dataBlock stream recs vbn i) (DATA_DATA + (p - i * CHUNK)) k = (stream.drop p).take k := by
  have hdrop : ∃ z, (dataBlock stream recs vbn i).drop DATA_DATA = (stream.drop (i * CHUNK)).take CHUNK ++ z := by
    rw [dataBlock, padTo]
    simp only [append_assoc]
    rw [← append_assoc, ← append_assoc, append_assoc (_ ++ _)]
    exact ⟨_, drop_left' (by simp [DATA_DATA])⟩
  obtain ⟨z, hz⟩ := hdrop
  rw [slice, ← drop_drop, hz]
  have hlen' : (p - i * CHUNK) + k ≤ ((stream.drop (i * CHUNK)).take CHUNK).length := by
    rw [length_take, length_drop, le_min_iff]
    rw [Nat.succ_mul] at hk
    omega
  rw [drop_append_of_le_length (by omega), take_append_of_le_length (by rw [length_drop]; omega),
    drop_take, take_take, drop_drop, Nat.add_sub_cancel' hp, min_eq_left]
  rw [Nat.succ_mul] at hk
  omega

end block

/-- A file holds the data blocks of a stream from block `vbn` on. -/
structure HasData (file stream : List Byte) (vbn : ℕ) (recs : ℕ → ℕ) : Prop where
  block : ∀ i < dataBlocks stream, block file (BitVec.ofNat 32 (vbn + i)) = .ok (dataBlock stream recs vbn i)
  pos : 0 < vbn
  lt : vbn + dataBlocks stream ≤ 2 ^ 32
  fits : dataBlocks stream * BLOCK ≤ file.length

/-- A place `p` bytes into the stream. -/
structure Data.At (stream : List Byte) (vbn : ℕ) (recs : ℕ → ℕ) (d : Data) (p : ℕ) : Prop where
  lt : d.hops < dataBlocks stream
  block : d.block = dataBlock stream recs vbn d.hops
  le : d.hops * CHUNK ≤ p
  le' : p ≤ (d.hops + 1) * CHUNK
  at_ : d.at_ = DATA_DATA + (p - d.hops * CHUNK)

section read
variable {file stream : List Byte} {vbn : ℕ} {recs : ℕ → ℕ}

/-- **Bytes of the stream** are read over the ends of blocks. -/
theorem Data.take_spec (hd : HasData file stream vbn recs) : ∀ {fuel n p : ℕ} {d : Data} (out : List Byte),
    d.At stream vbn recs p → p + n ≤ stream.length → n ≤ fuel →
    ∃ d', Data.take file fuel d n out = .ok (d', out ++ (stream.drop p).take n) ∧
      d'.At stream vbn recs (p + n)
  | 0, n, p, d, out, hat, _, hf => by
    obtain rfl : n = 0 := by omega
    exact ⟨d, by simp [Data.take], hat⟩
  | fuel + 1, n, p, d, out, hat, hn, hf => by
    unfold Data.take
    by_cases h0 : n = 0
    · subst h0
      exact ⟨d, by simp, hat⟩
    rw [if_neg h0]
    -- what is left to do at a place with a byte of the stream at it
    have hgo : ∀ e : Data, e.At stream vbn recs p → p < (e.hops + 1) * CHUNK → ∃ d',
        Data.take file fuel { e with at_ := e.at_ + min n (BLOCK - e.at_) } (n - min n (BLOCK - e.at_))
          (out ++ slice e.block e.at_ (min n (BLOCK - e.at_))) =
            .ok (d', out ++ (stream.drop p).take n) ∧ d'.At stream vbn recs (p + n) := by
      intro e he hroom
      obtain ⟨helt, hblock, hle, hle', hat_⟩ := he
      have hk : min n (BLOCK - e.at_) = min n ((e.hops + 1) * CHUNK - p) := by
        rw [hat_]
        simp only [Nat.succ_mul, chunk_eq, BLOCK, DATA_DATA] at hle hle' ⊢
        omega
      rw [hk]
      generalize hm : min n ((e.hops + 1) * CHUNK - p) = k
      have hk1 : 0 < k := by omega
      have hk2 : k ≤ n := by omega
      obtain ⟨d', hd', hat'⟩ := Data.take_spec hd (out ++ slice e.block e.at_ k)
        (show ({ e with at_ := e.at_ + k } : Data).At stream vbn recs (p + k) from
          ⟨helt, hblock, by simp only; omega, by simp only; omega, by simp only; omega⟩)
        (show p + k + (n - k) ≤ _ by omega) (show n - k ≤ fuel by omega)
      refine ⟨d', hd'.trans ?_, by rwa [Nat.add_assoc, Nat.add_sub_cancel' hk2] at hat'⟩
      rw [hblock, hat_, slice_dataBlock hle (by omega) (by omega), append_assoc, ← drop_drop,
        ← take_add, Nat.add_sub_cancel' hk2]
    by_cases hend : d.at_ = BLOCK
    · obtain ⟨hlt, hblock, hle, hle', hat_⟩ := hat
      have hp : p = (d.hops + 1) * CHUNK := by
        rw [hat_] at hend
        simp only [Nat.succ_mul, chunk_eq, BLOCK, DATA_DATA] at hend hle hle' ⊢
        omega
      have hnext : d.hops + 1 < dataBlocks stream := lt_dataBlocks.2 (by omega)
      have hfits := hd.fits
      have hvbn := hd.lt
      have hlink : BitVec.ofNat 32 (ofLe (slice d.block 2 4)) = BitVec.ofNat 32 (vbn + (d.hops + 1)) := by
        rw [hblock, link_dataBlock, if_pos hnext, Nat.mod_eq_of_lt (by omega), Nat.add_assoc]
      have hhops : ¬(BitVec.ofNat 32 (vbn + (d.hops + 1)) = 0 ∨ d.hops + 1 > file.length / BLOCK) := by
        rintro (h | h)
        · exact vbn_ne_zero (by omega) (by omega) h
        · rw [gt_iff_lt, Nat.div_lt_iff_lt_mul (by simp [BLOCK])] at h
          have := Nat.mul_le_mul_right BLOCK hnext.le
          omega
      rw [if_pos hend, hlink]
      simp only
      rw [if_neg hhops, hd.block _ hnext]
      exact hgo ⟨_, DATA_DATA, d.hops + 1⟩ ⟨hnext, rfl, hp.ge,
        by rw [hp]; exact Nat.mul_le_mul_right _ (Nat.le_succ _), by simp [hp]⟩
        (by rw [hp, Nat.succ_mul (d.hops + 1)]; simp [chunk_eq])
    · rw [if_neg hend]
      refine hgo d hat ?_
      obtain ⟨hlt, hblock, hle, hle', hat_⟩ := hat
      rw [hat_] at hend
      simp only [Nat.succ_mul, chunk_eq, BLOCK, DATA_DATA] at hend hle hle' ⊢
      omega

theorem length_recordBytes (r : List Byte) : (recordBytes r).length = 2 + (r.length + 1) / 2 * 2 := by
  rw [recordBytes, length_padTo (by omega), length_append, length_put]
  omega

theorem recordBytes_eq (r : List Byte) : ∃ z, recordBytes r = put (BitVec.ofNat 16 r.length) ++ (r ++ z) :=
  ⟨_, by rw [recordBytes, padTo, append_assoc]⟩

/-- **A record is read back.** -/
theorem Data.record_spec (hd : HasData file stream vbn recs) {p : ℕ} {d : Data} {r rest : List Byte}
    (hat : d.At stream vbn recs p) (hs : stream.drop p = recordBytes r ++ rest) (hr : r.length < 2 ^ 16) :
    ∃ d', Data.record file d = .ok (d', r) ∧ d'.At stream vbn recs (p + (recordBytes r).length) := by
  have hlen : p + (recordBytes r).length ≤ stream.length := by
    have := congrArg List.length hs
    rw [length_drop, length_append, length_recordBytes] at this
    rw [length_recordBytes]
    omega
  rw [length_recordBytes] at hlen ⊢
  obtain ⟨z, hz⟩ := recordBytes_eq r
  have hzlen := congrArg List.length hz
  rw [length_recordBytes, length_append, length_append, length_put] at hzlen
  obtain ⟨d₁, h₁, hat₁⟩ := Data.take_spec hd [] hat (show p + 2 ≤ _ by omega) (le_refl 2)
  obtain ⟨d₂, h₂, hat₂⟩ := Data.take_spec hd [] hat₁
    (show p + 2 + (r.length + 1) / 2 * 2 ≤ _ by omega) le_rfl
  have hword : (stream.drop p).take 2 = put (BitVec.ofNat 16 r.length) := by
    rw [hs, hz, append_assoc]
    exact take_left' (length_put _)
  have hrest : (stream.drop (p + 2)).take ((r.length + 1) / 2 * 2) = r ++ z := by
    rw [← drop_drop, hs, hz, append_assoc, drop_left' (by simp)]
    exact take_left' (by rw [length_append]; omega)
  have hn : ofLe (put (BitVec.ofNat 16 r.length)) = r.length := by
    rw [put, ofLe_le, BitVec.toNat_ofNat]
    omega
  refine ⟨d₂, ?_, by rwa [Nat.add_assoc] at hat₂⟩
  rw [nil_append, hword] at h₁
  rw [nil_append, hrest] at h₂
  rw [← hn] at h₂
  refine ok_bind h₁ (ok_bind h₂ ?_)
  change Except.ok (d₂, (r ++ z).take (ofLe (put (BitVec.ofNat 16 r.length)))) = _
  rw [hn, take_left]

/-- **Records are read up to the first that looks like the end marker.** -/
theorem Data.records_spec (hd : HasData file stream vbn recs) : ∀ {rs : List (List Byte)} {fuel p : ℕ} {d : Data},
    d.At stream vbn recs p → stream.drop p = ((rs ++ [EOT]).map recordBytes).flatten →
    (∀ r ∈ rs, r.length < 2 ^ 16) → rs.length < fuel →
    Data.records file fuel d = .ok (rs.takeWhile (· ≠ EOT))
  | _, 0, _, _, _, _, _, hf => absurd hf (by omega)
  | [], fuel + 1, p, d, hat, hs, _, _ => by
    obtain ⟨d', hrec, -⟩ := Data.record_spec hd hat (show _ = recordBytes EOT ++ [] by simpa using hs) (by decide)
    exact ok_bind hrec rfl
  | r :: rs, fuel + 1, p, d, hat, hs, hlen, hf => by
    obtain ⟨hr, hrs⟩ := forall_mem_cons.1 hlen
    rw [cons_append, map_cons, flatten_cons] at hs
    obtain ⟨d', hrec, hat'⟩ := Data.record_spec hd hat hs hr
    refine ok_bind hrec ?_
    by_cases heot : r = EOT
    · subst heot
      rfl
    · have ih := Data.records_spec hd hat' (by rw [← drop_drop, hs, drop_left]) hrs
        (show rs.length < fuel by rw [length_cons] at hf; omega)
      rw [takeWhile_cons_of_pos (by simpa using heot)]
      simp only
      rw [if_neg heot]
      exact ok_bind ih rfl

theorem Mhd.reads (h : Mhd) : Reads Mhd.read h.bytes h :=
  (reads_u8 _).bind ((reads_u8 _).bind ((reads_array _).bind ((reads_u32 _).bind ((reads_u64 _).bind
    ((reads_u8 _).bind ((reads_array _).bind_pure (Reads.pure _)))))))

theorem Mhd.length_bytes (h : Mhd) : h.bytes.length = Mhd.SIZE := by
  simp [Mhd.bytes, Mhd.SIZE, h.fill1.2, h.objid.2]

variable {mhd : Mhd} {size : ℕ} {records : List (List Byte)}

theorem length_dataStream (mhd : Mhd) (size : ℕ) (records : List (List Byte)) :
    2 * records.length < (dataStream mhd size records).length := by
  have h : ∀ rs : List (List Byte), 2 * rs.length ≤ ((rs.map recordBytes).flatten).length := by
    intro rs
    induction rs with
    | nil => simp
    | cons r rs ih =>
      rw [map_cons, flatten_cons, length_append, length_recordBytes, length_cons]
      omega
  have := h (mhd.bytes.take size :: records ++ [EOT])
  simp only [cons_append, length_cons, length_append] at this
  rw [dataStream]
  simp only [cons_append]
  omega

/-- **A module is read back**, its header and its records. -/
theorem moduleRecords_spec (hd : HasData file (dataStream mhd size records) vbn recs)
    (hsize : 16 ≤ size) (hsize' : size ≤ Mhd.SIZE)
    (hmhd : mhd.bytes.take size ++ List.replicate (Mhd.SIZE - size) 0 = mhd.bytes) (hid : mhd.id = MHD_ID)
    (hlen : ∀ r ∈ records, r.length < 2 ^ 16) :
    moduleRecords file (BitVec.ofNat 32 vbn, BitVec.ofNat 16 DATA_DATA) size =
      .ok (mhd, records.takeWhile (· ≠ EOT)) := by
  have hpos : 0 < dataBlocks (dataStream mhd size records) := by
    have := length_dataStream mhd size records
    exact lt_dataBlocks.2 (by omega)
  have hat : Data.At (dataStream mhd size records) vbn recs
      ⟨dataBlock (dataStream mhd size records) recs vbn 0, DATA_DATA, 0⟩ 0 :=
    ⟨hpos, rfl, by simp, by simp, by simp⟩
  have hhead : (mhd.bytes.take size).length = size := by
    rw [length_take, Mhd.length_bytes, min_eq_left hsize']
  have hstream : (dataStream mhd size records).drop 0 =
      recordBytes (mhd.bytes.take size) ++ ((records ++ [EOT]).map recordBytes).flatten := by
    simp [dataStream]
  obtain ⟨d, hrec, hat'⟩ := Data.record_spec hd hat hstream (by rw [hhead]; simp only [Mhd.SIZE] at hsize'; omega)
  have hrecords := Data.records_spec hd hat' (by rw [← drop_drop, hstream, drop_left]) hlen
    (show records.length < file.length by
      have h1 := hd.fits
      have h2 := length_dataStream mhd size records
      have h3 : (dataStream mhd size records).length ≤ dataBlocks (dataStream mhd size records) * BLOCK := by
        simp only [dataBlocks, chunk_eq, BLOCK]; omega
      omega)
  have hblock := hd.block 0 hpos
  rw [Nat.add_zero] at hblock
  rw [moduleRecords, if_neg (by simp only; decide)]
  refine ok_bind hblock (ok_bind hrec ?_)
  simp only
  rw [if_neg (by rw [hhead]; omega), hhead, hmhd]
  refine ok_bind (Mhd.reads mhd).value_all ?_
  rw [if_neg (by simp [hid])]
  exact ok_bind hrecords rfl

theorem length_writeData (mhd : Mhd) (size : ℕ) (records : List (List Byte)) (vbn : ℕ) :
    (writeData mhd size records vbn).length = dataBlocks (dataStream mhd size records) * BLOCK := by
  obtain ⟨recs, h⟩ := writeData_eq mhd size records
  rw [h, length_flatMap_blocks fun i _ => length_dataBlock, length_range]

theorem HasData.of_append {A C : List Byte} (hfile : file = A ++ (writeData mhd size records vbn ++ C))
    (hA : A.length = (vbn - 1) * BLOCK) (h0 : 0 < vbn) (hlt : file.length < 2 ^ 32 * BLOCK) :
    ∃ recs, HasData file (dataStream mhd size records) vbn recs := by
  have hlen := congrArg List.length hfile
  rw [length_append, length_append, length_writeData, hA] at hlen
  have hlt' : vbn + dataBlocks (dataStream mhd size records) ≤ 2 ^ 32 := by
    simp only [BLOCK] at hlen hlt
    omega
  obtain ⟨recs, hw⟩ := writeData_eq mhd size records
  rw [hw] at hfile
  refine ⟨recs, fun i hi => ?_, h0, hlt', by omega⟩
  exact block_flatMap hfile hA (fun _ _ => length_dataBlock) h0 (by omega) (List.getElem?_range hi)

end read

end Olb
