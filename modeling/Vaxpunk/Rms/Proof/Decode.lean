/-
  A record in a primary data bucket: the key is taken out of its segments, key
  and rest are compressed on their own, and `decode` puts them together again.
-/
import Vaxpunk.Rms.Proof.Compress
import Vaxpunk.Rms.Proof.Descriptor
import Vaxpunk.Rms.Proof.Spec

namespace Rms

open List Trap

variable {record key rest : Bytes} {segs : List (ℕ × ℕ)} {p s q : ℕ}

/-! ## The key's segments -/

/-- Segments each of which ends before the next starts. -/
def Ordered (segs : List (ℕ × ℕ)) : Prop := segs.Pairwise fun a b => a.1 + a.2 ≤ b.1

theorem ordered_of_apart : ∀ {segs : List (ℕ × ℕ)}, Spec.Apart segs → Ordered segs := by
  intro segs
  induction segs with
  | nil => exact fun _ => List.Pairwise.nil
  | cons a segs ih =>
    intro h
    cases segs with
    | nil => exact pairwise_singleton _ _
    | cons b segs =>
      have hb : Ordered (b :: segs) := ih h.2
      refine pairwise_cons.2 ⟨fun c hc => ?_, hb⟩
      rcases mem_cons.1 hc with rfl | hc
      · exact h.1
      · have := (pairwise_cons.1 hb).1 c hc
        have := h.1
        omega

theorem keyAt_cons {g : ℕ × ℕ} : keyAt record (g :: segs) = some key ↔ ∃ k, g.1 + g.2 ≤ record.length ∧
    keyAt record segs = some k ∧ key = (record.drop g.1).take g.2 ++ k := by
  simp only [keyAt, bind, Option.bind_eq_some_iff, get?_eq_some, pure, Option.some.injEq]
  constructor
  · rintro ⟨_, ⟨-, hle, rfl⟩, k, hk, rfl⟩
    exact ⟨k, hle, hk, by simp⟩
  · rintro ⟨k, hle, hk, rfl⟩
    exact ⟨_, ⟨by omega, hle, rfl⟩, k, hk, by simp⟩

theorem length_keyAt : ∀ {segs : List (ℕ × ℕ)} {key : Bytes}, keyAt record segs = some key →
    key.length = (segs.map Prod.snd).sum := by
  intro segs
  induction segs with
  | nil => rintro key ⟨⟩; rfl
  | cons g segs ih =>
    intro key h
    obtain ⟨k, hle, hk, rfl⟩ := keyAt_cons.1 h
    simp only [length_append, length_take, length_drop, ih hk, map_cons, sum_cons]
    omega

theorem keyAt_mem : ∀ {segs : List (ℕ × ℕ)} {key : Bytes}, keyAt record segs = some key →
    ∀ g ∈ segs, g.1 + g.2 ≤ record.length := by
  intro segs
  induction segs with
  | nil => intro key _ g hg; cases hg
  | cons g segs ih =>
    intro key h g' hg
    obtain ⟨k, hle, hk, rfl⟩ := keyAt_cons.1 h
    rcases mem_cons.1 hg with rfl | hg
    · exact hle
    · exact ih hk g' hg

theorem range_placedSegs : ∀ {segs : List (ℕ × ℕ)} {pre key : Bytes}, keyAt record segs = some key →
    ∀ t ∈ placedSegs pre.length segs,
      (range (pre ++ key) t.2.1 (t.2.1 + t.2.2) : Trap Error Bytes) = .ok ((record.drop t.1).take t.2.2) := by
  intro segs
  induction segs with
  | nil => intro pre key _ t ht; cases ht
  | cons g segs ih =>
    intro pre key h t ht
    obtain ⟨k, hle, hk, rfl⟩ := keyAt_cons.1 h
    have hlen : ((record.drop g.1).take g.2).length = g.2 := by simp; omega
    rcases mem_cons.1 ht with rfl | ht
    · refine range_eq_ok.2 (get?_eq_some.2 ⟨by omega, by simp; omega, ?_⟩)
      rw [drop_left, take_append_of_le_length (by simp only [hlen]; omega)]
      rw [take_take]
      simp
    · rw [← append_assoc]
      exact ih hk t (by simpa [hlen] using ht)

theorem map_placedSegs : ∀ {segs : List (ℕ × ℕ)} {start : ℕ},
    (placedSegs start segs).map (fun t => (t.1, t.2.2)) = segs := by
  intro segs
  induction segs with
  | nil => intro _; rfl
  | cons g segs ih => intro start; simp [placedSegs, ih]

instance : Std.Total segLe := ⟨fun a b => by unfold segLe; omega⟩

instance : IsTrans _ segLe := ⟨fun a b c => by unfold segLe; omega⟩

theorem map_sort_placedSegs (hpos : ∀ g ∈ segs, 0 < g.2) (hseg : Ordered (segs.insertionSort Spec.pairLe)) :
    ((placedSegs 0 segs).insertionSort segLe).map (fun t => (t.1, t.2.2)) = segs.insertionSort Spec.pairLe := by
  have hperm : (((placedSegs 0 segs).insertionSort segLe).map fun t => (t.1, t.2.2)).Perm
      (segs.insertionSort Spec.pairLe) := by
    refine ((perm_insertionSort segLe _).map _).trans ?_
    rw [map_placedSegs]
    exact (perm_insertionSort Spec.pairLe _).symm
  have hmem : ∀ g ∈ segs.insertionSort Spec.pairLe, 0 < g.2 :=
    fun g hg => hpos g ((mem_insertionSort Spec.pairLe).1 hg)
  -- no two segments start at the same place
  have hdiff : ((segs.insertionSort Spec.pairLe).map Prod.fst).Nodup :=
    pairwise_map.2 (hseg.imp_of_mem fun ha _ hab => by have := hmem _ ha; omega)
  have hle : (segs.insertionSort Spec.pairLe).Pairwise fun a b => a.1 ≤ b.1 := hseg.imp fun h => by omega
  refine List.Perm.eq_of_pairwise ?_ ?_ hle hperm
  · intro a b ha hb hab hba
    exact inj_on_of_nodup_map hdiff (hperm.mem_iff.1 ha) hb (le_antisymm hab hba)
  · rw [pairwise_map]
    exact (pairwise_insertionSort segLe _).imp fun h => by unfold segLe at h; omega

/-! ## Taking the key out, and putting it back -/

theorem length_drain (h : p + s ≤ record.length) : (drain record p s).length = record.length - s := by
  simp only [drain, length_append, length_take, length_drop]
  omega

theorem splice_drain (h : p + s ≤ record.length) :
    (drain record p s).take p ++ (record.drop p).take s ++ (drain record p s).drop p = record := by
  have hp : (record.take p).length = p := by simp; omega
  rw [drain, take_left' hp, drop_left' hp, append_assoc, ← drop_drop, take_append_drop,
    take_append_drop]

/-- The record with segments drained, the last first. -/
def drained (segs : List (ℕ × ℕ)) (record : Bytes) : Bytes :=
  segs.foldr (fun g rest => drain rest g.1 g.2) record

theorem take_drained (hq : q ≤ record.length) (hseg : ∀ g ∈ segs, q ≤ g.1) :
    (drained segs record).take q = record.take q := by
  induction segs with
  | nil => rfl
  | cons g segs ih =>
    have hrest := ih fun g hg => hseg g (mem_cons_of_mem _ hg)
    have hlen : q ≤ (drained segs record).length := by
      have := congrArg length hrest
      simp only [length_take] at this
      omega
    have hg := hseg g (mem_cons_self ..)
    show (drain (drained segs record) g.1 g.2).take q = _
    rw [drain, take_append_of_le_length (by simp; omega), take_take, Nat.min_eq_left hg, hrest]

theorem spliceSegs_drained {ts : List (ℕ × ℕ × ℕ)} {vbn : ℕ} :
    Ordered (ts.map fun t => (t.1, t.2.2)) → (∀ t ∈ ts, t.1 + t.2.2 ≤ record.length) →
    (∀ t ∈ ts, (range key t.2.1 (t.2.1 + t.2.2) : Trap Error Bytes) = .ok ((record.drop t.1).take t.2.2)) →
    spliceSegs key vbn ts (drained (ts.map fun t => (t.1, t.2.2)) record) = .ok record := by
  induction ts with
  | nil => intros; rfl
  | cons t ts ih =>
    intro hord hlen hrange
    obtain ⟨hfirst, hord⟩ := pairwise_cons.1 hord
    obtain ⟨ht, hts⟩ := forall_mem_cons.1 hlen
    obtain ⟨hrt, hrts⟩ := forall_mem_cons.1 hrange
    -- up to the end of this segment the rest is as the record
    have htake := take_drained ht hfirst
    generalize hR : drained (ts.map fun t => (t.1, t.2.2)) record = R at htake ih
    have hRlen : t.1 + t.2.2 ≤ R.length := by
      have := congrArg length htake
      simp only [length_take] at this
      omega
    have hbytes : (record.drop t.1).take t.2.2 = (R.drop t.1).take t.2.2 := by
      rw [take_drop, take_drop, htake]
    show spliceSegs key vbn (t :: ts) (drain (drained _ record) t.1 t.2.2) = _
    rw [hR, spliceSegs, if_neg (by rw [length_drain hRlen]; omega), hrt, hbytes]
    show spliceSegs key vbn ts _ = _
    rw [splice_drain hRlen]
    exact ih hord hts hrts

theorem length_spliceSegs {ts : List (ℕ × ℕ × ℕ)} {vbn : ℕ} : ∀ {r r' : Bytes}, spliceSegs key vbn ts r = .ok r' →
    r'.length = r.length + (ts.map fun t => t.2.2).sum := by
  induction ts with
  | nil => rintro r r' ⟨⟩; rfl
  | cons t ts ih =>
    obtain ⟨pos, start, size⟩ := t
    intro r r' h
    rw [spliceSegs] at h
    split_ifs at h with hlt
    · cases h
    · obtain ⟨b, hb, h⟩ := bind_ok.1 h
      obtain ⟨-, hle, rfl⟩ := get?_eq_some.1 (range_eq_ok.1 hb)
      have hsplit := congrArg length (take_append_drop pos r)
      have hlen : ((key.drop start).take (start + size - start)).length = size := by
        rw [length_take, length_drop]
        omega
      rw [length_append] at hsplit
      rw [ih h]
      simp only [length_append, hlen, map_cons, sum_cons]
      omega

/-! ## Records -/

section decode
variable {k : KeySpec} {d : KeyDesc} {vbn : ℕ}

theorem decodeKey_encodeKey (hk : k.Sound) (hd : d.Describes k 0) (hkey : k.keyOf record = some key)
    (prev : Option Bytes) (rest : Bytes) : decodeKey d (encodeKey k.keyCompr key prev ++ rest) (prev.getD []) vbn =
      .ok (key, (encodeKey k.keyCompr key prev).length) := by
  have hlen : key.length = k.size := length_keyAt hkey
  have hpos := hk.size_pos
  have hsize := hk.size
  rw [decodeKey, hd.switches.keyCompr, hd.keysz]
  cases k.keyCompr with
  | true =>
    rw [if_pos rfl, encodeKey, if_pos rfl, ← hlen, expandKey_compressKey]
    · rfl
    · exact ne_nil_of_length_pos (by omega)
    · omega
    · intro p hp
      obtain ⟨rfl, -⟩ := Option.filter_eq_some_iff.1 hp
      rfl
  | false =>
    have hget : get? (key ++ rest) 0 k.size = some key :=
      get?_eq_some.2 ⟨by omega, by simp; omega, by simp [← hlen]⟩
    rw [if_neg (by simp), encodeKey, if_neg (by simp), hget, hlen]
    rfl

theorem decodeRest_eq (hd : d.Describes k 0) (h : k.recCompr → rest.length ≤ MAX_RECORD) :
    decodeRest d (if k.recCompr then compressSegments rest else rest) vbn = .ok rest := by
  have hrec : d.has keyflag.REC_COMPR = k.recCompr := by simpa using hd.switches.recCompr
  rw [decodeRest, hrec]
  cases hc : k.recCompr with
  | false => rfl
  | true =>
    rw [if_pos rfl, if_pos rfl, orErr_eq_ok]
    exact expandSegments_compressSegments (h hc) _ le_rfl

theorem length_decodeRest {b r : Bytes} (hd : d.Describes k 0) (hc : k.recCompr) (h : decodeRest d b vbn = .ok r) :
    r.length ≤ MAX_RECORD := by
  have hrec : d.has keyflag.REC_COMPR = true := by simpa [hc] using hd.switches.recCompr
  rw [decodeRest, if_pos hrec, orErr_eq_ok] at h
  exact length_expandSegments (Nat.zero_le _) h

theorem withoutKey_eq : withoutKey segs record = drained (segs.insertionSort Spec.pairLe) record := rfl

theorem spliceSegs_withoutKey (hpos : ∀ g ∈ segs, 0 < g.2) (hseg : Ordered (segs.insertionSort Spec.pairLe))
    (hkey : keyAt record segs = some key) :
    spliceSegs key vbn ((placedSegs 0 segs).insertionSort segLe) (withoutKey segs record) = .ok record := by
  have hmap := map_sort_placedSegs hpos hseg
  rw [withoutKey_eq, ← hmap]
  rw [← hmap] at hseg
  refine spliceSegs_drained hseg (fun t ht => ?_) fun t ht => ?_
  · have ht := (mem_insertionSort segLe).1 ht
    refine keyAt_mem hkey (t.1, t.2.2) ?_
    have hmem := mem_map_of_mem (f := fun t : ℕ × ℕ × ℕ => (t.1, t.2.2)) ht
    rwa [map_placedSegs] at hmem
  · exact @range_placedSegs record segs [] key hkey t ((mem_insertionSort segLe).1 ht)

theorem length_of_spliceSegs {r : Bytes} (hpos : ∀ g ∈ segs, 0 < g.2)
    (hseg : Ordered (segs.insertionSort Spec.pairLe)) (hkey : keyAt record segs = some key)
    (h : spliceSegs key vbn ((placedSegs 0 segs).insertionSort segLe) r = .ok record) :
    r.length = (withoutKey segs record).length := by
  have h1 := length_spliceSegs h
  have h2 := length_spliceSegs (@spliceSegs_withoutKey record key segs vbn hpos hseg hkey)
  omega

theorem decode_encodeRecord_of_describes (hk : k.Sound) (hd : d.Describes k 0) (hkey : k.keyOf record = some key)
    (prev : Option Bytes) : decode d (encodeRecord k record key prev) (prev.getD []) vbn = .ok (key, record) ↔
      (k.recCompr → (withoutKey k.segs record).length ≤ MAX_RECORD) := by
  have hcompr : d.has (keyflag.KEY_COMPR ||| keyflag.REC_COMPR) = (k.keyCompr || k.recCompr) := by
    simpa using hd.switches.compr
  rw [decode, hcompr, encodeRecord]
  by_cases hc : k.keyCompr ∨ k.recCompr
  · have hord := ordered_of_apart (hk.apart hc)
    have hdrop : ∀ r : Bytes, (range (encodeKey k.keyCompr key prev ++ r) (encodeKey k.keyCompr key prev).length
        (encodeKey k.keyCompr key prev ++ r).length : Trap Error Bytes) = .ok r := fun r =>
      range_eq_ok.2 (get?_eq_some.2 ⟨by simp, le_rfl, by simp⟩)
    rw [if_neg (not_not.2 (Bool.or_eq_true _ _ ▸ hc)), if_neg (fun h => hc.elim h.1 h.2)]
    simp only [decodeKey_encodeKey hk hd hkey, hd.segs, bind_ok, Except.ok.injEq, exists_eq_left', hdrop]
    constructor
    · rintro ⟨r, hr, record', hrecord, h⟩ hrec
      cases h
      exact length_of_spliceSegs hk.nonempty hord hkey hrecord ▸ length_decodeRest hd hrec hr
    · intro hlen
      exact ⟨_, decodeRest_eq hd hlen, record, spliceSegs_withoutKey hk.nonempty hord hkey, rfl⟩
  · have hplain : d.keyOf record = some key := by rw [KeyDesc.keyOf, hd.segs]; exact hkey
    rw [if_pos (fun h => hc (Bool.or_eq_true _ _ ▸ h)), if_pos (not_or.1 hc), hplain]
    exact ⟨fun _ hrec => absurd (.inr hrec) hc, fun _ => rfl⟩

/-- **A stored record** gives back the record and its key, unless data
    compression is asked of more than the longest record there can be. -/
theorem decode_encodeRecord {s : Spec} {vbns : List ℕ} {tree : Option Tree} (hk : k.Sound)
    (hd : keyDescriptor s vbns 0 k tree = .ok d) (hkey : k.keyOf record = some key) (prev : Option Bytes) :
    decode d (encodeRecord k record key prev) (prev.getD []) vbn = .ok (key, record) ↔
      (k.recCompr → (withoutKey k.segs record).length ≤ MAX_RECORD) :=
  decode_encodeRecord_of_describes hk (keyDescriptor_describes hk.segments.2 hk.size hd) hkey prev

/-- The first byte, with data compression. -/
def comprKey : KeySpec := { KeySpec.string 0 1 with recCompr := true }

def comprSpec : Spec := ⟨rfmVAR, 0, 0, [⟨1, 0, 0⟩], [comprKey], 0⟩

theorem sound_comprKey : comprKey.Sound :=
  ((validate_valid (s := comprSpec) rfl).key 0 comprKey rfl).sound

theorem keyDescriptor_comprKey : ∃ d, keyDescriptor comprSpec [] 0 comprKey none = .ok d := ⟨_, rfl⟩

theorem decode_encodeRecord_short : ∃ d, keyDescriptor comprSpec [] 0 comprKey none = .ok d ∧
    (decode d (encodeRecord comprKey [65, 66, 67] [65] none) [] 1 = .ok ([65], [65, 66, 67]) ↔
      (comprKey.recCompr → (withoutKey comprKey.segs [65, 66, 67]).length ≤ MAX_RECORD)) := by
  obtain ⟨d, hd⟩ := keyDescriptor_comprKey
  exact ⟨d, hd, decode_encodeRecord sound_comprKey hd rfl none⟩

/-- A record of 65,537 bytes does not come back. -/
theorem decode_encodeRecord_long : comprSpec.validate = .ok () ∧ ∃ d,
    keyDescriptor comprSpec [] 0 comprKey none = .ok d ∧ comprKey.keyOf (List.replicate 65537 65) = some [65] ∧
      decode d (encodeRecord comprKey (List.replicate 65537 65) [65] none) [] 1 ≠
        .ok ([65], List.replicate 65537 65) := by
  have hkey : keyAt (replicate 65537 65) [(0, 1)] = some [65] :=
    keyAt_cons.2 ⟨[], by rw [length_replicate]; decide, rfl, by rw [drop_zero, take_replicate]; rfl⟩
  obtain ⟨d, hd⟩ := keyDescriptor_comprKey
  refine ⟨rfl, d, hd, hkey, fun h => ?_⟩
  have hlen := (decode_encodeRecord_of_describes sound_comprKey
    (keyDescriptor_describes (by decide) (by decide) hd) hkey none).1 h rfl
  have hrest : (drain (replicate 65537 65) 0 1).length = 65536 := by
    rw [length_drain (by rw [length_replicate]; decide), length_replicate]
  exact absurd (hrest ▸ hlen : 65536 ≤ MAX_RECORD) (by decide)

end decode

end Rms
