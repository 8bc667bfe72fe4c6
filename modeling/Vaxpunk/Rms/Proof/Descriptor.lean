/-
  Key descriptors: what the loader writes in one is what the reader finds in it.
-/
import Vaxpunk.Rms.Load

namespace Rms

open Ods (BLOCK)
open List Field KeyDesc

variable {s : Spec} {k : KeySpec} {d : KeyDesc} {n off w v off' w' i : ℕ}
variable {vbns : List ℕ} {tree : Option Tree}

/-! ## Fields -/

namespace KeyDesc

theorem get_set_same (h : off + w ≤ KEY_LEN) : get (d.set off w v).raw off w = v % 2 ^ (8 * w) :=
  get_put_same (by omega)

theorem get_set_apart (h : off' + w' ≤ off ∨ off + w ≤ off') :
    get (d.set off w v).raw off' w' = get d.raw off' w' :=
  get_put_apart h

end KeyDesc

theorem get_foldl_segmentField : ∀ {gs : List (UInt16 × UInt8)} {i : ℕ} {d : KeyDesc},
    (∀ j, i ≤ j → j < i + gs.length → (off + w ≤ 28 + 2 * j ∨ 28 + 2 * j + 2 ≤ off) ∧
      (off + w ≤ 44 + j ∨ 44 + j + 1 ≤ off) ∧ (off + w ≤ 88 + j ∨ 88 + j + 1 ≤ off)) →
    get ((gs.zipIdx i).foldl (fun d g => segmentField k d g.1 g.2) d).raw off w = get d.raw off w := by
  intro gs
  induction gs with
  | nil => intros; rfl
  | cons g gs ih =>
    intro i d h
    obtain ⟨h1, h2, h3⟩ := h i le_rfl (by simp)
    rw [zipIdx_cons, foldl_cons, ih fun j hj hlt => h j (by omega) (by simp only [length_cons]; omega)]
    rw [segmentField, get_set_apart h3, get_set_apart h2, get_set_apart h1]

theorem get_segmentFields (hlen : k.segments.length ≤ 8) (h : off + w ≤ 28 ∨ 52 ≤ off ∧ off + w ≤ 88 ∨ 96 ≤ off) :
    get (segmentFields k d).raw off w = get d.raw off w :=
  get_foldl_segmentField fun j _ hj => by omega

theorem segment_foldl_segmentField : ∀ {gs : List (UInt16 × UInt8)} {i j : ℕ} {d : KeyDesc} {g : UInt16 × UInt8},
    i + gs.length ≤ 8 → gs[j]? = some g →
    get ((gs.zipIdx i).foldl (fun d g => segmentField k d g.1 g.2) d).raw (28 + 2 * (i + j)) 2 = g.1.toNat ∧
      get ((gs.zipIdx i).foldl (fun d g => segmentField k d g.1 g.2) d).raw (44 + (i + j)) 1 = g.2.toNat := by
  intro gs
  induction gs with
  | nil => intro i j d g _ h; cases h
  | cons a gs ih =>
    intro i j d g hi hg
    rw [length_cons] at hi
    rw [zipIdx_cons, foldl_cons]
    cases j with
    | zero =>
      obtain rfl : a = g := by simpa using hg
      have h1 := a.1.toNat_lt
      have h2 := a.2.toNat_lt
      rw [get_foldl_segmentField (fun j hj hlt => by omega), get_foldl_segmentField (fun j hj hlt => by omega)]
      simp only [segmentField, Nat.add_zero]
      constructor
      · rw [get_set_apart (by omega), get_set_apart (by omega),
          KeyDesc.get_set_same (by unfold KEY_LEN; omega), Nat.mod_eq_of_lt (by omega)]
      · rw [get_set_apart (by omega), KeyDesc.get_set_same (by unfold KEY_LEN; omega),
          Nat.mod_eq_of_lt (by omega)]
    | succ j =>
      have := ih (i := i + 1) (j := j) (d := segmentField k d a i) (by omega) hg
      rwa [show i + 1 + j = i + (j + 1) by omega] at this

/-! ## Descriptors -/

/-- The fields of key `n`'s descriptor that are the key's own. -/
structure KeyDesc.Describes (d : KeyDesc) (k : KeySpec) (n : ℕ) : Prop where
  segs : d.segs = k.segs
  segments : d.segments = k.segments.length
  keysz : d.keysz = k.size
  flags : d.flags = k.flags (n = 0) ∨ d.flags = k.flags (n = 0) ||| keyflag.INITIDX
  datatype : d.datatype = k.datatype
  nullchar : d.nullchar = k.nullValue
  ianum : d.ianum = k.indexArea.toNat
  lanum : d.lanum = k.level1Area.toNat
  danum : d.danum = k.dataArea.toNat
  minrecsz : d.minrecsz = k.minRecord % 2 ^ 16

theorem get_name {name : Bytes} (h : off + w ≤ 52 ∨ 84 ≤ off) :
    get (putBytes d.raw 52 (paddedName name)) off w = get d.raw off w := by
  have hlen : (paddedName name).length = 32 := by
    simp [paddedName]
    omega
  exact get_put_apart (by omega)

theorem get_keyDescriptor (hlen : k.segments.length ≤ 8) (h : keyDescriptor s vbns n k tree = .ok d) :
    ∃ ia da d', s.areas[k.indexArea.toNat]? = some ia ∧
      s.areas[k.dataArea.toNat]? = some da ∧
      treeFields vbns (k.flags (n = 0)) (linkFields s n k ia.bktsz.toNat da.bktsz.toNat) tree = .ok d' ∧
      ∀ off w, off + w ≤ 28 ∨ 84 ≤ off ∧ off + w ≤ 88 →
        get d.raw off w = get (ownFields n k ia.bktsz.toNat da.bktsz.toNat d').raw off w := by
  simp only [keyDescriptor, Trap.bind_ok, Trap.at_eq_ok, pure, Except.pure] at h
  obtain ⟨ia, hia, da, hda, d', htree, h⟩ := h
  refine ⟨ia, da, d', hia, hda, htree, fun off w hoff => ?_⟩
  cases h
  split_ifs
  · rw [get_name (by omega), get_segmentFields hlen (by omega)]
  · rw [get_segmentFields hlen (by omega)]

theorem treeFields_spec {flags : UInt8} {d' : KeyDesc} (h : treeFields vbns flags d tree = .ok d') :
    (d'.flags = flags ∨ d'.flags = flags ||| keyflag.INITIDX) ∧
      ∀ off w, off + w ≤ 9 ∨ 10 ≤ off ∧ off + w ≤ 12 ∨ 17 ≤ off ∧ off + w ≤ 84 →
        get d'.raw off w = get d.raw off w := by
  have hflags : ∀ (d : KeyDesc) (f : UInt8), (d.setFlags f).flags = f := by
    intro d f
    rw [KeyDesc.flags, KeyDesc.setFlags, KeyDesc.get_set_same (by decide), Nat.mod_eq_of_lt f.toNat_lt,
      UInt8.ofNat_toNat]
  cases tree with
  | none =>
    cases h
    exact ⟨.inr (hflags _ _), fun off w hoff => get_set_apart (by omega)⟩
  | some t =>
    simp only [treeFields, Trap.bind_ok] at h
    obtain ⟨root, -, first, -, h⟩ := h
    cases h
    refine ⟨.inl (hflags _ _), fun off w hoff => ?_⟩
    rw [KeyDesc.setFlags, get_set_apart (by omega), get_set_apart (by omega),
      get_set_apart (by omega), get_set_apart (by omega)]

theorem segs_keyDescriptor (hlen : k.segments.length ≤ 8)
    (h : keyDescriptor s vbns n k tree = .ok d) (hcount : d.segments = k.segments.length) :
    d.segs = k.segs := by
  simp only [keyDescriptor, Trap.bind_ok, Trap.at_eq_ok, pure, Except.pure] at h
  obtain ⟨ia, -, da, -, d', -, h⟩ := h
  have hget : ∀ i < 8, ∀ off w, off = 28 + 2 * i ∧ w = 2 ∨ off = 44 + i ∧ w = 1 → get d.raw off w =
      get (segmentFields k (ownFields n k ia.bktsz.toNat da.bktsz.toNat d')).raw off w := by
    intro i hi off w hoff
    cases h
    split_ifs
    · exact get_name (by omega)
    · rfl
  rw [segs, hcount, Nat.min_eq_left hlen]
  refine ext_getElem (by simp [KeySpec.segs]) fun i hi _ => ?_
  have hi : i < k.segments.length := by simpa using hi
  obtain ⟨h1, h2⟩ := @segment_foldl_segmentField k k.segments 0 i
    (ownFields n k ia.bktsz.toNat da.bktsz.toNat d') _ (by omega) (List.getElem?_eq_getElem hi)
  rw [Nat.zero_add] at h1 h2
  simp only [getElem_map, getElem_range, KeySpec.segs, position, sizes]
  rw [Nat.mod_eq_of_lt (by omega), hget i (by omega) _ _ (.inl ⟨rfl, rfl⟩), hget i (by omega) _ _ (.inr ⟨rfl, rfl⟩)]
  exact Prod.ext h1 h2

/-- **A key's descriptor** describes the key. -/
theorem keyDescriptor_describes (hlen : k.segments.length ≤ 8) (hsize : k.size ≤ 255)
    (h : keyDescriptor s vbns n k tree = .ok d) : d.Describes k n := by
  obtain ⟨ia, da, d', hia, hda, htree, hget⟩ := get_keyDescriptor hlen h
  obtain ⟨hflags, hlink⟩ := treeFields_spec htree
  have hcount : d.segments = k.segments.length := by
    rw [segments, hget _ _ (by omega)]
    simp (disch := decide) only [ownFields, get_set_apart, KeyDesc.get_set_same]
    omega
  -- each field is the key's own or one that links it, and no later store meets it
  refine ⟨segs_keyDescriptor hlen h hcount, hcount, ?_, ?_, ?_, ?_, ?_, ?_, ?_, ?_⟩ <;>
    simp (disch := decide) only [keysz, KeyDesc.flags, datatype, nullchar, ianum,
      lanum, danum, minrecsz, hget, ownFields, hlink, linkFields, get_set_apart,
      KeyDesc.get_set_same]
  · omega
  · exact hflags
  · rw [Nat.mod_eq_of_lt k.datatype.toNat_lt, UInt8.ofNat_toNat]
  · rw [Nat.mod_eq_of_lt k.nullValue.toNat_lt, UInt8.ofNat_toNat]
  · exact Nat.mod_eq_of_lt k.indexArea.toNat_lt
  · exact Nat.mod_eq_of_lt k.level1Area.toNat_lt
  · exact Nat.mod_eq_of_lt k.dataArea.toNat_lt

/-! ## Flags -/

/-- The flags of a key's switches. -/
def flagByte (dups changes nulls idx key record : Bool) : UInt8 :=
  ([(dups, keyflag.DUPKEYS), (changes, keyflag.CHGKEYS), (nulls, keyflag.NULKEYS), (idx, keyflag.IDX_COMPR),
    (key, keyflag.KEY_COMPR), (record, keyflag.REC_COMPR)].filter Prod.fst).foldl (fun f b => f ||| b.2) 0

theorem flags_eq {primary : Bool} : k.flags primary = flagByte k.dups (k.changes && !primary) (k.nullKey && !primary)
    k.idxCompr k.keyCompr (k.recCompr && primary) := rfl

theorem flagByte_and : ∀ (dups changes nulls idx key record : Bool), ∀ init ∈ [0, keyflag.INITIDX],
    let f := flagByte dups changes nulls idx key record ||| init
    (f &&& keyflag.DUPKEYS != 0) = dups ∧ (f &&& keyflag.NULKEYS != 0) = nulls ∧
      (f &&& keyflag.IDX_COMPR != 0) = idx ∧ (f &&& keyflag.INITIDX != 0) = (init != 0) ∧
      (f &&& keyflag.KEY_COMPR != 0) = key ∧ (f &&& keyflag.REC_COMPR != 0) = record ∧
      (f &&& (keyflag.KEY_COMPR ||| keyflag.REC_COMPR) != 0) = (key || record) := by
  decide +kernel

/-- The switches as a descriptor has them. -/
structure KeyDesc.Switches (d : KeyDesc) (k : KeySpec) (n : ℕ) : Prop where
  dups : d.has keyflag.DUPKEYS = k.dups
  nulls : d.has keyflag.NULKEYS = (k.nullKey && !decide (n = 0))
  idxCompr : d.has keyflag.IDX_COMPR = k.idxCompr
  keyCompr : d.has keyflag.KEY_COMPR = k.keyCompr
  recCompr : d.has keyflag.REC_COMPR = (k.recCompr && decide (n = 0))
  compr : d.has (keyflag.KEY_COMPR ||| keyflag.REC_COMPR) = (k.keyCompr || (k.recCompr && decide (n = 0)))

theorem KeyDesc.Describes.switches (h : d.Describes k n) : d.Switches k n := by
  obtain ⟨init, hinit, hf⟩ : ∃ init ∈ [0, keyflag.INITIDX], d.flags = k.flags (n = 0) ||| init := by
    rcases h.flags with hf | hf
    · exact ⟨0, by simp, by rw [hf, UInt8.or_zero]⟩
    · exact ⟨_, by simp, hf⟩
  obtain ⟨h1, h2, h3, -, h5, h6, h7⟩ := flagByte_and k.dups (k.changes && !decide (n = 0))
    (k.nullKey && !decide (n = 0)) k.idxCompr k.keyCompr (k.recCompr && decide (n = 0)) init hinit
  rw [← flags_eq, ← hf] at h1 h2 h3 h5 h6 h7
  exact ⟨h1, h2, h3, h5, h6, h7⟩

end Rms
