/-
  Laying a plan out: where each bucket goes, and when the block numbers fit in
  their 32 bits.
-/
import Vaxpunk.Rms.Proof.Plan

namespace Rms

open Ods (BLOCK)
open List Trap List

variable {i a n : ℕ} {file : Bytes} {trees : List (Option Tree)}

/-! ## Block numbers

The numbers of a layout, without a limit. -/

section numbers
variable (s : Spec) (bs : List Bucket)

def bucketBlocks (b : Bucket) : ℕ := ((s.areas[b.area]?).map fun a => a.bktsz.toNat).getD 0

/-- The blocks buckets use in area `a`. -/
def usedBlocks (a : ℕ) : ℕ := ((bs.filter fun b => b.area = a).map (bucketBlocks s)).sum

def extentSizes : List ℕ := s.areas.zipIdx.map fun a => max (usedBlocks s bs a.2) a.1.alloc.toNat

/-- The blocks of the file before they are rounded to clusters. -/
def totalBlocks : ℕ := areaVbn s + areaBlocks s - 1 + (extentSizes s bs).sum

def roundUp (n k : ℕ) : ℕ := (n + k - 1) / k * k

/-- All block numbers are 32-bit numbers. -/
structure Room : Prop where
  total : totalBlocks s bs + 1 < 2 ^ 32
  rounded : roundUp (totalBlocks s bs) (max s.cluster.toNat 1) < 2 ^ 32

end numbers

variable {s : Spec} {ps N : ℕ} {p : Plan} {bs : List Bucket} {b : Bucket}

variable {f : ℕ → ℕ} {next : ℕ} {es v : List ℕ}

theorem usedBlocks_cons (b : Bucket) (bs : List Bucket) (a : ℕ) :
    usedBlocks s (b :: bs) a = (if b.area = a then bucketBlocks s b else 0) + usedBlocks s bs a := by
  unfold usedBlocks
  by_cases h : b.area = a
  · rw [filter_cons_of_pos (by simpa using h), map_cons, sum_cons, if_pos h]
  · rw [filter_cons_of_neg (by simpa using h), if_neg h, Nat.zero_add]

theorem usedBlocks_append (bs bs' : List Bucket) (a : ℕ) :
    usedBlocks s (bs ++ bs') a = usedBlocks s bs a + usedBlocks s bs' a := by
  simp [usedBlocks]

theorem usedBlocks_take_add (h : bs[i]? = some b) (ha : b.area = a) :
    usedBlocks s (bs.take i) a + bucketBlocks s b + usedBlocks s (bs.drop (i + 1)) a = usedBlocks s bs a := by
  obtain ⟨hi, rfl⟩ := List.getElem?_eq_some_iff.1 h
  have hsplit := usedBlocks_append (s := s) (bs.take i) (bs.drop i) a
  rw [take_append_drop, drop_eq_getElem_cons hi, usedBlocks_cons, if_pos ha] at hsplit
  omega

theorem bucketBlocks_eq {a : AreaSpec} (ha : s.areas[b.area]? = some a) : bucketBlocks s b = a.bktsz.toNat := by
  rw [bucketBlocks, ha]
  rfl

theorem set_map_range :
    ((range s.areas.length).map f).set b.area (f b.area + bucketBlocks s b) =
      (range s.areas.length).map fun a => f a + if b.area = a then bucketBlocks s b else 0 := by
  refine ext_getElem (by simp) fun i h1 h2 => ?_
  rw [getElem_set]
  by_cases hi : b.area = i
  · simp [hi]
  · simp [hi]

theorem useArea_eq (hb : b.area < s.areas.length) (hfit : f b.area + bucketBlocks s b < 2 ^ 32) :
    useArea s ((range s.areas.length).map f) b =
      .ok ((range s.areas.length).map fun a => f a + if b.area = a then bucketBlocks s b else 0) := by
  have ha := getElem?_eq_getElem hb
  have hu : ((range s.areas.length).map f)[b.area]? = some (f b.area) := by simp [hb]
  rw [← set_map_range]
  refine bind_ok.2 ⟨_, at_eq_ok.2 ha, bind_ok.2 ⟨_, at_eq_ok.2 hu, bind_ok.2 ⟨_, fits_eq_ok.2 ⟨?_, rfl⟩, ?_⟩⟩⟩
  · rwa [← bucketBlocks_eq ha]
  · rw [← bucketBlocks_eq ha]
    rfl

theorem areasUsed_go (hb : ∀ b ∈ bs, b.area < s.areas.length)
    (hfit : ∀ a < s.areas.length, f a + usedBlocks s bs a < 2 ^ 32) :
    bs.foldlM (useArea s) ((range s.areas.length).map f) =
      .ok ((range s.areas.length).map fun a => f a + usedBlocks s bs a) := by
  induction bs generalizing f with
  | nil => rfl
  | cons b bs ih =>
    obtain ⟨hb, hbs⟩ := forall_mem_cons.1 hb
    have hcons : ∀ a, (f a + if b.area = a then bucketBlocks s b else 0) + usedBlocks s bs a =
        f a + usedBlocks s (b :: bs) a := fun a => by rw [usedBlocks_cons]; omega
    have hfirst := hfit b.area hb
    rw [usedBlocks_cons, if_pos rfl] at hfirst
    rw [foldlM_cons]
    refine bind_ok.2 ⟨_, useArea_eq hb (by omega), ?_⟩
    rw [ih hbs fun a ha => by rw [hcons]; exact hfit a ha]
    simp only [hcons]

theorem areasUsed_eq (hb : ∀ b ∈ bs, b.area < s.areas.length)
    (hfit : ∀ a < s.areas.length, usedBlocks s bs a < 2 ^ 32) :
    areasUsed s bs = .ok ((range s.areas.length).map (usedBlocks s bs)) := by
  have h := areasUsed_go hb (f := fun _ => 0) (by simpa using hfit)
  have hzero : (range s.areas.length).map (fun _ => 0) = replicate s.areas.length 0 := by
    simp [map_const']
  simp only [hzero, Nat.zero_add] at h
  exact h

/-! ## Extents -/

/-- The start and the size of extents one after another. -/
def placed : ℕ → List ℕ → List (ℕ × ℕ)
  | _, [] => []
  | next, e :: es => (next, e) :: placed (next + e) es

theorem extents_eq {l : List (ℕ × AreaSpec)} (h : next + (l.map fun a => max a.1 a.2.alloc.toNat).sum < 2 ^ 32) :
    extents next l = .ok (placed next (l.map fun a => max a.1 a.2.alloc.toNat),
      next + (l.map fun a => max a.1 a.2.alloc.toNat).sum) := by
  induction l generalizing next with
  | nil => rfl
  | cons a l ih =>
    obtain ⟨u, a⟩ := a
    rw [map_cons, sum_cons, ← Nat.add_assoc] at h ⊢
    exact bind_ok.2 ⟨_, fits_eq_ok.2 ⟨by dsimp only at h; omega, rfl⟩, bind_ok.2 ⟨_, ih h, rfl⟩⟩

theorem map_fst_placed : ∀ {es : List ℕ} {next : ℕ},
    (placed next es).map Prod.fst = (range es.length).map fun i => next + (es.take i).sum := by
  intro es
  induction es with
  | nil => intro _; rfl
  | cons e es ih =>
    intro next
    simp only [placed, map_cons, ih, length_cons, range_succ_eq_map, map_map, take_zero,
      sum_nil, Nat.add_zero]
    refine congrArg _ (map_congr_left fun i _ => ?_)
    simp only [Function.comp_apply, Nat.succ_eq_add_one, take_succ_cons, sum_cons]
    omega

theorem map_snd_placed : ∀ {es : List ℕ} {next : ℕ}, (placed next es).map Prod.snd = es := by
  intro es
  induction es with
  | nil => intro _; rfl
  | cons e es ih => intro next; simp [placed, ih]

theorem getLast?_placed {e : ℕ × ℕ} (h : (placed next es).getLast? = some e) :
    next ≤ e.1 ∧ e.1 + e.2 = next + es.sum := by
  induction es generalizing next with
  | nil => cases h
  | cons e' es ih =>
    cases es with
    | nil =>
      obtain rfl : (next, e') = e := Option.some.inj h
      simp
    | cons e'' es =>
      have := @ih (next + e') (by simpa [placed, getLast?_cons_cons] using h)
      simp only [sum_cons] at this ⊢
      omega

/-! ## Buckets -/

/-- The VBN of each bucket; `f a` is where the next of area `a` goes. -/
def bucketPlaces (s : Spec) : (ℕ → ℕ) → List Bucket → List ℕ
  | _, [] => []
  | f, b :: bs => f b.area :: bucketPlaces s (fun a => f a + if b.area = a then bucketBlocks s b else 0) bs

theorem bucketVbns_eq (hb : ∀ b ∈ bs, b.area < s.areas.length) : ∀ {f : ℕ → ℕ},
    (∀ a < s.areas.length, f a + usedBlocks s bs a < 2 ^ 32) →
    bucketVbns s ((range s.areas.length).map f) bs = .ok (bucketPlaces s f bs) := by
  induction bs with
  | nil => intro f _; rfl
  | cons b bs ih =>
    intro f hall
    obtain ⟨hb, hbs⟩ := forall_mem_cons.1 hb
    have ha := getElem?_eq_getElem hb
    have hu : ((range s.areas.length).map f)[b.area]? = some (f b.area) := by simp [hb]
    have hfit := hall b.area hb
    rw [usedBlocks_cons, if_pos rfl] at hfit
    have hrest := ih hbs (f := fun a => f a + if b.area = a then bucketBlocks s b else 0) fun a ha => by
      have := hall a ha
      rw [usedBlocks_cons] at this
      omega
    rw [← set_map_range, bucketBlocks_eq ha] at hrest
    rw [bucketBlocks_eq ha] at hfit
    simp only [bucketVbns, at_eq_ok.2 ha, at_eq_ok.2 hu, fits_eq_ok.2 ⟨show f b.area +
      (s.areas[b.area]).bktsz.toNat < 2 ^ 32 by omega, rfl⟩, bind, Except.bind, hrest]
    rw [bucketPlaces, bucketBlocks_eq ha]
    rfl

theorem length_bucketPlaces : ∀ {bs : List Bucket} {f : ℕ → ℕ}, (bucketPlaces s f bs).length = bs.length := by
  intro bs
  induction bs with
  | nil => intro _; rfl
  | cons b bs ih => intro f; simp [bucketPlaces, ih]

theorem getElem?_bucketPlaces : ∀ {bs : List Bucket} {f : ℕ → ℕ} {i : ℕ} {b : Bucket}, bs[i]? = some b →
    (bucketPlaces s f bs)[i]? = some (f b.area + usedBlocks s (bs.take i) b.area) := by
  intro bs
  induction bs with
  | nil => intro f i b h; cases h
  | cons b' bs ih =>
    intro f i b h
    cases i with
    | zero =>
      cases h
      rfl
    | succ i =>
      rw [bucketPlaces, getElem?_cons_succ, ih h, take_succ_cons, usedBlocks_cons, Nat.add_assoc]

/-! ## Layouts -/

section layout
variable (s : Spec) (bs : List Bucket)

def firstVbn : ℕ := areaVbn s + areaBlocks s

/-- Where the extent of area `a` starts. -/
def areaStart (a : ℕ) : ℕ := firstVbn s + ((extentSizes s bs).take a).sum

def roundedBlocks : ℕ := roundUp (totalBlocks s bs) (max s.cluster.toNat 1)

/-- The extents, with the spare blocks in the last. -/
def areaExtents : List (ℕ × ℕ) :=
  (placed (firstVbn s) (extentSizes s bs)).modify (s.areas.length - 1)
    fun e => (e.1, e.2 + (roundedBlocks s bs - totalBlocks s bs))

def layoutOf : Layout :=
  ⟨(range s.areas.length).map (usedBlocks s bs), areaExtents s bs, roundedBlocks s bs,
    bucketPlaces s (areaStart s bs) bs⟩

end layout

theorem le_roundUp {k : ℕ} (hk : 0 < k) : n ≤ roundUp n k := by
  have hmod := Nat.div_add_mod (n + k - 1) k
  have hlt := Nat.mod_lt (n + k - 1) hk
  rw [Nat.mul_comm] at hmod
  unfold roundUp
  omega

theorem length_extentSizes (s : Spec) (bs : List Bucket) : (extentSizes s bs).length = s.areas.length := by
  simp [extentSizes]

theorem used_zip_areas : ((range s.areas.length).map (usedBlocks s bs)).zip s.areas =
    s.areas.zipIdx.map fun a => (usedBlocks s bs a.2, a.1) := by
  refine ext_getElem (by simp) fun i h1 h2 => ?_
  simp

theorem areaStart_add_le (bs : List Bucket) (ha : a < s.areas.length) :
    areaStart s bs a + usedBlocks s bs a ≤ firstVbn s + (extentSizes s bs).sum := by
  have hlen := length_extentSizes s bs
  have hlt : a < (extentSizes s bs).length := by omega
  have hsum := sum_take_add_sum_drop (extentSizes s bs) a
  rw [drop_eq_getElem_cons hlt, sum_cons] at hsum
  have hge : usedBlocks s bs a ≤ (extentSizes s bs)[a] := by simp [extentSizes]
  unfold areaStart
  omega

variable {extent : List (ℕ × ℕ)} {spare : ℕ}

theorem addSpare_eq (hne : extent ≠ []) (hfit : ∀ e, extent.getLast? = some e → e.2 + spare < 2 ^ 32) :
    addSpare spare extent = .ok (extent.modify (extent.length - 1) fun e => (e.1, e.2 + spare)) := by
  obtain ⟨es, ⟨v, n⟩, rfl⟩ := eq_nil_or_concat extent |>.resolve_left hne
  simp only [concat_eq_append] at hfit ⊢
  have hn : n + spare < 2 ^ 32 := hfit (v, n) (by simp)
  rw [addSpare, getLast?_concat]
  simp only [fits_eq_ok.2 ⟨hn, rfl⟩, bind, Except.bind, dropLast_concat, pure, Except.pure]
  congr 1
  simp [modify_eq_set_getElem?]

theorem addSpare_map_fst :
    (extent.modify i fun e => (e.1, e.2 + spare)).map Prod.fst = extent.map Prod.fst := by
  refine ext_getElem (by simp) fun j h1 h2 => ?_
  simp only [getElem_map, getElem_modify]
  split_ifs <;> rfl

section
variable (hs : s.Valid)
include hs

theorem firstVbn_lt : 2 < firstVbn s ∧ firstVbn s ≤ 85 := by
  have := hs.areas
  have := hs.keys
  unfold firstVbn areaVbn areaBlocks
  omega

theorem totalBlocks_eq (bs : List Bucket) : totalBlocks s bs = firstVbn s + (extentSizes s bs).sum - 1 := by
  have hfirst := firstVbn_lt hs
  unfold firstVbn at hfirst
  unfold totalBlocks firstVbn
  omega

end

theorem totalBlocks_le (s : Spec) (bs : List Bucket) : totalBlocks s bs ≤ roundedBlocks s bs := le_roundUp (by omega)

theorem extentSizes_eq (s : Spec) (bs : List Bucket) :
    (((range s.areas.length).map (usedBlocks s bs)).zip s.areas).map (fun a => max a.1 a.2.alloc.toNat) =
      extentSizes s bs := by
  rw [used_zip_areas, map_map]
  rfl

theorem length_placed : (placed next es).length = es.length := by
  rw [← length_map (f := Prod.snd), map_snd_placed]

theorem addSpare_of_room (hs : s.Valid) (hroom : Room s bs) :
    addSpare (roundedBlocks s bs - totalBlocks s bs) (placed (firstVbn s) (extentSizes s bs)) =
      .ok (areaExtents s bs) := by
  have hlen : (placed (firstVbn s) (extentSizes s bs)).length = s.areas.length := by
    rw [length_placed, length_extentSizes]
  have hfirst := firstVbn_lt hs
  have htotal := totalBlocks_eq hs bs
  have hle := totalBlocks_le s bs
  have hrounded : roundedBlocks s bs < 2 ^ 32 := hroom.rounded
  rw [areaExtents, ← hlen]
  refine addSpare_eq ?_ fun e he => ?_
  · intro hnil
    rw [hnil, length_nil] at hlen
    have := hs.areas
    omega
  · obtain ⟨h1, h2⟩ := getLast?_placed he
    omega

theorem areaExtents_fst (s : Spec) (bs : List Bucket) :
    (areaExtents s bs).map Prod.fst = (range s.areas.length).map (areaStart s bs) := by
  rw [areaExtents, addSpare_map_fst, map_fst_placed, length_extentSizes]
  rfl

theorem layout_of_room (hs : s.Valid) (hb : ∀ b ∈ p.buckets, b.area < s.areas.length) (hroom : Room s p.buckets) :
    layout s p = .ok (layoutOf s p.buckets) := by
  have hfirst := firstVbn_lt hs
  have htotal := totalBlocks_eq hs p.buckets
  have hsum : firstVbn s + (extentSizes s p.buckets).sum < 2 ^ 32 := by
    have := hroom.total
    omega
  have hstart : ∀ a < s.areas.length, areaStart s p.buckets a + usedBlocks s p.buckets a < 2 ^ 32 :=
    fun a ha => Nat.lt_of_le_of_lt (areaStart_add_le _ ha) hsum
  have hused := areasUsed_eq hb fun a ha => by have := hstart a ha; omega
  rw [← extentSizes_eq s p.buckets] at hsum
  have hext := extents_eq hsum
  rw [extentSizes_eq] at hext
  have hround : nextMultipleOf (totalBlocks s p.buckets) (max s.cluster.toNat 1) = .ok (roundedBlocks s p.buckets) :=
    fits_eq_ok.2 ⟨hroom.rounded, rfl⟩
  simp only [layout, hused, show areaVbn s + areaBlocks s = firstVbn s from rfl, hext, bind, Except.bind, ← htotal,
    hround, addSpare_of_room hs hroom, areaExtents_fst, bucketVbns_eq hb hstart]
  rfl

/-! ## The file -/

variable {tree : Option Tree} {k : KeySpec}

section file
variable {vbns : List ℕ} {vbn : ℕ}

theorem Bucket.Fine.length_buf {B : ℕ} (hf : b.Fine s ps B N) (hs : s.Valid) :
    512 ≤ b.buf.length ∧ b.buf.length ≤ 32256 ∧ b.buf.length = bucketBlocks s b * BLOCK := by
  obtain ⟨a, ha, hlen⟩ := hf.area
  have hsz := hs.bktsz a (mem_of_getElem? ha)
  rw [bucketBlocks_eq ha, hlen]
  unfold BLOCK
  omega

theorem bucketHeader_ensures (hs : s.Valid) (hf : b.Fine s ps p.buckets.length N) (hmem : b ∈ p.buckets)
    (hv : vbns.length = p.buckets.length) : Ensures (bucketHeader vbns vbn b) fun _ => True := by
  have hpos : 0 < p.buckets.length := length_pos_of_mem hmem
  have hnext : b.next < vbns.length := by
    have := hf.next
    omega
  refine .bind_at hnext fun next => ?_
  refine .bind (P := fun _ => True) ?_ fun _ _ => .pure trivial
  refine .ite (fun h => .fits ?_ trivial) fun _ => .pure trivial
  -- an entry has nine bytes at least
  have hids := hf.ids h.1 h.2
  have hdata := hf.data h.1
  have hlen := hf.length_buf hs
  unfold BKT_HDR at hids
  omega

theorem write_ensures {xs ys : Bytes} (hi : i + ys.length ≤ xs.length) (hn : xs.length = n) :
    Ensures (Trap.write xs i ys : Trap Error Bytes) fun zs => zs.length = n := by
  refine .write hi ?_
  simp only [length_append, length_take, length_drop]
  omega

theorem patch_ensures (hp : p.Fine s ps N) (hv : vbns.length = p.buckets.length) (hpos : 0 < p.buckets.length) :
    ∀ {ts : List (ℕ × ℕ × Target)} {buf : Bytes},
      (∀ t ∈ ts, t.1 + t.2.1 ≤ buf.length ∧ t.2.1 ≤ 4 ∧ t.2.2.Within p.buckets.length N t.1) →
      Ensures (patch p vbns ts buf) fun buf' => buf'.length = buf.length := by
  intro ts
  induction ts with
  | nil => exact fun {buf} _ => .pure rfl
  | cons t ts ih =>
    intro buf h
    obtain ⟨ht, hts⟩ := forall_mem_cons.1 h
    obtain ⟨off, width, t⟩ := t
    obtain ⟨hin, hw, hwithin⟩ := ht
    dsimp only at hin hw hwithin
    have htake : ∀ v : ℕ, ((leBytes 4 v).take width).length = width := fun v => by
      rw [length_take, length_leBytes]
      omega
    cases t with
    | bucket x =>
      refine .bind_at (hv ▸ hwithin) fun v => ?_
      refine .bind (write_ensures (by rw [htake]; exact hin) rfl) fun buf' hbuf' => ?_
      exact (ih (hbuf'.symm ▸ hts)).imp fun _ h => h.trans hbuf'
    | record r =>
      obtain ⟨hr, hoff⟩ := hwithin
      have hplaced : r < p.placed.length := hp.placed.symm ▸ hr
      refine .bind (.at_ hplaced fun x hx => hp.within x (mem_of_getElem? hx)) ?_
      rintro ⟨c, id⟩ hc
      refine .bind_at (by dsimp only at hc; omega) fun v => ?_
      refine .bind (write_ensures (by rw [htake]; exact hin) rfl) fun buf' hbuf' => ?_
      refine .bind (write_ensures (by rw [length_leBytes]; omega) hbuf') fun buf'' hbuf'' => ?_
      exact (ih (hbuf''.symm ▸ hts)).imp fun _ h => h.trans hbuf''

theorem bucketImage_ensures (hs : s.Valid) (hp : p.Fine s ps N) (hmem : b ∈ p.buckets)
    (hv : vbns.length = p.buckets.length) :
    Ensures (bucketImage p vbns vbn b) fun buf => buf.length = b.buf.length := by
  have hf := hp.buckets b hmem
  obtain ⟨hlo, -, -⟩ := hf.length_buf hs
  refine .bind (bucketHeader_ensures hs hf hmem hv) fun h _ => ?_
  have hfree : Ensures (freeEnd b) fun buf => buf.length = b.buf.length :=
    .ite (fun _ => write_ensures (by rw [length_leBytes]; omega) rfl) fun _ => .pure rfl
  refine .bind hfree fun buf hbuf => ?_
  refine .bind (write_ensures (n := b.buf.length) ?_ hbuf) fun buf' hbuf' => ?_
  · rw [BucketHeader.toBytes, Field.length_bytes, BKT_HDR]
    omega
  · refine (patch_ensures hp hv (length_pos_of_mem hmem) (hbuf'.symm ▸ hf.patches)).imp fun _ h => h.trans hbuf'

theorem keyDescriptor_ensures (hk : k.Valid s n) (ht : ∀ t ∈ tree, t.Within vbns.length) :
    Ensures (keyDescriptor s vbns n k tree) fun _ => True := by
  obtain ⟨i, -, hi, -⟩ := hk.indexArea
  obtain ⟨d, hd⟩ := hk.dataArea
  refine .bind_ok (at_eq_ok.2 hi) (.bind_ok (at_eq_ok.2 hd) ?_)
  refine .bind (P := fun _ => True) ?_ fun _ _ => .pure trivial
  cases tree with
  | none => exact .pure trivial
  | some t =>
    obtain ⟨hfirst, hroot, -⟩ := ht t rfl
    exact .bind_at hroot fun _ => .bind_at hfirst fun _ => .pure trivial

theorem bucket_in_file {v : ℕ} (hs : s.Valid) (hb : ∀ b ∈ bs, b.area < s.areas.length)
    (hi : bs[i]? = some b) (hv : (layoutOf s bs).vbns[i]? = some v) :
    firstVbn s ≤ v ∧ v + bucketBlocks s b ≤ roundedBlocks s bs + 1 := by
  have hplace := getElem?_bucketPlaces (s := s) (f := areaStart s bs) hi
  have harea := areaStart_add_le bs (hb b (mem_of_getElem? hi))
  have hfirst := firstVbn_lt hs
  have htotal := totalBlocks_eq hs bs
  have hle := totalBlocks_le s bs
  obtain rfl : v = areaStart s bs b.area + usedBlocks s (bs.take i) b.area :=
    Option.some.inj (hv.symm.trans hplace)
  -- the bucket and those before it are among the area's
  have hused := usedBlocks_take_add (s := s) hi rfl
  refine ⟨?_, ?_⟩
  · unfold areaStart
    omega
  · omega

theorem keyPlace_lt (hn : n < s.keys.length) :
    ((keyPlace n).1 - 1) * BLOCK + (keyPlace n).2 + KEY_LEN ≤ (firstVbn s - 1) * BLOCK := by
  unfold keyPlace firstVbn areaVbn BLOCK KEY_LEN
  split_ifs <;> omega

theorem areaPlace_lt (ha : a < s.areas.length) :
    (areaVbn s + a / 8 - 1) * BLOCK + a % 8 * AREA_LEN + AREA_LEN ≤ (firstVbn s - 1) * BLOCK := by
  unfold firstVbn areaVbn areaBlocks BLOCK AREA_LEN
  omega

def fileBytes (s : Spec) (bs : List Bucket) : ℕ := roundedBlocks s bs * BLOCK

theorem prologue_le (hs : s.Valid) (bs : List Bucket) : (firstVbn s - 1) * BLOCK ≤ fileBytes s bs := by
  have hfirst := firstVbn_lt hs
  have htotal := totalBlocks_eq hs bs
  have hle := totalBlocks_le s bs
  exact Nat.mul_le_mul_right _ (by omega)

theorem Plan.Fine.area_lt (hp : p.Fine s ps N) : ∀ b ∈ p.buckets, b.area < s.areas.length := fun b hb => by
  obtain ⟨a, ha, -⟩ := (hp.buckets b hb).area
  exact (List.getElem?_eq_some_iff.1 ha).1

theorem length_layoutOf_vbns : (layoutOf s bs).vbns.length = bs.length := length_bucketPlaces

theorem writeBucket_ensures {x : ℕ × Bucket} (hs : s.Valid) (hp : p.Fine s ps N)
    (hx : x ∈ (layoutOf s p.buckets).vbns.zip p.buckets) (hfile : file.length = fileBytes s p.buckets) :
    Ensures (writeBucket p (layoutOf s p.buckets).vbns file x) fun file => file.length = fileBytes s p.buckets := by
  obtain ⟨i, hx⟩ := mem_iff_getElem?.1 hx
  obtain ⟨hv, hb⟩ := getElem?_zip_eq_some.1 hx
  have hmem := mem_of_getElem? hb
  obtain ⟨hfirst, hlast⟩ := bucket_in_file hs hp.area_lt hb hv
  obtain ⟨-, -, hlen⟩ := (hp.buckets _ hmem).length_buf hs
  refine .bind (bucketImage_ensures hs hp hmem length_layoutOf_vbns) fun buf hbuf => ?_
  refine write_ensures ?_ hfile
  have hlt := firstVbn_lt hs
  rw [hbuf, hlen, hfile, fileBytes, ← Nat.add_mul]
  exact Nat.mul_le_mul_right _ (by omega)

theorem writeKey_ensures {x : (KeySpec × Option Tree) × ℕ} (hs : s.Valid)
    (ht : ∀ o ∈ trees, ∀ t ∈ o, t.Within vbns.length) (hx : x ∈ (s.keys.zip trees).zipIdx)
    (hfile : file.length = fileBytes s bs) :
    Ensures (writeKey s vbns file x) fun file => file.length = fileBytes s bs := by
  obtain ⟨hk, htree⟩ := List.getElem?_zip_eq_some.1 (mem_zipIdx_iff_getElem?.1 hx)
  have hpro := prologue_le hs bs
  have hplace := keyPlace_lt (s := s) (List.getElem?_eq_some_iff.1 hk).1
  refine .bind (keyDescriptor_ensures (hs.key _ _ hk) (ht _ (mem_of_getElem? htree))) fun d _ => ?_
  refine write_ensures ?_ hfile
  rw [KeyDesc.toBytes, Field.length_bytes]
  omega

theorem writeArea_ensures {x : (AreaSpec × (ℕ × ℕ) × ℕ) × ℕ} (hs : s.Valid) (hroom : Room s bs)
    (hx : x ∈ (s.areas.zip ((layoutOf s bs).extent.zip (layoutOf s bs).used)).zipIdx)
    (hfile : file.length = fileBytes s bs) :
    Ensures (writeArea s file x) fun file => file.length = fileBytes s bs := by
  obtain ⟨ha, hrest⟩ := List.getElem?_zip_eq_some.1 (mem_zipIdx_iff_getElem?.1 hx)
  obtain ⟨he, hu⟩ := List.getElem?_zip_eq_some.1 hrest
  have hlt := (List.getElem?_eq_some_iff.1 ha).1
  have hpro := prologue_le hs bs
  have hplace := areaPlace_lt (s := s) hlt
  have hstart : x.1.2.1.1 = areaStart s bs x.2 := by
    have hfst := congrArg (·[x.2]?) (areaExtents_fst s bs)
    simp only [List.getElem?_map, List.getElem?_range hlt, Option.map_some] at hfst
    rw [show (areaExtents s bs)[x.2]? = some x.1.2.1 from he] at hfst
    exact Option.some.inj hfst
  have hused : x.1.2.2 = usedBlocks s bs x.2 := by
    simp only [layoutOf, List.getElem?_map, List.getElem?_range hlt, Option.map_some, Option.some.injEq] at hu
    exact hu.symm
  have harea := areaStart_add_le bs hlt
  have htotal := totalBlocks_eq hs bs
  have hmax := hroom.total
  refine .bind (P := fun _ => True) ?_ fun d _ => write_ensures ?_ hfile
  · refine .bind (P := fun _ => True) (.fits ?_ trivial) fun _ _ => .pure trivial
    omega
  · rw [AreaDesc.toBytes, Field.length_bytes]
    omega

theorem setChecksum_ensures {v : ℕ} (hs : s.Valid)
    (hv : v ∈ range' 1 (areaVbn s + areaBlocks s - 1)) (hfile : file.length = fileBytes s bs) :
    Ensures (setChecksum file v) fun file => file.length = fileBytes s bs := by
  have hpro := prologue_le hs bs
  obtain ⟨hlo, hhi⟩ := mem_range'_1.1 hv
  have hin : (v - 1) * BLOCK + BLOCK ≤ (firstVbn s - 1) * BLOCK := by
    unfold firstVbn BLOCK
    omega
  refine .bind (P := fun _ => True) (.range (by omega) (by omega) trivial) fun b _ => ?_
  refine write_ensures ?_ hfile
  have hblock : BLOCK = 512 := rfl
  rw [length_leBytes, hfile]
  omega

/-- **A plan that has room** is laid out. -/
theorem layOut_ensures (hs : s.Valid) (hp : p.Fine s ps N)
    (ht : ∀ o ∈ trees, ∀ t ∈ o, t.Within p.buckets.length) (hroom : Room s p.buckets) :
    Ensures (layOut s p trees) fun r =>
      r.1.length = fileBytes s p.buckets ∧ r.2 = roundedBlocks s p.buckets := by
  have hfirst := firstVbn_lt hs
  have hpro := prologue_le hs p.buckets
  have hblock : 2 * BLOCK ≤ (firstVbn s - 1) * BLOCK := Nat.mul_le_mul_right _ (by omega)
  unfold BLOCK at hblock
  refine .bind_ok (layout_of_room hs hp.area_lt hroom) ?_
  refine .bind (.foldlM (fun file x hx h => writeBucket_ensures hs hp hx h)
    length_replicate) fun file hfile => ?_
  refine .bind (.foldlM (fun file x hx h => writeKey_ensures hs
    (length_layoutOf_vbns.symm ▸ ht) hx h) hfile) fun file hfile => ?_
  refine .bind (write_ensures ?_ hfile) fun file hfile => ?_
  · simp only [length_cons, length_nil, hfile]
    unfold BLOCK at hpro
    omega
  refine .bind (write_ensures ?_ hfile) fun file hfile => ?_
  · simp only [length_cons, length_nil, hfile]
    unfold BLOCK at hpro
    omega
  refine .bind (.foldlM (fun file x hx h => writeArea_ensures hs hroom hx h) hfile)
    fun file hfile => ?_
  refine .bind (.foldlM (fun file x hx h => setChecksum_ensures hs hx h) hfile)
    fun file hfile => ?_
  exact .pure ⟨hfile, rfl⟩

end file

end Rms
