/-
  Planning a file: every bucket the loader fills stays inside its buffer, and
  every number in it names a bucket or a record there is.
-/
import Vaxpunk.Rms.Proof.Compress
import Vaxpunk.Rms.Proof.Spec

namespace Rms

open Ods (BLOCK)
open List Trap Nat

variable {s : Spec} {ps N : ℕ} {p : Plan} {k : KeySpec} {key : Bytes}

/-! ## Sizes -/

theorem length_encodeKey_le (c : Bool) (key : Bytes) (prev : Option Bytes) :
    (encodeKey c key prev).length ≤ 2 + key.length := by
  unfold encodeKey
  split_ifs
  · exact length_compressKey_le _ _
  · omega

theorem length_encodeKey_none {c : Bool} (prev : Option Bytes) (hne : key ≠ []) :
    (encodeKey c key prev).length ≤ (encodeKey c key none).length := by
  unfold encodeKey
  split_ifs
  · exact length_compressKey_none hne
  · exact le_rfl

theorem length_encodeRecord_none (record : Bytes) (prev : Option Bytes) (hne : key ≠ []) :
    (encodeRecord k record key prev).length ≤ (encodeRecord k record key none).length := by
  unfold encodeRecord
  split_ifs
  · exact le_rfl
  all_goals
    have := length_encodeKey_none (c := k.keyCompr) prev hne
    simp only [length_append]
    omega

/-! ## Buckets -/

/-- What a VBN in a bucket is of, among `B` buckets and `N` records. -/
def Target.Within (B N off : ℕ) : Target → Prop
  | .bucket x => x < B
  -- a record's ID is in front of its VBN
  | .record r => r < N ∧ 2 ≤ off

/-- A bucket that can be laid out, among `B` buckets and `N` records. -/
structure Bucket.Fine (s : Spec) (ps B N : ℕ) (b : Bucket) : Prop where
  area : ∃ a, s.areas[b.area]? = some a ∧ b.buf.length = a.bktsz.toNat * BLOCK
  level : b.level ≤ 255
  keyref : b.keyref ≤ 255
  next : b.next = 0 ∨ b.next < B
  header : BKT_HDR ≤ b.free
  high : b.high.length ≤ 255
  data : b.level = 0 → b.free < b.buf.length
  ids : b.level = 0 → b.keyref = 0 → BKT_HDR + 9 * b.count ≤ b.free
  index : 0 < b.level → b.ps = ps ∧ b.free + b.count * ps ≤ b.buf.length - 4
  patches : ∀ t ∈ b.patches, t.1 + t.2.1 ≤ b.buf.length ∧ t.2.1 ≤ 4 ∧ t.2.2.Within B N t.1

theorem Target.Within.mono {B B' off : ℕ} {t : Target} (h : t.Within B N off) (hB : B ≤ B') : t.Within B' N off := by
  cases t with
  | bucket x => exact lt_of_lt_of_le h hB
  | record r => exact h

theorem Bucket.Fine.mono {B B' : ℕ} {b : Bucket} (h : b.Fine s ps B N) (hB : B ≤ B') : b.Fine s ps B' N :=
  { h with
    next := h.next.imp id fun hn => by omega
    patches := fun t ht => ⟨(h.patches t ht).1, (h.patches t ht).2.1, (h.patches t ht).2.2.mono hB⟩ }

/-- A plan whose buckets can be laid out. -/
structure Plan.Fine (s : Spec) (ps N : ℕ) (p : Plan) : Prop where
  placed : p.placed.length = N
  within : ∀ x ∈ p.placed, x.1 = 0 ∨ x.1 < p.buckets.length
  buckets : ∀ b ∈ p.buckets, b.Fine s ps p.buckets.length N

/-- Bucket `c` is one of key `n`, at a level, in an area. -/
def Plan.Has (p : Plan) (area level n c : ℕ) : Prop :=
  ∃ b, p.buckets[c]? = some b ∧ b.area = area ∧ b.level = level ∧ b.keyref = n

theorem Plan.Has.lt {area level n c : ℕ} (h : p.Has area level n c) : c < p.buckets.length := by
  obtain ⟨b, hb, -⟩ := h
  exact (List.getElem?_eq_some_iff.1 hb).1

/-- A bucket's place is kept, and there are at most `m` new buckets: what is in them may
    change. -/
structure Plan.Keeps (p : Plan) (m : ℕ) (p' : Plan) : Prop where
  le : p.buckets.length ≤ p'.buckets.length
  new : p'.buckets.length ≤ p.buckets.length + m
  has : ∀ area level n c, p.Has area level n c → p'.Has area level n c

theorem Plan.Keeps.refl (p : Plan) : p.Keeps 0 p := ⟨le_rfl, le_rfl, fun _ _ _ _ h => h⟩

theorem Plan.Keeps.trans {p q r : Plan} {m m' : ℕ} (h : p.Keeps m q) (h' : q.Keeps m' r) : p.Keeps (m + m') r := by
  have h₁ := h.new
  have h₂ := h'.new
  exact ⟨h.le.trans h'.le, by omega, fun a l n c hc => h'.has a l n c (h.has a l n c hc)⟩

theorem Plan.Keeps.mono {p q : Plan} {m m' : ℕ} (h : p.Keeps m q) (hm : m ≤ m') : p.Keeps m' q :=
  ⟨h.le, h.new.trans (Nat.add_le_add_left hm _), h.has⟩

/-! ## What each step keeps -/

section steps
variable {area level n c B : ℕ} {b b' : Bucket} {entry : Bytes} {patches : ℕ → List (ℕ × ℕ × Target)}

theorem Plan.Fine.get (h : p.Fine s ps N) (hb : p.buckets[c]? = some b) : b.Fine s ps p.buckets.length N :=
  h.buckets b (mem_of_getElem? hb)

theorem Plan.Fine.length_buf {a : AreaSpec} (h : p.Fine s ps N) (hb : p.buckets[c]? = some b)
    (ha : s.areas[b.area]? = some a) : b.buf.length = a.bktsz.toNat * BLOCK := by
  obtain ⟨a', ha', hlen⟩ := (h.get hb).area
  obtain rfl : a = a' := Option.some.inj (ha.symm.trans ha')
  exact hlen

theorem bucketBytes_eq {a : AreaSpec} (ha : s.areas[area]? = some a) :
    bucketBytes s area = .ok (a.bktsz.toNat * BLOCK) := by
  rw [bucketBytes, at_eq_ok.2 ha]
  rfl

theorem Plan.Fine.set (h : p.Fine s ps N) (hb' : b'.Fine s ps p.buckets.length N) :
    ({ p with buckets := p.buckets.set c b' } : Plan).Fine s ps N := by
  refine ⟨h.placed, ?_, fun b hb => ?_⟩
  · simpa only [length_set] using h.within
  · rw [length_set]
    rcases mem_or_eq_of_mem_set hb with hb | rfl
    · exact h.buckets b hb
    · exact hb'

theorem Plan.keeps_set (hb : p.buckets[c]? = some b) (ha : b'.area = b.area) (hl : b'.level = b.level)
    (hk : b'.keyref = b.keyref) : p.Keeps 0 { p with buckets := p.buckets.set c b' } := by
  refine ⟨by simp, by simp, ?_⟩
  rintro area level n c' ⟨b₀, hb₀, rfl, rfl, rfl⟩
  by_cases hc : c = c'
  · subst hc
    have hlt := (List.getElem?_eq_some_iff.1 hb).1
    obtain rfl : b = b₀ := Option.some.inj (hb.symm.trans hb₀)
    exact ⟨b', by simp [hlt], ha, hl, hk⟩
  · exact ⟨b₀, by simp [getElem?_set_ne hc, hb₀], rfl, rfl, rfl⟩

theorem putEntry_ensures (h : p.Fine s ps N) (hb : p.buckets[c]? = some b) (hkey : key.length ≤ 255)
    (hfit : b.free + entry.length ≤ b.buf.length) (hdata : b.level = 0 → b.free + entry.length < b.buf.length)
    (hids : b.level = 0 → b.keyref = 0 → 9 ≤ entry.length)
    (hindex : 0 < b.level → b.free + entry.length + (b.count + 1) * ps ≤ b.buf.length - 4)
    (hpatch : ∀ t ∈ patches b.free, t.1 + t.2.1 ≤ b.buf.length ∧ t.2.1 ≤ 4 ∧ t.2.2.Within p.buckets.length N t.1) :
    Ensures (putEntry p c entry key patches) fun p' => p'.Fine s ps N ∧ p.Keeps 0 p' ∧ p'.placed = p.placed := by
  have hf := h.get hb
  have hlt := (List.getElem?_eq_some_iff.1 hb).1
  refine .bind (.at_ hlt fun b₀ hb₀ => hb₀) fun b₀ hb₀ => ?_
  obtain rfl : b = b₀ := Option.some.inj (hb.symm.trans hb₀)
  refine .bind (P := fun buf => buf.length = b.buf.length) (.write hfit ?_) fun buf hbuf => ?_
  · simp only [length_append, length_take, length_drop]
    omega
  refine .pure ⟨h.set ?_, Plan.keeps_set hb rfl rfl rfl, rfl⟩
  refine ⟨?_, hf.level, hf.keyref, hf.next, ?_, hkey, fun hl => ?_, fun hl hk => ?_, fun hl => ?_, fun t ht => ?_⟩
  · obtain ⟨a, ha, hlen⟩ := hf.area
    exact ⟨a, ha, hbuf.trans hlen⟩
  · exact hf.header.trans (le_add_right _ _)
  · exact hbuf ▸ hdata hl
  · have := hf.ids hl hk
    have := hids hl hk
    show BKT_HDR + 9 * (b.count + 1) ≤ b.free + entry.length
    omega
  · refine ⟨(hf.index hl).1, ?_⟩
    show b.free + entry.length + (b.count + 1) * ps ≤ buf.length - 4
    exact hbuf ▸ hindex hl
  · show t.1 + t.2.1 ≤ buf.length ∧ _
    rw [hbuf]
    rcases mem_append.1 ht with ht | ht
    · exact hf.patches t ht
    · exact hpatch t ht

theorem newBucket_ensures {a : AreaSpec} (h : p.Fine s ps N) (ha : s.areas[area]? = some a) (hpos : 1 ≤ a.bktsz.toNat)
    (hl : level ≤ 255) (hn : n ≤ 255) :
    Ensures (newBucket s ps p area level n) fun r => r.2.Fine s ps N ∧ p.Keeps 1 r.2 ∧ r.2.placed = p.placed ∧
      ∃ b, r.2.buckets[r.1]? = some b ∧ b.area = area ∧ b.level = level ∧ b.keyref = n ∧ b.free = BKT_HDR ∧
        b.count = 0 ∧ b.buf.length = a.bktsz.toNat * BLOCK := by
  refine .bind_ok (bucketBytes_eq ha) ?_
  refine .pure ⟨⟨h.placed, fun x hx => ?_, fun b hb => ?_⟩, ⟨by simp, by simp, ?_⟩, rfl, ?_⟩
  · have := h.within x hx
    simp only [length_append, length_singleton]
    omega
  · simp only [length_append, length_singleton]
    rcases mem_append.1 hb with hb | hb
    · exact (h.buckets b hb).mono (le_succ _)
    · obtain rfl := mem_singleton.1 hb
      refine ⟨⟨a, ha, by simp⟩, hl, hn, .inl rfl, le_rfl, by simp, fun _ => ?_, fun _ _ => le_rfl, fun hl => ?_, ?_⟩
      · simp only [BKT_HDR, length_replicate, BLOCK]
        omega
      · simp only [BKT_HDR, length_replicate, BLOCK]
        refine ⟨if_pos hl, by omega⟩
      · intro t ht
        cases ht
  · rintro area level n c ⟨b, hb, hp⟩
    have hlt := (List.getElem?_eq_some_iff.1 hb).1
    exact ⟨b, by simpa [getElem?_append_left hlt] using hb, hp⟩
  · exact ⟨_, getElem?_concat_length .., rfl, rfl, rfl, rfl, rfl, by simp⟩

theorem curFit_ensures {level : List ℕ} {fits : Bucket → Bool} (hl : ∀ c ∈ level, c < p.buckets.length) :
    Ensures (curFit p level fits) fun cur => ∀ c, cur = some c →
      c ∈ level ∧ ∃ b, p.buckets[c]? = some b ∧ fits b := by
  unfold curFit
  cases hc : level.getLast? with
  | none => exact .pure fun c h => by cases h
  | some c =>
    have hmem := mem_of_getLast? hc
    refine .bind (.at_ (hl c hmem) fun b hb => hb) fun b hb => .pure ?_
    intro c' h
    split_ifs at h with hfit
    cases h
    exact ⟨hmem, b, hb, hfit⟩

theorem curHigh_ensures {level : List ℕ} (hl : ∀ c ∈ level, c < p.buckets.length) :
    Ensures (curHigh p level) fun _ => True := by
  unfold curHigh
  cases hc : level.getLast? with
  | none => exact .pure trivial
  | some c =>
    exact .bind (.at_ (hl c (mem_of_getLast? hc)) fun b hb => hb) fun b hb =>
      .pure trivial

end steps

/-- A plan and the buckets of a level being filled, `m` at most. -/
structure Filling (s : Spec) (ps N area level n : ℕ) (p₀ : Plan) (m : ℕ) (st : Plan × List ℕ) : Prop where
  fine : st.1.Fine s ps N
  keeps : p₀.Keeps m st.1
  short : st.2.length ≤ m
  has : ∀ c ∈ st.2, st.1.Has area level n c

theorem Filling.start {area level n : ℕ} (hp : p.Fine s ps N) : Filling s ps N area level n p 0 (p, []) :=
  ⟨hp, Plan.Keeps.refl p, le_rfl, fun c hc => by cases hc⟩

theorem Filling.lt {area level n m : ℕ} {p₀ : Plan} {st : Plan × List ℕ} (h : Filling s ps N area level n p₀ m st) :
    ∀ c ∈ st.2, c < st.1.buckets.length := fun c hc => (h.has c hc).lt

/-- A filling with bucket `c` chosen, which `P` holds of. -/
structure Chosen (s : Spec) (ps N area level n : ℕ) (p₀ : Plan) (m : ℕ) (st : Plan × List ℕ) (c : ℕ)
    (P : Bucket → Prop) : Prop extends Filling s ps N area level n p₀ m st where
  bucket : ∃ b, st.1.buckets[c]? = some b ∧ b.area = area ∧ b.level = level ∧ b.keyref = n ∧ P b

section room
variable {area level n c m : ℕ} {p₀ : Plan} {st : Plan × List ℕ} {P : Bucket → Prop}

section
variable (h : Filling s ps N area level n p₀ m st)
include h

theorem Filling.mono {m' : ℕ} (hm : m ≤ m') : Filling s ps N area level n p₀ m' st :=
  ⟨h.fine, h.keeps.mono hm, h.short.trans hm, h.has⟩

theorem Filling.current (hc : c ∈ st.2) {b : Bucket}
    (hb : st.1.buckets[c]? = some b) (hP : P b) : Chosen s ps N area level n p₀ (m + 1) st c P := by
  obtain ⟨b', hb', h1, h2, h3⟩ := h.has c hc
  obtain rfl : b = b' := Option.some.inj (hb.symm.trans hb')
  exact ⟨h.mono (le_succ m), b, hb, h1, h2, h3, hP⟩

theorem Filling.fresh {a : AreaSpec} (ha : s.areas[area]? = some a)
    (hpos : 1 ≤ a.bktsz.toNat) (hl : level ≤ 255) (hn : n ≤ 255) :
    Ensures (newBucket s ps st.1 area level n) fun r =>
      Chosen s ps N area level n p₀ (m + 1) (r.2, st.2 ++ [r.1]) r.1
        fun b => b.free = BKT_HDR ∧ b.count = 0 ∧ b.buf.length = a.bktsz.toNat * BLOCK := by
  refine (newBucket_ensures h.fine ha hpos hl hn).imp ?_
  rintro ⟨c, p⟩ ⟨hfine, hkeeps, -, b, hb, h1, h2, h3, hP⟩
  refine ⟨⟨hfine, h.keeps.trans hkeeps, by simpa using h.short, fun c' hc' => ?_⟩, b, hb, h1, h2, h3, hP⟩
  rcases mem_append.1 hc' with hc' | hc'
  · exact hkeeps.has _ _ _ _ (h.has c' hc')
  · obtain rfl := mem_singleton.1 hc'
    exact ⟨b, hb, h1, h2, h3⟩

theorem Filling.after {p' : Plan} (hfine : p'.Fine s ps N)
    (hkeeps : st.1.Keeps 0 p') : Filling s ps N area level n p₀ m (p', st.2) :=
  ⟨hfine, h.keeps.trans hkeeps, h.short, fun c hc => hkeeps.has _ _ _ _ (h.has c hc)⟩

end

end room

/-! ## Data buckets -/

section data
variable {a : AreaSpec} {p₀ : Plan} {st : Plan × List ℕ} {record : Bytes} {head i m : ℕ}

theorem roomForRecord_ensures (h : Filling s ps N k.dataArea.toNat 0 0 p₀ m st)
    (ha : s.areas[k.dataArea.toNat]? = some a) (hpos : 1 ≤ a.bktsz.toNat) (hne : key ≠ []) :
    Ensures (roomForRecord s ps k (a.bktsz.toNat * BLOCK) head i record key st.1 st.2) fun r =>
      Chosen s ps N k.dataArea.toNat 0 0 p₀ (m + 1) (r.1, r.2.1) r.2.2.1
        fun b => b.free + head + r.2.2.2.length < a.bktsz.toNat * BLOCK := by
  unfold roomForRecord
  refine .bind (curHigh_ensures h.lt) fun high _ => ?_
  refine .bind (curFit_ensures h.lt) fun cur hcur => ?_
  cases cur with
  | some c =>
    obtain ⟨hc, b, hb, hfit⟩ := hcur c rfl
    refine .pure (h.current hc hb ?_)
    have hlen := length_encodeRecord_none (k := k) record high hne
    simp only [decide_eq_true_eq] at hfit
    show b.free + head + (encodeRecord k record key high).length < a.bktsz.toNat * BLOCK
    omega
  | none =>
    refine .bind (h.fresh ha hpos (by omega) (by omega)) ?_
    rintro ⟨c, p⟩ hch
    refine .ite (fun _ => .fail) fun hlt => .pure ?_
    obtain ⟨b, hb, h1, h2, h3, hfree, -, -⟩ := hch.bucket
    refine ⟨hch.toFilling, b, hb, h1, h2, h3, ?_⟩
    rw [hfree]
    exact Nat.lt_of_not_le hlt

theorem length_recordEntry (id : ℕ) (rawFix : Bool) (enc : Bytes) :
    (recordEntry id rawFix enc).length = 9 + (if rawFix then 0 else 2) + enc.length := by
  cases rawFix <;> simp [recordEntry] <;> omega

theorem putRecord_ensures {recs keys : List Bytes} (h : Filling s ps N k.dataArea.toNat 0 0 p₀ m st)
    (hk : s.keys[0]? = some k) (ha : s.areas[k.dataArea.toNat]? = some a) (hpos : 1 ≤ a.bktsz.toNat)
    (hrec : i < recs.length) (hi : i < keys.length) (hkeys : ∀ key ∈ keys, key ≠ [] ∧ key.length ≤ 255) :
    Ensures (putRecord s ps recs keys st i) (Filling s ps N k.dataArea.toNat 0 0 p₀ (m + 1)) := by
  unfold putRecord
  refine .bind_ok (at_eq_ok.2 hk) (.bind_ok (bucketBytes_eq ha) ?_)
  refine .bind_at hrec fun record => ?_
  refine .bind (.at_ hi fun key hk => hkeys key (mem_of_getElem? hk)) fun key hkey => ?_
  refine .bind (roomForRecord_ensures h ha hpos hkey.1) ?_
  rintro ⟨p, level, c, enc⟩ hch
  obtain ⟨b, hb, h1, h2, h3, hroom⟩ := hch.bucket
  dsimp only at hb hroom
  have hlen := hch.fine.length_buf hb (h1 ▸ ha)
  refine .bind_ok (at_eq_ok.2 hb) ?_
  have hentry := length_recordEntry ((b.count + 1) % 2 ^ 16) (s.rfm = rfmFIX ∧ ¬k.keyCompr ∧ ¬k.recCompr) enc
  simp only [decide_eq_true_eq] at hentry
  refine .bind (putEntry_ensures hch.fine hb hkey.2 ?_ (fun _ => ?_) (fun _ _ => ?_) (fun hl => ?_) ?_) ?_
  · omega
  · omega
  · omega
  · omega
  · intro t ht
    obtain rfl := mem_singleton.1 ht
    exact ⟨by show b.free + 5 + 4 ≤ _; omega, le_rfl, (List.getElem?_eq_some_iff.1 hb).1⟩
  rintro p' ⟨hfine, hkeeps, hplaced⟩
  have hafter := hch.toFilling.after hfine hkeeps
  refine .pure ⟨⟨?_, fun x hx => ?_, hfine.buckets⟩, ⟨hafter.keeps.le, hafter.keeps.new, hafter.keeps.has⟩,
    hafter.short, hafter.has⟩
  · exact (length_set ..).trans hfine.placed
  · rcases mem_or_eq_of_mem_set hx with hx | rfl
    · exact hfine.within x hx
    · exact .inr (lt_of_lt_of_le (List.getElem?_eq_some_iff.1 hb).1 hkeeps.le)

/-- **The data buckets** of the records in order. -/
theorem primaryLevel_ensures {recs keys : List Bytes} {order : List ℕ} (hp : p.Fine s ps N)
    (hk : s.keys[0]? = some k) (ha : s.areas[k.dataArea.toNat]? = some a) (hpos : 1 ≤ a.bktsz.toNat)
    (horder : ∀ i ∈ order, i < recs.length ∧ i < keys.length) (hkeys : ∀ key ∈ keys, key ≠ [] ∧ key.length ≤ 255) :
    Ensures (primaryLevel s ps recs keys order p) (Filling s ps N k.dataArea.toNat 0 0 p order.length) := by
  have h := Ensures.foldlM_sum (c := fun _ => 1) (fun m _ i hi h =>
    putRecord_ensures h hk ha hpos (horder i hi).1 (horder i hi).2 hkeys) (.start hp)
  have hsum : (order.map fun _ => 1).sum = order.length := by simp
  rwa [hsum, zero_add] at h

end data

/-! ## SIDR buckets -/

section sidr
variable {a : AreaSpec} {p₀ : Plan} {st : Plan × List ℕ} {n m L : ℕ}

theorem roomForSidr_ensures (h : Filling s ps N k.dataArea.toNat 0 n p₀ L st)
    (ha : s.areas[k.dataArea.toNat]? = some a) (hpos : 1 ≤ a.bktsz.toNat) (hn : n ≤ 255) (hne : key ≠ []) (hm : 0 < m) :
    Ensures (roomForSidr s ps n k (a.bktsz.toNat * BLOCK) key m st.1 st.2) fun r =>
      0 < r.2.2.2.2 ∧ r.2.2.2.2 ≤ m ∧ Chosen s ps N k.dataArea.toNat 0 n p₀ (L + 1) (r.1, r.2.1) r.2.2.1
        fun b => b.free + (2 + r.2.2.2.1.length + 7 * r.2.2.2.2) < a.bktsz.toNat * BLOCK := by
  unfold roomForSidr
  refine .bind (curFit_ensures h.lt) fun cur hcur => ?_
  refine .bind (curHigh_ensures h.lt) fun high _ => ?_
  cases cur with
  | some c =>
    obtain ⟨hc, b, hb, hfit⟩ := hcur c rfl
    refine .pure ⟨hm, le_rfl, h.current hc hb ?_⟩
    have hlen := length_encodeKey_none (c := k.keyCompr) high hne
    simp only [decide_eq_true_eq] at hfit
    show b.free + (2 + (encodeKey k.keyCompr key high).length + 7 * m) < a.bktsz.toNat * BLOCK
    omega
  | none =>
    dsimp only
    rw [mod_eq_of_lt (show n < 2 ^ 8 by omega)]
    refine .bind (h.fresh ha hpos (by omega) hn) ?_
    rintro ⟨c, p⟩ hch
    refine .ite (fun _ => .fail) fun hroom => .pure ?_
    obtain ⟨b, hb, h1, h2, h3, hfree, -, -⟩ := hch.bucket
    refine ⟨by simp only; omega, min_le_left _ _, hch.toFilling, b, hb, h1, h2, h3, ?_⟩
    simp only [hfree, BKT_HDR] at hroom ⊢
    omega

theorem length_sidrEntry (kenc : Bytes) (m : ℕ) : (sidrEntry kenc m).length = 2 + kenc.length + 7 * m := by
  have hptr : ((range m).flatMap fun j => (2 ||| if j = 0 then irc.FIRST else 0) :: replicate 6 (0 : UInt8)).length
      = 7 * m := by
    rw [length_flatMap]
    simp [mul_comm]
  simp only [sidrEntry, length_append, length_leBytes, hptr]

theorem putSidr_ensures (hk : s.keys[n]? = some k) (ha : s.areas[k.dataArea.toNat]? = some a)
    (hpos : 1 ≤ a.bktsz.toNat) (hn : 0 < n ∧ n ≤ 255) (hne : key ≠ []) (hlen : key.length ≤ 255) :
    ∀ {fuel L : ℕ} {rest : List ℕ} {st : Plan × List ℕ}, rest.length ≤ fuel → (∀ r ∈ rest, r < N) →
      Filling s ps N k.dataArea.toNat 0 n p₀ L st →
      Ensures (putSidr s ps n key fuel rest st) (Filling s ps N k.dataArea.toNat 0 n p₀ (L + rest.length)) := by
  intro fuel
  induction fuel with
  | zero =>
    intro L rest st hf _ h
    obtain rfl : rest = [] := eq_nil_of_length_eq_zero (by omega)
    exact .pure h
  | succ fuel ih =>
    intro L rest st hf hr h
    cases rest with
    | nil => exact .pure h
    | cons r rs =>
      unfold putSidr
      refine .bind_ok (at_eq_ok.2 hk) (.bind_ok (bucketBytes_eq ha) ?_)
      refine .bind (roomForSidr_ensures h ha hpos hn.2 hne (by simp)) ?_
      rintro ⟨p, level, c, kenc, m⟩ ⟨hm, hle, hch⟩
      obtain ⟨b, hb, h1, h2, h3, hroom⟩ := hch.bucket
      dsimp only at hb hroom hm hle
      have hbuf := hch.fine.length_buf hb (h1 ▸ ha)
      have hentry := length_sidrEntry kenc m
      refine .bind (putEntry_ensures hch.fine hb hlen ?_ (fun _ => ?_) (fun _ h0 => ?_) (fun hl => ?_) ?_) ?_
      · omega
      · omega
      · omega
      · omega
      · intro t ht
        obtain ⟨⟨r', j⟩, hmem, rfl⟩ := mem_map.1 ht
        obtain ⟨hj, -⟩ := mk_mem_zipIdx_iff_getElem?.1 hmem |> List.getElem?_eq_some_iff.1
        have hr' : r' ∈ (r :: rs).take m := mem_of_getElem? (mk_mem_zipIdx_iff_getElem?.1 hmem)
        have hj : j < m := by
          rw [length_take] at hj
          omega
        refine ⟨?_, le_rfl, hr r' (mem_of_mem_take hr'), ?_⟩
        · show b.free + 2 + kenc.length + 7 * j + 3 + 4 ≤ b.buf.length
          omega
        · show 2 ≤ b.free + 2 + kenc.length + 7 * j + 3
          omega
      rintro p' ⟨hfine, hkeeps, -⟩
      have hdrop : ((r :: rs).drop m).length + 1 ≤ (r :: rs).length := by
        rw [length_drop]
        omega
      exact (ih (by omega) (fun r' hr' => hr r' (mem_of_mem_drop hr')) (hch.toFilling.after hfine hkeeps)).imp
        fun st hst => hst.mono (by omega)

/-- **The SIDR buckets** of an alternate key. -/
theorem sidrLevel_ensures {groups : List (Bytes × List ℕ)} (hp : p.Fine s ps N) (hk : s.keys[n]? = some k)
    (ha : s.areas[k.dataArea.toNat]? = some a) (hpos : 1 ≤ a.bktsz.toNat) (hn : 0 < n ∧ n ≤ 255)
    (hg : ∀ g ∈ groups, g.1 ≠ [] ∧ g.1.length ≤ 255 ∧ ∀ r ∈ g.2, r < N) :
    Ensures (sidrLevel s ps n groups p)
      (Filling s ps N k.dataArea.toNat 0 n p (groups.map fun g => g.2.length).sum) := by
  have h := Ensures.foldlM_sum (c := fun g : Bytes × List ℕ => g.2.length) (fun _ _ g hm h =>
    putSidr_ensures hk ha hpos hn (hg g hm).1 (hg g hm).2.1 le_rfl (hg g hm).2.2 h) (.start hp)
  rwa [zero_add] at h

end sidr

/-! ## Index buckets -/

section index
variable {i l : AreaSpec} {p₀ : Plan} {st : Plan × List ℕ} {n area depth child c B m : ℕ} {high : Bytes}

theorem Plan.Fine.modify {f : Bucket → Bucket} (h : p.Fine s ps N)
    (hf : ∀ b, b.Fine s ps p.buckets.length N → (f b).Fine s ps p.buckets.length N)
    (hplace : ∀ b, (f b).area = b.area ∧ (f b).level = b.level ∧ (f b).keyref = b.keyref) :
    ({ p with buckets := p.buckets.modify c f } : Plan).Fine s ps N ∧
      p.Keeps 0 { p with buckets := p.buckets.modify c f } := by
  by_cases hc : c < p.buckets.length
  · have hb := getElem?_eq_getElem hc
    have hset : p.buckets.modify c f = p.buckets.set c (f p.buckets[c]) := by
      rw [modify_eq_set_getElem? f, hb]
      rfl
    rw [hset]
    exact ⟨h.set (hf _ (h.get hb)), Plan.keeps_set hb (hplace _).1 (hplace _).2.1 (hplace _).2.2⟩
  · have hsame : p.buckets.modify c f = p.buckets := by
      rw [modify_eq_set_getElem? f, getElem?_eq_none (by omega)]
      rfl
    rw [hsame]
    exact ⟨h, Plan.Keeps.refl p⟩

theorem Plan.Fine.link (links : List (ℕ × ℕ)) (h : p.Fine s ps N) (hl : ∀ b ∈ links, b.2 < p.buckets.length) :
    let bs := links.foldl (fun bs b => bs.modify b.1 fun k => { k with next := b.2 }) p.buckets
    ({ p with buckets := bs } : Plan).Fine s ps N ∧ p.Keeps 0 { p with buckets := bs } := by
  induction links generalizing p with
  | nil => exact ⟨h, Plan.Keeps.refl p⟩
  | cons b links ih =>
    obtain ⟨hb, hl⟩ := forall_mem_cons.1 hl
    obtain ⟨h1, h2⟩ := h.modify (c := b.1) (f := fun k => { k with next := b.2 })
      (fun k hk => { hk with next := .inr hb }) fun k => ⟨rfl, rfl, rfl⟩
    have hlen : (p.buckets.modify b.1 fun k => { k with next := b.2 }).length = p.buckets.length := by simp
    obtain ⟨h3, h4⟩ := ih h1 fun b hb => by simpa only [hlen] using hl b hb
    exact ⟨h3, h2.trans h4⟩

theorem chainLevel_fine {level : List ℕ} (h : p.Fine s ps N) (hl : ∀ c ∈ level, c < p.buckets.length) :
    ({ p with buckets := chainLevel p.buckets level } : Plan).Fine s ps N ∧
      p.Keeps 0 { p with buckets := chainLevel p.buckets level } := by
  obtain ⟨h1, h2⟩ := Plan.Fine.link (level.zip (level.rotate 1)) h fun b hb =>
    hl b.2 (mem_rotate.1 (of_mem_zip hb).2)
  unfold chainLevel
  cases level.getLast? with
  | none => exact ⟨h1, h2⟩
  | some c =>
    obtain ⟨h3, h4⟩ := h1.modify (c := c) (f := fun k => { k with last := true }) (fun b hb => { hb with })
      fun b => ⟨rfl, rfl, rfl⟩
    exact ⟨h3, h2.trans h4⟩

theorem length_highKey (k : KeySpec) (ksz : ℕ) : (highKey k ksz).length = ksz := by
  have htop : ∀ (v : Bytes) (c : Prop) [Decidable c] (x : UInt8),
      (if c ∧ v ≠ [] then v.dropLast ++ [x] else v).length = v.length := by
    intro v c _ x
    split_ifs with h
    · have hpos : 0 < v.length := length_pos_of_ne_nil h.2
      simp only [length_append, length_dropLast, length_singleton]
      omega
    · rfl
  exact (htop _ _ _).trans length_replicate

theorem roomForIndex_ensures (h : Filling s ps N area depth n p₀ m st) (hi : s.areas[area]? = some i)
    (hpos : 1 ≤ i.bktsz.toNat) (hps : ps ≤ 4) (hd : 0 < depth ∧ depth ≤ 255) (hn : n ≤ 255)
    (hhigh : high.length ≤ 255) :
    Ensures (roomForIndex s ps n k area depth (i.bktsz.toNat * BLOCK) high st.1 st.2) fun r =>
      Chosen s ps N area depth n p₀ (m + 1) (r.1, r.2.1) r.2.2.1
        fun b => b.free + r.2.2.2.length + (b.count + 1) * ps ≤ i.bktsz.toNat * BLOCK - 4 := by
  unfold roomForIndex
  refine .bind (curHigh_ensures h.lt) fun curKey _ => ?_
  refine .bind (curFit_ensures h.lt) fun cur hcur => ?_
  cases cur with
  | some c =>
    obtain ⟨hc, b, hb, hfit⟩ := hcur c rfl
    simp only [decide_eq_true_eq] at hfit
    exact .pure (h.current hc hb hfit.1)
  | none =>
    dsimp only
    rw [mod_eq_of_lt (show n < 2 ^ 8 by omega)]
    refine .bind (h.fresh hi hpos hd.2 hn) ?_
    rintro ⟨c, p⟩ hch
    obtain ⟨b, hb, h1, h2, h3, hfree, hcount, -⟩ := hch.bucket
    refine .pure ⟨hch.toFilling, b, hb, h1, h2, h3, ?_⟩
    -- a key and a pointer fit in one block
    have hlen := length_encodeKey_le k.idxCompr high none
    simp only [hfree, hcount, BKT_HDR, BLOCK]
    omega

theorem putIndex_ensures (h : Filling s ps N area depth n p₀ m st) (hi : s.areas[area]? = some i)
    (hpos : 1 ≤ i.bktsz.toNat) (hps : ps ≤ 4) (hd : 0 < depth ∧ depth ≤ 255) (hn : n ≤ 255) (hhigh : high.length ≤ 255)
    (hchild : child < p₀.buckets.length) :
    Ensures (putIndex s ps n k area depth (i.bktsz.toNat * BLOCK) st high child)
      (Filling s ps N area depth n p₀ (m + 1)) := by
  unfold putIndex
  refine .bind (roomForIndex_ensures h hi hpos hps hd hn hhigh) ?_
  rintro ⟨p, level, c, kenc⟩ hch
  obtain ⟨b, hb, h1, h2, h3, hroom⟩ := hch.bucket
  dsimp only at hb hroom
  have hbuf := hch.fine.length_buf hb (h1 ▸ hi)
  have hB : child < p.buckets.length := lt_of_lt_of_le hchild hch.keeps.le
  refine .bind_ok (at_eq_ok.2 hb) ?_
  have hpos' : i.bktsz.toNat * BLOCK ≥ 512 := by
    unfold BLOCK
    omega
  refine .bind (putEntry_ensures hch.fine hb hhigh ?_ (fun hl => ?_) (fun hl => ?_) (fun _ => ?_) ?_) ?_
  · omega
  · omega
  · omega
  · omega
  · intro t ht
    obtain rfl := mem_singleton.1 ht
    refine ⟨?_, hps, hB⟩
    have hsub : (b.count + 1) * ps = b.count * ps + ps := succ_mul _ _
    show i.bktsz.toNat * BLOCK - 4 - (b.count + 1) * ps + ps ≤ b.buf.length
    omega
  · rintro p' ⟨hfine, hkeeps, -⟩
    exact .pure (hch.toFilling.after hfine hkeeps)

theorem indexLevel_ensures (hi : s.areas[area]? = some i) (hpos : 1 ≤ i.bktsz.toNat) (hps : ps ≤ 4)
    (hd : 0 < depth ∧ depth ≤ 255) (hn : n ≤ 255) (hsize : k.size ≤ 255) :
    ∀ {below : List ℕ} {m : ℕ} {st : Plan × List ℕ}, (∀ child ∈ below, child < p₀.buckets.length) →
      Filling s ps N area depth n p₀ m st →
      Ensures (indexLevel s ps n k area depth (i.bktsz.toNat * BLOCK) below st)
        (Filling s ps N area depth n p₀ (m + below.length)) := by
  intro below
  induction below with
  | nil => exact fun _ h => .pure h
  | cons child rest ih =>
    intro m st hb h
    obtain ⟨hchild, hrest⟩ := forall_mem_cons.1 hb
    unfold indexLevel
    refine .bind (P := fun b => b.high.length ≤ 255)
      (.at_ (lt_of_lt_of_le hchild h.keeps.le) fun b hb => (h.fine.get hb).high) fun b hbhigh => ?_
    refine .bind (putIndex_ensures h hi hpos hps hd hn ?_ hchild) fun st' h' =>
      (ih hrest h').imp fun st hst => hst.mono (by rw [length_cons]; omega)
    split_ifs
    · rw [length_highKey]
      exact hsize
    · exact hbhigh

/-- A tree of buckets there are. -/
def Tree.Within (B : ℕ) (t : Tree) : Prop := t.first < B ∧ t.root < B ∧ t.levels ≤ 255

/-- **The levels of the index**, up to one root. -/
theorem indexLevels_ensures {first : ℕ} (hk : k.Valid s n) (hbkt : ∀ a ∈ s.areas, 1 ≤ a.bktsz.toNat)
    (hi : s.areas[k.indexArea.toNat]? = some i) (hps : ps ≤ 4) (hn : n ≤ 255) :
    ∀ {fuel depth : ℕ} {below : List ℕ} {p : Plan}, fuel + depth = 255 → 0 < fuel → p.Fine s ps N →
      first < p.buckets.length → (∀ c ∈ below, c < p.buckets.length) →
      Ensures (indexLevels s ps n first k (i.bktsz.toNat * BLOCK) fuel depth below p) fun r =>
        r.1.Fine s ps N ∧ p.Keeps (fuel * below.length) r.1 ∧ r.2.Within r.1.buckets.length := by
  intro fuel
  induction fuel with
  | zero => intro _ _ _ _ h; omega
  | succ fuel ih =>
    intro depth below p hf _ hp hfirst hb
    obtain ⟨i', l, hi', hl, hsz⟩ := hk.indexArea
    obtain rfl : i = i' := Option.some.inj (hi.symm.trans hi')
    obtain ⟨a, ha, hasz⟩ : ∃ a, s.areas[if depth + 1 = 1 then k.level1Area.toNat else k.indexArea.toNat]? = some a ∧
        a.bktsz = i.bktsz := by
      split_ifs
      · exact ⟨l, hl, hsz.symm⟩
      · exact ⟨i, hi, rfl⟩
    unfold indexLevels
    rw [← hasz]
    refine .bind (indexLevel_ensures ha (hbkt a (mem_of_getElem? ha)) hps
      (by omega : 0 < depth + 1 ∧ depth + 1 ≤ 255) hn hk.size hb (.start hp)) ?_
    rintro ⟨p', level⟩ h
    rw [zero_add] at h
    obtain ⟨hchain, hkeeps⟩ := chainLevel_fine h.fine h.lt
    have hlt : ∀ c ∈ level, c < (chainLevel p'.buckets level).length :=
      fun c hc => lt_of_lt_of_le (h.lt c hc) hkeeps.le
    have hkeep := h.keeps.trans hkeeps
    have hfirst' := lt_of_lt_of_le hfirst hkeep.le
    -- no level has more buckets than the one below it
    have hshort : fuel * level.length ≤ fuel * below.length := mul_le_mul_left _ h.short
    -- one bucket is the root, more get another level
    have hmore : Ensures (if level.length ≥ below.length ∨ depth + 1 = 255 then
        Trap.fail (.invalid s!"key {n} too long for its index bucket size")
        else indexLevels s ps n first k (a.bktsz.toNat * BLOCK) fuel (depth + 1) level
          { p' with buckets := chainLevel p'.buckets level }) fun r =>
        r.1.Fine s ps N ∧ p.Keeps ((fuel + 1) * below.length) r.1 ∧ r.2.Within r.1.buckets.length := by
      refine .ite (fun _ => .fail) fun hgo => ?_
      rw [hasz]
      exact (ih (by omega) (by omega) hchain hfirst' hlt).imp fun r hr =>
        ⟨hr.1, (hkeep.trans hr.2.1).mono (by rw [succ_mul]; omega), hr.2.2⟩
    rcases level with _ | ⟨root, _ | ⟨c, level⟩⟩
    · exact hmore
    · obtain ⟨h1, h2⟩ := hchain.modify (c := root) (f := fun b => { b with root := true }) (fun b hb => { hb with })
        fun b => ⟨rfl, rfl, rfl⟩
      have hle := h2.le
      refine .pure ⟨h1, (hkeep.trans h2).mono (by rw [succ_mul]; omega), lt_of_lt_of_le hfirst' hle,
        lt_of_lt_of_le (hlt root (by simp)) hle, ?_⟩
      show depth + 1 ≤ 255
      omega
    · exact hmore

theorem indexTree_ensures {level0 : List ℕ} (hk : s.keys[n]? = some k) (hv : k.Valid s n)
    (hbkt : ∀ a ∈ s.areas, 1 ≤ a.bktsz.toNat) (hps : ps ≤ 4) (hn : n ≤ 255) (hp : p.Fine s ps N) (hne : level0 ≠ [])
    (hl : ∀ c ∈ level0, c < p.buckets.length) :
    Ensures (indexTree s ps n level0 p) fun r =>
      r.1.Fine s ps N ∧ p.Keeps (255 * level0.length) r.1 ∧ r.2.Within r.1.buckets.length := by
  obtain ⟨i, -, hi, -⟩ := hv.indexArea
  obtain ⟨hchain, hkeeps⟩ := chainLevel_fine hp hl
  unfold indexTree
  refine .bind_ok (at_eq_ok.2 hk) (.bind_ok (bucketBytes_eq hi) ?_)
  refine .bind (.at_ (length_pos_of_ne_nil hne) fun first h => hl first
    (mem_of_getElem? h)) fun first hfirst => ?_
  have hlt : ∀ c, c < p.buckets.length → c < (chainLevel p.buckets level0).length :=
    fun c hc => lt_of_lt_of_le hc hkeeps.le
  exact (indexLevels_ensures hv hbkt hi hps hn (by omega) (by omega) hchain (hlt first hfirst)
    fun c hc => hlt c (hl c hc)).imp fun r hr => ⟨hr.1, (hkeeps.trans hr.2.1).mono (by omega), hr.2.2⟩

end index

/-! ## Plans -/

section plan
variable {recs keys : List Bytes} {order : List ℕ} {n : ℕ} {groups : List (Bytes × List ℕ)}

/-- The entries of an alternate key, for `N` records. -/
def Groups (N : ℕ) (groups : List (Bytes × List ℕ)) : Prop :=
  ∀ g ∈ groups, g.1 ≠ [] ∧ g.1.length ≤ 255 ∧ ∀ r ∈ g.2, r < N

/-- The records in order, with keys that aren't empty or too long. -/
structure Ranked (recs keys : List Bytes) (order : List ℕ) : Prop where
  count : order.length = recs.length
  order : ∀ i ∈ order, i < recs.length ∧ i < keys.length
  keys : ∀ key ∈ keys, key ≠ [] ∧ key.length ≤ 255

theorem planKey_ensures (hs : s.Valid) (hps : ps ≤ 4) (hn : n < s.keys.length) (hr : Ranked recs keys order)
    (hg : Groups N groups) (ho : order.length ≤ N) (hsum : (groups.map fun g => g.2.length).sum ≤ N)
    (hp : p.Fine s ps N) :
    Ensures (planKey s ps recs keys order n groups p) fun r =>
      r.1.Fine s ps N ∧ p.Keeps (256 * N) r.1 ∧ ∀ t ∈ r.2, t.Within r.1.buckets.length := by
  have hk := getElem?_eq_getElem hn
  have hv := hs.key n _ hk
  have hbkt : ∀ a ∈ s.areas, 1 ≤ a.bktsz.toNat := fun a ha => (hs.bktsz a ha).1
  have hlen := hs.keys.2
  obtain ⟨a, ha⟩ := hv.dataArea
  have hpos := hbkt a (mem_of_getElem? ha)
  have hlevel : Ensures (bottomLevel s ps recs keys order n groups p) fun st =>
      st.1.Fine s ps N ∧ p.Keeps N st.1 ∧ st.2.length ≤ N ∧ ∀ c ∈ st.2, c < st.1.buckets.length := by
    refine .ite (fun h0 => ?_) fun h0 => ?_
    · subst h0
      exact (primaryLevel_ensures hp hk ha hpos hr.order hr.keys).imp fun st h =>
        ⟨h.fine, h.keeps.mono ho, h.short.trans ho, h.lt⟩
    · exact (sidrLevel_ensures hp hk ha hpos (by omega) hg).imp fun st h =>
        ⟨h.fine, h.keeps.mono hsum, h.short.trans hsum, h.lt⟩
  unfold planKey
  refine .bind hlevel ?_
  rintro ⟨p', level0⟩ ⟨hfine, hkeeps, hshort, hlt⟩
  refine .ite (fun _ => .pure ⟨hfine, hkeeps.mono (by omega), fun t ht => by cases ht⟩) fun hne => ?_
  refine .bind (indexTree_ensures hk hv hbkt hps (by omega) hfine hne hlt) ?_
  rintro ⟨p'', t⟩ ⟨h1, h2, h3⟩
  refine .pure ⟨h1, (hkeeps.trans h2).mono (by dsimp only at hshort; omega), fun t' ht' => ?_⟩
  cases ht'
  exact h3

theorem planKeys_ensures (hs : s.Valid) (hps : ps ≤ 4) (hr : Ranked recs keys order) (ho : order.length ≤ N) :
    ∀ {gs : List (List (Bytes × List ℕ))} {n : ℕ} {p : Plan}, n + gs.length ≤ s.keys.length →
      (∀ g ∈ gs, Groups N g ∧ (g.map fun g => g.2.length).sum ≤ N) → p.Fine s ps N →
      Ensures (planKeys s ps recs keys order n gs p) fun r => r.1.Fine s ps N ∧ p.Keeps (gs.length * (256 * N)) r.1 ∧
        r.2.length = gs.length ∧ ∀ o ∈ r.2, ∀ t ∈ o, t.Within r.1.buckets.length := by
  intro gs
  induction gs with
  | nil =>
    intro n p _ _ hp
    exact .pure ⟨hp, (Plan.Keeps.refl p).mono (zero_le _), rfl, fun o ho => by cases ho⟩
  | cons g gs ih =>
    intro n p hn hg hp
    rw [length_cons] at hn
    obtain ⟨hg, hgs⟩ := forall_mem_cons.1 hg
    refine .bind (planKey_ensures hs hps (by omega) hr hg.1 ho hg.2 hp) ?_
    rintro ⟨p', t⟩ ⟨h1, h2, h3⟩
    refine .bind (ih (by omega) hgs h1) ?_
    rintro ⟨p'', ts⟩ ⟨h4, h5, h6, h7⟩
    refine .pure ⟨h4, (h2.trans h5).mono ?_, by simpa using h6, fun o ho t' ht' => ?_⟩
    · rw [length_cons, succ_mul gs.length]
      omega
    rcases mem_cons.1 ho with rfl | ho
    · obtain ⟨ha, hb, hc⟩ := h3 t' ht'
      exact ⟨lt_of_lt_of_le ha h5.le, lt_of_lt_of_le hb h5.le, hc⟩
    · exact h7 o ho t' ht'

/-- **A plan** of a valid specification does not panic, and can be laid out. -/
theorem plan_ensures {gs : List (List (Bytes × List ℕ))} (hs : s.Valid) (hps : ps ≤ 4) (hr : Ranked recs keys order)
    (hgs : gs.length = s.keys.length)
    (hg : ∀ g ∈ gs, Groups recs.length g ∧ (g.map fun g => g.2.length).sum ≤ recs.length) :
    Ensures (plan s ps recs keys order gs) fun r => r.1.Fine s ps recs.length ∧
      r.1.buckets.length ≤ s.keys.length * (256 * recs.length) ∧ ∀ o ∈ r.2, ∀ t ∈ o, t.Within r.1.buckets.length := by
  refine (planKeys_ensures hs hps hr hr.count.le (by omega) hg
    ⟨by simp, fun x hx => .inl ?_, fun b hb => by cases hb⟩).imp fun r h => ⟨h.1, ?_, h.2.2.2⟩
  · rw [eq_of_mem_replicate hx]
  · have hnew := h.2.1.new
    rw [hgs] at hnew
    simpa using hnew

end plan

end Rms
