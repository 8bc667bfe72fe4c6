/-
  Building a file.  The loader plans with pointers of two bytes, and again with
  wider ones if the file comes out too big for them; every number it computes is
  in its type, as long as the areas and the records are not too large.
-/
import Vaxpunk.Rms.Proof.Count
import Vaxpunk.Rms.Proof.Decode

namespace Rms

open Ods (BLOCK)
open List Trap

variable {s : Spec} {recs keys : List Bytes} {order : List ℕ} {n N : ℕ} {k : KeySpec}

/-! ## Keys -/

theorem length_keyOf {record key : Bytes} (hv : k.Valid s n) (h : k.keyOf record = some key) :
    key ≠ [] ∧ key.length ≤ 255 := by
  have hlen : key.length = k.size := length_keyAt h
  have hpos := hv.size_pos
  have := hv.size
  exact ⟨ne_nil_of_length_pos (by omega), by omega⟩

theorem recordKey_ensures {i : ℕ} {r : Bytes} :
    Ensures (recordKey s k i r) fun key => k.keyOf r = some key := by
  refine .ite (fun _ => .fail) fun _ => .ite (fun _ => .fail) fun _ => ?_
  cases h : k.keyOf r with
  | none => exact .fail
  | some key => exact .pure rfl

theorem addEntry_ensures {dups : Bool} {g : List (Bytes × List ℕ)} {e : Bytes × ℕ} (hg : Groups N g) (he : e.1 ≠ [])
    (hlen : e.1.length ≤ 255) (hN : e.2 < N) : Ensures (addEntry n dups g e) (Groups N) := by
  have hnew : ∀ x ∈ [(e.1, [e.2])], x.1 ≠ [] ∧ x.1.length ≤ 255 ∧ ∀ r ∈ x.2, r < N := by
    intro x hx
    obtain rfl := mem_singleton.1 hx
    refine ⟨he, hlen, fun r hr => ?_⟩
    obtain rfl := mem_singleton.1 hr
    exact hN
  unfold addEntry
  cases hlast : g.getLast? with
  | none => exact .pure hnew
  | some x =>
    obtain ⟨h1, h2, h3⟩ := hg x (mem_of_getLast? hlast)
    refine .ite (fun _ => .ite (fun _ => .fail) fun _ => .pure ?_)
      fun _ => .pure ?_
    · intro y hy
      rcases mem_append.1 hy with hy | hy
      · exact hg y (mem_of_mem_dropLast hy)
      · obtain rfl := mem_singleton.1 hy
        refine ⟨h1, h2, fun r hr => ?_⟩
        rcases mem_append.1 hr with hr | hr
        · exact h3 r hr
        · obtain rfl := mem_singleton.1 hr
          exact hN
    · intro y hy
      rcases mem_append.1 hy with hy | hy
      · exact hg y hy
      · exact hnew y hy

theorem keyGroups_ensures (hv : k.Valid s n) (ho : ∀ i ∈ order, i < N) :
    Ensures (keyGroups recs order n k) (Groups N) := by
  refine .foldlM (fun g e he hg => ?_) (fun g hg => by cases hg)
  have he := (mem_filter.1 ((mem_insertionSort _).1 he)).1
  obtain ⟨i, hi, he⟩ := mem_filterMap.1 he
  obtain ⟨key, hkey, rfl⟩ := Option.map_eq_some_iff.1 he
  obtain ⟨h1, h2⟩ := length_keyOf hv hkey
  exact addEntry_ensures hg h1 h2 (ho i hi)

theorem addEntry_length {dups : Bool} {g g' : List (Bytes × List ℕ)} {e : Bytes × ℕ}
    (h : addEntry n dups g e = .ok g') :
    (g'.map fun x => x.2.length).sum = (g.map fun x => x.2.length).sum + 1 := by
  unfold addEntry at h
  cases hlast : g.getLast? with
  | none =>
    rw [hlast] at h
    cases h
    simp [getLast?_eq_none_iff.1 hlast]
  | some x =>
    obtain ⟨front, rfl⟩ := getLast?_eq_some_iff.1 hlast
    rw [hlast] at h
    dsimp only at h
    split_ifs at h
    all_goals cases h
    all_goals simp [Nat.add_assoc]

theorem keyGroups_length {g : List (Bytes × List ℕ)} (h : keyGroups recs order n k = .ok g) :
    (g.map fun x => x.2.length).sum ≤ order.length := by
  have hfold : ∀ (es : List (Bytes × ℕ)) (g₀ : List (Bytes × List ℕ)), es.foldlM (addEntry n k.dups) g₀ = .ok g →
      (g.map fun x => x.2.length).sum = (g₀.map fun x => x.2.length).sum + es.length := by
    intro es
    induction es with
    | nil =>
      intro g₀ h
      cases h
      rfl
    | cons e es ih =>
      intro g₀ h
      rw [foldlM_cons] at h
      obtain ⟨g₁, h₁, h⟩ := bind_ok.1 h
      rw [ih g₁ h, addEntry_length h₁, length_cons]
      omega
  rw [hfold _ _ h, length_insertionSort, map_nil, sum_nil, Nat.zero_add]
  exact (length_filter_le _ _).trans (length_filterMap_le _ _)

/-- What a plan is made from. -/
structure Prepared (s : Spec) (recs keys : List Bytes) (order : List ℕ)
    (groups : List (List (Bytes × List ℕ))) : Prop where
  ranked : Ranked recs keys order
  keys : groups.length = s.keys.length
  groups : ∀ g ∈ groups, Groups recs.length g ∧ (g.map fun x => x.2.length).sum ≤ recs.length

theorem prepare_ensures (hv : s.validate = .ok ()) :
    Ensures (prepare s recs) fun r => Prepared s recs r.1 r.2.1 r.2.2 := by
  have hs := validate_valid hv
  have h0 : 0 < s.keys.length := hs.keys.1
  have hk0 := List.getElem?_eq_getElem h0
  refine .bind_ok hv (.bind_ok (at_eq_ok.2 hk0) ?_)
  refine .bind (.mapM fun r _ => recordKey_ensures) fun keys hkeys => ?_
  have hlen : keys.length = recs.length := by simpa using hkeys.1
  dsimp only
  set order := (List.range recs.length).insertionSort fun a b =>
    ((s.keys[0]).compare (keys.getD a []) (keys.getD b [])).isLE
  have hcount : order.length = recs.length := (length_insertionSort _ _).trans length_range
  have hmem : ∀ i ∈ order, i < recs.length := fun i hi =>
    mem_range.1 ((mem_insertionSort _).1 hi)
  have hrank : Ranked recs keys order := by
    refine ⟨hcount, fun i hi => ⟨hmem i hi, hlen.symm ▸ hmem i hi⟩, fun key hkey => ?_⟩
    obtain ⟨i, hi⟩ := mem_iff_getElem?.1 hkey
    obtain ⟨r, -, hr⟩ := hkeys.2 i key hi
    exact length_keyOf (hs.key 0 _ hk0) hr
  cases (if (s.keys[0]).dups then none else sameKey keys order) with
  | some w => exact .fail
  | none =>
    refine .bind (.mapM (R := fun _ g => Groups recs.length g ∧ (g.map fun x => x.2.length).sum ≤ recs.length)
      fun k hk => ?_) fun gs hgs => ?_
    · refine (keyGroups_ensures (hs.key k.2 k.1 ?_) hmem).val.imp fun g hg =>
        ⟨hg.2, (keyGroups_length hg.1).trans_eq hcount⟩
      exact mem_zipIdx_iff_getElem?.1 (mem_of_mem_drop hk)
    · refine .pure ⟨hrank, ?_, fun g hg => ?_⟩
      · simp only [length_cons, hgs.1, length_drop, length_zipIdx]
        omega
      · rcases mem_cons.1 hg with rfl | hg
        · exact ⟨fun g hg => (by cases hg), Nat.zero_le _⟩
        · obtain ⟨i, hi⟩ := mem_iff_getElem?.1 hg
          obtain ⟨-, -, h⟩ := hgs.2 i g hi
          exact h

/-! ## Plans -/

section plans
variable {groups : List (List (Bytes × List ℕ))} {ps : ℕ} {p : Plan} {ts : List (Option Tree)}

theorem pointerSize_le (n : ℕ) : pointerSize n ≤ 4 := by
  unfold pointerSize
  split_ifs <;> omega

theorem lt_of_pointerSize_le (hn : n < 2 ^ 32) (h : pointerSize n ≤ ps) : n < 2 ^ (8 * ps) := by
  have hpow : 2 ^ (8 * pointerSize n) ≤ 2 ^ (8 * ps) := Nat.pow_le_pow_right (by omega) (by omega)
  have hlt : n < 2 ^ (8 * pointerSize n) := by
    unfold pointerSize
    split_ifs <;> omega
  omega

variable (hs : s.Valid) (hp : Prepared s recs keys order groups) (hroom : s.Roomy recs.length)
include hs hp hroom

theorem Prepared.plan_ensures (hps : ps ≤ 4) : Ensures (plan s ps recs keys order groups) fun r =>
    r.1.Fine s ps recs.length ∧ Room s r.1.buckets ∧ ∀ o ∈ r.2, ∀ t ∈ o, t.Within r.1.buckets.length :=
  (Rms.plan_ensures hs hps hp.ranked hp.keys hp.groups).imp fun _ h => ⟨h.1, hroom.room hs h.2.1, h.2.2⟩

theorem buildFrom_ensures {fuel : ℕ} (hfuel : 5 ≤ fuel + ps) (hps : ps ≤ 4) :
    Ensures (buildFrom s recs keys order groups fuel ps) fun file => ∃ ps p ts, ps ≤ 4 ∧
      plan s ps recs keys order groups = .ok (p, ts) ∧ layOut s p ts = .ok (file, roundedBlocks s p.buckets) ∧
        roundedBlocks s p.buckets < 2 ^ (8 * ps) := by
  induction fuel generalizing ps with
  | zero => omega
  | succ fuel ih =>
    refine .bind (hp.plan_ensures hs hroom hps).val ?_
    rintro ⟨p, ts⟩ ⟨hplan, hfine, hr, htree⟩
    refine .bind (layOut_ensures hs hfine htree hr).val ?_
    rintro ⟨file, highest⟩ ⟨hfile, -, rfl⟩
    refine .ite (fun hle => .pure ⟨ps, p, ts, hps, hplan, hfile, ?_⟩) fun hlt => ?_
    · exact lt_of_pointerSize_le hr.rounded hle
    · exact ih (by omega) (pointerSize_le _)

end plans

/-! ## Numbers in range -/

/-- The numbers of a bucket are in their types: its offsets and counts are words,
    its level and key bytes. -/
structure Bucket.InRange (b : Bucket) : Prop where
  level : b.level < 2 ^ 8
  keyref : b.keyref < 2 ^ 8
  size : b.buf.length < 2 ^ 16
  free : b.free < 2 ^ 16
  ids : b.level = 0 → b.keyref = 0 → b.count + 1 < 2 ^ 16
  pointers : 0 < b.level → b.count * b.ps + 5 ≤ b.buf.length

/-- The numbers of a plan are in their types: the blocks of each bucket, and of the
    file, are 32-bit numbers. -/
structure Plan.InRange (s : Spec) (p : Plan) : Prop where
  buckets : ∀ b ∈ p.buckets, b.InRange
  vbns : ∀ (i : ℕ) b v, p.buckets[i]? = some b → (layoutOf s p.buckets).vbns[i]? = some v →
    v + bucketBlocks s b < 2 ^ 32
  areas : ∀ a < s.areas.length, areaStart s p.buckets a + usedBlocks s p.buckets a < 2 ^ 32
  total : totalBlocks s p.buckets + 1 < 2 ^ 32
  rounded : roundedBlocks s p.buckets < 2 ^ 32

theorem Bucket.Fine.inRange {ps B N : ℕ} {b : Bucket} (h : b.Fine s ps B N) (hs : s.Valid) : b.InRange := by
  obtain ⟨hlo, hhi, -⟩ := h.length_buf hs
  have hlevel := h.level
  have hkeyref := h.keyref
  have hheader := h.header
  unfold BKT_HDR at hheader
  rcases Nat.eq_zero_or_pos b.level with h0 | h0
  · have hfree := h.data h0
    refine ⟨by omega, by omega, by omega, by omega, fun _ hk => ?_, fun hpos => by omega⟩
    have := h.ids h0 hk
    unfold BKT_HDR at this
    omega
  · obtain ⟨hps, hindex⟩ := h.index h0
    rw [hps.symm] at hindex
    exact ⟨by omega, by omega, by omega, by omega, fun hz => by omega, fun _ => by omega⟩

theorem Plan.Fine.inRange {ps N : ℕ} {p : Plan} (h : p.Fine s ps N) (hs : s.Valid) (hroom : Room s p.buckets) :
    p.InRange s := by
  have htotal := totalBlocks_eq hs p.buckets
  have hfirst := firstVbn_lt hs
  have hmax := hroom.total
  have harea : ∀ a < s.areas.length, areaStart s p.buckets a + usedBlocks s p.buckets a < 2 ^ 32 := fun a ha => by
    have := areaStart_add_le p.buckets ha
    omega
  refine ⟨fun b hb => (h.buckets b hb).inRange hs, fun i b v hb hv => ?_, harea, hmax, hroom.rounded⟩
  have hplace := getElem?_bucketPlaces (s := s) (f := areaStart s p.buckets) hb
  obtain rfl : v = areaStart s p.buckets b.area + usedBlocks s (p.buckets.take i) b.area :=
    Option.some.inj (hv.symm.trans hplace)
  have hlt := harea b.area (h.area_lt b (mem_of_getElem? hb))
  have hused := usedBlocks_take_add (s := s) hb rfl
  omega

/-- What the loader plans for `recs` with index pointers of `ps` bytes. -/
def Planned (s : Spec) (recs : List Bytes) (ps : ℕ) (p : Plan) (ts : List (Option Tree)) : Prop :=
  ps ≤ 4 ∧ ∃ keys order groups, prepare s recs = .ok (keys, order, groups) ∧
    plan s ps recs keys order groups = .ok (p, ts)

/-- An area of all the blocks there can be. -/
def hugeSpec : Spec := ⟨rfmVAR, 0, 0, [⟨1, 0xffffffff, 0⟩], [KeySpec.string 0 1], 0⟩

end Rms
