/-
  The headers of a file as the map of the index file in memory leads to them,
  whatever else the volume holds.
-/
import Vaxpunk.Ods.Proof.Op
import Vaxpunk.Ods.Proof.Blocks

namespace Ods

variable {hs xs : List (ℕ × Header)} {map : List Run} {h' : Header}

/-- The valid header at LBN `l`, in the slot of the file number `f` names. -/
structure Volume.Holds (v : Volume) (f : Fid) (l : ℕ) (h : Header) : Prop where
  slot : v.headerLbn f.num = some l
  within : l < v.dev.count
  block : h = ⟨v.dev.blocks l⟩
  valid : h.invalid = none
  names : Op.Names f h

/-- `xs` are the headers after `h`, with their LBNs. -/
def Volume.Chain (v : Volume) : Header → List (ℕ × Header) → Prop
  | h, [] => h.extFid.num = 0
  | h, x :: xs => h.extFid.num ≠ 0 ∧ v.Holds h.extFid x.1 x.2 ∧ x.2.segNum = h.segNum + 1 ∧ v.Chain x.2 xs

/-- `hs` are the headers of the file `f`, with their LBNs. -/
structure Volume.Reads (v : Volume) (f : Fid) (p : ℕ × Header) (xs : List (ℕ × Header)) : Prop where
  rvn : f.rvn ≤ 1
  first : v.Holds f p.1 p.2
  primary : p.2.segNum = 0
  chain : v.Chain p.2 xs

/-- The runs of a header can be read: its pointers decode, none of them is a
    hole, and they stay within the volume. -/
structure Volume.MapOk (v : Volume) (h : Header) : Prop where
  decodes : ∃ ps, decodeMap h.mapArea = .ok ps
  within : ∀ r ∈ h.runs, r.lbn ≠ 2 ^ 32 - 1 ∧ r.lbn + r.count ≤ Volume.nextMultipleOf v.volBlocks v.cluster

variable {v v' : Volume} {f : Fid} {h : Header} {l : ℕ}

/-! ## Reading is following the chain -/

namespace Op

theorem readHeader_iff : (readHeader f v).result = .ok h ↔
    f.rvn ≤ 1 ∧ (∃ l, v.Holds f l h) ∧ h.segNum = 0 := by
  rw [readHeader_ok]
  constructor
  · rintro ⟨hr, l, hl, hlt, hb, hv, hn, hs⟩
    exact ⟨hr, ⟨l, hl, hlt, hb, hv, hn⟩, hs⟩
  · rintro ⟨hr, ⟨l, hl, hlt, hb, hv, hn⟩, hs⟩
    exact ⟨hr, l, hl, hlt, hb, hv, hn, hs⟩

theorem readHeaderAt_iff (hl : v.headerLbn f.num = some l) :
    (readHeaderAt l (some f) v).result = .ok h ↔ v.Holds f l h := by
  rw [readHeaderAt_ok]
  exact ⟨fun ⟨hlt, hb, hv, hn⟩ => ⟨hl, hlt, hb, hv, hn⟩,
    fun ⟨_, hlt, hb, hv, hn⟩ => ⟨hlt, hb, hv, hn⟩⟩

/-- Following the links reads the chain: segment numbers go up by one at each
    link, so the fuel lasts. -/
theorem extHeaders_iff : ∀ {fuel lbn : ℕ} {h : Header} {xs : List (ℕ × Header)},
    2 ^ 16 ≤ fuel + h.segNum → ((extHeaders fuel lbn h v).result = .ok xs ↔ v.Chain h xs)
  | 0, _, h, _, hf => absurd h.segNum_lt (by omega)
  | fuel + 1, lbn, h, xs, hf => by
    unfold extHeaders
    by_cases h0 : h.extFid.num = 0
    · rw [if_pos (by simp [Fid.isZero, h0])]
      cases xs with
      | nil => exact ⟨fun _ => h0, fun _ => rfl⟩
      | cons x xs =>
        constructor
        · intro he
          cases he
        · exact fun he => absurd h0 he.1
    · rw [if_neg (by simp [Fid.isZero, h0]), Prog.Looks.state_bind]
      simp only [orFail_bind_ok, (looks_readHeaderAt _ _).bind_ok]
      constructor
      · rintro ⟨l, hl, x, hx, hok⟩
        have hat := (readHeaderAt_iff hl).1 hx
        split_ifs at hok with hseq
        · cases hok
        · have hlt := h.segNum_lt
          have hxs : x.segNum = h.segNum + 1 := by omega
          rw [(looks_extHeaders _ _ _).bind_ok] at hok
          obtain ⟨ys, hys, hok⟩ := hok
          cases hok
          exact ⟨h0, hat, hxs, (extHeaders_iff (by rw [hxs]; omega)).1 hys⟩
      · intro hch
        cases xs with
        | nil => exact absurd hch h0
        | cons x xs =>
          obtain ⟨-, hat, hxs, hch⟩ := hch
          have hlt := x.2.segNum_lt
          refine ⟨x.1, hat.slot, x.2, (readHeaderAt_iff hat.slot).2 hat, ?_⟩
          rw [if_neg (by omega), (looks_extHeaders _ _ _).bind_ok]
          exact ⟨xs, (extHeaders_iff (by rw [hxs]; omega)).2 hch, rfl⟩

/-- **Reading a file's headers**: what is read and when it succeeds. -/
theorem headers_iff : (headers f v).result = .ok hs ↔
    ∃ p xs, hs = p :: xs ∧ v.Reads f p xs := by
  unfold headers
  rw [(looks_readHeader f).bind_ok]
  constructor
  · rintro ⟨p, hp, h⟩
    rw [Prog.Looks.state_bind, (looks_extHeaders _ _ _).bind_ok] at h
    obtain ⟨xs, hxs, h⟩ := h
    cases h
    obtain ⟨hr, ⟨l, hat⟩, hseg⟩ := readHeader_iff.1 hp
    rw [hat.slot]
    exact ⟨(l, p), xs, rfl, hr, hat, hseg, (extHeaders_iff (by omega)).1 hxs⟩
  · rintro ⟨⟨l, p⟩, xs, rfl, hr, hat, hseg, hch⟩
    simp only at hat hseg hch
    refine ⟨p, readHeader_iff.2 ⟨hr, ⟨l, hat⟩, hseg⟩, ?_⟩
    rw [Prog.Looks.state_bind, (looks_extHeaders _ _ _).bind_ok, hat.slot]
    exact ⟨xs, (extHeaders_iff (by omega)).2 hch, rfl⟩

theorem runsOf_iff : (runsOf hs v).result = .ok map ↔
    ∃ rs, List.Forall₂ (fun x r => v.headerRuns x.2 x.1 = .ok r) hs rs ∧ map = rs.flatten := by
  have hlook : ∀ x : ℕ × Header, Looks (ofExcept (v.headerRuns x.2 x.1)) :=
    fun x => looks_ofExcept fun _ => headerRuns_error _ _ _
  unfold runsOf
  rw [Prog.Looks.state_bind, (Prog.Looks.collect hlook _).bind_ok]
  simp only [Prog.Looks.collect_ok hlook, result_ofExcept]
  constructor
  · rintro ⟨rs, hrs, h⟩
    cases h
    exact ⟨rs, hrs, rfl⟩
  · rintro ⟨rs, hrs, rfl⟩
    exact ⟨rs, hrs, rfl⟩

theorem headerRuns_iff {rs : List Run} : v.headerRuns h l = .ok rs ↔ v.MapOk h ∧ rs = h.runs := by
  unfold Volume.headerRuns
  cases hd : decodeMap h.mapArea with
  | error what =>
    simp only [reduceCtorEq, false_iff, not_and]
    rintro ⟨⟨ps, hps⟩, -⟩
    rw [hd] at hps
    cases hps
  | ok ps =>
    rw [pointerRuns_iff]
    have hruns : h.runs = ptrRuns ps := by rw [Header.runs, Header.ptrs_eq hd]
    rw [← hruns, and_comm]
    exact and_congr_left fun _ => ⟨fun hw => ⟨⟨ps, hd⟩, hw⟩, fun hm => hm.within⟩

/-- **The map of some headers** is what they map, one after the other. -/
theorem runsOf_eq : (runsOf hs v).result = .ok map ↔
    (∀ x ∈ hs, v.MapOk x.2) ∧ map = hs.flatMap fun x => x.2.runs := by
  rw [runsOf_iff]
  simp only [headerRuns_iff]
  constructor
  · rintro ⟨rs, hall, rfl⟩
    have hrs : rs = hs.map fun x => x.2.runs := by
      induction hall with
      | nil => rfl
      | cons hx _ ih => rw [List.map_cons, hx.2, ih]
    rw [hrs, List.forall₂_map_right_iff, List.forall₂_same] at hall
    exact ⟨fun x hx => (hall x hx).1, by rw [hrs, List.flatMap_def]⟩
  · rintro ⟨hok, rfl⟩
    refine ⟨hs.map fun x => x.2.runs, ?_, List.flatMap_def⟩
    rw [List.forall₂_map_right_iff, List.forall₂_same]
    exact fun x hx => ⟨hok x hx, rfl⟩

end Op

/-! ## Blocks that stay -/

/-- `v'` is `v` but for its blocks and the fault of its device, and the index
    file may map more. -/
structure Volume.Later (v v' : Volume) : Prop extends v.Kin v' where
  index : mapBlocks v.indexMap <+: mapBlocks v'.indexMap

section
variable (hv : v.Kin v')
include hv

theorem Volume.Kin.home : v'.home = v.home := congrArg Geom.home hv.geom

theorem Volume.Kin.count : v'.dev.count = v.dev.count := congrArg Geom.count hv.geom

theorem Volume.Kin.cluster : v'.cluster = v.cluster := congrArg HomeBlock.cluster hv.home

theorem Volume.Kin.volBlocks : v'.volBlocks = v.volBlocks := congrArg Geom.volBlocks hv.geom

theorem Volume.Kin.clusters : v'.clusters = v.clusters := by
  simp only [Volume.clusters, hv.volBlocks, hv.cluster]

theorem Volume.Kin.headerRuns (h : Header) (l : ℕ) : v'.headerRuns h l = v.headerRuns h l := by
  simp only [Volume.headerRuns, hv.volBlocks, hv.cluster]

theorem Volume.Kin.runsOf (hm : (Op.runsOf hs v).result = .ok map) : (Op.runsOf hs v').result = .ok map := by
  rw [Op.runsOf_iff] at hm ⊢
  simpa only [hv.headerRuns] using hm

end

section
variable (hv : v.Same v')
include hv

theorem Volume.Same.home : v'.home = v.home := hv.kin.home

theorem Volume.Same.count : v'.dev.count = v.dev.count := hv.kin.count

theorem Volume.Same.cluster : v'.cluster = v.cluster := hv.kin.cluster

theorem Volume.Same.clusters : v'.clusters = v.clusters := hv.kin.clusters

theorem Volume.Same.headerLbn (n : ℕ) : v'.headerLbn n = v.headerLbn n := by
  simp only [Volume.headerLbn, hv.home, hv.indexMap]

theorem Volume.Same.later : v.Later v' :=
  ⟨hv.kin, hv.indexMap ▸ List.prefix_refl _⟩

end

namespace Volume.Later

theorem refl (v : Volume) : v.Later v := (Volume.Same.refl v).later

theorem trans {v'' : Volume} (hv : v.Later v') (hv' : v'.Later v'') : v.Later v'' :=
  ⟨hv.toKin.trans hv'.toKin, hv.index.trans hv'.index⟩

theorem mapLbn (hv : v.Later v') {x : ℕ} (hl : mapLbn v.indexMap x = some l) :
    mapLbn v'.indexMap x = some l := mapLbn_of_prefix hv.index hl

theorem headerLbn (hv : v.Later v') {n : ℕ} (hl : v.headerLbn n = some l) : v'.headerLbn n = some l := by
  unfold Volume.headerLbn at hl ⊢
  rw [hv.home]
  split_ifs at hl ⊢
  exact hv.mapLbn hl

end Volume.Later

theorem Volume.Holds.congr (hv : v.Later v') (hat : v.Holds f l h)
    (hb : v'.dev.blocks l = v.dev.blocks l) : v'.Holds f l h :=
  ⟨hv.headerLbn hat.slot, hv.count ▸ hat.within, by rw [hb]; exact hat.block, hat.valid, hat.names⟩

theorem Volume.Chain.congr (hv : v.Later v') : ∀ {h : Header} {xs : List (ℕ × Header)}, v.Chain h xs →
    (∀ x ∈ xs, v'.dev.blocks x.1 = v.dev.blocks x.1) → v'.Chain h xs
  | _, [], hch, _ => hch
  | _, x :: xs, ⟨h0, hat, hseg, hch⟩, hb =>
    ⟨h0, hat.congr hv (hb x (by simp)), hseg, hch.congr hv fun y hy => hb y (by simp [hy])⟩

theorem Volume.Reads.congr {p : ℕ × Header} (hv : v.Later v') (hr : v.Reads f p xs)
    (hb : ∀ x ∈ p :: xs, v'.dev.blocks x.1 = v.dev.blocks x.1) : v'.Reads f p xs :=
  ⟨hr.rvn, hr.first.congr hv (hb p (by simp)), hr.primary,
    hr.chain.congr hv fun x hx => hb x (by simp [hx])⟩

theorem Volume.Chain.of_head (hch : v.Chain h xs) (he : h'.extFid = h.extFid)
    (hs : h'.segNum = h.segNum) : v.Chain h' xs := by
  cases xs with
  | nil => rw [Volume.Chain, he]; exact hch
  | cons x xs => rw [Volume.Chain, he, hs]; exact hch

theorem Volume.Holds.replace (hv : v.Later v') (hat : v.Holds f l h) (hb : v'.dev.blocks l = h'.raw)
    (hok : h'.invalid = none) (hf : h'.fid = h.fid) : v'.Holds f l h' :=
  ⟨hv.headerLbn hat.slot, hv.count ▸ hat.within, by rw [hb], hok, by
    rw [Op.Names, hf]; exact hat.names⟩

/-- **Splicing**: the headers up to one that is replaced, and a new chain from
    there on. -/
theorem Volume.Chain.splice (hv : v.Later v') {x : ℕ × Header} {ys : List (ℕ × Header)}
    (hb : v'.dev.blocks x.1 = h'.raw) (hok : h'.invalid = none) (hf : h'.fid = x.2.fid)
    (hs : h'.segNum = x.2.segNum) (hch' : v'.Chain h' ys) : ∀ {h : Header} {ms : List (ℕ × Header)},
    v.Chain h (ms ++ x :: xs) → (∀ y ∈ ms, v'.dev.blocks y.1 = v.dev.blocks y.1) →
    v'.Chain h (ms ++ (x.1, h') :: ys)
  | _, [], ⟨h0, hat, hseg, _⟩, _ => ⟨h0, hat.replace hv hb hok hf, hs.trans hseg, hch'⟩
  | _, m :: ms, ⟨h0, hat, hseg, hch⟩, hkeep =>
    ⟨h0, hat.congr hv (hkeep m (by simp)), hseg,
      splice hv hb hok hf hs hch' hch fun y hy => hkeep y (by simp [hy])⟩

end Ods
