/-
  Moving an image instead of linking it elsewhere: the contents with the fixups applied
  are those of the same link at another base.
-/
import Vaxpunk.Link.Proof.Collect
import Vaxpunk.Link.Proof.Fixups
import Vaxpunk.Link.Proof.Own

namespace Link

open Obj (Relocated Fixups)
open Linker Words List

variable {A B : ℕ} {l l' : Linker} {top : ℕ}
variable {f : Fixups} {data data' : List (List (BitVec 8))}

/-! ## Applying the fixups -/

theorem fixupList_fields (h : l.fixupList = .ok f) (hnone : ∀ e ∈ l.stored, e.2.stuck = none)
    (hsize : ∀ e ∈ l.stored, e.2.size = 8 ∨ e.2.size = 4) :
    f.fields.Perm (l.stored.map fun e => (e.1 - l.start, e.2.size)) := by
  have hall : l.stored.filter (·.2.stuck.isNone) = l.stored :=
    filter_eq_self.mpr fun e he => by rw [hnone e he]; rfl
  have hperm := fixupList_addresses h fun e he _ => hsize e he
  rwa [hall] at hperm

theorem Mirrors.size {d : BitVec 64} {sections : List ImageSection} {stored : List (ℕ × Stored)}
    (hm : Mirrors d sections stored data data') {e : ℕ × Stored} (he : e ∈ stored) (hnone : e.2.stuck = none) :
    e.2.size = 8 ∨ e.2.size = 4 := by
  obtain ⟨i, s, b, b', -, -, -, hlow, hhigh, hr⟩ := hm.inside e he hnone
  have hlen := length_slice (b := b) (i := e.1 - s.start) (n := e.2.size) (by omega)
  rw [← hlen]
  exact hr.size

/-- **The fixups** make the contents of a section those it has elsewhere. -/
theorem Mirrors.apply {d : BitVec 64} (ho : Ordered l.sections top)
    (hm : Mirrors d l.sections l.stored data data') (hnone : ∀ e ∈ l.stored, e.2.stuck = none)
    (hf : l.fixupList = .ok f) {i : ℕ} {s : ImageSection} {b b' : List (BitVec 8)}
    (hi : l.sections[i]? = some s) (hb : data[i]? = some b) (hb' : data'[i]? = some b') :
    f.apply d (s.start - l.start) b = .ok b' := by
  have hperm := fixupList_fields hf hnone fun e he => hm.size he (hnone e he)
  have hlow {j : ℕ} {t : ImageSection} (hj : l.sections[j]? = some t) : l.start ≤ t.start :=
    ho.head_le (mem_of_getElem? hj)
  have hstart := hlow hi
  obtain ⟨hlen, hsize⟩ := hm.lengths hi hb hb'
  have hforward := ho.forward s (mem_of_getElem? hi)
  have hble : b.length ≤ s.stop - s.start := by
    split_ifs at hsize <;> omega
  refine Fixups.apply_eq hlen (fun x hx => ?_) ?_ fun j hj => ?_
  · obtain ⟨e, he, rfl⟩ := mem_map.mp (hperm.mem_iff.mp hx)
    obtain ⟨j, t, c, c', hj, hc, hc', hte, hec, hr⟩ := hm.inside e he (hnone e he)
    have hpos := hm.apart.pos e he
    have htl := hlow hj
    obtain ⟨-, hcsize⟩ := hm.lengths hj hc hc'
    have hcle : c.length ≤ t.stop - t.start := by
      split_ifs at hcsize <;> omega
    have htforward := ho.forward t (mem_of_getElem? hj)
    rcases ho.eq_or_apart hj hi with rfl | hbefore | hafter
    · obtain rfl := Option.some.inj (hi.symm.trans hj)
      obtain rfl := Option.some.inj (hb.symm.trans hc)
      obtain rfl := Option.some.inj (hb'.symm.trans hc')
      exact .inr ⟨e.1 - s.start, by simp only; omega, by simp only; omega, hr⟩
    · exact .inl (.inl ⟨by simp only; omega, by simp only; omega⟩)
    · exact .inl (.inr (by simp only; omega))
  · refine (hperm.pairwise_iff fun {x y} hxy => hxy.symm).mpr ?_
    rw [pairwise_map]
    refine hm.apart.pairwise.imp_of_mem fun {e f} he hf hef => ?_
    obtain ⟨j, t, -, -, hj, -, -, hte, -⟩ := hm.inside e he (hnone e he)
    obtain ⟨k, u, -, -, hk, -, -, hue, -⟩ := hm.inside f hf (hnone f hf)
    have h₁ := hlow hj
    have h₂ := hlow hk
    simp only
    omega
  · refine hm.outside i s b b' hi hb hb' j fun hcov => ?_
    obtain ⟨e, he, hge, hlt⟩ := hcov
    obtain ⟨k, t, -, -, hk, -, -, hte, -⟩ := hm.inside e he (hnone e he)
    have htl := hlow hk
    have := hj _ (hperm.mem_iff.mpr (mem_map.mpr ⟨e, he, rfl⟩))
    simp only at this
    omega

/-! ## Passes -/

/-- A layout in which all commands are steady and none fails, and what the linker's
    own code refers to has a place. -/
structure Calm (l : Linker) : Prop where
  steady : CalmModules l l.modules.zipIdx ⟨l.blank, [], []⟩
  veneers : OwnPlaced l l.veneers
  slots : SlotsPlaced l

instance (l : Linker) : Decidable (Calm l) :=
  decidable_of_iff (CalmModules l l.modules.zipIdx ⟨l.blank, [], []⟩ ∧ OwnPlaced l l.veneers ∧
    SlotsPlaced l) ⟨fun h => ⟨h.1, h.2.1, h.2.2⟩, fun h => ⟨h.steady, h.veneers, h.slots⟩⟩

/-- After the last pass, what the linker itself writes is clear of what the commands
    left that matters if the image moves. -/
structure OwnClear (opts : Options) (l : Linker) : Prop where
  veneers : VeneersClear l l.stored
  vector : ∀ names ∈ opts.shareable, VectorClear l l.stored names.length ∧
    (∀ x ∈ names, EntryPlaced l x.1) ∧ (names ≠ [] → OwnPlaced l l.vector)

instance (opts : Options) (l : Linker) : Decidable (OwnClear opts l) :=
  decidable_of_iff (VeneersClear l l.stored ∧ ∀ names ∈ opts.shareable,
    VectorClear l l.stored names.length ∧ (∀ x ∈ names, EntryPlaced l x.1) ∧
    (names ≠ [] → OwnPlaced l l.vector)) ⟨fun h => ⟨h.1, h.2⟩, fun h => ⟨h.veneers, h.vector⟩⟩

def CalmPasses (opts : Options) : ℕ → Linker → Prop
  | 0, _ => True
  | fuel + 1, l => match l.layout opts.base with
    | .error _ => True
    | .ok l₁ => Calm l₁ ∧ match l₁.execute with
      | none => True
      | some (l₂, _, _) =>
        if l₂.veneered < l₂.far.length then match l₂.addVeneers with
          | .error _ => True
          | .ok l₃ => CalmPasses opts fuel l₃
        else OwnClear opts l₂

instance decCalmPasses (opts : Options) :
    (fuel : ℕ) → (l : Linker) → Decidable (CalmPasses opts fuel l)
  | 0, _ => .isTrue trivial
  | fuel + 1, l => by
    unfold CalmPasses
    split
    · infer_instance
    · refine @instDecidableAnd _ _ inferInstance ?_
      split
      · infer_instance
      · split_ifs
        · split
          · infer_instance
          · exact decCalmPasses opts fuel _
        · infer_instance

/-- Every pass of a link is calm. -/
def CalmLink (fuel : ℕ) (inputs : List (Obj.Name × Input)) (opts : Options) : Prop :=
  match collect inputs opts with
  | .error _ => True
  | .ok l => CalmPasses opts fuel l

instance (fuel : ℕ) (inputs : List (Obj.Name × Input)) (opts : Options) :
    Decidable (CalmLink fuel inputs opts) := by
  unfold CalmLink
  cases collect inputs opts <;> infer_instance

theorem Moved.setting (hA : 2 ^ 16 ∣ A) (hB : 2 ^ 16 ∣ B) {l₀ l₀' : Linker} (hl : Moved A B l l')
    (h : l₀.layout A = .ok l) (h' : l₀'.layout B = .ok l') (hrel : l₀.relocatable = true)
    (hcalm : Calm l) : ∃ top, Setting A B l l' top := by
  obtain ⟨top, ho⟩ := layout_ordered h
  have hrel' : l.relocatable = true := by
    obtain ⟨ps, ss, rfl⟩ := layout_same h
    exact hrel
  exact ⟨top, hA, hB, hl, ho, layout_lt h, layout_lt h', hrel', hcalm.veneers⟩

theorem Setting.execute (hS : Setting A B l l' top) (hcalm : Calm l) (hcalm' : Calm l')
    {l₁ l₁' : Linker} {errors errors' : List Msg} (h : l.execute = some (l₁, data, errors))
    (h' : l'.execute = some (l₁', data', errors')) :
    Setting A B l₁ l₁' top ∧ (VeneersClear l₁ l₁.stored →
      Mirrors (disp A B) l₁.sections l₁.stored data data') := by
  obtain ⟨-, log, hput, rfl⟩ := execute_ok h
  obtain ⟨-, log', hput', rfl⟩ := execute_ok h'
  have ht := hS.runModules hcalm.steady hcalm'.steady
  have hfar : l'.runModules.run.far.foldl (fun far t => addFar t far) l'.far =
      l.runModules.run.far.foldl (fun far t => addFar t far) l.far := by
    rw [ht.far, hS.moved.alike.far]
  refine ⟨{ hS with moved := { hS.moved with alike := { hS.moved.alike with far := hfar } } },
    fun hclear => ?_⟩
  have hS' : Setting A B
      { l with
        warnings := l.warnings ++ l.runModules.warnings
        stored := l.runModules.run.stored
        dataRefs := l.runModules.run.dataRefs }
      { l' with
        warnings := l'.warnings ++ l'.runModules.warnings
        stored := l'.runModules.run.stored
        dataRefs := l'.runModules.run.dataRefs } top :=
    { hS with moved := { hS.moved with alike := { hS.moved.alike with } } }
  exact hS'.putVeneers hcalm.slots hclear ht.mirrors hput hput'

/-- **All passes**, in both. -/
theorem passes_twin (hA : 2 ^ 16 ∣ A) (hB : 2 ^ 16 ∣ B) {opts : Options} {fuel fuel' : ℕ}
    (hl : Kin A B l l') (hlow : Low l) (hrel : l.relocatable = true)
    (hc : CalmPasses { opts with base := A } fuel l)
    (hc' : CalmPasses { opts with base := B } fuel' l')
    {l₁ l₁' : Linker} {data data' : List (List (BitVec 8))} {errors errors' : List Msg}
    (h : passes A fuel l = some (.ok (l₁, data, errors)))
    (h' : passes B fuel' l' = some (.ok (l₁', data', errors'))) :
    (∃ top, Setting A B l₁ l₁' top) ∧ OwnClear opts l₁ ∧
      Mirrors (disp A B) l₁.sections l₁.stored data data' := by
  induction fuel generalizing fuel' l l' with
  | zero => cases h
  | succ fuel ih =>
    cases fuel' with
    | zero => cases h'
    | succ fuel' =>
      unfold passes at h h'
      cases hp : pass A l with
      | error e =>
        rw [hp] at h
        cases h
      | ok r => cases hp' : pass B l' with
        | error e =>
          rw [hp'] at h'
          cases h'
        | ok r' =>
          obtain ⟨l₂, data₂, errors₂⟩ := r
          obtain ⟨l₂', data₂', errors₂'⟩ := r'
          rw [hp] at h
          rw [hp'] at h'
          obtain ⟨l₀, hlay, hexec⟩ := pass_ok hp
          obtain ⟨l₀', hlay', hexec'⟩ := pass_ok hp'
          unfold CalmPasses at hc hc'
          simp only [hlay, hlay', hexec, hexec'] at hc hc'
          obtain ⟨hmoved, hlow₀⟩ := hl.layout hA hB hlow hlay hlay'
          obtain ⟨top, hS⟩ := hmoved.setting hA hB hlay hlay' hrel hc.1
          obtain ⟨hS₂, hm⟩ := hS.execute hc.1 hc'.1 hexec hexec'
          have hmore : l₂'.veneered < l₂'.far.length ↔ l₂.veneered < l₂.far.length := by
            rw [hS₂.moved.alike.veneered, hS₂.moved.alike.far]
          simp only [hmore] at h' hc'
          by_cases hlt : l₂.veneered < l₂.far.length
          · simp only [if_pos hlt] at h h' hc hc'
            cases hv : l₂.addVeneers with
            | error e =>
              rw [hv] at h
              cases h
            | ok l₃ => cases hv' : l₂'.addVeneers with
              | error e =>
                rw [hv'] at h'
                cases h'
              | ok l₃' =>
                rw [hv] at h hc
                rw [hv'] at h' hc'
                have hlow₂ : Low l₂ := by
                  obtain ⟨-, log, -, rfl⟩ := execute_ok hexec
                  exact hlow₀
                have hkin := hS₂.moved.kin.addVeneers hv hv'
                have hlow₃ : Low l₃ := growing_low.addVeneers (by omega) hlow₂ hv
                have hrel₃ := (addVeneers_relocatable hv).trans hS₂.relocatable
                exact ih hkin hlow₃ hrel₃ hc.2 hc'.2 h h'
          · simp only [if_neg hlt] at h h' hc
            cases h
            cases h'
            exact ⟨⟨top, hS₂⟩, ⟨hc.2.veneers, hc.2.vector⟩, hm hc.2.veneers⟩

/-! ## Links -/

/-- The image's lowest section address. -/
def origin (image : Obj.Image) : ℕ := ((image.sections.map (·.vaddr.toNat)).min?).getD 0

/-- The image `b` is the image `a`, moved by `d`: each section is there, with the
    contents that the fixups of `a` give its own. -/
def Relinked (d : BitVec 64) (a b : Obj.Image) : Prop :=
  ∃ f, a.fixups = some f ∧ List.Forall₂ (fun (s t : Obj.Section) =>
    t.vaddr = s.vaddr + d ∧ t.size = s.size ∧ t.flags = s.flags ∧
    f.apply d (s.vaddr.toNat - origin a) s.data = .ok t.data) a.sections b.sections

theorem eq_nil_of_eraseDups {α : Type} [BEq α] {xs : List α} (h : xs.eraseDups = []) : xs = [] := by
  cases xs with
  | nil => rfl
  | cons x xs =>
    rw [eraseDups_cons] at h
    cases h

theorem problems_nil (h : l.problems = []) : ∀ e ∈ l.stored, e.2.stuck = none := by
  intro e he
  have hmap := filterMap_eq_nil_iff.mp (eq_nil_of_eraseDups h) e he
  cases hs : e.2.stuck with
  | none => rfl
  | some why =>
    simp only [hs] at hmap
    cases hmap

theorem getElem?_imageSections {i : ℕ} {x : Obj.Section} :
    (l.imageSections data)[i]? = some x ↔ ∃ s b, l.sections[i]? = some s ∧ data[i]? = some b ∧
      x = ⟨BitVec.ofNat 64 s.start, BitVec.ofNat 32 (s.stop - s.start), s.cls.flags, b⟩ := by
  unfold Linker.imageSections
  rw [getElem?_map, Option.map_eq_some_iff]
  constructor
  · rintro ⟨⟨s, b⟩, hz, rfl⟩
    obtain ⟨hs, hb⟩ := getElem?_zip_eq_some.mp hz
    exact ⟨s, b, hs, hb, rfl⟩
  · rintro ⟨s, b, hs, hb, rfl⟩
    exact ⟨(s, b), getElem?_zip_eq_some.mpr ⟨hs, hb⟩, rfl⟩

theorem origin_eq (ho : Ordered l.sections top) (hbound : ∀ s ∈ l.sections, s.stop < 2 ^ 64)
    (hlen : l.sections.length ≤ data.length) {image : Obj.Image}
    (hi : image.sections = l.imageSections data) : origin image = l.start := by
  have hstarts : (l.imageSections data).map (·.vaddr.toNat) = l.sections.map (·.start) := by
    unfold Linker.imageSections
    rw [map_map]
    have hzip : l.sections = (l.sections.zip data).map (·.1) := by
      rw [map_fst_zip hlen]
    conv_rhs => rw [hzip, map_map]
    refine map_congr_left fun x hx => ?_
    have hx₁ := (of_mem_zip hx).1
    have h₁ := ho.forward _ hx₁
    have h₂ := hbound _ hx₁
    simp only [Function.comp_apply, BitVec.toNat_ofNat]
    exact Nat.mod_eq_of_lt (by omega)
  unfold origin Linker.start
  rw [hi, hstarts]
  cases hs : l.sections with
  | nil => rfl
  | cons s ss =>
    have hmin : ((s :: ss).map (·.start)).min? = some s.start := by
      refine min?_eq_some_iff.mpr ⟨mem_map_of_mem mem_cons_self, fun b hb => ?_⟩
      obtain ⟨t, ht, rfl⟩ := mem_map.mp hb
      have := ho.head_le (hs ▸ ht)
      rw [hs] at this
      exact this
    rw [hmin]
    rfl

theorem Setting.relinked (hS : Setting A B l l' top) (hm : Mirrors (disp A B) l.sections l.stored data data')
    (hnone : ∀ e ∈ l.stored, e.2.stuck = none) (hf : l.fixupList = .ok f) {a b : Obj.Image}
    (ha : a.sections = l.imageSections data) (hfix : a.fixups = some f)
    (hb : b.sections = l'.imageSections data') : Relinked (disp A B) a b := by
  have hdata : ∀ i < l.sections.length, i < data.length ∧ i < data'.length := by
    intro i hi
    obtain ⟨c, c', hc, hc', -⟩ := hm.sized i _ (getElem?_eq_getElem hi)
    exact ⟨(List.getElem?_eq_some_iff.mp hc).1, (List.getElem?_eq_some_iff.mp hc').1⟩
  have hlen : l.sections.length ≤ data.length := by
    by_contra hlt
    exact absurd (hdata data.length (by omega)).1 (lt_irrefl _)
  have hlen' : l.sections.length ≤ data'.length := by
    by_contra hlt
    exact absurd (hdata data'.length (by omega)).2 (lt_irrefl _)
  have hsections := hS.moved.sections.length_eq
  refine ⟨f, hfix, ?_⟩
  rw [origin_eq hS.ordered hS.bound hlen ha, ha, hb]
  refine forall₂_iff_get.mpr ⟨?_, fun i h₁ h₂ => ?_⟩
  · simp only [Linker.imageSections, length_map, length_zip]
    omega
  · obtain ⟨s, c, hs, hc, hx⟩ := getElem?_imageSections.mp (getElem?_eq_getElem h₁)
    obtain ⟨t, c', ht, hc', hy⟩ := getElem?_imageSections.mp (getElem?_eq_getElem h₂)
    have hst := forall₂_getElem? hS.moved.sections hs ht
    have hbound := hS.bound s (mem_of_getElem? hs)
    have hforward := hS.ordered.forward s (mem_of_getElem? hs)
    rw [get_eq_getElem, get_eq_getElem, hx, hy]
    refine ⟨hst.start.ofNat, ?_, by rw [hst.cls], ?_⟩
    · have h₃ := hst.start
      have h₄ := hst.stop
      unfold Shifted at h₃ h₄
      simp only
      congr 1
      omega
    · simp only [BitVec.toNat_ofNat]
      rw [Nat.mod_eq_of_lt (by omega)]
      exact hm.apply hS.ordered hnone hf hs hc hc'

theorem Setting.withVector (hS : Setting A B l l' top) {opts : Options}
    (hclear : OwnClear opts l) {data₁ data₁' : List (List (BitVec 8))}
    (hm : Mirrors (disp A B) l.sections l.stored data data') {l₁ l₁' : Linker}
    (h : withVector { opts with base := A } l data = .ok (l₁, data₁))
    (h' : withVector { opts with base := B } l' data' = .ok (l₁', data₁')) :
    Setting A B l₁ l₁' top ∧ Mirrors (disp A B) l₁.sections l₁.stored data₁ data₁' := by
  unfold Link.withVector at h h'
  cases hs : opts.shareable with
  | none =>
    simp only [hs] at h h'
    cases h
    cases h'
    exact ⟨hS, hm⟩
  | some names =>
    simp only [hs] at h h'
    obtain ⟨hvec, hentries, hplaced⟩ := hclear.vector names hs
    obtain ⟨⟨st, log, rfl⟩, ⟨st', log', rfl⟩, hm₁⟩ := hS.writeVector hplaced hentries hvec hm
      (unwrap_eq_ok.mp h) (unwrap_eq_ok.mp h')
    exact ⟨{ hS with moved := { hS.moved with alike := { hS.moved.alike with } } }, hm₁⟩

/-- **Moving an image is linking it elsewhere**, if every pass of both links is
    calm. -/
theorem relinked_of_calm (fuel fuel' : ℕ) (inputs : List (Obj.Name × Input)) (opts : Options)
    (haligned : ∀ x ∈ inputs, x.2.Aligned) (hA : 2 ^ 16 ∣ A) (hB : 2 ^ 16 ∣ B)
    (hrel : opts.relocatable = true) (hc : CalmLink fuel inputs { opts with base := A })
    (hc' : CalmLink fuel' inputs { opts with base := B }) {a b : Linked}
    (ha : link fuel inputs { opts with base := A } = some (.ok a))
    (hb : link fuel' inputs { opts with base := B } = some (.ok b)) :
    Relinked (disp A B) a.image b.image := by
  obtain ⟨l₀, l₁, data, errors, hcol, hp, hfin⟩ := link_ok ha
  obtain ⟨l₀', l₁', data', errors', hcol', hp', hfin'⟩ := link_ok hb
  -- the base plays no part in collecting
  have hcol₀ : collect inputs { opts with base := B } = .ok l₀ := hcol
  obtain rfl : l₀' = l₀ := Except.ok.inj (hcol'.symm.trans hcol₀)
  unfold CalmLink at hc hc'
  rw [hcol] at hc
  rw [hcol'] at hc'
  obtain ⟨hlow, hrel₀⟩ := growing_low.collect (by omega)
    (fun x hx => Input.wants_of_aligned (haligned x hx)) hcol
  have hrel₁ : l₀'.relocatable = true := by
    rw [hrel₀]
    simp [hrel]
  obtain ⟨⟨top, hS⟩, hclear, hm⟩ := passes_twin hA hB (.refl A B l₀') hlow hrel₁ hc hc' hp hp'
  obtain ⟨l₂, data₂, fixups, _, _, _, _, _, hvec, herr, hfix, -, -, -, rfl⟩ := finish_ok hfin
  obtain ⟨l₂', data₂', fixups', _, _, _, _, _, hvec', -, -, -, -, -, rfl⟩ := finish_ok hfin'
  obtain ⟨hS₂, hm₂⟩ := hS.withVector hclear hm hvec hvec'
  have hmoves : (opts.relocatable || opts.shareable.isSome) = true := by simp [hrel]
  unfold errorsOf at herr
  unfold fixupsOf at hfix
  simp only [hmoves, if_true] at herr hfix
  have hnone := problems_nil (append_eq_nil_iff.mp herr).2
  cases hf : l₂.fixupList with
  | error e =>
    rw [hf] at hfix
    cases hfix
  | ok f =>
    rw [hf] at hfix
    cases hfix
    exact hS₂.relinked hm₂ hnone hf rfl rfl rfl

/-- A module with a read-only psect of 8 bytes, which holds an address in `psect`, and
    a writable one of `size`. -/
def holdsAddress (psect size : BitVec 32) : List Obj.Record :=
  [.mhd { name := [0x41], version := [] },
    .gsd [.psc { align := 3, flags := Obj.psc.REL ||| Obj.psc.RD, alloc := 8, name := [0x4c] },
      .psc { align := 3, flags := Obj.psc.REL ||| Obj.psc.RD ||| Obj.psc.WRT, alloc := size, name := [0x44] }],
    .tir [.staPq 0 0, .ctlSetrb, .staPq psect 0, .stoOff], .eom { comcod := 0 } none]

theorem aligned_holdsAddress {psect size : BitVec 32} :
    ∀ x ∈ [(([] : Obj.Name), Input.object (holdsAddress psect size))], x.2.Aligned := by
  intro x hx
  rw [mem_singleton.mp hx]
  intro subs hsubs p hp
  simp only [holdsAddress, mem_cons, not_mem_nil, Obj.Record.gsd.injEq, reduceCtorEq,
    false_or, or_false] at hsubs
  subst hsubs
  simp only [mem_cons, not_mem_nil, Obj.Gsd.psc.injEq, or_false] at hp
  rcases hp with rfl | rfl <;> exact Nat.le_of_ble_eq_true rfl

/-- The address of a psect that is empty, in a class that has no section: it has the
    weight of an address, but it is not one. -/
theorem not_relinked : ¬ ∀ (fuel : ℕ) (inputs : List (Obj.Name × Input)) (opts : Options) (A B : ℕ)
    (a b : Linked), (∀ x ∈ inputs, x.2.Aligned) → 2 ^ 16 ∣ A → 2 ^ 16 ∣ B → opts.relocatable = true →
    link fuel inputs { opts with base := A } = some (.ok a) →
    link fuel inputs { opts with base := B } = some (.ok b) →
    Relinked (disp A B) a.image b.image := by
  intro hall
  obtain ⟨a, ha, himage⟩ := linked_of (f := fun k => (k.image.sections, k.image.fixups))
    (x := link 1 [([], .object (holdsAddress 1 0))] (optsAt 0x10000))
    (b := ([⟨0x10000, 8, 0, replicate 8 0⟩], some ⟨[0], [], 0, 0⟩)) (by decide +kernel)
  obtain ⟨b, hb, himage'⟩ := linked_of (f := fun k => k.image.sections)
    (x := link 1 [([], .object (holdsAddress 1 0))] (optsAt 0x20000))
    (b := [⟨0x20000, 8, 0, replicate 8 0⟩]) (by decide +kernel)
  obtain ⟨hsections, hfixups⟩ := Prod.mk.inj himage
  obtain ⟨f, hf, hrel⟩ := hall 1 [([], .object (holdsAddress 1 0))] (optsAt 0) 0x10000 0x20000 a b
    aligned_holdsAddress (by decide) (by decide) rfl ha hb
  obtain rfl := Option.some.inj (hfixups.symm.trans hf)
  unfold origin at hrel
  rw [hsections, himage'] at hrel
  obtain ⟨⟨-, -, -, happly⟩, -⟩ := forall₂_cons.mp hrel
  exact absurd happly (by decide +kernel)

/-- The address of a psect that has a place. -/
theorem relinked_address : ∃ a b,
    link 1 [([], .object (holdsAddress 1 8))] (optsAt 0x10000) = some (.ok a) ∧
    link 1 [([], .object (holdsAddress 1 8))] (optsAt 0x20000) = some (.ok b) ∧
    Relinked (disp 0x10000 0x20000) a.image b.image := by
  obtain ⟨a, ha, -⟩ := linked_of (f := fun _ => ())
    (x := link 1 [([], .object (holdsAddress 1 8))] (optsAt 0x10000)) (b := ()) (by decide +kernel)
  obtain ⟨b, hb, -⟩ := linked_of (f := fun _ => ())
    (x := link 1 [([], .object (holdsAddress 1 8))] (optsAt 0x20000)) (b := ()) (by decide +kernel)
  exact ⟨a, b, ha, hb, relinked_of_calm 1 1 [([], .object (holdsAddress 1 8))] (optsAt 0)
    aligned_holdsAddress (by decide) (by decide) rfl (by decide +kernel) (by decide +kernel) ha hb⟩

end Link
