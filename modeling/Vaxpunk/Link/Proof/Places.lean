/-
  Where a layout puts every module's contributions.
-/
import Vaxpunk.Link.Proof.Collect
import Vaxpunk.Link.Proof.Relocate

namespace Link

open Obj (has)
open Exec (bind_eq_ok)
open Linker List Option Option

variable {p : Psect} {cls : Class} {ps : List Psect} {l l' : Linker}
variable {size size' : ℕ} {q : Psect} {done : List Class} {flags : BitVec 16}

/-! ## A psect's parts -/

/-- Every module's part of the psect is at its base. -/
def Psect.overlaid (p : Psect) : Bool := has p.flags Obj.psc.OVR || !has p.flags Obj.psc.REL

/-- A psect before its layout: aligned for all its parts, which start at 0 if they share
    an address, as does a psect that isn't in the image. -/
structure Psect.Sound (p : Psect) : Prop where
  align : ∀ part ∈ p.parts, part.align ≤ p.align
  shared : p.overlaid = true → ∀ part ∈ p.parts, part.offset = 0
  absolute : has p.flags Obj.psc.REL = false → p.base = 0

/-- A psect after it: its parts aligned and inside, at its base if they share an address
    and apart from each other if not. -/
structure Psect.Arranged (p : Psect) : Prop where
  inside : ∀ part ∈ p.parts, part.offset + part.size ≤ p.size
  aligned : ∀ part ∈ p.parts, 2 ^ part.align ∣ part.offset
  shared : p.overlaid = true → ∀ part ∈ p.parts, part.offset = 0
  apart : p.overlaid = false → p.parts.Pairwise fun a b => a.offset + a.size ≤ b.offset
  empty : p.size = 0 ↔ ∀ part ∈ p.parts, part.size = 0

theorem growing_sound : Growing (fun _ => True) Psect.Sound where
  new name flags align _ := ⟨by simp, by simp, fun _ => rfl⟩
  raise p align _ hp := ⟨fun part hpart => (hp.align part hpart).trans (le_max_left _ _),
    hp.shared, hp.absolute⟩
  part p part halign hoff hp := by
    refine ⟨fun q hq => ?_, fun ho q hq => ?_, hp.absolute⟩ <;>
      rcases mem_append.mp hq with hq | hq
    · exact hp.align q hq
    · rw [mem_singleton.mp hq]
      exact halign
    · exact hp.shared ho q hq
    · rw [mem_singleton.mp hq]
      exact hoff
  resize p size hp := by
    refine ⟨forall_mem_modify ?_ hp.align 0, fun ho => forall_mem_modify ?_ (hp.shared ho) 0,
      hp.absolute⟩ <;> exact fun _ h => h

theorem layoutParts_apart (ho : (has flags Obj.psc.OVR ||
      !has flags Obj.psc.REL) = false) {parts parts' : List Part}
    (h : layoutParts flags parts size = some (parts', size')) :
    size ≤ size' ∧ parts'.Pairwise (fun a b => a.offset + a.size ≤ b.offset) ∧
      parts'.map (·.align) = parts.map (·.align) ∧
      ∀ a ∈ parts', size ≤ a.offset ∧ a.offset + a.size ≤ size' ∧ 2 ^ a.align ∣ a.offset := by
  induction parts generalizing parts' size size' with
  | nil =>
    simp only [layoutParts, some.injEq, Prod.mk.injEq] at h
    obtain ⟨rfl, rfl⟩ := h
    simp
  | cons part parts ih =>
    unfold layoutParts at h
    rw [if_neg (by rw [ho]; exact Bool.false_ne_true)] at h
    simp only [bind_eq_bind, bind_eq_some_iff, some.injEq,
      Prod.mk.injEq, Prod.exists] at h
    obtain ⟨offset, hoff, size₁, hsize₁, parts₁, size₂, hrest, rfl, rfl⟩ := h
    obtain ⟨rfl, -⟩ := u64?_eq_some.mp hsize₁
    have hge := nextMultiple_ge hoff
    obtain ⟨hle, hapart, halign, hall⟩ := ih hrest
    refine ⟨by omega, pairwise_cons.mpr ⟨fun b hb => (hall b hb).1, hapart⟩, ?_,
      forall_mem_cons.mpr ⟨⟨hge, hle, nextMultiple_dvd hoff⟩, fun b hb => ?_⟩⟩
    · rw [map_cons, map_cons, halign]
    · obtain ⟨h₁, h₂⟩ := hall b hb
      exact ⟨by omega, h₂⟩

theorem layoutParts_shared (ho : (has flags Obj.psc.OVR ||
      !has flags Obj.psc.REL) = true) {parts parts' : List Part}
    (h : layoutParts flags parts size = some (parts', size')) :
    parts' = parts ∧ size ≤ size' ∧ ∀ a ∈ parts, a.size ≤ size' := by
  induction parts generalizing parts' size size' with
  | nil =>
    simp only [layoutParts, some.injEq, Prod.mk.injEq] at h
    obtain ⟨rfl, rfl⟩ := h
    simp
  | cons part parts ih =>
    unfold layoutParts at h
    rw [if_pos ho] at h
    simp only [bind_eq_bind, bind_eq_some_iff, some.injEq,
      Prod.mk.injEq, Prod.exists] at h
    obtain ⟨parts₁, size₁, hrest, rfl, rfl⟩ := h
    obtain ⟨rfl, hle, hall⟩ := ih hrest
    have hpart := (le_max_right size part.size).trans hle
    exact ⟨rfl, (le_max_left _ _).trans hle, forall_mem_cons.mpr ⟨hpart, hall⟩⟩

theorem layoutParts_size {parts parts' : List Part} (h : layoutParts flags parts size = some (parts', size')) :
    parts'.map (·.size) = parts.map (·.size) ∧ (size' = 0 ↔ size = 0 ∧ ∀ n ∈ parts.map (·.size), n = 0) := by
  induction parts generalizing parts' size size' with
  | nil =>
    cases h
    simp
  | cons part parts ih =>
    unfold layoutParts at h
    split_ifs at h
    · simp only [bind_eq_bind, bind_eq_some_iff, some.injEq, Prod.mk.injEq, Prod.exists] at h
      obtain ⟨parts₁, size₁, hrest, rfl, rfl⟩ := h
      obtain ⟨hmap, hzero⟩ := ih hrest
      exact ⟨by rw [map_cons, map_cons, hmap], by rw [hzero, map_cons, forall_mem_cons, Nat.max_eq_zero_iff, and_assoc]⟩
    · simp only [bind_eq_bind, bind_eq_some_iff, some.injEq, Prod.mk.injEq, Prod.exists] at h
      obtain ⟨offset, hoff, size₁, hsize₁, parts₁, size₂, hrest, rfl, rfl⟩ := h
      obtain ⟨rfl, -⟩ := u64?_eq_some.mp hsize₁
      obtain ⟨hmap, hzero⟩ := ih hrest
      refine ⟨by rw [map_cons, map_cons, hmap], ?_⟩
      rw [hzero, map_cons, forall_mem_cons, Nat.add_eq_zero_iff, nextMultiple_eq_zero hoff, and_assoc]

theorem layoutPsect_parts (h : layoutPsect p = some q) :
    q.flags = p.flags ∧ q.parts.map (·.size) = p.parts.map (·.size) ∧
      (q.size = 0 ↔ ∀ part ∈ q.parts, part.size = 0) := by
  simp only [layoutPsect, bind_eq_bind, bind_eq_some_iff, some.injEq, Prod.exists] at h
  obtain ⟨parts, size, hparts, rfl⟩ := h
  obtain ⟨hmap, hzero⟩ := layoutParts_size hparts
  refine ⟨rfl, hmap, ?_⟩
  rw [hzero, ← hmap]
  simp

/-- **A psect's layout.** -/
theorem Psect.Sound.layout (hp : p.Sound) (h : layoutPsect p = some q) : q.Sound ∧ q.Arranged:= by
  have hempty := (layoutPsect_parts h).2.2
  unfold layoutPsect at h
  simp only [bind_eq_bind, bind_eq_some_iff, some.injEq, Prod.exists] at h
  obtain ⟨parts, size, hparts, rfl⟩ := h
  by_cases ho : p.overlaid = true
  · obtain ⟨rfl, -, hall⟩ := layoutParts_shared ho hparts
    refine ⟨{ hp with }, fun a ha => ?_, fun a ha => ?_, hp.shared,
      fun hn => absurd (ho.symm.trans hn) (by decide), hempty⟩ <;>
      rw [hp.shared ho a ha]
    · rw [Nat.zero_add]
      exact hall a ha
    · exact Nat.dvd_zero _
  · obtain ⟨-, hapart, halign, hall⟩ := layoutParts_apart (Bool.eq_false_iff.mpr ho) hparts
    refine ⟨⟨fun a ha => ?_, fun h => absurd h ho, hp.absolute⟩, fun a ha => (hall a ha).2.1,
      fun a ha => (hall a ha).2.2, fun h => absurd h ho, fun _ => hapart, hempty⟩
    have hmem : a.align ∈ p.parts.map (·.align) := halign ▸ mem_map_of_mem ha
    obtain ⟨b, hb, hab⟩ := mem_map.mp hmem
    exact hab ▸ hp.align b hb

/-! ## Sections -/

/-- The class has contents: some module's contribution to one of its psects isn't
    empty. -/
def Full (ps : List Psect) (cls : Class) : Prop :=
  ∃ p ∈ ps, isMember cls p = true ∧ ∃ n ∈ p.parts.map (·.size), n ≠ 0

/-- The psect and its parts are aligned, and it is in the image section of its class. -/
def Within (sections : List ImageSection) (p : Psect) : Prop :=
  2 ^ p.align ∣ p.base ∧ (∀ part ∈ p.parts, 2 ^ part.align ∣ p.base + part.offset) ∧
    ∃ s ∈ sections, s.cls = Class.of p.flags ∧ s.start ≤ p.base ∧ p.base + p.size ≤ s.stop

/-- A psect once the classes `done` have been placed. -/
structure Stands (ps : List Psect) (done : List Class) (sections : List ImageSection)
    (p q : Psect) : Prop where
  same : q = { p with base := q.base }
  absolute : has p.flags Obj.psc.REL = false → q.base = p.base
  member : ∀ cls ∈ done, isMember cls p = true → Full ps cls →
    2 ^ q.align ∣ q.base ∧ ∃ s ∈ sections, s.cls = cls ∧ s.start ≤ q.base ∧ q.base + q.size ≤ s.stop

/-- A layout of the psects `ps`, once the classes `done` have been placed. -/
structure Spread (ps : List Psect) (done : List Class) (l : Linker) : Prop where
  empty : ∀ p ∈ ps, p.size = 0 ↔ ∀ part ∈ p.parts, part.size = 0
  psects : List.Forall₂ (Stands ps done l.sections) ps l.psects
  sections : ∀ s ∈ l.sections, 2 ^ 16 ∣ s.start ∧ Full ps s.cls

theorem forall₂_comp {α β γ : Type} {R : α → β → Prop} {S : β → γ → Prop} {T : α → γ → Prop}
    (hT : ∀ a b c, R a b → S b c → T a c) {xs : List α} {ys : List β} {zs : List γ}
    (hR : List.Forall₂ R xs ys) (hS : List.Forall₂ S ys zs) : List.Forall₂ T xs zs := by
  induction hR generalizing zs with
  | nil =>
    cases hS
    exact .nil
  | cons hab _ ih =>
    cases hS with
    | cons hbc hrest => exact .cons (hT _ _ _ hab hbc) (ih hrest)

theorem isMember_base (h : q = { p with base := q.base }) :
    isMember cls q = isMember cls p := by
  rw [h]
  rfl

theorem full_same {qs : List Psect} (cls : Class)
    (h : List.Forall₂ (fun p q => q.flags = p.flags ∧ q.parts.map (·.size) = p.parts.map (·.size)) ps qs) :
    Full qs cls ↔ Full ps cls := by
  induction h with
  | nil => rfl
  | @cons p q ps qs hpq hrest ih =>
    have hmember : isMember cls q = isMember cls p := by rw [isMember, isMember, hpq.1]
    simp only [Full, exists_mem_cons_iff, hmember, hpq.2] at ih ⊢
    rw [ih]

theorem full_iff (hempty : ∀ p ∈ ps, p.size = 0 ↔ ∀ part ∈ p.parts, part.size = 0) :
    ¬ (ps.filter (isMember cls)).all (·.size = 0) = true ↔ Full ps cls := by
  simp only [List.all_eq_true, mem_filter, decide_eq_true_eq, not_forall, Full, exists_prop, and_assoc]
  refine exists_congr fun p => and_congr_right fun hp => and_congr_right fun _ => ?_
  rw [hempty p hp]
  simp

theorem Stands.parts {sections : List ImageSection} (h : Stands ps done sections p q) :
    q.flags = p.flags ∧ q.parts.map (·.size) = p.parts.map (·.size) := by
  rw [h.same]
  exact ⟨rfl, rfl⟩

theorem Spread.full (hs : Spread ps done l) (cls : Class) : Full l.psects cls ↔ Full ps cls :=
  full_same cls (hs.psects.imp fun _ _ h => h.parts)

theorem Spread.empty_now (hs : Spread ps done l) :
    ∀ q ∈ l.psects, q.size = 0 ↔ ∀ part ∈ q.parts, part.size = 0 := by
  intro q hq
  obtain ⟨p, hp, hpq⟩ := forall₂_mem hs.psects hq
  rw [hpq.same]
  exact hs.empty p hp

theorem Spread.layoutClass {at_ at' : ℕ} (hs : Spread ps done l)
    (hnew : cls ∉ done) (h : layoutClass (l, at_) cls = .ok (l', at')) :
    Spread ps (cls :: done) l' := by
  have hfull := hs.full cls
  have hempty := hs.empty_now
  rcases layoutClass_ok h with ⟨hall, rfl, rfl⟩ | ⟨start, psects, hall, hstart, hplace, -, rfl⟩
  · have hnone : ¬ Full ps cls := fun hf => (full_iff hempty).mpr (hfull.mpr hf) hall
    refine ⟨hs.empty, hs.psects.imp fun p q hpq => ⟨hpq.same, hpq.absolute, ?_⟩, hs.sections⟩
    intro c hc hm hf
    rcases mem_cons.mp hc with rfl | hc
    · exact absurd hf hnone
    · exact hpq.member c hc hm hf
  · have hf : Full ps cls := hfull.mp ((full_iff hempty).mp hall)
    refine ⟨hs.empty, ?_, fun s hmem => ?_⟩
    · obtain ⟨-, -, hset⟩ := placePsects_ok hplace
      refine forall₂_comp (fun p q r hpq hqr => ⟨?_, fun habs => ?_, fun c hc hm hfc => ?_⟩)
        hs.psects hset
      · rw [hqr.same, hpq.same]
      · rw [hqr.other, hpq.absolute habs]
        rw [isMember_base hpq.same, Linker.isMember, habs, Bool.false_and]
      · have hmq := hm
        rw [← isMember_base hpq.same] at hmq
        by_cases hcls : c = cls
        · subst hcls
          obtain ⟨h₁, h₂, h₃⟩ := hqr.member hmq
          exact ⟨h₃, _, mem_append_right _ mem_cons_self, rfl, h₁, h₂⟩
        · have hother : isMember cls q = false := by
            rw [Linker.isMember, Bool.and_eq_true, decide_eq_true_eq] at hmq
            rw [Linker.isMember, hmq.2, decide_eq_false hcls, Bool.and_false]
          rw [hqr.other hother]
          obtain ⟨halign, s, hmem, hin⟩ :=
            hpq.member c ((mem_cons.mp hc).resolve_left hcls) hm hfc
          exact ⟨halign, s, mem_append_left _ hmem, hin⟩
    · rcases mem_append.mp hmem with hmem | hmem
      · exact hs.sections s hmem
      · rw [mem_singleton.mp hmem]
        exact ⟨nextMultiple_dvd hstart, hf⟩

theorem spread_classes {classes : List Class} {la la' : Linker × ℕ}
    (hnodup : (classes ++ done).Nodup) (hs : Spread ps done la.1)
    (h : classes.foldlM Linker.layoutClass la = .ok la') :
    ∃ all, (∀ cls ∈ classes ++ done, cls ∈ all) ∧ Spread ps all la'.1 := by
  induction classes generalizing done la with
  | nil =>
    cases h
    exact ⟨done, fun _ h => h, hs⟩
  | cons cls classes ih =>
    rw [foldlM_cons] at h
    obtain ⟨la₁, h₁, h⟩ := bind_eq_ok.mp h
    obtain ⟨hnew, hrest⟩ := nodup_cons.mp hnodup
    have hs₁ := hs.layoutClass (fun hd => hnew (mem_append_right _ hd)) h₁
    obtain ⟨all, hall, hspread⟩ := ih (nodup_middle.mpr hnodup) hs₁ h
    refine ⟨all, fun c hc => hall c ?_, hspread⟩
    simpa [or_left_comm] using hc

/-- Where a layout of the psects `ps` leaves the image sections and the psects. -/
structure LaidOut (ps : List Psect) (l : Linker) : Prop where
  apart : l.sections.Pairwise fun a b => a.stop ≤ b.start
  sections : ∀ s ∈ l.sections, s.start ≤ s.stop ∧ 2 ^ 16 ∣ s.start ∧ Full ps s.cls
  arranged : ∀ p ∈ l.psects, p.Arranged
  absolute : ∀ p ∈ l.psects, has p.flags Obj.psc.REL = false → p.base = 0
  within : ∀ p ∈ l.psects, has p.flags Obj.psc.REL = true →
    (Within l.sections p ↔ Full ps (Class.of p.flags))

theorem Class.mem_all (cls : Class) : cls ∈ [Class.code, .readOnly, .data, .zero] := by
  cases cls <;> decide

/-- **A layout** of psects that have room for their parts. -/
theorem Every.layout {base : ℕ} (hl : Every Psect.Sound l) (h : l.layout base = .ok l') :
    Every Psect.Sound l' ∧ LaidOut l.psects l' := by
  obtain ⟨at_, ho⟩ := layout_ordered h
  unfold Linker.layout at h
  split at h
  · cases h
  · next ps hps =>
    obtain ⟨r, hr, h⟩ := bind_eq_ok.mp h
    cases h
    have hsound := mapM_forall_mem (fun p q hp hq => Psect.Sound.layout hp hq) hl hps
    obtain ⟨all, hall, hspread⟩ := spread_classes (by decide)
      (⟨fun p hp => (hsound p hp).2.empty, List.forall₂_same.mpr fun _ _ => ⟨rfl, fun _ => rfl, by simp⟩, by simp⟩ :
        Spread ps [] { l with psects := ps, sections := [] }) hr
    have hfull cls : Full ps cls ↔ Full l.psects cls :=
      full_same cls ((forall₂_mapM hps).imp fun _ _ h => ⟨(layoutPsect_parts h).1, (layoutPsect_parts h).2.1⟩)
    have hsec : ∀ s ∈ r.1.sections, Full l.psects s.cls := fun s hs =>
      (hfull _).mp (hspread.sections s hs).2
    have hold : ∀ q ∈ r.1.psects, ∃ p, (p.Sound ∧ p.Arranged) ∧ Stands ps all r.1.sections p q := by
      intro q hq
      obtain ⟨p, hp, hpq⟩ := forall₂_mem hspread.psects hq
      exact ⟨p, hsound p hp, hpq⟩
    refine ⟨fun q hq => ?_, ho.apart, fun s hs => ⟨ho.forward s hs, (hspread.sections s hs).1, hsec s hs⟩,
      fun q hq => ?_, fun q hq => ?_, fun q hq hrel => ⟨?_, fun hf => ?_⟩⟩
    all_goals obtain ⟨p, ⟨hp, harr⟩, hpq⟩ := hold q hq
    · rw [hpq.same]
      exact { hp with absolute := fun habs => (hpq.absolute habs).trans (hp.absolute habs) }
    · rw [hpq.same]
      exact { harr with }
    · intro habs
      rw [hpq.same] at habs
      exact (hpq.absolute habs).trans (hp.absolute habs)
    · rintro ⟨-, -, s, hs, hcls, -⟩
      exact hcls ▸ hsec s hs
    · have hmem : isMember (Class.of q.flags) p = true := by
        rw [← isMember_base hpq.same, Linker.isMember, hrel, decide_eq_true rfl, Bool.true_and]
      obtain ⟨halign, hs⟩ := hpq.member _ (hall _ (Class.mem_all _)) hmem ((hfull _).mpr hf)
      refine ⟨halign, fun part hpart => ?_, hs⟩
      rw [hpq.same] at hpart halign ⊢
      exact dvd_add ((Nat.pow_dvd_pow 2 (hp.align part hpart)).trans halign) (harr.aligned part hpart)

/-! ## Symbols -/

/-- The psect of a module's contribution, and which part of it that is. -/
def Linker.partOf (l : Linker) (module psect : ℕ) : Option (Psect × Part) := do
  let m ← l.modules[module]?
  let (p, part) ← m.psects[psect]?
  let p ← l.psects[p]?
  let part ← p.parts[part]?
  some (p, part)

theorem partOf_eq_some {module psect : ℕ} {part : Part} (h : l.partOf module psect = some (p, part)) :
    p ∈ l.psects ∧ part ∈ p.parts ∧ l.partBase module psect = some (p.base + part.offset) := by
  simp only [Linker.partOf, bind_eq_bind, bind_eq_some_iff, Prod.exists,
    some.injEq, Prod.mk.injEq] at h
  obtain ⟨m, hm, i, j, hij, q, hq, part', hpart, rfl, rfl⟩ := h
  refine ⟨mem_of_getElem? hq, mem_of_getElem? hpart, ?_⟩
  simp [Linker.partBase, hm, hij, hq, hpart]

theorem LaidOut.symbol (hl : LaidOut ps l) (hlt : ∀ s ∈ l.sections, s.stop < 2 ^ 64) {name : Obj.Name}
    {d : Def} {k : ℕ} {part : Part} (hd : l.defs.lookup name = some d) (hk : d.psect = some k)
    (hp : l.partOf d.module k = some (p, part)) (hrel : has p.flags Obj.psc.REL = true)
    (hoff : d.value.toNat ≤ part.size) :
    ∃ v, l.value name = some v ∧ ((∃ s ∈ l.sections, s.cls = Class.of p.flags ∧
      s.start ≤ v.toNat ∧ v.toNat ≤ s.stop) ↔ Full ps (Class.of p.flags)) := by
  obtain ⟨hmem, hpart, hbase⟩ := partOf_eq_some hp
  have hin := (hl.arranged p hmem).inside part hpart
  refine ⟨BitVec.ofNat 64 (p.base + part.offset) + d.value, ?_, ?_, fun hf => ?_⟩
  · simp [Linker.value, hd, hk, hbase]
  · rintro ⟨s, hs, hcls, -⟩
    exact hcls ▸ (hl.sections s hs).2.2
  · obtain ⟨-, -, s, hs, hcls, hlow, hhigh⟩ := (hl.within p hmem hrel).mpr hf
    have hstop := hlt s hs
    refine ⟨s, hs, hcls, ?_⟩
    rw [BitVec.toNat_add, BitVec.toNat_ofNat, Nat.mod_eq_of_lt (by omega), Nat.mod_eq_of_lt (by omega)]
    omega

/-- One pass more, with the veneers that the last one asked for. -/
def Again (base : ℕ) (l l' : Linker) : Prop :=
  ∃ l₁ data errors, pass base l = .ok (l₁, data, errors) ∧ l₁.addVeneers = .ok l'

theorem every_sound {inputs : List (Obj.Name × Input)} {opts : Options} {l₀ : Linker}
    (hcol : collect inputs opts = .ok l₀) (hr : Relation.ReflTransGen (Again opts.base) l₀ l) :
    Every Psect.Sound l := by
  induction hr with
  | refl =>
    refine (growing_sound.collect trivial (fun x _ => ?_) hcol).1
    cases x.2 <;> simp [Input.Wants, Wants]
  | tail _ hstep ih =>
    obtain ⟨l₂, data, errors, hpass, hven⟩ := hstep
    obtain ⟨l₁, hlay, hexec⟩ := pass_ok hpass
    obtain ⟨-, log, -, rfl⟩ := execute_ok hexec
    refine growing_sound.addVeneers trivial ?_ hven
    exact (ih.layout hlay).1

/-- **Every layout of a link**: the first, and those with veneers.  Psects of a class
    without contents have no image section, and nor have their symbols. -/
theorem layout_places {inputs : List (Obj.Name × Input)} {opts : Options} {l₀ l l' : Linker}
    (hcol : collect inputs opts = .ok l₀) (hr : Relation.ReflTransGen (Again opts.base) l₀ l)
    (h : l.layout opts.base = .ok l') : LaidOut l.psects l' ∧
      ∀ name d k p part, l'.defs.lookup name = some d → d.psect = some k →
        l'.partOf d.module k = some (p, part) → has p.flags Obj.psc.REL = true →
        d.value.toNat ≤ part.size →
        ∃ v, l'.value name = some v ∧ ((∃ s ∈ l'.sections, s.cls = Class.of p.flags ∧
          s.start ≤ v.toNat ∧ v.toNat ≤ s.stop) ↔ Full l.psects (Class.of p.flags)) := by
  have hl := ((every_sound hcol hr).layout h).2
  exact ⟨hl, fun name d k p part hd hk hp hrel hoff =>
    hl.symbol (layout_lt h) hd hk hp hrel hoff⟩

/-- A module with a read-only psect of 8 bytes and a writable one of `size`, which the
    symbol `X` is at the start of. -/
def definesX (size : BitVec 32) : List (Obj.Name × Input) :=
  let flags := Obj.psc.REL ||| Obj.psc.RD
  [([], .object [.mhd { name := [0x41], version := [] },
    .gsd [.psc { align := 3, flags := flags, alloc := 8, name := [0x4c] },
      .psc { align := 3, flags := flags ||| Obj.psc.WRT, alloc := size, name := [0x44] },
      .sdef { flags := Obj.sym.DEF ||| Obj.sym.REL, value := 0, psindx := 1, name := [0x58] }],
    .eom { comcod := 0 } none])]

/-- What the layout of these inputs gives for `X`. -/
def placesX (size : BitVec 32) : Option (Except (List Msg) Linker) :=
  some (collect (definesX size) (optsAt 0x10000) >>= fun l => one (l.layout 0x10000))

theorem placesX_ok {size : BitVec 32} (h : placesX size = some (.ok l')) :
    ∃ l, collect (definesX size) (optsAt 0x10000) = .ok l ∧ l.layout 0x10000 = .ok l' := by
  obtain ⟨l, hl, hl'⟩ := bind_eq_ok.mp (some.inj h)
  exact ⟨l, hl, one_eq_ok.mp hl'⟩

/-- The psect of `X` is empty, and so is its class: `X` is 0, outside the image. -/
theorem symbol_unplaced : ¬ ∀ (inputs : List (Obj.Name × Input)) (opts : Options) (l l' : Linker),
    collect inputs opts = .ok l → l.layout opts.base = .ok l' →
    ∀ name d k p part, l'.defs.lookup name = some d → d.psect = some k →
      l'.partOf d.module k = some (p, part) → has p.flags Obj.psc.REL = true →
      d.value.toNat ≤ part.size →
      ∃ v, l'.value name = some v ∧ ∃ s ∈ l'.sections, s.start ≤ v.toNat ∧ v.toNat ≤ s.stop := by
  intro hall
  obtain ⟨l', h, hx⟩ := linked_of (x := placesX 0)
    (f := fun l' => (l'.value [0x58], l'.sections, l'.defs.lookup [0x58], l'.partOf 0 1))
    (b := (some 0, [⟨.readOnly, 0x10000, 0x10008⟩], some ⟨0, some 1, 0, false⟩,
      some (⟨[0x44], Obj.psc.REL ||| Obj.psc.RD ||| Obj.psc.WRT, 3, [⟨0, 0, 3, 0⟩], 0, 0⟩,
        ⟨0, 0, 3, 0⟩))) (by rfl)
  obtain ⟨l, hcol, hlay⟩ := placesX_ok h
  simp only [Prod.mk.injEq] at hx
  obtain ⟨hv, hsec, hd, hp⟩ := hx
  obtain ⟨v, hv', s, hs, hlow, -⟩ := hall _ _ l l' hcol hlay _ _ 1 _ _ hd rfl hp (by decide) (by decide)
  obtain rfl := some.inj (hv.symm.trans hv')
  rw [hsec, mem_singleton] at hs
  subst hs
  exact absurd hlow (by decide)

/-- With contents, the psect of `X` has a place. -/
theorem layout_places_full : ∃ l l', collect (definesX 8) (optsAt 0x10000) = .ok l ∧ Full l.psects .data ∧
    l.layout 0x10000 = .ok l' ∧ l'.value [0x58] = some 0x20000 ∧ LaidOut l.psects l' := by
  obtain ⟨l', h, hx⟩ := linked_of (x := placesX 8) (f := fun l' => (l'.value [0x58], l'.sections.map (·.cls)))
    (b := (some 0x20000, [.readOnly, .data])) (by decide +kernel)
  simp only [Prod.mk.injEq] at hx
  obtain ⟨l, hcol, hlay⟩ := placesX_ok h
  have hl := (layout_places hcol .refl hlay).1
  obtain ⟨s, hs, hcls⟩ := mem_map.mp (show Class.data ∈ l'.sections.map (·.cls) by rw [hx.2]; decide)
  exact ⟨l, l', hcol, hcls ▸ (hl.sections s hs).2.2, hlay, hx.1, hl⟩

end Link
