/-
  What collecting the inputs gives: psects as their modules ask for.
-/
import Vaxpunk.Link.Proof.Moved

namespace Link

open Exec (bind_eq_ok)
open Linker List

variable {name : Obj.Name} {flags : BitVec 16} {i : ℕ}

/-- The psects of a file are aligned to at most 64 KB. -/
def Aligned (records : List Obj.Record) : Prop :=
  ∀ subs, .gsd subs ∈ records → ∀ p, .psc p ∈ subs → p.align.toNat ≤ 16

/-- So are those of an input. -/
def Input.Aligned : Input → Prop
  | .object records => Link.Aligned records
  | .library lib => ∀ m ∈ lib, Link.Aligned m.object
  | .image _ => True

/-- The psects of a file are aligned as in `A`. -/
def Wants (A : ℕ → Prop) (records : List Obj.Record) : Prop :=
  ∀ subs, .gsd subs ∈ records → ∀ p, .psc p ∈ subs → A p.align.toNat

/-- So are those of an input. -/
def Input.Wants (A : ℕ → Prop) : Input → Prop
  | .object records => Link.Wants A records
  | .library lib => ∀ m ∈ lib, Link.Wants A m.object
  | .image _ => True

variable {x : Input}

theorem Input.wants_of_aligned (h : x.Aligned) : x.Wants (· ≤ 16) := by
  cases x <;> exact h

/-- What holds of a psect, whatever modules contribute to it, if they ask for
    alignments as in `A`. -/
structure Growing (A : ℕ → Prop) (Q : Psect → Prop) : Prop where
  new : ∀ name flags align, A align → Q ⟨name, flags, align, [], 0, 0⟩
  raise : ∀ p align, A align → Q p → Q { p with align := max p.align align }
  part : ∀ p part, part.align ≤ p.align → part.offset = 0 → Q p →
    Q { p with parts := p.parts ++ [part] }
  resize : ∀ p size, Q p → Q { p with parts := p.parts.modify 0 fun part => { part with size } }

/-- It holds of the psects collected so far. -/
def Every (Q : Psect → Prop) (l : Linker) : Prop := ∀ p ∈ l.psects, Q p

/-- Psect `i` is there, and takes a part aligned to `align`. -/
def HasRoom (l : Linker) (i align : ℕ) : Prop := ∃ p, l.psects[i]? = some p ∧ align ≤ p.align

/-- The psects collected so far are aligned to at most 64 KB. -/
abbrev Low : Linker → Prop := Every fun p => p.align ≤ 16

theorem growing_low : Growing (· ≤ 16) fun p => p.align ≤ 16 :=
  ⟨fun _ _ _ h => h, fun _ _ ha hp => max_le hp ha, fun _ _ _ _ hp => hp, fun _ _ hp => hp⟩

variable {l l' : Linker} {file : Obj.Name} {A : ℕ → Prop} {Q : Psect → Prop}

variable {records : List Obj.Record}

theorem parse_eq {file : List Obj.Record} (h : Obj.parse file = some records) : records = file := by
  unfold Obj.parse at h
  split_ifs at h
  exact (Option.some.inj h).symm

variable {taken : List Obj.Name} {lib : Obj.Library}

theorem next_mem {m : Obj.Module} (h : l.next lib taken = some m) : m ∈ lib := by
  unfold Linker.next at h
  obtain ⟨_, r, _, -, hfind, -⟩ := findSome?_eq_some_iff.mp h
  obtain ⟨hfind, -⟩ := Option.filter_eq_some_iff.mp hfind
  exact mem_reverse.mp (mem_of_find?_eq_some hfind)

variable {align : ℕ}

namespace Growing

section
variable (hQ : Growing A Q)
include hQ

theorem psect (ha : A align) (hl : Every Q l) (h : l.psect name flags align = .ok (i, l')) :
    Every Q l' ∧ HasRoom l' i align ∧ ∀ j a, HasRoom l j a → HasRoom l' j a := by
  unfold Linker.psect at h
  split_ifs at h
  split at h
  · next k hk =>
    split_ifs at h
    obtain ⟨rfl, rfl⟩ := Prod.mk.inj (Except.ok.inj h)
    obtain ⟨hlt, -⟩ := findIdx?_eq_some_iff_getElem.mp hk
    refine ⟨forall_mem_modify (fun p hp => hQ.raise p align ha hp) hl _,
      ⟨_, by rw [getElem?_modify_eq, getElem?_eq_getElem hlt]; rfl, le_max_right _ _⟩, ?_⟩
    rintro j a ⟨p, hp, hap⟩
    refine ⟨_, by rw [getElem?_modify, hp]; rfl, ?_⟩
    split_ifs
    · exact hap.trans (le_max_left _ _)
    · exact hap
  · obtain ⟨rfl, rfl⟩ := Prod.mk.inj (Except.ok.inj h)
    refine ⟨fun p hp => ?_, ⟨_, getElem?_concat_length, le_rfl⟩, ?_⟩
    · rcases mem_append.mp hp with hp | hp
      · exact hl p hp
      · rw [mem_singleton.mp hp]
        exact hQ.new _ _ _ ha
    · rintro j a ⟨p, hp, hap⟩
      exact ⟨p, (List.getElem?_append_left (List.getElem?_eq_some_iff.mp hp).1).trans hp, hap⟩

theorem addPart (part : Part) (hl : Every Q l) (ht : HasRoom l i part.align) (hpart : part.offset = 0) :
    Every Q (l.addPart i part).2 ∧ ∀ j a, HasRoom l j a → HasRoom (l.addPart i part).2 j a := by
  obtain ⟨p, hp, hap⟩ := ht
  refine ⟨fun q hq => ?_, ?_⟩
  · obtain ⟨j, hj⟩ := mem_iff_getElem?.mp hq
    simp only [Linker.addPart, getElem?_modify, Option.map_eq_map, Option.map_eq_some_iff] at hj
    obtain ⟨r, hr, rfl⟩ := hj
    have hQr := hl r (mem_of_getElem? hr)
    split_ifs with hij
    · subst hij
      obtain rfl := Option.some.inj (hp.symm.trans hr)
      exact hQ.part _ _ hap hpart hQr
    · exact hQr
  · rintro j a ⟨q, hq, haq⟩
    refine ⟨_, by rw [Linker.addPart, getElem?_modify, hq]; rfl, ?_⟩
    split_ifs <;> exact haq

theorem contribute (part : Part) (ha : A part.align) (hpart : part.offset = 0)
    (hl : Every Q l) (h : l.psect name flags part.align = .ok (i, l')) : Every Q (l'.addPart i part).2 :=
  let ⟨hl', ht, _⟩ := hQ.psect ha hl h
  (hQ.addPart part hl' ht hpart).1

theorem addGsd (hl : Every Q l) {m m' : Module} {sub : Obj.Gsd} (hsub : ∀ p, sub = .psc p → A p.align.toNat)
    (h : addGsd file (m, l) sub = .ok (m', l')) : Every Q l' := by
  cases sub with
  | psc p =>
    obtain ⟨⟨i, l₁⟩, hps, h⟩ := bind_eq_ok.mp h
    obtain ⟨-, rfl⟩ := Prod.mk.inj (Except.ok.inj h)
    exact hQ.contribute ⟨_, _, _, 0⟩ (hsub p rfl) rfl hl hps
  | sdef d | sref r =>
    obtain ⟨-, rfl⟩ := Prod.mk.inj (Except.ok.inj h)
    exact hl
  | other gsdtyp data => cases h

theorem addRecord {cl cl' : Option Module × Linker} (hl : Every Q cl.2) {record : Obj.Record}
    (hrec : ∀ subs, record = .gsd subs → ∀ p, .psc p ∈ subs → A p.align.toNat)
    (h : addRecord file cl record = .ok cl') : Every Q cl'.2 := by
  obtain ⟨current, l⟩ := cl
  cases current with
  | none =>
    cases record <;> cases h
    exact hl
  | some m =>
    cases record with
    | gsd subs =>
      obtain ⟨⟨m', l'⟩, hfold, h⟩ := bind_eq_ok.mp h
      cases h
      refine Exec.foldlM_keeps (P := fun ml : Module × Linker => Every Q ml.2)
        (fun sub hsub ml ml' hml hok => ?_) hl hfold
      exact hQ.addGsd hml (fun p hp => hrec subs rfl p (hp ▸ hsub)) hok
    | eom e transfer =>
      simp only [Linker.addRecord] at h
      split_ifs at h
      cases h
      exact hl
    | mhd h' => cases h
    | tir cmds =>
      cases h
      exact hl
    | dbg data =>
      cases h
      exact hl
    | tbt data =>
      cases h
      exact hl
    | text a b =>
      cases h
      exact hl

theorem add (hl : Every Q l) (hrec : Wants A records) (h : l.add file records = .ok l') : Every Q l' := by
  unfold Linker.add at h
  obtain ⟨⟨current, l₁⟩, hfold, h⟩ := bind_eq_ok.mp h
  have hl₁ : Every Q l₁ := Exec.foldlM_keeps (P := fun cl : Option Module × Linker => Every Q cl.2)
    (fun record hr cl cl' hcl hok => hQ.addRecord hcl
      (fun subs hs => hrec subs (hs ▸ hr)) hok) hl hfold
  cases current with
  | some m => cases h
  | none =>
    cases h
    exact hl₁

theorem search (hlib : ∀ m ∈ lib, Wants A m.object) {fuel : ℕ} (hl : Every Q l)
    (h : search file lib fuel taken l = .ok l') : Every Q l' := by
  induction fuel generalizing taken l with
  | zero =>
    cases h
    exact hl
  | succ fuel ih =>
    unfold Linker.search at h
    split at h
    · cases h
      exact hl
    · next m hm =>
      split at h
      · cases h
      · next records hparse =>
        obtain ⟨l₁, hadd, h⟩ := bind_eq_ok.mp h
        rw [parse_eq hparse] at hadd
        exact ih (hQ.add hl (hlib m (next_mem hm)) hadd) h

theorem input (hl : Every Q l) (hx : x.Wants A) (h : l.input file x = .ok l') : Every Q l' := by
  cases x with
  | image img =>
    unfold Linker.input Linker.shareable at h
    simp only at h
    split at h
    · cases h
    · cases h
      exact hl
  | library lib => exact hQ.search hx hl h
  | object records =>
    unfold Linker.input at h
    simp only at h
    split at h
    · cases h
    · next records' hparse =>
      rw [parse_eq hparse] at h
      exact hQ.add hl hx h

end

end Growing

/-- What a change to the symbols alone keeps. -/
structure SamePsects (l l' : Linker) : Prop where
  psects : l'.psects = l.psects
  relocatable : l'.relocatable = l.relocatable

theorem SamePsects.resolveDef {le : Linker × List Msg} (h : SamePsects l le.1) (r : RawDef) :
    SamePsects l (resolveDef le r).1 := by
  obtain ⟨l₁, errors⟩ := le
  unfold Linker.resolveDef
  simp only
  split
  · exact h
  · split
    · exact ⟨h.psects, h.relocatable⟩
    · split_ifs <;> first | exact h | exact ⟨h.psects, h.relocatable⟩

theorem SamePsects.resolveRef (h : SamePsects l l') (r : Ref) :
    SamePsects l (l'.resolveRef r) := by
  unfold Linker.resolveRef
  split_ifs
  · exact h
  · simp only
    split
    · exact ⟨h.psects, h.relocatable⟩
    · exact ⟨h.psects, h.relocatable⟩
    · exact h

theorem resolve_same (h : l.resolve = .ok l') : SamePsects l l' := by
  unfold Linker.resolve at h
  have hdefs : ∀ (rs : List RawDef) (le : Linker × List Msg), SamePsects l le.1 →
      SamePsects l (rs.foldl Linker.resolveDef le).1 := by
    intro rs
    induction rs with
    | nil => exact fun _ h => h
    | cons r rs ih => exact fun le h => ih _ (h.resolveDef r)
  have hrefs : ∀ (rs : List Ref) (l₁ : Linker), SamePsects l l₁ →
      SamePsects l (rs.foldl Linker.resolveRef l₁) := by
    intro rs
    induction rs with
    | nil => exact fun _ h => h
    | cons r rs ih => exact fun l₁ h => ih _ (h.resolveRef r)
  simp only at h
  split_ifs at h
  cases h
  exact hrefs _ _ (hdefs _ _ ⟨rfl, rfl⟩)

theorem psect_relocatable (h : l.psect name flags align = .ok (i, l')) : l'.relocatable = l.relocatable := by
  unfold Linker.psect at h
  split_ifs at h
  split at h
  · split_ifs at h
    obtain ⟨-, rfl⟩ := Prod.mk.inj (Except.ok.inj h)
    rfl
  · obtain ⟨-, rfl⟩ := Prod.mk.inj (Except.ok.inj h)
    rfl

theorem defines_relocatable (imports : List (Import × ℕ)) (d : ℕ → Def) (l : Linker) :
    (defines imports d l).relocatable = l.relocatable := by
  induction imports generalizing l with
  | nil => rfl
  | cons x xs ih => exact ih _

theorem addVeneers_relocatable (h : l.addVeneers = .ok l') : l'.relocatable = l.relocatable := by
  rcases addVeneers_ok h with ⟨p, -, rfl⟩ |
    ⟨-, p, l₂, link, l₃, hps, hlink, part, l₄, linkPart, l₅, hpart, hlpart, rfl⟩
  · rfl
  · have h₂ := psect_relocatable hps
    have h₃ := psect_relocatable hlink
    obtain ⟨-, rfl⟩ := Prod.mk.inj hpart
    obtain ⟨-, rfl⟩ := Prod.mk.inj hlpart
    simp only [defines_relocatable]
    exact h₃.trans h₂

theorem Kin.refl (A B : ℕ) (l : Linker) : Kin A B l l :=
  ⟨⟨rfl, rfl, rfl, rfl, rfl, rfl, rfl, rfl, rfl, rfl⟩,
    forall₂_same.mpr fun _ _ => ⟨rfl, fun _ => rfl, fun _ hpl => by simp [Placed] at hpl⟩⟩

namespace Growing

theorem addVeneers (hQ : Growing A Q) (h3 : A 3) (hl : Every Q l) (h : l.addVeneers = .ok l') :
    Every Q l' := by
  rcases addVeneers_ok h with ⟨p, -, rfl⟩ |
    ⟨-, p, l₂, link, l₃, hps, hlink, part, l₄, linkPart, l₅, hpart, hlpart, rfl⟩
  · exact forall_mem_modify (fun p hp => hQ.resize p _ hp) hl p
  · obtain ⟨hl₂, ht, -⟩ := hQ.psect (l := { l with veneered := l.far.length }) h3 hl hps
    obtain ⟨hl₃, htlink, hkeep⟩ := hQ.psect h3 hl₂ hlink
    obtain ⟨hl₄, hkeep'⟩ := hQ.addPart
      ⟨l₃.modules.length, VENEER * (l.imports.length + l.far.length), 3, 0⟩ hl₃ (hkeep _ _ ht) rfl
    rw [hpart] at hl₄ hkeep'
    have hl₅ := (hQ.addPart ⟨l₃.modules.length, 8 * l.imports.length, 3, 0⟩ hl₄
      (hkeep' _ _ htlink) rfl).1
    rw [hlpart] at hl₅
    unfold Every
    simp only [defines_psects]
    exact hl₅

theorem addVector (hQ : Growing A Q) (h3 : A 3) (hl : Every Q l) {names : List (Obj.Name × Bool)}
    (h : l.addVector names = .ok l') : Every Q l' ∧ l'.relocatable = l.relocatable := by
  unfold Linker.addVector at h
  simp only at h
  split_ifs at h
  split at h
  · cases h
  · next p l₁ hps =>
    cases h
    refine ⟨hQ.contribute ⟨_, _, 3, 0⟩ h3 rfl hl hps, ?_⟩
    exact (psect_relocatable hps : l₁.relocatable = l.relocatable)

/-- **What is collected.** -/
theorem collect (hQ : Growing A Q) (h3 : A 3) {inputs : List (Obj.Name × Input)} {opts : Options}
    (hA : ∀ x ∈ inputs, x.2.Wants A) (h : collect inputs opts = .ok l) :
    Every Q l ∧ l.relocatable = (opts.relocatable || opts.shareable.isSome) := by
  obtain ⟨l₁, l₂, l₃, hin, hres, hven, hvec⟩ := collect_ok h
  have hl₁ : Every Q l₁ := Exec.foldlM_keeps (P := Every Q)
    (fun x hx l l' hl hok => hQ.input hl (hA x hx) (one_eq_ok.mp hok)) (by simp [Every, Linker.new])
    hin
  obtain ⟨hps, hrel⟩ := resolve_same hres
  have hl₂ : Every Q l₂ := by
    unfold Every
    rw [hps]
    exact hl₁
  have hl₃ : Every Q l₃ ∧ l₃.relocatable = l₂.relocatable := by
    rcases hven with rfl | hven
    · exact ⟨hl₂, rfl⟩
    · exact ⟨hQ.addVeneers h3 hl₂ hven, addVeneers_relocatable hven⟩
  rcases hvec with rfl | ⟨names, -, hvec⟩
  · exact ⟨hl₃.1, hl₃.2.trans hrel⟩
  · obtain ⟨hl, hrel'⟩ := hQ.addVector h3 hl₃.1 hvec
    exact ⟨hl, hrel'.trans (hl₃.2.trans hrel)⟩

end Growing

end Link
