/-
  One set of modules laid out at two bases: every address the layout gives moves by
  the distance between the bases.
-/
import Vaxpunk.Link.Proof.Whole
import Vaxpunk.Link.Proof.Stored
import Vaxpunk.Obj.Proof.Reloc

namespace Link

open Exec (bind_eq_ok)
open Obj (has)
open Linker List Option Option

variable {sections : List ImageSection} {p q : Psect} {cls : Class} {ps qs : List Psect} {e : ℕ}
    {l l' : Linker} {α β : Type}

/-! ## Addresses -/

/-- `b` is the address `a` in an image at base `B` instead of `A`. -/
def Shifted (A B a b : ℕ) : Prop := a + B = b + A

/-- The distance an image moves. -/
def disp (A B : ℕ) : BitVec 64 := BitVec.ofNat 64 B - BitVec.ofNat 64 A

section
variable {A B a b : ℕ}

theorem Shifted.ofNat (h : Shifted A B a b) : BitVec.ofNat 64 b = BitVec.ofNat 64 a + disp A B := by
  have hsum : BitVec.ofNat 64 a + BitVec.ofNat 64 B = BitVec.ofNat 64 b + BitVec.ofNat 64 A := by
    rw [← BitVec.ofNat_add, ← BitVec.ofNat_add, h]
  unfold disp
  rw [eq_sub_of_add_eq hsum.symm]
  ring

theorem Shifted.add (h : Shifted A B a b) (n : ℕ) : Shifted A B (a + n) (b + n) := by
  unfold Shifted at *
  omega

theorem disp_dvd (hA : 2 ^ 16 ∣ A) (hB : 2 ^ 16 ∣ B) : 2 ^ 16 ∣ (disp A B).toNat := by
  obtain ⟨α, rfl⟩ := hA
  obtain ⟨β, rfl⟩ := hB
  unfold disp
  rw [BitVec.toNat_sub, BitVec.toNat_ofNat, BitVec.toNat_ofNat]
  omega

theorem Shifted.nextMultiple {align a' b' : ℕ} (hA : 2 ^ 16 ∣ A) (hB : 2 ^ 16 ∣ B)
    (halign : align ≤ 16) (h : Shifted A B a b) (ha : nextMultiple a align = some a')
    (hb : nextMultiple b align = some b') : Shifted A B a' b' := by
  obtain ⟨-, rfl, -⟩ := nextMultiple_eq_some.mp ha
  obtain ⟨-, rfl, -⟩ := nextMultiple_eq_some.mp hb
  have hpow : 2 ^ align ∣ 2 ^ 16 := Nat.pow_dvd_pow 2 halign
  obtain ⟨α, rfl⟩ := hpow.trans hA
  obtain ⟨β, rfl⟩ := hpow.trans hB
  have hpos : 0 < 2 ^ align := Nat.two_pow_pos align
  generalize 2 ^ align = m at *
  unfold Shifted at *
  have hdiv : (a + m - 1) / m + β = (b + m - 1) / m + α := by
    rw [← Nat.add_mul_div_left _ _ hpos, ← Nat.add_mul_div_left _ _ hpos]
    congr 1
    omega
  calc (a + m - 1) / m * m + m * β = ((a + m - 1) / m + β) * m := by ring
    _ = ((b + m - 1) / m + α) * m := by rw [hdiv]
    _ = (b + m - 1) / m * m + m * α := by ring

end

/-! ## Layouts -/

variable {A B : ℕ}

/-- The class of a psect has an image section. -/
def Placed (sections : List ImageSection) (p : Psect) : Prop :=
  ∃ s ∈ sections, s.cls = Class.of p.flags

instance (sections : List ImageSection) (p : Psect) : Decidable (Placed sections p) :=
  inferInstanceAs (Decidable (∃ s ∈ sections, s.cls = Class.of p.flags))

/-- A psect in both layouts: the same, but for the base, which has moved if the psect
    has a place in the image. -/
structure PsectMoved (A B : ℕ) (sections : List ImageSection) (p q : Psect) : Prop where
  same : q = { p with base := q.base }
  abs : has p.flags Obj.psc.REL = false → q.base = p.base
  rel : has p.flags Obj.psc.REL = true → Placed sections p → Shifted A B p.base q.base

/-- An image section in both layouts. -/
structure SectionMoved (A B : ℕ) (s t : ImageSection) : Prop where
  cls : t.cls = s.cls
  start : Shifted A B s.start t.start
  stop : Shifted A B s.stop t.stop

section
variable (h : PsectMoved A B sections p q)
include h

theorem PsectMoved.size : q.size = p.size := by rw [h.same]

theorem PsectMoved.align : q.align = p.align := by rw [h.same]

theorem PsectMoved.flags : q.flags = p.flags := by rw [h.same]

theorem PsectMoved.isMember : isMember cls q = isMember cls p := by
  unfold Linker.isMember
  rw [h.flags]

end

theorem placePsects_moved (start stop : ℕ) (hA : 2 ^ 16 ∣ A) (hB : 2 ^ 16 ∣ B)
    {ps' qs' : List Psect} {pos pos' e' : ℕ} (halign : ∀ p ∈ ps, p.align ≤ 16)
    (hps : List.Forall₂ (PsectMoved A B sections) ps qs) (hpos : Shifted A B pos pos')
    (hp : placePsects cls ps pos = some (ps', e)) (hq : placePsects cls qs pos' = some (qs', e')) :
    Shifted A B e e' ∧
      List.Forall₂ (PsectMoved A B (sections ++ [⟨cls, start, stop⟩])) ps' qs' := by
  induction hps generalizing pos pos' ps' qs' e e' with
  | nil =>
    simp only [placePsects, some.injEq, Prod.mk.injEq] at hp hq
    obtain ⟨rfl, rfl⟩ := hp
    obtain ⟨rfl, rfl⟩ := hq
    exact ⟨hpos, .nil⟩
  | @cons p q ps qs hpq _ ih =>
    have halign' : ∀ p ∈ ps, p.align ≤ 16 := fun p hp => halign p (mem_cons_of_mem _ hp)
    unfold placePsects at hp hq
    rw [hpq.isMember] at hq
    split_ifs at hp hq with hm
    · simp only [Option.bind_eq_bind, Option.bind_eq_some_iff, some.injEq,
        Prod.mk.injEq, Prod.exists] at hp hq
      obtain ⟨base, hbase, pos₁, hpos₁, ps₁, e₁, hrest, rfl, rfl⟩ := hp
      obtain ⟨base', hbase', pos₁', hpos₁', qs₁, e₁', hrest', rfl, rfl⟩ := hq
      rw [hpq.align] at hbase'
      have hb : Shifted A B base base' :=
        hpos.nextMultiple hA hB (halign p mem_cons_self) hbase hbase'
      obtain ⟨rfl, -⟩ := u64?_eq_some.mp hpos₁
      obtain ⟨rfl, -⟩ := u64?_eq_some.mp hpos₁'
      rw [hpq.size] at hrest'
      obtain ⟨he, hall⟩ := ih halign' (hb.add p.size) hrest hrest'
      refine ⟨he, .cons ⟨?_, fun hr => ?_, fun _ _ => hb⟩ hall⟩
      · rw [hpq.same]
      · rw [Linker.isMember, Bool.and_eq_true] at hm
        exact absurd (hm.1.symm.trans hr) (by simp)
    · simp only [Option.bind_eq_bind, Option.bind_eq_some_iff, some.injEq,
        Prod.mk.injEq, Prod.exists] at hp hq
      obtain ⟨ps₁, e₁, hrest, rfl, rfl⟩ := hp
      obtain ⟨qs₁, e₁', hrest', rfl, rfl⟩ := hq
      obtain ⟨he, hall⟩ := ih halign' hpos hrest hrest'
      refine ⟨he, .cons ⟨hpq.same, hpq.abs, fun hr hpl => hpq.rel hr ?_⟩ hall⟩
      obtain ⟨s, hs, hcls⟩ := hpl
      rcases mem_append.mp hs with hs | hs
      · exact ⟨s, hs, hcls⟩
      · rw [mem_singleton] at hs
        subst hs
        refine absurd ?_ hm
        rw [Linker.isMember, hr, Bool.true_and]
        exact decide_eq_true hcls.symm

/-- What two links of the same modules have in common, wherever the image is. -/
structure Alike (l l' : Linker) : Prop where
  modules : l'.modules = l.modules
  defs : l'.defs = l.defs
  far : l'.far = l.far
  veneers : l'.veneers = l.veneers
  veneered : l'.veneered = l.veneered
  shared : l'.shared = l.shared
  imports : l'.imports = l.imports
  dataImports : l'.dataImports = l.dataImports
  vector : l'.vector = l.vector
  relocatable : l'.relocatable = l.relocatable

/-- The same modules, laid out from `A` and from `B`. -/
structure Moved (A B : ℕ) (l l' : Linker) : Prop where
  alike : Alike l l'
  psects : List.Forall₂ (PsectMoved A B l.sections) l.psects l'.psects
  sections : List.Forall₂ (SectionMoved A B) l.sections l'.sections

theorem all_empty_moved (cls : Class) (h : List.Forall₂ (PsectMoved A B sections) ps qs) :
    (qs.filter (isMember cls)).all (·.size = 0) = (ps.filter (isMember cls)).all (·.size = 0) := by
  induction h with
  | nil => rfl
  | cons hpq _ ih =>
    rw [filter_cons, filter_cons, hpq.isMember]
    split_ifs
    · rw [all_cons, all_cons, ih, hpq.size]
    · exact ih

theorem placePsects_align {ps' : List Psect} {pos : ℕ} (h : placePsects cls ps pos = some (ps', e))
    (hal : ∀ p ∈ ps, p.align ≤ 16) :
    ∀ p ∈ ps', p.align ≤ 16 := by
  obtain ⟨-, -, hset⟩ := placePsects_ok h
  clear h
  induction hset with
  | nil => exact hal
  | cons hpq _ ih =>
    obtain ⟨hp, hps⟩ := forall_mem_cons.mp hal
    refine forall_mem_cons.mpr ⟨?_, ih hps⟩
    rw [hpq.same]
    exact hp

theorem Moved.layoutClass (hA : 2 ^ 16 ∣ A) (hB : 2 ^ 16 ∣ B) {l₁ l₁' : Linker} {at_ at' e' : ℕ}
    (hl : Moved A B l l') (hal : ∀ p ∈ l.psects, p.align ≤ 16) (hat : Shifted A B at_ at')
    (h : layoutClass (l, at_) cls = .ok (l₁, e)) (h' : layoutClass (l', at') cls = .ok (l₁', e')) :
    Moved A B l₁ l₁' ∧ (∀ p ∈ l₁.psects, p.align ≤ 16) ∧ Shifted A B e e' := by
  have hall := all_empty_moved cls hl.psects
  rcases layoutClass_ok h with ⟨h0, rfl, rfl⟩ | ⟨start, ps, h0, hstart, hplace, -, rfl⟩ <;>
    rcases layoutClass_ok h' with ⟨h0', rfl, rfl⟩ | ⟨start', ps', h0', hstart', hplace', -, rfl⟩
  · exact ⟨hl, hal, hat⟩
  · exact absurd (hall.trans h0) h0'
  · exact absurd (hall.symm.trans h0') h0
  · have hs : Shifted A B start start' := hat.nextMultiple hA hB le_rfl hstart hstart'
    obtain ⟨he, hps⟩ := placePsects_moved start e hA hB hal hl.psects hs
      hplace hplace'
    exact ⟨⟨{ hl.alike with }, hps, rel_append hl.sections (.cons ⟨rfl, hs, he⟩ .nil)⟩,
      placePsects_align hplace hal, he⟩

theorem layoutClasses_moved (hA : 2 ^ 16 ∣ A) (hB : 2 ^ 16 ∣ B) {classes : List Class} {at_ at' : ℕ}
    {r r' : Linker × ℕ} (hl : Moved A B l l') (hal : ∀ p ∈ l.psects, p.align ≤ 16)
    (hat : Shifted A B at_ at') (h : classes.foldlM Linker.layoutClass (l, at_) = .ok r)
    (h' : classes.foldlM Linker.layoutClass (l', at') = .ok r') :
    Moved A B r.1 r'.1 ∧ ∀ p ∈ r.1.psects, p.align ≤ 16 := by
  induction classes generalizing l l' at_ at' with
  | nil =>
    cases h
    cases h'
    exact ⟨hl, hal⟩
  | cons cls classes ih =>
    rw [foldlM_cons] at h h'
    obtain ⟨⟨l₁, e⟩, h₁, h⟩ := bind_eq_ok.mp h
    obtain ⟨⟨l₁', e'⟩, h₁', h'⟩ := bind_eq_ok.mp h'
    obtain ⟨hl₁, hal₁, he⟩ := hl.layoutClass hA hB hal hat h₁ h₁'
    exact ih hl₁ hal₁ he h h'

variable {xs : List α} {f : α → Option β}

theorem mapM_forall₂ {R : α → α → Prop} {S : β → β → Prop}
    (hf : ∀ x y x' y', R x y → f x = some x' → f y = some y' → S x' y') {ys : List α}
    {xs' ys' : List β} (h : List.Forall₂ R xs ys) (hx : xs.mapM f = some xs')
    (hy : ys.mapM f = some ys') : List.Forall₂ S xs' ys' := by
  induction h generalizing xs' ys' with
  | nil =>
    rw [mapM_nil] at hx hy
    cases hx
    cases hy
    exact .nil
  | cons hxy _ ih =>
    simp only [mapM_cons, Option.bind_eq_bind, Option.bind_eq_some_iff, Option.pure_def,
      some.injEq] at hx hy
    obtain ⟨x', hfx, xs₁, hxs, rfl⟩ := hx
    obtain ⟨y', hfy, ys₁, hys, rfl⟩ := hy
    exact .cons (hf _ _ _ _ hxy hfx hfy) (ih hxs hys)

variable {P : α → Prop}

theorem forall₂_mapM {ys : List β} (h : xs.mapM f = some ys) : List.Forall₂ (fun x y => f x = some y) xs ys := by
  induction xs generalizing ys with
  | nil =>
    rw [mapM_nil] at h
    cases h
    exact .nil
  | cons x xs ih =>
    simp only [mapM_cons, Option.bind_eq_bind, Option.bind_eq_some_iff, Option.pure_def,
      some.injEq] at h
    obtain ⟨y, hy, ys₁, hys, rfl⟩ := h
    exact .cons hy (ih hys)

theorem forall₂_mem {R : α → β → Prop} {ys : List β} (h : List.Forall₂ R xs ys) {y : β} (hy : y ∈ ys) :
    ∃ x ∈ xs, R x y := by
  induction h with
  | nil => cases hy
  | cons hxy _ ih =>
    obtain rfl | hy := mem_cons.mp hy
    · exact ⟨_, mem_cons_self, hxy⟩
    · obtain ⟨x, hx, hr⟩ := ih hy
      exact ⟨x, mem_cons_of_mem _ hx, hr⟩

theorem mapM_forall_mem {Q : β → Prop} (hf : ∀ x x', P x → f x = some x' → Q x') {xs' : List β} (h : ∀ x ∈ xs, P x)
    (hx : xs.mapM f = some xs') : ∀ x ∈ xs', Q x := fun y hy =>
  have ⟨x, hmem, hxy⟩ := forall₂_mem (forall₂_mapM hx) hy
  hf x y (h x hmem) hxy

theorem layoutPsect_moved {p' q' : Psect} (h : PsectMoved A B sections p q)
    (hp : layoutPsect p = some p') (hq : layoutPsect q = some q') : PsectMoved A B [] p' q' := by
  unfold layoutPsect at hp hq
  rw [h.same] at hq
  simp only [Option.bind_eq_bind, Option.bind_eq_some_iff, some.injEq, Prod.exists] at hp hq
  obtain ⟨parts, size, hparts, rfl⟩ := hp
  obtain ⟨parts', size', hparts', rfl⟩ := hq
  obtain ⟨rfl, rfl⟩ := Prod.mk.inj (some.inj (hparts.symm.trans hparts'))
  exact ⟨rfl, h.abs, fun _ hpl => absurd hpl (by simp [Placed])⟩

/-- The same modules, each psect's base apart. -/
structure Kin (A B : ℕ) (l l' : Linker) : Prop where
  alike : Alike l l'
  psects : List.Forall₂ (PsectMoved A B []) l.psects l'.psects

theorem Moved.kin (hl : Moved A B l l') : Kin A B l l' :=
  ⟨hl.alike, hl.psects.imp fun _ _ h => ⟨h.same, h.abs, fun _ hpl => by simp [Placed] at hpl⟩⟩

/-- **Two layouts** of the same modules. -/
theorem Kin.layout (hA : 2 ^ 16 ∣ A) (hB : 2 ^ 16 ∣ B) {l₁ l₁' : Linker} (hl : Kin A B l l')
    (hal : ∀ p ∈ l.psects, p.align ≤ 16) (h : l.layout A = .ok l₁) (h' : l'.layout B = .ok l₁') :
    Moved A B l₁ l₁' ∧ ∀ p ∈ l₁.psects, p.align ≤ 16 := by
  unfold Linker.layout at h h'
  split at h
  · cases h
  · next ps hps =>
    split at h'
    · cases h'
    · next ps' hps' =>
      obtain ⟨r, hr, h⟩ := bind_eq_ok.mp h
      obtain ⟨r', hr', h'⟩ := bind_eq_ok.mp h'
      cases h
      cases h'
      have hpsects := mapM_forall₂ (f := layoutPsect)
        (fun _ _ _ _ hpq hp hq => layoutPsect_moved hpq hp hq) hl.psects hps hps'
      have hal' : ∀ p ∈ ps, p.align ≤ 16 := by
        refine mapM_forall_mem (fun p p' hp hp' => ?_) hal hps
        unfold layoutPsect at hp'
        simp only [Option.bind_eq_bind, Option.bind_eq_some_iff, some.injEq,
          Prod.exists] at hp'
        obtain ⟨parts, size, -, rfl⟩ := hp'
        exact hp
      have hblank : Moved A B { l with psects := ps, sections := [] }
          { l' with psects := ps', sections := [] } := ⟨{ hl.alike with }, hpsects, .nil⟩
      exact layoutClasses_moved hA hB hblank hal' (Nat.add_comm A B) hr hr'

/-! ## The linker's own psects -/

variable {R : α → β → Prop} {ys : List β}

theorem forall₂_getElem? (h : List.Forall₂ R xs ys)
    {i : ℕ} {x : α} {y : β} (hx : xs[i]? = some x) (hy : ys[i]? = some y) : R x y := by
  obtain ⟨hi, rfl⟩ := List.getElem?_eq_some_iff.mp hx
  obtain ⟨hi', rfl⟩ := List.getElem?_eq_some_iff.mp hy
  exact List.Forall₂.get h hi hi'

theorem forall₂_modify {f : α → α} {g : β → β} (hf : ∀ x y, R x y → R (f x) (g y)) (h : List.Forall₂ R xs ys)
    (i : ℕ) : List.Forall₂ R (xs.modify i f) (ys.modify i g) := by
  induction h generalizing i with
  | nil => cases i <;> exact .nil
  | @cons x y xs ys hxy hrest ih =>
    cases i with
    | zero =>
      rw [modify_zero_cons, modify_zero_cons]
      exact .cons (hf _ _ hxy) hrest
    | succ i =>
      rw [modify_succ_cons, modify_succ_cons]
      exact .cons hxy (ih i)

theorem forall_mem_modify {f : α → α} (hf : ∀ x, P x → P (f x))
    (h : ∀ x ∈ xs, P x) (i : ℕ) : ∀ x ∈ xs.modify i f, P x := by
  induction xs generalizing i with
  | nil =>
    cases i <;> simp
  | cons x xs ih =>
    obtain ⟨hx, hxs⟩ := forall_mem_cons.mp h
    cases i with
    | zero =>
      rw [modify_zero_cons]
      exact forall_mem_cons.mpr ⟨hf x hx, hxs⟩
    | succ i =>
      rw [modify_succ_cons]
      exact forall_mem_cons.mpr ⟨hx, ih hxs i⟩

variable {name : Obj.Name}

section
variable {l l' l₁ l₁' : Linker} {p p' i i' : ℕ}

theorem findIdx?_name (name : Obj.Name) (h : List.Forall₂ (PsectMoved A B sections) ps qs) :
    qs.findIdx? (·.name = name) = ps.findIdx? (·.name = name) := by
  induction h with
  | nil => rfl
  | cons hpq _ ih =>
    rw [findIdx?_cons, findIdx?_cons, ih, hpq.same]

theorem Kin.map_get {γ : Type} {f : Psect → γ} (hf : ∀ p b, f { p with base := b } = f p)
    (hl : Kin A B l l') (i : ℕ) : (l'.psects[i]?).map f = (l.psects[i]?).map f := by
  have hlen := hl.psects.length_eq
  by_cases hi : i < l.psects.length
  · have hi' : i < l'.psects.length := by omega
    have hpq := forall₂_getElem? hl.psects (getElem?_eq_getElem hi)
      (getElem?_eq_getElem hi')
    rw [getElem?_eq_getElem hi, getElem?_eq_getElem hi', map_some,
      map_some, hpq.same, hf]
  · rw [getElem?_eq_none (by omega), getElem?_eq_none (by omega)]

theorem Kin.psect (hl : Kin A B l l') {flags : BitVec 16} {align : ℕ}
    (h : l.psect name flags align = .ok (i, l₁)) (h' : l'.psect name flags align = .ok (i', l₁')) :
    i' = i ∧ Kin A B l₁ l₁' := by
  unfold Linker.psect at h h'
  rw [findIdx?_name name hl.psects] at h'
  split_ifs at h h' with hexe
  cases hfind : l.psects.findIdx? (·.name = name) with
  | some j =>
    rw [hfind] at h h'
    simp only [hl.map_get (f := (·.flags)) fun _ _ => rfl] at h h'
    split_ifs at h h' with hflags
    obtain ⟨rfl, rfl⟩ := Prod.mk.inj (Except.ok.inj h)
    obtain ⟨rfl, rfl⟩ := Prod.mk.inj (Except.ok.inj h')
    refine ⟨rfl, { hl.alike with }, forall₂_modify (fun p q hpq => ?_) hl.psects _⟩
    exact ⟨by rw [hpq.same], hpq.abs, fun _ hpl => by simp [Placed] at hpl⟩
  | none =>
    rw [hfind] at h h'
    obtain ⟨rfl, rfl⟩ := Prod.mk.inj (Except.ok.inj h)
    obtain ⟨rfl, rfl⟩ := Prod.mk.inj (Except.ok.inj h')
    refine ⟨hl.psects.length_eq.symm, { hl.alike with }, rel_append hl.psects (.cons ?_ .nil)⟩
    exact ⟨rfl, fun _ => rfl, fun _ hpl => by simp [Placed] at hpl⟩

theorem Kin.addPart (hl : Kin A B l l') (p : ℕ) (part : Part) :
    (l'.addPart p part).1 = (l.addPart p part).1 ∧
      Kin A B (l.addPart p part).2 (l'.addPart p part).2 := by
  unfold Linker.addPart
  rw [hl.map_get (f := (·.parts.length)) fun _ _ => rfl]
  refine ⟨rfl, { hl.alike with }, forall₂_modify (fun p q hpq => ?_) hl.psects _⟩
  exact ⟨by rw [hpq.same], hpq.abs, fun _ hpl => by simp [Placed] at hpl⟩

theorem mapError_eq_ok {ε ε' : Type} {f : ε → ε'} {x : Except ε α} {a : α} :
    x.mapError f = .ok a ↔ x = .ok a := by
  cases x <;> simp [Except.mapError]

/-- The procedures' names, defined as the veneers. -/
def defines (imports : List (Import × ℕ)) (d : ℕ → Def) (l : Linker) : Linker :=
  imports.foldl (fun l x => l.define x.1.name (d x.2)) l

theorem addVeneers_ok (h : l.addVeneers = .ok l₁) :
    (∃ p, l.veneers = some p ∧ l₁ = { l with
      veneered := l.far.length
      psects := l.psects.modify p fun q => { q with
        parts := q.parts.modify 0 fun part =>
          { part with size := VENEER * (l.imports.length + l.far.length) } } }) ∨
    l.veneers = none ∧ ∃ p l₂ link l₃,
      { l with veneered := l.far.length }.psect nameVENEER
        (Obj.psc.PIC ||| Obj.psc.REL ||| Obj.psc.SHR ||| Obj.psc.EXE ||| Obj.psc.RD) 3 =
          .ok (p, l₂) ∧
      l₂.psect nameLINK (Obj.psc.REL ||| Obj.psc.RD) 3 = .ok (link, l₃) ∧
      ∃ part l₄ linkPart l₅,
        l₃.addPart p ⟨l₃.modules.length, VENEER * (l.imports.length + l.far.length), 3, 0⟩ =
          (part, l₄) ∧
        l₄.addPart link ⟨l₃.modules.length, 8 * l.imports.length, 3, 0⟩ = (linkPart, l₅) ∧
        l₁ = { defines l₅.imports.zipIdx
            (fun i => ⟨l₃.modules.length, some 0, BitVec.ofNat 64 (VENEER * i), false⟩)
            { l₅ with modules :=
              l₅.modules ++ [⟨nameVENEERS, [], [], [(p, part), (link, linkPart)], [], none⟩] }
          with veneers := some p } := by
  unfold Linker.addVeneers at h
  simp only at h
  split at h
  · next p hp =>
    exact .inl ⟨p, hp, (Except.ok.inj h).symm⟩
  · next hnone =>
    obtain ⟨⟨p, l₂⟩, hp, h⟩ := bind_eq_ok.mp h
    obtain ⟨⟨link, l₃⟩, hlink, h⟩ := bind_eq_ok.mp h
    exact .inr ⟨hnone, p, l₂, link, l₃, mapError_eq_ok.mp hp, mapError_eq_ok.mp hlink,
      _, _, _, _, rfl, rfl, (Except.ok.inj h).symm⟩

theorem Kin.defines (hl : Kin A B l l') {imports imports' : List (Import × ℕ)}
    (d d' : ℕ → Def) (himports : imports' = imports) (hd : d' = d) :
    Kin A B (Link.defines imports d l) (Link.defines imports' d' l') := by
  subst himports hd
  induction imports' generalizing l l' with
  | nil => exact hl
  | cons x xs ih =>
    refine ih ⟨{ hl.alike with defs := ?_ }, hl.psects⟩
    simp only [Linker.define]
    rw [hl.alike.defs]

theorem defines_psects (imports : List (Import × ℕ)) (d : ℕ → Def) (l : Linker) :
    (defines imports d l).psects = l.psects := by
  induction imports generalizing l with
  | nil => rfl
  | cons x xs ih => exact ih _

/-- **The veneers' psects**, in both. -/
theorem Kin.addVeneers (hl : Kin A B l l') (h : l.addVeneers = .ok l₁)
    (h' : l'.addVeneers = .ok l₁') : Kin A B l₁ l₁' := by
  rcases addVeneers_ok h with ⟨p, hp, rfl⟩ |
      ⟨hp, p, l₂, link, l₃, hps, hlink, part, l₄, linkPart, l₅, hpart, hlpart, rfl⟩ <;>
    rcases addVeneers_ok h' with ⟨p', hp', rfl⟩ |
      ⟨hp', p', l₂', link', l₃', hps', hlink', part', l₄', linkPart', l₅', hpart', hlpart', rfl⟩
  · rw [hl.alike.veneers, hp] at hp'
    cases hp'
    refine ⟨{ hl.alike with veneered := ?_ }, forall₂_modify (fun p q hpq => ?_) hl.psects _⟩
    · simp only [hl.alike.far]
    · refine ⟨?_, hpq.abs, fun _ hpl => by simp [Placed] at hpl⟩
      rw [hpq.same, hl.alike.far, hl.alike.imports]
  · rw [hl.alike.veneers, hp] at hp'
    cases hp'
  · rw [hl.alike.veneers, hp] at hp'
    cases hp'
  · have hl₁ : Kin A B { l with veneered := l.far.length } { l' with veneered := l'.far.length } :=
      ⟨{ hl.alike with veneered := by simp only [hl.alike.far] }, hl.psects⟩
    obtain ⟨rfl, hl₂⟩ := hl₁.psect hps hps'
    obtain ⟨rfl, hl₃⟩ := hl₂.psect hlink hlink'
    rw [hl.alike.far, hl.alike.imports, hl₃.alike.modules] at hpart'
    rw [hl.alike.imports, hl₃.alike.modules] at hlpart'
    have hkin₄ := hl₃.addPart p'
      ⟨l₃.modules.length, VENEER * (l.imports.length + l.far.length), 3, 0⟩
    rw [hpart, hpart'] at hkin₄
    obtain ⟨rfl, hl₄⟩ := hkin₄
    have hkin₅ := hl₄.addPart link' ⟨l₃.modules.length, 8 * l.imports.length, 3, 0⟩
    rw [hlpart, hlpart'] at hkin₅
    obtain ⟨rfl, hl₅⟩ := hkin₅
    have hmods (m : Module) : Kin A B { l₅ with modules := l₅.modules ++ [m] }
        { l₅' with modules := l₅'.modules ++ [m] } :=
      ⟨{ hl₅.alike with modules := congrArg (· ++ [m]) hl₅.alike.modules }, hl₅.psects⟩
    have hl₆ := (hmods ⟨nameVENEERS, [], [], [(p', part'), (link', linkPart')], [], none⟩).defines
      (fun i => ⟨l₃.modules.length, some 0, BitVec.ofNat 64 (VENEER * i), false⟩)
      (fun i => ⟨l₃'.modules.length, some 0, BitVec.ofNat 64 (VENEER * i), false⟩)
      (congrArg zipIdx hl₅.alike.imports) (by rw [hl₃.alike.modules])
    exact ⟨{ hl₆.alike with veneers := rfl }, hl₆.psects⟩

end

/-! ## Addresses in both -/

/-- The psect of a module's contribution. -/
def Linker.psectOf (l : Linker) (module psect : ℕ) : Option Psect := do
  let m ← l.modules[module]?
  let (p, _) ← m.psects[psect]?
  l.psects[p]?

/-- A module's contribution is in a relocatable psect that has a place. -/
def PartPlaced (l : Linker) (module psect : ℕ) : Prop :=
  ∀ q ∈ l.psectOf module psect, has q.flags Obj.psc.REL = true ∧ Placed l.sections q

instance (l : Linker) (module psect : ℕ) : Decidable (PartPlaced l module psect) :=
  inferInstanceAs (Decidable (∀ q ∈ l.psectOf module psect, _))

section
variable {l l' : Linker} {m p b b' : ℕ} {q : Psect}

theorem Moved.partBase (hl : Moved A B l l') (h : l.partBase m p = some b)
    (h' : l'.partBase m p = some b') : ∃ q q', l.psectOf m p = some q ∧
      l'.psectOf m p = some q' ∧ q'.flags = q.flags ∧ (has q.flags Obj.psc.REL = false → b' = b) ∧
      (has q.flags Obj.psc.REL = true → Placed l.sections q → Shifted A B b b') := by
  unfold Linker.partBase at h h'
  rw [hl.alike.modules] at h'
  simp only [Option.bind_eq_bind, Option.bind_eq_some_iff, some.injEq, Prod.exists] at h h'
  obtain ⟨md, hmd, i, j, hij, q, hq, part, hpart, rfl⟩ := h
  obtain ⟨md', hmd', i', j', hij', q', hq', part', hpart', rfl⟩ := h'
  obtain rfl := some.inj (hmd.symm.trans hmd')
  obtain ⟨rfl, rfl⟩ := Prod.mk.inj (some.inj (hij.symm.trans hij'))
  have hqq := forall₂_getElem? hl.psects hq hq'
  have hparts : q'.parts = q.parts := by rw [hqq.same]
  rw [hparts] at hpart'
  obtain rfl := some.inj (hpart.symm.trans hpart')
  refine ⟨q, q', ?_, ?_, hqq.flags, fun hr => by rw [hqq.abs hr],
    fun hr hpl => (hqq.rel hr hpl).add _⟩
  · simp only [Linker.psectOf, Option.bind_eq_bind, Option.bind_eq_some_iff, Prod.exists]
    exact ⟨md, hmd, i, j, hij, hq⟩
  · simp only [Linker.psectOf, Option.bind_eq_bind, Option.bind_eq_some_iff, Prod.exists]
    rw [hl.alike.modules]
    exact ⟨md, hmd, i, j, hij, hq'⟩

theorem psectOf_rel (h : l.psectOf m p = some q) :
    (((l.modules[m]?).bind (·.psects[p]?)).any fun (p, _) =>
      (l.psects[p]?).any (has ·.flags Obj.psc.REL)) = has q.flags Obj.psc.REL := by
  simp only [Linker.psectOf, Option.bind_eq_bind, Option.bind_eq_some_iff, Prod.exists] at h
  obtain ⟨md, hmd, i, j, hij, hq⟩ := h
  simp [hmd, hij, hq]

theorem Moved.partBase_placed (hl : Moved A B l l') (hp : PartPlaced l m p)
    (h : l.partBase m p = some b) (h' : l'.partBase m p = some b') : Shifted A B b b' := by
  obtain ⟨q, -, hq, -, -, -, hrel⟩ := hl.partBase h h'
  exact hrel (hp q hq).1 (hp q hq).2

/-- A symbol that is an address is one in a relocatable psect that has a place. -/
def SymbolPlaced (l : Linker) (name : Obj.Name) : Prop :=
  ∀ d ∈ l.defs.lookup name, ∀ p ∈ d.psect, PartPlaced l d.module p

instance (l : Linker) (name : Obj.Name) : Decidable (SymbolPlaced l name) :=
  inferInstanceAs (Decidable (∀ d ∈ l.defs.lookup name, _))

theorem Moved.value (hl : Moved A B l l') (hp : SymbolPlaced l name) {d : Def}
    (hd : l.defs.lookup name = some d) {v v' : BitVec 64} (h : l.value name = some v)
    (h' : l'.value name = some v') : v' = if d.psect.isSome then v + disp A B else v := by
  unfold Linker.value at h h'
  rw [hl.alike.defs] at h'
  simp only [Option.bind_eq_bind, Option.bind_eq_some_iff] at h h'
  obtain ⟨d₁, hd₁, h⟩ := h
  obtain ⟨d₂, hd₂, h'⟩ := h'
  obtain rfl := some.inj (hd.symm.trans hd₁)
  obtain rfl := some.inj (hd.symm.trans hd₂)
  cases hps : d.psect with
  | none =>
    rw [hps] at h h'
    cases h
    cases h'
    rfl
  | some p =>
    rw [hps] at h h'
    obtain ⟨b, hb, rfl⟩ := map_eq_some_iff.mp h
    obtain ⟨b', hb', rfl⟩ := map_eq_some_iff.mp h'
    have hs := hl.partBase_placed (hp d hd p hps) hb hb'
    simp only [isSome_some, if_true]
    rw [hs.ofNat]
    ring

/-- The linker's own psect `p`, if it has one, has a place. -/
def OwnPlaced (l : Linker) (p : Option ℕ) : Prop :=
  ∀ i ∈ p, ∀ q ∈ l.psects[i]?, has q.flags Obj.psc.REL = true ∧ Placed l.sections q

instance (l : Linker) (p : Option ℕ) : Decidable (OwnPlaced l p) :=
  inferInstanceAs (Decidable (∀ i ∈ p, ∀ q ∈ l.psects[i]?, _))

variable {target : BitVec 64}

theorem Moved.veneer (hl : Moved A B l l') (hp : OwnPlaced l l.veneers)
    (h : l.veneer target = some b) (h' : l'.veneer target = some b') : Shifted A B b b' := by
  unfold Linker.veneer at h h'
  rw [hl.alike.veneers, hl.alike.far, hl.alike.veneered, hl.alike.imports] at h'
  simp only [Option.bind_eq_bind, Option.bind_eq_some_iff, some.injEq] at h h'
  obtain ⟨i, hi, q, hq, n, hn, rfl⟩ := h
  obtain ⟨i', hi', q', hq', n', hn', rfl⟩ := h'
  obtain rfl := some.inj (hi.symm.trans hi')
  obtain rfl := some.inj (hn.symm.trans hn')
  obtain ⟨hr, hpl⟩ := hp i hi q hq
  exact ((forall₂_getElem? hl.psects hq hq').rel hr hpl).add _

theorem Moved.veneer_none (hl : Moved A B l l') : l'.veneer target = none ↔ l.veneer target = none := by
  have hlen := hl.psects.length_eq
  unfold Linker.veneer
  rw [hl.alike.veneers, hl.alike.far, hl.alike.veneered]
  cases l.veneers with
  | none => exact Iff.rfl
  | some i =>
    by_cases hi : i < l.psects.length
    · have hi' : i < l'.psects.length := by omega
      simp [hi, hi']
    · have hi' : ¬ i < l'.psects.length := by omega
      simp [hi, hi']

theorem findIdx?_moved {f g : ImageSection → Bool} {ss ts : List ImageSection}
    (h : List.Forall₂ (fun s t => g t = f s) ss ts) : ts.findIdx? g = ss.findIdx? f := by
  induction h with
  | nil => rfl
  | cons hst _ ih => rw [findIdx?_cons, findIdx?_cons, hst, ih]

end

end Link
