/-
  What `layout` gives: image sections in increasing order of address, apart from
  each other.
-/
import Vaxpunk.Lib.Exec
import Vaxpunk.Link.Linker

namespace Link

open Linker List Option

variable {n m align pos at_ base : ℕ} {cls : Class} {ps ps' : List Psect} {l l' : Linker}

theorem u64?_eq_some : u64? n = some m ↔ n = m ∧ n < 2 ^ 64 := by
  unfold u64?
  split_ifs with h
  · rw [Option.some.injEq]
    exact ⟨fun hm => ⟨hm, h⟩, And.left⟩
  · exact ⟨False.elim, fun hm => absurd hm.2 h⟩

theorem nextMultiple_eq_some : nextMultiple n align = some m ↔
    align < 64 ∧ m = (n + 2 ^ align - 1) / 2 ^ align * 2 ^ align ∧ m < 2 ^ 64 := by
  unfold nextMultiple
  split_ifs with h
  · rw [u64?_eq_some]
    constructor
    · rintro ⟨rfl, hlt⟩
      exact ⟨h, rfl, hlt⟩
    · rintro ⟨-, rfl, hlt⟩
      exact ⟨rfl, hlt⟩
  · simp [h]

section
variable (h : nextMultiple n align = some m)
include h

theorem nextMultiple_ge : n ≤ m := by
  obtain ⟨-, rfl, -⟩ := nextMultiple_eq_some.mp h
  have hpos : 0 < 2 ^ align := Nat.two_pow_pos align
  have hdiv := Nat.div_add_mod (n + 2 ^ align - 1) (2 ^ align)
  have hmod := Nat.mod_lt (n + 2 ^ align - 1) hpos
  rw [Nat.mul_comm]
  omega

theorem nextMultiple_eq_zero : m = 0 ↔ n = 0 := by
  refine ⟨fun h0 => Nat.le_zero.mp (h0 ▸ nextMultiple_ge h), ?_⟩
  rintro rfl
  have hpos := Nat.two_pow_pos align
  rw [(nextMultiple_eq_some.mp h).2.1, Nat.zero_add, Nat.div_eq_of_lt (by omega), Nat.zero_mul]

theorem nextMultiple_dvd : 2 ^ align ∣ m := by
  obtain ⟨-, rfl, -⟩ := nextMultiple_eq_some.mp h
  exact Nat.dvd_mul_left _ _

end

/-- A psect when the class `cls` has been placed from `pos` to `stop`. -/
structure SetAt (cls : Class) (pos stop : ℕ) (p q : Psect) : Prop where
  same : q = { p with base := q.base }
  member : isMember cls p = true → pos ≤ q.base ∧ q.base + q.size ≤ stop ∧ 2 ^ q.align ∣ q.base
  other : isMember cls p = false → q = p

/-- **The psects of a class** are placed one after the other. -/
theorem placePsects_ok {stop : ℕ} (h : placePsects cls ps pos = some (ps', stop)) :
    pos ≤ stop ∧ (pos < 2 ^ 64 → stop < 2 ^ 64) ∧ List.Forall₂ (SetAt cls pos stop) ps ps' := by
  induction ps generalizing ps' pos stop with
  | nil =>
    simp only [placePsects, Option.some.injEq, Prod.mk.injEq] at h
    obtain ⟨rfl, rfl⟩ := h
    exact ⟨le_rfl, id, .nil⟩
  | cons p ps ih =>
    unfold placePsects at h
    split_ifs at h with hm
    · simp only [bind_eq_bind, bind_eq_some_iff, Option.some.injEq,
        Prod.mk.injEq, Prod.exists] at h
      obtain ⟨base, hbase, pos₁, hpos₁, ps₁, stop₁, hrest, rfl, rfl⟩ := h
      obtain ⟨rfl, h64⟩ := u64?_eq_some.mp hpos₁
      have hge := nextMultiple_ge hbase
      obtain ⟨hle, hlt, hall⟩ := ih hrest
      refine ⟨by omega, fun _ => hlt h64, .cons ⟨rfl, fun _ => ⟨hge, hle, nextMultiple_dvd hbase⟩, fun h => ?_⟩
        (hall.imp fun q q' hq => ⟨hq.same, fun hmem => ?_, hq.other⟩)⟩
      · exact absurd (hm.symm.trans h) (by decide)
      · obtain ⟨h₁, h₂⟩ := hq.member hmem
        exact ⟨by omega, h₂⟩
    · simp only [bind_eq_bind, bind_eq_some_iff, Option.some.injEq,
        Prod.mk.injEq, Prod.exists] at h
      obtain ⟨ps₁, stop₁, hrest, rfl, rfl⟩ := h
      obtain ⟨hle, hlt, hall⟩ := ih hrest
      exact ⟨hle, hlt, .cons ⟨rfl, fun h => absurd h hm, fun _ => rfl⟩ hall⟩

theorem placePsects_ge {pos' : ℕ} (h : placePsects cls ps pos = some (ps', pos')) : pos ≤ pos' :=
  (placePsects_ok h).1

/-- The image sections laid out up to `at_`: each ends before the next starts. -/
structure Ordered (sections : List ImageSection) (at_ : ℕ) : Prop where
  apart : sections.Pairwise fun a b => a.stop ≤ b.start
  forward : ∀ s ∈ sections, s.start ≤ s.stop
  below : ∀ s ∈ sections, s.stop ≤ at_

theorem layoutClass_ok {at' : ℕ} (h : layoutClass (l, at_) cls = .ok (l', at')) :
    ((l.psects.filter (isMember cls)).all (·.size = 0) ∧ l' = l ∧ at' = at_) ∨
    ∃ start psects, ¬ (l.psects.filter (isMember cls)).all (·.size = 0) ∧
      nextMultiple at_ 16 = some start ∧
      placePsects cls l.psects start = some (psects, at') ∧ at' - start < 2 ^ 32 ∧
      l' = { l with psects, sections := l.sections ++ [⟨cls, start, at'⟩] } := by
  unfold layoutClass at h
  simp only at h
  split_ifs at h with hall
  · obtain ⟨rfl, rfl⟩ := Prod.mk.inj (Except.ok.inj h)
    exact .inl ⟨hall, rfl, rfl⟩
  · split at h
    · cases h
    · next start hstart =>
      split at h
      · cases h
      · next psects pos hplace =>
        split_ifs at h with hbig
        obtain ⟨rfl, rfl⟩ := Prod.mk.inj (Except.ok.inj h)
        exact .inr ⟨start, psects, hall, hstart, hplace, by omega, rfl⟩

theorem Ordered.layoutClass {at' : ℕ} (ho : Ordered l.sections at_) (h : layoutClass (l, at_) cls = .ok (l', at')) :
    Ordered l'.sections at' := by
  rcases layoutClass_ok h with ⟨-, rfl, rfl⟩ | ⟨start, psects, -, hstart, hplace, -, rfl⟩
  · exact ho
  · have h₁ := nextMultiple_ge hstart
    have h₂ := placePsects_ge hplace
    refine ⟨pairwise_append.mpr ⟨ho.apart, pairwise_singleton _ _, fun a ha b hb => ?_⟩,
      fun s hs => ?_, fun s hs => ?_⟩
    · rw [mem_singleton.mp hb]
      exact (ho.below a ha).trans h₁
    · rcases mem_append.mp hs with hs | hs
      · exact ho.forward s hs
      · rw [mem_singleton.mp hs]
        exact h₂
    · rcases mem_append.mp hs with hs | hs
      · exact (ho.below s hs).trans (h₁.trans h₂)
      · rw [mem_singleton.mp hs]

theorem layout_keeps {P : Linker × ℕ → Prop} (hP : ∀ la cls la', P la → Linker.layoutClass la cls = .ok la' → P la')
    (h0 : ∀ psects, P ({ l with psects, sections := [] }, base))
    (h : l.layout base = .ok l') : ∃ at_, P (l', at_) := by
  unfold Linker.layout at h
  split at h
  · cases h
  · next psects hparts =>
    cases hfold : [Class.code, .readOnly, .data, .zero].foldlM Linker.layoutClass
        ({ l with psects, sections := [] }, base) with
    | error e =>
      rw [hfold] at h
      cases h
    | ok la =>
      rw [hfold] at h
      cases h
      exact ⟨la.2, Exec.foldlM_keeps (fun cls _ la la' => hP la cls la') (h0 psects) hfold⟩

/-- **The image sections** a layout makes are in order. -/
theorem layout_ordered (h : l.layout base = .ok l') :
    ∃ at_, Ordered l'.sections at_ := by
  refine layout_keeps (P := fun la => Ordered la.1.sections la.2) ?_ (fun psects => ?_) h
  · exact fun la cls la' ho hok => ho.layoutClass hok
  · exact ⟨List.Pairwise.nil, by simp, by simp⟩

theorem layout_lt (h : l.layout base = .ok l') :
    ∀ s ∈ l'.sections, s.stop < 2 ^ 64 := by
  refine (layout_keeps (P := fun la => ∀ s ∈ la.1.sections, s.stop < 2 ^ 64) ?_ (by simp) h).elim
    fun _ h => h
  intro la cls la' hall hok s hs
  rcases layoutClass_ok hok with ⟨-, hl, -⟩ | ⟨start, psects, -, hstart, hplace, -, hl⟩
  · rw [hl] at hs
    exact hall s hs
  · rw [hl] at hs
    rcases mem_append.mp hs with hs | hs
    · exact hall s hs
    · rw [mem_singleton.mp hs]
      exact (placePsects_ok hplace).2.1 (nextMultiple_eq_some.mp hstart).2.2

theorem layout_same (h : l.layout base = .ok l') :
    ∃ psects sections, l' = { l with psects, sections } := by
  refine (layout_keeps (P := fun la => ∃ psects sections, la.1 = { l with psects, sections })
    ?_ (fun psects => ⟨_, _, rfl⟩) h).elim fun _ h => h
  rintro la cls la' ⟨ps, ss, hla⟩ hok
  rcases layoutClass_ok hok with ⟨-, hl, -⟩ | ⟨start, psects, -, -, -, -, hl⟩
  · exact ⟨ps, ss, hl.trans hla⟩
  · rw [hl, hla]
    exact ⟨_, _, rfl⟩

theorem Ordered.head_le {sections : List ImageSection} (ho : Ordered sections at_)
    {s : ImageSection} (hs : s ∈ sections) : (sections.head?.map (·.start)).getD 0 ≤ s.start := by
  cases sections with
  | nil => exact absurd hs not_mem_nil
  | cons a as =>
    rcases mem_cons.mp hs with rfl | hs
    · simp
    · have h₁ := (pairwise_cons.mp ho.apart).1 s hs
      have h₂ := ho.forward a mem_cons_self
      simp only [List.head?_cons, map_some, getD_some]
      omega

end Link
