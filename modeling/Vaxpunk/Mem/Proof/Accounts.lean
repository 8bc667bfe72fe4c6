/-
  Every page is accounted for, in every run whose WRPTEs have room when
  MMG$SETPRT and MAPGSD map a page; without room they lose pages and counts.
-/
import Vaxpunk.Mem.Proof.Calls

namespace Mem

open Tally

variable {b : ℕ} {s s' s₀ : Sys} {p g : ℕ}

/-! ## Accounts -/

/-- The PTEs of a page of no section. -/
def Sys.privatePtes (s : Sys) (p : ℕ) : Set Slot :=
  {i | (s.ptes i).maps p ∧ ∀ g ∈ s.sections, p ∉ (s.gsd g).pfns}

/-- How many places a page is in: on the free stack, never used, mapped for one
    process, in a section's list, deleted while locked. -/
noncomputable def Sys.places (s : Sys) (p : ℕ) : ℕ :=
  s.free.count p + (if s.highpfn ≤ p then 1 else 0) + (s.privatePtes p).ncard +
    ∑ g ∈ s.sections, (s.gsd g).pfns.count p + if s.Deleted p then 1 else 0

structure Accounted (s : Sys) : Prop where
  finite : {i | (s.ptes i).valid}.Finite
  places : ∀ p < s.maxpfn, s.places p = 1
  freecnt : s.freecnt = s.free.length + (s.maxpfn - s.highpfn)
  refcnt : ∀ g ∈ s.sections,
    (s.gsd g).refcnt = {i | (s.ptes i).valid ∧ (s.ptes i).pfn ∈ (s.gsd g).pfns}.ncard

namespace Ledger

theorem tally_nil {Q : Pte → Bool} : tally s.ptes [] Q = {i | Q (s.ptes i)}.ncard := by
  simp [tally]

theorem places_private (h : Ledger b s []) (hp : p < s.maxpfn) (hg : s.pfngsd p = 0) : s.places p = 1 := by
  have hnone : ∀ g ∈ s.sections, p ∉ (s.gsd g).pfns := fun g hgs hin =>
    h.ne_zero_of_mem hgs ((h.owner g hgs p hin).symm.trans hg)
  have hprivate : s.privatePtes p = {i | (s.ptes i).maps p} := by
    ext i
    exact and_iff_left hnone
  have hsum : ∑ g ∈ s.sections, (s.gsd g).pfns.count p = 0 :=
    Finset.sum_eq_zero fun g hgs => List.count_eq_zero.mpr (hnone g hgs)
  have honce := h.once p hp hg
  rw [tally_nil] at honce
  rw [Sys.places, hprivate, hsum]
  omega

theorem places_section (h : Ledger b s []) (hg : s.pfngsd p ≠ 0) : s.places p = 1 := by
  obtain ⟨hhigh, hfree, hdel, hmem, hcount⟩ := h.page p hg
  have hin : p ∈ (s.gsd (s.pfngsd p)).pfns := List.count_pos_iff.mp (by omega)
  have hprivate : s.privatePtes p = ∅ :=
    Set.eq_empty_of_forall_notMem fun i hi => hi.2 _ hmem hin
  have hsum : ∑ g ∈ s.sections, (s.gsd g).pfns.count p = 1 := by
    rw [Finset.sum_eq_single_of_mem _ hmem fun g hgs hne => ?_, hcount]
    exact List.count_eq_zero.mpr fun hpg => hne (h.owner g hgs p hpg).symm
  rw [Sys.places, hprivate, hsum, List.count_eq_zero.mpr hfree, Set.ncard_empty, if_neg (by omega), if_neg hdel]

theorem accounted (h : Ledger b s []) : Accounted s where
  finite := h.finite
  places p hp := by
    by_cases hg : s.pfngsd p = 0
    exacts [h.places_private hp hg, h.places_section hg]
  freecnt := h.count
  refcnt g hgs := by
    rw [h.refcnt g hgs, tally_nil]
    congr 1
    ext i
    simp only [refers, Set.mem_ofPred_eq, Bool.and_eq_true, beq_iff_eq]
    refine and_congr_right fun _ => ⟨fun hown => ?_, fun hin => h.owner g hgs _ hin⟩
    have hpage := h.page (s.ptes i).pfn (hown ▸ h.ne_zero_of_mem hgs)
    rw [hown] at hpage
    exact List.count_pos_iff.mp (by omega)

end Ledger

/-! ## Runs -/

/-- What the boot leaves: the pages it used are mapped once each, PFN 0 at the
    page `b` of S0. -/
structure Boot (b : ℕ) (s : Sys) : Prop where
  finite : {i | (s.ptes i).valid}.Finite
  bound : ∀ i, (s.ptes i).valid → (s.ptes i).pfn < s.highpfn
  once : ∀ p < s.highpfn, {i | (s.ptes i).maps p}.ncard = 1
  high : s.highpfn ≤ s.maxpfn
  free : s.free = []
  freecnt : s.freecnt = s.maxpfn - s.highpfn
  pfngsd : ∀ p, s.pfngsd p = 0
  pfnrefcnt : ∀ p, s.pfnrefcnt p = 0
  gsdhd : s.gsdhd = []
  sections : s.sections = ∅
  zero : s.ptes zeroSlot = .zero
  boot : (s.ptes ⟨none, b⟩).maps 0
  pool : s.npagedyn ≤ s.npagnext ∧ s.npagedyn + s.npagevir ≤ POOL_END
  apart : b < s.npagedyn / PAGESIZE ∨ POOL_END / PAGESIZE ≤ b
  p0 : ∀ cur, P0BASE ≤ s.frep0va cur ∧ s.frep0va cur ≤ S0BASE
  p1 : ∀ cur, P1BASE ≤ s.frep1va cur ∧ s.frep1va cur ≤ 2 ^ 31

theorem Boot.ledger (h : Boot b s) : Ledger b s [] where
  finite := h.finite
  bound i hi := (h.bound i hi).trans_le h.high
  inHand := by simp
  high := h.high
  free := by simp [h.free]
  count := by simp [h.free, h.freecnt]
  once p hp _ := by
    have hdel : ¬s.Deleted p := by simp [Sys.Deleted, h.pfnrefcnt, DELCON]
    rw [h.free, Ledger.tally_nil, if_neg hdel, List.count_nil]
    by_cases hlow : p < s.highpfn
    · rw [h.once p hlow, if_neg (by omega)]
    · have hnone : {i | (s.ptes i).maps p} = ∅ := by
        refine Set.eq_empty_of_forall_notMem fun i hi => hlow ?_
        obtain ⟨hv, hpfn⟩ := Bool.and_eq_true_iff.mp hi
        exact beq_iff_eq.mp hpfn ▸ h.bound i hv
      rw [hnone, Set.ncard_empty, if_pos (by omega)]
  page p hp := absurd (h.pfngsd p) hp
  owner g hg := by simp [h.sections] at hg
  refcnt g hg := by simp [h.sections] at hg
  ne_zero := by simp [h.sections]
  word p := by simp [h.pfnrefcnt, DELCON]
  locked p hp := absurd (h.pfnrefcnt p) hp
  listed := by simp [h.gsdhd]
  nodup := by simp [h.gsdhd]
  zero := h.zero
  boot := ⟨h.boot, h.pfngsd 0⟩
  size g hg := by simp [h.sections] at hg
  pool := h.pool
  apart := h.apart
  p0 := h.p0
  p1 := h.p1

/-- The page isn't ZEROVA's, and PFN 0 isn't mapped there: ALLOCPFN couldn't
    give PFN 0 again. -/
def Spare (s : Sys) (cur page : ℕ) : Prop :=
  slotOf cur page ≠ zeroSlot ∧ ¬(s.ptes (slotOf cur page)).maps 0

instance {cur page : ℕ} : Decidable (Spare s cur page) := inferInstanceAs (Decidable (_ ∧ _))

/-- A call as the executive makes it. -/
def Call.Proper (s : Sys) : Call → Prop
  | .crepag cur low n page _ => isValid low ∧ ∀ j < n, Spare s cur (page + j)
  | .delpag cur n page => ∀ j < n, Spare s cur (page + j)
  | .setprt _ low _ _ _ => isValid low
  | .unlock pfns => Held s pfns
  | .crmpsc a get => a.pagcnt ≤ 2 ^ 18 ∧ get.pool.addr ≠ 0 ∧ get.pool.addr ∉ s.sections
  | _ => True

/-- The PAL has room when MMG$SETPRT or MAPGSD writes a PTE. -/
def Call.Roomy : Call → Prop
  | .setprt _ _ _ _ room => ∀ k, room k = true
  | .crmpsc _ get => ∀ k, get.map k = true
  | .mgblsc _ room => ∀ k, room k = true
  | _ => True

theorem Spare.clear {cur page : ℕ} (h : Spare s cur page) (hboot : (s.ptes ⟨none, b⟩).maps 0) : Clear b cur page :=
  ⟨h.1, fun heq => h.2 (heq ▸ hboot)⟩

theorem Ledger.call (h : Ledger b s []) (c : Call) (hp : c.Proper s) (hr : c.Roomy) : Ledger b (c.run s) [] := by
  cases c with
  | crepag cur low n page room => exact h.crepag hp.1 fun j hj => (hp.2 j hj).clear h.boot.1
  | delpag cur n page => exact h.delpag fun j hj => (hp j hj).clear h.boot.1
  | setprt cur low n page room => exact h.setprt hp hr
  | iolock cur buf size write mode => exact h.lockPages fun p => by simp
  | unlock pfns => exact h.unlock hp
  | crmpsc a get => exact h.crmpsc hp.1 hp.2.1 hp.2.2 hr
  | mgblsc a room => exact h.mgblsc hr
  | dgblsc a => exact h.dgblsc

/-- **Every page is in one place, and the counts are right**, in every run whose
    WRPTEs have room when MMG$SETPRT and MAPGSD map a page. -/
theorem accounted_of_roomy (hboot : Boot b s₀) (hrun : Run (fun s c => c.Proper s ∧ c.Roomy) s₀ s) :
    Accounted s := by
  have hled : Ledger b s [] := by
    induction hrun with
    | refl => exact hboot.ledger
    | tail _ hstep ih =>
      obtain ⟨c, ⟨hp, hr⟩, rfl⟩ := hstep
      exact ih.call c hp hr
  exact hled.accounted

/-! ## A small machine -/

/-- The page of S0 the boot maps PFN `p` at. -/
def bootPage (p : ℕ) : Slot := ⟨none, 0x40010 + p⟩

/-- Four pages, of which the boot used two. -/
def booted : Sys where
  ptes i := if i = bootPage 0 then ⟨KW, 0⟩ else if i = bootPage 1 then ⟨KW, 1⟩ else .zero
  free := []
  freecnt := 2
  highpfn := 2
  maxpfn := 4
  pfngsd _ := 0
  pfnrefcnt _ := 0
  gsd _ := ⟨[], 0, false, false, false, 0, 0, 0, []⟩
  gsdhd := []
  sections := ∅
  frep0va _ := P0BASE
  frep1va _ := CLI
  npagedyn := 0x48000000
  npagnext := 0x48000000
  npagevir := 0x100000

theorem maps_booted {i : Slot} : (booted.ptes i).maps p ↔ (p = 0 ∨ p = 1) ∧ i = bootPage p := by
  have h01 : bootPage 0 ≠ bootPage 1 := by decide
  have hKW : isValid KW := rfl
  unfold booted
  dsimp only
  split_ifs with h0 h1
  · subst h0
    rw [maps_mk hKW, beq_iff_eq]
    constructor
    · rintro rfl
      exact ⟨.inl rfl, rfl⟩
    · rintro ⟨rfl | rfl, h⟩
      exacts [rfl, absurd h h01]
  · subst h1
    rw [maps_mk hKW, beq_iff_eq]
    constructor
    · rintro rfl
      exact ⟨.inr rfl, rfl⟩
    · rintro ⟨rfl | rfl, h⟩
      exacts [absurd h h01.symm, rfl]
  · refine iff_of_false (by simp [Pte.maps, Pte.zero, Pte.valid, isValid]) ?_
    rintro ⟨rfl | rfl, h⟩
    exacts [h0 h, h1 h]

theorem valid_booted {i : Slot} (hi : (booted.ptes i).valid) :
    ((booted.ptes i).pfn = 0 ∨ (booted.ptes i).pfn = 1) ∧ i = bootPage (booted.ptes i).pfn :=
  maps_booted.mp (by simp [Pte.maps, hi])

theorem boot_booted : Boot 0x40010 booted where
  finite := by
    refine Set.Finite.subset (Set.toFinite {bootPage 0, bootPage 1}) fun i hi => ?_
    obtain ⟨h | h, hi⟩ := valid_booted hi
    · exact .inl (h ▸ hi)
    · exact .inr (h ▸ hi)
  bound i hi := by
    obtain ⟨h | h, -⟩ := valid_booted hi <;> rw [h] <;> decide
  once p hp := by
    have hp' : p = 0 ∨ p = 1 := by
      change p < 2 at hp
      omega
    have hset : {i | (booted.ptes i).maps p} = {bootPage p} := by
      ext i
      exact maps_booted.trans (and_iff_right hp')
    rw [hset, Set.ncard_singleton]
  high := by decide
  free := rfl
  freecnt := rfl
  pfngsd _ := rfl
  pfnrefcnt _ := rfl
  gsdhd := rfl
  sections := rfl
  zero := by decide
  boot := by decide
  pool := by decide
  apart := by decide
  p0 _ := (by decide : P0BASE ≤ P0BASE ∧ P0BASE ≤ S0BASE)
  p1 _ := (by decide : P1BASE ≤ CLI ∧ CLI ≤ 2 ^ 31)

/-- PFN 1's page gets a new protection, and there is no room to map it again. -/
theorem not_accounted :
    ¬∀ b s₀ s, Boot b s₀ → Run (fun s c => c.Proper s) s₀ s → Accounted s := by
  intro hall
  have hprt : Call.run booted (.setprt 0 UR 1 0x40011 fun _ => false) = booted.setPte (bootPage 1) .zero := rfl
  have hrun : Run (fun s c => c.Proper s) booted (booted.setPte (bootPage 1) .zero) :=
    .single ⟨.setprt 0 UR 1 0x40011 fun _ => false, (rfl : isValid UR = true), hprt.symm⟩
  have hplaces := (hall _ _ _ boot_booted hrun).places 1 (by decide)
  have hnone : (booted.setPte (bootPage 1) .zero).privatePtes 1 = ∅ := by
    refine Set.eq_empty_of_forall_notMem fun i hi => ?_
    have hmaps : (Function.update booted.ptes (bootPage 1) .zero i).maps 1 := hi.1
    by_cases h1 : i = bootPage 1
    · rw [h1, Function.update_self] at hmaps
      exact absurd hmaps (by decide)
    · rw [Function.update_of_ne h1] at hmaps
      exact h1 (maps_booted.mp hmaps).2
  rw [Sys.places, hnone, Set.ncard_empty] at hplaces
  exact absurd hplaces (by decide)

def oneSection : SecArgs where
  cur := 1
  uic := 0x10001
  prmgbl := false
  sysgblPriv := false
  gbl := true
  dzro := true
  wrt := true
  perm := false
  sysgbl := false
  expreg := true
  pagfil := true
  otherFlags := false
  inadr := (0x200, 0x200)
  readsInadr := true
  writesRetadr := true
  gsdnam := some [65]
  readsGsdnam := true
  ident := none
  readsIdent := true
  relpag := 0
  chan := 0
  pagcnt := 1
  prot := 0
  allowed := true

/-- Pool has a block for its GSD. -/
def oneGets (room : Bool) : SecGets := ⟨⟨true, true, fun _ => (true, true), 0x48000000⟩, fun _ => true, fun _ => room⟩

theorem mapgsd_miscounts :
    ¬∀ b s₀ s, Boot b s₀ → Run (fun s c => c.Proper s) s₀ s →
      ∀ g ∈ s.sections, (s.gsd g).refcnt = {i | (s.ptes i).valid ∧ (s.ptes i).pfn ∈ (s.gsd g).pfns}.ncard := by
  intro hall
  have hrun : Run (fun s c => c.Proper s) booted (Call.run booted (.crmpsc oneSection (oneGets false))) :=
    .single ⟨.crmpsc oneSection (oneGets false),
      (by decide : 1 ≤ 2 ^ 18 ∧ 0x48000000 ≠ 0 ∧ 0x48000000 ∉ (∅ : Finset ℕ)), rfl⟩
  have hcount := hall _ _ _ boot_booted hrun 0x48000000 (by decide +kernel)
  have hptes : (Call.run booted (.crmpsc oneSection (oneGets false))).ptes = booted.ptes := by
    have hzero : (Call.run booted (.crmpsc oneSection (oneGets false))).ptes =
      Function.update (Function.update booted.ptes zeroSlot ⟨KW, 2⟩) zeroSlot .zero := rfl
    rw [hzero, Function.update_idem, ← boot_booted.zero, Function.update_eq_self]
  have hpfns : ((Call.run booted (.crmpsc oneSection (oneGets false))).gsd 0x48000000).pfns = [2] := by
    decide +kernel
  have hone : ((Call.run booted (.crmpsc oneSection (oneGets false))).gsd 0x48000000).refcnt = 1 := by
    decide +kernel
  rw [hptes, hpfns, hone] at hcount
  have hnone : {i | (booted.ptes i).valid ∧ (booted.ptes i).pfn ∈ [2]} = ∅ := by
    refine Set.eq_empty_of_forall_notMem fun i hi => ?_
    have h2 := List.mem_singleton.mp hi.2
    obtain ⟨h | h, -⟩ := valid_booted hi.1 <;> omega
  rw [hnone, Set.ncard_empty] at hcount
  exact one_ne_zero hcount

/-- The section made and mapped, its page locked, deleted and unlocked. -/
def lockedSection : List Call :=
  [.crmpsc oneSection (oneGets true), .iolock 1 0x1000 8 true 3, .delpag 1 1 1, .unlock [2]]

theorem accounted_lockedSection : Accounted (lockedSection.foldl Call.run booted) := by
  have hboot : Run (fun s c => c.Proper s ∧ c.Roomy) booted booted := .refl
  have hmade := hboot.call (.crmpsc oneSection (oneGets true))
    ⟨(by decide : 1 ≤ 2 ^ 18 ∧ 0x48000000 ≠ 0 ∧ 0x48000000 ∉ (∅ : Finset ℕ)), fun _ => rfl⟩
  have hlocked := hmade.call (.iolock 1 0x1000 8 true 3) ⟨trivial, trivial⟩
  have hdeleted := hlocked.call (.delpag 1 1 1)
    ⟨(by decide +kernel : ∀ j < 1, Spare (Call.run (Call.run booted (.crmpsc oneSection (oneGets true)))
      (.iolock 1 0x1000 8 true 3)) 1 (1 + j)), trivial⟩
  rw [lockedSection, List.foldl_cons, List.foldl_cons, List.foldl_cons, List.foldl_cons, List.foldl_nil]
  refine accounted_of_roomy boot_booted (hdeleted.call (.unlock [2]) ⟨fun p => ?_, trivial⟩)
  by_cases hp : p = 2
  · rw [hp]
    decide +kernel
  · rw [List.count_eq_zero.mpr (by simpa using hp)]
    exact Nat.zero_le _

end Mem
