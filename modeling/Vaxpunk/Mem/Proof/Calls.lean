/-
  Every call of the memory routines keeps the books, if WRPTE has room whenever
  MMG$SETPRT or MAPGSD writes a PTE.
-/
import Vaxpunk.Mem.Proof.Ledger

namespace Mem

open Tally List Function

variable {b : ℕ} {s s' : Sys} {hand : List Pte} {p g cur page n : ℕ} {e : Pte} {low : BitVec 32} {i : Slot}
variable {room : ℕ → Bool} {a : SecArgs}

/-! ## Frames -/

theorem chkgsd_frame (s : Sys) (g : ℕ) : (chkgsd s g).ptes = s.ptes ∧ (chkgsd s g).gsd = s.gsd ∧
    ((chkgsd s g).sections = s.sections ∨
      (s.gsd g).refcnt = 0 ∧ (chkgsd s g).sections = s.sections.erase g) := by
  have hfold : ∀ (ps : List ℕ) (t : Sys), (ps.foldl freePage t).ptes = t.ptes ∧
      (ps.foldl freePage t).gsd = t.gsd ∧ (ps.foldl freePage t).sections = t.sections := by
    intro ps
    induction ps with
    | nil => exact fun t => ⟨rfl, rfl, rfl⟩
    | cons p ps ih =>
      intro t
      obtain ⟨h1, h2, h3⟩ := ih (freePage t p)
      obtain ⟨hgsd, hsec, -⟩ := Ledger.freePage_frame t p
      refine ⟨h1.trans ?_, h2.trans hgsd, h3.trans hsec⟩
      unfold freePage freepfn
      split_ifs <;> rfl
  unfold chkgsd
  split_ifs with h0 hkeep
  · exact ⟨rfl, rfl, .inl rfl⟩
  · exact ⟨rfl, rfl, .inl rfl⟩
  · obtain ⟨h1, h2, h3⟩ := hfold (s.gsd g).pfns { s with gsdhd := s.gsdhd.erase g }
    exact ⟨h1, h2, .inr ⟨not_not.mp h0, congrArg (Finset.erase · g) h3⟩⟩

theorem ptes_freeold (o : Option Pte) : (freeold s o).ptes = s.ptes := by
  cases o with
  | none => rfl
  | some e =>
    simp only [freeold]
    split_ifs
    · unfold freepfn
      split_ifs <;> rfl
    · exact (chkgsd_frame _ _).1
    · rfl

theorem sections_freeold (o : Option Pte) : (freeold s o).sections ⊆ s.sections := by
  cases o with
  | none => exact subset_rfl
  | some e =>
    simp only [freeold]
    split_ifs
    · unfold freepfn
      split_ifs <;> exact subset_rfl
    · rcases (chkgsd_frame (s.setGsd (s.pfngsd e.pfn) fun G => { G with refcnt := G.refcnt - 1 })
        (s.pfngsd e.pfn)).2.2 with h | ⟨-, h⟩
      · exact h.subset
      · rw [h]
        exact Finset.erase_subset _ _
    · exact subset_rfl

theorem Ledger.section_freeold (h : Ledger b s (e :: hand)) (hg : g ∈ s.sections)
    (hpos : 0 < tally s.ptes hand (refers s.pfngsd g)) :
    g ∈ (Mem.freeold s (some e)).sections ∧ ((Mem.freeold s (some e)).gsd g).pfns = (s.gsd g).pfns := by
  simp only [Mem.freeold]
  split_ifs with h1 h2
  · unfold Mem.freepfn
    split_ifs <;> exact ⟨hg, rfl⟩
  · have hv : e.valid := by simpa using h1
    have hdecl := h.decl hv h2
    obtain ⟨-, hgsd, hsec⟩ := chkgsd_frame (s.setGsd (s.pfngsd e.pfn) fun G => { G with refcnt := G.refcnt - 1 })
      (s.pfngsd e.pfn)
    constructor
    · rcases hsec with hsec | ⟨h0, hsec⟩
      · exact hsec.symm ▸ hg
      · rw [hsec]
        refine Finset.mem_erase.mpr ⟨?_, hg⟩
        rintro rfl
        rw [hdecl.refcnt _ hg] at h0
        exact hpos.ne' h0
    · rw [hgsd]
      by_cases hx : g = s.pfngsd e.pfn <;> simp [Sys.setGsd, hx]
  · exact ⟨hg, rfl⟩

/-! ## Pages -/

namespace Ledger

theorem rewrite (h : Ledger b s hand) (hv : e.valid = (s.ptes i).valid) (hp : e.valid → e.pfn = (s.ptes i).pfn)
    (hz : i = zeroSlot → e = .zero) : Ledger b (s.setPte i e) hand := by
  have hsame : ∀ P : ℕ → Bool, (e.valid && P e.pfn) = ((s.ptes i).valid && P (s.ptes i).pfn) := by
    intro P
    cases he : e.valid with
    | false => rw [← hv, he, Bool.false_and, Bool.false_and]
    | true => rw [← hv, he, hp he]
  have hset : ∀ (P : ℕ → Bool) (Q : Pte → Bool), (∀ e, Q e = (e.valid && P e.pfn)) →
      {j | Q ((s.setPte i e).ptes j)} = {j | Q (s.ptes j)} := by
    intro P Q hQ
    ext j
    simp only [Set.mem_ofPred_eq, ptes_setPte]
    split_ifs with hji
    · rw [hji, hQ, hQ, hsame]
    · rfl
  have htally : ∀ (P : ℕ → Bool) (Q : Pte → Bool), (∀ e, Q e = (e.valid && P e.pfn)) →
      tally (s.setPte i e).ptes hand Q = tally s.ptes hand Q := fun P Q hQ => by
    rw [tally, tally, hset P Q hQ]
  refine { h with
    finite := hset (fun _ => true) Pte.valid (by simp) ▸ h.finite
    bound := ?_
    once := fun q hq hg => by rw [htally (· == q) (Pte.maps q) fun _ => rfl]; exact h.once q hq hg
    refcnt := fun x hx => (h.refcnt x hx).trans (htally (s.pfngsd · == x) _ fun _ => rfl).symm
    zero := ?_
    boot := ?_ }
  · intro j hj
    rw [ptes_setPte] at hj ⊢
    split_ifs at hj ⊢ with hji
    · rw [hp hj]
      exact h.bound i (hv ▸ hj)
    · exact h.bound j hj
  · rw [ptes_setPte]
    split_ifs with hzi
    exacts [hz hzi.symm, h.zero]
  · rw [ptes_setPte]
    split_ifs with hbi
    · rw [Pte.maps, hsame (· == 0), ← hbi]
      exact h.boot
    · exact h.boot

end Ledger

/-- The page is neither ZEROVA's nor the boot's of PFN 0. -/
def Clear (b cur page : ℕ) : Prop := slotOf cur page ≠ zeroSlot ∧ slotOf cur page ≠ ⟨none, b⟩

theorem Clear.split (hc : ∀ j < n + 1, Clear b cur (page + j)) :
    Clear b cur page ∧ ∀ j < n, Clear b cur (page + 1 + j) := by
  refine ⟨hc 0 (Nat.succ_pos n), fun j hj => ?_⟩
  rw [Nat.add_assoc, Nat.add_comm 1 j]
  exact hc (j + 1) (Nat.succ_lt_succ hj)

namespace Ledger

theorem crepag {room : ℕ → Bool × Bool} (h : Ledger b s hand) (hv : isValid low)
    (hc : ∀ j < n, Clear b cur (page + j)) : Ledger b (crepag cur low room n page s).2 hand := by
  induction n generalizing s page with
  | zero => exact h
  | succ n ih =>
    obtain ⟨⟨hz, hb⟩, hnext⟩ := Clear.split hc
    have hv' : isValid (if kernelWrites low then low else KW) := by
      split_ifs
      exacts [hv, rfl]
    unfold Mem.crepag
    rcases h.allocpfn with heq | ⟨p, free, freecnt, high, heq, hp0, hg, hL⟩
    · rw [heq]
      exact h
    · rw [heq]
      simp only [hp0, if_false]
      generalize hs₁ : ({ s with free := free, freecnt := freecnt, highpfn := high } : Sys) = s₁ at hL
      have hg₁ : s₁.pfngsd p = 0 := hs₁ ▸ hg
      rcases (hL _ hv').wrpte_cases (room n).1 hz hb with ⟨hw, -, -⟩ | ⟨old, s₂, hw, hs₂, hled⟩
      · rw [hw]
        exact (hL _ hv').deallocpfn hv' hg₁
      · rw [hw]
        dsimp only
        have hfree := hled.freeold
        split_ifs with hkw
        · exact ih hfree hnext
        · -- the PTE just written gets its protection
          have hslot : (Mem.freeold s₂ (some old)).ptes (slotOf cur page) = ⟨KW, p⟩ := by
            rw [ptes_freeold, hs₂, if_neg hkw]
            simp [Sys.setPte]
          unfold wrpte
          split_ifs with hno
          · exact hfree
          · refine ih (hfree.rewrite ?_ (fun _ => by rw [hslot]) fun h => absurd h hz) hnext
            rw [hslot]
            exact (show isValid low = isValid KW from hv)

theorem delpag (h : Ledger b s hand) (hc : ∀ j < n, Clear b cur (page + j)) :
    Ledger b (delpag cur n page s) hand := by
  induction n generalizing s page with
  | zero => exact h
  | succ n ih =>
    obtain ⟨⟨hz, hb⟩, hnext⟩ := Clear.split hc
    have hzero : Ledger b s (.zero :: hand) := (invalid_iff (by decide)).mpr h
    exact ih (hzero.setPte hz hb).freeold hnext

theorem setprt (h : Ledger b s hand) (hv : isValid low) (hroom : ∀ k, room k = true) :
    Ledger b (setprt cur low room n page s) hand := by
  induction n generalizing s page with
  | zero => exact h
  | succ n ih =>
    have hw : ∀ (t : Sys) (e : Pte) (k : ℕ), wrpte t cur page e (room k) =
        (some (t.ptes (slotOf cur page)), t.setPte (slotOf cur page) e) := fun t e k => by
      simp [wrpte, hroom]
    have hw0 : wrpte s cur page .zero true =
        (some (s.ptes (slotOf cur page)), s.setPte (slotOf cur page) .zero) := by
      simp [wrpte]
    unfold Mem.setprt
    rw [hw0]
    dsimp only
    split_ifs with hold
    · rw [hw]
      have htwice : (s.setPte (slotOf cur page) .zero).setPte (slotOf cur page)
          ⟨low, (s.ptes (slotOf cur page)).pfn⟩ =
          s.setPte (slotOf cur page) ⟨low, (s.ptes (slotOf cur page)).pfn⟩ := by simp [Sys.setPte]
      rw [htwice]
      refine ih (h.rewrite ?_ (fun _ => rfl) fun hz => ?_)
      · rw [hold]
        exact hv
      · rw [hz, h.zero] at hold
        exact absurd hold (by decide)
    · refine ih (h.rewrite ?_ (fun hz => absurd hz (by decide)) fun _ => rfl)
      rw [Bool.not_eq_true] at hold
      rw [hold]
      rfl

/-! ## Sections -/

theorem sections_crepag {room : ℕ → Bool × Bool} : (Mem.crepag cur low room n page s).2.sections ⊆ s.sections := by
  induction n generalizing s page with
  | zero => exact subset_rfl
  | succ n ih =>
    have halloc : (Mem.allocpfn s).2.sections = s.sections := by
      unfold Mem.allocpfn
      split_ifs
      · rfl
      · cases s.free <;> rfl
    have hw : ∀ {t t' : Sys} {e : Pte} {r o}, wrpte t cur page e r = (o, t') → t'.sections = t.sections := by
      intro t t' e r o h
      rw [← congrArg (·.2.sections) h]
      unfold wrpte
      split_ifs <;> rfl
    unfold Mem.crepag
    dsimp only
    by_cases hp : (Mem.allocpfn s).1 = 0
    · rw [if_pos hp]
      exact halloc.subset
    · rw [if_neg hp]
      split
      · next t ht => exact ((hw ht).trans halloc).subset
      · next old t ht =>
        have hfree := (sections_freeold (some old)).trans ((hw ht).trans halloc).subset
        split_ifs
        · exact ih.trans hfree
        · split
          · next t' ht' => exact (hw ht').subset.trans hfree
          · next t' ht' => exact ih.trans ((hw ht').subset.trans hfree)

theorem growpool (h : Ledger b s hand) (cur bytes : ℕ) (room : ℕ → Bool × Bool) :
    Ledger b (growpool s cur bytes room).2 hand ∧ (Mem.growpool s cur bytes room).2.sections ⊆ s.sections := by
  unfold Mem.growpool
  dsimp only
  split_ifs with hfull
  · exact ⟨h, subset_rfl⟩
  · have hc : ∀ j < roundPages bytes / PAGESIZE, Clear b cur (s.npagnext / PAGESIZE + j) := by
      intro j hj
      obtain ⟨hlo, hhi⟩ := h.pool
      have happ := h.apart
      simp only [PAGESIZE, POOL_END] at hfull hj hhi happ ⊢
      constructor
      · unfold slotOf zeroSlot ZEROVA
        split_ifs <;> simp only [ne_eq, Slot.mk.injEq, reduceCtorEq, true_and, false_and, not_false_eq_true]
        omega
      · unfold slotOf
        split_ifs <;> simp only [ne_eq, Slot.mk.injEq, reduceCtorEq, true_and, false_and, not_false_eq_true]
        omega
    have hcre : Ledger b (Mem.crepag cur KW room _ _ s).2 hand := h.crepag rfl hc
    have hsec : (Mem.crepag cur KW room (roundPages bytes / PAGESIZE) (s.npagnext / PAGESIZE) s).2.sections ⊆
        s.sections := sections_crepag
    generalize Mem.crepag cur KW room _ _ s = r at hcre hsec
    obtain ⟨st, t⟩ := r
    cases st
    case normal =>
      refine ⟨{ hcre with pool := ?_ }, hsec⟩
      exact ⟨hcre.pool.1.trans (Nat.le_add_right _ _), hcre.pool.2⟩
    all_goals exact ⟨hcre, hsec⟩

theorem alononpaged (h : Ledger b s hand) (cur size : ℕ) (get : PoolGet) :
    Ledger b (alononpaged s cur size get).2 hand ∧ (Mem.alononpaged s cur size get).2.sections ⊆ s.sections ∧
      ∀ g ∈ (Mem.alononpaged s cur size get).1, g = get.addr := by
  unfold Mem.alononpaged
  by_cases hfits : get.fits
  · rw [if_pos hfits]
    exact ⟨h, subset_rfl, fun g hg => (Option.mem_some.mp hg).symm⟩
  · rw [if_neg hfits]
    have hgrow := h.growpool cur (max size POOL_GROW) get.room
    generalize Mem.growpool s cur (max size POOL_GROW) get.room = r at hgrow
    obtain ⟨st, t⟩ := r
    cases st
    case normal =>
      refine ⟨hgrow.1, hgrow.2, fun g hg => ?_⟩
      dsimp only at hg
      split_ifs at hg
      · exact (Option.mem_some.mp hg).symm
      · cases hg
    all_goals exact ⟨hgrow.1, hgrow.2, fun g hg => absurd hg (by simp)⟩

theorem zeropfn_eq {room : Bool} (h : s.ptes zeroSlot = .zero) : zeropfn s p room = s := by
  have hslot : slotOf 0 ZEROVA = zeroSlot := by decide
  have hclear : ∀ t : Sys, (wrpte t 0 ZEROVA .zero true).2 = t.setPte zeroSlot .zero := fun t => by
    simp [wrpte, hslot]
  rw [zeropfn, hclear]
  unfold wrpte
  rw [hslot]
  split_ifs <;> simp only [Sys.setPte, update_idem, ← h, update_eq_self]

theorem makePages (h : Ledger b s hand) (room : ℕ → Bool) (n : ℕ) (hg : g ∈ s.sections)
    (hlen : (s.gsd g).pfns.length + n ≤ 2 ^ 18) :
    Ledger b (makePages g room n s).2 hand ∧ g ∈ (Mem.makePages g room n s).2.sections ∧
      (Mem.makePages g room n s).2.gsdhd = s.gsdhd := by
  induction n generalizing s with
  | zero => exact ⟨h, hg, rfl⟩
  | succ n ih =>
    unfold Mem.makePages
    rcases h.allocpfn with heq | ⟨p, free, freecnt, high, heq, hp0, hpg, hL⟩
    · rw [heq]
      exact ⟨h, hg, rfl⟩
    · rw [heq]
      simp only [hp0, if_false]
      have hadd := (hL KW rfl).addPage rfl hp0 hpg hg (by
        change (s.gsd g).pfns.length < _
        omega)
      rw [zeropfn_eq hadd.zero]
      refine ih hadd hg ?_
      simp only [Mem.addPage, Sys.setGsd, update_self, length_append, length_singleton]
      omega

/-- A range of P0 or of P1. -/
def Region (page n : ℕ) : Prop := (1 ≤ page ∧ page < 0x40000 ∧ page + n ≤ 0x40000) ∨ 0x60000 ≤ page

theorem clear_of_region (h : Region page n) : ∀ j < n, Clear b cur (page + j) := by
  intro j hj
  have hs0 : isS0 (page + j) = false := by
    simp only [isS0, decide_eq_false_iff_not]
    unfold Region at h
    omega
  have hslot : slotOf cur (page + j) = ⟨some cur, page + j⟩ := by simp [slotOf, hs0]
  exact ⟨by simp [hslot, zeroSlot], by simp [hslot]⟩

theorem region_inadr (h : inadr a = .ok (page, n)) : Region page n := by
  unfold inadr at h
  dsimp only at h
  split_ifs at h with _ hlow hp0 hp1
  all_goals
    cases h
    simp only [PAGESIZE, P0BASE, S0BASE] at hlow hp0
    unfold Region PAGESIZE
  · omega
  · simp only [PAGESIZE, P1BASE] at hp1
    omega

section
variable {done : Status} (h : Ledger b s hand)
include h

theorem region_pastRegion {m : ℕ} (hpos : 0 < m) (hm : m ≤ 2 ^ 18)
    (hr : pastRegion s a m = .ok (page, n)) : Region page n := by
  have h0 := h.p0 a.cur
  have h1 := h.p1 a.cur
  unfold pastRegion at hr
  dsimp only at hr
  split_ifs at hr with _ _ hfull hfull
  all_goals
    cases hr
    simp only [PAGESIZE, P0BASE, S0BASE, P1BASE] at hfull h0 h1
    unfold Region PAGESIZE
    omega

theorem grow (hr : Region page n) : Ledger b (grow s cur page n) hand := by
  unfold Mem.grow Region at *
  have h0 := h.p0
  have h1 := h.p1
  split_ifs with hlow hin hin
  · exact h
  · refine { h with p0 := fun c => ?_ }
    by_cases hc : c = cur
    · rw [hc]
      simp only [update_self, P0BASE, S0BASE, PAGESIZE] at hlow ⊢
      omega
    · simp only [update_of_ne hc]
      exact h0 c
  · exact h
  · refine { h with p1 := fun c => ?_ }
    by_cases hc : c = cur
    · have := h1 cur
      rw [hc]
      simp only [update_self, P1BASE, S0BASE, PAGESIZE] at hlow hin this ⊢
      omega
    · simp only [update_of_ne hc]
      exact h1 c

theorem mapPages {ps : List ℕ} (hg : g ∈ s.sections)
    (hps : ∀ p ∈ ps, p ∈ (s.gsd g).pfns) (hv : isValid low) (hroom : ∀ k, room k = true)
    (hc : ∀ j < ps.length, Clear b cur (page + j)) :
    Ledger b (mapPages cur g low room ps page s) hand ∧ g ∈ (Mem.mapPages cur g low room ps page s).sections := by
  induction ps generalizing s page with
  | nil => exact ⟨h, hg⟩
  | cons p ps ih =>
    obtain ⟨⟨hz, hb⟩, hnext⟩ := Clear.split hc
    obtain ⟨hp, hps'⟩ := forall_mem_cons.mp hps
    have hincl := h.incl hv hg hp
    unfold Mem.mapPages
    dsimp only
    generalize hs₁ : s.setGsd g (fun G => { G with refcnt := G.refcnt + 1 }) = s₁ at hincl
    have hg₁ : g ∈ s₁.sections := hs₁ ▸ hg
    have hpfns₁ : (s₁.gsd g).pfns = (s.gsd g).pfns := by
      rw [← hs₁]
      simp [Sys.setGsd]
    rcases hincl.wrpte_cases (room ps.length) hz hb with ⟨-, -, hno⟩ | ⟨old, s₂, hw, hs₂, hled⟩
    · rw [hroom] at hno
      cases hno
    · rw [hw]
      have hg₂ : g ∈ s₂.sections := hs₂ ▸ hg₁
      have hpfns₂ : (s₂.gsd g).pfns = (s.gsd g).pfns := by
        rw [hs₂]
        exact hpfns₁
      -- the PTE just written keeps the section
      have hrefers : refers s₂.pfngsd g (s₂.ptes (slotOf cur page)) := by
        have hown : s₂.pfngsd p = g := hled.owner g hg₂ p (hpfns₂ ▸ hp)
        have hpte : s₂.ptes (slotOf cur page) = ⟨low, p⟩ := by
          rw [hs₂]
          simp [Sys.setPte]
        rw [hpte, refers_mk hv, hown]
        exact beq_self_eq_true g
      obtain ⟨hg₃, hpfns₃⟩ := hled.section_freeold hg₂ (tally_pos hled.finite_refers hrefers)
      refine ih hled.freeold hg₃ (fun q hq => ?_) hnext
      rw [hpfns₃, hpfns₂]
      exact hps' q hq

theorem mapgsd (hg : g ∈ s.sections) (hroom : ∀ k, room k = true) :
    Ledger b (mapgsd s a g room).2 hand ∧ g ∈ (Mem.mapgsd s a g room).2.sections := by
  unfold Mem.mapgsd
  dsimp only
  by_cases h1 : a.relpag ≥ (s.gsd g).pfns.length
  · rw [if_pos h1]
    exact ⟨h, hg⟩
  rw [if_neg h1]
  by_cases h2 : (a.wrt ∧ ¬(s.gsd g).wrt) ∨ ¬a.allowed
  · rw [if_pos h2]
    exact ⟨h, hg⟩
  · rw [if_neg h2]
    have hpos : 0 < ((s.gsd g).pfns.drop a.relpag).length := by
      rw [length_drop]
      omega
    have hm : ((s.gsd g).pfns.drop a.relpag).length ≤ 2 ^ 18 := by
      rw [length_drop]
      exact (Nat.sub_le _ _).trans (h.size g hg)
    generalize hr : (if a.expreg then pastRegion s a ((s.gsd g).pfns.drop a.relpag).length else inadr a) = r
    rcases r with st | ⟨page, n⟩
    · exact ⟨h, hg⟩
    · have hregion : Region page n := by
        split_ifs at hr
        exacts [h.region_pastRegion hpos hm hr, region_inadr hr]
      have hle : (((s.gsd g).pfns.drop a.relpag).take n).length ≤ n := length_take_le _ _
      have hregion' : Region page (((s.gsd g).pfns.drop a.relpag).take n).length := by
        unfold Region at hregion ⊢
        omega
      have hgsd : ∀ c p m, (Mem.grow s c p m).gsd = s.gsd ∧ (Mem.grow s c p m).sections = s.sections := by
        intro c p m
        unfold Mem.grow
        split_ifs <;> exact ⟨rfl, rfl⟩
      refine (h.grow hregion').mapPages ((hgsd _ _ _).2 ▸ hg) (fun p hp => ?_) ?_ hroom (clear_of_region hregion')
      · rw [(hgsd _ _ _).1]
        exact mem_of_mem_drop (mem_of_mem_take hp)
      · split_ifs <;> rfl

theorem mapNew (hg : g ∈ s.sections) (hroom : ∀ k, room k = true) : Ledger b (mapNew s a g room done).2 hand := by
  have hmap := h.mapgsd (a := a) hg hroom
  unfold Mem.mapNew
  generalize Mem.mapgsd s a g room = r at hmap
  obtain ⟨st, t⟩ := r
  cases st <;> exact hmap.1.chkgsd hmap.2

theorem mem_of_findgsd {name : List UInt8} (hf : findgsd s a name = some g) : g ∈ s.sections :=
  h.listed g (mem_of_find?_eq_some hf)

theorem crmpsc {get : SecGets} (hcnt : a.pagcnt ≤ 2 ^ 18)
    (h0 : get.pool.addr ≠ 0) (hnew : get.pool.addr ∉ s.sections) (hroom : ∀ k, get.map k = true) :
    Ledger b (crmpsc s a get).2 hand := by
  unfold Mem.crmpsc
  dsimp only
  split_ifs
  all_goals try exact h
  generalize gsdargs { a with wrt := true } = r
  rcases r with st | name
  · exact h
  dsimp only
  cases hf : findgsd s { a with wrt := true } name with
  | some g =>
    dsimp only
    split_ifs
    · exact h.mapNew (h.mem_of_findgsd hf) hroom
    · exact h
  | none =>
    dsimp only
    obtain ⟨hpool, hsec, haddr⟩ := h.alononpaged a.cur (4 * a.pagcnt + GSDLENGTH) get.pool
    generalize Mem.alononpaged s a.cur (4 * a.pagcnt + GSDLENGTH) get.pool = r at hpool hsec haddr
    obtain ⟨o, t⟩ := r
    cases o with
    | none => exact hpool
    | some g =>
      obtain rfl : g = get.pool.addr := haddr g rfl
      have hmade := (hpool.newSection (fun hg => hnew (hsec hg)) h0 (G := SecArgs.gsd { a with wrt := true } name)
        rfl rfl).makePages get.zero a.pagcnt (Finset.mem_insert_self _ _)
          (by simpa [Sys.setGsd, SecArgs.gsd] using hcnt)
      dsimp only
      generalize hr : Mem.makePages _ get.zero a.pagcnt _ = r at hmade
      obtain ⟨ok, t'⟩ := r
      cases ok with
      | false => exact hmade.1.chkgsd hmade.2.1
      | true =>
        obtain ⟨hled, hg, hlist⟩ := hmade
        have hfresh : get.pool.addr ∉ t'.gsdhd := fun hin => hnew (hsec (hpool.listed _ (hlist ▸ hin)))
        refine (Ledger.mapNew { hled with listed := ?_, nodup := ?_ } hg hroom)
        · simp only [mem_append, mem_singleton]
          rintro x (hx | rfl)
          exacts [hled.listed x hx, hg]
        · exact nodup_append.mpr ⟨hled.nodup, nodup_singleton _, by
            simpa using fun x hx (heq : x = get.pool.addr) => hfresh (heq ▸ hx)⟩

theorem mgblsc (hroom : ∀ k, room k = true) : Ledger b (mgblsc s a room).2 hand := by
  unfold Mem.mgblsc
  split_ifs
  · exact h
  rcases gsdargs a with st | name
  · exact h
  dsimp only
  cases hf : findgsd s a name with
  | none => exact h
  | some g =>
    dsimp only
    split_ifs
    · exact (h.mapgsd (h.mem_of_findgsd hf) hroom).1
    · exact h

theorem dgblsc : Ledger b (dgblsc s a).2 hand := by
  unfold Mem.dgblsc
  split_ifs
  · exact h
  rcases gsdargs a with st | name
  · exact h
  dsimp only
  cases hf : findgsd s a name with
  | none => exact h
  | some g =>
    dsimp only
    split_ifs
    exacts [h, h.unlist.chkgsd (h.mem_of_findgsd hf), h]

end

end Ledger

end Mem
