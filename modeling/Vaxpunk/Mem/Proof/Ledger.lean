/-
  Who owns each page.

  A PTE that WRPTE replaced, or that is about to be written, is in hand: it
  counts like one that is in a table.  Every routine keeps the books balanced,
  with the PTEs it has in hand at each point.
-/
import Vaxpunk.Lib.Tally
import Vaxpunk.Mem.Sections

namespace Mem

open Tally List Function Function Pte

variable {b : ℕ} {s s' : Sys} {hand : List Pte} {p g : ℕ} {e : Pte} {low : BitVec 32} {i : Slot}

def Pte.maps (p : ℕ) (e : Pte) : Bool := e.valid && e.pfn == p

/-- The PTE maps a page of the section `g`, by the sections `own` gives. -/
def refers (own : ℕ → ℕ) (g : ℕ) (e : Pte) : Bool := e.valid && own e.pfn == g

/-- DELCON is set: `p` was deleted while it was locked. -/
def Sys.Deleted (s : Sys) (p : ℕ) : Prop := DELCON ≤ s.pfnrefcnt p

instance : Decidable (s.Deleted p) := inferInstanceAs (Decidable (_ ≤ _))

theorem maps_mk {q : ℕ} (hv : isValid low) : (⟨low, p⟩ : Pte).maps q = (p == q) := by
  simp [maps, valid, hv]

theorem refers_mk {own : ℕ → ℕ} (hv : isValid low) : refers own g ⟨low, p⟩ = (own p == g) := by
  simp [refers, valid, hv]

theorem tally_refers_update {own : ℕ → ℕ} {f : Slot → Pte} {x : ℕ} (hfin : {i | (f i).maps p}.Finite)
    (h0 : tally f hand (maps p) = 0) :
    tally f hand (refers (update own p x) g) = tally f hand (refers own g) := by
  have hsame : ∀ e : Pte, e.maps p = false → refers (update own p x) g e = refers own g e := by
    intro e he
    by_cases hv : e.valid
    · have hne : e.pfn ≠ p := fun heq => by simp [maps, hv, heq] at he
      simp [refers, update_of_ne hne]
    · simp [refers, hv]
  obtain ⟨hf, hh⟩ := (tally_eq_zero hfin).mp h0
  exact tally_congr (fun i => hsame _ (hf i)) fun e he => hsame e (hh e he)

theorem ptes_setPte {j : Slot} : (s.setPte i e).ptes j = if j = i then e else s.ptes j := by
  simp [Sys.setPte, update_apply]

theorem gsd_setGsd {f : Gsd → Gsd} {x : ℕ} : (s.setGsd g f).gsd x = if x = g then f (s.gsd g) else s.gsd x := by
  simp [Sys.setGsd, update_apply]

def zeroSlot : Slot := ⟨none, ZEROVA⟩

/-- The books, with some PTEs in hand.  PFN 0 is the boot's, mapped at the page
    `b` of S0. -/
structure Ledger (b : ℕ) (s : Sys) (hand : List Pte) : Prop where
  finite : {i | (s.ptes i).valid}.Finite
  bound : ∀ i, (s.ptes i).valid → (s.ptes i).pfn < s.maxpfn
  inHand : ∀ e ∈ hand, e.valid → e.pfn < s.maxpfn
  high : s.highpfn ≤ s.maxpfn
  free : ∀ p ∈ s.free, p < s.maxpfn
  count : s.freecnt = s.free.length + (s.maxpfn - s.highpfn)
  /-- A page of no section is in one place. -/
  once : ∀ p < s.maxpfn, s.pfngsd p = 0 → s.free.count p + (if s.highpfn ≤ p then 1 else 0) +
    tally s.ptes hand (maps p) + (if s.Deleted p then 1 else 0) = 1
  /-- A page of a section is in no other place. -/
  page : ∀ p, s.pfngsd p ≠ 0 → p < s.highpfn ∧ p ∉ s.free ∧ ¬s.Deleted p ∧
    s.pfngsd p ∈ s.sections ∧ (s.gsd (s.pfngsd p)).pfns.count p = 1
  owner : ∀ g ∈ s.sections, ∀ p ∈ (s.gsd g).pfns, s.pfngsd p = g
  refcnt : ∀ g ∈ s.sections, (s.gsd g).refcnt = tally s.ptes hand (refers s.pfngsd g)
  ne_zero : 0 ∉ s.sections
  word : ∀ p, s.pfnrefcnt p < 2 ^ 16 ∧ s.pfnrefcnt p ≠ DELCON
  locked : ∀ p, s.pfnrefcnt p ≠ 0 → p < s.maxpfn
  listed : ∀ g ∈ s.gsdhd, g ∈ s.sections
  nodup : s.gsdhd.Nodup
  zero : s.ptes zeroSlot = .zero
  boot : (s.ptes ⟨none, b⟩).maps 0 ∧ s.pfngsd 0 = 0
  size : ∀ g ∈ s.sections, (s.gsd g).pfns.length ≤ 2 ^ 18
  pool : s.npagedyn ≤ s.npagnext ∧ s.npagedyn + s.npagevir ≤ POOL_END
  apart : b < s.npagedyn / PAGESIZE ∨ POOL_END / PAGESIZE ≤ b
  p0 : ∀ cur, P0BASE ≤ s.frep0va cur ∧ s.frep0va cur ≤ S0BASE
  p1 : ∀ cur, P1BASE ≤ s.frep1va cur ∧ s.frep1va cur ≤ 2 ^ 31

namespace Ledger

theorem inHand_tail (h : Ledger b s (e :: hand)) : ∀ e ∈ hand, e.valid → e.pfn < s.maxpfn :=
  fun e' he => h.inHand e' (mem_cons_of_mem _ he)

section
variable (h : Ledger b s hand)
include h

theorem finite_maps : {i | (s.ptes i).maps p}.Finite :=
  h.finite.subset fun _ hi => (Bool.and_eq_true_iff.mp hi).1

theorem finite_refers : {i | refers s.pfngsd g (s.ptes i)}.Finite :=
  h.finite.subset fun _ hi => (Bool.and_eq_true_iff.mp hi).1

theorem alone (hp : p < s.maxpfn) (hg : s.pfngsd p = 0) (hpos : 0 < tally s.ptes hand (maps p)) :
    p ∉ s.free ∧ p < s.highpfn ∧ ¬s.Deleted p ∧ tally s.ptes hand (maps p) = 1 := by
  have honce := h.once p hp hg
  have hfree : s.free.count p = 0 := by omega
  refine ⟨count_eq_zero.mp hfree, ?_, ?_, by omega⟩
  · by_contra hhigh
    rw [if_pos (by omega)] at honce
    omega
  · intro hdel
    rw [if_pos hdel] at honce
    omega

theorem pfn_zero : 0 ∉ s.free ∧ 0 < s.highpfn := by
  have hvalid : (s.ptes ⟨none, b⟩).valid := (Bool.and_eq_true_iff.mp h.boot.1).1
  have hpfn : (s.ptes ⟨none, b⟩).pfn = 0 := by simpa using (Bool.and_eq_true_iff.mp h.boot.1).2
  have h0 : 0 < s.maxpfn := hpfn ▸ h.bound _ hvalid
  have halone := h.alone h0 h.boot.2 (tally_pos h.finite_maps h.boot.1)
  exact ⟨halone.1, halone.2.1⟩

theorem words {w : ℕ} (hp : p < s.maxpfn) (hw : w < 2 ^ 16 ∧ w ≠ DELCON) :
    (∀ q, update s.pfnrefcnt p w q < 2 ^ 16 ∧ update s.pfnrefcnt p w q ≠ DELCON) ∧
      ∀ q, update s.pfnrefcnt p w q ≠ 0 → q < s.maxpfn := by
  rw [← forall_and]
  intro q
  by_cases hq : q = p
  · subst hq
    rw [update_self]
    exact ⟨hw, fun _ => hp⟩
  · rw [update_of_ne hq]
    exact ⟨h.word q, h.locked q⟩

theorem word_once (hp : p < s.maxpfn) (hg : s.pfngsd p = 0) :
    s.free.count p + (if s.highpfn ≤ p then 1 else 0) + tally s.ptes hand (maps p) +
      (if DELCON ≤ s.pfnrefcnt p then 1 else 0) = 1 := h.once p hp hg

/-- **A page of no section changes its place.** -/
theorem move {high : ℕ} (hand' : List Pte) (free : List ℕ) (freecnt w : ℕ)
    (hp : p < s.maxpfn) (hg : s.pfngsd p = 0) (hin : ∀ e ∈ hand', e.valid → e.pfn < s.maxpfn)
    (hhand : ∀ Q : Pte → Bool, (∀ low, Q ⟨low, p⟩ = false) → tally s.ptes hand' Q = tally s.ptes hand Q)
    (hhigh : s.highpfn ≤ high ∧ high ≤ s.maxpfn) (hcount : freecnt = free.length + (s.maxpfn - high))
    (hw : w < 2 ^ 16 ∧ w ≠ DELCON) (hother : ∀ q ≠ p, free.count q = s.free.count q ∧ (high ≤ q ↔ s.highpfn ≤ q))
    (hone : free.count p + (if high ≤ p then 1 else 0) + tally s.ptes hand' (maps p) +
      (if DELCON ≤ w then 1 else 0) = 1) :
    Ledger b { s with
      free := free, freecnt := freecnt, highpfn := high, pfnrefcnt := update s.pfnrefcnt p w } hand' := by
  obtain ⟨hword, hlocked⟩ := h.words hp hw
  have hdel : ∀ q ≠ p, DELCON ≤ update s.pfnrefcnt p w q ↔ s.Deleted q := fun q hq => by
    rw [update_of_ne hq, Sys.Deleted]
  refine { h with
    inHand := hin
    high := hhigh.2
    free := ?_
    count := hcount
    once := ?_
    page := ?_
    refcnt := ?_
    word := hword
    locked := hlocked }
  · intro q hq
    by_cases hqp : q = p
    · exact hqp ▸ hp
    · exact h.free q (count_pos_iff.mp ((hother q hqp).1 ▸ count_pos_iff.mpr hq))
  · intro q hq hgq
    by_cases hqp : q = p
    · subst hqp
      simpa [Sys.Deleted] using hone
    · have hmaps := hhand (maps q) fun low => by simp [maps, Ne.symm hqp]
      simp only [Sys.Deleted, hdel q hqp, hother q hqp, hmaps]
      exact h.once q hq hgq
  · intro q hgq
    have hqp : q ≠ p := fun heq => hgq (heq ▸ hg)
    obtain ⟨h1, h2, h3, h4⟩ := h.page q hgq
    refine ⟨h1.trans_le hhigh.1, count_eq_zero.mp ?_, fun hd => h3 ((hdel q hqp).mp hd), h4⟩
    rw [(hother q hqp).1, count_eq_zero.mpr h2]
  · intro g hgs
    have hne : 0 ≠ g := fun heq => h.ne_zero (heq ▸ hgs)
    exact (h.refcnt g hgs).trans (hhand (refers s.pfngsd g) fun low => by simp [refers, hg, hne]).symm

theorem allocpfn : allocpfn s = (0, s) ∨
    ∃ p free freecnt high, allocpfn s = (p, { s with free := free, freecnt := freecnt, highpfn := high }) ∧
      p ≠ 0 ∧ s.pfngsd p = 0 ∧ ∀ low, isValid low →
      Ledger b { s with free := free, freecnt := freecnt, highpfn := high } (⟨low, p⟩ :: hand) := by
  have hcount := h.count
  have htake : ∀ {p free freecnt high} {low : BitVec 32}, isValid low → p < s.maxpfn → s.pfngsd p = 0 →
      s.highpfn ≤ high ∧ high ≤ s.maxpfn → freecnt = free.length + (s.maxpfn - high) →
      (∀ q ≠ p, free.count q = s.free.count q ∧ (high ≤ q ↔ s.highpfn ≤ q)) →
      free.count p + (if high ≤ p then 1 else 0) + 1 = s.free.count p + (if s.highpfn ≤ p then 1 else 0) →
      Ledger b { s with free := free, freecnt := freecnt, highpfn := high } (⟨low, p⟩ :: hand) := by
    intro p free freecnt high low hv hp hg hhigh hcount hother hp1
    have honce := h.word_once hp hg
    have hmoved := h.move (⟨low, p⟩ :: hand) _ _ (s.pfnrefcnt p) hp hg
      (forall_mem_cons.mpr ⟨fun _ => hp, h.inHand⟩) (fun Q hQ => by simp [tally_cons, hQ]) hhigh hcount (h.word p)
      hother (by simp only [tally_cons, maps_mk hv, beq_self_eq_true, if_true]; omega)
    rwa [update_eq_self] at hmoved
  unfold Mem.allocpfn
  split_ifs with hcnt
  · exact .inl rfl
  · right
    cases hfree : s.free with
    | cons p ps =>
      have hp : p ∈ s.free := hfree ▸ mem_cons_self
      have hg : s.pfngsd p = 0 := by
        by_contra hg
        exact (h.page p hg).2.1 hp
      have hp0 : p ≠ 0 := fun h0 => h.pfn_zero.1 (h0 ▸ hp)
      refine ⟨p, ps, s.freecnt - 1, s.highpfn, rfl, hp0, hg, fun low hv => ?_⟩
      refine htake hv (h.free p hp) hg ⟨le_rfl, h.high⟩ ?_ (fun q hq => ⟨?_, Iff.rfl⟩) ?_
      · rw [hfree, length_cons] at hcount
        omega
      · rw [hfree, count_cons_of_ne hq.symm]
      · rw [hfree, count_cons_self]
        omega
    | nil =>
      have hhigh : s.highpfn < s.maxpfn := by
        rw [hfree, length_nil] at hcount
        have := h.high
        omega
      have hg : s.pfngsd s.highpfn = 0 := by
        by_contra hg
        exact lt_irrefl _ (h.page s.highpfn hg).1
      have hp0 : s.highpfn ≠ 0 := h.pfn_zero.2.ne'
      refine ⟨s.highpfn, [], s.freecnt - 1, s.highpfn + 1, rfl, hp0, hg, fun low hv => ?_⟩
      refine htake hv hhigh hg ⟨Nat.le_succ _, hhigh⟩ ?_ (fun q hq => ⟨by rw [hfree], by omega⟩) ?_
      · rw [hfree, length_nil] at hcount
        simp only [length_nil]
        omega
      · simp [hfree]

end

theorem give (h : Ledger b s (⟨low, p⟩ :: hand)) (hv : isValid low) (hg : s.pfngsd p = 0) :
    p < s.maxpfn ∧ p ∉ s.free ∧ p < s.highpfn ∧ ¬s.Deleted p ∧ tally s.ptes hand (maps p) = 0 := by
  have hp : p < s.maxpfn := h.inHand _ mem_cons_self hv
  have htally : tally s.ptes (⟨low, p⟩ :: hand) (maps p) = tally s.ptes hand (maps p) + 1 := by
    rw [tally_cons, maps_mk hv]
    simp
  obtain ⟨h1, h2, h3, h4⟩ := h.alone hp hg (by omega)
  exact ⟨hp, h1, h2, h3, by omega⟩

theorem tally_other {q : ℕ} (hv : isValid low) (hq : p ≠ q) :
    tally s.ptes (⟨low, p⟩ :: hand) (maps q) = tally s.ptes hand (maps q) := by
  rw [tally_cons, maps_mk hv]
  simp [hq]

theorem tally_refers (h : Ledger b s (⟨low, p⟩ :: hand)) (hv : isValid low) (hg : s.pfngsd p = 0)
    (hgs : g ∈ s.sections) :
    tally s.ptes (⟨low, p⟩ :: hand) (refers s.pfngsd g) = tally s.ptes hand (refers s.pfngsd g) := by
  have hne : s.pfngsd p ≠ g := fun heq => h.ne_zero (hg ▸ heq ▸ hgs)
  rw [tally_cons, refers_mk hv]
  simp [hne]

theorem deallocpfn (h : Ledger b s (⟨low, p⟩ :: hand)) (hv : isValid low) (hg : s.pfngsd p = 0) :
    Ledger b (deallocpfn s p) hand := by
  obtain ⟨hp, hfree, hhigh, hdel, htally⟩ := h.give hv hg
  have hmoved := h.move _ (p :: s.free) (s.freecnt + 1) (s.pfnrefcnt p) hp hg
    h.inHand_tail (fun Q hQ => by simp [tally_cons, hQ]) ⟨le_rfl, h.high⟩ ?_ (h.word p)
    (fun q hq => ⟨count_cons_of_ne hq.symm, Iff.rfl⟩) ?_
  · rwa [update_eq_self] at hmoved
  · rw [h.count, length_cons]
    omega
  · rw [count_cons_self, count_eq_zero.mpr hfree, htally, if_neg (by omega), if_neg (by exact hdel)]

theorem freepfn (h : Ledger b s (⟨low, p⟩ :: hand)) (hv : isValid low) (hg : s.pfngsd p = 0) :
    Ledger b (freepfn s p) hand := by
  unfold Mem.freepfn
  split_ifs with hlock
  · exact h.deallocpfn hv hg
  · obtain ⟨hp, hfree, hhigh, hdel, htally⟩ := h.give hv hg
    have hw : s.pfnrefcnt p < 2 ^ 15 := not_le.mp hdel
    have hor : s.pfnrefcnt p ||| DELCON = DELCON + s.pfnrefcnt p := by
      rw [Nat.or_comm]
      exact (Nat.two_pow_add_eq_or_of_lt (i := 15) hw 1).symm
    rw [hor]
    refine h.move _ _ _ _ hp hg h.inHand_tail (fun Q hQ => by simp [tally_cons, hQ]) ⟨le_rfl, h.high⟩ h.count ?_
      (fun _ _ => ⟨rfl, Iff.rfl⟩) ?_
    · unfold DELCON
      omega
    · rw [count_eq_zero.mpr hfree, htally, if_neg (by omega), if_pos (by omega)]

/-! ## PTEs -/

theorem setPte (h : Ledger b s (e :: hand)) (hz : i ≠ zeroSlot) (hb : i ≠ ⟨none, b⟩) :
    Ledger b (s.setPte i e) (s.ptes i :: hand) := by
  refine { h with
    finite := finite_update h.finite
    bound := ?_
    inHand := forall_mem_cons.mpr ⟨h.bound i, h.inHand_tail⟩
    once := fun q hq hg => ?_
    refcnt := fun g hgs => (h.refcnt g hgs).trans (tally_swap h.finite_refers).symm
    zero := by rw [ptes_setPte, if_neg hz.symm, h.zero]
    boot := by rw [ptes_setPte, if_neg hb.symm]; exact h.boot }
  · intro j hj
    rw [ptes_setPte] at hj ⊢
    split_ifs at hj ⊢
    exacts [h.inHand e mem_cons_self hj, h.bound j hj]
  · change _ + _ + tally (update s.ptes i e) (s.ptes i :: hand) (maps q) + _ = 1
    rw [tally_swap h.finite_maps]
    exact h.once q hq hg

theorem invalid_iff (he : e.valid = false) : Ledger b s (e :: hand) ↔ Ledger b s hand := by
  have hmaps : ∀ q, tally s.ptes (e :: hand) (maps q) = tally s.ptes hand (maps q) := fun q => by
    simp [tally_cons, maps, he]
  have hrefers : ∀ g, tally s.ptes (e :: hand) (refers s.pfngsd g) = tally s.ptes hand (refers s.pfngsd g) :=
    fun g => by simp [tally_cons, refers, he]
  constructor
  · intro h
    exact { h with
      inHand := h.inHand_tail
      once := fun q hq hg => hmaps q ▸ h.once q hq hg
      refcnt := fun g hgs => hrefers g ▸ h.refcnt g hgs }
  · intro h
    exact { h with
      inHand := forall_mem_cons.mpr ⟨fun hv => absurd hv (by simp [he]), h.inHand⟩
      once := fun q hq hg => (hmaps q).symm ▸ h.once q hq hg
      refcnt := fun g hgs => (hrefers g).symm ▸ h.refcnt g hgs }

/-- WRPTE of a PTE in hand: it is in its slot and the old one in hand, or, for
    want of room, it stays in hand. -/
theorem wrpte_cases {cur page : ℕ} (h : Ledger b s (e :: hand)) (room : Bool)
    (hz : slotOf cur page ≠ zeroSlot) (hb : slotOf cur page ≠ ⟨none, b⟩) :
    (wrpte s cur page e room = (none, s) ∧ e.mapped ∧ room = false) ∨
    ∃ old s', wrpte s cur page e room = (some old, s') ∧ s' = s.setPte (slotOf cur page) e ∧
      Ledger b s' (old :: hand) := by
  unfold wrpte
  split_ifs with hno
  · exact .inl ⟨rfl, hno.1, by simpa using hno.2⟩
  · exact .inr ⟨_, _, rfl, rfl, h.setPte hz hb⟩

/-! ## Sections -/

theorem ne_zero_of_mem (h : Ledger b s hand) (hg : g ∈ s.sections) : g ≠ 0 := fun h0 => h.ne_zero (h0 ▸ hg)

theorem lt_of_mem (h : Ledger b s hand) (hg : g ∈ s.sections) (hp : p ∈ (s.gsd g).pfns) : p < s.maxpfn := by
  have hne : s.pfngsd p ≠ 0 := h.owner g hg p hp ▸ h.ne_zero_of_mem hg
  exact (h.page p hne).1.trans_le h.high

theorem unmapped (h : Ledger b s hand) (hg : g ∈ s.sections) (h0 : (s.gsd g).refcnt = 0) (hp : s.pfngsd p = g) :
    tally s.ptes hand (maps p) = 0 := by
  have hnone := (tally_eq_zero h.finite_refers).mp ((h.refcnt g hg).symm.trans h0)
  have hmaps : ∀ e : Pte, refers s.pfngsd g e = false → e.maps p = false := by
    intro e he
    by_contra hm
    obtain ⟨hv, hpfn⟩ := Bool.and_eq_true_iff.mp (Bool.not_eq_false _ ▸ hm)
    simp only [beq_iff_eq] at hpfn
    simp [refers, hv, hpfn, hp] at he
  exact (tally_eq_zero h.finite_maps).mpr ⟨fun i => hmaps _ (hnone.1 i), fun e he => hmaps _ (hnone.2 e he)⟩

theorem unpage (h : Ledger b s hand) {ps : List ℕ} (hg : g ∈ s.sections) (h0 : (s.gsd g).refcnt = 0)
    (hps : (s.gsd g).pfns = p :: ps) :
    Ledger b { s.setGsd g (fun G => { G with pfns := ps }) with pfngsd := update s.pfngsd p 0 }
      (⟨KW, p⟩ :: hand) := by
  have hmem : p ∈ (s.gsd g).pfns := hps ▸ mem_cons_self
  have hown : s.pfngsd p = g := h.owner g hg p hmem
  have hg0 := h.ne_zero_of_mem hg
  obtain ⟨hhigh, hfree, hdel, -, hcount⟩ := h.page p (hown ▸ hg0)
  rw [hown, hps, count_cons_self, Nat.add_eq_right, count_eq_zero] at hcount
  have hpfngsd : ∀ q, update s.pfngsd p 0 q = if q = p then 0 else s.pfngsd q := fun q => by
    simp [update_apply]
  refine { h with
    inHand := forall_mem_cons.mpr ⟨fun _ => h.lt_of_mem hg hmem, h.inHand⟩
    once := ?_
    page := ?_
    owner := ?_
    refcnt := ?_
    boot := ⟨h.boot.1, by simp only [hpfngsd]; split_ifs; exacts [rfl, h.boot.2]⟩
    size := ?_ }
  · intro q hq hgq
    simp only [hpfngsd] at hgq
    change s.free.count q + (if s.highpfn ≤ q then 1 else 0) + tally s.ptes (⟨KW, p⟩ :: hand) (maps q) +
      (if s.Deleted q then 1 else 0) = 1
    by_cases hqp : p = q
    · subst hqp
      rw [tally_cons, maps_mk (by decide), h.unmapped hg h0 hown, count_eq_zero.mpr hfree,
        if_neg (by omega), if_neg hdel]
      simp
    · rw [if_neg (Ne.symm hqp)] at hgq
      rw [tally_other (by decide) hqp]
      exact h.once q hq hgq
  · intro q hgq
    simp only [hpfngsd] at hgq ⊢
    split_ifs at hgq ⊢ with hqp
    · exact absurd rfl hgq
    · obtain ⟨h1, h2, h3, h4, h5⟩ := h.page q hgq
      refine ⟨h1, h2, h3, h4, ?_⟩
      rw [gsd_setGsd]
      split_ifs with hx
      · rwa [hx, hps, count_cons_of_ne (Ne.symm hqp)] at h5
      · exact h5
  · intro x hx q hq
    simp only [hpfngsd]
    rw [gsd_setGsd] at hq
    split_ifs at hq with hxg
    · rw [if_neg (by rintro rfl; exact hcount hq), hxg]
      exact h.owner g hg q (hps ▸ mem_cons_of_mem p hq)
    · have hq' := h.owner x hx q hq
      rw [if_neg (fun hqp => hxg (by rw [← hq', hqp, hown])), hq']
  · intro x hx
    have hx0 : x ≠ 0 := h.ne_zero_of_mem hx
    change _ = tally s.ptes (⟨KW, p⟩ :: hand) (refers (update s.pfngsd p 0) x)
    rw [tally_cons, refers_mk (by decide), hpfngsd, if_pos rfl, if_neg (by simpa using hx0.symm), Nat.add_zero,
      tally_refers_update h.finite_maps (h.unmapped hg h0 hown), gsd_setGsd, ← h.refcnt x hx]
    split_ifs with hxg
    exacts [hxg ▸ rfl, rfl]
  · intro x hx
    rw [gsd_setGsd]
    split_ifs with hxg
    · have := h.size g hg
      rw [hps, length_cons] at this
      exact (Nat.le_succ _).trans this
    · exact h.size x hx

theorem addPage (h : Ledger b s (⟨low, p⟩ :: hand)) (hv : isValid low) (hp0 : p ≠ 0) (hp : s.pfngsd p = 0)
    (hg : g ∈ s.sections) (hlen : (s.gsd g).pfns.length < 2 ^ 18) : Ledger b (addPage s g p) hand := by
  obtain ⟨hmax, hfree, hhigh, hdel, htally⟩ := h.give hv hp
  have hg0 := h.ne_zero_of_mem hg
  have hnew : p ∉ (s.gsd g).pfns := fun hmem => hg0 (h.owner g hg p hmem ▸ hp)
  have hgsd : ∀ x, (Mem.addPage s g p).gsd x =
      if x = g then { s.gsd g with pfns := (s.gsd g).pfns ++ [p] } else s.gsd x := fun x => by
    simp [Mem.addPage, gsd_setGsd]
  have hpfngsd : ∀ q, (Mem.addPage s g p).pfngsd q = if q = p then g else s.pfngsd q := fun q => by
    simp [Mem.addPage, update_apply]
  refine { h with
    inHand := h.inHand_tail
    once := ?_
    page := ?_
    owner := ?_
    refcnt := ?_
    boot := ⟨h.boot.1, by rw [hpfngsd, if_neg hp0.symm]; exact h.boot.2⟩
    size := ?_ }
  · intro q hq hgq
    rw [hpfngsd] at hgq
    split_ifs at hgq with hqp
    · exact absurd hgq hg0
    · exact tally_other hv (Ne.symm hqp) ▸ h.once q hq hgq
  · intro q hgq
    rw [hpfngsd] at hgq ⊢
    split_ifs at hgq ⊢ with hqp
    · subst hqp
      refine ⟨hhigh, hfree, hdel, hg, ?_⟩
      rw [hgsd, if_pos rfl, count_append, count_eq_zero.mpr hnew]
      simp
    · obtain ⟨h1, h2, h3, h4, h5⟩ := h.page q hgq
      refine ⟨h1, h2, h3, h4, ?_⟩
      rw [hgsd]
      split_ifs with hx
      · rw [hx] at h5
        simp [count_append, h5, Ne.symm hqp]
      · exact h5
  · intro x hx q hq
    rw [hpfngsd]
    rw [hgsd] at hq
    split_ifs at hq with hxg
    · rcases mem_append.mp hq with hold | hlast
      · rw [if_neg (by rintro rfl; exact hnew hold), hxg]
        exact h.owner g hg q hold
      · rw [if_pos (mem_singleton.mp hlast), hxg]
    · have hq' := h.owner x hx q hq
      rw [if_neg (fun hqp => h.ne_zero_of_mem hx (by rw [← hq', hqp, hp])), hq']
  · intro x hx
    change _ = tally s.ptes hand (refers (update s.pfngsd p g) x)
    rw [tally_refers_update h.finite_maps htally, ← h.tally_refers hv hp hx, ← h.refcnt x hx, hgsd]
    split_ifs with hxg
    exacts [hxg ▸ rfl, rfl]
  · intro x hx
    rw [hgsd]
    split_ifs with hxg
    · simpa using hlen
    · exact h.size x hx

theorem newSection (h : Ledger b s hand) (hg : g ∉ s.sections) (hg0 : g ≠ 0) {G : Gsd} (hpfns : G.pfns = [])
    (hrefcnt : G.refcnt = 0) :
    Ledger b { s.setGsd g (fun _ => G) with sections := insert g s.sections } hand := by
  refine { h with
    page := ?_
    owner := ?_
    refcnt := ?_
    ne_zero := by simp [Ne.symm hg0, h.ne_zero]
    listed := fun x hx => Finset.mem_insert_of_mem (h.listed x hx)
    size := ?_ }
  · intro q hgq
    obtain ⟨h1, h2, h3, h4, h5⟩ := h.page q hgq
    refine ⟨h1, h2, h3, Finset.mem_insert_of_mem h4, ?_⟩
    have hne : s.pfngsd q ≠ g := fun heq => hg (heq ▸ h4)
    rw [gsd_setGsd, if_neg (by exact hne)]
    exact h5
  · intro x hx q hq
    rw [gsd_setGsd] at hq
    split_ifs at hq with hxg
    · simp [hpfns] at hq
    · exact h.owner x ((Finset.mem_insert.mp hx).resolve_left hxg) q hq
  · intro x hx
    rw [gsd_setGsd]
    split_ifs with hxg
    · rw [hrefcnt, hxg]
      have hnone : ∀ e : Pte, refers s.pfngsd g e = false := by
        intro e
        by_contra hr
        obtain ⟨-, hown⟩ := Bool.and_eq_true_iff.mp (Bool.not_eq_false _ ▸ hr)
        simp only [beq_iff_eq] at hown
        exact hg (hown ▸ (h.page e.pfn (hown ▸ hg0)).2.2.2.1)
      exact ((tally_eq_zero h.finite_refers).mpr ⟨fun i => hnone _, fun e _ => hnone e⟩).symm
    · exact h.refcnt x ((Finset.mem_insert.mp hx).resolve_left hxg)
  · intro x hx
    rw [gsd_setGsd]
    split_ifs with hxg
    · simp [hpfns]
    · exact h.size x ((Finset.mem_insert.mp hx).resolve_left hxg)

theorem forget (h : Ledger b (s.setGsd g fun G => { G with pfns := [] }) hand) (hg : g ∉ s.gsdhd) :
    Ledger b { s with sections := s.sections.erase g } hand := by
  have hgsd : ∀ x ≠ g, ((s.setGsd g fun G => { G with pfns := [] }).gsd x) = s.gsd x := fun x hx => by
    simp [Sys.setGsd, update_of_ne hx]
  refine { h with
    page := ?_
    owner := ?_
    refcnt := ?_
    ne_zero := fun h0 => h.ne_zero (Finset.mem_of_mem_erase h0)
    listed := fun x hx => Finset.mem_erase.mpr ⟨by rintro rfl; exact hg hx, h.listed x hx⟩
    size := ?_ }
  · intro q hgq
    obtain ⟨h1, h2, h3, h4, h5⟩ := h.page q hgq
    have hne : s.pfngsd q ≠ g := by
      intro heq
      change (((s.setGsd g fun G => { G with pfns := [] }).gsd (s.pfngsd q)).pfns).count q = 1 at h5
      simp [heq, Sys.setGsd] at h5
    refine ⟨h1, h2, h3, Finset.mem_erase.mpr ⟨hne, h4⟩, ?_⟩
    exact hgsd _ hne ▸ h5
  · intro x hx q hq
    obtain ⟨hne, hx⟩ := Finset.mem_erase.mp hx
    exact h.owner x hx q (by rw [hgsd x hne]; exact hq)
  · intro x hx
    obtain ⟨hne, hx⟩ := Finset.mem_erase.mp hx
    exact hgsd x hne ▸ h.refcnt x hx
  · intro x hx
    obtain ⟨hne, hx⟩ := Finset.mem_erase.mp hx
    exact hgsd x hne ▸ h.size x hx

theorem freePage_frame (s : Sys) (p : ℕ) : (freePage s p).gsd = s.gsd ∧
    (freePage s p).sections = s.sections ∧ (freePage s p).gsdhd = s.gsdhd := by
  unfold freePage Mem.freepfn
  split_ifs <;> exact ⟨rfl, rfl, rfl⟩

theorem freePages {ps : List ℕ} (h : Ledger b (s.setGsd g fun G => { G with pfns := ps }) hand)
    (hg : g ∈ s.sections) (h0 : (s.gsd g).refcnt = 0) :
    Ledger b ((ps.foldl freePage s).setGsd g fun G => { G with pfns := [] }) hand ∧
      (ps.foldl freePage s).gsdhd = s.gsdhd := by
  induction ps generalizing s with
  | nil => exact ⟨h, rfl⟩
  | cons p ps ih =>
    have hcomm : (freePage s p).setGsd g (fun G => { G with pfns := ps }) =
        Mem.freepfn { (s.setGsd g fun G => { G with pfns := p :: ps }).setGsd g (fun G => { G with pfns := ps }) with
          pfngsd := update s.pfngsd p 0 } p := by
      by_cases hlock : s.pfnrefcnt p = 0 <;>
        simp [freePage, Mem.freepfn, hlock, Sys.setGsd, Mem.deallocpfn]
    obtain ⟨hgsd, hsec, hhd⟩ := freePage_frame s p
    have hpfns : ((s.setGsd g fun G => { G with pfns := p :: ps }).gsd g).pfns = p :: ps := by
      simp [Sys.setGsd]
    have hun := h.unpage hg (by simpa [Sys.setGsd] using h0) hpfns
    have hnext : Ledger b ((freePage s p).setGsd g fun G => { G with pfns := ps }) hand := by
      rw [hcomm]
      exact hun.freepfn (by decide) (by simp)
    obtain ⟨h1, h2⟩ := ih hnext (hsec.symm ▸ hg) (hgsd.symm ▸ h0)
    exact ⟨h1, h2.trans hhd⟩

theorem unlist (h : Ledger b s hand) : Ledger b { s with gsdhd := s.gsdhd.erase g } hand :=
  { h with
    listed := fun x hx => h.listed x (mem_of_mem_erase hx)
    nodup := h.nodup.erase g }

theorem chkgsd (h : Ledger b s hand) (hg : g ∈ s.sections) : Ledger b (chkgsd s g) hand := by
  unfold Mem.chkgsd
  split_ifs with h0 hkeep
  · exact h
  · exact h
  · have hsame : Ledger b (Sys.setGsd { s with gsdhd := s.gsdhd.erase g } g
        fun G => { G with pfns := (s.gsd g).pfns }) hand := by
      simpa [Sys.setGsd] using h.unlist
    obtain ⟨h1, h2⟩ := hsame.freePages hg (not_not.mp h0)
    refine h1.forget ?_
    rw [h2]
    exact h.nodup.not_mem_erase

theorem recount (h : Ledger b s hand) (hand' : List Pte) (n : ℕ) (hg : g ∈ s.sections)
    (hhand : ∀ e ∈ hand', e.valid → e.pfn < s.maxpfn)
    (hmaps : ∀ q, s.pfngsd q ≠ g → tally s.ptes hand' (maps q) = tally s.ptes hand (maps q))
    (hrefers : ∀ x ≠ g, tally s.ptes hand' (refers s.pfngsd x) = tally s.ptes hand (refers s.pfngsd x))
    (hn : n = tally s.ptes hand' (refers s.pfngsd g)) :
    Ledger b (s.setGsd g fun G => { G with refcnt := n }) hand' := by
  have hpfns : ∀ x, ((s.setGsd g fun G => { G with refcnt := n }).gsd x).pfns = (s.gsd x).pfns := fun x => by
    by_cases hx : x = g <;> simp [Sys.setGsd, hx]
  refine { h with
    inHand := hhand
    once := fun q hq hgq => ?_
    page := fun q hgq => ?_
    owner := fun x hx q hq => h.owner x hx q (hpfns x ▸ hq)
    refcnt := fun x hx => ?_
    size := fun x hx => (hpfns x).symm ▸ h.size x hx }
  · have hne : s.pfngsd q ≠ g := fun heq => h.ne_zero_of_mem hg (heq ▸ hgq)
    exact (hmaps q hne).symm ▸ h.once q hq hgq
  · obtain ⟨h1, h2, h3, h4, h5⟩ := h.page q hgq
    exact ⟨h1, h2, h3, h4, (hpfns _).symm ▸ h5⟩
  · by_cases hxg : x = g
    · subst hxg
      simpa [Sys.setGsd] using hn
    · change _ = tally s.ptes hand' (refers s.pfngsd x)
      rw [hrefers x hxg, ← h.refcnt x hx]
      simp [Sys.setGsd, hxg]

theorem decl (h : Ledger b s (e :: hand)) (hv : e.valid) (hg : s.pfngsd e.pfn ≠ 0) :
    Ledger b (s.setGsd (s.pfngsd e.pfn) fun G => { G with refcnt := G.refcnt - 1 }) hand := by
  have hsec := (h.page _ hg).2.2.2.1
  have hcount := h.refcnt _ hsec
  rw [tally_cons, if_pos (by simp [refers, hv])] at hcount
  have hbase := h.recount hand ((s.gsd (s.pfngsd e.pfn)).refcnt - 1) hsec
    h.inHand_tail (fun q hq => ?_) (fun x hx => ?_) (by omega)
  · exact hbase
  · have hne : e.pfn ≠ q := fun heq => hq (heq ▸ rfl)
    simp [tally_cons, maps, hne]
  · simp [tally_cons, refers, hx.symm]

theorem incl (h : Ledger b s hand) (hv : isValid low) (hg : g ∈ s.sections) (hp : p ∈ (s.gsd g).pfns) :
    Ledger b (s.setGsd g fun G => { G with refcnt := G.refcnt + 1 }) (⟨low, p⟩ :: hand) := by
  have hown := h.owner g hg p hp
  have hbase := h.recount (⟨low, p⟩ :: hand) ((s.gsd g).refcnt + 1) hg
    (forall_mem_cons.mpr ⟨fun _ => h.lt_of_mem hg hp, h.inHand⟩) (fun q hq => ?_) (fun x hx => ?_) ?_
  · exact hbase
  · exact tally_other hv fun heq => hq (heq ▸ hown)
  · rw [tally_cons, refers_mk hv, hown]
    simp [hx.symm]
  · rw [tally_cons, refers_mk hv, hown, ← h.refcnt g hg]
    simp

theorem freeold (h : Ledger b s (e :: hand)) : Ledger b (freeold s (some e)) hand := by
  cases hv : e.valid with
  | false =>
    simp only [Mem.freeold, hv, Bool.false_eq_true, not_false_eq_true, if_true]
    exact (invalid_iff hv).mp h
  | true =>
    simp only [Mem.freeold, hv, not_true_eq_false, if_false]
    split_ifs with hg
    · exact Ledger.freepfn (show Ledger b s (⟨e.low, e.pfn⟩ :: hand) from h) hv hg
    · exact (h.decl hv hg).chkgsd (h.page _ hg).2.2.2.1

/-! ## Locks -/

theorem setLocks (h : Ledger b s hand) {w : ℕ} (hp : p < s.maxpfn) (hw : w < 2 ^ 16) (hne : w ≠ DELCON)
    (hdel : DELCON ≤ w ↔ s.Deleted p) :
    Ledger b { s with pfnrefcnt := update s.pfnrefcnt p w } hand := by
  have hsame : ∀ q, ({ s with pfnrefcnt := update s.pfnrefcnt p w } : Sys).Deleted q ↔ s.Deleted q := by
    intro q
    by_cases hq : q = p
    · subst hq
      simp only [Sys.Deleted, update_self]
      exact hdel
    · simp [Sys.Deleted, update_of_ne hq]
  obtain ⟨hword, hlocked⟩ := h.words hp ⟨hw, hne⟩
  refine { h with
    once := fun q hq hg => ?_
    page := fun q hg => ?_
    word := hword
    locked := hlocked }
  · have := h.once q hq hg
    simp only [hsame]
    exact this
  · obtain ⟨h1, h2, h3, h4⟩ := h.page q hg
    exact ⟨h1, h2, fun hd => h3 ((hsame q).mp hd), h4⟩

theorem lastLock (h : Ledger b s hand) (hp : p < s.maxpfn) (hd : s.Deleted p) : s.pfngsd p = 0 ∧
    Ledger b { s with pfnrefcnt := update s.pfnrefcnt p 0 } (⟨KW, p⟩ :: hand) := by
  have hg : s.pfngsd p = 0 := by
    by_contra hg
    exact (h.page p hg).2.2.1 hd
  have honce := h.once p hp hg
  rw [if_pos hd] at honce
  refine ⟨hg, h.move _ _ _ _ hp hg (forall_mem_cons.mpr ⟨fun _ => hp, h.inHand⟩) (fun Q hQ => by simp [tally_cons, hQ])
    ⟨le_rfl, h.high⟩ h.count (by decide) (fun _ _ => ⟨rfl, Iff.rfl⟩) ?_⟩
  have h0 : ¬DELCON ≤ 0 := by decide
  rw [tally_cons, maps_mk (by decide), if_pos (beq_self_eq_true p), if_neg h0]
  omega

theorem not_deleted (h : Ledger b s hand) (hv : (s.ptes i).valid) : ¬s.Deleted (s.ptes i).pfn := by
  by_cases hg : s.pfngsd (s.ptes i).pfn = 0
  · have hmaps : (s.ptes i).maps (s.ptes i).pfn := by simp [maps, hv]
    exact (h.alone (h.bound i hv) hg (tally_pos h.finite_maps hmaps)).2.2.1
  · exact (h.page _ hg).2.2.1

end Ledger

/-- The locks on a page, without DELCON. -/
def Sys.locks (s : Sys) (p : ℕ) : ℕ := s.pfnrefcnt p % DELCON

/-- As many locks are held as the list gives back. -/
def Held (s : Sys) (pfns : List ℕ) : Prop := ∀ p, pfns.count p ≤ s.locks p

namespace Ledger

theorem unlockPfn (h : Ledger b s hand) (hp : 0 < s.locks p) :
    Ledger b (unlockPfn s p) hand ∧ ∀ q, (unlockPfn s p).locks q = if q = p then s.locks p - 1 else s.locks q := by
  have hpos : s.pfnrefcnt p ≠ 0 := fun h0 => by simp [Sys.locks, h0] at hp
  have hmax := h.locked p hpos
  obtain ⟨hw, hne⟩ := h.word p
  have hdec : (s.pfnrefcnt p + (2 ^ 16 - 1)) % 2 ^ 16 = s.pfnrefcnt p - 1 := by omega
  simp only [Mem.unlockPfn, hdec]
  simp only [Sys.locks, DELCON] at hp hne
  by_cases hlast : s.pfnrefcnt p - 1 = DELCON
  · obtain ⟨hg, hl⟩ := h.lastLock hmax (p := p) (by simp only [Sys.Deleted, DELCON] at hlast ⊢; omega)
    rw [if_pos hlast]
    refine ⟨hl.deallocpfn (by decide) hg, fun q => ?_⟩
    simp only [Sys.locks, Mem.deallocpfn, update_apply]
    split_ifs
    · simp only [DELCON] at hlast ⊢
      omega
    · rfl
  · rw [if_neg hlast]
    refine ⟨h.setLocks hmax (by omega) hlast ?_, fun q => ?_⟩
    · simp only [Sys.Deleted, DELCON] at hlast ⊢
      omega
    · simp only [Sys.locks, update_apply]
      split_ifs
      · simp only [DELCON] at hlast ⊢
        omega
      · rfl

theorem unlock {pfns : List ℕ} (h : Ledger b s hand) (hheld : Held s pfns) : Ledger b (unlock s pfns) hand := by
  unfold Mem.unlock
  induction pfns generalizing s with
  | nil => exact h
  | cons p ps ih =>
    have hcount : ps.count p + 1 ≤ s.locks p := count_cons_self (a := p) ▸ hheld p
    have hp : 0 < s.locks p := Nat.lt_of_lt_of_le (Nat.succ_pos _) hcount
    obtain ⟨h1, hlocks⟩ := h.unlockPfn hp
    rw [foldl_cons]
    refine ih h1 fun q => ?_
    rw [hlocks]
    split_ifs with hq
    · rw [hq]
      exact Nat.le_sub_one_of_lt hcount
    · have := hheld q
      rwa [count_cons_of_ne (Ne.symm hq)] at this

theorem lockPages {cur enable n page : ℕ} {locked : List ℕ} (h : Ledger b s hand) (hheld : Held s locked) :
    Ledger b (lockPages cur enable n page locked s).2.2 hand := by
  induction n generalizing s page locked with
  | zero => exact h
  | succ n ih =>
    unfold Mem.lockPages
    dsimp only
    split_ifs with hbad hfull
    · exact h.unlock hheld
    · exact h.unlock hheld
    · push Not at hbad
      obtain ⟨hv, -, hmax⟩ := hbad
      have hdel := h.not_deleted hv
      generalize s.ptes (slotOf cur page) = e at hmax hdel hfull
      simp only [Sys.Deleted, DELCON] at hdel hfull
      have hinc : (s.pfnrefcnt e.pfn + 1) % 2 ^ 16 = s.pfnrefcnt e.pfn + 1 := by omega
      rw [hinc]
      refine ih (h.setLocks hmax ?_ ?_ ?_) fun q => ?_
      · omega
      · simp only [DELCON]
        omega
      · simp only [Sys.Deleted, DELCON]
        omega
      · have hq' := hheld q
        simp only [Sys.locks, DELCON] at hq' ⊢
        rw [count_append]
        by_cases hq : q = e.pfn
        · subst hq
          simp only [count_singleton_self, update_self]
          omega
        · simp only [update_of_ne hq]
          have hzero : [e.pfn].count q = 0 := count_eq_zero.mpr (by simpa using hq)
          omega

end Ledger

end Mem
