/-
  The logical immediates that `bitmask` finds are those of the architecture, and what
  the MOV of an immediate leaves in the register.
-/
import Vaxpunk.Lib.Arm64
import Vaxpunk.Vasm.Move

namespace Vasm

open Arm64 (Move Regs logicalImm cut)
open List BitVec Option Option

variable {v x : BitVec 64} {k m s i : ℕ}
variable {h : ℕ} {value : BitVec 64} {sf : BitVec 1} {rd : Reg}

/-! ## Bits -/

theorem getLsbD_ones (hh : h ≤ 64) :
    (1#64 <<< h - 1).getLsbD i = decide (i < h) := by
  have hval : (1#64 <<< h - 1).toNat = 2 ^ h - 1 := by
    rcases Nat.lt_or_eq_of_le hh with hlt | rfl
    · have hpow : 2 ^ h < 2 ^ 64 := Nat.pow_lt_pow_right (by omega) hlt
      have hpos := Nat.two_pow_pos h
      rw [toNat_sub, toNat_shiftLeft, toNat_ofNat, Nat.one_shiftLeft,
        Nat.mod_eq_of_lt hpow]
      simp
      omega
    · decide
  rw [← testBit_toNat, hval, Nat.testBit_two_pow_sub_one]

/-- The bits repeat every 2^k. -/
def Repeats (v : BitVec 64) (k : ℕ) : Prop := ∀ i < 64, v.getLsbD i = v.getLsbD (i % 2 ^ k)

theorem Repeats.mono {j : ℕ} (h : Repeats v j) (hjk : j ≤ k) : Repeats v k := by
  intro i hi
  have hlt : i % 2 ^ k < 64 := (Nat.mod_le _ _).trans_lt hi
  rw [h i hi, h _ hlt, Nat.mod_mod_of_dvd _ (Nat.pow_dvd_pow 2 hjk)]

theorem halves_eq (hh : h + h ≤ 64) :
    v &&& (1#64 <<< h - 1) = (v >>> h) &&& (1#64 <<< h - 1) ↔
      ∀ i < h, v.getLsbD i = v.getLsbD (h + i) := by
  constructor
  · intro heq i hi
    have hbit := congrArg (·.getLsbD i) heq
    simp only [getLsbD_and, getLsbD_ushiftRight, getLsbD_ones (by omega : h ≤ 64)] at hbit
    simpa [hi] using hbit
  · intro hall
    refine eq_of_getLsbD_eq fun i hi => ?_
    simp only [getLsbD_and, getLsbD_ushiftRight, getLsbD_ones (by omega : h ≤ 64)]
    by_cases hlt : i < h
    · rw [hall i hlt]
    · simp [hlt]

theorem repeats_half (hk : k < 6) (hv : Repeats v (k + 1)) :
    Repeats v k ↔ ∀ i < 2 ^ k, v.getLsbD i = v.getLsbD (2 ^ k + i) := by
  have hpow : 2 ^ (k + 1) = 2 ^ k + 2 ^ k := by ring
  have hle : 2 ^ (k + 1) ≤ 2 ^ 6 := Nat.pow_le_pow_right (by omega) (by omega)
  constructor
  · intro h i hi
    rw [h (2 ^ k + i) (by omega), Nat.add_mod_left, Nat.mod_eq_of_lt hi]
  · intro h i hi
    rw [hv i hi, hpow]
    have hmod : i % 2 ^ k = i % (2 ^ k + 2 ^ k) % 2 ^ k := by
      rw [← hpow, Nat.mod_mod_of_dvd _ (Nat.pow_dvd_pow 2 (by omega))]
    have hlt : i % (2 ^ k + 2 ^ k) < 2 ^ k + 2 ^ k := Nat.mod_lt _ (by positivity)
    rw [hmod]
    generalize i % (2 ^ k + 2 ^ k) = t at hlt
    rcases Nat.lt_or_ge t (2 ^ k) with ht | ht
    · rw [Nat.mod_eq_of_lt ht]
    · rw [Nat.mod_eq_sub_mod ht, Nat.mod_eq_of_lt (by omega), h (t - 2 ^ k) (by omega)]
      congr 1
      omega

/-- **The loop** ends with the smallest element that repeats. -/
theorem halve_spec (hk1 : 1 ≤ k) (hk : k ≤ 6) (hv : Repeats v k) :
    1 ≤ halve v k ∧ halve v k ≤ k ∧ Repeats v (halve v k) ∧
      (halve v k = 1 ∨ ¬ Repeats v (halve v k - 1)) := by
  induction k with
  | zero => omega
  | succ k ih =>
    cases k with
    | zero => exact ⟨le_rfl, le_rfl, hv, .inl rfl⟩
    | succ k =>
      have hle : 2 ^ (k + 1) ≤ 2 ^ 5 := Nat.pow_le_pow_right (by omega) (by omega)
      have hhalf := repeats_half (by omega) hv
      rw [← halves_eq (by omega)] at hhalf
      unfold halve
      simp only
      split_ifs with hne
      · exact ⟨by omega, le_rfl, hv, .inr fun h => hne (hhalf.mp h)⟩
      · obtain ⟨h₁, h₂, h₃⟩ := ih (by omega) (by omega) (hhalf.mpr (not_not.mp hne))
        exact ⟨h₁, by omega, h₃⟩

/-! ## Runs -/

/-- Elements of 2^k bits, each a run of `m` ones rotated to the right by `s`. -/
def IsRun (v : BitVec 64) (k m s : ℕ) : Prop :=
  ∀ i < 64, v.getLsbD i = decide ((i + s) % 2 ^ k < m)

theorem two_pow_le (hk : k ≤ 6) : 2 ^ k ≤ 64 := Nat.pow_le_pow_right (by omega) hk

theorem getLsbD_elemMask (hk : k ≤ 6) : (elemMask (2 ^ k)).getLsbD i = decide (i < 2 ^ k) := by
  unfold elemMask
  split_ifs with h
  · rw [h, getLsbD_allOnes]
  · exact getLsbD_ones (two_pow_le hk)

theorem getLsbD_rotr {r : ℕ} (hk : k ≤ 6) (hr : r < 2 ^ k) (hi : i < 64) :
    (rotr (2 ^ k) (v &&& elemMask (2 ^ k)) r).getLsbD i =
      (decide (i < 2 ^ k) && v.getLsbD ((i + r) % 2 ^ k)) := by
  have hle := two_pow_le hk
  unfold rotr
  split_ifs with h0
  · subst h0
    rw [getLsbD_and, getLsbD_elemMask hk, Bool.and_comm]
    by_cases hlt : i < 2 ^ k
    · rw [Nat.add_zero, Nat.mod_eq_of_lt hlt]
    · simp [hlt]
  · rw [getLsbD_and, getLsbD_elemMask hk, Bool.and_comm]
    by_cases hlt : i < 2 ^ k
    · congr 1
      rw [getLsbD_or, getLsbD_ushiftRight, getLsbD_shiftLeft]
      rcases Nat.lt_or_ge (i + r) (2 ^ k) with hin | hout
      · rw [Nat.mod_eq_of_lt hin, getLsbD_and, getLsbD_elemMask hk]
        simp [show i < 2 ^ k - r by omega, hin, Nat.add_comm r i]
      · rw [Nat.mod_eq_sub_mod hout, Nat.mod_eq_of_lt (by omega)]
        have hleft : (v &&& elemMask (2 ^ k)).getLsbD (r + i) = false := by
          rw [getLsbD_and, getLsbD_elemMask hk]
          simp [show ¬ r + i < 2 ^ k by omega]
        rw [hleft, getLsbD_and, getLsbD_elemMask hk]
        simp [hi, show ¬ i < 2 ^ k - r by omega, show i + r - 2 ^ k < 2 ^ k by omega,
          show i - (2 ^ k - r) = i + r - 2 ^ k by omega]
    · simp [hlt]

theorem isRun_of_rotr {r ones : ℕ} (hk : k ≤ 6) (hv : Repeats v k) (hones : ones ≤ 64) (hr : r < 2 ^ k)
    (h : rotr (2 ^ k) (v &&& elemMask (2 ^ k)) r = 1#64 <<< ones - 1) :
    IsRun v k ones ((2 ^ k - r) % 2 ^ k) := by
  intro i hi
  have hle := two_pow_le hk
  have hpos := Nat.two_pow_pos k
  have hj : (i + (2 ^ k - r) % 2 ^ k) % 2 ^ k < 2 ^ k := Nat.mod_lt _ hpos
  have hback : ((i + (2 ^ k - r) % 2 ^ k) % 2 ^ k + r) % 2 ^ k = i % 2 ^ k := by
    rcases Nat.eq_zero_or_pos r with rfl | hr0
    · simp
    · rw [Nat.mod_eq_of_lt (by omega : 2 ^ k - r < 2 ^ k), Nat.mod_add_mod,
        show i + (2 ^ k - r) + r = i + 2 ^ k by omega, Nat.add_mod_right]
  have hbit := congrArg (·.getLsbD ((i + (2 ^ k - r) % 2 ^ k) % 2 ^ k)) h
  simp only [getLsbD_rotr hk hr (hj.trans_le hle), getLsbD_ones hones, hj, decide_true,
    Bool.true_and, hback] at hbit
  rw [hv i hi, hbit]

theorem IsRun.bit (hk : k ≤ 6) (hs : s < 2 ^ k) (hv : IsRun v k m s) (j : ℕ) :
    v.getLsbD ((j + (2 ^ k - s)) % 2 ^ k) = decide (j % 2 ^ k < m) := by
  have hpos := Nat.two_pow_pos k
  rw [hv _ ((Nat.mod_lt _ hpos).trans_le (two_pow_le hk)), Nat.mod_add_mod,
    show j + (2 ^ k - s) + s = j + 2 ^ k by omega, Nat.add_mod_right]

theorem IsRun.repeats (hv : IsRun v k m s) : Repeats v k := by
  intro i hi
  rw [hv i hi, hv _ ((Nat.mod_le _ _).trans_lt hi), Nat.mod_add_mod]

theorem IsRun.not_repeats (hk : k + 1 ≤ 6) (hs : s < 2 ^ (k + 1)) (hm0 : 0 < m)
    (hm : m < 2 ^ (k + 1)) (hv : IsRun v (k + 1) m s) : ¬ Repeats v k := by
  intro hrep
  have hhalf (j : ℕ) : decide (j % 2 ^ (k + 1) < m) = decide ((j + 2 ^ k) % 2 ^ (k + 1) < m) := by
    have hlt (a : ℕ) : a % 2 ^ (k + 1) < 64 :=
      (Nat.mod_lt _ (Nat.two_pow_pos _)).trans_le (two_pow_le hk)
    have hdvd : 2 ^ k ∣ 2 ^ (k + 1) := Nat.pow_dvd_pow 2 (by omega)
    rw [← hv.bit hk hs j, ← hv.bit hk hs (j + 2 ^ k), hrep _ (hlt _), hrep _ (hlt (_ + _)),
      Nat.mod_mod_of_dvd _ hdvd, Nat.mod_mod_of_dvd _ hdvd, Nat.add_right_comm, Nat.add_mod_right]
  have hpow : 2 ^ (k + 1) = 2 ^ k + 2 ^ k := by ring
  have hlast := hhalf (m - 1)
  have hnext := hhalf m
  rw [hpow] at hm hlast hnext
  rw [Nat.mod_eq_of_lt (by omega : m - 1 < _), decide_eq_true (by omega)] at hlast
  rw [Nat.mod_eq_of_lt hm, decide_eq_false (by omega)] at hnext
  rcases Nat.lt_or_ge (m - 1 + 2 ^ k) (2 ^ k + 2 ^ k) with hlt | hge
  · rw [Nat.mod_eq_of_lt hlt, eq_comm, decide_eq_true_eq] at hlast
    omega
  · rw [Nat.mod_eq_sub_mod (by omega), Nat.mod_eq_of_lt (by omega), eq_comm,
      decide_eq_false_iff_not] at hnext
    omega

theorem IsRun.halve_eq (hk1 : 1 ≤ k) (hk : k ≤ 6) (hs : s < 2 ^ k) (hm0 : 0 < m) (hm : m < 2 ^ k)
    (hv : IsRun v k m s) : halve v 6 = k := by
  obtain ⟨h1, h6, hrep, hmin⟩ := halve_spec (v := v) (k := 6) (by omega) le_rfl
    ((hv.repeats).mono hk)
  rcases Nat.lt_trichotomy (halve v 6) k with hlt | heq | hgt
  · obtain ⟨k, rfl⟩ := Nat.exists_eq_add_one.mpr hk1
    exact absurd (hrep.mono (by omega)) (hv.not_repeats hk hs hm0 hm)
  · exact heq
  · rcases hmin with h | h
    · omega
    · exact absurd ((hv.repeats).mono (by omega)) h

theorem count_shift {p : ℕ → Prop} [DecidablePred p] {n : ℕ} (hp : ∀ i, p (n + i) ↔ p i) (a : ℕ) :
    Nat.count (fun i => p (a + i)) n = Nat.count p n := by
  have h₁ := Nat.count_add p a n
  have h₂ : Nat.count p (a + n) = Nat.count p n + Nat.count p a := by
    rw [Nat.add_comm, Nat.count_add]
    simp only [hp]
  omega

theorem IsRun.countOnes_eq (hk : k ≤ 6) (hm : m < 2 ^ k) (hv : IsRun v k m s) :
    countOnes (v &&& elemMask (2 ^ k)) = m := by
  have hle := two_pow_le hk
  have hbits : (Finset.range 64).filter (fun i => (v &&& elemMask (2 ^ k)).getLsbD i = true) =
      (Finset.range (2 ^ k)).filter fun i => (s + i) % 2 ^ k < m := by
    ext i
    rw [Finset.mem_filter, Finset.mem_filter, Finset.mem_range, Finset.mem_range,
      getLsbD_and, getLsbD_elemMask hk, Bool.and_eq_true, decide_eq_true_eq]
    constructor
    · rintro ⟨hi, hbit, hlt⟩
      rw [hv i hi, decide_eq_true_eq, Nat.add_comm] at hbit
      exact ⟨hlt, hbit⟩
    · rintro ⟨hlt, hbit⟩
      rw [hv i (by omega), decide_eq_true_eq, Nat.add_comm]
      exact ⟨by omega, hbit, hlt⟩
  have hrun : (Finset.range (2 ^ k)).filter (fun i => i % 2 ^ k < m) = Finset.range m := by
    ext i
    rw [Finset.mem_filter, Finset.mem_range, Finset.mem_range]
    constructor
    · rintro ⟨hi, hmod⟩
      rwa [Nat.mod_eq_of_lt hi] at hmod
    · intro hi
      rw [Nat.mod_eq_of_lt (by omega)]
      exact ⟨by omega, hi⟩
  rw [countOnes, Nat.count_eq_card_filter_range, hbits, ← Nat.count_eq_card_filter_range,
    count_shift (p := fun i => i % 2 ^ k < m) (fun i => by rw [Nat.add_mod_left]),
    Nat.count_eq_card_filter_range, hrun, Finset.card_range]

/-! ## Logical immediates -/

/-- N and imms for an element of 2^k bits with `m` ones. -/
def fieldN (k : ℕ) : BitVec 1 := BitVec.ofBool (k = 6)
def fieldS (k m : ℕ) : BitVec 6 := BitVec.ofNat 6 (64 - 2 ^ (k + 1) + (m - 1))

theorem fields_made : ∀ k ∈ Finset.Icc 1 6, ∀ m ∈ Finset.Ico 1 (2 ^ k),
    (if 2 ^ k = 64 then 1#32 else 0) = (fieldN k).setWidth 32 ∧
      ~~~(BitVec.ofNat 32 (2 ^ k) <<< 1 - 1) &&& 0x3f#32 ||| (BitVec.ofNat 32 m - 1) =
        (fieldS k m).setWidth 32 := by
  decide +kernel

theorem fields_read : ∀ k ∈ Finset.Icc 1 6, ∀ m ∈ Finset.Ico 1 (2 ^ k),
    2 ≤ (fieldN k ++ ~~~fieldS k m).toNat ∧ Nat.log2 (fieldN k ++ ~~~fieldS k m).toNat = k ∧
      (fieldS k m).toNat % 2 ^ k = m - 1 := by
  decide +kernel

/-- A replicated, rotated run of ones. -/
def Logical (v : BitVec 64) (k m s : ℕ) : Prop :=
  1 ≤ k ∧ k ≤ 6 ∧ 0 < m ∧ m < 2 ^ k ∧ s < 2 ^ k ∧ IsRun v k m s

theorem Logical.decode (h : Logical v k m s) :
    logicalImm (fieldN k) (BitVec.ofNat 6 s) (fieldS k m) = some v := by
  obtain ⟨hk1, hk, hm0, hm, hs, hv⟩ := h
  obtain ⟨hcode, hlen, hfield⟩ := fields_read k (Finset.mem_Icc.mpr ⟨hk1, hk⟩) m (Finset.mem_Ico.mpr ⟨hm0, hm⟩)
  have hle := two_pow_le hk
  unfold logicalImm
  simp only [hlen, hfield]
  rw [if_neg (by omega), some.injEq]
  refine eq_of_getLsbD_eq fun i hi => ?_
  rw [getLsbD_ofFnLE, dif_pos hi, hv i hi, toNat_ofNat,
    Nat.mod_eq_of_lt (by omega : s < 2 ^ 6)]
  exact decide_eq_decide.mpr (by dsimp only; omega)

theorem logical_of_decode {n : BitVec 1} {immr imms : BitVec 6} (h : logicalImm n immr imms = some v) :
    ∃ k m s, Logical v k m s ∧ (n = 0 → k ≤ 5) := by
  unfold logicalImm at h
  simp only at h
  split_ifs at h with hbad
  generalize hcode : (n ++ ~~~imms).toNat = code at h hbad
  have hlt : code < 2 ^ 7 := hcode ▸ (n ++ ~~~imms).isLt
  have hlen : Nat.log2 code < 7 := (Nat.log2_lt (by omega)).mpr hlt
  have hpos : 0 < 2 ^ Nat.log2 code := Nat.two_pow_pos _
  have hmod : imms.toNat % 2 ^ Nat.log2 code < 2 ^ Nat.log2 code := Nat.mod_lt _ hpos
  refine ⟨Nat.log2 code, imms.toNat % 2 ^ Nat.log2 code + 1, immr.toNat % 2 ^ Nat.log2 code,
    ⟨?_, by omega, by omega, by omega, Nat.mod_lt _ hpos, fun i hi => ?_⟩, fun hn => ?_⟩
  · exact (Nat.le_log2 (by omega)).mpr (by omega)
  · rw [← some.inj h, getLsbD_ofFnLE, dif_pos hi, Nat.add_mod_mod]
    exact decide_eq_decide.mpr (by dsimp only; omega)
  · have hlow : code < 2 ^ 6 := by
      rw [← hcode, hn, toNat_append]
      simpa using (~~~imms).isLt
    have := (Nat.log2_lt (by omega)).mpr hlow
    omega

theorem Logical.bitmask (h : Logical (pattern value sf) k m s) :
    (bitmask value sf).isSome := by
  obtain ⟨hk1, hk, hm0, hm, hs, hv⟩ := h
  generalize hpat : pattern value sf = v at hv
  have hle := two_pow_le hk
  have hfirst := hv.bit hk hs 0
  have hnext := hv.bit hk hs m
  rw [Nat.zero_mod, decide_eq_true hm0] at hfirst
  rw [Nat.mod_eq_of_lt hm, decide_eq_false (lt_irrefl m)] at hnext
  have hne : ¬ (v = 0 ∨ v = BitVec.allOnes 64) := by
    rintro (rfl | rfl)
    · simp at hfirst
    · rw [getLsbD_allOnes, decide_eq_false_iff_not] at hnext
      have := Nat.mod_lt (m + (2 ^ k - s)) (Nat.two_pow_pos k)
      omega
  have hfound : ((List.range (2 ^ k)).find? fun r => rotr (2 ^ k) (v &&& elemMask (2 ^ k)) r =
      1#64 <<< m - 1).isSome := by
    rw [List.find?_isSome]
    have hr := Nat.mod_lt (2 ^ k - s) (Nat.two_pow_pos k)
    refine ⟨(2 ^ k - s) % 2 ^ k, mem_range.mpr hr, decide_eq_true ?_⟩
    refine eq_of_getLsbD_eq fun i hi => ?_
    rw [getLsbD_rotr hk hr hi, Nat.add_mod_mod, hv.bit hk hs, getLsbD_ones (by omega)]
    by_cases hlt : i < 2 ^ k
    · simp [hlt, Nat.mod_eq_of_lt hlt]
    · simp [hlt]
      omega
  obtain ⟨r, hr⟩ := isSome_iff_exists.mp hfound
  unfold Vasm.bitmask
  simp only [hpat, if_neg hne, hv.halve_eq hk1 hk hs hm0 hm, hv.countOnes_eq hk hm, hr]
  rfl

theorem logical_of_bitmask {e : BitVec 32} (h : bitmask value sf = some e) :
    ∃ k m s, Logical (pattern value sf) k m s ∧
      e = (fieldN k).setWidth 32 <<< 12 ||| (BitVec.ofNat 6 s).setWidth 32 <<< 6 |||
        (fieldS k m).setWidth 32 ∧ (Repeats (pattern value sf) 5 → k ≤ 5) := by
  unfold bitmask at h
  generalize pattern value sf = v at h
  by_cases hne : v = 0 ∨ v = BitVec.allOnes 64
  · simp only [if_pos hne, reduceCtorEq] at h
  simp only [if_neg hne, bind_eq_bind, bind_eq_some_iff, some.injEq] at h
  obtain ⟨r, hfind, he⟩ := h
  obtain ⟨hk1, hk, hrep, hmin⟩ := halve_spec (v := v) (k := 6) (by omega) le_rfl
    fun i hi => by rw [Nat.mod_eq_of_lt (by omega : i < 2 ^ 6)]
  generalize halve v 6 = k at *
  have hle := two_pow_le hk
  have hr : r < 2 ^ k := mem_range.mp (mem_of_find?_eq_some hfind)
  have hrot := List.find?_some hfind
  rw [decide_eq_true_eq] at hrot
  have hcount : countOnes (v &&& elemMask (2 ^ k)) ≤ 64 := Nat.count_le _
  have hrun := isRun_of_rotr hk hrep hcount hr hrot
  generalize countOnes (v &&& elemMask (2 ^ k)) = m at *
  have hm0 : 0 < m := by
    refine Nat.pos_of_ne_zero fun h0 => hne (.inl (eq_of_getLsbD_eq fun i hi => ?_))
    simp [hrun i hi, h0]
  have hm : m < 2 ^ k := by
    by_contra hge
    refine hne (.inr (eq_of_getLsbD_eq fun i hi => ?_))
    have := Nat.mod_lt (i + (2 ^ k - r) % 2 ^ k) (Nat.two_pow_pos k)
    rw [hrun i hi, getLsbD_allOnes]
    exact decide_eq_decide.mpr (by omega)
  have hs : (2 ^ k - r) % 2 ^ k < 2 ^ k := Nat.mod_lt _ (Nat.two_pow_pos k)
  refine ⟨k, m, (2 ^ k - r) % 2 ^ k, ⟨hk1, hk, hm0, hm, hs, hrun⟩, ?_, fun h5 => ?_⟩
  · obtain ⟨hn, himms⟩ := fields_made k (Finset.mem_Icc.mpr ⟨hk1, hk⟩) m (Finset.mem_Ico.mpr ⟨hm0, hm⟩)
    rw [← he, hn, himms, setWidth_ofNat_of_le_of_lt (by omega) (by omega)]
  · by_contra h6
    obtain rfl : k = 6 := by omega
    rcases hmin with h | h
    · omega
    · exact h h5

theorem getLsbD_low : (0xffffffff#64).getLsbD i = decide (i < 32) :=
  getLsbD_ones (h := 32) (by omega)

theorem getLsbD_pattern (hi : i < 64) :
    (pattern value 0#1).getLsbD i = value.getLsbD (i % 32) := by
  unfold pattern
  rw [if_neg (by decide), getLsbD_or, getLsbD_and, getLsbD_low, getLsbD_shiftLeft]
  rcases Nat.lt_or_ge i 32 with hlt | hge
  · simp [hlt, Nat.mod_eq_of_lt hlt]
  · simp [hi, show ¬ i < 32 by omega, show i % 32 = i - 32 by omega]

def width (sf : BitVec 1) : ℕ := if sf = 1 then 64 else 32

theorem width_le (sf : BitVec 1) : width sf ≤ 64 := by
  unfold width
  split_ifs <;> omega

theorem getLsbD_cut (sf : BitVec 1) (v : BitVec 64) (i : ℕ) :
    (cut sf v).getLsbD i = (v.getLsbD i && decide (i < width sf)) := by
  unfold cut width
  split_ifs
  · by_cases hi : i < 64
    · simp [hi]
    · simp [hi, getLsbD_of_ge v i (by omega)]
  · rw [getLsbD_and, getLsbD_low]

theorem cut_eq_cut {w x : BitVec 64} :
    cut sf w = cut sf x ↔ ∀ i < width sf, w.getLsbD i = x.getLsbD i := by
  constructor
  · intro h i hi
    simpa [getLsbD_cut, hi] using congrArg (·.getLsbD i) h
  · intro h
    refine eq_of_getLsbD_eq fun i _ => ?_
    rw [getLsbD_cut, getLsbD_cut]
    by_cases hi : i < width sf
    · rw [h i hi]
    · simp [hi]

theorem cut_cut (sf : BitVec 1) (v : BitVec 64) : cut sf (cut sf v) = cut sf v :=
  cut_eq_cut.mpr fun i hi => by rw [getLsbD_cut, decide_eq_true hi, Bool.and_true]

theorem cut_pattern (value : BitVec 64) (sf : BitVec 1) :
    cut sf (pattern value sf) = cut sf value := by
  rcases eq_zero_or_eq_one sf with rfl | rfl
  · refine cut_eq_cut.mpr fun i (hi : i < 32) => ?_
    rw [getLsbD_pattern (by omega), Nat.mod_eq_of_lt hi]
  · rfl

theorem eq_pattern {imm : BitVec 64} (h : cut sf imm = cut sf value)
    (hrep : sf = 0#1 → Repeats imm 5) : imm = pattern value sf := by
  rcases eq_zero_or_eq_one sf with rfl | rfl
  · refine eq_of_getLsbD_eq fun i hi => ?_
    rw [hrep rfl i hi, getLsbD_pattern hi]
    exact cut_eq_cut.mp h _ (Nat.mod_lt _ (by omega))
  · exact h

/-- **`bitmask` and the architecture**: the fields it gives decode to the value, and if it
    gives none, no fields do. -/
theorem bitmask_exact (value : BitVec 64) (sf : BitVec 1) :
    (∀ e, bitmask value sf = some e → ∃ (n : BitVec 1) (immr imms : BitVec 6) (imm : BitVec 64),
      e = n.setWidth 32 <<< 12 ||| immr.setWidth 32 <<< 6 ||| imms.setWidth 32 ∧
      logicalImm n immr imms = some imm ∧ (sf = 0#1 → n = 0#1) ∧ cut sf imm = cut sf value) ∧
    (bitmask value sf = none → ∀ n immr imms imm, logicalImm n immr imms = some imm →
      (sf = 0#1 → n = 0#1) → cut sf imm ≠ cut sf value) := by
  constructor
  · intro e he
    obtain ⟨k, m, s, hlog, heq, hfive⟩ := logical_of_bitmask he
    refine ⟨_, _, _, _, heq, hlog.decode, fun h0 => ?_, cut_pattern value sf⟩
    have hk5 : k ≤ 5 := hfive fun i hi => by
      subst h0
      rw [getLsbD_pattern hi, getLsbD_pattern (by omega), Nat.mod_mod_of_dvd _ (by decide)]
    rw [fieldN, decide_eq_false (by omega)]
    rfl
  · intro hnone n immr imms imm hdec hn hcut
    obtain ⟨k, m, s, hlog, hk5⟩ := logical_of_decode hdec
    have hpat := eq_pattern hcut fun h0 => hlog.2.2.2.2.2.repeats.mono (hk5 (hn h0))
    rw [hpat] at hlog
    have := hlog.bitmask
    rw [hnone] at this
    cases this

/-! ## Moves -/

def Reg.read (rd : Reg) (s : Regs) : BitVec 64 := cut rd.sf (if rd.isSp then s.sp else s.read rd.n)

/-- Its width is that of the instruction. -/
def sfOf : Move → BitVec 1
  | .movz sf .. | .movn sf .. | .orr sf .. => sf

/-- The instruction leaves `v`, cut to the register's width, in the register, whatever the
    registers held. -/
def Leaves (i : Move) (rd : Reg) (v : BitVec 64) : Prop :=
  ∀ s, ∃ s', i.run s = some s' ∧ rd.read s' = cut rd.sf v

theorem getLsbD_chunk (imm : BitVec 16) (h : ℕ) (hi : i < 64) :
    (imm.setWidth 64 <<< (16 * h)).getLsbD i = (!decide (i < 16 * h) && imm.getLsbD (i - 16 * h)) := by
  rw [getLsbD_shiftLeft, getLsbD_setWidth]
  simp [hi, show i - 16 * h < 64 by omega]

theorem and_mask (sf : BitVec 1) (x : BitVec 64) :
    x &&& (if sf = 1 then BitVec.allOnes 64 else 0xffffffff#64) = cut sf x := by
  unfold cut
  split_ifs
  · exact and_allOnes
  · rfl

/-- The bits of `x` that count are all in chunk `h`. -/
def InChunk (sf : BitVec 1) (x : BitVec 64) (h : ℕ) : Prop :=
  ∀ i < width sf, x.getLsbD i = true → 16 * h ≤ i ∧ i < 16 * h + 16

theorem inChunk_iff (x : BitVec 64) :
    x &&& ~~~(0xffff#64 <<< (16 * h)) &&& (if sf = 1 then BitVec.allOnes 64 else 0xffffffff#64) = 0 ↔
      InChunk sf x h := by
  have hones (j : ℕ) : (0xffff#64).getLsbD j = decide (j < 16) := getLsbD_ones (h := 16) (by omega)
  have hbit (i : ℕ) (hi : i < 64) : (cut sf (x &&& ~~~(0xffff#64 <<< (16 * h)))).getLsbD i =
      (x.getLsbD i && !decide (16 * h ≤ i ∧ i < 16 * h + 16) && decide (i < width sf)) := by
    rw [getLsbD_cut, getLsbD_and, getLsbD_not, getLsbD_shiftLeft, hones]
    congr 2
    simp only [hi, decide_true, Bool.true_and]
    by_cases h₁ : i < 16 * h
    · simp [h₁, show ¬ 16 * h ≤ i by omega]
    · simp [h₁, show 16 * h ≤ i by omega, Nat.sub_lt_iff_lt_add (by omega : 16 * h ≤ i), Nat.add_comm]
  rw [and_mask]
  constructor
  · intro h0 i hi hx
    have hzero := congrArg (·.getLsbD i) h0
    simp only [hbit i (hi.trans_le (width_le sf)), hx, hi] at hzero
    simpa using hzero
  · intro hin
    refine eq_of_getLsbD_eq fun i hi => ?_
    rw [hbit i hi]
    by_cases hx : x.getLsbD i = true ∧ i < width sf
    · simp [hin i hx.2 hx.1]
    · by_cases hbit : x.getLsbD i = true
      · simp [show ¬ i < width sf from fun hlt => hx ⟨hbit, hlt⟩]
      · simp [hbit]

theorem InChunk.eq (hx : InChunk sf x h) :
    cut sf (((x >>> (16 * h)).setWidth 16).setWidth 64 <<< (16 * h)) = cut sf x := by
  refine cut_eq_cut.mpr fun i hw => ?_
  rw [getLsbD_chunk _ _ (hw.trans_le (width_le sf)), getLsbD_setWidth, getLsbD_ushiftRight]
  by_cases hin : 16 * h ≤ i ∧ i < 16 * h + 16
  · simp [show ¬ i < 16 * h by omega, show i - 16 * h < 16 by omega,
      show 16 * h + (i - 16 * h) = i by omega]
  · have hfalse : x.getLsbD i = false := Bool.eq_false_iff.mpr fun h => hin (hx i hw h)
    rw [hfalse]
    by_cases h₁ : i < 16 * h
    · simp [h₁]
    · simp [show ¬ i - 16 * h < 16 by omega]

theorem inChunk_shiftLeft (imm : BitVec 16) (h : ℕ) :
    InChunk sf (cut sf (imm.setWidth 64 <<< (16 * h))) h := by
  intro i hi hbit
  rw [getLsbD_cut, getLsbD_chunk _ _ (hi.trans_le (width_le sf))] at hbit
  simp only [Bool.and_eq_true, Bool.not_eq_true', decide_eq_false_iff_not] at hbit
  have := imm.lt_of_getLsbD hbit.1.2
  omega

theorem cut_not {y : BitVec 64} (h : cut sf x = cut sf y) : cut sf (~~~x) = cut sf (~~~y) :=
  cut_eq_cut.mpr fun i hi => by rw [getLsbD_not, getLsbD_not, cut_eq_cut.mp h i hi]

theorem single_eq_some (hs : single sf (if sf = 1 then BitVec.allOnes 64 else 0xffffffff#64) x = some h) :
    InChunk sf x h ∧ h < 4 ∧ (sf = 0#1 → h < 2) := by
  have hlt := mem_range.mp (mem_of_find?_eq_some hs)
  have hbits := List.find?_some hs
  rw [decide_eq_true_eq] at hbits
  refine ⟨(inChunk_iff x).mp hbits, ?_, fun h0 => ?_⟩
  · split_ifs at hlt <;> omega
  · rwa [if_neg (by rw [h0]; decide)] at hlt

theorem not_inChunk_of_single
    (hs : single sf (if sf = 1 then BitVec.allOnes 64 else 0xffffffff#64) x = none) (h4 : h < 4)
    (h2 : sf = 0#1 → h < 2) : ¬ InChunk sf x h := by
  intro hin
  have hall := List.find?_eq_none.mp hs h (mem_range.mpr ?_)
  · exact hall (decide_eq_true ((inChunk_iff x).mpr hin))
  · rcases eq_zero_or_eq_one sf with rfl | rfl
    · exact h2 rfl
    · exact h4

theorem setWidth_chunk (y : BitVec 64) :
    (y.setWidth 32 &&& 0xffff#32) = (y.setWidth 16).setWidth 32 := by
  refine eq_of_getLsbD_eq fun i hi => ?_
  have hones : (0xffff#32).getLsbD i = decide (i < 16) := by
    rw [← testBit_toNat]
    exact Nat.testBit_two_pow_sub_one 16 i
  rw [getLsbD_and, hones]
  simp [hi, Bool.and_comm]

theorem ofNat_two (h4 : h < 4) : BitVec.ofNat 32 h = (BitVec.ofNat 2 h).setWidth 32 :=
  (setWidth_ofNat_of_le_of_lt (by omega) h4).symm

/-- The mask of a register's bits, as the code has it. -/
abbrev maskOf (sf : BitVec 1) : BitVec 64 := if sf = 1 then BitVec.allOnes 64 else 0xffffffff#64

theorem filter_eq_some {α : Type} {o : Option α} {b : Bool} {a : α} :
    (o.filter fun _ => b) = some a ↔ b = true ∧ o = some a := by
  cases o <;> cases b <;> simp

theorem filter_eq_none {α : Type} {o : Option α} {b : Bool} (h : (o.filter fun _ => b) = none)
    (hb : b = true) : o = none := by
  subst hb
  cases o <;> simp_all

theorem or_front (a b c d e : BitVec 32) : b ||| c ||| d ||| a ||| e = a ||| b ||| c ||| d ||| e := by
  ac_rfl

theorem or_fields (a b c d e f g : BitVec 32) :
    b ||| f ||| (c ||| d ||| e) ||| a ||| g = a ||| b ||| c ||| d ||| e ||| f ||| g := by
  ac_rfl

theorem orr_word (sf n : BitVec 1) (immr imms : BitVec 6) (rd : BitVec 5) :
    0x320003e0#32 ||| (n.setWidth 32 <<< 12 ||| immr.setWidth 32 <<< 6 ||| imms.setWidth 32) <<< 10 |||
      sf.setWidth 32 <<< 31 ||| rd.setWidth 32 = (Move.orr sf n immr imms 31#5 rd).word := by
  have hc : 0x320003e0#32 = 0b01100100#32 <<< 23 ||| (31#5).setWidth 32 <<< 5 := by decide
  rw [hc, shiftLeft_or_distrib, shiftLeft_or_distrib, ← shiftLeft_add,
    ← shiftLeft_add]
  exact or_fields _ _ _ _ _ _ _

/-- The word is one of the three, of the register's width; it gives `v` if it can write the
    register. -/
inductive Gives (sf : BitVec 1) (sp : Bool) (v : BitVec 64) (rd : BitVec 5) : Move → Prop
  | movz {hw : BitVec 2} {imm : BitVec 16} (hsp : sp = false) (h2 : sf = 0#1 → hw.toNat < 2)
      (hv : cut sf (imm.setWidth 64 <<< (16 * hw.toNat)) = cut sf v) :
      Gives sf sp v rd (.movz sf hw imm rd)
  | movn {hw : BitVec 2} {imm : BitVec 16} (hsp : sp = false) (h2 : sf = 0#1 → hw.toNat < 2)
      (hv : cut sf (~~~(imm.setWidth 64 <<< (16 * hw.toNat))) = cut sf v) :
      Gives sf sp v rd (.movn sf hw imm rd)
  | orr {n : BitVec 1} {immr imms : BitVec 6} {imm : BitVec 64}
      (hdec : logicalImm n immr imms = some imm) (hn : sf = 0#1 → n = 0#1)
      (hv : cut sf imm = cut sf v) : Gives sf sp v rd (.orr sf n immr imms 31#5 rd)

theorem movWord_some {sp : Bool} {w : BitVec 32} (h : movWord sf sp (maskOf sf) (cut sf v) = some w)
    (rd : BitVec 5) :
    ∃ i : Move, w ||| sf.setWidth 32 <<< 31 ||| rd.setWidth 32 = i.word ∧ Gives sf sp v rd i := by
  unfold movWord at h
  simp only at h
  split at h
  · next c hc =>
    obtain ⟨hsp, hc⟩ := filter_eq_some.mp hc
    obtain ⟨hin, h4, h2⟩ := single_eq_some hc
    have hhw : (BitVec.ofNat 2 c).toNat = c := Nat.mod_eq_of_lt h4
    rw [← some.inj h, ofNat_two h4, setWidth_chunk]
    refine ⟨_, or_front _ _ _ _ _, .movz (by simpa using hsp) ?_ ?_⟩
    · rwa [hhw]
    · rw [hhw, hin.eq, cut_cut]
  · split at h
    · next c hc =>
      obtain ⟨hsp, hc⟩ := filter_eq_some.mp hc
      obtain ⟨hin, h4, h2⟩ := single_eq_some hc
      have hhw : (BitVec.ofNat 2 c).toNat = c := Nat.mod_eq_of_lt h4
      rw [← some.inj h, ofNat_two h4, setWidth_chunk]
      refine ⟨_, or_front _ _ _ _ _, .movn (by simpa using hsp) ?_ ?_⟩
      · rwa [hhw]
      · have hin' : InChunk sf (~~~cut sf v) c := fun i hi hbit => hin i hi (by
          rw [and_mask, getLsbD_cut, hbit, decide_eq_true hi, Bool.and_self])
        rw [hhw, cut_not hin'.eq, BitVec.not_not, cut_cut]
    · obtain ⟨e, he, rfl⟩ := map_eq_some_iff.mp h
      obtain ⟨n, immr, imms, imm, rfl, hdec, hn, hcut⟩ := (bitmask_exact _ sf).1 e he
      exact ⟨_, orr_word sf n immr imms rd, .orr hdec hn (hcut.trans (cut_cut sf v))⟩

/-- The zero register, which nothing can be left in. -/
def Reg.isZero (rd : Reg) : Prop := rd.isSp = false ∧ rd.n = 31#5

theorem cut_zero (sf : BitVec 1) : cut sf 0#64 = 0#64 := by
  unfold cut
  split_ifs <;> rfl

theorem cut_or (sf : BitVec 1) (a b : BitVec 64) : cut sf (a ||| b) = cut sf a ||| cut sf b := by
  refine eq_of_getLsbD_eq fun i _ => ?_
  rw [getLsbD_or, getLsbD_cut, getLsbD_cut, getLsbD_cut, getLsbD_or,
    Bool.and_or_distrib_right]

theorem Reg.n_of_isSp (h : rd.isSp = true) : rd.n = 31#5 := by
  cases rd <;> first | rfl | cases h

theorem Reg.read_write (rd : Reg) (s : Regs) (r : BitVec 5) (u : BitVec 64) :
    rd.read (s.write r u) = if rd.isSp = false ∧ rd.n = r ∧ r ≠ 31#5 then cut rd.sf u
      else rd.read s := by
  unfold Reg.read Regs.read Regs.write
  by_cases h31 : r = 31#5
  · simp [h31]
  · cases hsp : rd.isSp
    · by_cases hr : rd.n = r
      · simp [h31, hr]
      · simp [h31, hr]
    · simp [h31]

theorem Gives.run {i : Move} (h : Gives rd.sf rd.isSp v rd.n i) (s : Regs) :
    ∃ s', i.run s = some s' ∧
      ((rd.isZero ∧ rd.read s' = 0) ∨ (¬ rd.isZero ∧ rd.read s' = cut rd.sf v)) := by
  have hwrite (hsp : rd.isSp = false) (u : BitVec 64) (hu : cut rd.sf u = cut rd.sf v) :
      (rd.isZero ∧ rd.read (s.write rd.n u) = 0) ∨
        (¬ rd.isZero ∧ rd.read (s.write rd.n u) = cut rd.sf v) := by
    by_cases h31 : rd.n = 31#5
    · exact .inl ⟨⟨hsp, h31⟩, by simp [Reg.read, Regs.read, hsp, h31, cut_zero]⟩
    · exact .inr ⟨fun hz => h31 hz.2, by rw [rd.read_write, if_pos ⟨hsp, rfl, h31⟩, hu]⟩
  cases h with
  | movz hsp h2 hv =>
    refine ⟨_, if_neg fun hbad => ?_, hwrite hsp _ hv⟩
    exact absurd hbad.2 (by have := h2 hbad.1; omega)
  | movn hsp h2 hv =>
    refine ⟨_, if_neg fun hbad => ?_, hwrite hsp _ ((cut_cut _ _).trans hv)⟩
    exact absurd hbad.2 (by have := h2 hbad.1; omega)
  | @orr n immr imms imm hdec hn hv =>
    have hval : cut rd.sf (cut rd.sf (s.read 31#5 ||| imm)) = cut rd.sf v := by
      rw [cut_cut, cut_or, hv]
      simp [Regs.read, cut_zero]
    have hres : ¬ (rd.sf = 0#1 ∧ n = 1#1) := by
      rintro ⟨h0, h1⟩
      rw [hn h0] at h1
      exact absurd h1 (by decide)
    simp only [Move.run, hdec, bind_eq_bind, bind_some, if_neg hres,
      some.injEq, exists_eq_left']
    by_cases h31 : rd.n = 31#5
    · rw [if_pos h31]
      by_cases hsp : rd.isSp = true
      · refine .inr ⟨fun hz => absurd (hsp.symm.trans hz.1) (by decide), ?_⟩
        rw [Reg.read, if_pos hsp, hval]
      · rw [Bool.not_eq_true] at hsp
        exact .inl ⟨⟨hsp, h31⟩, by simp [Reg.read, Regs.read, hsp, h31, cut_zero]⟩
    · rw [if_neg h31]
      exact hwrite (Bool.eq_false_iff.mpr fun hsp => h31 (Reg.n_of_isSp hsp)) _ hval

theorem movWord_none {sp : Bool} (h : movWord sf sp (maskOf sf) (cut sf v) = none) :
    bitmask (cut sf v) sf = none ∧ (sp = false → single sf (maskOf sf) (cut sf v) = none ∧
      single sf (maskOf sf) (~~~cut sf v &&& maskOf sf) = none) := by
  unfold movWord at h
  simp only at h
  split at h
  · cases h
  · next h₁ =>
    split at h
    · cases h
    · next h₂ =>
      exact ⟨map_eq_none_iff.mp h, fun hsp =>
        ⟨filter_eq_none h₁ (by rw [hsp]; rfl), filter_eq_none h₂ (by rw [hsp]; rfl)⟩⟩

/-- **No other word will do**, of the register's width. -/
theorem not_leaves (h : movWord rd.sf rd.isSp (maskOf rd.sf) (cut rd.sf v) = none) {i : Move}
    (hsf : sfOf i = rd.sf) : ¬ Leaves i rd v := by
  intro hl
  obtain ⟨hmask, hsingle⟩ := movWord_none h
  -- a word that does not change the register leaves a value that it can have only in one state
  have hsame (hs : ∀ s s', i.run s = some s' → rd.read s' = rd.read s) : False := by
    obtain ⟨s₀, h₀, hv₀⟩ := hl ⟨fun _ => 0#64, 0#64⟩
    obtain ⟨s₁, h₁, hv₁⟩ := hl ⟨fun _ => 1#64, 1#64⟩
    rw [hs _ _ h₀] at hv₀
    rw [hs _ _ h₁] at hv₁
    have hv0 : cut rd.sf v = 0#64 := by
      rw [← hv₀]
      simp [Reg.read, Regs.read, cut_zero]
    cases hsp : rd.isSp with
    | false =>
      refine not_inChunk_of_single (hsingle hsp).1 (h := 0) (by omega) (by omega) fun i _ hbit => ?_
      simp [hv0] at hbit
    | true =>
      rw [hv0, Reg.read, if_pos hsp, cut] at hv₁
      split_ifs at hv₁ <;> exact absurd hv₁ (by decide)
  have hwritten {r : BitVec 5} {u : BitVec 64} {s s' : Regs} (hs : some (s.write r u) = some s')
      (hd : ¬ (rd.isSp = false ∧ rd.n = r ∧ r ≠ 31#5)) : rd.read s' = rd.read s := by
    rw [← some.inj hs, rd.read_write, if_neg hd]
  -- MOVZ and MOVN: the value does not depend on the registers
  have hwide {hw : BitVec 2} {r : BitVec 5} {u : BitVec 64} (hrun : ∀ s, i.run s =
      if rd.sf = 0#1 ∧ 2 ≤ hw.toNat then none else some (s.write r u)) :
      rd.isSp = false ∧ cut rd.sf u = cut rd.sf v ∧ (rd.sf = 0#1 → hw.toNat < 2) := by
    obtain ⟨s', hs', hv⟩ := hl ⟨fun _ => 0#64, 0#64⟩
    rw [hrun] at hs'
    by_cases hres : rd.sf = 0#1 ∧ 2 ≤ hw.toNat
    · rw [if_pos hres] at hs'
      cases hs'
    simp only [if_neg hres] at hrun hs'
    by_cases hd : rd.isSp = false ∧ rd.n = r ∧ r ≠ 31#5
    · rw [← some.inj hs', rd.read_write, if_pos hd] at hv
      exact ⟨hd.1, hv, fun h0 => Nat.lt_of_not_le fun h2 => hres ⟨h0, h2⟩⟩
    · exact (hsame fun s s' hs => hwritten ((hrun s).symm.trans hs) hd).elim
  cases i with
  | movz sf hw imm r =>
    obtain rfl : sf = rd.sf := hsf
    obtain ⟨hsp, hv, h2⟩ := hwide fun s => rfl
    exact not_inChunk_of_single (hsingle hsp).1 hw.isLt h2 (hv ▸ inChunk_shiftLeft imm _)
  | movn sf hw imm r =>
    obtain rfl : sf = rd.sf := hsf
    obtain ⟨hsp, hv, h2⟩ := hwide fun s => rfl
    rw [cut_cut] at hv
    have hnot := cut_not (hv.trans (cut_cut rd.sf v).symm)
    rw [BitVec.not_not] at hnot
    refine not_inChunk_of_single (hsingle hsp).2 hw.isLt h2 ?_
    rw [and_mask, ← hnot]
    exact inChunk_shiftLeft imm _
  | orr sf n immr imms rn r =>
    obtain rfl : sf = rd.sf := hsf
    obtain ⟨s', hs', hv⟩ := hl ⟨fun _ => 0#64, 0#64⟩
    cases hdec : logicalImm n immr imms with
    | none =>
      simp only [Move.run, hdec, bind_eq_bind, bind_none, reduceCtorEq] at hs'
    | some imm =>
      simp only [Move.run, hdec, bind_eq_bind, bind_some] at hs' hsame
      by_cases hres : rd.sf = 0#1 ∧ n = 1#1
      · rw [if_pos hres] at hs'
        cases hs'
      simp only [if_neg hres] at hs' hsame
      have hn : rd.sf = 0#1 → n = 0#1 := fun h0 =>
        (eq_zero_or_eq_one n).resolve_right fun h1 => hres ⟨h0, h1⟩
      have hval : cut rd.sf (cut rd.sf (Regs.read ⟨fun _ => 0#64, 0#64⟩ rn ||| imm)) =
          cut rd.sf imm := by
        rw [cut_cut, cut_or]
        simp [Regs.read, cut_zero]
      have hnot : cut rd.sf imm ≠ cut rd.sf v := fun h =>
        (bitmask_exact _ _).2 hmask n immr imms imm hdec hn (h.trans (cut_cut _ _).symm)
      by_cases h31 : r = 31#5
      · simp only [if_pos h31] at hs' hsame
        cases hsp : rd.isSp with
        | true =>
          rw [← some.inj hs', Reg.read, if_pos hsp, hval] at hv
          exact hnot hv
        | false =>
          refine hsame fun s s' hs => ?_
          rw [← some.inj hs, Reg.read, Reg.read, hsp]
          rfl
      · simp only [if_neg h31] at hs' hsame
        by_cases hd : rd.isSp = false ∧ rd.n = r ∧ r ≠ 31#5
        · rw [← some.inj hs', rd.read_write, if_pos hd, hval] at hv
          exact hnot hv
        · exact hsame fun s s' hs => hwritten hs hd

/-- **MOV of an immediate**: the word it gives leaves the value in the register, unless it
    is the zero register and the value isn't 0; if it gives none, no MOVZ, MOVN or ORR of the
    register's width does.  Besides, `bitmask` and the architecture agree on every value. -/
theorem movImm_exact (rd : Reg) (v : BitVec 64) :
    ((bitmask v 1).isSome ↔ ∃ k m s, Logical v k m s) ∧
    (∀ sf e, bitmask v sf = some e → ∃ (n : BitVec 1) (immr imms : BitVec 6) (imm : BitVec 64),
      e = n.setWidth 32 <<< 12 ||| immr.setWidth 32 <<< 6 ||| imms.setWidth 32 ∧
      logicalImm n immr imms = some imm ∧ (sf = 0#1 → n = 0#1) ∧ cut sf imm = cut sf v) ∧
    (∀ sf, bitmask v sf = none → ∀ n immr imms imm, logicalImm n immr imms = some imm →
      (sf = 0#1 → n = 0#1) → cut sf imm ≠ cut sf v) ∧
    (∀ w, movImm rd v = some w → ∃ i : Move, i.word = w ∧
      (Leaves i rd v ↔ ¬ (rd.isZero ∧ cut rd.sf v ≠ 0#64))) ∧
    (movImm rd v = none → ∀ i : Move, sfOf i = rd.sf → ¬ Leaves i rd v) := by
  refine ⟨⟨fun h => ?_, fun h => ?_⟩, fun sf => (bitmask_exact v sf).1,
    fun sf => (bitmask_exact v sf).2, fun w hw => ?_, fun hnone i hsf => ?_⟩
  · obtain ⟨e, he⟩ := isSome_iff_exists.mp h
    obtain ⟨k, m, s, hlog, -⟩ := logical_of_bitmask he
    exact ⟨k, m, s, hlog⟩
  · obtain ⟨k, m, s, h⟩ := h
    exact @Logical.bitmask k m s v 1#1 h
  · obtain ⟨word, hword, rfl⟩ := map_eq_some_iff.mp hw
    obtain ⟨i, hi, hgives⟩ := movWord_some hword rd.n
    refine ⟨i, hi.symm, fun hl hz => ?_, fun hz s => ?_⟩
    · obtain ⟨s', hs', hread⟩ := hl ⟨fun _ => 0#64, 0#64⟩
      obtain ⟨s'', hs'', hgive⟩ := hgives.run ⟨fun _ => 0#64, 0#64⟩
      obtain rfl := some.inj (hs'.symm.trans hs'')
      rcases hgive with ⟨-, h0⟩ | ⟨hnz, -⟩
      · exact hz.2 (hread.symm.trans h0)
      · exact hnz hz.1
    · obtain ⟨s', hs', hgive⟩ := hgives.run s
      refine ⟨s', hs', ?_⟩
      rcases hgive with ⟨hzero, h0⟩ | ⟨-, h⟩
      · exact h0.trans (not_not.mp fun hne => hz ⟨hzero, fun h => hne h.symm⟩)
      · exact h
  · exact not_leaves (map_eq_none_iff.mp hnone) hsf

/-- MOV X0, #0xffff1234 is left to more than one instruction, though a MOVN of W0 would
    do; and for the zero register, which MOV refuses before, it would be an ORR, which
    writes the stack pointer. -/
theorem movImm_inexact : movImm (.x 0) 0xffff1234 = none ∧
    Leaves (.movn 0 0 0xedcb 0) (.x 0) 0xffff1234 ∧
    movImm (.x 31) 0x5555555555555555 = some (Move.orr 1 0 0 0b111100 31 31).word ∧
    ((Move.orr 1 0 0 0b111100 31 31).run ⟨fun _ => 0, 0⟩).map (·.sp) = some 0x5555555555555555 ∧
    ((Move.orr 1 0 0 0b111100 31 31).run ⟨fun _ => 0, 0⟩).map (Reg.x 31).read = some 0 := by
  refine ⟨by decide +kernel, fun s => ⟨s.write 0 0xffff1234, rfl, ?_⟩, by decide +kernel⟩
  simp [Reg.read, Regs.read, Regs.write, cut, Reg.sf, Reg.isSp, Reg.n]

end Vasm
