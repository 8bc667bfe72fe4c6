/-
  How ARM64 instructions refer to addresses: the immediate fields of a word, and what
  each form makes of them.
-/
import Mathlib

namespace Arm64

open BitVec

/-! ## Immediate fields -/

/-- B and BL. -/
def imm26 (w : BitVec 32) : BitVec 26 := w.extractLsb' 0 26

/-- B.cond, CBZ and CBNZ. -/
def imm19 (w : BitVec 32) : BitVec 19 := w.extractLsb' 5 19

/-- TBZ and TBNZ. -/
def imm14 (w : BitVec 32) : BitVec 14 := w.extractLsb' 5 14

/-- ADR and ADRP: immhi, then immlo. -/
def imm21 (w : BitVec 32) : BitVec 21 := w.extractLsb' 5 19 ++ w.extractLsb' 29 2

/-- ADD (immediate), and loads and stores with an unsigned offset. -/
def imm12 (w : BitVec 32) : BitVec 12 := w.extractLsb' 10 12

/-- MOVZ and MOVK. -/
def imm16 (w : BitVec 32) : BitVec 16 := w.extractLsb' 5 16

/-! ## What they refer to -/

/-- `SignExtend(imm:Zeros(k), 64)`. -/
def offset {n : ℕ} (k : ℕ) (imm : BitVec n) : BitVec 64 := (imm ++ 0#k).signExtend 64

/-- The address of the 4 KB page that holds `a`. -/
def page (a : BitVec 64) : BitVec 64 := a.extractLsb' 12 52 ++ 0#12

/-- Where a branch at `pc` goes. -/
def branchTarget {n : ℕ} (pc : BitVec 64) (imm : BitVec n) : BitVec 64 := pc + offset 2 imm

/-- What ADR at `pc` gives. -/
def adrResult (pc : BitVec 64) (imm : BitVec 21) : BitVec 64 := pc + offset 0 imm

/-- What ADRP at `pc` gives. -/
def adrpResult (pc : BitVec 64) (imm : BitVec 21) : BitVec 64 := page pc + offset 12 imm

/-- `ZeroExtend(imm12, 64) << scale`: what ADD adds (scale 0), and the offset of an
    access of 2^scale bytes. -/
def lowOffset (scale : ℕ) (imm : BitVec 12) : BitVec 64 := imm.setWidth 64 <<< scale

/-- The 16-bit chunk that MOVZ or MOVK moves. -/
def chunkOf (a : BitVec 64) (i : ℕ) : BitVec 16 := a.extractLsb' (16 * i) 16

/-! ## Reach -/

section
variable {n k : ℕ} {d : BitVec 64}

theorem toInt_offset (hnk : n + 1 + k ≤ 64) (imm : BitVec (n + 1)) :
    (offset k imm).toInt = 2 ^ k * imm.toInt := by
  rw [offset, toInt_signExtend_of_le hnk, toInt_append]
  simp

theorem reach_of_offset (hnk : n + 1 + k ≤ 64) (imm : BitVec (n + 1)) (h : offset k imm = d) :
    2 ^ k ∣ d.toInt ∧ -2 ^ (n + k) ≤ d.toInt ∧ d.toInt < 2 ^ (n + k) := by
  have hd : d.toInt = 2 ^ k * imm.toInt := by rw [← h, toInt_offset hnk]
  have hlo := le_toInt imm
  have hhi := toInt_lt (x := imm)
  rw [Nat.add_sub_cancel] at hlo hhi
  have hpos : (0 : ℤ) < 2 ^ k := by positivity
  rw [hd, pow_add, mul_comm ((2 : ℤ) ^ n)]
  refine ⟨Dvd.intro _ rfl, ?_, Int.mul_lt_mul_of_pos_left hhi hpos⟩
  rw [← mul_neg]
  exact Int.mul_le_mul_of_nonneg_left hlo hpos.le

theorem toInt_setWidth_of_range (hn : n + 1 ≤ 64) {y : BitVec 64} (hlo : -2 ^ n ≤ y.toInt)
    (hhi : y.toInt < 2 ^ n) : (y.setWidth (n + 1)).toInt = y.toInt := by
  have hmod : ((y.toNat : ℤ)).bmod (2 ^ (n + 1)) = y.toInt.bmod (2 ^ (n + 1)) := by
    rw [toInt_eq_toNat_bmod]
    exact (Int.bmod_bmod_of_dvd (Nat.pow_dvd_pow 2 hn)).symm
  rw [toInt_setWidth, hmod]
  apply Int.bmod_eq_of_le
  · rw [Nat.pow_succ]
    push_cast
    omega
  · rw [Nat.pow_succ]
    push_cast
    omega

theorem mul_toInt_sshiftRight (hdvd : 2 ^ k ∣ d.toInt) : 2 ^ k * (d.sshiftRight k).toInt = d.toInt := by
  rw [toInt_sshiftRight, Int.shiftRight_eq_div_pow]
  push_cast
  exact Int.mul_ediv_cancel' hdvd

theorem reach_sshiftRight (hdvd : 2 ^ k ∣ d.toInt) :
    -2 ^ (n + k) ≤ d.toInt ∧ d.toInt < 2 ^ (n + k) ↔
      -2 ^ n ≤ (d.sshiftRight k).toInt ∧ (d.sshiftRight k).toInt < 2 ^ n := by
  have hpos : (0 : ℤ) < 2 ^ k := by positivity
  rw [← mul_toInt_sshiftRight hdvd, pow_add, mul_comm ((2 : ℤ) ^ n), ← mul_neg,
    mul_le_mul_iff_right₀ hpos, mul_lt_mul_iff_right₀ hpos]

theorem offset_of_reach (hnk : n + 1 + k ≤ 64) (hdvd : 2 ^ k ∣ d.toInt)
    (hreach : -2 ^ (n + k) ≤ d.toInt ∧ d.toInt < 2 ^ (n + k)) :
    offset k ((d.sshiftRight k).setWidth (n + 1)) = d := by
  obtain ⟨hlo, hhi⟩ := (reach_sshiftRight hdvd).mp hreach
  refine eq_of_toInt_eq ?_
  rw [toInt_offset hnk, toInt_setWidth_of_range (by omega) hlo hhi, mul_toInt_sshiftRight hdvd]

end

section
variable {insn mask f : BitVec 32} {a n i : ℕ}

theorem extract_patch (h : ∀ i < n, mask.getLsbD (a + i) = true) :
    (insn &&& ~~~mask ||| f).extractLsb' a n = f.extractLsb' a n := by
  refine eq_of_getLsbD_eq fun i hi => ?_
  simp only [getLsbD_extractLsb', getLsbD_or, getLsbD_and, getLsbD_not,
    h i hi]
  simp

theorem getLsbD_patch (hi : i < 32) (hm : mask.getLsbD i = false) (hf : f.getLsbD i = false) :
    (insn &&& ~~~mask ||| f).getLsbD i = insn.getLsbD i := by
  simp only [getLsbD_or, getLsbD_and, getLsbD_not, hm, hf, hi]
  simp

end

theorem page_eq (a : BitVec 64) : page a = a &&& ~~~0xfff := by
  refine eq_of_getLsbD_eq fun i hi => ?_
  have hmask : (0xfff : BitVec 64).getLsbD i = decide (i < 12) := by
    rw [show (0xfff : BitVec 64) = BitVec.ofNat 64 (2 ^ 12 - 1) from rfl, getLsbD_ofNat,
      Nat.testBit_two_pow_sub_one]
    simp [hi]
  simp only [page, getLsbD_append, getLsbD_extractLsb', getLsbD_and,
    getLsbD_not, hmask, hi]
  by_cases h12 : i < 12
  · simp [h12]
  · simp [h12, show i - 12 < 52 by omega, show 12 + (i - 12) = i by omega]

theorem page_add_low (a : BitVec 64) : page a + (a &&& 0xfff) = a := by
  rw [page_eq, add_eq_or_of_and_eq_zero]
  · ext i hi
    simp only [getElem_or, getElem_and, getElem_not]
    cases a[i] <;> cases (0xfff : BitVec 64)[i] <;> rfl
  · ext i hi
    simp only [getElem_and, getElem_not, getElem_zero]
    cases a[i] <;> cases (0xfff : BitVec 64)[i] <;> rfl

theorem toNat_page (a : BitVec 64) : (page a).toNat = a.toNat / 2 ^ 12 * 2 ^ 12 := by
  rw [page, toNat_append, extractLsb'_toNat, toNat_ofNat]
  have := a.isLt
  rw [Nat.shiftRight_eq_div_pow, Nat.zero_mod, Nat.or_zero, Nat.shiftLeft_eq]
  congr 1
  omega

/-! ## Moves of an immediate -/

/-- The logical immediate of N, immr and imms (`DecodeBitMasks`): elements of 2^len bits,
    each a run of ones rotated to the right; none if they are reserved. -/
def logicalImm (n : BitVec 1) (immr imms : BitVec 6) : Option (BitVec 64) :=
  let code := (n ++ ~~~imms).toNat
  let len := Nat.log2 code
  let s := imms.toNat % 2 ^ len
  if code < 2 ∨ s = 2 ^ len - 1 then none
  else some (BitVec.ofFnLE fun i : Fin 64 => decide ((i + immr.toNat) % 2 ^ len ≤ s))

/-- MOVZ, MOVN and ORR (immediate). -/
inductive Move where
  | movz (sf : BitVec 1) (hw : BitVec 2) (imm : BitVec 16) (rd : BitVec 5)
  | movn (sf : BitVec 1) (hw : BitVec 2) (imm : BitVec 16) (rd : BitVec 5)
  | orr (sf n : BitVec 1) (immr imms : BitVec 6) (rn rd : BitVec 5)

/-- Their words, field by field. -/
def Move.word : Move → BitVec 32
  | .movz sf hw imm rd => sf.setWidth 32 <<< 31 ||| 0b10100101#32 <<< 23 ||| hw.setWidth 32 <<< 21 |||
    imm.setWidth 32 <<< 5 ||| rd.setWidth 32
  | .movn sf hw imm rd => sf.setWidth 32 <<< 31 ||| 0b00100101#32 <<< 23 ||| hw.setWidth 32 <<< 21 |||
    imm.setWidth 32 <<< 5 ||| rd.setWidth 32
  | .orr sf n immr imms rn rd => sf.setWidth 32 <<< 31 ||| 0b01100100#32 <<< 23 |||
    n.setWidth 32 <<< 22 ||| immr.setWidth 32 <<< 16 ||| imms.setWidth 32 <<< 10 |||
    rn.setWidth 32 <<< 5 ||| rd.setWidth 32

/-- The general registers: register 31 is the zero register or the stack pointer. -/
structure Regs where
  x : BitVec 5 → BitVec 64
  sp : BitVec 64

/-- `v` as a register of 64 or 32 bits holds it. -/
def cut (sf : BitVec 1) (v : BitVec 64) : BitVec 64 := if sf = 1 then v else v &&& 0xffffffff#64

/-- `X[n]`, with the zero register. -/
def Regs.read (s : Regs) (n : BitVec 5) : BitVec 64 := if n = 31#5 then 0#64 else s.x n

def Regs.write (s : Regs) (n : BitVec 5) (v : BitVec 64) : Regs :=
  if n = 31#5 then s else { s with x := Function.update s.x n v }

/-- What each does; none if the word is reserved. -/
def Move.run (s : Regs) : Move → Option Regs
  | .movz sf hw imm rd =>
    if sf = 0#1 ∧ 2 ≤ hw.toNat then none
    else some (s.write rd (imm.setWidth 64 <<< (16 * hw.toNat)))
  | .movn sf hw imm rd =>
    if sf = 0#1 ∧ 2 ≤ hw.toNat then none
    else some (s.write rd (cut sf (~~~(imm.setWidth 64 <<< (16 * hw.toNat)))))
  | .orr sf n immr imms rn rd => do
    let imm ← logicalImm n immr imms
    if sf = 0#1 ∧ n = 1#1 then none
    else
      let v := cut sf (s.read rn ||| imm)
      -- register 31 is the stack pointer here
      some (if rd = 31#5 then { s with sp := v } else s.write rd v)

end Arm64
