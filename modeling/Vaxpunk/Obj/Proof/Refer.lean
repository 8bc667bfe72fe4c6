/-
  A patched instruction refers to its target: what `apply` puts into a word is decoded
  to the target by the ARM64 rules, whenever some word would.
-/
import Vaxpunk.Lib.Arm64
import Vaxpunk.Obj.Reloc

namespace Obj

open Arm64 BitVec

variable {f mask : BitVec 32} {n a i : ℕ} {x : BitVec 64}

/-- The word `w` at `p` refers to `s`: where it branches to or the address it gives, the
    page of `s`, what must be added to that page, or a chunk of `s`. -/
def Kind.Refers (kind : Kind) (w : BitVec 32) (s p : BitVec 64) : Prop :=
  match kind with
  | .jump26 => branchTarget p (imm26 w) = s
  | .branch19 => branchTarget p (imm19 w) = s
  | .branch14 => branchTarget p (imm14 w) = s
  | .adr => adrResult p (imm21 w) = s
  | .adrp => adrpResult p (imm21 w) = page s
  | .addLo12 => page s + lowOffset 0 (imm12 w) = s
  | .ldst scale => page s + lowOffset scale (imm12 w) = s
  | .movw chunk check => imm16 w = chunkOf s chunk ∧ (check → s.toNat < 2 ^ (16 * (chunk + 1)))

/-- The range and the alignment of a kind's field. -/
def Kind.Reaches (kind : Kind) (s p : BitVec 64) : Prop :=
  match kind with
  | .jump26 => 4 ∣ (s - p).toInt ∧ -2 ^ 27 ≤ (s - p).toInt ∧ (s - p).toInt < 2 ^ 27
  | .branch19 => 4 ∣ (s - p).toInt ∧ -2 ^ 20 ≤ (s - p).toInt ∧ (s - p).toInt < 2 ^ 20
  | .branch14 => 4 ∣ (s - p).toInt ∧ -2 ^ 15 ≤ (s - p).toInt ∧ (s - p).toInt < 2 ^ 15
  | .adr => -2 ^ 20 ≤ (s - p).toInt ∧ (s - p).toInt < 2 ^ 20
  | .adrp => -2 ^ 32 ≤ (page s - page p).toInt ∧ (page s - page p).toInt < 2 ^ 32
  | .addLo12 => True
  | .ldst scale => 2 ^ scale ∣ s.toNat % 2 ^ 12
  | .movw chunk check => check → s.toNat < 2 ^ (16 * (chunk + 1))

def Kind.bits (kind : Kind) (i : ℕ) : Prop :=
  match kind with
  | .jump26 => i < 26
  | .branch19 => 5 ≤ i ∧ i < 24
  | .branch14 => 5 ≤ i ∧ i < 19
  | .adr | .adrp => 5 ≤ i ∧ i < 24 ∨ 29 ≤ i ∧ i < 31
  | .addLo12 | .ldst _ => 10 ≤ i ∧ i < 22
  | .movw _ _ => 5 ≤ i ∧ i < 21

section
variable {kind : Kind} {insn w : BitVec 32} {s p d : BitVec 64}

theorem apply_eq_ok : apply kind insn s p = .ok w ↔
    ∃ mask f, field kind s p = .ok (mask, f) ∧ w = insn &&& ~~~mask ||| f := by
  unfold apply
  cases hf : field kind s p with
  | error e => simp [Except.map]
  | ok x =>
    obtain ⟨mask, f⟩ := x
    simp only [Except.map, Except.ok.injEq, Prod.mk.injEq]
    constructor
    · rintro rfl
      exact ⟨mask, f, ⟨rfl, rfl⟩, rfl⟩
    · rintro ⟨_, _, ⟨rfl, rfl⟩, rfl⟩
      rfl

/-! ## Branches -/

theorem branch_eq_ok {bits : ℕ} : branch kind d bits = .ok f ↔
    (4 ∣ d.toInt ∧ -2 ^ (bits + 1) ≤ d.toInt ∧ d.toInt < 2 ^ (bits + 1)) ∧
      f = (d.sshiftRight 2).setWidth 32 &&& BitVec.ofNat 32 (2 ^ bits - 1) := by
  unfold branch
  split_ifs with h4 hrange
  · simp only [false_iff]
    rintro ⟨⟨hdvd, -⟩, -⟩
    exact h4 (Int.tmod_eq_zero_of_dvd hdvd)
  · simp only [false_iff]
    rintro ⟨⟨-, hlo, hhi⟩, -⟩
    omega
  · have hdvd := Int.dvd_of_tmod_eq_zero (not_not.mp h4)
    constructor
    · rintro ⟨⟩
      exact ⟨⟨hdvd, by omega, by omega⟩, rfl⟩
    · rintro ⟨-, rfl⟩
      rfl

theorem getLsbD_field (y : BitVec 32) (hi : i < 32) :
    ((y &&& BitVec.ofNat 32 (2 ^ n - 1)) <<< a).getLsbD i =
      (decide (a ≤ i ∧ i < a + n) && y.getLsbD (i - a)) := by
  rw [getLsbD_shiftLeft, getLsbD_and, getLsbD_ofNat,
    Nat.testBit_two_pow_sub_one]
  by_cases ha : a ≤ i
  · by_cases hn : i < a + n
    · simp [hi, ha, hn, show ¬ i < a by omega, show i - a < n by omega, show i - a < 32 by omega]
    · simp [hn, show ¬ i - a < n by omega]
  · simp [ha, show i < a by omega]

theorem extract_field (y : BitVec 64) (h : a + n ≤ 32) :
    ((y.setWidth 32 &&& BitVec.ofNat 32 (2 ^ n - 1)) <<< a).extractLsb' a n = y.setWidth n := by
  refine eq_of_getLsbD_eq fun i hi => ?_
  rw [getLsbD_extractLsb', getLsbD_field _ (by omega), getLsbD_setWidth,
    getLsbD_setWidth]
  simp [hi, show i < 32 by omega]

theorem field_patch (insn : BitVec 32) (y : BitVec 64) (hn : a + n ≤ 32)
    (hmask : ∀ i < 32, mask.getLsbD i = decide (a ≤ i ∧ i < a + n)) {f : BitVec 32}
    (hf : f = y.setWidth 32 &&& BitVec.ofNat 32 (2 ^ n - 1)) :
    (insn &&& ~~~mask ||| f <<< a).extractLsb' a n = y.setWidth n ∧
      ∀ i < 32, ¬ (a ≤ i ∧ i < a + n) →
        (insn &&& ~~~mask ||| f <<< a).getLsbD i = insn.getLsbD i := by
  subst hf
  constructor
  · rw [extract_patch, extract_field _ hn]
    intro i hi
    rw [hmask _ (by omega)]
    exact decide_eq_true (by omega)
  · intro i hi hout
    refine getLsbD_patch hi ?_ ?_
    · rw [hmask i hi]
      exact decide_eq_false hout
    · rw [getLsbD_field _ hi, decide_eq_false hout, Bool.false_and]

theorem branch_refers (hn : a + (n + 1) ≤ 32) (hmask : ∀ i < 32, mask.getLsbD i = decide (a ≤ i ∧ i < a + (n + 1)))
    (hf : branch kind (s - p) (n + 1) = .ok f) :
    branchTarget p ((insn &&& ~~~mask ||| f <<< a).extractLsb' a (n + 1)) = s ∧
      ∀ i < 32, ¬ (a ≤ i ∧ i < a + (n + 1)) →
        (insn &&& ~~~mask ||| f <<< a).getLsbD i = insn.getLsbD i := by
  obtain ⟨⟨hdvd, hreach⟩, hf⟩ := branch_eq_ok.mp hf
  obtain ⟨hextract, hkeep⟩ := field_patch insn _ hn hmask hf
  refine ⟨?_, hkeep⟩
  rw [hextract, branchTarget, offset_of_reach (n := n) (k := 2) (by omega) hdvd hreach]
  ring

theorem reaches_of_branchTarget (hn : n + 3 ≤ 64) {imm : BitVec (n + 1)} (h : branchTarget p imm = s) :
    4 ∣ (s - p).toInt ∧ -2 ^ (n + 2) ≤ (s - p).toInt ∧ (s - p).toInt < 2 ^ (n + 2) := by
  have hd : offset 2 imm = s - p := by
    rw [← h, branchTarget]
    ring
  exact reach_of_offset (by omega) imm hd

/-! ## ADR and ADRP -/

theorem adrField_eq_ok : adrField kind d = .ok f ↔
    (-2 ^ 20 ≤ d.toInt ∧ d.toInt < 2 ^ 20) ∧ f = adr d := by
  unfold adrField
  split_ifs with hrange
  · simp only [false_iff]
    rintro ⟨⟨hlo, hhi⟩, -⟩
    omega
  · constructor
    · rintro ⟨⟩
      exact ⟨⟨by omega, by omega⟩, rfl⟩
    · rintro ⟨-, rfl⟩
      rfl

theorem getLsbD_adr (hi : i < 32) : (adr d).getLsbD i =
    (decide (29 ≤ i ∧ i < 31) && d.getLsbD (i - 29) ||
      decide (5 ≤ i ∧ i < 24) && d.getLsbD (i - 3)) := by
  have hlow := getLsbD_field (n := 2) (a := 29) (d.setWidth 32) hi
  have hhigh := getLsbD_field (n := 19) (a := 5) (d.setWidth 32 >>> 2) hi
  rw [adr, getLsbD_or]
  refine congrArg₂ _ (hlow.trans ?_) (hhigh.trans ?_)
  · simp only [getLsbD_setWidth]
    simp [show i - 29 < 32 by omega]
  · simp only [getLsbD_ushiftRight, getLsbD_setWidth]
    by_cases h5 : 5 ≤ i
    · simp [show 2 + (i - 5) = i - 3 by omega, show i - 3 < 32 by omega]
    · simp [h5]

theorem imm21_patch : imm21 (insn &&& ~~~0x60ffffe0 ||| adr d) = d.setWidth 21 := by
  rw [imm21, extract_patch (by decide), extract_patch (by decide)]
  refine eq_of_getLsbD_eq fun i hi => ?_
  rw [getLsbD_append, getLsbD_extractLsb', getLsbD_extractLsb',
    getLsbD_setWidth]
  split_ifs with h2
  · rw [getLsbD_adr (by omega)]
    simp [h2, hi, show 29 + i < 31 by omega, show ¬ 29 + i < 24 by omega]
  · rw [getLsbD_adr (by omega)]
    simp [hi, show i - 2 < 19 by omega, show ¬ 29 ≤ 5 + (i - 2) by omega,
      show 5 + (i - 2) < 24 by omega, show 5 + (i - 2) - 3 = i by omega]

theorem adr_outside (hi : i < 32) (hout : ¬ (5 ≤ i ∧ i < 24 ∨ 29 ≤ i ∧ i < 31)) :
    (insn &&& ~~~0x60ffffe0 ||| adr d).getLsbD i = insn.getLsbD i := by
  have hmask : ∀ i < 32, ¬ (5 ≤ i ∧ i < 24 ∨ 29 ≤ i ∧ i < 31) →
      (0x60ffffe0 : BitVec 32).getLsbD i = false := by decide
  refine getLsbD_patch hi (hmask i hi hout) ?_
  rw [getLsbD_adr hi]
  simp [show ¬ (29 ≤ i ∧ i < 31) by omega, show ¬ (5 ≤ i ∧ i < 24) by omega]

theorem page_sub_dvd (s p : BitVec 64) : 2 ^ 12 ∣ (page s - page p).toInt := by
  have hs := toNat_page s
  have hp := toNat_page p
  have hlt := (page s).isLt
  have hlt' := (page p).isLt
  rw [toInt_eq_toNat_cond, toNat_sub]
  omega

theorem low_toNat (s : BitVec 64) : (s &&& 0xfff).toNat = s.toNat % 2 ^ 12 := by
  rw [toNat_and]
  exact Nat.and_two_pow_sub_one_eq_mod s.toNat 12

theorem page_add_eq : page s + x = s ↔ x = s &&& 0xfff := by
  constructor
  · intro h
    exact add_left_cancel (h.trans (page_add_low s).symm)
  · rintro rfl
    exact page_add_low s

theorem setWidth_eq_field (hn : n ≤ 32) (hx : x.toNat < 2 ^ n) :
    x.setWidth 32 = x.setWidth 32 &&& BitVec.ofNat 32 (2 ^ n - 1) := by
  have h32 : 2 ^ n ≤ 2 ^ 32 := Nat.pow_le_pow_right (by omega) hn
  refine eq_of_toNat_eq ?_
  rw [toNat_and, toNat_ofNat, toNat_setWidth, Nat.mod_eq_of_lt (by omega),
    Nat.mod_eq_of_lt (by omega), Nat.and_two_pow_sub_one_of_lt_two_pow hx]

/-! ## The kinds -/

/-- What is shown of a kind: when `apply` patches a word, that the word refers to the
    target and is otherwise the instruction, and that no word does if `apply` fails. -/
structure Kind.Right (kind : Kind) (insn : BitVec 32) (s p : BitVec 64) : Prop where
  reaches : (∃ w, apply kind insn s p = .ok w) ↔ kind.Reaches s p
  refers : ∀ w, apply kind insn s p = .ok w → kind.Refers w s p
  outside : ∀ w, apply kind insn s p = .ok w → ∀ i < 32, ¬ kind.bits i → w.getLsbD i = insn.getLsbD i
  only : ∀ w, kind.Refers w s p → kind.Reaches s p

theorem apply_map {α : Type} {x : Except RelocErr α} {g : α → BitVec 32}
    (hfield : field kind s p = x.map fun f => (mask, g f)) :
    apply kind insn s p = .ok w ↔ ∃ f, x = .ok f ∧ w = insn &&& ~~~mask ||| g f := by
  rw [apply_eq_ok, hfield]
  cases x with
  | error e => simp [Except.map]
  | ok f => simp [Except.map]

theorem right_branch (n a : ℕ) (mask : BitVec 32) (hn : a + (n + 1) ≤ 32)
    (hmask : ∀ i < 32, mask.getLsbD i = decide (a ≤ i ∧ i < a + (n + 1)))
    (hfield : field kind s p =
      (branch kind (s - p) (n + 1)).map fun (f : BitVec 32) => (mask, f <<< a))
    (hreach : kind.Reaches s p ↔
      4 ∣ (s - p).toInt ∧ -2 ^ (n + 2) ≤ (s - p).toInt ∧ (s - p).toInt < 2 ^ (n + 2))
    (hrefers : ∀ w, kind.Refers w s p ↔ branchTarget p (w.extractLsb' a (n + 1)) = s)
    (hbits : ∀ i, kind.bits i ↔ a ≤ i ∧ i < a + (n + 1)) : kind.Right insn s p := by
  refine ⟨?_, fun w hw => ?_, fun w hw i hi hout => ?_, fun w hw => ?_⟩
  · simp only [apply_map hfield, hreach, branch_eq_ok]
    simp
  · obtain ⟨f, hf, rfl⟩ := (apply_map hfield).mp hw
    exact (hrefers _).mpr (branch_refers hn hmask hf).1
  · obtain ⟨f, hf, rfl⟩ := (apply_map hfield).mp hw
    exact (branch_refers hn hmask hf).2 i hi fun h => hout ((hbits i).mpr h)
  · exact hreach.mpr (reaches_of_branchTarget (by omega) ((hrefers w).mp hw))

theorem right_adr {k : ℕ} (hk : 20 + 1 + k ≤ 64) (hdvd : 2 ^ k ∣ d.toInt)
    (hfield : field kind s p =
      (adrField kind (d.sshiftRight k)).map fun f => (0x60ffffe0, f))
    (hreach : kind.Reaches s p ↔ -2 ^ (20 + k) ≤ d.toInt ∧ d.toInt < 2 ^ (20 + k))
    (hrefers : ∀ w, kind.Refers w s p ↔ offset k (imm21 w) = d)
    (hbits : ∀ i, kind.bits i ↔ 5 ≤ i ∧ i < 24 ∨ 29 ≤ i ∧ i < 31) : kind.Right insn s p := by
  have hrange : -2 ^ (20 + k) ≤ d.toInt ∧ d.toInt < 2 ^ (20 + k) ↔
      -2 ^ 20 ≤ (d.sshiftRight k).toInt ∧ (d.sshiftRight k).toInt < 2 ^ 20 := reach_sshiftRight hdvd
  refine ⟨?_, fun w hw => ?_, fun w hw i hi hout => ?_, fun w hw => ?_⟩
  · simp only [apply_map hfield, hreach, hrange, adrField_eq_ok]
    simp
  · obtain ⟨f, hf, rfl⟩ := (apply_map hfield).mp hw
    obtain ⟨hr, rfl⟩ := adrField_eq_ok.mp hf
    rw [hrefers, imm21_patch]
    exact offset_of_reach hk hdvd (hrange.mpr hr)
  · obtain ⟨f, hf, rfl⟩ := (apply_map hfield).mp hw
    obtain ⟨-, rfl⟩ := adrField_eq_ok.mp hf
    exact adr_outside hi fun h => hout ((hbits i).mpr h)
  · exact hreach.mpr (reach_of_offset hk _ ((hrefers w).mp hw)).2

theorem right_bits (n a : ℕ) (mask : BitVec 32) (x : BitVec 64) (ok : Prop) [Decidable ok]
    {e : RelocErr} (hn : a + n ≤ 32)
    (hmask : ∀ i < 32, mask.getLsbD i = decide (a ≤ i ∧ i < a + n)) (hx : x.toNat < 2 ^ n)
    (hfield : field kind s p = if ok then .ok (mask, x.setWidth 32 <<< a) else .error e)
    (hreach : kind.Reaches s p ↔ ok) (hrefers : ∀ w, ok → w.extractLsb' a n = x.setWidth n → kind.Refers w s p)
    (honly : ∀ w, kind.Refers w s p → ok)
    (hbits : ∀ i, kind.bits i ↔ a ≤ i ∧ i < a + n) : kind.Right insn s p := by
  have hw : ∀ w, apply kind insn s p = .ok w ↔
      ok ∧ w = insn &&& ~~~mask ||| x.setWidth 32 <<< a := by
    intro w
    rw [apply_eq_ok, hfield]
    split_ifs with hok <;> simp [hok]
  obtain ⟨hin, hout⟩ := field_patch insn x hn hmask (setWidth_eq_field (by omega) hx)
  refine ⟨?_, fun w h => ?_, fun w h i hi hb => ?_, fun w h => hreach.mpr (honly w h)⟩
  · simp only [hw, hreach]
    simp
  · obtain ⟨hok, rfl⟩ := (hw w).mp h
    exact hrefers _ hok hin
  · obtain ⟨-, rfl⟩ := (hw w).mp h
    exact hout i hi fun h => hb ((hbits i).mpr h)

theorem right_jump26 : Kind.Right .jump26 insn s p := by
  refine right_branch 25 0 0x03ffffff (by omega) (by decide) ?_ .rfl
    (fun w => .rfl) fun i => ?_
  · simp only [field, shiftLeft_zero]
  · simp [Kind.bits]

theorem right_branch19 : Kind.Right .branch19 insn s p :=
  right_branch 18 5 0x00ffffe0 (by omega) (by decide) rfl .rfl
    (fun w => .rfl) fun i => .rfl

theorem right_branch14 : Kind.Right .branch14 insn s p :=
  right_branch 13 5 0x0007ffe0 (by omega) (by decide) rfl .rfl
    (fun w => .rfl) fun i => .rfl

theorem add_eq_iff_eq_sub {y z : BitVec 64} : x + y = z ↔ y = z - x := by
  rw [eq_sub_iff_add_eq, add_comm]

theorem right_adr_kind : Kind.Right .adr insn s p := by
  refine right_adr (k := 0) (d := s - p) (by omega) (by simp) ?_ .rfl
    (fun w => add_eq_iff_eq_sub) fun i => .rfl
  simp only [field, sshiftRight_zero]

theorem right_adrp : Kind.Right .adrp insn s p := by
  refine right_adr (k := 12) (d := page s - page p) (by omega) (page_sub_dvd s p) ?_ .rfl
    (fun w => add_eq_iff_eq_sub) fun i => .rfl
  rw [page_eq, page_eq]
  rfl

theorem lowOffset_eq {scale : ℕ} (hscale : scale ≤ 52) {imm : BitVec 12} :
    page s + lowOffset scale imm = s ↔ imm.toNat * 2 ^ scale = s.toNat % 2 ^ 12 := by
  have himm := imm.isLt
  have hlt : imm.toNat * 2 ^ scale < 2 ^ 64 := by
    calc imm.toNat * 2 ^ scale < 2 ^ 12 * 2 ^ scale := Nat.mul_lt_mul_of_pos_right himm (by positivity)
      _ = 2 ^ (12 + scale) := (Nat.pow_add 2 12 scale).symm
      _ ≤ 2 ^ 64 := Nat.pow_le_pow_right (by omega) (by omega)
  rw [page_add_eq, ← toNat_inj, low_toNat, lowOffset, toNat_shiftLeft,
    toNat_setWidth, Nat.shiftLeft_eq, Nat.mod_eq_of_lt (himm.trans (by omega)),
    Nat.mod_eq_of_lt hlt]

theorem right_ldst {scale : ℕ} (hscale : scale ≤ 52) : Kind.Right (.ldst scale) insn s p := by
  have hoff : ((s &&& 0xfff) >>> scale).toNat = s.toNat % 2 ^ 12 / 2 ^ scale := by
    rw [toNat_ushiftRight, low_toNat, Nat.shiftRight_eq_div_pow]
  have hlt : s.toNat % 2 ^ 12 / 2 ^ scale < 2 ^ 12 :=
    (Nat.div_le_self _ _).trans_lt (Nat.mod_lt _ (by omega))
  refine right_bits 12 10 0x003ffc00 ((s &&& 0xfff) >>> scale)
    (2 ^ scale ∣ s.toNat % 2 ^ 12) (e := .access) (by omega) (by decide) (by rwa [hoff]) ?_ .rfl
    (fun w hok hw => ?_) (fun w hw => ?_) fun i => .rfl
  · simp only [field, low_toNat, Nat.dvd_iff_mod_eq_zero]
    split_ifs <;> first | rfl | omega
  · change page s + lowOffset scale (imm12 w) = s
    rw [lowOffset_eq hscale, imm12, hw, toNat_setWidth, hoff, Nat.mod_eq_of_lt hlt,
      Nat.div_mul_cancel hok]
  · exact Dvd.intro_left _ ((lowOffset_eq hscale).mp hw)

theorem right_addLo12 : Kind.Right .addLo12 insn s p := by
  have h : Kind.Right (.ldst 0) insn s p := right_ldst (by omega)
  have hap : apply (.ldst 0) insn s p = apply .addLo12 insn s p := by
    simp only [apply, field, pow_zero, Nat.mod_one, ushiftRight_zero]
    simp
  obtain ⟨hreach, hrefers, hout, honly⟩ := h
  rw [hap] at hreach hrefers hout
  exact ⟨hreach.trans (by simp [Kind.Reaches]), hrefers, hout, fun _ _ => trivial⟩

theorem right_movw {chunk : ℕ} {check : Bool} : Kind.Right (.movw chunk check) insn s p := by
  have hchunk : ((s >>> (16 * chunk)) &&& 0xffff).toNat = s.toNat / 2 ^ (16 * chunk) % 2 ^ 16 := by
    rw [toNat_and, toNat_ushiftRight, Nat.shiftRight_eq_div_pow]
    exact Nat.and_two_pow_sub_one_eq_mod _ 16
  have hzero : s >>> (16 * (chunk + 1)) = 0 ↔ s.toNat < 2 ^ (16 * (chunk + 1)) := by
    rw [← toNat_inj, toNat_ushiftRight, Nat.shiftRight_eq_div_pow]
    exact Nat.div_eq_zero_iff_lt (by positivity)
  refine right_bits 16 5 0x001fffe0 ((s >>> (16 * chunk)) &&& 0xffff)
    (check → s.toNat < 2 ^ (16 * (chunk + 1))) (e := .chunk) (by omega) (by decide)
    (by rw [hchunk]; exact Nat.mod_lt _ (by omega)) ?_ .rfl (fun w hok hw => ⟨?_, hok⟩)
    (fun w hw => hw.2) fun i => .rfl
  · simp only [field]
    cases check with
    | false => simp
    | true =>
      simp only [Bool.true_and, bne_iff_ne, ne_eq, hzero, forall_const]
      split_ifs <;> rfl
  · rw [imm16, hw, chunkOf]
    refine eq_of_toNat_eq ?_
    rw [toNat_setWidth, hchunk, extractLsb'_toNat, Nat.shiftRight_eq_div_pow, Nat.mod_mod]

/-- **Relocation is right.**  For the kind and instruction of every ARM64 store: `apply`
    patches the instruction exactly when the target is in the field's range and aligned,
    which is when some word refers to it; and then the word patched refers to the target
    and has the instruction's other bits. -/
theorem apply_refers {cmd : Tir} {kind : Kind} {insn : BitVec 32}
    (hcmd : Kind.of cmd = some (kind, insn)) (s p : BitVec 64) :
    ((∃ w, apply kind insn s p = .ok w) ↔ kind.Reaches s p) ∧
    (kind.Reaches s p ↔ ∃ w, kind.Refers w s p) ∧
    ∀ w, apply kind insn s p = .ok w →
      kind.Refers w s p ∧ ∀ i < 32, ¬ kind.bits i → w.getLsbD i = insn.getLsbD i := by
  have hright : kind.Right insn s p := by
    cases cmd <;> simp only [Kind.of, reduceCtorEq, Option.some.injEq, Prod.mk.injEq] at hcmd <;>
      obtain ⟨rfl, rfl⟩ := hcmd
    case stoA64Jump26 => exact right_jump26
    case stoA64Branch19 => exact right_branch19
    case stoA64Branch14 => exact right_branch14
    case stoA64Adr => exact right_adr_kind
    case stoA64Adrp => exact right_adrp
    case stoA64AddLo12 => exact right_addLo12
    all_goals first | exact right_movw | exact right_ldst (by omega)
  refine ⟨hright.reaches, ⟨fun h => ?_, fun h => ?_⟩,
    fun w hw => ⟨hright.refers w hw, hright.outside w hw⟩⟩
  · obtain ⟨w, hw⟩ := hright.reaches.mpr h
    exact ⟨w, hright.refers w hw⟩
  · obtain ⟨w, hw⟩ := h
    exact hright.only w hw

/-- `bl .+8`. -/
theorem apply_refers_bl : Kind.of (.stoA64Jump26 0x94000000) = some (.jump26, 0x94000000) ∧
    Kind.jump26.Refers 0x94000002 0x10008 0x10000 := by
  have hcmd : Kind.of (.stoA64Jump26 0x94000000) = some (.jump26, 0x94000000) := rfl
  exact ⟨hcmd, ((apply_refers hcmd 0x10008 0x10000).2.2 0x94000002 (by decide)).1⟩

end

end Obj
