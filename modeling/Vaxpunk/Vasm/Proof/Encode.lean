/-
  An instruction encoded at once is the one that the linker would make of it.
-/
import Mathlib
import Vaxpunk.Obj.Reloc
import Vaxpunk.Vasm.Encode

namespace Vasm

open BitVec

variable {p bits shift : ℕ} {a b base d : BitVec 64} {w mask : BitVec 32} {kind : Obj.Kind} {fix : Fix}

/-- Both encodings give the same word, or both fail, neither by a panic. -/
def Agrees (x : Except EncodeError Encoded) (y : Except Obj.RelocErr (BitVec 32)) : Prop :=
  (∃ w, x = .ok ⟨w, none⟩ ∧ y = .ok w) ∨ ∃ e e', x = .error e ∧ e ≠ .panic ∧ y = .error e'

theorem not_agrees_panic {y : Except Obj.RelocErr (BitVec 32)} : ¬ Agrees (.error .panic) y := by
  rintro (⟨w, h, -⟩ | ⟨e, e', h, hne, -⟩)
  · cases h
  · cases h
    exact hne rfl

theorem sdiv_four (h : d.toInt.tmod 4 = 0) : d.sdiv 4 = d.sshiftRight 2 := by
  apply eq_of_toInt_eq
  rw [toInt_sdiv_of_ne_or_ne _ _ (.inr (by decide)), toInt_sshiftRight,
    Int.shiftRight_eq_div_pow]
  exact Int.tdiv_eq_ediv_of_dvd (Int.dvd_of_tmod_eq_zero h)

theorem target_same (hfix : fix ≠ .adrp) : target (.psect p b) (.psect p a) fix =
    if BitVec.ssubOverflow a b then .error .panic else .ok (.inl (a - b)) := by
  simp [target, hfix]

theorem distance (a b base : BitVec 64) : base + a - (base + b) = a - b := by ring

theorem patch (hw : w &&& mask = 0) (f : BitVec 32) : w &&& ~~~mask ||| f = w ||| f := by
  have hkeep : w &&& ~~~mask = w := by
    ext i hi
    have hbit := congrArg (·.getLsbD i) hw
    simp at hbit ⊢
    tauto
  rw [hkeep]

theorem or_clear {x y : BitVec 32} (hx : x &&& mask = 0) (hy : y &&& mask = 0) :
    (x ||| y) &&& mask = 0 := by
  rw [and_or_distrib_right, hx, hy]
  rfl

theorem register_clear (hm : mask.setWidth 5 = 0) (r : BitVec 5) : r.setWidth 32 &&& mask = 0 := by
  ext i hi
  have hbit := congrArg (·.getLsbD i) hm
  simp only [getLsbD_setWidth] at hbit
  by_cases h5 : i < 5
  · simp_all
  · simp [getLsbD_of_ge r i (by omega)]

theorem branch_agrees (mask : BitVec 32) (hfix : fix ≠ .adrp) (hw : w &&& mask = 0)
    (hfield : ∀ s q, Obj.field kind s q =
      (Obj.branch kind (s - q) bits).map fun (f : BitVec 32) => (mask, f <<< shift)) :
    Agrees (branch w fix bits shift (.psect p b) (.psect p a))
      (Obj.apply kind w (base + a) (base + b)) ↔ BitVec.ssubOverflow a b = false := by
  unfold branch Obj.apply
  rw [target_same hfix, hfield, distance]
  by_cases hov : BitVec.ssubOverflow a b = true
  · rw [if_pos hov, hov]
    exact iff_of_false not_agrees_panic (by decide)
  · rw [if_neg hov]
    refine iff_of_true ?_ (Bool.eq_false_iff.mpr hov)
    change Agrees (disp (a - b) bits >>= fun f => .ok ⟨w ||| f <<< shift, none⟩) _
    unfold disp Obj.branch
    split_ifs with hal hrange
    · exact .inr ⟨_, _, rfl, by decide, rfl⟩
    · exact .inr ⟨_, _, rfl, by simp, rfl⟩
    · refine .inl ⟨_, rfl, ?_⟩
      rw [sdiv_four (not_not.mp hal)]
      exact congrArg Except.ok (patch hw _)

theorem adr_agrees (rd : BitVec 5) : Agrees (encode (.adr rd) (.psect p b) (.psect p a))
    (Obj.apply .adr (Insn.adr rd).word (base + a) (base + b)) ↔ BitVec.ssubOverflow a b = false := by
  have hw : (Insn.adr rd).word &&& 0x60ffffe0 = 0 :=
    or_clear (by decide) (register_clear (by decide) rd)
  unfold encode adrInsn Obj.apply Obj.field
  simp only [Insn.fix]
  rw [target_same (by decide), distance]
  by_cases hov : BitVec.ssubOverflow a b = true
  · rw [if_pos hov, hov]
    exact iff_of_false not_agrees_panic (by decide)
  · rw [if_neg hov]
    refine iff_of_true ?_ (Bool.eq_false_iff.mpr hov)
    change Agrees (signed21 (a - b) >>= fun _ =>
      .ok ⟨0x10000000 ||| adrField (a - b) ||| rd.setWidth 32, none⟩) _
    unfold signed21 Obj.adrField
    split_ifs
    · exact .inr ⟨_, _, rfl, by simp, rfl⟩
    · refine .inl ⟨_, rfl, congrArg Except.ok ((patch hw _).trans ?_)⟩
      unfold Insn.word
      rw [BitVec.or_assoc, or_comm (rd.setWidth 32), ← BitVec.or_assoc]
      rfl

/-- **The same instruction**, encoded at once or left to the linker, which may put the
    psect anywhere: exactly if the distance between the offsets is a 64-bit number. -/
theorem encode_agrees (i : Insn) (hi : ∀ rd, i ≠ .adrp rd) (p : ℕ) (a b base : BitVec 64) :
    ∃ kind, Obj.Kind.of (store i.fix i.word) = some (kind, i.word) ∧
      (Agrees (encode i (.psect p b) (.psect p a)) (Obj.apply kind i.word (base + a) (base + b)) ↔
        BitVec.ssubOverflow a b = false) := by
  cases i with
  | b link => 
    refine ⟨.jump26, rfl, branch_agrees 0x03ffffff (by simp [Insn.fix]) ?_ fun s q => ?_⟩
    · cases link <;> decide
    · simp [Obj.field]
  | bCond c =>
    refine ⟨.branch19, rfl, branch_agrees 0x00ffffe0 (by simp [Insn.fix]) ?_ fun s q => rfl⟩
    revert c
    decide
  | cbz nonzero sf rt =>
    refine ⟨.branch19, rfl, branch_agrees 0x00ffffe0 (by simp [Insn.fix]) ?_ fun s q => rfl⟩
    refine or_clear ?_ (register_clear (by decide) rt)
    cases nonzero <;> cases sf <;> decide
  | tbz nonzero bit rt =>
    refine ⟨.branch14, rfl, branch_agrees 0x0007ffe0 (by simp [Insn.fix]) ?_ fun s q => rfl⟩
    refine or_clear (or_clear (or_clear (or_clear (by decide) ?_) ?_) ?_) ?_
    · exact (by decide : ∀ bit : BitVec 6, (bit.setWidth 32 >>> 5) <<< 31 &&& 0x0007ffe0#32 = 0) bit
    · cases nonzero <;> decide
    · exact (by decide : ∀ bit : BitVec 6,
        (bit.setWidth 32 &&& 31) <<< 19 &&& 0x0007ffe0#32 = 0) bit
    · exact register_clear (by decide) rt
  | ldr lit rt =>
    refine ⟨.branch19, rfl, branch_agrees 0x00ffffe0 (by simp [Insn.fix]) ?_ fun s q => rfl⟩
    refine or_clear ?_ (register_clear (by decide) rt)
    cases lit <;> decide
  | adr rd => exact ⟨.adr, rfl, adr_agrees rd⟩
  | adrp rd => exact absurd rfl (hi rd)

/-- `B .-2^63` at offset 4: the distance of the offsets overflows, where the linker
    finds the target out of range. -/
theorem encode_overflow : encode (.b false) (.psect 0 4) (.psect 0 (BitVec.intMin 64)) =
      .error .panic ∧
    Obj.apply .jump26 (Insn.b false).word (0 + BitVec.intMin 64) (0 + 4) =
      .error (.range .jump26) := by
  decide

/-- A CBNZ back by 16 bytes, in a psect at 20000 (hex). -/
theorem encode_agrees_back : ∃ kind, Obj.Kind.of (store .branch19 0xb5000003) =
      some (kind, 0xb5000003) ∧
    (Agrees (encode (.cbz true true 3) (.psect 0 0x30) (.psect 0 0x20))
      (Obj.apply kind 0xb5000003 (0x20000 + 0x20) (0x20000 + 0x30)) ↔
        BitVec.ssubOverflow (0x20 : BitVec 64) 0x30 = false) :=
  encode_agrees (.cbz true true 3) (by simp) 0 0x20 0x30 0x20000

end Vasm
