/-
  Weights are right, for what operators push and for what stores leave: what needs
  nothing stays as it is when the image moves, and what needs a fixup changes by the
  distance.
-/
import Vaxpunk.Lib.Words
import Vaxpunk.Obj.Proof.Reloc

namespace Obj

open Words BitVec

/-- The bytes that a store command leaves at `p` for the value `v`.  Commands that
    store no computed value leave the same bytes whatever `v` is. -/
def storeBytes (cmd : Tir) (v p : BitVec 64) : Except RelocErr (List (BitVec 8)) :=
  match cmd with
  | .stoQw | .stoOff | .stoGbl _ | .stoCa _ => .ok (le 8 v.toNat)
  | .stoLw => .ok (le 4 v.toNat)
  | .stoW => .ok (le 2 v.toNat)
  | .stoB => .ok (le 1 v.toNat)
  -- the value is how often the data is stored
  | .stoImmr data => .ok (List.replicate v.toNat data).flatten
  | .stoImm data => .ok data
  | cmd => match Kind.of cmd with
    | none => .ok []
    | some (kind, insn) => (apply kind insn v p).map fun word => le 4 word.toNat

/-- A longword address is stored only if it fits, signed. -/
def FitsLong (v : BitVec 64) : Prop := -2 ^ 31 ≤ v.toInt ∧ v.toInt < 2 ^ 31

instance (v : BitVec 64) : Decidable (FitsLong v) := inferInstanceAs (Decidable (_ ∧ _))

/-- The longword that four bytes are, signed. -/
def longOf (bytes : List (BitVec 8)) : ℤ := (BitVec.ofNat 32 (ofLe bytes)).toInt

section
variable {d : BitVec 64}

variable {k : Weight} {address : Need}

theorem needData_nothing (ha : address ≠ .nothing) (h : needData k address = .nothing) : k = some 0 := by
  unfold needData at h
  split_ifs at h with h0 h1
  · exact h0
  · exact absurd h ha

variable {size : ℕ}

theorem needData_fixup (h : needData k address = .fixup size) : k = some 1 ∧ address = .fixup size := by
  unfold needData at h
  split_ifs at h with h0 h1
  exact ⟨h1, h⟩

variable {cmd : Tir}

theorem need_insn {kind : Kind} {insn : BitVec 32} (h : Kind.of cmd = some (kind, insn)) :
    need cmd k = (if kind.moves k then .nothing else .impossible) ∧
      ∀ v p, storeBytes cmd v p = (apply kind insn v p).map fun word => le 4 word.toNat := by
  cases cmd <;> simp only [Kind.of, reduceCtorEq, Option.some.injEq, Prod.mk.injEq] at h <;>
    obtain ⟨rfl, rfl⟩ := h <;> exact ⟨rfl, fun _ _ => rfl⟩

/-- **What needs nothing stays**: the bytes are the same at both places. -/
theorem storeBytes_of_nothing {v v' p p' : BitVec 64} {k' : Weight}
    (hneed : need cmd k = .nothing) (hd : 2 ^ 16 ∣ d.toNat) (hv : Moves d (v, k) (v', k'))
    (hp : p' = p + d) : storeBytes cmd v' p' = storeBytes cmd v p := by
  have hconst : k = some 0 → v' = v := fun h0 => congrArg Prod.fst (hv.eq_of_zero h0)
  cases hkind : Kind.of cmd with
  | some x =>
    obtain ⟨hn, hbytes⟩ := need_insn (k := k) hkind
    rw [hn] at hneed
    have hm : x.1.moves k := by
      by_contra hm
      rw [if_neg hm] at hneed
      cases hneed
    rw [hbytes, hbytes, apply_moves hm hd hv hp]
  | none =>
    cases cmd with
    | stoQw | stoOff | stoGbl | stoCa | stoLw | stoW | stoB | stoImmr data =>
      simp only [storeBytes, hconst (needData_nothing (by simp) hneed)]
    | stoImm => rfl
    | _ => first | rfl | cases hkind

theorem need_fixup (h : need cmd k = .fixup size) :
    k = some 1 ∧ (size = 8 ∨ size = 4) ∧ ∀ v p, storeBytes cmd v p = .ok (le size v.toNat) := by
  cases hkind : Kind.of cmd with
  | some x =>
    rw [(need_insn hkind).1] at h
    split_ifs at h
  | none =>
    cases cmd with
    | stoQw | stoOff | stoGbl | stoCa =>
      obtain ⟨hk, ha⟩ := needData_fixup h
      cases ha
      exact ⟨hk, .inl rfl, fun _ _ => rfl⟩
    | stoLw =>
      obtain ⟨hk, ha⟩ := needData_fixup h
      cases ha
      exact ⟨hk, .inr rfl, fun _ _ => rfl⟩
    | stoW | stoB | stoImmr => cases (needData_fixup h).2
    | _ => first | cases h | cases hkind

theorem ofNat_ofLe_add (size : ℕ) (hsize : 8 * size ≤ 64) (v : BitVec 64) :
    BitVec.ofNat (8 * size) (ofLe (le size (v + d).toNat)) =
      BitVec.ofNat (8 * size) (ofLe (le size v.toNat)) + d.setWidth (8 * size) := by
  refine eq_of_toNat_eq ?_
  have hdvd : 2 ^ (8 * size) ∣ 2 ^ 64 := Nat.pow_dvd_pow 2 hsize
  simp only [ofLe_le, toNat_ofNat, toNat_add, toNat_setWidth, Nat.mod_mod]
  rw [Nat.mod_mod_of_dvd _ hdvd, Nat.add_mod]

theorem longOf_add {v : BitVec 64} (hv : FitsLong v) (hv' : FitsLong (v + d)) :
    longOf (le 4 (v + d).toNat) = longOf (le 4 v.toNat) + d.toInt := by
  have hlong : ∀ w : BitVec 64, FitsLong w → longOf (le 4 w.toNat) = w.toInt := by
    intro w hw
    unfold FitsLong at hw
    rw [longOf, ofLe_le, toInt_eq_toNat_cond, toNat_ofNat]
    rw [toInt_eq_toNat_cond] at hw ⊢
    omega
  rw [hlong _ hv, hlong _ hv']
  unfold FitsLong at hv hv'
  simp only [toInt_eq_toNat_cond, toNat_add] at hv hv' ⊢
  omega

/-- **Weights are right.**  If the operands of an operator change by their weights times
    `d`, so does its result, by the weight it is given.  If the value that a command
    stores does, at a place that moves with the image, by a multiple of 64 KB, then the
    bytes stored are the same when the command needs nothing, and the field stored
    changes by `d` when it needs a fixup: modulo its size and, for a longword that is
    stored at both places, as a signed number. -/
theorem weights_right (d : BitVec 64) :
    (∀ op n args args', operands op = some n → args.length = n →
      List.Forall₂ (Moves d) args args' →
      ∀ k, weight op args = some k →
        (operate op args').1 = (operate op args).1 + BitVec.ofInt 64 k * d) ∧
    (2 ^ 16 ∣ d.toNat → ∀ cmd k v v' p, (∀ n, k = some n → v' = v + BitVec.ofInt 64 n * d) →
      (need cmd k = .nothing → storeBytes cmd v' (p + d) = storeBytes cmd v p) ∧
      ∀ size, need cmd k = .fixup size → ∃ old new,
        storeBytes cmd v p = .ok old ∧ storeBytes cmd v' (p + d) = .ok new ∧
        old.length = size ∧ new.length = size ∧
        BitVec.ofNat (8 * size) (ofLe new) =
          BitVec.ofNat (8 * size) (ofLe old) + d.setWidth (8 * size) ∧
        (size = 4 → FitsLong v → FitsLong v' → longOf new = longOf old + d.toInt)) := by
  refine ⟨fun op n args args' hop hlen h k hk => (operate_moves hop hlen h).2 k hk,
    fun hd cmd k v v' p hv => ⟨fun hneed => ?_, fun size hneed => ?_⟩⟩
  · have hmoves : Moves d (v, k) (v', k) := ⟨rfl, hv⟩
    exact storeBytes_of_nothing hneed hd hmoves rfl
  · obtain ⟨rfl, hsize, hbytes⟩ := need_fixup hneed
    obtain rfl : v' = v + d := by simpa using hv 1 rfl
    refine ⟨_, _, hbytes v p, hbytes _ _, length_le _ _, length_le _ _, ?_, ?_⟩
    · exact ofNat_ofLe_add size (by omega) v
    · rintro rfl hfit hfit'
      exact longOf_add hfit hfit'

/-- Twice an address, less another; a branch and a longword that hold one. -/
theorem weights_right_at_64K :
    (operate .oprSub [(0x20060, some 2), (0x10050, some 1)]).1 =
      (operate .oprSub [(0x60, some 2), (0x50, some 1)]).1 + BitVec.ofInt 64 1 * 0x10000 ∧
    storeBytes (.stoA64Jump26 0x14000000) 0x10040 (0x20 + 0x10000) =
      storeBytes (.stoA64Jump26 0x14000000) 0x40 0x20 ∧
    ∃ old new, storeBytes .stoLw 0x40 0x20 = .ok old ∧
      storeBytes .stoLw 0x10040 (0x20 + 0x10000) = .ok new ∧
      longOf new = longOf old + (0x10000 : BitVec 64).toInt := by
  obtain ⟨hop, hstore⟩ := weights_right 0x10000
  have hd : 2 ^ 16 ∣ (0x10000 : BitVec 64).toNat := by decide
  have haddr : ∀ n, some 1 = some n →
      (0x10040 : BitVec 64) = 0x40 + BitVec.ofInt 64 n * 0x10000 := by
    rintro n ⟨⟩
    decide
  refine ⟨?_, (hstore hd _ (some 1) _ _ _ haddr).1 (by decide), ?_⟩
  · have hx : Moves 0x10000 (0x60, some 2) (0x20060, some 2) := by
      refine ⟨rfl, ?_⟩
      rintro n ⟨⟩
      decide
    have hy : Moves 0x10000 (0x50, some 1) (0x10050, some 1) := .address (by decide)
    exact hop .oprSub 2 _ _ rfl rfl (.cons hx (.cons hy .nil)) 1 (by decide)
  · obtain ⟨old, new, hold, hnew, -, -, -, hlong⟩ :=
      (hstore hd .stoLw (some 1) _ _ 0x20 haddr).2 4 (by decide)
    exact ⟨old, new, hold, hnew, hlong rfl (by decide) (by decide)⟩

end

end Obj
