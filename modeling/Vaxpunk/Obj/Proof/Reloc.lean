/-
  Weights are right: a value of weight k changes by k × D when the image moves by D,
  and the fields that need nothing do not change.
-/
import Vaxpunk.Obj.Reloc

namespace Obj

open List

variable {x y x' y' : Value} {args args' : List Value} {op : Tir} {kind : Kind}

/-- `y` is `x` in an image moved by `d`. -/
def Moves (d : BitVec 64) (x y : Value) : Prop :=
  y.2 = x.2 ∧ ∀ k, x.2 = some k → y.1 = x.1 + BitVec.ofInt 64 k * d

section
variable {d : BitVec 64}

theorem Moves.eq_of_zero (h : Moves d x y) (h0 : x.2 = some 0) : y = x := by
  refine Prod.ext ?_ h.1
  rw [h.2 0 h0]
  simp

theorem Moves.const (v : BitVec 64) : Moves d (v, some 0) (v, some 0) := by
  refine ⟨rfl, fun k hk => ?_⟩
  cases hk
  simp

theorem Moves.address {v w : BitVec 64} (h : w = v + d) : Moves d (v, some 1) (w, some 1) := by
  refine ⟨rfl, fun k hk => ?_⟩
  cases hk
  rw [h]
  simp

theorem eq_of_all_zero (h : List.Forall₂ (Moves d) args args') (h0 : args.all (·.2 = some 0)) :
    args' = args := by
  induction h with
  | nil => rfl
  | cons hx _ ih =>
    rw [all_cons, Bool.and_eq_true, decide_eq_true_eq] at h0
    rw [hx.eq_of_zero h0.1, ih h0.2]

theorem all_zero_congr (h : List.Forall₂ (Moves d) args args') :
    args'.all (·.2 = some 0) = args.all (·.2 = some 0) := by
  induction h with
  | nil => rfl
  | cons hx _ ih => rw [all_cons, all_cons, ih, hx.1]

theorem i64?_eq_some {k n : ℤ} (h : i64? k = some n) : n = k := by
  unfold i64? at h
  split_ifs at h
  exact (Option.some.inj h).symm

theorem operate_snd : (operate op args).2 = weight op args := rfl

theorem moves_of_all_zero (h : List.Forall₂ (Moves d) args args')
    (hw : ∀ args, args.length = args'.length → weight op args = if args.all (·.2 = some 0) then some 0 else none) :
    Moves d (operate op args) (operate op args') := by
  have hlen := h.length_eq
  by_cases h0 : args.all (·.2 = some 0)
  · rw [eq_of_all_zero h h0]
    refine ⟨rfl, fun k hk => ?_⟩
    rw [operate, hw args hlen, if_pos h0] at hk
    cases hk
    simp
  · refine ⟨?_, fun k hk => ?_⟩
    · simp only [operate]
      rw [hw args hlen, hw args' rfl, all_zero_congr h]
    · rw [operate, hw args hlen, if_neg h0] at hk
      cases hk

theorem Moves.of_some (h : Moves d x y) {k : ℤ} (hk : x.2 = some k) : y = (x.1 + BitVec.ofInt 64 k * d, some k) :=
  Prod.ext (h.2 k hk) (h.1.trans hk)

theorem Moves.eq_add (h : Moves d x y) (h1 : x.2 = some 1) : y.1 = x.1 + d := by
  rw [h.2 1 h1]
  simp

section
variable (hx : Moves d x x')
include hx

theorem moves_of_two (hy : Moves d y y') (hnone : ∀ x y : Value, x.2 = none ∨ y.2 = none → weight op [x, y] = none)
    (hsome : ∀ x y a b, Moves d (operate op [(x, some a), (y, some b)])
      (operate op [(x + BitVec.ofInt 64 a * d, some a), (y + BitVec.ofInt 64 b * d, some b)])) :
    Moves d (operate op [x, y]) (operate op [x', y']) := by
  by_cases hn : x.2 = none ∨ y.2 = none
  · refine ⟨?_, fun k hk => ?_⟩
    · change weight op [x', y'] = weight op [x, y]
      rw [hnone x y hn, hnone x' y' (by rw [hx.1, hy.1]; exact hn)]
    · change weight op [x, y] = some k at hk
      rw [hnone x y hn] at hk
      cases hk
  · push Not at hn
    obtain ⟨a, ha⟩ := Option.ne_none_iff_exists'.mp hn.1
    obtain ⟨b, hb⟩ := Option.ne_none_iff_exists'.mp hn.2
    rw [hx.of_some ha, hy.of_some hb]
    have h := hsome x.1 y.1 a b
    rwa [← ha, ← hb] at h ⊢

theorem add_moves (hy : Moves d y y') : Moves d (operate .oprAdd [x, y]) (operate .oprAdd [x', y']) := by
  refine moves_of_two hx hy ?_ fun x y a b => ⟨rfl, fun k hk => ?_⟩
  · rintro ⟨x, a⟩ ⟨y, b⟩ (rfl | rfl)
    · rfl
    · cases a <;> rfl
  · rw [i64?_eq_some hk, BitVec.ofInt_add]
    change x + _ + (y + _) = x + y + _
    ring

theorem sub_moves (hy : Moves d y y') : Moves d (operate .oprSub [x, y]) (operate .oprSub [x', y']) := by
  refine moves_of_two hx hy ?_ fun x y a b => ⟨rfl, fun k hk => ?_⟩
  · rintro ⟨x, a⟩ ⟨y, b⟩ (rfl | rfl)
    · rfl
    · cases a <;> rfl
  · rw [i64?_eq_some hk, sub_eq_add_neg a b, BitVec.ofInt_add, BitVec.ofInt_neg]
    change x + _ - (y + _) = x - y + _
    ring

theorem mul_moves (hy : Moves d y y') : Moves d (operate .oprMul [x, y]) (operate .oprMul [x', y']) := by
  refine moves_of_two hx hy ?_ fun x y a b => ?_
  · rintro ⟨x, a⟩ ⟨y, b⟩ (rfl | rfl)
    · rfl
    · cases a <;> rfl
  · have hw : ∀ x y : BitVec 64, weight .oprMul [(x, some a), (y, some b)] =
        if a = 0 then i64? (b * x.toInt) else if b = 0 then i64? (a * y.toInt) else none :=
      fun _ _ => rfl
    by_cases ha : a = 0
    · subst ha
      refine ⟨?_, fun k hk => ?_⟩
      · rw [operate_snd, operate_snd, hw, hw]
        simp
      · rw [operate_snd, hw, if_pos rfl] at hk
        change (x + _) * (y + _) = x * y + _
        rw [i64?_eq_some hk, BitVec.ofInt_mul, BitVec.ofInt_toInt]
        rw [show BitVec.ofInt 64 0 = 0 from rfl]
        ring
    · by_cases hb : b = 0
      · subst hb
        refine ⟨?_, fun k hk => ?_⟩
        · rw [operate_snd, operate_snd, hw, hw]
          simp
        · rw [operate_snd, hw, if_neg ha, if_pos rfl] at hk
          change (x + _) * (y + _) = x * y + _
          rw [i64?_eq_some hk, BitVec.ofInt_mul, BitVec.ofInt_toInt]
          rw [show BitVec.ofInt 64 0 = 0 from rfl]
          ring
      · refine ⟨?_, fun k hk => ?_⟩
        · rw [operate_snd, operate_snd, hw, hw, if_neg ha, if_neg ha, if_neg hb, if_neg hb]
        · rw [operate_snd, hw, if_neg ha, if_neg hb] at hk
          cases hk

theorem neg_moves : Moves d (operate .oprNeg [x]) (operate .oprNeg [x']) := by
  obtain ⟨x, a⟩ := x
  cases a with
  | none =>
    obtain ⟨x', a'⟩ := x'
    obtain rfl : a' = none := hx.1
    exact ⟨rfl, fun k hk => by cases hk⟩
  | some a =>
    rw [hx.of_some rfl]
    refine ⟨rfl, fun k hk => ?_⟩
    rw [i64?_eq_some hk, BitVec.ofInt_neg]
    change -(x + _) = -x + _
    ring

end

/-- **Operators keep weights right.** -/
theorem operate_moves {n : ℕ} (hop : operands op = some n) (hlen : args.length = n)
    (h : List.Forall₂ (Moves d) args args') :
    Moves d (operate op args) (operate op args') := by
  cases op <;> simp only [operands, reduceCtorEq, Option.some.injEq] at hop <;> subst hop
  case oprAdd =>
    obtain ⟨x, y, rfl⟩ := length_eq_two.mp hlen
    obtain _ | ⟨hx, _ | ⟨hy, _ | _⟩⟩ := h
    exact add_moves hx hy
  case oprSub =>
    obtain ⟨x, y, rfl⟩ := length_eq_two.mp hlen
    obtain _ | ⟨hx, _ | ⟨hy, _ | _⟩⟩ := h
    exact sub_moves hx hy
  case oprMul =>
    obtain ⟨x, y, rfl⟩ := length_eq_two.mp hlen
    obtain _ | ⟨hx, _ | ⟨hy, _ | _⟩⟩ := h
    exact mul_moves hx hy
  case oprNeg =>
    obtain ⟨x, rfl⟩ := length_eq_one_iff.mp hlen
    obtain _ | ⟨hx, _ | _⟩ := h
    exact neg_moves hx
  all_goals exact moves_of_all_zero h fun _ _ => rfl

/-! ## Fields -/

theorem and_mask_add {n : ℕ} (hn : n ≤ 16) (hd : 2 ^ 16 ∣ d.toNat) (s : BitVec 64) :
    (s + d) &&& BitVec.ofNat 64 (2 ^ n - 1) = s &&& BitVec.ofNat 64 (2 ^ n - 1) := by
  have hlt : 2 ^ n - 1 < 2 ^ 64 := by
    have := Nat.pow_le_pow_right (show 0 < 2 by omega) hn
    omega
  refine BitVec.eq_of_toNat_eq ?_
  rw [BitVec.toNat_and, BitVec.toNat_and, BitVec.toNat_ofNat, Nat.mod_eq_of_lt hlt,
    Nat.and_two_pow_sub_one_eq_mod, Nat.and_two_pow_sub_one_eq_mod, BitVec.toNat_add]
  obtain ⟨q, hq⟩ := (Nat.pow_dvd_pow 2 hn).trans hd
  rw [Nat.mod_mod_of_dvd _ (Nat.pow_dvd_pow 2 (by omega)), hq, Nat.add_mul_mod_self_left]

theorem and_not_eq (s m : BitVec 64) : s &&& ~~~m = s - (s &&& m) := by
  rw [eq_sub_iff_add_eq, BitVec.add_eq_or_of_and_eq_zero]
  · ext i hi
    simp only [BitVec.getElem_or, BitVec.getElem_and, BitVec.getElem_not]
    cases s[i] <;> cases m[i] <;> rfl
  · ext i hi
    simp only [BitVec.getElem_and, BitVec.getElem_not, BitVec.getElem_zero]
    cases s[i] <;> cases m[i] <;> rfl

theorem low12_add (hd : 2 ^ 16 ∣ d.toNat) (s : BitVec 64) : (s + d) &&& 0xfff = s &&& 0xfff :=
  and_mask_add (n := 12) (by omega) hd s

theorem low16_add (hd : 2 ^ 16 ∣ d.toNat) (s : BitVec 64) : (s + d) &&& 0xffff = s &&& 0xffff :=
  and_mask_add (n := 16) le_rfl hd s

theorem page_add (hd : 2 ^ 16 ∣ d.toNat) (s : BitVec 64) :
    (s + d) &&& ~~~0xfff = (s &&& ~~~0xfff) + d := by
  rw [and_not_eq, and_not_eq, low12_add hd]
  ring

theorem field_address (hm : kind.moves (some 1)) (hd : 2 ^ 16 ∣ d.toNat) (s p : BitVec 64) :
    field kind (s + d) (p + d) = field kind s p := by
  have hsub : s + d - (p + d) = s - p := by ring
  cases kind with
  | jump26 | branch19 | branch14 | adr => simp only [field, hsub]
  | adrp =>
    have hpage : (s &&& ~~~0xfff) + d - ((p &&& ~~~0xfff) + d) =
        (s &&& ~~~0xfff) - (p &&& ~~~0xfff) := by ring
    simp only [field, page_add hd, hpage]
  | addLo12 | ldst scale => simp only [field, low12_add hd]
  | movw chunk check =>
    obtain ⟨rfl, rfl⟩ : chunk = 0 ∧ check = false := by
      match chunk, check, hm with
      | 0, false, _ => exact ⟨rfl, rfl⟩
      | 0, true, hm => simp [Kind.moves] at hm
      | _ + 1, _, hm => simp [Kind.moves] at hm
    have hshift : ∀ x : BitVec 64, x >>> (16 * 0) = x := fun x => by simp
    simp only [field, hshift, low16_add hd]
    rfl

theorem field_const (hm : kind.moves (some 0)) (s p p' : BitVec 64) :
    field kind s p' = field kind s p := by
  cases kind <;> first | rfl | simp [Kind.moves] at hm

theorem weight_of_moves {k : Weight} (hm : kind.moves k) :
    k = some 0 ∨ k = some 1 := by
  cases kind with
  | movw chunk check =>
    match chunk, check, hm with
    | 0, false, hm => simpa [Kind.moves] using hm
    | 0, true, hm => exact .inl (by simpa [Kind.moves] using hm)
    | _ + 1, _, hm => exact .inl (by simpa [Kind.moves] using hm)
  | addLo12 | ldst scale => simpa [Kind.moves] using hm
  | jump26 | branch19 | branch14 | adr | adrp => exact .inr (by simpa [Kind.moves] using hm)

/-- **What needs nothing does not change**: an instruction that may move is patched
    the same at both places. -/
theorem apply_moves {insn : BitVec 32} {s s' p p' : BitVec 64} {k k' : Weight} (hm : kind.moves k)
    (hd : 2 ^ 16 ∣ d.toNat) (hs : Moves d (s, k) (s', k')) (hp : p' = p + d) :
    apply kind insn s' p' = apply kind insn s p := by
  rcases weight_of_moves hm with rfl | rfl
  · obtain rfl : s' = s := congrArg Prod.fst (hs.eq_of_zero rfl)
    rw [apply, apply, field_const hm s' p p']
  · have hs' : s' = s + d := by simpa using hs.2 1 rfl
    rw [apply, apply, hs', hp, field_address hm hd]

end

end Obj
