/-
  The order of keys: a total preorder on the keys of one length, and for packed
  decimal keys the order of the numbers.
-/
import Vaxpunk.Lib.Numeral
import Vaxpunk.Rms.Key

namespace Rms

open List Numeral

/-! ## A total preorder -/

/-- The order of keys of `n` bytes, the same for descending types. -/
def ascending (t : UInt8) (segments n : ℕ) : Bytes → Bytes → Ordering :=
  if segments = 1 ∧ intWidth t > 0 ∧ n = intWidth t then
    compareOn fun k => keyInt k (t = dtype.INT2 ∨ t = dtype.INT4 ∨ t = dtype.INT8)
  else if t = dtype.DECIMAL ∧ n ≠ 0 then
    compareLex (compareOn fun k => (packed k).1) (compareOn fun k => (packed k).2)
  else compare

instance (t : UInt8) (segments n : ℕ) : Std.TransCmp (ascending t segments n) := by
  unfold ascending
  split_ifs <;> infer_instance

theorem ascending_swap (t : UInt8) (segments n : ℕ) (a b : Bytes) :
    (ascending t segments n a b).swap = ascending t segments n b a := Std.OrientedCmp.eq_swap.symm

theorem intWidth_ascending (datatype : UInt8) :
    intWidth (datatype &&& ~~~dtype.DESCENDING) = intWidth datatype := by
  have h : datatype &&& ~~~dtype.DESCENDING &&& ~~~dtype.DESCENDING = datatype &&& ~~~dtype.DESCENDING := by
    rw [UInt8.and_assoc, UInt8.and_self]
  simp only [intWidth, h]

theorem compareKeys_eq (datatype : UInt8) (segments : ℕ) {a b : Bytes} (h : a.length = b.length) :
    compareKeys datatype segments a b =
      if datatype &&& dtype.DESCENDING ≠ 0 then
        (ascending (datatype &&& ~~~dtype.DESCENDING) segments b.length a b).swap
      else ascending (datatype &&& ~~~dtype.DESCENDING) segments b.length a b := by
  have hne : a ≠ [] ↔ b.length ≠ 0 := by rw [← h, Ne, Ne, length_eq_zero_iff]
  simp only [compareKeys, ascending, intWidth_ascending, h, hne, true_and, and_self]
  split_ifs <;> rfl

/-! ## Packed decimal -/

/-- The nibbles of a key: two digits a byte, and the sign last. -/
def nibbles (k : Bytes) : List ℕ := k.flatMap fun c => [c.toNat / 16, c.toNat % 16]

/-- A packed decimal key: digits, and a sign from A to F. -/
def IsPacked (k : Bytes) : Prop :=
  ∃ ds s, nibbles k = ds ++ [s] ∧ (∀ d ∈ ds, d ≤ 9) ∧ 10 ≤ s

/-- The number a packed decimal key stands for. -/
def packedValue (k : Bytes) : ℤ :=
  let n := value 10 (nibbles k).dropLast
  if (nibbles k).getLast? = some 0xb ∨ (nibbles k).getLast? = some 0xd then -n else n

theorem nibbles_append (a b : Bytes) : nibbles (a ++ b) = nibbles a ++ nibbles b := flatMap_append

theorem length_nibbles (a : Bytes) : (nibbles a).length = 2 * a.length := by
  simp [nibbles, length_flatMap, Nat.mul_comm]

theorem compare_nibbles (a b : Bytes) : compare (nibbles a) (nibbles b) = compare a b := by
  induction a generalizing b with
  | nil => cases b <;> simp [nibbles, List.compare_nil_cons]
  | cons x a ih =>
    cases b with
    | nil => simp [nibbles, List.compare_cons_nil]
    | cons y b =>
      have hbyte : compare x y =
          (compare (x.toNat / 16) (y.toNat / 16)).then (compare (x.toNat % 16) (y.toNat % 16)) := by
        rw [UInt8.compare_eq_toNat_compare_toNat,
          ← compare_mul_add (m := 16) (Nat.mod_lt _ (by omega)) (Nat.mod_lt _ (by omega)),
          Nat.div_add_mod', Nat.div_add_mod']
      change compare (_ :: _ :: nibbles a) (_ :: _ :: nibbles b) = _
      rw [List.compare_cons_cons, List.compare_cons_cons, List.compare_cons_cons, ih, hbyte, Ordering.then_assoc]

theorem compare_map_not {a b : Bytes} (h : a.length = b.length) :
    compare (a.map (~~~·)) (b.map (~~~·)) = (compare a b).swap := by
  induction a generalizing b with
  | nil =>
    rw [length_eq_zero_iff.1 h.symm]
    rfl
  | cons x a ih =>
    cases b with
    | nil => simp at h
    | cons y b =>
      have hbyte : compare (~~~x) (~~~y) = (compare x y).swap := by
        have hx := x.toNat_lt
        have hy := y.toNat_lt
        rw [UInt8.compare_eq_toNat_compare_toNat, UInt8.compare_eq_toNat_compare_toNat, UInt8.toNat_not,
          UInt8.toNat_not, UInt8.size, Nat.compare_swap]
        rcases Nat.lt_trichotomy x.toNat y.toNat with h | h | h
        · rw [Nat.compare_eq_gt.2 h, Nat.compare_eq_gt.2 (by omega)]
        · rw [h, Nat.compare_eq_eq.2 rfl, Nat.compare_eq_eq.2 rfl]
        · rw [Nat.compare_eq_lt.2 h, Nat.compare_eq_lt.2 (by omega)]
      rw [map_cons, map_cons, List.compare_cons_cons, List.compare_cons_cons, hbyte, ih (by simpa using h),
        Ordering.swap_then]

theorem toNat_and_high (c : UInt8) : (c &&& 0xf0).toNat = c.toNat / 16 * 16 := by
  have h : ∀ n < 256, n &&& 0xf0 = n / 16 * 16 := by decide +kernel
  rw [UInt8.toNat_and]
  exact h _ c.toNat_lt

theorem toNat_and_low (c : UInt8) : (c &&& 0xf).toNat = c.toNat % 16 := by
  rw [UInt8.toNat_and]
  exact Nat.and_two_pow_sub_one_eq_mod c.toNat 4

theorem nibbles_masked (init : Bytes) (c : UInt8) :
    nibbles (init ++ [c &&& 0xf0]) = nibbles init ++ [c.toNat / 16] ++ [0] := by
  rw [nibbles_append, append_assoc]
  simp only [nibbles, flatMap_cons, flatMap_nil, toNat_and_high]
  simp

theorem nibbles_concat (init : Bytes) (c : UInt8) :
    nibbles (init ++ [c]) = nibbles init ++ [c.toNat / 16] ++ [c.toNat % 16] := by
  rw [nibbles_append, append_assoc]
  simp [nibbles]

theorem forall_nibbles_eq_zero {k : Bytes} : (∀ d ∈ nibbles k, d = 0) ↔ ∀ c ∈ k, c = 0 := by
  induction k with
  | nil => simp [nibbles]
  | cons c k ih =>
    have hc : c.toNat / 16 = 0 ∧ c.toNat % 16 = 0 ↔ c = 0 := by
      rw [← UInt8.toNat_inj, UInt8.toNat_zero]
      omega
    change (∀ d ∈ _ :: _ :: nibbles k, d = 0) ↔ _
    rw [forall_mem_cons, forall_mem_cons, forall_mem_cons, ih, ← hc, and_assoc]

theorem packed_concat (init : Bytes) (c : UInt8) : packed (init ++ [c]) =
    if (c.toNat % 16 = 0xb ∨ c.toNat % 16 = 0xd) ∧ value 10 (nibbles init ++ [c.toNat / 16]) ≠ 0 then
      (false, (init ++ [c &&& 0xf0]).map (~~~·))
    else (true, init ++ [c &&& 0xf0]) := by
  have hsign : (c &&& 0xf = 0xb ∨ c &&& 0xf = 0xd) ↔ (c.toNat % 16 = 0xb ∨ c.toNat % 16 = 0xd) := by
    rw [← toNat_and_low, ← UInt8.toNat_inj, ← UInt8.toNat_inj]
    rfl
  have hzero : (∃ d ∈ init ++ [c &&& 0xf0], d ≠ 0) ↔ value 10 (nibbles init ++ [c.toNat / 16]) ≠ 0 := by
    have hall : (∀ d ∈ nibbles init ++ [c.toNat / 16], d = 0) ↔ ∀ d ∈ init ++ [c &&& 0xf0], d = 0 := by
      rw [← forall_nibbles_eq_zero, nibbles_masked]
      refine ⟨fun h d hd => ?_, fun h d hd => h d (mem_append_left _ hd)⟩
      rcases mem_append.1 hd with hd | hd
      · exact h d hd
      · exact mem_singleton.1 hd
    rw [Ne, value_eq_zero (by omega), hall]
    simp only [not_forall, exists_prop, ne_eq]
  simp only [packed, dropLast_concat, getLastD_concat]
  by_cases hneg : (c.toNat % 16 = 0xb ∨ c.toNat % 16 = 0xd) ∧ value 10 (nibbles init ++ [c.toNat / 16]) ≠ 0
  · have : ((c &&& 0xf == 0xb || c &&& 0xf == 0xd) && (init ++ [c &&& 0xf0]).any (· != 0)) = true := by
      simp only [Bool.and_eq_true, Bool.or_eq_true, beq_iff_eq, any_eq_true, bne_iff_ne]
      exact ⟨hsign.2 hneg.1, hzero.2 hneg.2⟩
    rw [this, if_pos hneg]
    rfl
  · have : ((c &&& 0xf == 0xb || c &&& 0xf == 0xd) && (init ++ [c &&& 0xf0]).any (· != 0)) = false := by
      rw [← Bool.not_eq_true]
      simp only [Bool.and_eq_true, Bool.or_eq_true, beq_iff_eq, any_eq_true, bne_iff_ne]
      exact fun h => hneg ⟨hsign.1 h.1, hzero.1 h.2⟩
    rw [this, if_neg hneg]
    rfl

theorem packedValue_concat (init : Bytes) (c : UInt8) : packedValue (init ++ [c]) =
    if (c.toNat % 16 = 0xb ∨ c.toNat % 16 = 0xd) ∧ value 10 (nibbles init ++ [c.toNat / 16]) ≠ 0 then
      -(value 10 (nibbles init ++ [c.toNat / 16]) : ℤ)
    else value 10 (nibbles init ++ [c.toNat / 16]) := by
  simp only [packedValue, nibbles_concat, dropLast_concat, List.getLast?_concat, Option.some.injEq]
  by_cases hm : value 10 (nibbles init ++ [c.toNat / 16]) = 0 <;> simp [hm]

theorem compare_masked {a b : Bytes} {c d : UInt8} (hlen : a.length = b.length)
    (ha : ∀ x ∈ nibbles a ++ [c.toNat / 16], x ≤ 9) (hb : ∀ x ∈ nibbles b ++ [d.toNat / 16], x ≤ 9) :
    compare (a ++ [c &&& 0xf0]) (b ++ [d &&& 0xf0]) =
      compare (value 10 (nibbles a ++ [c.toNat / 16])) (value 10 (nibbles b ++ [d.toNat / 16])) := by
  have hdig : ∀ {xs : List ℕ}, (∀ x ∈ xs, x ≤ 9) → ∀ x ∈ xs ++ [0], x < 10 := by
    intro xs h x hx
    rcases mem_append.1 hx with hx | hx
    · exact Nat.lt_succ_of_le (h x hx)
    · simp at hx
      omega
  have hlen' : (nibbles a ++ [c.toNat / 16]).length = (nibbles b ++ [d.toNat / 16]).length := by
    simp [length_nibbles, hlen]
  rw [← compare_nibbles, nibbles_masked, nibbles_masked]
  generalize nibbles a ++ [c.toNat / 16] = xs at *
  generalize nibbles b ++ [d.toNat / 16] = ys at *
  rw [← compare_value (b := 10) (by simp [hlen']) (hdig ha) (hdig hb), value_append,
    value_append, compare_mul_add (by simp [value]) (by simp [value])]
  simp

theorem IsPacked.concat {k : Bytes} (h : IsPacked k) :
    ∃ init c, k = init ++ [c] ∧ ∀ x ∈ nibbles init ++ [c.toNat / 16], x ≤ 9 := by
  obtain ⟨ds, s, hn, hd, -⟩ := h
  rcases eq_nil_or_concat k with rfl | ⟨init, c, rfl⟩
  · simp [nibbles] at hn
  · rw [concat_eq_append, nibbles_concat] at hn
    obtain ⟨rfl, -⟩ := append_inj' hn rfl
    exact ⟨init, c, concat_eq_append, hd⟩

theorem compare_natCast (m n : ℕ) : compare (m : ℤ) (n : ℤ) = compare m n := by
  rcases Nat.lt_trichotomy m n with h | rfl | h
  · rw [Nat.compare_eq_lt.2 h, compare_lt_iff_lt.2 (by omega)]
  · rw [Nat.compare_eq_eq.2 rfl, compare_eq_iff_eq.2 rfl]
  · rw [Nat.compare_eq_gt.2 h, compare_gt_iff_gt.2 (by omega)]

theorem compare_neg_natCast (m n : ℕ) : compare (-m : ℤ) (-n : ℤ) = (compare m n).swap := by
  rw [Nat.compare_swap, ← compare_natCast]
  rcases Nat.lt_trichotomy m n with h | rfl | h
  · rw [compare_gt_iff_gt.2 (by omega), compare_gt_iff_gt.2 (by omega)]
  · rw [compare_eq_iff_eq.2 rfl, compare_eq_iff_eq.2 rfl]
  · rw [compare_lt_iff_lt.2 (by omega), compare_lt_iff_lt.2 (by omega)]

theorem compare_packed {a b : Bytes} (hlen : a.length = b.length) (ha : IsPacked a) (hb : IsPacked b) :
    (compare (packed a).1 (packed b).1).then (compare (packed a).2 (packed b).2) =
      compare (packedValue a) (packedValue b) := by
  obtain ⟨x, c, rfl, hx⟩ := ha.concat
  obtain ⟨y, d, rfl, hy⟩ := hb.concat
  have hlen : x.length = y.length := by simpa using hlen
  have hcmp := compare_masked hlen hx hy
  rw [packed_concat, packed_concat, packedValue_concat, packedValue_concat]
  generalize value 10 (nibbles x ++ [c.toNat / 16]) = m at *
  generalize value 10 (nibbles y ++ [d.toNat / 16]) = n at *
  have hnot : compare ((x ++ [c &&& 0xf0]).map (~~~·)) ((y ++ [d &&& 0xf0]).map (~~~·)) = (compare m n).swap := by
    rw [compare_map_not (by simp [hlen]), hcmp]
  -- a negative number is not 0, so the signs decide if they differ
  split_ifs with hA hB hB
  · rw [hnot, compare_neg_natCast]
    rfl
  · rw [compare_lt_iff_lt.2 (show (-m : ℤ) < n by omega)]
    rfl
  · rw [compare_gt_iff_gt.2 (show (m : ℤ) > -n by omega)]
    rfl
  · rw [hcmp, compare_natCast]
    rfl

/-- **The order of keys.**  On keys of the same length it is a total preorder,
    whatever their type; packed decimal keys are in the order of the numbers they
    stand for, or in the opposite order. -/
theorem compareKeys_spec (datatype : UInt8) (segments : ℕ) :
    (∀ a, (compareKeys datatype segments a a).isLE) ∧
    (∀ a b, a.length = b.length →
      compareKeys datatype segments b a = (compareKeys datatype segments a b).swap ∧
      ((compareKeys datatype segments a b).isLE ∨ (compareKeys datatype segments b a).isLE)) ∧
    (∀ a b c, a.length = b.length → b.length = c.length → (compareKeys datatype segments a b).isLE →
      (compareKeys datatype segments b c).isLE → (compareKeys datatype segments a c).isLE) ∧
    (datatype &&& ~~~dtype.DESCENDING = dtype.DECIMAL → ∀ a b, a.length = b.length → IsPacked a → IsPacked b →
      compareKeys datatype segments a b =
        if datatype &&& dtype.DESCENDING ≠ 0 then compare (packedValue b) (packedValue a)
        else compare (packedValue a) (packedValue b)) := by
  generalize ht : datatype &&& ~~~dtype.DESCENDING = t
  have hswap : ∀ {a b : Bytes}, a.length = b.length →
      compareKeys datatype segments b a = (compareKeys datatype segments a b).swap := by
    intro a b h
    rw [compareKeys_eq _ _ h, compareKeys_eq _ _ h.symm, h, ht]
    split_ifs
    · rw [ascending_swap, Ordering.swap_swap]
    · exact (ascending_swap ..).symm
  have htrans : ∀ {a b c : Bytes}, a.length = b.length → b.length = c.length →
      (compareKeys datatype segments a b).isLE → (compareKeys datatype segments b c).isLE →
      (compareKeys datatype segments a c).isLE := by
    intro a b c hab hbc
    rw [compareKeys_eq _ _ hab, compareKeys_eq _ _ hbc, compareKeys_eq _ _ (hab.trans hbc), hbc, ht]
    split_ifs
    · simp only [ascending_swap]
      exact fun h h' => Std.TransCmp.isLE_trans h' h
    · exact Std.TransCmp.isLE_trans
  have htotal : ∀ {a b : Bytes}, a.length = b.length →
      (compareKeys datatype segments a b).isLE ∨ (compareKeys datatype segments b a).isLE := by
    intro a b h
    rw [hswap h]
    cases compareKeys datatype segments a b <;> simp
  refine ⟨fun a => (htotal rfl).elim id id, fun a b h => ⟨hswap h, htotal h⟩, fun a b c => htrans, ?_⟩
  rintro rfl a b h ha hb
  have hne : b.length ≠ 0 := by
    obtain ⟨init, c, rfl, -⟩ := hb.concat
    simp
  have hasc : ascending dtype.DECIMAL segments b.length a b = compare (packedValue a) (packedValue b) := by
    rw [ascending, if_neg fun h0 => absurd h0.2.1 (by decide), if_pos ⟨rfl, hne⟩]
    exact compare_packed h ha hb
  rw [compareKeys_eq _ _ h, ht, hasc, ← Std.OrientedOrd.eq_swap]

-- -999 before -5, and a negative zero the same as a positive one
example : compareKeys dtype.DECIMAL 1 [0x99, 0x9d] [0x00, 0x5d] = .lt := by decide +kernel

example : compareKeys dtype.DECIMAL 1 [0x00, 0x0d] [0x00, 0x0c] = .eq := by decide +kernel

end Rms
