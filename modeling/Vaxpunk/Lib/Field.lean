/-
  Little-endian fields of a byte buffer.  The buffer is a bit vector: byte `i`
  is bits `8 i` to `8 i + 7`, so a little-endian number is a run of bits.
-/
import Mathlib

namespace Field

open List Nat

variable {n : ℕ}
variable {b : BitVec n} {off off' w v len : ℕ}

/-- The `w`-byte number at byte `off`. -/
def get (b : BitVec n) (off w : ℕ) : ℕ := b.toNat >>> (8 * off) % 2 ^ (8 * w)

/-- Store the low `w` bytes of `v` at byte `off`. -/
def put (b : BitVec n) (off w v : ℕ) : BitVec n :=
  (b &&& ~~~(BitVec.ofNat n (2 ^ (8 * w) - 1) <<< (8 * off))) |||
    (BitVec.ofNat n (v % 2 ^ (8 * w)) <<< (8 * off))

/-- The bytes `off` to `off + len - 1`. -/
def bytes (b : BitVec n) (off len : ℕ) : List UInt8 :=
  (List.range len).map fun i => UInt8.ofNat (get b (off + i) 1)

/-- A byte string as a little-endian number. -/
def ofBytes : List UInt8 → ℕ
  | [] => 0
  | c :: cs => c.toNat + 2 ^ 8 * ofBytes cs

/-- Store a byte string at byte `off`. -/
def putBytes (b : BitVec n) (off : ℕ) (cs : List UInt8) : BitVec n := put b off cs.length (ofBytes cs)

/-! ## Bits of fields -/

theorem testBit_get (b : BitVec n) (off w i : ℕ) :
    (get b off w).testBit i = (decide (i < 8 * w) && b.getLsbD (8 * off + i)) := by
  simp [get, testBit_mod_two_pow, testBit_shiftRight, BitVec.getLsbD]

theorem getLsbD_put (b : BitVec n) (off w v i : ℕ) : (put b off w v).getLsbD i =
    if 8 * off ≤ i ∧ i < 8 * (off + w) then decide (i < n) && v.testBit (i - 8 * off)
    else b.getLsbD i := by
  by_cases hn : i < n
  · simp only [put, BitVec.getLsbD_or, BitVec.getLsbD_and, BitVec.getLsbD_not,
      BitVec.getLsbD_shiftLeft, BitVec.getLsbD_ofNat, testBit_two_pow_sub_one,
      testBit_mod_two_pow, hn, show i - 8 * off < n by omega, decide_true, Bool.true_and]
    split_ifs with hi
    · simp [show i - 8 * off < 8 * w by omega, show ¬i < 8 * off by omega]
    · by_cases ho : i < 8 * off
      · simp [ho]
      · simp [show ¬i - 8 * off < 8 * w by omega]
  · simp [BitVec.getLsbD_of_ge, Nat.le_of_not_lt hn, hn]

theorem get_lt (b : BitVec n) (off w : ℕ) : get b off w < 2 ^ (8 * w) :=
  Nat.mod_lt _ (Nat.two_pow_pos _)

theorem get_congr {m : ℕ} {b' : BitVec m} (h : ∀ i < w, get b (off + i) 1 = get b' (off' + i) 1) :
    get b off w = get b' off' w := by
  refine eq_of_testBit_eq fun j => ?_
  rw [testBit_get, testBit_get]
  by_cases hj : j < 8 * w
  · have hbyte := congrArg (·.testBit (j % 8)) (h (j / 8) (by omega))
    simp only [testBit_get, mul_one, Nat.mod_lt j (show 8 > 0 by omega), decide_true,
      Bool.true_and] at hbyte
    rw [show 8 * (off + j / 8) + j % 8 = 8 * off + j by omega,
      show 8 * (off' + j / 8) + j % 8 = 8 * off' + j by omega] at hbyte
    rw [hbyte]
  · simp [hj]

theorem get_put_inside {i w' : ℕ} (hn : 8 * (off + w) ≤ n) (h : i + w' ≤ w) :
    get (put b off w v) (off + i) w' = v >>> (8 * i) % 2 ^ (8 * w') := by
  refine eq_of_testBit_eq fun j => ?_
  rw [testBit_get, getLsbD_put, testBit_mod_two_pow, testBit_shiftRight]
  by_cases hj : j < 8 * w'
  · rw [if_pos (by omega)]
    simp [hj, show 8 * (off + i) + j < n by omega, show 8 * (off + i) + j - 8 * off = 8 * i + j by omega]
  · simp [hj]

theorem get_put_same (hn : 8 * (off + w) ≤ n) :
    get (put b off w v) off w = v % 2 ^ (8 * w) := by
  have h := get_put_inside (b := b) (v := v) (i := 0) hn (show 0 + w ≤ w by omega)
  simpa using h

theorem get_put_apart {w' : ℕ} (h : off' + w' ≤ off ∨ off + w ≤ off') :
    get (put b off w v) off' w' = get b off' w' := by
  refine eq_of_testBit_eq fun j => ?_
  rw [testBit_get, testBit_get, getLsbD_put]
  by_cases hj : j < 8 * w'
  · rw [if_neg (by omega)]
  · simp [hj]

/-! ## Byte strings -/

@[simp] theorem length_bytes (b : BitVec n) (off len : ℕ) : (bytes b off len).length = len := by
  simp [bytes]

theorem bytes_congr {b' : BitVec n} (h : ∀ i < len, get b (off + i) 1 = get b' (off + i) 1) :
    bytes b off len = bytes b' off len :=
  map_congr_left fun i hi => by rw [h i (mem_range.1 hi)]

theorem bytes_put_apart (h : off' + len ≤ off ∨ off + w ≤ off') :
    bytes (put b off w v) off' len = bytes b off' len :=
  bytes_congr fun _ _ => get_put_apart (by omega)

theorem ofBytes_shiftRight : ∀ (cs : List UInt8) (i : ℕ),
    ofBytes cs >>> (8 * i) % 2 ^ 8 = (cs.getD i 0).toNat
  | [], i => by simp [ofBytes]
  | c :: cs, 0 => by simp [ofBytes, add_mul_mod_self_left, mod_eq_of_lt c.toNat_lt]
  | c :: cs, i + 1 => by
    have h : ofBytes (c :: cs) >>> 8 = ofBytes cs := by
      have := c.toNat_lt
      rw [shiftRight_eq_div_pow, ofBytes]; omega
    rw [show 8 * (i + 1) = 8 + 8 * i by omega, shiftRight_add, h, ofBytes_shiftRight cs i]
    simp

theorem bytes_putBytes {cs : List UInt8} (hn : 8 * (off + cs.length) ≤ n) :
    bytes (putBytes b off cs) off cs.length = cs := by
  refine ext_getElem (by simp) fun i hi _ => ?_
  have hi' : i < cs.length := by simpa using hi
  simp only [bytes, getElem_map, getElem_range, putBytes]
  rw [get_put_inside hn (by omega), mul_one, ofBytes_shiftRight]
  simp [hi']

theorem bytes_ofBytes {cs : List UInt8} (h : cs.length ≤ len) :
    bytes (BitVec.ofNat (8 * len) (ofBytes cs)) 0 len =
      cs ++ List.replicate (len - cs.length) 0 := by
  refine ext_getElem (by simp; omega) fun i hi _ => ?_
  have hi' : i < len := by simpa using hi
  have hbyte : get (BitVec.ofNat (8 * len) (ofBytes cs)) i 1 = (cs.getD i 0).toNat := by
    rw [← ofBytes_shiftRight]
    refine eq_of_testBit_eq fun j => ?_
    rw [testBit_get, testBit_mod_two_pow, testBit_shiftRight, BitVec.getLsbD_ofNat]
    by_cases hj : j < 8
    · simp [hj, show 8 * i + j < 8 * len by omega]
    · simp [hj]
  simp only [bytes, getElem_map, getElem_range, zero_add, hbyte]
  rw [getElem_append]
  split <;> rename_i hlt <;> simp [hlt]

theorem bytes_succ (b : BitVec n) (off len : ℕ) :
    bytes b off (len + 1) = UInt8.ofNat (get b off 1) :: bytes b (off + 1) len := by
  simp only [bytes, range_succ_eq_map, map_cons, map_map, add_zero]
  refine congrArg _ (map_congr_left fun i _ => ?_)
  rw [Function.comp, succ_eq_add_one, add_right_comm, add_assoc]

theorem get_succ (b : BitVec n) (off w : ℕ) : get b off (w + 1) = get b off 1 + 2 ^ 8 * get b (off + 1) w := by
  have hshift : b.toNat >>> (8 * (off + 1)) = b.toNat >>> (8 * off) / 2 ^ 8 := by
    rw [mul_add, shiftRight_add, mul_one, ← shiftRight_eq_div_pow]
  simp only [get, hshift]
  generalize b.toNat >>> (8 * off) = x
  rw [show 2 ^ (8 * (w + 1)) = 2 ^ 8 * 2 ^ (8 * w) by rw [← pow_add]; ring_nf, mod_mul]

theorem ofBytes_bytes (b : BitVec n) (off w : ℕ) : ofBytes (bytes b off w) = get b off w := by
  induction w generalizing off with
  | zero => simp [bytes, ofBytes, get, mod_one]
  | succ w ih =>
    have hlt : get b off 1 < 2 ^ 8 := get_lt b off 1
    rw [bytes_succ, ofBytes, ih, UInt8.toNat_ofNat_of_lt' hlt]
    exact (get_succ b off w).symm

theorem ofNat_ofBytes (b : BitVec (8 * len)) : BitVec.ofNat (8 * len) (ofBytes (bytes b 0 len)) = b := by
  have hget : get b 0 len = b.toNat := mod_eq_of_lt b.isLt
  rw [ofBytes_bytes, hget, BitVec.ofNat_toNat, BitVec.setWidth_eq]

end Field
