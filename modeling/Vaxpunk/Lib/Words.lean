/-
  Little-endian numbers as byte strings, and replacing part of a string.
-/
import Mathlib

namespace Words

open List

variable {n i j : ℕ} {b v : List (BitVec 8)}

/-- The low `n` bytes of `v`, lowest first. -/
def le : ℕ → ℕ → List (BitVec 8)
  | 0, _ => []
  | n + 1, v => BitVec.ofNat 8 v :: le n (v / 2 ^ 8)

/-- The number a byte string stands for. -/
def ofLe : List (BitVec 8) → ℕ
  | [] => 0
  | c :: cs => c.toNat + 2 ^ 8 * ofLe cs

/-- The string `b` with `v` in place of the bytes from `i` on. -/
def splice (b : List (BitVec 8)) (i : ℕ) (v : List (BitVec 8)) : List (BitVec 8) :=
  b.take i ++ v ++ b.drop (i + v.length)

/-- The `n` bytes of `b` from `i` on. -/
def slice (b : List (BitVec 8)) (i n : ℕ) : List (BitVec 8) := (b.drop i).take n

@[simp] theorem length_le (n v : ℕ) : (le n v).length = n := by
  induction n generalizing v with
  | zero => rfl
  | succ n ih => rw [le, length_cons, ih]

theorem ofLe_lt (cs : List (BitVec 8)) : ofLe cs < 2 ^ (8 * cs.length) := by
  induction cs with
  | nil => simp [ofLe]
  | cons c cs ih =>
    have hc := c.isLt
    rw [ofLe, length_cons, Nat.mul_succ, Nat.pow_add]
    calc c.toNat + 2 ^ 8 * ofLe cs < 2 ^ 8 * (ofLe cs + 1) := by omega
      _ ≤ 2 ^ 8 * 2 ^ (8 * cs.length) := Nat.mul_le_mul_left _ ih
      _ = 2 ^ (8 * cs.length) * 2 ^ 8 := Nat.mul_comm _ _

theorem ofLe_le (n v : ℕ) : ofLe (le n v) = v % 2 ^ (8 * n) := by
  induction n generalizing v with
  | zero => simp [le, ofLe, Nat.mod_one]
  | succ n ih =>
    rw [le, ofLe, ih, BitVec.toNat_ofNat, Nat.mul_succ, Nat.add_comm (8 * n), Nat.pow_add,
      Nat.mod_mul]

theorem le_ofLe (cs : List (BitVec 8)) : le cs.length (ofLe cs) = cs := by
  induction cs with
  | nil => rfl
  | cons c cs ih =>
    have hc := c.isLt
    rw [length_cons, le, ofLe, show (c.toNat + 2 ^ 8 * ofLe cs) / 2 ^ 8 = ofLe cs by omega, ih]
    congr 1
    refine BitVec.eq_of_toNat_eq ?_
    rw [BitVec.toNat_ofNat]
    omega

theorem le_congr {v w : ℕ} (h : v % 2 ^ (8 * n) = w % 2 ^ (8 * n)) : le n v = le n w := by
  have hv := le_ofLe (le n v)
  have hw := le_ofLe (le n w)
  rw [length_le, ofLe_le] at hv hw
  rw [← hv, ← hw, h]

theorem length_splice (h : i + v.length ≤ b.length) :
    (splice b i v).length = b.length := by
  simp only [splice, length_append, length_take, length_drop]
  omega

theorem getElem?_splice_inside (h : i + v.length ≤ b.length) (hj : j < v.length) :
    (splice b i v)[i + j]? = v[j]? := by
  have hlen : (b.take i).length = i := by
    rw [length_take]
    omega
  rw [splice, append_assoc, getElem?_append_right (by omega), hlen,
    Nat.add_sub_cancel_left, getElem?_append_left hj]

theorem getElem?_splice_apart (h : i + v.length ≤ b.length) (hj : j < i ∨ i + v.length ≤ j) :
    (splice b i v)[j]? = b[j]? := by
  have hlen : (b.take i).length = i := by
    rw [length_take]
    omega
  rw [splice, append_assoc]
  rcases hj with hj | hj
  · rw [getElem?_append_left (by omega), getElem?_take_of_lt hj]
  · rw [getElem?_append_right (by omega), getElem?_append_right (by omega),
      getElem?_drop, hlen]
    congr 1
    omega

theorem length_slice (h : i + n ≤ b.length) :
    (slice b i n).length = n := by
  rw [slice, length_take, length_drop]
  omega

theorem getElem?_slice (hj : j < n) :
    (slice b i n)[j]? = b[i + j]? := by
  rw [slice, getElem?_take_of_lt hj, getElem?_drop]

theorem slice_splice (h : i + v.length ≤ b.length) :
    slice (splice b i v) i v.length = v := by
  refine ext_getElem? fun j => ?_
  by_cases hj : j < v.length
  · rw [getElem?_slice hj, getElem?_splice_inside h hj]
  · have hlen := length_slice (n := v.length) (h.trans (length_splice h).ge)
    rw [getElem?_eq_none (by omega), getElem?_eq_none (by omega)]

theorem slice_splice_apart {k : ℕ} (h : i + v.length ≤ b.length) (hk : k + n ≤ i ∨ i + v.length ≤ k) :
    slice (splice b i v) k n = slice b k n := by
  refine ext_getElem? fun j => ?_
  by_cases hj : j < n
  · rw [getElem?_slice hj, getElem?_slice hj, getElem?_splice_apart h (by omega)]
  · rw [getElem?_eq_none, getElem?_eq_none] <;> rw [slice, length_take] <;> omega

end Words
