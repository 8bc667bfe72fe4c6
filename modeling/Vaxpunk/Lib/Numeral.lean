/-
  Strings of digits, the highest first: strings of the same length are in the
  order of the numbers they stand for.
-/
import Mathlib

namespace Numeral

open List

/-- The number a string of digits stands for in base `b`. -/
def value (b : ℕ) (ds : List ℕ) : ℕ := Nat.ofDigits b ds.reverse

variable {b x y r s : ℕ} {ds es : List ℕ}

@[simp] theorem value_nil : value b [] = 0 := rfl

theorem value_cons (b x : ℕ) (ds : List ℕ) : value b (x :: ds) = x * b ^ ds.length + value b ds := by
  simp only [value, reverse_cons, Nat.ofDigits_append, Nat.ofDigits_singleton, length_reverse]
  ring

theorem value_lt (hd : ∀ d ∈ ds, d < b) : value b ds < b ^ ds.length := by
  induction ds with
  | nil => simp
  | cons d ds ih =>
    obtain ⟨hd, hds⟩ := forall_mem_cons.1 hd
    have hle : (d + 1) * b ^ ds.length ≤ b * b ^ ds.length := Nat.mul_le_mul_right _ hd
    have := ih hds
    rw [value_cons, length_cons, Nat.pow_succ']
    rw [Nat.succ_mul] at hle
    omega

theorem value_append (ds es : List ℕ) : value b (ds ++ es) = value b ds * b ^ es.length + value b es := by
  simp only [value, reverse_append, Nat.ofDigits_append, length_reverse]
  ring

theorem value_eq_zero (hb : 0 < b) : value b ds = 0 ↔ ∀ d ∈ ds, d = 0 := by
  induction ds with
  | nil => simp
  | cons d ds ih =>
    have hpos : 0 < b ^ ds.length := Nat.pow_pos hb
    rw [value_cons, Nat.add_eq_zero_iff, Nat.mul_eq_zero, ih, forall_mem_cons]
    simp only [hpos.ne', or_false]

theorem compare_mul_add {m : ℕ} (hr : r < m) (hs : s < m) :
    compare (x * m + r) (y * m + s) = (compare x y).then (compare r s) := by
  rcases Nat.lt_trichotomy x y with h | rfl | h
  · have : x * m + m ≤ y * m := by rw [← Nat.succ_mul]; exact Nat.mul_le_mul_right m h
    rw [Nat.compare_eq_lt.2 h, Nat.compare_eq_lt.2 (by omega)]
    rfl
  · rw [Nat.compare_eq_eq.2 rfl, Ordering.eq_then]
    rcases Nat.lt_trichotomy r s with h | rfl | h
    · rw [Nat.compare_eq_lt.2 h, Nat.compare_eq_lt.2 (by omega)]
    · rw [Nat.compare_eq_eq.2 rfl, Nat.compare_eq_eq.2 rfl]
    · rw [Nat.compare_eq_gt.2 h, Nat.compare_eq_gt.2 (by omega)]
  · have : y * m + m ≤ x * m := by rw [← Nat.succ_mul]; exact Nat.mul_le_mul_right m h
    rw [Nat.compare_eq_gt.2 h, Nat.compare_eq_gt.2 (by omega)]
    rfl

/-- **Strings of digits of the same length** are in the order of their numbers. -/
theorem compare_value (hlen : ds.length = es.length) (hd : ∀ d ∈ ds, d < b) (he : ∀ d ∈ es, d < b) :
    compare (value b ds) (value b es) = compare ds es := by
  induction ds generalizing es with
  | nil =>
    rw [length_eq_zero_iff.1 hlen.symm, List.compare_nil_nil]
    exact Nat.compare_eq_eq.2 rfl
  | cons x ds ih =>
    cases es with
    | nil => simp at hlen
    | cons y es =>
      have hlen : ds.length = es.length := by simpa using hlen
      have hlt := value_lt fun d hm => he d (mem_cons_of_mem _ hm)
      rw [value_cons, value_cons, hlen, List.compare_cons_cons, compare_mul_add
        (hlen ▸ value_lt fun d hm => hd d (mem_cons_of_mem _ hm)) hlt,
        ih hlen (fun d hm => hd d (mem_cons_of_mem _ hm)) fun d hm => he d (mem_cons_of_mem _ hm)]

end Numeral
