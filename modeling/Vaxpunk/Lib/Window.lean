/-
  Windows of a list: what a read at an offset gives, cut off at the end, and a buffer
  that pieces of the list are copied into one after another.
-/
import Mathlib

namespace Window

open List

variable {α : Type} {pre l text buf : List α} {offset len : ℕ}

/-- The elements from `offset` on, `len` of them at most. -/
def window (text : List α) (offset len : ℕ) : List α := (text.drop offset).take len

/-- `buf` with `src` copied to `start`. -/
def put (buf : List α) (start : ℕ) (src : List α) : List α :=
  buf.take start ++ src ++ buf.drop (start + src.length)

@[simp] theorem length_window (text : List α) (offset len : ℕ) :
    (window text offset len).length = min len (text.length - offset) := by
  simp [window]

theorem window_add (text : List α) (offset m n : ℕ) :
    window text offset (m + n) = window text offset m ++ window text (offset + m) n := by
  rw [window, window, window, take_add, drop_drop]

theorem window_append (pre l : List α) (offset len : ℕ) : window (pre ++ l) offset len =
    window pre offset len ++ window l (offset - pre.length) (len - (pre.length - offset)) := by
  rw [window, window, window, drop_append, take_append, length_drop]

theorem window_append_of_le (l : List α) (h : offset + len ≤ pre.length) :
    window (pre ++ l) offset len = window pre offset len := by
  rw [window_append, show len - (pre.length - offset) = 0 by omega]
  simp [window]

theorem window_append_of_before (h : pre.length + l.length ≤ offset) :
    window (pre ++ l) offset len = window pre offset len := by
  have hnil : window l (offset - pre.length) (len - (pre.length - offset)) = [] := by
    rw [window, drop_eq_nil_of_le (by omega), take_nil]
  rw [window_append, hnil, append_nil]

/-- A buffer the window is copied into, as far as the list goes. -/
def filled (text : List α) (offset : ℕ) (buf : List α) : List α :=
  window text offset buf.length ++ buf.drop (window text offset buf.length).length

theorem take_filled (text : List α) (offset : ℕ) (buf : List α) :
    (filled text offset buf).take (window text offset buf.length).length =
      window text offset buf.length := by
  rw [filled, take_left']
  rfl

theorem put_filled (h : pre.length < offset + buf.length) :
    put (filled pre offset buf) (pre.length - offset)
      (window l (offset - pre.length) (buf.length - (pre.length - offset))) =
      filled (pre ++ l) offset buf := by
  have hlen : (window pre offset buf.length).length = pre.length - offset := by
    rw [length_window]
    omega
  rw [put, filled, filled, window_append, take_left' hlen, length_append, hlen,
    ← drop_drop, drop_left' hlen, drop_drop]

end Window
