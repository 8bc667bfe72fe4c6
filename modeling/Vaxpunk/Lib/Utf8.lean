/-
  UTF-8: whether a byte string is valid, and what a lossy conversion makes of it.
-/
import Mathlib

namespace Utf8

open List

/-- A byte with the bits `10` in front. -/
def isCont (b : BitVec 8) : Bool := 0x80 ≤ b && b ≤ 0xbf

/-- Whether `b` may come second after `a`, in a sequence of three or four bytes. -/
def second (a b : BitVec 8) : Bool :=
  if a = 0xe0 then 0xa0 ≤ b && b ≤ 0xbf
  else if a = 0xed then 0x80 ≤ b && b ≤ 0x9f
  else if a = 0xf0 then 0x90 ≤ b && b ≤ 0xbf
  else if a = 0xf4 then 0x80 ≤ b && b ≤ 0x8f
  else isCont b

/-- The length of the first sequence of a byte string, and whether it is a
    character or the longest beginning of one. -/
def first : List (BitVec 8) → ℕ × Bool
  | [] => (0, true)
  | a :: s =>
    if a < 0x80 then (1, true)
    else if 0xc2 ≤ a && a ≤ 0xdf then
      match s with
      | b :: _ => if isCont b then (2, true) else (1, false)
      | [] => (1, false)
    else if 0xe0 ≤ a && a ≤ 0xef then
      match s with
      | b :: s => if ¬second a b then (1, false) else
        match s with
        | c :: _ => if isCont c then (3, true) else (2, false)
        | [] => (2, false)
      | [] => (1, false)
    else if 0xf0 ≤ a && a ≤ 0xf4 then
      match s with
      | b :: s => if ¬second a b then (1, false) else
        match s with
        | c :: s => if ¬isCont c then (2, false) else
          match s with
          | d :: _ => if isCont d then (4, true) else (3, false)
          | [] => (3, false)
        | [] => (2, false)
      | [] => (1, false)
    else (1, false)

/-- The sequences of a byte string, with whether each is a character. -/
def sequences : ℕ → List (BitVec 8) → List (List (BitVec 8) × Bool)
  | 0, _ => []
  | _ + 1, [] => []
  | fuel + 1, a :: s =>
    let (n, ok) := first (a :: s)
    ((a :: s).take n, ok) :: sequences fuel ((a :: s).drop n)

def valid (s : List (BitVec 8)) : Bool := (sequences s.length s).all Prod.snd

/-- A byte string with U+FFFD for each sequence that is not a character. -/
def lossy (s : List (BitVec 8)) : List (BitVec 8) :=
  (sequences s.length s).flatMap fun (seq, ok) => if ok then seq else [0xef, 0xbf, 0xbd]

/-! ## ASCII -/

theorem sequences_ascii : ∀ {fuel : ℕ} {s : List (BitVec 8)}, s.length ≤ fuel → (∀ a ∈ s, a.toNat < 128) →
    sequences fuel s = s.map fun a => ([a], true)
  | 0, [], _, _ => rfl
  | _ + 1, [], _, _ => rfl
  | fuel + 1, a :: s, hf, h => by
    obtain ⟨ha, hs⟩ := forall_mem_cons.1 h
    have hlt : a < 0x80 := ha
    simp only [sequences, first, hlt, if_true, take_succ_cons, take_zero, drop_succ_cons,
      drop_zero, map_cons]
    rw [sequences_ascii (by simpa using hf) hs]

theorem lossy_ascii {s : List (BitVec 8)} (h : ∀ a ∈ s, a.toNat < 128) : lossy s = s := by
  rw [lossy, sequences_ascii le_rfl h, flatMap_map]
  simp

end Utf8
