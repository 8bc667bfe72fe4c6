/-
  DNS replies (`dns.b64`): the names in one, and its first answer of a type.
-/
import Mathlib

namespace Dns

/-- DNS_REPLY, with what earlier replies left in it, and DNS_RLEN. -/
structure Reply where
  bytes : ℕ → BitVec 8
  rlen : ℕ

/-- DNS_NAMEAT's P, NEXT (none for -1) and HOPS, and the N bytes in the buffer. -/
structure Walk where
  p : ℕ
  next : Option ℕ
  hops : ℕ
  buf : List (BitVec 8)

namespace Reply

variable (r : Reply)

/-- The `n` bytes CH$MOVE moves from `off`. -/
def slice (off n : ℕ) : List (BitVec 8) := (List.range n).map fun i => r.bytes (off + i)

def get16 (off : ℕ) : ℕ := (r.bytes off).toNat * 256 + (r.bytes (off + 1)).toNat

/-- One turn of DNS_NAMEAT's loop: what is returned, -1 as none, with the buffer then,
    or the next turn. -/
def nameStep (w : Walk) : (Option ℕ × List (BitVec 8)) ⊕ Walk :=
  if w.p ≥ r.rlen then .inl (none, w.buf)
  else
    let l := (r.bytes w.p).toNat
    if l = 0 then .inl (some (w.next.getD (w.p + 1)), w.buf)
    else if l &&& 0xC0 = 0xC0 then
      -- a pointer to the rest of the name
      if w.p + 1 ≥ r.rlen ∨ w.hops + 1 > 32 then .inl (none, w.buf)
      else .inr { w with
        p := (l &&& 0x3F) * 256 + (r.bytes (w.p + 1)).toNat
        next := w.next.or (some (w.p + 2))
        hops := w.hops + 1 }
    else if w.p + 1 + l > r.rlen ∨ w.buf.length + l + 1 > 255 then .inl (none, w.buf)
    else .inr { w with
      p := w.p + 1 + l
      buf := w.buf ++ (if w.buf = [] then [] else [46]) ++ r.slice (w.p + 1) l }

theorem nameStep_inr {r : Reply} {w w' : Walk} (h : r.nameStep w = .inr w') :
    32 - w'.hops + (255 - w'.buf.length) < 32 - w.hops + (255 - w.buf.length) ∧
      (w.buf.length ≤ 255 → w'.buf.length ≤ 255) := by
  unfold nameStep at h
  dsimp only at h
  split_ifs at h <;> cases h
  · exact ⟨by dsimp only; omega, id⟩
  all_goals
    simp only [slice, List.length_append, List.length_map, List.length_range, List.length_nil, List.length_singleton]
    omega

def nameLoop (w : Walk) : Option ℕ × List (BitVec 8) :=
  match _h : r.nameStep w with
  | .inl res => res
  | .inr w' => nameLoop w'
termination_by 32 - w.hops + (255 - w.buf.length)
decreasing_by exact (nameStep_inr _h).1

def nameAt (off : ℕ) : Option ℕ × List (BitVec 8) := r.nameLoop ⟨off, none, 0, []⟩

/-- The end of `n` questions from `p` on. -/
def questions : ℕ → ℕ → Option ℕ
  | 0, p => some p
  | n + 1, p => (r.nameAt p).1.bind fun p => questions n (p + 4)

/-- The data of the first of `n` answers from `p` on that has the type. -/
def answers (rtype : ℕ) : ℕ → ℕ → Option ℕ
  | 0, _ => none
  | n + 1, p => (r.nameAt p).1.bind fun p =>
    if p + 10 > r.rlen then none
    else if r.get16 p = rtype then some (p + 10)
    else answers rtype n (p + 10 + r.get16 (p + 8))

/-- DNS_FIND; none is -1. -/
def find (rtype : ℕ) : Option ℕ := (r.questions (r.get16 4) 12).bind (r.answers rtype (r.get16 6))

/-- What DNS_ADDR moves to its result, if the reply has an answer of TYPE_A. -/
def addr : Option (List (BitVec 8)) := (r.find 1).map (r.slice · 4)

end Reply

end Dns
