/-
  MOV of an immediate (`bitmask` and `mov_imm` in `vasm/src/encode.rs`).
-/
import Mathlib

namespace Vasm

/-- A general-purpose register, the operand that MOV takes; 31 is the zero register. -/
inductive Reg where
  | x (n : BitVec 5)
  | w (n : BitVec 5)
  | sp
  | wsp
  deriving DecidableEq, Repr

def Reg.sf : Reg → BitVec 1
  | .x _ | .sp => 1
  | .w _ | .wsp => 0

def Reg.n : Reg → BitVec 5
  | .x n | .w n => n
  | .sp | .wsp => 31

def Reg.isSp : Reg → Bool
  | .x _ | .w _ => false
  | .sp | .wsp => true

def countOnes (x : BitVec 64) : ℕ := Nat.count (fun i => x.getLsbD i) 64

/-- The loop that finds the element's size, 2^k: `size` is halved while both halves of
    an element are equal. -/
def halve (v : BitVec 64) : ℕ → ℕ
  | 0 => 0
  | 1 => 1
  | k + 2 =>
    let half := 2 ^ (k + 1)
    let mask := 1#64 <<< half - 1
    if v &&& mask ≠ (v >>> half) &&& mask then k + 2 else halve v (k + 1)

def elemMask (size : ℕ) : BitVec 64 := if size = 64 then BitVec.allOnes 64 else 1#64 <<< size - 1

/-- An element of `size` bits, rotated to the right. -/
def rotr (size : ℕ) (x : BitVec 64) (r : ℕ) : BitVec 64 :=
  if r = 0 then x else (x >>> r ||| x <<< (size - r)) &&& elemMask size

/-- The value as a pattern of 64 bits. -/
def pattern (value : BitVec 64) (sf : BitVec 1) : BitVec 64 :=
  if sf = 1 then value else value &&& 0xffffffff#64 ||| value <<< 32

/-- The N:immr:imms encoding of a logical immediate, if it has one. -/
def bitmask (value : BitVec 64) (sf : BitVec 1) : Option (BitVec 32) :=
  let v := pattern value sf
  if v = 0 ∨ v = BitVec.allOnes 64 then none
  else do
    let size := 2 ^ halve v 6
    let elem := v &&& elemMask size
    let ones := countOnes elem
    let run := 1#64 <<< ones - 1
    let r ← (List.range size).find? fun r => rotr size elem r = run
    let immr := BitVec.ofNat 32 ((size - r) % size)
    let imms := ~~~(BitVec.ofNat 32 size <<< 1 - 1) &&& 0x3f#32 ||| (BitVec.ofNat 32 ones - 1)
    let n := if size = 64 then 1#32 else 0
    some (n <<< 12 ||| immr <<< 6 ||| imms)

/-- The 16-bit chunk that holds all of `x`. -/
def single (sf : BitVec 1) (mask x : BitVec 64) : Option ℕ :=
  (List.range (if sf = 1 then 4 else 2)).find? fun h =>
    x &&& ~~~(0xffff#64 <<< (16 * h)) &&& mask = 0

/-- MOVZ, MOVN or ORR, without the register. -/
def movWord (sf : BitVec 1) (sp : Bool) (mask v : BitVec 64) : Option (BitVec 32) :=
  let chunk (x : BitVec 64) (h : ℕ) := ((x >>> (16 * h)).setWidth 32 &&& 0xffff#32) <<< 5
  -- MOVZ and MOVN can't write SP: register 31 is the zero register there
  match (single sf mask v).filter fun _ => !sp with
  | some h => some (0x52800000#32 ||| BitVec.ofNat 32 h <<< 21 ||| chunk v h)
  | none => match (single sf mask (~~~v &&& mask)).filter fun _ => !sp with
    | some h => some (0x12800000#32 ||| BitVec.ofNat 32 h <<< 21 ||| chunk (~~~v) h)
    | none => (bitmask v sf).map fun (imm : BitVec 32) => 0x320003e0#32 ||| imm <<< 10

/-- MOV with an immediate: MOVZ, MOVN or ORR. -/
def movImm (rd : Reg) (v : BitVec 64) : Option (BitVec 32) :=
  let sf := rd.sf
  let v := if sf = 1 then v else v &&& 0xffffffff#64
  let mask := if sf = 1 then BitVec.allOnes 64 else 0xffffffff#64
  (movWord sf rd.isSp mask v).map fun (word : BitVec 32) =>
    word ||| sf.setWidth 32 <<< 31 ||| rd.n.setWidth 32

end Vasm
