/-
  The instructions that refer to an address relative to their own
  (`vasm/src/encode.rs`): encoded at once if the address is in the same psect, and
  otherwise left to the linker (`store` in `vasm/src/emit.rs`).

  An `i64` that overflows is a panic, as in a build with overflow checks.
-/
import Vaxpunk.Vasm.Expr

namespace Vasm

open Obj (Tir)

/-- How the linker must patch an instruction. -/
inductive Fix where
  | jump26
  | branch19
  | branch14
  | adr
  | adrp
  deriving DecidableEq, Repr

/-- An encoded instruction; with a fixup, the patched field is zero. -/
structure Encoded where
  word : BitVec 32
  fixup : Option (Fix × Value)
  deriving DecidableEq, Repr

inductive EncodeError where
  | panic
  /-- "branch target is not 4-byte aligned" -/
  | unaligned
  /-- "branch target out of range" -/
  | branchRange (bits : ℕ)
  /-- "ADR offset out of range" -/
  | adrRange (v : BitVec 64)
  deriving DecidableEq, Repr

/-- A branch or address target: the displacement from this instruction if it's in the
    same psect, otherwise a fixup. -/
def target (here v : Value) (fix : Fix) : Except EncodeError (BitVec 64 ⊕ Fix × Value) :=
  match v, here with
  | .psect p a, .psect q b =>
    if p = q ∧ fix ≠ .adrp then
      if BitVec.ssubOverflow a b then .error .panic else .ok (.inl (a - b))
    else .ok (.inr (fix, v))
  | v, _ => .ok (.inr (fix, v))

/-- A displacement in instructions, for branches. -/
def disp (v : BitVec 64) (bits : ℕ) : Except EncodeError (BitVec 32) :=
  if v.toInt.tmod 4 ≠ 0 then .error .unaligned
  else if v.toInt < -2 ^ (bits + 1) ∨ 2 ^ (bits + 1) ≤ v.toInt then .error (.branchRange bits)
  else .ok ((v.sdiv 4).setWidth 32 &&& BitVec.ofNat 32 (2 ^ bits - 1))

/-- `signed(v, 21)`: the offset fits in ADR's 21 bits. -/
def signed21 (v : BitVec 64) : Except EncodeError Unit :=
  if v.toInt < -2 ^ 20 ∨ 2 ^ 20 ≤ v.toInt then .error (.adrRange v) else .ok ()

def adrField (v : BitVec 64) : BitVec 32 :=
  let v := v.setWidth 32
  (v &&& 3#32) <<< 29 ||| ((v >>> 2) &&& 0x7ffff#32) <<< 5

/-- A branch: direct if the target is in this psect, otherwise a fixup. -/
def branch (base : BitVec 32) (fix : Fix) (bits shift : ℕ) (here v : Value) :
    Except EncodeError Encoded := do
  match ← target here v fix with
  | .inl d => .ok ⟨base ||| (← disp d bits) <<< shift, none⟩
  | .inr fixup => .ok ⟨base, some fixup⟩

/-- What LDR (literal) loads: `LDR` of a W, X, S, D or Q register, or `LDRSW`. -/
inductive Literal where
  | w
  | x
  | sw
  | s
  | d
  | q
  deriving DecidableEq, Repr

def Literal.word : Literal → BitVec 32
  | .w => 0x18000000
  | .x => 0x58000000
  | .sw => 0x98000000
  | .s => 0x1c000000
  | .d => 0x5c000000
  | .q => 0x9c000000

/-- The instructions, with their other operands: `B` and `BL`, `B.cond`, `CBZ` and
    `CBNZ`, `TBZ` and `TBNZ`, `LDR` of a literal, `ADR` and `ADRP`. -/
inductive Insn where
  | b (link : Bool)
  | bCond (c : BitVec 4)
  | cbz (nonzero sf : Bool) (rt : BitVec 5)
  | tbz (nonzero : Bool) (bit : BitVec 6) (rt : BitVec 5)
  | ldr (lit : Literal) (rt : BitVec 5)
  | adr (rd : BitVec 5)
  | adrp (rd : BitVec 5)
  deriving DecidableEq, Repr

def flag (b : Bool) (i : ℕ) : BitVec 32 := (BitVec.ofBool b).setWidth 32 <<< i

/-- The instruction with a field of zero. -/
def Insn.word : Insn → BitVec 32
  | .b link => if link then 0x94000000 else 0x14000000
  | .bCond c => 0x54000000#32 ||| c.setWidth 32
  | .cbz nonzero sf rt => 0x34000000#32 ||| flag sf 31 ||| flag nonzero 24 ||| rt.setWidth 32
  | .tbz nonzero bit rt =>
    let bit := bit.setWidth 32
    0x36000000#32 ||| (bit >>> 5) <<< 31 ||| flag nonzero 24 ||| (bit &&& 31#32) <<< 19 ||| rt.setWidth 32
  | .ldr lit rt => lit.word ||| rt.setWidth 32
  | .adr rd => 0x10000000#32 ||| rd.setWidth 32
  | .adrp rd => 0x90000000#32 ||| rd.setWidth 32

def Insn.fix : Insn → Fix
  | .b _ => .jump26
  | .bCond _ | .cbz .. | .ldr .. => .branch19
  | .tbz .. => .branch14
  | .adr _ => .adr
  | .adrp _ => .adrp

/-- ADR and ADRP, from `base`. -/
def adrInsn (base : BitVec 32) (fix : Fix) (rd : BitVec 5) (here v : Value) :
    Except EncodeError Encoded := do
  match ← target here v fix with
  | .inl d =>
    signed21 d
    .ok ⟨base ||| adrField d ||| rd.setWidth 32, none⟩
  | .inr fixup => .ok ⟨base ||| rd.setWidth 32, some fixup⟩

/-- The instruction at `here`, with the target `v`. -/
def encode (i : Insn) (here v : Value) : Except EncodeError Encoded :=
  match i with
  | .b _ => branch i.word i.fix 26 0 here v
  | .bCond _ | .cbz .. | .ldr .. => branch i.word i.fix 19 5 here v
  | .tbz .. => branch i.word i.fix 14 5 here v
  | .adr rd => adrInsn 0x10000000 i.fix rd here v
  | .adrp rd => adrInsn 0x90000000 i.fix rd here v

/-- The store of an instruction with a fixup. -/
def store (fix : Fix) (insn : BitVec 32) : Tir :=
  match fix with
  | .jump26 => .stoA64Jump26 insn
  | .branch19 => .stoA64Branch19 insn
  | .branch14 => .stoA64Branch14 insn
  | .adr => .stoA64Adr insn
  | .adrp => .stoA64Adrp insn

end Vasm
