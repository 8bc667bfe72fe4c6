/-
  What the linker computes (`vms-obj/src/reloc.rs`): TIR operators, how a value
  changes when the image moves, and how an ARM64 store patches its instruction.
-/
import Vaxpunk.Obj.Record

namespace Obj

/-! ## Operators -/

/-- How a value changes when the image moves by D: it is a constant plus k × D, for
    its weight k.  `none` when it can't be written that way. -/
abbrev Weight := Option ℤ

/-- A value of the linker's stack. -/
abbrev Value := BitVec 64 × Weight

/-- The checked `i64` operations: none on overflow. -/
def i64? (k : ℤ) : Option ℤ := if -2 ^ 63 ≤ k ∧ k < 2 ^ 63 then some k else none

/-- How many values an operator pops, or none if it isn't one with a result. -/
def operands : Tir → Option ℕ
  | .oprNeg | .oprCom => some 1
  | .oprAdd | .oprSub | .oprMul | .oprDiv | .oprAnd | .oprIor | .oprEor | .oprAsh | .oprRot =>
    some 2
  | .oprSel => some 3
  | _ => none

/-- The value an operator pushes, from those it pops, first pushed first. -/
def opValue (op : Tir) (v : ℕ → BitVec 64) : BitVec 64 :=
  match op with
  | .oprNeg => -v 0
  | .oprCom => ~~~v 0
  | .oprAdd => v 0 + v 1
  | .oprSub => v 0 - v 1
  | .oprMul => v 0 * v 1
  | .oprDiv => if v 1 = 0 then 0 else (v 0).sdiv (v 1)
  | .oprAnd => v 0 &&& v 1
  | .oprIor => v 0 ||| v 1
  | .oprEor => v 0 ^^^ v 1
  -- the first value pushed is the count: positive left; shifts take it modulo 64
  | .oprAsh =>
    if 0 ≤ (v 0).toInt then v 1 <<< ((v 0).toNat % 64)
    else (v 1).sshiftRight ((v 0).toInt.natAbs % 64)
  | .oprRot =>
    if 0 ≤ (v 0).toInt then (v 1).rotateLeft ((v 0).toNat % 64)
    else (v 1).rotateRight ((v 0).toInt.natAbs % 64)
  -- the condition is pushed last; the first value pushed is for false
  | .oprSel => if v 2 &&& 1 ≠ 0 then v 1 else v 0
  | _ => 0

/-- The weight of what an operator pushes. -/
def weight (op : Tir) (args : List Value) : Weight :=
  match op, args with
  | .oprAdd, [(_, a), (_, b)] => do i64? ((← a) + (← b))
  | .oprSub, [(_, a), (_, b)] => do i64? ((← a) - (← b))
  | .oprNeg, [(_, a)] => do i64? (-(← a))
  -- still linear in D if one side is a constant
  | .oprMul, [(x, a), (y, b)] => do
    let a ← a
    let b ← b
    if a = 0 then i64? (b * x.toInt)
    else if b = 0 then i64? (a * y.toInt)
    else none
  | _, args => if args.all (·.2 = some 0) then some 0 else none

/-- What an operator pushes. -/
def operate (op : Tir) (args : List Value) : Value :=
  (opValue op fun i => (args.getD i (0, none)).1, weight op args)

/-! ## ARM64 stores -/

/-- The field an ARM64 store patches. -/
inductive Kind where
  | jump26
  | branch19
  | branch14
  | adr
  | adrp
  | addLo12
  /-- A load or store, with log2 of its access size. -/
  | ldst (scale : ℕ)
  /-- A 16-bit chunk for MOVZ/MOVK, and whether the higher bits must be zero. -/
  | movw (chunk : ℕ) (check : Bool)
  deriving DecidableEq, Repr

/-- The relocation an ARM64 store command applies, with its instruction. -/
def Kind.of : Tir → Option (Kind × BitVec 32)
  | .stoA64Jump26 insn => some (.jump26, insn)
  | .stoA64Branch19 insn => some (.branch19, insn)
  | .stoA64Branch14 insn => some (.branch14, insn)
  | .stoA64Adr insn => some (.adr, insn)
  | .stoA64Adrp insn => some (.adrp, insn)
  | .stoA64AddLo12 insn => some (.addLo12, insn)
  | .stoA64Ldst8Lo12 insn => some (.ldst 0, insn)
  | .stoA64Ldst16Lo12 insn => some (.ldst 1, insn)
  | .stoA64Ldst32Lo12 insn => some (.ldst 2, insn)
  | .stoA64Ldst64Lo12 insn => some (.ldst 3, insn)
  | .stoA64Ldst128Lo12 insn => some (.ldst 4, insn)
  | .stoA64MovwG0 insn => some (.movw 0 true, insn)
  | .stoA64MovwG0Nc insn => some (.movw 0 false, insn)
  | .stoA64MovwG1 insn => some (.movw 1 true, insn)
  | .stoA64MovwG1Nc insn => some (.movw 1 false, insn)
  | .stoA64MovwG2 insn => some (.movw 2 true, insn)
  | .stoA64MovwG2Nc insn => some (.movw 2 false, insn)
  | .stoA64MovwG3 insn => some (.movw 3 false, insn)
  | _ => none

/-- What a store needs for the image to move. -/
inductive Need where
  /-- The stored bits stay right wherever the image goes. -/
  | nothing
  /-- The loader adds D to the stored quadword (8) or longword (4). -/
  | fixup (size : ℕ)
  /-- Nothing can make it right. -/
  | impossible
  deriving DecidableEq, Repr

/-- What a store of data of weight `k` needs, `address` for an address. -/
def needData (k : Weight) (address : Need) : Need :=
  if k = some 0 then .nothing else if k = some 1 then address else .impossible

/-- Whether a patched field of weight `k` stays right. -/
def Kind.moves (kind : Kind) (k : Weight) : Bool :=
  match kind with
  | .jump26 | .branch19 | .branch14 | .adr | .adrp => k = some 1
  -- D is a multiple of 64 KB, so the low 12 and 16 bits never change
  | .addLo12 | .ldst _ | .movw 0 false => k = some 0 ∨ k = some 1
  | .movw _ _ => k = some 0

/-- What a store command needs when the value it stores has weight `k`. -/
def need (cmd : Tir) (k : Weight) : Need :=
  match cmd with
  | .stoQw | .stoOff | .stoGbl _ | .stoCa _ => needData k (.fixup 8)
  | .stoLw => needData k (.fixup 4)
  | .stoW | .stoB | .stoImmr _ => needData k .impossible
  | cmd => match Kind.of cmd with
    | none => .nothing
    | some (kind, _) => if kind.moves k then .nothing else .impossible

/-- Why an instruction can't be patched. -/
inductive RelocErr where
  /-- "branch target not 4-byte aligned" -/
  | unaligned
  /-- "branch target out of range", "ADR target out of range" -/
  | range (kind : Kind)
  /-- "address not aligned to the access size" -/
  | access
  /-- "address too large for this MOVZ/MOVK chunk" -/
  | chunk
  deriving DecidableEq, Repr

/-- A branch's immediate field of `bits` bits, for the distance `d`. -/
def branch (kind : Kind) (d : BitVec 64) (bits : ℕ) : Except RelocErr (BitVec 32) :=
  if d.toInt.tmod 4 ≠ 0 then .error .unaligned
  else if d.toInt < -2 ^ (bits + 1) ∨ 2 ^ (bits + 1) ≤ d.toInt then .error (.range kind)
  else .ok ((d.sshiftRight 2).setWidth 32 &&& BitVec.ofNat 32 (2 ^ bits - 1))

/-- ADR's split immediate: immlo in bits 29-30, immhi in bits 5-23. -/
def adr (v : BitVec 64) : BitVec 32 :=
  let v := v.setWidth 32
  (v &&& 3) <<< 29 ||| ((v >>> 2) &&& 0x7ffff) <<< 5

/-- ADR and ADRP reach 2^20 bytes or pages either way. -/
def adrField (kind : Kind) (d : BitVec 64) : Except RelocErr (BitVec 32) :=
  if d.toInt < -2 ^ 20 ∨ 2 ^ 20 ≤ d.toInt then .error (.range kind) else .ok (adr d)

/-- The mask and the contents of the field `kind` patches, to refer to `s` from
    `p`. -/
def field (kind : Kind) (s p : BitVec 64) : Except RelocErr (BitVec 32 × BitVec 32) :=
  match kind with
  | .jump26 => (branch kind (s - p) 26).map fun f => (0x03ffffff, f)
  | .branch19 => (branch kind (s - p) 19).map fun (f : BitVec 32) => (0x00ffffe0, f <<< 5)
  | .branch14 => (branch kind (s - p) 14).map fun (f : BitVec 32) => (0x0007ffe0, f <<< 5)
  | .adr => (adrField kind (s - p)).map fun f => (0x60ffffe0, f)
  | .adrp => (adrField kind (((s &&& ~~~0xfff) - (p &&& ~~~0xfff)).sshiftRight 12)).map fun f =>
    (0x60ffffe0, f)
  | .addLo12 => .ok (0x003ffc00, (s &&& 0xfff).setWidth 32 <<< 10)
  | .ldst scale =>
    if (s &&& 0xfff).toNat % 2 ^ scale ≠ 0 then .error .access
    else .ok (0x003ffc00, ((s &&& 0xfff) >>> scale).setWidth 32 <<< 10)
  | .movw chunk check =>
    if check && s >>> (16 * (chunk + 1)) != 0 then .error .chunk
    else .ok (0x001fffe0, ((s >>> (16 * chunk)) &&& 0xffff).setWidth 32 <<< 5)

/-- Patches `insn`, stored at address `p`, to refer to `s`, or says why it can't. -/
def apply (kind : Kind) (insn : BitVec 32) (s p : BitVec 64) : Except RelocErr (BitVec 32) :=
  (field kind s p).map fun (mask, f) => insn &&& ~~~mask ||| f

end Obj
