/-
  The assembler's expressions (`vasm/src/expr.rs`): what it can evaluate itself.
-/
import Vaxpunk.Obj.Record

namespace Vasm

open Obj (Name)

inductive Op where
  | mul
  | div
  | rem
  | add
  | sub
  | shl
  | shr
  | and
  | xor
  | or
  /-- MACRO-32's `@`: left by a positive count, arithmetic right by a negative one. -/
  | ash
  deriving DecidableEq, Repr

inductive Expr where
  | num (n : BitVec 64)
  | sym (name : Name)
  /-- The location counter, `.`. -/
  | here
  | neg (e : Expr)
  | not (e : Expr)
  | bin (op : Op) (l r : Expr)
  deriving DecidableEq, Repr

/-- A value: absolute, or relative to a psect of this module or to an external
    symbol, which the linker resolves. -/
inductive Value where
  | abs (n : BitVec 64)
  | psect (psect : ℕ) (offset : BitVec 64)
  | ext (name : Name) (offset : BitVec 64)
  deriving DecidableEq, Repr

/-- Symbols and the location counter, for evaluation. -/
structure Scope where
  lookup : Name → Option Value
  here : Value

inductive EvalError where
  /-- "undefined symbol" and its name -/
  | undefined (name : Name)
  /-- "division by zero" -/
  | division
  /-- "the linker can only add or subtract a constant to an address" -/
  | address
  deriving DecidableEq, Repr

def arith (op : Op) (l r : BitVec 64) : Except EvalError (BitVec 64) :=
  -- the wrapping shifts take the count modulo 64
  let count := r.toNat % 64
  match op with
  | .mul => .ok (l * r)
  | .div => if r = 0 then .error .division else .ok (l.sdiv r)
  | .rem => if r = 0 then .error .division else .ok (l.srem r)
  | .add => .ok (l + r)
  | .sub => .ok (l - r)
  | .shl => .ok (l <<< count)
  | .shr => .ok (l >>> count)
  | .and => .ok (l &&& r)
  | .xor => .ok (l ^^^ r)
  | .or => .ok (l ||| r)
  | .ash => if 0 ≤ r.toInt then .ok (l <<< count) else .ok (l.sshiftRight (r.toInt.natAbs % 64))

def Value.toAbs : Value → Except EvalError (BitVec 64)
  | .abs n => .ok n
  | _ => .error .address

/-- The operator's own value, if both sides are constants. -/
def constant (op : Op) (l r : Value) : Except EvalError Value := do
  let l ← l.toAbs
  let r ← r.toAbs
  .ok (.abs (← arith op l r))

/-- A binary operator: relocatable values support adding and subtracting constants;
    two addresses in the same psect subtract to a constant. -/
def binary (op : Op) (l r : Value) : Except EvalError Value :=
  match op, l, r with
  | .add, .psect psect offset, .abs n | .add, .abs n, .psect psect offset =>
    .ok (.psect psect (offset + n))
  | .add, .ext name offset, .abs n | .add, .abs n, .ext name offset => .ok (.ext name (offset + n))
  | .sub, .psect psect offset, .abs n => .ok (.psect psect (offset - n))
  | .sub, .ext name offset, .abs n => .ok (.ext name (offset - n))
  | .sub, .psect p a, .psect q b =>
    if p = q then .ok (.abs (a - b)) else constant .sub (.psect p a) (.psect q b)
  | .sub, .ext m a, .ext n b =>
    if m = n then .ok (.abs (a - b)) else constant .sub (.ext m a) (.ext n b)
  | op, l, r => constant op l r

def eval (s : Scope) : Expr → Except EvalError Value
  | .num n => .ok (.abs n)
  | .sym name => match s.lookup name with
    | some v => .ok v
    | none => .error (.undefined name)
  | .here => .ok s.here
  | .neg e => do .ok (.abs (-(← (← eval s e).toAbs)))
  | .not e => do .ok (.abs (~~~(← (← eval s e).toAbs)))
  | .bin op l r => do
    let l ← eval s l
    let r ← eval s r
    binary op l r

end Vasm
