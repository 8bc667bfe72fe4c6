/-
  What the assembler evaluates is what the linker's addresses give.
-/
import Vaxpunk.Lib.Exec
import Vaxpunk.Vasm.Expr

namespace Vasm

open Obj (Name)
open Exec (bind_eq_ok)

variable (base : ℕ → BitVec 64) (ext : Name → BitVec 64)

/-- The number a value is, once psects and external symbols have addresses. -/
def Value.resolve : Value → BitVec 64
  | .abs n => n
  | .psect p offset => base p + offset
  | .ext name offset => ext name + offset

/-- The expression computed on these addresses. -/
def compute (s : Scope) : Expr → Except EvalError (BitVec 64)
  | .num n => .ok n
  | .sym name => match s.lookup name with
    | some v => .ok (v.resolve base ext)
    | none => .error (.undefined name)
  | .here => .ok (s.here.resolve base ext)
  | .neg e => do .ok (-(← compute s e))
  | .not e => do .ok (~~~(← compute s e))
  | .bin op l r => do arith op (← compute s l) (← compute s r)

variable {base ext} {s : Scope} {v l r : Value} {op : Op} {n : BitVec 64}

theorem resolve_of_toAbs (h : v.toAbs = .ok n) : v.resolve base ext = n := by
  cases v <;> cases h
  rfl

theorem constant_sound (h : constant op l r = .ok v) :
    arith op (l.resolve base ext) (r.resolve base ext) = .ok (v.resolve base ext) := by
  obtain ⟨a, ha, h⟩ := bind_eq_ok.mp h
  obtain ⟨b, hb, h⟩ := bind_eq_ok.mp h
  obtain ⟨c, hc, h⟩ := bind_eq_ok.mp h
  cases h
  rw [resolve_of_toAbs ha, resolve_of_toAbs hb, hc]
  rfl

theorem binary_sound (h : binary op l r = .ok v) :
    arith op (l.resolve base ext) (r.resolve base ext) = .ok (v.resolve base ext) := by
  unfold binary at h
  split at h
  all_goals try (cases h; simp only [arith, Value.resolve]; congr 1; ring)
  · split_ifs at h with hpq
    · cases h
      subst hpq
      simp [arith, Value.resolve]
    · exact constant_sound h
  · split_ifs at h with hmn
    · cases h
      subst hmn
      simp [arith, Value.resolve]
    · exact constant_sound h
  · exact constant_sound h

/-- **What the assembler evaluates** is the number that the expression has on the final
    addresses. -/
theorem eval_sound (e : Expr) (s : Scope) (v : Value) (h : eval s e = .ok v)
    (base : ℕ → BitVec 64) (ext : Name → BitVec 64) :
    compute base ext s e = .ok (v.resolve base ext) := by
  induction e generalizing v with
  | num n =>
    cases h
    rfl
  | sym name =>
    unfold eval at h
    split at h
    · next w hw =>
      cases h
      simp only [compute, hw]
    · cases h
  | here =>
    cases h
    rfl
  | neg e ih | not e ih =>
    obtain ⟨w, hw, h⟩ := bind_eq_ok.mp h
    obtain ⟨n, hn, h⟩ := bind_eq_ok.mp h
    cases h
    unfold compute
    rw [ih w hw, resolve_of_toAbs hn]
    rfl
  | bin op l r ihl ihr =>
    obtain ⟨a, ha, h⟩ := bind_eq_ok.mp h
    obtain ⟨b, hb, h⟩ := bind_eq_ok.mp h
    unfold compute
    rw [ihl a ha, ihr b hb]
    exact binary_sound h

/-- From the symbol `A` to the location counter, in a psect at 20000 (hex). -/
theorem eval_sound_distance :
    compute (fun _ => 0x20000) (fun _ => 0) ⟨fun _ => some (.psect 1 0x10), .psect 1 0x40⟩
      (.bin .sub .here (.sym [0x41])) = .ok 0x30 :=
  eval_sound (.bin .sub .here (.sym [0x41])) ⟨fun _ => some (.psect 1 0x10), .psect 1 0x40⟩
    (.abs 0x30) (by decide) _ _

end Vasm
