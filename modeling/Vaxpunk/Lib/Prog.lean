/-
  Programs that can fail and that write to a store: the result, the state left
  behind (also by a failure) and the writes issued, in order.
-/
import Mathlib

namespace Prog

/-- What one run of a program does. -/
structure Outcome (σ ε ω α : Type) where
  result : Except ε α
  state : σ
  writes : List ω

end Prog

/-- A program over states `σ`, with errors `ε`, issuing writes `ω`. -/
def Prog (σ ε ω α : Type) : Type := σ → Prog.Outcome σ ε ω α

namespace Prog

variable {σ ε ω α β : Type}

/-- Run `m`, then `f` on its value; a failure of `m` ends the run. -/
protected def bind (m : Prog σ ε ω α) (f : α → Prog σ ε ω β) : Prog σ ε ω β := fun s =>
  match m s with
  | ⟨.ok a, s', ws⟩ =>
    match f a s' with
    | ⟨r, s'', ws'⟩ => ⟨r, s'', ws ++ ws'⟩
  | ⟨.error e, s', ws⟩ => ⟨.error e, s', ws⟩

protected def pure (a : α) : Prog σ ε ω α := fun s => ⟨.ok a, s, []⟩

instance : Monad (Prog σ ε ω) where
  pure := Prog.pure
  bind := Prog.bind

def fail (e : ε) : Prog σ ε ω α := fun s => ⟨.error e, s, []⟩

def state : Prog σ ε ω σ := fun s => ⟨.ok s, s, []⟩

/-- Read something off the current state. -/
def gets (f : σ → α) : Prog σ ε ω α := fun s => ⟨.ok (f s), s, []⟩

def modify (f : σ → σ) : Prog σ ε ω Unit := fun s => ⟨.ok (), f s, []⟩

def when (c : Prop) [Decidable c] (m : Prog σ ε ω Unit) : Prog σ ε ω Unit :=
  if c then m else Prog.pure ()

/-- The value, or the failure `e`. -/
def orFail (e : ε) : Option α → Prog σ ε ω α
  | some a => Prog.pure a
  | none => fail e

/-- Run `f` on each element, in order. -/
def each (f : α → Prog σ ε ω Unit) : List α → Prog σ ε ω Unit
  | [] => Prog.pure ()
  | a :: as => Prog.bind (f a) fun _ => each f as

/-- Run `f` on each element, in order, and collect the values. -/
def collect (f : α → Prog σ ε ω β) : List α → Prog σ ε ω (List β)
  | [] => Prog.pure []
  | a :: as => Prog.bind (f a) fun b => Prog.bind (collect f as) fun bs => Prog.pure (b :: bs)

end Prog
