/-
  Asynchronous system traps (`astdel.mar`): a process's AST queue, and the masks of
  modes the PAL looks at.  Masks are sets of access modes, 0 for kernel.
-/
import Vaxpunk.Lib.Queues

namespace Sched

structure Acb where
  addr : ℕ
  rmod : ℕ
  pid : ℕ
  /-- ACB$L_KAST is an executive's routine. -/
  kast : Bool
  deriving DecidableEq, Repr

/-- Of a PCB and its HWPCB, what has to do with ASTs. -/
structure Ast where
  queue : List Acb
  asten : Finset ℕ
  astact : Finset ℕ
  /-- The modes PCB$L_ASTSP's chain on the kernel stack keeps, the last AST's first. -/
  running : List ℕ
  hwAstsr : Finset ℕ
  hwAsten : Finset ℕ
  deriving DecidableEq

namespace Ast

/-- A new process's. -/
def new : Ast := ⟨[], {0, 1, 2, 3}, ∅, [], ∅, {0, 1, 2, 3}⟩

def astbits (a : Ast) : Ast :=
  { a with hwAstsr := (a.queue.map Acb.rmod).toFinset, hwAsten := a.asten \ a.astact }

/-- The part of SCH$QAST that queues the ACB. -/
def enqueue (a : Ast) (b : Acb) : Ast := astbits { a with queue := Queues.insertAfter Acb.rmod b a.queue }

/-- Whether SCH$WAIT finds an AST to deliver to a process that waits in `mode`. -/
def waiting (a : Ast) (mode : ℕ) : Bool := (a.hwAsten ∩ a.hwAstsr).filter (· ≤ mode) ≠ ∅

/-- The ACB EXE$ASTDEL takes in `mode`: the queue is looked through up to the
    outer modes'. -/
def next (a : Ast) (mode : ℕ) : Option Acb :=
  (a.queue.takeWhile fun b => b.rmod ≤ mode).find? fun b => b.rmod ∈ a.hwAsten

/-- EXE$ASTDEL, up to the routine it calls. -/
def deliver (a : Ast) (mode : ℕ) : Ast :=
  match a.next mode with
  | none => a
  | some b =>
    let a := astbits { a with queue := a.queue.erase b }
    if b.kast then a
    else astbits { a with astact := insert b.rmod a.astact, running := b.rmod :: a.running }

/-- $ASTEXIT, up to EXE$ASTDEL's loop. -/
def exit (a : Ast) : Ast :=
  match a.running with
  | [] => a
  | m :: ms => astbits { a with running := ms, astact := a.astact.erase m }

def setast (a : Ast) (mode : ℕ) (on : Bool) : Ast :=
  astbits { a with asten := if on then insert mode a.asten else a.asten.erase mode }

/-- IOC$CANCELQ and LCK$RUNDOWN: the ACBs of requests that go are freed. -/
def cancel (a : Ast) (keep : Acb → Bool) : Ast := astbits { a with queue := a.queue.filter keep }

def flush (a : Ast) (mode : ℕ) : Ast :=
  astbits { a with
    queue := a.queue.filter fun b => b.rmod < mode
    asten := a.asten ∪ (Finset.range 4).filter (mode ≤ ·)
    astact := ∅
    running := [] }

end Ast

end Sched
