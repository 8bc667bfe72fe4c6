/-
  The timer queue (`timeschdl.mar`), in the order its entries are due.
-/
import Vaxpunk.Lib.Queues

namespace Sched

inductive Rqtype where
  | tmsngl
  | wksngl
  | wkrept
  | sssngl
  deriving DecidableEq, Repr

structure Tqe where
  addr : ℕ
  rqtype : Rqtype
  time : BitVec 64
  delta : BitVec 64
  pid : ℕ
  /-- TQE$L_AST isn't 0. -/
  ast : Bool
  astprm : ℕ
  rmod : ℕ
  efn : ℕ
  /-- Not of the source: how many were put on the queue before it. -/
  seq : ℕ
  deriving DecidableEq, Repr

/-- TICK, 10 ms. -/
def TICK : ℕ := 100000

def TICKS_SEC : ℕ := 100

structure Tim where
  /-- EXE$GQ_TQFL. -/
  queue : List Tqe
  first : BitVec 64
  systime : BitVec 64
  secticks : ℕ
  scanned : ℕ
  /-- The interrupt at IPL$_TIMER is requested. -/
  softint : Bool
  /-- Not of the source: how many entries have been put on the queue. -/
  count : ℕ

/-! ## Quadwords, a longword at a time -/

def high (q : BitVec 64) : BitVec 32 := q.extractLsb' 32 32

def low (q : BitVec 64) : BitVec 32 := q.setWidth 32

/-- CMPL of the high longwords, and of the low ones if they are equal. -/
def later (a b : BitVec 64) : Bool := high a > high b || high a = high b && low a > low b

/-- SUBL2 of the low longwords, DECL if that borrows, and SUBL2 of the high ones. -/
def subq (a b : BitVec 64) : BitVec 64 :=
  (high a - (if low a < low b then 1 else 0) - high b) ++ (low a - low b)

/-! ## The queue -/

namespace Tim

def due (e : Tqe) : ℕ := e.time.toNat

/-- When the first entry is due, or never. -/
def firstTime : List Tqe → BitVec 64
  | [] => BitVec.allOnes 64
  | e :: _ => e.time

def setfirst (t : Tim) : Tim := { t with first := firstTime t.queue }

def instimq (t : Tim) (e : Tqe) : Tim :=
  setfirst { t with
    queue := t.queue.orderedInsert (fun a b => later b.time a.time) { e with seq := t.count }
    count := t.count + 1 }

def rmvtqe (t : Tim) (e : Tqe) : Tim := setfirst { t with queue := t.queue.erase e }

/-- EXE$RMVTIMQ: the process's entries of some types, and of `reqidt` if that isn't 0. -/
def rmvtimq (t : Tim) (pid : ℕ) (types : List Rqtype) (reqidt : ℕ) : Tim :=
  setfirst { t with queue := t.queue.filter fun e =>
    ¬(e.pid = pid ∧ e.rqtype ∈ types ∧ (reqidt = 0 ∨ e.astprm = reqidt)) }

/-- ABSTIM: a time, or a delta from now. -/
def abstim (t : Tim) (time : BitVec 64) : BitVec 64 := if time.msb then t.systime - time else time

/-- The deltas $SCHDWK takes: -TICK or less. -/
def Repeats (delta : BitVec 64) : Prop := delta.toInt ≤ -(TICK : ℤ)

instance (delta : BitVec 64) : Decidable (Repeats delta) := inferInstanceAs (Decidable (_ ≤ _))

/-- EXE$HWCLKINT's part. -/
def tick (t : Tim) (quantumUp : Bool) : Tim :=
  let second : Bool := t.secticks ≤ 1
  let systime := t.systime + BitVec.ofNat 64 TICK
  { t with
    secticks := if second then TICKS_SEC else t.secticks - 1
    systime := systime
    softint := t.softint || second || (systime ≥ t.first : Bool) || quantumUp }

end Tim

end Sched
