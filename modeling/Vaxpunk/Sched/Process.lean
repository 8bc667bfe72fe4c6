/-
  The scheduler (`sched.mar`): processes, the queues their states name, and which
  of them has the CPU.

  A PCB is known by its address.  What a routine does at IPL$_SYNCH is one step.
  SCH$SCHED ends the step of the process that calls it: what follows the call is a
  step of that process when it has the CPU again.
-/
import Vaxpunk.Lib.Queues

namespace Sched

/-- $STATEDEF; a deleted process's state is 0.  An address that is no PCB's is
    `gone`. -/
inductive State where
  | gone
  | deleted
  | mwait
  | cef
  | lef
  | hib
  | susp
  | com
  | cur
  deriving DecidableEq, Repr

/-- Below SCH$C_SUSP. -/
def State.waits : State → Bool
  | .deleted | .mwait | .cef | .lef | .hib => true
  | .gone | .susp | .com | .cur => false

/-- The state queues.  Each common event block has one, and so has each resource. -/
inductive Queue where
  | com (pri : ℕ)
  | hib
  | lef
  | cef (ceb : ℕ)
  | mwait (resource : ℕ)
  | susp
  | del
  deriving DecidableEq, Repr

/-- Of a PCB, what the scheduler uses. -/
structure Pcb where
  state : State
  pid : ℕ
  pri : ℕ
  prib : ℕ
  quant : BitVec 16
  waitime : ℕ
  wakepen : Bool
  suspen : Bool
  deriving DecidableEq, Repr

structure Db where
  pcb : ℕ → Pcb
  queue : Queue → List ℕ
  comqs : BitVec 32
  curpcb : ℕ
  /-- The CPU waits in SCH$SCHED for a process it can run. -/
  idle : Bool
  /-- The interrupt at IPL$_RESCHED is requested. -/
  resched : Bool
  /-- EXE$LOGIN has set the current process's priority since it got the CPU. -/
  login : Bool
  pcbvec : ℕ → Option ℕ
  maxpix : ℕ
  seq : ℕ
  swppcb : ℕ
  /-- SGN$GW_QUANTUM. -/
  quantum : BitVec 16
  abstim : ℕ

namespace Db

def set (s : Db) (p : ℕ) (f : Pcb → Pcb) : Db := { s with pcb := Function.update s.pcb p (f (s.pcb p)) }

def insque (s : Db) (p : ℕ) (q : Queue) : Db := { s with queue := Queues.put s.queue q p }

def remque (s : Db) (p : ℕ) : Db := { s with queue := Queues.take s.queue p }

def find (s : Db) (pid : ℕ) : Option ℕ :=
  if pid % 2 ^ 16 < s.maxpix then (s.pcbvec (pid % 2 ^ 16)).filter fun p => (s.pcb p).pid = pid else none

/-- Neither deleted nor without a process. -/
def Live (s : Db) (p : ℕ) : Prop := (s.pcb p).state ≠ .gone ∧ (s.pcb p).state ≠ .deleted

/-- The swapper, and the processes in the slots. -/
def Known (s : Db) (p : ℕ) : Prop := p = s.swppcb ∨ ∃ i, s.pcbvec i = some p

/-! ## Computable processes -/

def inscom (s : Db) (p : ℕ) : Db :=
  let n := (s.pcb p).pri
  { (s.set p fun P => { P with state := .com, waitime := s.abstim }).insque p (.com n) with
    comqs := s.comqs ||| 1#32 <<< n }

/-- COM queue `n` has lost a process. -/
def clearCom (s : Db) (n : ℕ) : Db :=
  { s with comqs := if s.queue (.com n) = [] then s.comqs &&& ~~~(1#32 <<< n) else s.comqs }

def remcom (s : Db) (p : ℕ) : Db := (s.remque p).clearCom (s.pcb p).pri

def makecom (s : Db) (p : ℕ) : Db :=
  let s := s.inscom p
  if (s.pcb p).pri > (s.pcb s.curpcb).pri then { s with resched := true } else s

def suspend (s : Db) (p : ℕ) : Db := (s.set p fun P => { P with state := .susp }).insque p .susp

def wakepcb (s : Db) (p : ℕ) : Db :=
  let s := s.remque p
  if (s.pcb p).suspen then (s.set p fun P => { P with suspen := false }).suspend p else s.makecom p

def wake (s : Db) (p : ℕ) : Db :=
  let s := s.set p fun P => { P with wakepen := true }
  if (s.pcb p).state = .hib then s.wakepcb p else s

/-! ## The CPU -/

/-- The highest bit below `n`. -/
def top (m : BitVec 32) : ℕ → Option ℕ
  | 0 => none
  | n + 1 => if m.getLsbD n then some n else top m n

def sched (s : Db) : Db :=
  match top s.comqs 32 with
  | none => { s with idle := true }
  | some n =>
    match s.queue (.com n) with
    | [] => s
    | p :: ps =>
      ({ s.set p (fun P => { P with state := .cur }) with
        queue := Function.update s.queue (.com n) ps
        curpcb := p
        idle := false
        login := false }).clearCom n

/-- The end of SCH$WAIT: the current process, its state set, on a wait queue. -/
def block (s : Db) (q : Queue) : Db := (s.insque s.curpcb q).sched

/-- SCH$RESCHED, the interrupt. -/
def reschedule (s : Db) : Db := (({ s with resched := false } : Db).inscom s.curpcb).sched

/-! ## Priorities -/

def PINC : List ℕ := [0, 2, 3, 4, 6]

def boost (s : Db) (p cls : ℕ) : Db :=
  let P := s.pcb p
  let pri := min (P.prib + PINC.getD cls 0) 15
  if P.state = .com ∨ P.state = .cur ∨ P.prib ≥ 16 ∨ pri ≤ P.pri then s
  else s.set p fun P => { P with pri := pri }

/-- The priority SCH$PIXSCAN gives; none while a real-time process runs. -/
def scanPri (s : Db) : Option ℕ :=
  let P := s.pcb s.curpcb
  let high := (top s.comqs 16).getD 0
  if P.state ≠ .cur then some high else if P.pri ≥ 16 then none else some (max P.pri high)

def scanSlot (pri : ℕ) (s : Db) (i : ℕ) : Db :=
  match s.pcbvec i with
  | none => s
  | some p =>
    let P := s.pcb p
    if P.state = .com ∧ P.pri < pri ∧ P.waitime < s.abstim then
      ((s.remcom p).set p fun P => { P with pri := pri }).inscom p
    else s

def pixscan (s : Db) : Db :=
  match s.scanPri with
  | none => s
  | some pri => (List.range' 1 (max 1 (s.maxpix - 1))).foldl (scanSlot pri) s

def qend (s : Db) (p : ℕ) : Db :=
  let s := s.set p fun P => { P with quant := -s.quantum }
  let P := s.pcb p
  if P.pri ≥ 16 then s
  else
    let pri := if P.pri > P.prib then P.pri - 1 else P.pri
    let s := s.set p fun P => { P with pri := pri }
    if s.comqs.toNat ≥ 2 ^ pri then { s with resched := true } else s

/-- EXE$HWCLKINT's part: a tick is charged to the current process. -/
def tick (s : Db) (second : Bool) : Db :=
  let s := { s with abstim := if second then s.abstim + 1 else s.abstim }
  if (s.pcb s.curpcb).state = .cur then s.set s.curpcb fun P => { P with quant := P.quant + 1 } else s

/-! ## Services -/

/-- $CREPRC's PCB takes a slot. -/
def enter (s : Db) (p i : ℕ) (P : Pcb) : Db :=
  { s with pcb := Function.update s.pcb p P, pcbvec := Function.update s.pcbvec i (some p), seq := s.seq + 1 }

def suspnd (s : Db) (p : ℕ) : Db :=
  if p = s.swppcb then s
  else if p = s.curpcb then (s.suspend p).sched
  else if (s.pcb p).state = .com then (s.remcom p).suspend p
  else if (s.pcb p).state = .susp then s
  else s.set p fun P => { P with suspen := true }

def resume (s : Db) (p : ℕ) : Db :=
  if (s.pcb p).state = .susp then s.wakepcb p else s.set p fun P => { P with suspen := false }

/-- EXE$LOGIN, which requests no reschedule. -/
def setLogin (s : Db) (pri : ℕ) : Db :=
  { s.set s.curpcb fun P => { P with pri := pri % 32, prib := pri % 32 } with login := true }

def setpri (s : Db) (p pri : ℕ) : Db :=
  let pri := pri % 32
  let s := s.set p fun P => { P with prib := pri }
  if (s.pcb p).state = .com then ((s.remcom p).set p fun P => { P with pri := pri }).makecom p
  else
    let s := s.set p fun P => { P with pri := pri }
    if p = s.curpcb then { s with resched := true } else s

end Db

end Sched
