/-
  The executive's processes: waits and their ends (`event.mar`, `astdel.mar`,
  `process.mar`), the interval timer (`timeschdl.mar`), and the runs of calls and
  interrupts.

  Left out are what a call's caller may read and write, and pool, but that it may
  have no block for a common event block.
-/
import Vaxpunk.Sched.Ast
import Vaxpunk.Sched.Event
import Vaxpunk.Sched.Process
import Vaxpunk.Sched.Timer

namespace Sched

structure Sys where
  db : Db
  /-- By PCB. -/
  ast : ℕ → Ast
  flags : ℕ → Flags
  ceb : ℕ → Ceb
  /-- SCH$GQ_CEBHD. -/
  cebhd : List ℕ
  tim : Tim

namespace Sys

variable (s : Sys)

abbrev cur : ℕ := s.db.curpcb

def on (f : Db → Db) : Sys := { s with db := f s.db }

def onTim (f : Tim → Tim) : Sys := { s with tim := f s.tim }

def setAst (p : ℕ) (f : Ast → Ast) : Sys := { s with ast := Function.update s.ast p (f (s.ast p)) }

def setFlags (p : ℕ) (f : Flags → Flags) : Sys := { s with flags := Function.update s.flags p (f (s.flags p)) }

def setState (st : State) : Sys := s.on (·.set s.cur fun P => { P with state := st })

/-! ## Waits -/

/-- SCH$WAIT, the current process's state set: an AST that waits to be delivered in
    `mode` ends the wait before it starts. -/
def wait (mode : ℕ) (q : Queue) : Sys :=
  if (s.ast s.cur).waiting mode then s.setState .cur else s.on (·.block q)

/-- SCH$QAST; the ACB of no process is freed. -/
def qast (b : Acb) : Sys :=
  match s.db.find b.pid with
  | none => s
  | some p =>
    (s.setAst p (·.enqueue b)).on fun db => if (db.pcb p).state.waits then db.wakepcb p else db

/-- $HIBER, up to its wait. -/
def hiber (mode : ℕ) : Sys :=
  if (s.db.pcb s.cur).wakepen then s.on (·.set s.cur fun P => { P with wakepen := false })
  else (s.setState .hib).wait mode .hib

/-! ## Event flags -/

/-- The flags of a cluster of `p`. -/
def flagsAt (p : ℕ) : Cluster → BitVec 32
  | .own n => (s.flags p).own n
  | .common _ c => (s.ceb c).efc

def setFlagsAt (p : ℕ) (x : BitVec 32) : Cluster → Sys
  | .own n => s.setFlags p (·.setOwn n x)
  | .common _ c => { s with ceb := Function.update s.ceb c { s.ceb c with efc := x } }

def chkwake (x : BitVec 32) (db : Db) (p : ℕ) : Db := if (s.flags p).met x then db.wakepcb p else db

def postef (p : ℕ) : Cluster → Sys
  | .own n => s.on fun db =>
    if (db.pcb p).state = .lef ∧ (s.flags p).wefc = n then s.chkwake ((s.flags p).own n) db p else db
  | .common _ c => s.on fun db => (db.queue (.cef c)).foldl (s.chkwake (s.ceb c).efc) db

/-- Sets a flag of `p` and wakes who waits for it. -/
def post (p efn : ℕ) (k : Cluster) : Sys :=
  (s.setFlagsAt p (s.flagsAt p k ||| 1#32 <<< (efn % 32)) k).postef p k

def setef (efn : ℕ) : Sys :=
  match (s.flags s.cur).getefc efn with
  | .error _ => s
  | .ok k => s.post s.cur efn k

def clref (efn : ℕ) : Sys :=
  match (s.flags s.cur).getefc efn with
  | .error _ => s
  | .ok k => s.setFlagsAt s.cur (s.flagsAt s.cur k &&& ~~~(1#32 <<< (efn % 32))) k

/-- $WFLAND, $WFLOR and, of one flag, $WAITFR, up to SCH$EFWAIT's wait. -/
def efwait (efn : ℕ) (mask : BitVec 32) (all : Bool) (mode : ℕ) : Sys :=
  match (s.flags s.cur).getefc efn with
  | .error _ => s
  | .ok k =>
    if Flags.ends (s.flagsAt s.cur k) mask all then s
    else
      let s := s.setFlags s.cur fun f => { f with efwm := mask, wefc := efn / 32, wall := all }
      match k with
      | .own _ => (s.setState .lef).wait mode .lef
      | .common _ c => (s.setState .cef).wait mode (.cef c)

def dacefc (p efn : ℕ) : Sys :=
  match (s.flags p).common (efn / 32) with
  | none => s
  | some c =>
    let C : Ceb := { s.ceb c with refc := (s.ceb c).refc - 1 }
    let t := s.setFlags p (·.setCommon (efn / 32) none)
    { t with
      ceb := Function.update s.ceb c C
      cebhd := if C.refc = 0 ∧ s.db.queue (.cef c) = [] then s.cebhd.erase c else s.cebhd }

def dacefcAll (p : ℕ) : Sys := (s.dacefc p 64).dacefc p 96

def newCeb (c : ℕ) (name : List UInt8) : Sys :=
  { s with
    ceb := Function.update s.ceb c ⟨0, 0, name⟩
    cebhd := s.cebhd ++ [c]
    db := { s.db with queue := Function.update s.db.queue (.cef c) [] } }

/-- The current process has `c` for its cluster. -/
def associate (cluster c : ℕ) : Sys :=
  { s.setFlags s.cur (·.setCommon cluster (some c)) with
    ceb := Function.update s.ceb c { s.ceb c with refc := (s.ceb c).refc + 1 } }

/-- $ASCEFC; `block` is what pool gives for a new common event block. -/
def ascefc (efn : ℕ) (name : List UInt8) (block : Option ℕ) : Sys :=
  if efn < 64 ∨ efn > 127 ∨ name = [] ∨ name.length > 15 then s
  else
    let s := s.dacefc s.cur efn
    match s.cebhd.find? (fun c => (s.ceb c).name = name), block with
    | some c, _ => s.associate (efn / 32) c
    | none, none => s
    | none, some c => (s.newCeb c name).associate (efn / 32) c

/-! ## Processes -/

/-- The end of $CREPRC, for a PCB at `p`: the first free slot from 2 up. -/
def creprc (p pri : ℕ) : Sys :=
  match (List.range' 2 (max 1 (s.db.maxpix - 2))).find? fun i => (s.db.pcbvec i).isNone with
  | none => s
  | some i =>
    let pid := (s.db.seq + 1) % 2 ^ 16 * 2 ^ 16 + i
    let P : Pcb := ⟨.deleted, pid, pri % 32, pri % 32, -s.db.quantum, 0, false, false⟩
    ((s.on fun db => (db.enter p i P).makecom p).setAst p fun _ => .new).setFlags p fun _ => .new

/-- EXE$IMGRUNDOWN; `image` has the ACBs that aren't of the channels and locks that go. -/
def imgrundown (image : Acb → Bool) : Sys :=
  let s := s.setAst s.cur (·.cancel image)
  let s := s.onTim (·.rmvtimq (s.db.pcb s.cur).pid [.tmsngl, .wksngl, .wkrept, .sssngl] 0)
  (s.setAst s.cur (·.flush 3)).dacefcAll s.cur

/-- A process leaves its slot, if that is still its own. -/
def leave (db : Db) (p : ℕ) : Db :=
  let i := (db.pcb p).pid % 2 ^ 16
  if db.pcbvec i = some p then { db with pcbvec := Function.update db.pcbvec i none } else db

/-- EXE$RUNDOWN, but for the subprocesses, each another call. -/
def rundown (image keep : Acb → Bool) : Sys :=
  ((s.imgrundown image).setAst s.cur fun a => (a.cancel keep).flush 0).on (leave · s.cur)

def delself (image keep : Acb → Bool) : Sys :=
  let s := s.rundown image keep
  (s.setState .deleted).on fun db => ((db.insque s.cur .del).wake db.swppcb).sched

/-- DELOTHER, with an ACB for DELKAST. -/
def delother (p addr : ℕ) : Sys :=
  let pid := (s.db.pcb p).pid
  let db := s.db.set p fun P => { P with suspen := false }
  let db := if (db.pcb p).state = .susp then db.wakepcb p else db
  (qast { s with db := db } ⟨addr, 0, pid, true⟩).on fun db =>
    { db with pcbvec := Function.update db.pcbvec (pid % 2 ^ 16) none }

/-- The swapper reaps the first deleted process. -/
def reap : Sys :=
  match s.db.queue .del with
  | [] => s
  | p :: _ => s.on fun db => (db.remque p).set p fun P => { P with state := .gone }

/-! ## Timers -/

/-- $SETIMR, for a TQE at `addr`. -/
def setimr (addr efn : ℕ) (time : BitVec 64) (ast : Bool) (reqidt mode : ℕ) : Sys :=
  match (s.flags s.cur).getefc efn with
  | .error _ => s
  | .ok _ =>
    let e : Tqe := ⟨addr, .tmsngl, s.tim.abstim time, 0, (s.db.pcb s.cur).pid, ast, reqidt, mode, efn, 0⟩
    (s.clref efn).onTim (·.instimq e)

/-- $SCHDWK, for the process `p`. -/
def schdwk (addr p : ℕ) (time : BitVec 64) (reptim : Option (BitVec 64)) : Sys :=
  if reptim.any fun d => ¬Tim.Repeats d then s
  else
    let rqtype : Rqtype := if reptim.isSome then .wkrept else .wksngl
    let e : Tqe := ⟨addr, rqtype, s.tim.abstim time, reptim.getD 0, (s.db.pcb p).pid, false, 0, 0, 0, 0⟩
    s.onTim (·.instimq e)

def canwak (p : ℕ) : Sys :=
  { s with
    db := s.db.set p fun P => { P with wakepen := false }
    tim := s.tim.rmvtimq (s.db.pcb p).pid [.wksngl, .wkrept] 0 }

/-- TQEXPIRE; `driver` is what the routine of a driver's entry puts on the queue. -/
def tqexpire (driver : Tqe → List Tqe) (e : Tqe) : Sys :=
  if e.rqtype = .sssngl then s.onTim fun t => (driver e).foldl Tim.instimq t
  else match s.db.find e.pid with
    | none => s
    | some p =>
      if e.rqtype = .tmsngl then
        let s := match (s.flags p).getefc e.efn with
          | .error _ => s
          | .ok k => if (s.flagsAt p k).getLsbD (e.efn % 32) then s else s.post p e.efn k
        if e.ast then s.qast ⟨e.addr, e.rmod, e.pid, false⟩ else s
      else
        let s := s.on (·.wake p)
        if e.rqtype = .wkrept then s.onTim (·.instimq { e with time := subq e.time e.delta }) else s

/-- The loop of EXE$SWTIMINT at the time `now`: the entries it serves, and what they
    leave, if `fuel` turns are enough. -/
def serve (driver : Tqe → List Tqe) (now : BitVec 64) : ℕ → Sys → Option (List Tqe × Sys)
  | 0, _ => none
  | fuel + 1, s =>
    match s.tim.queue with
    | [] => some ([], s)
    | e :: q =>
      if later e.time now then some ([], s)
      else (serve driver now fuel ((s.onTim fun t => { t with queue := q }).tqexpire driver e)).map
        fun r => (e :: r.1, r.2)

/-- EXE$SWTIMINT, up to its loop. -/
def quantum : Sys :=
  let P := s.db.pcb s.cur
  let db := if P.state = .cur ∧ ¬P.quant.msb then s.db.qend s.cur else s.db
  let db := if db.abstim = s.tim.scanned then db else db.pixscan
  { s with db := db, tim := { s.tim with scanned := s.db.abstim, softint := false } }

/-- EXE$SWTIMINT: the entries it serves, and what it leaves. -/
def swtimint (driver : Tqe → List Tqe) (fuel : ℕ) : Option (List Tqe × Sys) :=
  (serve driver s.tim.systime fuel s.quantum).map fun r => (r.1, r.2.onTim Tim.setfirst)

def hwclkint : Sys :=
  let db := s.db.tick (s.tim.secticks ≤ 1)
  let P := db.pcb db.curpcb
  { s with db := db, tim := s.tim.tick (P.state = .cur ∧ ¬P.quant.msb) }

end Sys

/-! ## Runs -/

/-- What the current process does. -/
inductive Service (s : Sys) : Sys → Prop
  | hiber (mode) : Service s (s.hiber mode)
  | mwait (resource mode) : Service s ((s.setState .mwait).wait mode (.mwait resource))
  /-- A resource wait that delivers no ASTs. -/
  | stall (resource) : Service s ((s.setState .mwait).on (·.block (.mwait resource)))
  | suspnd (p) : Service s (s.on (·.suspnd p))
  | resume (p) : Service s (s.on (·.resume p))
  | setpri (p pri) : Service s (s.on (·.setpri p pri))
  | creprc (p pri) : (s.db.pcb p).state = .gone → Service s (s.creprc p pri)
  | login (pri) : Service s (s.on (·.setLogin pri))
  | imgrundown (image) : Service s (s.imgrundown image)
  /-- $DELPRC refuses the swapper, which never exits. -/
  | delself (image keep) : s.cur ≠ s.db.swppcb → Service s (s.delself image keep)
  | reap : Service s s.reap
  | astdel (mode) : Service s (s.setAst s.cur (·.deliver mode))
  | astexit : Service s (s.setAst s.cur Ast.exit)
  /-- $DASSGN. -/
  | cancel (keep) : Service s (s.setAst s.cur (·.cancel keep))
  | setast (mode on) : Service s (s.setAst s.cur (·.setast mode on))
  | setef (efn) : Service s (s.setef efn)
  | clref (efn) : Service s (s.clref efn)
  | efwait (efn mask all mode) : Service s (s.efwait efn mask all mode)
  /-- Pool gives no block that is in use. -/
  | ascefc (efn name block) : (∀ c ∈ block, c ∉ (s.dacefc s.cur efn).cebhd) → Service s (s.ascefc efn name block)
  | dacefc (efn : ℕ) : Service s (if efn < 64 ∨ efn > 127 then s else s.dacefc s.cur efn)
  | setimr (addr efn time ast reqidt mode) : Service s (s.setimr addr efn time ast reqidt mode)
  | cantim (reqidt) : Service s (s.onTim (·.rmvtimq (s.db.pcb s.cur).pid [.tmsngl] reqidt))
  | schdwk (addr p time reptim) : Service s (s.schdwk addr p time reptim)
  | canwak (p) : Service s (s.canwak p)

/-- A driver whose entry is served puts its own on the timer queue, none due before that
    one. -/
def Punctual (now : BitVec 64) (driver : Tqe → List Tqe) : Prop :=
  ∀ e, e.time ≤ now → ∀ e' ∈ driver e, e'.rqtype = .sssngl ∧ e.time ≤ e'.time

/-- A service, an interrupt or what a driver does in one. -/
inductive Step (s : Sys) : Sys → Prop
  | service (s') : s.db.idle = false → Service s s' → Step s s'
  | hwclkint : Step s s.hwclkint
  | swtimint (driver fuel r) : Punctual s.tim.systime driver → s.swtimint driver fuel = some r → Step s r.2
  | resched : s.db.resched → s.db.idle = false → Step s (s.on Db.reschedule)
  /-- SCH$SCHED's loop looks at the COM queues again. -/
  | dispatch : s.db.idle → Step s (s.on Db.sched)
  /-- The resource a process waits for is there. -/
  | available (p) : (s.db.pcb p).state = .mwait → Step s (s.on (·.wakepcb p))
  | wake (p) : Step s (s.on (·.wake p))
  | boost (p cls) : Step s (s.on (·.boost p cls))
  | delother (p addr) : Step s (s.delother p addr)
  | qast (b) : Step s (s.qast b)
  | instimq (e : Tqe) : e.rqtype = .sssngl → Step s (s.onTim (·.instimq e))
  | rmvtqe (e) : Step s (s.onTim (·.rmvtqe e))

def Run : Sys → Sys → Prop := Relation.ReflTransGen Step

/-- What SCH$INIT and EXE$INITTIM leave: the swapper is the current process. -/
def Sys.init (swapper : ℕ) (maxprcct quantum : BitVec 16) (systime : BitVec 64) : Sys where
  db :=
    { pcb := fun p =>
        if p = swapper then ⟨.cur, 0x00010001, 16, 16, -quantum, 0, false, false⟩
        else ⟨.gone, 0, 0, 0, 0, 0, false, false⟩
      queue := fun _ => []
      comqs := 0
      curpcb := swapper
      idle := false
      resched := false
      login := false
      pcbvec := fun i => if i = 1 then some swapper else none
      maxpix := maxprcct.toNat + 1
      seq := 1
      swppcb := swapper
      quantum := quantum
      abstim := 0 }
  ast _ := ⟨[], ∅, ∅, [], ∅, ∅⟩
  flags _ := .new
  ceb _ := ⟨0, 0, []⟩
  cebhd := []
  tim := ⟨[], BitVec.allOnes 64, systime, TICKS_SEC, 0, false, 0⟩

/-- A state the executive can be in. -/
structure Reached where
  swapper : ℕ
  maxprcct : BitVec 16
  quantum : BitVec 16
  boottime : BitVec 64
  sys : Sys
  run : Run (.init swapper maxprcct quantum boottime) sys

end Sched
