/-
  Event flags (`event.mar`): 128 a process, in clusters of 32, of which two are its
  own and two may be shared, in common event blocks.
-/
import Mathlib

namespace Sched

/-- Of a PCB, its event flags and those it waits for. -/
structure Flags where
  efcs : BitVec 32
  efcu : BitVec 32
  /-- PCB$L_EFC2P and PCB$L_EFC3P. -/
  efc2p : Option ℕ
  efc3p : Option ℕ
  efwm : BitVec 32
  wefc : ℕ
  wall : Bool
  deriving DecidableEq, Repr

structure Ceb where
  efc : BitVec 32
  refc : ℕ
  name : List UInt8
  deriving DecidableEq, Repr

namespace Flags

/-- A new process's. -/
def new : Flags := ⟨0, 0, none, none, 0, 0, false⟩

def own (f : Flags) (cluster : ℕ) : BitVec 32 := if cluster = 0 then f.efcs else f.efcu

def setOwn (f : Flags) (cluster : ℕ) (x : BitVec 32) : Flags :=
  if cluster = 0 then { f with efcs := x } else { f with efcu := x }

/-- A common cluster's block. -/
def common (f : Flags) (cluster : ℕ) : Option ℕ := if cluster = 2 then f.efc2p else f.efc3p

def setCommon (f : Flags) (cluster : ℕ) (c : Option ℕ) : Flags :=
  if cluster = 2 then { f with efc2p := c } else { f with efc3p := c }

/-- Whether flags end a wait for all, or any, of `mask`. -/
def ends (x mask : BitVec 32) (all : Bool) : Bool := if all then mask &&& ~~~x == 0 else mask &&& x != 0

/-- CHKWAKE's test. -/
def met (f : Flags) (x : BitVec 32) : Bool := ends x f.efwm f.wall

end Flags

/-- Where a cluster's flags are: in the PCB, or in a common event block. -/
inductive Cluster where
  | own (cluster : ℕ)
  | common (cluster ceb : ℕ)
  deriving DecidableEq, Repr

/-- SS$_ILLEFC and SS$_UNASEFC, of SCH$GETEFC. -/
inductive Illegal where
  | illefc
  | unasefc
  deriving DecidableEq, Repr

/-- SCH$GETEFC: the cluster; the flag's bit in it is `efn % 32`. -/
def Flags.getefc (f : Flags) (efn : ℕ) : Except Illegal Cluster :=
  if efn > 127 then .error .illefc
  else if efn / 32 < 2 then .ok (.own (efn / 32))
  else match f.common (efn / 32) with
    | none => .error .unasefc
    | some c => .ok (.common (efn / 32) c)

end Sched
