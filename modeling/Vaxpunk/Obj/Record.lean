/-
  Object modules (`vms-obj/src/obj.rs`): records, global symbol directory
  subrecords and TIR commands, as the parser gives them.

  Text is ASCII, a byte for each character.  Here a file is the records that
  `parse` reads from it; how they are laid out in bytes is in `Obj.File`.
-/
import Mathlib

namespace Obj

abbrev Name := List (BitVec 8)

instance : LawfulBEq Name := inferInstance

/-! ## Flags -/

/-- Psect flags (`EGPS$V_*`) that the linker looks at. -/
def psc.PIC : BitVec 16 := 1 <<< 0
def psc.OVR : BitVec 16 := 1 <<< 2
def psc.REL : BitVec 16 := 1 <<< 3
def psc.SHR : BitVec 16 := 1 <<< 5
def psc.EXE : BitVec 16 := 1 <<< 6
def psc.RD : BitVec 16 := 1 <<< 7
def psc.WRT : BitVec 16 := 1 <<< 8
def psc.NOMOD : BitVec 16 := 1 <<< 10

/-- Symbol flags (`EGSY$V_*`). -/
def sym.WEAK : BitVec 16 := 1 <<< 0
def sym.DEF : BitVec 16 := 1 <<< 1
def sym.UNI : BitVec 16 := 1 <<< 2
def sym.REL : BitVec 16 := 1 <<< 3
def sym.NORM : BitVec 16 := 1 <<< 6

def has (flags mask : BitVec 16) : Bool := flags &&& mask != 0

/-! ## Subrecords -/

/-- Program section definition (`EGPS$`). -/
structure Psc where
  /-- Alignment, as a power of two. -/
  align : BitVec 8
  temp : BitVec 8 := 0
  flags : BitVec 16
  /-- Size of this module's contribution. -/
  alloc : BitVec 32
  name : Name
  deriving DecidableEq, Repr

/-- Symbol definition (`EGSY$` then `ESDF$`). -/
structure SymDef where
  datyp : BitVec 8 := 0
  temp : BitVec 8 := 0
  flags : BitVec 16
  /-- Offset in the psect, or the value of an absolute symbol.  For a procedure
      (`NORM`), the offset of its procedure descriptor. -/
  value : BitVec 64
  /-- For a procedure, the offset of its entry point in `caPsindx`. -/
  codeAddress : BitVec 64 := 0
  caPsindx : BitVec 32 := 0
  psindx : BitVec 32
  name : Name
  deriving DecidableEq, Repr

/-- Symbol reference (`EGSY$` then `ESRF$`). -/
structure SymRef where
  datyp : BitVec 8 := 0
  temp : BitVec 8 := 0
  flags : BitVec 16
  name : Name
  deriving DecidableEq, Repr

inductive Gsd where
  | psc (p : Psc)
  | sdef (d : SymDef)
  | sref (r : SymRef)
  /-- Any other subrecord, kept as bytes. -/
  | other (gsdtyp : BitVec 16) (data : List (BitVec 8))
  deriving DecidableEq, Repr

/-- A text, information and relocation command (`ETIR$C_*`). -/
inductive Tir where
  | staGbl (name : Name)
  | staLw (value : BitVec 32)
  | staQw (value : BitVec 64)
  | staPq (psect : BitVec 32) (offset : BitVec 64)
  | stoB
  | stoW
  | stoLw
  | stoQw
  | stoImmr (data : List (BitVec 8))
  | stoGbl (name : Name)
  | stoCa (name : Name)
  | stoOff
  | stoImm (data : List (BitVec 8))
  | stoA64Jump26 (insn : BitVec 32)
  | stoA64Branch19 (insn : BitVec 32)
  | stoA64Branch14 (insn : BitVec 32)
  | stoA64Adr (insn : BitVec 32)
  | stoA64Adrp (insn : BitVec 32)
  | stoA64AddLo12 (insn : BitVec 32)
  | stoA64Ldst8Lo12 (insn : BitVec 32)
  | stoA64Ldst16Lo12 (insn : BitVec 32)
  | stoA64Ldst32Lo12 (insn : BitVec 32)
  | stoA64Ldst64Lo12 (insn : BitVec 32)
  | stoA64Ldst128Lo12 (insn : BitVec 32)
  | stoA64MovwG0 (insn : BitVec 32)
  | stoA64MovwG0Nc (insn : BitVec 32)
  | stoA64MovwG1 (insn : BitVec 32)
  | stoA64MovwG1Nc (insn : BitVec 32)
  | stoA64MovwG2 (insn : BitVec 32)
  | stoA64MovwG2Nc (insn : BitVec 32)
  | stoA64MovwG3 (insn : BitVec 32)
  | oprNop
  | oprAdd
  | oprSub
  | oprMul
  | oprDiv
  | oprAnd
  | oprIor
  | oprEor
  | oprNeg
  | oprCom
  | oprAsh
  | oprRot
  | oprSel
  | ctlSetrb
  | ctlAugrb (offset : BitVec 32)
  | ctlDfloc
  | ctlStloc
  | ctlStkdl
  /-- A command the parser doesn't know, with its argument bytes. -/
  | other (code : BitVec 16) (args : List (BitVec 8))
  deriving DecidableEq, Repr

/-! ## Records -/

abbrev Bytes (n : ℕ) := { b : List (BitVec 8) // b.length = n }

def Bytes.zero (n : ℕ) : Bytes n := ⟨List.replicate n 0, List.length_replicate⟩

def ARCH_ARM64 : BitVec 32 := 183

/-- Structure level (`EOBJ$C_STRLVL`). -/
def STRLVL : BitVec 8 := 2

structure Mhd where
  strlvl : BitVec 8 := STRLVL
  temp : BitVec 8 := 0
  /-- Architecture code, `ARCH_ARM64`.  Unused on Alpha. -/
  arch1 : BitVec 32 := ARCH_ARM64
  arch2 : BitVec 32 := 0
  /-- Size of the longest record in the module. -/
  recsiz : BitVec 32 := 0
  name : Name
  version : Name
  /-- Creation time, `dd-mmm-yyyy hh:mm`. -/
  date : Bytes 17 := Bytes.zero 17
  deriving DecidableEq, Repr

/-- End of module, without the transfer address. -/
structure Eom where
  totalLps : BitVec 32 := 0
  /-- 0 success, 1 warning, 2 error, 3 abort. -/
  comcod : BitVec 16
  deriving DecidableEq, Repr

/-- Transfer address at the end of a module. -/
structure Transfer where
  /-- Bit 0: weak transfer address. -/
  tfrflg : BitVec 8 := 0
  temp : BitVec 8 := 0
  psindx : BitVec 32
  tfradr : BitVec 64
  deriving DecidableEq, Repr

inductive Record where
  | mhd (h : Mhd)
  | text (subtype : BitVec 16) (text : List (BitVec 8))
  | gsd (subrecords : List Gsd)
  | tir (commands : List Tir)
  | dbg (commands : List Tir)
  | tbt (commands : List Tir)
  | eom (e : Eom) (transfer : Option Transfer)
  deriving DecidableEq, Repr

/-- What `parse` asks of a directory's subrecords: a symbol whose value is an
    address must be in a relocatable psect defined before it.  `rel` says whether
    each psect of the module so far is relocatable; the result is the same after
    these. -/
def parseGsd (rel : List Bool) : List Gsd → Option (List Bool)
  | [] => some rel
  | .psc p :: subs => parseGsd (rel ++ [has p.flags psc.REL]) subs
  | .sdef d :: subs =>
    if has d.flags sym.REL && rel[d.psindx.toNat]? != some true then none
    else parseGsd rel subs
  | _ :: subs => parseGsd rel subs

/-- The loop of `parse`: whether it gets to the end of the file. -/
def parses (rel : List Bool) : List Record → Bool
  | [] => true
  | .mhd _ :: rs => parses [] rs
  | .gsd subs :: rs => match parseGsd rel subs with
    | some rel => parses rel rs
    | none => false
  | _ :: rs => parses rel rs

/-- Parses an object file, given as its records. -/
def parse (file : List Record) : Option (List Record) := if parses [] file then some file else none

end Obj
