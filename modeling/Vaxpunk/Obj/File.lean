/-
  Object files as bytes (`vms-obj/src/record.rs`, `vms-obj/src/obj.rs`): how each
  record, subrecord and command is written and read back.

  * A record is declared in the source as a list of fields, from which its reader
    and its writer both come: `X.read` and `X.bytes` here.
  * Writers are total; what the source asserts of the names and sizes is in
    `Record.asserts`, and `File.write` is `none` where the source panics.
-/
import Vaxpunk.Lib.Codec
import Vaxpunk.Obj.Record

namespace Obj

open Codec

/-- A format error found while parsing. -/
inductive Error where
  /-- The data ends before the structure does. -/
  | truncated
  /-- A field holds a value the format doesn't allow. -/
  | invalid (what : String)
  deriving DecidableEq, Repr

/-! ## Fields -/

def u8 : Reader Error (BitVec 8) := int .truncated 8
def u16 : Reader Error (BitVec 16) := int .truncated 16
def u32 : Reader Error (BitVec 32) := int .truncated 32
def u64 : Reader Error (BitVec 64) := int .truncated 64

def array (n : ℕ) : Reader Error (Bytes n) := fun s =>
  if h : s.length < n then .error .truncated
  else .ok (⟨s.take n, by rw [List.length_take]; omega⟩, s.drop n)

def isAscii (s : Name) : Bool := s.all (·.toNat < 128)

/-- What the writer of a counted string asserts of it. -/
def nameOk (s : Name) : Bool := s.length ≤ 255 && isAscii s

/-- A counted string: a length byte, then ASCII. -/
def readName : Reader Error Name := do
  let n ← u8
  let s ← take .truncated n.toNat
  if isAscii s then pure s else throw (.invalid "name")

def putName (s : Name) : List Byte := put (BitVec.ofNat 8 s.length) ++ s

/-- Counted data: a longword length, then the bytes. -/
def readData : Reader Error (List Byte) := do
  let n ← u32
  take .truncated n.toNat

def putData (b : List Byte) : List Byte := put (BitVec.ofNat 32 b.length) ++ b

/-! ## Records of fields -/

def Mhd.read : Reader Error Mhd := do
  let strlvl ← u8
  let temp ← u8
  let arch1 ← u32
  let arch2 ← u32
  let recsiz ← u32
  let name ← readName
  let version ← readName
  let date ← array 17
  pure { strlvl, temp, arch1, arch2, recsiz, name, version, date }

def Mhd.bytes (h : Mhd) : List Byte :=
  put h.strlvl ++ (put h.temp ++ (put h.arch1 ++ (put h.arch2 ++ (put h.recsiz ++
    (putName h.name ++ (putName h.version ++ h.date.val))))))

def Psc.read : Reader Error Psc := do
  let align ← u8
  let temp ← u8
  let flags ← u16
  let alloc ← u32
  let name ← readName
  pure { align, temp, flags, alloc, name }

def Psc.bytes (p : Psc) : List Byte :=
  put p.align ++ (put p.temp ++ (put p.flags ++ (put p.alloc ++ putName p.name)))

def SymDef.read : Reader Error SymDef := do
  let datyp ← u8
  let temp ← u8
  let flags ← u16
  let value ← u64
  let codeAddress ← u64
  let caPsindx ← u32
  let psindx ← u32
  let name ← readName
  pure { datyp, temp, flags, value, codeAddress, caPsindx, psindx, name }

def SymDef.bytes (d : SymDef) : List Byte :=
  put d.datyp ++ (put d.temp ++ (put d.flags ++ (put d.value ++ (put d.codeAddress ++
    (put d.caPsindx ++ (put d.psindx ++ putName d.name))))))

def SymRef.read : Reader Error SymRef := do
  let datyp ← u8
  let temp ← u8
  let flags ← u16
  let name ← readName
  pure { datyp, temp, flags, name }

def SymRef.bytes (r : SymRef) : List Byte :=
  put r.datyp ++ (put r.temp ++ (put r.flags ++ putName r.name))

def Eom.read : Reader Error Eom := do
  let totalLps ← u32
  let comcod ← u16
  pure { totalLps, comcod }

def Eom.bytes (e : Eom) : List Byte := put e.totalLps ++ put e.comcod

def Transfer.read : Reader Error Transfer := do
  let tfrflg ← u8
  let temp ← u8
  let psindx ← u32
  let tfradr ← u64
  pure { tfrflg, temp, psindx, tfradr }

def Transfer.bytes (t : Transfer) : List Byte :=
  put t.tfrflg ++ (put t.temp ++ (put t.psindx ++ put t.tfradr))

/-- Maximum record size (`EOBJ$C_MAXRECSIZ`). -/
def MAX_RECORD : ℕ := 8192

/-- A record, subrecord or command: its type, its size and what is in it. -/
def framed (kind : BitVec 16) (body : List Byte) : List Byte :=
  put kind ++ (put (BitVec.ofNat 16 (4 + body.length)) ++ body)

/-- The type and the body of a record, subrecord or command; `what` is the error
    for a size that does not count the type and the size. -/
def readFramed (what : String) : Reader Error (BitVec 16 × List Byte) := do
  let kind ← u16
  let size ← u16
  if size.toNat < 4 then throw (.invalid what)
  else do
    let body ← take .truncated (size.toNat - 4)
    pure (kind, body)

/-! ## Commands -/

def Tir.code : Tir → BitVec 16
  | staGbl _ => 0
  | staLw _ => 1
  | staQw _ => 2
  | staPq _ _ => 3
  | stoB => 50
  | stoW => 51
  | stoLw => 52
  | stoQw => 53
  | stoImmr _ => 54
  | stoGbl _ => 55
  | stoCa _ => 56
  | stoOff => 59
  | stoImm _ => 61
  | stoA64Jump26 _ => 80
  | stoA64Branch19 _ => 81
  | stoA64Branch14 _ => 82
  | stoA64Adr _ => 83
  | stoA64Adrp _ => 84
  | stoA64AddLo12 _ => 85
  | stoA64Ldst8Lo12 _ => 86
  | stoA64Ldst16Lo12 _ => 87
  | stoA64Ldst32Lo12 _ => 88
  | stoA64Ldst64Lo12 _ => 89
  | stoA64Ldst128Lo12 _ => 90
  | stoA64MovwG0 _ => 91
  | stoA64MovwG0Nc _ => 92
  | stoA64MovwG1 _ => 93
  | stoA64MovwG1Nc _ => 94
  | stoA64MovwG2 _ => 95
  | stoA64MovwG2Nc _ => 96
  | stoA64MovwG3 _ => 97
  | oprNop => 100
  | oprAdd => 101
  | oprSub => 102
  | oprMul => 103
  | oprDiv => 104
  | oprAnd => 105
  | oprIor => 106
  | oprEor => 107
  | oprNeg => 108
  | oprCom => 109
  | oprAsh => 111
  | oprRot => 113
  | oprSel => 114
  | ctlSetrb => 150
  | ctlAugrb _ => 151
  | ctlDfloc => 152
  | ctlStloc => 153
  | ctlStkdl => 154
  | other code _ => code

/-- The arguments of the command with a code. -/
def Tir.readArgs (code : BitVec 16) : Reader Error Tir :=
  match code.toNat with
  | 0 => staGbl <$> readName
  | 1 => staLw <$> u32
  | 2 => staQw <$> u64
  | 3 => do
    let psect ← u32
    let offset ← u64
    pure (staPq psect offset)
  | 50 => pure stoB
  | 51 => pure stoW
  | 52 => pure stoLw
  | 53 => pure stoQw
  | 54 => stoImmr <$> readData
  | 55 => stoGbl <$> readName
  | 56 => stoCa <$> readName
  | 59 => pure stoOff
  | 61 => stoImm <$> readData
  | 80 => stoA64Jump26 <$> u32
  | 81 => stoA64Branch19 <$> u32
  | 82 => stoA64Branch14 <$> u32
  | 83 => stoA64Adr <$> u32
  | 84 => stoA64Adrp <$> u32
  | 85 => stoA64AddLo12 <$> u32
  | 86 => stoA64Ldst8Lo12 <$> u32
  | 87 => stoA64Ldst16Lo12 <$> u32
  | 88 => stoA64Ldst32Lo12 <$> u32
  | 89 => stoA64Ldst64Lo12 <$> u32
  | 90 => stoA64Ldst128Lo12 <$> u32
  | 91 => stoA64MovwG0 <$> u32
  | 92 => stoA64MovwG0Nc <$> u32
  | 93 => stoA64MovwG1 <$> u32
  | 94 => stoA64MovwG1Nc <$> u32
  | 95 => stoA64MovwG2 <$> u32
  | 96 => stoA64MovwG2Nc <$> u32
  | 97 => stoA64MovwG3 <$> u32
  | 100 => pure oprNop
  | 101 => pure oprAdd
  | 102 => pure oprSub
  | 103 => pure oprMul
  | 104 => pure oprDiv
  | 105 => pure oprAnd
  | 106 => pure oprIor
  | 107 => pure oprEor
  | 108 => pure oprNeg
  | 109 => pure oprCom
  | 111 => pure oprAsh
  | 113 => pure oprRot
  | 114 => pure oprSel
  | 150 => pure ctlSetrb
  | 151 => ctlAugrb <$> u32
  | 152 => pure ctlDfloc
  | 153 => pure ctlStloc
  | 154 => pure ctlStkdl
  | _ => other code <$> rest

/-- The arguments of a command, as bytes (`write_args`). -/
def Tir.args : Tir → List Byte
  | staGbl name | stoGbl name | stoCa name => putName name
  | staLw value => put value
  | staQw value => put value
  | staPq psect offset => put psect ++ put offset
  | stoImmr data | stoImm data => putData data
  | stoA64Jump26 insn | stoA64Branch19 insn | stoA64Branch14 insn | stoA64Adr insn
  | stoA64Adrp insn | stoA64AddLo12 insn | stoA64Ldst8Lo12 insn | stoA64Ldst16Lo12 insn
  | stoA64Ldst32Lo12 insn | stoA64Ldst64Lo12 insn | stoA64Ldst128Lo12 insn | stoA64MovwG0 insn
  | stoA64MovwG0Nc insn | stoA64MovwG1 insn | stoA64MovwG1Nc insn | stoA64MovwG2 insn
  | stoA64MovwG2Nc insn | stoA64MovwG3 insn => put insn
  | ctlAugrb offset => put offset
  | other _ args => args
  | stoB | stoW | stoLw | stoQw | stoOff | oprNop | oprAdd | oprSub | oprMul | oprDiv | oprAnd
  | oprIor | oprEor | oprNeg | oprCom | oprAsh | oprRot | oprSel | ctlSetrb | ctlDfloc
  | ctlStloc | ctlStkdl => []

def Tir.names : Tir → List Name
  | staGbl name | stoGbl name | stoCa name => [name]
  | _ => []

def Tir.bytes (t : Tir) : List Byte := framed t.code t.args

def Tir.read : Reader Error Tir := do
  let (code, args) ← readFramed "TIR size"
  liftM (value (Tir.readArgs code) args)

/-! ## Subrecords -/

namespace Gsd

def gsdtyp : Gsd → BitVec 16
  | psc _ => 0
  | sdef _ | sref _ => 1
  | other gsdtyp _ => gsdtyp

/-- A subrecord without its type and size. -/
def body : Gsd → List Byte
  | psc p => p.bytes
  | sdef d => d.bytes
  | sref r => r.bytes
  | other _ data => data

/-- Zeros that make the subrecord end on a quadword boundary. -/
def padding (g : Gsd) : List Byte :=
  List.replicate ((4 + g.body.length + 7) / 8 * 8 - (4 + g.body.length)) 0

def names : Gsd → List Name
  | psc p => [p.name]
  | sdef d => [d.name]
  | sref r => [r.name]
  | other _ _ => []

def bytes (g : Gsd) : List Byte := framed g.gsdtyp (g.body ++ g.padding)

def parse (gsdtyp : BitVec 16) (body : List Byte) : Except Error Gsd :=
  match gsdtyp.toNat with
  | 0 => do return psc (← value Psc.read body)
  | 1 => do
    if has (← value u16 (body.drop 2)) sym.DEF then return sdef (← value SymDef.read body)
    else return sref (← value SymRef.read body)
  | _ => .ok (other gsdtyp body)

def read : Reader Error Gsd := do
  let (gsdtyp, body) ← readFramed "GSD size"
  liftM (parse gsdtyp body)

end Gsd

/-! ## Records -/

/-- Record types (`EOBJ$C_*`). -/
def EMH : BitVec 16 := 8
def EEOM : BitVec 16 := 9
def EGSD : BitVec 16 := 10
def ETIR : BitVec 16 := 11
def EDBG : BitVec 16 := 12
def ETBT : BitVec 16 := 13

/-- Module header subtype of the main header (`EMH$C_MHD`). -/
def MHD : BitVec 16 := 0

/-- Values one after the other, with no state between them. -/
def readAll {α : Type} (r : Reader Error α) (bytes : List Byte) : Except Error (List α) :=
  all (fun _ : Unit => (·, ()) <$> r) () bytes

namespace Record

def rectyp : Record → BitVec 16
  | mhd _ | text _ _ => EMH
  | eom _ _ => EEOM
  | gsd _ => EGSD
  | tir _ => ETIR
  | dbg _ => EDBG
  | tbt _ => ETBT

/-- A record without its type and size. -/
def body : Record → List Byte
  | mhd h => put MHD ++ h.bytes
  | text subtype contents => put subtype ++ contents
  | eom e transfer => e.bytes ++ transfer.elim [] Transfer.bytes
  | gsd subrecords => put (0 : BitVec 32) ++ subrecords.flatMap Gsd.bytes
  | tir commands | dbg commands | tbt commands => commands.flatMap Tir.bytes

def bytes (r : Record) : List Byte := framed r.rectyp r.body

def names : Record → List Name
  | mhd h => [h.name, h.version]
  | gsd subrecords => subrecords.flatMap Gsd.names
  | tir commands | dbg commands | tbt commands => commands.flatMap Tir.names
  | text _ _ | eom _ _ => []

/-- The lengths of what stands in a record with a size of its own. -/
def parts : Record → List ℕ
  | gsd subrecords => subrecords.map fun g => g.bytes.length
  | tir commands | dbg commands | tbt commands => commands.map fun t => t.bytes.length
  | mhd _ | text _ _ | eom _ _ => []

/-- What writing a record asserts: of the names, of the size of each subrecord or
    command, which is a word, and of the record's size. -/
def asserts (r : Record) : Bool :=
  r.names.all nameOk && r.parts.all (· < 2 ^ 16) && r.bytes.length ≤ MAX_RECORD

def parse (rectyp : BitVec 16) (body : List Byte) : Except Error Record :=
  match rectyp.toNat with
  | 8 => value (do
      let subtype ← u16
      if subtype = MHD then do
        let h ← Mhd.read
        if h.arch1 ≠ ARCH_ARM64 then throw (.invalid "architecture") else pure (mhd h)
      else text subtype <$> rest) body
  | 9 => value (do
      let e ← Eom.read
      let left ← rest
      if left = [] then pure (eom e none)
      else do
        let t ← liftM (value Transfer.read left)
        pure (eom e (some t))) body
  | 10 => do
    let (_, subs) ← u32.run body
    return gsd (← readAll Gsd.read subs)
  | 11 => do return tir (← readAll Tir.read body)
  | 12 => do return dbg (← readAll Tir.read body)
  | 13 => do return tbt (← readAll Tir.read body)
  | _ => .error (.invalid "record type")

/-- Whether each psect of the module is relocatable, after a record; none if the
    record has an address that is not in a relocatable psect. -/
def checkRel (rel : List Bool) : Record → Option (List Bool)
  | mhd _ => some []
  | gsd subrecords => parseGsd rel subrecords
  | _ => some rel

/-- A record of an object file, checked. -/
def read (rel : List Bool) : Reader Error (Record × List Bool) := do
  let (rectyp, body) ← readFramed "record size"
  let r ← liftM (parse rectyp body)
  match checkRel rel r with
  | some rel => pure (r, rel)
  | none => throw (.invalid "REL flag of a symbol not in a REL psect")

end Record

namespace File

/-- Parses an object file.  Every module must be for ARM64, and a symbol whose
    value is an address must be in a relocatable psect defined before it. -/
def parse (file : List Byte) : Except Error (List Record) := all Record.read [] file

/-- Serializes records; none if a name cannot be written or a record is too long. -/
def write (records : List Record) : Option (List Byte) :=
  if records.all Record.asserts then some (records.flatMap Record.bytes) else none

end File

end Obj
