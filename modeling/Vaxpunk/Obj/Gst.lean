/-
  The global symbol table of a shareable image (`gst` and `parse_gst` in
  `vms-obj/src/exe.rs`): its symbol vector as the records of an object module.
-/
import Vaxpunk.Obj.File

namespace Obj

open Codec

def psc.LIB : BitVec 16 := 1 <<< 1

/-- A GST entry (`EGST$`), after the subrecord's type and size. -/
structure Egst where
  datyp : BitVec 8 := 0
  temp : BitVec 8 := 0
  flags : BitVec 16
  /-- The entry's offset in the symbol vector. -/
  value : BitVec 64
  /-- The procedure's entry point, or the data's address, as linked. -/
  lp1 : BitVec 64
  lp2 : BitVec 64
  psindx : BitVec 32 := 0
  name : Name
  deriving DecidableEq, Repr

def Egst.read : Reader Error Egst := do
  let datyp ← u8
  let temp ← u8
  let flags ← u16
  let value ← u64
  let lp1 ← u64
  let lp2 ← u64
  let psindx ← u32
  let name ← readName
  pure { datyp, temp, flags, value, lp1, lp2, psindx, name }

def Egst.bytes (e : Egst) : List Byte :=
  put e.datyp ++ (put e.temp ++ (put e.flags ++ (put e.value ++ (put e.lp1 ++
    (put e.lp2 ++ (put e.psindx ++ putName e.name))))))

/-- Subrecord type of a GST entry (`EGSD$C_SYMG`). -/
def SYMG : BitVec 16 := 8

/-- An entry of a symbol vector: its name, its address and whether it is data. -/
abbrev Entry := Name × BitVec 64 × Bool

/-- The subrecord of the entry at an index of the symbol vector. -/
def Entry.symg (e : Entry) (i : ℕ) : Gsd :=
  .other SYMG (Egst.bytes {
    flags := sym.DEF ||| sym.UNI ||| sym.REL ||| if e.2.2 then 0 else sym.NORM
    value := BitVec.ofNat 64 (8 * i)
    lp1 := e.2.1
    lp2 := e.2.1
    name := e.1 })

/-- Groups of `n`, one after the other; the last can have fewer. -/
def chunks {α : Type} (n : ℕ) (l : List α) : List (List α) :=
  (List.range ((l.length + n - 1) / n)).map fun i => (l.drop (n * i)).take n

/-- The psect of absolute symbols. -/
def abs : Gsd :=
  .psc {
    align := 0
    flags := psc.PIC ||| psc.LIB ||| psc.RD
    alloc := 0
    -- ".$$ABS$$."
    name := [0x2e, 0x24, 0x24, 0x41, 0x42, 0x53, 0x24, 0x24, 0x2e] }

/-- The records of a GST with these entries. -/
def gstRecords (name ident : Name) (entries : List Gsd) : List Record :=
  let header : Mhd := {
    recsiz := BitVec.ofNat 32 MAX_RECORD
    name := name
    version := ident
    date := ⟨List.replicate 17 0x20, rfl⟩ }
  [.mhd header, .gsd [abs]] ++ (chunks 100 entries).map .gsd ++ [.eom { comcod := 0 } none]

/-- A shareable image's GST; none if an entry's name cannot be written. -/
def gst (name ident : Name) (entries : List Entry) : Option (List Record) :=
  if entries.all (nameOk ·.1) then
    some (gstRecords name ident (entries.zipIdx.map fun p => p.1.symg p.2))
  else none

/-- The size of the next `count` records together, from their own sizes. -/
def gstSize : ℕ → Reader Error ℕ
  | 0 => pure 0
  | count + 1 => do
    let (_, body) ← readFramed "GST record size"
    let len ← gstSize count
    pure (4 + body.length + len)

/-- One subrecord more of a GST. -/
def addSymg (entries : List Entry) : Gsd → Except Error (List Entry)
  | .other gsdtyp data =>
    if gsdtyp = SYMG then do
      let e ← value Egst.read data
      if e.value ≠ BitVec.ofNat 64 (8 * entries.length) then
        throw (.invalid "symbol vector entry order")
      else pure (entries ++ [(e.name, e.lp1, !has e.flags sym.NORM)])
    else pure entries
  | _ => pure entries

def Record.subrecords : Record → List Gsd
  | gsd subrecords => subrecords
  | _ => []

/-- The symbol vector's entries, from a GST of `count` records at the start of
    `b`. -/
def parseGst (b : List Byte) (count : BitVec 32) : Except Error (List Entry) := do
  let len ← value (gstSize count.toNat) b
  let records ← File.parse (b.take len)
  (records.flatMap Record.subrecords).foldlM addSymg []

end Obj
