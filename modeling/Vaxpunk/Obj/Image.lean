/-
  Executable and shareable images (`vms-obj/src/exe.rs`): what an image holds, and
  how a loader moves it.
-/
import Vaxpunk.Lib.Words
import Vaxpunk.Obj.Record

namespace Obj

/-- Image section flags (`EISD$M_*`). -/
def Eisd.M_CRF : BitVec 32 := 0x0002
def Eisd.M_DZRO : BitVec 32 := 0x0004
def Eisd.M_WRT : BitVec 32 := 0x0008
def Eisd.M_EXE : BitVec 32 := 0x0800

/-- One image section: where it goes, its protection, and its contents. -/
structure Section where
  vaddr : BitVec 64
  size : BitVec 32
  flags : BitVec 32
  /-- `size` bytes, or none for a demand-zero section. -/
  data : List (BitVec 8)
  deriving DecidableEq, Repr

/-- What a loader patches to move an image: where the image holds its own
    addresses, as offsets from its lowest section address, in increasing order. -/
structure Fixups where
  quad : List (BitVec 32)
  long : List (BitVec 32)
  /-- The lowest and highest of the longword addresses, as linked, signed. -/
  longMin : BitVec 32
  longMax : BitVec 32
  deriving DecidableEq, Repr

/-- A shareable image that an image calls, and where the image holds addresses in
    it: each quadword's offset from the image's lowest section address, and the
    offset in the shareable image's symbol vector.  In increasing order. -/
structure ShlRef where
  name : Name
  quad : List (BitVec 32 × BitVec 32)
  deriving DecidableEq, Repr

/-- A shareable image's symbol vector: where it is, and each entry's name, its
    address as linked, and whether it is DATA. -/
structure SymbolVector where
  addr : BitVec 64
  entries : List (Name × BitVec 64 × Bool)
  deriving DecidableEq, Repr

/-- An executable or shareable image.  The debug symbol table is left out: the
    linker makes none. -/
structure Image where
  name : Name
  ident : Name
  linkTime : BitVec 64
  /-- Entry point; 0 for none. -/
  transfer : BitVec 64
  sections : List Section
  /-- What a loader patches to move the image; none if it can't move. -/
  fixups : Option Fixups
  shareables : List ShlRef
  vector : Option SymbolVector
  deriving DecidableEq, Repr

/-! ## Moving an image -/

inductive ApplyErr where
  /-- "fixup across the end of a section" -/
  | across
  /-- "displacement for a longword address" -/
  | long
  deriving DecidableEq, Repr

/-- One address of `size` bytes at offset `off`, in `data`, the image's contents
    from offset `at` on. -/
def applyAt (d : BitVec 64) (size at_ off : ℕ) (data : List (BitVec 8)) :
    Except ApplyErr (List (BitVec 8)) :=
  if off < at_ ∨ data.length ≤ off - at_ then .ok data
  else
    let i := off - at_
    let field := (data.drop i).take size
    if field.length < size then .error .across
    else if size = 8 then .ok (Words.splice data i (Words.le 8 (Words.ofLe field + d.toNat)))
    else
      let v := (BitVec.ofNat 32 (Words.ofLe field)).toInt + d.toInt
      if -2 ^ 31 ≤ v ∧ v < 2 ^ 31 then .ok (Words.splice data i (Words.le 4 (BitVec.ofInt 32 v).toNat))
      else .error .long

/-- Step 4 of moving an image: adds `d` to each address the fixups name in
    `data`, which holds the image's contents from offset `at` on. -/
def Fixups.apply (f : Fixups) (d : BitVec 64) (at_ : ℕ) (data : List (BitVec 8)) :
    Except ApplyErr (List (BitVec 8)) := do
  let data ← f.quad.foldlM (fun data off => applyAt d 8 at_ off.toNat data) data
  f.long.foldlM (fun data off => applyAt d 4 at_ off.toNat data) data

end Obj
