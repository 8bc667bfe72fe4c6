/-
  The linker (`vlink/src/lib.rs`), up to running the modules' commands: collecting
  modules and psects, resolving symbols, and laying the image out.

  Inputs are given as what their parsers read from them.  Addresses are numbers; an
  operation of the layout that overflows 64 bits, an index out of bounds or an
  unwrapped error is a panic, which ends the link as an error does.  The value of a
  symbol and a transfer address are 64-bit sums that wrap around, as they do without
  overflow checks.
-/
import Vaxpunk.Lib.SortedMap
import Vaxpunk.Obj.Image
import Vaxpunk.Obj.Library
import Vaxpunk.Obj.Reloc

namespace Link

open Obj (Name Record Gsd Tir Weight Value has)

/-! ## What it keeps -/

structure Options where
  /-- Address of the first image section. -/
  base : ℕ
  name : Name
  /-- Symbol to start at, instead of the first transfer address found. -/
  transfer : Option Name
  linkTime : BitVec 64
  /-- Make an image a loader may move. -/
  relocatable : Bool
  /-- Make a shareable image with this symbol vector, each entry with whether it is
      DATA. -/
  shareable : Option (List (Name × Bool))

/-- An input, as its parser reads it. -/
inductive Input where
  | object (records : List Record)
  | library (lib : Obj.Library)
  | image (img : Obj.Image)

structure Module where
  name : Name
  version : Name
  file : Name
  /-- For each of the module's psects: the image psect and its part. -/
  psects : List (ℕ × ℕ)
  /-- TIR records, run after layout. -/
  records : List Record
  transfer : Option (ℕ × BitVec 64)
  deriving DecidableEq, Repr

/-- One module's contribution to a psect. -/
structure Part where
  module : ℕ
  size : ℕ
  align : ℕ
  offset : ℕ
  deriving DecidableEq, Repr

structure Psect where
  name : Name
  flags : BitVec 16
  align : ℕ
  parts : List Part
  base : ℕ
  size : ℕ
  deriving DecidableEq, Repr

structure Def where
  module : ℕ
  /-- The module's psect index, or none for an absolute value. -/
  psect : Option ℕ
  value : BitVec 64
  weak : Bool
  deriving DecidableEq, Repr

/-- A definition as it appeared. -/
structure RawDef where
  name : Name
  module : ℕ
  psect : ℕ
  value : BitVec 64
  flags : BitVec 16
  deriving DecidableEq, Repr

structure Ref where
  name : Name
  module : ℕ
  weak : Bool
  deriving DecidableEq, Repr

inductive Class where
  | code
  | readOnly
  | data
  | zero
  deriving DecidableEq, Repr

def Class.of (flags : BitVec 16) : Class :=
  if has flags Obj.psc.EXE then .code
  else if !has flags Obj.psc.WRT then .readOnly
  else if has flags Obj.psc.NOMOD then .zero
  else .data

def Class.flags : Class → BitVec 32
  | .code => Obj.Eisd.M_EXE
  | .readOnly => 0
  | .data => Obj.Eisd.M_WRT ||| Obj.Eisd.M_CRF
  | .zero => Obj.Eisd.M_WRT ||| Obj.Eisd.M_DZRO

/-- A shareable image linked against: its name and its symbol vector's entries, each
    with whether it is DATA. -/
structure Shared where
  name : Name
  entries : List (Name × Bool)
  deriving DecidableEq, Repr

structure ImageSection where
  cls : Class
  start : ℕ
  stop : ℕ
  deriving DecidableEq, Repr

/-- Why what a store left can't move. -/
inductive Stuck where
  /-- "STO_… of … can't move" -/
  | store (cmd : Tir) (k : Weight) (at_ : ℕ)
  /-- "part of an address is overwritten" -/
  | part (at_ : ℕ)
  deriving DecidableEq, Repr

/-- What a store left in the image that matters if the image moves: an address, or
    something nothing can fix. -/
structure Stored where
  size : ℕ
  module : ℕ
  value : BitVec 64
  /-- Why it can't move; none for an address. -/
  stuck : Option Stuck
  deriving DecidableEq, Repr

/-- What a shareable image gives: the name, the image, its symbol vector's entry. -/
structure Import where
  name : Name
  image : ℕ
  entry : ℕ
  deriving DecidableEq, Repr

/-- A write into the image's contents, or the note that the last one holds an address
    of the image or that of a data import. -/
inductive Event where
  | store (at_ size : ℕ)
  | address (at_ size : ℕ)
  | ref (at_ j : ℕ)
  deriving DecidableEq, Repr

inductive Msg where
  /-- `%VLINK-F-NOTSHR, is not a shareable image` -/
  | notShr (file : Name)
  /-- `%VLINK-F-BADOBJ, is not an object file` -/
  | notObject (file : Name)
  /-- `%VLINK-F-BADOBJ, module in a library is not an object module` -/
  | notModule (module file : Name)
  /-- `%VLINK-F-BADOBJ, a module has no end-of-module record` -/
  | noEnd (file : Name)
  /-- `%VLINK-F-BADOBJ, the last module has no end-of-module record` -/
  | lastNoEnd (file : Name)
  /-- `%VLINK-F-BADOBJ, records before the module header` -/
  | noHeader (file : Name)
  /-- `%VLINK-F-COMPERR, module has compilation errors` -/
  | compErr (module : Name)
  /-- `%VLINK-F-BADOBJ, unsupported GSD subrecord type` -/
  | gsdType (file : Name) (gsdtyp : BitVec 16)
  /-- `%VLINK-F-PSECTATTR, psect is both executable and writable` -/
  | writableCode (psect : Name)
  /-- `%VLINK-F-PSECTATTR, psect has conflicting attributes in different modules` -/
  | psectAttr (psect : Name)
  /-- `%VLINK-F-BADOBJ, symbol refers to a psect module doesn't define` -/
  | symbolPsect (symbol module : Name)
  /-- `%VLINK-E-MULDEF, symbol is defined in modules` -/
  | mulDef (symbol old new : Name)
  /-- `%VLINK-E-UDFSYM, undefined symbol, referenced by` -/
  | udfSym (symbol : Name) (referencedBy : List Name)
  /-- `%VLINK-E-NOTPROC, symbol vector entry is not a procedure of the image` -/
  | notProc (symbol : Name)
  /-- `%VLINK-E-NOTDATA, symbol vector entry is not data of the image` -/
  | notData (symbol : Name)
  /-- `%VLINK-F-TOOBIG, an image section is larger than 4 GB` -/
  | tooBig
  /-- `%VLINK-F-TOOBIG, the address is 4 GB or more into the image` -/
  | tooFar (at_ : ℕ)
  /-- `%VLINK-F-BADOBJ, module refers to psect, which it doesn't define` -/
  | modulePsect (module : Name) (psect : ℕ)
  /-- `%VLINK-F-STACK, linker stack underflow in module` -/
  | stack (module : Name)
  /-- `%VLINK-F-BADOBJ, symbol has a bad psect` -/
  | badSymbol (symbol : Name)
  /-- `%VLINK-F-NOLOC, module stores data, or moves the location, before setting it` -/
  | noLoc (module : Name)
  /-- `%VLINK-F-DZRO, initialized data in a demand-zero psect` -/
  | dzro (at_ : ℕ)
  /-- `%VLINK-F-OUTSIDE, module stores outside the image` -/
  | outside (module : Name) (at_ : ℕ)
  /-- `%VLINK-E-NOTPIC, address in a PIC psect needs a fixup` -/
  | notPic (at_ : ℕ)
  /-- `%VLINK-E-SHRDATA, only a quadword may hold the address` -/
  | shrData (symbol image module : Name)
  /-- `%VLINK-E-TRUNC, value doesn't fit` -/
  | trunc (v : BitVec 64) (bytes : ℕ) (address : Bool) (at_ : Option ℕ)
  /-- `%VLINK-F-UNSUPPORTED, TIR command` -/
  | unsupported (cmd : Tir) (module : Name)
  /-- `%VLINK-E-RELOC, why: target, instruction` -/
  | reloc (e : Obj.RelocErr) (target : BitVec 64) (at_ : ℕ)
  /-- `%VLINK-E-NORELOC, what nothing can fix` -/
  | noReloc (why : Stuck)
  /-- `%VLINK-F-NOTFR, transfer symbol is not defined` -/
  | noTfr (symbol : Name)
  /-- `%VLINK-W-USRTFR, the image has no transfer address` -/
  | usrTfr
  /-- `%VLINK-W-EOMSTCK, module left values on the linker's stack` -/
  | eomStck (module : Name)
  /-- `%VLINK-I-FIXUPS, quadword and longword fixups` -/
  | fixups (quads longs : ℕ)
  | panic
  deriving DecidableEq, Repr

structure Linker where
  modules : List Module
  psects : List Psect
  sections : List ImageSection
  defs : List (Name × Def)
  refs : List Ref
  /-- Definitions in the order they appeared. -/
  rawDefs : List RawDef
  warnings : List Msg
  /-- What the image holds that matters if it moves, by address. -/
  stored : List (ℕ × Stored)
  /-- Fixed addresses a B or BL couldn't reach, in increasing order. -/
  far : List (BitVec 64)
  /-- The psect of their veneers. -/
  veneers : Option ℕ
  /-- How many of `far` have a veneer. -/
  veneered : ℕ
  shared : List Shared
  /-- The procedures of shareable images the image calls. -/
  imports : List Import
  /-- The data of theirs the image reaches. -/
  dataImports : List Import
  /-- Where the image holds a data import's address, and which. -/
  dataRefs : List (ℕ × ℕ)
  /-- The symbol vector's psect, in a shareable image. -/
  vector : Option ℕ
  relocatable : Bool
  /-- Ghost: what the last run of the commands wrote, in order. -/
  log : List Event
  deriving DecidableEq, Repr

def Linker.new : Linker where
  modules := []
  psects := []
  sections := []
  defs := []
  refs := []
  rawDefs := []
  warnings := []
  stored := []
  far := []
  veneers := none
  veneered := 0
  shared := []
  imports := []
  dataImports := []
  dataRefs := []
  vector := none
  relocatable := false
  log := []

namespace Linker

/-! ## Collecting modules -/

/-- The image psect called `name`, created on first use. -/
def psect (l : Linker) (name : Name) (flags : BitVec 16) (align : ℕ) : Except Msg (ℕ × Linker) :=
  if has flags Obj.psc.EXE && has flags Obj.psc.WRT then .error (.writableCode name)
  else match l.psects.findIdx? (·.name = name) with
    | some i =>
      if (l.psects[i]?.map (·.flags)) ≠ some flags then .error (.psectAttr name)
      else .ok (i, { l with psects := l.psects.modify i fun p => { p with align := max p.align align } })
    | none => .ok (l.psects.length,
        { l with psects := l.psects ++ [⟨name, flags, align, [], 0, 0⟩] })

/-- Adds a contribution to image psect `p`; returns which part it is. -/
def addPart (l : Linker) (p : ℕ) (part : Part) : ℕ × Linker :=
  ((l.psects[p]?.map (·.parts.length)).getD 0,
    { l with psects := l.psects.modify p fun q => { q with parts := q.parts ++ [part] } })

/-- One GSD subrecord of the module being read. -/
def addGsd (file : Name) (ml : Module × Linker) (sub : Gsd) : Except Msg (Module × Linker) :=
  let (m, l) := ml
  let module := l.modules.length
  match sub with
  | .psc p => do
    let (i, l) ← l.psect p.name p.flags p.align.toNat
    let (part, l) := l.addPart i ⟨module, p.alloc.toNat, p.align.toNat, 0⟩
    .ok ({ m with psects := m.psects ++ [(i, part)] }, l)
  | .sdef d =>
    .ok (m, { l with rawDefs := l.rawDefs ++ [⟨d.name, module, d.psindx.toNat, d.value, d.flags⟩] })
  | .sref r => .ok (m, { l with refs := l.refs ++ [⟨r.name, module, has r.flags Obj.sym.WEAK⟩] })
  | .other gsdtyp _ => .error (.gsdType file gsdtyp)

/-- One record of an object file; the module being read, if any. -/
def addRecord (file : Name) (cl : Option Module × Linker) (record : Record) :
    Except Msg (Option Module × Linker) :=
  match record, cl with
  | .mhd h, (none, l) => .ok (some ⟨h.name, h.version, file, [], [], none⟩, l)
  | .mhd _, (some _, _) => .error (.noEnd file)
  | _, (none, _) => .error (.noHeader file)
  | .eom e transfer, (some m, l) =>
    if 2 ≤ e.comcod.toNat then .error (.compErr m.name)
    else
      let m := { m with transfer := transfer.map fun t => (t.psindx.toNat, t.tfradr) }
      .ok (none, { l with modules := l.modules ++ [m] })
  | .gsd subs, (some m, l) => do
    let (m, l) ← subs.foldlM (addGsd file) (m, l)
    .ok (some m, l)
  | .tir _, (some m, l) | .dbg _, (some m, l) | .tbt _, (some m, l) =>
    .ok (some { m with records := m.records ++ [record] }, l)
  | .text _ _, (some m, l) => .ok (some m, l)

def add (l : Linker) (file : Name) (records : List Record) : Except Msg Linker := do
  match ← records.foldlM (addRecord file) (none, l) with
  | (none, l) => .ok l
  | (some _, _) => .error (.lastNoEnd file)

/-- Adds a shareable image to link against. -/
def shareable (l : Linker) (file : Name) (image : Obj.Image) : Except Msg Linker :=
  match image.vector with
  | none => .error (.notShr file)
  | some vector =>
    .ok { l with shared := l.shared ++ [⟨image.name, vector.entries.map fun e => (e.1, e.2.2)⟩] }

/-- The module `search` takes next: the first in the order of the references that
    the index has for a symbol strongly referenced and still undefined. -/
def next (l : Linker) (lib : Obj.Library) (taken : List Name) : Option Obj.Module :=
  (l.refs.filter fun r => !r.weak && l.rawDefs.all (·.name ≠ r.name)).findSome? fun r =>
    -- of two modules with a symbol, the index has the last
    (lib.reverse.find? (r.name ∈ ·.symbols)).filter (·.name ∉ taken)

/-- Takes from `lib` each module that defines a symbol strongly referenced and
    still undefined, until there are none.  Each is taken once, so that `fuel`
    above the number of modules is enough. -/
def search (file : Name) (lib : Obj.Library) : ℕ → List Name → Linker → Except Msg Linker
  | 0, _, l => .ok l
  | fuel + 1, taken, l => match l.next lib taken with
    | none => .ok l
    | some m => match Obj.parse m.object with
      | none => .error (.notModule m.name file)
      | some records => do
        let l ← l.add file records
        search file lib fuel (m.name :: taken) l

def input (l : Linker) (file : Name) : Input → Except Msg Linker
  | .image img => l.shareable file img
  | .library lib => search file lib (lib.length + 1) [] l
  | .object records => match Obj.parse records with
    | none => .error (.notObject file)
    | some records => l.add file records

/-! ## Resolving symbols -/

def moduleName (l : Linker) (i : ℕ) : Name := ((l.modules[i]?).map (·.name)).getD []

def define (l : Linker) (name : Name) (d : Def) : Linker :=
  { l with defs := (name, d) :: l.defs.filter (·.1 ≠ name) }

/-- Whether `name` is a procedure or data of a shareable image. -/
def imported (l : Linker) (name : Name) : Bool :=
  (l.imports ++ l.dataImports).any (·.name = name)

def resolveDef (le : Linker × List Msg) (r : RawDef) : Linker × List Msg :=
  let (l, errors) := le
  match ((l.modules[r.module]?).bind (·.psects[r.psect]?)) with
  | none => (l, errors ++ [.symbolPsect r.name (l.moduleName r.module)])
  | some _ =>
    let d : Def := ⟨r.module, if has r.flags Obj.sym.REL then some r.psect else none, r.value,
      has r.flags Obj.sym.WEAK⟩
    match l.defs.lookup r.name with
    | none => (l.define r.name d, errors)
    | some old =>
      if old.weak && !d.weak then (l.define r.name d, errors)
      else if !old.weak && !d.weak then
        (l, errors ++ [.mulDef r.name (l.moduleName old.module) (l.moduleName r.module)])
      else (l, errors)

/-- What no module defines, a shareable image may. -/
def resolveRef (l : Linker) (r : Ref) : Linker :=
  if (l.defs.lookup r.name).isSome || l.imported r.name then l
  else
    let found := l.shared.zipIdx.findSome? fun (s, i) => do
      let entry ← s.entries.findIdx? (·.1 = r.name)
      let e ← s.entries[entry]?
      some (e.2, (⟨r.name, i, entry⟩ : Import))
    match found with
    | some (true, d) => { l with dataImports := l.dataImports ++ [d] }
    | some (false, p) => { l with imports := l.imports ++ [p] }
    | none => l

/-- The undefined symbols, each with the modules that reference it. -/
def undefined (l : Linker) : List (Name × List Name) → Ref → List (Name × List Name)
  | us, r =>
    if r.weak || (l.defs.lookup r.name).isSome || l.imported r.name then us
    else
      let by_ := l.moduleName r.module
      match us.lookup r.name with
      | none => us ++ [(r.name, [by_])]
      | some _ => us.map fun u =>
        if u.1 = r.name ∧ by_ ∉ u.2 then (u.1, u.2 ++ [by_]) else u

def resolve (l : Linker) : Except (List Msg) Linker :=
  let (l₁, errors) := l.rawDefs.foldl resolveDef ({ l with rawDefs := [] }, [])
  let l₂ := l₁.refs.foldl resolveRef l₁
  let errors := errors ++
    (l₂.refs.foldl l₂.undefined []).map fun u => Msg.udfSym u.1 u.2
  if errors.isEmpty then .ok l₂ else .error errors

/-! ## Layout -/

/-- A number that fits in 64 bits. -/
def u64? (n : ℕ) : Option ℕ := if n < 2 ^ 64 then some n else none

/-- `n.next_multiple_of(1 << align)`. -/
def nextMultiple (n align : ℕ) : Option ℕ :=
  if align < 64 then u64? ((n + 2 ^ align - 1) / 2 ^ align * 2 ^ align) else none

/-- The offsets of a psect's parts, and its size. -/
def layoutParts (flags : BitVec 16) : List Part → ℕ → Option (List Part × ℕ)
  | [], size => some ([], size)
  | part :: parts, size =>
    -- in an absolute psect, as in an overlaid one, every module's part is at 0
    if has flags Obj.psc.OVR || !has flags Obj.psc.REL then do
      let (parts, size) ← layoutParts flags parts (max size part.size)
      some (part :: parts, size)
    else do
      let offset ← nextMultiple size part.align
      let size ← u64? (offset + part.size)
      let (parts, size) ← layoutParts flags parts size
      some ({ part with offset } :: parts, size)

def layoutPsect (p : Psect) : Option Psect := do
  let (parts, size) ← layoutParts p.flags p.parts 0
  some { p with parts, size }

/-- Whether a psect goes into the image sections of a class. -/
def isMember (cls : Class) (p : Psect) : Bool := has p.flags Obj.psc.REL && Class.of p.flags = cls

/-- The bases of the psects of a class, from `pos` up, and where they end. -/
def placePsects (cls : Class) : List Psect → ℕ → Option (List Psect × ℕ)
  | [], pos => some ([], pos)
  | p :: ps, pos =>
    if isMember cls p then do
      let base ← nextMultiple pos p.align
      let pos ← u64? (base + p.size)
      let (ps, pos) ← placePsects cls ps pos
      some ({ p with base } :: ps, pos)
    else do
      let (ps, pos) ← placePsects cls ps pos
      some (p :: ps, pos)

/-- The image section of a class, if any of its psects has contents; `at_` is where
    the last section ended. -/
def layoutClass (la : Linker × ℕ) (cls : Class) : Except Msg (Linker × ℕ) :=
  let (l, at_) := la
  if (l.psects.filter (isMember cls)).all (·.size = 0) then .ok (l, at_)
  else
    match nextMultiple at_ 16 with
    | none => .error .panic
    | some start => match placePsects cls l.psects start with
      | none => .error .panic
      | some (psects, pos) =>
        if 2 ^ 32 ≤ pos - start then .error .tooBig
        else .ok ({ l with psects, sections := l.sections ++ [⟨cls, start, pos⟩] }, pos)

def layout (l : Linker) (base : ℕ) : Except Msg Linker :=
  match l.psects.mapM layoutPsect with
  | none => .error .panic
  | some psects => do
    let (l, _) ← [Class.code, .readOnly, .data, .zero].foldlM layoutClass
      ({ l with psects, sections := [] }, base)
    .ok l

/-! ## The linker's own psects -/

def VENEER : ℕ := 16

/-- `$VENEERS`, `$VENEER$`, `$LINK$`, `$SYMVECT` and `$SYMVECT$`. -/
def nameVENEERS : Name := [0x24, 0x56, 0x45, 0x4e, 0x45, 0x45, 0x52, 0x53]
def nameVENEER : Name := [0x24, 0x56, 0x45, 0x4e, 0x45, 0x45, 0x52, 0x24]
def nameLINK : Name := [0x24, 0x4c, 0x49, 0x4e, 0x4b, 0x24]
def nameSYMVECT : Name := [0x24, 0x53, 0x59, 0x4d, 0x56, 0x45, 0x43, 0x54]
def psectSYMVECT : Name := [0x24, 0x53, 0x59, 0x4d, 0x56, 0x45, 0x43, 0x54, 0x24]

/-- Adds or resizes $VENEER$, a code psect of a module of its own, $VENEERS, with a
    veneer for each procedure of a shareable image the image calls, then one for
    each address in `far`.  Those for `imports` jump through a quadword slot each,
    in $VENEERS's part of $LINK$, and define the procedures' names as their
    addresses. -/
def addVeneers (l : Linker) : Except Msg Linker :=
  let n := l.imports.length
  let l := { l with veneered := l.far.length }
  let size := VENEER * (n + l.far.length)
  match l.veneers with
  | some p => .ok { l with psects := l.psects.modify p fun q =>
      { q with parts := q.parts.modify 0 fun part => { part with size } } }
  | none => do
    let flags := Obj.psc.PIC ||| Obj.psc.REL ||| Obj.psc.SHR ||| Obj.psc.EXE ||| Obj.psc.RD
    let (p, l) ← (l.psect nameVENEER flags 3).mapError fun _ => Msg.panic
    let (link, l) ← (l.psect nameLINK (Obj.psc.REL ||| Obj.psc.RD) 3).mapError fun _ => Msg.panic
    let module := l.modules.length
    let (part, l) := l.addPart p ⟨module, size, 3, 0⟩
    let (linkPart, l) := l.addPart link ⟨module, 8 * n, 3, 0⟩
    let m : Module := ⟨nameVENEERS, [], [], [(p, part), (link, linkPart)], [], none⟩
    let l := { l with modules := l.modules ++ [m] }
    let l := l.imports.zipIdx.foldl (fun l (imp, i) =>
      l.define imp.name ⟨module, some 0, BitVec.ofNat 64 (VENEER * i), false⟩) l
    .ok { l with veneers := some p }

/-- Whether a symbol's definition is in a code psect; none if it is absolute. -/
def inCode (l : Linker) (name : Name) : Option Bool := do
  let d ← l.defs.lookup name
  let m ← l.modules[d.module]?
  let (p, _) ← m.psects[← d.psect]?
  let p ← l.psects[p]?
  some (has p.flags Obj.psc.EXE)

/-- Adds $SYMVECT$, the symbol vector of a shareable image, a read-only psect of a
    module of its own, $SYMVECT. -/
def addVector (l : Linker) (names : List (Name × Bool)) : Except (List Msg) Linker :=
  let errors := names.filterMap fun (name, data) =>
    if l.inCode name = some !data then none
    else some (if data then Msg.notData name else Msg.notProc name)
  if !errors.isEmpty then .error errors
  else match l.psect psectSYMVECT (Obj.psc.REL ||| Obj.psc.RD) 3 with
    | .error _ => .error [.panic]
    | .ok (p, l) =>
      let module := l.modules.length
      let (part, l) := l.addPart p ⟨module, 8 * names.length, 3, 0⟩
      let m : Module := ⟨nameSYMVECT, [], [], [(p, part)], [], none⟩
      .ok { l with modules := l.modules ++ [m], vector := some p }

/-! ## Addresses -/

/-- Where a module's psect contribution starts. -/
def partBase (l : Linker) (module psect : ℕ) : Option ℕ := do
  let m ← l.modules[module]?
  let (p, part) ← m.psects[psect]?
  let p ← l.psects[p]?
  let part ← p.parts[part]?
  some (p.base + part.offset)

/-- A global symbol's final value. -/
def value (l : Linker) (name : Name) : Option (BitVec 64) := do
  let d ← l.defs.lookup name
  match d.psect with
  | some p => (l.partBase d.module p).map fun b => BitVec.ofNat 64 b + d.value
  | none => some d.value

/-- The veneer that jumps to `target`, if there is one. -/
def veneer (l : Linker) (target : BitVec 64) : Option ℕ := do
  let p ← l.psects[← l.veneers]?
  let i ← (l.far.take l.veneered).findIdx? (· = target)
  some (p.base + VENEER * (l.imports.length + i))

/-- The index of a module the linker made. -/
def module (l : Linker) (name : Name) : Option ℕ := l.modules.findIdx? (·.name = name)

/-- The slot that import `i`'s veneer jumps through. -/
def slot (l : Linker) (i : ℕ) : Option ℕ := do
  let b ← l.partBase (← l.module nameVENEERS) 1
  some (b + 8 * i)

/-- The relocatable psect holding `addr`. -/
def psectAt (l : Linker) (addr : ℕ) : Option Psect :=
  l.psects.find? fun p => has p.flags Obj.psc.REL ∧ p.base ≤ addr ∧ addr < p.base + p.size

/-- Whether a fixup may not land at `addr`. -/
def isPic (l : Linker) (addr : ℕ) : Bool := (l.psectAt addr).any (has ·.flags Obj.psc.PIC)

end Linker

end Link
