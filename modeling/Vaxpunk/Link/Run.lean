/-
  Running the modules' commands (`Run` in `vlink/src/lib.rs`), and `link`.

  A command that fails leaves what it did before: the run's state is kept with the
  error, since the linker goes on with the next module.
-/
import Vaxpunk.Link.Linker

namespace Link

open Words

open Obj (Name Record Tir Weight Value Need)

/-- TIR execution: one module's stack, location counter and data import, and what
    all modules' commands change. -/
structure Run where
  /-- Values, the last pushed first. -/
  stack : List Value
  /-- The location counter, once set. -/
  loc : Option (BitVec 64)
  /-- The data import whose address the last command pushed. -/
  dataImport : Option ℕ
  /-- Each image section's contents. -/
  data : List (List (BitVec 8))
  stored : List (ℕ × Stored)
  /-- The fixed addresses B and BL couldn't reach. -/
  far : List (BitVec 64)
  /-- Where the image holds a data import's address, and which. -/
  dataRefs : List (ℕ × ℕ)
  /-- Ghost: the writes so far. -/
  log : List Event
  deriving DecidableEq, Repr

abbrev Exec := EStateM Msg Run

def addFar (target : BitVec 64) (far : List (BitVec 64)) : List (BitVec 64) :=
  if target ∈ far then far else far.orderedInsert (·.toNat ≤ ·.toNat) target

/-- The part from `lo` to `hi` of what was stored, which can't move. -/
def addRest (old : Stored) (why : Stuck) (lo hi : ℕ) (stored : List (ℕ × Stored)) :
    List (ℕ × Stored) :=
  if lo < hi then SortedMap.insert lo { old with size := hi - lo, stuck := some why } stored
  else stored

/-- Bytes from `at_` to `stop` replace part of the entry at `a`: what it left on
    either side stays, but part of an address isn't one. -/
def cut (at_ stop : ℕ) (stored : List (ℕ × Stored)) (a : ℕ) : List (ℕ × Stored) :=
  match stored.lookup a with
  | none => stored
  | some old =>
    let why := old.stuck.getD (.part a)
    addRest old why stop (a + old.size) (addRest old why a at_ (SortedMap.erase a stored))

/-- The entries that bytes from `at_` to `stop` replace part of. -/
def hits (at_ stop : ℕ) (stored : List (ℕ × Stored)) : List ℕ :=
  let left := (SortedMap.lastBelow at_ stored).bind fun (a, s) =>
    if at_ < a + s.size then some a else none
  left.toList ++ (SortedMap.between at_ stop stored).map (·.1)

/-- Bytes go into section `i`, which starts at `start`; the location counter
    advances over them. -/
def Run.write (r : Run) (at_ i start : ℕ) (bytes : List (BitVec 8)) : Run :=
  let stop := at_ + bytes.length
  { r with
    data := r.data.modify i fun d => splice d (at_ - start) bytes
    stored := (hits at_ stop r.stored).foldl (cut at_ stop) r.stored
    loc := some (BitVec.ofNat 64 stop)
    log := r.log ++ [.store at_ bytes.length] }

section
variable (l : Linker) (module : ℕ)

def pop : Exec Value := do
  match (← get).stack with
  | [] => throw (.stack (l.moduleName module))
  | v :: stack =>
    modify fun r => { r with stack }
    return v

def push (v : Value) : Exec Unit := modify fun r => { r with stack := v :: r.stack }

/-- A symbol's value, and its weight: 1 for an address, 0 for a constant. -/
def symbol (name : Name) : Exec Value :=
  match l.defs.lookup name with
  -- a weak reference to a missing symbol is 0; others were reported
  | none => return (0, some 0)
  | some d => match l.value name with
    | some v => return (v, some (if d.psect.isSome then 1 else 0))
    | none => throw (.badSymbol name)

/-- Notes what the `size` bytes that `cmd` stored at `at_`, of `v` with weight `k`,
    need for the image to move. -/
def fix (at_ size : ℕ) (cmd : Tir) (v : BitVec 64) (k : Weight) : Exec Unit :=
  match Obj.need cmd k with
  | .nothing => return
  | .fixup _ => modify fun r =>
    { r with
      stored := SortedMap.insert at_ ⟨size, module, v, none⟩ r.stored
      log := r.log ++ [.address at_ size] }
  | .impossible => modify fun r =>
    { r with stored := SortedMap.insert at_ ⟨size, module, v, some (.store cmd k at_)⟩ r.stored }

/-- The image section that holds the bytes from `at_` to `stop`. -/
def sectionOf (at_ stop : ℕ) : Option ℕ :=
  l.sections.findIdx? fun s => s.start ≤ at_ ∧ stop ≤ s.stop

/-- Stores bytes at the location counter and advances it; returns where they
    went. -/
def store (bytes : List (BitVec 8)) : Exec ℕ := do
  match (← get).loc with
  | none => throw (.noLoc (l.moduleName module))
  | some loc =>
    let at_ := loc.toNat
    match sectionOf l at_ (at_ + bytes.length) with
    | none => throw (.outside (l.moduleName module) at_)
    | some i => match l.sections[i]? with
      | none => throw .panic
      | some s =>
        if s.cls = .zero then throw (.dzro at_)
        else
          modify (·.write at_ i s.start bytes)
          return at_

/-- Stores 0 where the image holds the address of data import `j`, a quadword the
    image activator sets.  As a fixup, it may not be in a PIC psect. -/
def dataRef (j : ℕ) : Exec Unit := do
  let at_ ← store l module (List.replicate 8 0)
  if l.isPic at_ then throw (.notPic at_)
  else modify fun r => { r with
    dataRefs := r.dataRefs ++ [(at_, j)]
    log := r.log ++ [.ref at_ j] }

def dataOf (name : Name) : Option ℕ := l.dataImports.findIdx? (·.name = name)

/-- Whether `v` fits in `bits` bits.  An address in a longword is sign-extended when
    it's loaded, and must fit signed. -/
def fits (address : Bool) (bits : ℕ) (v : BitVec 64) : Bool :=
  if address then -2 ^ 31 ≤ v.toInt ∧ v.toInt < 2 ^ 31
  else -2 ^ (bits - 1) ≤ v.toInt ∧ v.toInt < 2 ^ bits

/-- `STO_B`, `STO_W` and `STO_LW`, of `bits / 8` bytes. -/
def storeNarrow (cmd : Tir) (bits : ℕ) : Exec Unit := do
  let (v, k) ← pop l module
  let address := Obj.need cmd k = .fixup 4
  if fits address bits v then
    let at_ ← store l module (le (bits / 8) v.toNat)
    fix module at_ (bits / 8) cmd v k
  else
    throw (.trunc v (bits / 8) address ((← get).loc.map (·.toNat)))

def storeQuad (cmd : Tir) (value : Value) : Exec Unit := do
  let at_ ← store l module (le 8 value.1.toNat)
  fix module at_ 8 cmd value.1 value.2

def storeTimes (data : List (BitVec 8)) : ℕ → Exec Unit
  | 0 => return
  | n + 1 => do
    let _ ← store l module data
    storeTimes data n

/-- An ARM64 instruction that refers to the value popped. -/
def storeInsn (cmd : Tir) (kind : Obj.Kind) (insn : BitVec 32) : Exec Unit := do
  let (s, k) ← pop l module
  let p := ((← get).loc).getD 0
  let word := Obj.apply kind insn s p
  -- a fixed address can't be reached from an image that moves, however near
  let isFar := !word.isOk || l.relocatable
  if isFar && kind = .jump26 && k = some 0 then
    match l.veneer s with
    | none =>
      -- the first pass notes the address and goes on; the next has the veneer
      modify fun r => { r with far := addFar s r.far }
      let at_ ← store l module (le 4 insn.toNat)
      fix module at_ 4 cmd s k
    | some v => match Obj.apply kind insn (BitVec.ofNat 64 v) p with
      | .error e => throw (.reloc e s p.toNat)
      | .ok word =>
        let at_ ← store l module (le 4 word.toNat)
        fix module at_ 4 cmd s (some 1)
  else match word with
    | .error e => throw (.reloc e s p.toNat)
    | .ok word =>
      let at_ ← store l module (le 4 word.toNat)
      fix module at_ 4 cmd s k

/-- Operators and ARM64 stores. -/
def stepOther (cmd : Tir) : Exec Unit :=
  match Obj.operands cmd with
  | some n => do
    let stack := (← get).stack
    if stack.length < n then throw (.stack (l.moduleName module))
    else modify fun r => { r with
      stack := Obj.operate cmd (stack.take n).reverse :: stack.drop n }
  | none => match Obj.Kind.of cmd with
    | none => throw (.unsupported cmd (l.moduleName module))
    | some (kind, insn) => storeInsn l module cmd kind insn

/-- One command, when the last one pushed no data import's address. -/
def stepPlain (cmd : Tir) : Exec Unit :=
  match cmd with
  | .staGbl name => match dataOf l name with
    | some j => do
      push (0, some 0)
      modify fun r => { r with dataImport := some j }
    | none => do push (← symbol l name)
  | .stoGbl name | .stoCa name => match dataOf l name with
    | some j => dataRef l module j
    | none => do storeQuad l module cmd (← symbol l name)
  | .staLw value => push (value.signExtend 64, some 0)
  | .staQw value => push (value, some 0)
  | .staPq psect offset => match l.partBase module psect.toNat with
    | none => throw (.modulePsect (l.moduleName module) psect.toNat)
    | some base =>
      let rel := ((l.modules[module]?).bind (·.psects[psect.toNat]?)).any fun (p, _) =>
        (l.psects[p]?).any (Obj.has ·.flags Obj.psc.REL)
      push (BitVec.ofNat 64 base + offset, some (if rel then 1 else 0))
  | .stoB => storeNarrow l module cmd 8
  | .stoW => storeNarrow l module cmd 16
  | .stoLw => storeNarrow l module cmd 32
  | .stoQw | .stoOff => do storeQuad l module cmd (← pop l module)
  | .stoImmr data => do
    let (n, k) ← pop l module
    let at_ := ((← get).loc.getD 0).toNat
    storeTimes l module data n.toNat
    fix module at_ (min (n.toNat * data.length) (2 ^ 64 - 1)) cmd n k
  | .stoImm data => do let _ ← store l module data
  | .oprNop => return
  | .ctlSetrb => do
    let (v, _) ← pop l module
    modify fun r => { r with loc := some v }
  | .ctlAugrb offset => do
    match (← get).loc with
    | none => throw (.noLoc (l.moduleName module))
    | some at_ => modify fun r => { r with loc := some (at_ + offset.signExtend 64) }
  | cmd => stepOther l module cmd

/-- One command.  The address of a shareable image's data is known only once the
    image activator maps it: only a quadword may hold it. -/
def step (cmd : Tir) : Exec Unit := do
  match (← get).dataImport with
  | none => stepPlain l module cmd
  | some j =>
    modify fun r => { r with dataImport := none }
    if cmd = .stoQw ∨ cmd = .stoOff then
      let _ ← pop l module
      dataRef l module j
    else
      let imp := l.dataImports[j]?
      throw (.shrData ((imp.map (·.name)).getD [])
        ((imp.bind fun imp => (l.shared[imp.image]?).map (·.name)).getD []) (l.moduleName module))

/-- A module's commands, up to the first that fails. -/
def steps : List Tir → Exec Unit
  | [] => return
  | cmd :: cmds => do
    step l module cmd
    steps cmds

end

/-- A module's TIR commands; debugger and traceback records are ignored. -/
def Module.commands (m : Module) : List Tir :=
  m.records.flatMap fun
    | .tir cmds => cmds
    | _ => []

/-- The state a module's commands start from, with what those before it did. -/
def Run.fresh (r : Run) : Run := { r with stack := [], loc := none, dataImport := none }

/-- What runs leave: the state, the errors and the warnings. -/
structure Outcome where
  run : Run
  errors : List Msg
  warnings : List Msg

def runModule (l : Linker) (o : Outcome) (mi : Module × ℕ) : Outcome :=
  let (m, i) := mi
  let (r, errors) := match steps l i m.commands o.run.fresh with
    | .ok _ r => (r, o.errors)
    | .error e r => (r, o.errors ++ [e])
  ⟨r, errors, if r.stack.isEmpty then o.warnings else o.warnings ++ [.eomStck m.name]⟩

namespace Linker

/-- The contents the commands start from. -/
def blank (l : Linker) : Run where
  stack := []
  loc := none
  dataImport := none
  data := l.sections.map fun s => if s.cls = .zero then [] else List.replicate (s.stop - s.start) 0
  stored := []
  far := []
  dataRefs := []
  log := []

def runModules (l : Linker) : Outcome := l.modules.zipIdx.foldl (runModule l) ⟨l.blank, [], []⟩

/-- Contents and log: what the linker itself writes into. -/
abbrev Contents := List (List (BitVec 8)) × List Event

/-- `put`: the linker's own bytes at `at_`. -/
def putBytes (l : Linker) (c : Contents) (at_ : ℕ) (bytes : List (BitVec 8)) : Option Contents := do
  let i ← l.sections.findIdx? fun s => s.start ≤ at_ ∧ at_ < s.stop
  let s ← l.sections[i]?
  let d ← c.1[i]?
  let off := at_ - s.start
  if off + bytes.length ≤ d.length then
    some (c.1.set i (splice d off bytes), c.2 ++ [.store at_ bytes.length])
  else none

/-- Import `i`'s veneer: `adrp x16, slot; ldr x16, [x16, #:lo12:slot]; br x16; nop`. -/
def importVeneer (l : Linker) (p : Psect) (c : Contents) (i : ℕ) : Option Contents := do
  let at_ := p.base + VENEER * i
  let slot := BitVec.ofNat 64 (← l.slot i)
  let adrp ← (Obj.apply .adrp 0x90000010 slot (BitVec.ofNat 64 at_)).toOption
  let ldr ← (Obj.apply (.ldst 3) 0xf9400210 slot (BitVec.ofNat 64 (at_ + 4))).toOption
  l.putBytes c at_ ([adrp, ldr, 0xd61f0200, 0xd503201f].flatMap fun w => le 4 w.toNat)

/-- The veneer to a fixed address: `ldr x16, 8; br x16`, and the address. -/
def farVeneer (l : Linker) (c : Contents) (target : BitVec 64) : Option Contents := do
  let at_ ← l.veneer target
  let c ← l.putBytes c at_ (le 4 0x58000050 ++ le 4 0xd61f0200)
  l.putBytes c (at_ + 8) (le 8 target.toNat)

def putVeneers (l : Linker) (c : Contents) : Option Contents :=
  match l.veneers with
  | none => some c
  | some p => do
    let p ← l.psects[p]?
    let c ← (List.range l.imports.length).foldlM (l.importVeneer p) c
    (l.far.take l.veneered).foldlM l.farVeneer c

/-- Runs every module's TIR commands; returns each image section's contents, and
    the errors. -/
def execute (l : Linker) : Option (Linker × List (List (BitVec 8)) × List Msg) := do
  let o := l.runModules
  let l' := { l with
    warnings := l.warnings ++ o.warnings
    stored := o.run.stored
    dataRefs := o.run.dataRefs }
  let (data, log) ← l'.putVeneers (o.run.data, o.run.log)
  some ({ l' with far := o.run.far.foldl (fun far t => addFar t far) l.far, log }, data, o.errors)

/-- Fills in one entry of the symbol vector: its address, a fixup. -/
def writeEntry (base module : ℕ) (ld : Linker × List (List (BitVec 8))) (ni : Name × ℕ) :
    Option (Linker × List (List (BitVec 8))) := do
  let (l, data) := ld
  let at_ := base + 8 * ni.2
  let value ← l.value ni.1
  let (data, log) ← l.putBytes (data, l.log) at_ (le 8 value.toNat)
  some ({ l with stored := SortedMap.insert at_ ⟨8, module, value, none⟩ l.stored, log }, data)

def writeVector (l : Linker) (names : List (Name × Bool)) (data : List (List (BitVec 8))) :
    Option (Linker × List (List (BitVec 8))) := do
  let p ← l.psects[← l.vector]?
  let module ← l.module nameSYMVECT
  (names.map (·.1)).zipIdx.foldlM (writeEntry p.base module) (l, data)

/-! ## The image -/

def start (l : Linker) : ℕ := (l.sections.head?.map (·.start)).getD 0

/-- The fixups of shareable image `i`: the slots of its procedures the image calls,
    then the quadwords that hold its data's addresses. -/
def slotQuads (l : Linker) (i : ℕ) : Option (List (BitVec 32 × BitVec 32)) :=
  (l.imports.zipIdx.filter (·.1.image = i)).mapM fun (imp, j) => do
    let at_ ← l.slot j
    some (BitVec.ofNat 32 (at_ - l.start), BitVec.ofNat 32 (8 * imp.entry))

def dataQuads (l : Linker) (i : ℕ) : List (BitVec 32 × BitVec 32) :=
  l.dataRefs.filterMap fun (at_, j) => match l.dataImports[j]? with
    | some imp => if imp.image = i then
        some (BitVec.ofNat 32 (at_ - l.start), BitVec.ofNat 32 (8 * imp.entry))
      else none
    | none => none

/-- The fixup section's shareable image list. -/
def shlList (l : Linker) : Option (List Obj.ShlRef) := do
  let all ← l.shared.zipIdx.mapM fun (s, i) => do
    some (⟨s.name, (← l.slotQuads i) ++ l.dataQuads i⟩ : Obj.ShlRef)
  some (all.filter (!·.quad.isEmpty))

/-- What keeps the image from moving: NOTPIC for a fixup in a PIC psect, NORELOC for
    what nothing can fix, each once. -/
def problems (l : Linker) : List Msg :=
  (l.stored.filterMap fun (at_, s) => match s.stuck with
    | some why => some (.noReloc why)
    | none => if l.isPic at_ then some (.notPic at_) else none).eraseDups

def isNotPic : Msg → Bool
  | .notPic _ => true
  | _ => false

/-- An entry's offset from the start of the image. -/
def offset (l : Linker) (x : ℕ × Stored) : BitVec 32 := BitVec.ofNat 32 (x.1 - l.start)

/-- The fixups for the image's fixup section. -/
def fixupList (l : Linker) : Except Msg Obj.Fixups := do
  let addresses := l.stored.filter (·.2.stuck.isNone)
  match addresses.find? fun (at_, _) => 2 ^ 32 ≤ at_ - l.start with
  | some (at_, _) => .error (.tooFar at_)
  | none =>
    let quads := addresses.filter (·.2.size = 8)
    let longs := addresses.filter (·.2.size ≠ 8)
    let values := longs.map fun x => (x.2.value.setWidth 32).toInt
    .ok ⟨quads.map l.offset, longs.map l.offset, BitVec.ofInt 32 (values.min?.getD 0),
      BitVec.ofInt 32 (values.max?.getD 0)⟩

end Linker

/-! ## `link` -/

structure Linked where
  image : Obj.Image
  /-- The linker, which the map is printed from. -/
  linker : Linker

def one {α : Type} (x : Except Msg α) : Except (List Msg) α := x.mapError ([·])

def unwrap {α : Type} : Option α → Except (List Msg) α
  | some a => .ok a
  | none => .error [.panic]

def collect (inputs : List (Name × Input)) (opts : Options) : Except (List Msg) Linker := do
  let l ← inputs.foldlM (fun (l : Linker) (x : Name × Input) => one (l.input x.1 x.2)) Linker.new
  let l ← ({ l with relocatable := opts.relocatable || opts.shareable.isSome } : Linker).resolve
  let l ← if l.imports.isEmpty then .ok l else one l.addVeneers
  match opts.shareable with
  | some names => l.addVector names
  | none => .ok l

/-- Layout, then the commands. -/
def pass (base : ℕ) (l : Linker) : Except (List Msg) (Linker × List (List (BitVec 8)) × List Msg) := do
  let l ← one (l.layout base)
  unwrap l.execute

/-- A B or BL that can't reach a fixed address goes through a veneer: then
    everything again.  None when that goes on for more than `fuel` passes. -/
def passes (base : ℕ) : ℕ → Linker →
    Option (Except (List Msg) (Linker × List (List (BitVec 8)) × List Msg))
  | 0, _ => none
  | fuel + 1, l => match pass base l with
    | .error e => some (.error e)
    | .ok (l, data, errors) =>
      if l.veneered < l.far.length then
        match l.addVeneers with
        | .error e => some (.error [e])
        | .ok l => passes base fuel l
      else some (.ok (l, data, errors))

/-- The image's transfer address, and the warning if it has none. -/
def transfer (opts : Options) (l : Linker) : Except (List Msg) (BitVec 64 × List Msg) :=
  match opts.transfer with
  | some name => match l.value name with
    | some v => .ok (v, [])
    | none => .error [.noTfr name]
  | none => match l.modules.zipIdx.findSome? fun (m, i) => m.transfer.map (i, ·) with
    | some (m, psect, offset) => match l.partBase m psect with
      | some b => .ok (BitVec.ofNat 64 b + offset, [])
      | none => .error [.modulePsect (l.moduleName m) psect]
    | none => .ok (0, if opts.shareable.isSome then [] else [.usrTfr])

/-- The contents with the symbol vector, if the image is shareable. -/
def withVector (opts : Options) (l : Linker) (data : List (List (BitVec 8))) :
    Except (List Msg) (Linker × List (List (BitVec 8))) :=
  match opts.shareable with
  | some names => unwrap (l.writeVector names data)
  | none => .ok (l, data)

/-- The image's symbol vector, if it is shareable. -/
def vectorOf (opts : Options) (l : Linker) : Option (Option Obj.SymbolVector) :=
  match opts.shareable with
  | none => some none
  | some names => do
    let p ← l.psects[← l.vector]?
    let entries ← names.mapM fun (n, data) => do some (n, ← l.value n, data)
    some (some ⟨BitVec.ofNat 64 p.base, entries⟩)

/-- The image's fixups, if it may move. -/
def fixupsOf (opts : Options) (l : Linker) : Except (List Msg) (Option Obj.Fixups) :=
  if opts.relocatable || opts.shareable.isSome then one (l.fixupList.map some) else .ok none

/-- The image sections, with their contents. -/
def Linker.imageSections (l : Linker) (data : List (List (BitVec 8))) : List Obj.Section :=
  (l.sections.zip data).map fun (s, data) =>
    ⟨BitVec.ofNat 64 s.start, BitVec.ofNat 32 (s.stop - s.start), s.cls.flags, data⟩

/-- The image's ident: that of the first module with a transfer address, or else of
    the first module. -/
def Linker.ident (l : Linker) : Name :=
  (((l.modules.find? (·.transfer.isSome)).or l.modules.head?).map (·.version.take 15)).getD []

/-- The errors of what can't move, if the image must. -/
def errorsOf (opts : Options) (l : Linker) (errors : List Msg) : List Msg :=
  if opts.relocatable || opts.shareable.isSome then errors ++ l.problems else errors

def image (opts : Options) (l : Linker) (data : List (List (BitVec 8))) :
    Except (List Msg) Linked := do
  let fixups ← fixupsOf opts l
  let (transfer, noTransfer) ← transfer opts l
  let vector ← unwrap (vectorOf opts l)
  let shareables ← unwrap l.shlList
  -- a fixup in a PIC psect is worth a warning even if the image need not move
  let notPic := if opts.relocatable || opts.shareable.isSome then []
    else l.problems.filter Linker.isNotPic
  let counts := (fixups.map fun f => [Msg.fixups f.quad.length f.long.length]).getD []
  .ok ⟨⟨opts.name.take 39, l.ident, opts.linkTime, transfer, l.imageSections data, fixups,
      shareables, vector⟩,
    { l with warnings := l.warnings ++ notPic ++ counts ++ noTransfer }⟩

/-- From the contents to the image. -/
def finish (opts : Options) (l : Linker) (data : List (List (BitVec 8))) (errors : List Msg) :
    Except (List Msg) Linked := do
  let (l, data) ← withVector opts l data
  let errors := errorsOf opts l errors
  if errors.isEmpty then image opts l data else .error errors

/-- Links the inputs, in order.  None when it takes more than `fuel` passes. -/
def link (fuel : ℕ) (inputs : List (Name × Input)) (opts : Options) :
    Option (Except (List Msg) Linked) :=
  match collect inputs opts with
  | .error e => some (.error e)
  | .ok l => (passes opts.base fuel l).map fun r => do
    let (l, data, errors) ← r
    finish opts l data errors

end Link
