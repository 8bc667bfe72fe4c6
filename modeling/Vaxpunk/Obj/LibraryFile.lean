/-
  Library files (`vms-obj/src/olb.rs`): a header block, index B-trees of module
  names and global symbols, then each module's records in a chain of data blocks.
  Macro, help and text libraries are the same with one index, of module names, and
  lines of text for records.

  `write` is `none` where the source panics.  Blocks and offsets are numbers cut to
  their fields' sizes where the source casts them.
-/
import Vaxpunk.Lib.Utf8
import Vaxpunk.Obj.File

namespace Olb

open Codec Obj

def BLOCK : ℕ := 512

/-- `LHD$B_TYPE` of a library of EOBJ object modules. -/
def TYP_EOBJ : BitVec 8 := 7
/-- `LHD$L_SANEID` of library format 3. -/
def SANEID3 : BitVec 32 := 233579905
def MAJORID : BitVec 16 := 3
/-- The longest key: module or symbol name. -/
def MAX_KEY : ℕ := 128
/-- Index descriptor flags: ASCII keys of variable length, stored and compared as
    they are. -/
def IDD_FLAGS : BitVec 16 := 1 ||| 4 ||| 8 ||| 16
/-- Where the entries of an index block start, and how many bytes they may take. -/
def INDEX_KEYS : ℕ := 12
def INDEX_SPACE : ℕ := 500
/-- The RFA offset of an index entry that points at another index block. -/
def RFA_INDEX : BitVec 16 := 0xffff
/-- Where the data of a data block starts. -/
def DATA_DATA : ℕ := 6
def MHD_ID : BitVec 8 := 0xad
/-- The record that ends a module's data. -/
def EOT : List Byte := [0x77, 0, 0x77]
/-- Index B-trees deeper than this are rejected. -/
def MAX_DEPTH : ℕ := 32

/-- The bytes, with zeros up to a multiple of `n`. -/
def padTo (n : ℕ) (b : List Byte) : List Byte := b ++ List.replicate ((b.length + n - 1) / n * n - b.length) 0

/-! ## Counted strings in fields -/

def ascicOk (n : ℕ) (s : Name) : Bool := s.length < n && isAscii s

/-- A counted string in an `n`-byte field. -/
def ascic (n : ℕ) (s : Name) : Bytes n :=
  ⟨((put (BitVec.ofNat 8 s.length) ++ s) ++ List.replicate n 0).take n, by
    rw [List.length_take, List.length_append, List.length_replicate]; omega⟩

def fromAscic {n : ℕ} (b : Bytes n) : Name :=
  Utf8.lossy ((b.val.drop 1).take (min (b.val.headD 0).toNat (n - 1)))

/-! ## Headers -/

/-- Library header (`LHD$`), at the start of block 1. -/
structure Lhd where
  kind : BitVec 8
  /-- Number of indexes. -/
  nindex : BitVec 8
  fill1 : Bytes 2 := Bytes.zero 2
  sanity : BitVec 32 := SANEID3
  majorid : BitVec 16 := MAJORID
  minorid : BitVec 16 := 0
  /-- The librarian that created the library, a counted string. -/
  lbrver : Bytes 32
  credat : BitVec 64
  updtim : BitVec 64
  /-- Size of a module header past its first 16 bytes. -/
  mhdusz : BitVec 8
  fill2 : Bytes 15 := Bytes.zero 15
  /-- The first free block, as an RFA and as a block number. -/
  nextrfaVbn : BitVec 32
  nextrfaOffset : BitVec 16 := 0
  nextvbn : BitVec 32
  fill3 : Bytes 8 := Bytes.zero 8
  /-- The last index block, preallocated and used. -/
  hipreal : BitVec 32
  hiprusd : BitVec 32
  idxblks : BitVec 32
  /-- Index entries. -/
  idxcnt : BitVec 32
  modcnt : BitVec 32
  fill4 : Bytes 2 := Bytes.zero 2
  modhdrs : BitVec 32
  fill5 : Bytes 76 := Bytes.zero 76
  deriving DecidableEq

def Lhd.SIZE : ℕ := 196

def Lhd.read : Reader Error Lhd := do
  let kind ← u8
  let nindex ← u8
  let fill1 ← array 2
  let sanity ← u32
  let majorid ← u16
  let minorid ← u16
  let lbrver ← array 32
  let credat ← u64
  let updtim ← u64
  let mhdusz ← u8
  let fill2 ← array 15
  let nextrfaVbn ← u32
  let nextrfaOffset ← u16
  let nextvbn ← u32
  let fill3 ← array 8
  let hipreal ← u32
  let hiprusd ← u32
  let idxblks ← u32
  let idxcnt ← u32
  let modcnt ← u32
  let fill4 ← array 2
  let modhdrs ← u32
  let fill5 ← array 76
  pure ⟨kind, nindex, fill1, sanity, majorid, minorid, lbrver, credat, updtim, mhdusz, fill2,
    nextrfaVbn, nextrfaOffset, nextvbn, fill3, hipreal, hiprusd, idxblks, idxcnt, modcnt, fill4,
    modhdrs, fill5⟩

def Lhd.bytes (h : Lhd) : List Byte :=
  put h.kind ++ (put h.nindex ++ (h.fill1.val ++ (put h.sanity ++ (put h.majorid ++ (put h.minorid ++
    (h.lbrver.val ++ (put h.credat ++ (put h.updtim ++ (put h.mhdusz ++ (h.fill2.val ++
      (put h.nextrfaVbn ++ (put h.nextrfaOffset ++ (put h.nextvbn ++ (h.fill3.val ++ (put h.hipreal ++
        (put h.hiprusd ++ (put h.idxblks ++ (put h.idxcnt ++ (put h.modcnt ++ (h.fill4.val ++
          (put h.modhdrs ++ h.fill5.val)))))))))))))))))))))

/-- Index descriptor (`IDD$`), one per index after the library header. -/
structure Idd where
  flags : BitVec 16
  /-- The longest key allowed. -/
  keylen : BitVec 16
  /-- The root block of the index, 0 if it is empty. -/
  vbn : BitVec 32
  deriving DecidableEq, Repr

def Idd.read : Reader Error Idd := do
  let flags ← u16
  let keylen ← u16
  let vbn ← u32
  pure { flags, keylen, vbn }

def Idd.bytes (d : Idd) : List Byte := put d.flags ++ (put d.keylen ++ put d.vbn)

/-- Module header (`MHD$`), the first record of a module's data. -/
structure Mhd where
  lbrflag : BitVec 8 := 0
  id : BitVec 8 := MHD_ID
  fill1 : Bytes 2 := Bytes.zero 2
  /-- Index entries that point at the module: its name and its symbols. -/
  refcnt : BitVec 32
  /-- When the module was inserted. -/
  datim : BitVec 64
  objstat : BitVec 8 := 0
  /-- The module's ident, a counted string. -/
  objid : Bytes 32
  deriving DecidableEq

def Mhd.SIZE : ℕ := 49

def Mhd.read : Reader Error Mhd := do
  let lbrflag ← u8
  let id ← u8
  let fill1 ← array 2
  let refcnt ← u32
  let datim ← u64
  let objstat ← u8
  let objid ← array 32
  pure { lbrflag, id, fill1, refcnt, datim, objstat, objid }

def Mhd.bytes (h : Mhd) : List Byte :=
  put h.lbrflag ++ (put h.id ++ (h.fill1.val ++ (put h.refcnt ++ (put h.datim ++ (put h.objstat ++
    h.objid.val)))))

/-! ## Building an index -/

/-- Where a module's data starts: block number and offset in the block. -/
abbrev Rfa := BitVec 32 × BitVec 16

/-- An entry of an index block; `child` is the node it points at, if it does. -/
structure Entry where
  rfa : Rfa
  key : Name
  child : Option ℕ
  deriving DecidableEq

namespace Entry

def bytes (e : Entry) : List Byte := put e.rfa.1 ++ (put e.rfa.2 ++ putName e.key)

def size (e : Entry) : ℕ := 7 + e.key.length

end Entry

/-- An index block being built. -/
structure Node where
  entries : List Byte
  parent : BitVec 32
  last : Name
  deriving DecidableEq

/-- An index block: a used byte count, the parent's block number, six bytes of
    fill, then the entries. -/
def Node.bytes (n : Node) : List Byte :=
  padTo BLOCK (put (BitVec.ofNat 16 n.entries.length) ++ (put n.parent ++
    (List.replicate (INDEX_KEYS - 6) 0 ++ n.entries)))

/-- One entry put into the last node of the level that begins at `start`, or into a
    new one. -/
def addEntry (first start : ℕ) (nodes : List Node) (e : Entry) : List Node :=
  let nodes :=
    if nodes.length = start ∨ (nodes.getLast?.map (·.entries.length)).getD 0 + e.size > INDEX_SPACE then
      nodes ++ [⟨[], 0, e.key⟩]
    else nodes
  let at_ := nodes.length - 1
  let nodes := nodes.modify at_ fun n => { n with entries := n.entries ++ e.bytes, last := e.key }
  match e.child with
  | some c => nodes.modify c fun n => { n with parent := BitVec.ofNat 32 (first + at_) }
  | none => nodes

/-- The entries of the level above the nodes from `start` on. -/
def levelAbove (first start : ℕ) (nodes : List Node) : List Entry :=
  (List.range' start (nodes.length - start)).map fun i =>
    ⟨(BitVec.ofNat 32 (first + i), RFA_INDEX), (nodes[i]?.map Node.last).getD [], some i⟩

/-- Levels are built, each over the one before, until one has a single node.
    There are fewer nodes in each, which bounds their number. -/
def buildLevels (first : ℕ) : ℕ → List Node → List Entry → List Node
  | 0, nodes, _ => nodes
  | fuel + 1, nodes, level =>
    let start := nodes.length
    let nodes := level.foldl (addEntry first start) nodes
    if nodes.length - start = 1 then nodes else buildLevels first fuel nodes (levelAbove first start nodes)

/-- Builds the B-tree index of `keys`, sorted, each naming a module in `rfas`, in
    blocks numbered from `first`.  Leaves point at modules; each block above has an
    entry per block below, keyed by that block's last key.  Returns the blocks and
    the root's number, 0 if there are no keys. -/
def index (keys : List (Name × ℕ)) (rfas : List Rfa) (first : ℕ) : List Byte × BitVec 32 :=
  if keys = [] then ([], 0)
  else
    let nodes := buildLevels first keys.length []
      (keys.map fun k => ⟨rfas.getD k.2 (0, 0), k.1, none⟩)
    (nodes.flatMap Node.bytes, BitVec.ofNat 32 (first + nodes.length - 1))

/-- What `index` asserts of a key. -/
def keyOk (key : Name) : Bool := key.length ≤ MAX_KEY && isAscii key

/-! ## Writing data blocks -/

/-- A record in a module's data: a length word, the bytes, and a pad byte if the
    length is odd. -/
def recordBytes (b : List Byte) : List Byte := padTo 2 (put (BitVec.ofNat 16 b.length) ++ b)

/-- Where each of some strings starts when they stand one after the other. -/
def startsFrom (at_ : ℕ) : List (List Byte) → List ℕ
  | [] => []
  | b :: bs => at_ :: startsFrom (at_ + b.length) bs

/-- A module's data blocks, the first being block `vbn`: its header, the first
    `mhdSize` bytes of `mhd`, the records, then the end marker. -/
def writeData (mhd : Mhd) (mhdSize : ℕ) (records : List (List Byte)) (vbn : ℕ) : List Byte :=
  let pieces := (mhd.bytes.take mhdSize :: records ++ [EOT]).map recordBytes
  let stream := pieces.flatten
  let starts := startsFrom 0 pieces
  let chunk := BLOCK - DATA_DATA
  let blocks := (stream.length + chunk - 1) / chunk
  (List.range blocks).flatMap fun i =>
    let recs := (starts.filter fun s => i * chunk ≤ s ∧ s < (i + 1) * chunk).length
    let link := if i + 1 < blocks then vbn + i + 1 else 0
    padTo BLOCK ([BitVec.ofNat 8 recs, 0] ++ (put (BitVec.ofNat 32 link) ++
      (stream.drop (i * chunk)).take chunk))

/-- A module header: `refcnt` index entries point at it. -/
def header (refcnt : BitVec 32) (datim : BitVec 64) (ident : Name) : Mhd :=
  { refcnt, datim, objid := ascic 32 ident }

/-! ## Reading blocks and indexes -/

/-- Block `vbn` of a file; blocks are numbered from 1. -/
def block (file : List Byte) (vbn : BitVec 32) : Except Error (List Byte) :=
  if vbn = 0 then .error (.invalid "block number")
  else
    let start := (vbn.toNat - 1) * BLOCK
    if start + BLOCK ≤ file.length then .ok ((file.drop start).take BLOCK) else .error .truncated

/-- The next entry of an index block: where it points and its key. -/
def readEntry : Reader Error (Rfa × Name) := do
  let vbn ← u32
  let offset ← u16
  let n ← u8
  let key ← take .truncated n.toNat
  pure ((vbn, offset), key)

/-- The index blocks read so far, and the keys found with where they point. -/
abbrev Found := List (BitVec 32) × List (Name × Rfa)

/-- The entries of an index block, `down` walking the blocks below. -/
def walkEntries (down : BitVec 32 → Found → Except Error Found) : ℕ → List Byte → Found →
    Except Error Found
  | 0, _, found => .ok found
  | _ + 1, [], found => .ok found
  | fuel + 1, b :: bs, found =>
    match readEntry.run (b :: bs) with
    | .error e => .error e
    | .ok ((rfa, key), bs) =>
      if rfa.2 = RFA_INDEX then do
        let found ← down rfa.1 found
        walkEntries down fuel bs found
      else if isAscii key then walkEntries down fuel bs (found.1, found.2 ++ [(key, rfa)])
      else .error (.invalid "index key")

/-- `walk`, with `left` levels left before the index is too deep. -/
def walk (file : List Byte) : ℕ → BitVec 32 → Found → Except Error Found
  | 0, _, _ => .error (.invalid "index")
  | left + 1, vbn, (seen, out) =>
    if vbn ∈ seen then .error (.invalid "index")
    else do
      let b ← block file vbn
      let used := Words.ofLe (b.take 2)
      if used > INDEX_SPACE then .error (.invalid "index block")
      else walkEntries (walk file left) used ((b.drop INDEX_KEYS).take used) (vbn :: seen, out)

/-- The keys of the index rooted at block `vbn`, with the RFAs they point at.
    `seen` holds the index blocks read so far: each may be read once. -/
def entries (file : List Byte) (vbn : BitVec 32) (seen : List (BitVec 32)) : Except Error Found :=
  if vbn = 0 then .ok (seen, []) else walk file (MAX_DEPTH + 1) vbn (seen, [])

/-! ## Reading data blocks -/

/-- A place in a chain of data blocks. -/
structure Data where
  block : List Byte
  at_ : ℕ
  hops : ℕ
  deriving DecidableEq

namespace Data

/-- The next `n` bytes, following the chain; each turn takes a byte at least. -/
def take (file : List Byte) : ℕ → Data → ℕ → List Byte → Except Error (Data × List Byte)
  | 0, d, _, out => .ok (d, out)
  | fuel + 1, d, n, out =>
    if n = 0 then .ok (d, out)
    else do
      let d ← if d.at_ = BLOCK then do
          let link := BitVec.ofNat 32 (Words.ofLe (Words.slice d.block 2 4))
          let hops := d.hops + 1
          if link = 0 ∨ hops > file.length / BLOCK then .error (.invalid "data block chain")
          else do
            let b ← Olb.block file link
            pure ⟨b, DATA_DATA, hops⟩
        else pure d
      let k := min n (BLOCK - d.at_)
      take file fuel { d with at_ := d.at_ + k } (n - k) (out ++ Words.slice d.block d.at_ k)

/-- The next record's bytes, without the length word and pad byte. -/
def record (file : List Byte) (d : Data) : Except Error (Data × List Byte) := do
  let (d, len) ← take file 2 d 2 []
  let n := Words.ofLe len
  let even := (n + 1) / 2 * 2
  let (d, record) ← take file even d even []
  pure (d, record.take n)

/-- The records up to the end marker, `fuel` of them at most. -/
def records (file : List Byte) : ℕ → Data → Except Error (List (List Byte))
  | 0, _ => .error (.invalid "data block chain")
  | fuel + 1, d => do
    let (d, r) ← record file d
    if r = EOT then pure [] else do return r :: (← records file fuel d)

end Data

/-- A module's header and records, from its data starting at `rfa`; the header is
    `size` bytes.  A record takes two bytes at least, so a file has fewer records
    than bytes. -/
def moduleRecords (file : List Byte) (rfa : Rfa) (size : ℕ) : Except Error (Mhd × List (List Byte)) :=
  if rfa.2.toNat < DATA_DATA ∨ BLOCK ≤ rfa.2.toNat then .error (.invalid "module address")
  else do
    let b ← block file rfa.1
    let (d, h) ← Data.record file ⟨b, rfa.2.toNat, 0⟩
    if h.length ≠ size ∨ size < 16 then .error (.invalid "module header size")
    else do
      let mhd ← value Mhd.read (h ++ List.replicate (Mhd.SIZE - h.length) 0)
      if mhd.id ≠ MHD_ID then .error (.invalid "module header")
      else return (mhd, ← Data.records file file.length d)

/-! ## Object libraries -/

structure Module where
  name : Name
  /-- Up to 31 characters. -/
  ident : Name
  /-- Insertion time, in VMS format. -/
  inserted : BitVec 64
  /-- The global symbols the library's symbol index gives to this module. -/
  symbols : List Name
  /-- The module's records, as in an object file. -/
  object : List Byte
  deriving DecidableEq

structure Library where
  /-- The librarian that created it, up to 31 characters. -/
  creator : Name
  /-- Creation and last update times, in VMS format. -/
  created : BitVec 64
  updated : BitVec 64
  modules : List Module
  deriving DecidableEq

/-- The records of an object, `fuel` of them at most; none if it is not a sequence
    of records. -/
def splitObject : ℕ → List Byte → Option (List (List Byte))
  | _, [] => some []
  | 0, _ :: _ => none
  | fuel + 1, b :: bs =>
    let size := if 4 ≤ (b :: bs).length then Words.ofLe (Words.slice (b :: bs) 2 2) else 0
    if 4 ≤ size ∧ size ≤ (b :: bs).length then
      (splitObject fuel ((b :: bs).drop size)).map ((b :: bs).take size :: ·)
    else none

/-- The records of an object; each takes a byte at least. -/
def objectRecords (object : List Byte) : Option (List (List Byte)) := splitObject object.length object

def Module.writeData (m : Module) (vbn : ℕ) : List Byte :=
  Olb.writeData (header (BitVec.ofNat 32 (1 + m.symbols.length)) m.inserted m.ident) Mhd.SIZE
    ((objectRecords m.object).getD []) vbn

/-- Some modules' data, one after the other from block `vbn` on, and where each
    starts. -/
def layOut {α : Type} (write : α → ℕ → List Byte) : ℕ → List α → List Rfa × List Byte
  | _, [] => ([], [])
  | vbn, m :: ms =>
    let data := write m vbn
    let (rfas, rest) := layOut write (vbn + data.length / BLOCK) ms
    ((BitVec.ofNat 32 vbn, BitVec.ofNat 16 DATA_DATA) :: rfas, data ++ rest)

/-- Whether a list has the same thing twice, one right after the other. -/
def hasTwice (keys : List Name) : Bool := (keys.zip keys.tail).any fun (a, b) => a = b

/-- The order of symbols in the index: by name, then by module. -/
def symbolLe (a b : Name × ℕ) : Prop := a.1 < b.1 ∨ a.1 = b.1 ∧ a.2 ≤ b.2

instance : DecidableRel symbolLe := fun _ _ => inferInstanceAs (Decidable (_ ∨ _))

/-- The names of modules with the modules' places. -/
def nameKeys (names : List Name) : List (Name × ℕ) := names.zipIdx

namespace Library

def sortedModules (lib : Library) : List Module := lib.modules.insertionSort fun a b => a.name ≤ b.name

/-- The symbols of modules with the modules' places, sorted. -/
def symbolKeys (modules : List Module) : List (Name × ℕ) :=
  (modules.zipIdx.flatMap fun (m, i) => m.symbols.map (·, i)).insertionSort symbolLe

def asserts (lib : Library) : Bool :=
  !hasTwice (lib.sortedModules.map Module.name) &&
  !hasTwice ((symbolKeys lib.sortedModules).map Prod.fst) &&
  ascicOk 32 lib.creator &&
  lib.modules.all fun m => keyOk m.name && m.symbols.all keyOk && ascicOk 32 m.ident &&
    (objectRecords m.object).isSome

def bytes (lib : Library) : List Byte :=
  let modules := lib.sortedModules
  let names := nameKeys (modules.map Module.name)
  let symbols := symbolKeys modules
  let nowhere := List.replicate modules.length (0, 0)
  let nameBlocks := (index names nowhere 0).1.length / BLOCK
  let symbolBlocks := (index symbols nowhere 0).1.length / BLOCK
  let firstData := 2 + nameBlocks + symbolBlocks
  let (rfas, data) := layOut Module.writeData firstData modules
  let (nameIndex, nameRoot) := index names rfas 2
  let (symbolIndex, symbolRoot) := index symbols rfas (2 + nameBlocks)
  let next := BitVec.ofNat 32 (firstData + data.length / BLOCK)
  let lhd : Lhd := {
    kind := TYP_EOBJ
    nindex := 2
    lbrver := ascic 32 lib.creator
    credat := lib.created
    updtim := lib.updated
    mhdusz := BitVec.ofNat 8 (Mhd.SIZE - 16)
    nextrfaVbn := next
    nextvbn := next
    hipreal := BitVec.ofNat 32 (firstData - 1)
    hiprusd := BitVec.ofNat 32 (firstData - 1)
    idxblks := BitVec.ofNat 32 (nameBlocks + symbolBlocks)
    idxcnt := BitVec.ofNat 32 (names.length + symbols.length)
    modcnt := BitVec.ofNat 32 modules.length
    modhdrs := BitVec.ofNat 32 modules.length }
  let idd (vbn : BitVec 32) : Idd := ⟨IDD_FLAGS, BitVec.ofNat 16 MAX_KEY, vbn⟩
  padTo BLOCK (lhd.bytes ++ ((idd nameRoot).bytes ++ (idd symbolRoot).bytes)) ++
    (nameIndex ++ (symbolIndex ++ data))

/-- Serializes the library, with the modules in name order. -/
def write (lib : Library) : Option (List Byte) := if lib.asserts then some lib.bytes else none

/-- The modules that an index names; `seen` are the RFAs so far. -/
def readModules (file : List Byte) : List Rfa → List (Name × Rfa) → Except Error (List Module)
  | _, [] => .ok []
  | seen, (name, rfa) :: names =>
    if rfa ∈ seen then .error (.invalid "module index")
    else do
      let (mhd, records) ← moduleRecords file rfa Mhd.SIZE
      let m : Module := ⟨name, fromAscic mhd.objid, mhd.datim, [], records.flatten⟩
      return m :: (← readModules file (rfa :: seen) names)

/-- The symbols given to the modules, which start at `rfas`. -/
def giveSymbols (rfas : List Rfa) : List Module → List (Name × Rfa) → Except Error (List Module)
  | modules, [] => .ok modules
  | modules, (name, rfa) :: symbols =>
    match rfas.findIdx? (· == rfa) with
    | none => .error (.invalid "symbol index")
    | some i => giveSymbols rfas (modules.modify i fun m => { m with symbols := m.symbols ++ [name] }) symbols

/-- Parses an object library.  Modules come in name order, and their symbols too.
    The modules' records are not checked. -/
def parse (file : List Byte) : Except Error Library := do
  let lhd ← value Lhd.read file
  if lhd.kind ≠ TYP_EOBJ ∨ lhd.nindex ≠ 2 ∨ lhd.sanity ≠ SANEID3 then .error (.invalid "library type")
  else if lhd.majorid ≠ MAJORID then .error (.invalid "library format")
  else if lhd.mhdusz.toNat + 16 ≠ Mhd.SIZE then .error (.invalid "module header size")
  else do
    let (names, symbols) ← value (do return (← Idd.read, ← Idd.read)) (file.drop Lhd.SIZE)
    let (seen, names) ← entries file names.vbn []
    let (_, symbols) ← entries file symbols.vbn seen
    let modules ← readModules file [] names
    let modules ← giveSymbols (names.map Prod.snd) modules symbols
    return { creator := fromAscic lhd.lbrver, created := lhd.credat, updated := lhd.updtim, modules }

end Library

/-! ## Text libraries -/

/-- What a text library holds (`LHD$B_TYPE`). -/
inductive TextKind where
  | macro_
  | help
  | text
  deriving DecidableEq, Repr

namespace TextKind

/-- `LBR$C_TYP_MLB`, `HLP` and `TXT`. -/
def lbrType : TextKind → BitVec 8
  | macro_ => 2
  | help => 3
  | text => 4

/-- The longest module name: `LIBRARY`'s default key size. -/
def maxKey : TextKind → ℕ
  | macro_ | help => 31
  | text => 39

/-- The index descriptor's flags and key length. -/
def idd : TextKind → BitVec 16 × BitVec 16
  | help => (1 ||| 4 ||| 6 <<< 3, 31)
  | k => (1 ||| 4, BitVec.ofNat 16 (k.maxKey + 1))

/-- `LHD$B_MHDUSZ`: module headers past their first 16 bytes. -/
def mhdusz : TextKind → ℕ
  | help => Mhd.SIZE - 16
  | _ => 0

def fromLbrType (t : BitVec 8) : Option TextKind := [macro_, help, text].find? (·.lbrType = t)

end TextKind

/-- A line of text: a string, so UTF-8. -/
structure Line where
  bytes : List Byte
  utf8 : Utf8.valid bytes = true
  deriving DecidableEq

structure TextModule where
  /-- Its key, in capitals. -/
  name : Name
  /-- Insertion time, in VMS format. -/
  inserted : BitVec 64
  /-- Its lines, each at most 255 bytes. -/
  lines : List Line
  deriving DecidableEq

/-- A library of text modules: macros, help topics or text. -/
structure TextLibrary where
  kind : TextKind
  /-- The librarian that created it, up to 31 characters. -/
  creator : Name
  /-- Creation and last update times, in VMS format. -/
  created : BitVec 64
  updated : BitVec 64
  modules : List TextModule
  deriving DecidableEq

def isUpper (s : Name) : Bool := s.all fun c => ¬(0x61 ≤ c ∧ c ≤ 0x7a)

namespace TextLibrary

def sortedModules (lib : TextLibrary) : List TextModule :=
  lib.modules.insertionSort fun a b => a.name ≤ b.name

def asserts (lib : TextLibrary) : Bool :=
  !hasTwice (lib.sortedModules.map TextModule.name) && ascicOk 32 lib.creator &&
  lib.modules.all fun m => m.name.length ≤ lib.kind.maxKey && isUpper m.name && keyOk m.name &&
    m.lines.all (·.bytes.length ≤ 255)

def moduleData (kind : TextKind) (m : TextModule) (vbn : ℕ) : List Byte :=
  writeData (header 1 m.inserted []) (16 + kind.mhdusz) (m.lines.map Line.bytes) vbn

def bytes (lib : TextLibrary) : List Byte :=
  let modules := lib.sortedModules
  let names := nameKeys (modules.map TextModule.name)
  let nowhere := List.replicate modules.length (0, 0)
  let nameBlocks := (index names nowhere 0).1.length / BLOCK
  let firstData := 2 + nameBlocks
  let (rfas, data) := layOut (moduleData lib.kind) firstData modules
  let (nameIndex, root) := index names rfas 2
  let next := BitVec.ofNat 32 (firstData + data.length / BLOCK)
  let lhd : Lhd := {
    kind := lib.kind.lbrType
    nindex := 1
    lbrver := ascic 32 lib.creator
    credat := lib.created
    updtim := lib.updated
    mhdusz := BitVec.ofNat 8 lib.kind.mhdusz
    nextrfaVbn := next
    nextvbn := next
    hipreal := BitVec.ofNat 32 (firstData - 1)
    hiprusd := BitVec.ofNat 32 (firstData - 1)
    idxblks := BitVec.ofNat 32 nameBlocks
    idxcnt := BitVec.ofNat 32 names.length
    modcnt := BitVec.ofNat 32 modules.length
    modhdrs := BitVec.ofNat 32 modules.length }
  let idd : Idd := ⟨lib.kind.idd.1, lib.kind.idd.2, root⟩
  padTo BLOCK (lhd.bytes ++ idd.bytes) ++ (nameIndex ++ data)

/-- Serializes the library, with the modules in name order. -/
def write (lib : TextLibrary) : Option (List Byte) := if lib.asserts then some lib.bytes else none

/-- The lines that a module's records are; each must be UTF-8. -/
def readLines : List (List Byte) → Except Error (List Line)
  | [] => .ok []
  | r :: rs =>
    if h : Utf8.valid r = true then (readLines rs).map (⟨r, h⟩ :: ·)
    else .error (.invalid "library text")

/-- The modules that an index names. -/
def readModules (file : List Byte) (size : ℕ) : List (Name × Rfa) → Except Error (List TextModule)
  | [] => .ok []
  | (name, rfa) :: names => do
    let (mhd, records) ← moduleRecords file rfa size
    let lines ← readLines records
    return ⟨name, mhd.datim, lines⟩ :: (← readModules file size names)

/-- Parses a macro, help or text library.  Modules come in name order. -/
def parse (file : List Byte) : Except Error TextLibrary := do
  let lhd ← value Lhd.read file
  match (TextKind.fromLbrType lhd.kind).filter fun _ => lhd.nindex = 1 ∧ lhd.sanity = SANEID3 with
  | none => .error (.invalid "library type")
  | some kind =>
    if lhd.majorid ≠ MAJORID then .error (.invalid "library format")
    else do
      let idd ← value Idd.read (file.drop Lhd.SIZE)
      let (_, names) ← entries file idd.vbn []
      let modules ← readModules file (16 + lhd.mhdusz.toNat) names
      return { kind, creator := fromAscic lhd.lbrver, created := lhd.credat, updated := lhd.updtim, modules }

end TextLibrary

end Olb
