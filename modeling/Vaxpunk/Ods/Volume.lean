/-
  The device, the mounted volume, block I/O and reading file headers
  (`lib.rs`, `volume.rs`).
-/
import Vaxpunk.Lib.Prog
import Vaxpunk.Ods.Layout.Header
import Vaxpunk.Ods.Layout.Home

namespace Ods

open Prog

/-- Everything that can go wrong.  `panic` is not an error value of the code:
    it stands for an arithmetic overflow or a failed index, which end the call. -/
inductive Error where
  | device
  | noHomeBlock
  | corrupt (what : String) (lbn : ℕ)
  | notFound
  | dirNotFound
  | stale (fid : Fid)
  | badName (why : String)
  | alreadyExists
  | notDirectory
  | dirNotEmpty
  | noVersion
  | versionOverflow
  | deviceFull
  | headerFull
  | readOnly
  | reserved
  | beyondEof
  | unsupported (what : String)
  | invalid (what : String)
  | panic
  deriving DecidableEq, Repr

/-- The contents of a device: a block for each LBN. -/
abbrev Disk := ℕ → Block

/-- A block written: its LBN and its new contents. -/
abbrev Write := ℕ × Block

def Disk.write (d : Disk) (w : Write) : Disk := fun l => if l = w.1 then w.2 else d l

/-- The contents after some writes, in order. -/
def Disk.apply (d : Disk) (ws : List Write) : Disk := ws.foldl Disk.write d

/-- Storage the core runs on: an array of blocks.  With `fault := some k` the
    device performs `k` more block writes and refuses the next one, which
    leaves its block as it was; later writes are performed again. -/
structure Device where
  blockSize : ℕ
  count : ℕ
  blocks : Disk
  fault : Option ℕ

/-- A run of consecutive logical blocks mapped by a file. -/
structure Run where
  lbn : ℕ
  count : ℕ
  deriving DecidableEq, Repr

/-- A mounted volume: nothing is cached except the home block and the index
    file's map. -/
structure Volume where
  dev : Device
  home : HomeBlock
  level : Level
  writable : Bool
  indexMap : List Run
  /-- Volume size from the SCB, at most the device size. -/
  volBlocks : ℕ
  /-- What the clock shows. -/
  clock : ℕ

abbrev Op := Prog Volume Error Write

/-! ## Maps -/

/-- Joins runs that continue one another. -/
def mergeRuns : List Run → List Run
  | [] => []
  | r :: rs =>
    match mergeRuns rs with
    | [] => [r]
    | l :: ls => if r.lbn + r.count = l.lbn then ⟨r.lbn, r.count + l.count⟩ :: ls else r :: l :: ls

/-- Finds `vbn` in a map whose first block is `first`. -/
def mapVbnFrom (first : ℕ) : List Run → ℕ → Option (ℕ × ℕ)
  | [], _ => none
  | r :: rs, vbn =>
    if vbn < first + r.count then
      if vbn < first then none else some (r.lbn + (vbn - first), r.count - (vbn - first))
    else mapVbnFrom (first + r.count) rs vbn

/-- Finds `vbn` (1-based) in a map: the LBN and how many blocks follow it in
    the same run. -/
def mapVbn (map : List Run) (vbn : ℕ) : Option (ℕ × ℕ) := mapVbnFrom 1 map vbn

def mapLbn (map : List Run) (vbn : ℕ) : Option ℕ := (mapVbn map vbn).map Prod.fst

def mapSize (map : List Run) : ℕ := (map.map Run.count).sum

/-! ## Volumes -/

def INDEXF : Fid := Fid.new 1 1

namespace Volume

def cluster (v : Volume) : ℕ := v.home.cluster

/-- LBN of the header for file number `num`, if the index file maps it. -/
def headerLbn (v : Volume) (num : ℕ) : Option ℕ :=
  if num = 0 ∨ num > v.home.maxfiles then none
  else mapLbn v.indexMap (v.home.headerVbn0 + num - 1)

/-- Runs the pointers of one header map. -/
def pointerRuns (size lbn : ℕ) : List Pointer → Except Error (List Run)
  | [] => .ok []
  | .placement _ :: ps => pointerRuns size lbn ps
  | .extent _ count start :: ps =>
    if start = 2 ^ 32 - 1 then .error (.unsupported "sparse files")
    else if start + count > size then
      .error (.corrupt "map pointer beyond the end of the volume" lbn)
    else (pointerRuns size lbn ps).map (⟨start, count⟩ :: ·)

/-- `n` rounded up to a multiple of `k`. -/
def nextMultipleOf (n k : ℕ) : ℕ := (n + k - 1) / k * k

/-- Runs mapped by one header, checked against the volume size.  The last
    cluster may stick out. -/
def headerRuns (v : Volume) (h : Header) (lbn : ℕ) : Except Error (List Run) :=
  match decodeMap h.mapArea with
  | .error what => .error (.corrupt what lbn)
  | .ok ptrs => pointerRuns (nextMultipleOf v.volBlocks v.cluster) lbn ptrs

/-- Clusters the storage bitmap describes; a partial last cluster counts. -/
def clusters (v : Volume) : ℕ := (v.volBlocks + v.cluster - 1) / v.cluster

end Volume

/-! ## Block I/O -/

namespace Op

/-- An error or a value, as an operation. -/
def ofExcept {α : Type} : Except Error α → Op α
  | .ok a => pure a
  | .error e => fail e

def devRead (lbn : ℕ) : Op Block := gets fun v => v.dev.blocks lbn

def devWrite (lbn : ℕ) (b : Block) : Op Unit := fun v =>
  match v.dev.fault with
  | some 0 => ⟨.error .device, { v with dev := { v.dev with fault := none } }, []⟩
  | some (k + 1) =>
    ⟨.ok (), { v with dev := { v.dev with blocks := v.dev.blocks.write (lbn, b), fault := some k } },
      [(lbn, b)]⟩
  | none => ⟨.ok (), { v with dev := { v.dev with blocks := v.dev.blocks.write (lbn, b) } }, [(lbn, b)]⟩

def readBlock (lbn : ℕ) : Op Block := do
  let v ← state
  if lbn ≥ v.dev.count then fail (.corrupt "block beyond the end of the volume" lbn)
  else devRead lbn

def writeBlock (lbn : ℕ) (b : Block) : Op Unit := do
  let v ← state
  if ¬v.writable then fail .readOnly
  else if lbn ≥ v.dev.count then fail (.corrupt "write beyond the end of the volume" lbn)
  else devWrite lbn b

/-! ## Headers -/

/-- The error for an invalid header, and for one that is not the wanted file's
    (a zero sequence number matches any). -/
def checkHeader (lbn : ℕ) (want : Option Fid) (h : Header) : Except Error Header :=
  match h.invalid, want with
  | some what, some fid =>
    if h.isDeleted ∨ h.fid.num = 0 then .error (.stale fid) else .error (.corrupt what.text lbn)
  | some what, none => .error (.corrupt what.text lbn)
  | none, some fid =>
    if h.fid.num ≠ fid.num ∨ (fid.seq ≠ 0 ∧ h.fid.seq ≠ fid.seq) then .error (.stale fid) else .ok h
  | none, none => .ok h

/-- Reads and validates the header at `lbn`.  With `want`, it must be that
    file's header. -/
def readHeaderAt (lbn : ℕ) (want : Option Fid) : Op Header := do
  let b ← readBlock lbn
  ofExcept (checkHeader lbn want ⟨b⟩)

/-- Reads the primary header of a file. -/
def readHeader (fid : Fid) : Op Header := do
  if fid.rvn > 1 then fail (.unsupported "relative volume numbers")
  else
    let v ← state
    let lbn ← orFail (.stale fid) (v.headerLbn fid.num)
    let h ← readHeaderAt lbn (some fid)
    if h.segNum ≠ 0 then fail (.invalid "extension header, not a file") else pure h

/-- The headers after `h`, at `lbn`, following the extension chain.  Segment
    numbers go up by one and stay below 2^16, which bounds the chain. -/
def extHeaders : ℕ → ℕ → Header → Op (List (ℕ × Header))
  | 0, _, _ => fail .panic
  | fuel + 1, lbn, h =>
    if h.extFid.isZero then pure []
    else do
      let v ← state
      let start ← orFail (.corrupt "extension header outside the index file" lbn)
        (v.headerLbn h.extFid.num)
      let ext ← readHeaderAt start (some h.extFid)
      if ext.segNum ≠ (h.segNum + 1) % 2 ^ 16 ∨ ext.segNum = 0 then
        fail (.corrupt "extension header out of sequence" start)
      else do
        let hs ← extHeaders fuel start ext
        pure ((start, ext) :: hs)

/-- All headers of a file, primary first, with their LBNs. -/
def headers (fid : Fid) : Op (List (ℕ × Header)) := do
  let first ← readHeader fid
  let v ← state
  let lbn := (v.headerLbn fid.num).getD 0
  let hs ← extHeaders (2 ^ 16) lbn first
  pure ((lbn, first) :: hs)

/-- The runs of a list of headers, in order. -/
def runsOf (hs : List (ℕ × Header)) : Op (List Run) := do
  let v ← state
  let rs ← collect (fun (p : ℕ × Header) => ofExcept (v.headerRuns p.2 p.1)) hs
  pure rs.flatten

/-- The whole map of a file, in VBN order. -/
def fileMap (fid : Fid) : Op (List Run) := do
  let hs ← headers fid
  runsOf hs

end Op

end Ods
