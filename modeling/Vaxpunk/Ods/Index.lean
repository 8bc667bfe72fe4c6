/-
  INDEXF.SYS: file numbers, sequence numbers and header slots (`index.rs`), and
  appending runs to a file's map (`append_runs` of `file.rs`).

  Growing the index file appends runs to INDEXF.SYS, which may need an
  extension header, which may need to grow the index file: the functions call
  each other.  Each is written over the next one as a parameter, and the knot
  is tied by `allocHeaderN`, whose argument bounds how deep the calls nest.
-/
import Vaxpunk.Ods.Bitmap

namespace Ods

open Prog

/-! ## Pointers -/

/-- Largest count of one pointer. -/
def MAX_COUNT : ℕ := 0x40000000

/-- Encodes runs as the smallest pointers that hold them, splitting runs too
    long for one pointer. -/
def pointers (runs : List Run) : List Pointer :=
  runs.flatMap fun r =>
    (List.range ((r.count + MAX_COUNT - 1) / MAX_COUNT)).filterMap fun i =>
      Pointer.extent? (min (r.count - i * MAX_COUNT) MAX_COUNT) ((r.lbn + i * MAX_COUNT) % 2 ^ 32)

def encoded (ptrs : List Pointer) : ℕ := (ptrs.map Pointer.size).sum

/-- How many leading pointers fit in `cap` bytes. -/
def fit : List Pointer → ℕ → ℕ
  | [], _ => 0
  | p :: ps, cap => if p.size ≤ cap then fit ps (cap - p.size) + 1 else 0

/-- The pointers of the new extension headers, at most `cap` bytes in each. -/
def chunks (cap : ℕ) : ℕ → List Pointer → List (List Pointer)
  | 0, _ => []
  | _ + 1, [] => []
  | fuel + 1, p :: ps =>
    let n := max (fit (p :: ps) cap) 1
    (p :: ps).take n :: chunks cap fuel ((p :: ps).drop n)

/-- The map with the first run merged into the last pointer when it continues
    it and the pointers still fit, and the runs left over. -/
def mergeLast (old : List Pointer) (cap : ℕ) : List Run → List Pointer × List Run
  | [] => (old, [])
  | r :: rest =>
    match old.getLast? with
    | some (.extent format count lbn) =>
      let total := count + r.count
      if lbn + count = r.lbn ∧ total ≤ MAX_COUNT then
        let merged := old.dropLast ++ [(Pointer.extent? total lbn).getD (.extent format count lbn)]
        if encoded merged ≤ cap then (merged, rest) else (old, r :: rest)
      else (old, r :: rest)
    | _ => (old, r :: rest)

/-- `r.hiblk` raised by `blocks`. -/
def addHiblk (h : Header) (blocks : ℕ) : Header :=
  let r := h.recordAttrs
  h.setRecordAttrs { r with hiblk := r.hiblk + blocks }

/-- A fresh header for `fid`: offsets for an ident area sized to the name (none
    for extension headers), no map, no ACL. -/
def Volume.newHeader (v : Volume) (fid : Fid) (nameLen : Option ℕ) : Header :=
  let level := v.level.number
  let id := 40
  let mp := match nameLen with
    | some n => id + Header.identWords level n
    | none => id
  let h := Header.default
  let h := h.setIdoffset id
  let h := h.setMpoffset mp
  let h := h.setAcoffset 0xff
  let h := h.setRsoffset 0xff
  let h := h.setStruclev (level <<< 8 + 1)
  let h := h.setFid fid
  if level = 5 ∧ nameLen.isSome then ⟨Field.put h.raw (id * 2 + 60) 16 (2 ^ 128 - 1)⟩ else h

/-- The empty header that goes into slots below the end of file: name ".;". -/
def Volume.emptyHeader (v : Volume) : Header :=
  (v.newHeader Fid.zero (some 2)).setIdent { Ident.default with name := [46, 59] }

/-- A header for an extension of the file `fid` with primary header `p`. -/
def Volume.extHeader (v : Volume) (p : Header) (fid efid link : Fid) (seg : ℕ) : Header :=
  let e := v.newHeader efid none
  let e := e.setSegNum seg
  let e := e.setRecattr p.recattr
  let e := e.setFilechar p.filechar
  let e := e.setFileowner p.fileowner
  let e := e.setFileprot p.fileprot
  let e := e.setBacklink fid
  e.setExtFid link

namespace Op

/-- Writes a header after fixing its checksum.  The index file's own header
    also goes to its backup copy. -/
def writeHeader (lbn : ℕ) (h : Header) : Op Unit := do
  let h := h.updateChecksum
  writeBlock lbn h.raw
  let v ← state
  when (h.fid = INDEXF ∧ h.segNum = 0) (writeBlock v.home.altidxlbn h.raw)

/-- Turns a header into a deleted one (it keeps its sequence number for the
    next user of the slot) and frees its file number. -/
def deleteHeader (lbn : ℕ) (h : Header) : Op Unit := do
  let num := h.fid.num
  let h := h.setFilechar (h.filechar ||| fch.MARKDEL)
  let h := h.setFid ⟨0, h.fid.seq, 0⟩
  let h := h.setChecksum 0
  writeBlock lbn h.raw
  setIndexBit num false

/-- The header with a new map, or the error when it does not fit. -/
def setMapOr (h : Header) (ptrs : List Pointer) : Op Header :=
  orFail (.invalid "map pointers overflow the header") (h.setMap (encodeMap ptrs))

/-- Writes the extension headers `ids` for `chunks`, last to first, so that
    each one links to a header already on disk; returns the link to the first.
    The `i`-th one has segment number `seg + i`. -/
def writeExts (fid : Fid) (p : Header) (link : Fid) (seg : ℕ) :
    ℕ → List (List Pointer × Fid × ℕ) → Op Fid
  | _, [] => pure link
  | i, (chunk, efid, elbn) :: rest => do
    let next ← writeExts fid p link seg (i + 1) rest
    if seg + i % 2 ^ 16 ≥ 2 ^ 16 then fail .panic
    else do
      let v ← state
      let e ← setMapOr (v.extHeader p fid efid next (seg + i % 2 ^ 16)) chunk
      writeHeader elbn e
      pure efid

/-- Appends allocated runs to a file's map and raises its allocated size. -/
def appendRunsWith (allocHeader : Op (Fid × ℕ)) (fid : Fid) (runs : List Run) : Op Unit := do
  let runs := mergeRuns runs
  if runs = [] then pure ()
  else do
    let hs ← headers fid
    let (lastLbn, last) := hs.getLast?.getD (0, Header.default)
    match decodeMap last.mapArea with
    | .error what => fail (.corrupt what lastLbn)
    | .ok old => do
      let cap := last.mapCapacity
      let (ptrs, rest) := mergeLast old cap runs
      let ptrs := ptrs ++ pointers rest
      let keep := max (fit ptrs cap) old.length
      let overflow := ptrs.drop keep
      let chunks := chunks (BLOCK - 2 - 80) overflow.length overflow
      let primary := (hs.head?.getD (0, Header.default)).2
      let ids ← collect (fun _ => allocHeader) chunks
      let link ← writeExts fid primary last.extFid (last.segNum + 1) 0 (chunks.zip ids)
      let last ← setMapOr last (ptrs.take keep)
      let last := last.setExtFid link
      let added := mapSize runs
      if hs.length = 1 then writeHeader lastLbn (addHiblk last added)
      else do
        writeHeader lastLbn last
        let hs ← headers fid
        let (plbn, p) := hs.head?.getD (0, Header.default)
        writeHeader plbn (addHiblk p added)

def indexHeader : Op (ℕ × Header) := do
  let v ← state
  let lbn := (v.headerLbn 1).getD 0
  let h ← readHeaderAt lbn (some INDEXF)
  pure (lbn, h)

/-- Grows INDEXF.SYS so that it maps `vbn`, by at least half again its header
    space. -/
def extendIndexWith (allocHeader : Op (Fid × ℕ)) (vbn : ℕ) : Op Unit := do
  let v ← state
  let have_ := mapSize v.indexMap
  let headers := have_ - (v.home.headerVbn0 - 1)
  let grow := max (max (vbn - have_) (headers / 2)) 16
  let after := v.indexMap.getLast?.map fun r => r.lbn + r.count
  let runs ← allocate grow .any after
  appendRunsWith allocHeader INDEXF runs
  modify fun v => { v with indexMap := mergeRuns (v.indexMap ++ runs) }

/-- An empty header for the slot at VBN `vbn` of the index file, unless it
    holds a deleted or an empty one.  `lbn` stands in for an unmapped VBN. -/
def fillSlot (lbn vbn : ℕ) : Op Unit := do
  let v ← state
  let start := (mapLbn v.indexMap vbn).getD lbn
  let b ← readBlock start
  let slot : Header := ⟨b⟩
  when (¬slot.isDeleted ∧ ¬(slot.fid.num = 0 ∧ slot.invalid = some .zeroFileNumber))
    (writeHeader start v.emptyHeader)

/-- The index file's end of file moved past the slot at VBN `vbn`. -/
def pastSlot (ih : Header) (vbn : ℕ) : Header :=
  let efblk := (vbn + 1) % 2 ^ 32
  let ra := ih.recordAttrs
  let ih := ih.setRecordAttrs { ra with efblk := efblk, ffbyte := 0 }
  if ih.highwaterMark.any (· < efblk) then ih.setHighwater efblk else ih

/-- The sequence number for the next user of a slot. -/
def nextSeq (pastEof : Bool) (old : Header) : ℕ :=
  if pastEof ∧ ¬old.isDeleted then 1
  else match (old.fid.seq + 1) % 2 ^ 16 with
    | 0 => 1
    | s => s

/-- Tries file number `num` and the `left` numbers after it. -/
def allocHeaderFrom (extendIndex : ℕ → Op Unit) (bits : List Block) : ℕ → ℕ → Op (Fid × ℕ)
  | 0, _ => fail .headerFull
  | left + 1, num =>
    if num &&& 0xffff = 0 ∨ bit bits (num - 1) then allocHeaderFrom extendIndex bits left (num + 1)
    else do
      let v ← state
      let vbn := v.home.headerVbn0 + num - 1
      when (mapVbn v.indexMap vbn).isNone (extendIndex vbn)
      let v ← state
      let lbn ← orFail (.corrupt "index file extension failed" 0) (v.headerLbn num)
      let (ihs, ih) ← indexHeader
      let eof := ih.recordAttrs.efblk
      let b ← readBlock lbn
      let old : Header := ⟨b⟩
      if old.invalid = none then allocHeaderFrom extendIndex bits left (num + 1)
      else do
        when (vbn ≥ eof) do
          each (fillSlot lbn) (List.range' eof (vbn + 1 - eof))
          writeHeader ihs (pastSlot ih vbn)
        setIndexBit num true
        pure (Fid.new num (nextSeq (vbn ≥ eof) old), lbn)

/-- Takes a file number: the first one past the reserved files that is clear in
    the index file bitmap and whose slot holds no valid header. -/
def allocHeaderWith (extendIndex : ℕ → Op Unit) : Op (Fid × ℕ) := do
  let v ← state
  let (_, bits) ← readIndexBitmap
  allocHeaderFrom extendIndex bits (v.home.maxfiles - v.home.resfiles) (v.home.resfiles + 1)

/-- `alloc_header`, its calls of itself nested at most `depth` deep. -/
def allocHeaderN : ℕ → Op (Fid × ℕ)
  | 0 => fail .panic
  | depth + 1 => allocHeaderWith (extendIndexWith (allocHeaderN depth))

/-- Each nested call has taken a cluster, so the nesting is bounded. -/
def allocHeader : Op (Fid × ℕ) := do
  let v ← state
  allocHeaderN (v.clusters + 1)

end Op

end Ods
