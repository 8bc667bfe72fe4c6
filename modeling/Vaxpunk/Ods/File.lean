/-
  Open files: reads and writes of virtual blocks, extend, truncate and
  attributes (`file.rs`).
-/
import Vaxpunk.Ods.Index

namespace Ods

/-- The whole blocks of a byte string. -/
def blocksOf (buf : List UInt8) : List Block :=
  (List.range (buf.length / BLOCK)).map fun i =>
    BitVec.ofNat 4096 (Field.ofBytes ((buf.drop (i * BLOCK)).take BLOCK))

/-- A device transfer: its first LBN and its range of the buffer, in bytes. -/
structure Piece where
  lbn : ℕ
  start : ℕ
  stop : ℕ
  deriving DecidableEq, Repr

/-- The loop of `pieces`, `done` bytes being split already.  Each transfer takes
    a block at least, which bounds the loop. -/
def piecesFrom (map : List Run) (vbn len : ℕ) : ℕ → ℕ → Except Error (List Piece)
  | 0, _ => .error .panic
  | fuel + 1, done =>
    if done < len then
      match mapVbn map (vbn + done / BLOCK) with
      | none => .error .beyondEof
      | some (lbn, run) =>
        let n := min (run * BLOCK) (len - done)
        (piecesFrom map vbn len fuel (done + n)).map (⟨lbn, done, done + n⟩ :: ·)
    else .ok []

/-- `pieces`: splits a transfer of `len` bytes starting at `vbn` into one device
    transfer per run. -/
def devicePieces (map : List Run) (vbn len : ℕ) : Except Error (List Piece) :=
  if len % BLOCK ≠ 0 ∨ vbn = 0 then
    .error (.invalid "transfer not in whole blocks from VBN 1")
  else piecesFrom map vbn len (len / BLOCK + 1) 0

def Piece.lbns (p : Piece) : List ℕ := List.range' p.lbn ((p.stop - p.start) / BLOCK)

/-- The LBNs of a transfer, in order. -/
def pieces (map : List Run) (vbn len : ℕ) : Except Error (List ℕ) :=
  (devicePieces map vbn len).map fun ps => ps.flatMap Piece.lbns

def extentBlocks : Pointer → ℕ
  | .extent _ count _ => count
  | .placement _ => 0

/-- Record attributes and highwater after truncating to `keep` blocks. -/
def shrinkAttrs (h : Header) (keep : ℕ) : Header :=
  let r := { h.recordAttrs with hiblk := keep }
  let r := if r.efblk > keep + 1 ∨ (r.efblk = keep + 1 ∧ r.ffbyte ≠ 0) then
      { r with efblk := keep + 1, ffbyte := 0 } else r
  let h := h.setRecordAttrs r
  if h.highwaterMark.any (· > keep + 1) then h.setHighwater (keep + 1) else h

/-- Splits pointers after `left` blocks: the pointers kept and the runs freed. -/
def cutPointers : ℕ → List Pointer → List Pointer × List Run
  | _, [] => ([], [])
  | left, .extent format count lbn :: ps =>
    if left < count then
      let (kept, freed) := cutPointers 0 ps
      let part := (Pointer.extent? (left % 2 ^ 32) lbn).getD (.extent format count lbn)
      (if left > 0 then part :: kept else kept, ⟨lbn + left, count - left⟩ :: freed)
    else
      let (kept, freed) := cutPointers (left - count) ps
      (.extent format count lbn :: kept, freed)
  | left, .placement w :: ps =>
    let (kept, freed) := cutPointers left ps
    (.placement w :: kept, freed)

/-- The header in which the file is cut: the headers before it, the header, its
    pointers and the blocks it keeps, and the headers after it. -/
structure Cut where
  before : List (ℕ × Header)
  header : ℕ × Header
  ptrs : List Pointer
  left : ℕ
  dropped : List (ℕ × Header)

/-- Finds the header that maps block `keep + 1`; `vbn` blocks are mapped by the
    headers `before`. -/
def findCut (keep : ℕ) : ℕ → List (ℕ × Header) → List (ℕ × Header) → Except Error (Option Cut)
  | _, _, [] => .ok none
  | vbn, before, (lbn, h) :: hs =>
    match decodeMap h.mapArea with
    | .error what => .error (.corrupt what lbn)
    | .ok ptrs =>
      let n := (ptrs.map extentBlocks).sum
      if vbn + n > keep then .ok (some ⟨before, (lbn, h), ptrs, keep - vbn, hs⟩)
      else findCut keep (vbn + n) (before ++ [(lbn, h)]) hs

namespace Op

/-- Reads whole virtual blocks starting at `vbn` (1-based), `len` bytes in all.
    Fails past the last allocated block. -/
def readBlocks (fid : Fid) (vbn len : ℕ) : Op (List Block) := do
  let map ← fileMap fid
  let lbns ← ofExcept (pieces map vbn len)
  Prog.collect devRead lbns

/-- Writes whole virtual blocks at `vbn` within the file's allocation, and
    raises the highwater mark past them. -/
def writeBlocks (fid : Fid) (vbn : ℕ) (buf : List UInt8) : Op Unit := do
  let v ← Prog.state
  if ¬v.writable then Prog.fail .readOnly
  else do
    let map ← fileMap fid
    let lbns ← ofExcept (pieces map vbn buf.length)
    Prog.each (fun p : ℕ × Block => devWrite p.1 p.2) (lbns.zip (blocksOf buf))
    let stop := vbn + buf.length / BLOCK
    let lbn := (v.headerLbn fid.num).getD 0
    let h ← readHeader fid
    if stop + 1 ≥ 2 ^ 64 then Prog.fail .panic
    else Prog.when (h.highwaterMark.any (· < stop + 1)) (writeHeader lbn (h.setHighwater (stop + 1)))

/-- Writes the last header kept, and the primary one with the new sizes. -/
def writeCut (before : List (ℕ × Header)) (klbn : ℕ) (kh : Header) (keep : ℕ) : Op Unit :=
  match before with
  | [] => writeHeader klbn (shrinkAttrs kh keep)
  | (plbn, p) :: _ => do
    writeHeader klbn kh
    writeHeader plbn (shrinkAttrs p keep)

/-- Cuts a file down to `blocks` blocks (rounded up to whole clusters) and
    frees the rest, moving the end of file back if it was past. -/
def truncate (fid : Fid) (blocks : ℕ) : Op Unit := do
  let v ← Prog.state
  if ¬v.writable then Prog.fail .readOnly
  else
    let keep := Volume.nextMultipleOf blocks v.cluster
    if keep ≥ 2 ^ 64 then Prog.fail .panic
    else do
      let hs ← headers fid
      let cut ← ofExcept (findCut keep 0 [] hs)
      match cut with
      | none => pure ()
      | some ⟨before, (klbn, kh), ptrs, left, dropped⟩ => do
        let (kept, freed) := cutPointers left ptrs
        let kh ← setMapOr kh kept
        let kh := kh.setExtFid Fid.zero
        let rest ← runsOf dropped
        writeCut before klbn kh keep
        Prog.each (fun d : ℕ × Header => deleteHeader d.1 d.2) dropped
        release (freed ++ rest)

end Op

end Ods
