/-
  Byte streams over files, and copying files in and out of the volume (`copy.rs`).

  What reads a file leaves the volume as it is, so that a `FileReader` is a reader
  given the volume.
-/
import Vaxpunk.Lib.Window
import Vaxpunk.Ods.File
import Vaxpunk.Ods.Records

namespace Ods

/-- Transfer size for streaming, in blocks. -/
def CHUNK : ℕ := 64

/-- What goes wrong with a file's data. -/
inductive ImageError where
  | ods (e : Error)
  | record (e : RecordError Error)
  /-- "files have no records to read as text" -/
  | noRecords (rtype : ℕ)
  deriving DecidableEq, Repr

structure FileInfo where
  record : RecordAttrs
  /-- Blocks allocated. -/
  allocated : ℕ
  deriving DecidableEq, Repr

def Op.stat (fid : Fid) : Op FileInfo := do
  let hs ← headers fid
  let map ← runsOf hs
  match hs with
  | [] => Prog.fail .panic
  | p :: _ => pure ⟨p.2.recordAttrs, mapSize map⟩

def bytesOf (bs : List Block) : List UInt8 := bs.flatMap (Field.bytes · 0 BLOCK)

/-- Reads a file's bytes up to its end of file. -/
structure FileReader where
  fid : Fid
  pos : ℕ
  eof : ℕ
  buf : List UInt8
  bufAt : ℕ
  deriving DecidableEq, Repr

namespace FileReader

/-- The buffer, filled with the blocks from `pos` on if `pos` is not in it. -/
def fill (v : Volume) (r : FileReader) : Except Error FileReader :=
  if r.pos < r.bufAt ∨ r.pos ≥ r.bufAt + r.buf.length then do
    let first := r.pos / BLOCK
    let blocks := min ((r.eof - first * BLOCK + BLOCK - 1) / BLOCK) CHUNK
    let bs ← (Op.readBlocks r.fid (first + 1) (blocks * BLOCK) v).result
    .ok { r with buf := bytesOf bs, bufAt := first * BLOCK }
  else .ok r

def read (v : Volume) : Stream.Reader Error FileReader UInt8 := fun n r =>
  if r.pos ≥ r.eof ∨ n = 0 then .ok ([], r)
  else do
    let r ← r.fill v
    let start := r.pos - r.bufAt
    let n := min (min n (r.buf.length - start)) (r.eof - r.pos)
    .ok ((r.buf.drop start).take n, { r with pos := r.pos + n })

def seekTo (r : FileReader) (pos : ℕ) : FileReader := { r with pos := min pos r.eof }

end FileReader

/-- A text file seen as lines: its size, and every 64 kB of lines the record they start
    with. -/
structure TextView where
  size : ℕ
  /-- (offset in the text, offset in the file) of record starts. -/
  marks : List (ℕ × ℕ)
  deriving DecidableEq, Repr

def MARK_EVERY : ℕ := 64 * 1024

/-! ## Loops over records -/

namespace Records

variable {σ ε : Type} (read : Stream.Reader ε σ UInt8) (fuel : ℕ) (format : Format)

/-- A record as a line: without its control area. -/
def line (skip : ℕ) (r : List UInt8) : List UInt8 := r.drop skip ++ [10]

def scan : ℕ → ℕ → List (ℕ × ℕ) → Reading σ ε TextView
  | 0, _, _ => throw .stuck
  | n + 1, size, marks => do
    let start ← position
    match ← next read fuel format with
    | none => pure ⟨size, marks⟩
    | some r =>
      let last := (marks.getLast?.map Prod.fst).getD 0
      let marks := if size - last ≥ MARK_EVERY then marks ++ [(size, start)] else marks
      scan n (size + (r.length - format.controlSize) + 1) marks

/-- The loop of `read_text`: the bytes read so far and the buffer. -/
def readLines (offset stop : ℕ) : ℕ → ℕ → ℕ → List UInt8 → Reading σ ε (ℕ × List UInt8)
  | 0, _, _, _ => throw .stuck
  | k + 1, pos, n, buf =>
    if pos < stop then do
      match ← next read fuel format with
      | none => pure (n, buf)
      | some r =>
        let line := line format.controlSize r
        let start := max pos offset
        let upto := min (pos + line.length) stop
        if start < upto then
          let src := (line.drop (start - pos)).take (upto - start)
          readLines offset stop k (pos + line.length) (upto - offset)
            (Window.put buf (start - offset) src)
        else readLines offset stop k (pos + line.length) n buf
    else pure (n, buf)

end Records

/-! ## Files -/

namespace Volume

variable (v : Volume) (fid : Fid)

/-- The file's attributes, as an error of the image. -/
def stat : Except ImageError FileInfo := (Op.stat fid v).result.mapError .ods

/-- A reader over the file's bytes, up to its end of file. -/
def reader : Except ImageError FileReader := do
  let info ← v.stat fid
  .ok ⟨fid, 0, info.record.eofBytes, [], 0⟩

/-- The file's records: their format and a reader over its bytes. -/
def records : Except ImageError (Format × FileReader) := do
  let info ← v.stat fid
  match Format.of info.record with
  | none => .error (.noRecords info.record.rtype)
  | some format => do
    let r ← v.reader fid
    .ok (format, r)

/-- The value a loop over records ends with. -/
def run {α : Type} (x : Records.Reading FileReader Error α) (r : FileReader) (pos : ℕ) :
    Except ImageError α :=
  match x (r, pos) with
  | .ok (a, _) => .ok a
  | .error e => .error (.record e)

/-- Scans a file's records once to size its text view. -/
def textView : Except ImageError TextView := do
  let (format, r) ← v.records fid
  run (Records.scan (FileReader.read v) (r.eof + 1) format (r.eof + 1) 0 [(0, 0)]) r 0

/-- Reads the text view at `offset` into `buf`; the number of bytes read, and the
    buffer.  The marks go up, so that the partition point is the number of them up to
    the offset. -/
def readText (view : TextView) (offset : ℕ) (buf : List UInt8) :
    Except ImageError (ℕ × List UInt8) := do
  let i := (view.marks.takeWhile (·.1 ≤ offset)).length - 1
  match view.marks[i]? with
  | none => .error (.ods .panic)
  | some (pos, raw) =>
    let (format, _) ← v.records fid
    let r ← v.reader fid
    let r := r.seekTo raw
    if offset + buf.length ≥ 2 ^ 64 then .error (.ods .panic)
    else run (Records.readLines (FileReader.read v) (r.eof + 1) format offset
      (offset + buf.length) (r.eof + 1) pos 0 buf) r raw

/-- `copy_out` with `RecordsToLines`: what is written. -/
def copyOutLines : Except ImageError (List UInt8) := do
  let (format, r) ← v.records fid
  let rs ← run (Records.collect (FileReader.read v) (r.eof + 1) format (r.eof + 1)) r 0
  .ok (rs.flatMap (Records.line format.controlSize))

end Volume

end Ods
