/-
  Records of sequential files (`records.rs`): a reader's bytes as records, and lines
  written as VAR records.

  `Records` works on any reader; a reader is what its `read` does.  The loops of the
  source that have no bound of their own have one here, the fuel; a loop that runs out
  of it is stuck, which more fuel than bytes left rules out (`next_not_stuck`).
-/
import Vaxpunk.Lib.Stream
import Vaxpunk.Ods.Layout.Header

namespace Ods

/-- Record formats (`FAT$B_RTYPE`). -/
def rfm.FIX : ℕ := 1
def rfm.VAR : ℕ := 2
def rfm.VFC : ℕ := 3
def rfm.STM : ℕ := 4
def rfm.STMLF : ℕ := 5
def rfm.STMCR : ℕ := 6

/-- Record attributes (`FAT$B_RATTRIB`): lengths have their high byte first. -/
def rat.MSBRCW : ℕ := 1 <<< 4

/-- Record layout, from a file's record attributes. -/
inductive Format where
  | var (vfc : ℕ) (msb : Bool)
  | fix (n : ℕ)
  | stream (stop : List UInt8)
  deriving DecidableEq, Repr

/-- None for formats without records a text reader can use. -/
def Format.of (r : RecordAttrs) : Option Format :=
  if r.rtype >>> 4 ≠ 0 then none
  else
    let format := r.rtype &&& 0xf
    if format = rfm.VAR then some (.var 0 (r.rattrib &&& rat.MSBRCW ≠ 0))
    else if format = rfm.VFC then some (.var (if r.vfcsize = 0 then 2 else r.vfcsize) false)
    else if format = rfm.FIX ∧ r.rsize > 0 then some (.fix r.rsize)
    else if format = rfm.STMLF then some (.stream [10])
    else if format = rfm.STMCR then some (.stream [13])
    else if format = rfm.STM then some (.stream [13, 10])
    else none

/-- The control area size, to skip when printing a record as text. -/
def Format.controlSize : Format → ℕ
  | .var vfc _ => vfc
  | _ => 0

/-! ## Reading records -/

/-- Why a record cannot be read. -/
inductive RecordError (ε : Type) where
  | read (e : ε)
  /-- "record cut short by the end of file" -/
  | truncated
  /-- No error of the code: a loop is out of fuel. -/
  | stuck
  deriving DecidableEq, Repr

namespace Records

/-- A reader and the position in its bytes. -/
abbrev Reading (σ ε : Type) := StateT (σ × ℕ) (Except (RecordError ε))

variable {σ ε : Type} (read : Stream.Reader ε σ UInt8)

def byte : Reading σ ε (Option UInt8) := fun s =>
  match read 1 s.1 with
  | .error e => .error (.read e)
  | .ok ([], r) => .ok (none, r, s.2)
  | .ok (b :: _, r) => .ok (some b, r, s.2 + 1)

/-- Whatever keeps `read_exact` from its bytes, the record is cut short. -/
def exact (n : ℕ) : Reading σ ε (List UInt8) := fun s =>
  match Stream.readExact read n n s.1 with
  | none => .error .truncated
  | some (v, r) => .ok (v, r, s.2 + n)

def skip : ℕ → Reading σ ε Unit
  | 0 => pure ()
  | n + 1 => do
    match ← byte read with
    | none => pure ()
    | some _ => skip n

def position : Reading σ ε ℕ := fun s => .ok (s.2, s)

def lengthWord (msb : Bool) (first second : UInt8) : ℕ :=
  if msb then first.toNat * 256 + second.toNat else first.toNat + second.toNat * 256

/-- The byte after a record of an odd length. -/
def skipPad (n : ℕ) : Reading σ ε Unit := if n % 2 = 1 then skip read 1 else pure ()

def nextVar (msb : Bool) : ℕ → Reading σ ε (Option (List UInt8))
  | 0 => throw .stuck
  | fuel + 1 => do
    match ← byte read with
    | none => pure none
    | some first =>
      match ← byte read with
      | none => throw .truncated
      | some second =>
        let len := lengthWord msb first second
        if len = 0xffff then do
          -- the rest of this block is unused
          let pos ← position
          skip read ((BLOCK - pos % BLOCK) % BLOCK)
          nextVar msb fuel
        else do
          let data ← exact read len
          skipPad read len
          pure (some data)

def nextFix (n : ℕ) : Reading σ ε (Option (List UInt8)) := do
  match ← byte read with
  | none => pure none
  | some first =>
    let data ← exact read (n - 1)
    skipPad read n
    pure (some (first :: data))

/-- The bytes to cut off a record that has just ended. -/
def cutSize (stop data : List UInt8) : Option ℕ :=
  if stop.isSuffixOf data then some stop.length
  else if stop = [13, 10] ∧ [10].isSuffixOf data then some 1
  else none

def nextStream (stop : List UInt8) : ℕ → List UInt8 → Reading σ ε (Option (List UInt8))
  | 0, _ => throw .stuck
  | fuel + 1, data => do
    match ← byte read with
    | none => if data = [] then pure none else pure (some data)
    | some b =>
      match cutSize stop (data ++ [b]) with
      | some cut => pure (some ((data ++ [b]).take (data.length + 1 - cut)))
      | none => nextStream stop fuel (data ++ [b])

/-- `next`: a record, or none at the end. -/
def next (fuel : ℕ) : Format → Reading σ ε (Option (List UInt8))
  | .var _ msb => nextVar read msb fuel
  | .fix n => nextFix read n
  | .stream stop => nextStream read stop fuel []

/-- `collect`: the records up to the end, or the first error. -/
def collect (fuel : ℕ) (format : Format) : ℕ → Reading σ ε (List (List UInt8))
  | 0 => throw .stuck
  | n + 1 => do
    match ← next read fuel format with
    | none => pure []
    | some r => do
      let rs ← collect fuel format n
      pure (r :: rs)

end Records

/-! ## Writing lines -/

/-- Writes lines as VAR records: each line (without its LF, or CR LF) becomes one
    record. -/
structure VarWriter where
  /-- What the writer below got. -/
  out : List UInt8
  longest : ℕ
  /-- The line that has not ended yet (`partial`). -/
  begun : List UInt8
  deriving DecidableEq, Repr

namespace VarWriter

def new : VarWriter := ⟨[], 0, []⟩

/-- A line without the CR at its end. -/
def strip (line : List UInt8) : List UInt8 :=
  if line.getLast? = some 13 then line.dropLast else line

def record (w : VarWriter) (line : List UInt8) : Except String VarWriter :=
  let line := strip line
  if line.length < 0x8000 then
    .ok { w with
      longest := max w.longest line.length
      out := w.out ++ [UInt8.ofNat (line.length % 256), UInt8.ofNat (line.length / 256)] ++ line ++
        (if line.length % 2 = 1 then [0] else []) }
  else .error "line longer than 32767 bytes, the largest record"

/-- The loop of `write`.  Each turn takes a byte at least. -/
def writeLines : ℕ → VarWriter → List UInt8 → Except String VarWriter
  | 0, w, _ => .ok w
  | fuel + 1, w, rest =>
    if 10 ∈ rest then do
      let i := rest.idxOf 10
      let w ← record { w with begun := [] } (w.begun ++ rest.take i)
      writeLines fuel w (rest.drop (i + 1))
    else .ok { w with begun := w.begun ++ rest }

def write (w : VarWriter) (buf : List UInt8) : Except String VarWriter :=
  writeLines (buf.length + 1) w buf

/-- Writes a final unterminated line, if any; what was written and the longest record. -/
def finish (w : VarWriter) : Except String (List UInt8 × ℕ) :=
  if w.begun ≠ [] then do
    let w ← record { w with begun := [] } w.begun
    .ok (w.out, w.longest)
  else .ok (w.out, w.longest)

/-- A writer that is given some buffers, one after another. -/
def writeAll (bufs : List (List UInt8)) : Except String (List UInt8 × ℕ) := do
  let w ← bufs.foldlM write new
  w.finish

end VarWriter

end Ods
