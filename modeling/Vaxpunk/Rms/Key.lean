/-
  Keys (`rms/mod.rs`): the key of a record, the order of keys of each data type,
  and the compression of keys and of data records.
-/
import Vaxpunk.Rms.Layout

namespace Rms

open Trap

/-! ## The key of a record -/

/-- The segments of a record, one after another; none if the record is too
    short to hold them. -/
def keyAt (record : Bytes) : List (ℕ × ℕ) → Option Bytes
  | [] => some []
  | (pos, size) :: segs => do
    let s ← get? record pos (pos + size)
    let k ← keyAt record segs
    return s ++ k

def KeyDesc.keyOf (k : KeyDesc) (record : Bytes) : Option Bytes := keyAt record k.segs

/-! ## The order of keys -/

/-- The integer of a key of at most 16 bytes, its last byte's sign carried on if
    it is signed. -/
def keyInt (k : Bytes) (signed : Bool) : ℤ :=
  let fill : UInt8 := if signed ∧ (k.getLast?.any fun c => c &&& 0x80 != 0) then 0xff else 0
  (BitVec.ofNat 128 (Field.ofBytes (k ++ List.replicate (16 - k.length) fill))).toInt

/-- A packed decimal number as RMS orders it: negative and not zero, then its
    digits, the bytes but the last's sign nibble, which compare as they are; a
    negative one's the other way round. -/
def packed (k : Bytes) : Bool × Bytes :=
  let last := k.getLastD 0
  let sign := last &&& 0xf
  let digits := k.dropLast ++ [last &&& 0xf0]
  let negative := (sign == 0xb || sign == 0xd) && digits.any (· != 0)
  (!negative, if negative then digits.map (~~~·) else digits)

/-- The size of the integers of a data type, 0 for the others. -/
def intWidth (datatype : UInt8) : ℕ :=
  let t := datatype &&& ~~~dtype.DESCENDING
  if t = dtype.INT2 ∨ t = dtype.BIN2 then 2
  else if t = dtype.INT4 ∨ t = dtype.BIN4 then 4
  else if t = dtype.INT8 ∨ t = dtype.BIN8 then 8
  else 0

/-- Orders two keys as RMS does for a data type: strings (and segmented keys) as
    unsigned bytes, integers as integers, packed decimal by value, descending
    types the other way round. -/
def compareKeys (datatype : UInt8) (segments : ℕ) (a b : Bytes) : Ordering :=
  let t := datatype &&& ~~~dtype.DESCENDING
  let width := intWidth datatype
  let o :=
    if segments = 1 ∧ width > 0 ∧ a.length = width ∧ b.length = width then
      let signed := t = dtype.INT2 ∨ t = dtype.INT4 ∨ t = dtype.INT8
      compare (keyInt a signed) (keyInt b signed)
    else if t = dtype.DECIMAL ∧ a.length = b.length ∧ a ≠ [] then
      (compare (packed a).1 (packed b).1).then (compare (packed a).2 (packed b).2)
    else compare a b
  if datatype &&& dtype.DESCENDING ≠ 0 then o.swap else o

/-! ## Compressed keys -/

def resize (n : ℕ) (a : UInt8) (xs : Bytes) : Bytes := xs.take n ++ List.replicate (n - xs.length) a

/-- Expands a compressed key (length, front count, bytes) at the start of `b`
    against the key before it: the key and the bytes it took. -/
def expandKey (b prev : Bytes) (keysz : ℕ) : Trap Unit (Bytes × ℕ) := do
  let len ← okOr () b[0]?
  let front ← okOr () b[1]?
  let len := len.toNat
  let front := front.toNat
  let stored ← okOr () (get? b 2 (2 + len))
  if front > prev.length ∨ front + len > keysz ∨ front + len = 0 then fail ()
  else do
    let shared ← range prev 0 front
    let k := shared ++ stored
    let last ← okOr () k.getLast?
    pure (resize keysz last k, 2 + len)

/-- How many bytes two keys share in front. -/
def sharedFront : Bytes → Bytes → ℕ
  | a :: as, b :: bs => if a = b then sharedFront as bs + 1 else 0
  | _, _ => 0

/-- The end of a key whose run of the last byte is cut to one, `front + 1` at
    least. -/
def cutRun (key : Bytes) (front : ℕ) : ℕ → ℕ
  | 0 => 0
  | n + 1 => if n + 1 > front + 1 ∧ key[n - 1]? = key[n]? then cutRun key front n else n + 1

/-- How many bytes of a key are counted, all but one at most. -/
def keyFront (key : Bytes) (prev : Option Bytes) : ℕ :=
  min (match prev with | none => 0 | some p => sharedFront p key) (key.length - 1)

/-- Compresses a key against the one before it in the bucket: the bytes they
    share in front are counted, a run of the last byte is cut to one. -/
def compressKey (key : Bytes) (prev : Option Bytes) : Bytes :=
  let front := keyFront key prev
  let stop := cutRun key front key.length
  UInt8.ofNat (stop - front) :: UInt8.ofNat front :: (key.drop front).take (stop - front)

/-! ## Compressed records -/

/-- The longest record RMS has: anything that expands past it is corrupt. -/
def MAX_RECORD : ℕ := 65535

/-- The repeats of the last byte of a segment. -/
def repeats (lit : Bytes) (count : UInt8) : Trap Unit Bytes :=
  if count > 0 then do
    let last ← okOr () lit.getLast?
    pure (List.replicate count.toNat last)
  else pure []

/-- Expands the first segment of `b`, a length word, bytes, and a count of more
    repeats of the last of them: what is after it, and `out` with what it stands
    for. -/
def expandSegment (b out : Bytes) : Trap Unit (Bytes × Bytes) := do
  let b0 ← okOr () b[0]?
  let b1 ← okOr () b[1]?
  let len := uint [b0, b1]
  let lit ← okOr () (get? b 2 (2 + len))
  let count ← okOr () b[2 + len]?
  let more ← repeats lit count
  let out := out ++ lit ++ more
  if out.length > MAX_RECORD then fail ()
  else do
    let rest ← range b (3 + len) b.length
    pure (rest, out)

/-- Expands data record compression.  A segment has three bytes at least, so
    `fuel` may be the number of bytes. -/
def expandSegments : ℕ → Bytes → Bytes → Trap Unit Bytes
  | _, [], out => pure out
  | 0, _ :: _, _ => panic
  | fuel + 1, b0 :: bs, out => do
    let (rest, out) ← expandSegment (b0 :: bs) out
    expandSegments fuel rest out

/-- One segment: `lit`, and `count` more of its last byte. -/
def segment (lit : Bytes) (count : ℕ) : Bytes := leBytes 2 lit.length ++ lit ++ [UInt8.ofNat count]

/-- The segments of a run of `left` bytes at `i`, the first one with the literal
    from `start` on.  A count is 255 at most, so a longer run starts another
    segment. -/
def runSegments (data : Bytes) : ℕ → ℕ → ℕ → ℕ → Bytes
  | 0, _, _, _ => []
  | fuel + 1, left, start, i =>
    if left > 0 then
      let count := min (left - 1) 255
      segment ((data.drop start).take (i + 1 - start)) count ++
        runSegments data fuel (left - (1 + count)) (i + 1 + count) (i + 1 + count)
    else []

/-- The segments of the data from `litStart` on, which has no runs up to `i`. -/
def compressFrom (data : Bytes) : ℕ → ℕ → ℕ → Bytes
  | 0, _, _ => []
  | fuel + 1, litStart, i =>
    match data.drop i with
    | [] => if litStart < data.length then segment (data.drop litStart) 0 else []
    | c :: rest =>
      let run := ((c :: rest).takeWhile (· == c)).length
      if run ≥ 6 ∨ i + run = data.length ∧ run ≥ 5 then
        runSegments data run run litStart i ++ compressFrom data fuel (i + run) (i + run)
      else compressFrom data fuel litStart (i + run)

/-- Compresses data the way RMS appears to: nothing for 8 bytes or fewer, else
    runs of 6 or more of a byte, and of 5 at the end. -/
def compressSegments (data : Bytes) : Bytes :=
  if data.length ≤ 8 then
    if data.length > 0 then segment data 0 else []
  else compressFrom data (data.length + 1) 0 0

end Rms
