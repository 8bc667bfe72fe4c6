/-
  Directory records and blocks (`layout/dir.rs`).
-/
import Vaxpunk.Ods.Layout.Block

namespace Ods

/-- Largest record a directory block holds: the block, less the -1 word that
    always ends the records. -/
def MAX_RECORD : ℕ := BLOCK - 2

def even (n : ℕ) : ℕ := n + n % 2

/-- One directory record (DIR$): a name and some of its versions. -/
structure DirRecord where
  /-- "NAME.TYPE", without version. -/
  name : List UInt8
  verlimit : ℕ
  /-- Bits 0-2: record type.  Bits 3-5: name type on ODS-5. -/
  flags : ℕ
  /-- (version, FID), in decreasing version order. -/
  entries : List (ℕ × Fid)
  /-- The byte that pads an odd-length name. -/
  pad : UInt8
  deriving DecidableEq, Repr

namespace DirRecord

/-- Encoded size, including the leading size word. -/
def size (r : DirRecord) : ℕ := 6 + even r.name.length + 8 * r.entries.length

/-- A number as a little-endian 16-bit word. -/
def word (n : ℕ) : List UInt8 := [UInt8.ofNat n, UInt8.ofNat (n >>> 8)]

/-- A version and file ID, 8 bytes. -/
def entryBytes (e : ℕ × Fid) : List UInt8 :=
  word e.1 ++ word e.2.num ++ word e.2.seq ++ [UInt8.ofNat e.2.rvn, UInt8.ofNat (e.2.num >>> 16)]

def write (r : DirRecord) : List UInt8 :=
  word (r.size - 2) ++ word r.verlimit ++ [UInt8.ofNat r.flags, UInt8.ofNat r.name.length] ++
    r.name ++ (if r.name.length % 2 = 1 then [r.pad] else []) ++ r.entries.flatMap entryBytes

end DirRecord

/-- The records of one directory block, plus whatever follows them (the -1
    word and stale bytes). -/
structure DirBlock where
  records : List DirRecord
  tail : List UInt8
  deriving DecidableEq, Repr

namespace DirBlock

def wordAt (bs : List UInt8) (i : ℕ) : ℕ := (bs.getD i 0).toNat + (bs.getD (i + 1) 0).toNat <<< 8

/-- The versions and file IDs of a value list, 8 bytes each. -/
def parseEntries : List UInt8 → List (ℕ × Fid)
  | v0 :: v1 :: n0 :: n1 :: s0 :: s1 :: r :: n2 :: bs =>
    (v0.toNat + v1.toNat <<< 8,
      ⟨n0.toNat + n1.toNat <<< 8 + n2.toNat <<< 16, s0.toNat + s1.toNat <<< 8, r.toNat⟩) ::
      parseEntries bs
  | _ => []

/-- The record in the bytes `rec`, size word included. -/
def parseRecord (rec : List UInt8) : Except String DirRecord :=
  let flags := (rec.getD 4 0).toNat
  let len := (rec.getD 5 0).toNat
  let values := 6 + even len
  if values > rec.length then .error "directory record name overflows the record"
  else if flags &&& 7 ≠ 0 then .error "unsupported directory record type"
  else if (rec.length - values) % 8 ≠ 0 ∨ rec.length = values then
    .error "bad directory record value list"
  else .ok {
    name := (rec.drop 6).take len
    verlimit := wordAt rec 2
    flags := flags
    entries := parseEntries (rec.drop values)
    pad := if len % 2 = 1 then rec.getD (6 + len) 0 else 0 }

/-- The records from the front of `bs` up to the -1 word, and the rest.  A
    record takes at least 6 bytes, so `fuel` of the block's size is enough. -/
def parseBytes : ℕ → List UInt8 → Except String DirBlock
  | 0, bs => .ok ⟨[], bs⟩
  | fuel + 1, bs =>
    if bs.length < 2 ∨ wordAt bs 0 = 0xffff then .ok ⟨[], bs⟩
    else
      let size := wordAt bs 0
      if size % 2 ≠ 0 ∨ size < 4 ∨ 2 + size > bs.length then .error "bad directory record size"
      else do
        let r ← parseRecord (bs.take (2 + size))
        let b ← parseBytes fuel (bs.drop (2 + size))
        return { b with records := r :: b.records }

def parse (b : Block) : Except String DirBlock := parseBytes BLOCK (Field.bytes b 0 BLOCK)

def used (b : DirBlock) : ℕ := (b.records.map DirRecord.size).sum

/-- Encodes the block, `none` if the records do not fit.  The old tail is kept
    when the records still end where they did; otherwise the block ends with
    the -1 word and zeros. -/
def toBlock (b : DirBlock) : Option Block :=
  if b.used > BLOCK then none
  else if b.tail.length = BLOCK - b.used then
    some (BitVec.ofNat _ (Field.ofBytes (b.records.flatMap DirRecord.write ++ b.tail)))
  else if b.used > MAX_RECORD then none
  else some (BitVec.ofNat _ (Field.ofBytes (b.records.flatMap DirRecord.write ++ [0xff, 0xff])))

end DirBlock

end Ods
