/-
  The structures of RMS indexed files (`rms/mod.rs`): key descriptors, area
  descriptors and bucket headers, with the flags in them.
-/
import Vaxpunk.Lib.Field
import Vaxpunk.Lib.Trap
import Vaxpunk.Ods.Layout.Header

namespace Rms

open Field

open Ods (BLOCK RecordAttrs)

abbrev Bytes := List UInt8

inductive Error where
  /-- A structure failed validation. -/
  | corrupt (what : String) (vbn : ℕ)
  /-- Valid, but not something we read. -/
  | unsupported (what : String)
  /-- A loader's spec or records that cannot be. -/
  | invalid (what : String)
  deriving DecidableEq, Repr

def corrupt {α : Type} (what : String) (vbn : ℕ) : Trap Error α := Trap.fail (.corrupt what vbn)

def KEY_LEN : ℕ := 102

def AREA_LEN : ℕ := 64

def BKT_HDR : ℕ := 14

namespace keyflag

def DUPKEYS : UInt8 := 0x01
def CHGKEYS : UInt8 := 0x02
def NULKEYS : UInt8 := 0x04
def IDX_COMPR : UInt8 := 0x08
def INITIDX : UInt8 := 0x10
def KEY_COMPR : UInt8 := 0x40
def REC_COMPR : UInt8 := 0x80

end keyflag

namespace dtype

def STRING : UInt8 := 0
def INT2 : UInt8 := 1
def BIN2 : UInt8 := 2
def INT4 : UInt8 := 3
def BIN4 : UInt8 := 4
def DECIMAL : UInt8 := 5
def INT8 : UInt8 := 6
def BIN8 : UInt8 := 7
def DESCENDING : UInt8 := 32

end dtype

-- Record control byte bits, in data records, RRVs and SIDR pointers.
namespace irc

def FIRST : UInt8 := 0x80

end irc

namespace bktcb

def LASTBKT : UInt8 := 0x01
def ROOTBKT : UInt8 := 0x02

end bktcb

/-- Little-endian unsigned integer. -/
def uint (b : Bytes) : ℕ := ofBytes b

/-- A number of `w` bytes as it is stored. -/
def leBytes (w v : ℕ) : Bytes := bytes (BitVec.ofNat (8 * w) v) 0 w

/-! ## Key descriptors -/

structure KeyDesc where
  raw : BitVec (8 * KEY_LEN)
  deriving DecidableEq

namespace KeyDesc

def toBytes (k : KeyDesc) : Bytes := bytes k.raw 0 KEY_LEN

def ianum (k : KeyDesc) : ℕ := get k.raw 6 1
def lanum (k : KeyDesc) : ℕ := get k.raw 7 1
def danum (k : KeyDesc) : ℕ := get k.raw 8 1
def flags (k : KeyDesc) : UInt8 := UInt8.ofNat (get k.raw 16 1)
def datatype (k : KeyDesc) : UInt8 := UInt8.ofNat (get k.raw 17 1)
def segments (k : KeyDesc) : ℕ := get k.raw 18 1
def nullchar (k : KeyDesc) : UInt8 := UInt8.ofNat (get k.raw 19 1)
def keysz (k : KeyDesc) : ℕ := get k.raw 20 1
def minrecsz (k : KeyDesc) : ℕ := get k.raw 22 2
def sizes (k : KeyDesc) (i : ℕ) : ℕ := get k.raw (44 + i) 1

/-- A field of `w` bytes at `off` set to `v`. -/
def set (k : KeyDesc) (off w v : ℕ) : KeyDesc := ⟨put k.raw off w v⟩

def setFlags (k : KeyDesc) (f : UInt8) : KeyDesc := k.set 16 1 f.toNat

/-- Offset of segment `i` in the record. -/
def position (k : KeyDesc) (i : ℕ) : ℕ := get k.raw (28 + 2 * (i % 8)) 2

/-- (position, size) of each segment. -/
def segs (k : KeyDesc) : List (ℕ × ℕ) :=
  (List.range (min k.segments 8)).map fun i => (k.position i, k.sizes i)

def has (k : KeyDesc) (flag : UInt8) : Bool := k.flags &&& flag != 0

end KeyDesc

structure AreaDesc where
  raw : BitVec (8 * AREA_LEN)
  deriving DecidableEq

namespace AreaDesc

def toBytes (a : AreaDesc) : Bytes := bytes a.raw 0 AREA_LEN

def set (a : AreaDesc) (off w v : ℕ) : AreaDesc := ⟨put a.raw off w v⟩

end AreaDesc

structure BucketHeader where
  raw : BitVec (8 * BKT_HDR)
  deriving DecidableEq

namespace BucketHeader

def toBytes (h : BucketHeader) : Bytes := bytes h.raw 0 BKT_HDR

def set (h : BucketHeader) (off w v : ℕ) : BucketHeader := ⟨put h.raw off w v⟩

end BucketHeader

end Rms
