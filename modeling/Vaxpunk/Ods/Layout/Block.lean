/-
  Blocks, checksums and file identifiers (`layout/mod.rs`).
-/
import Vaxpunk.Lib.Field

namespace Ods

/-- Size of a logical block, in bytes. -/
def BLOCK : ℕ := 512

/-- A logical block, 512 bytes. -/
abbrev Block := BitVec 4096

def BITS : ℕ := BLOCK * 8

/-- Additive 16-bit checksum of the first `words` words. -/
def checksum (b : Block) : ℕ → ℕ
  | 0 => 0
  | words + 1 => (checksum b words + Field.get b (2 * words) 2) % 2 ^ 16

/-- File identifier: a 24-bit file number, a sequence number that changes each
    time the number is reused, and the relative volume number. -/
structure Fid where
  num : ℕ
  seq : ℕ
  rvn : ℕ
  deriving DecidableEq, Repr, Inhabited

namespace Fid

def new (num seq : ℕ) : Fid := ⟨num, seq, 0⟩

def zero : Fid := ⟨0, 0, 0⟩

def isZero (f : Fid) : Bool := f.num == 0

/-- On disk: number low word, sequence, RVN byte, number high byte. -/
def get {n : ℕ} (b : BitVec n) (off : ℕ) : Fid where
  num := Field.get b off 2 + Field.get b (off + 5) 1 <<< 16
  seq := Field.get b (off + 2) 2
  rvn := Field.get b (off + 4) 1

def put {n : ℕ} (b : BitVec n) (off : ℕ) (f : Fid) : BitVec n :=
  Field.put (Field.put (Field.put (Field.put b off 2 f.num) (off + 2) 2 f.seq) (off + 4) 1 f.rvn)
    (off + 5) 1 (f.num >>> 16)

end Fid

/-- How a name is encoded, both in directory records and ident areas. -/
inductive NameType where
  | ods2
  | isl1
  | ucs2
  deriving DecidableEq, Repr, Inhabited

namespace NameType

def code : NameType → ℕ
  | ods2 => 0
  | isl1 => 1
  | ucs2 => 3

end NameType

/-- Structure level of a volume. -/
inductive Level where
  | ods2
  | ods5
  deriving DecidableEq, Repr, Inhabited

def Level.number : Level → ℕ
  | ods2 => 2
  | ods5 => 5

end Ods
