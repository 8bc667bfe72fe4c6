/-
  The home block (`layout/home.rs`) and the storage control block
  (`layout/scb.rs`).
-/
import Vaxpunk.Ods.Layout.Block

namespace Ods

open Field

/-- Home block (HM2$): identifies the volume and locates the index file. -/
structure HomeBlock where
  raw : Block
  deriving DecidableEq

namespace HomeBlock

def default : HomeBlock := ⟨0⟩

instance : Inhabited HomeBlock := ⟨default⟩

def homelbn (h : HomeBlock) : ℕ := get h.raw 0 4
def setHomelbn (h : HomeBlock) (v : ℕ) : HomeBlock := ⟨put h.raw 0 4 v⟩
def alhomelbn (h : HomeBlock) : ℕ := get h.raw 4 4
def setAlhomelbn (h : HomeBlock) (v : ℕ) : HomeBlock := ⟨put h.raw 4 4 v⟩
def altidxlbn (h : HomeBlock) : ℕ := get h.raw 8 4
def setAltidxlbn (h : HomeBlock) (v : ℕ) : HomeBlock := ⟨put h.raw 8 4 v⟩
def struclev (h : HomeBlock) : ℕ := get h.raw 12 2
def setStruclev (h : HomeBlock) (v : ℕ) : HomeBlock := ⟨put h.raw 12 2 v⟩
def cluster (h : HomeBlock) : ℕ := get h.raw 14 2
def setCluster (h : HomeBlock) (v : ℕ) : HomeBlock := ⟨put h.raw 14 2 v⟩
def homevbn (h : HomeBlock) : ℕ := get h.raw 16 2
def setHomevbn (h : HomeBlock) (v : ℕ) : HomeBlock := ⟨put h.raw 16 2 v⟩
def ibmapvbn (h : HomeBlock) : ℕ := get h.raw 22 2
def setIbmapvbn (h : HomeBlock) (v : ℕ) : HomeBlock := ⟨put h.raw 22 2 v⟩
def ibmaplbn (h : HomeBlock) : ℕ := get h.raw 24 4
def setIbmaplbn (h : HomeBlock) (v : ℕ) : HomeBlock := ⟨put h.raw 24 4 v⟩
def maxfiles (h : HomeBlock) : ℕ := get h.raw 28 4
def setMaxfiles (h : HomeBlock) (v : ℕ) : HomeBlock := ⟨put h.raw 28 4 v⟩
def ibmapsize (h : HomeBlock) : ℕ := get h.raw 32 2
def setIbmapsize (h : HomeBlock) (v : ℕ) : HomeBlock := ⟨put h.raw 32 2 v⟩
def resfiles (h : HomeBlock) : ℕ := get h.raw 34 2
def setResfiles (h : HomeBlock) (v : ℕ) : HomeBlock := ⟨put h.raw 34 2 v⟩
def rvn (h : HomeBlock) : ℕ := get h.raw 38 2
def setcount (h : HomeBlock) : ℕ := get h.raw 40 2
def checksum1 (h : HomeBlock) : ℕ := get h.raw 58 2
def setChecksum1 (h : HomeBlock) (v : ℕ) : HomeBlock := ⟨put h.raw 58 2 v⟩
def checksum2 (h : HomeBlock) : ℕ := get h.raw 510 2
def setChecksum2 (h : HomeBlock) (v : ℕ) : HomeBlock := ⟨put h.raw 510 2 v⟩

def level (h : HomeBlock) : ℕ := h.struclev >>> 8

/-- VBN of the first file header in the index file: header n is at this VBN
    plus n - 1. -/
def headerVbn0 (h : HomeBlock) : ℕ := h.ibmapvbn + h.ibmapsize

/-- Why a block is not a valid home block. -/
inductive Fault where
  | badChecksum
  | structureLevel
  | zeroLbn
  | zeroCluster
  | noIndexBitmap
  | fileCounts
  | bitmapTooSmall
  deriving DecidableEq, Repr

/-- Why this block is not a valid home block, if it is not. -/
def invalid (h : HomeBlock) : Option Fault :=
  let version := h.struclev &&& 0xff
  if h.checksum1 ≠ checksum h.raw 29 ∨ h.checksum2 ≠ checksum h.raw 255 then some .badChecksum
  else if ¬(h.level = 2 ∨ h.level = 5) ∨ version < 1 then some .structureLevel
  else if h.homelbn = 0 ∨ h.alhomelbn = 0 ∨ h.altidxlbn = 0 then some .zeroLbn
  else if h.cluster = 0 ∨ h.homevbn = 0 ∨ h.ibmapvbn = 0 then some .zeroCluster
  else if h.ibmaplbn = 0 ∨ h.ibmapsize = 0 then some .noIndexBitmap
  else if h.resfiles < 5 ∨ h.maxfiles ≤ h.resfiles then some .fileCounts
  else if h.maxfiles ≥ 1 <<< 24 ∨ h.maxfiles > h.ibmapsize * 4096 then some .bitmapTooSmall
  else none

def updateChecksums (h : HomeBlock) : HomeBlock :=
  let h := h.setChecksum1 (checksum h.raw 29)
  h.setChecksum2 (checksum h.raw 255)

end HomeBlock

/-- Storage control block (SCB$): VBN 1 of BITMAP.SYS. -/
structure Scb where
  raw : Block
  deriving DecidableEq

namespace Scb

def default : Scb := ⟨0⟩

def cluster (s : Scb) : ℕ := get s.raw 2 2
def setCluster (s : Scb) (v : ℕ) : Scb := ⟨put s.raw 2 2 v⟩
def volsize (s : Scb) : ℕ := get s.raw 4 4
def setVolsize (s : Scb) (v : ℕ) : Scb := ⟨put s.raw 4 4 v⟩
def checksum (s : Scb) : ℕ := get s.raw 510 2
def setChecksum (s : Scb) (v : ℕ) : Scb := ⟨put s.raw 510 2 v⟩

/-- VMS V1 left the checksum zero, so zero passes. -/
def checksumOk (s : Scb) : Bool := s.checksum == 0 || s.checksum == Ods.checksum s.raw 255

def updateChecksum (s : Scb) : Scb := s.setChecksum (Ods.checksum s.raw 255)

end Scb

end Ods
