/-
  File headers (`layout/header.rs`): the header block and its areas, retrieval
  pointers, record attributes and the ident area.
-/
import Vaxpunk.Ods.Layout.Block

namespace Ods

open Field

/-! ## File characteristics -/

namespace fch

def DIRECTORY : ℕ := 1 <<< 13
def MARKDEL : ℕ := 1 <<< 15

def has (x m : ℕ) : Bool := x &&& m != 0

/-- `x & !m`, on 32-bit words. -/
def without (x m : ℕ) : ℕ := x &&& (m ^^^ (2 ^ 32 - 1))

end fch

/-! ## Record attributes -/

/-- Record attributes (FAT$), the 32 bytes RMS keeps in every file header. -/
structure RecordAttrs where
  rtype : ℕ
  rattrib : ℕ
  rsize : ℕ
  /-- Highest allocated VBN. -/
  hiblk : ℕ
  /-- End of file VBN. -/
  efblk : ℕ
  /-- First free byte in `efblk`. -/
  ffbyte : ℕ
  bktsize : ℕ
  vfcsize : ℕ
  maxrec : ℕ
  defext : ℕ
  gbc : ℕ
  reserved : ℕ
  /-- Default version limit, used only in directory headers. -/
  versions : ℕ
  deriving DecidableEq, Repr

namespace RecordAttrs

def default : RecordAttrs := ⟨0, 0, 0, 0, 0, 0, 0, 0, 0, 0, 0, 0, 0⟩

instance : Inhabited RecordAttrs := ⟨default⟩

/-- Two words, the high one first. -/
def swapped (b : BitVec 256) (i : ℕ) : ℕ := get b i 2 <<< 16 + get b (i + 2) 2

def fromBytes (b : BitVec 256) : RecordAttrs where
  rtype := get b 0 1
  rattrib := get b 1 1
  rsize := get b 2 2
  hiblk := swapped b 4
  efblk := swapped b 8
  ffbyte := get b 12 2
  bktsize := get b 14 1
  vfcsize := get b 15 1
  maxrec := get b 16 2
  defext := get b 18 2
  gbc := get b 20 2
  reserved := get b 22 8
  versions := get b 30 2

def toBytes (r : RecordAttrs) : BitVec 256 :=
  let b : BitVec 256 := 0
  let b := put b 2 2 r.rsize
  let b := put b 4 2 (r.hiblk >>> 16)
  let b := put b 6 2 r.hiblk
  let b := put b 8 2 (r.efblk >>> 16)
  let b := put b 10 2 r.efblk
  let b := put b 12 2 r.ffbyte
  let b := put b 16 2 r.maxrec
  let b := put b 18 2 r.defext
  let b := put b 20 2 r.gbc
  let b := put b 30 2 r.versions
  let b := put b 0 1 r.rtype
  let b := put b 1 1 r.rattrib
  let b := put b 14 1 r.bktsize
  let b := put b 15 1 r.vfcsize
  put b 22 8 r.reserved

/-- Size of the file's data in bytes, from the end of file mark. -/
def eofBytes (r : RecordAttrs) : ℕ :=
  match r.efblk with
  | 0 => 0
  | n + 1 => n * BLOCK + r.ffbyte

end RecordAttrs

/-! ## The header block -/

/-- File header (FH2$): one block in INDEXF.SYS describing one file, or one
    more piece of a file's map. -/
structure Header where
  raw : Block
  deriving DecidableEq

namespace Header

def default : Header := ⟨0⟩

instance : Inhabited Header := ⟨default⟩

def idoffset (h : Header) : ℕ := get h.raw 0 1
def setIdoffset (h : Header) (v : ℕ) : Header := ⟨put h.raw 0 1 v⟩
def mpoffset (h : Header) : ℕ := get h.raw 1 1
def setMpoffset (h : Header) (v : ℕ) : Header := ⟨put h.raw 1 1 v⟩
def acoffset (h : Header) : ℕ := get h.raw 2 1
def setAcoffset (h : Header) (v : ℕ) : Header := ⟨put h.raw 2 1 v⟩
def rsoffset (h : Header) : ℕ := get h.raw 3 1
def setRsoffset (h : Header) (v : ℕ) : Header := ⟨put h.raw 3 1 v⟩
def segNum (h : Header) : ℕ := get h.raw 4 2
def setSegNum (h : Header) (v : ℕ) : Header := ⟨put h.raw 4 2 v⟩
def struclev (h : Header) : ℕ := get h.raw 6 2
def setStruclev (h : Header) (v : ℕ) : Header := ⟨put h.raw 6 2 v⟩
def fid (h : Header) : Fid := Fid.get h.raw 8
def setFid (h : Header) (f : Fid) : Header := ⟨Fid.put h.raw 8 f⟩
def extFid (h : Header) : Fid := Fid.get h.raw 14
def setExtFid (h : Header) (f : Fid) : Header := ⟨Fid.put h.raw 14 f⟩
def recattr (h : Header) : BitVec 256 := BitVec.ofNat 256 (get h.raw 20 32)
def setRecattr (h : Header) (v : BitVec 256) : Header := ⟨put h.raw 20 32 v.toNat⟩
def filechar (h : Header) : ℕ := get h.raw 52 4
def setFilechar (h : Header) (v : ℕ) : Header := ⟨put h.raw 52 4 v⟩
def mapInuse (h : Header) : ℕ := get h.raw 58 1
def setMapInuse (h : Header) (v : ℕ) : Header := ⟨put h.raw 58 1 v⟩
def fileowner (h : Header) : ℕ := get h.raw 60 4
def setFileowner (h : Header) (v : ℕ) : Header := ⟨put h.raw 60 4 v⟩
def fileprot (h : Header) : ℕ := get h.raw 64 2
def setFileprot (h : Header) (v : ℕ) : Header := ⟨put h.raw 64 2 v⟩
def setBacklink (h : Header) (f : Fid) : Header := ⟨Fid.put h.raw 66 f⟩
/-- ODS-5 hard link count; reserved on ODS-2. -/
def linkcount (h : Header) : ℕ := get h.raw 74 2
def highwater (h : Header) : ℕ := get h.raw 76 4
def setHighwater (h : Header) (v : ℕ) : Header := ⟨put h.raw 76 4 v⟩
def checksum (h : Header) : ℕ := get h.raw 510 2
def setChecksum (h : Header) (v : ℕ) : Header := ⟨put h.raw 510 2 v⟩

/-- Why a block is not a valid file header. -/
inductive Fault where
  | badChecksum
  | structureLevel
  | offsetsOutOfOrder
  | mapOverflows
  | zeroFileNumber
  deriving DecidableEq, Repr

def Fault.text : Fault → String
  | badChecksum => "bad checksum"
  | structureLevel => "unsupported structure level"
  | offsetsOutOfOrder => "area offsets out of order"
  | mapOverflows => "map area overflows"
  | zeroFileNumber => "zero file number"

/-- Why this block is not a valid file header, if it is not. -/
def invalid (h : Header) : Option Fault :=
  let (id, mp, ac, rs) := (h.idoffset, h.mpoffset, h.acoffset, h.rsoffset)
  let level := h.struclev >>> 8
  if h.checksum ≠ Ods.checksum h.raw 255 then some .badChecksum
  else if ¬(level = 2 ∨ level = 5) ∨ h.struclev &&& 0xff = 0 then some .structureLevel
  else if id < 38 ∨ id > mp ∨ mp > ac ∨ ac > rs then some .offsetsOutOfOrder
  else if h.mapInuse > ac - mp then some .mapOverflows
  else if h.fid.num = 0 then some .zeroFileNumber
  else none

/-- A deleted header keeps its sequence number for the next user of the slot,
    and has a zero file number and checksum. -/
def isDeleted (h : Header) : Bool :=
  fch.has h.filechar fch.MARKDEL && h.fid.num == 0 && h.checksum == 0

def updateChecksum (h : Header) : Header := h.setChecksum (Ods.checksum h.raw 255)

/-- Where the area between two word offsets starts and how long it is, in
    bytes, clipped to the checksum word. -/
def area (start stop : ℕ) : ℕ × ℕ :=
  let (a, b) := (min (start * 2) (BLOCK - 2), min (stop * 2) (BLOCK - 2))
  (a, max b a - a)

def identLen (h : Header) : ℕ := (area h.idoffset h.mpoffset).2

def mapArea (h : Header) : List UInt8 :=
  let (at_, len) := area h.mpoffset (min (min (h.mpoffset + h.mapInuse) 255) h.acoffset)
  bytes h.raw at_ len

/-- Map area capacity in bytes: everything up to the access control list. -/
def mapCapacity (h : Header) : ℕ := (area h.mpoffset h.acoffset).2

/-- Replaces the map area contents; `none` if they do not fit. -/
def setMap (h : Header) (map : List UInt8) : Option Header :=
  let at_ := h.mpoffset * 2
  let cap := h.mapCapacity
  if map.length > cap ∨ map.length / 2 > 255 then none
  else some (setMapInuse ⟨putBytes (put h.raw at_ cap 0) at_ map⟩ (map.length / 2))

/-- The highwater mark, when the header area is long enough to hold it. -/
def highwaterMark (h : Header) : Option ℕ := if h.idoffset ≥ 40 then some h.highwater else none

def recordAttrs (h : Header) : RecordAttrs := RecordAttrs.fromBytes h.recattr

def setRecordAttrs (h : Header) (r : RecordAttrs) : Header := h.setRecattr r.toBytes

end Header

/-! ## The ident area -/

def FI2_LENGTH : ℕ := 120
def FI5_NAME : ℕ := 76
def FI5_MIN : ℕ := 120
def FI5_MAX : ℕ := 324

/-- The ident area, decoded: the file's primary name, as stored
    ("NAME.TYPE;VERSION"), and its dates. -/
structure Ident where
  name : List UInt8
  nameType : NameType
  revision : ℕ
  credate : ℕ
  revdate : ℕ
  expdate : ℕ
  bakdate : ℕ
  accdate : ℕ
  attdate : ℕ
  deriving DecidableEq, Repr

def Ident.default : Ident := ⟨[], .ods2, 0, 0, 0, 0, 0, 0, 0⟩

namespace Header

/-- The ident area in a buffer of `FI5_MAX` bytes, padded with zeros. -/
def identBuf (h : Header) : BitVec (8 * FI5_MAX) :=
  BitVec.ofNat _ (get h.raw (h.idoffset * 2) (min h.identLen FI5_MAX))

/-- Ident area size in words needed to hold a name at a structure level. -/
def identWords (level nameLen : ℕ) : ℕ :=
  let bytes := if level = 5 then max (FI5_NAME + nameLen) FI5_MIN else FI2_LENGTH
  (bytes + 1) / 2 % 2 ^ 8

/-- The buffer with the ODS-5 ident fields stored, in an area of `n` bytes. -/
def putFi5 (f : BitVec (8 * FI5_MAX)) (n : ℕ) (id : Ident) : BitVec (8 * FI5_MAX) :=
  let len := min id.name.length (n - FI5_NAME)
  let f := put f 0 1 (fch.without (get f 0 1) 3 ||| id.nameType.code)
  let f := put f 1 1 len
  let f := put f 2 2 id.revision
  let f := put f 4 8 id.credate
  let f := put f 12 8 id.revdate
  let f := put f 20 8 id.expdate
  let f := put f 28 8 id.bakdate
  let f := put f 36 8 id.accdate
  let f := put f 44 8 id.attdate
  let f := put f FI5_NAME (FI5_MAX - FI5_NAME) 0
  putBytes f FI5_NAME (id.name.take len)

/-- The buffer with the ODS-2 ident fields stored. -/
def putFi2 (f : BitVec (8 * FI5_MAX)) (id : Ident) : BitVec (8 * FI5_MAX) :=
  let name := id.name.take 86 ++ List.replicate (86 - id.name.length) 32
  let f := putBytes f 0 (name.take 20)
  let f := putBytes f 54 (name.drop 20)
  let f := put f 20 2 id.revision
  let f := put f 22 8 id.credate
  let f := put f 30 8 id.revdate
  let f := put f 38 8 id.expdate
  put f 46 8 id.bakdate

/-- Writes the known ident fields, leaving the others as they are.  Names are
    cut to what the area holds. -/
def setIdent (h : Header) (id : Ident) : Header :=
  let n := min h.identLen FI5_MAX
  let f := if h.struclev >>> 8 = 5 then putFi5 h.identBuf n id else putFi2 h.identBuf id
  ⟨put h.raw (h.idoffset * 2) n f.toNat⟩

end Header

/-! ## Retrieval pointers -/

/-- A retrieval pointer from a header's map area.  `count` is in blocks,
    `format` is how it is encoded (1 to 3). -/
inductive Pointer where
  /-- Format 0: placement control word, maps nothing. -/
  | placement (w : ℕ)
  | extent (format count lbn : ℕ)
  deriving DecidableEq, Repr

namespace Pointer

/-- An extent in the smallest format that can encode it, `none` if even format
    3 cannot. -/
def extent? (count lbn : ℕ) : Option Pointer :=
  if 1 ≤ count ∧ count ≤ 256 ∧ lbn < 0x400000 then some (.extent 1 count lbn)
  else if 1 ≤ count ∧ count ≤ 0x4000 then some (.extent 2 count lbn)
  else if 1 ≤ count ∧ count ≤ 0x40000000 then some (.extent 3 count lbn)
  else none

def size : Pointer → ℕ
  | placement _ => 2
  | extent format _ _ => 2 + 2 * format

/-- The words of a pointer, in its own format. -/
def words : Pointer → List ℕ
  | placement w => [w]
  | extent 1 count lbn =>
    [0x4000 + (lbn >>> 16 % 0x40) <<< 8 + (count - 1) % 0x100, lbn % 2 ^ 16]
  | extent 2 count lbn =>
    [0x8000 + (count - 1) % 0x4000, lbn % 2 ^ 16, lbn >>> 16 % 2 ^ 16]
  | extent _ count lbn =>
    [0xc000 + (count - 1) >>> 16 % 0x4000, (count - 1) % 2 ^ 16, lbn % 2 ^ 16, lbn >>> 16 % 2 ^ 16]

end Pointer

def leWord (w : ℕ) : List UInt8 := [UInt8.ofNat (w % 2 ^ 8), UInt8.ofNat (w >>> 8)]

/-- Encodes pointers, each in its own format. -/
def encodeMap (ptrs : List Pointer) : List UInt8 := ptrs.flatMap fun p => p.words.flatMap leWord

/-- The 16-bit words of a byte string; a last odd byte is dropped. -/
def leWords : List UInt8 → List ℕ
  | a :: b :: cs => (a.toNat + b.toNat <<< 8) :: leWords cs
  | _ => []

/-- Decodes the words of a map area.  Fails on a truncated pointer. -/
def decodeWords : List ℕ → Except String (List Pointer)
  | [] => .ok []
  | w0 :: ws =>
    match w0 >>> 14, ws with
    | 0, ws => (decodeWords ws).map (.placement w0 :: ·)
    | 1, lo :: ws =>
      (decodeWords ws).map (.extent 1 (w0 % 0x100 + 1) ((w0 >>> 8 % 0x40) <<< 16 + lo) :: ·)
    | 2, lo :: hi :: ws =>
      (decodeWords ws).map (.extent 2 (w0 % 0x4000 + 1) (lo + hi <<< 16) :: ·)
    | 1, _ | 2, _ => .error "truncated map pointer"
    | _, clo :: lo :: hi :: ws =>
      (decodeWords ws).map (.extent 3 ((w0 % 0x4000) <<< 16 + clo + 1) (lo + hi <<< 16) :: ·)
    | _, _ => .error "truncated map pointer"

def decodeMap (m : List UInt8) : Except String (List Pointer) := decodeWords (leWords m)

end Ods
