/-
  Loading records into a new indexed file (`rms/load.rs`): sorted by the primary
  key into data buckets, an index built over them level by level up to one root,
  then each alternate key's SIDRs and their index.

  Block numbers are 32-bit numbers: a sum that is too large is a panic.
-/
import Vaxpunk.Rms.Read

namespace Rms

open Trap

open Ods (BLOCK RecordAttrs)

/-! ## What a file is to be -/

structure AreaSpec where
  /-- Bucket size, 1 to 63 blocks. -/
  bktsz : UInt8
  /-- Blocks to give the area even if it needs fewer. -/
  alloc : UInt32
  /-- Default extension, blocks. -/
  deq : UInt16
  deriving DecidableEq

structure KeySpec where
  /-- Each segment's position in the record and size. -/
  segments : List (UInt16 × UInt8)
  datatype : UInt8
  dups : Bool
  changes : Bool
  /-- Records whose key is all `nullValue` aren't in an alternate key's index. -/
  nullKey : Bool
  nullValue : UInt8
  keyCompr : Bool
  /-- Data record compression: the primary key only. -/
  recCompr : Bool
  idxCompr : Bool
  /-- Bytes of a data (or SIDR) and of an index bucket a load fills; 0 for all of
      it. -/
  dataFill : UInt16
  indexFill : UInt16
  dataArea : UInt8
  indexArea : UInt8
  level1Area : UInt8
  name : Bytes
  deriving DecidableEq

/-- What a new indexed file is to be: what an FDL file says. -/
structure Spec where
  /-- FIX or VAR. -/
  rfm : UInt8
  /-- The longest record: the record size for `FIX`, 0 for no limit. -/
  mrs : UInt16
  /-- Record attributes for the file header. -/
  rat : UInt8
  areas : List AreaSpec
  /-- Key 0, the primary key, first. -/
  keys : List KeySpec
  /-- The file is made a whole number of these blocks; 0 or 1 for any. -/
  cluster : UInt32
  deriving DecidableEq

namespace KeySpec

/-- A string key of one segment, without duplicates or compression, in area 0. -/
def string (position : UInt16) (size : UInt8) : KeySpec :=
  ⟨[(position, size)], dtype.STRING, false, false, false, 0, false, false, false, 0, 0, 0, 0, 0, []⟩

/-- Position and size of each segment. -/
def segs (k : KeySpec) : List (ℕ × ℕ) := k.segments.map fun g => (g.1.toNat, g.2.toNat)

def size (k : KeySpec) : ℕ := (k.segs.map Prod.snd).sum

/-- The shortest record that holds the key. -/
def minRecord (k : KeySpec) : ℕ := (k.segs.map fun g => g.1 + g.2).foldl max 0

def keyOf (k : KeySpec) (record : Bytes) : Option Bytes := keyAt record k.segs

def compare (k : KeySpec) (a b : Bytes) : Ordering := compareKeys k.datatype (k.segments.length % 2 ^ 8) a b

def flags (k : KeySpec) (primary : Bool) : UInt8 :=
  ([(k.dups, keyflag.DUPKEYS), (k.changes && !primary, keyflag.CHGKEYS), (k.nullKey && !primary, keyflag.NULKEYS),
    (k.idxCompr, keyflag.IDX_COMPR), (k.keyCompr, keyflag.KEY_COMPR),
    (k.recCompr && primary, keyflag.REC_COMPR)].filter Prod.fst).foldl (fun f b => f ||| b.2) 0

end KeySpec

namespace Spec

def bad {α : Type} (m : String) : Trap Error α := fail (.invalid m)

def pairLe (a b : ℕ × ℕ) : Prop := a.1 < b.1 ∨ a.1 = b.1 ∧ a.2 ≤ b.2

instance : DecidableRel pairLe := fun _ _ => inferInstanceAs (Decidable (_ ∨ _))

/-- No two neighbours overlap. -/
def Apart : List (ℕ × ℕ) → Prop
  | [] => True
  | [_] => True
  | a :: b :: s => a.1 + a.2 ≤ b.1 ∧ Apart (b :: s)

def decidableApart : (s : List (ℕ × ℕ)) → Decidable (Apart s)
  | [] => isTrue trivial
  | [_] => isTrue trivial
  | a :: b :: s => @instDecidableAnd (a.1 + a.2 ≤ b.1) (Apart (b :: s)) _ (decidableApart (b :: s))

instance (s : List (ℕ × ℕ)) : Decidable (Apart s) := decidableApart s

def validateKey (s : Spec) (n : ℕ) (k : KeySpec) : Trap Error Unit :=
  let bad := fun m => fail (.invalid s!"key {n}: {m}")
  let t := k.datatype &&& ~~~dtype.DESCENDING
  let width := intWidth k.datatype
  if ¬(1 ≤ k.segments.length ∧ k.segments.length ≤ 8) ∨ k.segments.any fun g => g.2 = 0 then
    bad "1 to 8 segments, none empty"
  else if k.size > 255 then bad "longer than 255 bytes"
  else if s.mrs > 0 ∧ k.minRecord > s.mrs.toNat then bad "past the end of the longest record"
  else if t ≠ dtype.STRING ∧ width = 0 then
    bad "data type not supported: string, int2/4/8, bin2/4/8 and their descending forms"
  else if width > 0 ∧ (k.segments.length ≠ 1 ∨ k.size ≠ width) then
    bad "an integer key is one segment of its size"
  else if width > 0 ∧ (k.keyCompr ∨ k.idxCompr ∨ k.recCompr) then bad "only string keys are compressed"
  else if [k.dataArea, k.indexArea, k.level1Area].any fun a => a.toNat ≥ s.areas.length then
    bad "names an area the file doesn't have"
  else do
    let i ← at_ s.areas k.indexArea.toNat
    let l ← at_ s.areas k.level1Area.toNat
    if i.bktsz ≠ l.bktsz then bad "index and level 1 index areas need the same bucket size"
    else if n = 0 ∧ (k.keyCompr ∨ k.recCompr) ∧ ¬Apart (k.segs.insertionSort pairLe) then
      bad "a compressed primary key's segments may not overlap"
    else pure ()

def validateKeys (s : Spec) : ℕ → List KeySpec → Trap Error Unit
  | _, [] => pure ()
  | n, k :: ks => do
    s.validateKey n k
    validateKeys s (n + 1) ks

def validate (s : Spec) : Trap Error Unit :=
  if s.rfm ≠ rfmFIX ∧ s.rfm ≠ rfmVAR then bad "an indexed file's records are FIX or VAR"
  else if s.rfm = rfmFIX ∧ s.mrs = 0 then bad "FIX records need a size"
  else if s.areas = [] ∨ s.areas.length > 255 then bad "an indexed file has 1 to 255 areas"
  else if s.areas.any fun a => ¬(1 ≤ a.bktsz ∧ a.bktsz ≤ 63) then bad "bucket sizes are 1 to 63 blocks"
  else if s.keys = [] ∨ s.keys.length > 255 then bad "an indexed file has 1 to 255 keys"
  else s.validateKeys 0 s.keys

end Spec

/-! ## Keys and records as stored -/

def encodeKey (compressed : Bool) (key : Bytes) (prev : Option Bytes) : Bytes :=
  if compressed then compressKey key (prev.filter (· ≠ [])) else key

def drain (record : Bytes) (p s : ℕ) : Bytes := record.take p ++ record.drop (p + s)

/-- A record without its key's segments. -/
def withoutKey (segments : List (ℕ × ℕ)) (record : Bytes) : Bytes :=
  (segments.insertionSort Spec.pairLe).foldr (fun g rest => drain rest g.1 g.2) record

/-- A primary record as stored: as it is, or its key first and the rest
    compressed. -/
def encodeRecord (k : KeySpec) (record key : Bytes) (prev : Option Bytes) : Bytes :=
  if ¬k.keyCompr ∧ ¬k.recCompr then record
  else
    let rest := withoutKey k.segs record
    encodeKey k.keyCompr key prev ++ if k.recCompr then compressSegments rest else rest

/-! ## Buckets -/

/-- What a VBN in a bucket is of. -/
inductive Target where
  | bucket (b : ℕ)
  /-- The bucket of a record, by its number in the input. -/
  | record (r : ℕ)
  deriving DecidableEq

structure Bucket where
  area : ℕ
  level : ℕ
  keyref : ℕ
  buf : Bytes
  free : ℕ
  /-- Records (data buckets) or entries (index buckets) in it. -/
  count : ℕ
  next : ℕ
  last : Bool
  root : Bool
  /-- Index pointer size; 0 elsewhere. -/
  ps : ℕ
  /-- (offset, width, what the VBN there is of). -/
  patches : List (ℕ × ℕ × Target)
  high : Bytes
  deriving DecidableEq

/-- A key's index, as planned: its first level 0 bucket, root and depth. -/
structure Tree where
  first : ℕ
  root : ℕ
  levels : ℕ
  deriving DecidableEq

/-- Fill quantity in bytes: 0 means the whole bucket. -/
def fill (bytes : UInt16) (size : ℕ) : ℕ := if bytes = 0 then size else min bytes.toNat size

/-- The buckets so far, and each input record's bucket and ID. -/
structure Plan where
  buckets : List Bucket
  placed : List (ℕ × ℕ)
  deriving DecidableEq

section plan
variable (s : Spec) (ps : ℕ)

def bucketBytes (area : ℕ) : Trap Error ℕ := do
  let a ← at_ s.areas area
  pure (a.bktsz.toNat * BLOCK)

def newBucket (p : Plan) (area level keyref : ℕ) : Trap Error (ℕ × Plan) := do
  let size ← bucketBytes s area
  let b : Bucket := ⟨area, level, keyref, List.replicate size 0, BKT_HDR, 0, 0, false, false,
    if level > 0 then ps else 0, [], []⟩
  pure (p.buckets.length, { p with buckets := p.buckets ++ [b] })

/-- Chains a level's buckets in order, the last back to the first. -/
def chainLevel (buckets : List Bucket) (level : List ℕ) : List Bucket :=
  let linked := (level.zip (level.rotate 1)).foldl
    (fun bs b => bs.modify b.1 fun k => { k with next := b.2 }) buckets
  match level.getLast? with
  | some l => linked.modify l fun k => { k with last := true }
  | none => linked

/-- The highest key in the current bucket of a level. -/
def curHigh (p : Plan) (level : List ℕ) : Trap Error (Option Bytes) :=
  match level.getLast? with
  | some c => do
    let b ← at_ p.buckets c
    pure (some b.high)
  | none => pure none

/-- The current bucket of a level, if it has room. -/
def curFit (p : Plan) (level : List ℕ) (fits : Bucket → Bool) : Trap Error (Option ℕ) :=
  match level.getLast? with
  | some c => do
    let b ← at_ p.buckets c
    pure (if fits b then some c else none)
  | none => pure none

/-- Puts an entry with the key `key` into bucket `b`. -/
def putEntry (p : Plan) (b : ℕ) (entry key : Bytes) (patches : ℕ → List (ℕ × ℕ × Target)) : Trap Error Plan := do
  let bk ← at_ p.buckets b
  let buf ← write bk.buf bk.free entry
  pure { p with buckets := p.buckets.set b { bk with
    buf := buf
    free := bk.free + entry.length
    count := bk.count + 1
    patches := bk.patches ++ patches bk.free
    high := key } }

/-- The bytes of a data record's entry. -/
def recordEntry (id : ℕ) (rawFix : Bool) (enc : Bytes) : Bytes :=
  [2] ++ leBytes 2 id ++ leBytes 2 id ++ [0, 0, 0, 0] ++ (if rawFix then [] else leBytes 2 enc.length) ++ enc

/-- Where record `i` goes: the current data bucket, or a new one; and how it is
    stored there. -/
def roomForRecord (k : KeySpec) (size head i : ℕ) (record key : Bytes) (p : Plan) (level : List ℕ) :
    Trap Error (Plan × List ℕ × ℕ × Bytes) := do
  let high ← curHigh p level
  -- whether a record fits is judged by its size first in a bucket
  let alone := encodeRecord k record key none
  let cur ← curFit p level fun b => b.free < fill k.dataFill size ∧ b.free + head + alone.length < size - 1
  match cur with
  | some c => pure (p, level, c, encodeRecord k record key high)
  | none => do
    let (b, p) ← newBucket s ps p k.dataArea.toNat 0 0
    if BKT_HDR + head + alone.length ≥ size then
      fail (.invalid s!"record {i + 1} doesn't fit in a bucket")
    else pure (p, level ++ [b], b, alone)

/-- Puts record `i` into a data bucket. -/
def putRecord (recs keys : List Bytes) (st : Plan × List ℕ) (i : ℕ) : Trap Error (Plan × List ℕ) := do
  let k ← at_ s.keys 0
  let size ← bucketBytes s k.dataArea.toNat
  let rawFix := s.rfm = rfmFIX ∧ ¬k.keyCompr ∧ ¬k.recCompr
  let record ← at_ recs i
  let key ← at_ keys i
  let head := 1 + 2 + 2 + 4 + if rawFix then 0 else 2
  let (p, level, b, enc) ← roomForRecord s ps k size head i record key st.1 st.2
  let bk ← at_ p.buckets b
  let id := (bk.count + 1) % 2 ^ 16
  let p ← putEntry p b (recordEntry id rawFix enc) key fun free => [(free + 5, 4, .bucket b)]
  pure ({ p with placed := p.placed.set i (b, id) }, level)

/-- Puts the records in primary key order into data buckets. -/
def primaryLevel (recs keys : List Bytes) (order : List ℕ) (p : Plan) : Trap Error (Plan × List ℕ) :=
  order.foldlM (putRecord s ps recs keys) (p, [])

/-- The bytes of a SIDR with the key `kenc` and `m` pointers. -/
def sidrEntry (kenc : Bytes) (m : ℕ) : Bytes :=
  leBytes 2 (kenc.length + 7 * m) ++ kenc ++
    (List.range m).flatMap fun j => (2 ||| if j = 0 then irc.FIRST else 0) :: List.replicate 6 0

/-- Where a SIDR of key `n` for `m` records goes: the current SIDR bucket, or a
    new one; with its key as it is stored there, and how many of the records it is
    for. -/
def roomForSidr (n : ℕ) (k : KeySpec) (size : ℕ) (key : Bytes) (m : ℕ) (p : Plan) (level : List ℕ) :
    Trap Error (Plan × List ℕ × ℕ × Bytes × ℕ) := do
  let alone := encodeKey k.keyCompr key none
  let cur ← curFit p level fun b => b.free < fill k.dataFill size ∧ b.free + (2 + alone.length + 7 * m) < size - 1
  let high ← curHigh p level
  match cur with
  | some c => pure (p, level, c, encodeKey k.keyCompr key high, m)
  | none => do
    let (b, p) ← newBucket s ps p k.dataArea.toNat 0 (n % 2 ^ 8)
    let room := (size - 1 - BKT_HDR - (2 + alone.length)) / 7
    if room = 0 then fail (.invalid s!"key {n} too long for its bucket size")
    else pure (p, level ++ [b], b, alone, min m room)

/-- Puts the SIDRs of key `n` with the value `key`, for the records `rest`, into
    SIDR buckets. -/
def putSidr (n : ℕ) (key : Bytes) : ℕ → List ℕ → Plan × List ℕ → Trap Error (Plan × List ℕ)
  | _, [], st => pure st
  | 0, _ :: _, _ => panic
  | fuel + 1, r :: rs, st => do
    let rest := r :: rs
    let k ← at_ s.keys n
    let size ← bucketBytes s k.dataArea.toNat
    let (p, level, b, kenc, m) ← roomForSidr s ps n k size key rest.length st.1 st.2
    let p ← putEntry p b (sidrEntry kenc m) key fun free =>
      (rest.take m).zipIdx.map fun r => (free + 2 + kenc.length + 7 * r.2 + 3, 4, .record r.1)
    putSidr n key fuel (rest.drop m) (p, level)

/-- Puts an alternate key's SIDRs, in key order, into SIDR buckets. -/
def sidrLevel (n : ℕ) (groups : List (Bytes × List ℕ)) (p : Plan) : Trap Error (Plan × List ℕ) :=
  groups.foldlM (fun st g => putSidr s ps n g.1 g.2.length g.2 st) (p, [])

/-- The key above every other, which the last bucket of each index level ends in. -/
def highKey (k : KeySpec) (ksz : ℕ) : Bytes :=
  let t := k.datatype &&& ~~~dtype.DESCENDING
  let signed := t = dtype.INT2 ∨ t = dtype.INT4 ∨ t = dtype.INT8
  let descending := k.datatype &&& dtype.DESCENDING ≠ 0
  let v := List.replicate ksz (if descending then 0 else 0xff)
  if signed ∧ v ≠ [] then v.dropLast ++ [if descending then 0x80 else 0x7f] else v

/-- Where an index entry with the key `high` goes: the current bucket of a level,
    or a new one; and the key as it is stored there. -/
def roomForIndex (n : ℕ) (k : KeySpec) (area depth size : ℕ) (high : Bytes) (p : Plan) (level : List ℕ) :
    Trap Error (Plan × List ℕ × ℕ × Bytes) := do
  let curKey ← curHigh p level
  let kenc := encodeKey k.idxCompr high curKey
  let cur ← curFit p level fun b => b.free + kenc.length + (b.count + 1) * ps ≤ size - 4 ∧
    (b.count < 2 ∨ b.free + b.count * ps < fill k.indexFill size)
  match cur with
  | some c => pure (p, level, c, kenc)
  | none => do
    let (b, p) ← newBucket s ps p area depth (n % 2 ^ 8)
    pure (p, level ++ [b], b, encodeKey k.idxCompr high none)

/-- Puts an index entry for the bucket `child`, with the key `high`, into a bucket
    of a level. -/
def putIndex (n : ℕ) (k : KeySpec) (area depth size : ℕ) (st : Plan × List ℕ) (high : Bytes) (child : ℕ) :
    Trap Error (Plan × List ℕ) := do
  let (p, level, b, kenc) ← roomForIndex s ps n k area depth size high st.1 st.2
  let bk ← at_ p.buckets b
  let p ← putEntry p b kenc high fun _ => [(size - 4 - (bk.count + 1) * ps, ps, .bucket child)]
  pure (p, level)

/-- One index level over the buckets `below`. -/
def indexLevel (n : ℕ) (k : KeySpec) (area depth size : ℕ) : List ℕ → Plan × List ℕ → Trap Error (Plan × List ℕ)
  | [], st => pure st
  | child :: rest, st => do
    let bk ← at_ st.1.buckets child
    let high := if rest = [] then highKey k k.size else bk.high
    let st ← putIndex s ps n k area depth size st high child
    indexLevel n k area depth size rest st

/-- Builds index levels over the buckets `below`, at level `depth`, until one
    bucket, the root, holds them all. -/
def indexLevels (n first : ℕ) (k : KeySpec) (size : ℕ) : ℕ → ℕ → List ℕ → Plan → Trap Error (Plan × Tree)
  | 0, _, _, _ => panic
  | fuel + 1, depth, below, p => do
    let depth := depth + 1
    let area := if depth = 1 then k.level1Area.toNat else k.indexArea.toNat
    let (p, level) ← indexLevel s ps n k area depth size below (p, [])
    let p := { p with buckets := chainLevel p.buckets level }
    match level with
    | [root] =>
      pure ({ p with buckets := p.buckets.modify root fun b => { b with root := true } }, ⟨first, root, depth⟩)
    | level =>
      if level.length ≥ below.length ∨ depth = 255 then
        fail (.invalid s!"key {n} too long for its index bucket size")
      else indexLevels n first k size fuel depth level p

/-- The index over a key's level 0 buckets. -/
def indexTree (n : ℕ) (level0 : List ℕ) (p : Plan) : Trap Error (Plan × Tree) := do
  let k ← at_ s.keys n
  let size ← bucketBytes s k.indexArea.toNat
  let first ← at_ level0 0
  indexLevels s ps n first k size 255 0 level0 { p with buckets := chainLevel p.buckets level0 }

def bottomLevel (recs keys : List Bytes) (order : List ℕ) (n : ℕ) (groups : List (Bytes × List ℕ)) (p : Plan) :
    Trap Error (Plan × List ℕ) :=
  if n = 0 then primaryLevel s ps recs keys order p else sidrLevel s ps n groups p

def planKey (recs keys : List Bytes) (order : List ℕ) (n : ℕ) (groups : List (Bytes × List ℕ)) (p : Plan) :
    Trap Error (Plan × Option Tree) := do
  let (p, level0) ← bottomLevel s ps recs keys order n groups p
  if level0 = [] then pure (p, none)
  else do
    let (p, t) ← indexTree s ps n level0 p
    pure (p, some t)

def planKeys (recs keys : List Bytes) (order : List ℕ) : ℕ → List (List (Bytes × List ℕ)) → Plan →
    Trap Error (Plan × List (Option Tree))
  | _, [], p => pure (p, [])
  | n, g :: gs, p => do
    let (p, t) ← planKey s ps recs keys order n g p
    let (p, ts) ← planKeys recs keys order (n + 1) gs p
    pure (p, t :: ts)

def plan (recs keys : List Bytes) (order : List ℕ) (groups : List (List (Bytes × List ℕ))) :
    Trap Error (Plan × List (Option Tree)) :=
  planKeys s ps recs keys order 0 groups ⟨[], List.replicate recs.length (0, 0)⟩

end plan

/-! ## Laying the file out -/

section layout
variable (s : Spec)

def nextMultipleOf (n k : ℕ) : Trap Error ℕ := fits 32 ((n + k - 1) / k * k)

def areaVbn : ℕ := 2 + (s.keys.length - 1 + 4) / 5

def areaBlocks : ℕ := (s.areas.length + 7) / 8

/-- Counts a bucket's blocks in its area. -/
def useArea (used : List ℕ) (b : Bucket) : Trap Error (List ℕ) := do
  let a ← at_ s.areas b.area
  let u ← at_ used b.area
  let u ← fits 32 (u + a.bktsz.toNat)
  pure (used.set b.area u)

def areasUsed (buckets : List Bucket) : Trap Error (List ℕ) :=
  buckets.foldlM (useArea s) (List.replicate s.areas.length 0)

/-- The start and the size of each area's extent, the first at `next`, and the VBN
    after the last. -/
def extents : ℕ → List (ℕ × AreaSpec) → Trap Error (List (ℕ × ℕ) × ℕ)
  | next, [] => pure ([], next)
  | next, (used, a) :: areas => do
    let extent := max used a.alloc.toNat
    let (rest, stop) ← extents (← fits 32 (next + extent)) areas
    pure ((next, extent) :: rest, stop)

/-- Each bucket's VBN; `at` is where each area's next bucket goes. -/
def bucketVbns : List ℕ → List Bucket → Trap Error (List ℕ)
  | _, [] => pure []
  | starts, b :: bs => do
    let a ← at_ s.areas b.area
    let v ← at_ starts b.area
    let v' ← fits 32 (v + a.bktsz.toNat)
    let rest ← bucketVbns (starts.set b.area v') bs
    pure (v :: rest)

def nextId (b : Bucket) : Trap Error ℕ :=
  if b.level = 0 ∧ b.keyref = 0 then fits 16 (b.count % 2 ^ 16 + 1) else pure 1

def bucketHeader (vbns : List ℕ) (vbn : ℕ) (b : Bucket) : Trap Error BucketHeader := do
  let next ← at_ vbns b.next
  let nxtrecid ← nextId b
  let cb := (if b.last then bktcb.LASTBKT else 0) ||| (if b.root then bktcb.ROOTBKT else 0) |||
    if b.level > 0 then UInt8.ofNat (b.ps - 2) <<< 3 else 0
  let h : BucketHeader := ⟨0⟩
  pure ((((((((h.set 1 1 b.keyref).set 2 2 vbn).set 4 2 b.free).set 6 2 nxtrecid).set 8 4 next).set 12 1
    b.level).set 13 1 cb.toNat))

/-- Fills the VBNs of a bucket in. -/
def patch (p : Plan) (vbns : List ℕ) : List (ℕ × ℕ × Target) → Bytes → Trap Error Bytes
  | [], buf => pure buf
  | (off, width, .bucket x) :: ts, buf => do
    let v ← at_ vbns x
    let buf ← write buf off ((leBytes 4 v).take width)
    patch p vbns ts buf
  | (off, width, .record r) :: ts, buf => do
    let (b, id) ← at_ p.placed r
    let v ← at_ vbns b
    let buf ← write buf off ((leBytes 4 v).take width)
    let buf ← write buf (off - 2) (leBytes 2 id)
    patch p vbns ts buf

/-- An index bucket's free space ends before its pointers, which its last bytes
    say. -/
def freeEnd (b : Bucket) : Trap Error Bytes :=
  if b.level > 0 then write b.buf (b.buf.length - 4) (leBytes 2 (b.buf.length - 4 - b.count * b.ps - 1))
  else pure b.buf

def bucketImage (p : Plan) (vbns : List ℕ) (vbn : ℕ) (b : Bucket) : Trap Error Bytes := do
  let h ← bucketHeader vbns vbn b
  let buf ← freeEnd b
  let buf ← write buf 0 h.toBytes
  patch p vbns b.patches buf

/-- Where key descriptor `n` is: VBN and offset. -/
def keyPlace (n : ℕ) : ℕ × ℕ := if n = 0 then (1, 0) else (2 + (n - 1) / 5, (n - 1) % 5 * KEY_LEN)

/-- The fields of a key descriptor for segment `i`. -/
def segmentField (k : KeySpec) (d : KeyDesc) (g : UInt16 × UInt8) (i : ℕ) : KeyDesc :=
  ((d.set (28 + 2 * i) 2 g.1.toNat).set (44 + i) 1 g.2.toNat).set (88 + i) 1
    (if k.segments.length = 1 then k.datatype.toNat else 0)

def segmentFields (k : KeySpec) (d : KeyDesc) : KeyDesc :=
  k.segments.zipIdx.foldl (fun d g => segmentField k d g.1 g.2) d

def paddedName (name : Bytes) : Bytes := name.take 32 ++ List.replicate (32 - name.length) 32

/-- A key descriptor's link to the next, its areas and bucket sizes. -/
def linkFields (n : ℕ) (k : KeySpec) (isize dsize : ℕ) : KeyDesc :=
  let d : KeyDesc := ⟨0⟩
  let d := if n + 1 < s.keys.length then (d.set 0 4 (keyPlace (n + 1)).1).set 4 2 (keyPlace (n + 1)).2 else d
  let d := ((d.set 6 1 k.indexArea.toNat).set 7 1 k.level1Area.toNat).set 8 1 k.dataArea.toNat
  (d.set 10 1 isize).set 11 1 dsize

/-- The root and first level 0 bucket of a key's tree, and the key's flags. -/
def treeFields (vbns : List ℕ) (flags : UInt8) (d : KeyDesc) : Option Tree → Trap Error KeyDesc
  | some t => do
    let root ← at_ vbns t.root
    let first ← at_ vbns t.first
    pure ((((d.set 9 1 t.levels).set 12 4 root).set 84 4 first).setFlags flags)
  | none => pure (d.setFlags (flags ||| keyflag.INITIDX))

/-- The fields that are the key's own. -/
def ownFields (n : ℕ) (k : KeySpec) (isize dsize : ℕ) (d : KeyDesc) : KeyDesc :=
  let d := (((d.set 17 1 k.datatype.toNat).set 18 1 k.segments.length).set 19 1 k.nullValue.toNat).set 20 1 k.size
  let d := ((d.set 21 1 n).set 22 2 k.minRecord).set 24 2 (fill k.indexFill (isize * BLOCK))
  d.set 26 2 (fill k.dataFill (dsize * BLOCK))

def keyDescriptor (vbns : List ℕ) (n : ℕ) (k : KeySpec) (tree : Option Tree) : Trap Error KeyDesc := do
  let isize := (← at_ s.areas k.indexArea.toNat).bktsz.toNat
  let dsize := (← at_ s.areas k.dataArea.toNat).bktsz.toNat
  let d ← treeFields vbns (k.flags (n = 0)) (linkFields s n k isize dsize) tree
  let d := segmentFields k (ownFields n k isize dsize d)
  pure (if k.name ≠ [] then ⟨Field.putBytes d.raw 52 (paddedName k.name)⟩ else d)

def areaDescriptor (a : ℕ) (area : AreaSpec) (start extent used : ℕ) : Trap Error AreaDesc := do
  let next ← fits 32 (start + used)
  let d : AreaDesc := ⟨0⟩
  pure ((((((((d.set 2 1 a).set 3 1 area.bktsz.toNat).set 12 4 start).set 16 4 extent).set 20 4 used).set 24 4
    next).set 36 2 area.deq.toNat).set 50 4 extent)

/-- The sum of a block's first 255 words, as it is stored. -/
def checksum (b : Bytes) : ℕ := ((List.range 255).map fun i => uint ((b.drop (2 * i)).take 2)).sum % 2 ^ 16

/-- Sets the checksum of the block at `vbn`. -/
def setChecksum (file : Bytes) (vbn : ℕ) : Trap Error Bytes := do
  let b ← range file ((vbn - 1) * BLOCK) ((vbn - 1) * BLOCK + BLOCK)
  write file ((vbn - 1) * BLOCK + 510) (leBytes 2 (checksum b))

structure Layout where
  used : List ℕ
  /-- Start and size of each area's extent. -/
  extent : List (ℕ × ℕ)
  total : ℕ
  vbns : List ℕ

/-- The spare blocks go to the last area. -/
def addSpare (spare : ℕ) (extent : List (ℕ × ℕ)) : Trap Error (List (ℕ × ℕ)) :=
  match extent.getLast? with
  | some (v, n) => do
    let n ← fits 32 (n + spare)
    pure (extent.dropLast ++ [(v, n)])
  | none => pure extent

/-- Gives every bucket its VBN, each area's in one extent after the prologue. -/
def layout (p : Plan) : Trap Error Layout := do
  let used ← areasUsed s p.buckets
  let (extent, next) ← extents (areaVbn s + areaBlocks s) (used.zip s.areas)
  let total := next - 1
  let rounded ← nextMultipleOf total (max s.cluster.toNat 1)
  let extent ← addSpare (rounded - total) extent
  let vbns ← bucketVbns s (extent.map Prod.fst) p.buckets
  pure ⟨used, extent, rounded, vbns⟩

def writeBucket (p : Plan) (vbns : List ℕ) (file : Bytes) (b : ℕ × Bucket) : Trap Error Bytes := do
  let buf ← bucketImage p vbns b.1 b.2
  write file ((b.1 - 1) * BLOCK) buf

/-- Writes the descriptor of a key, given with its tree and number. -/
def writeKey (vbns : List ℕ) (file : Bytes) (k : (KeySpec × Option Tree) × ℕ) : Trap Error Bytes := do
  let d ← keyDescriptor s vbns k.2 k.1.1 k.1.2
  write file (((keyPlace k.2).1 - 1) * BLOCK + (keyPlace k.2).2) d.toBytes

/-- Writes the descriptor of an area, given with its extent, the blocks it uses and
    its number. -/
def writeArea (file : Bytes) (a : (AreaSpec × (ℕ × ℕ) × ℕ) × ℕ) : Trap Error Bytes := do
  let d ← areaDescriptor a.2 a.1.1 a.1.2.1.1 a.1.2.1.2 a.1.2.2
  write file ((areaVbn s + a.2 / 8 - 1) * BLOCK + a.2 % 8 * AREA_LEN) d.toBytes

/-- Writes the file.  Returns it and its highest VBN. -/
def layOut (p : Plan) (trees : List (Option Tree)) : Trap Error (Bytes × ℕ) := do
  let l ← layout s p
  let file := List.replicate (l.total * BLOCK) 0
  let file ← (l.vbns.zip p.buckets).foldlM (writeBucket p l.vbns) file
  let file ← (s.keys.zip trees).zipIdx.foldlM (writeKey s l.vbns) file
  let file ← write file 0x66 [UInt8.ofNat (areaVbn s), UInt8.ofNat s.areas.length]
  let file ← write file 0x74 [3]
  let file ← (s.areas.zip (l.extent.zip l.used)).zipIdx.foldlM (writeArea s) file
  let file ← (List.range' 1 (areaVbn s + areaBlocks s - 1)).foldlM setChecksum file
  pure (file, l.total)

end layout

/-! ## Building -/

section build
variable (s : Spec)

/-- The primary key of record `i`, if the record can be in the file. -/
def recordKey (k : KeySpec) (i : ℕ) (r : Bytes) : Trap Error Bytes :=
  let bad := fun m => fail (.invalid s!"record {i + 1}: {m}")
  if s.rfm = rfmFIX ∧ r.length ≠ s.mrs.toNat then bad "not the file's record size"
  else if s.mrs > 0 ∧ r.length > s.mrs.toNat ∨ r.length > 32767 then bad "longer than the longest record"
  else match k.keyOf r with
    | some key => pure key
    | none => bad "too short for the primary key"

/-- The first two neighbours with the same key. -/
def sameKey (keys : List Bytes) : List ℕ → Option (ℕ × ℕ)
  | a :: b :: order => if keys[a]? = keys[b]? then some (a, b) else sameKey keys (b :: order)
  | _ => none

/-- Adds a record's key to the groups. -/
def addEntry (n : ℕ) (dups : Bool) (g : List (Bytes × List ℕ)) (e : Bytes × ℕ) :
    Trap Error (List (Bytes × List ℕ)) :=
  match g.getLast? with
  | some (key, recs) =>
    if key = e.1 then
      if ¬dups then fail (.invalid s!"records {recs.headD 0 + 1} and {e.2 + 1}: duplicate key {n}")
      else pure (g.dropLast ++ [(key, recs ++ [e.2])])
    else pure (g ++ [(e.1, [e.2])])
  | none => pure [(e.1, [e.2])]

/-- Key `n`'s values in order, each with the records that have it, in primary key
    order. -/
def keyGroups (recs : List Bytes) (order : List ℕ) (n : ℕ) (k : KeySpec) : Trap Error (List (Bytes × List ℕ)) :=
  let entries := order.filterMap fun i => (k.keyOf (recs.getD i [])).map fun key => (key, i)
  let entries := entries.filter fun e => ¬(k.nullKey ∧ e.1.all (· == k.nullValue))
  (entries.insertionSort fun a b => (k.compare a.1 b.1).isLE).foldlM (addEntry n k.dups) []

/-- The bytes of a pointer to a block of a file of `highest` blocks. -/
def pointerSize (highest : ℕ) : ℕ := if highest > 0xffffff then 4 else if highest > 0xffff then 3 else 2

/-- Index pointers are as wide as the file's VBNs need: plan with two bytes, and
    again wider if the file came out bigger than that. -/
def buildFrom (recs keys : List Bytes) (order : List ℕ) (groups : List (List (Bytes × List ℕ))) :
    ℕ → ℕ → Trap Error Bytes
  | 0, _ => panic
  | fuel + 1, ps => do
    let (p, trees) ← plan s ps recs keys order groups
    let (bytes, highest) ← layOut s p trees
    if pointerSize highest ≤ ps then pure bytes else buildFrom recs keys order groups fuel (pointerSize highest)

/-- The records' primary keys, the order of the records, and the alternate keys'
    values. -/
def prepare (recs : List Bytes) : Trap Error (List Bytes × List ℕ × List (List (Bytes × List ℕ))) := do
  s.validate
  let k0 ← at_ s.keys 0
  let keys ← recs.zipIdx.mapM fun r => recordKey s k0 r.2 r.1
  let order := (List.range recs.length).insertionSort fun a b => (k0.compare (keys.getD a []) (keys.getD b [])).isLE
  match if k0.dups then none else sameKey keys order with
  | some (a, b) => fail (.invalid s!"records {a + 1} and {b + 1}: duplicate primary key")
  | none => do
    let groups ← (s.keys.zipIdx.drop 1).mapM fun k => keyGroups recs order k.2 k.1
    pure (keys, order, [] :: groups)

/-- Builds an indexed file holding `records`, in any order: its bytes, VBN 1
    first. -/
def build (recs : List Bytes) : Trap Error Bytes := do
  let (keys, order, groups) ← prepare s recs
  buildFrom s recs keys order groups 3 2

end build

end Rms
