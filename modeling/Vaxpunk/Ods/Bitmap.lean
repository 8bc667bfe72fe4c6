/-
  BITMAP.SYS, one bit per cluster, set when the cluster is free, and the index
  file bitmap, one bit per file number, set when the number is in use
  (`bitmap.rs`).
-/
import Vaxpunk.Ods.Volume

namespace Ods

inductive Alloc where
  /-- Wherever there is room, in as many pieces as it takes. -/
  | any
  /-- Largest free pieces first. -/
  | bestTry
  /-- One piece, or fail. -/
  | contiguous
  deriving DecidableEq, Repr

def BITMAP : Fid := Fid.new 2 2

/-- Bit `i` of a bitmap read block by block; clear past its end. -/
def bit (bits : List Block) (i : ℕ) : Bool :=
  match bits[i / BITS]? with
  | some b => b.getLsbD (i % BITS)
  | none => false

/-- Bit `i` of one block set or cleared. -/
def Block.setBit (b : Block) (i : ℕ) (on : Bool) : Block :=
  if on then b ||| (BitVec.ofNat 4096 1 <<< i) else b &&& ~~~(BitVec.ofNat 4096 1 <<< i)

/-- Bit `i` of a bitmap set or cleared; past its end nothing happens. -/
def setBit (bits : List Block) (i : ℕ) (on : Bool) : List Block :=
  bits.modify (i / BITS) fun b => b.setBit (i % BITS) on

/-- Free runs of clusters, in LBN order: `n` clusters from `c` on, `start` the
    first cluster of the run `c` would continue. -/
def freeRuns (bits : List Block) : (n c : ℕ) → (start : Option ℕ) → List (ℕ × ℕ)
  | 0, _, none => []
  | 0, c, some s => [(s, c - s)]
  | n + 1, c, none => if bit bits c then freeRuns bits n (c + 1) (some c) else freeRuns bits n (c + 1) none
  | n + 1, c, some s =>
    if bit bits c then freeRuns bits n (c + 1) (some s) else (s, c - s) :: freeRuns bits n (c + 1) none

/-- Whole free runs, taken from the front of `runs` until `left` clusters are
    there; `none` if there are not enough. -/
def takeRuns : ℕ → List (ℕ × ℕ) → Option (List (ℕ × ℕ))
  | 0, _ => some []
  | _ + 1, [] => none
  | left + 1, (s, len) :: runs =>
    let n := min len (left + 1)
    (takeRuns (left + 1 - n) runs).map ((s, n) :: ·)

/-- The clusters `allocate` takes out of the free runs. -/
def chooseRuns (free : List (ℕ × ℕ)) (want : ℕ) (how : Alloc) (next : Option ℕ) :
    Option (List (ℕ × ℕ)) :=
  let adjacent := next.bind fun n => free.find? fun r => r.1 == n
  match how with
  | .contiguous =>
    match next, adjacent with
    | some _, some r => if r.2 ≥ want then some [(r.1, want)] else none
    | some _, none => none
    | none, _ => (free.find? fun r => r.2 ≥ want).map fun r => [(r.1, want)]
  | _ =>
    let order := if how = .bestTry then free.insertionSort fun r s => s.2 ≤ r.2 else free
    match adjacent with
    | some r => takeRuns want (r :: order.filter (· ≠ r))
    | none => takeRuns want order

/-- The bitmap blocks that cover a range of clusters. -/
def rangeBlocks (r : ℕ × ℕ) : List ℕ :=
  List.range' (r.1 / BITS) ((r.1 + r.2 - 1) / BITS + 1 - r.1 / BITS)

/-- The bitmap blocks that cover some ranges of clusters, ascending. -/
def touchedBlocks (ranges : List (ℕ × ℕ)) : List ℕ :=
  (ranges.flatMap rangeBlocks).dedup.insertionSort (· ≤ ·)

/-- The clusters of a range cleared or set. -/
def setRange (bits : List Block) (r : ℕ × ℕ) (on : Bool) : List Block :=
  (List.range' r.1 r.2).foldl (fun bits c => setBit bits c on) bits

namespace Op

/-- The storage bitmap: the LBN of each of its blocks (from VBN 2 on) and the
    bits. -/
def readStorageBitmap : Op (List ℕ × List Block) := do
  let map ← fileMap BITMAP
  let v ← Prog.state
  let blocks := (v.clusters + BITS - 1) / BITS
  let bs ← Prog.collect (fun vbn => do
      let lbn ← Prog.orFail (.corrupt "storage bitmap shorter than the volume" 0) (mapLbn map vbn)
      let b ← readBlock lbn
      pure (lbn, b)) (List.range' 2 blocks)
  pure (bs.map Prod.fst, bs.map Prod.snd)

/-- The index file bitmap and the LBN of each of its blocks. -/
def readIndexBitmap : Op (List ℕ × List Block) := do
  let v ← Prog.state
  let bs ← Prog.collect (fun vbn => do
      let lbn ← Prog.orFail (.corrupt "index file bitmap not mapped" 0) (mapLbn v.indexMap vbn)
      let b ← readBlock lbn
      pure (lbn, b)) (List.range' v.home.ibmapvbn v.home.ibmapsize)
  pure (bs.map Prod.fst, bs.map Prod.snd)

/-- Writes the bitmap blocks covering the given cluster ranges. -/
def writeBitmapBlocks (bmap : List ℕ) (bits : List Block) (ranges : List (ℕ × ℕ)) : Op Unit :=
  Prog.each (fun i =>
    match bmap[i]?, bits[i]? with
    | some lbn, some b => writeBlock lbn b
    | _, _ => pure ()) (touchedBlocks ranges)

/-- Allocates `blocks` (rounded up to whole clusters) and marks them in the
    storage bitmap before anyone can reference them.  `after` is the LBN just
    past the file's last run. -/
def allocate (blocks : ℕ) (how : Alloc) (after : Option ℕ) : Op (List Run) := do
  let v ← Prog.state
  let k := v.cluster
  let want := (blocks + k - 1) / k
  if want = 0 then pure []
  else do
    let (bmap, bits) ← readStorageBitmap
    let free := freeRuns bits v.clusters 0 none
    let next := (after.filter fun a => a % k = 0).map (· / k)
    let take ← Prog.orFail .deviceFull (chooseRuns free want how next)
    let bits := take.foldl (fun bits r => setRange bits r false) bits
    writeBitmapBlocks bmap bits take
    pure (take.map fun r => ⟨r.1 * k, r.2 * k⟩)

/-- The bits with the clusters of some ranges set, which must all be clear. -/
def freeClusters (k : ℕ) (bits : List Block) : List ℕ → Except Error (List Block)
  | [] => .ok bits
  | c :: cs =>
    if bit bits c then .error (.corrupt "freeing a cluster that is already free" (c * k))
    else freeClusters k (setBit bits c true) cs

/-- The clusters a run touches: the first one and how many. -/
def runClusters (k : ℕ) (r : Run) : ℕ × ℕ :=
  (r.lbn / k, (r.lbn + r.count - 1) / k + 1 - r.lbn / k)

/-- The clusters of a range that the bitmap describes: `first..=last` with
    `last` at most the last cluster of the volume. -/
def clipped (clusters : ℕ) (c : ℕ × ℕ) : List ℕ :=
  List.range' c.1 (min (c.1 + c.2 - 1) (clusters - 1) + 1 - c.1)

/-- Returns runs to the storage bitmap.  Every cluster must be allocated. -/
def release (runs : List Run) : Op Unit := do
  if runs = [] then pure ()
  else do
    let v ← Prog.state
    let (bmap, bits) ← readStorageBitmap
    let touched := (runs.filter (·.count > 0)).map (runClusters v.cluster)
    let bits ← ofExcept (freeClusters v.cluster bits (touched.flatMap (clipped v.clusters)))
    writeBitmapBlocks bmap bits touched

/-- Sets or clears one bit of the index file bitmap. -/
def setIndexBit (num : ℕ) (on : Bool) : Op Unit := do
  let v ← Prog.state
  let i := num - 1
  let lbn ← Prog.orFail (.corrupt "index file bitmap not mapped" 0)
    (mapLbn v.indexMap (v.home.ibmapvbn + i / BITS))
  let b ← readBlock lbn
  writeBlock lbn (b.setBit (i % BITS) on)

end Op

end Ods
