/-
  Mounting a volume (`mount`, `find_home` of `volume.rs`, `scb` of `bitmap.rs`).
-/
import Vaxpunk.Ods.Bitmap

namespace Ods

/-- The first valid home block at LBN `lbn` or one of the `left` LBNs after it. -/
def findHomeFrom (d : Disk) : ℕ → ℕ → Option HomeBlock
  | 0, _ => none
  | left + 1, lbn =>
    let h : HomeBlock := ⟨d lbn⟩
    if h.invalid = none ∧ h.homelbn = lbn then some h else findHomeFrom d left (lbn + 1)

/-- Reads the primary home block, falling back to the first valid copy. -/
def findHome (dev : Device) : Except Error HomeBlock :=
  match findHomeFrom dev.blocks (min dev.count (1 <<< 16) - 1) 1 with
  | some h => .ok h
  | none => .error .noHomeBlock

namespace Op

def scb : Op Scb := do
  let map ← fileMap BITMAP
  let lbn ← Prog.orFail (.corrupt "empty storage bitmap file" 0) (mapLbn map 1)
  let b ← readBlock lbn
  if ¬(Scb.mk b).checksumOk then Prog.fail (.corrupt "bad storage control block checksum" lbn)
  else pure ⟨b⟩

/-- The index file's map with the runs of the extension headers after `h`
    added; they are found through the part of the map read so far.  `guard`
    counts them, and a segment number never exceeds 2^16. -/
def followIndex (lbn : ℕ) : ℕ → ℕ → Header → Op Unit
  | 0, _, _ => Prog.fail .panic
  | fuel + 1, guard, h =>
    if h.extFid.isZero then pure ()
    else do
      let v ← Prog.state
      let lbn ← Prog.orFail (.corrupt "index file extension outside the index file" lbn)
        (v.headerLbn h.extFid.num)
      let ext ← readHeaderAt lbn (some h.extFid)
      if ext.segNum ≠ guard + 1 then Prog.fail (.corrupt "extension header out of sequence" lbn)
      else do
        let runs ← ofExcept (v.headerRuns ext lbn)
        Prog.modify fun v => { v with indexMap := v.indexMap ++ runs }
        followIndex lbn fuel (guard + 1) ext

/-- Reads the index file's map: its first header sits right after the index
    file bitmap. -/
def readIndexMap : Op Unit := do
  let v ← Prog.state
  let lbn := v.home.ibmaplbn + v.home.ibmapsize
  Prog.modify fun v => { v with indexMap := [⟨lbn, 1⟩] }
  let hdr ← readHeaderAt lbn (some INDEXF)
  let runs ← ofExcept (v.headerRuns hdr lbn)
  Prog.modify fun v => { v with indexMap := runs }
  followIndex lbn (2 ^ 16 + 1) 0 hdr

/-- The part of `mount` that reads the volume's structures. -/
def readStructures : Op Unit := do
  let v ← Prog.state
  if v.home.rvn > 1 ∨ v.home.setcount > 1 then Prog.fail (.unsupported "volume sets")
  else do
    readIndexMap
    let s ← scb
    if s.volsize = 0 ∨ s.cluster ≠ v.home.cluster then
      Prog.fail (.corrupt "storage control block disagrees with the home block" 0)
    else Prog.modify fun v => { v with volBlocks := min v.volBlocks s.volsize }

end Op

/-- Mounts the volume on `dev`.  Writes need `writable`. -/
def mount (dev : Device) (writable : Bool) : Except Error Volume :=
  if dev.blockSize ≠ BLOCK then .error (.unsupported "block size other than 512")
  else do
    let home ← findHome dev
    let level := if home.level = 5 then .ods5 else .ods2
    match Op.readStructures ⟨dev, home, level, writable, [], dev.count, 0⟩ with
    | ⟨.ok (), v, _⟩ => .ok v
    | ⟨.error e, _, _⟩ => .error e

end Ods
