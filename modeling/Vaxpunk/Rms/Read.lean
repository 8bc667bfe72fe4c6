/-
  Reading indexed files (`rms/read.rs`): the records of a bucket, expanded.

  Lengths and offsets are natural numbers: a slice has fewer than 2^63 bytes, so
  sums of them stay within `usize`.
-/
import Vaxpunk.Rms.Key

namespace Rms

def rfmFIX : UInt8 := 1

def rfmVAR : UInt8 := 2

/-- The segments of a key with their places in the record and in the key. -/
def placedSegs : ℕ → List (ℕ × ℕ) → List (ℕ × ℕ × ℕ)
  | _, [] => []
  | start, (pos, size) :: segs => (pos, start, size) :: placedSegs (start + size) segs

/-- The order of a tuple's parts. -/
def segLe (a b : ℕ × ℕ × ℕ) : Prop :=
  a.1 < b.1 ∨ a.1 = b.1 ∧ (a.2.1 < b.2.1 ∨ a.2.1 = b.2.1 ∧ a.2.2 ≤ b.2.2)

instance : DecidableRel segLe := fun _ _ => inferInstanceAs (Decidable (_ ∨ _))

/-- Puts a key's segments back where they were, lowest first. -/
def spliceSegs (key : Bytes) (vbn : ℕ) : List (ℕ × ℕ × ℕ) → Bytes → Trap Error Bytes
  | [], record => pure record
  | (pos, start, size) :: segs, record =>
    if pos > record.length then corrupt "compressed record shorter than its key position" vbn
    else do
      let s ← Trap.range key start (start + size)
      spliceSegs key vbn segs (record.take pos ++ s ++ record.drop pos)

/-- The key in front of a compressed record, and the bytes it took. -/
def decodeKey (k : KeyDesc) (body prev : Bytes) (vbn : ℕ) : Trap Error (Bytes × ℕ) :=
  if k.has keyflag.KEY_COMPR then Trap.orErr (.corrupt "compressed key" vbn) (expandKey body prev k.keysz)
  else do
    let key ← Trap.okOr (.corrupt "record shorter than its key" vbn) (Trap.get? body 0 k.keysz)
    pure (key, k.keysz)

/-- The record without its key. -/
def decodeRest (k : KeyDesc) (rest : Bytes) (vbn : ℕ) : Trap Error Bytes :=
  if k.has keyflag.REC_COMPR then
    Trap.orErr (.corrupt "compressed record" vbn) (expandSegments rest.length rest [])
  else pure rest

/-- Splits a primary record's body into its key and the record. -/
def decode (k : KeyDesc) (body prev : Bytes) (vbn : ℕ) : Trap Error (Bytes × Bytes) :=
  if ¬k.has (keyflag.KEY_COMPR ||| keyflag.REC_COMPR) then do
    let key ← Trap.okOr (.corrupt "record shorter than its primary key" vbn) (k.keyOf body)
    pure (key, body)
  else do
    let (key, q) ← decodeKey k body prev vbn
    let rest ← Trap.range body q body.length
    let record ← decodeRest k rest vbn
    let record ← spliceSegs key vbn ((placedSegs 0 k.segs).insertionSort segLe) record
    pure (key, record)

end Rms
