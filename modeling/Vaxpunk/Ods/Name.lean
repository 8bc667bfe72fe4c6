/-
  File names (`name.rs`): validation, directory order.
-/
import Vaxpunk.Ods.Layout.Block

namespace Ods

/-- Which version of a name is meant. -/
inductive Version where
  /-- The highest existing one. -/
  | highest
  | exact (v : ℕ)
  /-- `n` versions below the highest. -/
  | relative (n : ℕ)
  | all
  deriving DecidableEq, Repr

def MAX_VERSION : ℕ := 32767

namespace Name

def dot : UInt8 := 46

/-- Splits "NAME.TYPE" at the last dot. -/
def split (name : List UInt8) : List UInt8 × List UInt8 :=
  if dot ∈ name then
    let t := (name.reverse.takeWhile (· != dot)).reverse
    (name.take (name.length - t.length - 1), t)
  else (name, [])

/-- The characters of an ODS-2 name: A-Z, 0-9, `$`, `-` and `_`. -/
def ods2Char (c : UInt8) : Bool :=
  (65 ≤ c && c ≤ 90) || (48 ≤ c && c ≤ 57) || c == 36 || c == 45 || c == 95

/-- The characters no ODS-5 name has: controls and `"*\:<>/?|`. -/
def ods5Bad (c : UInt8) : Bool :=
  c < 0x20 || [34, 42, 92, 58, 60, 62, 47, 63, 124].contains c

/-- Checks that `name` ("NAME.TYPE", no wildcards) may be created; the text
    says why not. -/
def validate (level : Level) (name : List UInt8) : Except String Unit :=
  if dot ∉ name then .error "no dot between name and type"
  else
    let (n, t) := split name
    match level with
    | .ods2 =>
      if n.length > 39 ∨ t.length > 39 then
        .error "ODS-2 names and types are at most 39 characters"
      else if ¬(n ++ t).all ods2Char then .error "ODS-2 names use only A-Z, 0-9, $, - and _"
      else .ok ()
    | .ods5 =>
      if name.length > 236 then .error "ODS-5 names are at most 236 characters"
      else if name.any ods5Bad then .error "character not allowed in an ODS-5 name"
      else .ok ()

def upcase (c : ℕ) : ℕ :=
  if (0x61 ≤ c && c ≤ 0x7a) || (0xe0 ≤ c && c ≤ 0xf6) || (0xf8 ≤ c && c ≤ 0xfe) then c - 0x20 else c

/-- Pairs of bytes as 16-bit characters. -/
def pairs : List UInt8 → List ℕ
  | a :: b :: cs => (a.toNat + b.toNat <<< 8) :: pairs cs
  | _ => []

/-- A stored name as 16-bit characters, whatever its encoding. -/
def chars (name : List UInt8) (t : NameType) : List ℕ :=
  match t with
  | .ucs2 => pairs name
  | _ => name.map UInt8.toNat

end Name

end Ods
