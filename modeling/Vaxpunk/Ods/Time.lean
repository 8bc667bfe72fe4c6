/-
  VMS times as text (`ods-image/src/time.rs`): 100 ns units since 17-Nov-1858 00:00.
  The date is computed in i64; `none` is a panic, an overflow or an index out of range.
-/
import Mathlib

namespace Ods.Time

/-- An i64 result. -/
def i64 (x : ℤ) : Option ℤ := if -2 ^ 63 ≤ x ∧ x < 2 ^ 63 then some x else none

/-- The year, month and day of the date `days` after 17-Nov-1858. -/
def civil (days : ℕ) : Option (ℤ × ℤ × ℤ) := do
  let shifted ← i64 (days + 678941)
  let z ← i64 (shifted - 60)
  let era := z / 146097
  let doe := z % 146097
  -- (doe - doe / 1460 + doe / 36_524 - doe / 146_096) / 365
  let years ← i64 (doe - doe / 1460)
  let years ← i64 (years + doe / 36524)
  let years ← i64 (years - doe / 146096)
  let yoe := years / 365
  -- doe - (365 * yoe + yoe / 4 - yoe / 100)
  let start ← i64 (365 * yoe)
  let start ← i64 (start + yoe / 4)
  let start ← i64 (start - yoe / 100)
  let doy ← i64 (doe - start)
  -- (5 * doy + 2) / 153
  let fifths ← i64 (5 * doy)
  let fifths ← i64 (fifths + 2)
  let mp := fifths / 153
  -- doy - (153 * mp + 2) / 5 + 1
  let fifths ← i64 (153 * mp)
  let fifths ← i64 (fifths + 2)
  let day ← i64 (doy - fifths / 5)
  let day ← i64 (day + 1)
  let month ← i64 (if mp < 10 then mp + 3 else mp - 9)
  -- yoe + era * 400 + (month <= 2)
  let years ← i64 (era * 400)
  let year ← i64 (yoe + years)
  let year ← i64 (year + if month ≤ 2 then 1 else 0)
  some (year, month, day)

def M : List String :=
  ["JAN", "FEB", "MAR", "APR", "MAY", "JUN", "JUL", "AUG", "SEP", "OCT", "NOV", "DEC"]

def pad (fill : Char) (x : ℤ) : String := String.leftpad 2 fill (toString x)

/-- "25-SEP-2026 15:30:07.12", as DIRECTORY/FULL prints dates. -/
def format (t : BitVec 64) : Option String :=
  if t = 0 then some "<none specified>"
  else do
    let secs := t.toNat / 10000000
    let days := secs / 86400
    let rem := secs % 86400
    let (year, month, day) ← civil days
    let index ← i64 (month - 1)
    let name ← M[(index % 2 ^ 64).toNat]?
    some (pad ' ' day ++ "-" ++ name ++ "-" ++ toString year ++ " " ++
      pad '0' (rem / 3600 : ℕ) ++ ":" ++ pad '0' (rem / 60 % 60 : ℕ) ++ ":" ++
      pad '0' (rem % 60 : ℕ) ++ "." ++ pad '0' (t.toNat / 100000 % 100 : ℕ))

end Ods.Time
