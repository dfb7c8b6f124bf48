/-
# The TIME of a line

`time_parse` of `log/entry.c`: the 27 characters a line starts with,
`2026-10-02T12:34:56.789123Z`, as microseconds since 1970.
-/

import Fuzznet.Lib.Text
import Fuzznet.Wire.Bytes

namespace Fuzznet
namespace Log

open Wire Lib

/-- `TIME_LEN`. -/
def timeLen : ℕ := 27

/-- `digits`: a number of these digits. -/
def digits (t : Bytes) : Option ℕ :=
  t.foldlM (fun v c => if c < 48 ∨ 57 < c then none else some (v * 10 + (c.toNat - 48))) 0

/-- `days_from_civil`. -/
def daysFromCivil (y : ℤ) (m d : ℕ) : ℤ :=
  let y := y - (if m ≤ 2 then 1 else 0)
  let era := (if 0 ≤ y then y else y - 399).tdiv 400
  let yoe := y - era * 400
  let doy := (153 * (if 2 < m then (m : ℤ) - 3 else m + 9) + 2).tdiv 5 + d - 1
  let doe := yoe * 365 + yoe.tdiv 4 - yoe.tdiv 100 + doy
  era * 146097 + doe - 719468

/-- The days of each month, February's 29 being checked apart. -/
def monthDays : List ℕ := [31, 29, 31, 30, 31, 30, 31, 31, 30, 31, 30, 31]

/-- `time_parse`. -/
def timeParse (t : Bytes) : Option ℕ :=
  if t.length ≠ timeLen ∨ t.getD 4 0 ≠ 45 ∨ t.getD 7 0 ≠ 45 ∨ t.getD 10 0 ≠ 84 ∨
      t.getD 13 0 ≠ 58 ∨ t.getD 16 0 ≠ 58 ∨ t.getD 19 0 ≠ 46 ∨ t.getD 26 0 ≠ 90 then none
  else do
    let y ← digits (t.take 4)
    let mo ← digits ((t.drop 5).take 2)
    let d ← digits ((t.drop 8).take 2)
    let h ← digits ((t.drop 11).take 2)
    let mi ← digits ((t.drop 14).take 2)
    let s ← digits ((t.drop 17).take 2)
    let frac ← digits ((t.drop 20).take 6)
    let leap := y % 4 = 0 ∧ y % 100 ≠ 0 ∨ y % 400 = 0
    if y < 1970 ∨ mo < 1 ∨ 12 < mo ∨ d < 1 ∨ monthDays.getD (mo - 1) 0 < d ∨
        mo = 2 ∧ d = 29 ∧ ¬leap ∨ 23 < h ∨ 59 < mi ∨ 59 < s then none
    else
      some (((daysFromCivil y mo d).toNat * 86400 + h * 3600 + mi * 60 + s) * 1000000 + frac)

/-- The epoch, and a leap day. -/
example : timeParse (ascii "1970-01-01T00:00:01.000002Z") = some 1000002 ∧
    timeParse (ascii "2024-02-29T00:00:00.000000Z") = some 1709164800000000 := by
  decide

end Log
end Fuzznet
