import Mathlib.Data.String.Basic

/-!
# ISO timestamps of the TUI stores

`tui-operation-helpers.ts` turns every `now` into the text `Date.prototype.toISOString`
writes, and the stores compare those texts, in SQL and in JavaScript, as strings. A time here
is the time value of the `Date` object, in milliseconds; `none` is an invalid date.
-/

namespace ThreeXhaust.Tui

def civilFromDays (days : Int) : Int × Nat × Nat :=
  let z := days + 719468
  let era := z.fdiv 146097
  let doe := (z - era * 146097).toNat
  let yoe := (doe - doe / 1460 + doe / 36524 - doe / 146096) / 365
  let doy := doe - (365 * yoe + yoe / 4 - yoe / 100)
  let mp := (5 * doy + 2) / 153
  let day := doy - (153 * mp + 2) / 5 + 1
  let month := if mp < 10 then mp + 3 else mp - 9
  let year : Int := yoe + era * 400
  (if month ≤ 2 then year + 1 else year, month, day)

def padStart (width n : Nat) : List Char :=
  let ds := Nat.toDigits 10 n
  List.replicate (width - ds.length) '0' ++ ds

def isoYear (year : Int) : List Char :=
  if 0 ≤ year ∧ year ≤ 9999 then padStart 4 year.toNat
  else (if year < 0 then '-' else '+') :: padStart 6 year.natAbs

/-- The largest time value of a valid `Date`. -/
def maxTime : Int := 8640000000000000

/-- `Date.prototype.toISOString`; `none` is the `RangeError` of an invalid date. -/
def toISOString (time : Int) : Option String :=
  if -maxTime ≤ time ∧ time ≤ maxTime then
    let days := time.fdiv 86400000
    let ms := (time - days * 86400000).toNat
    let (year, month, day) := civilFromDays days
    some (String.ofList (isoYear year ++ '-' :: padStart 2 month ++ '-' :: padStart 2 day
      ++ 'T' :: padStart 2 (ms / 3600000) ++ ':' :: padStart 2 (ms / 60000 % 60)
      ++ ':' :: padStart 2 (ms / 1000 % 60) ++ '.' :: padStart 3 (ms % 1000) ++ ['Z']))
  else none

/-- `isoTimestamp`: a `Date` outside the valid range is already invalid. -/
def isoTimestamp (time : Option Int) : Except String String :=
  match time.bind toISOString with
  | some iso => .ok iso
  | none => .error "TUI request lease timestamp is invalid"

/-- `new Date(new Date(now).getTime() + leaseMs).toISOString()`. -/
def leaseExpiry (time : Option Int) (leaseMs : Nat) : Except String String :=
  match time.bind fun t => toISOString (t + leaseMs) with
  | some iso => .ok iso
  | none => .error "Invalid time value"

example : toISOString 1787443200000 = some "2026-08-23T00:00:00.000Z" := by decide

end ThreeXhaust.Tui
