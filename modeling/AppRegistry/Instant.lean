import AppRegistry.Json.Codec

/-!
# Instants

An instant is a date and a time of day in universal time, with nanoseconds and room for a leap
second. It is written as an RFC 3339 text that ends in `Z`, with as many groups of three fraction
digits as it needs.

Reading is lenient: blanks may stand around the parts, a part may have fewer digits than usual, and
any offset is converted to universal time.
-/

namespace AppRegistry

/-! ## The calendar -/

/-- Whether a year has a 29th of February. -/
def isLeapYear (year : Int) : Bool := year % 4 = 0 && (year % 100 ≠ 0 || year % 400 = 0)

/-- The number of days of a month. -/
def daysInMonth (year : Int) (month : Nat) : Nat :=
  if month = 2 then (if isLeapYear year then 29 else 28)
  else if month = 4 ∨ month = 6 ∨ month = 9 ∨ month = 11 then 30
  else 31

/-- A day of the calendar. -/
structure Date where
  year : Int
  month : Nat
  day : Nat
deriving DecidableEq, Repr

namespace Date

/-- Whether the calendar has this day. Years reach from -262143 to 262142. -/
def IsValid (d : Date) : Prop :=
  -262143 ≤ d.year ∧ d.year ≤ 262142 ∧ 1 ≤ d.month ∧ d.month ≤ 12 ∧ 1 ≤ d.day ∧
    d.day ≤ daysInMonth d.year d.month

instance (d : Date) : Decidable d.IsValid := by unfold IsValid; infer_instance

/-- The day after. -/
def next (d : Date) : Date :=
  if d.day < daysInMonth d.year d.month then { d with day := d.day + 1 }
  else if d.month < 12 then ⟨d.year, d.month + 1, 1⟩
  else ⟨d.year + 1, 1, 1⟩

/-- The day before. -/
def previous (d : Date) : Date :=
  if 1 < d.day then { d with day := d.day - 1 }
  else if 1 < d.month then ⟨d.year, d.month - 1, daysInMonth d.year (d.month - 1)⟩
  else ⟨d.year - 1, 12, 31⟩

end Date

/-! ## Instants -/

/-- A point in universal time. A leap second is the second 60 of a minute. -/
structure Instant where
  date : Date
  /-- The minute of the day. -/
  minute : Nat
  second : Nat
  nanosecond : Nat
  valid : date.IsValid ∧ minute < 1440 ∧ second ≤ 60 ∧ nanosecond < 1000000000
deriving DecidableEq, Repr

namespace Instant

/-- The instant at a minute of a day, if there is one. -/
def of? (date : Date) (minute second nanosecond : Nat) : Option Instant :=
  if h : date.IsValid ∧ minute < 1440 ∧ second ≤ 60 ∧ nanosecond < 1000000000 then
    some ⟨date, minute, second, nanosecond, h⟩
  else none

/-- The instant of a local time that is `offset` minutes ahead of universal time. -/
def ofLocal? (date : Date) (minute second nanosecond : Nat) (offset : Int) : Option Instant := do
  let shifted := (minute : Int) - offset
  if ¬ date.IsValid then none
  else if shifted < 0 then of? date.previous (shifted + 1440).toNat second nanosecond
  else if shifted < 1440 then of? date shifted.toNat second nanosecond
  else of? date.next (shifted - 1440).toNat second nanosecond

/-! ## Writing -/

/-- A number with zeros in front, up to a width. -/
def padded (width n : Nat) : String :=
  String.ofList (List.leftpad width '0' (Nat.toDigits 10 n))

/-- A year: four digits, and a sign if it needs more or lies before the year 0. -/
def yearText (year : Int) : String :=
  if 0 ≤ year ∧ year ≤ 9999 then padded 4 year.toNat
  else if 0 ≤ year then "+" ++ padded 4 year.toNat
  else "-" ++ padded 4 (-year).toNat

/-- A fraction of a second in groups of three digits, as many as it needs. -/
def fractionText (n : Nat) : String :=
  if n = 0 then ""
  else if n % 1000000 = 0 then "." ++ padded 3 (n / 1000000)
  else if n % 1000 = 0 then "." ++ padded 6 (n / 1000)
  else "." ++ padded 9 n

/-- The written form of an instant. -/
def text (i : Instant) : String :=
  yearText i.date.year ++ "-" ++ padded 2 i.date.month ++ "-" ++ padded 2 i.date.day ++ "T" ++
    padded 2 (i.minute / 60) ++ ":" ++ padded 2 (i.minute % 60) ++ ":" ++ padded 2 i.second ++
    fractionText i.nanosecond ++ "Z"

/-! ## Reading -/

/-- Blank characters. -/
def isBlank (c : Char) : Bool :=
  (0x9 ≤ c.val && c.val ≤ 0xd) || c.val == 0x20 || c.val == 0x85 || c.val == 0xa0 ||
    c.val == 0x1680 || (0x2000 ≤ c.val && c.val ≤ 0x200a) || c.val == 0x2028 ||
    c.val == 0x2029 || c.val == 0x202f || c.val == 0x205f || c.val == 0x3000

/-- A reader that takes characters from the front of a text. -/
abbrev Reader := StateT (List Char) Option

namespace Reader

/-- Drops blanks. -/
def blanks : Reader Unit := modify fun cs => cs.dropWhile isBlank

/-- Takes one character, which must satisfy `p`. -/
def one (p : Char → Bool) : Reader Char := do
  match ← get with
  | c :: rest => if p c then do set rest; pure c else failure
  | [] => failure

/-- The value of a list of digits. -/
def valueOf (ds : List Char) : Nat := ds.foldl (fun n d => 10 * n + (d.toNat - '0'.toNat)) 0

/-- Takes at least one digit and at most `width`. -/
def digits (width : Nat) : Reader (List Char) := do
  let cs ← get
  let ds := (cs.takeWhile Char.isDigit).take width
  if ds = [] then failure
  else do set (cs.drop ds.length); pure ds

/-- Takes a number after blanks. -/
def number (width : Nat) : Reader Nat := do
  blanks
  return valueOf (← digits width)

/-- Takes a mark after blanks. -/
def mark (c : Char) : Reader Unit := do
  blanks
  discard (one (· == c))

/-- Takes a year, which may have a sign and then any number of digits. -/
def year : Reader Int := do
  blanks
  match ← get with
  | '-' :: rest => do set rest; return -(valueOf (← digits rest.length) : Int)
  | '+' :: rest => do set rest; return valueOf (← digits rest.length)
  | _ => return valueOf (← digits 4)

/-- Takes a date. -/
def date : Reader Date := do
  let y ← year
  mark '-'
  let m ← number 2
  mark '-'
  return ⟨y, m, ← number 2⟩

/-- Takes a fraction, if there is one, in nanoseconds. Digits after the ninth are dropped. -/
def fraction : Reader Nat := do
  match ← get with
  | '.' :: rest => do
    set rest
    let ds ← digits 9
    modify fun cs => cs.dropWhile Char.isDigit
    return valueOf ds * Nat.pow 10 (9 - ds.length)
  | _ => return 0

/-- Takes a digit as a number, up to a greatest one. -/
def digit (greatest : Char) : Reader Nat := do
  return (← one fun c => '0' ≤ c && c ≤ greatest).toNat - '0'.toNat

/-- Takes an offset of hours and minutes, in minutes. -/
def hoursAndMinutes : Reader Nat := do
  let h₁ ← digit '9'
  let h₂ ← digit '9'
  modify fun cs => cs.dropWhile fun c => c == ':' || isBlank c
  let m₁ ← digit '5'
  let m₂ ← digit '9'
  let offset := (10 * h₁ + h₂) * 60 + 10 * m₁ + m₂
  if offset < 1440 then return offset else failure

/-- Takes an offset from universal time, in minutes. -/
def offset : Reader Int := do
  match ← get with
  | u :: t :: c :: rest =>
    if [u.toLower, t.toLower, c.toLower] = ['u', 't', 'c'] then do set rest; return 0
  | _ => pure ()
  match ← one fun _ => true with
  | 'Z' | 'z' => return 0
  | '+' => return (← hoursAndMinutes)
  | '-' | '\u2212' => return -(← hoursAndMinutes)
  | _ => failure

/-- Takes an instant with the blanks around it. -/
def instant : Reader Instant := do
  let date ← date
  discard (one fun c => c == 'T' || c == 't' || c == ' ')
  let hour ← number 2
  mark ':'
  let minute ← number 2
  mark ':'
  let second ← number 2
  let nanosecond ← fraction
  blanks
  let offset ← offset
  blanks
  if hour < 24 ∧ minute < 60 then
    ofLocal? date (60 * hour + minute) second nanosecond offset
  else failure

end Reader

/-- Reads the written form of an instant. -/
def ofText? (s : String) : Option Instant :=
  match Reader.instant.run s.toList with
  | some (i, []) => some i
  | _ => none

end Instant

instance : Codec Instant where
  encode i := .string i.text
  decode?
    | .string s => Instant.ofText? s
    | _ => none

end AppRegistry
