import ScriptPir.Numeral.Decimal
import ScriptPir.Stamp.Moment

/-!
# Time stamps

A format is a text in which a percent sign and a letter stand for a part of the moment, with English
names. A percent sign with anything else after it stands for itself.
-/

namespace ScriptPir.Stamp

def weekdays : List String :=
  ["Sunday", "Monday", "Tuesday", "Wednesday", "Thursday", "Friday", "Saturday"]

def months : List String :=
  ["January", "February", "March", "April", "May", "June", "July", "August", "September",
    "October", "November", "December"]

/-- The first three letters of a name. -/
def short (name : String) : String := String.ofList (name.toList.take 3)

/-- A number filled up on the left to a width; a sign counts and comes first. -/
def padded (fill : Char) (width : Nat) (n : Int) : String :=
  let digits := Nat.toDigits 10 n.natAbs
  let sign := if n < 0 then ['-'] else []
  let filler := List.replicate (width - digits.length - sign.length) fill
  String.ofList (if fill = '0' then sign ++ filler ++ digits else filler ++ sign ++ digits)

/-- Two digits. -/
def two (n : Int) : String := padded '0' 2 n

/-- The hour on a clock of twelve. -/
def hour12 (m : Moment) : Int := if m.hour % 12 = 0 then 12 else m.hour % 12

/-- Hours, minutes and seconds. -/
def clock (hour : Int) (m : Moment) : String := two hour ++ ":" ++ two m.minute ++ ":" ++ two m.second

/-- Before or after noon. -/
def half (m : Moment) : String := if m.hour < 12 then "AM" else "PM"

/-- The name of the day. -/
def dayName (m : Moment) : String := weekdays.getD m.weekday.toNat ""

/-- The name of the month. -/
def monthName (m : Moment) : String := months.getD (m.month - 1).toNat ""

/-- The month, the day and the year in two digits each. -/
def slashed (m : Moment) : String :=
  two m.month ++ "/" ++ two m.day ++ "/" ++ two (m.year.tmod 100)

/-- How far the zone is east of UTC, in seconds, with a sign and at least four digits. -/
def offset (m : Moment) : String :=
  (if m.offset < 0 then "-" else "+") ++ padded '0' 4 m.offset.natAbs

/-- What a letter after a percent sign stands for. -/
def directive? (m : Moment) : Char → Option String
  | 'a' => some (short (dayName m))
  | 'A' => some (dayName m)
  | 'b' => some (short (monthName m))
  | 'B' => some (monthName m)
  | 'c' => some (short (dayName m) ++ " " ++ short (monthName m) ++ " " ++ padded ' ' 2 m.day ++ " " ++
      clock m.hour m ++ " " ++ Numeral.ofInt m.year)
  | 'C' => some (Numeral.ofInt (m.year.tdiv 100))
  | 'd' => some (two m.day)
  | 'D' | 'x' => some (slashed m)
  | 'e' => some (padded ' ' 2 m.day)
  | 'F' => some (Numeral.ofInt m.year ++ "-" ++ two m.month ++ "-" ++ two m.day)
  | 'g' => some (two (m.isoWeek.1.tmod 100))
  | 'G' => some (Numeral.ofInt m.isoWeek.1)
  | 'H' => some (two m.hour)
  | 'I' => some (two (hour12 m))
  | 'j' => some (padded '0' 3 m.yearDay)
  | 'm' => some (two m.month)
  | 'M' => some (two m.minute)
  | 'n' => some "\n"
  | 'p' => some (half m)
  | 'r' => some (clock (hour12 m) m ++ " " ++ half m)
  | 'R' => some (two m.hour ++ ":" ++ two m.minute)
  | 'S' => some (two m.second)
  | 't' => some "\t"
  | 'T' | 'X' => some (clock m.hour m)
  | 'u' => some (Numeral.ofInt m.isoWeekday)
  | 'U' | 'V' => some (two m.isoWeek.2)
  | 'w' => some (Numeral.ofInt m.weekday)
  | 'W' => some (two (m.isoWeek.2 - 1))
  | 'y' => some (two (m.year.tmod 100))
  | 'Y' => some (Numeral.ofInt m.year)
  | 'z' => some (offset m)
  | 'Z' => some m.zone
  | '%' => some "%"
  | _ => none

/-- Writes a moment in a format. -/
def format (m : Moment) : List Char → List Char
  | '%' :: c :: rest =>
    (match directive? m c with
      | some text => text.toList
      | none => ['%', c]) ++ format m rest
  | c :: rest => c :: format m rest
  | [] => []

end ScriptPir.Stamp
