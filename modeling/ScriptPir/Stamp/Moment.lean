/-!
# Moments

A moment is a date and a time of day in some zone. Dates follow the Gregorian calendar in both
directions without end. Days are counted from 1 January 1970.
-/

namespace ScriptPir

/-- A date and a time of day. -/
structure Moment where
  year : Int
  month : Int
  day : Int
  hour : Int
  minute : Int
  second : Int
  /-- The name of the zone. -/
  zone : String := "UTC"
  /-- How many seconds the zone is east of UTC. -/
  offset : Int := 0
deriving DecidableEq, Repr, Inhabited

namespace Moment

/-- The number of a day. The year is counted from March, so that a leap day comes last. -/
def dayNumber (year month day : Int) : Int :=
  let y := if month ≤ 2 then year - 1 else year
  let era := y.fdiv 400
  let yearOfEra := y - era * 400
  let monthFromMarch := (month + 9).fmod 12
  let dayOfYear := (153 * monthFromMarch + 2).fdiv 5 + day - 1
  let dayOfEra := yearOfEra * 365 + yearOfEra.fdiv 4 - yearOfEra.fdiv 100 + dayOfYear
  era * 146097 + dayOfEra - 719468

/-- The year, month and day of a day's number. -/
def ofDayNumber (n : Int) : Int × Int × Int :=
  let z := n + 719468
  let era := z.fdiv 146097
  let dayOfEra := z - era * 146097
  let yearOfEra :=
    (dayOfEra - dayOfEra.fdiv 1460 + dayOfEra.fdiv 36524 - dayOfEra.fdiv 146096).fdiv 365
  let dayOfYear := dayOfEra - (365 * yearOfEra + yearOfEra.fdiv 4 - yearOfEra.fdiv 100)
  let monthFromMarch := (5 * dayOfYear + 2).fdiv 153
  let day := dayOfYear - (153 * monthFromMarch + 2).fdiv 5 + 1
  let month := if monthFromMarch < 10 then monthFromMarch + 3 else monthFromMarch - 9
  let year := yearOfEra + era * 400
  (if month ≤ 2 then year + 1 else year, month, day)

/-- The moment a number of seconds after the start of 1970 on the clock of a zone. -/
def ofSeconds (seconds : Int) (zone : String) (offset : Int) : Moment :=
  let (year, month, day) := ofDayNumber (seconds.fdiv 86400)
  let rest := seconds.fmod 86400
  { year, month, day, hour := rest / 3600, minute := rest / 60 % 60, second := rest % 60,
    zone, offset }

/-- The same moment with every field in its range: month 14 is February of the next year. -/
def normalize (m : Moment) : Moment :=
  let months := m.month - 1
  let days := dayNumber (m.year + months.fdiv 12) (months.fmod 12 + 1) 1 + m.day - 1
  ofSeconds (((days * 24 + m.hour) * 60 + m.minute) * 60 + m.second) m.zone m.offset

/-- The number of the day of a moment. -/
def dayCount (m : Moment) : Int := dayNumber m.year m.month m.day

/-- The day of the week, from Sunday as zero. -/
def weekday (m : Moment) : Int := (m.dayCount + 4).fmod 7

/-- The day of the year, from one. -/
def yearDay (m : Moment) : Int := m.dayCount - dayNumber m.year 1 1 + 1

/-- The day of the week, from Monday as one. -/
def isoWeekday (m : Moment) : Int := if m.weekday = 0 then 7 else m.weekday

/-- The year and number of the week. A week belongs to the year of its Thursday. -/
def isoWeek (m : Moment) : Int × Int :=
  let thursday := m.dayCount + 4 - m.isoWeekday
  let (year, _, _) := ofDayNumber thursday
  (year, (thursday - dayNumber year 1 1) / 7 + 1)

end Moment

end ScriptPir
