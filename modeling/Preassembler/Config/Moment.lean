import Preassembler.Config.Integer

/-! Written dates and times.

A form says how a moment is written, part by part. Both configuration formats have a few forms of
their own; what is written has to name a day of the calendar and a time of the day. -/
namespace Preassembler.Config
open Text (ascii byte isDigit)

/-- A part of a written moment. Numbers have two digits; a short one may have only one. -/
inductive Part where
  | mark (b : UInt8)
  /-- One or more blanks. -/
  | gap
  | year
  | month (short : Bool)
  | day (short : Bool)
  | hour (short : Bool)
  | minute (short : Bool)
  | second (short : Bool)
  /-- A fraction of a second, which may be left out. -/
  | fraction
  /-- The offset from universal time. -/
  | zone
  deriving DecidableEq, Repr

/-- The day a moment falls on, as far as it was read. -/
structure Day where
  year : Nat := 0
  month : Nat := 1
  day : Nat := 1
  deriving DecidableEq, Repr

namespace Day

def isLeap (year : Nat) : Bool := year % 4 == 0 && (year % 100 != 0 || year % 400 == 0)

/-- The number of days of a month. -/
def daysIn (year month : Nat) : Nat :=
  if month = 2 then if isLeap year then 29 else 28
  else if month = 4 || month = 6 || month = 9 || month = 11 then 30
  else 31

/-- Whether a day is in the calendar. -/
def isValid (d : Day) : Bool :=
  1 ≤ d.month && d.month ≤ 12 && 1 ≤ d.day && d.day ≤ daysIn d.year d.month

end Day

namespace Part

/-- A number of two digits, or of one when it may be short, that is at most `most`. -/
def small? (short : Bool) (most : Nat) (t : Text) : Option (Nat × Text) :=
  let digits := (t.take 2).takeWhile isDigit
  if digits.isEmpty || (!short && digits.length < 2) then none
  else do
    let n ← number? 10 digits
    if n ≤ most then some (n, t.drop digits.length) else none

/-- The offset from universal time, up to a whole day. -/
def zone? (t : Text) : Option Text :=
  match t with
  | [] => none
  | b :: r =>
    if b == byte 'Z' then some r
    else if b == byte '+' || b == byte '-' then do
      let (_, r) ← small? false 24 r
      let r ← Text.after? (ascii ":") r
      let (_, r) ← small? false 60 r
      some r
    else none

/-- A fraction of a second behind a point or a comma. -/
def skipFraction (t : Text) : Text :=
  match t with
  | p :: d :: r => if (p == byte '.' || p == byte ',') && isDigit d then r.dropWhile isDigit else t
  | _ => t

/-- Reads a part at the front of a text. -/
def read? (d : Day) (t : Text) : Part → Option (Day × Text)
  | mark b => (Text.after? [b] t).map (d, ·)
  | gap => (Text.after? [0x20] t).map fun r => (d, r.dropWhile (· == 0x20))
  | year =>
    let digits := (t.take 4).takeWhile isDigit
    if digits.length = 4 then (number? 10 digits).map fun n => ({ d with year := n }, t.drop 4)
    else none
  | month short => (small? short 12 t).map fun (n, r) => ({ d with month := n }, r)
  | day short => (small? short 99 t).map fun (n, r) => ({ d with day := n }, r)
  | hour short => (small? short 23 t).map fun (_, r) => (d, r)
  | minute short => (small? short 59 t).map fun (_, r) => (d, r)
  | second short => (small? short 59 t).map fun (_, r) => (d, r)
  | fraction => some (d, skipFraction t)
  | zone => (zone? t).map (d, ·)

end Part

/-- Whether a text is a moment in a form. -/
def isMoment (form : List Part) (t : Text) : Bool :=
  match form.foldlM (fun (d, t) part => part.read? d t) (({} : Day), t) with
  | some (d, []) => d.isValid
  | _ => false

namespace Part

/-- A date. -/
def date (short : Bool) : List Part :=
  [.year, .mark (byte '-'), .month short, .mark (byte '-'), .day short]

/-- A time of the day; the hour may be short on its own. -/
def time (short : Bool) : List Part :=
  [.hour short, .mark (byte ':'), .minute short, .mark (byte ':'), .second short, .fraction]

end Part

end Preassembler.Config
