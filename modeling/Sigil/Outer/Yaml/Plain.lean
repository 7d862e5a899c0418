import Sigil.Number.Decimal
import Sigil.Text.Integer
import Sigil.Text.Name
import Sigil.Value.Basic

/-!
# What a plain scalar stands for

A scalar without quotes stands for a value of another kind if it is spelled like one, by the
core rules of version 1.2 with digits grouped by underscores and days besides. The writer
quotes each text that is spelled so, and the reader gives it the value. A spelling can be right
and still have no value: digits that are all underscores or too many, a day that no calendar
has, or a time of no day.
-/

namespace Sigil.Yaml

/-! ## 1. Kinds -/

inductive BadScalar where
  /-- No digits to read in this base. -/
  | noInteger (base : Nat) (digits : String)
  /-- No digits to read around the point. -/
  | noFloat (digits : String)
  /-- More digits of base 10 than are read. -/
  | tooManyDigits (count : Nat)
  | badYear (year : Nat)
  | badMonth
  | badDay
  | badHour
  | badMinute
  | badSecond
  /-- A zone a day or more away. -/
  | badZone
  deriving DecidableEq, Repr

inductive Plain where
  | scalar (s : Scalar)
  | bad (why : BadScalar)
  /-- The key under which other maps are merged in. -/
  | merge
  /-- The key of a value among its own properties. -/
  | equals
  /-- A point in time, with more than the day. -/
  | time
  deriving DecidableEq, Repr

/-! ## 2. Spellings of numbers -/

open Text (isDigit)

/-- Whether a number has gone negative, and its text without the sign. -/
def unsigned : List Char → Bool × List Char
  | '-' :: cs => (true, cs)
  | '+' :: cs => (false, cs)
  | cs => (false, cs)

def ungrouped (cs : List Char) : List Char := cs.filter (· != '_')

/-- Whether a text is one or more characters of a kind, underscores included. -/
def isRun (p : Char → Bool) (cs : List Char) : Bool :=
  !cs.isEmpty && cs.all fun c => p c || c == '_'

def isHexDigit (c : Char) : Bool := isDigit c || ('a' ≤ c && c ≤ 'f') || ('A' ≤ c && c ≤ 'F')

/-- The integer of these digits. -/
def integerOf (negative : Bool) (base : Nat) (cs : List Char) : Plain :=
  match ungrouped cs with
  | [] => .bad (.noInteger base "")
  | ds =>
    if base = 10 ∧ Text.maxDigits < ds.length then .bad (.tooManyDigits ds.length)
    else
      let value (c : Char) : Nat :=
        if isDigit c then c.toNat - '0'.toNat
        else if 'a' ≤ c then c.toNat - 'a'.toNat + 10 else c.toNat - 'A'.toNat + 10
      let n : Nat := ds.foldl (fun sum c => base * sum + value c) 0
      .scalar (.int (if negative then -(n : Int) else n))

def integer? (cs : List Char) : Option Plain :=
  let (negative, ds) := unsigned cs
  match ds with
  | '0' :: 'b' :: rest =>
    if isRun (fun c => c == '0' || c == '1') rest then some (integerOf negative 2 rest) else none
  | '0' :: 'x' :: rest => if isRun isHexDigit rest then some (integerOf negative 16 rest) else none
  | '0' :: 'o' :: rest =>
    if isRun (fun c => '0' ≤ c && c ≤ '7') rest then some (integerOf negative 8 rest) else none
  | ds =>
    let startsWell := match cs with
      | c :: _ => c != '_'
      | [] => false
    if startsWell && isRun isDigit ds then some (integerOf negative 10 ds) else none

/-- A sign and digits after an exponent letter; the sign is optional unless it is required. -/
def exponent? (signRequired : Bool) : List Char → Option Int
  | e :: cs =>
    if e == 'e' || e == 'E' then
      let (negative, ds) := unsigned cs
      let hasSign := ds.length < cs.length
      if !ds.isEmpty && ds.all isDigit && (hasSign || !signRequired) then
        let n : Int := Nat.ofDigitChars 10 ds 0
        some (if negative then -n else n)
      else none
    else none
  | [] => none

/-- The number of these digits before and after the point, times a power of ten. -/
def floatOf (negative : Bool) (whole fraction : List Char) (power : Int) : Plain :=
  .scalar (.float
    (((Decimal.ofDigits (ungrouped whole) (ungrouped fraction)).scale power).toBinary64 negative))

/-- A text spelled like a floating number. With no digit before the point there must be a digit or
    an underscore after it, and an exponent needs its sign. -/
def float? (cs : List Char) : Option Plain :=
  let (negative, ds) := unsigned cs
  let grouped (c : Char) : Bool := isDigit c || c == '_'
  let whole := ds.takeWhile grouped
  let rest := ds.drop whole.length
  match whole, rest with
  | [], '.' :: rest =>
    if rest = "inf".toList ∨ rest = "Inf".toList ∨ rest = "INF".toList then
      some (.scalar (.float (if negative then Binary64.infinity.neg else .infinity)))
    else if cs.length = 4 ∧ (rest = "nan".toList ∨ rest = "NaN".toList ∨ rest = "NAN".toList) then
      some (.scalar (.float .nan))
    else
      let fraction := rest.takeWhile grouped
      let tail := rest.drop fraction.length
      let power := if tail.isEmpty then some 0 else exponent? true tail
      match fraction, power with
      | [], _ | _, none => none
      | fraction, some power =>
        if (ungrouped fraction).isEmpty then
          some (.bad (.noFloat (String.ofList ('.' :: tail.map Char.toLower))))
        else some (floatOf negative [] fraction power)
  | '_' :: _, _ | [], _ => none
  | whole, '.' :: rest =>
    let fraction := rest.takeWhile grouped
    let tail := rest.drop fraction.length
    (if tail.isEmpty then some 0 else exponent? false tail).map (floatOf negative whole fraction)
  | whole, tail => (exponent? false tail).map (floatOf negative whole [])

/-! ## 3. Spellings of days and times -/

def isLeapYear (year : Nat) : Bool := year % 4 == 0 && (year % 100 != 0 || year % 400 == 0)

def daysOfMonth (year month : Nat) : Nat :=
  if month == 2 then (if isLeapYear year then 29 else 28)
  else if month == 4 || month == 6 || month == 9 || month == 11 then 30 else 31

def dayOf (year month day : Nat) : Plain :=
  if year = 0 then .bad (.badYear year)
  else if month = 0 ∨ 12 < month then .bad .badMonth
  else if day = 0 ∨ daysOfMonth year month < day then .bad .badDay
  else .scalar (.date ⟨year, month, day⟩)

/-- At least `least` and at most `most` digits at the start of a text, and what follows them. -/
def someDigits (least most : Nat) (cs : List Char) : Option (List Char × List Char) :=
  let ds := (cs.take most).takeWhile isDigit
  if least ≤ ds.length then some (ds, cs.drop ds.length) else none

def after (c : Char) : List Char → Option (List Char)
  | d :: cs => if d = c then some cs else none
  | [] => none

def number (ds : List Char) : Nat := Nat.ofDigitChars 10 ds 0

/-- The minutes that a zone is away: none, as the universal one, or hours with optional minutes. -/
def zone? (cs : List Char) : Option Nat :=
  match cs.dropWhile fun c => c == ' ' || c == '\t' with
  | [] => if cs.isEmpty then some 0 else none
  | ['Z'] => some 0
  | sign :: rest =>
    if sign == '-' || sign == '+' then match someDigits 1 2 rest with
      | some (hours, []) => some (60 * number hours)
      | some (hours, ':' :: minutes) =>
        if minutes.length == 2 && minutes.all isDigit then
          some (60 * number hours + number minutes)
        else none
      | _ => none
    else none

/-- The time of the day of that hour, minute and second, in a zone so many minutes away. -/
def timeOf (hour minute second zone : Nat) : Plain :=
  if 24 ≤ hour then .bad .badHour
  else if 60 ≤ minute then .bad .badMinute
  else if 60 ≤ second then .bad .badSecond
  else if 24 * 60 ≤ zone then .bad .badZone
  else .time

/-- A text spelled like a time of the day: hours, minutes, seconds, an optional
    fraction, and a zone. -/
def time? (cs : List Char) : Option Plain := do
  let (hour, cs) ← someDigits 1 2 cs
  let (minute, cs) ← someDigits 2 2 (← after ':' cs)
  let (second, cs) ← someDigits 2 2 (← after ':' cs)
  let zone ← zone? (match cs with
    | '.' :: cs => cs.dropWhile isDigit
    | cs => cs)
  return timeOf (number hour) (number minute) (number second) zone

/-- What stands between a day and a time: the letter, or blanks. -/
def timeAfter (cs : List Char) : Option (List Char) :=
  match cs with
  | 'T' :: cs | 't' :: cs => some cs
  | cs =>
    let time := cs.dropWhile fun c => c == ' ' || c == '\t'
    if time.length < cs.length then some time else none

/-- A text spelled like a day, or like a point in time. -/
def day? (cs : List Char) : Option Plain := do
  let (year, cs) ← someDigits 4 4 cs
  let (month, cs) ← someDigits 1 2 (← after '-' cs)
  let (day, cs) ← someDigits 1 2 (← after '-' cs)
  let date := dayOf (number year) (number month) (number day)
  if cs.isEmpty then
    if month.length = 2 ∧ day.length = 2 then some date else none
  else do
    let clock ← time? (← timeAfter cs)
    match date with
    | .bad why => some (.bad why)
    | _ => some clock

/-! ## 4. All spellings -/

/-- The spellings that are listed one by one. -/
def listed : List (String × Plain) :=
  [("", .scalar .null), ("~", .scalar .null), ("null", .scalar .null), ("Null", .scalar .null),
   ("NULL", .scalar .null), ("true", .scalar (.bool true)), ("True", .scalar (.bool true)),
   ("TRUE", .scalar (.bool true)), ("false", .scalar (.bool false)),
   ("False", .scalar (.bool false)), ("FALSE", .scalar (.bool false)), ("<<", .merge),
   ("=", .equals)]

/-- What a plain scalar stands for, if not for its own text. -/
def plain? (s : String) : Option Plain :=
  match (listed.find? fun entry => entry.1 == s).map Prod.snd with
  | some p => some p
  | none => ((float? s.toList).or (integer? s.toList)).or (day? s.toList)

end Sigil.Yaml
