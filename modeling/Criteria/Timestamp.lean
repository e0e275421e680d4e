import Criteria.Text.Blank

/-!
# Timestamps

A point in time to the nanosecond, as date and time of day in UTC. The last second
of a minute may be a leap second, whose nanoseconds run on from `10 ^ 9`.

* `Timestamp.position`: orders timestamps as they follow each other;
* `Timestamp.text`: the RFC 3339 text, with none, three, six or nine digits of
  fraction, the fewest that are exact;
* `Timestamp.read?`: reads an RFC 3339 text with any offset. A blank may stand in
  place of the `T`, blanks may stand between the parts, and leading zeros may be
  missing.
-/

namespace Criteria

namespace Timestamp

/-- The nanoseconds of a second: `10 ^ 9`. -/
def nanosPerSecond : Nat := 1000000000

/-! ## The calendar -/

/-- Whether a year has a leap day. -/
def isLeap (year : Int) : Bool := year % 4 = 0 && (year % 100 != 0 || year % 400 = 0)

/-- The days of a month. -/
def daysIn (year : Int) (month : Nat) : Nat :=
  if month = 2 then if isLeap year then 29 else 28
  else if month = 4 ∨ month = 6 ∨ month = 9 ∨ month = 11 then 30
  else 31

/-- Whether the parts of a date and time name a point in time. -/
def IsSound (year : Int) (month day hour minute second nano : Nat) : Prop :=
  (-262143 ≤ year ∧ year ≤ 262142) ∧ (1 ≤ month ∧ month ≤ 12) ∧
    (1 ≤ day ∧ day ≤ daysIn year month) ∧ hour < 24 ∧ minute < 60 ∧ second < 60 ∧
    nano < 2 * nanosPerSecond ∧ (nano < nanosPerSecond ∨ second = 59)

instance (year : Int) (month day hour minute second nano : Nat) :
    Decidable (IsSound year month day hour minute second nano) := by
  unfold IsSound; infer_instance

/-- The day before a date. -/
def dayBefore (year : Int) (month day : Nat) : Int × Nat × Nat :=
  if 1 < day then (year, month, day - 1)
  else if 1 < month then (year, month - 1, daysIn year (month - 1))
  else (year - 1, 12, 31)

/-- The day after a date. -/
def dayAfter (year : Int) (month day : Nat) : Int × Nat × Nat :=
  if day < daysIn year month then (year, month, day + 1)
  else if month < 12 then (year, month + 1, 1)
  else (year + 1, 1, 1)

end Timestamp

/-- A point in time. -/
structure Timestamp where
  year : Int
  month : Nat
  day : Nat
  hour : Nat
  minute : Nat
  second : Nat
  nano : Nat
  sound : Timestamp.IsSound year month day hour minute second nano
  deriving DecidableEq

namespace Timestamp

/-- The timestamp with the given parts, if they name a point in time. -/
def ofParts? (year : Int) (month day hour minute second nano : Nat) : Option Timestamp :=
  if h : IsSound year month day hour minute second nano then
    some ⟨year, month, day, hour, minute, second, nano, h⟩
  else none

/-- A number that grows with time. -/
def position (t : Timestamp) : Int :=
  (((((t.year * 12 + t.month) * 31 + t.day) * 24 + t.hour) * 60 + t.minute) * 60 + t.second) *
    (2 * nanosPerSecond) + t.nano

instance : LE Timestamp := ⟨fun s t => s.position ≤ t.position⟩

instance (s t : Timestamp) : Decidable (s ≤ t) := Int.decLe _ _

/-! ## Texts -/

/-- A number with leading zeros up to a width. -/
def padded (width n : Nat) : List Char :=
  let digits := Nat.toDigits 10 n
  List.replicate (width - digits.length) '0' ++ digits

/-- A year: four digits, or a sign and at least four digits outside of these. -/
def yearChars (year : Int) : List Char :=
  if 0 ≤ year ∧ year ≤ 9999 then padded 4 year.toNat
  else (if year < 0 then '-' else '+') :: padded 4 year.natAbs

/-- The fraction of a second, with the fewest groups of three digits. -/
def fractionChars (nano : Nat) : List Char :=
  if nano = 0 then []
  else if nano % 1000000 = 0 then '.' :: padded 3 (nano / 1000000)
  else if nano % 1000 = 0 then '.' :: padded 6 (nano / 1000)
  else '.' :: padded 9 nano

/-- The RFC 3339 text of a timestamp. A leap second is second sixty. -/
def text (t : Timestamp) : String :=
  let leap := t.nano / nanosPerSecond
  String.ofList <|
    yearChars t.year ++ '-' :: padded 2 t.month ++ '-' :: padded 2 t.day ++
      'T' :: padded 2 t.hour ++ ':' :: padded 2 t.minute ++ ':' :: padded 2 (t.second + leap) ++
      fractionChars (t.nano % nanosPerSecond) ++ ['Z']

/-! ## Reading -/

/-- A number of at least one and at most `width` digits, and what follows it. -/
def takeNumber? (width : Nat) (cs : List Char) : Option (Nat × List Char) :=
  let digits := (cs.take width).takeWhile Char.isDigit
  if digits = [] then none else some (Nat.ofDigitChars 10 digits 0, cs.drop digits.length)

/-- A part of a date or time, which blanks may precede. -/
def takePart? (width : Nat) (cs : List Char) : Option (Nat × List Char) :=
  takeNumber? width (Text.trimStart cs)

/-- A year, of at most four digits unless it has a sign. -/
def takeYear? (cs : List Char) : Option (Int × List Char) :=
  match Text.trimStart cs with
  | '-' :: rest => (takeNumber? rest.length rest).map fun (n, rest) => (-n, rest)
  | '+' :: rest => (takeNumber? rest.length rest).map fun (n, rest) => (n, rest)
  | rest => (takeNumber? 4 rest).map fun (n, rest) => (n, rest)

/-- What follows a separator, which blanks may precede. -/
def afterSeparator? (separator : Char) (cs : List Char) : Option (List Char) :=
  match Text.trimStart cs with
  | [] => none
  | c :: rest => if c = separator then some rest else none

/-- The nanoseconds of an optional fraction, and what follows it. Digits beyond
    the ninth do not count. -/
def takeFraction? (cs : List Char) : Option (Nat × List Char) :=
  match cs with
  | '.' :: rest =>
    let digits := rest.takeWhile Char.isDigit
    if digits = [] then none
    else
      let nanos := (digits ++ List.replicate 9 '0').take 9
      some (Nat.ofDigitChars 10 nanos 0, rest.drop digits.length)
  | rest => some (0, rest)

/-- The minutes of an offset from UTC: `Z`, `UTC`, or a sign, two digits of hours
    and two of minutes, with blanks and colons between them. Nothing may follow. -/
def readOffset? (cs : List Char) : Option Int :=
  let atEnd (rest : List Char) (minutes : Int) : Option Int :=
    if Text.trimStart rest = [] then some minutes else none
  match cs with
  | [] => none
  | c :: rest =>
    if (cs.take 3).map Char.toUpper = ['U', 'T', 'C'] then atEnd (cs.drop 3) 0
    else if c = 'Z' ∨ c = 'z' then atEnd rest 0
    else if c = '+' ∨ c = '-' ∨ c = '\u2212' then
      match rest with
      | h₁ :: h₂ :: rest =>
        -- The minutes have to be given.
        match rest.dropWhile fun c => c == ':' || Text.isBlank c with
        | m₁ :: m₂ :: rest =>
          if [h₁, h₂, m₁, m₂].all Char.isDigit ∧ m₁ < '6' then
            let hours := Nat.ofDigitChars 10 [h₁, h₂] 0
            let minutes : Int := hours * 60 + Nat.ofDigitChars 10 [m₁, m₂] 0
            if hours < 24 then atEnd rest (if c = '+' then minutes else -minutes) else none
          else none
        | _ => none
      | _ => none
    else none

/-- The timestamp of a local date and time with an offset in minutes, which is less
    than a day. -/
def ofLocal? (year : Int) (month day hour minute second nano : Nat) (offset : Int) :
    Option Timestamp :=
  if IsSound year month day hour minute second nano then
    -- The minute of the day in UTC; it may lie in the day before or after.
    let minutes : Int := hour * 60 + minute - offset
    let (year, month, day) :=
      if minutes < 0 then dayBefore year month day
      else if 1440 ≤ minutes then dayAfter year month day
      else (year, month, day)
    let minutes := (minutes % 1440).toNat
    ofParts? year month day (minutes / 60) (minutes % 60) second nano
  else none

/-- Reads the characters of an RFC 3339 text. -/
def readChars? (cs : List Char) : Option Timestamp := do
  let (year, rest) ← takeYear? cs
  let rest ← afterSeparator? '-' rest
  let (month, rest) ← takePart? 2 rest
  let rest ← afterSeparator? '-' rest
  let (day, rest) ← takePart? 2 rest
  let rest ← match rest with
    | 'T' :: rest | 't' :: rest | ' ' :: rest => some rest
    | _ => none
  let (hour, rest) ← takePart? 2 rest
  let rest ← afterSeparator? ':' rest
  let (minute, rest) ← takePart? 2 rest
  let rest ← afterSeparator? ':' rest
  let (second, rest) ← takePart? 2 rest
  let (nano, rest) ← takeFraction? rest
  let offset ← readOffset? (Text.trimStart rest)
  -- Second sixty is a leap second, held as the second before it.
  let leap := second / 60
  if second ≤ 60 then
    ofLocal? year month day hour minute (second - leap) (nano + leap * nanosPerSecond) offset
  else none

/-- Reads an RFC 3339 text. -/
def read? (s : String) : Option Timestamp := readChars? s.toList

end Timestamp

end Criteria
