import MapScript.Numeral

/-! Days, and times of a day, as a settings file writes them. -/

namespace MapScript.Settings

structure Clock where
  hour : Nat
  minute : Nat
  second : Nat
  micros : Nat
  zone : Option Int
deriving DecidableEq, Repr

structure Moment where
  year : Nat
  month : Nat
  day : Nat
  clock : Option Clock
deriving DecidableEq, Repr

namespace Moment

def number? (least most : Nat) (t : Text) : Option (Nat × Text) :=
  let digits := (t.take most).takeWhile Numeral.isDigit
  if digits.length < least then none
  else some (digits.foldl (fun n g => 10 * n + Numeral.digitValue g) 0, t.drop digits.length)

def skip? (g : Glyph) : Text → Option Text
  | [] => none
  | h :: rest => if h = g then some rest else none

def micros : Text → Nat × Text
  | .char '.' :: rest =>
    let digits := rest.takeWhile Numeral.isDigit
    let kept := digits.take 6 ++ Text.ofChars (6 - digits.length) '0'
    (kept.foldl (fun n g => 10 * n + Numeral.digitValue g) 0, rest.drop digits.length)
  | t => (0, t)

def zone? (t : Text) : Option (Option Int) :=
  let ahead (negative : Bool) (t : Text) : Option (Option Int) := do
    let (hours, t) ← number? 1 2 t
    let (minutes, t) ← if t.isEmpty then some (0, t) else do number? 2 2 (← skip? (.char ':') t)
    if t.isEmpty then
      let size : Int := 60 * hours + minutes
      return some (if negative then -size else size)
    else none
  match t.dropWhile (· == .char ' ') with
  | [] => if t.isEmpty then some none else none
  | [.char 'Z'] => some (some 0)
  | .char '-' :: rest => ahead true rest
  | .char '+' :: rest => ahead false rest
  | _ => none

def gap? : Text → Option Text
  | .char 'T' :: rest => some rest
  | .char 't' :: rest => some rest
  | .char ' ' :: rest => some (rest.dropWhile (· == .char ' '))
  | _ => none

def clock? (t : Text) : Option Clock := do
  let (hour, t) ← number? 1 2 (← gap? t)
  let (minute, t) ← number? 2 2 (← skip? (.char ':') t)
  let (second, t) ← number? 2 2 (← skip? (.char ':') t)
  let (micros, t) := micros t
  return ⟨hour, minute, second, micros, ← zone? t⟩

/-- A day by itself has two digits for its month and for the day; with a time after it one is enough. -/
def ofText? (t : Text) : Option Moment := do
  let (year, rest) ← number? 4 4 t
  let (month, rest) ← number? 1 2 (← skip? (.char '-') rest)
  let (day, rest) ← number? 1 2 (← skip? (.char '-') rest)
  if rest.isEmpty then
    if t.length = 10 then return ⟨year, month, day, none⟩ else none
  else return ⟨year, month, day, some (← clock? rest)⟩

inductive Fault where
  | yearZero
  | month
  | day
  | hour
  | minute
  | second
  | zone (minutes : Int)
deriving DecidableEq, Repr

def monthLength (year month : Nat) : Nat :=
  if month = 2 then
    if year % 4 = 0 && (year % 100 ≠ 0 || year % 400 = 0) then 29 else 28
  else if month = 4 || month = 6 || month = 9 || month = 11 then 30
  else 31

def spanText (minutes : Int) : Text :=
  let days := Int.fdiv minutes 1440
  let seconds := 60 * (minutes - 1440 * days)
  let parts : List Text :=
    (if days = 0 then [] else ["days=" ++ Text.ofInt days])
      ++ (if seconds = 0 then [] else ["seconds=" ++ Text.ofInt seconds])
  "datetime.timedelta(" ++ Text.join ", " parts ++ ")"

def Fault.message : Fault → Text
  | .yearZero => "year 0 is out of range"
  | .month => "month must be in 1..12"
  | .day => "day is out of range for month"
  | .hour => "hour must be in 0..23"
  | .minute => "minute must be in 0..59"
  | .second => "second must be in 0..59"
  | .zone minutes =>
    "offset must be a timedelta strictly between -timedelta(hours=24) and timedelta(hours=24), not "
      ++ spanText minutes ++ "."

def clockFault? (c : Clock) : Option Fault :=
  if 23 < c.hour then some .hour
  else if 59 < c.minute then some .minute
  else if 59 < c.second then some .second
  else none

def dayFault? (m : Moment) : Option Fault :=
  if m.year = 0 then some .yearZero
  else if m.month = 0 || 12 < m.month then some .month
  else if m.day = 0 || monthLength m.year m.month < m.day then some .day
  else none

def zoneFault? (zone : Option Int) : Option Fault :=
  match zone with
  | some minutes => if 1440 ≤ minutes.natAbs then some (.zone minutes) else none
  | none => none

/-- The zone is looked at first, and then the day and the time. -/
def fault? (m : Moment) : Option Fault :=
  match m.clock with
  | some clock => ((zoneFault? clock.zone).or m.dayFault?).or (clockFault? clock)
  | none => m.dayFault?

def padded (width n : Nat) : Text :=
  let digits := Text.ofNat n
  Text.ofChars (width - digits.length) '0' ++ digits

def zoneText (minutes : Int) : Text :=
  (if minutes < 0 then "-" else "+") ++ padded 2 (minutes.natAbs / 60) ++ ":"
    ++ padded 2 (minutes.natAbs % 60)

def clockText (c : Clock) : Text :=
  padded 2 c.hour ++ ":" ++ padded 2 c.minute ++ ":" ++ padded 2 c.second
    ++ (if c.micros = 0 then [] else .char '.' :: padded 6 c.micros)
    ++ (c.zone.map zoneText).getD []

def text (m : Moment) : Text :=
  let day := padded 4 m.year ++ "-" ++ padded 2 m.month ++ "-" ++ padded 2 m.day
  match m.clock with
  | some clock => day ++ " " ++ clockText clock
  | none => day

/-- Seconds and their parts are left out when there are none. -/
def clockParts (c : Clock) : List Nat :=
  [c.hour, c.minute]
    ++ if c.micros ≠ 0 then [c.second, c.micros] else if c.second ≠ 0 then [c.second] else []

def zoneQuoted (minutes : Int) : Text :=
  "tzinfo=" ++ if minutes = 0 then Text.ofString "datetime.timezone.utc"
    else "datetime.timezone(" ++ spanText minutes ++ ")"

def quoted (m : Moment) : Text :=
  let day := [m.year, m.month, m.day]
  match m.clock with
  | some clock =>
    "datetime.datetime("
      ++ Text.join ", " ((day ++ clockParts clock).map Text.ofNat ++ (clock.zone.map zoneQuoted).toList) ++ ")"
  | none => "datetime.date(" ++ Text.join ", " (day.map Text.ofNat) ++ ")"

end Moment

end MapScript.Settings
