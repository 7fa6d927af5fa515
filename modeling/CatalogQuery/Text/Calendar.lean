import CatalogQuery.Text.Blank

/-!
# Written dates

Which texts are dates, and which are moments: a moment is a timestamp with an offset or a date and
a time of day, and it is also accepted where a date is asked for.
-/

namespace CatalogQuery.Text.Calendar

def isLeap (year : Int) : Bool := year % 4 == 0 && (year % 100 != 0 || year % 400 == 0)

def daysIn (year : Int) (month : Nat) : Nat :=
  if month = 2 then (if isLeap year then 29 else 28)
  else if month = 4 || month = 6 || month = 9 || month = 11 then 30
  else 31

/-- The days of the calendar, from the year -262143 to the year 262142. -/
def isDay (year : Int) (month day : Nat) : Bool :=
  -262143 ≤ year && year ≤ 262142 && 1 ≤ month && month ≤ 12 && 1 ≤ day && day ≤ daysIn year month

theorem isDay_bounds {year : Int} {month day : Nat} (h : isDay year month day = true) :
    month ≤ 12 ∧ 1 ≤ day ∧ day ≤ 31 := by
  simp only [isDay, Bool.and_eq_true, decide_eq_true_eq] at h
  obtain ⟨⟨⟨⟨_, hm⟩, _⟩, hd⟩, hl⟩ := h
  refine ⟨by omega, hd, ?_⟩
  have : daysIn year month ≤ 31 := by
    unfold daysIn
    split
    · split <;> omega
    · split <;> omega
  omega

/-- A time of day; the second 60 is a leap second. -/
def isTime (hour minute second : Nat) : Bool := hour ≤ 23 && minute ≤ 59 && second ≤ 60

def valueOf (digits : List Char) : Nat :=
  digits.foldl (fun n c => n * 10 + (c.toNat - '0'.toNat)) 0

/-- A number of at least one and at most `most` digits. -/
def number (most : Nat) (s : List Char) : Option (Nat × List Char) :=
  match (s.take most).takeWhile Char.isDigit with
  | [] => none
  | ds => some (valueOf ds, s.drop ds.length)

/-- A number of exactly `count` digits. -/
def exactly (count : Nat) (s : List Char) : Option (Nat × List Char) :=
  let ds := s.take count
  if ds.length = count && ds.all Char.isDigit then some (valueOf ds, s.drop count) else none

def char (c : Char) : List Char → Option (List Char)
  | d :: rest => if d = c then some rest else none
  | [] => none

/-- A year: up to four digits, or a sign and any number of them. -/
def year (s : List Char) : Option (Int × List Char) :=
  match trimStart s with
  | '-' :: rest => (number rest.length rest).map fun (n, rest) => (-(n : Int), rest)
  | '+' :: rest => (number rest.length rest).map fun (n, rest) => ((n : Int), rest)
  | s => (number 4 s).map fun (n, rest) => ((n : Int), rest)

/-- A number of one or two digits after any blanks. -/
def short (s : List Char) : Option (Nat × List Char) := number 2 (trimStart s)

/-- A date as year, month and day with hyphens between them. -/
def dashed (s : List Char) : Option (List Char) := do
  let (y, s) ← year s
  let s ← char '-' s
  let (m, s) ← short s
  let s ← char '-' s
  let (d, s) ← short s
  if isDay y m d then some s else none

/-- A time as hour, minute and second with colons between them. -/
def clock (s : List Char) : Option (List Char) := do
  let (h, s) ← short s
  let s ← char ':' s
  let (m, s) ← short s
  let s ← char ':' s
  let (sec, s) ← short s
  if isTime h m sec then some s else none

/-- The fraction of a second, if any. -/
def fraction : List Char → Option (List Char)
  | '.' :: rest =>
    match rest with
    | c :: _ => if c.isDigit then some (rest.dropWhile Char.isDigit) else none
    | [] => none
  | s => some s

/-- The offset from universal time: the letter Z, or hours and minutes after a sign. -/
def offset : List Char → Option (List Char)
  | c :: rest =>
    if c = 'Z' || c = 'z' then some rest
    else if c = '+' || c = '-' || c = '\u2212' then do
      let (h, s) ← exactly 2 rest
      let s ← char ':' s
      let (m, s) ← exactly 2 s
      if h ≤ 23 && m ≤ 59 then some s else none
    else none
  | [] => none

/-- A timestamp with its parts at fixed widths and an offset. -/
def timestamp (s : List Char) : Option (List Char) := do
  let (y, s) ← exactly 4 s
  let s ← char '-' s
  let (mo, s) ← exactly 2 s
  let s ← char '-' s
  let (d, s) ← exactly 2 s
  let s ← match s with
    | c :: rest => if c = 'T' || c = 't' || c = ' ' then some rest else none
    | [] => none
  let (h, s) ← exactly 2 s
  let s ← char ':' s
  let (mi, s) ← exactly 2 s
  let s ← char ':' s
  let (sec, s) ← exactly 2 s
  let s ← fraction s
  let s ← offset s
  -- Every part is read before any is judged.
  if isDay y mo d && isTime h mi sec then some s else none

/-- Whether a reader accepts the whole text. -/
def reads (reader : List Char → Option (List Char)) (s : String) : Bool :=
  reader s.toList == some []

def isMoment (s : String) : Bool :=
  reads timestamp s || reads (fun s => (dashed s).bind fun s => clock (trimStart s)) s

def isDate (s : String) : Bool := reads dashed s || isMoment s

end CatalogQuery.Text.Calendar
