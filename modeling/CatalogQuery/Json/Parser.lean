import CatalogQuery.Json.Basic

/-!
# Reading JSON text

A strict reader: no comments, no trailing commas, no bare control characters. It goes only so deep
into nested arrays and objects as it is told to.
-/

namespace CatalogQuery

/-- How deeply stored text may nest and still be read. -/
def Json.maxDepth : Nat := 127

namespace Json.Parser

def isSpace (c : Char) : Bool := c == ' ' || c == '\n' || c == '\t' || c == '\r'

def skip (s : List Char) : List Char := s.dropWhile isSpace

/-- The value of a decimal digit. -/
def digit? (c : Char) : Option Nat := if c.isDigit then some (c.toNat - '0'.toNat) else none

def hex? (c : Char) : Option Nat :=
  if c.isDigit then some (c.toNat - '0'.toNat)
  else if 'a' ≤ c && c ≤ 'f' then some (c.toNat - 'a'.toNat + 10)
  else if 'A' ≤ c && c ≤ 'F' then some (c.toNat - 'A'.toNat + 10)
  else none

def hex4 : List Char → Option (Nat × List Char)
  | a :: b :: c :: d :: rest => do
    let a ← hex? a
    let b ← hex? b
    let c ← hex? c
    let d ← hex? d
    some (((a * 16 + b) * 16 + c) * 16 + d, rest)
  | _ => none

/-- The character of an escape, after the backslash; two halves of a surrogate pair are one. -/
def escaped : List Char → Option (Char × List Char)
  | '"' :: rest => some ('"', rest)
  | '\\' :: rest => some ('\\', rest)
  | '/' :: rest => some ('/', rest)
  | 'b' :: rest => some (Char.ofNat 8, rest)
  | 'f' :: rest => some (Char.ofNat 12, rest)
  | 'n' :: rest => some ('\n', rest)
  | 'r' :: rest => some ('\r', rest)
  | 't' :: rest => some ('\t', rest)
  | 'u' :: rest => do
    let (high, rest) ← hex4 rest
    -- The first half of a pair has to be followed by the second.
    if 0xD800 ≤ high && high < 0xDC00 then
      match rest with
      | '\\' :: 'u' :: rest =>
        let (low, rest) ← hex4 rest
        if 0xDC00 ≤ low && low < 0xE000 then
          some (Char.ofNat (0x10000 + (high - 0xD800) * 0x400 + (low - 0xDC00)), rest)
        else none
      | _ => none
    else if 0xDC00 ≤ high && high < 0xE000 then none
    else some (Char.ofNat high, rest)
  | _ => none

/-- The rest of a quoted text, after its opening quote. The number is more than its length. -/
def string : Nat → List Char → Option (List Char × List Char)
  | 0, _ => none
  | fuel + 1, s =>
    match s with
    | '"' :: rest => some ([], rest)
    | '\\' :: rest => do
      let (c, rest) ← escaped rest
      let (cs, rest) ← string fuel rest
      some (c :: cs, rest)
    | c :: rest =>
      if c.toNat < 0x20 then none
      else (string fuel rest).map fun (cs, rest) => (c :: cs, rest)
    | [] => none

/-- Digits taken up into a significand below 2 ^ 64, and how many more were left out of it. -/
def significand : Nat → List Char → Nat × Nat × List Char
  | m, [] => (m, 0, [])
  | m, c :: rest =>
    match digit? c with
    | none => (m, 0, c :: rest)
    | some d =>
      if m * 10 + d < Nat.pow 2 64 then significand (m * 10 + d) rest
      else (m, 1 + (rest.takeWhile Char.isDigit).length, rest.dropWhile Char.isDigit)

/-- The exponent after its letter. -/
def exponent (s : List Char) : Option (Int × List Char) :=
  let (negative, s) := match s with
    | '-' :: rest => (true, rest)
    | '+' :: rest => (false, rest)
    | _ => (false, s)
  match s.takeWhile Char.isDigit with
  | [] => none
  | ds =>
    let n := ds.foldl (fun n c => n * 10 + (c.toNat - '0'.toNat)) 0
    some (if negative then -(n : Int) else n, s.dropWhile Char.isDigit)

/-- The exponent part, if any, and with it the number. -/
def finish (negative : Bool) (m : Nat) (e : Int) (s : List Char) : Option (Number × List Char) :=
  match s with
  | c :: rest =>
    if c = 'e' || c = 'E' then do
      let (more, rest) ← exponent rest
      (Binary64.ofDecimal negative m (e + more)).map fun x => (.float x, rest)
    else (Binary64.ofDecimal negative m e).map fun x => (.float x, s)
  | [] => (Binary64.ofDecimal negative m e).map fun x => (.float x, s)

/-- The digits after the point of a number whose `dropped` digits before it were left out. -/
def fraction (negative : Bool) (m dropped : Nat) (s : List Char) : Option (Number × List Char) :=
  match s.takeWhile Char.isDigit with
  | [] => none
  | ds =>
    -- Digits that were left out before the point still move it.
    let (m', left, rest) := significand m s
    finish negative m' ((dropped : Int) - ((ds.length - left : Nat) : Int)) rest

/-- A number after its sign. A whole number that fits is whole, every other is floating; negative
zero is floating too. -/
def number (negative : Bool) (s : List Char) : Option (Number × List Char) :=
  match s with
  | '0' :: d :: rest =>
    -- No digit follows a zero that leads.
    if d.isDigit then none else body 0 0 (d :: rest)
  | c :: _ =>
    if c.isDigit then
      let (m, dropped, rest) := significand 0 s
      body m dropped rest
    else none
  | [] => none
where
  body (m dropped : Nat) (rest : List Char) : Option (Number × List Char) :=
    match rest with
    | '.' :: after => fraction negative m dropped after
    | _ =>
      -- Whole are the numbers that fit in 64 bits, with a sign if they are negative.
      if dropped = 0 && !(rest.head? == some 'e' || rest.head? == some 'E') &&
          (!negative || (0 < m && m ≤ Nat.pow 2 63)) then
        some (.int (if negative then -(m : Int) else m), rest)
      else finish negative m dropped rest

/-- Items up to the closing bracket; `item` reads one. The number is more than there are items. -/
def items (item : List Char → Option (Json × List Char)) :
    Nat → List Char → Option (List Json × List Char)
  | 0, _ => none
  | fuel + 1, s => do
    let (v, rest) ← item s
    match skip rest with
    | ',' :: rest =>
      let (vs, rest) ← items item fuel rest
      some (v :: vs, rest)
    | ']' :: rest => some ([v], rest)
    | _ => none

/-- Members up to the closing brace of an object in a text shorter than `size`. -/
def members (size : Nat) (item : List Char → Option (Json × List Char)) :
    Nat → List Char → Option (Json.Members × List Char)
  | 0, _ => none
  | fuel + 1, s =>
    match skip s with
    | '"' :: rest => do
      let (k, rest) ← string size rest
      match skip rest with
      | ':' :: rest =>
        let (v, rest) ← item rest
        match skip rest with
        | ',' :: rest =>
          let (ms, rest) ← members size item fuel rest
          some ((String.ofList k, v) :: ms, rest)
        | '}' :: rest => some ([(String.ofList k, v)], rest)
        | _ => none
      | _ => none
    | _ => none

/-- A value nested at most `depth` deep in a text shorter than `size`, and what follows it. -/
def value (size : Nat) : Nat → List Char → Option (Json × List Char)
  | depth, s =>
    match skip s with
    | 'n' :: 'u' :: 'l' :: 'l' :: rest => some (.null, rest)
    | 't' :: 'r' :: 'u' :: 'e' :: rest => some (.bool true, rest)
    | 'f' :: 'a' :: 'l' :: 's' :: 'e' :: rest => some (.bool false, rest)
    | '"' :: rest => (string size rest).map fun (cs, rest) => (.str (String.ofList cs), rest)
    | '-' :: rest => (number true rest).map fun (n, rest) => (.num n, rest)
    | '[' :: rest =>
      match depth with
      | 0 => none
      | depth + 1 =>
        match skip rest with
        | ']' :: rest => some (.arr [], rest)
        | rest => (items (value size depth) size rest).map fun (vs, rest) => (.arr vs, rest)
    | '{' :: rest =>
      match depth with
      | 0 => none
      | depth + 1 =>
        match skip rest with
        | '}' :: rest => some (.obj [], rest)
        | rest =>
          (members size (value size depth) size rest).map fun (ms, rest) => (Json.object ms, rest)
    | rest => (number false rest).map fun (n, rest) => (.num n, rest)

end Json.Parser

/-- The value that a whole text holds, nested at most `depth` deep. -/
def Json.parseWithin (depth : Nat) (s : String) : Option Json :=
  let cs := s.toList
  match Json.Parser.value (cs.length + 1) depth cs with
  | some (v, rest) => if (Json.Parser.skip rest).isEmpty then some v else none
  | none => none

/-- The value that a stored text holds. -/
def Json.parse (s : String) : Option Json := Json.parseWithin Json.maxDepth s

end CatalogQuery
