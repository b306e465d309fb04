import HyperQuery.Toml.Basic
import HyperQuery.Json.Number
import HyperQuery.Json.Parser

/-!
# Scalars in TOML

Readers for numbers, dates and times, and strings. Each takes a list of characters and returns what it read with the
characters after it.
-/

namespace HyperQuery.Toml

def apostrophe : Char := '\x27'

def isBlank (c : Char) : Bool := c == ' ' || c == '\t'

def skipBlanks (cs : List Char) : List Char := cs.dropWhile isBlank

/-- A line break. -/
def readNewline : List Char → Option (List Char)
  | '\n' :: cs => some cs
  | '\r' :: '\n' :: cs => some cs
  | _ => none

/-- Whether a character may stand in a comment or a string. -/
def isPlain (c : Char) : Bool := c == '\t' || (decide (0x20 ≤ c.toNat) && c != '\x7f')

/-! ### Numbers -/

def isHexDigit (c : Char) : Bool := (Json.hexValue? c).isSome
def isOctalDigit (c : Char) : Bool := decide ('0' ≤ c ∧ c ≤ '7')
def isBinaryDigit (c : Char) : Bool := c == '0' || c == '1'

/-- Reads digits, with single underscores between them. -/
def readDigits (isDigit : Char → Bool) : List Char → Option (List Char × List Char)
  | [] => none
  | [c] => if isDigit c then some ([c], []) else none
  | c :: d :: rest =>
    if isDigit c then
      if d = '_' then (readDigits isDigit rest).map fun (digits, rest) => (c :: digits, rest)
      else
        match readDigits isDigit (d :: rest) with
        | some (digits, rest) => some (c :: digits, rest)
        | none => if isDigit d then none else some ([c], d :: rest)
    else none

/-- The number that digits stand for in a base. -/
def digitsValue (base : Nat) (digits : List Char) : Nat :=
  digits.foldl (fun n c => base * n + (Json.hexValue? c).getD 0) 0

/-- An integer of 64 bits. -/
def integer? (n : Int) : Option Item :=
  if Int64.minValue.toInt ≤ n ∧ n ≤ Int64.maxValue.toInt then some (.integer n) else none

/-- Reads the digits of a whole number: no leading zero unless it is the only digit. -/
def readWhole (cs : List Char) : Option (List Char × List Char) :=
  match readDigits Char.isDigit cs with
  | some ('0' :: _ :: _, _) => none
  | other => other

/-- Reads the digits after a point, if there is one. -/
def readFraction : List Char → Option (List Char × List Char)
  | '.' :: cs => readDigits Char.isDigit cs
  | cs => some ([], cs)

/-- Reads an exponent, if there is one. -/
def readExponent : List Char → Option (Option (Bool × List Char) × List Char)
  | [] => some (none, [])
  | c :: cs =>
    if c = 'e' ∨ c = 'E' then
      let (negative, cs) := match cs with
        | '+' :: rest => (false, rest)
        | '-' :: rest => (true, rest)
        | rest => (false, rest)
      (readDigits Char.isDigit cs).map fun (digits, rest) => (some (negative, digits), rest)
    else some (none, c :: cs)

/-- The number that the digits of an exponent stand for; once it has reached `0x10000`, further digits do not count. -/
def exponentDigitsValue (digits : List Char) : Nat :=
  digits.foldl (fun n c => if n < 0x10000 then 10 * n + (Json.hexValue? c).getD 0 else n) 0

/-- The number that a written exponent stands for. -/
def exponentValue : Option (Bool × List Char) → Int
  | none => 0
  | some (negative, digits) =>
    let n : Int := exponentDigitsValue digits
    if negative then -n else n

/-- Whether a decimal is too large for a double. With `size` digits before the point the value is at least
`10^(size - 1)` and less than `10^size`, so that it is computed only near the largest double. -/
def overflows (whole fraction : List Char) (exponent : Option (Bool × List Char)) : Bool :=
  let digits := (whole ++ fraction).dropWhile (· == '0')
  let scale := exponentValue exponent - fraction.length
  let size := scale + digits.length
  !digits.isEmpty && (decide (400 < size) ||
    (decide (300 < size) && (Double.ofDecimal false ⟨digitsValue 10 digits, scale⟩).isInfinite))

/-- Reads a decimal number after its sign. -/
def readDecimal (negative : Bool) (cs : List Char) : Option (Item × List Char) := do
  let (whole, cs) ← readWhole cs
  let (fraction, cs) ← readFraction cs
  let (exponent, cs) ← readExponent cs
  if fraction.isEmpty && exponent.isNone then
    let n : Int := digitsValue 10 whole
    return (← integer? (if negative then -n else n), cs)
  else if !negative && overflows whole fraction exponent then none
  else return (.float, cs)

/-- Reads a number in a base other than ten. -/
def readBased (base : Nat) (isDigit : Char → Bool) (cs : List Char) : Option (Item × List Char) := do
  let (digits, cs) ← readDigits isDigit cs
  return (← integer? (digitsValue base digits), cs)

/-- Reads the words for infinity and not-a-number. -/
def readSpecialFloat (cs : List Char) : Option (Item × List Char) :=
  match Json.readWord ['i', 'n', 'f'] cs with
  | some rest => some (.float, rest)
  | none => (Json.readWord ['n', 'a', 'n'] cs).map fun rest => (.float, rest)

def readNumber : List Char → Option (Item × List Char)
  | '0' :: 'x' :: cs => readBased 16 isHexDigit cs
  | '0' :: 'o' :: cs => readBased 8 isOctalDigit cs
  | '0' :: 'b' :: cs => readBased 2 isBinaryDigit cs
  | '+' :: cs => (readDecimal false cs).orElse fun _ => readSpecialFloat cs
  | '-' :: cs => (readDecimal true cs).orElse fun _ => readSpecialFloat cs
  | cs => (readDecimal false cs).orElse fun _ => readSpecialFloat cs

/-! ### Dates and times -/

/-- Reads exactly so many digits as a number between bounds. -/
def readField (count low high : Nat) (cs : List Char) : Option (Nat × List Char) :=
  let digits := cs.take count
  let n := digitsValue 10 digits
  if digits.length = count ∧ digits.all Char.isDigit ∧ low ≤ n ∧ n ≤ high then some (n, cs.drop count) else none

def daysIn (year month : Nat) : Nat :=
  if month = 2 then (if year % 4 = 0 ∧ (year % 100 ≠ 0 ∨ year % 400 = 0) then 29 else 28)
  else if month = 4 ∨ month = 6 ∨ month = 9 ∨ month = 11 then 30
  else 31

def readDate (cs : List Char) : Option (List Char) := do
  let (year, cs) ← readField 4 0 9999 cs
  let cs ← Json.readWord ['-'] cs
  let (month, cs) ← readField 2 1 12 cs
  let cs ← Json.readWord ['-'] cs
  let (_, cs) ← readField 2 1 (daysIn year month) cs
  return cs

/-- Reads hours, minutes, seconds, and a fraction of a second if there is one. -/
def readTime (cs : List Char) : Option (List Char) := do
  let (_, cs) ← readField 2 0 23 cs
  let cs ← Json.readWord [':'] cs
  let (_, cs) ← readField 2 0 59 cs
  let cs ← Json.readWord [':'] cs
  let (_, cs) ← readField 2 0 60 cs
  match cs with
  | '.' :: rest =>
    let (digits, rest) := Json.spanDigits rest
    if digits.isEmpty then none else some rest
  | cs => some cs

/-- Reads an offset from universal time, if there is one. -/
def readOffset : List Char → Option (List Char)
  | [] => some []
  | c :: cs =>
    if c = 'Z' ∨ c = 'z' then some cs
    else if c = '+' ∨ c = '-' then do
      let (_, cs) ← readField 2 0 23 cs
      let cs ← Json.readWord [':'] cs
      let (_, cs) ← readField 2 0 59 cs
      return cs
    else some (c :: cs)

/-- Reads the time after a date, if there is one. A blank is part of it only before digits. -/
def readTimeAfterDate : List Char → Option (List Char)
  | [] => some []
  | c :: cs =>
    if c = 'T' ∨ c = 't' then do readOffset (← readTime cs)
    else if c = ' ' ∧ (cs.head?.any Char.isDigit) then do readOffset (← readTime cs)
    else some (c :: cs)

/-- Whether the text goes on with a date or a time: digits followed by the separator. -/
def startsDate (cs : List Char) : Bool :=
  ((cs.take 4).all Char.isDigit && (cs.drop 4).head? == some '-') ||
  ((cs.take 2).all Char.isDigit && (cs.drop 2).head? == some ':')

def readDateTime (cs : List Char) : Option (Item × List Char) :=
  if (cs.drop 2).head? = some ':' then (readTime cs).map fun rest => (.dateTime, rest)
  else (readDate cs).bind fun rest => (readTimeAfterDate rest).map fun rest => (.dateTime, rest)

/-! ### Strings -/

/-- The character that so many hexadecimal digits name. -/
def readUnicode (count : Nat) (cs : List Char) : Option (Char × List Char) :=
  let digits := cs.take count
  let n := digitsValue 16 digits
  if digits.length = count ∧ digits.all isHexDigit ∧ (n < 0xD800 ∨ 0xDFFF < n) ∧ n ≤ 0x10FFFF then
    some (Char.ofNat n, cs.drop count)
  else none

/-- Reads what follows a backslash. -/
def readEscape : List Char → Option (Char × List Char)
  | 'b' :: cs => some ('\x08', cs)
  | 't' :: cs => some ('\t', cs)
  | 'n' :: cs => some ('\n', cs)
  | 'f' :: cs => some ('\x0c', cs)
  | 'r' :: cs => some ('\r', cs)
  | '\x22' :: cs => some ('\x22', cs)
  | '\\' :: cs => some ('\\', cs)
  | 'u' :: cs => readUnicode 4 cs
  | 'U' :: cs => readUnicode 8 cs
  | _ => none

/-- Reads the inside of a string on one line and the quote after it. -/
def readBasic : Nat → List Char → Option (List Char × List Char)
  | 0, _ => none
  | _ + 1, [] => none
  | fuel + 1, c :: cs =>
    if c = '\x22' then some ([], cs)
    else if c = '\\' then do
      let (e, cs) ← readEscape cs
      let (text, cs) ← readBasic fuel cs
      return (e :: text, cs)
    else if isPlain c then (readBasic fuel cs).map fun (text, rest) => (c :: text, rest)
    else none

/-- Reads the inside of a literal string on one line and the apostrophe after it. -/
def readLiteral : List Char → Option (List Char × List Char)
  | [] => none
  | c :: cs =>
    if c = apostrophe then some ([], cs)
    else if isPlain c then (readLiteral cs).map fun (text, rest) => (c :: text, rest)
    else none

/-- Skips blanks and line breaks. -/
def skipBlankLines : Nat → List Char → List Char
  | 0, cs => cs
  | fuel + 1, cs =>
    match readNewline (skipBlanks cs) with
    | some rest => skipBlankLines fuel rest
    | none => skipBlanks cs

/-- A run of quotes at the end of a string on several lines: three of them close it, and up to two before those belong
to the string. -/
def closeQuotes (quote : Char) (cs : List Char) : Option (List Char × List Char) :=
  let run := cs.takeWhile fun c => c == quote
  let extra := min (run.length - 3) 2
  if 3 ≤ run.length then some (List.replicate extra quote, cs.drop (extra + 3)) else none

/-- Reads the inside of a string on several lines and the quotes after it. -/
def readMultiline (literal : Bool) (quote : Char) : Nat → List Char → Option (List Char × List Char)
  | 0, _ => none
  | _ + 1, [] => none
  | fuel + 1, c :: cs =>
    if c = quote then
      match closeQuotes quote (c :: cs) with
      | some closed => some closed
      | none => (readMultiline literal quote fuel cs).map fun (text, rest) => (c :: text, rest)
    else if c = '\\' ∧ !literal then
      match readNewline (skipBlanks cs) with
      | some rest => readMultiline literal quote fuel (skipBlankLines (rest.length + 1) rest)
      | none => do
        let (e, cs) ← readEscape cs
        let (text, cs) ← readMultiline literal quote fuel cs
        return (e :: text, cs)
    else
      match readNewline (c :: cs) with
      | some rest => (readMultiline literal quote fuel rest).map fun (text, rest) => ('\n' :: text, rest)
      | none =>
        if isPlain c then (readMultiline literal quote fuel cs).map fun (text, rest) => (c :: text, rest)
        else none

/-- Reads a string on several lines; a line break right after the quotes is not part of it. -/
def readMultilineBody (literal : Bool) (quote : Char) (cs : List Char) : Option (List Char × List Char) :=
  let cs := (readNewline cs).getD cs
  readMultiline literal quote (cs.length + 1) cs

/-- Reads a string on one line. -/
def readLineString : List Char → Option (List Char × List Char)
  | '\x22' :: cs => readBasic (cs.length + 1) cs
  | c :: cs => if c = apostrophe then readLiteral cs else none
  | [] => none

/-- Reads a string of any form. -/
def readString (cs : List Char) : Option (Item × List Char) :=
  let body :=
    match cs with
    | '\x22' :: '\x22' :: '\x22' :: rest => readMultilineBody false '\x22' rest
    | cs =>
      match Json.readWord [apostrophe, apostrophe, apostrophe] cs with
      | some rest => readMultilineBody true apostrophe rest
      | none => readLineString cs
  body.map fun (text, rest) => (.string (String.ofList text), rest)

end HyperQuery.Toml
