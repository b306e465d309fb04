import HyperQuery.Json.Basic

/-!
# Reading JSON

`Json.parse?` reads a whole text. Each reader takes a list of characters and returns what it read with the characters
after it; `fuel` bounds the number of nested or successive values and is taken from the length of the text.
-/

namespace HyperQuery.Json

def isBlank (c : Char) : Bool := c == ' ' || c == '\n' || c == '\t' || c == '\r'

def skipBlanks (cs : List Char) : List Char := cs.dropWhile isBlank

/-- Reads the given characters. -/
def readWord : List Char → List Char → Option (List Char)
  | [], cs => some cs
  | w :: ws, c :: cs => if w = c then readWord ws cs else none
  | _ :: _, [] => none

/-! ### Numbers -/

def spanDigits (cs : List Char) : List Char × List Char := cs.span Char.isDigit

/-- Reads the digits before the point: a zero, or digits that do not start with one. -/
def readWhole (cs : List Char) : Option (List Char × List Char) :=
  match spanDigits cs with
  | ([], _) => none
  | ('0' :: _ :: _, _) => none
  | (digits, rest) => some (digits, rest)

/-- Reads the point and the digits after it, if there is one. -/
def readFraction : List Char → Option (List Char × List Char)
  | '.' :: cs =>
    match spanDigits cs with
    | ([], _) => none
    | (digits, rest) => some (digits, rest)
  | cs => some ([], cs)

/-- Reads the sign and the digits of an exponent. -/
def readExponentDigits (negative : Bool) (cs : List Char) : Option (Option (Bool × List Char) × List Char) :=
  match spanDigits cs with
  | ([], _) => none
  | (digits, rest) => some (some (negative, digits), rest)

/-- Reads an exponent, if there is one. -/
def readExponent : List Char → Option (Option (Bool × List Char) × List Char)
  | [] => some (none, [])
  | c :: cs =>
    if c = 'e' ∨ c = 'E' then
      match cs with
      | '+' :: rest => readExponentDigits false rest
      | '-' :: rest => readExponentDigits true rest
      | rest => readExponentDigits false rest
    else some (none, c :: cs)

def readNumber (cs : List Char) : Option (JsonNumber × List Char) := do
  let (negative, cs) := match cs with
    | '-' :: rest => (true, rest)
    | rest => (false, rest)
  let (whole, cs) ← readWhole cs
  let (fraction, cs) ← readFraction cs
  let (exponent, cs) ← readExponent cs
  return (⟨negative, whole, fraction, exponent⟩, cs)

/-! ### Strings -/

def hexValue? (c : Char) : Option Nat :=
  if c.isDigit then some (c.toNat - '0'.toNat)
  else if 'a' ≤ c ∧ c ≤ 'f' then some (c.toNat - 'a'.toNat + 10)
  else if 'A' ≤ c ∧ c ≤ 'F' then some (c.toNat - 'A'.toNat + 10)
  else none

/-- Reads four hexadecimal digits. -/
def readHex : List Char → Option (Nat × List Char)
  | a :: b :: c :: d :: rest => do
    let a ← hexValue? a
    let b ← hexValue? b
    let c ← hexValue? c
    let d ← hexValue? d
    return (((a * 16 + b) * 16 + c) * 16 + d, rest)
  | _ => none

/-- One unit of a string. -/
inductive Piece
  /-- A character written as itself or by a short escape. -/
  | char (c : Char)
  /-- A 16-bit unit written by its number. -/
  | unit (n : Nat)

/-- The character of a short escape. -/
def shortEscape? : Char → Option Char
  | '\x22' => some '\x22'
  | '\\' => some '\\'
  | '/' => some '/'
  | 'b' => some '\x08'
  | 'f' => some '\x0c'
  | 'n' => some '\n'
  | 'r' => some '\r'
  | 't' => some '\t'
  | _ => none

/-- Reads what follows a backslash. -/
def readEscape : List Char → Option (Piece × List Char)
  | 'u' :: cs => (readHex cs).map fun (n, rest) => (.unit n, rest)
  | c :: cs => (shortEscape? c).map fun e => (.char e, cs)
  | [] => none

/-- Reads the inside of a string and the quote after it. -/
def readPieces : Nat → List Char → Option (List Piece × List Char)
  | 0, _ => none
  | _ + 1, [] => none
  | fuel + 1, c :: cs =>
    if c = '\x22' then some ([], cs)
    else if c = '\\' then do
      let (piece, cs) ← readEscape cs
      let (pieces, cs) ← readPieces fuel cs
      return (piece :: pieces, cs)
    else if c.toNat < 0x20 then none
    else do
      let (pieces, cs) ← readPieces fuel cs
      return (.char c :: pieces, cs)

/-- The text of a string. A unit of the upper surrogates must be followed by one of the lower ones, and those stand
nowhere else. -/
def joinPieces : List Piece → Option (List Char)
  | [] => some []
  | .char c :: rest => (joinPieces rest).map (c :: ·)
  | .unit hi :: rest =>
    if 0xDC00 ≤ hi ∧ hi ≤ 0xDFFF then none
    else if 0xD800 ≤ hi ∧ hi ≤ 0xDBFF then
      match rest with
      | .unit lo :: rest =>
        if 0xDC00 ≤ lo ∧ lo ≤ 0xDFFF then
          (joinPieces rest).map (Char.ofNat (0x10000 + (hi - 0xD800) * 0x400 + (lo - 0xDC00)) :: ·)
        else none
      | _ => none
    else (joinPieces rest).map (Char.ofNat hi :: ·)

/-- Reads the inside of a string and the quote after it. -/
def readText (cs : List Char) : Option (JsonText × List Char) :=
  (readPieces (cs.length + 1) cs).map fun (pieces, rest) => ((joinPieces pieces).map String.ofList, rest)

/-! ### Values -/

mutual

/-- Reads a value after blanks. -/
def readValue : Nat → List Char → Option (Json × List Char)
  | 0, _ => none
  | fuel + 1, cs =>
    match skipBlanks cs with
    | [] => none
    | 'n' :: rest => (readWord "ull".toList rest).map fun rest => (.null, rest)
    | 't' :: rest => (readWord "rue".toList rest).map fun rest => (.bool true, rest)
    | 'f' :: rest => (readWord "alse".toList rest).map fun rest => (.bool false, rest)
    | '\x22' :: rest => (readText rest).map fun (text, rest) => (.string text, rest)
    | '[' :: rest =>
      match skipBlanks rest with
      | ']' :: rest => some (.array [], rest)
      | rest => (readItems fuel rest).map fun (items, rest) => (.array items, rest)
    | '\x7b' :: rest =>
      match skipBlanks rest with
      | '\x7d' :: rest => some (.object [], rest)
      | rest => (readFields fuel rest).map fun (fields, rest) => (.object fields, rest)
    | rest => (readNumber rest).map fun (n, rest) => (.number n, rest)

/-- Reads items up to the end of an array. -/
def readItems : Nat → List Char → Option (List Json × List Char)
  | 0, _ => none
  | fuel + 1, cs => do
    let (item, cs) ← readValue fuel cs
    match skipBlanks cs with
    | ',' :: cs =>
      let (items, cs) ← readItems fuel cs
      return (item :: items, cs)
    | ']' :: cs => return ([item], cs)
    | _ => none

/-- Reads fields up to the end of an object. -/
def readFields : Nat → List Char → Option (List (JsonText × Json) × List Char)
  | 0, _ => none
  | fuel + 1, cs => do
    match skipBlanks cs with
    | '\x22' :: cs =>
      let (name, cs) ← readText cs
      match skipBlanks cs with
      | ':' :: cs =>
        let (item, cs) ← readValue fuel cs
        match skipBlanks cs with
        | ',' :: cs =>
          let (fields, cs) ← readFields fuel cs
          return ((name, item) :: fields, cs)
        | '\x7d' :: cs => return ([(name, item)], cs)
        | _ => none
      | _ => none
    | _ => none

end

/-- Reads a text that holds one value and blanks. -/
def parse? (text : String) : Option Json := do
  let cs := text.toList
  let (value, rest) ← readValue (2 * cs.length + 2) cs
  if (skipBlanks rest).isEmpty then some value else none

end HyperQuery.Json
