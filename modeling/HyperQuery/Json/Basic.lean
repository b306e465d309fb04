/-!
# JSON

JSON texts as trees. Numbers are kept as written, digit by digit, and the fields of an object are kept in their order
with repeats. A string may be written with escapes that name half of a surrogate pair; such a string has no text.
-/

namespace HyperQuery

/-- A number as written. -/
structure JsonNumber where
  negative : Bool
  /-- The digits before the point; at least one, and no leading zero unless it is the only one. -/
  whole : List Char
  /-- The digits after the point; none if there is no point. -/
  fraction : List Char
  /-- The exponent: whether it is negative, and its digits. -/
  exponent : Option (Bool × List Char)

/-- The text of a string, if its escapes form one. -/
abbrev JsonText := Option String

/-- A JSON value. -/
inductive Json
  | null
  | bool (b : Bool)
  | number (n : JsonNumber)
  | string (text : JsonText)
  | array (items : List Json)
  | object (fields : List (JsonText × Json))
  deriving Inhabited

namespace JsonNumber

/-- The characters of a number; an exponent always has a sign. -/
def chars (n : JsonNumber) : List Char :=
  let sign := if n.negative then ['-'] else []
  let fraction := if n.fraction.isEmpty then [] else '.' :: n.fraction
  let exponent := match n.exponent with
    | none => []
    | some (negative, digits) => 'e' :: (if negative then '-' else '+') :: digits
  sign ++ n.whole ++ fraction ++ exponent

/-- The number of an integer. -/
def ofInt (n : Int) : JsonNumber := ⟨decide (n < 0), Nat.toDigits 10 n.natAbs, [], none⟩

end JsonNumber

namespace Json

/-! ### Writing -/

/-- One character inside a string: short escapes for the quote, the backslash and common controls, four hexadecimal
digits for the other controls. -/
def escapeChar (c : Char) : List Char :=
  match c with
  | '\x22' => ['\\', '\x22']
  | '\\' => ['\\', '\\']
  | '\x08' => ['\\', 'b']
  | '\x0c' => ['\\', 'f']
  | '\n' => ['\\', 'n']
  | '\r' => ['\\', 'r']
  | '\t' => ['\\', 't']
  | c =>
    if c.toNat < 0x20 then
      ['\\', 'u', '0', '0', Nat.digitChar (c.toNat / 16), Nat.digitChar (c.toNat % 16)]
    else [c]

/-- A string in quotes. -/
def quotedChars (text : JsonText) : List Char :=
  '\x22' :: ((text.getD "").toList.flatMap escapeChar ++ ['\x22'])

mutual

/-- The text without any blanks. -/
def compactChars : Json → List Char
  | .null => "null".toList
  | .bool b => if b then "true".toList else "false".toList
  | .number n => n.chars
  | .string text => quotedChars text
  | .array items => '[' :: (compactItems items ++ [']'])
  | .object fields => '\x7b' :: (compactFields fields ++ ['\x7d'])

/-- The items of an array, with commas between them. -/
def compactItems : List Json → List Char
  | [] => []
  | [item] => compactChars item
  | item :: rest => compactChars item ++ ',' :: compactItems rest

/-- The fields of an object, with commas between them. -/
def compactFields : List (JsonText × Json) → List Char
  | [] => []
  | [(name, item)] => quotedChars name ++ ':' :: compactChars item
  | (name, item) :: rest => quotedChars name ++ ':' :: (compactChars item ++ ',' :: compactFields rest)

end

/-- The text without any blanks. -/
def compact (j : Json) : String := String.ofList j.compactChars

/-- A line break and the indentation of the given depth. -/
def newline (depth : Nat) : List Char := '\n' :: List.replicate (2 * depth) ' '

mutual

/-- The text with every item and field on a line of its own, indented by two blanks per level. -/
def prettyChars (depth : Nat) : Json → List Char
  | .array (item :: items) => '[' :: (prettyItems (depth + 1) (item :: items) ++ newline depth ++ [']'])
  | .object (field :: fields) =>
    '\x7b' :: (prettyFields (depth + 1) (field :: fields) ++ newline depth ++ ['\x7d'])
  | .array [] => ['[', ']']
  | .object [] => ['\x7b', '\x7d']
  | .null => "null".toList
  | .bool b => if b then "true".toList else "false".toList
  | .number n => n.chars
  | .string text => quotedChars text

/-- The items of an array, each on its line. -/
def prettyItems (depth : Nat) : List Json → List Char
  | [] => []
  | [item] => newline depth ++ prettyChars depth item
  | item :: rest => newline depth ++ prettyChars depth item ++ ',' :: prettyItems depth rest

/-- The fields of an object, each on its line. -/
def prettyFields (depth : Nat) : List (JsonText × Json) → List Char
  | [] => []
  | [(name, item)] => newline depth ++ quotedChars name ++ ':' :: ' ' :: prettyChars depth item
  | (name, item) :: rest =>
    newline depth ++ quotedChars name ++ ':' :: ' ' :: (prettyChars depth item ++ ',' :: prettyFields depth rest)

end

/-- The text on several lines. -/
def pretty (j : Json) : String := String.ofList (j.prettyChars 0)

end Json

end HyperQuery
