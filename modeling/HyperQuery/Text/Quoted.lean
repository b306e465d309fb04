import HyperQuery.Text.Unprintable
import HyperQuery.Text.GraphemeExtend

/-!
# Quoted strings

A string in double quotes: the quote, the backslash, tab, line feed, carriage return and NUL by a short escape,
every other character that cannot be seen on its own (`isHidden`) by its code point in hexadecimal.
-/

namespace HyperQuery.Text

/-- A code point in lower-case hexadecimal, without leading zeros. -/
def hexDigits (n : Nat) : List Char := Nat.toDigits 16 n

/-- Whether a character has no visible form or is drawn onto the one before it. -/
def isHidden (c : Char) : Bool :=
  isUnprintable c || isHangulFiller c || (isGraphemeExtend c && !isHalfwidthSoundMark c)

/-- One character inside quotes. -/
def escapeChar (c : Char) : List Char :=
  match c with
  | '\x00' => ['\\', '0']
  | '\t' => ['\\', 't']
  | '\n' => ['\\', 'n']
  | '\r' => ['\\', 'r']
  | '\x22' => ['\\', '\x22']
  | '\\' => ['\\', '\\']
  | c =>
    if isHidden c then
      '\\' :: 'u' :: '\x7b' :: (hexDigits c.toNat ++ ['\x7d'])
    else [c]

/-- The string in quotes. -/
def quoted (s : String) : String :=
  String.ofList ('\x22' :: (s.toList.flatMap escapeChar ++ ['\x22']))

end HyperQuery.Text
