import FiberLex.Text.Numeral
import FiberLex.Text.Printable

/-!
# Quoted text in messages

A character in single quotes or a text in double quotes, as messages show them. The quote in use,
the backslash and the usual controls are escaped by a backslash; any other character that cannot be
shown as itself, or would attach to the one before it, is written by its number.
-/

namespace FiberLex.Text

/-- A character by its number: `\u` and the hexadecimal numeral in braces. -/
def numbered (c : Char) : List Char := '\\' :: 'u' :: '{' :: (Numeral.hex c.toNat ++ ['}'])

/-- A character as it stands inside quotes of the given kind. -/
def escaped (quote c : Char) : List Char :=
  if c = '\x00' then ['\\', '0']
  else if c = '\t' then ['\\', 't']
  else if c = '\r' then ['\\', 'r']
  else if c = '\n' then ['\\', 'n']
  else if c = '\\' then ['\\', '\\']
  else if c = quote then ['\\', quote]
  else if isExtending c || !isPrintable c then numbered c
  else [c]

/-- A character in single quotes. -/
def quotedChar (c : Char) : String := String.ofList ('\'' :: (escaped '\'' c ++ ['\'']))

/-- A text in double quotes. -/
def quotedString (s : String) : String :=
  String.ofList ('"' :: (s.toList.flatMap (escaped '"') ++ ['"']))

end FiberLex.Text
