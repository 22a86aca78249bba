import SagaMachine.Text.Hidden

/-!
# Quoted text

The form in which reports show a string: between double quotes, with a backslash
before quotes and backslashes, letters for the four common controls and the code
point in braces for every other character that has no glyph of its own.
-/

namespace SagaMachine.Text

/-- A character inside a quoted text. -/
def quoteChar (c : Char) : List Char :=
  if c = '"' then ['\\', '"']
  else if c = '\\' then ['\\', '\\']
  else if c = '\n' then ['\\', 'n']
  else if c = '\r' then ['\\', 'r']
  else if c = '\t' then ['\\', 't']
  else if c = '\x00' then ['\\', '0']
  else if isHidden c then ['\\', 'u', '\x7b'] ++ Nat.toDigits 16 c.toNat ++ ['\x7d']
  else [c]

/-- A string between double quotes, with its special characters spelled out. -/
def quote (s : String) : String :=
  String.ofList ('"' :: s.toList.flatMap quoteChar ++ ['"'])

end SagaMachine.Text
