/-!
# Layout of shown values

Reports show a compound value on one line: a record as its name and named fields
between braces, a tuple as its name and arguments between parentheses, a list
between brackets and a mapping between braces.
-/

namespace SagaMachine.Text

/-- Texts joined by a comma and a space. -/
def commaSeparated (parts : List String) : String :=
  String.intercalate ", " parts

/-- A list between brackets. -/
def showList (items : List String) : String :=
  "[" ++ commaSeparated items ++ "]"

/-- A mapping between braces, each key before its value. -/
def showMap (fields : List (String × String)) : String :=
  "\x7b" ++ commaSeparated (fields.map fun f => f.1 ++ ": " ++ f.2) ++ "\x7d"

/-- A name applied to arguments; without arguments the name alone. -/
def showTuple (name : String) (args : List String) : String :=
  if args.isEmpty then name else name ++ "(" ++ commaSeparated args ++ ")"

/-- A name with its named fields. -/
def showRecord (name : String) (fields : List (String × String)) : String :=
  name ++ " \x7b " ++ commaSeparated (fields.map fun f => f.1 ++ ": " ++ f.2) ++ " \x7d"

/-- The two truth values. -/
def showBool (b : Bool) : String := if b then "true" else "false"

end SagaMachine.Text
